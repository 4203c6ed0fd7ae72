import Mathlib.Data.List.Perm.Subperm
import MarkupTypes.Proofs.Work

/-!
# Chains of rules

Scanning for text, looking for the type of a writer and splicing go from rule to rule and
stop where a rule comes up again. So the rules that they are inside of are different rules
of the table (`RuleTable.Chain`), of which there are no more than the table has
(`RuleTable.Chain.length_le`), and what they would do after more steps never matters
(`RuleTable.followWithin_eq`, `Compilation.writerTypeWithin_eq`).
-/

namespace MarkupTypes

namespace RuleTable

variable {t : RuleTable} {id : RuleId} {rule : Rule} {inside : List RuleId}

theorem lt_size_of_get? (h : t.get? id = some rule) : id < t.size :=
  (List.getElem?_eq_some_iff.mp h).1

theorem mem_of_get? (h : t.get? id = some rule) : rule ∈ t.rules := List.mem_of_getElem? h

/-- Different rules of a table. -/
structure Chain (t : RuleTable) (inside : List RuleId) : Prop where
  nodup : inside.Nodup
  lt : ∀ id ∈ inside, id < t.size

theorem Chain.nil : t.Chain [] := ⟨List.nodup_nil, by simp⟩

theorem Chain.cons (h : t.Chain inside) (hrule : t.get? id = some rule) (hnew : id ∉ inside) :
    t.Chain (id :: inside) where
  nodup := List.nodup_cons.mpr ⟨hnew, h.nodup⟩
  lt id' hid' := by
    rcases List.mem_cons.mp hid' with rfl | hid'
    · exact lt_size_of_get? hrule
    · exact h.lt id' hid'

theorem Chain.length_le (h : t.Chain inside) : inside.length ≤ t.size := by
  have hsub : inside ⊆ List.range t.size := fun id hid => List.mem_range.mpr (h.lt id hid)
  have hle := (h.nodup.subperm hsub).length_le
  rwa [List.length_range] at hle

/-! ## Scanning for text -/

/-- A scan that may go deeper than there are rules left goes as deep as it needs. -/
theorem followWithin_eq_of_chain {beyond beyond' : RuleId → List ValueType → TextScan}
    {n n' : Nat} (h : t.Chain inside) (hn : t.size < n + inside.length)
    (hn' : t.size < n' + inside.length) :
    t.followWithin beyond n inside = t.followWithin beyond' n' inside := by
  have hle := h.length_le
  induction n generalizing n' inside with
  | zero => omega
  | succ n ih =>
    obtain ⟨n', rfl⟩ : ∃ m, n' = m + 1 := Nat.exists_eq_succ_of_ne_zero (by omega)
    funext id types
    simp only [followWithin]
    by_cases hmem : id ∈ inside
    · simp only [hmem, if_true]
    · simp only [hmem, if_false]
      cases hrule : t.get? id with
      | none => rfl
      | some rule =>
        have hcons := h.cons hrule hmem
        have hlength : (id :: inside).length = inside.length + 1 := rfl
        have hnext : t.followWithin beyond n (id :: inside) =
            t.followWithin beyond' n' (id :: inside) :=
          ih hcons (by omega) (by omega) hcons.length_le
        rw [hnext]

/-- It makes no difference what a scan does beyond its bound, or how far away that is. -/
theorem followWithin_eq (t : RuleTable) (beyond : RuleId → List ValueType → TextScan) {n : Nat}
    (hn : t.size < n) : t.followWithin beyond n [] = t.follow :=
  followWithin_eq_of_chain .nil hn (Nat.lt_succ_self _)

end RuleTable

/-! ## Looking for the type of a writer -/

namespace Compilation

variable {t : RuleTable} {seen : List RuleId}

theorem writerTypeWithin_eq_of_chain {beyond beyond' : RuleId → Option TypeId} {n n' : Nat}
    (h : t.Chain seen) (hn : t.size < n + seen.length) (hn' : t.size < n' + seen.length)
    (id : RuleId) :
    writerTypeWithin t beyond n seen id = writerTypeWithin t beyond' n' seen id := by
  have hle := h.length_le
  induction n generalizing n' seen id with
  | zero => omega
  | succ n ih =>
    obtain ⟨n', rfl⟩ : ∃ m, n' = m + 1 := Nat.exists_eq_succ_of_ne_zero (by omega)
    simp only [writerTypeWithin]
    by_cases hmem : id ∈ seen
    · simp only [hmem, if_true]
    · simp only [hmem, if_false]
      cases hrule : t.get? id with
      | none => rfl
      | some rule =>
        have hcons := h.cons hrule hmem
        have hlength : (id :: seen).length = seen.length + 1 := rfl
        have hnext : ∀ next, writerTypeWithin t beyond n (id :: seen) next =
            writerTypeWithin t beyond' n' (id :: seen) next := fun next =>
          ih hcons (by omega) (by omega) next hcons.length_le
        simp only [hnext]

/-- It makes no difference what is done after more references, or how many those are. -/
theorem writerTypeWithin_eq (t : RuleTable) (beyond : RuleId → Option TypeId) {n : Nat}
    (hn : t.size < n) (id : RuleId) : writerTypeWithin t beyond n [] id = writerType t id :=
  writerTypeWithin_eq_of_chain .nil hn (Nat.lt_succ_self _) id

end Compilation

end MarkupTypes
