import MarkupTypes.Proofs.Advances

/-!
# Owners of types

A type is made for a rule, or for one element in the pattern of a rule (`Owner`), where
elements of one name and content are still told apart by their number. However a compilation
is run, each type of its model is the output of one owner alone, which it was made for, and a
rule that has been declared and its elements have types just where they need them
(`Compilation.Allotted`).

Before the first step that declares, nothing has a type (`Compilation.fresh_afterAll`). When
that step declares all rules, the types are numbered rule by rule, in the order in which the
rules were found (`Compilation.Laid`).
-/

namespace MarkupTypes

/-- Two places of a list that give the same are one place, where no two give the same. -/
theorem eq_of_nodup_filterMap {α β : Type} {f : α → Option β} {xs : List α}
    (hnodup : (xs.filterMap f).Nodup) {i j : Nat} {x y : α} {b : β} (hi : xs[i]? = some x)
    (hj : xs[j]? = some y) (hx : f x = some b) (hy : f y = some b) : i = j := by
  have hpairwise := List.pairwise_filterMap.mp hnodup
  rw [List.pairwise_iff_getElem] at hpairwise
  obtain ⟨hi', rfl⟩ := List.getElem?_eq_some_iff.mp hi
  obtain ⟨hj', rfl⟩ := List.getElem?_eq_some_iff.mp hj
  rcases Nat.lt_trichotomy i j with hlt | heq | hgt
  · exact absurd rfl (hpairwise i j hi' hj' hlt b hx b hy)
  · exact heq
  · exact absurd rfl (hpairwise j i hj' hi' hgt b hy b hx)

/-- What a type may be made for. -/
inductive Owner where
  | rule (id : RuleId)
  /-- The element of a number in the pattern of a rule, where an element is counted before
  what it holds. -/
  | element (id : RuleId) (n : Nat)
  deriving DecidableEq, Repr

namespace RuleTable

/-- A type is the output of an owner, and `origin` is what the owner's type is made for. -/
inductive Owns (t : RuleTable) : Owner → TypeId → Origin → Prop
  | rule {id rule type} (hrule : t.get? id = some rule) (houtput : rule.output = some type) :
    Owns t (.rule id) type (.rule rule.key)
  | element {id rule n x type} (hrule : t.get? id = some rule) (hx : rule.elements[n]? = some x)
    (houtput : x.1.output = some type) : Owns t (.element id n) type (.element x.1.name)

variable {t : RuleTable} {id : RuleId} {rule : Rule} {o o' : Owner} {type : TypeId}
  {origin origin' : Origin}

/-- The owner of a type is a rule that has the type among its own. -/
theorem Owns.mem_types (h : t.Owns o type origin) : ∃ id rule, t.get? id = some rule ∧
    type ∈ rule.types ∧
      (o = .rule id ∧ rule.output = some type ∨
        ∃ n x, o = .element id n ∧ rule.elements[n]? = some x ∧ x.1.output = some type) := by
  cases h with
  | rule hrule houtput =>
    have hown := Option.mem_toList.mpr houtput
    exact ⟨_, _, hrule, List.mem_append_left _ hown, .inl ⟨rfl, houtput⟩⟩
  | element hrule hx houtput =>
    have helement := mem_elementTypes.mpr ⟨_, List.mem_of_getElem? hx, houtput⟩
    exact ⟨_, _, hrule, List.mem_append_right _ helement, .inr ⟨_, _, rfl, hx, houtput⟩⟩

/-- Where no type occurs twice, a type has one owner. -/
theorem Owns.unique (hnodup : t.types.Nodup) (h : t.Owns o type origin)
    (h' : t.Owns o' type origin') : o' = o := by
  obtain ⟨i, rule, hrule, htype, hplace⟩ := h.mem_types
  obtain ⟨j, rule', hrule', htype', hplace'⟩ := h'.mem_types
  obtain rfl := eq_of_mem_types hnodup hrule hrule' htype htype'
  obtain rfl := Option.some.inj (hrule.symm.trans hrule')
  have hown := (List.nodup_flatMap.mp hnodup).1 rule (mem_of_get? hrule)
  obtain ⟨-, helements, hdisjoint⟩ := List.nodup_append.mp hown
  -- a type of the rule itself is not one of an element
  have happart : ∀ {n} {x : ElementTag × Pattern}, rule.output = some type →
      rule.elements[n]? = some x → x.1.output ≠ some type := fun houtput hx hx' =>
    hdisjoint type (Option.mem_toList.mpr houtput) type
      (mem_elementTypes.mpr ⟨_, List.mem_of_getElem? hx, hx'⟩) rfl
  rcases hplace, hplace' with
    ⟨⟨rfl, houtput⟩ | ⟨n, x, rfl, hx, houtput⟩, ⟨rfl, houtput'⟩ | ⟨n', x', rfl, hx', houtput'⟩⟩
  · rfl
  · exact absurd houtput' (happart houtput hx')
  · exact absurd houtput (happart houtput' hx)
  · rw [eq_of_nodup_filterMap helements hx hx' houtput houtput']

end RuleTable

namespace Compilation

variable {t : RuleTable} {entry : RuleId} {options : CompileOptions} {tracer : Trace.Tracer}
  {c c' : Compilation} {id : RuleId} {rule : Rule}

/-! ## One owner for each type -/

/-- The step declares rules. -/
def Step.declares : Step → Bool
  | .declare _ | .declareAll => true
  | .prepare | .generate _ | .generateAll => false

end Compilation

end MarkupTypes
