import Mathlib.Data.Finset.Dedup
import Mathlib.Data.Finset.Empty
import MarkupTypes.Proofs.MergeOrder

/-!
# What members accept

A member accepts text of some value types, or none (`RuleTable.valuesOf`). Which ones is read
off the slot that the member was made for, and that is the first of its name
(`firstOf`, `Compilation.Finished.mem_rootAccepted_iff`). So a document accepts what the first
occurrences of its names do (`RuleTable.DocumentAccepts`).
-/

namespace MarkupTypes

/-! ## Value types -/

namespace RuleTable

/-- The value types of the member that an attribute or an element stands for. -/
def valuesOf (t : RuleTable) : Slot → List ValueType
  | .attr _ content _ =>
    if (t.scan content).values.isEmpty then [.text] else (t.scan content).values
  | .elem _ content _ => if (t.scan content).onlyText then (t.scan content).values else []
  | .ref _ _ _ => []

/-- What a slot tells of a member besides its label and the type of its content. -/
def reading (t : RuleTable) (s : Slot) : Option MemberKey × List ValueType × Bool :=
  (s.key?, t.valuesOf s, s.optional)

variable {t t' : RuleTable}

theorem valuesOf_skeleton (t : RuleTable) (s : Slot) :
    t.skeleton.valuesOf s.skeleton = t.valuesOf s := by
  cases s with
  | ref => rfl
  | _ => simp only [Slot.skeleton, valuesOf, scan_skeleton]

theorem reading_skeleton (t : RuleTable) (s : Slot) :
    t.skeleton.reading s.skeleton = t.reading s := by
  rw [reading, reading, Slot.key?_skeleton, valuesOf_skeleton, Slot.optional_skeleton]

theorem map_reading_of_map_skeleton (h : t'.skeleton = t.skeleton) {slots slots' : List Slot}
    (hslots : slots'.map Slot.skeleton = slots.map Slot.skeleton) :
    slots'.map t'.reading = slots.map t.reading := by
  have hcomp : ∀ (u : RuleTable) (l : List Slot),
      l.map u.reading = (l.map Slot.skeleton).map u.skeleton.reading := by
    intro u l
    rw [List.map_map]
    exact List.map_congr_left fun s _ => (u.reading_skeleton s).symm
  rw [hcomp, hslots, h, ← hcomp]

/-- What an element without children holds is text of no type. -/
theorem scan_of_children_eq_nil {p : Pattern} (h : p.children.isEmpty = true) :
    t.scan p = ⟨true, []⟩ := by
  cases p with
  | empty m => rfl
  | union m ps =>
    obtain rfl := List.isEmpty_iff.mp h
    rfl
  | _ => cases h

end RuleTable

/-- The value types of an element without a type of its own. -/
def ElementContent.valueTypes : ElementContent → List ValueType
  | .values types => types
  | .nothing | .delegated _ | .structured => []

theorem RuleTable.valueTypes_contentOf (t : RuleTable) (isInline : RuleId → Bool) (p : Pattern) :
    (t.contentOf isInline p).valueTypes =
      if (t.scan p).onlyText then (t.scan p).values else [] := by
  unfold contentOf
  split
  · next hchildren =>
    rw [scan_of_children_eq_nil hchildren]
    rfl
  · simp only
    split
    · split
      · next hempty => exact (List.isEmpty_iff.mp hempty).symm
      · rfl
    · split
      · split <;> rfl
      · rfl

/-- The value types of a member are those of its slot. -/
theorem Expansion.values_of_memberOf (e : Expansion) {s : Slot} {x : Member}
    (h : e.memberOf s = some x) : x.values = e.rules.valuesOf s := by
  cases s with
  | attr tag content optional => cases h; rfl
  | ref id location optional => cases h
  | elem tag content optional =>
    obtain ⟨parts, hparts, rfl⟩ := Option.map_eq_some_iff.mp h
    have hvalues : parts.1 = (e.rules.contentOf e.isInline content).valueTypes := by
      unfold partsOf at hparts
      cases hcontent : e.rules.contentOf e.isInline content with
      | nothing =>
        rw [hcontent] at hparts
        cases hparts
        rfl
      | values types =>
        rw [hcontent] at hparts
        cases hparts
        rfl
      | delegated id =>
        rw [hcontent] at hparts
        obtain ⟨type, -, rfl⟩ := Option.map_eq_some_iff.mp hparts
        rfl
      | structured =>
        rw [hcontent] at hparts
        obtain ⟨type, -, rfl⟩ := Option.map_eq_some_iff.mp hparts
        rfl
    exact hvalues.trans (e.rules.valueTypes_contentOf e.isInline content)

theorem Expansion.map_reading_eq (e : Expansion) : ∀ (members : List Member) (slots : List Slot),
    members.map some = slots.map e.memberOf →
    members.map (fun x => (some x.key, x.values, x.optional)) = slots.map e.rules.reading
  | [], [], _ => rfl
  | x :: members, s :: slots, h => by
    rw [List.map_cons, List.map_cons, List.cons.injEq] at h
    rw [List.map_cons, List.map_cons, e.map_reading_eq members slots h.2, RuleTable.reading,
      e.key?_of_memberOf h.1.symm, e.values_of_memberOf h.1.symm, e.optional_of_memberOf h.1.symm]

/-! ## What documents accept -/

/-- The names, the sets of value types and the flags of the members of the type that documents
start from. -/
def Model.rootAccepted (m : Model) : Finset (MemberKey × Finset ValueType × Bool) :=
  match m.root.bind m.get? with
  | some T => (T.members.map fun x => (x.key, x.values.toFinset, x.optional)).toFinset
  | none => ∅

/-- A name occurs in the content of a document, and first with these value types and this
flag. -/
def RuleTable.DocumentAccepts (t : RuleTable) (entry : RuleId) (doc name : QName) (p : Pattern)
    (key : MemberKey) (types : Finset ValueType) (optional : Bool) : Prop :=
  ∃ occ s, (t.document entry doc name p).Expands (t.document entry doc name p).isInline
      ((p.withAttribute name).slots false) occ ∧ firstOf key occ = some s ∧
    ((t.document entry doc name p).valuesOf s).toFinset = types ∧ s.optional = optional

namespace Compilation

variable {t : RuleTable} {entry : RuleId} {undefined : Rule} {doc name : QName} {p : Pattern}
  {c : Compilation}

/-- Where documents start from an element with a type of its own, the members of that type
accept what the first occurrences of their names do. -/
theorem Finished.mem_rootAccepted_iff (h : Finished t entry c) {rule : Rule}
    (hrule : t.get? entry = some rule) {mark : Mark} {tag : ElementTag} {content : Pattern}
    (hp : rule.pattern = some (.elem mark tag content))
    (hcontent : t.contentOf t.isInline content = .structured) {occ : List Slot}
    (hexpands : t.Expands t.isInline (content.slots false) occ) (key : MemberKey)
    (types : Finset ValueType) (optional : Bool) :
    (key, types, optional) ∈ c.model.rootAccepted ↔
      ∃ s, firstOf key occ = some s ∧ (t.valuesOf s).toFinset = types ∧ s.optional = optional := by
  obtain ⟨T, occ', hT, hmembers, hocc⟩ := h.exists_root hrule hp hcontent hexpands
  have hreading : T.members.map (fun x => (some x.key, x.values, x.optional)) =
      (firsts [] occ).map t.reading := by
    rw [c.expansion.map_reading_eq T.members _ hmembers]
    exact RuleTable.map_reading_of_map_skeleton h.skeleton (map_skeleton_firsts hocc [])
  have hmem : ∀ r, (∃ x ∈ T.members, (some x.key, x.values, x.optional) = r) ↔
      ∃ s ∈ firsts [] occ, t.reading s = r := fun r => by
    rw [← List.mem_map, ← List.mem_map, hreading]
  have hroot : c.model.rootAccepted =
      (T.members.map fun x => (x.key, x.values.toFinset, x.optional)).toFinset := by
    rw [Model.rootAccepted, hT]
  rw [hroot, List.mem_toFinset, List.mem_map]
  constructor
  · rintro ⟨x, hx, heq⟩
    obtain ⟨rfl, rfl, rfl⟩ : x.key = key ∧ x.values.toFinset = types ∧ x.optional = optional := by
      simpa only [Prod.mk.injEq] using heq
    obtain ⟨s, hs, hread⟩ := (hmem _).mp ⟨x, hx, rfl⟩
    simp only [RuleTable.reading, Prod.mk.injEq] at hread
    exact ⟨s, (mem_firsts_iff List.not_mem_nil).mp ⟨hs, hread.1⟩, by rw [hread.2.1], hread.2.2⟩
  · rintro ⟨s, hs, rfl, rfl⟩
    obtain ⟨hs, hkey⟩ := (mem_firsts_iff List.not_mem_nil).mpr hs
    obtain ⟨x, hx, hread⟩ := (hmem _).mpr ⟨s, hs, rfl⟩
    simp only [RuleTable.reading, Prod.mk.injEq, hkey, Option.some.injEq] at hread
    exact ⟨x, hx, by rw [hread.1, hread.2.1, hread.2.2]⟩

/-- The members of a document accept what the first occurrences of their names do. -/
theorem mem_rootAccepted_document_iff (hentry : t.get? entry = some undefined)
    (hnone : undefined.pattern = none) (hcompiles : (t.document entry doc name p).Compiles entry)
    (h : Finished (t.document entry doc name p) entry c) (key : MemberKey)
    (types : Finset ValueType) (optional : Bool) :
    (key, types, optional) ∈ c.model.rootAccepted ↔
      t.DocumentAccepts entry doc name p key types optional := by
  obtain ⟨rule, hrule, hp⟩ := get?_document hentry hnone doc name p
  obtain ⟨occ, hexpands⟩ := hcompiles.expands _ (live_document hentry hnone)
  have hcontent := RuleTable.contentOf_eq_structured (t.document entry doc name p)
    (t.document entry doc name p).isInline (exists_attribute p name)
  rw [h.mem_rootAccepted_iff hrule hp hcontent hexpands]
  constructor
  · rintro ⟨s, hs⟩
    exact ⟨occ, s, hexpands, hs⟩
  · rintro ⟨occ', s, hexpands', hs⟩
    obtain rfl := hexpands.unique hexpands'
    exact ⟨s, hs⟩

/-- Two documents give members that accept the same exactly if both compile or neither does,
and all names accept the same where both compile. -/
theorem map_rootAccepted_eq_iff (hfresh : t.Fresh) (hentry : t.get? entry = some undefined)
    (hnone : undefined.pattern = none) {p' : Pattern} (hp : p.Untyped) (hp' : p'.Untyped)
    {options : CompileOptions} {tracer : Trace.Tracer} :
    (compiled (t.document entry doc name p) entry options tracer).map Model.rootAccepted =
        (compiled (t.document entry doc name p') entry options tracer).map Model.rootAccepted ↔
      ((t.document entry doc name p).Compiles entry ↔
        (t.document entry doc name p').Compiles entry) ∧
      ((t.document entry doc name p).Compiles entry →
        (t.document entry doc name p').Compiles entry → ∀ key types optional,
          t.DocumentAccepts entry doc name p key types optional ↔
            t.DocumentAccepts entry doc name p' key types optional) := by
  have hfresh₁ := fresh_document hfresh hp entry doc name
  have hfresh₂ := fresh_document hfresh hp' entry doc name
  by_cases h₁ : (t.document entry doc name p).Compiles entry
  · obtain ⟨c₁, hc₁, hfinished₁⟩ := compiled_of_compiles hfresh₁ h₁ options tracer
    by_cases h₂ : (t.document entry doc name p').Compiles entry
    · obtain ⟨c₂, hc₂, hfinished₂⟩ := compiled_of_compiles hfresh₂ h₂ options tracer
      rw [hc₁, hc₂, Option.map_some, Option.map_some, Option.some.injEq, Finset.ext_iff]
      simp only [Prod.forall, mem_rootAccepted_document_iff hentry hnone h₁ hfinished₁,
        mem_rootAccepted_document_iff hentry hnone h₂ hfinished₂, h₁, h₂, true_and,
        forall_const]
    · rw [hc₁, compiled_of_not_compiles hfresh₂ h₂]
      exact ⟨fun heq => (nomatch heq), fun h => absurd (h.1.mp h₁) h₂⟩
  · by_cases h₂ : (t.document entry doc name p').Compiles entry
    · obtain ⟨c₂, hc₂, -⟩ := compiled_of_compiles hfresh₂ h₂ options tracer
      rw [compiled_of_not_compiles hfresh₁ h₁, hc₂]
      exact ⟨fun heq => (nomatch heq), fun h => absurd (h.1.mpr h₂) h₁⟩
    · rw [compiled_of_not_compiles hfresh₁ h₁, compiled_of_not_compiles hfresh₂ h₂]
      exact ⟨fun _ => ⟨iff_of_false h₁ h₂, fun h => absurd h h₁⟩, fun _ => rfl⟩

end Compilation

end MarkupTypes
