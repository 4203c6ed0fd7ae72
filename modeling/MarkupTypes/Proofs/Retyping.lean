import MarkupTypes.Proofs.Success

/-!
# Tables that differ in types

Two tables may differ in the types that rules and elements have got : one of them has been
declared further, or they were declared in different orders. Slots are then related by a map of
types (`Slot.Retyped`), and so are expansions, first occurrences, members and parents. What one
table says about a type, the other says about the type that it is mapped to
(`Expansion.Retypes.members_eq`, `Expansion.Retypes.parentsOf_eq`).
-/

namespace MarkupTypes

/-! ## Slots with other types -/

/-- Two slots that are the same but for the types of their elements, where the type of an
element itself is mapped by `σ`. -/
inductive Slot.Retyped (σ : TypeId → TypeId) : Slot → Slot → Prop
  | attr {tag p p' optional} (hp : p'.skeleton = p.skeleton) :
    Retyped σ (.attr tag p optional) (.attr tag p' optional)
  | elem {tag tag' p p' optional} (hname : tag'.name = tag.name) (hlabel : tag'.label = tag.label)
    (hown : ∀ own, tag.output = some own → tag'.output = some (σ own))
    (hp : p'.skeleton = p.skeleton) : Retyped σ (.elem tag p optional) (.elem tag' p' optional)
  | ref {id location optional} :
    Retyped σ (.ref id location optional) (.ref id location optional)

variable {σ : TypeId → TypeId}

theorem Slot.likens_retyped (σ : TypeId → TypeId) : Slot.Likens (Slot.Retyped σ) where
  key h := by
    cases h with
    | elem hname => simp [Slot.key?, hname]
    | _ => rfl
  rule h := by cases h <;> rfl
  ref h := by
    cases h
    exact ⟨_, rfl⟩

theorem Slot.Retyped.own_eq {s s' : Slot} (h : s.Retyped σ s') {own : TypeId}
    (hown : s.own? = some own) : s'.own? = some (σ own) := by
  cases h with
  | elem _ _ houtput => exact houtput own hown
  | _ => cases hown

theorem Slot.Retyped.refl (s : Slot) : s.Retyped id s := by
  cases s with
  | attr => exact .attr rfl
  | elem => exact .elem rfl rfl (fun _ h => h) rfl
  | ref => exact .ref

theorem forall₂_retyped_refl (slots : List Slot) :
    List.Forall₂ (Slot.Retyped id) slots slots :=
  List.forall₂_same.mpr fun s _ => .refl s

/-- A rule with the types of another mapped by `σ`, and maybe more types. -/
structure Rule.Retypes (σ : TypeId → TypeId) (r r' : Rule) : Prop where
  slots : ∀ outer, List.Forall₂ (Slot.Retyped σ) (r.slots outer) (r'.slots outer)
  output : ∀ type, r.output = some type → r'.output = some (σ type)
  jobs : ∀ job ∈ r.jobs, ∃ job' ∈ r'.jobs, job'.1 = σ job.1
  owners : ∀ owner ∈ r.owners, ∃ slots', (σ owner.1, slots') ∈ r'.owners ∧
    List.Forall₂ (Slot.Retyped σ) owner.2 slots'

/-- Two rules of one pattern and one type. -/
theorem Rule.Retypes.of_eq {r r' : Rule} (hpattern : r'.pattern = r.pattern)
    (houtput : r'.output = r.output) : r.Retypes id r' := by
  have hslots : ∀ outer, r'.slots outer = r.slots outer := Rule.slots_congr hpattern
  have hjobs : r'.jobs = r.jobs := by simp only [Rule.jobs, hpattern, houtput, hslots]
  have howners : r'.owners = r.owners := by
    simp only [Rule.owners, Rule.elements, hpattern, houtput, hslots]
  constructor
  · intro outer
    rw [hslots]
    exact forall₂_retyped_refl _
  · exact fun type htype => houtput.trans htype
  · exact fun job hjob => ⟨job, hjobs ▸ hjob, rfl⟩
  · exact fun owner howner => ⟨owner.2, howners ▸ howner, forall₂_retyped_refl _⟩

/-- A table with the types of another mapped by `σ`, and maybe more types. -/
structure RuleTable.Retypes (σ : TypeId → TypeId) (t t' : RuleTable) : Prop where
  skeleton : t'.skeleton = t.skeleton
  rules : ∀ id rule, t.get? id = some rule → ∃ rule', t'.get? id = some rule' ∧
    rule.Retypes σ rule'

theorem RuleTable.Retypes.owners {t t' : RuleTable} (h : t.Retypes σ t') {type : TypeId}
    {slots : List Slot} (howner : (type, slots) ∈ t.owners) :
    ∃ slots', (σ type, slots') ∈ t'.owners ∧ List.Forall₂ (Slot.Retyped σ) slots slots' := by
  obtain ⟨rule, hmem, howner⟩ := List.mem_flatMap.mp howner
  obtain ⟨id, hrule⟩ := List.mem_iff_getElem?.mp hmem
  obtain ⟨rule', hrule', hretypes⟩ := h.rules id rule hrule
  obtain ⟨slots', howner', hslots⟩ := hretypes.owners _ howner
  exact ⟨slots', List.mem_flatMap.mpr ⟨rule', mem_of_get? hrule', howner'⟩, hslots⟩

/-- An expansion whose table has the types of another mapped by `σ`, and maybe more types. -/
structure Expansion.Retypes (σ : TypeId → TypeId) (e e' : Expansion) : Prop where
  inline : e'.isInline = e.isInline
  returns : e'.returns = e.returns
  rules : e.rules.Retypes σ e'.rules

/-- The member with its type of content mapped. -/
def Member.retype (σ : TypeId → TypeId) (m : Member) : Member :=
  { m with content := m.content.map σ }

@[simp] theorem Member.retype_id : Member.retype id = id := by
  funext m
  simp [retype]

/-- Slots whose references to rules with types refer to rules that have got their types. -/
def Expansion.Bound (e : Expansion) (occ : List Slot) : Prop :=
  ∀ s ∈ occ, ∀ id, s.rule? = some id →
    ∃ rule parent, e.rules.get? id = some rule ∧ rule.output = some parent

namespace Expansion.Retypes

variable {e e' : Expansion} (h : e.Retypes σ e') {slots slots' occ occ' : List Slot} {s s' : Slot}

include h

theorem expands (hexpands : e.rules.Expands e.isInline slots occ)
    (hslots : List.Forall₂ (Slot.Retyped σ) slots slots') :
    ∃ occ', e'.rules.Expands e'.isInline slots' occ' ∧
      List.Forall₂ (Slot.Retyped σ) occ occ' := by
  rw [h.inline]
  refine hexpands.related (Slot.likens_retyped σ) (fun id rule hrule _ => ?_) hslots
  obtain ⟨rule', hrule', hretypes⟩ := h.rules.rules id rule hrule
  exact ⟨rule', hrule', hretypes.slots⟩

theorem output_eq {id : RuleId} {type : TypeId}
    (houtput : (e.rules.get? id).bind Rule.output = some type) :
    (e'.rules.get? id).bind Rule.output = some (σ type) := by
  obtain ⟨rule, hrule, houtput⟩ := Option.bind_eq_some_iff.mp houtput
  obtain ⟨rule', hrule', hretypes⟩ := h.rules.rules id rule hrule
  rw [hrule', Option.bind_some, hretypes.output type houtput]

theorem contentOf_eq {p p' : Pattern} (hp : p'.skeleton = p.skeleton) :
    e'.rules.contentOf e'.isInline p' = e.rules.contentOf e.isInline p := by
  rw [h.inline]
  exact RuleTable.contentOf_eq_of_skeleton_eq h.rules.skeleton _ hp

/-- What an attribute or an element stands for. -/
theorem memberOf_eq (hs : s.Retyped σ s') {x : Member} (hx : e.memberOf s = some x) :
    e'.memberOf s' = some (x.retype σ) := by
  cases hs with
  | ref => cases hx
  | attr hp =>
    cases hx
    have hscan := RuleTable.scan_eq_of_skeleton_eq h.rules.skeleton hp
    simp [memberOf, attributeMember, attributeValues, Member.retype, hscan, h.returns]
  | @elem tag tag' p p' optional hname hlabel hown hp =>
    obtain ⟨parts, hparts, rfl⟩ := Option.map_eq_some_iff.mp hx
    have hparts' : e'.partsOf tag' p' = some (parts.1, parts.2.map σ) := by
      unfold partsOf at hparts ⊢
      rw [h.contentOf_eq hp]
      cases hcontent : e.rules.contentOf e.isInline p with
      | nothing =>
        rw [hcontent] at hparts
        cases hparts
        rfl
      | values types =>
        rw [hcontent] at hparts
        cases hparts
        rfl
      | delegated id =>
        rw [hcontent] at hparts
        obtain ⟨type, houtput, rfl⟩ := Option.map_eq_some_iff.mp hparts
        simp [h.output_eq houtput]
      | structured =>
        rw [hcontent] at hparts
        obtain ⟨type, houtput, rfl⟩ := Option.map_eq_some_iff.mp hparts
        simp [hown type houtput]
    simp [memberOf, hparts', elementMember, Member.retype, hname, hlabel, h.returns]

/-- The members that some content says. -/
theorem members_eq (hocc : List.Forall₂ (Slot.Retyped σ) occ occ') {members : List Member}
    (hmembers : members.map some = (firsts [] occ).map e.memberOf) :
    (members.map (Member.retype σ)).map some = (firsts [] occ').map e'.memberOf := by
  have hfirsts := (Slot.likens_retyped σ).firsts hocc []
  have hmap : (firsts [] occ').map e'.memberOf =
      (firsts [] occ).map fun s => (e.memberOf s).map (Member.retype σ) := by
    refine map_eq_of_forall₂ hfirsts fun s s' hs hretyped => ?_
    have hmem : e.memberOf s ∈ members.map some := hmembers ▸ List.mem_map_of_mem hs
    obtain ⟨x, -, hx⟩ := List.mem_map.mp hmem
    rw [h.memberOf_eq hretyped hx.symm, ← hx, Option.map_some]
  have hcomp : (fun s => (e.memberOf s).map (Member.retype σ)) =
      Option.map (Member.retype σ) ∘ e.memberOf := rfl
  rw [hmap, hcomp, ← List.map_map, ← hmembers, List.map_map, List.map_map]
  rfl

/-- The parents that some content says. -/
theorem parentsOf_eq (hocc : List.Forall₂ (Slot.Retyped σ) occ occ') (hbound : e.Bound occ) :
    e'.parentsOf occ' = (e.parentsOf occ).map σ := by
  induction hocc with
  | nil => rfl
  | @cons s s' occ occ' hs _ ih =>
    have ih := ih fun s hs => hbound s (List.mem_cons_of_mem _ hs)
    have hrule := (Slot.likens_retyped σ).rule hs
    simp only [parentsOf] at ih ⊢
    cases hid : s.rule? with
    | none =>
      rw [hid] at hrule
      simp only [List.filterMap_cons, hrule, hid, Option.bind_none]
      exact ih
    | some id =>
      obtain ⟨rule, parent, hget, houtput⟩ := hbound s List.mem_cons_self id hid
      have hbefore : (s.rule?.bind e.rules.get?).bind Rule.output = some parent := by
        rw [hid, Option.bind_some, hget, Option.bind_some, houtput]
      have hafter : (s'.rule?.bind e'.rules.get?).bind Rule.output = some (σ parent) := by
        rw [hrule, hid, Option.bind_some]
        exact h.output_eq (by rw [hget, Option.bind_some, houtput])
      simp only [List.filterMap_cons, hbefore, hafter, List.map_cons, ih]

theorem bound (hocc : List.Forall₂ (Slot.Retyped σ) occ occ') (hbound : e.Bound occ) :
    e'.Bound occ' := by
  intro s' hs' id hid
  obtain ⟨s, hs, hretyped⟩ := exists_of_forall₂_right hocc hs'
  rw [(Slot.likens_retyped σ).rule hretyped] at hid
  obtain ⟨rule, parent, hrule, houtput⟩ := hbound s hs id hid
  obtain ⟨rule', hrule', hretypes⟩ := h.rules.rules id rule hrule
  exact ⟨rule', σ parent, hrule', hretypes.output parent houtput⟩

end Expansion.Retypes

end MarkupTypes
