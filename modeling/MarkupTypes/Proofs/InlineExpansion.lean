import MarkupTypes.Proofs.Integrity

/-!
# What types are filled with

The content of a type, written out with the pattern of every inline rule in the place of a
reference to it (`RuleTable.Expands`), is a plain list of attributes, elements and references
to rules with types. A compilation that succeeds gives a type just what this list says
(`Expansion.Describes`) : one member for the first occurrence of each name, in order, and
as parents the types of the rules that are referred to.

`Compilation.finish_describes` says so for the type of every rule, and for the type of the
content of every member. A type belongs to one rule or element (`RuleTable.owners`), so it
cannot have been filled with the content of another.
-/

namespace MarkupTypes

/-- The slots of a pattern with inline rules written out, in order. -/
inductive RuleTable.Expands (t : RuleTable) (isInline : RuleId → Bool) :
    List Slot → List Slot → Prop
  | nil : Expands t isInline [] []
  | keep {slot rest occ} (hslot : ∀ id, slot.rule? = some id → isInline id = false)
    (tail : Expands t isInline rest occ) : Expands t isInline (slot :: rest) (slot :: occ)
  | splice {id location optional rule rest inner occ} (hrule : t.get? id = some rule)
    (hinline : isInline id = true) (body : Expands t isInline (rule.slots optional) inner)
    (tail : Expands t isInline rest occ) :
    Expands t isInline (.ref id location optional :: rest) (inner ++ occ)

/-- The attributes and elements whose names have not come up before, nor in `seen`. -/
def firsts : List MemberKey → List Slot → List Slot
  | _, [] => []
  | seen, s :: rest => match s.key? with
    | some key => if seen.contains key then firsts seen rest else s :: firsts (key :: seen) rest
    | none => firsts seen rest

/-- The names of attributes and elements, as they occur. -/
def keys (slots : List Slot) : List MemberKey := slots.filterMap Slot.key?

/-! ## Expanding -/

namespace RuleTable.Expands

variable {t : RuleTable} {isInline : RuleId → Bool} {slots rest occ occ' : List Slot}

/-- A slot that is no reference to an inline rule is kept. -/
theorem of_keep {slot : Slot} (h : t.Expands isInline (slot :: rest) occ)
    (hslot : ∀ id, slot.rule? = some id → isInline id = false) :
    ∃ occ', occ = slot :: occ' ∧ t.Expands isInline rest occ' := by
  cases h with
  | keep _ tail => exact ⟨_, rfl, tail⟩
  | splice _ hinline =>
    rw [hslot _ rfl] at hinline
    cases hinline

/-- A reference to an inline rule stands for the pattern of the rule. -/
theorem of_splice {id : RuleId} {location : Option Location} {optional : Bool} {rule : Rule}
    (h : t.Expands isInline (.ref id location optional :: rest) occ)
    (hrule : t.get? id = some rule) (hinline : isInline id = true) :
    ∃ inner occ', occ = inner ++ occ' ∧ t.Expands isInline (rule.slots optional) inner ∧
      t.Expands isInline rest occ' := by
  cases h with
  | keep hslot =>
    rw [hslot id rfl] at hinline
    cases hinline
  | splice hrule' _ body tail =>
    obtain rfl := Option.some.inj (hrule.symm.trans hrule')
    exact ⟨_, _, rfl, body, tail⟩

theorem append (h : t.Expands isInline slots occ) (h' : t.Expands isInline rest occ') :
    t.Expands isInline (slots ++ rest) (occ ++ occ') := by
  induction h with
  | nil => exact h'
  | keep hslot _ ih => exact .keep hslot ih
  | splice hrule hinline body _ _ ih =>
    rw [List.append_assoc]
    exact .splice hrule hinline body ih

/-- Two lists of slots are written out one after the other. -/
theorem of_append : ∀ {slots : List Slot} {occ : List Slot},
    t.Expands isInline (slots ++ rest) occ →
    ∃ occ₁ occ₂, occ = occ₁ ++ occ₂ ∧ t.Expands isInline slots occ₁ ∧ t.Expands isInline rest occ₂
  | [], occ, h => ⟨[], occ, rfl, .nil, h⟩
  | _ :: _, _, h => by
    cases h with
    | keep hslot tail =>
      obtain ⟨occ₁, occ₂, rfl, hslots, hrest⟩ := of_append tail
      exact ⟨_, occ₂, rfl, .keep hslot hslots, hrest⟩
    | splice hrule hinline body tail =>
      obtain ⟨occ₁, occ₂, rfl, hslots, hrest⟩ := of_append tail
      exact ⟨_, occ₂, (List.append_assoc ..).symm, .splice hrule hinline body hslots, hrest⟩

/-- Slots are written out in one way at most. -/
theorem unique (h : t.Expands isInline slots occ) (h' : t.Expands isInline slots occ') :
    occ = occ' := by
  induction h generalizing occ' with
  | nil =>
    cases h'
    rfl
  | keep hslot _ ih =>
    obtain ⟨tail, rfl, htail⟩ := h'.of_keep hslot
    rw [ih htail]
  | splice hrule hinline _ _ ihbody ih =>
    obtain ⟨inner, tail, rfl, hinner, htail⟩ := h'.of_splice hrule hinline
    rw [ihbody hinner, ih htail]

/-- What is written out comes from the table, if the slots do. -/
theorem elements_subset (h : t.Expands isInline slots occ)
    (hslots : ∀ s ∈ slots, s.elements ⊆ t.elements) : ∀ s ∈ occ, s.elements ⊆ t.elements := by
  induction h with
  | nil => exact fun _ hs => absurd hs List.not_mem_nil
  | keep _ _ ih =>
    intro s hs
    rcases List.mem_cons.mp hs with rfl | hs
    · exact hslots s List.mem_cons_self
    · exact ih (fun s' hs' => hslots s' (List.mem_cons_of_mem _ hs')) s hs
  | splice hrule _ _ _ ihbody ih =>
    intro s hs
    rcases List.mem_append.mp hs with hs | hs
    · refine ihbody (fun s' hs' x hx => ?_) s hs
      exact mem_elements.mpr ⟨_, _, hrule, Rule.elements_of_mem_slots hs' hx⟩
    · exact ih (fun s' hs' => hslots s' (List.mem_cons_of_mem _ hs')) s hs

/-- What is no reference to an inline rule is still there when slots are written out. -/
theorem mem_of_mem (h : t.Expands isInline slots occ) {s : Slot} (hs : s ∈ slots)
    (hslot : ∀ id, s.rule? = some id → isInline id = false) : s ∈ occ := by
  induction h with
  | nil => cases hs
  | keep _ _ ih =>
    rcases List.mem_cons.mp hs with rfl | hs
    · exact List.mem_cons_self
    · exact List.mem_cons_of_mem _ (ih hs)
  | splice _ hinline _ _ _ ih =>
    rcases List.mem_cons.mp hs with rfl | hs
    · rw [hslot _ rfl] at hinline
      cases hinline
    · exact List.mem_append_right _ (ih hs)

/-- What is written out stands among the slots, or in an inline rule. -/
theorem mem_cases (h : t.Expands isInline slots occ) {s : Slot} (hs : s ∈ occ) :
    s ∈ slots ∨ ∃ id rule optional, t.get? id = some rule ∧ isInline id = true ∧
      s ∈ rule.slots optional := by
  induction h with
  | nil => cases hs
  | keep _ _ ih =>
    rcases List.mem_cons.mp hs with rfl | hs
    · exact .inl List.mem_cons_self
    · exact (ih hs).imp_left (List.mem_cons_of_mem _)
  | splice hrule hinline _ _ ihbody ih =>
    rcases List.mem_append.mp hs with hs | hs
    · rcases ihbody hs with hs | hfound
      · exact .inr ⟨_, _, _, hrule, hinline, hs⟩
      · exact .inr hfound
    · exact (ih hs).imp_left (List.mem_cons_of_mem _)

/-- What is written out contains no reference to an inline rule. -/
theorem not_inline (h : t.Expands isInline slots occ) :
    ∀ s ∈ occ, ∀ id, s.rule? = some id → isInline id = false := by
  induction h with
  | nil => exact fun _ hs => absurd hs List.not_mem_nil
  | keep hslot _ ih =>
    intro s hs
    rcases List.mem_cons.mp hs with rfl | hs
    · exact hslot
    · exact ih s hs
  | splice _ _ _ _ ihbody ih =>
    intro s hs
    rcases List.mem_append.mp hs with hs | hs
    · exact ihbody s hs
    · exact ih s hs

end RuleTable.Expands

/-! ## First occurrences -/

theorem keys_append (a b : List Slot) : keys (a ++ b) = keys a ++ keys b :=
  List.filterMap_append ..

section Firsts

variable {seen : List MemberKey} {s : Slot} {rest slots : List Slot} {key : MemberKey}

theorem firsts_nil (seen : List MemberKey) : firsts seen [] = [] := rfl

theorem firsts_cons_none (hkey : s.key? = none) : firsts seen (s :: rest) = firsts seen rest := by
  simp only [firsts, hkey]

theorem firsts_cons_seen (hkey : s.key? = some key) (hseen : key ∈ seen) :
    firsts seen (s :: rest) = firsts seen rest := by
  simp only [firsts, hkey, List.contains_iff_mem, hseen, if_true]

theorem firsts_cons_new (hkey : s.key? = some key) (hnew : key ∉ seen) :
    firsts seen (s :: rest) = s :: firsts (key :: seen) rest := by
  simp only [firsts, hkey, List.contains_iff_mem, hnew, if_false]

/-- First occurrences depend on which names were seen, and not on their order. -/
theorem firsts_congr {seen' : List MemberKey} (h : ∀ key, key ∈ seen ↔ key ∈ seen')
    (slots : List Slot) : firsts seen slots = firsts seen' slots := by
  induction slots generalizing seen seen' with
  | nil => rfl
  | cons s rest ih =>
    cases hkey : s.key? with
    | none =>
      rw [firsts_cons_none hkey, firsts_cons_none hkey]
      exact ih h
    | some key =>
      by_cases hseen : key ∈ seen
      · rw [firsts_cons_seen hkey hseen, firsts_cons_seen hkey ((h key).mp hseen)]
        exact ih h
      · have hcons : ∀ k, k ∈ key :: seen ↔ k ∈ key :: seen' := fun k => by
          rw [List.mem_cons, List.mem_cons, h k]
        rw [firsts_cons_new hkey hseen, firsts_cons_new hkey (mt (h key).mpr hseen), ih hcons]

theorem firsts_append (seen : List MemberKey) (a b : List Slot) :
    firsts seen (a ++ b) = firsts seen a ++ firsts (keys a ++ seen) b := by
  induction a generalizing seen with
  | nil => rfl
  | cons s rest ih =>
    rw [List.cons_append]
    cases hkey : s.key? with
    | none =>
      have hkeys : keys (s :: rest) = keys rest := List.filterMap_cons_none hkey
      rw [firsts_cons_none hkey, firsts_cons_none hkey, ih, hkeys]
    | some key =>
      have hkeys : keys (s :: rest) = key :: keys rest := List.filterMap_cons_some hkey
      by_cases hseen : key ∈ seen
      · rw [firsts_cons_seen hkey hseen, firsts_cons_seen hkey hseen, ih, hkeys]
        refine congrArg _ (firsts_congr (fun k => ?_) b)
        simp only [List.cons_append, List.mem_cons, List.mem_append]
        constructor
        · exact Or.inr
        · rintro (rfl | hk)
          · exact .inr hseen
          · exact hk
      · rw [firsts_cons_new hkey hseen, firsts_cons_new hkey hseen, ih, hkeys, List.cons_append]
        refine congrArg (s :: firsts _ rest ++ ·) (firsts_congr (fun k => ?_) b)
        simp only [List.cons_append, List.mem_cons, List.mem_append]
        exact or_left_comm

theorem mem_of_mem_firsts (h : s ∈ firsts seen slots) : s ∈ slots := by
  induction slots generalizing seen with
  | nil => cases h
  | cons s' rest ih =>
    cases hkey : s'.key? with
    | none =>
      rw [firsts_cons_none hkey] at h
      exact List.mem_cons_of_mem _ (ih h)
    | some key =>
      by_cases hseen : key ∈ seen
      · rw [firsts_cons_seen hkey hseen] at h
        exact List.mem_cons_of_mem _ (ih h)
      · rw [firsts_cons_new hkey hseen] at h
        rcases List.mem_cons.mp h with rfl | h
        · exact List.mem_cons_self
        · exact List.mem_cons_of_mem _ (ih h)

/-- Every name that was not seen before has a first occurrence. -/
theorem exists_mem_firsts (hs : s ∈ slots) (hkey : s.key? = some key) (hnew : key ∉ seen) :
    ∃ s' ∈ firsts seen slots, s'.key? = some key := by
  induction slots generalizing seen with
  | nil => cases hs
  | cons s' rest ih =>
    cases hkey' : s'.key? with
    | none =>
      rw [firsts_cons_none hkey']
      rcases List.mem_cons.mp hs with rfl | hs
      · rw [hkey] at hkey'
        cases hkey'
      · exact ih hs hnew
    | some key' =>
      by_cases hseen : key' ∈ seen
      · rw [firsts_cons_seen hkey' hseen]
        rcases List.mem_cons.mp hs with rfl | hs
        · obtain rfl := Option.some.inj (hkey.symm.trans hkey')
          exact absurd hseen hnew
        · exact ih hs hnew
      · rw [firsts_cons_new hkey' hseen]
        by_cases heq : key = key'
        · subst heq
          exact ⟨s', List.mem_cons_self, hkey'⟩
        · rcases List.mem_cons.mp hs with rfl | hs
          · exact absurd (Option.some.inj (hkey.symm.trans hkey')) heq
          · obtain ⟨s'', hs'', hkey''⟩ :=
              ih hs fun hm => (List.mem_cons.mp hm).elim heq hnew
            exact ⟨s'', List.mem_cons_of_mem _ hs'', hkey''⟩

end Firsts

/-! ## Owners of types -/

/-- The types of a rule and of its elements, each with the slots of its content. -/
def Rule.owners (r : Rule) : List (TypeId × List Slot) :=
  (r.output.toList.map fun type => (type, r.slots false)) ++
    r.elements.filterMap fun x => x.1.output.map fun type => (type, x.2.slots false)

/-- The types of all rules and elements, each with the slots of its content. -/
def RuleTable.owners (t : RuleTable) : List (TypeId × List Slot) := t.rules.flatMap Rule.owners

theorem Rule.map_fst_owners (r : Rule) : r.owners.map Prod.fst = r.types := by
  rw [owners, types, List.map_append, List.map_map, List.map_filterMap, elementTypes]
  congr 1
  · exact List.map_id _
  · refine congrArg (List.filterMap · r.elements) (funext fun x => ?_)
    cases x.1.output <;> rfl

theorem RuleTable.map_fst_owners (t : RuleTable) : t.owners.map Prod.fst = t.types := by
  rw [owners, types, List.map_flatMap]
  exact congrArg (List.flatMap · t.rules) (funext Rule.map_fst_owners)

theorem Rule.mem_types_of_mem_owners {r : Rule} {owner : TypeId × List Slot}
    (h : owner ∈ r.owners) : owner.1 ∈ r.types := by
  rw [← r.map_fst_owners]
  exact List.mem_map_of_mem h

/-- A type has one owner. -/
theorem RuleTable.owners_unique {t : RuleTable} (hnodup : t.types.Nodup) {type : TypeId}
    {slots slots' : List Slot} (h : (type, slots) ∈ t.owners) (h' : (type, slots') ∈ t.owners) :
    slots = slots' := by
  rw [← map_fst_owners] at hnodup
  exact congrArg Prod.snd (List.inj_on_of_nodup_map hnodup h h' rfl)

/-- An element with a type owns it. -/
theorem RuleTable.mem_owners_of_element {t : RuleTable} {tag : ElementTag} {content : Pattern}
    {type : TypeId} (hmem : (tag, content) ∈ t.elements) (houtput : tag.output = some type) :
    (type, content.slots false) ∈ t.owners := by
  obtain ⟨id, rule, hrule, hx⟩ := mem_elements.mp hmem
  refine List.mem_flatMap.mpr ⟨rule, mem_of_get? hrule, List.mem_append_right _ ?_⟩
  exact List.mem_filterMap.mpr ⟨(tag, content), hx, by simp [houtput]⟩

/-- A rule with a type owns it. -/
theorem RuleTable.mem_owners_of_rule {t : RuleTable} {id : RuleId} {rule : Rule} {type : TypeId}
    (hrule : t.get? id = some rule) (houtput : rule.output = some type) :
    (type, rule.slots false) ∈ t.owners := by
  refine List.mem_flatMap.mpr ⟨rule, mem_of_get? hrule, List.mem_append_left _ ?_⟩
  rw [houtput]
  exact List.mem_singleton_self _

/-! ## What a slot says -/

namespace Expansion

variable (e : Expansion)

/-- The member that an attribute or an element stands for. -/
def memberOf : Slot → Option Member
  | .attr tag content optional => some (e.attributeMember tag content optional)
  | .elem tag content optional =>
    (e.partsOf tag content).map fun parts => e.elementMember tag parts optional
  | .ref _ _ _ => none

/-- The types of the rules that are referred to. -/
def parentsOf (slots : List Slot) : List TypeId :=
  slots.filterMap fun s => (s.rule?.bind e.rules.get?).bind Rule.output

/-- A type as its content says, where `occ` is the content with inline rules written out. -/
structure Describes (type : TypeId) (slots occ : List Slot) (T : WriterType) : Prop where
  expands : e.rules.Expands e.isInline slots occ
  /-- A member for the first occurrence of each name, in order. -/
  members : T.members.map some = (firsts [] occ).map e.memberOf
  parents : ∀ parent, parent ∈ T.parents ↔ parent ≠ type ∧ parent ∈ e.parentsOf occ

/-- There is a type as the content says, and the types of its elements have been filled. -/
def Populated (d : Draft) (type : TypeId) (slots : List Slot) : Prop :=
  ∃ T occ, d.model.get? type = some T ∧ e.Describes type slots occ T ∧
    ∀ s ∈ firsts [] occ, ∀ own, s.own? = some own → own ∈ d.filled

/-- Elements have types only where their contents need them. -/
def Shaped : Prop :=
  ∀ x ∈ e.rules.elements, ∀ type, x.1.output = some type →
    e.rules.contentOf e.isInline x.2 = .structured

theorem key?_of_memberOf {s : Slot} {x : Member} (h : e.memberOf s = some x) :
    s.key? = some x.key := by
  cases s with
  | attr tag content o =>
    cases h
    rfl
  | elem tag content o =>
    obtain ⟨parts, -, rfl⟩ := Option.map_eq_some_iff.mp h
    rfl
  | ref id location o => cases h

/-- Only elements stand for members with a content type, which is that of the element itself
or of the rule that the element delegates to. -/
theorem content_of_memberOf {s : Slot} {x : Member} {type : TypeId} (h : e.memberOf s = some x)
    (htype : x.content = some type) : ∃ tag content optional, s = .elem tag content optional ∧
      (tag.output = some type ∨ ∃ id, e.rules.contentOf e.isInline content = .delegated id ∧
        (e.rules.get? id).bind Rule.output = some type) := by
  cases s with
  | attr tag content optional => cases h; cases htype
  | ref id location optional => cases h
  | elem tag content optional =>
    refine ⟨tag, content, optional, rfl, ?_⟩
    obtain ⟨parts, hparts, rfl⟩ := Option.map_eq_some_iff.mp h
    unfold partsOf at hparts
    split at hparts
    · cases hparts; cases htype
    · cases hparts; cases htype
    · next id hdelegated =>
      obtain ⟨type', houtput, rfl⟩ := Option.map_eq_some_iff.mp hparts
      exact .inr ⟨id, hdelegated, Option.some.inj htype ▸ houtput⟩
    · obtain ⟨type', houtput, rfl⟩ := Option.map_eq_some_iff.mp hparts
      exact .inl (Option.some.inj htype ▸ houtput)

theorem parentsOf_append (a b : List Slot) :
    e.parentsOf (a ++ b) = e.parentsOf a ++ e.parentsOf b :=
  List.filterMap_append ..

/-- A type stays as it is where nothing is added to it. -/
theorem Populated.mono {e : Expansion} {d d' : Draft} {type : TypeId} {slots : List Slot}
    (h : e.Populated d type slots) (hget : d'.model.get? type = d.model.get? type)
    (hfilled : d.filled ⊆ d'.filled) : e.Populated d' type slots := by
  obtain ⟨T, occ, hT, hdescribes, hopened⟩ := h
  exact ⟨T, occ, hget.trans hT, hdescribes, fun s hs own hown => hfilled (hopened s hs own hown)⟩

variable {e} {d : Draft} {tag : ElementTag} {content : Pattern}
  {parts : List ValueType × Option TypeId}

/-- The type that an element has of its own has been filled. -/
theorem Settled.filled (h : e.Settled d tag content parts) {own : TypeId}
    (hown : tag.output = some own) : own ∈ d.filled := by
  cases h with
  | own houtput hfilled =>
    obtain rfl := Option.some.inj (houtput.symm.trans hown)
    exact hfilled
  | other houtput _ =>
    rw [houtput] at hown
    cases hown

/-- What a walk makes of an element is what the element says. -/
theorem Settled.partsOf_eq (h : e.Settled d tag content parts) (hshaped : e.Shaped)
    (hmem : (tag, content) ∈ e.rules.elements) : e.partsOf tag content = some parts := by
  cases h with
  | @own type houtput _ =>
    rw [partsOf, hshaped _ hmem type houtput, houtput]
    rfl
  | other houtput hparts => exact e.partsOf_of_elementParts hparts

end Expansion

/-! ## Adding to a type -/

/-- What walking over content, written out as `occ`, does to the type at hand and to the
names that were seen. -/
structure Expansion.Adds (e : Expansion) (type : TypeId) (seen : List MemberKey) (d : Draft)
    (occ : List Slot) (seen' : List MemberKey) (d' : Draft) : Prop where
  names : ∀ key, key ∈ seen' ↔ key ∈ keys occ ++ seen
  grows : d.model.Grows d'.model
  filled : d.filled ⊆ d'.filled
  opened : ∀ s ∈ firsts seen occ, ∀ own, s.own? = some own → own ∈ d'.filled
  members : ∀ T T', d.model.get? type = some T → d'.model.get? type = some T' →
    T'.members.map some = T.members.map some ++ (firsts seen occ).map e.memberOf
  parents : ∀ T T', d.model.get? type = some T → d'.model.get? type = some T' →
    ∀ parent, parent ∈ T'.parents ↔ parent ∈ T.parents ∨ parent ≠ type ∧ parent ∈ e.parentsOf occ

namespace Expansion.Adds

variable {e : Expansion} {type : TypeId} {seen seen' seen'' : List MemberKey} {d d' d'' : Draft}
  {occ occ' : List Slot} {s : Slot} {key : MemberKey}

/-- Nothing is added where the type stays as it is. -/
theorem of_get?_eq (hgrows : d.model.Grows d'.model) (hfilled : d.filled ⊆ d'.filled)
    (hget : d'.model.get? type = d.model.get? type) : e.Adds type seen d [] seen d' where
  names _ := Iff.rfl
  grows := hgrows
  filled := hfilled
  opened _ hs := absurd hs List.not_mem_nil
  members T T' hT hT' := by
    obtain rfl : T = T' := Option.some.inj (hT.symm.trans (hget ▸ hT'))
    simp [firsts]
  parents T T' hT hT' parent := by
    obtain rfl : T = T' := Option.some.inj (hT.symm.trans (hget ▸ hT'))
    simp [parentsOf]

theorem refl : e.Adds type seen d [] seen d := of_get?_eq (.refl _) (List.Subset.refl _) rfl

theorem append (h : e.Adds type seen d occ seen' d') (h' : e.Adds type seen' d' occ' seen'' d'') :
    e.Adds type seen d (occ ++ occ') seen'' d'' where
  names key := by
    rw [h'.names, keys_append, List.mem_append, h.names, List.mem_append, List.append_assoc,
      List.mem_append, List.mem_append]
    exact or_left_comm
  grows := h.grows.trans h'.grows
  filled := List.Subset.trans h.filled h'.filled
  opened s hs own hown := by
    rw [firsts_append] at hs
    rcases List.mem_append.mp hs with hs | hs
    · exact h'.filled (h.opened s hs own hown)
    · rw [← firsts_congr h.names] at hs
      exact h'.opened s hs own hown
  members T T'' hT hT'' := by
    obtain ⟨T', hT', -⟩ := h.grows type T hT
    rw [h'.members T' T'' hT' hT'', h.members T T' hT hT', firsts_append, List.map_append,
      List.append_assoc, firsts_congr h.names]
  parents T T'' hT hT'' parent := by
    obtain ⟨T', hT', -⟩ := h.grows type T hT
    rw [h'.parents T' T'' hT' hT'', h.parents T T' hT hT', parentsOf_append, List.mem_append,
      and_or_left, or_assoc]

/-- A name that was seen adds nothing. -/
theorem skip (hkey : s.key? = some key) (hseen : key ∈ seen) : e.Adds type seen d [s] seen d where
  names k := by
    rw [keys, List.filterMap_cons_some hkey, List.filterMap_nil, List.singleton_append,
      List.mem_cons]
    constructor
    · exact Or.inr
    · rintro (rfl | hk)
      · exact hseen
      · exact hk
  grows := .refl _
  filled := List.Subset.refl _
  opened s' hs' := by
    rw [firsts_cons_seen hkey hseen] at hs'
    cases hs'
  members T T' hT hT' := by
    obtain rfl : T = T' := Option.some.inj (hT.symm.trans hT')
    simp [firsts_cons_seen hkey hseen, firsts_nil]
  parents T T' hT hT' parent := by
    obtain rfl : T = T' := Option.some.inj (hT.symm.trans hT')
    simp [parentsOf, s.rule?_of_key? hkey]

/-- A new name adds a member. -/
theorem member {x : Member} (hx : e.memberOf s = some x) (hnew : x.key ∉ seen)
    (hown : ∀ own, s.own? = some own → own ∈ d.filled) :
    e.Adds type seen d [s] (x.key :: seen) (d.addMember type x) := by
  have hkey := e.key?_of_memberOf hx
  have hget : (d.addMember type x).model.get? type = (d.model.get? type).map (·.addMember x) :=
    Model.get?_modify_self _ _ _
  constructor
  case names =>
    intro k
    rw [keys, List.filterMap_cons_some hkey, List.filterMap_nil, List.singleton_append]
  case grows => exact (Draft.Frame.addMember type d x).grows
  case filled => exact List.Subset.refl _
  case opened =>
    intro s' hs' own hown'
    rw [firsts_cons_new hkey hnew] at hs'
    obtain rfl := List.mem_singleton.mp hs'
    exact hown own hown'
  case members =>
    intro T T' hT hT'
    rw [hget, hT] at hT'
    cases hT'
    simp [firsts_cons_new hkey hnew, firsts_nil, hx, WriterType.addMember]
  case parents =>
    intro T T' hT hT' parent
    rw [hget, hT] at hT'
    cases hT'
    simp [parentsOf, s.rule?_of_key? hkey, WriterType.addMember]

/-- A reference to a rule with a type adds a parent. -/
theorem parent {id : RuleId} {location : Option Location} {optional : Bool} {rule : Rule}
    {parent : TypeId} (hrule : e.rules.get? id = some rule) (houtput : rule.output = some parent) :
    e.Adds type seen d [.ref id location optional] seen (d.inherit type parent) := by
  have hparents : e.parentsOf [.ref id location optional] = [parent] := by
    simp [parentsOf, Slot.rule?, hrule, houtput]
  constructor
  case names => exact fun _ => Iff.rfl
  case grows => exact (Draft.Frame.inherit type parent d).grows
  case filled => exact (Draft.Frame.inherit type parent d).filled
  case opened =>
    intro s' hs'
    cases hs'
  case members =>
    intro T T' hT hT'
    rw [Draft.model_inherit] at hT'
    split at hT'
    · obtain rfl : T = T' := Option.some.inj (hT.symm.trans hT')
      simp [firsts, Slot.key?]
    · rw [Model.get?_modify_self, hT] at hT'
      cases hT'
      simp [firsts, Slot.key?, WriterType.addParent]
  case parents =>
    intro T T' hT hT' q
    rw [hparents, List.mem_singleton]
    rw [Draft.model_inherit] at hT'
    split at hT'
    · next heq =>
      obtain rfl : T = T' := Option.some.inj (hT.symm.trans hT')
      constructor
      · exact Or.inl
      · rintro (hq | ⟨hne, rfl⟩)
        · exact hq
        · exact absurd heq hne
    · next hne =>
      rw [Model.get?_modify_self, hT] at hT'
      cases hT'
      change q ∈ insertId parent T.parents ↔ _
      rw [mem_insertId, or_comm]
      constructor
      · rintro (hq | rfl)
        · exact .inl hq
        · exact .inr ⟨hne, rfl⟩
      · rintro (hq | ⟨-, rfl⟩)
        · exact .inl hq
        · exact .inr rfl

end Expansion.Adds

/-- An element with its parts settled adds its member. -/
theorem Expansion.Settled.adds {e : Expansion} {d : Draft} {tag : ElementTag} {content : Pattern}
    {parts : List ValueType × Option TypeId} (h : e.Settled d tag content parts)
    (hshaped : e.Shaped) (hmem : (tag, content) ∈ e.rules.elements) (type : TypeId)
    {seen : List MemberKey} (hnew : (.elem, tag.name) ∉ seen) (optional : Bool) :
    e.Adds type seen d [.elem tag content optional] ((.elem, tag.name) :: seen)
      (d.addMember type (e.elementMember tag parts optional)) := by
  have hsays : e.memberOf (.elem tag content optional) =
      some (e.elementMember tag parts optional) := by
    rw [Expansion.memberOf, h.partsOf_eq hshaped hmem, Option.map_some]
  exact .member hsays hnew fun own hown => h.filled hown

/-- Types that were filled in between are as their contents say. -/
def Expansion.Completes (e : Expansion) (d d' : Draft) : Prop :=
  ∀ type ∈ d'.filled, type ∉ d.filled →
    ∃ slots, (type, slots) ∈ e.rules.owners ∧ e.Populated d' type slots

namespace Expansion.Completes

variable {e : Expansion} {d d' d'' : Draft} {type own : TypeId}

theorem of_filled_eq (h : d'.filled = d.filled) : e.Completes d d' := fun _ hmem hopen =>
  absurd (h ▸ hmem) hopen

theorem of_eq (hfilled : d'.filled = d.filled) (h : e.Completes d' d'') : e.Completes d d'' :=
  fun i hi hopen => h i hi (hfilled ▸ hopen)

/-- The type that was filled in between is one of those. -/
theorem afterFill (h : e.Completes (d.markFilled own) d') {slots : List Slot}
    (howner : (own, slots) ∈ e.rules.owners) (hown : e.Populated d' own slots) :
    e.Completes d (d'.noteMembers own) := by
  intro i hi hopen
  rw [Draft.filled_noteMembers] at hi
  have hdone : ∃ slots, (i, slots) ∈ e.rules.owners ∧ e.Populated d' i slots := by
    by_cases heq : i = own
    · subst heq
      exact ⟨slots, howner, hown⟩
    · exact h i hi fun hm => (List.mem_cons.mp hm).elim heq hopen
  obtain ⟨slots', howner', hpopulated⟩ := hdone
  exact ⟨slots', howner', hpopulated.mono (by simp) (by simp)⟩

/-- What was filled stays as it is, while other types are filled. -/
theorem trans (h : e.Completes d d') (h' : e.Completes d' d'') (hframe : d'.Frame type d'')
    (htype : type ∈ d.filled) : e.Completes d d'' := by
  intro i hi hopen
  by_cases hmem : i ∈ d'.filled
  · obtain ⟨slots, howner, hpopulated⟩ := h i hmem hopen
    have hne : i ≠ type := fun heq => hopen (heq ▸ htype)
    exact ⟨slots, howner, hpopulated.mono (hframe.other i hne (.inl hmem)) hframe.filled⟩
  · exact h' i hi hmem

end Expansion.Completes

/-- A type that was blank when it began to be filled is as its content says. -/
theorem Expansion.Adds.populated {e : Expansion} {type : TypeId} {d d' : Draft}
    {slots occ : List Slot} {seen : List MemberKey} (h : e.Adds type [] d occ seen d')
    (hexpands : e.rules.Expands e.isInline slots occ) {T : WriterType}
    (hT : d.model.get? type = some T) (hblank : T.members = [] ∧ T.parents = []) :
    e.Populated d' type slots := by
  obtain ⟨T', hT', -⟩ := h.grows type T hT
  have hmembers := h.members T T' hT hT'
  rw [hblank.1, List.map_nil, List.nil_append] at hmembers
  refine ⟨T', occ, hT', ⟨hexpands, hmembers, fun parent => ?_⟩, h.opened⟩
  rw [h.parents T T' hT hT', hblank.2]
  simp

namespace Walks

variable {e : Expansion} {slots : List Slot} {target inner : Target} {d d₁ : Draft} {r : Outcome}

/-- Filling another type adds nothing to a type that is being filled. -/
theorem adds_nil {own type : TypeId}
    (body : Walks e slots (.new own) (d.markFilled own) (.ok inner d₁)) (hopen : own ∉ d.filled)
    (htype : type ∈ d.filled) (seen : List MemberKey) :
    e.Adds type seen d [] seen (d₁.noteMembers own) := by
  have hframe := body.frame
  have hne : type ≠ own := fun heq => hopen (heq ▸ htype)
  refine .of_get?_eq ?_ ?_ ?_
  · rw [Draft.model_noteMembers]
    exact hframe.grows
  · rw [Draft.filled_noteMembers]
    exact fun i hi => hframe.filled (List.mem_cons_of_mem _ hi)
  · rw [Draft.model_noteMembers]
    exact hframe.other _ hne (.inl (List.mem_cons_of_mem _ htype))

private theorem adds_aux (h : Walks e slots target d r) (hshaped : e.Shaped)
    (hwithin : e.Within slots) (hfilling : e.Filling target d) :
    ∀ inner d₁, r = .ok inner d₁ → ∃ occ, e.rules.Expands e.isInline slots occ ∧
      e.Adds target.type target.seen d occ inner.seen d₁ ∧ e.Completes d d₁ := by
  induction h with
  | nil =>
    rintro _ _ ⟨⟩
    exact ⟨[], .nil, .refl, .of_filled_eq rfl⟩
  | @seen slot _ _ _ _ key hkey hseen _ ih =>
    intro inner d₁ heq
    obtain ⟨occ, hexpands, hadds, hcompletes⟩ := ih hwithin.tail hfilling inner d₁ heq
    have hslot : ∀ id, slot.rule? = some id → e.isInline id = false := fun id hid => by
      rw [slot.rule?_of_key? hkey] at hid
      cases hid
    refine ⟨slot :: occ, .keep hslot hexpands, ?_, hcompletes⟩
    exact (Expansion.Adds.skip hkey hseen).append hadds
  | @attr tag content optional _ target d _ hnew tail ih =>
    intro inner d₁ heq
    obtain ⟨occ, hexpands, hadds, hcompletes⟩ :=
      ih hwithin.tail (hfilling.attr hnew _ _) inner d₁ heq
    have hadd : e.Adds target.type target.seen d [.attr tag content optional] _ _ :=
      .member (x := e.attributeMember tag content optional) rfl hnew fun _ hown => by cases hown
    exact ⟨_, .keep (fun _ hid => by cases hid) hexpands, hadd.append hadds, hcompletes⟩
  | @elem tag content optional parts _ target d _ hnew hparts tail ih =>
    intro inner d₁ heq
    obtain ⟨occ, hexpands, hadds, hcompletes⟩ :=
      ih hwithin.tail (hfilling.elem hnew hwithin.mem hparts optional) inner d₁ heq
    have hadd := hparts.adds hshaped hwithin.mem target.type hnew optional
    exact ⟨_, .keep (fun _ hid => by cases hid) hexpands, hadd.append hadds, hcompletes⟩
  | @fill tag content optional own inner₁ _ target d d₁ _ hnew houtput hopen body tail ihbody ih =>
    rintro inner d₂ rfl
    obtain ⟨occ₁, hexpands₁, hadds₁, hcompletes₁⟩ :=
      ihbody (.of_element hwithin.mem) (.new hfilling.typed hfilling.sound hopen) inner₁ d₁ rfl
    obtain ⟨hsound, -⟩ := body.sound (.of_element hwithin.mem)
      (.new hfilling.typed hfilling.sound hopen)
    -- The type of the element is as its content says, and the type at hand is as it was.
    obtain ⟨T, hT⟩ := hfilling.typed.element _ hwithin.mem own houtput
    have hown := hadds₁.populated hexpands₁ hT (hfilling.sound.blank own T hT hopen)
    have hdone := hcompletes₁.afterFill
      (RuleTable.mem_owners_of_element hwithin.mem houtput) hown
    have hnone := body.adds_nil hopen hfilling.filled target.seen
    have hnext := hfilling.fill hnew hwithin.mem houtput hopen hsound body.frame optional
    obtain ⟨occ, hexpands, hadds, hcompletes⟩ := ih hwithin.tail hnext inner d₂ rfl
    have hsettled : e.Settled _ tag content ([], some own) := .of_frame houtput body.frame
    have hadd := hsettled.adds hshaped hwithin.mem target.type hnew optional
    refine ⟨_, .keep (fun _ hid => by cases hid) hexpands, hnone.append (hadd.append hadds), ?_⟩
    exact hdone.trans hcompletes ((Draft.Frame.addMember _ _ _).trans tail.frame) hfilling.filled
  | fillFails | spliceFails | stuck => rintro _ _ ⟨⟩
  | @inherit id location optional rule parent _ target d _ hrule hinline houtput tail ih =>
    intro inner d₁ heq
    obtain ⟨occ, hexpands, hadds, hcompletes⟩ :=
      ih hwithin.tail (hfilling.inherit hrule houtput) inner d₁ heq
    have hadd : e.Adds target.type target.seen d [.ref id location optional] _ _ :=
      .parent hrule houtput
    refine ⟨_, .keep ?_ hexpands, hadd.append hadds, hcompletes.of_eq (Draft.filled_inherit _ _ _)⟩
    rintro _ ⟨⟩
    exact hinline
  | @splice id location optional rule inner₁ _ target d d₁ _ hrule hinline hnew body tail ihbody
      ih =>
    rintro inner d₂ rfl
    obtain ⟨occ₁, hexpands₁, hadds₁, hcompletes₁⟩ :=
      ihbody (.of_rule hrule) (hfilling.splice _ _ _) inner₁ d₁ rfl
    obtain ⟨-, hfilling₁⟩ := body.sound (.of_rule hrule) (hfilling.splice _ _ _)
    obtain ⟨occ, hexpands, hadds, hcompletes⟩ :=
      ih hwithin.tail (hfilling₁ _ _ rfl).resume inner d₂ rfl
    have htype : (target.resume inner₁).type = target.type := body.type_eq
    have hframe := tail.frame
    rw [htype] at hadds hframe
    have hnote : e.Adds target.type target.seen d [] target.seen
        (d.noteInlined rule target.type) := .of_get?_eq (.refl _) (List.Subset.refl _) rfl
    exact ⟨_, .splice hrule hinline hexpands₁ hexpands, (hnote.append hadds₁).append hadds,
      hcompletes₁.trans hcompletes hframe hfilling.filled⟩

/-- A walk that ends adds what the content says, and completes what it fills in between. -/
theorem adds (h : Walks e slots target d (.ok inner d₁)) (hshaped : e.Shaped)
    (hwithin : e.Within slots) (hfilling : e.Filling target d) :
    ∃ occ, e.rules.Expands e.isInline slots occ ∧
      e.Adds target.type target.seen d occ inner.seen d₁ ∧ e.Completes d d₁ :=
  adds_aux h hshaped hwithin hfilling inner d₁ rfl

end Walks

/-! ## Filling types -/

theorem Rule.mem_owners_of_mem_jobs {r : Rule} {job : TypeId × List Slot} (h : job ∈ r.jobs) :
    job ∈ r.owners := by
  unfold jobs at h
  unfold owners
  split at h
  · next type _ houtput =>
    rw [houtput]
    exact List.mem_append_left _ (List.mem_singleton.mp h ▸ List.mem_singleton_self _)
  · next p _ hp =>
    obtain ⟨x, hx, hjob⟩ := List.mem_filterMap.mp h
    refine List.mem_append_right _ (List.mem_filterMap.mpr ⟨x, ?_, hjob⟩)
    rw [elements, hp]
    exact p.outermost_subset_elements hx
  · cases h

/-- What a rule has to fill belongs to a rule of the table. -/
theorem RuleTable.mem_owners_of_mem_jobs {t : RuleTable} {id : RuleId} {rule : Rule}
    (hrule : t.get? id = some rule) {job : TypeId × List Slot} (hjob : job ∈ rule.jobs) :
    job ∈ t.owners :=
  List.mem_flatMap.mpr ⟨rule, mem_of_get? hrule, Rule.mem_owners_of_mem_jobs hjob⟩

/-- A type that has an owner exists. -/
theorem RuleTable.Typed.has_of_mem_owners {t : RuleTable} {m : Model} (h : t.Typed m)
    {owner : TypeId × List Slot} (howner : owner ∈ t.owners) : m.Has owner.1 := by
  obtain ⟨rule, hrule, howner⟩ := List.mem_flatMap.mp howner
  obtain ⟨id, hid⟩ := List.mem_iff_getElem?.mp hrule
  rcases List.mem_append.mp howner with howner | howner
  · obtain ⟨type, htype, rfl⟩ := List.mem_map.mp howner
    exact (h.rule id rule type hid (Option.mem_toList.mp htype)).has
  · obtain ⟨x, hx, hmap⟩ := List.mem_filterMap.mp howner
    obtain ⟨type, houtput, rfl⟩ := Option.map_eq_some_iff.mp hmap
    exact h.element x (mem_elements.mpr ⟨id, rule, hid, hx⟩) type houtput

private theorem Fills.completes_aux {e : Expansion} {jobs : List (TypeId × List Slot)} {d : Draft}
    {r : EStateM.Result Failure Draft Unit} (h : Fills e jobs d r) (hshaped : e.Shaped)
    (hwithin : ∀ job ∈ jobs, e.Within job.2) (howners : ∀ job ∈ jobs, job ∈ e.rules.owners)
    (htyped : e.rules.Typed d.model) (hsound : d.Sound) :
    ∀ d', r = .ok () d' → e.Completes d d' ∧ ∀ job ∈ jobs, job.1 ∈ d'.filled := by
  induction h with
  | nil =>
    rintro _ ⟨⟩
    exact ⟨.of_filled_eq rfl, fun _ hjob => absurd hjob List.not_mem_nil⟩
  | @skip type slots jobs d r hfilled tail ih =>
    rintro d' rfl
    obtain ⟨hcompletes, hjobs⟩ := ih (fun job hjob => hwithin job (List.mem_cons_of_mem _ hjob))
      (fun job hjob => howners job (List.mem_cons_of_mem _ hjob)) htyped hsound d' rfl
    refine ⟨hcompletes, fun job hjob => ?_⟩
    rcases List.mem_cons.mp hjob with rfl | hjob
    · exact (tail.frame 0).filled hfilled
    · exact hjobs job hjob
  | @fill type slots inner jobs d d₁ r hopen body tail ih =>
    rintro d' rfl
    have hfilling : e.Filling (.new type) (d.markFilled type) := .new htyped hsound hopen
    obtain ⟨occ, hexpands, hadds, hcompletes⟩ :=
      body.adds hshaped (hwithin _ List.mem_cons_self) hfilling
    have hsound₁ := (body.sound (hwithin _ List.mem_cons_self) hfilling).1.noteMembers type
    have htyped₁ : e.rules.Typed (d₁.noteMembers type).model := by
      rw [Draft.model_noteMembers]
      exact htyped.mono body.frame.grows
    obtain ⟨T, hT⟩ := htyped.has_of_mem_owners (howners _ List.mem_cons_self)
    have hown := hadds.populated hexpands hT (hsound.blank type T hT hopen)
    have hdone := hcompletes.afterFill (howners _ List.mem_cons_self) hown
    obtain ⟨hlater, hjobs⟩ := ih (fun job hjob => hwithin job (List.mem_cons_of_mem _ hjob))
      (fun job hjob => howners job (List.mem_cons_of_mem _ hjob)) htyped₁ hsound₁ d' rfl
    have hfilled : type ∈ (d₁.noteMembers type).filled := by
      rw [Draft.filled_noteMembers]
      exact body.frame.filled List.mem_cons_self
    refine ⟨?_, fun job hjob => ?_⟩
    · intro i hi hnot
      by_cases hmem : i ∈ (d₁.noteMembers type).filled
      · obtain ⟨slots', howner, hpopulated⟩ := hdone i hmem hnot
        have hframe := tail.frame (i + 1)
        have hsame := hframe.other i (Nat.ne_of_lt (Nat.lt_succ_self i)) (.inl hmem)
        exact ⟨slots', howner, hpopulated.mono hsame hframe.filled⟩
      · exact hlater i hi hmem
    · rcases List.mem_cons.mp hjob with rfl | hjob
      · exact (tail.frame 0).filled hfilled
      · exact hjobs job hjob
  | fails => rintro _ ⟨⟩

/-- Filling types completes them. -/
theorem Fills.completes {e : Expansion} {jobs : List (TypeId × List Slot)} {d d' : Draft}
    (h : Fills e jobs d (.ok () d')) (hshaped : e.Shaped) (hwithin : ∀ job ∈ jobs, e.Within job.2)
    (howners : ∀ job ∈ jobs, job ∈ e.rules.owners) (htyped : e.rules.Typed d.model)
    (hsound : d.Sound) : e.Completes d d' ∧ ∀ job ∈ jobs, job.1 ∈ d'.filled :=
  h.completes_aux hshaped hwithin howners htyped hsound d' rfl

end MarkupTypes
