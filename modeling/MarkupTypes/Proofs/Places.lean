import Mathlib.Data.List.Pairwise
import MarkupTypes.Proofs.Advances

/-!
# Places of elements

Where no attribute and no list holds elements (`RuleTable.Plain`), every element stands among
the slots of one pattern, be it the pattern of a rule or the content of another element. As no
two elements share a type, a type tells the place of its element (`RuleTable.holders_unique`),
and what a set of types has from the slots of a rule and passes on to the contents of elements
it has for all elements of the rule (`Pattern.forall_types`).
-/

namespace MarkupTypes

/-! ## Patterns with elements at places of their own -/

namespace Pattern

mutual

/-- No attribute and no list holds an element. -/
def plain : Pattern → Bool
  | attr _ _ content => content.elements.isEmpty
  | list _ item => item.elements.isEmpty
  | elem _ _ content => content.plain
  | union _ members => plainAll members
  | empty _ | data _ _ | value _ _ _ | ref _ _ _ => true

/-- No attribute and no list of some patterns holds an element. -/
def plainAll : List Pattern → Bool
  | [] => true
  | p :: ps => p.plain && plainAll ps

end

mutual

theorem elements_skeleton : ∀ p : Pattern,
    p.skeleton.elements = p.elements.map fun x => (⟨x.1.name, none, none⟩, x.2.skeleton)
  | elem _ _ content => by simp [skeleton, elements, elements_skeleton content]
  | list _ item => by simp [skeleton, elements, elements_skeleton item]
  | attr _ _ content => by simp [skeleton, elements, elements_skeleton content]
  | union _ ps => by simp [skeleton, elements, elementsAll_skeletons ps]
  | empty _ => rfl
  | data _ _ => rfl
  | value _ _ _ => rfl
  | ref _ _ _ => rfl

theorem elementsAll_skeletons : ∀ ps : List Pattern, elementsAll (skeletons ps) =
    (elementsAll ps).map fun x => (⟨x.1.name, none, none⟩, x.2.skeleton)
  | [] => rfl
  | p :: ps => by simp [skeletons, elementsAll, elements_skeleton p, elementsAll_skeletons ps]

end

mutual

@[simp] theorem plain_skeleton : ∀ p : Pattern, p.skeleton.plain = p.plain
  | attr _ _ content => by simp [skeleton, plain, elements_skeleton]
  | list _ item => by simp [skeleton, plain, elements_skeleton]
  | elem _ _ content => by simp [skeleton, plain, plain_skeleton content]
  | union _ ps => by simp [skeleton, plain, plainAll_skeletons ps]
  | empty _ => rfl
  | data _ _ => rfl
  | value _ _ _ => rfl
  | ref _ _ _ => rfl

theorem plainAll_skeletons : ∀ ps : List Pattern, plainAll (skeletons ps) = plainAll ps
  | [] => rfl
  | p :: ps => by simp [skeletons, plainAll, plain_skeleton p, plainAll_skeletons ps]

end

mutual

/-- The elements of the slots of a pattern are outermost ones. -/
theorem mem_outermost_of_mem_slots : ∀ (p : Pattern) {outer : Bool} {tag : ElementTag}
    {content : Pattern} {optional : Bool}, .elem tag content optional ∈ p.slots outer →
    (tag, content) ∈ p.outermost
  | elem _ _ _, _, _, _, _, h => by
    obtain ⟨rfl, rfl, rfl⟩ := Slot.elem.inj (List.mem_singleton.mp h)
    exact List.mem_singleton_self _
  | attr _ _ _, _, _, _, _, h => by cases List.mem_singleton.mp h
  | ref _ _ _, _, _, _, _, h => by cases List.mem_singleton.mp h
  | union _ ps, _, _, _, _, h => mem_outermostAll_of_mem_slotsAll ps h
  | empty _, _, _, _, _, h => by cases h
  | data _ _, _, _, _, _, h => by cases h
  | value _ _ _, _, _, _, _, h => by cases h
  | list _ _, _, _, _, _, h => by cases h

theorem mem_outermostAll_of_mem_slotsAll : ∀ (ps : List Pattern) {outer : Bool}
    {tag : ElementTag} {content : Pattern} {optional : Bool},
    .elem tag content optional ∈ slotsAll outer ps → (tag, content) ∈ outermostAll ps
  | [], _, _, _, _, h => by cases h
  | p :: ps, _, _, _, _, h =>
    (List.mem_append.mp h).elim
      (fun h => List.mem_append_left _ (mem_outermost_of_mem_slots p h))
      fun h => List.mem_append_right _ (mem_outermostAll_of_mem_slotsAll ps h)

end

theorem outermost_of_elements_eq_nil {p : Pattern} (h : p.elements = []) : p.outermost = [] :=
  List.eq_nil_iff_forall_not_mem.mpr fun x hx => by
    have hmem := p.outermost_subset_elements hx
    rw [h] at hmem
    cases hmem

mutual

/-- In a plain pattern, every outermost element is one of the slots. -/
theorem mem_slots_of_mem_outermost : ∀ (p : Pattern) (outer : Bool), p.plain = true →
    ∀ {x : ElementTag × Pattern}, x ∈ p.outermost →
    ∃ optional, .elem x.1 x.2 optional ∈ p.slots outer
  | elem _ _ _, _, _, _, hx => by
    obtain rfl := List.mem_singleton.mp hx
    exact ⟨_, List.mem_singleton_self _⟩
  | attr _ _ content, _, hplain, _, hx => by
    change _ ∈ content.outermost at hx
    rw [outermost_of_elements_eq_nil (List.isEmpty_iff.mp hplain)] at hx
    cases hx
  | list _ item, _, hplain, _, hx => by
    change _ ∈ item.outermost at hx
    rw [outermost_of_elements_eq_nil (List.isEmpty_iff.mp hplain)] at hx
    cases hx
  | union m ps, outer, hplain, _, hx =>
    mem_slotsAll_of_mem_outermostAll ps (outer || m.optional) hplain hx
  | empty _, _, _, _, hx => by cases hx
  | data _ _, _, _, _, hx => by cases hx
  | value _ _ _, _, _, _, hx => by cases hx
  | ref _ _ _, _, _, _, hx => by cases hx

theorem mem_slotsAll_of_mem_outermostAll : ∀ (ps : List Pattern) (outer : Bool),
    plainAll ps = true → ∀ {x : ElementTag × Pattern}, x ∈ outermostAll ps →
    ∃ optional, .elem x.1 x.2 optional ∈ slotsAll outer ps
  | [], _, _, _, hx => by cases hx
  | p :: ps, outer, hplain, _, hx => by
    obtain ⟨hp, hps⟩ := Bool.and_eq_true_iff.mp hplain
    rcases List.mem_append.mp hx with hx | hx
    · obtain ⟨optional, hmem⟩ := mem_slots_of_mem_outermost p outer hp hx
      exact ⟨optional, List.mem_append_left _ hmem⟩
    · obtain ⟨optional, hmem⟩ := mem_slotsAll_of_mem_outermostAll ps outer hps hx
      exact ⟨optional, List.mem_append_right _ hmem⟩

end

mutual

/-- What holds text alone holds no element, if it is plain. -/
theorem elements_of_onlyText (follow : RuleId → List ValueType → TextScan) :
    ∀ (p : Pattern) {types : List ValueType}, p.plain = true →
    (p.scan follow types).onlyText = true → p.elements = []
  | attr _ _ _, _, _, h => by cases h
  | elem _ _ _, _, _, h => by cases h
  | list _ item, _, hplain, _ => List.isEmpty_iff.mp hplain
  | union _ ps, _, hplain, h => elementsAll_of_onlyText follow ps hplain h
  | empty _, _, _, _ => rfl
  | data _ _, _, _, _ => rfl
  | value _ _ _, _, _, _ => rfl
  | ref _ _ _, _, _, _ => rfl

theorem elementsAll_of_onlyText (follow : RuleId → List ValueType → TextScan) :
    ∀ (ps : List Pattern) {types : List ValueType}, plainAll ps = true →
    (scanAll follow ps types).onlyText = true → elementsAll ps = []
  | [], _, _, _ => rfl
  | p :: ps, types, hplain, h => by
    obtain ⟨hp, hps⟩ := Bool.and_eq_true_iff.mp hplain
    simp only [scanAll] at h
    split at h
    · next hfirst =>
      rw [elementsAll, elements_of_onlyText follow p hp hfirst,
        elementsAll_of_onlyText follow ps hps h, List.nil_append]
    · next hfirst => exact absurd h hfirst

end

/-- Content that needs no type holds no element, if it is plain. -/
theorem elements_of_contentOf {t : RuleTable} {isInline : RuleId → Bool} {p : Pattern}
    (hplain : p.plain = true) (h : t.contentOf isInline p ≠ .structured) : p.elements = [] := by
  unfold RuleTable.contentOf at h
  split at h
  · next hchildren =>
    cases p with
    | union m ps =>
      obtain rfl : ps = [] := List.isEmpty_iff.mp hchildren
      rfl
    | empty => rfl
    | _ => cases hchildren
  · simp only at h
    split at h
    · next htext => exact p.elements_of_onlyText _ hplain htext
    · split at h
      · rfl
      · exact absurd rfl h

end Pattern

/-! ## Places of elements -/

/-- The types that the elements among some slots have of their own. -/
def ownTypes (slots : List Slot) : List TypeId := slots.filterMap Slot.own?

theorem mem_ownTypes {slots : List Slot} {type : TypeId} :
    type ∈ ownTypes slots ↔ ∃ s ∈ slots, s.own? = some type := List.mem_filterMap

theorem ownTypes_append (a b : List Slot) : ownTypes (a ++ b) = ownTypes a ++ ownTypes b :=
  List.filterMap_append ..

@[simp] theorem Slot.own?_under (outer : Bool) (s : Slot) : (s.under outer).own? = s.own? := by
  cases s <;> rfl

theorem ownTypes_of_elements_eq_nil {p : Pattern} (h : p.elements = []) :
    ownTypes (p.slots false) = [] := by
  refine List.eq_nil_iff_forall_not_mem.mpr fun own hown => ?_
  obtain ⟨s, hs, hown⟩ := mem_ownTypes.mp hown
  cases s with
  | attr _ _ _ => cases hown
  | ref _ _ _ => cases hown
  | elem tag content optional =>
    have hmem := p.mem_outermost_of_mem_slots hs
    rw [Pattern.outermost_of_elements_eq_nil h] at hmem
    cases hmem

theorem Rule.ownTypes_slots (r : Rule) (outer : Bool) :
    ownTypes (r.slots outer) = ownTypes (r.slots false) := by
  cases hp : r.pattern with
  | none => simp [slots, hp]
  | some p =>
    rw [slots, slots, hp]
    simp only
    rw [p.slots_eq_map_under outer, ownTypes, List.filterMap_map]
    exact congrArg (List.filterMap · _) (funext fun s => s.own?_under outer)

/-- Two lists whose halves are joined in pairs. -/
theorem perm_append_of_perm {α : Type} {a b c d x y : List α} (hx : (a ++ c).Perm x)
    (hy : (b ++ d).Perm y) : ((a ++ b) ++ (c ++ d)).Perm (x ++ y) := by
  have hswap : ((a ++ b) ++ (c ++ d)).Perm ((a ++ c) ++ (b ++ d)) := by
    rw [List.append_assoc, List.append_assoc]
    refine List.Perm.append_left a ?_
    rw [← List.append_assoc, ← List.append_assoc]
    exact List.perm_append_comm.append_right d
  exact hswap.trans (hx.append hy)

namespace Pattern

mutual

/-- Every element of a plain pattern stands among the slots of the pattern, or of the content of
another element. -/
theorem perm_elementTypes : ∀ (p : Pattern) (outer : Bool), p.plain = true →
    (ownTypes (p.slots outer) ++ p.elements.flatMap fun x => ownTypes (x.2.slots false)).Perm
      (elementTypes p.elements)
  | elem m tag content, outer, hplain => by
    have hcontent := perm_elementTypes content false hplain
    cases houtput : tag.output with
    | none => simpa [slots, elements, ownTypes, elementTypes, Slot.own?, houtput] using hcontent
    | some own => simpa [slots, elements, ownTypes, elementTypes, Slot.own?, houtput] using hcontent
  | attr _ _ content, _, hplain => by
    have hnone : content.elements = [] := List.isEmpty_iff.mp hplain
    simp [slots, elements, hnone, ownTypes, Slot.own?, elementTypes]
  | list _ item, _, hplain => by
    have hnone : item.elements = [] := List.isEmpty_iff.mp hplain
    simp [slots, elements, hnone, ownTypes, elementTypes]
  | union m ps, outer, hplain => perm_elementTypesAll ps (outer || m.optional) hplain
  | ref _ _ _, _, _ => by simp [slots, elements, ownTypes, Slot.own?, elementTypes]
  | empty _, _, _ => .refl _
  | data _ _, _, _ => .refl _
  | value _ _ _, _, _ => .refl _

theorem perm_elementTypesAll : ∀ (ps : List Pattern) (outer : Bool), plainAll ps = true →
    (ownTypes (slotsAll outer ps) ++
      (elementsAll ps).flatMap fun x => ownTypes (x.2.slots false)).Perm
      (elementTypes (elementsAll ps))
  | [], _, _ => .refl _
  | p :: ps, outer, hplain => by
    obtain ⟨hp, hps⟩ := Bool.and_eq_true_iff.mp hplain
    have h := perm_append_of_perm (perm_elementTypes p outer hp) (perm_elementTypesAll ps outer hps)
    rw [slotsAll, elementsAll, ownTypes_append, List.flatMap_append, elementTypes,
      List.filterMap_append]
    exact h

end

end Pattern

/-- The pattern of a rule and the contents of its elements, each with the type that it was made
for if there is one. -/
def Rule.holders (r : Rule) : List (Option TypeId × List Slot) :=
  (r.output, r.slots false) :: r.elements.map fun x => (x.1.output, x.2.slots false)

/-- The patterns of all rules and the contents of all elements. -/
def RuleTable.holders (t : RuleTable) : List (Option TypeId × List Slot) :=
  t.rules.flatMap Rule.holders

/-- No attribute and no list in the patterns of a table holds an element. -/
def RuleTable.Plain (t : RuleTable) : Prop :=
  ∀ rule ∈ t.rules, ∀ p, rule.pattern = some p → p.plain = true

instance (t : RuleTable) : Decidable t.Plain :=
  decidable_of_iff (∀ rule ∈ t.rules, ∀ p ∈ rule.pattern, p.plain = true) Iff.rfl

theorem Rule.perm_holders (r : Rule) (hplain : ∀ p, r.pattern = some p → p.plain = true) :
    (r.holders.flatMap fun holder => ownTypes holder.2).Perm (elementTypes r.elements) := by
  have hholders : (r.holders.flatMap fun holder => ownTypes holder.2) =
      ownTypes (r.slots false) ++ r.elements.flatMap fun x => ownTypes (x.2.slots false) := by
    rw [holders, List.flatMap_cons, List.flatMap_map]
  rw [hholders]
  cases hp : r.pattern with
  | none =>
    have hslots : r.slots false = [] := by simp [slots, hp]
    have helements : r.elements = [] := by simp [elements, hp]
    rw [hslots, helements]
    exact .refl _
  | some p =>
    have hslots : r.slots false = p.slots false := by simp [slots, hp]
    have helements : r.elements = p.elements := by simp [elements, hp]
    rw [hslots, helements]
    exact p.perm_elementTypes false (hplain p hp)

namespace RuleTable

variable {t t' : RuleTable} {entry : RuleId} {type : TypeId} {slots : List Slot}
  {holder holder' : Option TypeId × List Slot}

theorem perm_holders (hplain : t.Plain) :
    (t.holders.flatMap fun holder => ownTypes holder.2).Perm (elementTypes t.elements) := by
  have helements : elementTypes t.elements =
      t.rules.flatMap fun rule => elementTypes rule.elements := List.filterMap_flatMap ..
  rw [helements, holders, List.flatMap_assoc]
  exact List.Perm.flatMap_left _ fun rule hrule => rule.perm_holders (hplain rule hrule)

theorem nodup_elementTypes (hnodup : t.types.Nodup) : (elementTypes t.elements).Nodup := by
  have helements : elementTypes t.elements =
      t.rules.flatMap fun rule => elementTypes rule.elements := List.filterMap_flatMap ..
  rw [helements]
  refine hnodup.sublist ?_
  exact List.Sublist.flatMap_right _ fun rule _ => List.sublist_append_right _ _

/-- An element with a type stands at one place. -/
theorem holders_unique (hplain : t.Plain) (hnodup : t.types.Nodup) (h : holder ∈ t.holders)
    (h' : holder' ∈ t.holders) (htype : type ∈ ownTypes holder.2)
    (htype' : type ∈ ownTypes holder'.2) : holder = holder' := by
  have hall := (perm_holders hplain).nodup_iff.mpr (nodup_elementTypes hnodup)
  obtain ⟨-, hpairwise⟩ := List.nodup_flatMap.mp hall
  have : Std.Symm (Function.onFun List.Disjoint
      fun holder : Option TypeId × List Slot => ownTypes holder.2) :=
    ⟨fun _ _ hdisjoint _ h h' => hdisjoint h' h⟩
  by_contra hne
  exact hpairwise.forall h h' hne htype htype'

theorem nodup_of_mem_holders (hplain : t.Plain) (hnodup : t.types.Nodup) (h : holder ∈ t.holders) :
    (ownTypes holder.2).Nodup :=
  (List.nodup_flatMap.mp
    ((perm_holders hplain).nodup_iff.mpr (nodup_elementTypes hnodup))).1 holder h

theorem mem_holders_of_rule {id : RuleId} {rule : Rule} (hrule : t.get? id = some rule) :
    (rule.output, rule.slots false) ∈ t.holders :=
  List.mem_flatMap.mpr ⟨rule, mem_of_get? hrule, List.mem_cons_self⟩

theorem mem_holders_of_mem_owners (h : (type, slots) ∈ t.owners) :
    (some type, slots) ∈ t.holders := by
  obtain ⟨rule, hrule, howner⟩ := List.mem_flatMap.mp h
  refine List.mem_flatMap.mpr ⟨rule, hrule, ?_⟩
  rcases List.mem_append.mp howner with howner | howner
  · obtain ⟨type', houtput, heq⟩ := List.mem_map.mp howner
    obtain ⟨rfl, rfl⟩ := Prod.mk.inj heq
    rw [Rule.holders, Option.mem_toList.mp houtput]
    exact List.mem_cons_self
  · obtain ⟨x, hx, hmap⟩ := List.mem_filterMap.mp howner
    obtain ⟨type', houtput, heq⟩ := Option.map_eq_some_iff.mp hmap
    obtain ⟨rfl, rfl⟩ := Prod.mk.inj heq
    exact List.mem_cons_of_mem _ (List.mem_map.mpr ⟨x, hx, by rw [houtput]⟩)

theorem Plain.of_skeleton_eq (h : t'.skeleton = t.skeleton) (hplain : t.Plain) : t'.Plain := by
  intro rule' hrule' p' hp'
  obtain ⟨id, hid⟩ := List.mem_iff_getElem?.mp hrule'
  obtain ⟨rule, hrule, hsame⟩ := get?_of_skeleton_eq h.symm hid
  obtain ⟨p, hp, hpattern⟩ := pattern_of_skeleton_eq hsame hp'
  rw [← p'.plain_skeleton, ← hpattern, p.plain_skeleton]
  exact hplain rule (mem_of_get? hrule) p hp

end RuleTable

mutual

/-- A set has the types of all elements of a plain pattern, if it has those of the slots and
passes on from an element to the slots of its content. -/
theorem Pattern.forall_types {P : TypeId → Prop} : ∀ (p : Pattern) (outer : Bool),
    p.plain = true → (∀ own ∈ ownTypes (p.slots outer), P own) →
    (∀ x ∈ p.elements, x.2.plain = true → (∀ own, x.1.output = some own → P own) →
      ∀ own ∈ ownTypes (x.2.slots false), P own) →
    ∀ x ∈ p.elements, ∀ own, x.1.output = some own → P own
  | .elem _ tag content, outer, hplain, hslots, hpass, x, hx => by
    have hfirst : ∀ own, tag.output = some own → P own := fun own hown =>
      hslots own (mem_ownTypes.mpr ⟨_, List.mem_singleton_self _, hown⟩)
    rcases List.mem_cons.mp hx with rfl | hx
    · exact hfirst
    · exact content.forall_types false hplain
        (hpass (tag, content) List.mem_cons_self hplain hfirst)
        (fun y hy => hpass y (List.mem_cons_of_mem _ hy)) x hx
  | .attr _ _ content, _, hplain, _, _, _, hx => by
    have hnone : content.elements = [] := List.isEmpty_iff.mp hplain
    rw [elements, hnone] at hx
    cases hx
  | .list _ item, _, hplain, _, _, _, hx => by
    have hnone : item.elements = [] := List.isEmpty_iff.mp hplain
    rw [elements, hnone] at hx
    cases hx
  | .union m ps, outer, hplain, hslots, hpass, x, hx =>
    Pattern.forall_types_all ps (outer || m.optional) hplain hslots hpass x hx
  | .empty _, _, _, _, _, _, hx => by cases hx
  | .data _ _, _, _, _, _, _, hx => by cases hx
  | .value _ _ _, _, _, _, _, _, hx => by cases hx
  | .ref _ _ _, _, _, _, _, _, hx => by cases hx

theorem Pattern.forall_types_all {P : TypeId → Prop} : ∀ (ps : List Pattern) (outer : Bool),
    plainAll ps = true → (∀ own ∈ ownTypes (slotsAll outer ps), P own) →
    (∀ x ∈ elementsAll ps, x.2.plain = true → (∀ own, x.1.output = some own → P own) →
      ∀ own ∈ ownTypes (x.2.slots false), P own) →
    ∀ x ∈ elementsAll ps, ∀ own, x.1.output = some own → P own
  | [], _, _, _, _, _, hx => by cases hx
  | p :: ps, outer, hplain, hslots, hpass, x, hx => by
    obtain ⟨hp, hps⟩ := Bool.and_eq_true_iff.mp hplain
    rw [slotsAll, ownTypes_append] at hslots
    obtain ⟨hfirst, hrest⟩ := List.forall_mem_append.mp hslots
    obtain ⟨hpassFirst, hpassRest⟩ := List.forall_mem_append.mp hpass
    rcases List.mem_append.mp hx with hx | hx
    · exact p.forall_types outer hp hfirst hpassFirst x hx
    · exact Pattern.forall_types_all ps outer hps hrest hpassRest x hx

end

end MarkupTypes
