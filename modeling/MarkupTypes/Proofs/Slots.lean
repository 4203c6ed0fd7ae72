import MarkupTypes.Model.Basic

/-!
# Slots

A pattern as a walk for members sees it : the attributes, the elements and the references
that stand outside other elements, attributes and lists, each with the flag it has got
from itself and from the unions around it (`Pattern.slots`). What attributes and elements
hold is left as it is.

Slots are the places of a pattern : their references and elements are references and
elements of the pattern (`Pattern.refs_of_mem_slots`, `Pattern.elements_of_mem_slots`).
-/

namespace MarkupTypes

/-- What tells the members of a type apart. -/
abbrev MemberKey := MemberKind × QName

/-- The key of a member. -/
def Member.key (m : Member) : MemberKey := (m.kind, m.name)

/-- A place of a pattern, with its flag. -/
inductive Slot where
  | attr (tag : AttributeTag) (content : Pattern) (optional : Bool)
  | elem (tag : ElementTag) (content : Pattern) (optional : Bool)
  | ref (rule : RuleId) (location : Option Location) (optional : Bool)
  deriving DecidableEq, Repr

namespace Slot

/-- The flag of a slot. -/
def optional : Slot → Bool
  | attr _ _ o | elem _ _ o | ref _ _ o => o

/-- The key of the member that an attribute or an element becomes. -/
def key? : Slot → Option MemberKey
  | attr tag _ _ => some (.attr, tag.name)
  | elem tag _ _ => some (.elem, tag.name)
  | ref _ _ _ => none

/-- The rule of a reference. -/
def rule? : Slot → Option RuleId
  | ref rule _ _ => some rule
  | attr _ _ _ | elem _ _ _ => none

/-- The type that an element has of its own. -/
def own? : Slot → Option TypeId
  | elem tag _ _ => tag.output
  | attr _ _ _ | ref _ _ _ => none

/-- Every reference in a slot, with its location. -/
def refs : Slot → List (RuleId × Option Location)
  | attr _ content _ => content.refs
  | elem _ content _ => content.refs
  | ref rule location _ => [(rule, location)]

/-- Every element in a slot, with its content. -/
def elements : Slot → List (ElementTag × Pattern)
  | attr _ content _ => content.elements
  | elem tag content _ => (tag, content) :: content.elements
  | ref _ _ _ => []

/-- The slot in a place that may be left out, or not. -/
def under (outer : Bool) : Slot → Slot
  | attr tag content o => attr tag content (outer || o)
  | elem tag content o => elem tag content (outer || o)
  | ref rule location o => ref rule location (outer || o)

theorem rule?_of_key? (s : Slot) {key : MemberKey} (h : s.key? = some key) : s.rule? = none := by
  cases s <;> first | rfl | cases h

@[simp] theorem rule?_under (outer : Bool) (s : Slot) : (s.under outer).rule? = s.rule? := by
  cases s <;> rfl

@[simp] theorem key?_under (outer : Bool) (s : Slot) : (s.under outer).key? = s.key? := by
  cases s <;> rfl

@[simp] theorem optional_under (outer : Bool) (s : Slot) :
    (s.under outer).optional = (outer || s.optional) := by
  cases s <;> rfl

@[simp] theorem under_under (o o' : Bool) (s : Slot) :
    (s.under o).under o' = s.under (o' || o) := by
  cases s <;> simp [under, Bool.or_assoc]

@[simp] theorem under_false (s : Slot) : s.under false = s := by cases s <;> simp [under]

end Slot

namespace Pattern

mutual

/-- The slots of a pattern in a place that may be left out, or not. -/
def slots (outer : Bool) : Pattern → List Slot
  | attr m tag content => [.attr tag content (outer || m.optional)]
  | elem m tag content => [.elem tag content (outer || m.optional)]
  | ref m rule _ => [.ref rule m.location (outer || m.optional)]
  | union m members => slotsAll (outer || m.optional) members
  | empty _ | data _ _ | value _ _ _ | list _ _ => []

/-- The slots of a list of patterns. -/
def slotsAll (outer : Bool) : List Pattern → List Slot
  | [] => []
  | p :: ps => p.slots outer ++ slotsAll outer ps

end

theorem slotsAll_eq_flatMap (outer : Bool) (ps : List Pattern) :
    slotsAll outer ps = ps.flatMap (slots outer) := by
  induction ps with
  | nil => rfl
  | cons p ps ih => simp [slotsAll, ih]

mutual

/-- The place of a pattern decides on the flags of its slots, and on nothing else. -/
theorem slots_eq_map_under : ∀ (p : Pattern) (outer : Bool),
    p.slots outer = (p.slots false).map (Slot.under outer)
  | attr _ _ _, _ => by simp [slots, Slot.under]
  | elem _ _ _, _ => by simp [slots, Slot.under]
  | ref _ _ _, _ => by simp [slots, Slot.under]
  | union m ps, outer => by
    simp [slots, slotsAll_eq_map_under ps (outer || m.optional),
      slotsAll_eq_map_under ps m.optional]
  | empty _, _ => rfl
  | data _ _, _ => rfl
  | value _ _ _, _ => rfl
  | list _ _, _ => rfl

theorem slotsAll_eq_map_under : ∀ (ps : List Pattern) (outer : Bool),
    slotsAll outer ps = (slotsAll false ps).map (Slot.under outer)
  | [], _ => rfl
  | p :: ps, outer => by
    simp [slotsAll, slots_eq_map_under p outer, slotsAll_eq_map_under ps outer]

end

mutual

/-- The references of a slot are references of its pattern. -/
theorem refs_of_mem_slots : ∀ (p : Pattern) {outer : Bool} {s : Slot},
    s ∈ p.slots outer → s.refs ⊆ p.refs
  | attr _ _ _, _, s, h => by
    rw [slots, List.mem_singleton] at h; subst h; exact List.Subset.refl _
  | elem _ _ _, _, s, h => by
    rw [slots, List.mem_singleton] at h; subst h; exact List.Subset.refl _
  | ref _ _ _, _, s, h => by
    rw [slots, List.mem_singleton] at h; subst h; exact List.Subset.refl _
  | union _ ps, _, s, h => refs_of_mem_slotsAll ps h
  | empty _, _, _, h => by simp [slots] at h
  | data _ _, _, _, h => by simp [slots] at h
  | value _ _ _, _, _, h => by simp [slots] at h
  | list _ _, _, _, h => by simp [slots] at h

theorem refs_of_mem_slotsAll : ∀ (ps : List Pattern) {outer : Bool} {s : Slot},
    s ∈ slotsAll outer ps → s.refs ⊆ refsAll ps
  | [], _, _, h => by simp [slotsAll] at h
  | p :: ps, _, s, h => by
    rcases List.mem_append.mp h with h | h
    · exact List.subset_append_of_subset_left _ (refs_of_mem_slots p h)
    · exact List.subset_append_of_subset_right _ (refs_of_mem_slotsAll ps h)

end

mutual

/-- The elements of a slot are elements of its pattern. -/
theorem elements_of_mem_slots : ∀ (p : Pattern) {outer : Bool} {s : Slot},
    s ∈ p.slots outer → s.elements ⊆ p.elements
  | attr _ _ _, _, s, h => by
    rw [slots, List.mem_singleton] at h; subst h; exact List.Subset.refl _
  | elem _ _ _, _, s, h => by
    rw [slots, List.mem_singleton] at h; subst h; exact List.Subset.refl _
  | ref _ _ _, _, s, h => by
    rw [slots, List.mem_singleton] at h; subst h; exact List.Subset.refl _
  | union _ ps, _, s, h => elements_of_mem_slotsAll ps h
  | empty _, _, _, h => by simp [slots] at h
  | data _ _, _, _, h => by simp [slots] at h
  | value _ _ _, _, _, h => by simp [slots] at h
  | list _ _, _, _, h => by simp [slots] at h

theorem elements_of_mem_slotsAll : ∀ (ps : List Pattern) {outer : Bool} {s : Slot},
    s ∈ slotsAll outer ps → s.elements ⊆ elementsAll ps
  | [], _, _, h => by simp [slotsAll] at h
  | p :: ps, _, s, h => by
    rcases List.mem_append.mp h with h | h
    · exact List.subset_append_of_subset_left _ (elements_of_mem_slots p h)
    · exact List.subset_append_of_subset_right _ (elements_of_mem_slotsAll ps h)

end

/-- The rules that a pattern refers to outside elements, attributes and lists. -/
def bareRules (p : Pattern) : List RuleId := (p.slots false).filterMap Slot.rule?

theorem mem_bareRules {p : Pattern} {id : RuleId} (outer : Bool) :
    id ∈ p.bareRules ↔ ∃ s ∈ p.slots outer, s.rule? = some id := by
  rw [bareRules, slots_eq_map_under p outer, List.mem_filterMap]
  constructor
  · rintro ⟨s, hs, hid⟩
    exact ⟨s.under outer, List.mem_map_of_mem hs, by rw [Slot.rule?_under, hid]⟩
  · rintro ⟨_, hs, hid⟩
    obtain ⟨s, hmem, rfl⟩ := List.mem_map.mp hs
    exact ⟨s, hmem, by rwa [Slot.rule?_under] at hid⟩

mutual

/-- What the outermost elements hold is held by elements of the pattern. -/
theorem outermost_subset_elements : ∀ p : Pattern, p.outermost ⊆ p.elements
  | elem _ _ _ => by simp [outermost, elements]
  | list _ item => outermost_subset_elements item
  | attr _ _ content => outermost_subset_elements content
  | union _ ps => outermostAll_subset_elementsAll ps
  | empty _ => by simp [outermost]
  | data _ _ => by simp [outermost]
  | value _ _ _ => by simp [outermost]
  | ref _ _ _ => by simp [outermost]

theorem outermostAll_subset_elementsAll : ∀ ps : List Pattern, outermostAll ps ⊆ elementsAll ps
  | [] => by simp [outermostAll]
  | p :: ps => by
    simp only [outermostAll, elementsAll]
    exact List.append_subset.mpr
      ⟨List.subset_append_of_subset_left _ (outermost_subset_elements p),
        List.subset_append_of_subset_right _ (outermostAll_subset_elementsAll ps)⟩

end

mutual

/-- The elements that an element holds are elements of the pattern. -/
theorem elements_of_mem_elements : ∀ (p : Pattern) {x : ElementTag × Pattern},
    x ∈ p.elements → x.2.elements ⊆ p.elements
  | elem _ _ content, x, h => by
    refine List.Subset.trans ?_ (List.subset_cons_self _ _)
    rcases List.mem_cons.mp h with rfl | h
    · exact List.Subset.refl _
    · exact elements_of_mem_elements content h
  | list _ item, _, h => elements_of_mem_elements item h
  | attr _ _ content, _, h => elements_of_mem_elements content h
  | union _ ps, _, h => elements_of_mem_elementsAll ps h
  | empty _, _, h => by simp [elements] at h
  | data _ _, _, h => by simp [elements] at h
  | value _ _ _, _, h => by simp [elements] at h
  | ref _ _ _, _, h => by simp [elements] at h

theorem elements_of_mem_elementsAll : ∀ (ps : List Pattern) {x : ElementTag × Pattern},
    x ∈ elementsAll ps → x.2.elements ⊆ elementsAll ps
  | [], _, h => by simp [elementsAll] at h
  | p :: ps, _, h => by
    rcases List.mem_append.mp h with h | h
    · exact List.subset_append_of_subset_left _ (elements_of_mem_elements p h)
    · exact List.subset_append_of_subset_right _ (elements_of_mem_elementsAll ps h)

end

mutual

/-- The references in what an element holds are references of the pattern. -/
theorem refs_of_mem_elements : ∀ (p : Pattern) {x : ElementTag × Pattern},
    x ∈ p.elements → x.2.refs ⊆ p.refs
  | elem _ _ content, x, h => by
    rcases List.mem_cons.mp h with rfl | h
    · exact List.Subset.refl _
    · exact refs_of_mem_elements content h
  | list _ item, _, h => refs_of_mem_elements item h
  | attr _ _ content, _, h => refs_of_mem_elements content h
  | union _ ps, _, h => refs_of_mem_elementsAll ps h
  | empty _, _, h => by simp [elements] at h
  | data _ _, _, h => by simp [elements] at h
  | value _ _ _, _, h => by simp [elements] at h
  | ref _ _ _, _, h => by simp [elements] at h

theorem refs_of_mem_elementsAll : ∀ (ps : List Pattern) {x : ElementTag × Pattern},
    x ∈ elementsAll ps → x.2.refs ⊆ refsAll ps
  | [], _, h => by simp [elementsAll] at h
  | p :: ps, _, h => by
    rcases List.mem_append.mp h with h | h
    · exact List.subset_append_of_subset_left _ (refs_of_mem_elements p h)
    · exact List.subset_append_of_subset_right _ (refs_of_mem_elementsAll ps h)

end

end Pattern

/-- The slots of a rule's pattern, which are none for an undefined rule. -/
def Rule.slots (r : Rule) (outer : Bool) : List Slot :=
  match r.pattern with
  | some p => p.slots outer
  | none => []

/-- Every element in a rule's pattern, with its content. -/
def Rule.elements (r : Rule) : List (ElementTag × Pattern) :=
  match r.pattern with
  | some p => p.elements
  | none => []

/-- Every element in a table, with its content. -/
def RuleTable.elements (t : RuleTable) : List (ElementTag × Pattern) :=
  t.rules.flatMap Rule.elements

namespace Rule

variable {r r' : Rule} {s : Slot} {outer : Bool}

theorem slots_congr (h : r'.pattern = r.pattern) (outer : Bool) :
    r'.slots outer = r.slots outer := by
  rw [slots, h, ← slots]

theorem elements_of_mem_slots (hs : s ∈ r.slots outer) : s.elements ⊆ r.elements := by
  unfold slots at hs
  unfold elements
  cases hp : r.pattern with
  | none => simp [hp] at hs
  | some p =>
    rw [hp] at hs
    exact p.elements_of_mem_slots hs

theorem refs_of_mem_slots (hs : s ∈ r.slots outer) : s.refs ⊆ r.refs := by
  unfold slots at hs
  unfold refs
  cases hp : r.pattern with
  | none => simp [hp] at hs
  | some p =>
    rw [hp] at hs
    exact p.refs_of_mem_slots hs

theorem refs_of_mem_elements {x : ElementTag × Pattern} (hx : x ∈ r.elements) :
    x.2.refs ⊆ r.refs := by
  unfold elements at hx
  unfold refs
  cases hp : r.pattern with
  | none => simp [hp] at hx
  | some p =>
    rw [hp] at hx
    exact p.refs_of_mem_elements hx

theorem elements_of_mem_elements {x : ElementTag × Pattern} (hx : x ∈ r.elements) :
    x.2.elements ⊆ r.elements := by
  unfold elements at hx ⊢
  cases hp : r.pattern with
  | none => simp [hp] at hx
  | some p =>
    rw [hp] at hx
    exact p.elements_of_mem_elements hx

end Rule

namespace RuleTable

variable {t : RuleTable} {x : ElementTag × Pattern}

theorem mem_elements : x ∈ t.elements ↔ ∃ id rule, t.get? id = some rule ∧ x ∈ rule.elements := by
  constructor
  · intro hx
    obtain ⟨rule, hrule, hx⟩ := List.mem_flatMap.mp hx
    obtain ⟨id, hid⟩ := List.mem_iff_getElem?.mp hrule
    exact ⟨id, rule, hid, hx⟩
  · rintro ⟨id, rule, hrule, hx⟩
    exact List.mem_flatMap.mpr ⟨rule, List.mem_of_getElem? hrule, hx⟩

theorem elements_of_mem_elements (hx : x ∈ t.elements) : x.2.elements ⊆ t.elements := by
  obtain ⟨id, rule, hrule, hx⟩ := mem_elements.mp hx
  exact fun y hy => mem_elements.mpr ⟨id, rule, hrule, Rule.elements_of_mem_elements hx hy⟩

end RuleTable

end MarkupTypes
