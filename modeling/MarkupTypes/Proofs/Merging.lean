import MarkupTypes.Proofs.Runs

/-!
# What merging keeps

A merge holds what its operands hold (`Pattern.Holds.merge_iff`) : the same names of
attributes and elements, and the same references. Of two elements in one slot the first
keeps its type, so a merge has types of its operands, but not all of them
(`Pattern.Holds.of_merge`).

So a table stays fresh when patterns without types are put into it
(`RuleTable.Fresh.define`).
-/

set_option linter.unusedSectionVars false

namespace MarkupTypes

/-- One statement implies another, and is the same where that is `exact`. -/
def Bounds (exact p q : Prop) : Prop := (p → q) ∧ (exact → q → p)

namespace Bounds

variable {exact p q r s : Prop}

theorem of_iff (h : p ↔ q) : Bounds exact p q := ⟨h.mp, fun _ => h.mpr⟩

theorem trans (h : Bounds exact p q) (h' : Bounds exact q r) : Bounds exact p r :=
  ⟨h'.1 ∘ h.1, fun hexact => h.2 hexact ∘ h'.2 hexact⟩

theorem or (h : Bounds exact p q) (h' : Bounds exact r s) : Bounds exact (p ∨ r) (q ∨ s) :=
  ⟨Or.imp h.1 h'.1, fun hexact => Or.imp (h.2 hexact) (h'.2 hexact)⟩

/-- What two things hold themselves or inside, where the first stays and their insides are
joined. -/
theorem joined {own own' inner : Prop} (hown : exact → own' → own)
    (hjoin : Bounds exact r (p ∨ q)) :
    Bounds exact (own ∨ inner ∧ r) ((own ∨ inner ∧ p) ∨ own' ∨ inner ∧ q) := by
  refine ⟨?_, fun hexact => ?_⟩
  · rintro (h | ⟨hinner, hr⟩)
    · exact .inl (.inl h)
    · rcases hjoin.1 hr with hp | hq
      · exact .inl (.inr ⟨hinner, hp⟩)
      · exact .inr (.inr ⟨hinner, hq⟩)
  · rintro ((h | ⟨hinner, hp⟩) | (h | ⟨hinner, hq⟩))
    · exact .inl h
    · exact .inr ⟨hinner, hjoin.2 hexact (.inl hp)⟩
    · exact .inl (hown hexact h)
    · exact .inr ⟨hinner, hjoin.2 hexact (.inr hq)⟩

end Bounds

namespace Pattern

/-- Something that patterns hold, told by which attributes, elements and references hold it
themselves, and by whether what is inside attributes, elements and lists counts. -/
structure Holds (P : Pattern → Prop) (inner : Prop) (attrs : QName → Prop)
    (elems : ElementTag → Prop) (rules : RuleId → Prop) : Prop where
  empty : ∀ m, ¬P (.empty m)
  data : ∀ m type, ¬P (.data m type)
  value : ∀ m type literal, ¬P (.value m type literal)
  list : ∀ m item, P (.list m item) ↔ inner ∧ P item
  attr : ∀ m tag content, P (.attr m tag content) ↔ attrs tag.name ∨ inner ∧ P content
  elem : ∀ m tag content, P (.elem m tag content) ↔ elems tag ∨ inner ∧ P content
  ref : ∀ m id label, P (.ref m id label) ↔ rules id
  union : ∀ m ps, P (.union m ps) ↔ ∃ p ∈ ps, P p
  label : ∀ tag label, elems { tag with label } ↔ elems tag

/-- Elements of one name hold the same themselves. -/
def ByName (elems : ElementTag → Prop) : Prop := ∀ s t, s.name = t.name → (elems s ↔ elems t)

namespace Holds

variable {P : Pattern → Prop} {inner : Prop} {attrs : QName → Prop} {elems : ElementTag → Prop}
  {rules : RuleId → Prop}

mutual

/-- Patterns of one shape hold the same, if elements of one name do. -/
theorem sameShape (h : Holds P inner attrs elems rules) (hname : ByName elems) :
    ∀ a b : Pattern, a.sameShape b = true → (P a ↔ P b)
  | .empty _, b, hsame => by
    cases b with
    | empty => simp only [h.empty]
    | _ => cases hsame
  | .data _ _, b, hsame => by
    cases b with
    | data => simp only [h.data]
    | _ => cases hsame
  | .value _ _ _, b, hsame => by
    cases b with
    | value => simp only [h.value]
    | _ => cases hsame
  | .list _ a, b, hsame => by
    cases b with
    | list _ b => rw [h.list, h.list, h.sameShape hname a b hsame]
    | _ => cases hsame
  | .attr _ s a, b, hsame => by
    cases b with
    | attr _ t b =>
      simp only [Pattern.sameShape, Bool.and_eq_true, decide_eq_true_eq] at hsame
      rw [h.attr, h.attr, hsame.1, h.sameShape hname a b hsame.2]
    | _ => cases hsame
  | .elem _ s a, b, hsame => by
    cases b with
    | elem _ t b =>
      simp only [Pattern.sameShape, Bool.and_eq_true, decide_eq_true_eq] at hsame
      rw [h.elem, h.elem, hname s t hsame.1, h.sameShape hname a b hsame.2]
    | _ => cases hsame
  | .ref _ a _, b, hsame => by
    cases b with
    | ref _ b _ => rw [h.ref, h.ref, of_decide_eq_true hsame]
    | _ => cases hsame
  | .union _ as, b, hsame => by
    cases b with
    | union _ bs => rw [h.union, h.union, h.sameShapes hname as bs hsame]
    | _ => cases hsame

theorem sameShapes (h : Holds P inner attrs elems rules) (hname : ByName elems) :
    ∀ as bs : List Pattern, Pattern.sameShapes as bs = true →
      ((∃ p ∈ as, P p) ↔ ∃ p ∈ bs, P p)
  | [], [], _ => Iff.rfl
  | a :: as, b :: bs, hsame => by
    simp only [Pattern.sameShapes, Bool.and_eq_true] at hsame
    simp only [List.exists_mem_cons_iff, h.sameShape hname a b hsame.1,
      h.sameShapes hname as bs hsame.2]

end

variable (h : Holds P inner attrs elems rules)

include h

theorem withMark (m : Mark) (p : Pattern) : P (p.withMark m) ↔ P p := by
  cases p <;> simp only [Pattern.withMark, h.empty, h.data, h.value, h.list, h.attr, h.elem, h.ref,
    h.union]

theorem asOptional (p : Pattern) : P p.asOptional ↔ P p := by
  cases p with
  | union m ps =>
    simp only [Pattern.asOptional, h.union, List.mem_map, setOptional]
    constructor
    · rintro ⟨_, ⟨p, hp, rfl⟩, hP⟩
      exact ⟨p, hp, (h.withMark _ p).mp hP⟩
    · rintro ⟨p, hp, hP⟩
      exact ⟨_, ⟨p, hp, rfl⟩, (h.withMark _ p).mpr hP⟩
  | _ => simp only [Pattern.asOptional, setOptional, h.withMark]

theorem children (p : Pattern) : (∃ q ∈ p.children, P q) ↔ P p := by
  cases p <;> simp [Pattern.children, h.empty, h.union]

theorem ofChildren (location : Option Location) (ps : List Pattern) :
    P (Pattern.ofChildren location ps) ↔ ∃ p ∈ ps, P p := by
  unfold Pattern.ofChildren
  split
  · simp
  · exact h.union _ _

/-! ## Slots that come to be shared -/

/-- A slot that an attribute or an element has come to share holds what both held, given
that their contents were joined so. -/
theorem share_tagged {content : Pattern} {join : Pattern → Pattern} {child : Pattern}
    (hchild : (∃ m tag, child = .attr m tag content) ∨ ∃ m tag, child = .elem m tag content)
    (hjoin : ∀ p, Bounds (ByName elems) (P (join p)) (P p ∨ P content)) {slot : Pattern}
    (hslot : slot.sameSlot child = true) :
    Bounds (ByName elems) (P (slot.share child join)) (P slot ∨ P child) := by
  rcases hchild with ⟨n, t, rfl⟩ | ⟨n, t, rfl⟩
  · cases slot with
    | attr m s p =>
      have hname : s.name = t.name := of_decide_eq_true hslot
      rw [share, h.attr, h.attr, h.attr]
      exact .joined (fun _ hattr => hname ▸ hattr) (hjoin p)
    | _ => cases hslot
  · cases slot with
    | elem m s p =>
      have hname : s.name = t.name := of_decide_eq_true hslot
      rw [share, h.elem, h.elem, h.elem, h.label]
      exact .joined (fun hexact => (hexact s t hname).mpr) (hjoin p)
    | _ => cases hslot

/-- A slot that anything else has come to share is of the same shape. -/
theorem share_other {child : Pattern} (hattr : ∀ m tag content, child ≠ .attr m tag content)
    (helem : ∀ m tag content, child ≠ .elem m tag content) {slot : Pattern}
    (hslot : slot.sameSlot child = true) :
    Bounds (ByName elems) (P (slot.share child id)) (P slot ∨ P child) := by
  have hshape : slot.sameShape child = true := by
    cases child with
    | attr m tag content => exact absurd rfl (hattr m tag content)
    | elem m tag content => exact absurd rfl (helem m tag content)
    | _ => cases slot <;> exact hslot
  have hshare : slot.share child id = slot.withMark (slot.mark.share child.mark) := by
    cases child with
    | attr m tag content => exact absurd rfl (hattr m tag content)
    | elem m tag content => exact absurd rfl (helem m tag content)
    | _ => cases slot <;> rfl
  rw [hshare, h.withMark]
  exact ⟨.inl, fun hexact => fun hP => hP.elim id (h.sameShape hexact slot child hshape).mpr⟩

omit h in
theorem place {child : Pattern} {join : Pattern → Pattern}
    (hshare : ∀ slot : Pattern, slot.sameSlot child = true →
      Bounds (ByName elems) (P (slot.share child join)) (P slot ∨ P child)) (slots : List Pattern) :
    Bounds (ByName elems) (∃ p ∈ place child join slots, P p) ((∃ p ∈ slots, P p) ∨ P child) := by
  induction slots with
  | nil => exact .of_iff (by simp [Pattern.place])
  | cons slot slots ih =>
    rw [Pattern.place, List.exists_mem_cons_iff]
    split
    · next hsame =>
      rw [List.exists_mem_cons_iff]
      exact ((hshare slot hsame).or (.of_iff Iff.rfl)).trans (.of_iff or_right_comm)
    · rw [List.exists_mem_cons_iff]
      exact (Bounds.or (.of_iff Iff.rfl) ih).trans (.of_iff or_assoc.symm)

/-! ## Merging -/

theorem extend {a b : Pattern} {bring : List Pattern → List Pattern}
    (hbring : Bounds (ByName elems) (∃ p ∈ bring a.children, P p) ((∃ p ∈ a.children, P p) ∨ P b)) :
    Bounds (ByName elems) (P (a.extend b bring)) (P a ∨ P b) := by
  unfold Pattern.extend
  split
  · next hempty =>
    have hnot : ¬P a := by
      cases a with
      | empty m => exact h.empty m
      | _ => cases hempty
    rw [h.asOptional]
    exact .of_iff (or_iff_right hnot).symm
  · rw [h.ofChildren]
    exact hbring.trans (.of_iff (or_congr_left (h.children a)))

mutual

theorem mergeInto : ∀ b a : Pattern,
    Bounds (ByName elems) (P (Pattern.mergeInto b a)) (P a ∨ P b)
  | .empty m, a => by
    have hnot := h.empty m
    rw [Pattern.mergeInto]
    split
    · exact .of_iff (or_iff_left hnot).symm
    · rw [h.asOptional]
      exact .of_iff (or_iff_left hnot).symm
  | .union m ps, a =>
    h.extend ((bringAll ps a.children).trans (.of_iff (or_congr_right (h.union m ps).symm)))
  | .attr m tag content, a =>
    h.extend (place (fun _ => h.share_tagged (.inl ⟨m, tag, rfl⟩) (fun p => mergeInto content p)) _)
  | .elem m tag content, a =>
    h.extend (place (fun _ => h.share_tagged (.inr ⟨m, tag, rfl⟩) (fun p => mergeInto content p)) _)
  | .data m type, a => h.extend (place (fun _ => h.share_other (by simp) (by simp)) _)
  | .value m type literal, a => h.extend (place (fun _ => h.share_other (by simp) (by simp)) _)
  | .list m item, a => h.extend (place (fun _ => h.share_other (by simp) (by simp)) _)
  | .ref m id label, a => h.extend (place (fun _ => h.share_other (by simp) (by simp)) _)

theorem bring : ∀ (b : Pattern) (slots : List Pattern),
    Bounds (ByName elems) (∃ p ∈ Pattern.bring b slots, P p) ((∃ p ∈ slots, P p) ∨ P b)
  | .attr m tag content, slots =>
    place (fun _ => h.share_tagged (.inl ⟨m, tag, rfl⟩) (fun p => mergeInto content p)) slots
  | .elem m tag content, slots =>
    place (fun _ => h.share_tagged (.inr ⟨m, tag, rfl⟩) (fun p => mergeInto content p)) slots
  | .empty m, slots => place (fun _ => h.share_other (by simp) (by simp)) slots
  | .data m type, slots => place (fun _ => h.share_other (by simp) (by simp)) slots
  | .value m type literal, slots => place (fun _ => h.share_other (by simp) (by simp)) slots
  | .list m item, slots => place (fun _ => h.share_other (by simp) (by simp)) slots
  | .ref m id label, slots => place (fun _ => h.share_other (by simp) (by simp)) slots
  | .union m ps, slots => place (fun _ => h.share_other (by simp) (by simp)) slots

theorem bringAll : ∀ bs slots : List Pattern,
    Bounds (ByName elems) (∃ p ∈ Pattern.bringAll bs slots, P p)
      ((∃ p ∈ slots, P p) ∨ ∃ p ∈ bs, P p)
  | [], slots => .of_iff (by simp [Pattern.bringAll])
  | b :: bs, slots => by
    rw [Pattern.bringAll]
    refine (bringAll bs _).trans (((bring b slots).or (.of_iff Iff.rfl)).trans (.of_iff ?_))
    rw [List.exists_mem_cons_iff, or_assoc]

end

/-- What a merge holds, one of its operands held. -/
theorem of_merge {a b : Pattern} (hP : P (a.merge b)) : P a ∨ P b := (h.mergeInto b a).1 hP

/-- A merge holds what its operands held. -/
theorem merge_iff (hname : ByName elems) (a b : Pattern) : P (a.merge b) ↔ P a ∨ P b :=
  ⟨h.of_merge, (h.mergeInto b a).2 hname⟩

end Holds

/-! ## References, names and types -/

theorem mem_refsAll {ps : List Pattern} {x : RuleId × Option Location} :
    x ∈ refsAll ps ↔ ∃ p ∈ ps, x ∈ p.refs := by
  induction ps with
  | nil => simp [refsAll]
  | cons p ps ih => rw [refsAll, List.mem_append, ih, List.exists_mem_cons_iff]

theorem mem_elementsAll {ps : List Pattern} {x : ElementTag × Pattern} :
    x ∈ elementsAll ps ↔ ∃ p ∈ ps, x ∈ p.elements := by
  induction ps with
  | nil => simp [elementsAll]
  | cons p ps ih => rw [elementsAll, List.mem_append, ih, List.exists_mem_cons_iff]

/-- A pattern refers to a rule. -/
def RefersTo (id : RuleId) (p : Pattern) : Prop := ∃ location, (id, location) ∈ p.refs

theorem holds_refersTo (id : RuleId) :
    Holds (RefersTo id) True (fun _ => False) (fun _ => False) (· = id) where
  empty := by simp [RefersTo, refs]
  data := by simp [RefersTo, refs]
  value := by simp [RefersTo, refs]
  list := by simp [RefersTo, refs]
  attr := by simp [RefersTo, refs]
  elem := by simp [RefersTo, refs]
  ref := by simp [RefersTo, refs, eq_comm]
  union m ps := by
    simp only [RefersTo, refs, mem_refsAll]
    constructor
    · rintro ⟨location, p, hp, hmem⟩
      exact ⟨p, hp, location, hmem⟩
    · rintro ⟨p, hp, location, hmem⟩
      exact ⟨location, p, hp, hmem⟩
  label := by simp

/-- A slot of a pattern is of a kind that flags do not matter to. -/
def HasSlot (f : Slot → Prop) (p : Pattern) : Prop := ∃ s ∈ p.slots false, f s

theorem hasSlot_iff {f : Slot → Prop} (hf : ∀ o s, f (s.under o) ↔ f s) (p : Pattern)
    (outer : Bool) : HasSlot f p ↔ ∃ s ∈ p.slots outer, f s := by
  rw [slots_eq_map_under p outer]
  simp only [HasSlot, List.mem_map, exists_exists_and_eq_and, hf]

theorem hasSlot_union {f : Slot → Prop} (hf : ∀ o s, f (s.under o) ↔ f s) (m : Mark)
    (ps : List Pattern) : HasSlot f (union m ps) ↔ ∃ p ∈ ps, HasSlot f p := by
  have hslots : (union m ps).slots false = ps.flatMap (slots m.optional) := by
    rw [slots, Bool.false_or, slotsAll_eq_flatMap]
  rw [HasSlot, hslots]
  constructor
  · rintro ⟨s, hs, hfs⟩
    obtain ⟨p, hp, hs⟩ := List.mem_flatMap.mp hs
    exact ⟨p, hp, (hasSlot_iff hf p m.optional).mpr ⟨s, hs, hfs⟩⟩
  · rintro ⟨p, hp, hslot⟩
    obtain ⟨s, hs, hfs⟩ := (hasSlot_iff hf p m.optional).mp hslot
    exact ⟨s, List.mem_flatMap.mpr ⟨p, hp, hs⟩, hfs⟩

theorem holds_key (key : MemberKey) : Holds (HasSlot fun s => s.key? = some key) False
    (fun name => (.attr, name) = key) (fun tag => (.elem, tag.name) = key) (fun _ => False) where
  empty := by simp [HasSlot, slots]
  data := by simp [HasSlot, slots]
  value := by simp [HasSlot, slots]
  list := by simp [HasSlot, slots]
  attr := by simp [HasSlot, slots, Slot.key?]
  elem := by simp [HasSlot, slots, Slot.key?]
  ref := by simp [HasSlot, slots, Slot.key?]
  union := hasSlot_union fun o s => by rw [Slot.key?_under]
  label := by simp

theorem holds_bareRule (id : RuleId) : Holds (HasSlot fun s => s.rule? = some id) False
    (fun _ => False) (fun _ => False) (· = id) where
  empty := by simp [HasSlot, slots]
  data := by simp [HasSlot, slots]
  value := by simp [HasSlot, slots]
  list := by simp [HasSlot, slots]
  attr := by simp [HasSlot, slots, Slot.rule?]
  elem := by simp [HasSlot, slots, Slot.rule?]
  ref := by simp [HasSlot, slots, Slot.rule?]
  union := hasSlot_union fun o s => by rw [Slot.rule?_under]
  label := by simp

theorem holds_type (type : TypeId) : Holds (fun p => type ∈ elementTypes p.elements) True
    (fun _ => False) (fun tag => tag.output = some type) (fun _ => False) where
  empty := by simp [elementTypes, elements]
  data := by simp [elementTypes, elements]
  value := by simp [elementTypes, elements]
  list := by simp [elementTypes, elements]
  attr := by simp [elementTypes, elements]
  elem := by simp [mem_elementTypes, elements]
  ref := by simp [elementTypes, elements]
  union m ps := by
    simp only [mem_elementTypes, elements, mem_elementsAll]
    constructor
    · rintro ⟨x, ⟨p, hp, hx⟩, htype⟩
      exact ⟨p, hp, x, hx, htype⟩
    · rintro ⟨p, hp, x, hx, htype⟩
      exact ⟨x, ⟨p, hp, hx⟩, htype⟩
  label := by simp

/-- No element of a pattern has a type. -/
def Untyped (p : Pattern) : Prop := elementTypes p.elements = []

theorem Untyped.merge {a b : Pattern} (ha : a.Untyped) (hb : b.Untyped) : (a.merge b).Untyped := by
  refine List.eq_nil_iff_forall_not_mem.mpr fun type htype => ?_
  rcases (holds_type type).of_merge htype with h | h
  · rw [ha] at h
    cases h
  · rw [hb] at h
    cases h

/-- What merging two patterns keeps, merging any number of them keeps. -/
theorem foldl_merge {P : Pattern → Prop} (hmerge : ∀ {a b}, P a → P b → P (a.merge b))
    {ps : List Pattern} {p : Pattern} (hp : P p) (hps : ∀ q ∈ ps, P q) :
    P (ps.foldl Pattern.merge p) := by
  induction ps generalizing p with
  | nil => exact hp
  | cons q ps ih =>
    obtain ⟨hq, hps⟩ := List.forall_mem_cons.mp hps
    exact ih (hmerge hp hq) hps

theorem Untyped.ofElement {content : Pattern} (h : content.Untyped) (name : QName) :
    (ofElement name content).Untyped := h

theorem Untyped.ofAttribute {content : Pattern} (h : content.Untyped) (name : QName) :
    (ofAttribute name content).Untyped := h

end Pattern

/-! ## Tables in the making -/

theorem Rule.Fresh.mentioned (scope : ScopeId) (name : String) : (mentioned scope name).Fresh :=
  ⟨rfl, rfl⟩

theorem Rule.Fresh.untyped {rule : Rule} (h : rule.Fresh) {p : Pattern}
    (hp : rule.pattern = some p) : p.Untyped := by
  have htypes := (List.append_eq_nil_iff.mp h.2).2
  rwa [Rule.elements, hp] at htypes

/-- A definition without types adds none. -/
theorem Rule.Fresh.define {rule : Rule} (h : rule.Fresh) {p : Pattern} (hp : p.Untyped)
    (location : Option Location) : (rule.define p location).Fresh := by
  refine ⟨h.1, List.append_eq_nil_iff.mpr ⟨(List.append_eq_nil_iff.mp h.2).1, ?_⟩⟩
  cases hearlier : rule.pattern with
  | none =>
    rw [Rule.define, Rule.elements, hearlier]
    exact hp
  | some earlier =>
    rw [Rule.define, Rule.elements, hearlier]
    exact (h.untyped hearlier).merge hp

namespace RuleTable.Fresh

variable {t : RuleTable}

theorem empty : RuleTable.empty.Fresh := fun _ h => absurd h List.not_mem_nil

theorem push (h : t.Fresh) {added : Rule} (hadded : added.Fresh) : (t.push added).Fresh := by
  intro rule hrule
  rcases List.mem_append.mp hrule with hrule | hrule
  · exact h rule hrule
  · obtain rfl := List.mem_singleton.mp hrule
    exact hadded

theorem define (h : t.Fresh) {p : Pattern} (hp : p.Untyped) (id : RuleId)
    (location : Option Location) : (t.modify id (·.define p location)).Fresh := by
  intro rule hrule
  obtain ⟨i, hi⟩ := List.mem_iff_getElem?.mp hrule
  obtain ⟨old, hold, rfl⟩ := RuleTable.of_get?_modify hi
  have hfresh : old.Fresh := h old (RuleTable.mem_of_get? hold)
  split
  · exact hfresh.define hp location
  · exact hfresh

end RuleTable.Fresh

end MarkupTypes
