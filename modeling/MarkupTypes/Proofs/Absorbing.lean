import MarkupTypes.Proofs.Slotwise

/-!
# Merging again

What has been merged into a pattern is in it for good : to merge it in once more changes nothing,
neither a mark nor a label nor a type (`Pattern.Absorbs`). A pattern absorbs another one when each
child of that one shares a slot that takes nothing new from it (`Pattern.absorbs_of_children`). So a
pattern absorbs itself (`Pattern.WellFormed.absorbs_self`), and a merge absorbs both of its operands
(`Pattern.WellFormed.keepsBoth`), whatever is empty in them : a flag that an empty pattern has set
stays set.
-/

namespace MarkupTypes

namespace Pattern

variable {a b p slot child : Pattern} {ps slots children : List Pattern}

/-! ## Flags and labels -/

theorem setOptional_optional (p : Pattern) : p.setOptional p.optional = p := by
  cases p <;> rfl

/-- A slot that may be left out stays so, whatever comes to share it. -/
theorem setOptional_true_together (slot child : Pattern) :
    (slot.setOptional true).together child = (slot.together child).setOptional true := by
  cases slot <;> cases child <;> rfl

theorem mapChildren_mapChildren (p : Pattern) :
    (p.mapChildren (·.setOptional true)).mapChildren (·.setOptional true) =
      p.mapChildren (·.setOptional true) := by
  cases p with
  | union m ps =>
    rw [mapChildren, mapChildren, List.map_map]
    exact congrArg _ (List.map_congr_left fun p _ => setOptional_setOptional p true true)
  | _ => rfl

theorem orElse_self (label : Option String) : (label <|> label) = label := by cases label <;> rfl

theorem orElse_orElse_left (label label' : Option String) :
    ((label <|> label') <|> label) = (label <|> label') := by
  cases label <;> cases label' <;> rfl

theorem orElse_orElse_right (label label' : Option String) :
    ((label <|> label') <|> label') = (label <|> label') := by
  cases label <;> cases label' <;> rfl

/-! ## Absorbing -/

/-- Merging a pattern in changes nothing. -/
def Absorbs (p c : Pattern) : Prop := p.merge c = p

/-- The children of a pattern make it up, along with its location. -/
theorem ofChildren_children (h : p.WellFormed) (hne : p.isEmpty = false) :
    ofChildren p.location p.children = p := by
  cases h with
  | empty => cases hne
  | @union m ps hoptional hlength hsingle hapart hmembers =>
    obtain ⟨optional, location⟩ := m
    obtain rfl : optional = false := hoptional
    exact ofChildren_of_length location hlength
  | _ => rfl

/-- Of patterns that stand apart, those in one slot are one. -/
theorem eq_of_sameSlot (hapart : ps.Pairwise fun a b => a.sameSlot b = false) (ha : a ∈ ps)
    (hb : b ∈ ps) (h : a.sameSlot b = true) : a = b := by
  induction hapart with
  | nil => cases ha
  | @cons p ps hp _ ih =>
    rcases List.mem_cons.mp ha with rfl | ha'
    · rcases List.mem_cons.mp hb with rfl | hb'
      · rfl
      · rw [hp b hb'] at h
        cases h
    · rcases List.mem_cons.mp hb with rfl | hb'
      · rw [sameSlot_comm, hp a ha'] at h
        cases h
      · exact ih ha' hb'

/-- Slots stay as they are if each child shares one that takes nothing new from it. -/
theorem slotwise_eq_self (hslots : slots.Pairwise fun a b => a.sameSlot b = false)
    (hchildren : children.Pairwise fun a b => a.sameSlot b = false)
    (h : ∀ child ∈ children, ∃ slot ∈ slots, slot.sameSlot child = true ∧
      slot.together child = slot) : slotwise slots children = slots := by
  have hsettled : ∀ slot ∈ slots, settled children slot = slot := by
    intro slot hslot
    rcases slot.sharesOne_or_none children with ⟨child, hchild, hsame⟩ | hnone
    · obtain ⟨slot', hslot', hsame', htogether⟩ := h child hchild
      have heq : slot = slot' :=
        eq_of_sameSlot hslots hslot hslot' (by rwa [sameSlot_congr hsame, sameSlot_comm])
      rw [settled_of_mem hchildren hchild hsame, heq, htogether]
    · exact settled_of_forall hnone
  have hnone : (children.filter fun child => !slots.any (·.sameSlot child)) = [] := by
    refine List.filter_eq_nil_iff.mpr fun child hchild => ?_
    obtain ⟨slot, hslot, hsame, -⟩ := h child hchild
    rw [List.any_eq_true.mpr ⟨slot, hslot, hsame⟩]
    exact Bool.false_ne_true
  rw [slotwise, hnone, List.append_nil, List.map_congr_left hsettled, List.map_id']

/-- A pattern absorbs another if each child of that one shares a slot that takes nothing new from
it. -/
theorem absorbs_of_children (hp : p.WellFormed) (hb : b.WellFormed) (hpne : p.isEmpty = false)
    (hbne : b.isEmpty = false)
    (h : ∀ child ∈ b.children, ∃ slot ∈ p.children, slot.sameSlot child = true ∧
      slot.together child = slot) : p.Absorbs b := by
  rw [Absorbs, merge_eq_ofChildren hp hb hpne hbne,
    slotwise_eq_self (hp.sideBySide hpne).apart (hb.sideBySide hbne).apart h,
    ofChildren_children hp hpne]

/-! ## A pattern and itself -/

theorem together_self (hcontent : ∀ content ∈ child.content?, content.Absorbs content) :
    child.together child = child := by
  cases child with
  | attr m tag content =>
    have hmerge : content.merge content = content := hcontent content rfl
    rw [together, hmerge, Bool.or_self, orElse_self]
  | elem m tag content =>
    have hmerge : content.merge content = content := hcontent content rfl
    rw [together, hmerge, Bool.or_self, orElse_self]
  | _ => rw [together_of_content? rfl, Bool.or_self, setOptional_optional]

theorem absorbs_self_of_children (hp : p.WellFormed)
    (h : ∀ child ∈ p.children, child.together child = child) : p.Absorbs p := by
  cases hne : p.isEmpty with
  | true => exact merge_of_both_empty hne hne
  | false =>
    exact absorbs_of_children hp hp hne hne fun child hchild =>
      ⟨child, hchild, sameSlot_self child, h child hchild⟩

theorem WellFormed.together_self_of_mem (hp : p.WellFormed) :
    ∀ child ∈ p.children, child.together child = child :=
  hp.inSlots (fun _ h => h) fun hchild _ hcontent => together_self fun content h =>
    absorbs_self_of_children (hchild.content content h) (hcontent content h)

theorem WellFormed.absorbs_self (hp : p.WellFormed) : p.Absorbs p :=
  absorbs_self_of_children hp hp.together_self_of_mem

/-- What has become optional still absorbs what it was. -/
theorem WellFormed.mapChildren_absorbs (hp : p.WellFormed) (hne : p.isEmpty = false) :
    (p.mapChildren (·.setOptional true)).Absorbs p := by
  have hoptional : (p.mapChildren (·.setOptional true)).WellFormed := by
    rw [← asOptional_eq_mapChildren hne]
    exact hp.asOptional
  have hchildren : (p.mapChildren (·.setOptional true)).children =
      p.children.map (·.setOptional true) := by
    cases p <;> rfl
  refine absorbs_of_children hoptional hp (by cases p <;> exact hne) hne fun child hchild => ?_
  rw [hchildren]
  refine ⟨child.setOptional true, List.mem_map_of_mem hchild, ?_, ?_⟩
  · rw [setOptional, sameSlot_withMark, sameSlot_self]
  · rw [setOptional_true_together, hp.together_self_of_mem child hchild]

/-- What has become optional stays so beside an empty pattern. -/
theorem mapChildren_absorbs_of_isEmpty (hne : p.isEmpty = false) (hb : b.isEmpty = true) :
    (p.mapChildren (·.setOptional true)).Absorbs b := by
  rw [Absorbs, merge_isEmpty (by cases p <;> exact hne) hb, mapChildren_mapChildren]

/-! ## A merge and its operands -/

/-- A slot and the child that it is shared with take nothing new from either. -/
theorem together_together (hslot : slot.WellFormed) (hsame : slot.sameSlot child = true)
    (hcontent : ∀ content ∈ child.content?, ∀ {p : Pattern}, p.WellFormed →
      (p.merge content).Absorbs p ∧ (p.merge content).Absorbs content) :
    (slot.together child).together slot = slot.together child ∧
      (slot.together child).together child = slot.together child := by
  cases sharing_of_sameSlot hsame with
  | attr m n x y hname =>
    obtain ⟨hfirst, hsecond⟩ := hcontent y rfl (hslot.content x rfl)
    rw [Absorbs] at hfirst hsecond
    constructor
    · rw [together, together, hfirst, Bool.or_right_comm, Bool.or_self, orElse_orElse_left]
    · rw [together, together, hsecond, Bool.or_assoc, Bool.or_self, orElse_orElse_right]
  | elem m n x y hname =>
    obtain ⟨hfirst, hsecond⟩ := hcontent y rfl (hslot.content x rfl)
    rw [Absorbs] at hfirst hsecond
    constructor
    · rw [together, together, hfirst, Bool.or_right_comm, Bool.or_self, orElse_orElse_left]
    · rw [together, together, hsecond, Bool.or_assoc, Bool.or_self, orElse_orElse_right]
  | other hnone _ _ =>
    have hnone' : ∀ o, (slot.setOptional o).content? = none := fun o =>
      (content?_setOptional slot o).trans hnone
    rw [together_of_content? hnone, together_of_content? (hnone' _),
      together_of_content? (hnone' _), setOptional_setOptional, setOptional_setOptional,
      optional_setOptional]
    constructor
    · rw [Bool.or_right_comm, Bool.or_self]
    · rw [Bool.or_assoc, Bool.or_self]

/-- A merge with a well-formed pattern absorbs both operands. -/
def KeepsBoth (b : Pattern) : Prop :=
  ∀ {a : Pattern}, a.WellFormed → (a.merge b).Absorbs a ∧ (a.merge b).Absorbs b

/-- What the slots of both operands have come to, shared or not, takes nothing new from what was
there. -/
theorem keepsBoth_of_together (hb : b.WellFormed)
    (htogether : ∀ child ∈ b.children, ∀ {slot : Pattern}, slot.WellFormed →
      slot.sameSlot child = true → (slot.together child).together slot = slot.together child ∧
        (slot.together child).together child = slot.together child) : b.KeepsBoth := by
  intro a ha
  cases hane : a.isEmpty with
  | true =>
    cases hbne : b.isEmpty with
    | true =>
      rw [merge_of_both_empty hane hbne]
      exact ⟨merge_of_both_empty hane hane, merge_of_both_empty hane hbne⟩
    | false =>
      rw [merge_of_isEmpty hane hbne]
      exact ⟨mapChildren_absorbs_of_isEmpty hbne hane, hb.mapChildren_absorbs hbne⟩
  | false =>
    cases hbne : b.isEmpty with
    | true =>
      rw [merge_isEmpty hane hbne]
      exact ⟨ha.mapChildren_absorbs hane, mapChildren_absorbs_of_isEmpty hane hbne⟩
    | false =>
      have hslots := ha.sideBySide hane
      have hchildren := hb.sideBySide hbne
      have hne : (a.merge b).isEmpty = false := isEmpty_merge ha hb hane hbne
      have hshared : ∀ slot ∈ a.children, ∀ child ∈ b.children, slot.sameSlot child = true →
          slot.together child ∈ slotwise a.children b.children := by
        intro slot hslot child hchild hsame
        exact (mem_slotwise_iff hchildren.apart).mpr (.inl ⟨slot, hslot, child, hchild, hsame, rfl⟩)
      refine ⟨absorbs_of_children (ha.merge hb) ha hne hane ?_,
        absorbs_of_children (ha.merge hb) hb hne hbne ?_⟩
      all_goals rw [children_merge_eq_slotwise ha hb hane hbne]
      · intro slot hslot
        rcases slot.sharesOne_or_none b.children with ⟨child, hchild, hsame⟩ | hnone
        · refine ⟨slot.together child, hshared slot hslot child hchild hsame, ?_,
            (htogether child hchild (hslots.wellFormed slot hslot) hsame).1⟩
          rw [sameSlot_together, sameSlot_self]
        · have hmem : slot ∈ slotwise a.children b.children :=
            (mem_slotwise_iff hchildren.apart).mpr (.inr (.inl ⟨hslot, hnone⟩))
          exact ⟨slot, hmem, sameSlot_self slot, ha.together_self_of_mem slot hslot⟩
      · intro child hchild
        rcases child.sharesOne_or_none a.children with ⟨slot, hslot, hsame⟩ | hnone
        · rw [sameSlot_comm] at hsame
          refine ⟨slot.together child, hshared slot hslot child hchild hsame, ?_,
            (htogether child hchild (hslots.wellFormed slot hslot) hsame).2⟩
          rwa [sameSlot_together]
        · have hmem : child ∈ slotwise a.children b.children :=
            (mem_slotwise_iff hchildren.apart).mpr (.inr (.inr ⟨hchild, hnone⟩))
          exact ⟨child, hmem, sameSlot_self child, hb.together_self_of_mem child hchild⟩

theorem WellFormed.keepsBoth (hb : b.WellFormed) : b.KeepsBoth :=
  hb.inSlots keepsBoth_of_together fun _ _ hcontent _ hslot hsame =>
    together_together hslot hsame hcontent

/-! ## The law of repetition -/

/-- To merge in again what has been merged in changes nothing : neither a pattern beside itself, nor
an operand of a merge beside the merge. So to define a rule again by one of two patterns that it has
been defined by leaves its pattern as it is. -/
theorem merge_again (ha : a.WellFormed) (hb : b.WellFormed) :
    a.merge a = a ∧ (a.merge b).merge b = a.merge b ∧ (a.merge b).merge a = a.merge b ∧
      ∀ {rule : Rule}, rule.pattern = none → ∀ (location location' location'' : Option Location),
        ∀ p ∈ [a, b], (((rule.define a location).define b location').define p location'').pattern =
          ((rule.define a location).define b location').pattern := by
  obtain ⟨hfirst, hsecond⟩ := hb.keepsBoth ha
  refine ⟨ha.absorbs_self, hsecond, hfirst, ?_⟩
  intro rule hrule location location' location'' p hp
  have habsorbs : (a.merge b).merge p = a.merge b := by
    rcases List.mem_cons.mp hp with rfl | hp
    · exact hfirst
    · rw [List.mem_singleton.mp hp]
      exact hsecond
  simp only [Rule.define, hrule, habsorbs]

/-- A rule that is a title which may be left out, and a title with a language, stays what it is when
either is added again. -/
theorem merge_again_title :
    let first := (ofElement (.unqualified "title") text).merge (empty .plain)
    let second := ofElement (.unqualified "title") (ofAttribute (.unqualified "lang") text)
    first.merge first = first ∧ (first.merge second).merge second = first.merge second ∧
      (first.merge second).merge first = first.merge second ∧
        ∀ p ∈ [first, second],
          ((((Rule.mentioned rootScope "title").define first none).define second none).define p
            none).pattern = some (first.merge second) := by
  intro first second
  have htext : text.WellFormed := .data _ _
  have hfirst : first.WellFormed := .merge (.elem _ _ htext) (.empty _)
  have hsecond : second.WellFormed := .elem _ _ (.attr _ _ htext)
  obtain ⟨hself, hlast, hbefore, hrule⟩ := merge_again hfirst hsecond
  exact ⟨hself, hlast, hbefore, @hrule (Rule.mentioned rootScope "title") rfl none none none⟩

end Pattern

end MarkupTypes
