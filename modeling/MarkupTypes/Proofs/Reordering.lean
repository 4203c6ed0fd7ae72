import MarkupTypes.Proofs.Shapes
import MarkupTypes.Proofs.Slotwise

/-!
# The order of operands

Which operand of a merge comes first decides on the order of its children, on locations, labels and
types, on the flag of an empty pattern and on what counts of the items of a list. The gist of a
pattern (`Pattern.gist`) is what is left without all but the first of these, and two merges that
differ in the order of their operands have the same gist up to the order of the members of unions,
however deep (`Pattern.Reordered`). That order has no influence on flags
(`Pattern.Reordered.flags`), so every attribute, element, reference and value may be left out in the
one merge exactly when it may be in the other.

Slot by slot a merge has in one order the counterparts of what it has in the other
(`Pattern.exists_counterpart`), and as no two children share a slot, counterparts are a
rearrangement (`Pattern.exists_perm_forall₂`).
-/

namespace MarkupTypes

namespace Pattern

variable {a b p q slot child : Pattern} {ps qs slots : List Pattern}

/-! ## Gists -/

mutual

/-- What counts of a pattern when it does not matter which of two came first : all but locations,
labels, types of elements, flags of empty patterns, and what is more than shape in the items of
lists. -/
def gist : Pattern → Pattern
  | empty _ => empty .plain
  | data m type => data ⟨m.optional, none⟩ type
  | value m type literal => value ⟨m.optional, none⟩ type literal
  | list m item => list ⟨m.optional, none⟩ item.outline
  | attr m tag content => attr ⟨m.optional, none⟩ ⟨tag.name, none⟩ content.gist
  | elem m tag content => elem ⟨m.optional, none⟩ ⟨tag.name, none, none⟩ content.gist
  | ref m rule _ => ref ⟨m.optional, none⟩ rule none
  | union m members => union ⟨m.optional, none⟩ (gistAll members)

def gistAll : List Pattern → List Pattern
  | [] => []
  | p :: ps => p.gist :: gistAll ps

end

theorem gistAll_eq_map (ps : List Pattern) : gistAll ps = ps.map gist := by
  induction ps with
  | nil => rfl
  | cons p ps ih => rw [gistAll, ih, List.map_cons]

theorem gist_of_isEmpty (h : p.isEmpty = true) : p.gist = empty .plain := by
  cases p <;> first | rfl | cases h

theorem gist_ofChildren (location : Option Location) (ps : List Pattern) :
    (ofChildren location ps).gist = ofChildren none (ps.map gist) := by
  unfold ofChildren
  split
  · rfl
  · next h =>
    rw [gist, gistAll_eq_map]
    split
    · next p hp =>
      obtain ⟨q, rfl, -⟩ := List.map_eq_singleton_iff.mp hp
      exact absurd rfl (h q)
    · rfl

/-- The gist of what holds no pattern but perhaps the items of a list is its shape and its flag. -/
theorem gist_setOptional (hsingle : p.isSingle = true) (hcontent : p.content? = none)
    (optional : Bool) : (p.setOptional optional).gist = p.outline.setOptional optional := by
  cases p with
  | attr | elem => cases hcontent
  | empty | union => cases hsingle
  | _ => rfl

/-! ## Reordering -/

/-- Patterns that differ in the order of the members of unions, however deep outside lists. -/
inductive Reordered : Pattern → Pattern → Prop where
  | refl (p : Pattern) : Reordered p p
  | attr (m : Mark) (tag : AttributeTag) {a b : Pattern} (h : Reordered a b) :
    Reordered (.attr m tag a) (.attr m tag b)
  | elem (m : Mark) (tag : ElementTag) {a b : Pattern} (h : Reordered a b) :
    Reordered (.elem m tag a) (.elem m tag b)
  | member (m : Mark) (ps qs : List Pattern) {a b : Pattern} (h : Reordered a b) :
    Reordered (.union m (ps ++ a :: qs)) (.union m (ps ++ b :: qs))
  | order (m : Mark) {ps qs : List Pattern} (h : ps.Perm qs) : Reordered (.union m ps) (.union m qs)
  | trans {a b c : Pattern} (h : Reordered a b) (h' : Reordered b c) : Reordered a c

namespace Reordered

theorem symm (h : Reordered a b) : Reordered b a := by
  induction h with
  | refl p => exact .refl p
  | attr m tag _ ih => exact .attr m tag ih
  | elem m tag _ ih => exact .elem m tag ih
  | member m ps qs _ ih => exact .member m ps qs ih
  | order m h => exact .order m h.symm
  | trans _ _ ih ih' => exact .trans ih' ih

/-- All members may change, one after the other. -/
theorem members (m : Mark) (h : List.Forall₂ Reordered ps qs) (before : List Pattern) :
    Reordered (.union m (before ++ ps)) (.union m (before ++ qs)) := by
  induction h generalizing before with
  | nil => exact .refl _
  | @cons a b ps qs hab _ ih =>
    refine (member m before ps hab).trans ?_
    rw [List.append_cons, List.append_cons before b qs]
    exact ih (before ++ [b])

/-- One child alone has no order, and several are the members of a union. -/
theorem ofChildren (location : Option Location) {rs : List Pattern} (hperm : ps.Perm rs)
    (h : List.Forall₂ Reordered rs qs) :
    Reordered (ofChildren location ps) (ofChildren location qs) := by
  unfold Pattern.ofChildren
  split
  · next p =>
    obtain rfl := List.perm_singleton.mp hperm.symm
    obtain ⟨q, _, hpq, hnil, rfl⟩ := List.forall₂_cons_left_iff.mp h
    obtain rfl := List.forall₂_nil_left_iff.mp hnil
    exact hpq
  · next hps =>
    have hlength : ps.length = qs.length := hperm.length_eq.trans h.length_eq
    split
    · next q =>
      obtain ⟨p, rfl⟩ := List.length_eq_one_iff.mp hlength
      exact absurd rfl (hps p)
    · exact (order _ hperm).trans (members _ h [])

end Reordered

/-! ## Counterparts -/

/-- Where no two of several patterns share a slot, and each has a counterpart in its slot among
others, these are a rearrangement of counterparts. -/
theorem exists_perm_forall₂ {R : Pattern → Pattern → Prop}
    (hps : ps.Pairwise fun a b => a.sameSlot b = false)
    (hqs : qs.Pairwise fun a b => a.sameSlot b = false)
    (hR : ∀ {p q}, R p q → p.sameSlot q = true) (hleft : ∀ p ∈ ps, ∃ q ∈ qs, R p q)
    (hright : ∀ q ∈ qs, ∃ p ∈ ps, R p q) : ∃ rs, ps.Perm rs ∧ List.Forall₂ R rs qs := by
  induction hqs generalizing ps with
  | nil =>
    have hnil : ps = [] := List.eq_nil_iff_forall_not_mem.mpr fun p hp => by
      obtain ⟨q, hq, -⟩ := hleft p hp
      cases hq
    exact ⟨[], by rw [hnil], .nil⟩
  | @cons q qs hq hqs ih =>
    obtain ⟨p, hp, hpq⟩ := hright q List.mem_cons_self
    obtain ⟨before, after, rfl⟩ := List.append_of_mem hp
    have hperm : (before ++ p :: after).Perm (p :: (before ++ after)) := List.perm_middle
    have hsymm : ∀ {a b : Pattern}, a.sameSlot b = false → b.sameSlot a = false := by
      intro a b h
      rwa [sameSlot_comm]
    obtain ⟨hapart, hothers⟩ := List.pairwise_cons.mp ((hperm.pairwise_iff hsymm).mp hps)
    obtain ⟨rs, hrs, hforall⟩ := ih hothers
      (by
        intro p' hp'
        obtain ⟨q', hq', h⟩ := hleft p' (hperm.symm.subset (List.mem_cons_of_mem p hp'))
        refine ⟨q', (List.mem_cons.mp hq').resolve_left ?_, h⟩
        rintro rfl
        -- Both would share the slot of `q`.
        have hsame : p.sameSlot p' = true := by
          rw [sameSlot_congr (hR hpq), sameSlot_comm]
          exact hR h
        rw [hapart p' hp'] at hsame
        cases hsame)
      (by
        intro q' hq'
        obtain ⟨p', hp', h⟩ := hright q' (List.mem_cons_of_mem q hq')
        refine ⟨p', (List.mem_cons.mp (hperm.subset hp')).resolve_left ?_, h⟩
        rintro rfl
        have hsame : q.sameSlot q' = true := by
          rw [← sameSlot_congr (hR hpq)]
          exact hR h
        rw [hq q' hq'] at hsame
        cases hsame)
    exact ⟨p :: rs, hperm.trans (hrs.cons p), .cons hpq hforall⟩

/-- What stands in a slot of a merge has its counterpart in the merge the other way around. -/
theorem exists_counterpart {R : Pattern → Pattern → Prop} {children : List Pattern}
    (hslots : slots.Pairwise fun a b => a.sameSlot b = false)
    (hchildren : children.Pairwise fun a b => a.sameSlot b = false) (hrefl : ∀ p, R p p)
    (htogether : ∀ slot ∈ slots, ∀ child ∈ children, slot.sameSlot child = true →
      R (slot.together child) (child.together slot)) :
    ∀ p ∈ slotwise slots children, ∃ q ∈ slotwise children slots, p.sameSlot q = true ∧ R p q := by
  intro p hp
  rcases (mem_slotwise_iff hchildren).mp hp with
    ⟨slot, hslot, child, hchild, hsame, rfl⟩ | ⟨hslot, hnone⟩ | ⟨hchild, hnone⟩
  · have hsame' : child.sameSlot slot = true := by rwa [sameSlot_comm]
    refine ⟨child.together slot,
      (mem_slotwise_iff hslots).mpr (.inl ⟨child, hchild, slot, hslot, hsame', rfl⟩), ?_,
      htogether slot hslot child hchild hsame⟩
    rwa [sameSlot_together, sameSlot_comm, sameSlot_together]
  · exact ⟨p, (mem_slotwise_iff hslots).mpr (.inr (.inr ⟨hslot, hnone⟩)), sameSlot_self p, hrefl p⟩
  · exact ⟨p, (mem_slotwise_iff hslots).mpr (.inr (.inl ⟨hchild, hnone⟩)), sameSlot_self p, hrefl p⟩

/-! ## Merging in either order -/

/-- In a slot the contents merge, and all else is told by a shape and by a flag. -/
theorem reordered_together (hslot : slot.WellFormed) (hsingle : slot.isSingle = true)
    (hchild : child.isSingle = true) (hsame : slot.sameSlot child = true)
    (hcontent : ∀ content ∈ child.content?, ∀ {p : Pattern}, p.WellFormed →
      Reordered (p.merge content).gist (content.merge p).gist) :
    Reordered (slot.together child).gist (child.together slot).gist := by
  cases sharing_of_sameSlot hsame with
  | attr m n x y hname =>
    rw [together, together, gist, gist, hname, Bool.or_comm]
    exact .attr _ _ (hcontent y rfl (hslot.content x rfl))
  | elem m n x y hname =>
    rw [together, together, gist, gist, hname, Bool.or_comm]
    exact .elem _ _ (hcontent y rfl (hslot.content x rfl))
  | other hslot hchild hshape =>
    rw [together_of_content? hslot, together_of_content? hchild, gist_setOptional _ hslot,
      gist_setOptional _ hchild, (sameShape_iff slot child).mp hshape, Bool.or_comm]
    · exact .refl _
    · assumption
    · assumption

/-- Children that stand side by side and are merged in one order are a rearrangement of what they
are merged in the other. -/
theorem reordered_ofChildren {children : List Pattern} (hslots : SideBySide slots)
    (hchildren : SideBySide children)
    (htogether : ∀ slot ∈ slots, ∀ child ∈ children, slot.sameSlot child = true →
      Reordered (slot.together child).gist (child.together slot).gist)
    (location location' : Option Location) :
    Reordered (ofChildren location (slotwise slots children)).gist
      (ofChildren location' (slotwise children slots)).gist := by
  have hback : ∀ child ∈ children, ∀ slot ∈ slots, child.sameSlot slot = true →
      Reordered (slot.together child).gist (child.together slot).gist := by
    intro child hchild slot hslot hsame
    exact htogether slot hslot child hchild (by rwa [sameSlot_comm])
  obtain ⟨rs, hperm, hforall⟩ := exists_perm_forall₂
    (R := fun p q => p.sameSlot q = true ∧ Reordered p.gist q.gist)
    (hslots.slotwise hchildren).apart (hchildren.slotwise hslots).apart And.left
    (exists_counterpart hslots.apart hchildren.apart (fun p => .refl p.gist) htogether)
    (fun q hq => by
      obtain ⟨p, hp, hsame, h⟩ := exists_counterpart
        (R := fun q p => Reordered p.gist q.gist) hchildren.apart hslots.apart
        (fun p => .refl p.gist) hback q hq
      exact ⟨p, hp, by rwa [sameSlot_comm], h⟩)
  rw [gist_ofChildren, gist_ofChildren]
  refine .ofChildren none (hperm.map gist) ?_
  rw [List.forall₂_map_left_iff, List.forall₂_map_right_iff]
  exact hforall.imp fun _ _ h => h.2

/-- The two merges of a pattern with any well-formed one have the same gist, up to order. -/
def Commutes (b : Pattern) : Prop :=
  ∀ {a : Pattern}, a.WellFormed → Reordered (a.merge b).gist (b.merge a).gist

/-- It is enough that they have it in each slot. -/
theorem commutes_of_together (hb : b.WellFormed)
    (htogether : ∀ child ∈ b.children, ∀ {slot : Pattern}, slot.WellFormed →
      slot.isSingle = true → slot.sameSlot child = true →
        Reordered (slot.together child).gist (child.together slot).gist) : b.Commutes := by
  intro a ha
  cases hane : a.isEmpty with
  | true =>
    cases hbne : b.isEmpty with
    | true =>
      rw [merge_of_both_empty hane hbne, merge_of_both_empty hbne hane, gist_of_isEmpty hane,
        gist_of_isEmpty hbne]
      exact .refl _
    | false =>
      rw [merge_of_isEmpty hane hbne, merge_isEmpty hbne hane]
      exact .refl _
  | false =>
    cases hbne : b.isEmpty with
    | true =>
      rw [merge_isEmpty hane hbne, merge_of_isEmpty hbne hane]
      exact .refl _
    | false =>
      have hslots := ha.sideBySide hane
      rw [merge_eq_ofChildren ha hb hane hbne, merge_eq_ofChildren hb ha hbne hane]
      refine reordered_ofChildren hslots (hb.sideBySide hbne) ?_ _ _
      intro slot hslot child hchild hsame
      exact htogether child hchild (hslots.wellFormed slot hslot) (hslots.single slot hslot) hsame

theorem WellFormed.commutes (hb : b.WellFormed) : b.Commutes :=
  hb.inSlots commutes_of_together fun _ hchild hcontent _ hslot hsingle hsame =>
    reordered_together hslot hsingle hchild hsame hcontent

/-! ## Flags -/

mutual

/-- What a pattern says of the places in it outside lists, as facts, each with the flag that tells
whether it may be left out. -/
def flags : Pattern → List ((List Step × Fact) × Bool)
  | empty _ => []
  | data m type => [(([], .data type), m.optional)]
  | value m type literal => [(([], .value type literal), m.optional)]
  | list m _ => [(([.item], .place), m.optional)]
  | attr m tag content =>
    (([.attr tag.name], .place), m.optional) ::
      content.flags.map fun fact => ((.attr tag.name :: fact.1.1, fact.1.2), fact.2)
  | elem m tag content =>
    (([.elem tag.name], .place), m.optional) ::
      content.flags.map fun fact => ((.elem tag.name :: fact.1.1, fact.1.2), fact.2)
  | ref m rule _ => [(([], .rule rule), m.optional)]
  | union _ members => flagsAll members

def flagsAll : List Pattern → List ((List Step × Fact) × Bool)
  | [] => []
  | p :: ps => p.flags ++ flagsAll ps

end

theorem flagsAll_eq_flatMap (ps : List Pattern) : flagsAll ps = ps.flatMap flags := by
  induction ps with
  | nil => rfl
  | cons p ps ih => rw [flagsAll, ih, List.flatMap_cons]

mutual

/-- The flags of a pattern belong to its gist. -/
theorem flags_gist : ∀ p : Pattern, p.gist.flags = p.flags
  | .empty _ | .data _ _ | .value _ _ _ | .list _ _ | .ref _ _ _ => rfl
  | .attr _ _ content => by rw [gist, flags, flags, flags_gist content]
  | .elem _ _ content => by rw [gist, flags, flags, flags_gist content]
  | .union _ ps => flagsAll_gistAll ps

theorem flagsAll_gistAll : ∀ ps : List Pattern, flagsAll (gistAll ps) = flagsAll ps
  | [] => rfl
  | p :: ps => by rw [gistAll, flagsAll, flagsAll, flags_gist p, flagsAll_gistAll ps]

end

/-- Reordering keeps all flags. -/
theorem Reordered.flags (h : Reordered p q) : p.flags.Perm q.flags := by
  induction h with
  | refl p => exact .refl _
  | attr m tag _ ih => exact (ih.map _).cons _
  | elem m tag _ ih => exact (ih.map _).cons _
  | member m ps qs _ ih =>
    rw [Pattern.flags, Pattern.flags, flagsAll_eq_flatMap, flagsAll_eq_flatMap, List.flatMap_append,
      List.flatMap_append, List.flatMap_cons, List.flatMap_cons]
    exact (ih.append_right _).append_left _
  | order m h =>
    rw [Pattern.flags, Pattern.flags, flagsAll_eq_flatMap, flagsAll_eq_flatMap]
    exact h.flatMap_right _
  | trans _ _ ih ih' => exact ih.trans ih'

/-! ## The law of order -/

/-- Well-formed patterns merged in either order have the same gist up to the order of members, and
each attribute, element, reference and value outside lists has the same flag. -/
theorem reordered_merge (ha : a.WellFormed) (hb : b.WellFormed) :
    Reordered (a.merge b).gist (b.merge a).gist ∧ (a.merge b).flags.Perm (b.merge a).flags := by
  have hgist : Reordered (a.merge b).gist (b.merge a).gist := hb.commutes ha
  refine ⟨hgist, ?_⟩
  rw [← flags_gist, ← flags_gist (b.merge a)]
  exact hgist.flags

/-- A title beside a language and a title beside an identifier have different merges in the two
orders, which differ in the order of members alone. -/
theorem reordered_merge_title :
    let first :=
      (ofAttribute (.unqualified "lang") text).merge (ofElement (.unqualified "title") text)
    let second :=
      (ofElement (.unqualified "title") (empty .plain)).merge (ofAttribute (.unqualified "id") text)
    first.merge second ≠ second.merge first ∧
      Reordered (first.merge second).gist (second.merge first).gist ∧
        (first.merge second).flags.Perm (second.merge first).flags := by
  intro first second
  have htext : text.WellFormed := .data _ _
  have hfirst : first.WellFormed := .merge (.attr _ _ htext) (.elem _ _ htext)
  have hsecond : second.WellFormed := .merge (.elem _ _ (.empty _)) (.attr _ _ htext)
  exact ⟨by decide +kernel, reordered_merge hfirst hsecond⟩

end Pattern

end MarkupTypes
