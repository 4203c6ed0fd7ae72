import MarkupTypes.Proofs.Shapes
import MarkupTypes.Proofs.Slotwise

/-!
# Nested operands

It makes no difference to the shape of a merge how its operands are nested, and none at all where no
empty pattern marks anything optional (`Pattern.isFull`). Slots and children come in the same order
either way, and what shares a slot is the same (`Pattern.map_slotwise_assoc`). So what cannot tell
the nesting of contents apart, and not that of empty patterns either, cannot tell that of any
operands (`Pattern.Nests.associates`) : shapes cannot, and full patterns are the same.

So operands may be flattened before they are put together : choices, groups and interleaves that are
nested in each other (`Pattern.Operands`) have the shape of one that has all their operands
(`Pattern.Operands.Proper.built`).
-/

namespace MarkupTypes

namespace Pattern

variable {a b c p q slot child : Pattern} {ps qs slots children more : List Pattern}

/-! ## Slots of nested merges -/

theorem sameSlot_settled (children : List Pattern) (slot q : Pattern) :
    (settled children slot).sameSlot q = slot.sameSlot q := by
  unfold settled
  split
  · exact sameSlot_together slot _ q
  · rfl

/-- To those in one slot the same patterns share it. -/
theorem any_sameSlot_congr (slots : List Pattern) (h : p.sameSlot q = true) :
    slots.any (·.sameSlot p) = slots.any (·.sameSlot q) := by
  refine congrArg slots.any (funext fun slot => ?_)
  rw [sameSlot_comm, sameSlot_congr h, sameSlot_comm]

/-- What is in a slot of either operand is in one of their merge. -/
theorem any_slotwise (slots children : List Pattern) (q : Pattern) :
    (slotwise slots children).any (·.sameSlot q) =
      (slots.any (·.sameSlot q) || children.any (·.sameSlot q)) := by
  have hsettled : ((·.sameSlot q) ∘ settled children) = (·.sameSlot q) :=
    funext fun slot => sameSlot_settled children slot q
  rw [slotwise, List.any_append, List.any_map, hsettled, List.any_filter]
  cases hslots : slots.any (·.sameSlot q) with
  | true => rfl
  | false =>
    -- No slot is that of `q`, so a child in that of `q` is new.
    have hnew : (fun child : Pattern => !slots.any (·.sameSlot child) && child.sameSlot q) =
        (·.sameSlot q) := by
      funext child
      cases hsame : child.sameSlot q with
      | false => rw [Bool.and_false]
      | true =>
        rw [any_sameSlot_congr slots hsame, hslots]
        rfl
    rw [hnew]

/-- A slot takes from a merge what the first operand has in it, as that is settled by the second, or
else what the second has. -/
theorem settled_slotwise (slots children : List Pattern) (p : Pattern) :
    settled (slotwise slots children) p =
      match slots.find? p.sameSlot with
      | some slot => p.together (settled children slot)
      | none => settled children p := by
  have hsettled : (p.sameSlot ∘ settled children) = p.sameSlot := by
    funext slot
    rw [Function.comp_apply, sameSlot_comm, sameSlot_settled, sameSlot_comm]
  rw [settled, slotwise, List.find?_append, List.find?_map, hsettled, List.find?_filter]
  cases hfind : slots.find? p.sameSlot with
  | some slot => rfl
  | none =>
    have hslots : slots.any (·.sameSlot p) = false := by
      refine List.any_eq_false.mpr fun slot hslot => ?_
      rw [sameSlot_comm]
      exact List.find?_eq_none.mp hfind slot hslot
    have hnew : (fun child : Pattern => decide ((!slots.any (·.sameSlot child)) = true ∧
        p.sameSlot child = true)) = p.sameSlot := by
      funext child
      rw [Bool.decide_and, Bool.decide_eq_true, Bool.decide_eq_true]
      cases hsame : p.sameSlot child with
      | false => rw [Bool.and_false]
      | true =>
        rw [← any_sameSlot_congr slots hsame, hslots]
        rfl
    rw [hnew]
    rfl

/-- Three lists of children, merged from the left or from the right, stand in the same order, and
have the same in each slot as far as `f` tells, if that cannot tell in what order three children
came to share a slot. -/
theorem map_slotwise_assoc {α : Type} (f : Pattern → α)
    (hf : ∀ slot ∈ slots, ∀ child ∈ children, ∀ third ∈ more, slot.sameSlot child = true →
      child.sameSlot third = true →
        f ((slot.together child).together third) = f (slot.together (child.together third))) :
    (slotwise (slotwise slots children) more).map f =
      (slotwise slots (slotwise children more)).map f := by
  have hfirst : ∀ slot ∈ slots,
      f (settled more (settled children slot)) = f (settled (slotwise children more) slot) := by
    intro slot hslot
    rw [settled_slotwise, settled.eq_def children]
    cases hfind : children.find? slot.sameSlot with
    | none => rfl
    | some child =>
      have hsame : slot.sameSlot child = true := List.find?_some hfind
      have hslots : (slot.together child).sameSlot = child.sameSlot := by
        funext q
        rw [sameSlot_together, sameSlot_congr hsame]
      simp only [settled, hslots]
      cases hthird : more.find? child.sameSlot with
      | none => rfl
      | some third =>
        exact hf slot hslot child (List.mem_of_find?_eq_some hfind) third
          (List.mem_of_find?_eq_some hthird) hsame (List.find?_some hthird)
  have hmiddle : ((children.map (settled more)).filter fun q => !slots.any (·.sameSlot q)) =
      (children.filter fun q => !slots.any (·.sameSlot q)).map (settled more) := by
    rw [List.filter_map]
    refine congrArg _ (List.filter_congr fun child _ => ?_)
    rw [Function.comp_apply]
    refine congrArg _ (congrArg slots.any (funext fun slot => ?_))
    rw [sameSlot_comm, sameSlot_settled, sameSlot_comm]
  have hlast : (more.filter fun q => !(slotwise slots children).any (·.sameSlot q)) =
      (more.filter fun q => !children.any (·.sameSlot q)).filter
        fun q => !slots.any (·.sameSlot q) := by
    rw [List.filter_filter]
    refine List.filter_congr fun q _ => ?_
    rw [any_slotwise, Bool.not_or]
  have hmap : slots.map (f ∘ settled more ∘ settled children) =
      slots.map (f ∘ settled (slotwise children more)) := List.map_congr_left hfirst
  rw [slotwise, hlast, slotwise, slotwise.eq_def slots, slotwise.eq_def children,
    List.filter_append, hmiddle]
  simp only [List.map_append, List.map_map, List.append_assoc]
  rw [hmap, slotwise]

/-! ## Nested merges -/

theorem location_together (slot child : Pattern) :
    (slot.together child).location = slot.location := by
  cases slot <;> cases child <;> rfl

theorem location_settled (children : List Pattern) (slot : Pattern) :
    (settled children slot).location = slot.location := by
  unfold settled
  split
  · exact location_together slot _
  · rfl

/-- A merge stands where its first operand does. -/
theorem location_merge (ha : a.WellFormed) (hb : b.WellFormed) (hane : a.isEmpty = false)
    (hbne : b.isEmpty = false) : (a.merge b).location = a.location := by
  rw [merge_eq_ofChildren ha hb hane hbne]
  by_cases hsingle : a.isSingle = true
  · rw [children_of_isSingle hsingle, slotwise, List.map_singleton, List.singleton_append]
    cases List.filter _ b.children with
    | nil => exact location_settled _ _
    | cons => rfl
  · cases ha with
    | empty => cases hane
    | @union m ps _ hlength _ _ _ =>
      have hmerge : 2 ≤ (slotwise ps b.children).length := by
        rw [slotwise, List.length_append, List.length_map]
        exact Nat.le_add_right_of_le hlength
      rw [children, ofChildren_of_length _ hmerge]
      rfl
    | _ => exact absurd rfl hsingle

theorem orElse_assoc (label label' label'' : Option String) :
    ((label <|> label') <|> label'') = (label <|> label' <|> label'') := by
  cases label <;> rfl

/-- As far as `f` tells, to merge a pattern of some kind into a merge of others is to merge it into
the second of them first. -/
def Associates {α : Type} (P : Pattern → Prop) (f : Pattern → α) (c : Pattern) : Prop :=
  P c → ∀ {a b : Pattern}, a.WellFormed → b.WellFormed → P a → P b →
    f ((a.merge b).merge c) = f (a.merge (b.merge c))

/-- What takes patterns of some kind apart and cannot tell how empty ones are nested in merges. -/
structure Nests {α : Type} (P : Pattern → Prop) (f : Pattern → α) : Prop where
  /-- The parts of a pattern are of its kind. -/
  children : ∀ {p : Pattern}, P p → ∀ child ∈ p.children, P child
  content : ∀ {p : Pattern}, P p → ∀ content ∈ p.content?, P content
  attr : ∀ {p q : Pattern} (m : Mark) (tag : AttributeTag), f p = f q →
    f (.attr m tag p) = f (.attr m tag q)
  elem : ∀ {p q : Pattern} (m : Mark) (tag : ElementTag), f p = f q →
    f (.elem m tag p) = f (.elem m tag q)
  ofChildren : ∀ {ps qs : List Pattern} (location : Option Location), ps.map f = qs.map f →
    f (ofChildren location ps) = f (ofChildren location qs)
  empty : ∀ {a b c : Pattern}, P a → P b → P c →
    a.isEmpty = true ∨ b.isEmpty = true ∨ c.isEmpty = true →
      f ((a.merge b).merge c) = f (a.merge (b.merge c))

namespace Nests

variable {α : Type} {P : Pattern → Prop} {f : Pattern → α}

/-- The order in which three patterns came to share a slot makes no difference if that in which
their contents merge makes none. -/
theorem together (h : Nests P f) (ha : a.WellFormed) (hb : b.WellFormed) (hPa : P a) (hPb : P b)
    (hPc : P c) (hab : a.sameSlot b = true) (hbc : b.sameSlot c = true)
    (hcontent : ∀ content ∈ c.content?, Associates P f content) :
    f ((a.together b).together c) = f (a.together (b.together c)) := by
  cases sharing_of_sameSlot hab with
  | attr m n x y hname =>
    cases sharing_of_sameSlot hbc with
    | attr _ k _ z hname' =>
      simp only [Pattern.together, Bool.or_assoc, orElse_assoc]
      exact h.attr _ _ (hcontent z rfl (h.content hPc z rfl) (ha.content x rfl) (hb.content y rfl)
        (h.content hPa x rfl) (h.content hPb y rfl))
    | other hnone => cases hnone
  | elem m n x y hname =>
    cases sharing_of_sameSlot hbc with
    | elem _ k _ z hname' =>
      simp only [Pattern.together, Bool.or_assoc, orElse_assoc]
      exact h.elem _ _ (hcontent z rfl (h.content hPc z rfl) (ha.content x rfl) (hb.content y rfl)
        (h.content hPa x rfl) (h.content hPb y rfl))
    | other hnone => cases hnone
  | other hnone hnone' _ =>
    rw [together_of_content? hnone, together_of_content? hnone, together_of_content? hnone',
      together_of_content? ((content?_setOptional a _).trans hnone), setOptional_setOptional,
      optional_setOptional, optional_setOptional, Bool.or_assoc]

/-- What makes no difference in any slot makes none at all. -/
theorem associates_of_together (h : Nests P f) (hc : c.WellFormed)
    (htogether : ∀ child ∈ c.children, P child → ∀ {a b : Pattern}, a.WellFormed → b.WellFormed →
      P a → P b → a.sameSlot b = true → b.sameSlot child = true →
        f ((a.together b).together child) = f (a.together (b.together child))) :
    Associates P f c := by
  intro hPc a b ha hb hPa hPb
  cases hane : a.isEmpty with
  | true => exact h.empty hPa hPb hPc (.inl hane)
  | false =>
    cases hbne : b.isEmpty with
    | true => exact h.empty hPa hPb hPc (.inr (.inl hbne))
    | false =>
      cases hcne : c.isEmpty with
      | true => exact h.empty hPa hPb hPc (.inr (.inr hcne))
      | false =>
        rw [merge_eq_ofChildren (ha.merge hb) hc (isEmpty_merge ha hb hane hbne) hcne,
          location_merge ha hb hane hbne, children_merge_eq_slotwise ha hb hane hbne,
          merge_eq_ofChildren ha (hb.merge hc) hane (isEmpty_merge hb hc hbne hcne),
          children_merge_eq_slotwise hb hc hbne hcne]
        refine h.ofChildren _ (map_slotwise_assoc f fun s hs b' hb' c' hc' hsb hbc => ?_)
        exact htogether c' hc' (h.children hPc c' hc') ((ha.sideBySide hane).wellFormed s hs)
          ((hb.sideBySide hbne).wellFormed b' hb') (h.children hPa s hs) (h.children hPb b' hb')
          hsb hbc

theorem associates (h : Nests P f) (hc : c.WellFormed) : Associates P f c :=
  hc.inSlots h.associates_of_together fun _ _ hcontent hPc _ _ ha hb hPa hPb hab hbc =>
    h.together ha hb hPa hPb hPc hab hbc hcontent

end Nests

/-! ## Shapes and full patterns -/

/-- An outline cannot tell how any patterns are nested. -/
theorem nests_outline : Nests (fun _ => True) outline where
  children _ _ _ := trivial
  content _ _ _ := trivial
  attr m tag h := by rw [outline, outline, h]
  elem m tag h := by rw [outline, outline, h]
  ofChildren location h := by rw [outline_ofChildren, outline_ofChildren, h]
  empty := by
    intro a b c _ _ _ hempty
    rcases hempty with ha | hb | hc
    · rw [outline_merge_of_isEmpty ha, outline_merge_congr (outline_merge_of_isEmpty ha) rfl]
    · rw [outline_merge_congr (outline_merge_isEmpty hb) rfl,
        outline_merge_congr rfl (outline_merge_of_isEmpty hb)]
    · rw [outline_merge_isEmpty hc, outline_merge_congr rfl (outline_merge_isEmpty hc)]

mutual

/-- Nothing in the pattern is empty, the items of lists apart. -/
def isFull : Pattern → Bool
  | empty _ => false
  | data _ _ | value _ _ _ | list _ _ | ref _ _ _ => true
  | attr _ _ content | elem _ _ content => content.isFull
  | union _ members => areFull members

def areFull : List Pattern → Bool
  | [] => true
  | p :: ps => p.isFull && areFull ps

end

theorem areFull_iff : areFull ps = true ↔ ∀ p ∈ ps, p.isFull = true := by
  induction ps with
  | nil => exact iff_of_true rfl nofun
  | cons p ps ih => rw [areFull, Bool.and_eq_true, ih, List.forall_mem_cons]

theorem isEmpty_of_isFull (h : p.isFull = true) : p.isEmpty = false := by
  cases p with
  | empty => cases h
  | _ => rfl

/-- Of full patterns the merges themselves do not tell how they were nested. -/
theorem nests_full : Nests (·.isFull = true) id where
  children {p} h := by
    cases p with
    | empty => exact nofun
    | union m ps => exact areFull_iff.mp h
    | _ => exact List.forall_mem_singleton.mpr h
  content {p} h := by
    cases p with
    | attr | elem =>
      rintro _ ⟨⟩
      exact h
    | _ => exact nofun
  attr m tag h := congrArg (Pattern.attr m tag) h
  elem m tag h := congrArg (Pattern.elem m tag) h
  ofChildren location h := by
    rw [List.map_id, List.map_id] at h
    rw [h]
  empty ha hb hc hempty := by
    rw [isEmpty_of_isFull ha, isEmpty_of_isFull hb, isEmpty_of_isFull hc] at hempty
    simp at hempty

theorem outline_merge_assoc (ha : a.WellFormed) (hb : b.WellFormed) (hc : c.WellFormed) :
    ((a.merge b).merge c).outline = (a.merge (b.merge c)).outline :=
  nests_outline.associates hc trivial ha hb trivial trivial

/-- Two attributes and an empty pattern between them : which attribute may be left out is a question
of nesting. -/
example :
    let lang := ofAttribute (.unqualified "lang") text
    let id := ofAttribute (.unqualified "id") text
    (lang.merge (empty .plain)).merge id ≠ lang.merge ((empty .plain).merge id) := by
  decide

/-! ## Many operands -/

theorem outline_foldl_merge_congr (h : a.outline = b.outline) (ps : List Pattern) :
    (ps.foldl merge a).outline = (ps.foldl merge b).outline := by
  induction ps generalizing a b with
  | nil => exact h
  | cons p ps ih => exact ih (outline_merge_congr h rfl)

/-- Operands may be merged with each other before they are merged into the first. -/
theorem outline_merge_foldl (ha : a.WellFormed) (hp : p.WellFormed) (hps : ∀ q ∈ ps, q.WellFormed) :
    (a.merge (ps.foldl merge p)).outline = (ps.foldl merge (a.merge p)).outline := by
  induction ps generalizing p with
  | nil => rfl
  | cons q ps ih =>
    obtain ⟨hq, hps⟩ := List.forall_mem_cons.mp hps
    rw [List.foldl_cons, List.foldl_cons, ih (hp.merge hq) hps]
    exact outline_foldl_merge_congr (outline_merge_assoc ha hp hq).symm ps

/-- To merge operands in one by one is to merge in what they merge to. -/
theorem outline_merge_mergeAll (ha : a.WellFormed) (hps : ∀ q ∈ ps, q.WellFormed)
    (h : mergeAll? ps = some p) : (a.merge p).outline = (ps.foldl merge a).outline := by
  cases ps with
  | nil => cases h
  | cons q ps =>
    obtain rfl := Option.some.inj h
    obtain ⟨hq, hps⟩ := List.forall_mem_cons.mp hps
    exact outline_merge_foldl ha hq hps

theorem mergeAll?_append (h : mergeAll? ps = some p) (qs : List Pattern) :
    mergeAll? (ps ++ qs) = some (qs.foldl merge p) := by
  cases ps with
  | nil => cases h
  | cons q ps =>
    obtain rfl := Option.some.inj h
    rw [List.cons_append, mergeAll?, List.foldl_append]

/-- Operands put together, some of which are operands put together themselves. -/
inductive Operands where
  | one (p : Pattern)
  | many (how : Connective) (operands : List Operands) (location : Option Location)

namespace Operands

mutual

/-- The pattern of operands that are put together, the inner ones first. -/
def build : Operands → Attempt Pattern
  | one p => .ok p
  | many how operands location => do
    let ps ← buildAll operands
    combined how ps location

def buildAll : List Operands → Attempt (List Pattern)
  | [] => .ok []
  | o :: os => return (← o.build) :: (← buildAll os)

end

mutual

/-- The operands that are not put together from others, in order. -/
def flattened : Operands → List Pattern
  | one p => [p]
  | many _ operands _ => flattenedAll operands

def flattenedAll : List Operands → List Pattern
  | [] => []
  | o :: os => o.flattened ++ flattenedAll os

end

/-- All operands are well formed, and none is put together from nothing. -/
inductive Proper : Operands → Prop where
  | one {p : Pattern} (h : p.WellFormed) : Proper (.one p)
  | many (how : Connective) {operands : List Operands} (location : Option Location)
    (hne : operands ≠ []) (h : ∀ o ∈ operands, Proper o) : Proper (.many how operands location)

/-- Operands make a pattern, of the shape that their merge has when they are flattened. -/
structure Built (o : Operands) (p : Pattern) : Prop where
  build : o.build = .ok p
  wellFormed : p.WellFormed
  operands : ∀ q ∈ o.flattened, q.WellFormed
  shape : ∃ q, mergeAll? o.flattened = some q ∧ q.outline = p.outline

variable {o : Operands} {os : List Operands}

/-- To merge flattened operands in one by one is to merge in what they make. -/
theorem Built.outline_foldl (h : Built o p) (ha : a.WellFormed) :
    (o.flattened.foldl merge a).outline = (a.merge p).outline := by
  obtain ⟨q, hq, hshape⟩ := h.shape
  rw [← outline_merge_mergeAll ha h.operands hq]
  exact outline_merge_congr rfl hshape

theorem outline_foldl_flattenedAll (h : List.Forall₂ Built os ps) (hb : b.WellFormed)
    (hab : a.outline = b.outline) :
    (ps.foldl merge a).outline = ((flattenedAll os).foldl merge b).outline := by
  induction h generalizing a b with
  | nil => exact hab
  | @cons o p os ps hbuilt _ ih =>
    rw [List.foldl_cons, flattenedAll, List.foldl_append]
    refine ih (foldl_merge WellFormed.merge hb hbuilt.operands) ?_
    rw [hbuilt.outline_foldl hb, outline_merge_congr hab rfl]

theorem build_many (h : buildAll os = .ok ps) (how : Connective) (location : Option Location) :
    (many how os location).build = combined how ps location := by
  rw [build, h]
  rfl

theorem buildAll_of_forall₂ (h : List.Forall₂ Built os ps) : buildAll os = .ok ps := by
  induction h with
  | nil => rfl
  | cons hbuilt _ ih => rw [buildAll, hbuilt.build, ih]; rfl

theorem wellFormed_of_forall₂ (h : List.Forall₂ Built os ps) : ∀ p ∈ ps, p.WellFormed := by
  induction h with
  | nil => exact nofun
  | cons hbuilt _ ih => exact List.forall_mem_cons.mpr ⟨hbuilt.wellFormed, ih⟩

theorem operands_of_forall₂ (h : List.Forall₂ Built os ps) :
    ∀ q ∈ flattenedAll os, q.WellFormed := by
  induction h with
  | nil => exact nofun
  | cons hbuilt _ ih => exact List.forall_mem_append.mpr ⟨hbuilt.operands, ih⟩

theorem exists_forall₂ (h : ∀ o ∈ os, ∃ p, Built o p) : ∃ ps, List.Forall₂ Built os ps := by
  induction os with
  | nil => exact ⟨[], .nil⟩
  | cons o os ih =>
    obtain ⟨⟨p, hp⟩, hos⟩ := List.forall_mem_cons.mp h
    obtain ⟨ps, hps⟩ := ih hos
    exact ⟨p :: ps, .cons hp hps⟩

/-- What is put together has the shape of the merge. -/
theorem exists_combined (how : Connective) (h : mergeAll? ps = some p)
    (location : Option Location) :
    ∃ q, combined how ps location = .ok q ∧ q.outline = p.outline := by
  rw [combined, h]
  refine ⟨_, rfl, ?_⟩
  split
  · exact outline_withMark _ _
  · rfl

/-- The induction is on how the operands are nested. -/
theorem Proper.built (h : o.Proper) : ∃ p, Built o p := by
  induction h with
  | @one p h => exact ⟨p, rfl, h, List.forall_mem_singleton.mpr h, p, rfl, rfl⟩
  | @many how operands location hne _ ih =>
    obtain ⟨ps, hps⟩ := exists_forall₂ ih
    cases hps with
    | nil => exact absurd rfl hne
    | @cons o p os ps hbuilt hps =>
      have hmerged : mergeAll? (p :: ps) = some (ps.foldl merge p) := rfl
      obtain ⟨q, hq, hshape⟩ := exists_combined how hmerged location
      refine ⟨q, (build_many (buildAll_of_forall₂ (.cons hbuilt hps)) how location).trans hq,
        constructive_wellFormed.combined (wellFormed_of_forall₂ (.cons hbuilt hps)) hq,
        operands_of_forall₂ (.cons hbuilt hps), ?_⟩
      -- The first operand is merged to `q'` when it is flattened, and the others into that.
      obtain ⟨q', hq', hshape'⟩ := hbuilt.shape
      have hq'WellFormed : q'.WellFormed := constructive_wellFormed.mergeAll hbuilt.operands hq'
      refine ⟨_, mergeAll?_append hq' (flattenedAll os), ?_⟩
      rw [hshape, outline_foldl_flattenedAll hps hq'WellFormed hshape'.symm]

end Operands

/-! ## The law of nesting -/

/-- It makes no difference to the shape of a merge of well-formed patterns how they are nested, and
none to the merge itself if they are full. So choices, groups and interleaves can be built from
their operands, and have the same shape when the operands of those among them that are choices,
groups and interleaves themselves are put in their place. -/
theorem merge_nested (ha : a.WellFormed) (hb : b.WellFormed) (hc : c.WellFormed) {how : Connective}
    {operands : List Operands} {location : Option Location}
    (hoperands : (Operands.many how operands location).Proper) :
    ((a.merge b).merge c).sameShape (a.merge (b.merge c)) = true ∧
      (a.isFull = true → b.isFull = true → c.isFull = true →
        (a.merge b).merge c = a.merge (b.merge c)) ∧
      ∃ p q, (Operands.many how operands location).build = .ok p ∧
        combined how (Operands.flattenedAll operands) location = .ok q ∧
          p.sameShape q = true := by
  refine ⟨(sameShape_iff _ _).mpr (outline_merge_assoc ha hb hc),
    fun hfa hfb hfc => nests_full.associates hc hfc ha hb hfa hfb, ?_⟩
  obtain ⟨p, hbuilt⟩ := hoperands.built
  obtain ⟨q, hq, hshape⟩ := hbuilt.shape
  obtain ⟨q', hq', hshape'⟩ := Operands.exists_combined how hq location
  exact ⟨p, q', hbuilt.build, hq', (sameShape_iff _ _).mpr (hshape.symm.trans hshape'.symm)⟩

/-- Two titles of which one may be left out, and one with a language. -/
theorem merge_nested_title :
    let first := ofElement (.unqualified "title") text
    let second := elem ⟨true, none⟩ ⟨.unqualified "title", some "heading", none⟩ text
    let third := ofElement (.unqualified "title") (ofAttribute (.unqualified "lang") text)
    ((first.merge second).merge third).sameShape (first.merge (second.merge third)) = true ∧
      (first.merge second).merge third = first.merge (second.merge third) ∧
      ∃ p q, (Operands.many .choice [.one first, .many .group [.one second, .one third] none]
          none).build = .ok p ∧
        combined .choice [first, second, third] none = .ok q ∧ p.sameShape q = true := by
  intro first second third
  have htext : text.WellFormed := .data _ _
  have hfirst : first.WellFormed := .elem _ _ htext
  have hsecond : second.WellFormed := .elem _ _ htext
  have hthird : third.WellFormed := .elem _ _ (.attr _ _ htext)
  have hgroup : (Operands.many .group [.one second, .one third] none).Proper :=
    .many _ _ (List.cons_ne_nil _ _) (List.forall_mem_cons.mpr
      ⟨.one hsecond, List.forall_mem_singleton.mpr (.one hthird)⟩)
  have hchoice : (Operands.many .choice [.one first, .many .group [.one second, .one third] none]
      none).Proper :=
    .many _ _ (List.cons_ne_nil _ _) (List.forall_mem_cons.mpr
      ⟨.one hfirst, List.forall_mem_singleton.mpr hgroup⟩)
  obtain ⟨hshape, hfull, hbuild⟩ := merge_nested hfirst hsecond hthird hchoice
  exact ⟨hshape, hfull rfl rfl rfl, hbuild⟩

end Pattern

end MarkupTypes
