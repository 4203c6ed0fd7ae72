import MarkupTypes.Proofs.WellFormed

/-!
# Merging slot by slot

A merge brings the children of its second operand in one by one. What comes out can be said of all
of them at once (`Pattern.slotwise`) : each child of the first operand stays where it is, together
with the child of the second that shares its slot, if there is one (`Pattern.together`), and the
children of the second that share none come after them.

Sharing a slot is an equivalence (`Pattern.sameSlot_congr`), so where no two children of an operand
share a slot, a child that is brought in shares at most one (`Pattern.place_eq_map_append`) and
takes it from no other child (`Pattern.bringAll_eq_slotwise`).

From this it follows, contents included, that nothing is lost in a merge and nothing is made up :
its facts (`Pattern.facts`) are those of its operands. The induction is on the second operand : its
children in their slots, and their contents (`Pattern.WellFormed.inSlots`).
-/

namespace MarkupTypes

namespace Pattern

variable {a b p slot child : Pattern} {ps slots : List Pattern}

/-! ## Placing a child -/

/-- A child that shares a slot with one of several patterns shares none with the others, so it
changes that one or comes last. -/
theorem place_eq_map_append (child : Pattern) (join : Pattern → Pattern)
    (hapart : slots.Pairwise fun a b => a.sameSlot b = false) :
    place child join slots =
      (slots.map fun slot => if slot.sameSlot child then slot.share child join else slot) ++
        if slots.any (·.sameSlot child) then [] else [child] := by
  induction hapart with
  | nil => rfl
  | @cons slot slots hslot _ ih =>
    rw [place, List.map_cons, List.any_cons]
    cases hsame : slot.sameSlot child with
    | false => rw [if_neg Bool.false_ne_true, if_neg Bool.false_ne_true, ih, Bool.false_or,
        List.cons_append]
    | true =>
      have hothers : ∀ q ∈ slots, q.sameSlot child = false := by
        intro q hq
        rw [sameSlot_comm, ← sameSlot_congr hsame]
        exact hslot q hq
      have hmap : (slots.map fun q => if q.sameSlot child then q.share child join else q) =
          slots := by
        refine (List.map_congr_left fun q hq => ?_).trans slots.map_id
        rw [hothers q hq]
        rfl
      rw [if_pos rfl, if_pos rfl, hmap, Bool.true_or, if_pos rfl, List.append_nil]

/-! ## All children at once -/

/-- What stands in a slot of both operands of a merge. It may be left out if one of the two may,
and stands where the first did. Attributes and elements merge their contents, and the name of a
rule counts from the second if the first has none. -/
def together : Pattern → Pattern → Pattern
  | attr m s x, attr n t y =>
    attr ⟨m.optional || n.optional, m.location⟩ { s with label := s.label <|> t.label } (x.merge y)
  | elem m s x, elem n t y =>
    elem ⟨m.optional || n.optional, m.location⟩ { s with label := s.label <|> t.label } (x.merge y)
  | slot, child => slot.setOptional (slot.optional || child.optional)

/-- A slot of the first operand, where the children of the second are given. -/
def settled (children : List Pattern) (slot : Pattern) : Pattern :=
  match children.find? slot.sameSlot with
  | some child => slot.together child
  | none => slot

/-- The slots of the first operand, and then the children of the second that are in none of
them. -/
def slotwise (slots children : List Pattern) : List Pattern :=
  slots.map (settled children) ++
    children.filter fun child => !slots.any fun slot => slot.sameSlot child

theorem share_eq_together (slot child : Pattern) :
    slot.share child child.joined = slot.together child := by
  cases slot <;> cases child <;> rfl

theorem sameSlot_together (slot child b : Pattern) :
    (slot.together child).sameSlot b = slot.sameSlot b := by
  rw [← share_eq_together, sameSlot_share]

theorem settled_nil (slot : Pattern) : settled [] slot = slot := rfl

theorem settled_cons_of_sameSlot (h : slot.sameSlot child = true) (children : List Pattern) :
    settled (child :: children) slot = slot.together child := by
  rw [settled, List.find?_cons_of_pos h]

theorem settled_cons_of_not_sameSlot (h : slot.sameSlot child = false) (children : List Pattern) :
    settled (child :: children) slot = settled children slot := by
  rw [settled, List.find?_cons_of_neg (Bool.eq_false_iff.mp h), settled]

/-- A slot that no child is in stays as it is. -/
theorem settled_of_forall {children : List Pattern}
    (h : ∀ child ∈ children, slot.sameSlot child = false) : settled children slot = slot := by
  have hnone : children.find? slot.sameSlot = none :=
    List.find?_eq_none.mpr fun child hchild => Bool.eq_false_iff.mp (h child hchild)
  rw [settled, hnone]

/-- One child more : it settles its slot for good, as no later one is in that slot. -/
theorem settled_bring {children : List Pattern}
    (hapart : ∀ q ∈ children, child.sameSlot q = false) (slot : Pattern) :
    settled children (if slot.sameSlot child then slot.together child else slot) =
      settled (child :: children) slot := by
  cases hsame : slot.sameSlot child with
  | false => rw [if_neg Bool.false_ne_true, settled_cons_of_not_sameSlot hsame]
  | true =>
    rw [if_pos rfl, settled_cons_of_sameSlot hsame]
    refine settled_of_forall fun q hq => ?_
    rw [sameSlot_together, sameSlot_congr hsame]
    exact hapart q hq

/-- A child that is brought in does not change who shares a slot with what is apart from it. -/
theorem any_sameSlot_bring {q : Pattern} (hq : child.sameSlot q = false)
    (hslots : slots.Pairwise fun a b => a.sameSlot b = false) :
    (bring child slots).any (·.sameSlot q) = slots.any (·.sameSlot q) := by
  have hmap : ∀ slot : Pattern,
      (if slot.sameSlot child then slot.share child child.joined else slot).sameSlot q =
        slot.sameSlot q := by
    intro slot
    split
    · exact sameSlot_share slot child q _
    · rfl
  have hnew :
      (if slots.any (·.sameSlot child) then [] else [child]).any (·.sameSlot q) = false := by
    split
    · rfl
    · rw [List.any_cons, hq, List.any_nil, Bool.or_false]
  rw [bring_eq_place, place_eq_map_append child _ hslots, List.any_append, List.any_map, hnew,
    Bool.or_false]
  exact congrArg (slots.any ·) (funext hmap)

/-- The induction is on the children : the first one settles its slot or is a new slot, and the
others find it so. -/
theorem bringAll_eq_slotwise {children : List Pattern}
    (hslots : slots.Pairwise fun a b => a.sameSlot b = false)
    (hchildren : children.Pairwise fun a b => a.sameSlot b = false) :
    bringAll children slots = slotwise slots children := by
  induction hchildren generalizing slots with
  | nil =>
    rw [bringAll, slotwise, List.filter_nil, List.append_nil,
      List.map_congr_left fun q _ => settled_nil q, List.map_id']
  | @cons child children hchild _ ih =>
    have hapart : (bring child slots).Pairwise fun a b => a.sameSlot b = false := by
      rw [bring_eq_place]
      exact apart_place child _ hslots
    -- The later children are in the slots that they were in before, as none is in that of `child`.
    have hfilter : (children.filter fun q => !(bring child slots).any (·.sameSlot q)) =
        children.filter fun q => !slots.any (·.sameSlot q) :=
      List.filter_congr fun q hq => by rw [any_sameSlot_bring (hchild q hq) hslots]
    have hsettled : (bring child slots).map (settled children) =
        slots.map (settled (child :: children)) ++
          if slots.any (·.sameSlot child) then [] else [child] := by
      have hnew : settled children child = child := settled_of_forall hchild
      rw [bring_eq_place, place_eq_map_append child _ hslots, List.map_append, List.map_map]
      congr 1
      · refine List.map_congr_left fun slot _ => ?_
        rw [Function.comp_apply, share_eq_together, settled_bring hchild]
      · split
        · rfl
        · rw [List.map_singleton, hnew]
    rw [bringAll, ih hapart, slotwise, slotwise, hfilter, hsettled, List.append_assoc,
      List.filter_cons]
    cases slots.any (·.sameSlot child) <;> rfl

/-- The child that is in a slot is the one that settles it. -/
theorem settled_of_mem (hapart : ps.Pairwise fun a b => a.sameSlot b = false) (hchild : child ∈ ps)
    (hsame : slot.sameSlot child = true) : settled ps slot = slot.together child := by
  induction hapart with
  | nil => cases hchild
  | @cons q ps hq _ ih =>
    rcases List.mem_cons.mp hchild with rfl | hmem
    · exact settled_cons_of_sameSlot hsame ps
    · have hnot : slot.sameSlot q = false := by
        refine Bool.eq_false_iff.mpr fun h => ?_
        rw [sameSlot_congr h, hq child hmem] at hsame
        cases hsame
      rw [settled_cons_of_not_sameSlot hnot, ih hmem]

/-- Among several patterns there is one in a slot, or none. -/
theorem sharesOne_or_none (p : Pattern) (ps : List Pattern) :
    (∃ q ∈ ps, p.sameSlot q = true) ∨ ∀ q ∈ ps, p.sameSlot q = false := by
  cases h : ps.any p.sameSlot with
  | true => exact .inl (List.any_eq_true.mp h)
  | false => exact .inr fun q hq => Bool.eq_false_iff.mpr (List.any_eq_false.mp h q hq)

/-- What is in the slots of both operands is together, and what is in a slot of one alone is there
as it was. -/
theorem mem_slotwise_iff {children : List Pattern}
    (hchildren : children.Pairwise fun a b => a.sameSlot b = false) :
    p ∈ slotwise slots children ↔
      (∃ slot ∈ slots, ∃ child ∈ children, slot.sameSlot child = true ∧ p = slot.together child) ∨
        (p ∈ slots ∧ ∀ child ∈ children, p.sameSlot child = false) ∨
          p ∈ children ∧ ∀ slot ∈ slots, p.sameSlot slot = false := by
  have hnew : (!slots.any (·.sameSlot p)) = true ↔ ∀ slot ∈ slots, p.sameSlot slot = false := by
    rw [Bool.not_eq_true', List.any_eq_false]
    refine forall₂_congr fun slot _ => ?_
    rw [sameSlot_comm, Bool.not_eq_true]
  rw [slotwise, List.mem_append, List.mem_map, List.mem_filter, hnew, ← or_assoc]
  refine or_congr_left ⟨?_, ?_⟩
  · rintro ⟨slot, hslot, rfl⟩
    rcases slot.sharesOne_or_none children with ⟨child, hchild, hsame⟩ | hnone
    · exact .inl ⟨slot, hslot, child, hchild, hsame, settled_of_mem hchildren hchild hsame⟩
    · rw [settled_of_forall hnone]
      exact .inr ⟨hslot, hnone⟩
  · rintro (⟨slot, hslot, child, hchild, hsame, rfl⟩ | ⟨hslot, hnone⟩)
    · exact ⟨slot, hslot, settled_of_mem hchildren hchild hsame⟩
    · exact ⟨p, hslot, settled_of_forall hnone⟩

/-! ## Children of a merge -/

theorem children_of_isSingle (h : p.isSingle = true) : p.children = [p] := by
  cases p <;> first | rfl | cases h

theorem ofChildren_of_length (location : Option Location) (h : 2 ≤ ps.length) :
    ofChildren location ps = union ⟨false, location⟩ ps := by
  unfold ofChildren
  split
  · exact absurd h (Nat.lt_irrefl 1)
  · rfl

theorem children_ofChildren (location : Option Location) (h : ∀ p ∈ ps, p.isSingle = true) :
    (ofChildren location ps).children = ps := by
  unfold ofChildren
  split
  · next p => exact children_of_isSingle (h p List.mem_cons_self)
  · rfl

/-- Both operands have children, so the merge has them slot by slot. -/
theorem merge_eq_ofChildren (ha : a.WellFormed) (hb : b.WellFormed) (hane : a.isEmpty = false)
    (hbne : b.isEmpty = false) :
    a.merge b = ofChildren a.location (slotwise a.children b.children) := by
  rw [merge_of_not_isEmpty a hbne, extend, hane, if_neg Bool.false_ne_true,
    bringAll_eq_slotwise (ha.sideBySide hane).apart (hb.sideBySide hbne).apart]

theorem SideBySide.slotwise {children : List Pattern} (hslots : SideBySide slots)
    (hchildren : SideBySide children) : SideBySide (slotwise slots children) := by
  rw [← bringAll_eq_slotwise hslots.apart hchildren.apart]
  exact WellFormed.bringAll hchildren.single hchildren.wellFormed hslots

theorem children_merge_eq_slotwise (ha : a.WellFormed) (hb : b.WellFormed)
    (hane : a.isEmpty = false) (hbne : b.isEmpty = false) :
    (a.merge b).children = slotwise a.children b.children := by
  rw [merge_eq_ofChildren ha hb hane hbne,
    children_ofChildren _ ((ha.sideBySide hane).slotwise (hb.sideBySide hbne)).single]

theorem isEmpty_merge (ha : a.WellFormed) (hb : b.WellFormed) (hane : a.isEmpty = false)
    (hbne : b.isEmpty = false) : (a.merge b).isEmpty = false := by
  have hne := ((ha.sideBySide hane).slotwise (hb.sideBySide hbne)).nonempty
  rw [← children_merge_eq_slotwise ha hb hane hbne] at hne
  cases h : a.merge b with
  | empty m =>
    rw [h] at hne
    exact absurd rfl hne
  | _ => rfl

theorem asOptional_eq_mapChildren (h : p.isEmpty = false) :
    p.asOptional = p.mapChildren (·.setOptional true) := by
  cases p <;> first | rfl | cases h

theorem merge_of_both_empty (ha : a.isEmpty = true) (hb : b.isEmpty = true) : a.merge b = a := by
  cases b with
  | empty m => rw [merge_empty, if_pos ha]
  | _ => cases hb

/-- An empty first operand leaves the second, optional. -/
theorem merge_of_isEmpty (ha : a.isEmpty = true) (hb : b.isEmpty = false) :
    a.merge b = b.mapChildren (·.setOptional true) := by
  rw [merge_of_not_isEmpty a hb, extend, if_pos ha, asOptional_eq_mapChildren hb]

/-- An empty second operand leaves the first, optional. -/
theorem merge_isEmpty (ha : a.isEmpty = false) (hb : b.isEmpty = true) :
    a.merge b = a.mapChildren (·.setOptional true) := by
  cases b with
  | empty m =>
    rw [merge_empty, ha, if_neg Bool.false_ne_true, asOptional_eq_mapChildren ha]
  | _ => cases hb

/-! ## Induction on what is merged in -/

/-- The ways two patterns share a slot : as attributes or as elements of one name, or else by their
shape. -/
inductive Sharing : Pattern → Pattern → Prop where
  | attr (m n : Mark) {s t : AttributeTag} (x y : Pattern) (hname : s.name = t.name) :
    Sharing (.attr m s x) (.attr n t y)
  | elem (m n : Mark) {s t : ElementTag} (x y : Pattern) (hname : s.name = t.name) :
    Sharing (.elem m s x) (.elem n t y)
  | other {slot child : Pattern} (hslot : slot.content? = none) (hchild : child.content? = none)
    (hshape : slot.sameShape child = true) : Sharing slot child

theorem sharing_of_sameSlot (h : slot.sameSlot child = true) : Sharing slot child := by
  cases slot with
  | attr m s x =>
    cases child with
    | attr n t y => exact .attr m n x y (of_decide_eq_true h)
    | _ => cases h
  | elem m s x =>
    cases child with
    | elem n t y => exact .elem m n x y (of_decide_eq_true h)
    | _ => cases h
  | _ =>
    cases child with
    | attr => cases h
    | elem => cases h
    | _ => exact .other rfl rfl h

theorem together_of_content? (h : slot.content? = none) (child : Pattern) :
    slot.together child = slot.setOptional (slot.optional || child.optional) := by
  cases slot <;> first | rfl | cases h

theorem optional_setOptional (p : Pattern) (optional : Bool) :
    (p.setOptional optional).optional = optional := by
  cases p <;> rfl

theorem setOptional_setOptional (p : Pattern) (o o' : Bool) :
    (p.setOptional o).setOptional o' = p.setOptional o' := by
  cases p <;> rfl

theorem content?_setOptional (p : Pattern) (optional : Bool) :
    (p.setOptional optional).content? = p.content? := by
  cases p <;> rfl

/-- What is to be shown of a pattern that is merged in follows from what is to be shown of its
children in their slots, and that from what is to be shown of their contents. -/
theorem WellFormed.inSlots {whole inSlot : Pattern → Prop}
    (hwhole : ∀ {b : Pattern}, b.WellFormed → (∀ child ∈ b.children, inSlot child) → whole b)
    (hslot : ∀ {child : Pattern}, child.WellFormed → child.isSingle = true →
      (∀ content ∈ child.content?, whole content) → inSlot child)
    (hb : b.WellFormed) : whole b := by
  have hsingle {b : Pattern} (hb : b.WellFormed) (h : b.isSingle = true)
      (hcontent : ∀ content ∈ b.content?, whole content) :
      whole b ∧ (b.isSingle = true → inSlot b) := by
    have hin : inSlot b := hslot hb h hcontent
    refine ⟨hwhole hb ?_, fun _ => hin⟩
    rw [children_of_isSingle h]
    exact List.forall_mem_singleton.mpr hin
  -- The members of a union go into slots, so the induction has to show both.
  suffices whole b ∧ (b.isSingle = true → inSlot b) from this.1
  induction hb with
  | empty m => exact ⟨hwhole (.empty m) nofun, nofun⟩
  | data m type => exact hsingle (.data m type) rfl nofun
  | value m type literal => exact hsingle (.value m type literal) rfl nofun
  | list m hitem _ => exact hsingle (.list m hitem) rfl nofun
  | ref m rule label => exact hsingle (.ref m rule label) rfl nofun
  | attr m tag hcontent ih =>
    refine hsingle (.attr m tag hcontent) rfl ?_
    rintro _ ⟨⟩
    exact ih.1
  | elem m tag hcontent ih =>
    refine hsingle (.elem m tag hcontent) rfl ?_
    rintro _ ⟨⟩
    exact ih.1
  | union hoptional hlength hps hapart hmembers ih =>
    refine ⟨hwhole (.union hoptional hlength hps hapart hmembers) fun child hchild => ?_, nofun⟩
    exact (ih child hchild).2 (hps child hchild)

/-! ## Facts at every depth -/

/-- A step from a pattern into what it holds. -/
inductive Step where
  | attr (name : QName)
  | elem (name : QName)
  | item
  deriving DecidableEq, Repr

/-- What a pattern says of a place in it. -/
inductive Fact where
  /-- The place is there. -/
  | place
  | data (type : ValueType)
  | value (type : ValueType) (literal : String)
  | rule (id : RuleId)
  deriving DecidableEq, Repr

/-- What is known of a place, seen from one step before it. -/
def behind (step : Step) (facts : List (List Step × Fact)) : List (List Step × Fact) :=
  (([], .place) :: facts).map fun fact => (step :: fact.1, fact.2)

mutual

/-- All a pattern says of the places in it, each place told by the names of the attributes and
elements on the way. -/
def facts : Pattern → List (List Step × Fact)
  | empty _ => []
  | data _ type => [([], .data type)]
  | value _ type literal => [([], .value type literal)]
  | list _ item => behind .item item.facts
  | attr _ tag content => behind (.attr tag.name) content.facts
  | elem _ tag content => behind (.elem tag.name) content.facts
  | ref _ rule _ => [([], .rule rule)]
  | union _ members => factsAll members

/-- All that several patterns say. -/
def factsAll : List Pattern → List (List Step × Fact)
  | [] => []
  | p :: ps => p.facts ++ factsAll ps

end

theorem mem_factsAll {fact : List Step × Fact} :
    fact ∈ factsAll ps ↔ ∃ p ∈ ps, fact ∈ p.facts := by
  induction ps with
  | nil => simp [factsAll]
  | cons p ps ih => rw [factsAll, List.mem_append, ih, List.exists_mem_cons_iff]

/-- The facts of a pattern are those of its children. -/
theorem mem_facts {fact : List Step × Fact} :
    fact ∈ p.facts ↔ ∃ q ∈ p.children, fact ∈ q.facts := by
  cases p with
  | empty => simp [facts, children]
  | union m ps => exact mem_factsAll
  | _ => simp only [children, List.exists_mem_cons_iff, List.not_mem_nil, false_and, exists_false,
      or_false]

theorem not_mem_facts_of_isEmpty (h : p.isEmpty = true) (fact : List Step × Fact) :
    fact ∉ p.facts := by
  cases p with
  | empty m => exact List.not_mem_nil
  | _ => cases h

theorem facts_withMark (m : Mark) (p : Pattern) : (p.withMark m).facts = p.facts := by
  cases p <;> rfl

mutual

theorem facts_outline : ∀ p : Pattern, p.outline.facts = p.facts
  | .empty _ | .data _ _ | .value _ _ _ | .ref _ _ _ => rfl
  | .list _ item => by rw [outline, facts, facts, facts_outline item]
  | .attr _ _ content => by rw [outline, facts, facts, facts_outline content]
  | .elem _ _ content => by rw [outline, facts, facts, facts_outline content]
  | .union _ ps => factsAll_outlineAll ps

theorem factsAll_outlineAll : ∀ ps : List Pattern, factsAll (outlineAll ps) = factsAll ps
  | [] => rfl
  | p :: ps => by rw [outlineAll, factsAll, factsAll, facts_outline p, factsAll_outlineAll ps]

end

/-- A shape decides the facts. -/
theorem facts_of_sameShape (h : a.sameShape b = true) : a.facts = b.facts := by
  rw [← facts_outline a, (sameShape_iff a b).mp h, facts_outline b]

/-- The facts of two places in one, seen from one step before. -/
theorem mem_behind_of_union {step : Step} {xs ys zs : List (List Step × Fact)}
    (h : ∀ fact, fact ∈ zs ↔ fact ∈ xs ∨ fact ∈ ys) (fact : List Step × Fact) :
    fact ∈ behind step zs ↔ fact ∈ behind step xs ∨ fact ∈ behind step ys := by
  simp only [behind, List.map_cons, List.mem_cons, List.mem_map, h, or_and_right, exists_or]
  exact or_or_distrib_left

/-- The facts of a pattern stay when its children become optional. -/
theorem mem_facts_mapChildren (p : Pattern) (fact : List Step × Fact) :
    fact ∈ (p.mapChildren (·.setOptional true)).facts ↔ fact ∈ p.facts := by
  cases p with
  | union m ps =>
    rw [mapChildren, facts, facts, mem_factsAll, mem_factsAll]
    constructor
    · rintro ⟨_, hmem, hfact⟩
      obtain ⟨p, hp, rfl⟩ := List.mem_map.mp hmem
      exact ⟨p, hp, by rwa [setOptional, facts_withMark] at hfact⟩
    · rintro ⟨p, hp, hfact⟩
      exact ⟨_, List.mem_map_of_mem hp, by rwa [setOptional, facts_withMark]⟩
  | _ => rfl

/-- The facts of slots are those of what they held in both operands, if that holds for each slot
that was in both. -/
theorem mem_facts_slotwise {fact : List Step × Fact}
    (hapart : ps.Pairwise fun a b => a.sameSlot b = false)
    (htogether : ∀ slot ∈ slots, ∀ child ∈ ps, slot.sameSlot child = true →
      (fact ∈ (slot.together child).facts ↔ fact ∈ slot.facts ∨ fact ∈ child.facts)) :
    (∃ p ∈ slotwise slots ps, fact ∈ p.facts) ↔
      (∃ slot ∈ slots, fact ∈ slot.facts) ∨ ∃ child ∈ ps, fact ∈ child.facts := by
  constructor
  · rintro ⟨p, hp, hfact⟩
    rcases (mem_slotwise_iff hapart).mp hp with
      ⟨slot, hslot, child, hchild, hsame, rfl⟩ | ⟨hslot, -⟩ | ⟨hchild, -⟩
    · rcases (htogether slot hslot child hchild hsame).mp hfact with h | h
      · exact .inl ⟨slot, hslot, h⟩
      · exact .inr ⟨child, hchild, h⟩
    · exact .inl ⟨p, hslot, hfact⟩
    · exact .inr ⟨p, hchild, hfact⟩
  · rintro (⟨slot, hslot, hfact⟩ | ⟨child, hchild, hfact⟩)
    · rcases slot.sharesOne_or_none ps with ⟨child, hchild, hsame⟩ | hnone
      · exact ⟨_, (mem_slotwise_iff hapart).mpr (.inl ⟨slot, hslot, child, hchild, hsame, rfl⟩),
          (htogether slot hslot child hchild hsame).mpr (.inl hfact)⟩
      · exact ⟨slot, (mem_slotwise_iff hapart).mpr (.inr (.inl ⟨hslot, hnone⟩)), hfact⟩
    · rcases child.sharesOne_or_none slots with ⟨slot, hslot, hsame⟩ | hnone
      · rw [sameSlot_comm] at hsame
        exact ⟨_, (mem_slotwise_iff hapart).mpr (.inl ⟨slot, hslot, child, hchild, hsame, rfl⟩),
          (htogether slot hslot child hchild hsame).mpr (.inr hfact)⟩
      · exact ⟨child, (mem_slotwise_iff hapart).mpr (.inr (.inr ⟨hchild, hnone⟩)), hfact⟩

/-- The facts of a pattern are added to those of any well-formed one that it is merged into. -/
def Adds (b : Pattern) : Prop :=
  ∀ {a : Pattern}, a.WellFormed → ∀ fact,
    fact ∈ (a.merge b).facts ↔ fact ∈ a.facts ∨ fact ∈ b.facts

/-- It is enough that they are added in each slot. -/
theorem adds_of_together (hb : b.WellFormed)
    (htogether : ∀ child ∈ b.children, ∀ slot : Pattern, slot.WellFormed → slot.isSingle = true →
      slot.sameSlot child = true → ∀ fact,
        fact ∈ (slot.together child).facts ↔ fact ∈ slot.facts ∨ fact ∈ child.facts) :
    b.Adds := by
  intro a ha fact
  cases hane : a.isEmpty with
  | true =>
    rw [or_iff_right (not_mem_facts_of_isEmpty hane fact)]
    cases hbne : b.isEmpty with
    | true =>
      rw [merge_of_both_empty hane hbne]
      exact iff_of_false (not_mem_facts_of_isEmpty hane fact) (not_mem_facts_of_isEmpty hbne fact)
    | false => rw [merge_of_isEmpty hane hbne, mem_facts_mapChildren]
  | false =>
    cases hbne : b.isEmpty with
    | true =>
      rw [or_iff_left (not_mem_facts_of_isEmpty hbne fact), merge_isEmpty hane hbne,
        mem_facts_mapChildren]
    | false =>
      have hslots := ha.sideBySide hane
      rw [mem_facts, children_merge_eq_slotwise ha hb hane hbne,
        mem_facts_slotwise (hb.sideBySide hbne).apart, ← mem_facts, ← mem_facts]
      intro slot hslot child hchild hsame
      exact htogether child hchild slot (hslots.wellFormed slot hslot) (hslots.single slot hslot)
        hsame fact

/-- In the slot of an attribute or an element contents merge, and in any other slot there is one
shape alone. -/
theorem mem_facts_together (hslot : slot.WellFormed) (hsame : slot.sameSlot child = true)
    (hcontent : ∀ content ∈ child.content?, content.Adds) (fact : List Step × Fact) :
    fact ∈ (slot.together child).facts ↔ fact ∈ slot.facts ∨ fact ∈ child.facts := by
  cases sharing_of_sameSlot hsame with
  | attr m n x y hname =>
    cases hslot with
    | attr _ _ hx =>
      rw [together, facts, facts, facts, ← hname]
      exact mem_behind_of_union (hcontent y rfl hx) fact
  | elem m n x y hname =>
    cases hslot with
    | elem _ _ hx =>
      rw [together, facts, facts, facts, ← hname]
      exact mem_behind_of_union (hcontent y rfl hx) fact
  | other hcontent _ hshape =>
    rw [together_of_content? hcontent, setOptional, facts_withMark, ← facts_of_sameShape hshape,
      or_self]

theorem WellFormed.adds (hb : b.WellFormed) : b.Adds :=
  hb.inSlots adds_of_together fun _ _ hcontent _ hslot _ hsame =>
    mem_facts_together hslot hsame hcontent

/-! ## The law of merging -/

/-- A pattern is the union of two, slot by slot. -/
structure IsUnion (a b c : Pattern) : Prop where
  /-- The children of both, those in one slot together. -/
  children (ha : a.isEmpty = false) (hb : b.isEmpty = false) :
    c.children = slotwise a.children b.children
  /-- A single child stands for itself, and several stand where the first operand does. -/
  whole (ha : a.isEmpty = false) (hb : b.isEmpty = false) :
    c = ofChildren a.location (slotwise a.children b.children)
  /-- Beside nothing, each child of the second operand may be left out. -/
  right (ha : a.isEmpty = true) (hb : b.isEmpty = false) :
    c = b.mapChildren (·.setOptional true)
  /-- Beside nothing, each child of the first operand may be left out. -/
  left (ha : a.isEmpty = false) (hb : b.isEmpty = true) :
    c = a.mapChildren (·.setOptional true)
  /-- At every depth there is what one of the two has there, and nothing else. -/
  facts (fact : List Step × Fact) : fact ∈ c.facts ↔ fact ∈ a.facts ∨ fact ∈ b.facts

/-- A merge of well-formed patterns is their union, slot by slot. -/
theorem isUnion_merge (ha : a.WellFormed) (hb : b.WellFormed) : IsUnion a b (a.merge b) where
  children hane hbne := children_merge_eq_slotwise ha hb hane hbne
  whole hane hbne := merge_eq_ofChildren ha hb hane hbne
  right hane hbne := merge_of_isEmpty hane hbne
  left hane hbne := merge_isEmpty hane hbne
  facts := hb.adds ha

/-- A title of text and a title with a language are one title that has both. -/
theorem children_merge_title :
    ((ofElement (.unqualified "title") text).merge
      (ofElement (.unqualified "title") (ofAttribute (.unqualified "lang") text))).children =
      [ofElement (.unqualified "title")
        (union .plain [text, ofAttribute (.unqualified "lang") text])] := by
  have htext : text.WellFormed := .data _ _
  have hunion := isUnion_merge (a := ofElement (.unqualified "title") text) (.elem _ _ htext)
    (b := ofElement (.unqualified "title") (ofAttribute (.unqualified "lang") text))
    (.elem _ _ (.attr _ _ htext))
  rw [hunion.children rfl rfl]
  decide +kernel

end Pattern

end MarkupTypes
