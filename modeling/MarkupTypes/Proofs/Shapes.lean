import MarkupTypes.Proofs.WellFormed

/-!
# Merging shapes

A merge looks at names and shapes alone to find the slots of children, and takes from them nothing
else but marks, labels and types, which it copies. So it can be done on the outlines of its operands
(`Pattern.outline_merge`), and patterns of one shape may stand for each other in it, well formed or
not (`Pattern.outline_merge_congr`). At the level of shapes an empty operand makes no difference
(`Pattern.outline_merge_of_isEmpty`, `Pattern.outline_merge_isEmpty`).
-/

namespace MarkupTypes

namespace Pattern

variable {a a' b b' slot slot' : Pattern} {slots slots' : List Pattern}
  {join join' : Pattern → Pattern}

/-! ## What an outline shows -/

theorem outlineAll_eq_map (ps : List Pattern) : outlineAll ps = ps.map outline := by
  induction ps with
  | nil => rfl
  | cons p ps ih => rw [outlineAll, ih, List.map_cons]

mutual

@[simp] theorem outline_outline : ∀ p : Pattern, p.outline.outline = p.outline
  | .empty _ | .data _ _ | .value _ _ _ | .ref _ _ _ => rfl
  | .list _ item => by rw [outline, outline, outline_outline item]
  | .attr _ _ content => by rw [outline, outline, outline_outline content]
  | .elem _ _ content => by rw [outline, outline, outline_outline content]
  | .union _ ps => by rw [outline, outline, outlineAll_outlineAll ps]

@[simp] theorem outlineAll_outlineAll :
    ∀ ps : List Pattern, outlineAll (outlineAll ps) = outlineAll ps
  | [] => rfl
  | p :: ps => by rw [outlineAll, outlineAll, outline_outline p, outlineAll_outlineAll ps]

end

@[simp] theorem isEmpty_outline (p : Pattern) : p.outline.isEmpty = p.isEmpty := by
  cases p <;> rfl

theorem children_outline (p : Pattern) : p.outline.children = p.children.map outline := by
  cases p <;> first | rfl | exact outlineAll_eq_map _

@[simp] theorem outline_withMark (m : Mark) (p : Pattern) : (p.withMark m).outline = p.outline := by
  cases p <;> rfl

@[simp] theorem outline_setOptional (p : Pattern) (optional : Bool) :
    (p.setOptional optional).outline = p.outline :=
  outline_withMark _ p

@[simp] theorem outline_asOptional (p : Pattern) : p.asOptional.outline = p.outline := by
  cases p with
  | union m ps =>
    rw [asOptional, outline, outline, outlineAll_eq_map, outlineAll_eq_map, List.map_map]
    exact congrArg _ (List.map_congr_left fun p _ => outline_setOptional p true)
  | _ => rfl

theorem outline_ofChildren (location : Option Location) (ps : List Pattern) :
    (ofChildren location ps).outline = ofChildren none (ps.map outline) := by
  unfold ofChildren
  split
  · rfl
  · next h =>
    rw [outline, outlineAll_eq_map]
    split
    · next p hp =>
      obtain ⟨q, rfl, -⟩ := List.map_eq_singleton_iff.mp hp
      exact absurd rfl (h q)
    · rfl

/-- Outlines are the same shape as what they are outlines of. -/
theorem sameShape_outline (p q : Pattern) : p.outline.sameShape q.outline = p.sameShape q := by
  rw [Bool.eq_iff_iff, sameShape_iff, sameShape_iff, outline_outline, outline_outline]

/-- Slots can be told apart by outlines. -/
theorem sameSlot_outline (p q : Pattern) : p.outline.sameSlot q.outline = p.sameSlot q := by
  cases p with
  | attr m tag content => cases q <;> rfl
  | elem m tag content => cases q <;> rfl
  | _ =>
    cases q with
    | attr => rfl
    | elem => rfl
    | _ => exact sameShape_outline _ _

/-! ## Merging outlines -/

/-- Two ways to join contents make the same shapes of the same shapes. -/
def Agree (join join' : Pattern → Pattern) : Prop :=
  ∀ {p q : Pattern}, p.outline = q.outline → (join p).outline = (join' q).outline

/-- A slot comes to be shared with an outline as with what it is the outline of. -/
theorem outline_share (hjoin : Agree join join') (hslot : slot.outline = slot'.outline)
    (child : Pattern) :
    (slot.share child join).outline = (slot'.share child.outline join').outline := by
  cases slot with
  | attr m s x =>
    cases slot' with
    | attr m' s' x' =>
      obtain ⟨-, htag, hcontent⟩ := attr.inj hslot
      cases child with
      | attr n t y => rw [share, outline, outline, share, outline, hjoin hcontent, htag]
      | _ => exact hslot
    | _ => cases hslot
  | elem m s x =>
    cases slot' with
    | elem m' s' x' =>
      obtain ⟨-, htag, hcontent⟩ := elem.inj hslot
      cases child with
      | elem n t y => rw [share, outline, outline, share, outline, hjoin hcontent, htag]
      | _ => exact hslot
    | _ => cases hslot
  | _ =>
    cases slot' with
    | attr | elem => cases hslot
    | _ =>
      rw [share_of_content? rfl, share_of_content? rfl, outline_withMark, outline_withMark]
      exact hslot

theorem outline_place (hjoin : Agree join join') (child : Pattern)
    (hslots : slots.map outline = slots'.map outline) :
    (place child join slots).map outline = (place child.outline join' slots').map outline := by
  induction slots generalizing slots' with
  | nil =>
    obtain rfl := List.map_eq_nil_iff.mp hslots.symm
    rw [place, place, List.map_singleton, List.map_singleton, outline_outline]
  | cons slot slots ih =>
    obtain ⟨slot', slots', rfl, hslot, hslots⟩ := List.map_eq_cons_iff.mp hslots.symm
    have hsame : slot'.sameSlot child.outline = slot.sameSlot child := by
      rw [← sameSlot_outline, hslot, outline_outline, sameSlot_outline]
    rw [place, place, hsame]
    split
    · rw [List.map_cons, List.map_cons, outline_share hjoin hslot.symm, hslots]
    · rw [List.map_cons, List.map_cons, ih hslots.symm, hslot]

theorem outline_extend {bring bring' : List Pattern → List Pattern}
    (ha : a.outline = a'.outline) (b : Pattern)
    (hbring : (bring a.children).map outline = (bring' a'.children).map outline) :
    (a.extend b bring).outline = (a'.extend b.outline bring').outline := by
  rw [extend, extend, ← isEmpty_outline a, ha, isEmpty_outline]
  split
  · rw [outline_asOptional, outline_asOptional, outline_outline]
  · rw [outline_ofChildren, outline_ofChildren, hbring]

/-- The children of patterns of one shape have the same shapes. -/
theorem map_outline_children (h : a.outline = a'.outline) :
    a.children.map outline = a'.children.map outline := by
  rw [← children_outline, h, children_outline]

mutual

/-- The induction is on the second operand, whose contents are merged in turn. -/
theorem agree_mergeInto : ∀ b : Pattern, Agree (mergeInto b) (mergeInto b.outline)
  | .empty m, a, a', ha => by
    rw [outline, mergeInto, mergeInto, ← isEmpty_outline a, ha, isEmpty_outline]
    split
    · exact ha
    · rw [outline_asOptional, outline_asOptional, ha]
  | .union m ps, a, a', ha =>
    outline_extend ha (.union m ps) (outline_bringAll ps (map_outline_children ha))
  | .attr m tag content, a, a', ha =>
    outline_extend ha _ (outline_place (agree_mergeInto content) _ (map_outline_children ha))
  | .elem m tag content, a, a', ha =>
    outline_extend ha _ (outline_place (agree_mergeInto content) _ (map_outline_children ha))
  | .data m type, a, a', ha =>
    outline_extend ha _ (outline_place id (.data m type) (map_outline_children ha))
  | .value m type literal, a, a', ha =>
    outline_extend ha _ (outline_place id (.value m type literal) (map_outline_children ha))
  | .list m item, a, a', ha =>
    outline_extend ha _ (outline_place id (.list m item) (map_outline_children ha))
  | .ref m rule label, a, a', ha =>
    outline_extend ha _ (outline_place id (.ref m rule label) (map_outline_children ha))

theorem outline_bring : ∀ (b : Pattern) {slots slots' : List Pattern},
    slots.map outline = slots'.map outline →
      (bring b slots).map outline = (bring b.outline slots').map outline
  | .attr m tag content, _, _, h => outline_place (agree_mergeInto content) (.attr m tag content) h
  | .elem m tag content, _, _, h => outline_place (agree_mergeInto content) (.elem m tag content) h
  | .empty m, _, _, h => outline_place id (.empty m) h
  | .data m type, _, _, h => outline_place id (.data m type) h
  | .value m type literal, _, _, h => outline_place id (.value m type literal) h
  | .list m item, _, _, h => outline_place id (.list m item) h
  | .ref m rule label, _, _, h => outline_place id (.ref m rule label) h
  | .union m ps, _, _, h => outline_place id (.union m ps) h

theorem outline_bringAll : ∀ (bs : List Pattern) {slots slots' : List Pattern},
    slots.map outline = slots'.map outline →
      (bringAll bs slots).map outline = (bringAll (outlineAll bs) slots').map outline
  | [], _, _, h => h
  | b :: bs, _, _, h => outline_bringAll bs (outline_bring b h)

end

/-- Merging can be done on outlines. -/
theorem outline_merge (a b : Pattern) :
    (a.merge b).outline = (a.outline.merge b.outline).outline :=
  agree_mergeInto b (outline_outline a).symm

/-- Patterns of one shape may stand for each other in a merge. -/
theorem outline_merge_congr (ha : a.outline = a'.outline) (hb : b.outline = b'.outline) :
    (a.merge b).outline = (a'.merge b').outline := by
  rw [outline_merge, ha, hb, ← outline_merge]

/-- At the level of shapes an empty first operand makes no difference. -/
theorem outline_merge_of_isEmpty (ha : a.isEmpty = true) : (a.merge b).outline = b.outline := by
  cases hb : b.isEmpty with
  | true =>
    cases a with
    | empty m =>
      cases b with
      | empty n => rfl
      | _ => cases hb
    | _ => cases ha
  | false => rw [merge_of_not_isEmpty a hb, extend, if_pos ha, outline_asOptional]

/-- At the level of shapes an empty second operand makes no difference. -/
theorem outline_merge_isEmpty (hb : b.isEmpty = true) : (a.merge b).outline = a.outline := by
  cases b with
  | empty m =>
    rw [merge_empty]
    split
    · rfl
    · exact outline_asOptional a
  | _ => cases hb

/-! ## Shape is a congruence -/

/-- Having the same shape is an equivalence that merging keeps, and which shape a merge has is
settled by the outlines of the operands. So locations, flags, labels and types have no influence on
which children a merge has, on how they nest or on their order. -/
theorem sameShape_congruence :
    Equivalence (fun a b : Pattern => a.sameShape b = true) ∧
      (∀ {a a' b b' : Pattern}, a.sameShape a' = true → b.sameShape b' = true →
        (a.merge b).sameShape (a'.merge b') = true) ∧
      ∀ a b : Pattern, (a.merge b).outline = (a.outline.merge b.outline).outline := by
  refine ⟨⟨fun a => ?_, fun {a b} h => ?_, fun {a b c} hab hbc => ?_⟩, fun ha hb => ?_,
    outline_merge⟩
  · exact (sameShape_iff a a).mpr rfl
  · rwa [sameShape_comm]
  · rwa [sameShape_congr hab]
  · rw [sameShape_iff] at ha hb ⊢
    exact outline_merge_congr ha hb

/-- A title with a location, a label and a type, merged with a union that is not well formed, makes
the shape that a plain title makes with a union of other flags. -/
theorem sameShape_congruence_title :
    (elem ⟨true, some ⟨none, 3, 4⟩⟩ ⟨.unqualified "title", some "heading", some 7⟩ text).sameShape
        (ofElement (.unqualified "title") text) = true ∧
      (union .plain [empty ⟨true, none⟩, ofElement (.unqualified "title") text]).sameShape
        (union ⟨true, none⟩ [empty .plain, ofElement (.unqualified "title") text]) = true ∧
      ((elem ⟨true, some ⟨none, 3, 4⟩⟩ ⟨.unqualified "title", some "heading", some 7⟩ text).merge
          (union .plain [empty ⟨true, none⟩, ofElement (.unqualified "title") text])).sameShape
        ((ofElement (.unqualified "title") text).merge
          (union ⟨true, none⟩ [empty .plain, ofElement (.unqualified "title") text])) = true := by
  have htitle : (elem ⟨true, some ⟨none, 3, 4⟩⟩ ⟨.unqualified "title", some "heading", some 7⟩
      text).sameShape (ofElement (.unqualified "title") text) = true := by decide
  have hunion : (union .plain [empty ⟨true, none⟩, ofElement (.unqualified "title") text]).sameShape
      (union ⟨true, none⟩ [empty .plain, ofElement (.unqualified "title") text]) = true := by decide
  exact ⟨htitle, hunion, sameShape_congruence.2.1 htitle hunion⟩

end Pattern

end MarkupTypes
