import MarkupTypes.Proofs.MergeOrder

/-!
# Siblings

The children of a merge, and where a lone attribute, element or reference goes among them.
Only children of one sign share a slot (`Pattern.sign?_of_sameSlot`). So a child changes nothing
among those of other signs (`Pattern.filter_place_of_dropped`), and documents of patterns that
differ in one child have the same children of all other signs
(`Pattern.filter_documentChildren`).
-/

namespace MarkupTypes

/-! ## Children that find their slots -/

namespace Pattern

/-- What tells a lone attribute, element or reference from others. -/
def sign? : Pattern → Option (MemberKey ⊕ RuleId)
  | attr _ tag _ => some (.inl (.attr, tag.name))
  | elem _ tag _ => some (.inl (.elem, tag.name))
  | ref _ rule _ => some (.inr rule)
  | empty _ | data _ _ | value _ _ _ | list _ _ | union _ _ => none

/-- How the content of a child is brought into that of its slot. -/
def joined : Pattern → Pattern → Pattern
  | attr _ _ content => mergeInto content
  | elem _ _ content => mergeInto content
  | _ => id

variable {a b p q : Pattern} {sign : MemberKey ⊕ RuleId} {ps : List Pattern}

theorem bring_eq_place (b : Pattern) : bring b = place b b.joined := by
  cases b <;> rfl

theorem sign?_asOptional (p : Pattern) : p.asOptional.sign? = p.sign? := by
  cases p <;> rfl

/-- Only what has the same sign shares a slot. -/
theorem sign?_of_sameSlot (h : a.sameSlot b = true) : a.sign? = b.sign? := by
  cases a with
  | attr m s content =>
    cases b with
    | attr n t content' =>
      have hname : s.name = t.name := of_decide_eq_true h
      rw [sign?, sign?, hname]
    | _ => cases h
  | elem m s content =>
    cases b with
    | elem n t content' =>
      have hname : s.name = t.name := of_decide_eq_true h
      rw [sign?, sign?, hname]
    | _ => cases h
  | ref m id label =>
    cases b with
    | ref n id' label' =>
      have hid : id = id' := of_decide_eq_true h
      rw [sign?, sign?, hid]
    | _ => cases h
  | _ =>
    cases b with
    | attr => cases h
    | elem => cases h
    | ref => cases h
    | _ => rfl

/-- References to one rule share a slot. -/
theorem sameSlot_ofRule {id : RuleId} (h : a.sign? = some (.inr id)) :
    a.sameSlot (ofRule id) = true := by
  cases a with
  | ref m rule label =>
    obtain rfl := Sum.inr.inj (Option.some.inj h)
    exact decide_eq_true rfl
  | _ => cases h

theorem sign?_share (slot child : Pattern) (join : Pattern → Pattern) :
    (slot.share child join).sign? = slot.sign? := by
  cases slot <;> cases child <;> rfl

/-- What has a sign is its own only child. -/
theorem children_of_sign? (h : p.sign? = some sign) : p.children = [p] := by
  cases p <;> first | rfl | cases h

theorem isEmpty_of_sign? (h : p.sign? = some sign) : p.isEmpty = false := by
  cases p <;> first | rfl | cases h

/-! ## Placing a child -/

section

variable (keep : Option (MemberKey ⊕ RuleId) → Bool) (join : Pattern → Pattern)

/-- A child that does not matter changes nothing among those that do. -/
theorem filter_place_of_dropped (hb : keep b.sign? = false) (ps : List Pattern) :
    (place b join ps).filter (fun p => keep p.sign?) = ps.filter fun p => keep p.sign? := by
  induction ps with
  | nil => simp [place, hb]
  | cons slot slots ih =>
    rw [place]
    split
    · next hsame =>
      have hslot : keep slot.sign? = false := by rw [sign?_of_sameSlot hsame, hb]
      have hshare : keep (slot.share b join).sign? = false := by rw [sign?_share, hslot]
      rw [List.filter_cons_of_neg (by simp [hshare]), List.filter_cons_of_neg (by simp [hslot])]
    · rw [List.filter_cons, List.filter_cons, ih]

/-- A child that matters finds its slot among those that do. -/
theorem filter_place_of_kept (hb : keep b.sign? = true) (ps : List Pattern) :
    (place b join ps).filter (fun p => keep p.sign?) =
      place b join (ps.filter fun p => keep p.sign?) := by
  induction ps with
  | nil => simp [place, hb]
  | cons slot slots ih =>
    rw [place]
    split
    · next hsame =>
      have hslot : keep slot.sign? = true := by rw [sign?_of_sameSlot hsame, hb]
      have hshare : keep (slot.share b join).sign? = true := by rw [sign?_share, hslot]
      rw [List.filter_cons_of_pos (by simp [hshare]), List.filter_cons_of_pos (by simp [hslot]),
        place, if_pos hsame]
    · next hsame =>
      rw [List.filter_cons, List.filter_cons, ih]
      split
      · rw [place, if_neg hsame]
      · rfl

end

/-- A child without a slot of its own gets a new one. -/
theorem place_eq_append (join : Pattern → Pattern) (h : ∀ q ∈ ps, q.sign? ≠ b.sign?) :
    place b join ps = ps ++ [b] := by
  induction ps with
  | nil => rfl
  | cons slot slots ih =>
    have hslot : ¬slot.sameSlot b = true := fun hsame =>
      h slot List.mem_cons_self (sign?_of_sameSlot hsame)
    rw [place, if_neg hslot, ih fun q hq => h q (List.mem_cons_of_mem _ hq), List.cons_append]

/-- A child is placed before or after another one that it does not share a slot with. -/
theorem exists_place_append (b : Pattern) (join : Pattern → Pattern) (ps : List Pattern) :
    ∃ before after, place b join ps = before ++ after ∧
      (∀ q ∈ ps, q.sign? ≠ b.sign? → q ∈ before) ∧
      ∀ q, q.sign? ≠ b.sign? → place b join (ps ++ [q]) = before ++ q :: after := by
  induction ps with
  | nil =>
    refine ⟨[], [b], rfl, fun q hq => absurd hq List.not_mem_nil, fun q hq => ?_⟩
    rw [List.nil_append, place, if_neg fun hsame => hq (sign?_of_sameSlot hsame)]
    rfl
  | cons slot slots ih =>
    by_cases hsame : slot.sameSlot b = true
    · refine ⟨slot.share b join :: slots, [], ?_, fun q hq hsign => ?_, fun q _ => ?_⟩
      · rw [place, if_pos hsame, List.append_nil]
      · rcases List.mem_cons.mp hq with rfl | hq
        · exact absurd (sign?_of_sameSlot hsame) hsign
        · exact List.mem_cons_of_mem _ hq
      · rw [List.cons_append, place, if_pos hsame]
        rfl
    · obtain ⟨before, after, heq, hmem, happend⟩ := ih
      refine ⟨slot :: before, after, ?_, fun q hq hsign => ?_, fun q hq => ?_⟩
      · rw [place, if_neg hsame, heq]
        rfl
      · rcases List.mem_cons.mp hq with rfl | hq
        · exact List.mem_cons_self
        · exact List.mem_cons_of_mem _ (hmem q hq hsign)
      · rw [List.cons_append, place, if_neg hsame, happend q hq]
        rfl

theorem place_ne_nil (b : Pattern) (join : Pattern → Pattern) (ps : List Pattern) :
    place b join ps ≠ [] := by
  cases ps with
  | nil => exact List.cons_ne_nil _ _
  | cons slot slots =>
    rw [place]
    split <;> exact List.cons_ne_nil _ _

/-- A reference that brings no flag leaves a reference to the same rule as it is. -/
theorem place_ofRule {id : RuleId} (join : Pattern → Pattern)
    (h : ∃ q ∈ ps, q.sign? = some (.inr id)) : place (ofRule id) join ps = ps := by
  induction ps with
  | nil => simp at h
  | cons slot slots ih =>
    by_cases hsame : slot.sameSlot (ofRule id) = true
    · have hslot : slot.share (ofRule id) join = slot := by
        cases slot with
        | ref m rule label =>
          cases m
          simp [share, withMark, mark, Mark.share, ofRule, Mark.plain]
        | _ => cases hsame
      rw [place, if_pos hsame, hslot]
    · obtain ⟨q, hq, hsign⟩ := h
      rcases List.mem_cons.mp hq with rfl | hq
      · exact absurd (sameSlot_ofRule hsign) hsame
      · rw [place, if_neg hsame, ih ⟨q, hq, hsign⟩]

/-! ## Patterns among others -/

/-- A pattern merged after others, as in a list of patterns merged in order
(`mergeAll?_append_pair`). -/
def among (qs : List Pattern) (p : Pattern) : Pattern :=
  match mergeAll? qs with
  | some q => q.merge p
  | none => p

/-- The children that a pattern finds when it is merged after others. -/
def siblings (qs : List Pattern) : List Pattern :=
  match mergeAll? qs with
  | some q => q.children
  | none => []

/-- A pattern as it is merged after others : optional, if they are empty. -/
def joining (qs : List Pattern) (p : Pattern) : Pattern :=
  if (mergeAll? qs).any isEmpty then p.asOptional else p

/-- A document of patterns that are merged in order, an attribute last. -/
theorem mergeAll?_append_pair (qs : List Pattern) (p : Pattern) (name : QName) :
    mergeAll? (qs ++ [p, .ofAttribute name .text]) = some ((among qs p).withAttribute name) := by
  cases qs with
  | nil => rfl
  | cons q qs =>
    rw [among, mergeAll?, List.cons_append, mergeAll?, List.foldl_append]
    rfl

/-- Patterns that leave siblings are not empty. -/
theorem joining_of_mem {qs : List Pattern} (hq : q ∈ siblings qs) (p : Pattern) :
    joining qs p = p := by
  unfold joining
  unfold siblings at hq
  cases hmerged : mergeAll? qs with
  | none =>
    rw [hmerged] at hq
    cases hq
  | some m =>
    rw [hmerged] at hq
    cases m with
    | empty => cases hq
    | _ => rfl

theorem slots_ofChildren (location : Option Location) (ps : List Pattern) :
    (ofChildren location ps).slots false = slotsAll false ps := by
  unfold ofChildren
  split
  · rw [slotsAll, slotsAll, List.append_nil]
  · rfl

/-- Children among which one with a sign was placed are the children of their pattern. -/
theorem children_ofChildren_place (location : Option Location) (hb : b.sign? = some sign)
    (join : Pattern → Pattern) (ps : List Pattern) :
    (ofChildren location (place b join ps)).children = place b join ps := by
  cases ps with
  | nil => exact children_of_sign? hb
  | cons slot slots =>
    rw [place]
    split
    · next hsame =>
      have hshare : (slot.share b join).sign? = some sign := by
        rw [sign?_share, sign?_of_sameSlot hsame, hb]
      cases slots with
      | nil => exact children_of_sign? hshare
      | cons _ _ => rfl
    · cases hplace : place b join slots with
      | nil => exact absurd hplace (place_ne_nil b join slots)
      | cons _ _ => rfl

theorem children_merge (q : Pattern) (hp : p.sign? = some sign) : (q.merge p).children =
    bring (if q.isEmpty then p.asOptional else p) q.children := by
  rw [merge_of_not_isEmpty q (isEmpty_of_sign? hp), children_of_sign? hp, extend]
  split
  · next hempty =>
    have hchildren : q.children = [] := by
      cases q with
      | empty m => rfl
      | _ => cases hempty
    rw [hchildren, bring_eq_place, children_of_sign? ((sign?_asOptional p).trans hp)]
    rfl
  · rw [bringAll, bringAll, bring_eq_place, children_ofChildren_place _ hp]

theorem children_among (qs : List Pattern) (hp : p.sign? = some sign) :
    (among qs p).children = bring (joining qs p) (siblings qs) := by
  unfold among joining siblings
  cases mergeAll? qs with
  | none =>
    rw [bring_eq_place]
    exact children_of_sign? hp
  | some q => exact children_merge q hp

theorem sign?_joining (qs : List Pattern) (p : Pattern) : (joining qs p).sign? = p.sign? := by
  unfold joining
  split
  · exact p.sign?_asOptional
  · rfl

/-- The children of a document : those of some patterns, another one that was merged after
them, and an attribute. -/
def documentChildren (qs : List Pattern) (p : Pattern) (name : QName) : List Pattern :=
  bring (.ofAttribute name .text) (bring (joining qs p) (siblings qs))

theorem slots_document (qs : List Pattern) (hp : p.sign? = some sign) (name : QName) :
    ((among qs p).withAttribute name).slots false =
      slotsAll false (documentChildren qs p name) := by
  have hnonempty : (among qs p).isEmpty = false := by
    have hchildren := children_among qs hp
    cases hamong : among qs p with
    | empty m =>
      rw [hamong, bring_eq_place] at hchildren
      exact absurd hchildren.symm (place_ne_nil _ _ _)
    | _ => rfl
  rw [withAttribute, merge_of_not_isEmpty _ rfl, extend, if_neg (by simp [hnonempty]),
    slots_ofChildren, children_among qs hp]
  rfl

/-- Two documents have the same children, but for those whose signs do not matter. -/
theorem filter_documentChildren (keep : Option (MemberKey ⊕ RuleId) → Bool) (qs : List Pattern)
    (name : QName) {p q : Pattern} (hp : keep p.sign? = false) (hq : keep q.sign? = false) :
    (documentChildren qs p name).filter (fun c => keep c.sign?) =
      (documentChildren qs q name).filter fun c => keep c.sign? := by
  have hsiblings : ∀ r : Pattern, keep r.sign? = false →
      (bring (joining qs r) (siblings qs)).filter (fun c => keep c.sign?) =
        (siblings qs).filter fun c => keep c.sign? := by
    intro r hr
    rw [bring_eq_place]
    exact filter_place_of_dropped keep _ (by rw [sign?_joining, hr]) _
  rw [documentChildren, documentChildren, bring_eq_place (ofAttribute name .text)]
  cases hattribute : keep (ofAttribute name .text).sign? with
  | false =>
    rw [filter_place_of_dropped keep _ hattribute, filter_place_of_dropped keep _ hattribute,
      hsiblings p hp, hsiblings q hq]
  | true =>
    rw [filter_place_of_kept keep _ hattribute, filter_place_of_kept keep _ hattribute,
      hsiblings p hp, hsiblings q hq]

variable {qs : List Pattern} {name : QName} {key : MemberKey}

/-- Where a pattern finds no sibling of its name, it stands in a place of its own, where the
reference stands as well unless there was one to the same rule. -/
theorem exists_documentChildren (hp : p.sign? = some (.inl key)) (hattribute : key ≠ (.attr, name))
    (hsiblings : ∀ q ∈ siblings qs, q.sign? ≠ some (.inl key)) (id : RuleId) :
    ∃ before after, documentChildren qs p name = before ++ joining qs p :: after ∧
      (documentChildren qs (.ofRule id) name = before ++ joining qs (.ofRule id) :: after ∨
        documentChildren qs (.ofRule id) name = before ++ after ∧
          ∃ q ∈ before, q.sign? = some (.inr id)) := by
  have hnew : ∀ q : Pattern, (∀ r ∈ siblings qs, r.sign? ≠ q.sign?) →
      bring (joining qs q) (siblings qs) = siblings qs ++ [joining qs q] := by
    intro q hq
    rw [bring_eq_place]
    exact place_eq_append _ fun r hr => by rw [sign?_joining]; exact hq r hr
  obtain ⟨before, after, heq, hbefore, happend⟩ := exists_place_append (.ofAttribute name .text)
    (joined (.ofAttribute name .text)) (siblings qs)
  have hp' : (joining qs p).sign? ≠ (ofAttribute name .text).sign? := by
    rw [sign?_joining, hp]
    exact fun h => hattribute (Sum.inl.inj (Option.some.inj h))
  refine ⟨before, after, ?_, ?_⟩
  · rw [documentChildren, bring_eq_place (.ofAttribute name .text),
      hnew p fun q hq => by rw [hp]; exact hsiblings q hq, happend _ hp']
  · by_cases hid : ∃ q ∈ siblings qs, q.sign? = some (.inr id)
    · obtain ⟨q, hq, hsign⟩ := hid
      refine .inr ⟨?_, q, hbefore q hq (by rw [hsign]; exact fun h => by cases h), hsign⟩
      rw [documentChildren, bring_eq_place (.ofAttribute name .text), joining_of_mem hq,
        bring_eq_place, place_ofRule _ ⟨q, hq, hsign⟩, heq]
    · refine .inl ?_
      have hid' : (joining qs (.ofRule id)).sign? ≠ (ofAttribute name .text).sign? := by
        rw [sign?_joining]
        exact fun h => by cases h
      rw [documentChildren, bring_eq_place (.ofAttribute name .text),
        hnew (.ofRule id) fun q hq hsign => hid ⟨q, hq, hsign⟩, happend _ hid']

/-- What a pattern is written out as where it is merged after others. -/
theorem exists_slots_joining (qs : List Pattern) : ∃ optional, ∀ {p : Pattern}
    {sign : MemberKey ⊕ RuleId}, p.sign? = some sign →
      (joining qs p).slots false = p.slots optional := by
  refine ⟨(mergeAll? qs).any isEmpty, fun {p sign} hp => ?_⟩
  unfold joining
  cases (mergeAll? qs).any isEmpty with
  | false => rfl
  | true => cases p <;> first | rfl | cases hp

end Pattern

end MarkupTypes
