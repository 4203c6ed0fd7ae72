import MarkupTypes.Proofs.Assembling
import MarkupTypes.Proofs.Siblings

/-!
# Well-formed patterns

A union stands for several siblings that each have a slot of their own, so it has two members or
more, none of them empty or a union itself, no two of them in one slot, and it leaves the flag of
optional patterns to them. A pattern all of whose unions are so, however deep they are, is well
formed (`Pattern.WellFormed`).

Merging keeps that (`Pattern.WellFormed.merge`). What a merge brings into its first operand stands
side by side with what was there (`Pattern.SideBySide.place`), as a child gets a new slot only where
no other has it, and a slot that comes to be shared is told from others as before
(`Pattern.sameSlot_share`). The content of a shared slot is a merge again, so the proof goes into
the contents of the second operand, as merging does.

So a rule whose pattern is well formed is inline exactly when that pattern is neither empty nor a
union (`Rule.isInline_iff`), and stays well formed with every definition
(`Rule.WellFormed.define`).
-/

namespace MarkupTypes

namespace Pattern

/-- The pattern is neither empty nor a union, and so has one slot. -/
def isSingle : Pattern → Bool
  | empty _ | union _ _ => false
  | _ => true

/-- What an attribute or an element holds. -/
def content? : Pattern → Option Pattern
  | attr _ _ content | elem _ _ content => some content
  | _ => none

/-- Every union, however deep, is of two members or more that are neither empty nor unions, no two
of them in one slot, and is not optional itself. -/
inductive WellFormed : Pattern → Prop where
  | empty (m : Mark) : WellFormed (.empty m)
  | data (m : Mark) (type : ValueType) : WellFormed (.data m type)
  | value (m : Mark) (type : ValueType) (literal : String) : WellFormed (.value m type literal)
  | list (m : Mark) {item : Pattern} (hitem : WellFormed item) : WellFormed (.list m item)
  | attr (m : Mark) (tag : AttributeTag) {content : Pattern} (hcontent : WellFormed content) :
    WellFormed (.attr m tag content)
  | elem (m : Mark) (tag : ElementTag) {content : Pattern} (hcontent : WellFormed content) :
    WellFormed (.elem m tag content)
  | ref (m : Mark) (rule : RuleId) (label : Option String) : WellFormed (.ref m rule label)
  | union {m : Mark} {ps : List Pattern} (hoptional : m.optional = false)
    (hlength : 2 ≤ ps.length) (hsingle : ∀ p ∈ ps, p.isSingle = true)
    (hapart : ps.Pairwise fun a b => a.sameSlot b = false) (hmembers : ∀ p ∈ ps, WellFormed p) :
    WellFormed (.union m ps)

variable {a b p slot child : Pattern} {ps slots : List Pattern} {m : Mark}
  {join : Pattern → Pattern} {location : Option Location}

theorem WellFormed.content (h : p.WellFormed) : ∀ content ∈ p.content?, content.WellFormed := by
  cases h with
  | attr _ _ hcontent | elem _ _ hcontent =>
    rintro _ ⟨⟩
    exact hcontent
  | _ => exact nofun

/-! ## Slots -/

theorem isSingle_withMark (m : Mark) (p : Pattern) : (p.withMark m).isSingle = p.isSingle := by
  cases p <;> rfl

theorem isSingle_share (slot child : Pattern) (join : Pattern → Pattern) :
    (slot.share child join).isSingle = slot.isSingle := by
  unfold share
  split
  · rfl
  · rfl
  · exact isSingle_withMark _ slot

/-- Only attributes and elements bring contents together. -/
theorem share_of_content? (h : slot.content? = none) (child : Pattern) (join : Pattern → Pattern) :
    slot.share child join = slot.withMark (slot.mark.share child.mark) := by
  cases slot with
  | attr | elem => cases h
  | _ => cases child <;> rfl

/-! ## Shapes -/

mutual

/-- What a shape is of : the pattern without marks, labels and types created for elements. -/
def outline : Pattern → Pattern
  | empty _ => empty .plain
  | data _ type => data .plain type
  | value _ type literal => value .plain type literal
  | list _ item => list .plain item.outline
  | attr _ tag content => attr .plain ⟨tag.name, none⟩ content.outline
  | elem _ tag content => elem .plain ⟨tag.name, none, none⟩ content.outline
  | ref _ rule _ => ref .plain rule none
  | union _ members => union .plain (outlineAll members)

def outlineAll : List Pattern → List Pattern
  | [] => []
  | p :: ps => p.outline :: outlineAll ps

end

mutual

theorem sameShape_iff : ∀ a b : Pattern, a.sameShape b = true ↔ a.outline = b.outline
  | .empty _, b => by cases b <;> simp [sameShape, outline]
  | .data _ _, b => by cases b <;> simp [sameShape, outline]
  | .value _ _ _, b => by cases b <;> simp [sameShape, outline]
  | .list _ a, b => by cases b <;> simp [sameShape, outline, sameShape_iff a]
  | .attr _ _ a, b => by cases b <;> simp [sameShape, outline, sameShape_iff a]
  | .elem _ _ a, b => by cases b <;> simp [sameShape, outline, sameShape_iff a]
  | .ref _ _ _, b => by cases b <;> simp [sameShape, outline]
  | .union _ as, b => by cases b <;> simp [sameShape, outline, sameShapes_iff as]

theorem sameShapes_iff : ∀ as bs : List Pattern,
    sameShapes as bs = true ↔ outlineAll as = outlineAll bs
  | [], bs => by cases bs <;> simp [sameShapes, outlineAll]
  | a :: as, bs => by
    cases bs <;> simp [sameShapes, outlineAll, sameShape_iff a, sameShapes_iff as]

end

theorem sameShape_comm (a b : Pattern) : a.sameShape b = b.sameShape a := by
  rw [Bool.eq_iff_iff, sameShape_iff, sameShape_iff, eq_comm]

/-- Patterns of one shape have it in common with the same patterns. -/
theorem sameShape_congr (h : a.sameShape b = true) (c : Pattern) :
    a.sameShape c = b.sameShape c := by
  rw [Bool.eq_iff_iff, sameShape_iff, sameShape_iff, (sameShape_iff a b).mp h]

/-! ## Sharing a slot -/

/-- Which of two patterns comes first makes no difference to whether they share a slot. -/
theorem sameSlot_comm (a b : Pattern) : a.sameSlot b = b.sameSlot a := by
  cases a with
  | attr m s content =>
    cases b <;> simp [sameSlot, sameShape, eq_comm]
  | elem m s content =>
    cases b <;> simp [sameSlot, sameShape, eq_comm]
  | _ => cases b <;> exact sameShape_comm _ _

theorem sameSlot_self (p : Pattern) : p.sameSlot p = true := by
  cases p with
  | attr | elem => exact decide_eq_true rfl
  | _ => exact (sameShape_iff _ _).mpr rfl

/-- Patterns in one slot share it with the same patterns. -/
theorem sameSlot_congr (h : a.sameSlot b = true) (c : Pattern) : a.sameSlot c = b.sameSlot c := by
  cases a with
  | attr m s content =>
    cases b with
    | attr n t content' =>
      have hname : s.name = t.name := of_decide_eq_true h
      cases c <;> first | rfl | rw [sameSlot, sameSlot, hname]
    | _ => cases h
  | elem m s content =>
    cases b with
    | elem n t content' =>
      have hname : s.name = t.name := of_decide_eq_true h
      cases c <;> first | rfl | rw [sameSlot, sameSlot, hname]
    | _ => cases h
  | _ =>
    cases b with
    | attr => cases h
    | elem => cases h
    | _ => exact sameShape_congr h c

theorem sameSlot_withMark (m : Mark) (a b : Pattern) :
    (a.withMark m).sameSlot b = a.sameSlot b := by
  cases a <;> cases b <;> rfl

/-- A slot that comes to be shared stays the same one. -/
theorem sameSlot_share (slot child b : Pattern) (join : Pattern → Pattern) :
    (slot.share child join).sameSlot b = slot.sameSlot b := by
  unfold share
  split
  · cases b <;> rfl
  · cases b <;> rfl
  · exact sameSlot_withMark _ slot b

/-! ## Marks -/

namespace WellFormed

/-- A union must not become optional, and any mark will do for what has one slot. -/
theorem withMark (h : p.WellFormed) (m : Mark)
    (hm : p.isSingle = true ∨ m.optional = p.optional) : (p.withMark m).WellFormed := by
  cases h with
  | empty => exact .empty m
  | data _ type => exact .data m type
  | value _ type literal => exact .value m type literal
  | list _ hitem => exact .list m hitem
  | attr _ tag hcontent => exact .attr m tag hcontent
  | elem _ tag hcontent => exact .elem m tag hcontent
  | ref _ rule label => exact .ref m rule label
  | union hoptional hlength hsingle hapart hmembers =>
    have hflag : m.optional = _ := hm.resolve_left Bool.false_ne_true
    exact .union (hflag.trans hoptional) hlength hsingle hapart hmembers

theorem atLocation (h : p.WellFormed) (location : Option Location) :
    (p.atLocation location).WellFormed :=
  h.withMark _ (.inr rfl)

/-- The flags of optional patterns are those of the members of a union. -/
theorem asOptional (h : p.WellFormed) : p.asOptional.WellFormed := by
  cases p with
  | union m ps =>
    cases h with
    | union hoptional hlength hsingle hapart hmembers =>
      refine .union hoptional (by rwa [List.length_map]) ?_ (hapart.map _ fun a b hab => ?_) ?_
      · exact List.forall_mem_map.mpr fun p hp => (isSingle_withMark _ p).trans (hsingle p hp)
      · rw [setOptional, setOptional, sameSlot_withMark, sameSlot_comm, sameSlot_withMark,
          sameSlot_comm]
        exact hab
      · exact List.forall_mem_map.mpr fun p hp => (hmembers p hp).withMark _ (.inl (hsingle p hp))
  | empty => exact .empty _
  | _ => exact h.withMark _ (.inl rfl)

/-- What comes to share a slot brings well-formed content into it. -/
theorem share (h : slot.WellFormed) (hsingle : slot.isSingle = true) (child : Pattern)
    (hjoin : ∀ content : Pattern, content.WellFormed → (join content).WellFormed) :
    (slot.share child join).WellFormed := by
  unfold Pattern.share
  split
  · cases h with
    | attr m tag hcontent => exact .attr _ _ (hjoin _ hcontent)
  · cases h with
    | elem m tag hcontent => exact .elem _ _ (hjoin _ hcontent)
  · exact h.withMark _ (.inl hsingle)

end WellFormed

/-! ## Siblings -/

/-- Patterns that may be the members of a union, if there are two or more of them. -/
structure SideBySide (ps : List Pattern) : Prop where
  nonempty : ps ≠ []
  single : ∀ p ∈ ps, p.isSingle = true
  /-- No two of them share a slot. -/
  apart : ps.Pairwise fun a b => a.sameSlot b = false
  wellFormed : ∀ p ∈ ps, p.WellFormed

theorem SideBySide.singleton (hsingle : p.isSingle = true) (h : p.WellFormed) : SideBySide [p] where
  nonempty := List.cons_ne_nil p []
  single := List.forall_mem_singleton.mpr hsingle
  apart := List.pairwise_singleton _ p
  wellFormed := List.forall_mem_singleton.mpr h

theorem WellFormed.sideBySide (h : p.WellFormed) (hp : p.isEmpty = false) :
    SideBySide p.children := by
  cases p with
  | empty => cases hp
  | union m ps =>
    cases h with
    | union hoptional hlength hsingle hapart hmembers =>
      have hpos : 0 < ps.length := Nat.lt_of_lt_of_le Nat.zero_lt_two hlength
      exact ⟨List.ne_nil_of_length_pos hpos, hsingle, hapart, hmembers⟩
  | _ => exact .singleton rfl h

theorem SideBySide.ofChildren (h : SideBySide ps) (location : Option Location) :
    (Pattern.ofChildren location ps).WellFormed := by
  match ps, h with
  | [], h => exact absurd rfl h.nonempty
  | [p], h => exact h.wellFormed p List.mem_cons_self
  | p :: q :: ps, h =>
    exact .union rfl (Nat.le_add_left 2 ps.length) h.single h.apart h.wellFormed

/-! ## Placing a child -/

/-- What holds of a child and of what was there holds of all there is when the child has got its
place, if it is kept where a slot comes to be shared. -/
theorem forall_mem_place {P : Pattern → Prop} (hchild : P child)
    (hshare : ∀ slot, P slot → P (slot.share child join)) (h : ∀ p ∈ slots, P p) :
    ∀ p ∈ place child join slots, P p := by
  induction slots with
  | nil => exact List.forall_mem_singleton.mpr hchild
  | cons slot slots ih =>
    obtain ⟨hslot, hslots⟩ := List.forall_mem_cons.mp h
    rw [place]
    split
    · exact List.forall_mem_cons.mpr ⟨hshare slot hslot, hslots⟩
    · exact List.forall_mem_cons.mpr ⟨hslot, ih hslots⟩

/-- A child shares a slot, or has a new one that no other has. -/
theorem apart_place (child : Pattern) (join : Pattern → Pattern)
    (h : slots.Pairwise fun a b => a.sameSlot b = false) :
    (place child join slots).Pairwise fun a b => a.sameSlot b = false := by
  induction h with
  | nil => exact List.pairwise_singleton _ child
  | @cons slot slots hslot hslots ih =>
    rw [place]
    split
    · -- The first slot is shared : what it does not share a slot with stays the same.
      refine List.pairwise_cons.mpr ⟨fun q hq => ?_, hslots⟩
      rw [sameSlot_share]
      exact hslot q hq
    · -- The child goes on, so it does not share the first slot, wherever it gets its place.
      next hnot =>
      refine List.pairwise_cons.mpr ⟨?_, ih⟩
      refine forall_mem_place (Bool.eq_false_iff.mpr hnot) (fun q hq => ?_) hslot
      rw [sameSlot_comm, sameSlot_share, sameSlot_comm]
      exact hq

theorem SideBySide.place (h : SideBySide slots) (hsingle : child.isSingle = true)
    (hchild : child.WellFormed)
    (hjoin : ∀ content : Pattern, content.WellFormed → (join content).WellFormed) :
    SideBySide (place child join slots) := by
  have hkept : ∀ p ∈ Pattern.place child join slots, p.isSingle = true ∧ p.WellFormed := by
    refine forall_mem_place ⟨hsingle, hchild⟩ (fun slot hslot => ?_) fun p hp =>
      ⟨h.single p hp, h.wellFormed p hp⟩
    exact ⟨(isSingle_share slot child join).trans hslot.1, hslot.2.share hslot.1 child hjoin⟩
  exact ⟨place_ne_nil child join slots, fun p hp => (hkept p hp).1, apart_place child join h.apart,
    fun p hp => (hkept p hp).2⟩

/-! ## Merging -/

namespace WellFormed

theorem extend (ha : a.WellFormed) (hb : b.WellFormed) {bring : List Pattern → List Pattern}
    (hbring : ∀ {slots}, SideBySide slots → SideBySide (bring slots)) :
    (a.extend b bring).WellFormed := by
  unfold Pattern.extend
  split
  · exact hb.asOptional
  · next hempty =>
    exact (hbring (ha.sideBySide (Bool.eq_false_iff.mpr hempty))).ofChildren a.location

mutual

/-- The induction is on the second operand, whose contents are merged in turn. -/
theorem mergeInto : ∀ {b a : Pattern}, b.WellFormed → a.WellFormed →
    (Pattern.mergeInto b a).WellFormed
  | .empty _, a, _, ha => by
    rw [Pattern.mergeInto]
    split
    · exact ha
    · exact ha.asOptional
  | .union m ps, a, .union hoptional hlength hsingle hapart hmembers, ha =>
    ha.extend (.union hoptional hlength hsingle hapart hmembers) (bringAll hsingle hmembers)
  | .attr m tag content, a, .attr _ _ hcontent, ha =>
    ha.extend (.attr m tag hcontent) fun h =>
      h.place rfl (.attr m tag hcontent) fun _ => mergeInto hcontent
  | .elem m tag content, a, .elem _ _ hcontent, ha =>
    ha.extend (.elem m tag hcontent) fun h =>
      h.place rfl (.elem m tag hcontent) fun _ => mergeInto hcontent
  | .data m type, a, hb, ha => ha.extend hb fun h => h.place rfl hb fun _ hcontent => hcontent
  | .value m type literal, a, hb, ha =>
    ha.extend hb fun h => h.place rfl hb fun _ hcontent => hcontent
  | .list m item, a, hb, ha => ha.extend hb fun h => h.place rfl hb fun _ hcontent => hcontent
  | .ref m id label, a, hb, ha => ha.extend hb fun h => h.place rfl hb fun _ hcontent => hcontent

theorem bring : ∀ {b : Pattern}, b.isSingle = true → b.WellFormed →
    ∀ {slots : List Pattern}, SideBySide slots → SideBySide (Pattern.bring b slots)
  | .attr m tag _, hsingle, .attr _ _ hcontent, _, h =>
    h.place hsingle (.attr m tag hcontent) fun _ => mergeInto hcontent
  | .elem m tag _, hsingle, .elem _ _ hcontent, _, h =>
    h.place hsingle (.elem m tag hcontent) fun _ => mergeInto hcontent
  | .data _ _, hsingle, hb, _, h => h.place hsingle hb fun _ hcontent => hcontent
  | .value _ _ _, hsingle, hb, _, h => h.place hsingle hb fun _ hcontent => hcontent
  | .list _ _, hsingle, hb, _, h => h.place hsingle hb fun _ hcontent => hcontent
  | .ref _ _ _, hsingle, hb, _, h => h.place hsingle hb fun _ hcontent => hcontent

theorem bringAll : ∀ {bs : List Pattern}, (∀ b ∈ bs, b.isSingle = true) →
    (∀ b ∈ bs, b.WellFormed) → ∀ {slots : List Pattern}, SideBySide slots →
      SideBySide (Pattern.bringAll bs slots)
  | [], _, _, _, h => h
  | b :: _, hsingle, hbs, _, h =>
    bringAll (fun q hq => hsingle q (List.mem_cons_of_mem b hq))
      (fun q hq => hbs q (List.mem_cons_of_mem b hq))
      (bring (hsingle b List.mem_cons_self) (hbs b List.mem_cons_self) h)

end

theorem merge (ha : a.WellFormed) (hb : b.WellFormed) : (a.merge b).WellFormed := mergeInto hb ha

end WellFormed

/-- Every construct makes a well-formed pattern of well-formed ones. -/
theorem constructive_wellFormed : Constructive WellFormed where
  empty := .empty
  data := .data
  value := .value
  list m _ h := .list m h
  attr _ _ h := .attr _ _ h
  elem _ _ h := .elem _ _ h
  ref := .ref
  merge := .merge
  atLocation := .atLocation

/-- The children of a well-formed pattern tell whether it has one slot. -/
theorem WellFormed.length_children_eq_one (h : p.WellFormed) :
    p.children.length = 1 ↔ p.isSingle = true := by
  cases h with
  | empty => exact iff_of_false Nat.zero_ne_one Bool.false_ne_true
  | union _ hlength => exact iff_of_false (Nat.ne_of_gt hlength) Bool.false_ne_true
  | _ => exact iff_of_true rfl rfl

end Pattern

/-! ## Rules -/

namespace Rule

variable {rule : Rule} {p : Pattern}

/-- A rule with a well-formed pattern is inline exactly when the pattern is neither empty nor a
union. -/
theorem isInline_iff (hrule : rule.pattern = some p) (h : p.WellFormed) :
    rule.isInline = true ↔ p.isSingle = true := by
  rw [isInline, children, hrule, decide_eq_true_iff]
  exact h.length_children_eq_one

end Rule

namespace RuleTable

/-- The patterns of the rules are of some kind. -/
def Holds (t : RuleTable) (P : Pattern → Prop) : Prop :=
  ∀ rule ∈ t.rules, ∀ p, rule.pattern = some p → P p

variable {t : RuleTable} {P : Pattern → Prop}

theorem holds_empty (P : Pattern → Prop) : RuleTable.empty.Holds P :=
  fun _ h => absurd h List.not_mem_nil

theorem Holds.push (h : t.Holds P) {added : Rule} (hadded : ∀ p, added.pattern = some p → P p) :
    (t.push added).Holds P := by
  intro rule hrule
  rcases List.mem_append.mp hrule with hrule | hrule
  · exact h rule hrule
  · obtain rfl := List.mem_singleton.mp hrule
    exact hadded

/-- What merging keeps holds of the patterns of rules, however often these are defined. -/
theorem upheld_holds (hP : ∀ {a b : Pattern}, P a → P b → P (a.merge b)) :
    Upheld (·.Holds P) P where
  mentioned h scope name := h.push fun _ hp => by cases hp
  define := by
    intro t p h hp id location rule hrule q hq
    obtain ⟨i, hi⟩ := List.mem_iff_getElem?.mp hrule
    obtain ⟨old, hold, rfl⟩ := of_get?_modify hi
    have hearlier : ∀ earlier, old.pattern = some earlier → P earlier := h old (mem_of_get? hold)
    split at hq
    · cases hq
      cases hpattern : old.pattern with
      | none => exact hp
      | some earlier => exact hP (hearlier earlier hpattern) hp
    · exact hearlier q hq

end RuleTable

end MarkupTypes
