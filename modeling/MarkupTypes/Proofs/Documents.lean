import MarkupTypes.Proofs.MergeOrder
import MarkupTypes.Proofs.Retyping

/-!
# Documents with other contents

Two tables in which documents start from an element of one name, but with different contents
(`RuleTable.Swaps`), scan text alike and write slots out alike, up to the contents of that
element (`RuleTable.Swaps.expands`). So if one of them compiles, what the other one looks into
can be written out as well, given that the content of its own document can
(`RuleTable.Swaps.compiles`).
-/

namespace MarkupTypes

/-! ## Elements that documents start from -/

/-- Documents start from an element that members are made for. -/
structure RuleTable.Starts (t : RuleTable) (entry : RuleId) (tag : ElementTag)
    (content : Pattern) : Prop where
  rule : ∃ rule, t.get? entry = some rule ∧ rule.pattern = some (.elem .plain tag content)
  named : ∃ key, ∃ s ∈ content.slots false, s.key? = some key

/-- Two tables that differ in what the element holds that documents start from. -/
structure RuleTable.Swaps (t t' : RuleTable) (entry : RuleId) (tag : ElementTag)
    (content content' : Pattern) : Prop where
  size : t'.size = t.size
  others : ∀ id, id ≠ entry → t'.get? id = t.get? id
  left : t.Starts entry tag content
  right : t'.Starts entry tag content'

/-- Two slots that are the same but for the content of an element. -/
inductive Slot.Twin (tag : ElementTag) (content content' : Pattern) : Slot → Slot → Prop
  | same (s : Slot) : Twin tag content content' s s
  | start (optional : Bool) :
    Twin tag content content' (.elem tag content optional) (.elem tag content' optional)

theorem Slot.likens_twin (tag : ElementTag) (content content' : Pattern) :
    Slot.Likens (Slot.Twin tag content content') where
  key h := by cases h <;> rfl
  rule h := by cases h <;> rfl
  ref h := by
    cases h
    exact ⟨_, rfl⟩

theorem forall₂_twin_refl (tag : ElementTag) (content content' : Pattern) (slots : List Slot) :
    List.Forall₂ (Slot.Twin tag content content') slots slots :=
  List.forall₂_same.mpr fun s _ => .same s

/-- A rule that stands for its pattern, in which no element needs a type. -/
def RuleTable.Idle (t : RuleTable) (id : RuleId) : Prop :=
  ∃ rule p, t.get? id = some rule ∧ rule.isInline = true ∧ rule.pattern = some p ∧
    ∀ x ∈ p.outermost, t.contentOf t.isInline x.2 ≠ .structured

namespace RuleTable

namespace Starts

variable {t : RuleTable} {entry : RuleId} {tag : ElementTag} {content : Pattern}

theorem contentOf_eq (h : t.Starts entry tag content) (isInline : RuleId → Bool) :
    t.contentOf isInline content = .structured := by
  obtain ⟨key, hkey⟩ := h.named
  exact t.contentOf_eq_structured isInline hkey

/-- What the element holds is looked into. -/
theorem live (h : t.Starts entry tag content) : t.Live entry (content.slots false) := by
  obtain ⟨rule, hrule, hp⟩ := h.rule
  have hinline : rule.isInline = true := by
    rw [Rule.isInline, Rule.children, hp]
    rfl
  exact .outermost .refl hrule hinline hp List.mem_cons_self (h.contentOf_eq t.isInline)

end Starts

namespace Swaps

variable {t t' : RuleTable} {entry : RuleId} {tag : ElementTag} {content content' : Pattern}
  {slots occ : List Slot} {id : RuleId} {rule : Rule}

theorem symm (h : t.Swaps t' entry tag content content') :
    t'.Swaps t entry tag content' content where
  size := h.size.symm
  others id hid := (h.others id hid).symm
  left := h.right
  right := h.left

variable (h : t.Swaps t' entry tag content content')

include h

/-- A rule is the same in both tables, or it is the one that documents start from. -/
theorem get?_cases (hrule : t.get? id = some rule) :
    t'.get? id = some rule ∨ id = entry ∧ rule.pattern = some (.elem .plain tag content) ∧
      ∃ rule', t'.get? id = some rule' ∧ rule'.pattern = some (.elem .plain tag content') := by
  by_cases hid : id = entry
  · subst hid
    obtain ⟨rule₀, hrule₀, hp⟩ := h.left.rule
    obtain rfl := Option.some.inj (hrule.symm.trans hrule₀)
    exact .inr ⟨rfl, hp, h.right.rule⟩
  · exact .inl ((h.others id hid).trans hrule)

theorem isInline_eq : t'.isInline = t.isInline := by
  funext id
  by_cases hid : id = entry
  · subst hid
    obtain ⟨rule, hrule, hp⟩ := h.left.rule
    obtain ⟨rule', hrule', hp'⟩ := h.right.rule
    rw [RuleTable.isInline_eq hrule, RuleTable.isInline_eq hrule', Rule.isInline, Rule.isInline,
      Rule.children, Rule.children, hp, hp']
    rfl
  · rw [isInline, isInline, h.others id hid]

/-- A scan stops at the element that documents start from, whatever it holds. -/
theorem followWithin_eq (beyond : RuleId → List ValueType → TextScan) (n : Nat)
    (inside : List RuleId) : t'.followWithin beyond n inside = t.followWithin beyond n inside := by
  induction n generalizing inside with
  | zero => rfl
  | succ n ih =>
    funext id types
    simp only [followWithin, ih]
    by_cases hid : id = entry
    · subst hid
      obtain ⟨rule, hrule, hp⟩ := h.left.rule
      obtain ⟨rule', hrule', hp'⟩ := h.right.rule
      simp only [hrule, hrule', Option.bind_some, hp, hp', Pattern.scan]
    · rw [h.others id hid]

theorem scan_eq (p : Pattern) : t'.scan p = t.scan p := by
  rw [scan, scan, follow, follow, h.followWithin_eq, h.size]

theorem contentOf_eq (p : Pattern) :
    t'.contentOf t'.isInline p = t.contentOf t.isInline p := by
  unfold contentOf
  rw [h.scan_eq, h.isInline_eq]

/-- Slots are written out alike in both tables. -/
theorem expands (hexpands : t.Expands t.isInline slots occ) :
    ∃ occ', t'.Expands t'.isInline slots occ' ∧
      List.Forall₂ (Slot.Twin tag content content') occ occ' := by
  rw [h.isInline_eq]
  refine hexpands.related (Slot.likens_twin tag content content') (fun id rule hrule _ => ?_)
    (forall₂_twin_refl ..)
  rcases h.get?_cases hrule with hrule' | ⟨-, hp, rule', hrule', hp'⟩
  · exact ⟨rule, hrule', fun outer => forall₂_twin_refl ..⟩
  · refine ⟨rule', hrule', fun outer => ?_⟩
    rw [Rule.slots, Rule.slots, hp, hp']
    exact .cons (.start _) .nil

/-- What both tables write out of the same slots, slot by slot. -/
theorem forall₂_twin {occ' : List Slot} (hexpands : t.Expands t.isInline slots occ)
    (hexpands' : t'.Expands t'.isInline slots occ') :
    List.Forall₂ (Slot.Twin tag content content') occ occ' := by
  obtain ⟨occ'', hexpands'', htwins⟩ := h.expands hexpands
  rwa [hexpands'.unique hexpands'']

/-- What one table looks into, the other one does as well, but for the content of the element
that documents start from. -/
theorem live (hcompiles : t.Compiles entry)
    (hreaches : ∀ id, t'.Reaches entry id → t.Reaches entry id ∨ t'.Idle id)
    (hforth : ∀ occ, t.Expands t.isInline (content.slots false) occ →
      ∃ occ', t'.Expands t'.isInline (content'.slots false) occ' ∧
        List.Forall₂ (Slot.Twin tag content content') (firsts [] occ) (firsts [] occ'))
    (hlive : t'.Live entry slots) :
    t.Live entry slots ∨ slots = content'.slots false := by
  induction hlive with
  | @rule id rule hid hrule hinline =>
    rcases h.symm.get?_cases hrule with hrule' | ⟨-, hp, -⟩
    · rcases hreaches id hid with hid | ⟨rule₀, -, hrule₀, hinline₀, -⟩
      · exact .inl (.rule hid hrule' hinline)
      · obtain rfl := Option.some.inj (hrule.symm.trans hrule₀)
        rw [hinline] at hinline₀
        cases hinline₀
    · rw [Rule.isInline, Rule.children, hp] at hinline
      cases hinline
  | @outermost id rule p tag' content₁ hid hrule hinline hp hmem hcontent =>
    rcases h.symm.get?_cases hrule with hrule' | ⟨-, hp', -⟩
    · rcases hreaches id hid with hid | ⟨rule₀, p₀, hrule₀, -, hp₀, hidle⟩
      · rw [h.contentOf_eq] at hcontent
        exact .inl (.outermost hid hrule' hinline hp hmem hcontent)
      · obtain rfl := Option.some.inj (hrule.symm.trans hrule₀)
        obtain rfl := Option.some.inj (hp.symm.trans hp₀)
        exact absurd hcontent (hidle _ hmem)
    · obtain rfl := Option.some.inj (hp.symm.trans hp')
      obtain ⟨rfl, rfl⟩ := Prod.mk.inj (List.mem_singleton.mp hmem)
      exact .inr rfl
  | @element slots occ' tag' content₁ optional _ hexpands' hmem hcontent ih =>
    -- The element is also the first of its name where the other table writes out the slots.
    obtain ⟨slots₀, occ, hlive, hexpands, htwins⟩ : ∃ slots₀ occ, t.Live entry slots₀ ∧
        t.Expands t.isInline slots₀ occ ∧
        List.Forall₂ (Slot.Twin tag content content') (firsts [] occ) (firsts [] occ') := by
      rcases ih with hlive | rfl
      · obtain ⟨occ, hexpands⟩ := hcompiles.expands _ hlive
        exact ⟨slots, occ, hlive, hexpands,
          (Slot.likens_twin ..).firsts (h.forall₂_twin hexpands hexpands') []⟩
      · obtain ⟨occ, hexpands⟩ := hcompiles.expands _ h.left.live
        obtain ⟨occ'', hexpands'', htwins⟩ := hforth occ hexpands
        obtain rfl := hexpands'.unique hexpands''
        exact ⟨_, occ, h.left.live, hexpands, htwins⟩
    obtain ⟨s, hs, htwin⟩ := exists_of_forall₂_right htwins hmem
    cases htwin with
    | same =>
      rw [h.contentOf_eq] at hcontent
      exact .inl (.element hlive hexpands hs hcontent)
    | start => exact .inr rfl

/-- If one of the tables compiles, so does the other one, given that it reaches no more rules
that matter and that the content of its document is written out with the same members. -/
theorem compiles (hcompiles : t.Compiles entry)
    (hreaches : ∀ id, t'.Reaches entry id → t.Reaches entry id ∨ t'.Idle id)
    (hforth : ∀ occ, t.Expands t.isInline (content.slots false) occ →
      ∃ occ', t'.Expands t'.isInline (content'.slots false) occ' ∧
        List.Forall₂ (Slot.Twin tag content content') (firsts [] occ) (firsts [] occ')) :
    t'.Compiles entry where
  defined id hid := by
    rcases hreaches id hid with hid | ⟨rule, p, hrule, -, hp, -⟩
    · obtain ⟨rule, p, hrule, hp⟩ := hcompiles.defined id hid
      rcases h.get?_cases hrule with hrule' | ⟨-, -, rule', hrule', hp'⟩
      · exact ⟨rule, p, hrule', hp⟩
      · exact ⟨rule', _, hrule', hp'⟩
    · exact ⟨rule, p, hrule, hp⟩
  expands slots hlive := by
    rcases h.live hcompiles hreaches hforth hlive with hlive | rfl
    · obtain ⟨occ, hexpands⟩ := hcompiles.expands slots hlive
      obtain ⟨occ', hexpands', -⟩ := h.expands hexpands
      exact ⟨occ', hexpands'⟩
    · obtain ⟨occ, hexpands⟩ := hcompiles.expands _ h.left.live
      obtain ⟨occ', hexpands', -⟩ := hforth occ hexpands
      exact ⟨occ', hexpands'⟩

end Swaps

end RuleTable

/-- Documents of two patterns. -/
theorem swaps_document {t : RuleTable} {entry : RuleId} {undefined : Rule}
    (hentry : t.get? entry = some undefined) (hnone : undefined.pattern = none)
    (doc name : QName) (p p' : Pattern) :
    (t.document entry doc name p).Swaps (t.document entry doc name p') entry ⟨doc, none, none⟩
      (p.withAttribute name) (p'.withAttribute name) where
  size := by simp only [RuleTable.document, RuleTable.size, RuleTable.modify, List.length_modify]
  others id hid := by
    rw [RuleTable.document, RuleTable.document, RuleTable.get?_modify_of_ne hid,
      RuleTable.get?_modify_of_ne hid]
  left := ⟨get?_document hentry hnone doc name p, _, exists_attribute p name⟩
  right := ⟨get?_document hentry hnone doc name p', _, exists_attribute p' name⟩

end MarkupTypes
