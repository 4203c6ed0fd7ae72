import MarkupTypes.Proofs.Acceptance
import MarkupTypes.Proofs.Documents
import MarkupTypes.Proofs.Siblings

/-!
# Rules and what they stand for

A rule that stands for one attribute or one element may be referred to, or its pattern may be
written in its place. Merged after some patterns and before the attribute of a document
(`Pattern.among`), both give the document the same members, of the same value types and flags,
unless the pattern finds a sibling of its name to merge with (`RuleTable.Separate`). Where it
does, the contents and the flags of the two come together, while a reference leaves the sibling
as it is and gives its own pattern only where the name has not come up. All other names accept
the same in any case (`Compilation.splicesAlike_iff`).
-/

namespace MarkupTypes

/-! ## Writing a rule out -/

/-- What has a name has one slot, of that name. -/
theorem Pattern.slots_of_sign? {p : Pattern} {key : MemberKey} (hp : p.sign? = some (.inl key))
    (outer : Bool) : ∃ s, p.slots outer = [s] ∧ s.key? = some key := by
  cases p with
  | attr m tag content =>
    obtain rfl := Sum.inl.inj (Option.some.inj hp)
    exact ⟨_, rfl, rfl⟩
  | elem m tag content =>
    obtain rfl := Sum.inl.inj (Option.some.inj hp)
    exact ⟨_, rfl, rfl⟩
  | _ => cases hp

/-- A rule that stands for one attribute or one element. -/
structure RuleTable.StandsFor (t : RuleTable) (id : RuleId) (p : Pattern) (key : MemberKey) :
    Prop where
  rule : ∃ rule, t.get? id = some rule ∧ rule.pattern = some p
  sign : p.sign? = some (.inl key)

/-- Neither a child of the name nor a reference to the rule. -/
def unlike (key : MemberKey) (id : RuleId) (sign : Option (MemberKey ⊕ RuleId)) : Bool :=
  sign ≠ some (.inl key) ∧ sign ≠ some (.inr id)

/-- The slots of other names. -/
def others (key : MemberKey) (slots : List Slot) : List Slot :=
  slots.filter fun s => s.key? ≠ some key

theorem others_append (key : MemberKey) (a b : List Slot) :
    others key (a ++ b) = others key a ++ others key b := List.filter_append ..

theorem others_singleton {key : MemberKey} {s : Slot} (h : s.key? = some key) :
    others key [s] = [] := by
  simp [others, h]

/-- Other names have their first occurrences among the others. -/
theorem firstOf_others {key key' : MemberKey} (h : key' ≠ key) (slots : List Slot) :
    firstOf key' (others key slots) = firstOf key' slots := by
  rw [firstOf, others, List.find?_filter, firstOf]
  congr 1
  funext s
  by_cases hs : s.key? = some key'
  · simp [hs, h]
  · simp [hs]

namespace RuleTable

variable {t : RuleTable} {id : RuleId} {p : Pattern} {key : MemberKey} {slots occ : List Slot}

theorem Expands.of_name {s : Slot} (hs : s.key? = some key)
    (h : t.Expands t.isInline [s] occ) : occ = [s] := by
  obtain ⟨rest, rfl, hrest⟩ := h.of_keep fun id hid => by
    rw [s.rule?_of_key? hs] at hid
    cases hid
  cases hrest
  rfl

theorem Expands.name {s : Slot} (hs : s.key? = some key) : t.Expands t.isInline [s] [s] :=
  .keep (fun id hid => by rw [s.rule?_of_key? hs] at hid; cases hid) .nil

namespace StandsFor

variable (h : t.StandsFor id p key)

include h

theorem isInline : t.isInline id = true := by
  obtain ⟨rule, hrule, hp⟩ := h.rule
  rw [isInline_eq hrule, Rule.isInline, Rule.children, hp]
  exact decide_eq_true (congrArg List.length (Pattern.children_of_sign? h.sign))

/-- A reference to the rule is written out as the pattern. -/
theorem expands_iff {location : Option Location} {optional : Bool} :
    t.Expands t.isInline [.ref id location optional] occ ↔
      t.Expands t.isInline (p.slots optional) occ := by
  obtain ⟨rule, hrule, hp⟩ := h.rule
  have hslots : rule.slots optional = p.slots optional := by rw [Rule.slots, hp]
  constructor
  · intro hexpands
    obtain ⟨inner, rest, rfl, hinner, hrest⟩ := hexpands.of_splice hrule h.isInline
    cases hrest
    rwa [List.append_nil, ← hslots]
  · intro hexpands
    rw [← List.append_nil occ]
    exact .splice hrule h.isInline (hslots ▸ hexpands) .nil

/-- What a child of the name or a reference to the rule is written out as has the name. -/
theorem others_of_not_unlike {c : Pattern} (hc : unlike key id c.sign? = false)
    (hexpands : t.Expands t.isInline (c.slots false) occ) : others key occ = [] := by
  obtain ⟨s, hs, hocc⟩ : ∃ s, s.key? = some key ∧ occ = [s] := by
    by_cases hkey : c.sign? = some (.inl key)
    · obtain ⟨s, hslots, hs⟩ := Pattern.slots_of_sign? hkey false
      rw [hslots] at hexpands
      exact ⟨s, hs, hexpands.of_name hs⟩
    · have hid : c.sign? = some (.inr id) := by
        by_contra hid
        rw [unlike, decide_eq_true ⟨hkey, hid⟩] at hc
        cases hc
      cases c with
      | ref m id' label =>
        obtain rfl := Sum.inr.inj (Option.some.inj hid)
        rw [Pattern.slots, h.expands_iff] at hexpands
        obtain ⟨s, hslots, hs⟩ := Pattern.slots_of_sign? h.sign (false || m.optional)
        rw [hslots] at hexpands
        exact ⟨s, hs, hexpands.of_name hs⟩
      | _ => cases hid
  rw [hocc, others_singleton hs]

/-- Children of the name and references to the rule bring nothing but the name. -/
theorem expands_unlike : ∀ {cs : List Pattern} {occ : List Slot},
    t.Expands t.isInline (Pattern.slotsAll false cs) occ →
    ∃ occ', t.Expands t.isInline
        (Pattern.slotsAll false (cs.filter fun c => unlike key id c.sign?)) occ' ∧
      others key occ' = others key occ
  | [], occ, hexpands => ⟨occ, hexpands, rfl⟩
  | c :: cs, occ, hexpands => by
    obtain ⟨first, rest, rfl, hfirst, hrest⟩ := RuleTable.Expands.of_append hexpands
    obtain ⟨rest', hrest', hothers⟩ := expands_unlike hrest
    cases hc : unlike key id c.sign? with
    | true =>
      simp only [List.filter_cons, hc, if_true]
      refine ⟨first ++ rest', hfirst.append hrest', ?_⟩
      rw [others_append, others_append, hothers]
    | false =>
      simp only [List.filter_cons, hc, Bool.false_eq_true, if_false]
      refine ⟨rest', hrest', ?_⟩
      rw [others_append, h.others_of_not_unlike hc hfirst, hothers, List.nil_append]

/-- A rule without a pattern stands for nothing. -/
theorem ne_entry {entry : RuleId} {undefined : Rule} (hentry : t.get? entry = some undefined)
    (hnone : undefined.pattern = none) : id ≠ entry := by
  rintro rfl
  obtain ⟨rule, hrule, hp⟩ := h.rule
  obtain rfl := Option.some.inj (hrule.symm.trans hentry)
  rw [hnone] at hp
  cases hp

/-- The rule stands for its pattern in every document. -/
theorem document {entry : RuleId} {undefined : Rule} (hentry : t.get? entry = some undefined)
    (hnone : undefined.pattern = none) (doc name : QName) (q : Pattern) :
    (t.document entry doc name q).StandsFor id p key where
  rule := by
    obtain ⟨rule, hrule, hp⟩ := h.rule
    exact ⟨rule, by rw [RuleTable.document, get?_modify_of_ne (h.ne_entry hentry hnone), hrule], hp⟩
  sign := h.sign

theorem refers_iff {other : RuleId} : t.Refers id other ↔ p.RefersTo other := by
  obtain ⟨rule, hrule, hp⟩ := h.rule
  constructor
  · rintro ⟨rule', hrule', location, hmem⟩
    obtain rfl := Option.some.inj (hrule.symm.trans hrule')
    exact ⟨location, by rwa [Rule.refs, hp] at hmem⟩
  · rintro ⟨location, hmem⟩
    exact ⟨rule, hrule, location, by rwa [Rule.refs, hp]⟩

theorem idle (hidle : ∀ x ∈ p.outermost, t.contentOf t.isInline x.2 ≠ .structured) :
    t.Idle id := by
  obtain ⟨rule, hrule, hp⟩ := h.rule
  exact ⟨rule, p, hrule, by rw [← isInline_eq hrule, h.isInline], hp, hidle⟩

end StandsFor

/-! ## Other names -/

/-- Two slots that are the same but for the content of the element that documents start from
read the same. -/
theorem Swaps.reading_eq {t t' : RuleTable} {entry : RuleId} {tag : ElementTag}
    {content content' : Pattern} (h : t.Swaps t' entry tag content content') {s s' : Slot}
    (htwin : Slot.Twin tag content content' s s') : t'.reading s' = t.reading s := by
  cases htwin with
  | same =>
    cases s with
    | ref => rfl
    | _ => simp only [reading, valuesOf, h.scan_eq]
  | start optional =>
    obtain ⟨_, hslot⟩ := h.left.named
    obtain ⟨_, hslot'⟩ := h.right.named
    have hleft : (t.scan content).onlyText = false := content.onlyText_scan t.follow [] hslot
    have hright : (t'.scan content').onlyText = false := content'.onlyText_scan t'.follow [] hslot'
    simp only [reading, valuesOf, hleft, hright]
    rfl

/-- The first occurrence of a name reads what the first reading of the name says. -/
theorem map_reading_firstOf (t : RuleTable) (key : MemberKey) (slots : List Slot) :
    (firstOf key slots).map t.reading =
      (slots.map t.reading).find? fun r => r.1 = some key := by
  rw [List.find?_map]
  rfl

/-- Where the contents of two documents have the same first occurrences, names read the same. -/
theorem Swaps.map_reading_firstOf_eq {t t' : RuleTable} {entry : RuleId} {tag : ElementTag}
    {content content' : Pattern} (h : t.Swaps t' entry tag content content')
    {occ occ' : List Slot}
    (htwins : List.Forall₂ (Slot.Twin tag content content') (firsts [] occ) (firsts [] occ'))
    (key : MemberKey) :
    (firstOf key occ').map t'.reading = (firstOf key occ).map t.reading := by
  rw [← firstOf_firsts, ← firstOf_firsts key occ, map_reading_firstOf, map_reading_firstOf,
    map_eq_of_forall₂ htwins fun _ _ _ htwin => h.reading_eq htwin]

theorem map_reading_eq_of_others {key key' : MemberKey} (hne : key' ≠ key) (t : RuleTable)
    {occ occ' : List Slot} (h : others key occ' = others key occ) :
    (firstOf key' occ').map t.reading = (firstOf key' occ).map t.reading := by
  rw [← firstOf_others hne, h, firstOf_others hne]

/-- What a document accepts is what the first occurrence of the name reads. -/
theorem documentAccepts_iff {entry : RuleId} {doc name : QName} {q : Pattern}
    {types : Finset ValueType} {optional : Bool} {occ : List Slot}
    (hexpands : (t.document entry doc name q).Expands (t.document entry doc name q).isInline
      ((q.withAttribute name).slots false) occ) :
    t.DocumentAccepts entry doc name q key types optional ↔
      ∃ values, (firstOf key occ).map (t.document entry doc name q).reading =
        some (some key, values, optional) ∧ values.toFinset = types := by
  constructor
  · rintro ⟨occ', s, hexpands', hs, rfl, rfl⟩
    obtain rfl := hexpands.unique hexpands'
    exact ⟨_, by rw [hs, Option.map_some, reading, key?_of_firstOf hs], rfl⟩
  · rintro ⟨values, hreading, rfl⟩
    obtain ⟨s, hs, heq⟩ := Option.map_eq_some_iff.mp hreading
    simp only [reading, Prod.mk.injEq] at heq
    exact ⟨occ, s, hexpands, hs, by rw [heq.2.1], heq.2.2⟩

/-- Names other than that of the rule are accepted alike, whichever of several patterns for the
rule stands among the others. -/
theorem DocumentAccepts.of_ne {entry : RuleId} {undefined : Rule}
    (hentry : t.get? entry = some undefined) (hnone : undefined.pattern = none)
    (hid : t.StandsFor id p key) {doc name : QName} {qs : List Pattern} {a b : Pattern}
    {sign sign' : MemberKey ⊕ RuleId} (ha : a.sign? = some sign) (hb : b.sign? = some sign')
    (hlike : unlike key id a.sign? = false) (hlike' : unlike key id b.sign? = false)
    {key' : MemberKey} (hne : key' ≠ key) {types : Finset ValueType} {optional : Bool}
    (h : t.DocumentAccepts entry doc name (.among qs a) key' types optional)
    (hcompiles : (t.document entry doc name (.among qs b)).Compiles entry) :
    t.DocumentAccepts entry doc name (.among qs b) key' types optional := by
  have hswaps := swaps_document hentry hnone doc name (.among qs a) (.among qs b)
  have ⟨occ, _, hexpands, _⟩ := h
  obtain ⟨occ', hexpands'⟩ := hcompiles.expands _ (live_document hentry hnone)
  rw [documentAccepts_iff hexpands] at h
  rw [documentAccepts_iff hexpands']
  -- Both documents have the same children, but for the name and the rule.
  rw [Pattern.slots_document qs ha] at hexpands
  rw [Pattern.slots_document qs hb] at hexpands'
  obtain ⟨rest, hrest, hothers⟩ := (hid.document hentry hnone doc name _).expands_unlike hexpands
  obtain ⟨rest', hrest', hothers'⟩ :=
    (hid.document hentry hnone doc name _).expands_unlike hexpands'
  rw [Pattern.filter_documentChildren (unlike key id) qs name hlike hlike'] at hrest
  have hreadings := map_eq_of_forall₂ (hswaps.forall₂_twin hrest hrest') fun _ _ _ htwin =>
    hswaps.reading_eq htwin
  rwa [← map_reading_eq_of_others hne _ hothers', map_reading_firstOf, hreadings,
    ← map_reading_firstOf, map_reading_eq_of_others hne _ hothers]

/-! ## Patterns that find no sibling of their name -/

/-- A pattern shares its name neither with a child of the patterns before it nor with the
attribute after it, and no element in it needs a type. -/
structure Separate (t : RuleTable) (qs : List Pattern) (p : Pattern) (name : QName)
    (key : MemberKey) : Prop where
  last : key ≠ (.attr, name)
  siblings : ∀ q ∈ Pattern.siblings qs, q.sign? ≠ some (.inl key)
  idle : ∀ x ∈ p.outermost, t.contentOf t.isInline x.2 ≠ .structured

theorem expands_append_iff {rest : List Slot} : t.Expands t.isInline (slots ++ rest) occ ↔
    ∃ occ₁ occ₂, occ = occ₁ ++ occ₂ ∧ t.Expands t.isInline slots occ₁ ∧
      t.Expands t.isInline rest occ₂ := by
  constructor
  · exact RuleTable.Expands.of_append
  · rintro ⟨occ₁, occ₂, rfl, hslots, hrest⟩
    exact hslots.append hrest

end RuleTable

namespace RuleTable

variable {t : RuleTable} {entry id : RuleId} {undefined : Rule} {doc name : QName}
  {qs : List Pattern} {p q : Pattern} {key : MemberKey} {occ : List Slot} {types : Finset ValueType}
  {optional : Bool}

/-- A name that came up before has no first occurrence later. -/
theorem firsts_insert {before after : List Slot} {s : Slot} (hs : s.key? = some key)
    (hmem : key ∈ keys before) : firsts [] (before ++ ([s] ++ after)) =
      firsts [] (before ++ after) := by
  have hseen : key ∈ keys before ++ [] := List.mem_append_left _ hmem
  rw [List.singleton_append, firsts_append, firsts_cons_seen hs hseen, ← firsts_append]

namespace StandsFor

variable (h : t.StandsFor id p key)

include h

/-- A reference to the rule brings the name. -/
theorem mem_keys {cs : List Pattern} {c : Pattern} (hc : c ∈ cs) (hsign : c.sign? = some (.inr id))
    (hexpands : t.Expands t.isInline (Pattern.slotsAll false cs) occ) : key ∈ keys occ := by
  obtain ⟨rule, hrule, hp⟩ := h.rule
  obtain ⟨s, hs, hkey⟩ := Pattern.slots_of_sign? h.sign false
  have hgives : t.Gives key id := .own hrule ⟨s, by simp [Rule.slots, hp, hs], hkey⟩
  obtain ⟨slot, hslot, hid⟩ : ∃ slot ∈ c.slots false, slot.rule? = some id := by
    cases c with
    | ref m id' label =>
      obtain rfl := Sum.inr.inj (Option.some.inj hsign)
      exact ⟨_, List.mem_cons_self, rfl⟩
    | _ => cases hsign
  rw [Pattern.slotsAll_eq_flatMap] at hexpands
  exact hexpands.mem_keys_iff.mpr
    (.inr ⟨id, ⟨slot, List.mem_flatMap.mpr ⟨c, hc, hslot⟩, hid⟩, h.isInline, hgives⟩)

/-- A pattern that finds no sibling of its name brings the same first occurrences as a reference
to the rule that stands for it. -/
theorem firsts_iff (hsep : t.Separate qs p name key) (first : List Slot) :
    (∃ occ, t.Expands t.isInline
        (((Pattern.among qs (.ofRule id)).withAttribute name).slots false) occ ∧
      firsts [] occ = first) ↔
    ∃ occ, t.Expands t.isInline (((Pattern.among qs p).withAttribute name).slots false) occ ∧
      firsts [] occ = first := by
  obtain ⟨before, after, hplaced, hspliced⟩ :=
    Pattern.exists_documentChildren h.sign hsep.last hsep.siblings id
  obtain ⟨optional, hoptional⟩ := Pattern.exists_slots_joining qs
  have hsign : (Pattern.ofRule id).sign? = some (.inr id) := rfl
  have happend : ∀ ps ps' : List Pattern, Pattern.slotsAll false (ps ++ ps') =
      Pattern.slotsAll false ps ++ Pattern.slotsAll false ps' := fun ps ps' => by
    simp only [Pattern.slotsAll_eq_flatMap, List.flatMap_append]
  rw [Pattern.slots_document qs hsign, Pattern.slots_document qs h.sign, hplaced, happend,
    Pattern.slotsAll, hoptional h.sign]
  rcases hspliced with hspliced | ⟨hspliced, c, hc, hcsign⟩
  · -- The reference stands where the pattern does, and is written out as the pattern.
    have hslots : (Pattern.ofRule id).slots optional = [.ref id none optional] := by
      simp [Pattern.ofRule, Pattern.slots, Mark.plain]
    rw [hspliced, happend, Pattern.slotsAll, hoptional hsign, hslots]
    simp only [expands_append_iff, h.expands_iff]
  · -- An earlier reference has brought the name before the pattern does.
    obtain ⟨s, hs, hkey⟩ := Pattern.slots_of_sign? h.sign optional
    rw [hspliced, happend, hs]
    constructor
    · rintro ⟨occ, hexpands, rfl⟩
      obtain ⟨occ₁, occ₂, rfl, hbefore, hafter⟩ := expands_append_iff.mp hexpands
      exact ⟨_, hbefore.append ((Expands.name hkey).append hafter),
        firsts_insert hkey (h.mem_keys hc hcsign hbefore)⟩
    · rintro ⟨occ, hexpands, rfl⟩
      obtain ⟨occ₁, rest, rfl, hbefore, hrest⟩ := expands_append_iff.mp hexpands
      obtain ⟨inner, occ₂, rfl, hinner, hafter⟩ := expands_append_iff.mp hrest
      obtain rfl := hinner.of_name hkey
      exact ⟨_, hbefore.append hafter, (firsts_insert hkey (h.mem_keys hc hcsign hbefore)).symm⟩

end StandsFor

/-! ## What documents reach -/

section

variable (hentry : t.get? entry = some undefined) (hnone : undefined.pattern = none)

include hentry hnone

/-- A document refers to what its pattern refers to, and other rules to what they did. -/
theorem refers_document_iff {a b : RuleId} : (t.document entry doc name q).Refers a b ↔
    a = entry ∧ q.RefersTo b ∨ a ≠ entry ∧ t.Refers a b := by
  have hattribute : ¬(Pattern.ofAttribute name .text).RefersTo b := by
    rintro ⟨location, hmem⟩
    cases hmem
  have hmerge : (q.withAttribute name).RefersTo b ↔ q.RefersTo b := by
    rw [Pattern.withAttribute, (Pattern.holds_refersTo b).merge_iff fun _ _ _ => Iff.rfl]
    exact or_iff_left hattribute
  by_cases ha : a = entry
  · subst ha
    obtain ⟨rule, hrule, hp⟩ := get?_document hentry hnone doc name q
    have hrefs : rule.refs = (q.withAttribute name).refs := by
      rw [Rule.refs, hp]
      rfl
    simp only [true_and, ne_eq, not_true, false_and, or_false, ← hmerge]
    constructor
    · rintro ⟨rule', hrule', location, hmem⟩
      obtain rfl := Option.some.inj (hrule.symm.trans hrule')
      exact ⟨location, hrefs ▸ hmem⟩
    · rintro ⟨location, hmem⟩
      exact ⟨rule, hrule, location, hrefs ▸ hmem⟩
  · simp only [ha, false_and, false_or, ne_eq, not_false_iff, true_and, Refers, document,
      get?_modify_of_ne ha]

end

theorem refersTo_among {b : RuleId} : (Pattern.among qs q).RefersTo b ↔
    (∃ m, Pattern.mergeAll? qs = some m ∧ m.RefersTo b) ∨ q.RefersTo b := by
  unfold Pattern.among
  cases hmerged : Pattern.mergeAll? qs with
  | none => simp
  | some m =>
    simp only [Option.some.injEq, exists_eq_left']
    exact (Pattern.holds_refersTo b).merge_iff (fun _ _ _ => Iff.rfl) m q

section

variable (hentry : t.get? entry = some undefined) (hnone : undefined.pattern = none)
  (h : t.StandsFor id p key)

include hentry hnone h

/-- A document with the pattern reaches what one with the reference does, but for the rule. -/
theorem reaches_placed {other : RuleId}
    (hreaches : (t.document entry doc name (.among qs (.ofRule id))).Reaches entry other) :
    (t.document entry doc name (.among qs p)).Reaches entry other ∨ other = id := by
  induction hreaches with
  | refl => exact .inl .refl
  | tail _ hrefers ih =>
    rw [refers_document_iff hentry hnone, refersTo_among] at hrefers
    have hstep : ∀ b, (Pattern.among qs p).RefersTo b →
        (t.document entry doc name (.among qs p)).Reaches entry b := fun b hb =>
      .single ((refers_document_iff hentry hnone).mpr (.inl ⟨rfl, hb⟩))
    rcases hrefers with ⟨-, hmerged | ⟨location, hmem⟩⟩ | ⟨ha, hrefers⟩
    · exact .inl (hstep _ (refersTo_among.mpr (.inl hmerged)))
    · exact .inr (Prod.mk.inj (List.mem_singleton.mp hmem)).1
    · rcases ih with ih | rfl
      · exact .inl (ih.tail ((refers_document_iff hentry hnone).mpr (.inr ⟨ha, hrefers⟩)))
      · exact .inl (hstep _ (refersTo_among.mpr (.inr (h.refers_iff.mp hrefers))))

/-- A document with the reference reaches what one with the pattern does. -/
theorem reaches_spliced {other : RuleId}
    (hreaches : (t.document entry doc name (.among qs p)).Reaches entry other) :
    (t.document entry doc name (.among qs (.ofRule id))).Reaches entry other := by
  induction hreaches with
  | refl => exact .refl
  | tail _ hrefers ih =>
    rw [refers_document_iff hentry hnone, refersTo_among] at hrefers
    have hstep : ∀ b, (Pattern.among qs (.ofRule id)).RefersTo b →
        (t.document entry doc name (.among qs (.ofRule id))).Reaches entry b := fun b hb =>
      .single ((refers_document_iff hentry hnone).mpr (.inl ⟨rfl, hb⟩))
    rcases hrefers with ⟨-, hmerged | hp⟩ | ⟨ha, hrefers⟩
    · exact hstep _ (refersTo_among.mpr (.inl hmerged))
    · have hrule := hstep id (refersTo_among.mpr (.inr ⟨none, List.mem_singleton_self _⟩))
      exact hrule.tail ((refers_document_iff hentry hnone).mpr
        (.inr ⟨h.ne_entry hentry hnone, h.refers_iff.mpr hp⟩))
    · exact ih.tail ((refers_document_iff hentry hnone).mpr (.inr ⟨ha, hrefers⟩))

/-! ## Splicing and writing in place -/

/-- A rule and its pattern do the same for the name of the pattern : documents of both compile
or neither does, and the name accepts the same in both. -/
structure SpliceFree (t : RuleTable) (entry : RuleId) (doc name : QName) (qs : List Pattern)
    (id : RuleId) (p : Pattern) (key : MemberKey) : Prop where
  compiles : (t.document entry doc name (.among qs (.ofRule id))).Compiles entry ↔
    (t.document entry doc name (.among qs p)).Compiles entry
  accepts : (t.document entry doc name (.among qs (.ofRule id))).Compiles entry →
    (t.document entry doc name (.among qs p)).Compiles entry → ∀ types optional,
      t.DocumentAccepts entry doc name (.among qs (.ofRule id)) key types optional ↔
        t.DocumentAccepts entry doc name (.among qs p) key types optional

/-- A pattern that finds no sibling of its name does the same as a rule that stands for it. -/
theorem Separate.spliceFree
    (hsep : (t.document entry doc name (.among qs p)).Separate qs p name key) :
    t.SpliceFree entry doc name qs id p key := by
  have hswaps := swaps_document hentry hnone doc name (.among qs (.ofRule id)) (.among qs p)
  have hsep' : (t.document entry doc name (.among qs (.ofRule id))).Separate qs p name key :=
    ⟨hsep.last, hsep.siblings, fun x hx => by rw [← hswaps.contentOf_eq]; exact hsep.idle x hx⟩
  have hspliced := h.document hentry hnone doc name (.among qs (.ofRule id))
  have hplaced := h.document hentry hnone doc name (.among qs p)
  have hforth : ∀ occ, (t.document entry doc name (.among qs (.ofRule id))).Expands
      (t.document entry doc name (.among qs (.ofRule id))).isInline
      (((Pattern.among qs (.ofRule id)).withAttribute name).slots false) occ →
      ∃ occ', (t.document entry doc name (.among qs p)).Expands
          (t.document entry doc name (.among qs p)).isInline
          (((Pattern.among qs p).withAttribute name).slots false) occ' ∧
        List.Forall₂ (Slot.Twin ⟨doc, none, none⟩
          ((Pattern.among qs (.ofRule id)).withAttribute name)
          ((Pattern.among qs p).withAttribute name)) (firsts [] occ) (firsts [] occ') := by
    intro occ hexpands
    obtain ⟨occ₁, hexpands₁, hfirsts⟩ := (hspliced.firsts_iff hsep' _).mp ⟨occ, hexpands, rfl⟩
    obtain ⟨occ', hexpands', htwins⟩ := hswaps.expands hexpands₁
    exact ⟨occ', hexpands', hfirsts ▸ (Slot.likens_twin ..).firsts htwins []⟩
  refine ⟨⟨fun hcompiles => ?_, fun hcompiles => ?_⟩, fun hcompiles _ types optional => ?_⟩
  · exact hswaps.compiles hcompiles
      (fun _ hreaches => .inl (reaches_spliced hentry hnone h hreaches)) hforth
  · refine hswaps.symm.compiles hcompiles (fun other hreaches => ?_) fun occ hexpands => ?_
    · refine (reaches_placed hentry hnone h hreaches).imp_right fun heq => ?_
      rw [heq]
      exact hspliced.idle hsep'.idle
    · obtain ⟨occ₁, hexpands₁, hfirsts⟩ := (hplaced.firsts_iff hsep _).mpr ⟨occ, hexpands, rfl⟩
      obtain ⟨occ', hexpands', htwins⟩ := hswaps.symm.expands hexpands₁
      exact ⟨occ', hexpands', hfirsts ▸ (Slot.likens_twin ..).firsts htwins []⟩
  · obtain ⟨occ, hexpands⟩ := hcompiles.expands _ (live_document hentry hnone)
    obtain ⟨occ', hexpands', htwins⟩ := hforth occ hexpands
    rw [documentAccepts_iff hexpands, documentAccepts_iff hexpands',
      hswaps.map_reading_firstOf_eq htwins key]

end

end RuleTable

/-- The table with the rule that documents start from defined : as an element that holds some
patterns, merged in order. -/
def RuleTable.mergedDocument (t : RuleTable) (entry : RuleId) (doc : QName)
    (ps : List Pattern) : RuleTable :=
  match Pattern.mergeAll? ps with
  | some content => t.modify entry (·.define (.ofElement doc content) none)
  | none => t

/-- With an attribute last, it is the document of the pattern before it among the others. -/
theorem RuleTable.mergedDocument_append_pair (t : RuleTable) (entry : RuleId)
    (doc name : QName) (qs : List Pattern) (p : Pattern) :
    t.mergedDocument entry doc (qs ++ [p, .ofAttribute name .text]) =
      t.document entry doc name (.among qs p) := by
  rw [mergedDocument, Pattern.mergeAll?_append_pair]
  rfl

theorem Pattern.Untyped.among {qs : List Pattern} (hqs : ∀ q ∈ qs, q.Untyped) {p : Pattern}
    (hp : p.Untyped) : (Pattern.among qs p).Untyped := by
  cases qs with
  | nil => exact hp
  | cons q qs =>
    obtain ⟨hq, hqs⟩ := List.forall_mem_cons.mp hqs
    exact (foldl_merge Untyped.merge hq hqs).merge hp

namespace Compilation

variable {t : RuleTable} {entry id : RuleId} {undefined : Rule} {doc name : QName}
  {qs : List Pattern} {p : Pattern} {key : MemberKey} {options : CompileOptions}
  {tracer : Trace.Tracer}

/-- A reference to a rule among some patterns of a document gives the same members as the
pattern of the rule in its place, where the patterns are merged in order, an attribute last. -/
def SplicesAlike (t : RuleTable) (entry : RuleId) (doc name : QName) (qs : List Pattern)
    (id : RuleId) (p : Pattern) (options : CompileOptions) (tracer : Trace.Tracer) : Prop :=
  (compiled (t.mergedDocument entry doc (qs ++ [.ofRule id, .ofAttribute name .text])) entry
      options tracer).map Model.rootAccepted =
    (compiled (t.mergedDocument entry doc (qs ++ [p, .ofAttribute name .text])) entry
      options tracer).map Model.rootAccepted

instance : Decidable (SplicesAlike t entry doc name qs id p options tracer) :=
  inferInstanceAs (Decidable (_ = _))

/-- A rule that stands for one attribute or one element gives the same members as its pattern in
its place, where the pattern finds no sibling of its name to merge with. In any case, it does
exactly if it does for the name of the pattern. -/
theorem splicesAlike_iff (hfresh : t.Fresh) (hentry : t.get? entry = some undefined)
    (hnone : undefined.pattern = none) (hid : t.StandsFor id p key) (hqs : ∀ q ∈ qs, q.Untyped) :
    ((t.document entry doc name (.among qs p)).Separate qs p name key →
      SplicesAlike t entry doc name qs id p options tracer) ∧
    (SplicesAlike t entry doc name qs id p options tracer ↔
      t.SpliceFree entry doc name qs id p key) := by
  obtain ⟨rule, hrule, hpattern⟩ := hid.rule
  have hp : p.Untyped := (hfresh rule (RuleTable.mem_of_get? hrule)).untyped hpattern
  have href : (Pattern.ofRule id).Untyped := rfl
  have hiff : SplicesAlike t entry doc name qs id p options tracer ↔
      t.SpliceFree entry doc name qs id p key := by
    rw [SplicesAlike, t.mergedDocument_append_pair, t.mergedDocument_append_pair,
      map_rootAccepted_eq_iff hfresh hentry hnone (.among hqs href) (.among hqs hp)]
    constructor
    · rintro ⟨hcompiles, haccepts⟩
      exact ⟨hcompiles, fun hspliced hplaced => haccepts hspliced hplaced key⟩
    · intro hfree
      refine ⟨hfree.compiles, fun hspliced hplaced key' types optional => ?_⟩
      by_cases hkey : key' = key
      · rw [hkey]
        exact hfree.accepts hspliced hplaced types optional
      · have hrule : unlike key id (Pattern.ofRule id).sign? = false := by
          simp [unlike, Pattern.ofRule, Pattern.sign?]
        have hp : unlike key id p.sign? = false := by simp [unlike, hid.sign]
        constructor
        · exact fun h => h.of_ne hentry hnone hid rfl hid.sign hrule hp hkey hplaced
        · exact fun h => h.of_ne hentry hnone hid hid.sign rfl hp hrule hkey hspliced
  exact ⟨fun hsep => hiff.mpr (hsep.spliceFree hentry hnone hid), hiff⟩

theorem standsFor_namedAttribute : namedAttribute.StandsFor 0
    (.ofAttribute (.unqualified "n") .text) (.attr, .unqualified "n") :=
  ⟨⟨_, rfl, rfl⟩, rfl⟩

theorem splicesAlike_iff_namedAttribute : namedAttribute.Fresh ∧
    namedAttribute.get? 1 = some (.mentioned rootScope startName) ∧
    (Rule.mentioned rootScope startName).pattern = none ∧
    namedAttribute.StandsFor 0 (.ofAttribute (.unqualified "n") .text)
      (.attr, .unqualified "n") ∧
    (∀ q ∈ [Pattern.ofAttribute (.unqualified "lang") .text], q.Untyped) ∧
    SplicesAlike namedAttribute 1 (.unqualified "doc") (.unqualified "id")
      [.ofAttribute (.unqualified "lang") .text] 0 (.ofAttribute (.unqualified "n") .text)
      .standard .off := by
  have hfresh : namedAttribute.Fresh := by decide
  have hqs : ∀ q ∈ [Pattern.ofAttribute (.unqualified "lang") .text], q.Untyped := by
    intro q hq
    obtain rfl := List.mem_singleton.mp hq
    rfl
  refine ⟨hfresh, rfl, rfl, standsFor_namedAttribute, hqs,
    (splicesAlike_iff hfresh rfl rfl standsFor_namedAttribute hqs).1 ⟨?_, ?_, ?_⟩⟩
  · decide
  · decide
  · exact fun x hx => absurd hx List.not_mem_nil

/-- The attribute of whole numbers. -/
def integerAttribute : Pattern := .ofAttribute (.unqualified "n") (.data .plain .int)

/-- An attribute beside a rule that stands for an attribute of the same name : the value types
of the two come together only where the pattern of the rule is written in its place. -/
theorem not_splicesAlike_namedAttribute : namedAttribute.Fresh ∧
    namedAttribute.StandsFor 0 (.ofAttribute (.unqualified "n") .text)
      (.attr, .unqualified "n") ∧ integerAttribute.Untyped ∧
    ¬SplicesAlike namedAttribute 1 (.unqualified "doc") (.unqualified "id") [integerAttribute] 0
      (.ofAttribute (.unqualified "n") .text) .standard .off := by
  refine ⟨by decide, standsFor_namedAttribute, rfl, ?_⟩
  decide +kernel

end Compilation

end MarkupTypes
