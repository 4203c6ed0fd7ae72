import MarkupTypes.Proofs.Population

/-!
# Roots

The type that documents start from is looked for twice. A member for the element that the entry
stands for has a content type, which says what the element holds (`Expansion.RootOf`), and a
writer has the type that a chain of references from the entry ends at
(`Compilation.writerType_eq_some_iff`). The chain goes on through the content of an element that
has no type of its own, also where the element has none because it holds text alone. So the two
agree exactly when no such content leads to a rule with a type (`RuleTable.Overshoots`,
`Compilation.rootAgrees_iff`).

Both searches stop where a rule comes up again. A path that ends has no rule twice
(`not_transGen_of_ends`), so they come to the end of it (`RuleTable.Chain.along`).
-/

namespace MarkupTypes

/-! ## Paths that end -/

section

variable {α : Type} {R : α → α → Prop} {a k : α}

/-- Where every step is the only one, what leads to an end does not lead back to itself. -/
theorem not_transGen_of_ends (hunique : Relator.RightUnique R) (hend : ∀ b, ¬R k b)
    (hpath : Relation.ReflTransGen R a k) : ¬Relation.TransGen R a a := by
  induction hpath using Relation.ReflTransGen.head_induction_on with
  | refl =>
    intro hcycle
    obtain ⟨b, hstep, -⟩ := Relation.TransGen.head'_iff.mp hcycle
    exact hend b hstep
  | @head a b hstep _ ih =>
    intro hcycle
    -- The cycle goes through the next of the path too.
    obtain ⟨b', hstep', hback⟩ := Relation.TransGen.head'_iff.mp hcycle
    obtain rfl := hunique hstep hstep'
    exact ih (Relation.TransGen.tail' hback hstep)

end

namespace RuleTable

variable {t t' : RuleTable} {a b id k : RuleId} {rule : Rule} {type : TypeId}

/-- A search that follows a path from rule to rule, and stops where it is inside a rule already,
comes to the end of the path : `P n inside id` holds of it at `id`, inside the rules of `inside`
and with `n` steps left, if it holds at the end and every step carries it back. -/
theorem Chain.along {R : RuleId → RuleId → Prop} (hunique : Relator.RightUnique R)
    (hend : ∀ b, ¬R k b) (hrules : ∀ a b, R a b → ∃ rule, t.get? a = some rule)
    {P : Nat → List RuleId → RuleId → Prop}
    (hlast : ∀ n inside, k ∉ inside → P (n + 1) inside k)
    (hstep : ∀ n inside a b, a ∉ inside → R a b → P n (a :: inside) b → P (n + 1) inside a)
    (hpath : Relation.ReflTransGen R id k) {n : Nat} {inside : List RuleId} (h : t.Chain inside)
    (hn : t.size < n + inside.length) (hinside : ∀ x ∈ inside, Relation.TransGen R x id) :
    P n inside id := by
  induction hpath using Relation.ReflTransGen.head_induction_on generalizing n inside with
  | refl =>
    have hnew : k ∉ inside := fun hmem =>
      not_transGen_of_ends hunique hend .refl (hinside k hmem)
    have hle := h.length_le
    obtain ⟨n, rfl⟩ : ∃ m, n = m + 1 := Nat.exists_eq_succ_of_ne_zero (by omega)
    exact hlast n inside hnew
  | @head a b hfirst hrest ih =>
    have hnew : a ∉ inside := fun hmem =>
      not_transGen_of_ends hunique hend (.head hfirst hrest) (hinside a hmem)
    have hle := h.length_le
    obtain ⟨n, rfl⟩ : ∃ m, n = m + 1 := Nat.exists_eq_succ_of_ne_zero (by omega)
    obtain ⟨rule, hrule⟩ := hrules a b hfirst
    refine hstep n inside a b hnew hfirst (ih (h.cons hrule hnew) ?_ fun x hx => ?_)
    · rw [List.length_cons]
      omega
    · rcases List.mem_cons.mp hx with rfl | hx
      · exact .single hfirst
      · exact (hinside x hx).tail hfirst

/-! ## Rules that are references -/

/-- A rule stands for a reference to another. -/
def Aliases (t : RuleTable) (a b : RuleId) : Prop :=
  ∃ rule mark label, t.get? a = some rule ∧ rule.pattern = some (.ref mark b label)

/-- A rule stands for an element with some content. -/
def Wraps (t : RuleTable) (a : RuleId) (content : Pattern) : Prop :=
  ∃ rule mark tag, t.get? a = some rule ∧ rule.pattern = some (.elem mark tag content)

theorem rightUnique_aliases (t : RuleTable) : Relator.RightUnique t.Aliases := by
  rintro a b b' ⟨rule, mark, label, hrule, hp⟩ ⟨rule', mark', label', hrule', hp'⟩
  obtain rfl := Option.some.inj (hrule.symm.trans hrule')
  cases hp.symm.trans hp'
  rfl

theorem Aliases.exists_rule (h : t.Aliases a b) : ∃ rule, t.get? a = some rule := by
  obtain ⟨rule, _, _, hrule, -⟩ := h
  exact ⟨rule, hrule⟩

theorem Wraps.not_aliases {content : Pattern} (h : t.Wraps a content) (b : RuleId) :
    ¬t.Aliases a b := by
  rintro ⟨rule', mark', label, hrule', hp'⟩
  obtain ⟨rule, mark, tag, hrule, hp⟩ := h
  obtain rfl := Option.some.inj (hrule.symm.trans hrule')
  cases hp.symm.trans hp'

theorem Wraps.unique {content content' : Pattern} (h : t.Wraps a content)
    (h' : t.Wraps a content') : content = content' := by
  obtain ⟨rule, mark, tag, hrule, hp⟩ := h
  obtain ⟨rule', mark', tag', hrule', hp'⟩ := h'
  obtain rfl := Option.some.inj (hrule.symm.trans hrule')
  cases hp.symm.trans hp'
  rfl

theorem aliases_of_skeleton_eq (h : t'.skeleton = t.skeleton) (haliases : t'.Aliases a b) :
    t.Aliases a b := by
  obtain ⟨rule', mark, label', hrule', hp'⟩ := haliases
  obtain ⟨rule, hrule, hskeleton⟩ := get?_of_skeleton_eq h.symm hrule'
  obtain ⟨p, hp, hpattern⟩ := pattern_of_skeleton_eq hskeleton hp'
  cases p <;> cases hpattern
  exact ⟨rule, mark, _, hrule, hp⟩

/-- An element that holds text alone has no content type. -/
theorem contentOf_of_onlyText (isInline : RuleId → Bool) {p : Pattern}
    (h : (t.scan p).onlyText = true) :
    t.contentOf isInline p = .nothing ∨ ∃ types, t.contentOf isInline p = .values types := by
  unfold contentOf
  split
  · exact .inl rfl
  · simp only [h, if_true]
    split
    · exact .inl rfl
    · exact .inr ⟨_, rfl⟩

/-- A reference that holds markup is delegated to, or needs a type. -/
theorem onlyText_of_contentOf {isInline : RuleId → Bool} {mark : Mark} {label : Option String}
    (hstructured : t.contentOf isInline (.ref mark b label) ≠ .structured)
    (hdelegated : t.contentOf isInline (.ref mark b label) ≠ .delegated b) :
    (t.scan (.ref mark b label)).onlyText = true := by
  by_contra hmarkup
  have hcontent : t.contentOf isInline (.ref mark b label) =
      if isInline b then .structured else .delegated b := if_neg hmarkup
  cases hinline : isInline b with
  | true => exact hstructured (hcontent.trans (by rw [hinline]; rfl))
  | false => exact hdelegated (hcontent.trans (by rw [hinline]; rfl))

/-- References that lead to an element do not hold text alone. -/
theorem onlyText_follow_of_wraps {content : Pattern}
    (hpath : Relation.ReflTransGen t.Aliases b k) (hwraps : t.Wraps k content)
    (types : List ValueType) : (t.follow b types).onlyText = false := by
  refine Chain.along (t := t) (R := t.Aliases)
    (P := fun n inside id => ∀ types,
      (t.followWithin (fun _ types => ⟨true, types⟩) n inside id types).onlyText = false)
    t.rightUnique_aliases hwraps.not_aliases (fun _ _ => Aliases.exists_rule) ?_ ?_ hpath .nil
    (Nat.lt_succ_self _) (fun _ hx => absurd hx List.not_mem_nil) types
  · intro n inside hnew types
    obtain ⟨rule, mark, tag, hrule, hp⟩ := hwraps
    simp only [followWithin, hnew, if_false, hrule, Option.bind_some, hp, Pattern.scan]
  · rintro n inside a b hnew ⟨rule, mark, label, hrule, hp⟩ hnext types
    simp only [followWithin, hnew, if_false, hrule, Option.bind_some, hp, Pattern.scan, hnext]

end RuleTable

/-! ## What writers start from -/

/-- What the search for the type of a writer finds at a rule : a type, or the rule to go on
with. -/
def Rule.lead (r : Rule) : Option (TypeId ⊕ RuleId) :=
  match r.output, r.pattern with
  | some type, _ => some (.inl type)
  | none, some (.elem _ tag content) =>
    match tag.output, content with
    | some type, _ => some (.inl type)
    | none, .ref _ next _ => some (.inr next)
    | none, _ => none
  | none, some (.ref _ next _) => some (.inr next)
  | none, _ => none

namespace RuleTable

variable {t : RuleTable} {a b id : RuleId} {type : TypeId}

/-- The search goes on from a rule to another. -/
def Defers (t : RuleTable) (a b : RuleId) : Prop := (t.get? a).bind Rule.lead = some (.inr b)

/-- The search finds a type at a rule. -/
def Offers (t : RuleTable) (id : RuleId) (type : TypeId) : Prop :=
  (t.get? id).bind Rule.lead = some (.inl type)

theorem rightUnique_defers (t : RuleTable) : Relator.RightUnique t.Defers := fun _ _ _ h h' =>
  Sum.inr.inj (Option.some.inj (h.symm.trans h'))

theorem Defers.exists_rule (h : t.Defers a b) : ∃ rule, t.get? a = some rule := by
  obtain ⟨rule, hrule, -⟩ := Option.bind_eq_some_iff.mp h
  exact ⟨rule, hrule⟩

theorem Offers.not_defers (h : t.Offers a type) (b : RuleId) : ¬t.Defers a b := fun h' =>
  nomatch h.symm.trans h'

theorem offers_of_output {rule : Rule} (hrule : t.get? id = some rule)
    (houtput : rule.output = some type) : t.Offers id type := by
  simp only [Offers, hrule, Option.bind_some, Rule.lead, houtput]

theorem offers_of_element {rule : Rule} {mark : Mark} {tag : ElementTag} {content : Pattern}
    (hrule : t.get? id = some rule) (houtput : rule.output = none)
    (hp : rule.pattern = some (.elem mark tag content)) (hown : tag.output = some type) :
    t.Offers id type := by
  simp only [Offers, hrule, Option.bind_some, Rule.lead, houtput, hp, hown]

theorem defers_of_reference {rule : Rule} {mark : Mark} {label : Option String}
    (hrule : t.get? a = some rule) (houtput : rule.output = none)
    (hp : rule.pattern = some (.ref mark b label)) : t.Defers a b := by
  simp only [Defers, hrule, Option.bind_some, Rule.lead, houtput, hp]

theorem defers_of_element {rule : Rule} {mark mark' : Mark} {tag : ElementTag}
    {label : Option String} (hrule : t.get? a = some rule) (houtput : rule.output = none)
    (hp : rule.pattern = some (.elem mark tag (.ref mark' b label))) (hown : tag.output = none) :
    t.Defers a b := by
  simp only [Defers, hrule, Option.bind_some, Rule.lead, houtput, hp, hown]

/-- The search goes on from references, and from elements that hold nothing but one. -/
theorem Defers.cases (h : t.Defers a b) :
    t.Aliases a b ∨ ∃ mark label, t.Wraps a (.ref mark b label) := by
  obtain ⟨rule, hrule, hlead⟩ := Option.bind_eq_some_iff.mp h
  unfold Rule.lead at hlead
  split at hlead
  · cases hlead
  · next mark tag content _ hp =>
    split at hlead
    · cases hlead
    · next mark' next label _ =>
      cases hlead
      exact .inr ⟨mark', label, rule, mark, tag, hrule, hp⟩
    · cases hlead
  · next mark next label _ hp =>
    cases hlead
    exact .inl ⟨rule, mark, label, hrule, hp⟩
  · cases hlead

/-- The search finds types of rules, and types of elements that rules stand for. -/
theorem Offers.cases (h : t.Offers id type) :
    (∃ rule, t.get? id = some rule ∧ rule.output = some type) ∨ ∃ content, t.Wraps id content := by
  obtain ⟨rule, hrule, hlead⟩ := Option.bind_eq_some_iff.mp h
  unfold Rule.lead at hlead
  split at hlead
  · next houtput =>
    cases hlead
    exact .inl ⟨rule, hrule, houtput⟩
  · next mark tag content _ hp => exact .inr ⟨content, rule, mark, tag, hrule, hp⟩
  · cases hlead
  · cases hlead

end RuleTable

namespace Compilation

variable {t : RuleTable} {a b id : RuleId} {type : TypeId} {beyond : RuleId → Option TypeId}

theorem writerTypeWithin_succ (t : RuleTable) (n : Nat) (seen : List RuleId) (id : RuleId) :
    writerTypeWithin t beyond (n + 1) seen id =
      if id ∈ seen then none
      else match (t.get? id).bind Rule.lead with
        | some (.inl type) => some type
        | some (.inr next) => writerTypeWithin t beyond n (id :: seen) next
        | none => none := by
  rw [writerTypeWithin]
  by_cases hseen : id ∈ seen
  · rw [if_pos hseen, if_pos hseen]
  · rw [if_neg hseen, if_neg hseen]
    cases t.get? id with
    | none => rfl
    | some rule =>
      obtain ⟨_, _, pattern, _, output, _⟩ := rule
      cases output with
      | some type => rfl
      | none =>
        cases pattern with
        | none => rfl
        | some p =>
          cases p with
          | elem mark tag content =>
            obtain ⟨_, _, own⟩ := tag
            cases own with
            | some type => rfl
            | none => cases content <;> rfl
          | _ => rfl

/-- What the search finds, it finds at a rule that it was led to. -/
theorem exists_offers_of_writerTypeWithin {n : Nat} {seen : List RuleId}
    (h : writerTypeWithin t (fun _ => none) n seen id = some type) :
    ∃ k, Relation.ReflTransGen t.Defers id k ∧ t.Offers k type := by
  induction n generalizing seen id with
  | zero => cases h
  | succ n ih =>
    rw [writerTypeWithin_succ] at h
    split at h
    · cases h
    · split at h
      · next hlead =>
        cases h
        exact ⟨id, .refl, hlead⟩
      · next next hlead =>
        obtain ⟨k, hpath, hoffers⟩ := ih h
        exact ⟨k, .head hlead hpath, hoffers⟩
      · cases h

/-- The type of a writer is the one that references lead to. -/
theorem writerType_eq_some_iff :
    writerType t id = some type ↔
      ∃ k, Relation.ReflTransGen t.Defers id k ∧ t.Offers k type := by
  constructor
  · exact exists_offers_of_writerTypeWithin
  · rintro ⟨k, hpath, hoffers⟩
    refine RuleTable.Chain.along (t := t) (R := t.Defers)
      (P := fun n seen id => writerTypeWithin t (fun _ => none) n seen id = some type)
      t.rightUnique_defers hoffers.not_defers (fun _ _ => RuleTable.Defers.exists_rule) ?_ ?_ hpath
      .nil (Nat.lt_succ_self _) (fun _ hx => absurd hx List.not_mem_nil)
    · intro n seen hnew
      rw [writerTypeWithin_succ, if_neg hnew, hoffers]
    · intro n seen a b hnew hdefers hnext
      rw [writerTypeWithin_succ, if_neg hnew, hdefers]
      exact hnext

/-- Where one rule leads to another, their writers start from the same type. -/
theorem writerType_eq_of_defers (h : t.Defers a b) : writerType t a = writerType t b := by
  refine Option.ext fun type => ?_
  rw [writerType_eq_some_iff, writerType_eq_some_iff]
  constructor
  · rintro ⟨k, hpath, hoffers⟩
    rcases Relation.ReflTransGen.cases_head hpath with rfl | ⟨b', hstep, hrest⟩
    · exact absurd h (hoffers.not_defers b)
    · obtain rfl := t.rightUnique_defers h hstep
      exact ⟨k, hrest, hoffers⟩
  · rintro ⟨k, hpath, hoffers⟩
    exact ⟨k, .head h hpath, hoffers⟩

theorem writerType_eq_of_offers (h : t.Offers id type) : writerType t id = some type :=
  writerType_eq_some_iff.mpr ⟨id, .refl, h⟩

end Compilation

/-! ## What documents start from -/

/-- What documents that start from a rule start from : the type of the rule, and for an inline
rule what is written for its child, which for an element is the content type of a member. -/
inductive Expansion.RootOf (e : Expansion) : RuleId → Option TypeId → Prop
  | typed {id rule} (hrule : e.rules.get? id = some rule) (hinline : e.isInline id = false) :
    RootOf e id rule.output
  | element {id rule mark tag content member} (hrule : e.rules.get? id = some rule)
    (hinline : e.isInline id = true) (hp : rule.pattern = some (.elem mark tag content))
    (hmember : e.memberOf (.elem tag content false) = some member) : RootOf e id member.content
  | reference {id rule mark next label root} (hrule : e.rules.get? id = some rule)
    (hinline : e.isInline id = true) (hp : rule.pattern = some (.ref mark next label))
    (hnext : RootOf e next root) : RootOf e id root

/-- The root of the model is what the entry starts from, and there is none where the entry stands
for neither a rule with a type nor an element. -/
def Compilation.RootAgrees (c : Compilation) : Prop :=
  (∀ root, c.expansion.RootOf c.entry root → c.model.root = root) ∧
    ((∀ root, ¬c.expansion.RootOf c.entry root) → c.model.root = none)

/-- A rule stands for an element that holds text alone, in the form of a reference that leads to
a rule with a type. -/
def RuleTable.Overshoots (t : RuleTable) (id : RuleId) : Prop :=
  ∃ a mark b label k rule, Relation.ReflTransGen t.Aliases id a ∧
    t.Wraps a (.ref mark b label) ∧ (t.scan (.ref mark b label)).onlyText = true ∧
    Relation.ReflTransGen t.Aliases b k ∧ t.get? k = some rule ∧ rule.isInline = false

namespace RuleTable

variable {t t' : RuleTable} {a b id : RuleId}

theorem Aliases.overshoots (h : t.Aliases a b) (hb : t.Overshoots b) : t.Overshoots a := by
  obtain ⟨x, mark, y, label, k, rule, hpath, hrest⟩ := hb
  exact ⟨x, mark, y, label, k, rule, .head h hpath, hrest⟩

theorem reflTransGen_aliases_of_skeleton_eq (h : t'.skeleton = t.skeleton)
    (hpath : Relation.ReflTransGen t'.Aliases a b) : Relation.ReflTransGen t.Aliases a b := by
  have hle : t'.Aliases ≤ t.Aliases := fun _ _ => aliases_of_skeleton_eq h
  exact Relation.ReflTransGen.mono hle _ _ hpath

theorem overshoots_of_skeleton_eq (h : t'.skeleton = t.skeleton) (ht' : t'.Overshoots id) :
    t.Overshoots id := by
  obtain ⟨a, mark, b, label, k, rule', hpath, ⟨element', elementMark, tag', helement', hp'⟩, htext,
    hrest, hrule', hinline⟩ := ht'
  obtain ⟨element, helement, hsame⟩ := get?_of_skeleton_eq h.symm helement'
  obtain ⟨p, hp, hpattern⟩ := pattern_of_skeleton_eq hsame hp'
  obtain ⟨rule, hrule, hskeleton⟩ := get?_of_skeleton_eq h.symm hrule'
  cases p with
  | elem _ tag content =>
    simp only [Pattern.skeleton, Pattern.elem.injEq] at hpattern
    obtain ⟨rfl, -, hcontent⟩ := hpattern
    cases content <;> cases hcontent
    refine ⟨a, mark, b, _, k, rule, reflTransGen_aliases_of_skeleton_eq h hpath,
      ⟨element, _, tag, helement, hp⟩, ?_, reflTransGen_aliases_of_skeleton_eq h hrest, hrule, ?_⟩
    · exact (congrArg TextScan.onlyText (scan_eq_of_skeleton_eq h.symm rfl)).trans htext
    · rw [← rule.isInline_skeleton, hskeleton, rule'.isInline_skeleton]
      exact hinline
  | _ => cases hpattern

end RuleTable

namespace Compilation

variable {t : RuleTable} {entry : RuleId} {options : CompileOptions} {tracer : Trace.Tracer}
  {c c' : Compilation} {id a b k : RuleId} {rule : Rule} {type : TypeId}

/-- A rule of a compilation has been declared. -/
theorem Generating.exists_declared (h : Generating c) (hid : id ∈ c.order) :
    ∃ rule, c.rules.get? id = some rule ∧ c.isInline id = rule.isInline ∧
      rule.Declared c.rules c.isInline c.model id := by
  obtain ⟨rule, -, hrule, -⟩ := h.region.defined id hid
  exact ⟨rule, hrule, isInline_eq h.inline_eq hrule,
    h.sound.declared id rule hrule (h.declared id hid rule hrule)⟩

theorem Generating.mem_order_of_aliases (h : Generating c) (ha : a ∈ c.order)
    (haliases : c.rules.Aliases a b) : b ∈ c.order := by
  obtain ⟨rule, mark, label, hrule, hp⟩ := haliases
  exact h.region.closed a ha b ⟨rule, hrule, mark.location, by
    rw [Rule.refs, hp]
    exact List.mem_singleton_self _⟩

theorem Generating.mem_order_of_wraps (h : Generating c) (ha : a ∈ c.order) {mark : Mark}
    {label : Option String} (hwraps : c.rules.Wraps a (.ref mark b label)) : b ∈ c.order := by
  obtain ⟨rule, mark', tag, hrule, hp⟩ := hwraps
  exact h.region.closed a ha b ⟨rule, hrule, mark.location, by
    rw [Rule.refs, hp]
    exact List.mem_singleton_self _⟩

/-- A rule with one child has no type. -/
theorem Generating.untyped (h : Generating c) (hrule : c.rules.get? id = some rule) {p : Pattern}
    (hp : rule.pattern = some p) (hchildren : p.children.length = 1) :
    c.isInline id = true ∧ rule.output = none := by
  have hinline : c.isInline id = true := by
    rw [isInline_eq h.inline_eq hrule, Rule.isInline, Rule.children, hp]
    exact decide_eq_true hchildren
  exact ⟨hinline, h.sound.output_of_isInline hrule hinline⟩

/-- A rule that stands for an element has no type, and the element has one if it needs one. -/
theorem Generating.provides_element (h : Generating c) (hid : id ∈ c.order)
    (hrule : c.rules.get? id = some rule) {mark : Mark} {tag : ElementTag} {content : Pattern}
    (hp : rule.pattern = some (.elem mark tag content)) :
    c.isInline id = true ∧ rule.output = none ∧
      c.rules.Provides c.isInline c.model (tag, content) tag.output := by
  obtain ⟨hinline, houtput⟩ := h.untyped hrule hp rfl
  obtain ⟨rule', hrule', -, hdeclared⟩ := h.exists_declared hid
  obtain rfl := Option.some.inj (hrule.symm.trans hrule')
  refine ⟨hinline, houtput, hdeclared.elements (tag, content) ?_⟩
  rw [Rule.elements, hp]
  exact List.mem_cons_self

theorem Generating.defers_of_aliases (h : Generating c)
    (haliases : c.rules.Aliases a b) : c.rules.Defers a b := by
  obtain ⟨rule, mark, label, hrule, hp⟩ := haliases
  exact RuleTable.defers_of_reference hrule (h.untyped hrule hp rfl).2 hp

/-- References lead a search on. -/
theorem Generating.reflTransGen_defers (h : Generating c) (ha : a ∈ c.order)
    (hpath : Relation.ReflTransGen c.rules.Aliases a b) :
    b ∈ c.order ∧ Relation.ReflTransGen c.rules.Defers a b := by
  induction hpath with
  | refl => exact ⟨ha, .refl⟩
  | tail _ hstep ih =>
    exact ⟨h.mem_order_of_aliases ih.1 hstep, ih.2.tail (h.defers_of_aliases hstep)⟩

/-- There is a member for the element that a rule stands for. -/
theorem Generating.exists_member (h : Generating c) (hid : id ∈ c.order)
    (hrule : c.rules.get? id = some rule) {mark : Mark} {tag : ElementTag} {content : Pattern}
    (hp : rule.pattern = some (.elem mark tag content)) :
    ∃ member, c.expansion.memberOf (.elem tag content false) = some member := by
  obtain ⟨-, -, hprovides⟩ := h.provides_element hid hrule hp
  obtain ⟨parts, hparts⟩ : ∃ parts, c.expansion.partsOf tag content = some parts := by
    cases hown : tag.output with
    | some own =>
      rw [hown] at hprovides
      exact ⟨([], some own), by simp only [Expansion.partsOf, expansion, hprovides.1, hown]; rfl⟩
    | none =>
      have hinside := h.supports.inside_rule hid hrule false
      have hslots : rule.slots false = [.elem tag content (false || mark.optional)] := by
        rw [Rule.slots, hp]
        rfl
      rw [hslots] at hinside
      cases hend : c.expansion.elementParts tag.name content with
      | ok parts => exact ⟨parts, c.expansion.partsOf_of_elementParts hend⟩
      | error failure => exact absurd hend (h.supports.elementParts_ne_error hinside hown)
  exact ⟨_, by rw [Expansion.memberOf, hparts, Option.map_some]⟩

/-- Where references hold text alone, the search goes from reference to reference, and ends at a
rule with a type. -/
theorem Generating.aliases_of_onlyText (h : Generating c) (hb : b ∈ c.order) {mark : Mark}
    {label : Option String} (htext : (c.rules.scan (.ref mark b label)).onlyText = true)
    (hpath : Relation.ReflTransGen c.rules.Defers b k) (hoffers : c.rules.Offers k type) :
    Relation.ReflTransGen c.rules.Aliases b k ∧
      ∃ rule, c.rules.get? k = some rule ∧ rule.isInline = false := by
  have hnot : ∀ x content, Relation.ReflTransGen c.rules.Aliases b x →
      ¬c.rules.Wraps x content := fun x content hx hwraps => by
    have hfalse := RuleTable.onlyText_follow_of_wraps hx hwraps []
    rw [show c.rules.scan (.ref mark b label) = c.rules.follow b [] from rfl, hfalse] at htext
    cases htext
  have haliases : Relation.ReflTransGen c.rules.Aliases b k ∧ k ∈ c.order := by
    clear hoffers
    induction hpath with
    | refl => exact ⟨.refl, hb⟩
    | tail _ hstep ih =>
      rcases hstep.cases with hstep | ⟨_, _, hwraps⟩
      · exact ⟨ih.1.tail hstep, h.mem_order_of_aliases ih.2 hstep⟩
      · exact absurd hwraps (hnot _ _ ih.1)
  refine ⟨haliases.1, ?_⟩
  rcases hoffers.cases with ⟨rule, hrule, houtput⟩ | ⟨content, hwraps⟩
  · refine ⟨rule, hrule, ?_⟩
    rw [← isInline_eq h.inline_eq hrule]
    by_contra hinline
    rw [h.sound.output_of_isInline hrule (eq_true_of_ne_false hinline)] at houtput
    cases houtput
  · exact absurd hwraps (hnot k content haliases.1)

/-- An element without a type of its own that is no reference to a rule with one has a writer
only where it overshoots. -/
theorem Generating.overshoots_of_writerType (h : Generating c) (hid : id ∈ c.order)
    (hrule : c.rules.get? id = some rule) {mark : Mark} {tag : ElementTag} {content : Pattern}
    (hp : rule.pattern = some (.elem mark tag content)) (hown : tag.output = none)
    (hdelegated : ∀ b, c.rules.contentOf c.isInline content ≠ .delegated b)
    (htype : writerType c.rules id = some type) : c.rules.Overshoots id := by
  obtain ⟨-, houtput, hprovides⟩ := h.provides_element hid hrule hp
  rw [hown] at hprovides
  obtain ⟨k, hpath, hoffers⟩ := writerType_eq_some_iff.mp htype
  have hwraps : c.rules.Wraps id content := ⟨rule, mark, tag, hrule, hp⟩
  rcases Relation.ReflTransGen.cases_head hpath with rfl | ⟨b, hstep, hrest⟩
  · -- There is no type at the element itself.
    simp only [RuleTable.Offers, hrule, Option.bind_some, Rule.lead, houtput, hp, hown] at hoffers
    cases content <;> cases hoffers
  · rcases hstep.cases with haliases | ⟨mark', label, hwraps'⟩
    · exact absurd haliases (hwraps.not_aliases b)
    · obtain rfl : content = .ref mark' b label := hwraps.unique hwraps'
      have htext := RuleTable.onlyText_of_contentOf hprovides (hdelegated b)
      have hb : b ∈ c.order := h.mem_order_of_wraps hid hwraps
      obtain ⟨haliases, rule', hrule', hinline⟩ := h.aliases_of_onlyText hb htext hrest hoffers
      exact ⟨id, mark', b, label, k, rule', .refl, hwraps, htext, haliases, hrule', hinline⟩

/-- The content type of a member for the element that a rule stands for is what a writer of the
rule starts from, unless the element overshoots. -/
theorem Generating.content_eq (h : Generating c) (hid : id ∈ c.order)
    (hrule : c.rules.get? id = some rule) {mark : Mark} {tag : ElementTag} {content : Pattern}
    (hp : rule.pattern = some (.elem mark tag content)) {member : Member}
    (hmember : c.expansion.memberOf (.elem tag content false) = some member)
    (hclear : ¬c.rules.Overshoots id) : member.content = writerType c.rules id := by
  obtain ⟨-, houtput, hprovides⟩ := h.provides_element hid hrule hp
  obtain ⟨parts, hparts, rfl⟩ := Option.map_eq_some_iff.mp hmember
  change parts.2 = _
  cases hown : tag.output with
  | some own =>
    rw [hown] at hprovides
    simp only [Expansion.partsOf, expansion, hprovides.1, hown] at hparts
    cases hparts
    exact (writerType_eq_of_offers (RuleTable.offers_of_element hrule houtput hp hown)).symm
  | none =>
    rw [hown] at hprovides
    cases hcontent : c.rules.contentOf c.isInline content with
    | structured => exact absurd hcontent hprovides
    | delegated b =>
      simp only [Expansion.partsOf, expansion, hcontent] at hparts
      obtain ⟨type, htype, rfl⟩ := Option.map_eq_some_iff.mp hparts
      obtain ⟨rule', hrule', houtput'⟩ := Option.bind_eq_some_iff.mp htype
      obtain ⟨mark', label, rfl, -⟩ := RuleTable.ref_of_contentOf_delegated hcontent
      rw [writerType_eq_of_defers (RuleTable.defers_of_element hrule houtput hp hown)]
      exact (writerType_eq_of_offers (RuleTable.offers_of_output hrule' houtput')).symm
    | nothing | values =>
      simp only [Expansion.partsOf, expansion, hcontent] at hparts
      cases hparts
      refine (Option.eq_none_iff_forall_ne_some.mpr fun type htype => hclear ?_).symm
      exact h.overshoots_of_writerType hid hrule hp hown (fun b => by simp [hcontent]) htype

/-- A rule that does not overshoot has the writer that its child asks for. -/
theorem Generating.eq_writerType (h : Generating c) {root : Option TypeId}
    (hroot : c.expansion.RootOf id root) (hid : id ∈ c.order)
    (hclear : ¬c.rules.Overshoots id) : root = writerType c.rules id := by
  induction hroot with
  | @typed id rule hrule hinline =>
    obtain ⟨rule', hrule', -, hdeclared⟩ := h.exists_declared hid
    obtain rfl := Option.some.inj (hrule.symm.trans hrule')
    obtain ⟨type, houtput, -⟩ := hdeclared.typed hinline
    rw [houtput]
    exact (writerType_eq_of_offers (RuleTable.offers_of_output hrule houtput)).symm
  | element hrule _ hp hmember => exact h.content_eq hid hrule hp hmember hclear
  | @reference id rule mark next label root hrule _ hp _ ih =>
    have haliases : c.rules.Aliases id next := ⟨rule, mark, label, hrule, hp⟩
    rw [writerType_eq_of_defers (h.defers_of_aliases haliases)]
    exact ih (h.mem_order_of_aliases hid haliases) fun hnext => hclear (haliases.overshoots hnext)

/-- Where there is a writer, the entry stands for a rule with a type or for an element. -/
theorem Generating.exists_rootOf (h : Generating c) (hid : id ∈ c.order)
    (htype : writerType c.rules id = some type) : ∃ root, c.expansion.RootOf id root := by
  have helement : ∀ {a content}, a ∈ c.order → c.rules.Wraps a content →
      ∃ root, c.expansion.RootOf a root := by
    rintro a content ha ⟨rule, mark, tag, hrule, hp⟩
    obtain ⟨member, hmember⟩ := h.exists_member ha hrule hp
    exact ⟨_, .element hrule (h.provides_element ha hrule hp).1 hp hmember⟩
  obtain ⟨k, hpath, hoffers⟩ := writerType_eq_some_iff.mp htype
  clear htype
  induction hpath using Relation.ReflTransGen.head_induction_on with
  | refl =>
    rcases hoffers.cases with ⟨rule, hrule, houtput⟩ | ⟨content, hwraps⟩
    · refine ⟨_, .typed hrule (eq_false_of_ne_true fun hinline => ?_)⟩
      rw [h.sound.output_of_isInline hrule hinline] at houtput
      cases houtput
    · exact helement hid hwraps
  | head hstep _ ih =>
    rcases hstep.cases with haliases | ⟨_, _, hwraps⟩
    · obtain ⟨root, hroot⟩ := ih (h.mem_order_of_aliases hid haliases)
      obtain ⟨rule, mark, label, hrule, hp⟩ := haliases
      exact ⟨root, .reference hrule (h.untyped hrule hp rfl).1 hp hroot⟩
    · exact helement hid hwraps

/-- An element that holds text alone is written without a type. -/
theorem Generating.rootOf_of_onlyText (h : Generating c) (hid : id ∈ c.order)
    (hrule : c.rules.get? id = some rule) {mark : Mark} {tag : ElementTag} {content : Pattern}
    (hp : rule.pattern = some (.elem mark tag content))
    (htext : (c.rules.scan content).onlyText = true) :
    tag.output = none ∧ c.expansion.RootOf id none := by
  obtain ⟨hinline, -, hprovides⟩ := h.provides_element hid hrule hp
  have hkind := RuleTable.contentOf_of_onlyText c.isInline htext
  have hown : tag.output = none := by
    cases hown : tag.output with
    | none => rfl
    | some own =>
      rw [hown] at hprovides
      rcases hkind with hkind | ⟨types, hkind⟩ <;> cases hkind.symm.trans hprovides.1
  obtain ⟨member, hmember⟩ := h.exists_member hid hrule hp
  have hcontent : member.content = none := by
    obtain ⟨parts, hparts, rfl⟩ := Option.map_eq_some_iff.mp hmember
    rcases hkind with hkind | ⟨types, hkind⟩ <;>
    · simp only [Expansion.partsOf, expansion, hkind] at hparts
      cases hparts
      rfl
  exact ⟨hown, hcontent ▸ .element hrule hinline hp hmember⟩

/-- An element that overshoots is written without a type, though there is a writer. -/
theorem Generating.writerType_of_overshoots (h : Generating c) (hid : id ∈ c.order)
    (hovershoots : c.rules.Overshoots id) :
    c.expansion.RootOf id none ∧ ∃ type, writerType c.rules id = some type := by
  obtain ⟨a, mark, b, label, k, ruleₖ, hpath, hwraps, htext, hrest, hruleₖ, hinlineₖ⟩ :=
    hovershoots
  induction hpath using Relation.ReflTransGen.head_induction_on with
  | refl =>
    have hb := h.mem_order_of_wraps hid hwraps
    obtain ⟨rule, mark', tag, hrule, hp⟩ := hwraps
    obtain ⟨hown, hroot⟩ := h.rootOf_of_onlyText hid hrule hp htext
    refine ⟨hroot, ?_⟩
    -- The search goes on to the rule with a type that the content leads to.
    obtain ⟨hk, hdefers⟩ := h.reflTransGen_defers hb hrest
    obtain ⟨rule', hrule', hinline', hdeclared⟩ := h.exists_declared hk
    obtain rfl := Option.some.inj (hruleₖ.symm.trans hrule')
    obtain ⟨type, htype, -⟩ := hdeclared.typed (hinline'.trans hinlineₖ)
    have hfirst := RuleTable.defers_of_element hrule (h.untyped hrule hp rfl).2 hp hown
    exact ⟨type, writerType_eq_some_iff.mpr
      ⟨k, .head hfirst hdefers, RuleTable.offers_of_output hrule' htype⟩⟩
  | head hstep _ ih =>
    obtain ⟨hroot, type, htype⟩ := ih (h.mem_order_of_aliases hid hstep)
    have hdefers := h.defers_of_aliases hstep
    obtain ⟨rule', mark'', label', hrule', hp'⟩ := hstep
    exact ⟨.reference hrule' (h.untyped hrule' hp' rfl).1 hp' hroot, type,
      (writerType_eq_of_defers hdefers).trans htype⟩

/-- Once all rules are declared, the root agrees exactly when the entry does not overshoot. -/
theorem Generating.agrees_iff (h : Generating c) :
    RootAgrees c ↔ ¬c.rules.Overshoots c.entry := by
  constructor
  · intro hagrees hovershoots
    obtain ⟨hroot, type, htype⟩ := h.writerType_of_overshoots h.region.begun hovershoots
    have hnone := hagrees.1 none hroot
    rw [h.rooted, htype] at hnone
    cases hnone
  · intro hclear
    refine ⟨fun root hroot => ?_, fun hnone => ?_⟩
    · rw [h.rooted]
      exact (h.eq_writerType hroot h.region.begun hclear).symm
    · rw [h.rooted]
      refine Option.eq_none_iff_forall_ne_some.mpr fun type htype => ?_
      obtain ⟨root, hroot⟩ := h.exists_rootOf h.region.begun htype
      exact hnone root hroot

/-- In a finished model the root is the type that a member for the element of the entry would
have as its content, or that of the rule which the entry stands for, exactly when no element of
text alone leads the search on to a rule with a type. -/
theorem rootAgrees_iff (hfresh : t.Fresh) (hstart : start t entry options tracer = .ok c)
    {m : Model} (hfinish : finish c = .ok m c') :
    m = c'.model ∧ (RootAgrees c' ↔ ¬t.Overshoots entry) := by
  obtain ⟨hm, h⟩ := finished_of_finish hfresh hstart hfinish
  refine ⟨hm, h.generating.agrees_iff.trans (not_congr ?_)⟩
  rw [h.entry_eq]
  exact ⟨RuleTable.overshoots_of_skeleton_eq h.skeleton,
    RuleTable.overshoots_of_skeleton_eq h.skeleton.symm⟩

theorem rootAgrees_iff_nestedItems : RuleTable.nestedItems.Fresh ∧
    ∃ c m c', start .nestedItems 0 .standard .off = .ok c ∧ finish c = .ok m c' ∧
      m = c'.model ∧ (RootAgrees c' ↔ ¬RuleTable.nestedItems.Overshoots 0) := by
  have hfresh : RuleTable.nestedItems.Fresh := by decide
  have hok : succeedsWith .nestedItems 0 .standard .off (fun _ _ => true) = true := by
    decide +kernel
  obtain ⟨c, m, c', hstart, hfinish, -⟩ := exists_of_succeedsWith hok
  exact ⟨hfresh, c, m, c', hstart, hfinish, rootAgrees_iff hfresh hstart hfinish⟩

end Compilation

/-- A document that holds a number, which is either of two value types. -/
def RuleTable.numberDocument : RuleTable :=
  ⟨[(Rule.mentioned rootScope startName).define
      (.ofElement (.unqualified "doc") (.ofRule 1)) none,
    (Rule.mentioned rootScope "number").define
      ((Pattern.data .plain .int).merge (.data .plain .decimal)) none]⟩

namespace Compilation

/-- The document holds text alone, so that a member for it would have no content type, but the
root is the type of the number. -/
theorem not_rootAgrees_numberDocument : RuleTable.numberDocument.Fresh ∧
    ∃ c c', start .numberDocument 0 .standard .off = .ok c ∧ finish c = .ok c'.model c' ∧
      c'.model.root = some 0 ∧ c'.expansion.RootOf c'.entry none ∧ ¬RootAgrees c' := by
  have hfresh : RuleTable.numberDocument.Fresh := by decide
  have hok : succeedsWith .numberDocument 0 .standard .off
      (fun _ c' => c'.model.root = some 0) = true := by
    decide +kernel
  obtain ⟨c, m, c', hstart, hfinish, hend⟩ := exists_of_succeedsWith hok
  obtain ⟨rfl, h⟩ := finished_of_finish hfresh hstart hfinish
  have hovershoots : RuleTable.numberDocument.Overshoots 0 :=
    ⟨0, .plain, 1, none, 1, _, .refl, ⟨_, .plain, ⟨.unqualified "doc", none, none⟩, rfl, rfl⟩,
      by decide +kernel, .refl, rfl, by decide +kernel⟩
  have hcompiled : c'.rules.Overshoots c'.entry := by
    rw [h.entry_eq]
    exact RuleTable.overshoots_of_skeleton_eq h.skeleton.symm hovershoots
  obtain ⟨hroot, -⟩ := h.generating.writerType_of_overshoots h.generating.region.begun hcompiled
  refine ⟨hfresh, c, c', hstart, hfinish, of_decide_eq_true hend, hroot, fun hagrees => ?_⟩
  have hnone := hagrees.1 none hroot
  rw [of_decide_eq_true hend] at hnone
  cases hnone

end Compilation

end MarkupTypes
