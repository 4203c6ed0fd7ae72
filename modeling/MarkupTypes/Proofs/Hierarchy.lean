import MarkupTypes.Proofs.Cycles

/-!
# Types that extend each other

A type extends the types of the rules that its content takes in. So a type that is extended
belongs to a rule (`Compilation.Finished.extends_iff`), and one rule's type extends another's
exactly when the one rule inherits from the other (`RuleTable.Inherits`,
`Compilation.Finished.extends_iff_inherits`). A rule may take in itself, of which its type takes
no notice, and rules may take in each other, of which their types do. So the types of a model are
a hierarchy exactly when no reachable rule inherits from itself through others
(`Compilation.hierarchy_iff`).
-/

namespace MarkupTypes

/-- A type takes members from another. -/
def Model.Extends (m : Model) (a b : TypeId) : Prop := ∃ T, m.get? a = some T ∧ b ∈ T.parents

/-- No type takes members from itself, through any number of others. -/
def Model.Hierarchy (m : Model) : Prop := ∀ type, ¬Relation.TransGen m.Extends type type

namespace RuleTable

variable {t t' : RuleTable} {a b entry : RuleId} {order : List RuleId}

/-- The pattern of a rule with a type takes in another rule with a type. -/
def Inherits (t : RuleTable) (a b : RuleId) : Prop :=
  a ≠ b ∧ t.isInline b = false ∧
    ∃ rule, t.get? a = some rule ∧ rule.isInline = false ∧ t.TakesIn (rule.slots false) b

theorem inherits_of_skeleton_eq (h : t'.skeleton = t.skeleton) (hinherits : t'.Inherits a b) :
    t.Inherits a b := by
  obtain ⟨hne, hb, rule', hrule', ha, htakes⟩ := hinherits
  obtain ⟨rule, hrule, hsame⟩ := get?_of_skeleton_eq h.symm hrule'
  refine ⟨hne, isInline_of_skeleton_eq h ▸ hb, rule, hrule, ?_,
    htakes.of_skeleton_eq h (Rule.map_skeleton_slots hsame.symm false)⟩
  rw [← rule.isInline_skeleton, hsame, rule'.isInline_skeleton]
  exact ha

/-- A rule leads to those that its pattern takes in. -/
theorem Inherits.reaches (h : t.Inherits a b) : t.Reaches a b := by
  obtain ⟨-, -, rule, hrule, -, s, hs, x, hx, hpath⟩ := h
  have hle : t.Brings ≤ t.Refers := fun _ _ => Brings.refers
  refine .head ?_ (Relation.ReflTransGen.mono hle _ _ hpath)
  cases s with
  | ref id location optional =>
    cases hx
    exact ⟨rule, hrule, location, Rule.refs_of_mem_slots hs List.mem_cons_self⟩
  | attr _ _ _ => cases hx
  | elem _ _ _ => cases hx

theorem Region.mem_of_inherits (h : t.Region entry order) (ha : a ∈ order)
    (hinherits : t.Inherits a b) : b ∈ order :=
  h.mem_iff.mpr ((h.mem_iff.mp ha).trans hinherits.reaches)

end RuleTable

namespace Compilation

variable {t : RuleTable} {entry : RuleId} {options : CompileOptions} {tracer : Trace.Tracer}
  {c c' : Compilation} {a b id : RuleId} {rule : Rule} {A B type : TypeId} {slots : List Slot}

/-- A rule of a compilation that is not inline has a type. -/
theorem Generating.exists_output (h : Generating c) (hid : id ∈ c.order)
    (hinline : c.rules.isInline id = false) :
    ∃ rule type, c.rules.get? id = some rule ∧ rule.output = some type := by
  obtain ⟨rule, hrule, htyped⟩ := h.supports.typed id hid
  have hsame : c.isInline id = c.rules.isInline id := congrFun (isInline_eq_table h.inline_eq) id
  obtain ⟨type, houtput⟩ := htyped (hsame.trans hinline)
  exact ⟨rule, type, hrule, houtput⟩

/-- A rule with a type is a rule of the compilation, and not inline. -/
theorem Generating.mem_of_output (h : Generating c) (hrule : c.rules.get? id = some rule)
    (houtput : rule.output = some type) : id ∈ c.order ∧ c.rules.isInline id = false := by
  have htypes : type ∈ rule.types := List.mem_append_left _ (Option.mem_toList.mpr houtput)
  have hordered := h.sound.toOrdered
  refine ⟨h.confined id rule hrule (hordered.declared_of_mem_types hrule htypes).1, ?_⟩
  rw [← isInline_eq_table h.inline_eq]
  refine eq_false_of_ne_true fun hinline => ?_
  rw [hordered.output_of_isInline hrule hinline] at houtput
  cases houtput

/-- The type of a rule is that of no other rule. -/
theorem Generating.eq_of_output (h : Generating c) {rule' : Rule}
    (hrule : c.rules.get? a = some rule) (hrule' : c.rules.get? b = some rule')
    (houtput : rule.output = some type) (houtput' : rule'.output = some type) : a = b :=
  RuleTable.eq_of_mem_types h.sound.nodup hrule hrule'
    (List.mem_append_left _ (Option.mem_toList.mpr houtput))
    (List.mem_append_left _ (Option.mem_toList.mpr houtput'))

namespace Finished

/-- The type of a rule has been filled. -/
theorem filled_of_output (h : Finished t entry c) (hrule : c.rules.get? id = some rule)
    (houtput : rule.output = some type) : type ∈ c.draft.filled := by
  obtain ⟨hid, -⟩ := h.generating.mem_of_output hrule houtput
  refine h.generating.generated id rule hrule (h.generated id hid rule hrule)
    (type, rule.slots false) ?_
  rw [Rule.jobs_of_output houtput]
  exact List.mem_singleton_self _

/-- A type extends the types of the rules that its content takes in, but not itself. -/
theorem extends_iff (h : Finished t entry c) (howner : (A, slots) ∈ c.rules.owners)
    (hfilled : A ∈ c.draft.filled) : c.model.Extends A B ↔ B ≠ A ∧
      ∃ b rule, c.rules.TakesIn slots b ∧ c.rules.get? b = some rule ∧ rule.output = some B := by
  obtain ⟨T, occ, hT, hdescribes⟩ := h.generating.describes hfilled howner
  have hinline : c.isInline = c.rules.isInline := isInline_eq_table h.generating.inline_eq
  have hexpands : c.rules.Expands c.rules.isInline slots occ := hinline ▸ hdescribes.expands
  have hparents : c.model.Extends A B ↔ B ∈ T.parents := by
    constructor
    · rintro ⟨T', hT', hmem⟩
      obtain rfl := Option.some.inj (hT.symm.trans hT')
      exact hmem
    · exact fun hmem => ⟨T, hT, hmem⟩
  rw [hparents, hdescribes.parents]
  refine and_congr_right fun _ => ?_
  constructor
  · intro hmem
    obtain ⟨s, hs, hparent⟩ := List.mem_filterMap.mp hmem
    obtain ⟨rule, hbind, houtput⟩ := Option.bind_eq_some_iff.mp hparent
    obtain ⟨b, hb, hrule⟩ := Option.bind_eq_some_iff.mp hbind
    exact ⟨b, rule, (hexpands.rule_iff.mp ⟨s, hs, hb⟩).1, hrule, houtput⟩
  · rintro ⟨b, rule, htakes, hrule, houtput⟩
    have htyped := (h.generating.mem_of_output hrule houtput).2
    obtain ⟨s, hs, hb⟩ := hexpands.rule_iff.mpr ⟨htakes, htyped⟩
    have hget : c.expansion.rules.get? b = some rule := hrule
    refine List.mem_filterMap.mpr ⟨s, hs, ?_⟩
    rw [hb, Option.bind_some, hget, Option.bind_some, houtput]

/-- A type that extends others has been filled from its content. -/
theorem exists_owner_of_extends (h : Finished t entry c) (hextends : c.model.Extends A B) :
    A ∈ c.draft.filled ∧ ∃ slots, (A, slots) ∈ c.rules.owners := by
  have hfilled : A ∈ c.draft.filled := by
    -- A type that was not filled extends none.
    by_contra hopen
    obtain ⟨T, hT, hmem⟩ := hextends
    rw [(h.generating.sound.draft.blank A T hT hopen).2] at hmem
    cases hmem
  obtain ⟨slots, howner, -⟩ := h.generating.complete A hfilled
  exact ⟨hfilled, slots, howner⟩

/-- A type that is extended is that of a rule. -/
theorem exists_rule_of_extends (h : Finished t entry c) (hextends : c.model.Extends A B) :
    ∃ b rule, c.rules.get? b = some rule ∧ rule.output = some B := by
  obtain ⟨hfilled, slots, howner⟩ := h.exists_owner_of_extends hextends
  obtain ⟨-, b, rule, -, hrule, houtput⟩ := (h.extends_iff howner hfilled).mp hextends
  exact ⟨b, rule, hrule, houtput⟩

/-- No type extends itself. -/
theorem not_extends_self (h : Finished t entry c) : ¬c.model.Extends A A := by
  intro hextends
  obtain ⟨hfilled, slots, howner⟩ := h.exists_owner_of_extends hextends
  exact ((h.extends_iff howner hfilled).mp hextends).1 rfl

/-- The type of one rule extends that of another exactly when the one inherits from the
other. -/
theorem extends_iff_inherits (h : Finished t entry c) {ruleₐ ruleᵦ : Rule}
    (ha : c.rules.get? a = some ruleₐ) (hA : ruleₐ.output = some A)
    (hb : c.rules.get? b = some ruleᵦ) (hB : ruleᵦ.output = some B) :
    c.model.Extends A B ↔ c.rules.Inherits a b := by
  rw [h.extends_iff (RuleTable.mem_owners_of_rule ha hA) (h.filled_of_output ha hA)]
  constructor
  · rintro ⟨hne, b', rule', htakes, hb', hB'⟩
    obtain rfl := h.generating.eq_of_output hb' hb hB' hB
    refine ⟨?_, (h.generating.mem_of_output hb hB).2, ruleₐ, ha, ?_, htakes⟩
    · rintro rfl
      obtain rfl := Option.some.inj (ha.symm.trans hb)
      exact hne (Option.some.inj (hB.symm.trans hA))
    · exact (RuleTable.isInline_eq ha).symm.trans (h.generating.mem_of_output ha hA).2
  · rintro ⟨hne, -, rule', ha', -, htakes⟩
    obtain rfl := Option.some.inj (ha.symm.trans ha')
    refine ⟨?_, b, ruleᵦ, htakes, hb, hB⟩
    rintro rfl
    exact hne (h.generating.eq_of_output ha hb hA hB)

/-- Types that extend each other, from the type of a rule on, are those of rules that inherit
from each other. -/
theorem transGen_inherits (h : Finished t entry c) (ha : c.rules.get? a = some rule)
    (hA : rule.output = some A) (hpath : Relation.TransGen c.model.Extends A B) :
    ∀ b rule', c.rules.get? b = some rule' → rule'.output = some B →
      Relation.TransGen c.rules.Inherits a b := by
  induction hpath with
  | single hextends =>
    exact fun b rule' hb hB => .single ((h.extends_iff_inherits ha hA hb hB).mp hextends)
  | tail hfirst hextends ih =>
    intro b rule' hb hB
    obtain ⟨x, -, hlast⟩ := Relation.TransGen.tail'_iff.mp hfirst
    obtain ⟨m, ruleₘ, hm, hM⟩ := h.exists_rule_of_extends hlast
    exact (ih m ruleₘ hm hM).tail ((h.extends_iff_inherits hm hM hb hB).mp hextends)

/-- The types of rules that inherit from each other extend each other. -/
theorem transGen_extends (h : Finished t entry c) (ha : c.rules.get? a = some rule)
    (hA : rule.output = some A) (hpath : Relation.TransGen c.rules.Inherits a b) :
    ∃ rule' B, c.rules.get? b = some rule' ∧ rule'.output = some B ∧
      Relation.TransGen c.model.Extends A B := by
  have hmem := (h.generating.mem_of_output ha hA).1
  induction hpath with
  | single hinherits =>
    obtain ⟨rule', B, hb, hB⟩ := h.generating.exists_output
      (h.generating.region.mem_of_inherits hmem hinherits) hinherits.2.1
    exact ⟨rule', B, hb, hB, .single ((h.extends_iff_inherits ha hA hb hB).mpr hinherits)⟩
  | tail _ hinherits ih =>
    obtain ⟨ruleₘ, M, hm, hM, hextends⟩ := ih
    have hmid := (h.generating.mem_of_output hm hM).1
    obtain ⟨rule', B, hb, hB⟩ := h.generating.exists_output
      (h.generating.region.mem_of_inherits hmid hinherits) hinherits.2.1
    exact ⟨rule', B, hb, hB,
      hextends.tail ((h.extends_iff_inherits hm hM hb hB).mpr hinherits)⟩

/-- The types are a hierarchy exactly when the rules are one. -/
theorem acyclic_iff (h : Finished t entry c) :
    c.model.Hierarchy ↔ ∀ id ∈ c.order, ¬Relation.TransGen c.rules.Inherits id id := by
  constructor
  · intro hhierarchy id hid hcycle
    obtain ⟨_, ⟨-, -, rule₀, hrule₀, hinline, -⟩, -⟩ := Relation.TransGen.head'_iff.mp hcycle
    obtain ⟨rule, type, hrule, houtput⟩ :=
      h.generating.exists_output hid ((RuleTable.isInline_eq hrule₀).trans hinline)
    obtain ⟨rule', type', hrule', houtput', hextends⟩ := h.transGen_extends hrule houtput hcycle
    obtain rfl := Option.some.inj (hrule.symm.trans hrule')
    obtain rfl := Option.some.inj (houtput.symm.trans houtput')
    exact hhierarchy type hextends
  · intro hacyclic type hcycle
    obtain ⟨x, -, hlast⟩ := Relation.TransGen.tail'_iff.mp hcycle
    obtain ⟨id, rule, hrule, houtput⟩ := h.exists_rule_of_extends hlast
    exact hacyclic id (h.generating.mem_of_output hrule houtput).1
      (h.transGen_inherits hrule houtput hcycle id rule hrule houtput)

end Finished

/-- No type of a finished model extends itself, and types extend each other in no cycle exactly
when no rule that the entry reaches inherits from itself through other rules. -/
theorem hierarchy_iff (hfresh : t.Fresh) (hstart : start t entry options tracer = .ok c)
    {m : Model} (hfinish : finish c = .ok m c') :
    m = c'.model ∧ (∀ type, ¬m.Extends type type) ∧
      (m.Hierarchy ↔ ∀ id, t.Reaches entry id → ¬Relation.TransGen t.Inherits id id) := by
  obtain ⟨rfl, h⟩ := finished_of_finish hfresh hstart hfinish
  have hinherits : c'.rules.Inherits = t.Inherits := by
    funext a b
    exact propext ⟨RuleTable.inherits_of_skeleton_eq h.skeleton,
      RuleTable.inherits_of_skeleton_eq h.skeleton.symm⟩
  refine ⟨rfl, fun type => h.not_extends_self, h.acyclic_iff.trans ?_⟩
  rw [hinherits]
  exact forall_congr' fun id => by rw [h.mem_order]

theorem hierarchy_iff_nestedItems : RuleTable.nestedItems.Fresh ∧
    ∃ c m c', start .nestedItems 0 .standard .off = .ok c ∧ finish c = .ok m c' ∧
      m = c'.model ∧ (∀ type, ¬m.Extends type type) ∧
        (m.Hierarchy ↔ ∀ id, RuleTable.nestedItems.Reaches 0 id →
          ¬Relation.TransGen RuleTable.nestedItems.Inherits id id) := by
  have hfresh : RuleTable.nestedItems.Fresh := by decide
  have hok : succeedsWith .nestedItems 0 .standard .off (fun _ _ => true) = true := by
    decide +kernel
  obtain ⟨c, m, c', hstart, hfinish, -⟩ := exists_of_succeedsWith hok
  exact ⟨hfresh, c, m, c', hstart, hfinish, hierarchy_iff hfresh hstart hfinish⟩

end Compilation

/-- A document of one of two rules with attributes, which take in each other. -/
def RuleTable.mutualRules : RuleTable :=
  ⟨[(Rule.mentioned rootScope startName).define
      (.ofElement (.unqualified "doc") (.ofRule 1)) none,
    (Rule.mentioned rootScope "a").define
      ((Pattern.ofAttribute (.unqualified "x") .text).merge (.ofRule 2)) none,
    (Rule.mentioned rootScope "b").define
      ((Pattern.ofAttribute (.unqualified "y") .text).merge (.ofRule 1)) none]⟩

namespace Compilation

/-- The types of the two rules extend each other. -/
theorem not_hierarchy_mutualRules : RuleTable.mutualRules.Fresh ∧
    ∃ c m c', start .mutualRules 0 .standard .off = .ok c ∧ finish c = .ok m c' ∧
      m.Extends 0 1 ∧ m.Extends 1 0 ∧ ¬m.Hierarchy := by
  have hfresh : RuleTable.mutualRules.Fresh := by decide
  have hok : succeedsWith .mutualRules 0 .standard .off (fun m _ =>
      (m.get? 0).map WriterType.parents = some [1] ∧
      (m.get? 1).map WriterType.parents = some [0]) = true := by
    decide +kernel
  obtain ⟨c, m, c', hstart, hfinish, hends⟩ := exists_of_succeedsWith hok
  obtain ⟨hfirst, hsecond⟩ := of_decide_eq_true hends
  obtain ⟨T, hT, hparents⟩ := Option.map_eq_some_iff.mp hfirst
  obtain ⟨T', hT', hparents'⟩ := Option.map_eq_some_iff.mp hsecond
  have hextends : m.Extends 0 1 := ⟨T, hT, by rw [hparents]; exact List.mem_singleton_self _⟩
  have hextends' : m.Extends 1 0 := ⟨T', hT', by rw [hparents']; exact List.mem_singleton_self _⟩
  exact ⟨hfresh, c, m, c', hstart, hfinish, hextends, hextends', fun h =>
    h 0 (.head hextends (.single hextends'))⟩

end Compilation

end MarkupTypes
