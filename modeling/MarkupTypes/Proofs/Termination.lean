import MarkupTypes.Proofs.Generation

/-!
# Compilations end

Nothing that a compilation does is cut off by a bound (`Compilation.Unbounded`), so that it
ends is a fact about the rules and not about the bounds. What it ends with is a model, or
the failure that a rule stands for itself : declaring has given a type to whatever needs one
(`Expansion.Supports`), so a walk can only get stuck at an inline rule that already stands
for its pattern in the same type. The rules that stand for their patterns refer to each
other outside elements, attributes and lists, the outermost first (`Expansion.Stacked`), so
such a rule leads back to itself (`RuleTable.Splices`).

`Compilation.finish_ends` puts this together for a compilation that runs all stages.
-/

namespace MarkupTypes

/-! ## Rules that stand for other rules -/

namespace RuleTable

/-- The rule at an index stands for its only child. -/
def isInline (t : RuleTable) (id : RuleId) : Bool := (t.get? id).any Rule.isInline

/-- An inline rule refers to another one outside elements, attributes and lists. -/
def Splices (t : RuleTable) (a b : RuleId) : Prop :=
  t.isInline a = true ∧ t.isInline b = true ∧
    ∃ rule p, t.get? a = some rule ∧ rule.pattern = some p ∧ b ∈ p.bareRules

variable {t t' : RuleTable} {id a b : RuleId} {rule : Rule}

theorem isInline_eq (h : t.get? id = some rule) : t.isInline id = rule.isInline := by
  rw [isInline, h, Option.any_some]

theorem isInline_of_skeleton_eq (h : t'.skeleton = t.skeleton) : t'.isInline = t.isInline := by
  have hskeleton : ∀ u : RuleTable, u.skeleton.isInline = u.isInline := fun u => by
    funext id
    rw [isInline, isInline, get?_skeleton]
    cases u.get? id with
    | none => rfl
    | some rule => simp
  rw [← hskeleton t', ← hskeleton t, h]

theorem splices_of_skeleton_eq (h : t'.skeleton = t.skeleton) (hsplices : t'.Splices a b) :
    t.Splices a b := by
  obtain ⟨ha, hb, rule', p', hrule', hp', hmem⟩ := hsplices
  rw [isInline_of_skeleton_eq h] at ha hb
  obtain ⟨rule, hrule, hskeleton⟩ := get?_of_skeleton_eq h.symm hrule'
  obtain ⟨p, hp, hpattern⟩ := pattern_of_skeleton_eq hskeleton hp'
  refine ⟨ha, hb, rule, p, hrule, hp, ?_⟩
  rwa [← p.bareRules_skeleton, hpattern, p'.bareRules_skeleton]

/-- What an inline rule leads to when it stands for its pattern. -/
theorem Splices.of_mem_slots (hrule : t.get? a = some rule) (ha : t.isInline a = true)
    (hb : t.isInline b = true) {optional : Bool} {s : Slot} (hs : s ∈ rule.slots optional)
    (hid : s.rule? = some b) : t.Splices a b := by
  unfold Rule.slots at hs
  cases hp : rule.pattern with
  | none => simp [hp] at hs
  | some p =>
    rw [hp] at hs
    exact ⟨ha, hb, rule, p, hrule, hp, (Pattern.mem_bareRules optional).mpr ⟨s, hs, hid⟩⟩

end RuleTable

namespace Expansion

/-! ## What walks need -/

/-- Some rules, with all that they refer to, have what is needed to fill types : those with
types have been declared, and so have their elements. -/
structure Supports (e : Expansion) (order : List RuleId) : Prop where
  inline : e.isInline = e.rules.isInline
  typed : ∀ id ∈ order, ∃ rule, e.rules.get? id = some rule ∧
    (e.isInline id = false → ∃ type, rule.output = some type)
  closed : ∀ a ∈ order, ∀ b, e.rules.Refers a b → b ∈ order
  elements : ∀ id ∈ order, ∀ rule, e.rules.get? id = some rule → ∀ x ∈ rule.elements,
    x.1.output = none → e.rules.contentOf e.isInline x.2 ≠ .structured

/-- A slot that refers to some rules only, and whose elements have been declared. -/
structure Reads (e : Expansion) (order : List RuleId) (s : Slot) : Prop where
  refs : ∀ x ∈ s.refs, x.1 ∈ order
  elements : ∀ x ∈ s.elements,
    x.1.output = none → e.rules.contentOf e.isInline x.2 ≠ .structured

/-- Slots that refer to some rules only, and whose elements have been declared. -/
def Inside (e : Expansion) (order : List RuleId) (slots : List Slot) : Prop :=
  ∀ s ∈ slots, e.Reads order s

/-- The rules that stand for their patterns lead to every inline rule of some slots. -/
def Stacked (e : Expansion) (splicing : List RuleId) (slots : List Slot) : Prop :=
  ∀ a ∈ splicing, ∀ s ∈ slots, ∀ b, s.rule? = some b → e.isInline b = true →
    Relation.TransGen e.rules.Splices a b

variable {e : Expansion} {order splicing : List RuleId} {slot : Slot} {slots : List Slot}
  {tag : ElementTag} {p : Pattern} {optional : Bool} {id : RuleId} {rule : Rule}
  {location : Option Location} {target : Target} {failure : Failure}

namespace Inside

theorem tail (h : e.Inside order (slot :: slots)) : e.Inside order slots := fun s hs =>
  h s (List.mem_cons_of_mem _ hs)

theorem content (h : e.Inside order (.elem tag p optional :: slots)) :
    e.Inside order (p.slots false) := fun _ hs => by
  have hslot := h _ List.mem_cons_self
  exact ⟨fun x hx => hslot.refs x (p.refs_of_mem_slots hs hx),
    fun x hx => hslot.elements x (List.mem_cons_of_mem _ (p.elements_of_mem_slots hs hx))⟩

theorem mem_order (h : e.Inside order (.ref id location optional :: slots)) : id ∈ order :=
  (h _ List.mem_cons_self).refs (id, location) List.mem_cons_self

end Inside

namespace Stacked

theorem nil : e.Stacked [] slots := fun _ ha => absurd ha List.not_mem_nil

theorem tail (h : e.Stacked splicing (slot :: slots)) : e.Stacked splicing slots :=
  fun a ha s hs => h a ha s (List.mem_cons_of_mem _ hs)

/-- The stack leads on to the rules of a rule that comes to stand for its pattern. -/
theorem splice (h : e.Stacked splicing (.ref id location optional :: slots))
    (hsame : e.isInline = e.rules.isInline) (hrule : e.rules.get? id = some rule)
    (hinline : e.isInline id = true) : e.Stacked (id :: splicing) (rule.slots optional) := by
  intro a ha s hs b hb hinline'
  have hstep : e.rules.Splices id b :=
    .of_mem_slots hrule (hsame ▸ hinline) (hsame ▸ hinline') hs hb
  rcases List.mem_cons.mp ha with rfl | ha
  · exact .single hstep
  · exact (h a ha _ List.mem_cons_self id rfl hinline).tail hstep

end Stacked

namespace Supports

theorem inside_rule (h : e.Supports order) (hid : id ∈ order) (hrule : e.rules.get? id = some rule)
    (optional : Bool) : e.Inside order (rule.slots optional) := fun _ hs =>
  ⟨fun x hx => h.closed id hid x.1 ⟨rule, hrule, x.2, Rule.refs_of_mem_slots hs hx⟩,
    fun x hx => h.elements id hid rule hrule x (Rule.elements_of_mem_slots hs hx)⟩

theorem inside_element (h : e.Supports order) (hid : id ∈ order)
    (hrule : e.rules.get? id = some rule) {x : ElementTag × Pattern} (hx : x ∈ rule.elements) :
    e.Inside order (x.2.slots false) := by
  intro s hs
  constructor
  · intro y hy
    have hmem : y ∈ rule.refs := Rule.refs_of_mem_elements hx (x.2.refs_of_mem_slots hs hy)
    exact h.closed id hid y.1 ⟨rule, hrule, y.2, hmem⟩
  · intro y hy
    have hmem : y ∈ rule.elements :=
      Rule.elements_of_mem_elements hx (x.2.elements_of_mem_slots hs hy)
    exact h.elements id hid rule hrule y hmem

/-- What is written out is read as the slots are that it stands for. -/
theorem inside_expands (h : e.Supports order) {occ : List Slot}
    (hexpands : e.rules.Expands e.isInline slots occ) (hinside : e.Inside order slots) :
    e.Inside order occ := by
  induction hexpands with
  | nil => exact hinside
  | keep _ _ ih => exact List.forall_mem_cons.mpr ⟨hinside _ List.mem_cons_self, ih hinside.tail⟩
  | splice hrule _ _ _ ihbody ih =>
    have hbody := ihbody (h.inside_rule hinside.mem_order hrule _)
    exact List.forall_mem_append.mpr ⟨hbody, ih hinside.tail⟩

/-- What a rule has to fill is filled from what the rule holds. -/
theorem inside_jobs (h : e.Supports order) (hid : id ∈ order) (hrule : e.rules.get? id = some rule)
    {job : TypeId × List Slot} (hjob : job ∈ rule.jobs) : e.Inside order job.2 := by
  unfold Rule.jobs at hjob
  split at hjob
  · obtain rfl := List.mem_singleton.mp hjob
    exact h.inside_rule hid hrule false
  · next p _ hp =>
    obtain ⟨⟨tag, content⟩, hx, hmap⟩ := List.mem_filterMap.mp hjob
    obtain ⟨type, -, rfl⟩ := Option.map_eq_some_iff.mp hmap
    have hmem : (tag, content) ∈ rule.elements := by
      rw [Rule.elements, hp]
      exact p.outermost_subset_elements hx
    exact h.inside_element hid hrule hmem
  · cases hjob

/-- Every element without a type of its own has its parts. -/
theorem elementParts_ne_error (h : e.Supports order)
    (hinside : e.Inside order (.elem tag p optional :: slots)) (houtput : tag.output = none) :
    e.elementParts tag.name p ≠ .error failure := by
  intro herror
  have hslot := hinside _ List.mem_cons_self
  have hcontent := hslot.elements (tag, p) List.mem_cons_self houtput
  unfold elementParts at herror
  cases hkind : e.rules.contentOf e.isInline p with
  | nothing =>
    rw [hkind] at herror
    cases herror
  | values types =>
    rw [hkind] at herror
    cases herror
  | structured => exact absurd hkind hcontent
  | delegated id =>
    obtain ⟨m, label, rfl, hinline⟩ := RuleTable.ref_of_contentOf_delegated hkind
    have hid : id ∈ order := hslot.refs (id, m.location) List.mem_cons_self
    obtain ⟨rule, hrule, htyped⟩ := h.typed id hid
    obtain ⟨type, htype⟩ := htyped hinline
    have htypeOf : typeOf rule = .ok type := by rw [typeOf, htype]
    simp only [hkind, RuleTable.require, hrule, bind, Except.bind, htypeOf] at herror
    cases herror

/-- Walks get stuck only at an inline rule that stands for its pattern already. -/
theorem cycle_of_stuck (h : e.Supports order) (hinside : e.Inside order (slot :: slots))
    (hstuck : e.Stuck target slot failure) : ∃ id rule, slot.rule? = some id ∧ id ∈ order ∧
      e.rules.get? id = some rule ∧ e.isInline id = true ∧ id ∈ target.splicing ∧
      failure.cause = .recursiveInline rule.displayName := by
  cases hstuck with
  | parts hnew houtput hparts => exact absurd hparts (h.elementParts_ne_error hinside houtput)
  | dangling hnone =>
    obtain ⟨rule, hrule, -⟩ := h.typed _ hinside.mem_order
    rw [hrule] at hnone
    cases hnone
  | undeclared hrule hinline hnone =>
    obtain ⟨rule, hrule', htyped⟩ := h.typed _ hinside.mem_order
    obtain rfl := Option.some.inj (hrule.symm.trans hrule')
    obtain ⟨type, htype⟩ := htyped hinline
    rw [hnone] at htype
    cases htype
  | @cycle id location optional rule hrule hinline hopen =>
    refine ⟨id, rule, rfl, hinside.mem_order, hrule, hinline, hopen, ?_⟩
    cases location <;> rfl

end Supports

/-- A failure that names a rule which stands for itself. -/
def Recursive (e : Expansion) (order : List RuleId) (failure : Failure) : Prop :=
  ∃ id ∈ order, ∃ rule, e.rules.get? id = some rule ∧ e.isInline id = true ∧
    failure.cause = .recursiveInline rule.displayName ∧ Relation.TransGen e.rules.Splices id id

end Expansion

/-! ## Walks that fail -/

/-- A walk fails only where a rule would stand for itself. -/
theorem Walks.recursive_of_error {e : Expansion} {order : List RuleId} {slots : List Slot}
    {target : Target} {d : Draft} {r : Outcome} (h : Walks e slots target d r)
    (hsupports : e.Supports order) (hinside : e.Inside order slots)
    (hstacked : e.Stacked target.splicing slots) :
    ∀ failure d', r = .error failure d' → e.Recursive order failure := by
  induction h with
  | nil => exact fun _ _ heq => nomatch heq
  | seen _ _ _ ih => exact ih hinside.tail hstacked.tail
  | attr _ _ ih => exact ih hinside.tail hstacked.tail
  | elem _ _ _ ih => exact ih hinside.tail hstacked.tail
  | fill _ _ _ _ _ _ ih => exact ih hinside.tail hstacked.tail
  | fillFails _ _ _ _ ihbody =>
    rintro _ _ ⟨⟩
    exact ihbody hinside.content .nil _ _ rfl
  | inherit _ _ _ _ ih => exact ih hinside.tail hstacked.tail
  | splice _ _ _ _ _ _ ih => exact ih hinside.tail hstacked.tail
  | spliceFails hrule hinline _ _ ihbody =>
    rintro _ _ ⟨⟩
    exact ihbody (hsupports.inside_rule hinside.mem_order hrule _)
      (hstacked.splice hsupports.inline hrule hinline) _ _ rfl
  | stuck hstuck =>
    rintro _ _ ⟨⟩
    obtain ⟨id, rule, hid, hmem, hrule, hinline, hopen, hcause⟩ :=
      hsupports.cycle_of_stuck hinside hstuck
    have hcycle := hstacked id hopen _ List.mem_cons_self id hid hinline
    exact ⟨id, hmem, rule, hrule, hinline, hcause, hcycle⟩

/-- Filling types fails only where a rule would stand for itself. -/
theorem Fills.recursive_of_error {e : Expansion} {order : List RuleId}
    {jobs : List (TypeId × List Slot)} {d : Draft} {r : EStateM.Result Failure Draft Unit}
    (h : Fills e jobs d r) (hsupports : e.Supports order)
    (hinside : ∀ job ∈ jobs, e.Inside order job.2) :
    ∀ failure d', r = .error failure d' → e.Recursive order failure := by
  induction h with
  | nil => exact fun _ _ heq => nomatch heq
  | skip _ _ ih => exact ih fun job hjob => hinside job (List.mem_cons_of_mem _ hjob)
  | fill _ _ _ ih => exact ih fun job hjob => hinside job (List.mem_cons_of_mem _ hjob)
  | fails _ body =>
    rintro _ _ ⟨⟩
    exact body.recursive_of_error hsupports (hinside _ List.mem_cons_self) .nil _ _ rfl

namespace Compilation

variable {t : RuleTable} {entry : RuleId} {options : CompileOptions} {tracer : Trace.Tracer}
  {c c' : Compilation}

/-! ## Compilations that fail -/

theorem isInline_eq_table (h : c.inline = c.rules.rules.map Rule.isInline) :
    c.isInline = c.rules.isInline := by
  funext id
  rw [isInline, h, List.getElem?_map, RuleTable.isInline, RuleTable.get?]
  cases c.rules.rules[id]? <;> rfl

/-- Labels and types have no part in which rules are inline. -/
theorem Generating.isInline_of_skeleton (h : Generating c)
    (hskeleton : c.rules.skeleton = t.skeleton) : c.isInline = t.isInline := by
  rw [isInline_eq_table h.inline_eq, RuleTable.isInline_of_skeleton_eq hskeleton]

theorem Generating.supports (h : Generating c) : c.expansion.Supports c.order where
  inline := isInline_eq_table h.inline_eq
  typed id hid := by
    obtain ⟨rule, -, hrule, -⟩ := h.region.defined id hid
    have hdeclared := h.sound.declared id rule hrule (h.declared id hid rule hrule)
    refine ⟨rule, hrule, fun hinline => ?_⟩
    obtain ⟨type, houtput, -⟩ := hdeclared.typed hinline
    exact ⟨type, houtput⟩
  closed := h.region.closed
  elements id hid rule hrule x hx houtput := by
    have hdeclared := h.sound.declared id rule hrule (h.declared id hid rule hrule)
    have hprovides := hdeclared.elements x hx
    rw [houtput] at hprovides
    exact hprovides

theorem FailsAt.recursive {failure : Failure} {id : RuleId} {rule : Rule} {d : Draft}
    (h : FailsAt c c' failure id rule d) : c'.expansion.Recursive c'.order failure := by
  have hsupports := h.generating.supports
  exact h.fills.recursive_of_error hsupports
    (fun _ hjob => hsupports.inside_jobs h.mem h.rule_eq hjob) failure d rfl

/-- No bound makes a difference to a compilation : not that on the depth of scans for text,
not that on the length of chains of references, and not that on the depth of walks. Whatever
is done beyond a bound, and however far away it is, types are filled as they are without a
bound. -/
structure Unbounded (c : Compilation) : Prop where
  scans : ∀ beyond n, c.rules.size < n → c.rules.followWithin beyond n [] = c.rules.follow
  writers : ∀ beyond n id, c.rules.size < n →
    writerTypeWithin c.rules beyond n [] id = writerType c.rules id
  walks : ∀ beyond n, c.expansion.depth ≤ n → ∀ rule ∈ c.rules.rules, ∀ d,
    c.expansion.fillRuleWith (c.expansion.referWithin beyond n) rule d =
      c.expansion.fillRule rule d
  fills : ∀ rule ∈ c.rules.rules, ∀ d,
    Fills c.expansion rule.jobs d (c.expansion.fillRule rule d)

theorem unbounded (c : Compilation) : Unbounded c where
  scans beyond _ hn := c.rules.followWithin_eq beyond hn
  writers beyond _ id hn := writerTypeWithin_eq c.rules beyond hn id
  walks beyond _ hn _ hrule d := Expansion.fillRuleWith_eq beyond hn hrule d
  fills _ hrule d := Expansion.fills_fillRule hrule d

/-- A failure that names an inline rule which the entry reaches, and which leads back to
itself through inline rules outside elements, attributes and lists. -/
def SplicesItself (t : RuleTable) (entry : RuleId) (failure : Failure) : Prop :=
  ∃ id rule, t.get? id = some rule ∧ t.Reaches entry id ∧ rule.isInline = true ∧
    failure.cause = .recursiveInline rule.displayName ∧ Relation.TransGen t.Splices id id

/-- How running all stages ends. -/
structure Ends (t : RuleTable) (entry : RuleId) (c : Compilation) : Prop where
  /-- No bound makes a difference on the way. -/
  unbounded : ∀ c', Leads c c' → Unbounded c'
  /-- There is a model, or a rule that would stand for itself. -/
  model_or_cycle : (∃ m c', finish c = .ok m c') ∨
    ∃ failure c', finish c = .error failure c' ∧ SplicesItself t entry failure
  /-- There is a model if no rule would. -/
  model : (∀ id, t.Reaches entry id → ¬Relation.TransGen t.Splices id id) →
    ∃ m c', finish c = .ok m c'

/-- Running all stages ends with a model, unless a rule would stand for itself. -/
theorem finish_ends (hfresh : t.Fresh) (hstart : start t entry options tracer = .ok c) :
    Ends t entry c := by
  have hstarted := started_of_start hstart
  have hcases : (∃ m c', finish c = .ok m c') ∨
      ∃ failure c', finish c = .error failure c' ∧ SplicesItself t entry failure := by
    rcases finish_cases hstarted hfresh with
      ⟨c', hend, -⟩ | ⟨c', failure, id, rule, d, hfails, hend⟩
    · exact .inl ⟨_, c', hend⟩
    · obtain ⟨i, hi, rule', hrule', hinline, hcause, hcycle⟩ := hfails.recursive
      have hskeleton : c'.rules.skeleton = t.skeleton := hstarted.skeleton_eq hfails.leads
      obtain ⟨rule₀, hrule₀, hsame⟩ := RuleTable.get?_of_skeleton_eq hskeleton.symm hrule'
      have hreaches : t.Reaches entry i :=
        (mem_order_iff hstart).mp (hfails.leads.keeps.order ▸ hi)
      refine .inr ⟨_, _, hend, i, rule₀, hrule₀, hreaches, ?_, ?_, ?_⟩
      · rw [← rule₀.isInline_skeleton, hsame, rule'.isInline_skeleton,
          ← isInline_eq hfails.generating.inline_eq hrule']
        exact hinline
      · rw [← rule₀.displayName_skeleton, hsame, rule'.displayName_skeleton]
        exact hcause
      · have hle : c'.rules.Splices ≤ t.Splices := fun _ _ =>
          RuleTable.splices_of_skeleton_eq hskeleton
        exact Relation.TransGen.mono hle _ _ hcycle
  refine ⟨fun c' _ => c'.unbounded, hcases, fun hacyclic => ?_⟩
  rcases hcases with hok | ⟨failure, c', -, id, rule, -, hreaches, -, -, hcycle⟩
  · exact hok
  · exact absurd hcycle (hacyclic id hreaches)

theorem finish_ends_nestedItems : RuleTable.nestedItems.Fresh ∧
    ∃ c, start .nestedItems 0 .standard .off = .ok c ∧ Ends .nestedItems 0 c := by
  have hfresh : RuleTable.nestedItems.Fresh := by decide
  obtain ⟨c, hstart⟩ : ∃ c, start .nestedItems 0 .standard .off = .ok c := ⟨_, rfl⟩
  exact ⟨hfresh, c, hstart, finish_ends hfresh hstart⟩

end Compilation

end MarkupTypes
