import MarkupTypes.Proofs.Embedding
import MarkupTypes.Proofs.Locations

/-!
# Diagnostics

Locations and the trace are there for people. They are carried through every stage of a
compilation, and no stage decides anything by them : what is done to a compilation is seen when
both are left out (`Compilation.Blind`). So two tables that differ in locations only, traced in
whatever way, compile to the same model, or fail for the same cause inside the same rules
(`Compilation.endAlike_runAll`).
-/

namespace MarkupTypes

/-! ## Drafts without a trace -/

namespace Draft

/-- A draft without its trace. -/
def untraced (d : Draft) : Draft := { d with tracer := .off }

variable (d : Draft) (type : TypeId)

@[simp] theorem model_untraced : d.untraced.model = d.model := rfl

theorem noteMembers_untraced : d.untraced.noteMembers type = (d.noteMembers type).untraced := by
  unfold noteMembers
  rw [model_untraced]
  cases d.model.get? type <;> rfl

theorem inherit_untraced (parent : TypeId) :
    d.untraced.inherit type parent = (d.inherit type parent).untraced := by
  unfold inherit
  split <;> rfl

end Draft

/-- The end of work, where `erase` leaves the diagnostics out of what it was done on and a
failure has no location. -/
def unplacedEnd {σ α : Type} (erase : σ → σ) :
    EStateM.Result Failure σ α → EStateM.Result Failure σ α
  | .ok x s => .ok x (erase s)
  | .error failure s => .error failure.unplaced (erase s)

/-! ## Walks -/

namespace Expansion

/-- What is fixed while types are filled, without locations. -/
def unplaced (e : Expansion) : Expansion := { e with rules := e.rules.unplaced }

variable {e : Expansion} {tag : ElementTag} {content : Pattern} {slots : List Slot}
  {target : Target} {d : Draft} {r : Outcome}

theorem attributeMember_unplaced (tag : AttributeTag) (content : Pattern) (optional : Bool) :
    e.unplaced.attributeMember tag content.unplaced optional =
      e.attributeMember tag content optional := by
  simp only [attributeMember, attributeValues, unplaced, RuleTable.scan_unplaced]

theorem elementParts_unplaced (name : QName) (content : Pattern) :
    e.unplaced.elementParts name content.unplaced = e.elementParts name content := by
  simp only [elementParts, unplaced, RuleTable.contentOf_unplaced]
  cases e.rules.contentOf e.isInline content with
  | nothing | values | structured => rfl
  | delegated id =>
    simp only [RuleTable.require, RuleTable.get?_unplaced]
    cases e.rules.get? id with
    | none => rfl
    | some rule => rfl

/-- A failure to tell what an element holds has no location. -/
theorem unplaced_of_elementParts {name : QName} {failure : Failure}
    (h : e.elementParts name content = .error failure) : failure.unplaced = failure := by
  unfold elementParts at h
  cases hcontent : e.rules.contentOf e.isInline content with
  | nothing | values =>
    rw [hcontent] at h
    cases h
  | structured =>
    rw [hcontent] at h
    cases h
    rfl
  | delegated id =>
    rw [hcontent] at h
    simp only [RuleTable.require, typeOf] at h
    cases hrule : e.rules.get? id with
    | none =>
      rw [hrule] at h
      cases h
      rfl
    | some rule =>
      rw [hrule] at h
      cases houtput : rule.output with
      | none =>
        simp only [bind, Except.bind, houtput] at h
        cases h
        rfl
      | some type =>
        simp only [bind, Except.bind, houtput] at h
        cases h

theorem Settled.unplaced {parts : List ValueType × Option TypeId}
    (h : e.Settled d tag content parts) :
    e.unplaced.Settled d.untraced tag content.unplaced parts := by
  cases h with
  | own houtput hfilled => exact .own houtput hfilled
  | other houtput hparts => exact .other houtput ((elementParts_unplaced _ _).trans hparts)

theorem get?_unplaced {id : RuleId} {rule : Rule} (h : e.rules.get? id = some rule) :
    e.unplaced.rules.get? id = some rule.unplaced := by
  rw [unplaced, RuleTable.get?_unplaced, h, Option.map_some]

theorem Stuck.unplaced {s : Slot} {failure : Failure} (h : e.Stuck target s failure) :
    e.unplaced.Stuck target s.unplaced failure.unplaced := by
  cases h with
  | parts hnew houtput hparts =>
    rw [unplaced_of_elementParts hparts]
    exact .parts hnew houtput ((elementParts_unplaced _ _).trans hparts)
  | dangling hrule =>
    refine .dangling ?_
    rw [Expansion.unplaced, RuleTable.get?_unplaced, hrule, Option.map_none]
  | @undeclared _ _ _ rule hrule hinline houtput =>
    rw [← rule.displayName_unplaced]
    exact .undeclared (get?_unplaced hrule) hinline houtput
  | @cycle _ _ _ rule hrule hinline hopen =>
    rw [Failure.unplaced_located, Failure.unplaced_of, ← rule.displayName_unplaced]
    exact .cycle (get?_unplaced hrule) hinline hopen

end Expansion

/-- Walks go the same way without locations and without a trace. -/
theorem Walks.unplaced {e : Expansion} {slots : List Slot} {target : Target} {d : Draft}
    {r : Outcome} (h : Walks e slots target d r) :
    Walks e.unplaced (slots.map Slot.unplaced) target d.untraced
      (unplacedEnd Draft.untraced r) := by
  induction h with
  | nil => exact .nil
  | seen hkey hseen _ ih => exact .seen ((Slot.key?_unplaced _).trans hkey) hseen ih
  | attr hnew _ ih =>
    refine .attr hnew ?_
    rw [Expansion.attributeMember_unplaced]
    exact ih
  | elem hnew hparts _ ih => exact .elem hnew hparts.unplaced ih
  | @fill tag content _ type _ _ _ _ d₁ _ hnew houtput hopen _ _ ihbody ih =>
    rw [← content.slots_unplaced] at ihbody
    refine .fill hnew houtput hopen ihbody ?_
    rw [Draft.noteMembers_untraced]
    exact ih
  | @fillFails tag content _ _ _ _ _ _ _ hnew houtput hopen _ ihbody =>
    rw [← content.slots_unplaced] at ihbody
    exact .fillFails hnew houtput hopen ihbody
  | inherit hrule hinline houtput _ ih =>
    refine .inherit (Expansion.get?_unplaced hrule) hinline houtput ?_
    rw [Draft.inherit_untraced]
    exact ih
  | @splice id _ _ rule _ _ _ _ _ _ hrule hinline hnew _ _ ihbody ih =>
    rw [← rule.slots_unplaced] at ihbody
    exact .splice (Expansion.get?_unplaced hrule) hinline hnew ihbody ih
  | @spliceFails id _ _ rule _ _ _ _ _ hrule hinline hnew _ ihbody =>
    rw [← rule.slots_unplaced] at ihbody
    exact .spliceFails (Expansion.get?_unplaced hrule) hinline hnew ihbody
  | stuck hstuck => exact .stuck hstuck.unplaced

theorem Fills.unplaced {e : Expansion} {jobs : List (TypeId × List Slot)} {d : Draft}
    {r : EStateM.Result Failure Draft Unit} (h : Fills e jobs d r) :
    Fills e.unplaced (jobs.map (Prod.map id (List.map Slot.unplaced))) d.untraced
      (unplacedEnd Draft.untraced r) := by
  induction h with
  | nil => exact .nil
  | skip hfilled _ ih => exact .skip hfilled ih
  | @fill type slots inner jobs d d₁ r hopen body _ ih =>
    rw [← Draft.noteMembers_untraced] at ih
    exact .fill hopen body.unplaced ih
  | fails hopen body => exact .fails hopen body.unplaced

/-- A rule is filled alike without locations and without a trace. -/
theorem Expansion.fillRule_unplaced {e : Expansion} {rule : Rule} (hrule : rule ∈ e.rules.rules)
    (d : Draft) :
    e.unplaced.fillRule rule.unplaced d.untraced =
      unplacedEnd Draft.untraced (e.fillRule rule d) := by
  have hfills := (fills_fillRule hrule d).unplaced
  rw [← rule.jobs_unplaced] at hfills
  exact (fills_fillRule (List.mem_map_of_mem hrule) d.untraced).unique hfills

namespace Compilation

/-! ## Compilations without diagnostics -/

/-- A compilation without locations and without a trace. -/
def unplaced (c : Compilation) : Compilation :=
  { c with
    rules := c.rules.unplaced
    options := { c.options with trace := .off }
    draft := c.draft.untraced }

variable {c c' : Compilation} {id : RuleId} {rule rule' : Rule} {α β : Type}

theorem prepareRule_unplaced (c : Compilation) (id : RuleId) :
    c.unplaced.prepareRule id = (c.prepareRule id).unplaced := by
  have hget : c.unplaced.rules.get? id = (c.rules.get? id).map Rule.unplaced :=
    c.rules.get?_unplaced id
  have hinline : c.unplaced.isInline id = c.isInline id := rfl
  unfold prepareRule
  rw [hget, hinline]
  cases c.rules.get? id with
  | none => rfl
  | some rule =>
    have hlabel : ({ c with rules := c.rules.modify id fun r =>
        { r with pattern := r.pattern.map (labelled rule.name) } } : Compilation).unplaced =
          { c.unplaced with rules := c.unplaced.rules.modify id fun r =>
            { r with pattern := r.pattern.map (labelled rule.name) } } := by
      simp only [unplaced]
      rw [c.rules.modify_unplaced fun r _ => ?_]
      simp only [Rule.unplaced, Option.map_map, Function.comp_def, Pattern.labelled_unplaced]
    cases hskip : (!c.isInline id || rule.isStart) with
    | true =>
      have hskip' : (!c.isInline id || rule.unplaced.isStart) = true := hskip
      simp only [Option.map_some, hskip, hskip', if_true]
    | false =>
      have hskip' : (!c.isInline id || rule.unplaced.isStart) = false := hskip
      simp only [Option.map_some, hskip, hskip', Bool.false_eq_true, if_false,
        Rule.pattern_unplaced]
      cases rule.pattern with
      | none => exact hlabel.symm
      | some p =>
        cases p with
        | ref m target label => cases label <;> exact hlabel.symm
        | _ => exact hlabel.symm

/-! ### Declaring -/

theorem declareElements_unplaced (c : Compilation) : ∀ (xs : List (ElementTag × Pattern))
    (d : Draft),
    c.unplaced.declareElements (xs.map (Prod.map (fun tag => tag) Pattern.unplaced)) d.untraced =
      ((c.declareElements xs d).1.untraced, (c.declareElements xs d).2)
  | [], _ => rfl
  | (tag, content) :: rest, d => by
    have hcontent : c.unplaced.rules.contentOf c.unplaced.isInline content.unplaced =
        c.rules.contentOf c.isInline content := c.rules.contentOf_unplaced _ content
    have hcreate : c.unplaced.declareElements
        (rest.map (Prod.map (fun tag => tag) Pattern.unplaced))
        (d.untraced.create (tag.label.getD tag.name.localName) (.element tag.name)) = _ :=
      c.declareElements_unplaced rest
        (d.create (tag.label.getD tag.name.localName) (.element tag.name))
    rw [List.map_cons, Prod.map_apply, declareElements_cons, declareElements_cons, hcontent,
      hcreate, c.declareElements_unplaced rest d]
    split <;> rfl

theorem declared_unplaced (c : Compilation) (id : RuleId) (rule : Rule) :
    c.unplaced.declared id rule.unplaced =
      ((c.declared id rule).1.unplaced, (c.declared id rule).2.untraced) := by
  have hdraft : c.unplaced.draftOfRule id rule.unplaced = (c.draftOfRule id rule).untraced := by
    have hinline : c.unplaced.isInline id = c.isInline id := rfl
    unfold draftOfRule
    rw [hinline]
    split <;> rfl
  have hmade := c.declareElements_unplaced rule.elements (c.draftOfRule id rule)
  have helements : rule.unplaced.elements =
      rule.elements.map (Prod.map (fun tag => tag) Pattern.unplaced) := rule.elements_unplaced
  rw [← helements, ← hdraft] at hmade
  have hpattern : ∀ types, (rule.pattern.map Pattern.unplaced).map (Pattern.withTypes types) =
      (rule.pattern.map (Pattern.withTypes types)).map Pattern.unplaced := fun types => by
    simp only [Option.map_map, Function.comp_def, Pattern.withTypes_unplaced]
  simp only [declared_eq, hmade, Rule.pattern_unplaced, hpattern]
  rfl

theorem declareRule_unplaced (c : Compilation) (id : RuleId) (rule : Rule) :
    c.unplaced.declareRule id rule.unplaced = (c.declareRule id rule).unplaced := by
  have hdeclared := c.declared_unplaced id rule
  have hrules : (c.rules.modify id fun _ => (c.declared id rule).1).unplaced =
      c.rules.unplaced.modify id fun _ => (c.declared id rule).1.unplaced :=
    c.rules.modify_unplaced fun _ _ => rfl
  rw [declareRule, hdeclared]
  change ({ c.unplaced with
    rules := c.rules.unplaced.modify id fun _ => (c.declared id rule).1.unplaced
    draft := (c.declared id rule).2.untraced } : Compilation) = _
  rw [← hrules]
  rfl

theorem settleRoot_unplaced (c : Compilation) : c.unplaced.settleRoot = c.settleRoot.unplaced := by
  have hroot : writerType c.unplaced.rules c.unplaced.entry = writerType c.rules c.entry :=
    c.rules.writerType_unplaced c.entry
  rw [settleRoot, hroot]
  rfl

theorem markGenerated_unplaced (c : Compilation) (id : RuleId) :
    c.unplaced.markGenerated id = (c.markGenerated id).unplaced := by
  have hrules : (c.rules.modify id fun r => { r with state := .generated }).unplaced =
      c.rules.unplaced.modify id fun r => { r with state := .generated } :=
    c.rules.modify_unplaced fun _ _ => rfl
  simp only [markGenerated, unplaced, hrules]

/-! ## Work that sees no diagnostics -/

/-- Work that does the same to compilations which differ in their diagnostics only. -/
def Blind (work : Compiling α) : Prop := ∀ c c', c'.unplaced = c.unplaced →
  unplacedEnd unplaced (work c') = unplacedEnd unplaced (work c)

namespace Blind

/-- Work that does to a compilation without diagnostics what it does to the compilation. -/
theorem of_unplaced {work : Compiling α}
    (h : ∀ c, work c.unplaced = unplacedEnd unplaced (work c)) : Blind work := fun c c' hc => by
  rw [← h c', hc, h c]

theorem pure (x : α) : Blind (Pure.pure x) := fun _ _ hc => congrArg (EStateM.Result.ok x) hc

theorem bind {work : Compiling α} {next : α → Compiling β} (hwork : Blind work)
    (hnext : ∀ x, Blind (next x)) : Blind (work >>= next) := fun c c' hc => by
  have hfirst := hwork c c' hc
  rw [run_bind, run_bind]
  cases hend : work c with
  | ok x c₁ =>
    cases hend' : work c' with
    | error failure' c₁' =>
      rw [hend, hend'] at hfirst
      cases hfirst
    | ok x' c₁' =>
      rw [hend, hend'] at hfirst
      obtain ⟨rfl, h₁⟩ := EStateM.Result.ok.inj hfirst
      exact hnext x' c₁ c₁' h₁
  | error failure c₁ =>
    cases hend' : work c' with
    | error failure' c₁' =>
      rw [hend, hend'] at hfirst
      obtain ⟨hfailure, h₁⟩ := EStateM.Result.error.inj hfirst
      simp only [unplacedEnd, hfailure, h₁]
    | ok x' c₁' =>
      rw [hend, hend'] at hfirst
      cases hfirst

theorem change {g : Compilation → Compilation}
    (hg : ∀ c c', c'.unplaced = c.unplaced → (g c').unplaced = (g c).unplaced) :
    Blind (modify g) := fun c c' hc => by
  simp only [run_modify, unplacedEnd, hg c c' hc]

theorem trace (f : Trace.Tracer → Trace.Tracer) : Blind (modify (·.mapTracer f)) :=
  change fun _ _ hc => hc

/-- Work that depends on what is read off a compilation without its diagnostics. -/
theorem inspect {γ : Type} {f : Compilation → γ} {next : γ → Compiling α}
    (hf : ∀ c c', c'.unplaced = c.unplaced → f c' = f c) (hnext : ∀ y, Blind (next y)) :
    Blind (do next (f (← get))) := fun c c' hc => by
  change unplacedEnd unplaced (next (f c') c') = unplacedEnd unplaced (next (f c) c)
  rw [hf c c' hc]
  exact hnext (f c) c c' hc

theorem forEach {step : RuleId → Compiling Bool} (hstep : ∀ id, Blind (step id)) :
    ∀ ids : List RuleId, Blind (Compilation.forEach step ids)
  | [] => .pure ()
  | id :: ids => (hstep id).bind fun _ => Blind.forEach hstep ids

end Blind

theorem blind_declare (id : RuleId) : Blind (declare id) := .of_unplaced fun c => by
  have hget : c.unplaced.rules.get? id = (c.rules.get? id).map Rule.unplaced :=
    c.rules.get?_unplaced id
  rw [declare_eq, declare_eq, hget]
  cases c.rules.get? id with
  | none => rfl
  | some rule =>
    have hstate : rule.unplaced.state = rule.state := rfl
    simp only [Option.map_some, hstate]
    split
    · rw [declareRule_unplaced]
      rfl
    · rfl

theorem blind_generate (id : RuleId) : Blind (generate id) := .of_unplaced fun c => by
  have hget : c.unplaced.rules.get? id = (c.rules.get? id).map Rule.unplaced :=
    c.rules.get?_unplaced id
  rw [generate_eq, generate_eq, hget]
  cases hrule : c.rules.get? id with
  | none => rfl
  | some rule =>
    have hstate : rule.unplaced.state = rule.state := rfl
    have hfill : c.unplaced.expansion.fillRule rule.unplaced c.unplaced.draft =
        unplacedEnd Draft.untraced (c.expansion.fillRule rule c.draft) :=
      Expansion.fillRule_unplaced (e := c.expansion) (RuleTable.mem_of_get? hrule) c.draft
    simp only [Option.map_some, hstate, hfill]
    cases rule.state with
    | unprocessed => rfl
    | generated => rfl
    | declared =>
      cases c.expansion.fillRule rule c.draft with
      | ok _ d =>
        have hmark := markGenerated_unplaced { c with draft := d } id
        exact congrArg (EStateM.Result.ok true) hmark
      | error failure d => simp [unplacedEnd, unplaced]

theorem unplaced_foldl_prepareRule : ∀ (ids : List RuleId) (c c' : Compilation),
    c'.unplaced = c.unplaced →
    (ids.foldl prepareRule c').unplaced = (ids.foldl prepareRule c).unplaced
  | [], _, _, hc => hc
  | id :: ids, c, c', hc => by
    refine unplaced_foldl_prepareRule ids _ _ ?_
    rw [← prepareRule_unplaced, ← prepareRule_unplaced, hc]

theorem order_of_unplaced_eq (c c' : Compilation) (hc : c'.unplaced = c.unplaced) :
    c'.order = c.order := by
  have horder : c'.unplaced.order = c.unplaced.order := by rw [hc]
  exact horder

theorem blind_prepare : Blind (modify prepare) := .change fun c c' hc => by
  have hrules : (c'.order.foldl prepareRule (c'.mapTracer (·.startPhase .prepare))).unplaced =
      (c.order.foldl prepareRule (c.mapTracer (·.startPhase .prepare))).unplaced := by
    rw [order_of_unplaced_eq c c' hc]
    exact unplaced_foldl_prepareRule c.order _ _ hc
  exact hrules

theorem blind_settleRoot : Blind (modify settleRoot) := .change fun c c' hc => by
  rw [← settleRoot_unplaced, ← settleRoot_unplaced, hc]

theorem blind_declareAll : Blind declareAll :=
  (Blind.trace _).bind fun _ =>
    .inspect order_of_unplaced_eq fun ids => (Blind.forEach blind_declare ids).bind fun _ =>
      blind_settleRoot.bind fun _ => .trace _

theorem blind_generateAll : Blind generateAll :=
  (Blind.trace _).bind fun _ =>
    .inspect order_of_unplaced_eq fun ids => (Blind.forEach blind_generate ids).bind fun _ =>
      .trace _

theorem model_of_unplaced_eq (c c' : Compilation) (hc : c'.unplaced = c.unplaced) :
    c'.model = c.model := by
  have hmodel : c'.unplaced.model = c.unplaced.model := by rw [hc]
  exact hmodel

theorem blind_finish : Blind finish :=
  blind_prepare.bind fun _ => blind_declareAll.bind fun _ => blind_generateAll.bind fun _ =>
    .inspect model_of_unplaced_eq Blind.pure

/-! ## Whole compilations -/

/-- Two compilations have come to the same model, or have failed for the same cause, which names
the rule at fault, inside the same rules. -/
inductive EndAlike : Attempt Model → Attempt Model → Prop
  | ok (m : Model) : EndAlike (.ok m) (.ok m)
  | error {failure failure' : Failure} (hcause : failure'.cause = failure.cause)
    (hrules : failure'.rules = failure.rules) : EndAlike (.error failure) (.error failure')

theorem endAlike_of_unplaced_eq {failure failure' : Failure}
    (h : failure'.unplaced = failure.unplaced) : EndAlike (.error failure) (.error failure') := by
  have hrules := congrArg Failure.rules h
  rw [Failure.rules_unplaced, Failure.rules_unplaced] at hrules
  exact .error (congrArg (fun f => f.cause) h) hrules

theorem endAlike_answerOf {r r' : EStateM.Result Failure Compilation Model}
    (h : unplacedEnd unplaced r' = unplacedEnd unplaced r) :
    EndAlike (answerOf r).1 (answerOf r').1 := by
  cases r with
  | ok m c =>
    cases r' with
    | ok m' c' =>
      obtain rfl := (EStateM.Result.ok.inj h).1
      exact .ok m'
    | error failure' c' => cases h
  | error failure c =>
    cases r' with
    | ok m' c' => cases h
    | error failure' c' => exact endAlike_of_unplaced_eq (EStateM.Result.error.inj h).1

/-- A compilation without diagnostics starts where the compilation starts. -/
theorem start_unplaced (t : RuleTable) (entry : RuleId) (options : CompileOptions)
    (tracer : Trace.Tracer) :
    start t.unplaced entry { options with trace := .off } .off =
      ((start t entry options tracer).map unplaced).mapError Failure.unplaced := by
  have hinline : t.unplaced.rules.map Rule.isInline = t.rules.map Rule.isInline := by
    simp [RuleTable.unplaced, Function.comp_def]
  simp only [start, RuleTable.get?_unplaced, Option.isSome_map, RuleTable.reachable_unplaced,
    hinline, bind, Except.bind]
  cases (t.get? entry).isSome with
  | false => rfl
  | true => cases t.reachable entry <;> rfl

/-- Tables that differ in locations only, traced in whatever way, compile alike. -/
theorem endAlike_runAll {t t' : RuleTable} (h : t'.unplaced = t.unplaced) (entry : RuleId)
    (options : CompileOptions) (trace : Trace.Options) (tracer tracer' : Trace.Tracer) :
    EndAlike (runAll t entry options tracer).1
      (runAll t' entry { options with trace } tracer').1 := by
  have hstart := start_unplaced t entry options tracer
  have hstart' := start_unplaced t' entry { options with trace } tracer'
  rw [h, hstart] at hstart'
  unfold runAll
  cases hc : start t entry options tracer with
  | error failure =>
    cases hc' : start t' entry { options with trace } tracer' with
    | error failure' =>
      rw [hc, hc'] at hstart'
      exact endAlike_of_unplaced_eq (Except.error.inj hstart').symm
    | ok c' =>
      rw [hc, hc'] at hstart'
      cases hstart'
  | ok c =>
    cases hc' : start t' entry { options with trace } tracer' with
    | error failure' =>
      rw [hc, hc'] at hstart'
      cases hstart'
    | ok c' =>
      rw [hc, hc'] at hstart'
      exact endAlike_answerOf (blind_finish c c' (Except.ok.inj hstart').symm)

end Compilation

/-- The nested items with locations of some rules and references. -/
def RuleTable.placedItems : RuleTable :=
  ⟨[(Rule.mentioned rootScope startName).define
      (.elem ⟨false, some ⟨some "doc.rng", 2, 5⟩⟩ ⟨.unqualified "doc", none, none⟩
        (.union .plain [.ref ⟨false, some ⟨none, 3, 7⟩⟩ 1 none,
          .ofAttribute (.unqualified "id") .text])) (some ⟨some "doc.rng", 1, 3⟩),
    (Rule.mentioned rootScope "item").define
      (.ofElement (.unqualified "item")
        (.union .plain [.ofRule 1, .ref ⟨false, some ⟨none, 9, 1⟩⟩ 2 none,
          .ofAttribute (.unqualified "n") .text])) none,
    (Rule.mentioned rootScope "common").define
      (.union .plain [.ofAttribute (.unqualified "id") .text,
        .ofAttribute (.unqualified "lang") .text]) (some ⟨none, 12, 3⟩)]⟩

namespace Compilation

/-- The nested items, without a trace, and with locations and a short trace of one kind. -/
theorem endAlike_runAll_placedItems :
    RuleTable.placedItems.unplaced = RuleTable.nestedItems.unplaced ∧
    EndAlike (runAll .nestedItems 0 .standard .off).1
      (runAll .placedItems 0 { CompileOptions.standard with trace := .echoing }
        (.new { Trace.Options.keeping with capacity := 1, kinds := ["rule-aliased"] })).1 := by
  have h : RuleTable.placedItems.unplaced = RuleTable.nestedItems.unplaced := rfl
  exact ⟨h, endAlike_runAll h 0 .standard .echoing .off _⟩

end Compilation

end MarkupTypes
