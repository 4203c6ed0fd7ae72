import MarkupTypes.Proofs.Declaring
import MarkupTypes.Proofs.Reachability

/-!
# Runs

Every step of a compilation is a series of a few kinds of changes (`Compilation.Change`),
and so is a step that fails (`Compilation.leads_after`). What every change keeps is kept
by every run, in whatever order its steps come (`Compilation.Leads.invariant`).

Two facts are kept by all of them. A compilation only ever adds to what it had before
(`Compilation.Keeps`). And every type belongs to one rule or to one element, where a rule
has no types before it is declared (`Compilation.Numbered`), and afterwards the types that it
needs (`Compilation.Ordered`).
-/

namespace MarkupTypes

namespace RuleTable

variable {t : RuleTable} {id i : RuleId} {rule : Rule} {f : Rule → Rule}

theorem get?_modify_self (h : t.get? id = some rule) : (t.modify id f).get? id = some (f rule) := by
  have h' : t.rules[id]? = some rule := h
  simp [modify, get?, h']

theorem get?_modify_of_ne (h : i ≠ id) : (t.modify id f).get? i = t.get? i := by
  simp [modify, get?, Ne.symm h]

/-- A rule of a table in which one rule was changed. -/
theorem of_get?_modify (h : (t.modify id f).get? i = some rule) :
    ∃ old, t.get? i = some old ∧ rule = if i = id then f old else old := by
  by_cases hi : i = id
  · subst hi
    have h' : (t.get? i).map f = some rule := by simpa [modify, get?] using h
    obtain ⟨old, hold, rfl⟩ := Option.map_eq_some_iff.mp h'
    exact ⟨old, hold, by rw [if_pos rfl]⟩
  · rw [get?_modify_of_ne hi] at h
    exact ⟨rule, h, by rw [if_neg hi]⟩

/-- It is the rule that was changed, or it is as it was. -/
theorem get?_modify_cases (h : (t.modify id f).get? i = some rule) :
    (i = id ∧ ∃ old, t.get? i = some old ∧ rule = f old) ∨ (i ≠ id ∧ t.get? i = some rule) := by
  obtain ⟨old, hold, hchanged⟩ := of_get?_modify h
  by_cases hi : i = id
  · rw [if_pos hi] at hchanged
    exact .inl ⟨hi, old, hold, hchanged⟩
  · rw [if_neg hi] at hchanged
    exact .inr ⟨hi, hchanged ▸ hold⟩

end RuleTable

/-- How far a state is. -/
def RuleState.rank : RuleState → Nat
  | unprocessed => 0
  | declared => 1
  | generated => 2

namespace Compilation

/-- The compilation after a step, whether the step failed or not. -/
def after (c : Compilation) (step : Step) : Compilation := endState (perform step c)

/-- The compilation after steps, of which any may fail. -/
def afterAll (c : Compilation) (steps : List Step) : Compilation := steps.foldl after c

/-! ## What the steps do -/

section

variable (c : Compilation) (f : Trace.Tracer → Trace.Tracer)

@[simp] theorem order_mapTracer : (c.mapTracer f).order = c.order := rfl

@[simp] theorem rules_mapTracer : (c.mapTracer f).rules = c.rules := rfl

@[simp] theorem isInline_mapTracer : (c.mapTracer f).isInline = c.isInline := rfl

end

/-- The compilation with the type that documents start from. -/
def settleRoot (c : Compilation) : Compilation :=
  { c with draft := { c.draft with
      model := { c.draft.model with root := writerType c.rules c.entry } } }

/-- The compilation with a rule declared. -/
def declareRule (c : Compilation) (id : RuleId) (rule : Rule) : Compilation :=
  { c with rules := c.rules.modify id fun _ => (c.declared id rule).1
           draft := (c.declared id rule).2 }

/-- The compilation with a rule counted as generated. -/
def markGenerated (c : Compilation) (id : RuleId) : Compilation :=
  { c with rules := c.rules.modify id fun r => { r with state := .generated } }

theorem declare_eq (id : RuleId) (c : Compilation) :
    declare id c = match c.rules.get? id with
      | none => .error (unknownRule id) c
      | some rule =>
        if rule.state = .unprocessed then .ok true (c.declareRule id rule) else .ok false c := by
  simp only [declare, run_bind, run_get]
  cases c.rules.get? id with
  | none => rfl
  | some rule =>
    by_cases hstate : rule.state = .unprocessed <;> simp [hstate, declareRule]

theorem generate_eq (id : RuleId) (c : Compilation) :
    generate id c = match c.rules.get? id with
      | none => .error (unknownRule id) c
      | some rule => match rule.state with
        | .generated => .ok false c
        | .unprocessed => .error (.undeclared rule.displayName) c
        | .declared => match c.expansion.fillRule rule c.draft with
          | .ok _ d => .ok true (markGenerated { c with draft := d } id)
          | .error failure d =>
            .error (failure.inRule rule.displayName) { c with draft := d } := by
  simp only [generate, run_bind, run_get]
  cases c.rules.get? id with
  | none => rfl
  | some rule =>
    cases hstate : rule.state with
    | unprocessed => simp [hstate]
    | generated => simp [hstate]
    | declared =>
      cases hfill : c.expansion.fillRule rule c.draft <;>
        simp [hstate, onDraft, Drafting.inRule, hfill, markGenerated]

theorem declareAll_eq (c : Compilation) :
    declareAll c = match forEach declare c.order (c.mapTracer (·.startPhase .declare)) with
      | .ok _ c' => .ok () (c'.settleRoot.mapTracer Trace.Tracer.endPhase)
      | .error failure c' => .error failure c' := by
  simp only [declareAll, run_bind, run_get, run_modify, order_mapTracer]
  cases forEach declare c.order (c.mapTracer (·.startPhase .declare)) <;> rfl

theorem generateAll_eq (c : Compilation) :
    generateAll c = match forEach generate c.order (c.mapTracer (·.startPhase .generate)) with
      | .ok _ c' => .ok () (c'.mapTracer Trace.Tracer.endPhase)
      | .error failure c' => .error failure c' := by
  simp only [generateAll, run_bind, run_get, run_modify, order_mapTracer]
  cases forEach generate c.order (c.mapTracer (·.startPhase .generate)) <;> rfl

theorem forEach_cons (step : RuleId → Compiling Bool) (id : RuleId) (ids : List RuleId)
    (c : Compilation) : forEach step (id :: ids) c = match step id c with
      | .ok _ c' => forEach step ids c'
      | .error failure c' => .error failure c' := by
  simp only [forEach, run_bind]
  cases step id c <;> rfl

theorem finish_eq (c : Compilation) :
    finish c = match declareAll (prepare c) with
      | .ok _ c' => match generateAll c' with
        | .ok _ c'' => .ok c''.model c''
        | .error failure c'' => .error failure c''
      | .error failure c' => .error failure c' := by
  simp only [finish, run_bind, run_modify]
  cases declareAll (prepare c) with
  | error failure c' => rfl
  | ok _ c' =>
    simp only
    cases generateAll c' <;> rfl

section

variable {c c' : Compilation}

theorem exists_of_declareAll (h : declareAll c = .ok () c') : ∃ c₁ : Compilation,
    forEach declare c.order (c.mapTracer (·.startPhase .declare)) = .ok () c₁ ∧
      c' = c₁.settleRoot.mapTracer Trace.Tracer.endPhase := by
  rw [declareAll_eq] at h
  split at h
  · next c₁ hdeclare =>
    cases h
    exact ⟨c₁, hdeclare, rfl⟩
  · cases h

theorem exists_of_generateAll (h : generateAll c = .ok () c') : ∃ c₁ : Compilation,
    forEach generate c.order (c.mapTracer (·.startPhase .generate)) = .ok () c₁ ∧
      c' = c₁.mapTracer Trace.Tracer.endPhase := by
  rw [generateAll_eq] at h
  split at h
  · next c₁ hgenerate =>
    cases h
    exact ⟨c₁, hgenerate, rfl⟩
  · cases h

/-- Running all stages succeeds when every stage does. -/
theorem exists_of_finish {m : Model} (h : finish c = .ok m c') : ∃ c₁ : Compilation,
    declareAll c.prepare = .ok () c₁ ∧ generateAll c₁ = .ok () c' ∧ m = c'.model := by
  obtain ⟨_, _, ⟨⟩, hstages⟩ := of_run_bind h
  obtain ⟨_, c₁, hdeclare, hrest⟩ := of_run_bind hstages
  obtain ⟨_, c₂, hgenerate, hend⟩ := of_run_bind hrest
  cases hend
  exact ⟨c₁, hdeclare, hgenerate, rfl⟩

/-- Where a step for each of some rules succeeded, so did the first and then the others. -/
theorem of_forEach_cons {step : RuleId → Compiling Bool} {id : RuleId} {ids : List RuleId}
    (h : forEach step (id :: ids) c = .ok () c') :
    ∃ done c₁, step id c = .ok done c₁ ∧ forEach step ids c₁ = .ok () c' := of_run_bind h

/-- A rule is declared, or it was before. -/
theorem of_declare {id : RuleId} {done : Bool} (h : declare id c = .ok done c') :
    c' = c ∨ ∃ rule, c.rules.get? id = some rule ∧ rule.state = .unprocessed ∧
      c' = c.declareRule id rule := by
  rw [declare_eq] at h
  split at h
  · cases h
  · next rule hrule =>
    split at h
    · next hstate =>
      cases h
      exact .inr ⟨rule, hrule, hstate, rfl⟩
    · cases h
      exact .inl rfl

/-- The types of a rule are filled, or they were before. -/
theorem of_generate {id : RuleId} {done : Bool} (h : generate id c = .ok done c') :
    c' = c ∨ ∃ rule d, c.rules.get? id = some rule ∧ rule.state = .declared ∧
      Fills c.expansion rule.jobs c.draft (.ok () d) ∧
      c' = markGenerated { c with draft := d } id := by
  rw [generate_eq] at h
  cases hrule : c.rules.get? id with
  | none =>
    rw [hrule] at h
    cases h
  | some rule =>
    have hfills := Expansion.fills_fillRule (e := c.expansion) (RuleTable.mem_of_get? hrule) c.draft
    rw [hrule] at h
    simp only at h
    split at h
    · cases h
      exact .inl rfl
    · cases h
    · next hstate =>
      split at h
      · next d hend =>
        cases h
        rw [hend] at hfills
        exact .inr ⟨rule, d, rfl, hstate, hfills, rfl⟩
      · cases h

end

/-- Preparing a rule labels its references and may note that, or does nothing. -/
theorem prepareRule_cases (c : Compilation) (id : RuleId) :
    c.prepareRule id = c ∨ ∃ name f, c.prepareRule id = mapTracer
      { c with rules := c.rules.modify id fun r =>
        { r with pattern := r.pattern.map (labelled name) } } f := by
  unfold prepareRule
  split
  · exact .inl rfl
  · split
    · exact .inl rfl
    · simp only
      split
      · exact .inr ⟨_, _, rfl⟩
      · exact .inr ⟨_, fun tracer => tracer, rfl⟩

/-! ## Changes -/

/-- The changes that steps are made of. -/
inductive Change : Compilation → Compilation → Prop
  | trace {c} (f : Trace.Tracer → Trace.Tracer) : Change c (c.mapTracer f)
  | label {c} (id : RuleId) (name : String) :
    Change c { c with rules := c.rules.modify id fun r =>
      { r with pattern := r.pattern.map (labelled name) } }
  | declare {c id rule} (hrule : c.rules.get? id = some rule) (hstate : rule.state = .unprocessed) :
    Change c (c.declareRule id rule)
  | root {c} : Change c c.settleRoot
  | fill {c id rule r} (hrule : c.rules.get? id = some rule) (hstate : rule.state = .declared)
    (hfill : Fills c.expansion rule.jobs c.draft r) : Change c { c with draft := endState r }
  | generated {c id rule} (hrule : c.rules.get? id = some rule) (hstate : rule.state = .declared) :
    Change c (c.markGenerated id)

/-- A compilation gets to another by changes. -/
def Leads : Compilation → Compilation → Prop := Relation.ReflTransGen Change

variable {c c' : Compilation}

theorem leads_prepareRule (c : Compilation) (id : RuleId) : Leads c (c.prepareRule id) := by
  obtain h | ⟨name, f, h⟩ := prepareRule_cases c id <;> rw [h]
  · exact .refl
  · exact (Relation.ReflTransGen.single (.label id name)).tail (.trace f)

theorem leads_foldl_prepareRule : ∀ (ids : List RuleId) (c : Compilation),
    Leads c (ids.foldl prepareRule c)
  | [], _ => .refl
  | id :: ids, c => (leads_prepareRule c id).trans (leads_foldl_prepareRule ids _)

theorem leads_prepare (c : Compilation) : Leads c c.prepare := by
  have hbegin : Leads c (c.mapTracer (·.startPhase .prepare)) := .single (.trace _)
  exact (hbegin.trans (leads_foldl_prepareRule _ _)).tail (.trace _)

theorem leads_declare (id : RuleId) (c : Compilation) : Leads c (endState (declare id c)) := by
  rw [declare_eq]
  cases hrule : c.rules.get? id with
  | none => exact .refl
  | some rule =>
    simp only
    split
    · next hstate => exact .single (.declare hrule hstate)
    · exact .refl

theorem leads_generate (id : RuleId) (c : Compilation) : Leads c (endState (generate id c)) := by
  rw [generate_eq]
  cases hrule : c.rules.get? id with
  | none => exact .refl
  | some rule =>
    simp only
    cases hstate : rule.state with
    | unprocessed => exact .refl
    | generated => exact .refl
    | declared =>
      have hfills :=
        Expansion.fills_fillRule (e := c.expansion) (RuleTable.mem_of_get? hrule) c.draft
      have hfill : Leads c { c with draft := endState (c.expansion.fillRule rule c.draft) } :=
        .single (.fill hrule hstate hfills)
      simp only
      cases hend : c.expansion.fillRule rule c.draft with
      | error failure d => rwa [hend] at hfill
      | ok _ d =>
        rw [hend] at hfill
        exact hfill.tail (.generated hrule hstate)

theorem leads_forEach {step : RuleId → Compiling Bool}
    (hstep : ∀ id c, Leads c (endState (step id c))) : ∀ (ids : List RuleId) (c : Compilation),
    Leads c (endState (forEach step ids c))
  | [], _ => .refl
  | id :: ids, c => by
    have hfirst := hstep id c
    rw [forEach_cons]
    cases hend : step id c with
    | error failure c' => rwa [hend] at hfirst
    | ok _ c' =>
      rw [hend] at hfirst
      exact hfirst.trans (leads_forEach hstep ids c')

theorem leads_declareAll (c : Compilation) : Leads c (endState (declareAll c)) := by
  have hbegin : Leads c (c.mapTracer (·.startPhase .declare)) := .single (.trace _)
  have hrules := hbegin.trans (leads_forEach leads_declare c.order _)
  rw [declareAll_eq]
  cases hend : forEach declare c.order (c.mapTracer (·.startPhase .declare)) with
  | error failure c' => rwa [hend] at hrules
  | ok _ c' =>
    rw [hend] at hrules
    exact (hrules.tail .root).tail (.trace _)

theorem leads_generateAll (c : Compilation) : Leads c (endState (generateAll c)) := by
  have hbegin : Leads c (c.mapTracer (·.startPhase .generate)) := .single (.trace _)
  have hrules := hbegin.trans (leads_forEach leads_generate c.order _)
  rw [generateAll_eq]
  cases hend : forEach generate c.order (c.mapTracer (·.startPhase .generate)) with
  | error failure c' => rwa [hend] at hrules
  | ok _ c' =>
    rw [hend] at hrules
    exact hrules.tail (.trace _)

theorem leads_finish {m : Model} (h : finish c = .ok m c') : Leads c c' := by
  obtain ⟨c₁, hdeclare, hgenerate, -⟩ := exists_of_finish h
  have hdeclared := leads_declareAll c.prepare
  have hgenerated := leads_generateAll c₁
  rw [hdeclare] at hdeclared
  rw [hgenerate] at hgenerated
  exact ((leads_prepare c).trans hdeclared).trans hgenerated

/-- Every step is a series of changes. -/
theorem leads_after (c : Compilation) (step : Step) : Leads c (c.after step) := by
  unfold after
  cases step with
  | prepare => exact leads_prepare c
  | declare id => exact leads_declare id c
  | generate id => exact leads_generate id c
  | declareAll =>
    have h := leads_declareAll c
    simp only [perform, run_bind]
    cases hend : declareAll c <;> rwa [hend] at h
  | generateAll =>
    have h := leads_generateAll c
    simp only [perform, run_bind]
    cases hend : generateAll c <;> rwa [hend] at h

theorem leads_afterAll : ∀ (steps : List Step) (c : Compilation), Leads c (c.afterAll steps)
  | [], _ => .refl
  | step :: steps, c => (leads_after c step).trans (leads_afterAll steps (c.after step))

/-- What every change keeps is kept on the way. -/
theorem Leads.invariant {P : Compilation → Prop} (hchange : ∀ {c c'}, Change c c' → P c → P c')
    (h : Leads c c') (hc : P c) : P c' := by
  induction h with
  | refl => exact hc
  | tail _ hlast ih => exact hchange hlast ih

/-! ## What a compilation had before -/

/-- A compilation that adds to another : what was fixed is the same, types have grown, and
rules have come further. -/
structure Keeps (c c' : Compilation) : Prop where
  entry : c'.entry = c.entry
  order : c'.order = c.order
  inline : c'.inline = c.inline
  options : c'.options = c.options
  skeleton : c'.rules.skeleton = c.rules.skeleton
  grows : c.model.Grows c'.model
  states : ∀ id rule, c.rules.get? id = some rule →
    ∃ rule', c'.rules.get? id = some rule' ∧ rule.state.rank ≤ rule'.state.rank

namespace Keeps

variable {c c' c'' : Compilation}

/-- A change that leaves the rules as they are. -/
theorem of_draft (c : Compilation) {d : Draft} (h : c.model.Grows d.model) :
    Keeps c { c with draft := d } :=
  ⟨rfl, rfl, rfl, rfl, rfl, h, fun _ rule hrule => ⟨rule, hrule, Nat.le_refl _⟩⟩

/-- A change of one rule. -/
theorem of_modify (c : Compilation) {id : RuleId} {f : Rule → Rule} {d : Draft}
    (hf : ∀ rule, c.rules.get? id = some rule →
      (f rule).skeleton = rule.skeleton ∧ rule.state.rank ≤ (f rule).state.rank)
    (h : c.model.Grows d.model) : Keeps c { c with rules := c.rules.modify id f, draft := d } where
  entry := rfl
  order := rfl
  inline := rfl
  options := rfl
  skeleton := RuleTable.skeleton_modify fun rule hrule => (hf rule hrule).1
  grows := h
  states i rule hrule := by
    by_cases hi : i = id
    · subst hi
      exact ⟨f rule, RuleTable.get?_modify_self hrule, (hf rule hrule).2⟩
    · exact ⟨rule, by rwa [RuleTable.get?_modify_of_ne hi], Nat.le_refl _⟩

theorem refl (c : Compilation) : Keeps c c := of_draft c (.refl _)

theorem trans (h : Keeps c c') (h' : Keeps c' c'') : Keeps c c'' where
  entry := h'.entry.trans h.entry
  order := h'.order.trans h.order
  inline := h'.inline.trans h.inline
  options := h'.options.trans h.options
  skeleton := h'.skeleton.trans h.skeleton
  grows := h.grows.trans h'.grows
  states id rule hrule := by
    obtain ⟨rule', hrule', hle⟩ := h.states id rule hrule
    obtain ⟨rule'', hrule'', hle'⟩ := h'.states id rule' hrule'
    exact ⟨rule'', hrule'', Nat.le_trans hle hle'⟩

/-- Which rules are inline can still be read off the rules. -/
theorem inline_eq (h : Keeps c c') (hinline : c.inline = c.rules.rules.map Rule.isInline) :
    c'.inline = c'.rules.rules.map Rule.isInline := by
  rw [h.inline, hinline, ← c.rules.map_isInline_skeleton, ← h.skeleton,
    c'.rules.map_isInline_skeleton]

theorem isInline (h : Keeps c c') : c'.isInline = c.isInline := by
  funext id
  rw [Compilation.isInline, Compilation.isInline, h.inline]

end Keeps

/-- Every change adds to what there was. -/
theorem keeps_of_change (h : Change c c') : Keeps c c' := by
  cases h with
  | trace f => exact .of_draft c (.refl _)
  | label id name =>
    refine .of_modify c (fun rule _ => ⟨?_, Nat.le_refl _⟩) (.refl _)
    cases hp : rule.pattern <;> simp [Rule.skeleton, hp, Pattern.skeleton_labelled]
  | @declare id rule hrule hstate =>
    refine .of_modify c (fun rule' hrule' => ?_) declares_declared.grows
    obtain rfl : rule = rule' := Option.some.inj (hrule.symm.trans hrule')
    refine ⟨skeleton_declared, ?_⟩
    rw [hstate]
    exact Nat.zero_le _
  | root => exact .of_draft c fun _ T hT => ⟨T, hT, .refl T⟩
  | fill hrule hstate hfill => exact .of_draft c (hfill.frame 0).grows
  | @generated id rule hrule hstate =>
    refine .of_modify c (fun rule' hrule' => ?_) (.refl _)
    obtain rfl : rule = rule' := Option.some.inj (hrule.symm.trans hrule')
    refine ⟨rfl, ?_⟩
    rw [hstate]
    exact Nat.le_succ _

theorem Leads.keeps (h : Leads c c') : Keeps c c' := by
  induction h with
  | refl => exact .refl c
  | tail _ hlast ih => exact ih.trans (keeps_of_change hlast)

/-! ## Types and their owners -/

/-- Every type belongs to one rule or to one element. A rule has no types before it is declared,
and where it has types, it has those that it needs. -/
structure Numbered (c : Compilation) : Prop where
  types : c.rules.types.Perm (List.range c.model.size)
  unprocessed : ∀ id rule, c.rules.get? id = some rule → rule.state = .unprocessed →
    rule.types = []
  needed : ∀ id rule, c.rules.get? id = some rule → rule.types ≠ [] →
    rule.Declared c.rules c.isInline c.model id

/-- Besides, a rule has the types that it needs once it has been declared. -/
structure Ordered (c : Compilation) : Prop extends Numbered c where
  declared : ∀ id rule, c.rules.get? id = some rule → rule.state ≠ .unprocessed →
    rule.Declared c.rules c.isInline c.model id

theorem types_labelled (name : String) (rule : Rule) :
    ({ rule with pattern := rule.pattern.map (labelled name) } : Rule).types = rule.types := by
  cases hp : rule.pattern with
  | none => simp [Rule.types, Rule.elements, hp]
  | some p =>
    cases p <;>
      simp [Rule.types, Rule.elements, hp, labelled, Pattern.elements, elementTypes,
        List.filterMap_cons]

/-- The elements of a pattern that got a label, but for labels. -/
theorem mem_elements_labelled {name : String} {p : Pattern} {x : ElementTag × Pattern}
    (hx : x ∈ (labelled name p).elements) :
    ∃ y ∈ p.elements, x.1.name = y.1.name ∧ x.1.output = y.1.output ∧ x.2 = y.2 := by
  cases p with
  | elem m tag content =>
    rcases List.mem_cons.mp hx with rfl | hx
    · exact ⟨(tag, content), List.mem_cons_self, rfl, rfl, rfl⟩
    · exact ⟨x, List.mem_cons_of_mem _ hx, rfl, rfl, rfl⟩
  | _ => exact ⟨x, hx, rfl, rfl, rfl⟩

theorem declared_labelled {t : RuleTable} {isInline : RuleId → Bool} {m : Model} {id : RuleId}
    {rule : Rule} (name : String) (h : rule.Declared t isInline m id) :
    ({ rule with pattern := rule.pattern.map (labelled name) } : Rule).Declared
      t isInline m id where
  inline := h.inline
  typed := h.typed
  elements x hx := by
    cases hp : rule.pattern with
    | none => simp [Rule.elements, hp] at hx
    | some p =>
      have hx' : x ∈ (labelled name p).elements := by simpa [Rule.elements, hp] using hx
      obtain ⟨y, hy, hname, houtput, hcontent⟩ := mem_elements_labelled hx'
      have hprovides := h.elements y (by rwa [Rule.elements, hp])
      rw [houtput]
      exact hprovides.of_skeleton hname (congrArg Pattern.skeleton hcontent)

/-- The types of a table in which a rule without types has got some. -/
theorem types_modify {t : RuleTable} {id : RuleId} {rule : Rule} {f : Rule → Rule}
    (hrule : t.get? id = some rule) (hnone : rule.types = []) :
    (t.modify id f).types.Perm (t.types ++ (f rule).types) := by
  obtain ⟨before, old, after, hrules, hlength, hmodify⟩ :=
    List.exists_of_modify f (RuleTable.lt_size_of_get? hrule)
  have hget : t.rules[id]? = some rule := hrule
  obtain rfl : old = rule := by simpa [hrules, ← hlength] using hget
  have hbefore : t.types = before.flatMap Rule.types ++ after.flatMap Rule.types := by
    simp [RuleTable.types, hrules, hnone]
  have hafter : (t.modify id f).types =
      before.flatMap Rule.types ++ ((f old).types ++ after.flatMap Rule.types) := by
    simp [RuleTable.types, RuleTable.modify, hmodify]
  rw [hbefore, hafter, List.append_assoc]
  exact (List.perm_append_comm).append_left _

theorem types_modify_of_eq {t : RuleTable} {id : RuleId} {f : Rule → Rule}
    (hf : ∀ rule, t.get? id = some rule → (f rule).types = rule.types) :
    (t.modify id f).types = t.types := by
  have hmap := RuleTable.map_modify hf
  simp only [RuleTable.types, List.flatMap_def, hmap]

/-- Where a rule comes from : it was there with the same types, declared already if it is declared
now, or it has just been declared. -/
theorem Change.rule_cases (h : Change c c') {id : RuleId} {rule : Rule}
    (hrule : c'.rules.get? id = some rule) :
    (∃ old, c.rules.get? id = some old ∧ rule.types = old.types ∧
      (rule.state = .unprocessed ↔ old.state = .unprocessed) ∧
      (old.Declared c.rules c.isInline c.model id →
        rule.Declared c'.rules c'.isInline c'.model id)) ∨
    rule.state ≠ .unprocessed ∧ rule.Declared c'.rules c'.isInline c'.model id := by
  have hkeeps := keeps_of_change h
  have hmono : ∀ r : Rule, r.Declared c.rules c.isInline c.model id →
      r.Declared c'.rules c'.isInline c'.model id := fun r hr => by
    rw [hkeeps.isInline]
    exact hr.mono hkeeps.grows hkeeps.skeleton
  cases h with
  | trace | root | fill => exact .inl ⟨rule, hrule, rfl, Iff.rfl, hmono rule⟩
  | label i name =>
    obtain ⟨rfl, old, hold, rfl⟩ | ⟨-, hold⟩ := RuleTable.get?_modify_cases hrule
    · exact .inl ⟨old, hold, types_labelled name old, Iff.rfl,
        fun hdeclared => hmono _ (declared_labelled name hdeclared)⟩
    · exact .inl ⟨rule, hold, rfl, Iff.rfl, hmono rule⟩
  | @generated i before hbefore hstate =>
    obtain ⟨rfl, old, hold, rfl⟩ | ⟨-, hold⟩ := RuleTable.get?_modify_cases hrule
    · obtain rfl : before = old := Option.some.inj (hbefore.symm.trans hold)
      refine .inl ⟨before, hold, rfl, ?_, fun hdeclared =>
        hmono _ ⟨hdeclared.inline, hdeclared.typed, hdeclared.elements⟩⟩
      simp [hstate]
    · exact .inl ⟨rule, hold, rfl, Iff.rfl, hmono rule⟩
  | declare hbefore hstate =>
    obtain ⟨rfl, _, -, rfl⟩ | ⟨-, hold⟩ := RuleTable.get?_modify_cases hrule
    · refine .inr ⟨?_, declared_declared.mono (.refl _) hkeeps.skeleton⟩
      rw [state_declared]
      exact nofun
    · exact .inl ⟨rule, hold, rfl, Iff.rfl, hmono rule⟩

/-- The types of a rule that is declared are numbered on from those that there were. -/
theorem Numbered.types_declareRule (h : Numbered c) {id : RuleId} {rule : Rule}
    (hrule : c.rules.get? id = some rule) (hstate : rule.state = .unprocessed) :
    (c.declareRule id rule).rules.types.Perm
      (List.range (c.declareRule id rule).model.size) := by
  have hperm := types_modify (f := fun _ => (c.declared id rule).1) hrule
    (h.unprocessed id rule hrule hstate)
  have hsize : c.model.size ≤ (c.declared id rule).2.model.size := declares_declared.size
  have hrange := List.range'_append_1 (s := 0) (m := c.model.size)
    (n := (c.declared id rule).2.model.size - c.model.size)
  rw [Nat.zero_add, Nat.add_sub_cancel' hsize, ← List.range_eq_range',
    ← List.range_eq_range'] at hrange
  rw [types_declared] at hperm
  exact (hperm.trans (h.types.append_right _)).trans (.of_eq hrange)

theorem Numbered.change (h : Numbered c) (hchange : Change c c') : Numbered c' where
  types := by
    cases hchange with
    | trace | root => exact h.types
    | @fill _ _ r _ _ hfill =>
      change c.rules.types.Perm (List.range (endState r).model.size)
      rw [(hfill.frame 0).size]
      exact h.types
    | label id name =>
      rw [types_modify_of_eq fun rule _ => types_labelled name rule]
      exact h.types
    | @generated id =>
      have htypes : (c.markGenerated id).rules.types = c.rules.types :=
        types_modify_of_eq (f := fun r => { r with state := .generated }) fun _ _ => rfl
      rw [htypes]
      exact h.types
    | declare hrule hstate => exact h.types_declareRule hrule hstate
  unprocessed id rule hrule hstate := by
    obtain ⟨old, hold, htypes, hiff, -⟩ | ⟨hne, -⟩ := hchange.rule_cases hrule
    · rw [htypes]
      exact h.unprocessed id old hold (hiff.mp hstate)
    · exact absurd hstate hne
  needed id rule hrule hne := by
    obtain ⟨old, hold, htypes, -, hdeclared⟩ | ⟨-, hdeclared⟩ := hchange.rule_cases hrule
    · exact hdeclared (h.needed id old hold (htypes ▸ hne))
    · exact hdeclared

theorem Ordered.change (h : Ordered c) (hchange : Change c c') : Ordered c' where
  toNumbered := h.toNumbered.change hchange
  declared id rule hrule hstate := by
    obtain ⟨old, hold, -, hiff, hdeclared⟩ | ⟨-, hdeclared⟩ := hchange.rule_cases hrule
    · exact hdeclared (h.declared id old hold (mt hiff.mpr hstate))
    · exact hdeclared

theorem Numbered.nodup (h : Numbered c) : c.rules.types.Nodup :=
  h.types.nodup_iff.mpr List.nodup_range

theorem Numbered.lt_size (h : Numbered c) {type : TypeId} (htype : type ∈ c.rules.types) :
    type < c.model.size :=
  List.mem_range.mp (h.types.mem_iff.mp htype)

/-- A rule with types has been declared. -/
theorem Numbered.declared_of_mem_types (h : Numbered c) {id : RuleId} {rule : Rule} {type : TypeId}
    (hrule : c.rules.get? id = some rule) (htype : type ∈ rule.types) :
    rule.state ≠ .unprocessed ∧ rule.Declared c.rules c.isInline c.model id := by
  have hstate : rule.state ≠ .unprocessed := fun hstate => by
    rw [h.unprocessed id rule hrule hstate] at htype
    cases htype
  exact ⟨hstate, h.needed id rule hrule (List.ne_nil_of_mem htype)⟩

theorem Numbered.hasOrigin_of_output (h : Numbered c) {id : RuleId} {rule : Rule} {type : TypeId}
    (hrule : c.rules.get? id = some rule) (houtput : rule.output = some type) :
    c.model.HasOrigin type (.rule rule.key) := by
  have hmem : type ∈ rule.types := by
    rw [Rule.types, houtput]
    exact List.mem_cons_self
  obtain ⟨-, hdeclared⟩ := h.declared_of_mem_types hrule hmem
  cases hinline : c.isInline id with
  | true =>
    rw [hdeclared.inline hinline] at houtput
    cases houtput
  | false =>
    obtain ⟨type', houtput', horigin⟩ := hdeclared.typed hinline
    obtain rfl := Option.some.inj (houtput'.symm.trans houtput)
    exact horigin

/-- An element with a type needs it. -/
theorem Numbered.provides (h : Numbered c) {x : ElementTag × Pattern} {type : TypeId}
    (hx : x ∈ c.rules.elements) (houtput : x.1.output = some type) :
    c.rules.Provides c.isInline c.model x (some type) := by
  obtain ⟨id, rule, hrule, hx⟩ := RuleTable.mem_elements.mp hx
  have hmem : type ∈ rule.types :=
    List.mem_append_right _ (mem_elementTypes.mpr ⟨x, hx, houtput⟩)
  obtain ⟨-, hdeclared⟩ := h.declared_of_mem_types hrule hmem
  rw [← houtput]
  exact hdeclared.elements x hx

theorem Leads.ordered (h : Leads c c') (hc : Ordered c) : Ordered c' :=
  h.invariant (fun hchange hbefore => hbefore.change hchange) hc

end Compilation

/-! ## Tables that nothing was done with -/

/-- Nothing has been done with a rule : it has no types. -/
def Rule.Fresh (r : Rule) : Prop := r.state = .unprocessed ∧ r.types = []

/-- Nothing has been done with the rules of a table. -/
def RuleTable.Fresh (t : RuleTable) : Prop := ∀ rule ∈ t.rules, rule.Fresh

instance (r : Rule) : Decidable r.Fresh := inferInstanceAs (Decidable (_ ∧ _))

instance (t : RuleTable) : Decidable t.Fresh :=
  inferInstanceAs (Decidable (∀ rule ∈ t.rules, rule.Fresh))

theorem RuleTable.Fresh.types {t : RuleTable} (h : t.Fresh) : t.types = [] :=
  List.flatMap_eq_nil_iff.mpr fun rule hrule => (h rule hrule).2

/-- A document with items that hold items, where an item takes the members of another rule
besides its own. -/
def RuleTable.nestedItems : RuleTable :=
  ⟨[(Rule.mentioned rootScope startName).define
      (.ofElement (.unqualified "doc")
        (.union .plain [.ofRule 1, .ofAttribute (.unqualified "id") .text])) none,
    (Rule.mentioned rootScope "item").define
      (.ofElement (.unqualified "item")
        (.union .plain [.ofRule 1, .ofRule 2, .ofAttribute (.unqualified "n") .text])) none,
    (Rule.mentioned rootScope "common").define
      (.union .plain [.ofAttribute (.unqualified "id") .text,
        .ofAttribute (.unqualified "lang") .text]) none]⟩

namespace Compilation

variable {t : RuleTable} {entry : RuleId} {options : CompileOptions} {tracer : Trace.Tracer}
  {c c' : Compilation}

/-- Labels and types apart, the rules stay those that the compilation was started with. -/
theorem Started.skeleton_eq (h : Started t entry options tracer c) (hleads : Leads c c') :
    c'.rules.skeleton = t.skeleton := by
  rw [← h.rules_eq]
  exact hleads.keeps.skeleton

/-- Where no rule and no element has a type, it does not matter what states rules are in. -/
theorem Started.numbered (h : Started t entry options tracer c) (hnone : t.types = []) :
    Numbered c := by
  have hrules : ∀ id rule, c.rules.get? id = some rule → rule.types = [] := by
    intro id rule hrule
    rw [h.rules_eq] at hrule
    exact List.flatMap_eq_nil_iff.mp hnone rule (RuleTable.mem_of_get? hrule)
  refine ⟨?_, fun id rule hrule _ => hrules id rule hrule,
    fun id rule hrule hne => absurd (hrules id rule hrule) hne⟩
  have hsize : c.model.size = 0 := by rw [model, h.draft_eq]; rfl
  rw [h.rules_eq, hnone, hsize]
  exact .refl _

theorem Started.ordered (h : Started t entry options tracer c) (hfresh : t.Fresh) :
    Ordered c where
  toNumbered := h.numbered hfresh.types
  declared id rule hrule hstate := by
    rw [h.rules_eq] at hrule
    exact absurd (hfresh rule (RuleTable.mem_of_get? hrule)).1 hstate

end Compilation

end MarkupTypes
