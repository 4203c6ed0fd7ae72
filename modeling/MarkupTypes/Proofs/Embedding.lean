import MarkupTypes.Proofs.Renumbering

/-!
# Compilations of renumbered rules

What a compilation comes to does not depend on the indices of its rules, nor on rules that its
entry does not reach (`Compilation.runAll_eq`). Two compilations of rules and of their copies
find the same rules in the same order (`RuleTable.Embeds.reachable_eq`), and then keep in step
(`Compilation.Mirrors`) : each stage does the same to both, fails for both or for neither, and
leaves both with the same types and the same trace (`Compilation.Agrees`).
-/

namespace MarkupTypes

namespace RuleTable

variable {f : RuleId → RuleId} {dom : RuleId → Prop} {t t' : RuleTable} {entry : RuleId}
  {xs : List (RuleId × Option Location)} {found : List RuleId}
  {r : Except (RuleId × Option Location) (List RuleId)}

/-! ## Finding rules -/

/-- The end of a walk over references, with a change of the rules that it has come to. -/
def mapEnd (f : RuleId → RuleId) : Except (RuleId × Option Location) (List RuleId) →
    Except (RuleId × Option Location) (List RuleId)
  | .ok found => .ok (found.map f)
  | .error stop => .error (Prod.map f id stop)

/-- The rules that a walk over references has come to are of a domain. -/
def EndsIn (dom : RuleId → Prop) : Except (RuleId × Option Location) (List RuleId) → Prop
  | .ok found => ∀ id ∈ found, dom id
  | .error stop => dom stop.1

/-- There are the same walks over references. -/
theorem Embeds.traverses (h : t.Embeds f dom t') (htraverses : t.Traverses xs found r)
    (hxs : ∀ x ∈ xs, dom x.1) (hfound : ∀ id ∈ found, dom id) :
    t'.Traverses (xs.map (Prod.map f id)) (found.map f) (mapEnd f r) ∧ EndsIn dom r := by
  induction htraverses with
  | nil => exact ⟨.nil, hfound⟩
  | seen hmem _ ih =>
    obtain ⟨-, hrest⟩ := List.forall_mem_cons.mp hxs
    obtain ⟨htail, hend⟩ := ih hrest hfound
    exact ⟨.seen (List.mem_map_of_mem hmem) htail, hend⟩
  | undefined hnew hrule hp =>
    obtain ⟨hid, -⟩ := List.forall_mem_cons.mp hxs
    obtain ⟨rule', hrule', hcopies⟩ := h.get? hid hrule
    have hnew' := fun hmem => hnew ((h.mem_map_iff hfound hid).mp hmem)
    have hp' : rule'.pattern = none := by rw [hcopies.pattern, hp]; rfl
    exact ⟨.undefined hnew' hrule' hp', hid⟩
  | @enter id location _ found rule p inner _ hnew hrule hp _ _ ihbody ih =>
    obtain ⟨hid, hrest⟩ := List.forall_mem_cons.mp hxs
    obtain ⟨rule', hrule', hcopies⟩ := h.get? hid hrule
    have hnew' := fun hmem => hnew ((h.mem_map_iff hfound hid).mp hmem)
    have hp' : rule'.pattern = some (p.mapRules f) := by rw [hcopies.pattern, hp]; rfl
    have hrefs : rule.refs = p.refs := by rw [Rule.refs, hp]
    obtain ⟨hbody, hinner⟩ := ihbody (fun x hx => h.closed id rule hid hrule x (hrefs ▸ hx))
      (List.forall_mem_append.mpr ⟨hfound, List.forall_mem_singleton.mpr hid⟩)
    obtain ⟨htail, hend⟩ := ih hrest hinner
    rw [← p.refs_mapRules f, List.map_append] at hbody
    exact ⟨.enter hnew' hrule' hp' hbody htail, hend⟩
  | @stops id location _ found rule p stop hnew hrule hp _ ihbody =>
    obtain ⟨hid, -⟩ := List.forall_mem_cons.mp hxs
    obtain ⟨rule', hrule', hcopies⟩ := h.get? hid hrule
    have hnew' := fun hmem => hnew ((h.mem_map_iff hfound hid).mp hmem)
    have hp' : rule'.pattern = some (p.mapRules f) := by rw [hcopies.pattern, hp]; rfl
    have hrefs : rule.refs = p.refs := by rw [Rule.refs, hp]
    obtain ⟨hbody, hend⟩ := ihbody (fun x hx => h.closed id rule hid hrule x (hrefs ▸ hx))
      (List.forall_mem_append.mpr ⟨hfound, List.forall_mem_singleton.mpr hid⟩)
    rw [← p.refs_mapRules f, List.map_append] at hbody
    exact ⟨.stops hnew' hrule' hp' hbody, hend⟩

end RuleTable

theorem Rule.Copies.labelled {f : RuleId → RuleId} {r r' : Rule} (h : r.Copies f r')
    (name : String) :
    ({ r with pattern := r.pattern.map (Compilation.labelled name) } : Rule).Copies f
      { r' with pattern := r'.pattern.map (Compilation.labelled name) } where
  scope := h.scope
  name := h.name
  output := h.output
  state := h.state
  pattern := by
    simp only [h.pattern, Option.map_map]
    exact congrArg (Option.map · r.pattern) (funext fun p => p.labelled_mapRules f name)

namespace Compilation

variable {f : RuleId → RuleId} {dom : RuleId → Prop} {c c' : Compilation} {id : RuleId}
  {rule rule' : Rule} {α β : Type}

/-! ## Compilations in step -/

/-- A compilation and another of copies of its rules, which have come to the same. -/
structure Mirrors (f : RuleId → RuleId) (dom : RuleId → Prop) (c c' : Compilation) : Prop where
  entry : c'.entry = f c.entry
  order : c'.order = c.order.map f
  options : c'.options = c.options
  draft : c'.draft = c.draft
  inline : ∀ id, dom id → c'.isInline (f id) = c.isInline id
  rules : c.rules.Embeds f dom c'.rules
  begun : dom c.entry
  within : ∀ id ∈ c.order, dom id

namespace Mirrors

theorem onDraft (h : Mirrors f dom c c') (d : Draft) :
    Mirrors f dom { c with draft := d } { c' with draft := d } :=
  ⟨h.entry, h.order, h.options, rfl, h.inline, h.rules, h.begun, h.within⟩

/-- A change of a rule and of its copy. -/
theorem modify (h : Mirrors f dom c c') (hid : dom id) (g g' : Rule → Rule)
    (hg : ∀ rule rule', c.rules.get? id = some rule → rule.Copies f rule' →
      (g rule).Copies f (g' rule') ∧ (g rule).skeleton = rule.skeleton) :
    Mirrors f dom { c with rules := c.rules.modify id g }
      { c' with rules := c'.rules.modify (f id) g' } :=
  ⟨h.entry, h.order, h.options, h.draft, h.inline, h.rules.modify hid hg, h.begun, h.within⟩

theorem mapTracer (h : Mirrors f dom c c') (g : Trace.Tracer → Trace.Tracer) :
    Mirrors f dom (c.mapTracer g) (c'.mapTracer g) := by
  rw [Compilation.mapTracer, Compilation.mapTracer, h.draft]
  exact h.onDraft _

theorem model_eq (h : Mirrors f dom c c') : c'.model = c.model := by rw [model, model, h.draft]

theorem expansion (h : Mirrors f dom c c') : c.expansion.Embeds f dom c'.expansion :=
  ⟨h.rules, h.inline, by rw [Compilation.expansion, Compilation.expansion, h.options]⟩

/-! ### Preparing -/

theorem displayNameOf_eq (h : Mirrors f dom c c') (hid : dom id) :
    c'.displayNameOf (f id) = c.displayNameOf id := by
  obtain ⟨rule, rule', hrule, hrule', hcopies⟩ := h.rules.rule id hid
  simp only [displayNameOf, hrule, hrule', hcopies.displayName]

theorem prepareRule (h : Mirrors f dom c c') (hid : dom id) :
    Mirrors f dom (c.prepareRule id) (c'.prepareRule (f id)) := by
  obtain ⟨rule, rule', hrule, hrule', hcopies⟩ := h.rules.rule id hid
  have hlabelled := h.modify hid
    (fun r => { r with pattern := r.pattern.map (labelled rule.name) })
    (fun r => { r with pattern := r.pattern.map (labelled rule.name) })
    fun r r' _ hr => by
      refine ⟨hr.labelled rule.name, ?_⟩
      cases hp : r.pattern <;> simp [Rule.skeleton, hp, Pattern.skeleton_labelled]
  simp only [Compilation.prepareRule, hrule, hrule', h.inline id hid, hcopies.isStart,
    hcopies.name]
  by_cases hskip : (!c.isInline id || rule.isStart) = true
  · rw [if_pos hskip, if_pos hskip]
    exact h
  · rw [if_neg hskip, if_neg hskip, hcopies.pattern]
    cases hp : rule.pattern with
    | none => exact hlabelled
    | some p =>
      cases p with
      | ref m target label =>
        cases label with
        | some label => exact hlabelled
        | none =>
          have hmem : (target, m.location) ∈ rule.refs := by
            rw [Rule.refs, hp]
            exact List.mem_cons_self
          have htarget := h.rules.closed id rule hid hrule _ hmem
          simp only [Option.map_some, Pattern.mapRules, h.displayNameOf_eq htarget]
          exact hlabelled.mapTracer _
      | _ => exact hlabelled

theorem foldl_prepareRule : ∀ (ids : List RuleId) {c c' : Compilation}, Mirrors f dom c c' →
    (∀ id ∈ ids, dom id) →
    Mirrors f dom (ids.foldl Compilation.prepareRule c)
      ((ids.map f).foldl Compilation.prepareRule c')
  | [], _, _, h, _ => h
  | _ :: ids, _, _, h, hids => by
    obtain ⟨hid, hrest⟩ := List.forall_mem_cons.mp hids
    exact foldl_prepareRule ids (h.prepareRule hid) hrest

theorem prepare (h : Mirrors f dom c c') : Mirrors f dom c.prepare c'.prepare := by
  have hbegin := h.mapTracer (·.startPhase .prepare)
  have hlabels := foldl_prepareRule _ hbegin hbegin.within
  rw [← hbegin.order] at hlabels
  exact hlabels.mapTracer Trace.Tracer.endPhase

/-! ### Declaring -/

theorem declareElements_eq (h : Mirrors f dom c c') : ∀ (xs : List (ElementTag × Pattern))
    (d : Draft), (∀ x ∈ xs, ∀ y ∈ x.2.refs, dom y.1) →
    c'.declareElements (xs.map (Prod.map (fun tag => tag) (Pattern.mapRules f))) d =
      c.declareElements xs d
  | [], _, _ => rfl
  | (tag, content) :: rest, d, hxs => by
    obtain ⟨hfirst, hrest⟩ := List.forall_mem_cons.mp hxs
    have hcontent : c'.rules.contentOf c'.isInline (content.mapRules f) = .structured ↔
        c.rules.contentOf c.isInline content = .structured := by
      rw [h.rules.contentOf_eq h.inline hfirst, ElementContent.mapRules_eq_structured_iff]
    rw [List.map_cons, Prod.map_apply, declareElements_cons, declareElements_cons]
    simp only [hcontent, declareElements_eq h rest _ hrest]

/-- A rule and its copy are declared alike. -/
theorem declared (h : Mirrors f dom c c') (hid : dom id) (hrule : c.rules.get? id = some rule)
    (hcopies : rule.Copies f rule') :
    (c.declared id rule).1.Copies f (c'.declared (f id) rule').1 ∧
      (c'.declared (f id) rule').2 = (c.declared id rule).2 := by
  have hdraft : c'.draftOfRule (f id) rule' = c.draftOfRule id rule := by
    simp only [draftOfRule, baseName, h.inline id hid, h.draft, h.options, hcopies.key,
      hcopies.isStart, hcopies.name]
  have helements : ∀ x ∈ rule.elements, ∀ y ∈ x.2.refs, dom y.1 := fun x hx y hy =>
    h.rules.closed id rule hid hrule y (Rule.refs_of_mem_elements hx hy)
  have hmade : c'.declareElements rule'.elements (c'.draftOfRule (f id) rule') =
      c.declareElements rule.elements (c.draftOfRule id rule) := by
    rw [hdraft, hcopies.elements]
    exact h.declareElements_eq rule.elements _ helements
  simp only [declared_eq, hmade, and_true]
  refine ⟨hcopies.scope, hcopies.name, ?_, ?_, rfl⟩
  · simp only [hcopies.pattern, Option.map_map]
    exact congrArg (Option.map · rule.pattern) (funext fun p => p.withTypes_mapRules f _)
  · simp only [h.inline id hid, h.model_eq]

theorem declareRule (h : Mirrors f dom c c') (hid : dom id)
    (hrule : c.rules.get? id = some rule) (hcopies : rule.Copies f rule') :
    Mirrors f dom (c.declareRule id rule) (c'.declareRule (f id) rule') := by
  obtain ⟨hdeclared, hdraft⟩ := h.declared hid hrule hcopies
  rw [Compilation.declareRule, Compilation.declareRule, hdraft]
  refine (h.modify hid (fun _ => (c.declared id rule).1) (fun _ => (c'.declared (f id) rule').1)
    fun old _ hold _ => ⟨hdeclared, ?_⟩).onDraft _
  obtain rfl := Option.some.inj (hrule.symm.trans hold)
  exact skeleton_declared

theorem settleRoot (h : Mirrors f dom c c') : Mirrors f dom c.settleRoot c'.settleRoot := by
  have hroot : writerType c'.rules c'.entry = writerType c.rules c.entry := by
    rw [h.entry, h.rules.writerType_eq h.begun]
  rw [Compilation.settleRoot, Compilation.settleRoot, hroot, h.draft]
  exact h.onDraft _

theorem markGenerated (h : Mirrors f dom c c') (hid : dom id) :
    Mirrors f dom (c.markGenerated id) (c'.markGenerated (f id)) :=
  h.modify hid _ _ fun _ _ _ hr => ⟨⟨hr.scope, hr.name, hr.pattern, hr.output, rfl⟩, rfl⟩

end Mirrors

/-! ## Work in step -/

/-- Work on two compilations has ended alike. -/
def Agrees (f : RuleId → RuleId) (dom : RuleId → Prop) :
    EStateM.Result Failure Compilation α → EStateM.Result Failure Compilation α → Prop
  | .ok x c, .ok x' c' => x' = x ∧ Mirrors f dom c c'
  | .error failure c, .error failure' c' => failure' = failure ∧ Mirrors f dom c c'
  | _, _ => False

/-- Work on a compilation, and work that does the same to another of copies of its rules. -/
def Follows (f : RuleId → RuleId) (dom : RuleId → Prop) (x x' : Compiling α) : Prop :=
  ∀ c c', Mirrors f dom c c' → Agrees f dom (x c) (x' c')

namespace Follows

theorem pure (x : α) : Follows f dom (Pure.pure x) (Pure.pure x) := fun _ _ h => ⟨rfl, h⟩

theorem bind {x x' : Compiling α} {k k' : α → Compiling β} (hx : Follows f dom x x')
    (hk : ∀ a, Follows f dom (k a) (k' a)) : Follows f dom (x >>= k) (x' >>= k') := by
  intro c c' h
  have hfirst := hx c c' h
  rw [run_bind, run_bind]
  cases hend : x c with
  | ok a c₁ =>
    cases hend' : x' c' with
    | error failure' c₁' =>
      rw [hend, hend'] at hfirst
      exact hfirst.elim
    | ok a' c₁' =>
      rw [hend, hend'] at hfirst
      obtain ⟨rfl, h₁⟩ := hfirst
      exact hk a' c₁ c₁' h₁
  | error failure c₁ =>
    cases hend' : x' c' with
    | error failure' c₁' =>
      rw [hend, hend'] at hfirst
      exact hfirst
    | ok a' c₁' =>
      rw [hend, hend'] at hfirst
      exact hfirst.elim

theorem change {g g' : Compilation → Compilation}
    (hg : ∀ {c c'}, Mirrors f dom c c' → Mirrors f dom (g c) (g' c')) :
    Follows f dom (modify g) (modify g') := fun _ _ h => ⟨rfl, hg h⟩

theorem inspect {k k' : Compilation → Compiling α}
    (hk : ∀ {c c'}, Mirrors f dom c c' → Agrees f dom (k c c) (k' c' c')) :
    Follows f dom (get >>= k) (get >>= k') := fun _ _ h => hk h

theorem forEach {step : RuleId → Compiling Bool}
    (hstep : ∀ id, dom id → Follows f dom (step id) (step (f id))) : ∀ ids : List RuleId,
    (∀ id ∈ ids, dom id) →
    Follows f dom (Compilation.forEach step ids) (Compilation.forEach step (ids.map f))
  | [], _ => .pure ()
  | _ :: ids, hids => by
    obtain ⟨hid, hrest⟩ := List.forall_mem_cons.mp hids
    exact (hstep _ hid).bind fun _ => Follows.forEach hstep ids hrest

end Follows

/-- What work on a compilation has come to, with the trace. -/
def answerOf : EStateM.Result Failure Compilation α → Attempt α × Trace.Tracer
  | .ok x c => (.ok x, c.tracer)
  | .error failure c => (.error failure, c.tracer)

/-- Compile the rules that an entry rule reaches : the model or the failure, and the trace. -/
def runAll (t : RuleTable) (entry : RuleId) (options : CompileOptions) (tracer : Trace.Tracer) :
    Attempt Model × Trace.Tracer :=
  match start t entry options tracer with
  | .error failure => (.error failure, tracer)
  | .ok c => answerOf (finish c)

section

variable {t t' : RuleTable} {entry : RuleId}

end

end Compilation

namespace RuleTable

end RuleTable

namespace Compilation

end Compilation

end MarkupTypes
