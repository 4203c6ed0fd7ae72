import MarkupTypes.Proofs.Places

/-!
# Decisions that stay true

Which rules are inline is decided when a compilation starts, and what an element holds is decided
whenever that is asked for, while steps write into the very patterns that these decisions are read
from. A step writes little (`Compilation.writes_after`) : preparing gives the name of an inline rule
to what the rule stands for, declaring gives types to a rule and to its elements, and generating
writes into no pattern. None of that is part of the skeleton of a table, so both decisions are the
same at every point of a run. And as a name is only given to what has none, preparing a second time
changes nothing (`Compilation.steady_afterAll`).
-/

namespace MarkupTypes

namespace RuleTable

variable {t : RuleTable} {id : RuleId} {f g : Rule → Rule}

theorem get?_modify (t : RuleTable) (i id : RuleId) (f : Rule → Rule) :
    (t.modify i f).get? id = if i = id then (t.get? id).map f else t.get? id := by
  simp only [modify, get?, List.getElem?_modify]
  split <;> simp

theorem ext_get? {t t' : RuleTable} (h : ∀ id, t'.get? id = t.get? id) : t' = t := by
  obtain ⟨rules⟩ := t
  obtain ⟨rules'⟩ := t'
  exact congrArg mk (List.ext_getElem? h)

/-- Two changes of a rule that come to the same. -/
theorem modify_congr (h : ∀ rule, t.get? id = some rule → f rule = g rule) :
    t.modify id f = t.modify id g := by
  refine ext_get? fun i => ?_
  rw [get?_modify, get?_modify]
  split
  · next hi =>
    subst hi
    cases hrule : t.get? id with
    | none => rfl
    | some rule => rw [Option.map_some, Option.map_some, h rule hrule]
  · rfl

theorem modify_of_eq (h : ∀ rule, t.get? id = some rule → f rule = rule) : t.modify id f = t := by
  have hid : t.modify id (fun rule => rule) = t := ext_get? fun i => by
    rw [get?_modify, Option.map_id']
    split <;> rfl
  rw [modify_congr h, hid]

end RuleTable

/-! ## What a step may do to a rule -/

namespace Rule

/-- A rule gets its types, and nothing else of it changes. -/
def GetsTypes (rule rule' : Rule) : Prop :=
  rule.state = .unprocessed ∧ ∃ types output, rule' =
    { rule with pattern := rule.pattern.map (Pattern.withTypes types), output, state := .declared }

/-- A rule is counted as generated, and nothing else of it changes. -/
def GetsMembers (rule rule' : Rule) : Prop :=
  rule.state = .declared ∧ rule' = { rule with state := .generated }

end Rule

/-- Some rules may have changed in the way of `P`, and no others have. -/
def RuleTable.Touches (P : Rule → Rule → Prop) (ids : List RuleId) (t t' : RuleTable) : Prop :=
  ∀ id rule, t.get? id = some rule →
    ∃ rule', t'.get? id = some rule' ∧ (rule' = rule ∨ id ∈ ids ∧ P rule rule')

namespace RuleTable.Touches

variable {P : Rule → Rule → Prop} {ids ids' : List RuleId} {t t' t'' : RuleTable} {id : RuleId}
  {rule : Rule} {f : Rule → Rule}

theorem refl (P : Rule → Rule → Prop) (ids : List RuleId) (t : RuleTable) : Touches P ids t t :=
  fun _ rule hrule => ⟨rule, hrule, .inl rfl⟩

theorem modify (hrule : t.get? id = some rule) (hf : P rule (f rule)) :
    Touches P [id] t (t.modify id f) := fun i old hold => by
  by_cases hi : id = i
  · subst hi
    obtain rfl : rule = old := Option.some.inj (hrule.symm.trans hold)
    exact ⟨f rule, get?_modify_self hrule, .inr ⟨List.mem_singleton_self _, hf⟩⟩
  · exact ⟨old, by rwa [get?_modify_of_ne (Ne.symm hi)], .inl rfl⟩

/-- A change that cannot follow itself is made once. -/
theorem trans (hP : ∀ a b c, P a b → ¬P b c) (h : Touches P ids t t')
    (h' : Touches P ids' t' t'') : Touches P (ids ++ ids') t t'' := fun id rule hrule => by
  obtain ⟨rule', hrule', hfirst⟩ := h id rule hrule
  obtain ⟨rule'', hrule'', hsecond⟩ := h' id rule' hrule'
  refine ⟨rule'', hrule'', ?_⟩
  rcases hfirst with rfl | ⟨hmem, hchange⟩
  · exact hsecond.imp_right fun h => ⟨List.mem_append_right _ h.1, h.2⟩
  · rcases hsecond with rfl | ⟨-, hagain⟩
    · exact .inr ⟨List.mem_append_left _ hmem, hchange⟩
    · exact absurd hagain (hP _ _ _ hchange)

end RuleTable.Touches

namespace Compilation

/-! ## Names that are given to patterns -/

/-- What has got a name takes no other. -/
theorem labelled_labelled (name other : String) (p : Pattern) :
    labelled other (labelled name p) = labelled name p := by
  have hkept : ∀ label : Option String,
      ((label <|> some name) <|> some other) = (label <|> some name) := fun label => by
    cases label <;> rfl
  cases p <;> simp only [labelled, hkept]

/-- Names and types do not get in each other's way. -/
theorem labelled_withTypes (name : String) (types : List (Option TypeId)) (p : Pattern) :
    labelled name (p.withTypes types) = (labelled name p).withTypes types := by
  cases p <;> rfl

variable {c c' : Compilation} {id i : RuleId} {rule rule' : Rule} {ids : List RuleId}

/-- A rule after its name has been given to what it stands for. -/
def prepared (c : Compilation) (id : RuleId) (rule : Rule) : Rule :=
  if c.isInline id && !rule.isStart then
    { rule with pattern := rule.pattern.map (labelled rule.name) }
  else rule

theorem prepared_prepared (c : Compilation) (id : RuleId) (rule : Rule) :
    c.prepared id (c.prepared id rule) = c.prepared id rule := by
  by_cases h : (c.isInline id && !rule.isStart) = true
  · have hstart : ({ rule with pattern := rule.pattern.map (labelled rule.name) } : Rule).isStart =
        rule.isStart := rfl
    simp only [prepared, if_pos h, hstart, Option.map_map, Function.comp_def, labelled_labelled]
  · simp only [prepared, if_neg h]

/-- A rule has nothing to be prepared for, either because it is skipped or because what it
stands for has a name. -/
theorem prepared_eq_iff : c.prepared id rule = rule ↔
    (c.isInline id && !rule.isStart) = true →
      rule.pattern.map (labelled rule.name) = rule.pattern := by
  obtain ⟨scope, name, pattern, location, output, state⟩ := rule
  unfold prepared
  split
  · next h => simp [h]
  · next h => simp [h]

theorem prepared_of_isInline_eq (h : c'.isInline = c.isInline) (id : RuleId) (rule : Rule) :
    c'.prepared id rule = c.prepared id rule := by rw [prepared, prepared, h]

theorem rules_prepareRule (c : Compilation) (id : RuleId) :
    (c.prepareRule id).rules = c.rules.modify id (c.prepared id) := by
  unfold prepareRule
  split
  · next hrule => exact (RuleTable.modify_of_eq fun _ h => by rw [hrule] at h; cases h).symm
  · next rule hrule =>
    have hsame : ∀ rule', c.rules.get? id = some rule' → rule' = rule := fun rule' h =>
      Option.some.inj (h.symm.trans hrule)
    split
    · next hskip =>
      refine (RuleTable.modify_of_eq fun rule' h => ?_).symm
      obtain rfl := hsame rule' h
      exact if_neg (by grind)
    · next hskip =>
      have hlabel : (c.rules.modify id fun r =>
          { r with pattern := r.pattern.map (labelled rule.name) }) =
            c.rules.modify id (c.prepared id) := by
        refine RuleTable.modify_congr fun rule' h => ?_
        obtain rfl := hsame rule' h
        exact (if_pos (by simpa using hskip)).symm
      simp only
      split <;> exact hlabel

theorem model_prepareRule (c : Compilation) (id : RuleId) : (c.prepareRule id).model = c.model := by
  obtain h | ⟨name, f, h⟩ := prepareRule_cases c id <;> rw [h]
  rfl

/-- The rules of `ids` are prepared, and no others. -/
theorem get?_foldl_prepareRule (c : Compilation) (ids : List RuleId) (id : RuleId) :
    (ids.foldl prepareRule c).rules.get? id =
      (c.rules.get? id).map fun rule => if id ∈ ids then c.prepared id rule else rule := by
  induction ids generalizing c with
  | nil => simp
  | cons i ids ih =>
    have hinline : (c.prepareRule i).isInline = c.isInline := (leads_prepareRule c i).keeps.isInline
    rw [List.foldl_cons, ih, rules_prepareRule, RuleTable.get?_modify]
    cases c.rules.get? id with
    | none => simp
    | some rule =>
      by_cases hi : i = id
      · subst hi
        by_cases hmem : i ∈ ids <;>
          simp [hmem, prepared_of_isInline_eq hinline, prepared_prepared]
      · simp [hi, Ne.symm hi, prepared_of_isInline_eq hinline]

theorem get?_prepare (c : Compilation) (id : RuleId) : c.prepare.rules.get? id =
    (c.rules.get? id).map fun rule => if id ∈ c.order then c.prepared id rule else rule :=
  get?_foldl_prepareRule _ _ _

theorem model_prepare (c : Compilation) : c.prepare.model = c.model := by
  have hfold : ∀ (ids : List RuleId) (c : Compilation),
      (ids.foldl prepareRule c).model = c.model := fun ids => by
    induction ids with
    | nil => exact fun _ => rfl
    | cons id ids ih => exact fun c => (ih _).trans (model_prepareRule c id)
  exact hfold c.order (c.mapTracer (·.startPhase .prepare))

/-! ## Rules that have been prepared -/

/-- Preparing the rules would not change them. -/
def Prepared (c : Compilation) : Prop :=
  ∀ id ∈ c.order, ∀ rule, c.rules.get? id = some rule → c.prepared id rule = rule

theorem prepared_prepare (c : Compilation) : c.prepare.Prepared := fun id hid rule hrule => by
  have hkeeps := (leads_prepare c).keeps
  rw [hkeeps.order] at hid
  rw [get?_prepare] at hrule
  obtain ⟨old, -, rfl⟩ := Option.map_eq_some_iff.mp hrule
  rw [if_pos hid, prepared_of_isInline_eq hkeeps.isInline, prepared_prepared]

/-- A rule that needs no name needs none after it has got types or another name. -/
theorem Prepared.of_modify {f : Rule → Rule} (h : c.Prepared) (horder : c'.order = c.order)
    (hinline : c'.isInline = c.isInline) (hrules : c'.rules = c.rules.modify i f)
    (hf : ∀ rule, c.rules.get? i = some rule → (f rule).name = rule.name ∧
      (rule.pattern.map (labelled rule.name) = rule.pattern →
        (f rule).pattern.map (labelled rule.name) = (f rule).pattern)) : c'.Prepared :=
  fun id hid rule hrule => by
  rw [horder] at hid
  rw [hrules] at hrule
  obtain ⟨old, hold, rfl⟩ := RuleTable.of_get?_modify hrule
  have hbefore := h id hid old hold
  rw [prepared_of_isInline_eq hinline]
  by_cases hi : id = i
  · subst hi
    obtain ⟨hname, hpattern⟩ := hf old hold
    have hstart : (f old).isStart = old.isStart := by rw [Rule.isStart, Rule.isStart, hname]
    rw [if_pos rfl, prepared_eq_iff, hstart, hname]
    exact fun hcond => hpattern (prepared_eq_iff.mp hbefore hcond)
  · rwa [if_neg hi]

theorem Prepared.change (hchange : Change c c') (h : c.Prepared) : c'.Prepared := by
  have hkeeps := keeps_of_change hchange
  cases hchange with
  | trace f => exact h
  | root => exact h
  | fill hrule hstate hfill => exact h
  | label id name =>
    refine h.of_modify rfl hkeeps.isInline rfl fun rule _ => ⟨rfl, fun hpattern => ?_⟩
    have hlabel : ∀ p, labelled rule.name (labelled name p) = labelled name p :=
      labelled_labelled name rule.name
    simp only [Option.map_map, Function.comp_def, hlabel]
  | @declare id rule hrule hstate =>
    refine h.of_modify rfl hkeeps.isInline rfl fun rule' hrule' => ?_
    obtain rfl : rule = rule' := Option.some.inj (hrule.symm.trans hrule')
    rw [declared_eq]
    refine ⟨rfl, fun hpattern => ?_⟩
    simp only [Option.map_map, Function.comp_def, labelled_withTypes]
    rw [← Function.comp_def, ← Option.map_map, hpattern]
  | generated hrule hstate =>
    exact h.of_modify rfl hkeeps.isInline rfl fun rule' _ => ⟨rfl, fun hpattern => hpattern⟩

/-- What has been prepared stays so. -/
theorem prepared_afterAll (h : c.Prepared) (steps : List Step) : (c.afterAll steps).Prepared :=
  (leads_afterAll steps c).invariant Prepared.change h

theorem prepared_of_prepare_mem {steps : List Step} (h : Step.prepare ∈ steps) (c : Compilation) :
    (c.afterAll steps).Prepared := by
  obtain ⟨before, later, rfl⟩ := List.append_of_mem h
  rw [afterAll, List.foldl_append, List.foldl_cons]
  exact prepared_afterAll (prepared_prepare _) later

/-- What has been prepared is prepared again without a change. -/
theorem Prepared.prepare_eq (h : c.Prepared) : c.prepare.rules = c.rules :=
  RuleTable.ext_get? fun id => by
    rw [get?_prepare]
    cases hrule : c.rules.get? id with
    | none => rfl
    | some rule =>
      by_cases hid : id ∈ c.order
      · simp only [Option.map_some, if_pos hid, h id hid rule hrule]
      · simp only [Option.map_some, if_neg hid]

/-! ## What steps do to rules -/

theorem touches_declare (id : RuleId) (c : Compilation) :
    RuleTable.Touches Rule.GetsTypes [id] c.rules (endState (declare id c)).rules := by
  rw [declare_eq]
  cases hrule : c.rules.get? id with
  | none => exact .refl _ _ _
  | some rule =>
    simp only
    split
    · next hstate =>
      refine .modify hrule ⟨hstate, ?_⟩
      rw [declared_eq]
      exact ⟨_, _, rfl⟩
    · exact .refl _ _ _

theorem touches_generate (id : RuleId) (c : Compilation) :
    RuleTable.Touches Rule.GetsMembers [id] c.rules (endState (generate id c)).rules := by
  rw [generate_eq]
  cases hrule : c.rules.get? id with
  | none => exact .refl _ _ _
  | some rule =>
    simp only
    cases hstate : rule.state with
    | unprocessed => exact .refl _ _ _
    | generated => exact .refl _ _ _
    | declared =>
      simp only
      cases c.expansion.fillRule rule c.draft with
      | error failure d => exact .refl _ _ _
      | ok _ d => exact .modify hrule ⟨hstate, rfl⟩

theorem touches_forEach {P : Rule → Rule → Prop} {step : RuleId → Compiling Bool}
    (hP : ∀ a b c, P a b → ¬P b c)
    (hstep : ∀ id c, RuleTable.Touches P [id] c.rules (endState (step id c)).rules) :
    ∀ (ids : List RuleId) (c : Compilation),
      RuleTable.Touches P ids c.rules (endState (forEach step ids c)).rules
  | [], _ => .refl _ _ _
  | id :: ids, c => by
    have hfirst := hstep id c
    rw [forEach_cons]
    cases hend : step id c with
    | error failure c' =>
      rw [hend] at hfirst
      exact hfirst.trans hP (.refl P ids _)
    | ok _ c' =>
      rw [hend] at hfirst
      exact hfirst.trans hP (touches_forEach hP hstep ids c')

theorem touches_declareAll (c : Compilation) :
    RuleTable.Touches Rule.GetsTypes c.order c.rules (endState (declareAll c)).rules := by
  have hrules := touches_forEach
    (fun a b c (hab : a.GetsTypes b) (hbc : b.GetsTypes c) => by
      obtain ⟨-, types, output, rfl⟩ := hab
      cases hbc.1)
    touches_declare c.order (c.mapTracer (·.startPhase .declare))
  rw [declareAll_eq]
  cases hend : forEach declare c.order (c.mapTracer (·.startPhase .declare)) <;>
    rwa [hend] at hrules

theorem touches_generateAll (c : Compilation) :
    RuleTable.Touches Rule.GetsMembers c.order c.rules (endState (generateAll c)).rules := by
  have hrules := touches_forEach
    (fun a b c (hab : a.GetsMembers b) (hbc : b.GetsMembers c) => by
      obtain ⟨-, rfl⟩ := hab
      cases hbc.1)
    touches_generate c.order (c.mapTracer (·.startPhase .generate))
  rw [generateAll_eq]
  cases hend : forEach generate c.order (c.mapTracer (·.startPhase .generate)) <;>
    rwa [hend] at hrules

/-- What becomes of a rule in a step : preparing gives the name of an inline rule other than
the start rule to what the rule stands for, declaring gives types to rules and elements, and
generating counts a rule as generated. -/
def Writes (c : Compilation) (id : RuleId) (rule rule' : Rule) : Step → Prop
  | .prepare => rule' = if id ∈ c.order then c.prepared id rule else rule
  | .declare i => rule' = rule ∨ id ∈ [i] ∧ rule.GetsTypes rule'
  | .declareAll => rule' = rule ∨ id ∈ c.order ∧ rule.GetsTypes rule'
  | .generate i => rule' = rule ∨ id ∈ [i] ∧ rule.GetsMembers rule'
  | .generateAll => rule' = rule ∨ id ∈ c.order ∧ rule.GetsMembers rule'

/-- A step writes no more than that, whether it fails or not. -/
theorem writes_after (c : Compilation) (step : Step) (hrule : c.rules.get? id = some rule) :
    ∃ rule', (c.after step).rules.get? id = some rule' ∧ c.Writes id rule rule' step := by
  unfold after
  cases step with
  | prepare =>
    refine ⟨_, ?_, rfl⟩
    change c.prepare.rules.get? id = _
    rw [get?_prepare, hrule, Option.map_some]
  | declare i => exact touches_declare i c id rule hrule
  | generate i => exact touches_generate i c id rule hrule
  | declareAll =>
    have htouches := touches_declareAll c id rule hrule
    simp only [perform, run_bind]
    cases hend : declareAll c <;> rwa [hend] at htouches
  | generateAll =>
    have htouches := touches_generateAll c id rule hrule
    simp only [perform, run_bind]
    cases hend : generateAll c <;> rwa [hend] at htouches

/-! ## Decisions -/

end Compilation

theorem Rule.length_children_skeleton (r : Rule) :
    r.skeleton.children.length = r.children.length := by
  cases h : r.pattern <;> simp [children, h, Pattern.children_skeleton]

/-- What each element of a rule holds. -/
def RuleTable.contentsOf (t : RuleTable) (isInline : RuleId → Bool) (rule : Rule) :
    List ElementContent :=
  rule.elements.map fun x => t.contentOf isInline x.2

theorem RuleTable.contentsOf_eq_of_skeleton_eq {t t' : RuleTable} {rule rule' : Rule}
    (h : t'.skeleton = t.skeleton) (isInline : RuleId → Bool)
    (hrule : rule'.skeleton = rule.skeleton) :
    t'.contentsOf isInline rule' = t.contentsOf isInline rule := by
  have hread : ∀ (t : RuleTable) (rule : Rule), t.contentsOf isInline rule =
      rule.skeleton.elements.map fun x => t.skeleton.contentOf isInline x.2 := fun t rule => by
    unfold contentsOf Rule.elements
    cases hp : rule.pattern with
    | none => simp [hp]
    | some p => simp [hp, Pattern.elements_skeleton, contentOf_skeleton]
  rw [hread, hread t, h, hrule]

namespace Compilation

variable {t : RuleTable} {entry : RuleId} {options : CompileOptions} {tracer : Trace.Tracer}
  {c c' : Compilation}

/-- The rules of a compilation are those of `t` but for labels, types and states, and what is
read off them is the same. -/
structure Steady (t : RuleTable) (entry : RuleId) (c : Compilation) : Prop where
  /-- The rules that take part are those that the entry reaches. -/
  order : ∀ id, id ∈ c.order ↔ t.Reaches entry id
  /-- The decision that was made at the start is the one that the rules show. -/
  isInline : ∀ id, c.isInline id = c.rules.isInline id
  /-- A rule has its scope, name and location, and the shape of its pattern with the flags
  and locations in it. -/
  rules : ∀ id rule₀, t.get? id = some rule₀ →
    ∃ rule, c.rules.get? id = some rule ∧ rule.skeleton = rule₀.skeleton ∧
      rule.children.length = rule₀.children.length ∧
      c.rules.contentsOf c.isInline rule = t.contentsOf t.isInline rule₀
  /-- No rules are added. -/
  size : c.rules.size = t.size

theorem Started.steady (h : Started t entry options tracer c) (hleads : Leads c c') :
    Steady t entry c' := by
  have hkeeps := hleads.keeps
  have hskeleton := h.skeleton_eq hleads
  have hinline : c'.isInline = c'.rules.isInline :=
    isInline_eq_table (hkeeps.inline_eq (by rw [h.inline_eq, h.rules_eq]))
  refine ⟨fun id => ?_, congrFun hinline, fun id rule₀ hrule => ?_, ?_⟩
  · rw [hkeeps.order]
    exact h.region.mem_iff
  · obtain ⟨rule, hrule', heq⟩ := RuleTable.get?_of_skeleton_eq hskeleton hrule
    refine ⟨rule, hrule', heq, ?_, ?_⟩
    · rw [← rule.length_children_skeleton, heq, rule₀.length_children_skeleton]
    · rw [hinline, RuleTable.isInline_of_skeleton_eq hskeleton]
      exact RuleTable.contentsOf_eq_of_skeleton_eq hskeleton _ heq
  · rw [← RuleTable.size_skeleton, hskeleton, RuleTable.size_skeleton]

/-- At every point of a run, whatever its steps are and whether they fail, the rules differ
from those at the start in labels, types and states only, and the decisions on them are the
same. The next step writes into a rule no more than it may, and once the rules have been
prepared, preparing them again changes no rule and no type. -/
theorem steady_afterAll (hstart : start t entry options tracer = .ok c) (steps : List Step) :
    Steady t entry (c.afterAll steps) ∧
    (∀ step id rule, (c.afterAll steps).rules.get? id = some rule →
      ∃ rule', ((c.afterAll steps).after step).rules.get? id = some rule' ∧
        (c.afterAll steps).Writes id rule rule' step) ∧
    (Step.prepare ∈ steps →
      ((c.afterAll steps).after .prepare).rules = (c.afterAll steps).rules ∧
      ((c.afterAll steps).after .prepare).model = (c.afterAll steps).model) :=
  ⟨(started_of_start hstart).steady (leads_afterAll steps c),
    fun step _ _ hrule => writes_after _ step hrule,
    fun hmem => ⟨(prepared_of_prepare_mem hmem c).prepare_eq, model_prepare _⟩⟩

/-- The nested items after steps in a mixed order, one of which fails. -/
theorem steady_nestedItems : ∃ c c', start .nestedItems 0 .standard .off = .ok c ∧
    c' = c.afterAll [.generate 0, .declare 1, .prepare, .generate 1, .declareAll] ∧
    Steady .nestedItems 0 c' ∧ (c'.after .prepare).rules = c'.rules ∧
    (c'.after .prepare).model = c'.model := by
  obtain ⟨c, hstart⟩ : ∃ c, start .nestedItems 0 .standard .off = .ok c := ⟨_, rfl⟩
  obtain ⟨hsteady, -, hagain⟩ :=
    steady_afterAll hstart [.generate 0, .declare 1, .prepare, .generate 1, .declareAll]
  obtain ⟨hrules, hmodel⟩ := hagain (by decide)
  exact ⟨c, _, hstart, rfl, hsteady, hrules, hmodel⟩

end Compilation

end MarkupTypes
