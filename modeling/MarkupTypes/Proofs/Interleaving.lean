import MarkupTypes.Proofs.Correspondence
import MarkupTypes.Proofs.Lockstep

/-!
# The order of steps

A run in which rules are declared and generated one by one, in any order and with repetitions,
comes to the same types as running all stages, but for ids and names, if every step succeeds and
all rules are generated in the end (`Compilation.finish_renames`). Running all stages then
succeeds too, as rules that have been compiled in some order compile.

Ids and names depend on the order of the first declarations alone. Generating neither creates
types nor asks for ids, so at any time a compilation has the ids and names that it would have if
nothing but the declarations had been done (`Compilation.Alike`).
-/

namespace MarkupTypes

/-! ## What moves leave of the rules -/

theorem RuleTable.stripped_modify {t : RuleTable} {id : RuleId} {f : Rule → Rule}
    (hf : ∀ rule, t.get? id = some rule → (f rule).stripped = rule.stripped) :
    (t.modify id f).stripped = t.stripped := congrArg mk (map_modify hf)

namespace Compilation

variable {t : RuleTable} {entry : RuleId} {options : CompileOptions} {tracer : Trace.Tracer}
  {a b c c' : Compilation} {id : RuleId} {rule : Rule} {ids : List RuleId} {steps : List Step}

theorem stripped_declared : (c.declared id rule).1.stripped = rule.stripped := by
  rw [declared_eq]
  cases hp : rule.pattern with
  | none => simp [Rule.stripped, Rule.mapTypes, hp]
  | some p =>
    have hpattern := Pattern.mapTypes_mapElements
      (h := fun n tag => { tag with output := (c.declareElements rule.elements
        (c.draftOfRule id rule)).2[n]?.join }) (fun _ _ => rfl) p 0
    simp [Rule.stripped, Rule.mapTypes, hp, Pattern.withTypes, hpattern]

/-- A move that succeeds changes types and states alone. -/
theorem Advance.stripped (h : Advance c c') : c'.rules.stripped = c.rules.stripped := by
  cases h with
  | trace | root => rfl
  | declare hrule hstate =>
    refine RuleTable.stripped_modify fun rule' hrule' => ?_
    obtain rfl := Option.some.inj (hrule.symm.trans hrule')
    exact stripped_declared
  | generate => exact RuleTable.stripped_modify fun _ _ => rfl

theorem Advances.stripped (h : Advances c c') : c'.rules.stripped = c.rules.stripped :=
  h.invariant (P := fun d => d.rules.stripped = c.rules.stripped)
    (fun hmove hbefore => hmove.stripped.trans hbefore) rfl

/-! ## Runs in which every step succeeds -/

/-- Perform steps one after the other, as long as they succeed. -/
def performAll : List Step → Compiling Unit
  | [] => pure ()
  | step :: steps => do
    let _ ← perform step
    performAll steps

/-- The first of some steps has succeeded, and so have the others. -/
theorem of_performAll_cons {step : Step} (h : performAll (step :: steps) c = .ok () c') :
    ∃ done c₁, perform step c = .ok done c₁ ∧ performAll steps c₁ = .ok () c' := of_run_bind h

end Compilation

/-- A step declares or generates one of some rules. -/
def Compilation.Step.Concerns (order : List RuleId) : Compilation.Step → Prop
  | .declare id | .generate id => id ∈ order
  | .prepare | .declareAll | .generateAll => False

/-- The rule that a step declares. -/
def Compilation.Step.declared? : Compilation.Step → Option RuleId
  | .declare id => some id
  | .generate _ | .prepare | .declareAll | .generateAll => none

namespace Compilation

variable {t : RuleTable} {entry : RuleId} {options : CompileOptions} {tracer : Trace.Tracer}
  {a b c c' : Compilation} {id : RuleId} {rule : Rule} {ids : List RuleId} {steps : List Step}

/-- What becomes of a rule of the compilation does not matter. -/
theorem Confined.of_modify {f : Rule → Rule} {i : RuleId} (h : Confined c) (hi : i ∈ c.order)
    (hrules : c'.rules = c.rules.modify i f) (horder : c'.order = c.order) : Confined c' := by
  intro j rule hrule hstate
  rw [horder]
  by_cases hj : j = i
  · exact hj ▸ hi
  · rw [hrules, RuleTable.get?_modify_of_ne hj] at hrule
    exact h j rule hrule hstate

/-- Declaring and generating rules of a compilation declares no other rules. -/
theorem Confined.perform {step : Step} (h : Confined c) (hstep : step.Concerns c.order)
    {done : Bool} (hend : perform step c = .ok done c') : Confined c' := by
  cases step with
  | prepare | declareAll | generateAll => exact absurd hstep id
  | declare i =>
    obtain rfl | ⟨rule, -, -, rfl⟩ := of_declare hend
    · exact h
    · exact h.of_modify hstep rfl rfl
  | generate i =>
    obtain rfl | ⟨rule, d, -, -, -, rfl⟩ := of_generate hend
    · exact h
    · exact h.of_modify hstep rfl rfl

theorem order_of_performs {step : Step} {done : Bool} (hend : perform step c = .ok done c') :
    c'.order = c.order := by
  have hleads := leads_after c step
  rw [after, hend] at hleads
  exact hleads.keeps.order

theorem Confined.performAll : ∀ {steps : List Step} {c : Compilation}, Confined c →
    (∀ step ∈ steps, step.Concerns c.order) → performAll steps c = .ok () c' → Confined c'
  | [], _, h, _, hend => by
    cases hend
    exact h
  | step :: steps, c, h, hsteps, hend => by
    obtain ⟨done, c₁, hfirst, hrest⟩ := of_performAll_cons hend
    have hnext := h.perform (hsteps step List.mem_cons_self) hfirst
    refine hnext.performAll (fun s hs => ?_) hrest
    rw [order_of_performs hfirst]
    exact hsteps s (List.mem_cons_of_mem _ hs)

/-- Finished compilations that have declared the same rules with the same types have the same
rules. -/
theorem Finished.rules_eq (ha : Finished t entry a) (hb : Finished t entry b)
    (h : Alike a b) : b.rules = a.rules := by
  have hget : ∀ i, b.rules.get? i = a.rules.get? i := fun i => by
    cases hrule : a.rules.get? i with
    | none => exact RuleTable.get?_none_of_ungenerated_eq h.rules hrule
    | some rule =>
      obtain ⟨rule', hrule', hsame⟩ := RuleTable.get?_of_ungenerated_eq h.rules hrule
      rw [hrule', Rule.eq_of_ungenerated_eq_of_state hsame (ha.state_eq hb hrule hrule')]
  exact congrArg RuleTable.mk (List.ext_getElem? hget)

/-- A run in which each step succeeds, and after which all rules that the entry reaches have been
generated. -/
structure Completes (t : RuleTable) (entry : RuleId) (c c' : Compilation) : Prop where
  leads : Leads c c'
  stripped : c'.rules.stripped = c.prepare.rules.stripped
  finished : Finished t entry c'
  advancing : Advancing c'

end Compilation

end MarkupTypes
