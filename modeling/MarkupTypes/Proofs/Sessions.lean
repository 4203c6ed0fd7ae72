import MarkupTypes.Proofs.Sources
import MarkupTypes.Proofs.WellFormed

/-!
# Sessions of an assembly

Whoever reads a schema makes callbacks to an assembly (`Assembly.Callback`), hands over patterns and
gets others back. An assembly in use and all the patterns that it has returned are a session
(`Session`). A callback may fail, and then returns nothing.

As long as callbacks are handed nothing but what was returned before (`Session.Fed`), all that every
construct keeps holds of the patterns that are returned and of those that the rules have
(`Session.Holds.run`). One callback keeps it (`Assembly.Callback.upholds`), and callbacks keep it
one by one. So these patterns are well formed, also where a rule was defined several times, and a rule
that was defined is inline exactly when its pattern is neither empty nor a union
(`Session.wellFormed_run`).

A reference to an external schema makes the callbacks of that schema, and hands on a pattern that
they returned.
-/

namespace MarkupTypes

namespace Assembly

/-- What is asked of an assembly, with the patterns that are handed over. -/
inductive Callback where
  | combine (how : Connective) (operands : List Pattern) (location : Option Location)
  | oneOrMore (operand : Pattern)
  | zeroOrMore (operand : Pattern) (location : Option Location)
  | optional (operand : Pattern) (location : Option Location)
  | list (item : Pattern) (location : Option Location)
  | mixed (operand : Pattern) (location : Option Location)
  | empty (location : Option Location)
  | notAllowed (location : Option Location)
  | text (location : Option Location)
  /-- The pattern of what could not be read. -/
  | unreadable
  /-- Annotations or comments are added to a pattern. -/
  | annotated (operand : Pattern)
  | attr (names : NameClass) (content : Pattern) (location : Option Location)
  | elem (names : NameClass) (content : Pattern) (location : Option Location)
  | data (head : DataHead)
  | dataExcept (head : DataHead) (except : Pattern)
  | value (library type literal : String) (location : Option Location)
  | grammar (parent : Option ScopeId)
  | define (scope : ScopeId) (name : String) (pattern : Pattern) (location : Option Location)
  | reference (scope : ScopeId) (name : String) (location : Option Location)
  | parentReference (scope : ScopeId) (name : String) (location : Option Location)
  | endGrammar (scope : ScopeId) (location : Option Location)

namespace Callback

/-- The patterns that are handed over. -/
def operands : Callback → List Pattern
  | combine _ operands _ => operands
  | oneOrMore p | zeroOrMore p _ | optional p _ | list p _ | mixed p _ | annotated p
  | attr _ p _ | elem _ p _ | dataExcept _ p | define _ _ p _ => [p]
  | empty _ | notAllowed _ | text _ | unreadable | data _ | value _ _ _ _ | grammar _
  | reference _ _ _ | parentReference _ _ _ | endGrammar _ _ => []

/-- What an assembly does, and the pattern that it returns, if it returns one. -/
def work : Callback → Assembling (Option Pattern)
  | combine how operands location => return some (← (Pattern.combined how operands location).lift)
  | oneOrMore p => return some p.oneOrMore
  | zeroOrMore p location => return some (p.zeroOrMore location)
  | optional p location => return some (p.atMostOne location)
  | list p location => return some (p.listAt location)
  | mixed p location => return some (p.mixed location)
  | empty location => return some (.emptyAt location)
  | notAllowed location => return some (.notAllowed location)
  | text location => return some (.textAt location)
  | unreadable => return some .unreadable
  | annotated p => return some p
  | attr names p location => return some (.attributes names p location)
  | elem names p location => return some (.elementsOf names p location)
  | data head => return some (← Schema.dataPattern head)
  | dataExcept head _ => return some (← Schema.dataPattern head)
  | value library type literal location =>
    return some ((← get).value library type literal location)
  | grammar parent => do
    let _ ← Assembly.grammar parent
    return none
  | define scope name p location => do
    Assembly.define scope name p location
    return none
  | reference scope name location => return some (← Assembly.reference scope name location)
  | parentReference scope name location =>
    return some (← Assembly.parentReference scope name location)
  | endGrammar scope location => return some (← Assembly.endGrammar scope location)

end Callback

end Assembly

/-- An assembly in use. -/
structure Session where
  assembly : Assembly
  /-- The patterns that it has returned so far. -/
  returned : List Pattern

namespace Session

open Assembly (Callback)

/-- An assembly that was not used yet. -/
def new (datatypes : Datatypes) (tracer : Trace.Tracer) : Session :=
  ⟨(Assembly.new datatypes).withTracer tracer, []⟩

/-- The session after a callback, which returns nothing if it fails. -/
def answer (s : Session) (call : Callback) : Session :=
  match call.work s.assembly with
  | .ok p a => ⟨a, s.returned ++ p.toList⟩
  | .error _ a => ⟨a, s.returned⟩

/-- The session after callbacks. -/
def run (s : Session) (calls : List Callback) : Session := calls.foldl answer s

/-- Callbacks are handed nothing but what was returned before. -/
def Fed (s : Session) : List Callback → Prop
  | [] => True
  | call :: calls => (∀ p ∈ call.operands, p ∈ s.returned) ∧ (s.answer call).Fed calls

/-- It can be computed whether callbacks are handed nothing else. -/
def decidableFed (s : Session) : (calls : List Callback) → Decidable (s.Fed calls)
  | [] => .isTrue trivial
  | call :: calls =>
    have := (s.answer call).decidableFed calls
    inferInstanceAs (Decidable ((∀ p ∈ call.operands, p ∈ s.returned) ∧ (s.answer call).Fed calls))

instance (s : Session) (calls : List Callback) : Decidable (s.Fed calls) := s.decidableFed calls

/-- The tables of a session : that of the assembly, and the one that it is finished with when some
pattern that it has returned is the pattern of the whole schema. -/
inductive Table (s : Session) : RuleTable → Prop where
  | open : Table s s.assembly.scopes.table
  | finished {top : Pattern} (htop : top ∈ s.returned) : Table s (s.assembly.finish top).rules

end Session

/-! ## One callback -/

variable {P : Pattern → Prop}

open Assembling in
/-- A callback returns what constructs make of the patterns that are handed over, and puts nothing
else into the table. -/
theorem Assembly.Callback.upholds (hP : Pattern.Constructive P) {call : Callback}
    (hcall : ∀ p ∈ call.operands, P p) :
    Upholds (·.Holds P) call.work fun returned => ∀ p ∈ returned, P p := by
  have hI : RuleTable.Upheld (·.Holds P) P := RuleTable.upheld_holds hP.merge
  have hone : ∀ p, P p → ∀ q ∈ some p, P q := fun p hp q hq => Option.some.inj hq ▸ hp
  have hdata : ∀ head, Upholds (·.Holds P) (Schema.dataPattern head) P := fun head =>
    Upholds.get.bind fun _ _ => .pure (hP.data _ _)
  cases call with
  | combine how ps location =>
    exact (Upholds.lift fun _ => hP.combined hcall).bind fun p hp => .pure (hone p hp)
  | oneOrMore p => exact .pure (hone _ (hcall p List.mem_cons_self))
  | zeroOrMore p location =>
    exact .pure (hone _ (hP.merge (hcall p List.mem_cons_self) (hP.empty _)))
  | optional p location =>
    exact .pure (hone _ (hP.merge (hcall p List.mem_cons_self) (hP.empty _)))
  | list p location => exact .pure (hone _ (hP.list _ (hcall p List.mem_cons_self)))
  | mixed p location =>
    exact .pure (hone _ (hP.merge (hcall p List.mem_cons_self) (hP.data _ _)))
  | empty location => exact .pure (hone _ (hP.empty _))
  | notAllowed location => exact .pure (hone _ (hP.empty _))
  | text location => exact .pure (hone _ (hP.data _ _))
  | unreadable => exact .pure (hone _ (hP.empty _))
  | annotated p => exact .pure (hone _ (hcall p List.mem_cons_self))
  | attr names p location =>
    exact .pure (hone _ (hP.perName names location fun name =>
      hP.attr name (hcall p List.mem_cons_self)))
  | elem names p location =>
    exact .pure (hone _ (hP.perName names location fun name =>
      hP.elem name (hcall p List.mem_cons_self)))
  | data head => exact (hdata head).bind fun p hp => .pure (hone p hp)
  | dataExcept head except => exact (hdata head).bind fun p hp => .pure (hone p hp)
  | value library type literal location =>
    exact Upholds.get.bind fun _ _ => .pure (hone _ (hP.value _ _ _))
  | grammar parent =>
    exact (Upholds.grammar parent).bind fun _ _ => .pure fun _ hp => by cases hp
  | define scope name p location =>
    exact (Upholds.define hI (hcall p List.mem_cons_self) scope name location).bind fun _ _ =>
      .pure fun _ hp => by cases hp
  | reference scope name location =>
    exact (Upholds.reference hI hP scope name location).bind fun p hp => .pure (hone p hp)
  | parentReference scope name location =>
    exact (Upholds.parentReference hI hP scope name location).bind fun p hp => .pure (hone p hp)
  | endGrammar scope location =>
    exact (Upholds.endGrammar hP scope location).bind fun p hp => .pure (hone p hp)

namespace Session

/-! ## All callbacks -/

/-- The patterns that were returned are of some kind, and so are those of the rules. -/
structure Holds (s : Session) (P : Pattern → Prop) : Prop where
  returned : ∀ p ∈ s.returned, P p
  table : s.assembly.scopes.table.Holds P

variable {s : Session} {datatypes : Datatypes} {tracer : Trace.Tracer}
  {calls : List Assembly.Callback}

theorem holds_new (datatypes : Datatypes) (tracer : Trace.Tracer) (P : Pattern → Prop) :
    (new datatypes tracer).Holds P :=
  ⟨fun _ h => absurd h List.not_mem_nil, RuleTable.holds_empty P⟩

theorem Holds.answer (h : s.Holds P) (hP : Pattern.Constructive P) {call : Assembly.Callback}
    (hcall : ∀ p ∈ call.operands, p ∈ s.returned) : (s.answer call).Holds P := by
  obtain ⟨hend, hresult⟩ :=
    Assembly.Callback.upholds hP (fun p hp => h.returned p (hcall p hp)) s.assembly h.table
  unfold Session.answer
  split
  · next returned a hwork =>
    rw [hwork] at hend
    refine ⟨List.forall_mem_append.mpr ⟨h.returned, fun p hp => ?_⟩, hend⟩
    exact hresult returned a hwork p (Option.mem_toList.mp hp)
  · next failure a hwork =>
    rw [hwork] at hend
    exact ⟨h.returned, hend⟩

theorem Holds.run (h : s.Holds P) (hP : Pattern.Constructive P) (hfed : s.Fed calls) :
    (s.run calls).Holds P := by
  induction calls generalizing s with
  | nil => exact h
  | cons call calls ih => exact ih (h.answer hP hfed.1) hfed.2

theorem Holds.of_table (h : s.Holds P) {rules : RuleTable} (hrules : s.Table rules) :
    rules.Holds P := by
  cases hrules with
  | «open» => exact h.table
  | @finished top htop =>
    rcases s.assembly.finish_cases top with ⟨m, id, label, rfl, hrules⟩ | ⟨hrules, -⟩
    · rw [hrules]
      exact h.table
    · rw [hrules]
      refine h.table.push fun p hp => ?_
      cases hp
      exact h.returned top htop

/-- However an assembly is used, the patterns that it returns and those of its rules are well
formed, and a rule that was defined is inline exactly when its pattern is neither empty nor a
union. -/
theorem wellFormed_run (hfed : (new datatypes tracer).Fed calls) :
    (∀ p ∈ ((new datatypes tracer).run calls).returned, p.WellFormed) ∧
      ∀ rules, ((new datatypes tracer).run calls).Table rules →
        ∀ rule ∈ rules.rules, ∀ p, rule.pattern = some p →
          p.WellFormed ∧ (rule.isInline = true ↔ p.isSingle = true) := by
  have h := (holds_new datatypes tracer Pattern.WellFormed).run Pattern.constructive_wellFormed hfed
  refine ⟨h.returned, fun rules hrules rule hrule p hp => ?_⟩
  have hwell : p.WellFormed := h.of_table hrules rule hrule p hp
  exact ⟨hwell, Rule.isInline_iff hp hwell⟩

/-- A grammar whose start rule is defined twice, by an attribute and by an element. -/
def startedTwice : List Assembly.Callback :=
  let content := Pattern.textAt none
  let id := Pattern.attributes (.name (.unqualified "id")) content none
  let item := Pattern.elementsOf (.name (.unqualified "item")) id none
  [.grammar none, .text none, .attr (.name (.unqualified "id")) content none,
    .elem (.name (.unqualified "item")) id none, .define rootScope startName id none,
    .define rootScope startName item none, .endGrammar rootScope none]

/-- The start rule is not inline, as its pattern is a union. -/
theorem wellFormed_run_startedTwice : (new .xsd .off).Fed startedTwice ∧
    (∀ p ∈ ((new .xsd .off).run startedTwice).returned, p.WellFormed) ∧
    ∃ rules, ((new .xsd .off).run startedTwice).Table rules ∧ ∃ rule ∈ rules.rules, ∃ p,
      rule.pattern = some p ∧ p.WellFormed ∧ (rule.isInline = true ↔ p.isSingle = true) ∧
      rule.isInline = false := by
  have hfed : (new .xsd .off).Fed startedTwice := by decide +kernel
  obtain ⟨hreturned, htable⟩ := wellFormed_run hfed
  obtain ⟨rule, hrule, p, hp, hinline⟩ :
      ∃ rule ∈ ((new .xsd .off).run startedTwice).assembly.scopes.table.rules,
        ∃ p, rule.pattern = some p ∧ rule.isInline = false := by
    refine ⟨_, List.mem_cons_self, _, rfl, ?_⟩
    decide +kernel
  exact ⟨hfed, hreturned, _, .open, rule, hrule, p, hp, (htable _ .open rule hrule p hp).1,
    (htable _ .open rule hrule p hp).2, hinline⟩

end Session

end MarkupTypes
