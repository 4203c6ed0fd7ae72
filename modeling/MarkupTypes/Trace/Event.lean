/-!
# Trace events

What is noted while a schema is compiled and its output is placed, and the records
that hold the notes. A record knows the phase it was made in and the nanoseconds since
tracing began.
-/

namespace MarkupTypes

/-- The stages of work on a schema. -/
inductive Phase where
  | build
  | prepare
  | declare
  | generate
  | output
  deriving DecidableEq, Repr

namespace Phase

/-- Work begins with building. -/
instance : Inhabited Phase := ⟨build⟩

/-- The name of a phase. -/
def name : Phase → String
  | build => "build"
  | prepare => "prepare"
  | declare => "declare"
  | generate => "generate"
  | output => "output"

end Phase

namespace Trace

/-- Something worth noting. -/
inductive Event where
  | phaseStart (phase : Phase)
  | phaseEnd (phase : Phase)
  /-- A rule got a pattern. -/
  | ruleDefined (rule : String) (scope : Nat)
  /-- A rule names the reference it consists of. -/
  | ruleAliased (rule target : String)
  /-- A type was created for a rule or an element. -/
  | typeDeclared (name origin : String)
  /-- The members of a rule go into the type that refers to it. -/
  | ruleInlined (rule into : String)
  /-- A type has all its members. -/
  | membersGenerated (type : String) (count : Nat)
  | outputRequested (ns file : String)
  | outputResolved (ns file systemId : String)
  | outputSkipped (ns file : String)
  deriving DecidableEq, Repr

/-- The name of the kind of an event. -/
def Event.kind : Event → String
  | phaseStart _ => "phase-start"
  | phaseEnd _ => "phase-end"
  | ruleDefined _ _ => "rule-defined"
  | ruleAliased _ _ => "rule-aliased"
  | typeDeclared _ _ => "type-declared"
  | ruleInlined _ _ => "rule-inlined"
  | membersGenerated _ _ => "members-generated"
  | outputRequested _ _ => "output-requested"
  | outputResolved _ _ _ => "output-resolved"
  | outputSkipped _ _ => "output-skipped"

/-- A noted event. -/
structure Record where
  /-- The number of records made before this one. -/
  id : Nat
  phase : Phase
  /-- Nanoseconds since tracing began. -/
  elapsed : Nat
  event : Event
  deriving DecidableEq, Repr

end Trace

end MarkupTypes
