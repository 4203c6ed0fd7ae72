import MarkupTypes.Location

/-!
# Failures

A failure is the cause of a stop (`Cause`) together with the trail that says where in
the schema it arose (`Trail`) : an optional location and the rules that were being
compiled, innermost first. `Failure.inRule` adds a rule to the trail, and
`Failure.located` fills in a location only when the trail has none.
-/

namespace MarkupTypes

/-- Why a schema could not be built or compiled. -/
inductive Cause where
  /-- The schema itself is wrong. -/
  | malformedSchema (message : String) (location : Option Location)
  /-- A grammar that the schema refers to could not be read. -/
  | externalGrammar (uri message : String)
  /-- An operation was called with an argument it does not take. -/
  | badArgument (what : String) (argument : Option String)
  /-- A rule is referred to and never defined. -/
  | undefinedRule (name : String)
  /-- A rule is spliced into itself. -/
  | recursiveInline (rule : String)
  /-- An operation was called out of order, or an id is not in use. -/
  | misuse (message : String)
  /-- A pattern refers to a rule that is not in the table. -/
  | danglingRule (id : Nat)
  deriving DecidableEq, Repr, Inhabited

namespace Cause

/-- The wording of a cause. -/
def message : Cause → String
  | malformedSchema text none => "schema build error: " ++ text
  | malformedSchema text (some loc) => "schema build error at " ++ loc.text ++ ": " ++ text
  | externalGrammar uri text => "failed to parse external grammar " ++ uri ++ ": " ++ text
  | badArgument what none => "cannot handle " ++ what ++ " argument"
  | badArgument what (some argument) =>
    "cannot handle " ++ what ++ " '" ++ argument ++ "' argument"
  | undefinedRule name => "reference to undefined rule: " ++ name
  | recursiveInline rule => "rule " ++ rule ++ " inlines itself without an intervening element"
  | misuse text => "internal error: " ++ text
  | danglingRule id => "rule " ++ toString id ++ " is not in the table"

/-- The location that is part of the cause itself. -/
def location : Cause → Option Location
  | malformedSchema _ loc => loc
  | _ => none

end Cause

/-- Where in the schema a failure arose. -/
structure Trail where
  location : Option Location
  /-- The rules being compiled, innermost first. -/
  rules : List String
  deriving DecidableEq, Repr, Inhabited

namespace Trail

/-- The trail that says nothing. -/
def empty : Trail := ⟨none, []⟩

/-- The trail that starts at a location. -/
def starting (loc : Location) : Trail := ⟨some loc, []⟩

/-- The trail, seen from the rule around it. -/
def inRule (trail : Trail) (rule : String) : Trail :=
  { trail with rules := trail.rules ++ [rule] }

/-- The trail at a location, unless it has one already. -/
def located (trail : Trail) (loc : Location) : Trail :=
  { trail with location := trail.location <|> some loc }

/-- The location on the first line, then a line for each rule. -/
def text (trail : Trail) : String :=
  (match trail.location with
    | some loc => "at " ++ loc.text
    | none => "") ++
  String.join (trail.rules.map fun rule => "\n  in " ++ rule)

end Trail

/-- A failed operation on a schema. -/
structure Failure where
  cause : Cause
  /-- Where it arose, once that has been noted. -/
  trail : Option Trail
  deriving DecidableEq, Repr, Inhabited

namespace Failure

/-- A failure that has not been placed yet. -/
def of (cause : Cause) : Failure := ⟨cause, none⟩

/-- The failure, seen from the rule around it. -/
def inRule (f : Failure) (rule : String) : Failure :=
  { f with trail := some ((f.trail.getD Trail.empty).inRule rule) }

/-- The failure at a location, unless it has one already. -/
def located (f : Failure) : Option Location → Failure
  | none => f
  | some loc => { f with trail := some ((f.trail.getD Trail.empty).located loc) }

/-- The location of the cause, else that of the trail. -/
def location (f : Failure) : Option Location :=
  f.cause.location <|> f.trail.bind Trail.location

/-- The wording of the failure, without its trail. -/
def message (f : Failure) : String := f.cause.message

end Failure

/-- A result of an operation on a schema. -/
abbrev Attempt (α : Type) := Except Failure α

namespace Attempt

/-- The value of an attempt, or its failure, within work on a state, which stays as it
is. -/
def lift {σ α : Type} : Attempt α → EStateM Failure σ α
  | .ok x => pure x
  | .error failure => throw failure

/-- A value that must not be empty. -/
def nonEmpty (value argument : String) : Attempt String :=
  if value.isEmpty then .error (.of (.badArgument "empty" (some argument))) else .ok value

/-- A condition that callers must keep. -/
def ensure (condition : Bool) (message : String) : Attempt Unit :=
  if condition then .ok () else .error (.of (.misuse message))

end Attempt

end MarkupTypes
