import MarkupTypes.Failure
import MarkupTypes.NameClass
import MarkupTypes.Pattern.Merge

/-!
# The constructs of a schema

What the constructs of a schema make of their operands. Choice, group and interleave
merge them (`Pattern.combined`). Repetition is not kept : what must occur is itself, and
what may be left out merges with the empty pattern. What is not allowed, or could not be
read, is the empty pattern. An attribute or an element stands for one of every name that
its class lists (`Pattern.perName`).
-/

namespace MarkupTypes

/-- The ways to put operands together, none of which is told apart from the others in a
pattern. -/
inductive Connective where
  | choice
  | group
  | interleave
  deriving DecidableEq, Repr, Inhabited

/-- The name of a connective in a schema. -/
def Connective.name : Connective → String
  | choice => "choice"
  | group => "group"
  | interleave => "interleave"

namespace Pattern

/-- Operands put together, of which there must be one. The location of the construct
counts when the first operand has none. -/
def combined (how : Connective) (operands : List Pattern) (location : Option Location) :
    Attempt Pattern :=
  match mergeAll? operands with
  | none => .error (.of (.malformedSchema (how.name ++ " has no patterns") location))
  | some p => .ok (if p.location.isNone then p.atLocation location else p)

/-- The empty pattern at a location. -/
def emptyAt (location : Option Location) : Pattern := empty ⟨false, location⟩

/-- Any text, at a location. -/
def textAt (location : Option Location) : Pattern := data ⟨false, location⟩ .text

/-- One or more occurrences of a pattern. -/
def oneOrMore (p : Pattern) : Pattern := p

/-- Any number of occurrences of a pattern. -/
def zeroOrMore (p : Pattern) (location : Option Location) : Pattern :=
  p.merge (emptyAt location)

/-- One occurrence of a pattern, or none. -/
def atMostOne (p : Pattern) (location : Option Location) : Pattern :=
  p.merge (emptyAt location)

/-- A list of values that match a pattern. -/
def listAt (item : Pattern) (location : Option Location) : Pattern :=
  list ⟨false, location⟩ item

/-- A pattern with text around it. -/
def mixed (p : Pattern) (location : Option Location) : Pattern :=
  p.merge (textAt location)

/-- The pattern of what is not allowed. -/
def notAllowed (location : Option Location) : Pattern := emptyAt location

/-- The pattern of what could not be read. -/
def unreadable : Pattern := emptyAt none

/-- What `make` makes of the names of a class, merged. -/
def perName (names : NameClass) (location : Option Location) (make : QName → Pattern) : Pattern :=
  (mergeAll? (names.names.map fun name => (make name).atLocation location)).getD
    (emptyAt location)

/-- The attributes of a name class. -/
def attributes (names : NameClass) (content : Pattern) (location : Option Location) : Pattern :=
  perName names location fun name => ofAttribute name content

/-- The elements of a name class. -/
def elementsOf (names : NameClass) (content : Pattern) (location : Option Location) : Pattern :=
  perName names location fun name => ofElement name content

end Pattern

end MarkupTypes
