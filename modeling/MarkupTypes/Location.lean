/-!
# Locations in a schema

Where a construct stands in a schema : the document it is in, if that is known, with a
line and a column.
-/

namespace MarkupTypes

/-- A place in a schema document. -/
structure Location where
  /-- The identifier of the document, if it is known. -/
  systemId : Option String
  line : Nat
  column : Nat
  deriving DecidableEq, Repr, Inhabited

namespace Location

/-- The location that says nothing. -/
def unknown : Location := ⟨none, 0, 0⟩

/-- A location is unknown when no part of it says anything. -/
def isUnknown (loc : Location) : Bool :=
  loc.systemId.isNone && loc.line == 0 && loc.column == 0

/-- The document, the line and the column, separated by colons. -/
def text (loc : Location) : String :=
  loc.systemId.getD "<unknown>" ++ ":" ++ toString loc.line ++ ":" ++ toString loc.column

end Location

end MarkupTypes
