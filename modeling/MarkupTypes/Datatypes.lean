import MarkupTypes.Pattern.Basic

/-!
# Datatypes

Schemas name datatypes by a library and a name within it. A resolver knows the value
types of such names (`Datatypes`), and what it does not know is text
(`Datatypes.valueType`). The datatypes of XML Schema are one resolver, where integers
without a bound that fits a machine word stay unbounded.
-/

namespace MarkupTypes

/-- The value types of the datatypes of some libraries, by library and name. -/
abbrev Datatypes := String → String → Option ValueType

namespace Datatypes

/-- The value type of a datatype, which is text if it is not known. -/
def valueType (types : Datatypes) (library name : String) : ValueType :=
  (types library name).getD .text

/-- The library of the datatypes of XML Schema. -/
def xsdLibrary : String := "http://www.w3.org/2001/XMLSchema-datatypes"

/-- The datatypes of XML Schema that are not written as text. -/
def xsdTypes : List (String × ValueType) :=
  [("boolean", .boolean), ("byte", .byte), ("short", .short), ("unsignedByte", .short),
    ("int", .int), ("unsignedShort", .int), ("long", .long), ("unsignedInt", .long),
    ("integer", .integer), ("nonPositiveInteger", .integer), ("negativeInteger", .integer),
    ("nonNegativeInteger", .integer), ("positiveInteger", .integer), ("unsignedLong", .integer),
    ("decimal", .decimal), ("float", .float), ("double", .double), ("QName", .qname),
    ("date", .calendar), ("dateTime", .calendar), ("time", .calendar), ("gYear", .calendar),
    ("gYearMonth", .calendar), ("gMonth", .calendar), ("gMonthDay", .calendar),
    ("gDay", .calendar), ("duration", .duration), ("base64Binary", .bytes),
    ("hexBinary", .bytes), ("anyURI", .uri), ("NMTOKENS", .list .text), ("IDREFS", .list .text),
    ("ENTITIES", .list .text)]

/-- The datatypes of XML Schema. -/
def xsd : Datatypes := fun library name =>
  if library = xsdLibrary then some ((xsdTypes.lookup name).getD .text) else none

/-- A row of a table of datatypes. -/
structure Row where
  /-- The library, or any. -/
  library : Option String
  name : String
  type : ValueType
  deriving DecidableEq, Repr, Inhabited

/-- The datatypes of a table, where the first row that fits counts. -/
def ofRows (rows : List Row) : Datatypes := fun library name =>
  (rows.find? fun row => row.library.all (· = library) && row.name = name).map Row.type

end Datatypes

/-- A data pattern in the making. -/
structure DataPattern where
  type : ValueType
  /-- The facets given so far; they do not change the type. -/
  params : List (String × String)
  location : Option Location
  deriving DecidableEq, Repr, Inhabited

namespace DataPattern

/-- A data pattern without facets. -/
def new (type : ValueType) (location : Option Location) : DataPattern := ⟨type, [], location⟩

/-- Add a facet. -/
def addParam (d : DataPattern) (name value : String) : DataPattern :=
  { d with params := d.params ++ [(name, value)] }

/-- The pattern, at its own location if it has one. Exceptions from the type would not
change it. -/
def pattern (d : DataPattern) (location : Option Location) : Pattern :=
  .data ⟨false, location <|> d.location⟩ d.type

end DataPattern

end MarkupTypes
