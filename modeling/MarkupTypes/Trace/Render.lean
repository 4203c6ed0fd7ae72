import MarkupTypes.Text.Elapsed
import MarkupTypes.Text.Escaped
import MarkupTypes.Trace.Event

/-!
# Written trace records

Two forms of a record : a line for reading (`Line.render`), which may show the id and
the elapsed time, and a JSON object (`Record.toJson`) with the fields `id`, `phase`,
`timestamp_ns`, `type` and `data`. Several lines stand below each other, and several
objects in an array.
-/

namespace MarkupTypes.Trace

/-- The text of an event. -/
def Event.text : Event → String
  | phaseStart phase => ">> " ++ phase.name
  | phaseEnd phase => "<< " ++ phase.name
  | ruleDefined rule scope => "  DEFINE " ++ rule ++ " (scope " ++ toString scope ++ ")"
  | ruleAliased rule target => "  ALIAS " ++ target ++ " as " ++ rule
  | typeDeclared name origin => "  DECLARE " ++ name ++ " for " ++ origin
  | ruleInlined rule into => "  INLINE " ++ rule ++ " into " ++ into
  | membersGenerated type count =>
    "  GENERATE " ++ type ++ ": " ++ toString count ++ " member(s)"
  | outputRequested ns file => "  OUTPUT? [" ++ ns ++ "] " ++ file
  | outputResolved ns file systemId => "  OUTPUT [" ++ ns ++ "] " ++ file ++ " -> " ++ systemId
  | outputSkipped ns file => "  SKIP [" ++ ns ++ "] " ++ file

/-! ## Lines -/

/-- A text with a filler before it, so that it takes `width` characters. -/
def padLeft (filler : Char) (width : Nat) (s : String) : String :=
  String.ofList (List.replicate (width - s.length) filler) ++ s

/-- What a line shows besides the phase and the event. -/
structure Line where
  ids : Bool
  times : Bool
  deriving DecidableEq, Repr

namespace Line

/-- A record on one line : the id with six digits, the phase, the elapsed time in ten
columns and the event. -/
def render (line : Line) (r : Record) : String :=
  (if line.ids then "[" ++ padLeft '0' 6 (toString r.id) ++ "] " else "") ++
  r.phase.name ++ " " ++
  (if line.times then padLeft ' ' 10 (Text.Elapsed.text r.elapsed) ++ " " else "") ++
  r.event.text

/-- Records on a line each. -/
def renderAll (line : Line) (rs : List Record) : String :=
  "\n".intercalate (rs.map line.render)

end Line

/-! ## JSON -/

/-- The value of a field of a JSON record. -/
inductive Field where
  | text (value : String)
  | number (value : Nat)
  deriving DecidableEq, Repr

/-- The text of a field's value. -/
def Field.json : Field → String
  | .text value => Text.Escaped.quote value
  | .number value => toString value

/-- The name of a field, then its value. -/
def fieldJson (key : String) (field : Field) : String :=
  Text.Escaped.quote key ++ ": " ++ field.json

/-- Fields in order, separated by a comma and a blank. -/
def fieldsJson (fields : List (String × Field)) : String :=
  ", ".intercalate (fields.map fun (key, field) => fieldJson key field)

/-- The parts of an event, named. -/
def Event.fields : Event → List (String × Field)
  | phaseStart phase | phaseEnd phase => [("target", .text phase.name)]
  | ruleDefined rule scope => [("rule", .text rule), ("scope", .number scope)]
  | ruleAliased rule target => [("rule", .text rule), ("target", .text target)]
  | typeDeclared name origin => [("name", .text name), ("origin", .text origin)]
  | ruleInlined rule into => [("rule", .text rule), ("into", .text into)]
  | membersGenerated type count => [("type", .text type), ("count", .number count)]
  | outputRequested ns file | outputSkipped ns file =>
    [("namespace", .text ns), ("file", .text file)]
  | outputResolved ns file systemId =>
    [("namespace", .text ns), ("file", .text file), ("system_id", .text systemId)]

/-- A record as a JSON object. -/
def Record.toJson (r : Record) : String :=
  "\x7b" ++
    fieldsJson
      [("id", .number r.id), ("phase", .text r.phase.name), ("timestamp_ns", .number r.elapsed),
        ("type", .text r.event.kind)] ++
    ", \"data\": \x7b" ++ fieldsJson r.event.fields ++ "\x7d\x7d"

/-- Records as a JSON array. -/
def Record.allToJson (rs : List Record) : String :=
  "[" ++ ",".intercalate (rs.map Record.toJson) ++ "]"

end MarkupTypes.Trace
