import MarkupTypes.Json
import MarkupTypes.Model.Basic

/-!
# Models in JSON

How a model and its parts are written in JSON (`toJson`) and read back (`ofJson?`).
Structures are objects with a field for each part, alternatives are strings or objects
with one field, and ids are numbers that fit in a word. Maps are objects whose fields are
named by keys. The keys of the rules of a model are objects themselves and name no
fields, so a model with rules is not written, and no rules are read.
-/

namespace MarkupTypes

namespace QName

/-- A name as an object with its namespace and its local name. -/
def toJson (q : QName) : Json :=
  .object [("namespace", .string q.ns), ("local", .string q.localName)]

/-- A name from the fields of an object. -/
def ofJson? (v : Json) : Option QName := do
  match ← v.fields? ["namespace", "local"] with
  | [ns, localName] => return ⟨← ns.string?, ← localName.string?⟩
  | _ => none

end QName

namespace Location

/-- A location as an object with its parts. -/
def toJson (l : Location) : Json :=
  .object
    [("system_id", .ofOption .string l.systemId), ("line", .number l.line),
      ("column", .number l.column)]

/-- A location from the fields of an object. -/
def ofJson? (v : Json) : Option Location := do
  match ← v.fields? ["system_id", "line", "column"] with
  | [systemId, line, column] =>
    return ⟨← systemId.option? Json.string?, ← line.word?, ← column.word?⟩
  | _ => none

end Location

namespace ValueType

/-- The names of the plain types in JSON. -/
def plainNames : List (String × ValueType) :=
  [("Text", text), ("Boolean", boolean), ("Byte", byte), ("Short", short), ("Int", int),
    ("Long", long), ("Integer", integer), ("Decimal", decimal), ("Float", float),
    ("Double", double), ("QName", qname), ("Calendar", calendar), ("Duration", duration),
    ("Bytes", bytes), ("Uri", uri)]

/-- A plain type is written as its name, a list type as an object with its item. -/
def toJson : ValueType → Json
  | text => .string "Text"
  | boolean => .string "Boolean"
  | byte => .string "Byte"
  | short => .string "Short"
  | int => .string "Int"
  | long => .string "Long"
  | integer => .string "Integer"
  | decimal => .string "Decimal"
  | float => .string "Float"
  | double => .string "Double"
  | qname => .string "QName"
  | calendar => .string "Calendar"
  | duration => .string "Duration"
  | bytes => .string "Bytes"
  | uri => .string "Uri"
  | list item => .object [("List", item.toJson)]

mutual

/-- A type is read from its name or from an object with one field. -/
def ofJson? : Json → Option ValueType
  | .string name => plainNames.lookup name
  | .object fields => ofFields? fields
  | _ => none

/-- A type from the only field of an object. -/
def ofFields? : List (String × Json) → Option ValueType
  | [field] => ofField? field
  | _ => none

/-- A list type from its item, or a plain type from its name beside null. -/
def ofField? : String × Json → Option ValueType
  | (name, v) =>
    if name = "List" then (ofJson? v).map list
    else if v.isNull then plainNames.lookup name
    else none

end

end ValueType

namespace RuleKey

/-- A key as an object with its scope and its name. -/
def toJson (key : RuleKey) : Json :=
  .object [("scope", .number key.scope), ("name", .string key.name)]

/-- A key from the fields of an object. -/
def ofJson? (v : Json) : Option RuleKey := do
  match ← v.fields? ["scope", "name"] with
  | [scope, name] => return ⟨← scope.word?, ← name.string?⟩
  | _ => none

end RuleKey

namespace Origin

/-- An origin as an object with one field, named for the kind of origin. -/
def toJson : Origin → Json
  | rule key => .object [("Rule", key.toJson)]
  | element name => .object [("Element", name.toJson)]

/-- An origin from an object with one field. -/
def ofJson? (v : Json) : Option Origin := do
  match ← v.variant? with
  | ("Rule", some key) => rule <$> RuleKey.ofJson? key
  | ("Element", some name) => element <$> QName.ofJson? name
  | _ => none

end Origin

namespace MemberKind

/-- The name of a kind. -/
def name : MemberKind → String
  | attr => "Attribute"
  | elem => "Element"

/-- A kind as its name. -/
def toJson (k : MemberKind) : Json := .string k.name

/-- A kind from its name. -/
def ofJson? : Json → Option MemberKind :=
  Json.oneOf? [(attr.name, attr), (elem.name, elem)]

end MemberKind

namespace Returns

/-- The name of what a method returns. -/
def name : Returns → String
  | owner => "Owner"
  | nothing => "Nothing"

/-- What a method returns, by its name. -/
def toJson (r : Returns) : Json := .string r.name

/-- What a method returns, from its name. -/
def ofJson? : Json → Option Returns :=
  Json.oneOf? [(owner.name, owner), (nothing.name, nothing)]

end Returns

namespace Member

/-- A member as an object with its parts. -/
def toJson (m : Member) : Json :=
  .object
    [("kind", m.kind.toJson), ("name", m.name.toJson), ("alias", .ofOption .string m.label),
      ("values", .array (m.values.map ValueType.toJson)),
      ("content", .ofOption .number m.content), ("returns", m.returns.toJson),
      ("optional", .bool m.optional)]

/-- A member from the fields of an object. -/
def ofJson? (v : Json) : Option Member := do
  match ← v.fields? ["kind", "name", "alias", "values", "content", "returns", "optional"] with
  | [kind, name, label, values, content, returns, optional] =>
    return ⟨← MemberKind.ofJson? kind, ← QName.ofJson? name, ← label.option? Json.string?,
      ← values.list? ValueType.ofJson?, ← content.option? Json.word?, ← Returns.ofJson? returns,
      ← optional.bool?⟩
  | _ => none

end Member

namespace WriterType

/-- A type as an object with its parts. -/
def toJson (t : WriterType) : Json :=
  .object
    [("id", .number t.id), ("name", .string t.name), ("origin", t.origin.toJson),
      ("members", .array (t.members.map Member.toJson)),
      ("extends", .array (t.parents.map .number)), ("typed_writer", .bool t.typedWriter)]

/-- A type from the fields of an object, where its parents may come in any order. -/
def ofJson? (v : Json) : Option WriterType := do
  match ← v.fields? ["id", "name", "origin", "members", "extends", "typed_writer"] with
  | [id, name, origin, members, parents, typedWriter] =>
    return ⟨← id.word?, ← name.string?, ← Origin.ofJson? origin, ← members.list? Member.ofJson?,
      (← parents.list? Json.word?).foldl (fun ids id => insertId id ids) [],
      ← typedWriter.bool?⟩
  | _ => none

end WriterType

namespace Model

/-- A model as an object with its parts, if the keys of its rules can name fields. -/
def toJson? (m : Model) : Option Json := do
  let names ← Json.ofEntries? (m.names.entries.map fun e => (.string e.1, .number e.2))
  let rules ← Json.ofEntries? (m.rules.entries.map fun e => (e.1.toJson, .number e.2))
  return .object
    [("types", .array (m.types.map WriterType.toJson)), ("names", names), ("rules", rules),
      ("root", .ofOption .number m.root)]

/-- A model from the fields of an object, where the keys of its rules are read from the
names of fields. -/
def ofJson? (v : Json) : Option Model := do
  match ← v.fields? ["types", "names", "rules", "root"] with
  | [types, names, rules, root] =>
    return ⟨← types.list? WriterType.ofJson?, .ofList (← names.entries? Json.string? Json.word?),
      .ofList (← rules.entries? RuleKey.ofJson? Json.word?), ← root.option? Json.word?⟩
  | _ => none

end Model

end MarkupTypes
