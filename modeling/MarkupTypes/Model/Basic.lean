import MarkupTypes.Rule
import MarkupTypes.SortedMap

/-!
# Writer types

The outcome of compiling a schema : types for a writer, each with a member for every
attribute and every element that may stand at a place, and the types it takes further
members from.

A model keeps its types in the order of their creation, where the index of a type is
its id, and knows them by name and by the rule they were created for.
-/

namespace MarkupTypes

/-- What tells rules apart : two grammars may have rules of one name. -/
structure RuleKey where
  scope : ScopeId
  name : String
  deriving DecidableEq, Repr, Inhabited

namespace RuleKey

/-- Keys compare by scope, then by name. -/
protected def compare (a b : RuleKey) : Ordering :=
  (Ord.compare a.scope b.scope).then (Ord.compare a.name b.name)

instance : Ord RuleKey := ⟨RuleKey.compare⟩

end RuleKey

/-- The key of a rule. -/
def Rule.key (r : Rule) : RuleKey := ⟨r.scope, r.name⟩

/-- What a type was created for. -/
inductive Origin where
  | rule (key : RuleKey)
  | element (name : QName)
  deriving DecidableEq, Repr, Inhabited

/-- The text of an origin. -/
def Origin.text : Origin → String
  | rule key => "rule " ++ (if key.name = startName then "start" else key.name)
  | element name => "element " ++ name.clark

/-- What a member writes. -/
inductive MemberKind where
  | attr
  | elem
  deriving DecidableEq, Repr, Inhabited

/-- What the method of a member returns. -/
inductive Returns where
  /-- The writer it belongs to, so that calls can be chained. -/
  | owner
  | nothing
  deriving DecidableEq, Repr, Inhabited

/-- A method of a writer type, which writes an attribute or an element. -/
structure Member where
  kind : MemberKind
  name : QName
  /-- The name of the rule that stands for the attribute or element alone. -/
  label : Option String
  /-- The types of values that it takes. -/
  values : List ValueType
  /-- The type that writes the content of the element. -/
  content : Option TypeId
  returns : Returns
  /-- It need not be written. -/
  optional : Bool
  deriving DecidableEq, Repr, Inhabited

/-- The name of the method. -/
def Member.methodName (m : Member) : String := m.name.localName

/-- A type of writers. -/
structure WriterType where
  id : TypeId
  name : String
  origin : Origin
  members : List Member
  /-- The types it takes further members from, by ascending id. -/
  parents : List TypeId
  typedWriter : Bool
  deriving DecidableEq, Repr, Inhabited

namespace WriterType

/-- A type that has just been created. -/
def new (id : TypeId) (name : String) (origin : Origin) : WriterType :=
  ⟨id, name, origin, [], [], true⟩

/-- The member of a kind and a name. -/
def member? (t : WriterType) (kind : MemberKind) (name : QName) : Option Member :=
  t.members.find? fun m => m.kind = kind && m.name = name

/-- The first member of a kind with a local name, in any namespace. -/
def memberNamed? (t : WriterType) (kind : MemberKind) (localName : String) : Option Member :=
  t.members.find? fun m => m.kind = kind && m.name.localName = localName

/-- The type with one more member. -/
def addMember (t : WriterType) (m : Member) : WriterType :=
  { t with members := t.members ++ [m] }

/-- The type with one more type to take members from. -/
def addParent (t : WriterType) (parent : TypeId) : WriterType :=
  { t with parents := insertId parent t.parents }

end WriterType

/-- The types of a schema. -/
structure Model where
  /-- The types in order of their ids. -/
  types : List WriterType
  names : SortedMap String TypeId
  /-- The types that were created for rules. -/
  rules : SortedMap RuleKey TypeId
  /-- The type a document starts from. -/
  root : Option TypeId
  deriving DecidableEq, Repr, Inhabited

namespace Model

/-- The model without types. -/
def empty : Model := ⟨[], .empty, .empty, none⟩

/-- The number of types. -/
def size (m : Model) : Nat := m.types.length

/-- The type of an id. -/
def get? (m : Model) (id : TypeId) : Option WriterType := m.types[id]?

/-- The type of a name. -/
def byName? (m : Model) (name : String) : Option WriterType :=
  (m.names.get? name).bind m.get?

/-- The type of a rule, in the outermost scope if there is one, else in the first scope
that has one. -/
def typeForRule? (m : Model) (name : String) : Option WriterType :=
  let id := m.rules.get? ⟨rootScope, name⟩ <|>
    (m.rules.entries.find? fun e => e.1.name = name).map Prod.snd
  id.bind m.get?

/-- The type a document starts from. -/
def rootType? (m : Model) : Option WriterType := m.root.bind m.get?

/-- Change the type of an id, if there is one. -/
def modify (m : Model) (id : TypeId) (f : WriterType → WriterType) : Model :=
  { m with types := m.types.modify id f }

/-- The name of the type of an id. -/
def nameOf (m : Model) (id : TypeId) : String :=
  match m.get? id with
  | some t => t.name
  | none => "?"

end Model

end MarkupTypes
