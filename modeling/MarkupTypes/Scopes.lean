import MarkupTypes.Rule
import MarkupTypes.SortedMap

/-!
# Grammar scopes

Every grammar opens a scope in which its rules have their names. A rule is added to the
table when its name is first mentioned in a scope, by a definition or by a reference, so
rules may be used before they are defined and may refer to themselves. Whether each of
them was defined in the end is not known here.
-/

namespace MarkupTypes

/-- The rules of one grammar. -/
structure Scope where
  /-- The scope of the grammar around it. -/
  parent : Option ScopeId
  rules : SortedMap String RuleId
  deriving DecidableEq, Repr, Inhabited

/-- The scopes of a schema, with the rules of all of them. -/
structure Scopes where
  scopes : List Scope
  table : RuleTable
  deriving DecidableEq, Repr, Inhabited

namespace Scopes

/-- No scopes and no rules. -/
def empty : Scopes := ⟨[], .empty⟩

/-- The id of the next scope. -/
def nextId (s : Scopes) : ScopeId := s.scopes.length

/-- Open a scope inside another. -/
def openScope (s : Scopes) (parent : Option ScopeId) : Scopes :=
  { s with scopes := s.scopes ++ [⟨parent, .empty⟩] }

/-- The scope of an id. -/
def scope (s : Scopes) (id : ScopeId) : Attempt Scope :=
  match s.scopes[id]? with
  | some scope => .ok scope
  | none => .error (.of (.misuse ("unknown scope " ++ ScopeId.text id)))

/-- The scope around a scope. -/
def parent (s : Scopes) (id : ScopeId) : Attempt (Option ScopeId) := Scope.parent <$> s.scope id

/-- The rule of a name in a scope, if it has been mentioned. -/
def lookup? (s : Scopes) (id : ScopeId) (name : String) : Option RuleId :=
  s.scopes[id]?.bind fun scope => scope.rules.get? name

/-- The rule of a name in a scope, which is added if it has not been mentioned. -/
def mention (s : Scopes) (id : ScopeId) (name : String) : Attempt (Scopes × RuleId) := do
  let scope ← s.scope id
  match scope.rules.get? name with
  | some rule => return (s, rule)
  | none =>
    let rule := s.table.nextId
    let scopes := s.scopes.set id { scope with rules := scope.rules.insert name rule }
    return (⟨scopes, s.table.push (.mentioned id name)⟩, rule)

/-- Add a definition of a rule. -/
def define (s : Scopes) (id : ScopeId) (name : String) (pattern : Pattern)
    (location : Option Location) : Attempt (Scopes × RuleId) := do
  let name ← Attempt.nonEmpty name "name"
  let (s, rule) ← s.mention id name
  return ({ s with table := s.table.modify rule (·.define pattern location) }, rule)

/-- A reference to a rule. -/
def reference (s : Scopes) (id : ScopeId) (name : String) (location : Option Location) :
    Attempt (Scopes × Pattern) := do
  let name ← Attempt.nonEmpty name "name"
  let (s, rule) ← s.mention id name
  return (s, .ref ⟨false, location⟩ rule none)

/-- A reference to a rule of the scope around a scope. -/
def parentReference (s : Scopes) (id : ScopeId) (name : String) (location : Option Location) :
    Attempt (Scopes × Pattern) := do
  match ← s.parent id with
  | some parent => s.reference parent name location
  | none =>
    let message := "parentRef to " ++ name ++ " outside a nested grammar"
    .error (.of (.malformedSchema message location))

/-- The rule that a grammar starts from, if it has been defined. -/
def start? (s : Scopes) (id : ScopeId) : Option RuleId := do
  let rule ← s.lookup? id startName
  if (← s.table.get? rule).isDefined then some rule else none

/-- The pattern of a whole grammar : a reference to its start rule. -/
def close (s : Scopes) (id : ScopeId) (location : Option Location) : Attempt Pattern :=
  match s.start? id with
  | some rule => .ok (.ref ⟨false, location⟩ rule none)
  | none => .error (.of (.malformedSchema "grammar has no start rule" location))

end Scopes

end MarkupTypes
