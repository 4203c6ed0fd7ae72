import MarkupTypes.Failure
import MarkupTypes.Pattern.Merge
import MarkupTypes.Pattern.Visit

/-!
# Rules

A rule is a named pattern of a grammar. A rule may be mentioned before it has a
pattern, and several definitions of it merge (`Rule.define`). A rule with exactly one
child is inline : it has no type of its own, and stands for its child wherever it is
referred to.

Rules may refer to each other in cycles, so they live in a table (`RuleTable`) and are
known by their index in it.
-/

namespace MarkupTypes

/-- The index of a grammar scope. -/
abbrev ScopeId := Nat

/-- The text of a scope's id. -/
def ScopeId.text (id : ScopeId) : String := "ScopeId(" ++ toString id ++ ")"

/-- The scope of the outermost grammar. -/
def rootScope : ScopeId := 0

/-- The name of the rule that a grammar starts from, which no schema can spell. -/
def startName : String := "\x00#start\x00"

/-- How far a rule has been compiled. -/
inductive RuleState where
  | unprocessed
  /-- The rule and its elements have their types. -/
  | declared
  /-- The types have their members. -/
  | generated
  deriving DecidableEq, Repr

namespace RuleState

instance : Inhabited RuleState := ⟨unprocessed⟩

/-- The name of a state. -/
def name : RuleState → String
  | unprocessed => "unprocessed"
  | declared => "declared"
  | generated => "generated"

end RuleState

/-- A named pattern. -/
structure Rule where
  scope : ScopeId
  name : String
  /-- What the rule stands for, once it has been defined. -/
  pattern : Option Pattern
  /-- Where the rule was first defined. -/
  location : Option Location
  /-- The type that was created for the rule. -/
  output : Option TypeId
  state : RuleState
  deriving DecidableEq, Repr, Inhabited

namespace Rule

/-- A rule that has only been mentioned. -/
def mentioned (scope : ScopeId) (name : String) : Rule :=
  ⟨scope, name, none, none, none, .unprocessed⟩

/-- A grammar starts from this rule. -/
def isStart (r : Rule) : Bool := r.name = startName

/-- The rule has been defined. -/
def isDefined (r : Rule) : Bool := r.pattern.isSome

/-- The children of the rule's pattern. -/
def children (r : Rule) : List Pattern :=
  match r.pattern with
  | some p => p.children
  | none => []

/-- The rule stands for its only child. -/
def isInline (r : Rule) : Bool := r.children.length = 1

/-- The references in the rule's pattern, with their locations. -/
def refs (r : Rule) : List (RuleId × Option Location) :=
  match r.pattern with
  | some p => p.refs
  | none => []

/-- The number of elements in the rule's pattern. -/
def elementCount (r : Rule) : Nat :=
  match r.pattern with
  | some p => p.elementCount
  | none => 0

/-- The name of the rule as it is shown. -/
def displayName (r : Rule) : String := if r.isStart then "start" else r.name

/-- Add a definition : it merges with the earlier ones, and its location counts when no
earlier one had any. -/
def define (r : Rule) (pattern : Pattern) (location : Option Location) : Rule :=
  { r with
    pattern := some (match r.pattern with
      | some earlier => earlier.merge pattern
      | none => pattern)
    location := r.location <|> location }

end Rule

/-- The rules of a schema, each known by its index. -/
structure RuleTable where
  rules : List Rule
  deriving DecidableEq, Repr, Inhabited

namespace RuleTable

/-- The table without rules. -/
def empty : RuleTable := ⟨[]⟩

/-- The number of rules. -/
def size (t : RuleTable) : Nat := t.rules.length

/-- The rule at an index. -/
def get? (t : RuleTable) (id : RuleId) : Option Rule := t.rules[id]?

/-- The rule at an index that a pattern refers to. -/
def require (t : RuleTable) (id : RuleId) : Attempt Rule :=
  match t.get? id with
  | some rule => .ok rule
  | none => .error (.of (.danglingRule id))

/-- The id of the next rule. -/
def nextId (t : RuleTable) : RuleId := t.size

/-- Add a rule at the end. -/
def push (t : RuleTable) (rule : Rule) : RuleTable := ⟨t.rules ++ [rule]⟩

/-- Change the rule at an index, if there is one. -/
def modify (t : RuleTable) (id : RuleId) (f : Rule → Rule) : RuleTable := ⟨t.rules.modify id f⟩

/-- The number of elements in all patterns of the table. -/
def elementCount (t : RuleTable) : Nat :=
  t.rules.foldr (fun rule count => rule.elementCount + count) 0

end RuleTable

end MarkupTypes
