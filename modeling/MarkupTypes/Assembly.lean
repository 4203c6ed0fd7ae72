import MarkupTypes.Datatypes
import MarkupTypes.Pattern.Construct
import MarkupTypes.Scopes
import MarkupTypes.Trace.Tracer

/-!
# Assembling a schema

The rules of a schema are collected while it is read (`Assembly`). Grammars open scopes,
definitions and references add rules to them, and the constructs of values look up their
datatypes. A construct that fails leaves the rules as they are.

In the end there is one entry rule (`Assembly.finish`) : the rule that the pattern of
the whole schema refers to, or a start rule made for that pattern.
-/

namespace MarkupTypes

/-- The rules of a schema that is being read. -/
structure Assembly where
  scopes : Scopes
  datatypes : Datatypes
  tracer : Trace.Tracer

/-- Work on an assembly. After a failure the assembly is as the work left it. -/
abbrev Assembling := EStateM Failure Assembly

namespace Assembly

/-- No rules yet, and no trace. -/
def new (datatypes : Datatypes) : Assembly := ⟨.empty, datatypes, .off⟩

/-- The assembly with a tracer, which enters the build phase. -/
def withTracer (a : Assembly) (tracer : Trace.Tracer) : Assembly :=
  { a with tracer := tracer.startPhase .build }

/-- Comments of a schema are not asked for. -/
def usesComments : Bool := false

/-- There is no list of comments. -/
def commentList : Option (List String) := none

/-! ## Values -/

/-- A data pattern of a datatype. -/
def dataPattern (a : Assembly) (library type : String) (location : Option Location) :
    DataPattern :=
  .new (a.datatypes.valueType library type) location

/-- One value of a datatype. -/
def value (a : Assembly) (library type literal : String) (location : Option Location) : Pattern :=
  .value ⟨false, location⟩ (a.datatypes.valueType library type) literal

/-! ## Grammars -/

/-- Change the scopes, unless the change fails. -/
def onScopes {α : Type} (change : Scopes → Attempt (Scopes × α)) : Assembling α := fun a =>
  match change a.scopes with
  | .ok (scopes, x) => .ok x { a with scopes }
  | .error failure => .error failure a

/-- Open a grammar inside a scope. -/
def grammar (parent : Option ScopeId) : Assembling ScopeId :=
  onScopes fun s => .ok (s.openScope parent, s.nextId)

/-- Define a rule, and note that. -/
def define (scope : ScopeId) (name : String) (pattern : Pattern) (location : Option Location) :
    Assembling Unit := do
  let id ← onScopes (·.define scope name pattern location)
  modify fun a =>
    match a.scopes.table.get? id with
    | some rule => { a with tracer := a.tracer.note (.ruleDefined rule.displayName scope) }
    | none => a

/-- Refer to a rule. -/
def reference (scope : ScopeId) (name : String) (location : Option Location) : Assembling Pattern :=
  onScopes (·.reference scope name location)

/-- Refer to a rule of the scope around a scope. -/
def parentReference (scope : ScopeId) (name : String) (location : Option Location) :
    Assembling Pattern :=
  onScopes (·.parentReference scope name location)

/-- Close a grammar. -/
def endGrammar (scope : ScopeId) (location : Option Location) : Assembling Pattern :=
  onScopes fun s => return (s, ← s.close scope location)

/-- What `read` makes of an external grammar. A failure of it is one of the reference,
unless it is one of a reference already. -/
def external (uri : String) (location : Option Location) (read : Assembling Pattern) :
    Assembling Pattern := fun a =>
  match read a with
  | .ok p a => .ok p a
  | .error failure a =>
    match failure.cause with
    | .externalGrammar _ _ => .error failure a
    | cause =>
      let place := match location with
        | some loc => " (referenced at " ++ loc.text ++ ")"
        | none => ""
      .error (.of (.externalGrammar uri (cause.message ++ place))) a

/-! ## Finishing -/

/-- The rules of a finished schema. -/
structure Finished where
  rules : RuleTable
  /-- The rule that documents start from. -/
  entry : RuleId
  tracer : Trace.Tracer
  deriving DecidableEq, Repr

/-- The rules of the schema with pattern `top`. The entry is the rule that the pattern
refers to, and a pattern that is no reference gets a start rule of its own. -/
def finish (a : Assembly) (top : Pattern) : Finished :=
  match top with
  | .ref _ rule _ => ⟨a.scopes.table, rule, a.tracer.endPhase⟩
  | top =>
    let rule := (Rule.mentioned rootScope startName).define top top.location
    ⟨a.scopes.table.push rule, a.scopes.table.nextId,
      (a.tracer.note (.ruleDefined rule.displayName rootScope)).endPhase⟩

end Assembly

end MarkupTypes
