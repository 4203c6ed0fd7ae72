import MarkupTypes.Assembly
import MarkupTypes.Compilation.Basic

/-!
# Schemas

A schema as a tree of constructs (`Schema`), what it builds (`Schema.build`) and the
model that it compiles to (`Schema.compile`). The parts of a construct are built from
left to right before it, and the first failure ends the work.

A schema may refer to other schemas by their URIs (`Externals`). Such a schema is built
in the scope of the reference and in the namespace that the reference gives.
-/

namespace MarkupTypes

/-- What a definition says besides its pattern. -/
structure DefinitionHead where
  name : String
  location : Option Location
  deriving DecidableEq, Repr, Inhabited

/-- The datatype of a data construct. -/
structure DataHead where
  library : String
  type : String
  params : List (String × String)
  /-- Where the datatype is named. -/
  typeLocation : Option Location
  /-- Where the construct stands. -/
  location : Option Location
  deriving DecidableEq, Repr, Inhabited

/-- A schema or a part of one. -/
inductive Schema where
  | combine (how : Connective) (operands : List Schema) (location : Option Location)
  | oneOrMore (operand : Schema)
  | zeroOrMore (operand : Schema) (location : Option Location)
  | optional (operand : Schema) (location : Option Location)
  | list (item : Schema) (location : Option Location)
  | mixed (operand : Schema) (location : Option Location)
  | empty (location : Option Location)
  | notAllowed (location : Option Location)
  | text (location : Option Location)
  /-- A construct that could not be read. -/
  | unreadable
  /-- A construct with annotations or comments. -/
  | annotated (operand : Schema)
  | attr (names : NameExpr) (content : Schema) (location : Option Location)
  | elem (names : NameExpr) (content : Schema) (location : Option Location)
  | data (head : DataHead)
  /-- A datatype without the values of another construct. -/
  | dataExcept (head : DataHead) (except : Schema)
  | value (library type literal : String) (location : Option Location)
  | grammar (definitions : List (DefinitionHead × Schema)) (location : Option Location)
  | ref (name : String) (location : Option Location)
  | parentRef (name : String) (location : Option Location)
  | externalRef (uri ns : String) (location : Option Location)
  deriving Repr, Inhabited

/-- The other schemas that a schema may refer to. -/
inductive Externals where
  /-- There are none, and every reference to one fails. -/
  | unavailable
  /-- Schemas by their URIs. -/
  | library (schemas : List (String × Schema))
  deriving Repr, Inhabited

/-- Where a construct is built. -/
structure Place where
  /-- The grammar around it. -/
  scope : Option ScopeId
  /-- The namespace of names without one. -/
  ns : String
  deriving DecidableEq, Repr, Inhabited

namespace Place

/-- Outside all grammars and namespaces. -/
def top : Place := ⟨none, ""⟩

/-- The scope in which names are looked up. -/
def nameScope (place : Place) : ScopeId := place.scope.getD rootScope

end Place

namespace Schema

/-- The data pattern of a datatype with its facets. -/
def dataPattern (head : DataHead) : Assembling Pattern := do
  let d := (← get).dataPattern head.library head.type head.typeLocation
  let d := head.params.foldl (fun d p => d.addParam p.1 p.2) d
  return d.pattern head.location

/-- The class of a name expression. -/
def nameClass (place : Place) (names : NameExpr) : Assembling NameClass :=
  (names.toClass place.ns).lift

mutual

/-- The pattern of a schema at a place, where `external` builds the schema of a URI. -/
def buildWith (external : String → Place → Assembling Pattern) (place : Place) :
    Schema → Assembling Pattern
  | combine how operands location => do
    let ps ← buildAll external place operands
    (Pattern.combined how ps location).lift
  | oneOrMore operand => return (← buildWith external place operand).oneOrMore
  | zeroOrMore operand location => return (← buildWith external place operand).zeroOrMore location
  | optional operand location => return (← buildWith external place operand).atMostOne location
  | list item location => return (← buildWith external place item).listAt location
  | mixed operand location => return (← buildWith external place operand).mixed location
  | empty location => return .emptyAt location
  | notAllowed location => return .notAllowed location
  | text location => return .textAt location
  | unreadable => return .unreadable
  | annotated operand => buildWith external place operand
  | attr names content location => do
    let p ← buildWith external place content
    return .attributes (← nameClass place names) p location
  | elem names content location => do
    let p ← buildWith external place content
    return .elementsOf (← nameClass place names) p location
  | data head => dataPattern head
  | dataExcept head except => do
    let _ ← buildWith external place except
    dataPattern head
  | value library type literal location => return (← get).value library type literal location
  | grammar definitions location => do
    let scope ← Assembly.grammar place.scope
    defineAll external { place with scope := some scope } definitions
    Assembly.endGrammar scope location
  | ref name location => Assembly.reference place.nameScope name location
  | parentRef name location => Assembly.parentReference place.nameScope name location
  | externalRef uri ns location => Assembly.external uri location (external uri { place with ns })

/-- The patterns of schemas, in order. -/
def buildAll (external : String → Place → Assembling Pattern) (place : Place) :
    List Schema → Assembling (List Pattern)
  | [] => return []
  | s :: ss => return (← buildWith external place s) :: (← buildAll external place ss)

/-- Define the rules of a grammar, in order. -/
def defineAll (external : String → Place → Assembling Pattern) (place : Place) :
    List (DefinitionHead × Schema) → Assembling Unit
  | [] => pure ()
  | d :: ds => do
    defineOne external place d
    defineAll external place ds

/-- Define a rule of a grammar. -/
def defineOne (external : String → Place → Assembling Pattern) (place : Place) :
    DefinitionHead × Schema → Assembling Unit
  | (head, s) => do
    let p ← buildWith external place s
    Assembly.define place.nameScope head.name p head.location

end

/-- The failure of a reference to a schema that does not exist. -/
def notFound (uri : String) : Failure := .of (.malformedSchema (uri ++ " not found") none)

/-- Build the schema of a URI at a place. Schemas that do not contain themselves are
nested no deeper than there are schemas, so at depth zero there is none left. -/
def buildExternal (schemas : List (String × Schema)) : Nat → String → Place → Assembling Pattern
  | 0, uri, _ => throw (notFound uri)
  | depth + 1, uri, place =>
    match schemas.lookup uri with
    | some s => s.buildWith (buildExternal schemas depth) place
    | none => throw (notFound uri)

/-- The pattern of a schema at a place. -/
def build (externals : Externals) (place : Place) (s : Schema) : Assembling Pattern :=
  match externals with
  | .unavailable =>
    s.buildWith
      (fun uri _ => throw (.of (.externalGrammar uri "no external grammars are available"))) place
  | .library schemas => s.buildWith (buildExternal schemas schemas.length) place

/-- A compiled schema. -/
structure Compiled where
  model : Model
  tracer : Trace.Tracer
  deriving DecidableEq, Repr

/-- The model of a schema. -/
def compile (s : Schema) (externals : Externals) (datatypes : Datatypes)
    (options : CompileOptions) : Attempt Compiled :=
  match s.build externals .top ((Assembly.new datatypes).withTracer (.new options.trace)) with
  | .error failure _ => .error failure
  | .ok top b => do
    let finished := b.finish top
    let c ← Compilation.start finished.rules finished.entry options finished.tracer
    match Compilation.finish c with
    | .ok model c => return ⟨model, c.tracer⟩
    | .error failure _ => .error failure

end Schema

end MarkupTypes
