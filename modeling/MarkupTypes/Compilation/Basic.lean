import MarkupTypes.Compilation.Expansion
import MarkupTypes.Compilation.Options
import MarkupTypes.Compilation.Reachable

/-!
# Compilations

The rules that an entry rule reaches become a model in three stages :

* preparing gives the name of each inline rule to the attribute, the element or the
  reference that the rule stands for;
* declaring creates a type for each rule that is not inline and for each element whose
  content needs one, before any content is looked into, so that rules may refer to each
  other in cycles;
* generating fills the types with members.

The stages may also be run rule by rule (`Compilation.Step`). A step that fails leaves
the compilation as far as it came.
-/

namespace MarkupTypes

/-- A set of rules on the way to a model. -/
structure Compilation where
  rules : RuleTable
  /-- The rule that documents start from. -/
  entry : RuleId
  /-- The rules that the entry reaches, in order of discovery. -/
  order : List RuleId
  /-- For every rule, whether it was inline at the start. -/
  inline : List Bool
  options : CompileOptions
  draft : Draft
  deriving DecidableEq, Repr

/-- Work on a compilation. After a failure the compilation is as the work left it. -/
abbrev Compiling := EStateM Failure Compilation

namespace Compilation

/-- A compilation of the rules that an entry rule reaches, all of which must be
defined. -/
def start (rules : RuleTable) (entry : RuleId) (options : CompileOptions)
    (tracer : Trace.Tracer) : Attempt Compilation := do
  Attempt.ensure (rules.get? entry).isSome ("unknown entry rule " ++ RuleId.text entry)
  let order ← rules.reachable entry
  return ⟨rules, entry, order, rules.rules.map Rule.isInline, options, .start tracer⟩

/-- The types so far. -/
def model (c : Compilation) : Model := c.draft.model

/-- The trace so far. -/
def tracer (c : Compilation) : Trace.Tracer := c.draft.tracer

/-- The rule stands for its only child; an id out of range is of no inline rule. -/
def isInline (c : Compilation) (id : RuleId) : Bool := c.inline[id]?.getD false

/-- A change of the tracer. -/
def mapTracer (c : Compilation) (f : Trace.Tracer → Trace.Tracer) : Compilation :=
  { c with draft := { c.draft with tracer := f c.draft.tracer } }

/-! ## Preparing -/

/-- The pattern of an inline rule after the rule's name has been given to it, unless it
has one already. -/
def labelled (name : String) : Pattern → Pattern
  | .attr m tag content => .attr m { tag with label := tag.label <|> some name } content
  | .elem m tag content => .elem m { tag with label := tag.label <|> some name } content
  | .ref m id label => .ref m id (label <|> some name)
  | p => p

/-- The name of a rule as it is shown, or nothing for an id out of range. -/
def displayNameOf (c : Compilation) (id : RuleId) : String :=
  match c.rules.get? id with
  | some rule => rule.displayName
  | none => ""

/-- Give a rule's name to what the rule stands for, and note where that is a
reference. -/
def prepareRule (c : Compilation) (id : RuleId) : Compilation :=
  match c.rules.get? id with
  | none => c
  | some rule =>
    if !c.isInline id || rule.isStart then c
    else
      let label (r : Rule) : Rule := { r with pattern := r.pattern.map (labelled rule.name) }
      let c' := { c with rules := c.rules.modify id label }
      match rule.pattern with
      | some (.ref _ target none) =>
        c'.mapTracer (·.note (.ruleAliased rule.name (c.displayNameOf target)))
      | _ => c'

/-- Prepare every rule. -/
def prepare (c : Compilation) : Compilation :=
  let c := c.mapTracer (·.startPhase .prepare)
  (c.order.foldl prepareRule c).mapTracer Trace.Tracer.endPhase

/-! ## Declaring -/

/-- The failure of naming a rule that is not in the table. -/
def unknownRule (id : RuleId) : Failure := .of (.misuse ("unknown rule " ++ RuleId.text id))

/-- Create a type for each element whose content needs one, and list the types in the
order of the elements. -/
def declareElements (c : Compilation) :
    List (ElementTag × Pattern) → Draft → Draft × List (Option TypeId)
  | [], d => (d, [])
  | (tag, content) :: rest, d =>
    if c.rules.contentOf c.isInline content = .structured then
      let type := d.model.size
      let (d, types) :=
        c.declareElements rest (d.create (tag.label.getD tag.name.localName) (.element tag.name))
      (d, some type :: types)
    else
      let (d, types) := c.declareElements rest d
      (d, none :: types)

/-- The name that the type of a rule is made from. -/
def baseName (c : Compilation) (rule : Rule) : String :=
  if rule.isStart then c.options.rootTypeName else rule.name

/-- A declared rule with its type and those of its elements, in the draft that has
them. -/
def declared (c : Compilation) (id : RuleId) (rule : Rule) : Rule × Draft :=
  let (output, d) :=
    if c.isInline id then (none, c.draft)
    else (some c.model.size, c.draft.create (c.baseName rule) (.rule rule.key))
  match rule.pattern with
  | none => ({ rule with output, state := .declared }, d)
  | some p =>
    let (d, types) := c.declareElements p.elements d
    let p := p.mapElements (fun n tag => { tag with output := types[n]?.join }) 0
    ({ rule with pattern := some p, output, state := .declared }, d)

/-- Create the types of a rule and of its elements. The answer is whether that was left
to do. -/
def declare (id : RuleId) : Compiling Bool := do
  let c ← get
  match c.rules.get? id with
  | none => throw (unknownRule id)
  | some rule =>
    if rule.state ≠ .unprocessed then
      return false
    let (rule, draft) := c.declared id rule
    set { c with rules := c.rules.modify id fun _ => rule, draft }
    return true

/-- The type that a writer of a rule starts from : the type of the rule, or for an
inline rule, the type of its element or of the rule that it or the content of its
element refers to. References that lead back to a rule of `seen` have no type, and
`beyond` answers after `steps` references. -/
def writerTypeWithin (t : RuleTable) (beyond : RuleId → Option TypeId) :
    Nat → List RuleId → RuleId → Option TypeId
  | 0, _, id => beyond id
  | steps + 1, seen, id =>
    if id ∈ seen then none
    else match t.get? id with
      | none => none
      | some rule =>
        match rule.output, rule.pattern with
        | some type, _ => some type
        | none, some (.elem _ tag content) =>
          match tag.output, content with
          | some type, _ => some type
          | none, .ref _ next _ => writerTypeWithin t beyond steps (id :: seen) next
          | none, _ => none
        | none, some (.ref _ next _) => writerTypeWithin t beyond steps (id :: seen) next
        | none, _ => none

/-- The type that a writer of a rule starts from. A chain of references visits each rule
once. -/
def writerType (t : RuleTable) (id : RuleId) : Option TypeId :=
  writerTypeWithin t (fun _ => none) (t.size + 1) [] id

/-- Perform a step for each rule, in order. -/
def forEach (step : RuleId → Compiling Bool) : List RuleId → Compiling Unit
  | [] => pure ()
  | id :: ids => do
    let _ ← step id
    forEach step ids

/-- Declare every rule, and settle the type that documents start from. -/
def declareAll : Compiling Unit := do
  modify (·.mapTracer (·.startPhase .declare))
  forEach declare (← get).order
  modify fun c =>
    let root := writerType c.rules c.entry
    { c with draft := { c.draft with model := { c.draft.model with root } } }
  modify (·.mapTracer Trace.Tracer.endPhase)

/-! ## Generating -/

/-- What is fixed while types are filled. -/
def expansion (c : Compilation) : Expansion :=
  ⟨c.rules, c.isInline, if c.options.chainMethods then .owner else .nothing⟩

/-- Work on the draft of a compilation. -/
def onDraft {α : Type} (work : Drafting α) : Compiling α := fun c =>
  match work c.draft with
  | .ok x draft => .ok x { c with draft }
  | .error failure draft => .error failure { c with draft }

/-- Fill the types of a declared rule. The answer is whether that was left to do. -/
def generate (id : RuleId) : Compiling Bool := do
  let c ← get
  match c.rules.get? id with
  | none => throw (unknownRule id)
  | some rule =>
    match rule.state with
    | .generated => return false
    | .unprocessed => throw (.undeclared rule.displayName)
    | .declared =>
      onDraft ((c.expansion.fillRule rule).inRule rule.displayName)
      modify fun c =>
        { c with rules := c.rules.modify id fun r => { r with state := .generated } }
      return true

/-- Generate every rule. -/
def generateAll : Compiling Unit := do
  modify (·.mapTracer (·.startPhase .generate))
  forEach generate (← get).order
  modify (·.mapTracer Trace.Tracer.endPhase)

/-! ## Runs -/

/-- A step of a compilation. -/
inductive Step where
  | prepare
  | declare (id : RuleId)
  | declareAll
  | generate (id : RuleId)
  | generateAll
  deriving DecidableEq, Repr

/-- Perform a step. The answer is whether there was anything to do; a step for all rules
always says so. -/
def perform : Step → Compiling Bool
  | .prepare => do
    modify prepare
    return true
  | .declare id => declare id
  | .declareAll => do
    declareAll
    return true
  | .generate id => generate id
  | .generateAll => do
    generateAll
    return true

/-- Run all stages. -/
def finish : Compiling Model := do
  modify prepare
  declareAll
  generateAll
  return (← get).model

end Compilation

end MarkupTypes
