import MarkupTypes.Rule

/-!
# Text content

Whether a pattern holds text alone, and of which value types (`RuleTable.scan`). The
scan follows references, except to a rule that it is already inside, and stops at the
first attribute or element. A list holds lists of the types of its item, or of text
when the item has none.

The content of an element is one of four things (`RuleTable.contentOf`) : nothing,
values, the content of one rule that has a type, or markup that needs a type of its
own.
-/

namespace MarkupTypes

/-- The outcome of a scan for text. -/
structure TextScan where
  /-- No attribute or element was met. -/
  onlyText : Bool
  /-- The types of the values met, each once, in the order they were met. -/
  values : List ValueType
  deriving DecidableEq, Repr, Inhabited

namespace TextScan

/-- A type is added to those it does not occur among. -/
def addType (types : List ValueType) (type : ValueType) : List ValueType :=
  if type ∈ types then types else types ++ [type]

/-- The types of lists of items of the given types. -/
def listTypes (items : List ValueType) : List ValueType :=
  (if items.isEmpty then [.text] else items).map .list

end TextScan

namespace Pattern

mutual

/-- Scan a pattern after the types of `types` were met, where `follow` scans the rule of
a reference. -/
def scan (follow : RuleId → List ValueType → TextScan) : Pattern → List ValueType → TextScan
  | empty _, types => ⟨true, types⟩
  | data _ type, types => ⟨true, TextScan.addType types type⟩
  | value _ type _, types => ⟨true, TextScan.addType types type⟩
  | list _ item, types =>
    let inner := item.scan follow []
    if inner.onlyText then
      ⟨true, (TextScan.listTypes inner.values).foldl TextScan.addType types⟩
    else ⟨false, types⟩
  | union _ members, types => scanAll follow members types
  | ref _ rule _, types => follow rule types
  | attr _ _ _, types => ⟨false, types⟩
  | elem _ _ _, types => ⟨false, types⟩

/-- Scan patterns in order, up to the first that holds markup. -/
def scanAll (follow : RuleId → List ValueType → TextScan) :
    List Pattern → List ValueType → TextScan
  | [], types => ⟨true, types⟩
  | p :: ps, types =>
    let first := p.scan follow types
    if first.onlyText then scanAll follow ps first.values else first

end

end Pattern

/-- What an element holds. -/
inductive ElementContent where
  | nothing
  /-- Text of one of some value types. -/
  | values (types : List ValueType)
  /-- What the type of a rule writes. -/
  | delegated (rule : RuleId)
  /-- Markup that needs a type of its own. -/
  | structured
  deriving DecidableEq, Repr, Inhabited

namespace RuleTable

/-- Scan the pattern of a rule, unless it is being scanned already, where `beyond`
answers for rules that are more than `depth` deep. -/
def followWithin (t : RuleTable) (beyond : RuleId → List ValueType → TextScan) :
    Nat → List RuleId → RuleId → List ValueType → TextScan
  | 0, _, id, types => beyond id types
  | depth + 1, inside, id, types =>
    if id ∈ inside then ⟨true, types⟩
    else match (t.get? id).bind Rule.pattern with
      | none => ⟨true, types⟩
      | some p => p.scan (t.followWithin beyond depth (id :: inside)) types

/-- Scan the pattern of a rule. A scan is inside different rules only, so it goes no
deeper than there are rules. -/
def follow (t : RuleTable) : RuleId → List ValueType → TextScan :=
  t.followWithin (fun _ types => ⟨true, types⟩) (t.size + 1) []

/-- Scan a pattern for text. -/
def scan (t : RuleTable) (p : Pattern) : TextScan := p.scan t.follow []

/-- What an element with content `p` holds, where `isInline` tells which rules have no
type. -/
def contentOf (t : RuleTable) (isInline : RuleId → Bool) (p : Pattern) : ElementContent :=
  if p.children.isEmpty then .nothing
  else
    let text := t.scan p
    if text.onlyText then
      if text.values.isEmpty then .nothing else .values text.values
    else match p with
      | .ref _ rule _ => if isInline rule then .structured else .delegated rule
      | _ => .structured

end RuleTable

end MarkupTypes
