import MarkupTypes.Compilation.Content
import MarkupTypes.Compilation.Draft

/-!
# Generating members

A type is filled from a pattern (`Expansion.fill`). Every attribute and element outside
other elements becomes a member, once for each name : the first occurrence counts, and
it is optional when it or a pattern around it is. A reference to an inline rule stands
for the rule's pattern, and a reference to any other rule makes the rule's type a
parent. An element with a type of its own has that type filled on the way.

No type is filled twice, and an inline rule that would stand for itself inside one type
is an error. So patterns are entered through references at most once for every rule in
every type, which bounds the depth of the walk (`Expansion.depth`).
-/

namespace MarkupTypes

/-- What is fixed while types are filled. -/
structure Expansion where
  rules : RuleTable
  /-- Which rules are inline. -/
  isInline : RuleId → Bool
  /-- What the methods of all members return. -/
  returns : Returns

/-- A type that is being filled. -/
structure Target where
  type : TypeId
  /-- The members that the type has got. -/
  seen : List (MemberKind × QName)
  /-- The inline rules that stand for their patterns here, innermost first. -/
  splicing : List RuleId
  deriving DecidableEq, Repr

namespace Target

/-- A type without members. -/
def new (type : TypeId) : Target := ⟨type, [], []⟩

/-- The type has got a member of this kind and name. -/
def has (t : Target) (kind : MemberKind) (name : QName) : Bool := (kind, name) ∈ t.seen

/-- The type gets a member of this kind and name. -/
def see (t : Target) (kind : MemberKind) (name : QName) : Target :=
  { t with seen := (kind, name) :: t.seen }

end Target

/-- The failure of using a rule before it has a type. -/
def Failure.undeclared (rule : String) : Failure :=
  .of (.misuse ("rule " ++ rule ++ " was used before it was declared"))

/-- Run `work` to fill a type, unless that has been done, and note the members. -/
def Drafting.fillOnce (type : TypeId) (work : Drafting Target) : Drafting Unit := do
  if type ∈ (← get).filled then
    return
  modify (·.markFilled type)
  let _ ← work
  modify (·.noteMembers type)

namespace Expansion

variable (e : Expansion)

/-- The type of a rule. -/
def typeOf (rule : Rule) : Attempt TypeId :=
  match rule.output with
  | some type => .ok type
  | none => .error (.undeclared rule.displayName)

/-- The value types of an attribute, which takes text if nothing else. -/
def attributeValues (content : Pattern) : List ValueType :=
  let types := (e.rules.scan content).values
  if types.isEmpty then [.text] else types

/-- The value types and the content type of an element without a type of its own. -/
def elementParts (name : QName) (content : Pattern) : Attempt (List ValueType × Option TypeId) :=
  match e.rules.contentOf e.isInline content with
  | .nothing => .ok ([], none)
  | .values types => .ok (types, none)
  | .delegated id => do return ([], some (← typeOf (← e.rules.require id)))
  | .structured => .error (.of (.misuse ("element " ++ name.clark ++ " has no declared type")))

/-- Add the member of an attribute. -/
def addAttribute (tag : AttributeTag) (content : Pattern) (optional : Bool) (target : Target) :
    Drafting Target := do
  if target.has .attr tag.name then
    return target
  modify (·.addMember target.type
    ⟨.attr, tag.name, tag.label, e.attributeValues content, none, e.returns, optional⟩)
  return target.see .attr tag.name

/-- Add the member of an element, where `fillOwn` fills a type from the element's
content. -/
def addElement (fillOwn : TypeId → Drafting Unit) (tag : ElementTag) (content : Pattern)
    (optional : Bool) (target : Target) : Drafting Target := do
  if target.has .elem tag.name then
    return target
  let (values, type) ← match tag.output with
    | some type => do
      fillOwn type
      pure ([], some type)
    | none => (e.elementParts tag.name content).lift
  modify (·.addMember target.type
    ⟨.elem, tag.name, tag.label, values, type, e.returns, optional⟩)
  return target.see .elem tag.name

/-- How a reference is dealt with, given its rule, its location and whether it is
optional. -/
abbrev Refer := RuleId → Option Location → Bool → Target → Drafting Target

mutual

/-- Add the members of a pattern. -/
def walk (refer : Refer) : Pattern → Bool → Target → Drafting Target
  | .empty _, _, target => pure target
  | .data _ _, _, target => pure target
  | .value _ _ _, _, target => pure target
  | .list _ _, _, target => pure target
  | .union m members, optional, target => walkAll refer members (optional || m.optional) target
  | .attr m tag content, optional, target =>
    e.addAttribute tag content (optional || m.optional) target
  | .elem m tag content, optional, target =>
    e.addElement (fun type => Drafting.fillOnce type (walk refer content false (.new type)))
      tag content (optional || m.optional) target
  | .ref m id _, optional, target => refer id m.location (optional || m.optional) target

/-- Add the members of patterns in order. -/
def walkAll (refer : Refer) : List Pattern → Bool → Target → Drafting Target
  | [], _, target => pure target
  | p :: ps, optional, target => do
    walkAll refer ps optional (← walk refer p optional target)

end

/-- The type of a rule that is not inline becomes a parent, unless it is the type being
filled. -/
def inherit (rule : Rule) (target : Target) : Drafting Target := do
  let parent ← (typeOf rule).lift
  if parent ≠ target.type then
    modify (·.addParent target.type parent)
  return target

/-- Add what a reference stands for, where `beyond` deals with references once `depth`
rules have been entered. -/
def referWithin (beyond : Refer) : Nat → Refer
  | 0 => beyond
  | depth + 1 => fun id location optional target => do
    let rule ← (e.rules.require id).lift
    if !e.isInline id then
      return ← inherit rule target
    if id ∈ target.splicing then
      throw ((Failure.of (.recursiveInline rule.displayName)).located location)
    modify fun d => d.note (.ruleInlined rule.displayName (d.model.nameOf target.type))
    match rule.pattern with
    | none => return target
    | some p =>
      let inner ← e.walk (referWithin beyond depth) p optional
        { target with splicing := id :: target.splicing }
      return { inner with splicing := target.splicing }

/-- How deep the walk through references goes at most : every element may have a type,
besides the one it starts from, and every rule stands for itself once in each. -/
def depth : Nat := e.rules.size * (e.rules.elementCount + 1) + 1

/-- Add what a reference stands for. -/
def refer : Refer := e.referWithin (fun _ _ _ target => pure target) e.depth

/-- Fill a type from a pattern, if there is one. -/
def fillWith (refer : Refer) (type : TypeId) (content : Option Pattern) : Drafting Unit :=
  Drafting.fillOnce type (match content with
    | some p => e.walk refer p false (.new type)
    | none => pure (.new type))

/-- Fill the types of elements, in order. -/
def fillElementsWith (refer : Refer) : List (ElementTag × Pattern) → Drafting Unit
  | [] => pure ()
  | (tag, content) :: rest => do
    match tag.output with
    | some type => e.fillWith refer type (some content)
    | none => pure ()
    fillElementsWith refer rest

/-- Fill the type of a rule, or the types of its outermost elements if it has none. -/
def fillRuleWith (refer : Refer) (rule : Rule) : Drafting Unit :=
  match rule.output, rule.pattern with
  | some type, pattern => e.fillWith refer type pattern
  | none, some p => e.fillElementsWith refer p.outermost
  | none, none => pure ()

/-- Fill what a rule has to fill. -/
def fillRule (rule : Rule) : Drafting Unit := e.fillRuleWith e.refer rule

end Expansion

end MarkupTypes
