import MarkupTypes.Location
import MarkupTypes.QName
import MarkupTypes.ValueType

/-!
# Patterns

What may stand at a place of a document, reduced to what a writer needs to know : which
attributes and elements there are, what they hold, and which may be left out. The order
of siblings and whether they exclude each other are not kept, so a union stands for
every way to combine patterns.

The children of a pattern (`Pattern.children`) are the members of a union, nothing for
the empty pattern, and otherwise the pattern itself.
-/

namespace MarkupTypes

/-- The index of a rule in its table. -/
abbrev RuleId := Nat

/-- The text of a rule's id. -/
def RuleId.text (id : RuleId) : String := "DefineId(" ++ toString id ++ ")"

/-- The index of a type in its model. -/
abbrev TypeId := Nat

/-- The text of a type's id. -/
def TypeId.text (id : TypeId) : String := "TypeId(" ++ toString id ++ ")"

/-- What a pattern carries besides its content. -/
structure Mark where
  /-- The pattern may be left out. -/
  optional : Bool
  location : Option Location
  deriving DecidableEq, Repr

namespace Mark

/-- Not optional, and from no known location. -/
def plain : Mark := ⟨false, none⟩

instance : Inhabited Mark := ⟨plain⟩

/-- The mark of a place that a second pattern has come to share. -/
def share (kept joined : Mark) : Mark :=
  { kept with optional := kept.optional || joined.optional }

end Mark

/-- What is known of an attribute besides its content. -/
structure AttributeTag where
  name : QName
  /-- The name of the rule that stands for the attribute alone. -/
  label : Option String
  deriving DecidableEq, Repr, Inhabited

/-- What is known of an element besides its content. -/
structure ElementTag where
  name : QName
  /-- The name of the rule that stands for the element alone. -/
  label : Option String
  /-- The type that was created for the content. -/
  output : Option TypeId
  deriving DecidableEq, Repr, Inhabited

/-- A content model. -/
inductive Pattern where
  /-- Nothing. -/
  | empty (mark : Mark)
  /-- Any value of a type. -/
  | data (mark : Mark) (type : ValueType)
  /-- One value of a type. -/
  | value (mark : Mark) (type : ValueType) (literal : String)
  /-- A list of values that match a pattern. -/
  | list (mark : Mark) (item : Pattern)
  | attr (mark : Mark) (tag : AttributeTag) (content : Pattern)
  | elem (mark : Mark) (tag : ElementTag) (content : Pattern)
  /-- What a rule stands for, with the name of the rule that refers to it alone. -/
  | ref (mark : Mark) (rule : RuleId) (label : Option String)
  /-- The members together. -/
  | union (mark : Mark) (members : List Pattern)
  deriving Repr

namespace Pattern

instance : Inhabited Pattern := ⟨empty .plain⟩

/-! ## Building patterns -/

/-- Any text. -/
def text : Pattern := data .plain .text

/-- The attribute of a name. -/
def ofAttribute (name : QName) (content : Pattern) : Pattern :=
  attr .plain ⟨name, none⟩ content

/-- The element of a name. -/
def ofElement (name : QName) (content : Pattern) : Pattern :=
  elem .plain ⟨name, none, none⟩ content

/-- A reference to a rule. -/
def ofRule (rule : RuleId) : Pattern := ref .plain rule none

/-! ## Marks -/

/-- The mark of a pattern. -/
def mark : Pattern → Mark
  | empty m | data m _ | value m _ _ | list m _ | attr m _ _ | elem m _ _ | ref m _ _
  | union m _ => m

/-- The same pattern under another mark. -/
def withMark (m : Mark) : Pattern → Pattern
  | empty _ => empty m
  | data _ type => data m type
  | value _ type literal => value m type literal
  | list _ item => list m item
  | attr _ tag content => attr m tag content
  | elem _ tag content => elem m tag content
  | ref _ rule label => ref m rule label
  | union _ members => union m members

/-- The pattern itself may be left out. -/
def optional (p : Pattern) : Bool := p.mark.optional

/-- Where the pattern stands. -/
def location (p : Pattern) : Option Location := p.mark.location

/-- The pattern with another flag. -/
def setOptional (p : Pattern) (optional : Bool) : Pattern :=
  p.withMark { p.mark with optional }

/-- The pattern at another location. -/
def atLocation (p : Pattern) (location : Option Location) : Pattern :=
  p.withMark { p.mark with location }

/-- The pattern with another name for its only rule, where it has room for one. -/
def withLabel (p : Pattern) (label : Option String) : Pattern :=
  match p with
  | attr m tag content => attr m { tag with label } content
  | elem m tag content => elem m { tag with label } content
  | ref m rule _ => ref m rule label
  | p => p

/-! ## Children -/

/-- Only the empty pattern is empty, whatever a union has for members. -/
def isEmpty : Pattern → Bool
  | empty _ => true
  | _ => false

/-- The patterns that stand side by side at the top. -/
def children : Pattern → List Pattern
  | empty _ => []
  | union _ members => members
  | p => [p]

/-- A change of every child. -/
def mapChildren (f : Pattern → Pattern) : Pattern → Pattern
  | empty m => empty m
  | union m members => union m (members.map f)
  | p => f p

/-- The pattern may be left out : a union when each of its members may. -/
def asOptional : Pattern → Pattern
  | union m members => union m (members.map fun p => p.setOptional true)
  | p => p.setOptional true

/-! ## Shapes -/

mutual

/-- Two patterns have the same shape when they agree on everything but marks, labels
and types created for elements. -/
def sameShape : Pattern → Pattern → Bool
  | empty _, empty _ => true
  | data _ a, data _ b => a = b
  | value _ a x, value _ b y => a = b && x = y
  | list _ a, list _ b => a.sameShape b
  | attr _ s a, attr _ t b => s.name = t.name && a.sameShape b
  | elem _ s a, elem _ t b => s.name = t.name && a.sameShape b
  | ref _ a _, ref _ b _ => a = b
  | union _ as, union _ bs => sameShapes as bs
  | _, _ => false

/-- The same shapes in the same order. -/
def sameShapes : List Pattern → List Pattern → Bool
  | [], [] => true
  | a :: as, b :: bs => a.sameShape b && sameShapes as bs
  | _, _ => false

end

/-! ## Equality -/

mutual

/-- Two patterns agree in every part. -/
def agrees : Pattern → Pattern → Bool
  | empty m, empty n => m = n
  | data m a, data n b => m = n && a = b
  | value m a x, value n b y => m = n && a = b && x = y
  | list m a, list n b => m = n && a.agrees b
  | attr m s a, attr n t b => m = n && s = t && a.agrees b
  | elem m s a, elem n t b => m = n && s = t && a.agrees b
  | ref m a x, ref n b y => m = n && a = b && x = y
  | union m as, union n bs => m = n && agreesAll as bs
  | _, _ => false

/-- Two lists of patterns agree in every part. -/
def agreesAll : List Pattern → List Pattern → Bool
  | [], [] => true
  | a :: as, b :: bs => a.agrees b && agreesAll as bs
  | _, _ => false

end

mutual

theorem agrees_iff : ∀ a b : Pattern, a.agrees b = true ↔ a = b
  | empty _, b => by cases b <;> simp [agrees]
  | data _ _, b => by cases b <;> simp [agrees]
  | value _ _ _, b => by cases b <;> simp [agrees, and_assoc]
  | list _ a, b => by cases b <;> simp [agrees, agrees_iff a]
  | attr _ _ a, b => by cases b <;> simp [agrees, agrees_iff a, and_assoc]
  | elem _ _ a, b => by cases b <;> simp [agrees, agrees_iff a, and_assoc]
  | ref _ _ _, b => by cases b <;> simp [agrees, and_assoc]
  | union _ as, b => by cases b <;> simp [agrees, agreesAll_iff as]

theorem agreesAll_iff : ∀ as bs : List Pattern, agreesAll as bs = true ↔ as = bs
  | [], bs => by cases bs <;> simp [agreesAll]
  | a :: as, bs => by cases bs <;> simp [agreesAll, agrees_iff a, agreesAll_iff as]

end

instance : DecidableEq Pattern := fun a b => decidable_of_iff _ (agrees_iff a b)

end Pattern

end MarkupTypes
