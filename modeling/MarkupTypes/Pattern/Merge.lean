import MarkupTypes.Pattern.Basic

/-!
# Merging patterns

Choice, group and interleave all merge their operands (`Pattern.merge`). The children
of the second operand go one by one into those of the first. A child takes the slot of
the first child that is named alike, or has the same shape if it has no name, and
otherwise a new slot at the end (`Pattern.place`). In a shared slot the child that was
there first keeps its location and its label, the contents merge, and the result is
optional if either was.

An empty operand leaves the other one, made optional.
-/

namespace MarkupTypes.Pattern

/-- Two children share a slot when they are attributes or elements of one name, or
have the same shape. -/
def sameSlot : Pattern → Pattern → Bool
  | attr _ s _, attr _ t _ => s.name = t.name
  | elem _ s _, elem _ t _ => s.name = t.name
  | a, b => a.sameShape b

/-- A slot after `child` has come to share it, where `join` brings the content of the
child into the content of the slot. -/
def share (slot child : Pattern) (join : Pattern → Pattern) : Pattern :=
  match slot, child with
  | attr m s content, attr n t _ =>
    attr (m.share n) { s with label := s.label <|> t.label } (join content)
  | elem m s content, elem n t _ =>
    elem (m.share n) { s with label := s.label <|> t.label } (join content)
  | slot, child => slot.withMark (slot.mark.share child.mark)

/-- The children after one more has come to share its slot, or has got a new one. -/
def place (child : Pattern) (join : Pattern → Pattern) : List Pattern → List Pattern
  | [] => [child]
  | slot :: slots =>
    if slot.sameSlot child then slot.share child join :: slots
    else slot :: place child join slots

/-- The pattern of a list of children : one child stands for itself. -/
def ofChildren (location : Option Location) : List Pattern → Pattern
  | [p] => p
  | ps => union ⟨false, location⟩ ps

/-- The first operand after the children of the second, which is not empty, have been
brought in by `bring`. -/
def extend (a b : Pattern) (bring : List Pattern → List Pattern) : Pattern :=
  if a.isEmpty then b.asOptional else ofChildren a.location (bring a.children)

mutual

/-- The merge of two patterns, the second operand first. -/
def mergeInto : Pattern → Pattern → Pattern
  | empty _, a => if a.isEmpty then a else a.asOptional
  | union m members, a => a.extend (union m members) (bringAll members)
  | attr m tag content, a =>
    a.extend (attr m tag content) (place (attr m tag content) (mergeInto content))
  | elem m tag content, a =>
    a.extend (elem m tag content) (place (elem m tag content) (mergeInto content))
  | b, a => a.extend b (place b id)

/-- Bring one child into others. -/
def bring : Pattern → List Pattern → List Pattern
  | attr m tag content => place (attr m tag content) (mergeInto content)
  | elem m tag content => place (elem m tag content) (mergeInto content)
  | b => place b id

/-- Bring children into others, in order. -/
def bringAll : List Pattern → List Pattern → List Pattern
  | [], slots => slots
  | b :: bs, slots => bringAll bs (bring b slots)

end

/-- Two patterns as one. -/
def merge (a b : Pattern) : Pattern := mergeInto b a

/-- A list of patterns as one, merged from the left; there is none for the empty list. -/
def mergeAll? : List Pattern → Option Pattern
  | [] => none
  | p :: ps => some (ps.foldl merge p)

/-! ## The two cases of a merge -/

/-- An empty second operand leaves the first, made optional unless it is empty too. -/
theorem merge_empty (a : Pattern) (m : Mark) :
    a.merge (empty m) = if a.isEmpty then a else a.asOptional := rfl

/-- The children of a second operand that is not empty are brought into the first. -/
theorem merge_of_not_isEmpty (a : Pattern) :
    ∀ {b : Pattern}, b.isEmpty = false → a.merge b = a.extend b (bringAll b.children)
  | empty _, h => nomatch h
  | data _ _, _ => rfl
  | value _ _ _, _ => rfl
  | list _ _, _ => rfl
  | attr _ _ _, _ => rfl
  | elem _ _ _, _ => rfl
  | ref _ _ _, _ => rfl
  | union _ _, _ => rfl

end MarkupTypes.Pattern
