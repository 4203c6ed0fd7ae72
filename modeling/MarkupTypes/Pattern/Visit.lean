import MarkupTypes.Pattern.Basic

/-!
# Walks over patterns

The references (`Pattern.refs`) and the elements (`Pattern.elements`) of a pattern, in
the order in which they stand, an element before what it holds. Elements are counted in
that order, so that each can be changed by its number (`Pattern.mapElements`). The
outermost elements (`Pattern.outermost`) are those that no other element holds.
-/

namespace MarkupTypes.Pattern

mutual

/-- Every reference in a pattern, with its location. -/
def refs : Pattern → List (RuleId × Option Location)
  | ref m rule _ => [(rule, m.location)]
  | list _ item => item.refs
  | attr _ _ content => content.refs
  | elem _ _ content => content.refs
  | union _ members => refsAll members
  | empty _ | data _ _ | value _ _ _ => []

/-- Every reference in a list of patterns. -/
def refsAll : List Pattern → List (RuleId × Option Location)
  | [] => []
  | p :: ps => p.refs ++ refsAll ps

end

mutual

/-- Every element in a pattern, with its content. -/
def elements : Pattern → List (ElementTag × Pattern)
  | elem _ tag content => (tag, content) :: content.elements
  | list _ item => item.elements
  | attr _ _ content => content.elements
  | union _ members => elementsAll members
  | empty _ | data _ _ | value _ _ _ | ref _ _ _ => []

/-- Every element in a list of patterns. -/
def elementsAll : List Pattern → List (ElementTag × Pattern)
  | [] => []
  | p :: ps => p.elements ++ elementsAll ps

end

mutual

/-- Every element that no other element holds, with its content. -/
def outermost : Pattern → List (ElementTag × Pattern)
  | elem _ tag content => [(tag, content)]
  | list _ item => item.outermost
  | attr _ _ content => content.outermost
  | union _ members => outermostAll members
  | empty _ | data _ _ | value _ _ _ | ref _ _ _ => []

/-- The outermost elements of a list of patterns. -/
def outermostAll : List Pattern → List (ElementTag × Pattern)
  | [] => []
  | p :: ps => p.outermost ++ outermostAll ps

end

mutual

/-- The number of elements in a pattern. -/
def elementCount : Pattern → Nat
  | elem _ _ content => content.elementCount + 1
  | list _ item => item.elementCount
  | attr _ _ content => content.elementCount
  | union _ members => elementCountAll members
  | empty _ | data _ _ | value _ _ _ | ref _ _ _ => 0

/-- The number of elements in a list of patterns. -/
def elementCountAll : List Pattern → Nat
  | [] => 0
  | p :: ps => p.elementCount + elementCountAll ps

end

mutual

/-- A change of every element by its number, where the first one has number `n`. -/
def mapElements (f : Nat → ElementTag → ElementTag) (n : Nat) : Pattern → Pattern
  | elem m tag content => elem m (f n tag) (content.mapElements f (n + 1))
  | list m item => list m (item.mapElements f n)
  | attr m tag content => attr m tag (content.mapElements f n)
  | union m members => union m (mapElementsAll f n members)
  | empty m => empty m
  | data m type => data m type
  | value m type literal => value m type literal
  | ref m rule label => ref m rule label

/-- A change of every element in a list of patterns, by its number. -/
def mapElementsAll (f : Nat → ElementTag → ElementTag) (n : Nat) : List Pattern → List Pattern
  | [] => []
  | p :: ps => p.mapElements f n :: mapElementsAll f (n + p.elementCount) ps

end

/-! ## Counting -/

mutual

theorem length_elements : ∀ p : Pattern, p.elements.length = p.elementCount
  | elem _ _ content => by simp [elements, elementCount, length_elements content]
  | list _ item => by simp [elements, elementCount, length_elements item]
  | attr _ _ content => by simp [elements, elementCount, length_elements content]
  | union _ members => by simp [elements, elementCount, length_elementsAll members]
  | empty _ => rfl
  | data _ _ => rfl
  | value _ _ _ => rfl
  | ref _ _ _ => rfl

theorem length_elementsAll : ∀ ps : List Pattern, (elementsAll ps).length = elementCountAll ps
  | [] => rfl
  | p :: ps => by
    simp [elementsAll, elementCountAll, length_elements p, length_elementsAll ps]

end

end MarkupTypes.Pattern
