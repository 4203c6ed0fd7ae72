import MarkupTypes.Failure
import MarkupTypes.QName

/-!
# Name classes

The sets of names that an attribute or an element may have. Wildcards stand for
infinitely many names and may leave out a class of exceptions.

Three views of a class : the names it lists one by one (`NameClass.names`), whether it
contains a name (`NameClass.contains`), and whether it is without wildcards
(`NameClass.isFinite`). A class is written down as an expression in which a namespace
may be left to the context (`NameExpr`).
-/

namespace MarkupTypes

/-- A set of names. -/
inductive NameClass where
  | name (name : QName)
  /-- Every name. -/
  | any
  /-- Every name but those of a class. -/
  | anyExcept (except : NameClass)
  /-- Every name of a namespace. -/
  | space (ns : String)
  /-- Every name of a namespace but those of a class. -/
  | spaceExcept (ns : String) (except : NameClass)
  /-- The names of several classes. -/
  | choice (alternatives : List NameClass)
  deriving Repr, Inhabited

namespace NameClass

mutual

/-- The names of a class outside wildcards, after those of `found`, each once. -/
def collect : NameClass → List QName → List QName
  | name q, found => if q ∈ found then found else found ++ [q]
  | choice alternatives, found => collectAll alternatives found
  | any, found | anyExcept _, found | space _, found | spaceExcept _ _, found => found

/-- The names of classes outside wildcards, after those of `found`, each once. -/
def collectAll : List NameClass → List QName → List QName
  | [], found => found
  | c :: cs, found => collectAll cs (c.collect found)

end

/-- The names that a class lists, each once. -/
def names (c : NameClass) : List QName := c.collect []

mutual

/-- A name is of a class. -/
def contains (q : QName) : NameClass → Bool
  | name r => r = q
  | any => true
  | anyExcept except => !except.contains q
  | space ns => q.ns = ns
  | spaceExcept ns except => q.ns = ns && !except.contains q
  | choice alternatives => anyContains q alternatives

/-- A name is of one of several classes. -/
def anyContains (q : QName) : List NameClass → Bool
  | [] => false
  | c :: cs => c.contains q || anyContains q cs

end

mutual

/-- A class has no wildcards. -/
def isFinite : NameClass → Bool
  | name _ => true
  | any | anyExcept _ | space _ | spaceExcept _ _ => false
  | choice alternatives => allFinite alternatives

/-- None of several classes has wildcards. -/
def allFinite : List NameClass → Bool
  | [] => true
  | c :: cs => c.isFinite && allFinite cs

end

mutual

/-- A class as text : names in Clark notation, wildcards as stars, exceptions after a
minus, and alternatives between bars. -/
def text : NameClass → String
  | name q => q.clark
  | any => "*"
  | anyExcept except => "* - (" ++ except.text ++ ")"
  | space ns => "\x7b" ++ ns ++ "\x7d*"
  | spaceExcept ns except => "\x7b" ++ ns ++ "\x7d* - (" ++ except.text ++ ")"
  | choice alternatives => " | ".intercalate (texts alternatives)

/-- The texts of several classes. -/
def texts : List NameClass → List String
  | [] => []
  | c :: cs => c.text :: texts cs

end

/-- The class of alternatives : a single one stands for itself, and there must be
one. -/
def ofAlternatives (alternatives : List NameClass) (location : Option Location) :
    Attempt NameClass :=
  match alternatives with
  | [] => .error (.of (.malformedSchema "name class choice has no alternatives" location))
  | [c] => .ok c
  | cs => .ok (choice cs)

/-- The class without names, for a class that could not be read. -/
def unreadable : NameClass := choice []

end NameClass

/-- A name class as it is written down. A namespace that is left out is that of the
context. -/
inductive NameExpr where
  | name (ns : Option String) (localName : String)
  | any
  | anyExcept (except : NameExpr)
  | space (ns : Option String)
  | spaceExcept (ns : Option String) (except : NameExpr)
  /-- Alternatives, of which there must be one. -/
  | choice (alternatives : List NameExpr) (location : Option Location)
  /-- Any number of alternatives, as they are. -/
  | union (alternatives : List NameExpr)
  | unreadable
  deriving Repr, Inhabited

namespace NameExpr

mutual

/-- The class of an expression in a context with a namespace. -/
def toClass (context : String) : NameExpr → Attempt NameClass
  | name ns localName => .ok (.name ⟨ns.getD context, localName⟩)
  | any => .ok .any
  | anyExcept except => return .anyExcept (← except.toClass context)
  | space ns => .ok (.space (ns.getD context))
  | spaceExcept ns except => return .spaceExcept (ns.getD context) (← except.toClass context)
  | choice alternatives location => do
    NameClass.ofAlternatives (← toClasses context alternatives) location
  | union alternatives => return .choice (← toClasses context alternatives)
  | unreadable => .ok .unreadable

/-- The classes of several expressions, in order. -/
def toClasses (context : String) : List NameExpr → Attempt (List NameClass)
  | [] => .ok []
  | e :: es => return (← e.toClass context) :: (← toClasses context es)

end

end NameExpr

end MarkupTypes
