import MarkupTypes.Model.Basic
import MarkupTypes.Text.Alphanumeric
import MarkupTypes.Text.Uppercase

/-!
# Names of types

A type is named after a rule or an element (`typeName`) : the words of the name, each
with its first character in upper case, without what separates them. A name that would
start with a digit gets an underscore before it, and a name without words is `Type`.

A name that is taken gets a number, from two on (`Model.freeName`).
-/

namespace MarkupTypes

/-- The words of a text in one, each starting in upper case; `fresh` says whether a
word may start here. -/
def joinWords (fresh : Bool) : List Char → List Char
  | [] => []
  | c :: cs =>
    if Text.isAlphanumeric c then
      (if fresh then Text.uppercase c else [c]) ++ joinWords false cs
    else joinWords true cs

/-- The words of a text as the name of a type. -/
def typeNameChars (base : List Char) : List Char :=
  match joinWords true base with
  | [] => ['T', 'y', 'p', 'e']
  | c :: cs => if c.isDigit then '_' :: c :: cs else c :: cs

/-- The name of a type after a rule or an element. -/
def typeName (base : String) : String := String.ofList (typeNameChars base.toList)

namespace Model

/-- The first of `base` numbered from `n` on that is not taken, after at most `tries`
that are. -/
def numberedName (m : Model) (base : String) : Nat → Nat → String
  | 0, n => base ++ toString n
  | tries + 1, n =>
    if m.names.contains (base ++ toString n) then m.numberedName base tries (n + 1)
    else base ++ toString n

/-- A name that is not taken : `base` itself, or `base` with a number. Of the numbers
tried, at most as many are taken as there are names. -/
def freeName (m : Model) (base : String) : String :=
  if m.names.contains base then m.numberedName base m.names.size 2 else base

/-- Create a type named after `base`. Its id is the number of types before. -/
def create (m : Model) (base : String) (origin : Origin) : Model :=
  let id := m.size
  let name := m.freeName (typeName base)
  { m with
    types := m.types ++ [.new id name origin]
    names := m.names.insert name id
    rules := match origin with
      | .rule key => m.rules.insert key id
      | .element _ => m.rules }

end Model

end MarkupTypes
