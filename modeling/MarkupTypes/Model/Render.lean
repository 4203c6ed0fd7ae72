import MarkupTypes.Model.Basic

/-!
# Written models

A model as text : a block for each type, with a line for each member. An attribute has
an at sign before its name, and what may be left out has a question mark after its
values.
-/

namespace MarkupTypes

/-- A member on a line, as part of the type named `owner`. -/
def Member.render (model : Model) (owner : String) (m : Member) : String :=
  "    " ++ (match m.kind with
    | .attr => "@"
    | .elem => "") ++
  m.methodName ++ "(" ++ " | ".intercalate (m.values.map ValueType.name) ++ ")" ++
  (if m.optional then "?" else "") ++
  (match m.content with
    | some id => " \x7b " ++ model.nameOf id ++ " \x7d"
    | none => "") ++
  (match m.returns with
    | .owner => " -> " ++ owner
    | .nothing => "") ++ "\n"

/-- A type as a block of lines. -/
def WriterType.render (model : Model) (t : WriterType) : String :=
  "type " ++ t.name ++ " (" ++ t.origin.text ++ ")" ++
  (if t.parents.isEmpty then ""
    else " extends " ++ ", ".intercalate (t.parents.map model.nameOf)) ++
  " \x7b\n" ++ String.join (t.members.map (Member.render model t.name)) ++ "\x7d\n"

/-- The blocks of all types, separated by empty lines. -/
def Model.render (m : Model) : String :=
  "\n".intercalate (m.types.map (WriterType.render m))

end MarkupTypes
