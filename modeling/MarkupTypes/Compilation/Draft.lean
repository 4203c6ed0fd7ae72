import MarkupTypes.Model.Naming
import MarkupTypes.Trace.Tracer

/-!
# Drafts

A model in the making : the types so far, which of them have been filled with members,
and the trace of what was done. Work on a draft may fail, and what it did before stays
done (`Drafting`).
-/

namespace MarkupTypes

/-- A model in the making. -/
structure Draft where
  model : Model
  /-- The types that have been given their members. -/
  filled : List TypeId
  tracer : Trace.Tracer
  deriving DecidableEq, Repr

namespace Draft

/-- The draft without types. -/
def start (tracer : Trace.Tracer) : Draft := ⟨.empty, [], tracer⟩

/-- Note an event. -/
def note (d : Draft) (event : Trace.Event) : Draft :=
  { d with tracer := d.tracer.note event }

/-- Create a type and note it; its id is the number of types before. -/
def create (d : Draft) (base : String) (origin : Origin) : Draft :=
  let id := d.model.size
  let d := { d with model := d.model.create base origin }
  d.note (.typeDeclared (d.model.nameOf id) origin.text)

/-- Add a member to a type. -/
def addMember (d : Draft) (type : TypeId) (member : Member) : Draft :=
  { d with model := d.model.modify type (·.addMember member) }

/-- Let a type take members from another. -/
def addParent (d : Draft) (type parent : TypeId) : Draft :=
  { d with model := d.model.modify type (·.addParent parent) }

/-- Count a type as filled. -/
def markFilled (d : Draft) (type : TypeId) : Draft :=
  { d with filled := type :: d.filled }

/-- Note how many members a type has got. -/
def noteMembers (d : Draft) (type : TypeId) : Draft :=
  match d.model.get? type with
  | some t => d.note (.membersGenerated t.name t.members.length)
  | none => d

end Draft

/-- Work on a draft. After a failure the draft is as the work left it. -/
abbrev Drafting := EStateM Failure Draft

namespace Drafting

/-- Work that fails inside a rule fails with the rule on its trail. -/
def inRule {α : Type} (rule : String) (work : Drafting α) : Drafting α := fun d =>
  match work d with
  | .ok x d => .ok x d
  | .error failure d => .error (failure.inRule rule) d

end Drafting

end MarkupTypes
