import MarkupTypes.Trace.Tracer

/-!
# Compiler options

What a caller may choose : the name of the type a document starts from, whether methods
return the writer they belong to, and what is traced.
-/

namespace MarkupTypes

/-- The choices of a caller. -/
structure CompileOptions where
  /-- The name of the type of the start rule. -/
  rootTypeName : String
  /-- Methods return their writer, so that calls can be chained. -/
  chainMethods : Bool
  trace : Trace.Options
  deriving DecidableEq, Repr

namespace CompileOptions

/-- The options of a caller who chooses nothing. -/
def standard : CompileOptions := ⟨"Root", true, .off⟩

/-- The standard options with a trace that is shown. -/
def debug : CompileOptions := { standard with trace := .echoing }

instance : Inhabited CompileOptions := ⟨standard⟩

end CompileOptions

end MarkupTypes
