import MarkupTypes.Trace.Log

/-!
# Tracers

A tracer notes events in a log, tagged with the phase it is in. It may be switched
off, and it may keep only some kinds of events; it follows the phases in either case.
A tracer is a value without a clock, so its records are stamped with the number zero.
-/

namespace MarkupTypes.Trace

/-- What a tracer keeps and where its records go. -/
structure Options where
  enabled : Bool
  /-- Records are shown as they are made, besides being kept. -/
  echoed : Bool
  /-- The room of the log. -/
  capacity : Nat
  /-- Records are shown in JSON. -/
  json : Bool
  /-- The kinds of events to keep; none of them stands for all. -/
  kinds : List String
  deriving DecidableEq, Repr

namespace Options

/-- Tracing is off. -/
def off : Options := ⟨false, false, Log.defaultCapacity, false, []⟩

/-- Records are kept. -/
def keeping : Options := { off with enabled := true }

/-- Records are kept and shown. -/
def echoing : Options := { keeping with echoed := true }

instance : Inhabited Options := ⟨off⟩

/-- An event is kept if its kind is asked for. -/
def keeps (o : Options) (event : Event) : Bool :=
  o.kinds.isEmpty || o.kinds.contains event.kind

end Options

/-- The state of tracing. -/
structure Tracer where
  options : Options
  log : Log
  phase : Phase
  deriving DecidableEq, Repr

namespace Tracer

/-- A tracer that has noted nothing and is in the first phase. -/
def new (options : Options) : Tracer := ⟨options, .empty options.capacity, .build⟩

/-- A tracer that notes nothing. -/
def off : Tracer := new .off

instance : Inhabited Tracer := ⟨off⟩

/-- The tracer is on. -/
def isEnabled (t : Tracer) : Bool := t.options.enabled

/-- Note an event, if the tracer is on and keeps events of this kind. -/
def note (t : Tracer) (event : Event) : Tracer :=
  if t.isEnabled && t.options.keeps event then
    { t with log := t.log.push t.phase 0 event }
  else t

/-- Note an event that is not even put together while the tracer is off. -/
def noteIfEnabled (t : Tracer) (event : Event) : Tracer :=
  if t.isEnabled then t.note event else t

/-- Enter a phase. -/
def startPhase (t : Tracer) (phase : Phase) : Tracer :=
  { t with phase }.note (.phaseStart phase)

/-- Close the phase that the tracer is in; the tracer stays in it. -/
def endPhase (t : Tracer) : Tracer := t.note (.phaseEnd t.phase)

end Tracer

end MarkupTypes.Trace
