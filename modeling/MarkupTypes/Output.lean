import MarkupTypes.Trace.Tracer

/-!
# Output resolution

A resolver says where the output for a namespace goes : to a sink, nowhere, or nowhere
because of an error. A sink must name the place that it writes to. Answers pass through
a check (`CheckedResolver.resolve`) that traces them and turns a sink without a name
into a fault; everything else passes unchanged.

Sinks are named by identifiers of their own (`NamedSink`) or by the paths of files
(`FilePath`), where a path that is not text names nothing.
-/

namespace MarkupTypes

/-- Something that output is written to. -/
class Sink (α : Type) where
  /-- The identifier of the place written to, if it has one. -/
  systemId : α → Option String

/-- A sink that is nothing but its name. -/
structure NamedSink where
  systemId : Option String
  deriving DecidableEq, Repr, Inhabited

instance : Sink NamedSink := ⟨NamedSink.systemId⟩

/-! ## Paths -/

/-- The bytes of the path of a file. -/
structure FilePath where
  bytes : List UInt8
  deriving DecidableEq, Repr, Inhabited

namespace FilePath

/-- The byte between the parts of a path. -/
def separator : UInt8 := 0x2f

/-- The path that is a text. -/
def ofString (s : String) : FilePath := ⟨s.toUTF8.toList⟩

/-- The path as text, if it is one. -/
def text? (p : FilePath) : Option String := String.fromUTF8? ⟨p.bytes.toArray⟩

/-- The path does not depend on a directory. -/
def isAbsolute (p : FilePath) : Bool := p.bytes.head? = some separator

/-- A path within a directory. An absolute one stands for itself, and any other follows
the directory after a separator, unless the directory is empty or ends in one. -/
def join (directory file : FilePath) : FilePath :=
  if file.isAbsolute then file
  else if directory.bytes.getLast?.all (· = separator) then ⟨directory.bytes ++ file.bytes⟩
  else ⟨directory.bytes ++ separator :: file.bytes⟩

end FilePath

instance : Sink FilePath := ⟨FilePath.text?⟩

/-! ## Resolvers -/

/-- A kind of errors of a file system. -/
structure FileErrorKind where
  name : String
  deriving DecidableEq, Repr, Inhabited

namespace FileErrorKind

def notFound : FileErrorKind := ⟨"NotFound"⟩

def permissionDenied : FileErrorKind := ⟨"PermissionDenied"⟩

def alreadyExists : FileErrorKind := ⟨"AlreadyExists"⟩

def invalidInput : FileErrorKind := ⟨"InvalidInput"⟩

/-- What is of no other kind. -/
def other : FileErrorKind := ⟨"Other"⟩

end FileErrorKind

/-- Where output goes. -/
inductive Answer (α : Type) where
  | sink (sink : α)
  /-- The output is not wanted. -/
  | declined
  | failed (kind : FileErrorKind) (message : String)
  deriving DecidableEq, Repr

/-- A resolver with a state `σ` and sinks `α`, which is given a namespace and the name
suggested for a file. -/
abbrev Resolver (σ α : Type) := String → String → StateM σ (Answer α)

namespace Resolver

/-- Every file goes into one directory. -/
def directory (root : FilePath) : Resolver Unit FilePath := fun _ file =>
  pure (.sink (root.join (.ofString file)))

/-- A row of a table of answers. -/
structure Route (α : Type) where
  /-- The namespace, or any. -/
  ns : Option String
  /-- The name of the file, or any. -/
  file : Option String
  answer : Answer α
  deriving Repr

/-- The answers of a table, where the first row that fits counts. What fits no row is not
wanted. -/
def ofRoutes {α : Type} (routes : List (Route α)) : Resolver Unit α := fun ns file =>
  match routes.find? fun r => r.ns.all (· = ns) && r.file.all (· = file) with
  | some r => pure r.answer
  | none => pure .declined

end Resolver

/-! ## Checked resolvers -/

/-- A sink that does not say where it writes. -/
inductive Fault where
  | noSystemId (ns file : String)
  | emptySystemId (ns file : String)
  deriving DecidableEq, Repr, Inhabited

/-- The wording of a fault. -/
def Fault.message : Fault → String
  | noSystemId ns file =>
    "System ID cannot be null. (Namespace: [" ++ ns ++ "], Suggested FileName: [" ++ file ++ "])"
  | emptySystemId ns file =>
    "System ID cannot be empty. (Namespace: [" ++ ns ++ "], Suggested FileName: [" ++ file ++ "])"

/-- The state of a resolver whose answers are checked. -/
structure CheckedResolver (σ : Type) where
  inner : σ
  tracer : Trace.Tracer
  deriving Repr

namespace CheckedResolver

/-- A resolver in state `inner`, checked without a trace. -/
def new {σ : Type} (inner : σ) : CheckedResolver σ := ⟨inner, .off⟩

/-- The resolver with a tracer, which enters the output phase. -/
def withTracer {σ : Type} (c : CheckedResolver σ) (tracer : Trace.Tracer) : CheckedResolver σ :=
  { c with tracer := tracer.startPhase .output }

/-- Ask for a place, and check the answer. A fault leaves the request in the trace and
nothing more. -/
def resolve {σ α : Type} [Sink α] (resolver : Resolver σ α) (ns file : String) :
    EStateM Fault (CheckedResolver σ) (Answer α) := do
  modify fun c => { c with tracer := c.tracer.note (.outputRequested ns file) }
  let (answer, inner) := resolver ns file (← get).inner
  modify fun c => { c with inner }
  let note (event : Trace.Event) : EStateM Fault (CheckedResolver σ) Unit :=
    modify fun c => { c with tracer := c.tracer.note event }
  match answer with
  | .failed _ _ => return answer
  | .declined =>
    note (.outputSkipped ns file)
    return answer
  | .sink sink =>
    match Sink.systemId sink with
    | none => throw (.noSystemId ns file)
    | some "" => throw (.emptySystemId ns file)
    | some systemId =>
      note (.outputResolved ns file systemId)
      return answer

end CheckedResolver

end MarkupTypes
