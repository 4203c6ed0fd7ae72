import MarkupTypes.Output
import MarkupTypes.Proofs.Retention
import MarkupTypes.Proofs.Success

/-!
# A check is transparent

A resolver and a resolver behind a check are asked the same (`Resolver.askAll`,
`CheckedResolver.attempt`). What comes of a request behind the check is decided by the answer of the
resolver (`Resolver.Request.checked`), and so are the events that the tracer is told
(`Resolver.Request.noted`). This is an equation for one request (`CheckedResolver.attempt_eq`), and
from it for requests in a row (`CheckedResolver.askAll_attempt`).

The answers and the state of the resolver are therefore those that it would have without the check,
except that a sink without a name is a fault (`CheckedResolver.transparent_askAll`). This includes
a resolver that keeps a list of what it is asked (`Resolver.logged`) : it is asked once for each
request, whether there are faults or not.
-/

namespace MarkupTypes

/-! ## Events told to a tracer that was used before -/

namespace Trace

variable {o : Options} {phase : Phase}

/-- Events that are recorded start no phase. -/
theorem phaseAfter_append_records (calls : List Call) (events : List Event) :
    phaseAfter (calls ++ events.map .record) = phaseAfter calls := by
  induction events using List.reverseRecOn with
  | nil => rw [List.map_nil, List.append_nil]
  | append_singleton events ev ih =>
    rw [List.map_append, ← List.append_assoc, List.map_singleton, phaseAfter_concat, ih]
    rfl

theorem asked_append_records (calls : List Call) (events : List Event) :
    asked (calls ++ events.map .record) =
      asked calls ++ events.map (Prod.mk (phaseAfter calls)) := by
  induction events using List.reverseRecOn with
  | nil => rw [List.map_nil, List.map_nil, List.append_nil, List.append_nil]
  | append_singleton events ev ih =>
    rw [List.map_append, ← List.append_assoc, List.map_singleton, asked_concat, ih,
      phaseAfter_concat, phaseAfter_append_records, List.map_append, List.append_assoc]
    rfl

theorem kept_of_unfiltered (henabled : o.enabled = true) (hkinds : o.kinds = [])
    (calls : List Call) : kept o calls = asked calls := by
  simp [kept, henabled, hkinds]

/-- Events of a phase that is started are recorded in this phase, after all that was recorded
before. -/
theorem Tracer.records_noteAll_startPhase (henabled : o.enabled = true) (hkinds : o.kinds = [])
    (calls : List Call) (events : List Event) :
    ((((new o).run calls).startPhase phase).noteAll events).log.records =
      (numbered (asked calls ++ (.phaseStart phase :: events).map (Prod.mk phase))).rtake
        o.capacity := by
  have htold : (((new o).run calls).startPhase phase).noteAll events =
      (new o).run ((calls ++ [.phaseStart phase]) ++ events.map .record) := by
    rw [run, run, List.foldl_append, List.foldl_append, List.foldl_map]
    rfl
  have hphase : phaseAfter (calls ++ [.phaseStart phase]) = phase := phaseAfter_concat ..
  have hstart : asked (calls ++ [.phaseStart phase]) =
      asked calls ++ [(phase, .phaseStart phase)] := by
    rw [asked_concat, hphase]
    rfl
  rw [htold, run_eq, Log.newest, kept_of_unfiltered henabled hkinds, asked_append_records, hphase,
    hstart, List.append_assoc]
  rfl

end Trace

/-! ## Requests in a row -/

namespace Resolver

/-- What a resolver is given. -/
structure Request where
  ns : String
  file : String
  deriving DecidableEq, Repr

/-- Ask for something in order, once for each request. -/
def askAll {σ β : Type} (ask : String → String → StateM σ β) : List Request → StateM σ (List β)
  | [] => pure []
  | r :: requests => do
    let x ← ask r.ns r.file
    return x :: (← askAll ask requests)

theorem askAll_cons {σ β : Type} (ask : String → String → StateM σ β) (r : Request)
    (requests : List Request) (s : σ) : askAll ask (r :: requests) s =
      ((ask r.ns r.file s).1 :: (askAll ask requests (ask r.ns r.file s).2).1,
        (askAll ask requests (ask r.ns r.file s).2).2) := rfl

variable {σ α : Type}

/-- The resolver with a list of what it is asked. -/
def logged (resolver : Resolver σ α) : Resolver (σ × List Request) α := fun ns file s =>
  ((resolver ns file s.1).1, (resolver ns file s.1).2, s.2 ++ [⟨ns, file⟩])

/-- The list goes on with the requests. -/
theorem askAll_logged (resolver : Resolver σ α) (requests : List Request) (s : σ)
    (earlier : List Request) : askAll resolver.logged requests (s, earlier) =
      ((askAll resolver requests s).1, (askAll resolver requests s).2, earlier ++ requests) := by
  induction requests generalizing s earlier with
  | nil => rw [List.append_nil]; rfl
  | cons r requests ih =>
    have hlogged : resolver.logged r.ns r.file (s, earlier) =
        ((resolver r.ns r.file s).1, (resolver r.ns r.file s).2, earlier ++ [r]) := rfl
    rw [askAll_cons, askAll_cons, hlogged, ih, List.append_assoc]
    rfl

end Resolver

/-! ## What comes of an answer -/

/-- The answer is a sink that does not say where it writes. -/
def Answer.Nameless {α : Type} [Sink α] : Answer α → Prop
  | .sink place => Sink.systemId place = none ∨ Sink.systemId place = some ""
  | .declined | .failed _ _ => False

theorem Answer.nameless_sink_iff {α : Type} [Sink α] {place : α} :
    (Answer.sink place).Nameless ↔
      Sink.systemId place = none ∨ Sink.systemId place = some "" := Iff.rfl

namespace Resolver.Request

variable {α : Type} [Sink α]

/-- What comes of an answer behind a check. -/
def checked (r : Request) : Answer α → Except Fault (Answer α)
  | .sink place =>
    match Sink.systemId place with
    | none => .error (.noSystemId r.ns r.file)
    | some systemId =>
      if systemId = "" then .error (.emptySystemId r.ns r.file) else .ok (.sink place)
  | .declined => .ok .declined
  | .failed kind message => .ok (.failed kind message)

/-- The events that a tracer is told when something has come of a request. -/
def noted (r : Request) : Except Fault (Answer α) → List Trace.Event
  | .ok (.sink place) =>
    [.outputRequested r.ns r.file,
      .outputResolved r.ns r.file ((Sink.systemId place).getD "")]
  | .ok .declined => [.outputRequested r.ns r.file, .outputSkipped r.ns r.file]
  | .ok (.failed _ _) | .error _ => [.outputRequested r.ns r.file]

end Resolver.Request

namespace CheckedResolver

open Resolver

variable {σ α : Type} [Sink α]

/-- What comes of an answer behind a check : the answer itself, unless it is a fault. -/
structure Passes (answer : Answer α) (outcome : Except Fault (Answer α)) : Prop where
  faults_iff : (∃ fault, outcome = .error fault) ↔ answer.Nameless
  unchanged : ∀ answer', outcome = .ok answer' → answer' = answer

variable {answer : Answer α}

theorem Passes.ok (h : ¬answer.Nameless) : Passes answer (.ok answer) where
  faults_iff := ⟨nofun, fun hnameless => absurd hnameless h⟩
  unchanged _ heq := (Except.ok.inj heq).symm

theorem Passes.error (h : answer.Nameless) (fault : Fault) : Passes answer (.error fault) where
  faults_iff := ⟨fun _ => h, fun _ => ⟨fault, rfl⟩⟩
  unchanged := nofun

theorem passes_checked (r : Request) (answer : Answer α) : Passes answer (r.checked answer) := by
  cases answer with
  | declined => exact .ok id
  | failed kind message => exact .ok id
  | sink place =>
    rw [Request.checked]
    cases hid : Sink.systemId place with
    | none => exact .error (Answer.nameless_sink_iff.mpr (.inl hid)) _
    | some systemId =>
      by_cases hempty : systemId = ""
      · simp only [hempty, if_true]
        exact .error (Answer.nameless_sink_iff.mpr (.inr (hempty ▸ hid))) _
      · simp only [hempty, if_false]
        exact .ok (by simp [Answer.nameless_sink_iff, hid, hempty])

/-- A sink that is handed on says where it writes. -/
theorem Passes.exists_systemId {place : α} (h : Passes answer (.ok (.sink place))) :
    ∃ systemId, Sink.systemId place = some systemId ∧ systemId ≠ "" := by
  have hnamed : ¬(Answer.sink place).Nameless := by
    intro hnameless
    rw [h.unchanged _ rfl] at hnameless
    obtain ⟨fault, hfault⟩ := h.faults_iff.mpr hnameless
    cases hfault
  cases hid : Sink.systemId place with
  | none => exact absurd (Answer.nameless_sink_iff.mpr (.inl hid)) hnamed
  | some systemId =>
    exact ⟨systemId, rfl, fun hempty =>
      hnamed (Answer.nameless_sink_iff.mpr (.inr (hempty ▸ hid)))⟩

/-! ## Requests behind a check -/

/-- Ask for a place, whatever comes of it. After a fault the resolver can be asked again. -/
def attempt (resolver : Resolver σ α) (ns file : String) :
    StateM (CheckedResolver σ) (Except Fault (Answer α)) := fun c =>
  match resolve resolver ns file c with
  | .ok answer c => (.ok answer, c)
  | .error fault c => (.error fault, c)

/-- A request behind a check is a request to the resolver. -/
theorem attempt_eq (resolver : Resolver σ α) (r : Request) (c : CheckedResolver σ) :
    attempt resolver r.ns r.file c =
      (r.checked (resolver r.ns r.file c.inner).1,
        ⟨(resolver r.ns r.file c.inner).2,
          c.tracer.noteAll (r.noted (r.checked (resolver r.ns r.file c.inner).1))⟩) := by
  obtain ⟨s, t⟩ := c
  simp only [attempt, resolve, run_bind, run_modify, run_get]
  generalize resolver r.ns r.file s = asked
  obtain ⟨answer, s'⟩ := asked
  cases answer with
  | declined => rfl
  | failed kind message => rfl
  | sink place =>
    simp only [Request.checked]
    cases hid : Sink.systemId place with
    | none => rfl
    | some systemId =>
      by_cases hempty : systemId = ""
      · subst hempty
        rfl
      · simp only [run_bind, run_modify, run_pure, hempty, if_false, Request.noted, hid]
        rfl

/-- Requests behind a check are requests to the resolver. -/
theorem askAll_attempt (resolver : Resolver σ α) (requests : List Request)
    (c : CheckedResolver σ) : (askAll (attempt resolver) requests c).2 =
      ⟨(askAll resolver requests c.inner).2, c.tracer.noteAll (List.zipWith Request.noted requests
        (askAll (attempt resolver) requests c).1).flatten⟩ := by
  induction requests generalizing c with
  | nil => rfl
  | cons r requests ih =>
    rw [askAll_cons, askAll_cons, attempt_eq, ih, List.zipWith_cons_cons, List.flatten_cons,
      Trace.Tracer.noteAll_append]

theorem forall₂_passes (resolver : Resolver σ α) (requests : List Request)
    (c : CheckedResolver σ) : List.Forall₂ Passes (askAll resolver requests c.inner).1
      (askAll (attempt resolver) requests c).1 := by
  induction requests generalizing c with
  | nil => exact .nil
  | cons r requests ih =>
    rw [askAll_cons, askAll_cons, attempt_eq]
    exact .cons (passes_checked r _) (ih ⟨_, _⟩)

/-- Without faults all answers are handed on as they are. -/
theorem eq_map_ok_of_passes {answers : List (Answer α)}
    {outcomes : List (Except Fault (Answer α))} (h : List.Forall₂ Passes answers outcomes)
    (hok : ∀ outcome ∈ outcomes, ∃ answer, outcome = .ok answer) : outcomes = answers.map .ok := by
  have hsame : ∀ outcome answer, outcome ∈ outcomes → Passes answer outcome →
      .ok answer = outcome := by
    intro outcome answer hmem hpasses
    obtain ⟨answer', rfl⟩ := hok outcome hmem
    rw [hpasses.unchanged answer' rfl]
  calc outcomes = outcomes.map id := (List.map_id _).symm
    _ = answers.map .ok := (map_eq_of_forall₂ h.flip hsame).symm

/-! ## Transparency -/

/-- The records of a tracer that was told `calls` before it was attached to a check. It has entered
the output phase, and each request has added its events in this phase. The trace holds the newest
records, as many as there is room for. -/
def Recorded (resolver : Resolver σ α) (requests : List Request) (o : Trace.Options)
    (calls : List Trace.Call) (c : CheckedResolver σ) : Prop :=
  (askAll (attempt resolver) requests c).2.tracer.log.records =
    (Trace.numbered (Trace.asked calls ++
      (.phaseStart .output :: (List.zipWith Request.noted requests
        (askAll (attempt resolver) requests c).1).flatten).map (Prod.mk .output))).rtake o.capacity

/-- A check does not get between a resolver and requests. -/
structure Transparent (resolver : Resolver σ α) (requests : List Request)
    (c : CheckedResolver σ) : Prop where
  /-- The resolver comes to the state that it would come to without the check. -/
  inner : (askAll (attempt resolver) requests c).2.inner = (askAll resolver requests c.inner).2
  /-- It is asked once for each request, for the same namespace and the same file. -/
  asked : ∀ earlier : List Request,
    (askAll (attempt resolver.logged) requests ⟨(c.inner, earlier), c.tracer⟩).2.inner =
      ((askAll resolver requests c.inner).2, earlier ++ requests)
  /-- Each of its answers is handed on, or is a sink without a name and becomes a fault. -/
  passes : List.Forall₂ Passes (askAll resolver requests c.inner).1
    (askAll (attempt resolver) requests c).1
  unfaulted : (∀ outcome ∈ (askAll (attempt resolver) requests c).1,
      ∃ answer, outcome = .ok answer) →
    (askAll (attempt resolver) requests c).1 = (askAll resolver requests c.inner).1.map .ok
  /-- A sink that is handed on has a name. -/
  named : ∀ place, .ok (.sink place) ∈ (askAll (attempt resolver) requests c).1 →
    ∃ systemId, Sink.systemId place = some systemId ∧ systemId ≠ ""
  /-- With a tracer that is on and keeps all kinds of events, everything is recorded. -/
  recorded : ∀ (o : Trace.Options) (calls : List Trace.Call), o.enabled = true → o.kinds = [] →
    Recorded resolver requests o calls (c.withTracer ((Trace.Tracer.new o).run calls))

/-- Whatever a resolver is asked behind a check, the check is transparent. -/
theorem transparent_askAll (resolver : Resolver σ α) (requests : List Request)
    (c : CheckedResolver σ) : Transparent resolver requests c := by
  have hpasses := forall₂_passes resolver requests c
  constructor
  case inner => rw [askAll_attempt]
  case asked =>
    intro earlier
    rw [askAll_attempt, askAll_logged]
  case passes => exact hpasses
  case unfaulted => exact eq_map_ok_of_passes hpasses
  case named =>
    intro place hplace
    obtain ⟨answer, -, hanswer⟩ := exists_of_forall₂_right hpasses hplace
    exact hanswer.exists_systemId
  case recorded =>
    intro o calls henabled hkinds
    rw [Recorded, askAll_attempt]
    exact Trace.Tracer.records_noteAll_startPhase henabled hkinds calls _

/-- The first of three sinks has a name, the second has none, and there is no third. -/
example : (askAll (attempt (.ofRoutes [⟨some "urn:a", none, .sink ⟨some "a.rs"⟩⟩,
      ⟨some "urn:b", none, .sink (⟨none⟩ : NamedSink)⟩]))
    [⟨"urn:a", "A.rs"⟩, ⟨"urn:b", "B.rs"⟩, ⟨"urn:c", "C.rs"⟩] (new ())).1 =
      [.ok (.sink ⟨some "a.rs"⟩), .error (.noSystemId "urn:b" "B.rs"), .ok .declined] := by rfl

end CheckedResolver

end MarkupTypes
