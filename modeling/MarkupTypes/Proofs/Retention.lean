import Mathlib.Data.List.DropRight
import MarkupTypes.Proofs.Tracing

/-!
# What a tracer holds

A tracer is told what happens in a row of calls (`Trace.Tracer.run`). Each call is about an event,
in the phase that was started last. The events of the kinds that a tracer keeps are numbered in the
order of the calls, and its log holds the newest of them, as many as it has room for
(`Trace.Tracer.run_eq`), be that none at all. The phase is followed by a tracer that is off, too.

All that a log says of its records is said of these (`Trace.Tracer.retains_run`).
-/

namespace MarkupTypes.Trace

/-! ## Calls -/

/-- What a tracer is told. -/
inductive Call where
  | record (event : Event)
  | phaseStart (phase : Phase)
  | phaseEnd
  | ruleDefined (rule : String) (scope : Nat)
  | typeDeclared (name origin : String)
  | ruleInlined (rule into : String)
  deriving DecidableEq, Repr

namespace Call

/-- The phase that a call starts. -/
def started? : Call → Option Phase
  | phaseStart phase => some phase
  | record _ | phaseEnd | ruleDefined _ _ | typeDeclared _ _ | ruleInlined _ _ => none

/-- The event that a call in a phase is about. -/
def event (phase : Phase) : Call → Event
  | record event => event
  | phaseStart started => .phaseStart started
  | phaseEnd => .phaseEnd phase
  | ruleDefined rule scope => .ruleDefined rule scope
  | typeDeclared name origin => .typeDeclared name origin
  | ruleInlined rule into => .ruleInlined rule into

end Call

/-- The phase that was started last, which is the first phase if none was. -/
def phaseAfter (calls : List Call) : Phase :=
  (calls.filterMap Call.started?).getLast?.getD .build

/-- The events that calls are about, each with the phase that the call is made in. A call that
starts a phase is made in that phase. -/
def asked (calls : List Call) : List (Phase × Event) :=
  calls.mapIdx fun i call =>
    (phaseAfter (calls.take (i + 1)), call.event (phaseAfter (calls.take (i + 1))))

/-- The events of calls that are of a kind to keep, and none while tracing is off. -/
def kept (o : Options) (calls : List Call) : List (Phase × Event) :=
  if o.enabled then (asked calls).filter fun e => o.kinds = [] ∨ e.2.kind ∈ o.kinds else []

/-- The records of events, numbered from zero on. -/
def numbered (events : List (Phase × Event)) : List Record :=
  events.mapIdx fun i e => ⟨i, e.1, 0, e.2⟩

/-- The records of the newest events to keep, as many as there is room for. -/
def held (o : Options) (calls : List Call) : List Record :=
  (numbered (kept o calls)).rtake o.capacity

variable {o : Options} {calls : List Call} {call : Call}

theorem phaseAfter_concat (calls : List Call) (call : Call) :
    phaseAfter (calls ++ [call]) = call.started?.getD (phaseAfter calls) := by
  rw [phaseAfter, List.filterMap_append, phaseAfter]
  cases hstarted : call.started? with
  | none => simp [hstarted]
  | some phase => simp [hstarted]

theorem asked_concat (calls : List Call) (call : Call) :
    asked (calls ++ [call]) = asked calls ++
      [(phaseAfter (calls ++ [call]), call.event (phaseAfter (calls ++ [call])))] := by
  have hall : (calls ++ [call]).take (calls.length + 1) = calls ++ [call] :=
    List.take_of_length_le (by simp)
  have hearlier : ∀ i, i < calls.length →
      (calls ++ [call]).take (i + 1) = calls.take (i + 1) := fun i hi =>
    List.take_append_of_le_length hi
  rw [asked, List.mapIdx_concat, hall, asked]
  refine congrArg (· ++ _) (List.mapIdx_eq_mapIdx_iff.mpr fun i hi => ?_)
  rw [hearlier i hi]

/-- One more call adds its event, if it is of a kind to keep. -/
theorem kept_concat (o : Options) (calls : List Call) (call : Call) :
    kept o (calls ++ [call]) = kept o calls ++
      (if o.enabled && o.keeps (call.event (phaseAfter (calls ++ [call])))
        then [(phaseAfter (calls ++ [call]), call.event (phaseAfter (calls ++ [call])))]
        else []) := by
  have hkeeps : ∀ ev, o.keeps ev = decide (o.kinds = [] ∨ ev.kind ∈ o.kinds) := fun ev => by
    cases hkinds : o.kinds <;> simp [Options.keeps, hkinds]
  rw [kept, kept, asked_concat, List.filter_append, hkeeps]
  cases o.enabled with
  | false => rfl
  | true => simp only [if_true, Bool.true_and, List.filter_cons, List.filter_nil]

/-! ## Logs that hold the newest records -/

namespace Log

/-- The log that numbered events have come to. -/
def newest (capacity : Nat) (events : List (Phase × Event)) : Log :=
  ⟨(numbered events).rtake capacity, capacity, events.length⟩

theorem length_numbered (events : List (Phase × Event)) :
    (numbered events).length = events.length := List.length_mapIdx

theorem numbered_concat (events : List (Phase × Event)) (phase : Phase) (ev : Event) :
    numbered (events ++ [(phase, ev)]) =
      numbered events ++ [⟨events.length, phase, 0, ev⟩] := List.mapIdx_concat

/-- Ids count the events. -/
theorem map_id_numbered (events : List (Phase × Event)) :
    (numbered events).map Record.id = List.range events.length := by
  induction events using List.reverseRecOn with
  | nil => rfl
  | append_singleton events e ih =>
    rw [numbered_concat, List.map_append, ih, List.length_append, List.length_singleton,
      List.range_succ]
    rfl

theorem newest_nil (capacity : Nat) : newest capacity [] = empty capacity := by
  simp [newest, numbered, empty]

theorem size_newest (capacity : Nat) (events : List (Phase × Event)) :
    (newest capacity events).size = min capacity events.length := by
  rw [size, newest, List.rtake, List.length_drop, length_numbered]
  omega

/-- Room for one more among the last items is made by dropping the first of them, unless there is
room already. -/
theorem rtake_of_rtake_succ {α : Type} (xs : List α) (n : Nat) :
    (if (xs.rtake (n + 1)).length = n + 1 then (xs.rtake (n + 1)).drop 1
      else xs.rtake (n + 1)) = xs.rtake n := by
  simp only [List.rtake, List.length_drop, List.drop_drop]
  split
  · next hfull => rw [show xs.length - (n + 1) + 1 = xs.length - n by omega]
  · next hroom => rw [show xs.length - (n + 1) = xs.length - n by omega]

/-- A full log gives up its oldest record for a new one, and a log without room takes none. -/
theorem push_newest (capacity : Nat) (events : List (Phase × Event)) (phase : Phase) (ev : Event) :
    (newest capacity events).push phase 0 ev = newest capacity (events ++ [(phase, ev)]) := by
  cases capacity with
  | zero => simp [newest, push]
  | succ n =>
    rw [push, newest, newest, numbered_concat, List.rtake_concat_succ, List.length_append]
    simp only [Nat.zero_lt_succ, if_true, rtake_of_rtake_succ]
    rfl

/-- The first occurrences of things are all different. -/
theorem nodup_eraseDups {α : Type} [DecidableEq α] : ∀ xs : List α, xs.eraseDups.Nodup
  | [] => List.nodup_nil
  | x :: xs => by
    have hshorter : (xs.filter fun y => !y == x).length ≤ xs.length := List.length_filter_le _ _
    rw [List.eraseDups_cons]
    exact List.nodup_cons.mpr ⟨by simp, nodup_eraseDups _⟩
  termination_by xs => xs.length

/-- Each kind is counted once. -/
theorem nodup_counts (l : Log) : (l.counts.map Prod.fst).Nodup := by
  rw [counts, List.map_map]
  exact (List.map_id' _).symm ▸ nodup_eraseDups _

/-- A kind is counted as often as there are records of it. -/
theorem mem_counts_iff (l : Log) (kind : String) (n : Nat) :
    (kind, n) ∈ l.counts ↔ 0 < n ∧ n = l.records.countP fun r => r.event.kind = kind := by
  have hcount : (l.records.map fun r => r.event.kind).count kind =
      l.records.countP fun r => r.event.kind = kind := by
    rw [List.count, List.countP_map]
    rfl
  have hmem : kind ∈ (l.records.map fun r => r.event.kind) ↔
      0 < (l.records.map fun r => r.event.kind).count kind := List.count_pos_iff.symm
  simp only [counts, List.mem_map, List.mem_eraseDups, Prod.mk.injEq]
  constructor
  · rintro ⟨_, hkind, rfl, rfl⟩
    exact ⟨List.count_pos_iff.mpr (List.mem_map.mpr hkind), hcount⟩
  · rintro ⟨hpos, rfl⟩
    rw [← hcount] at hpos ⊢
    exact ⟨kind, List.mem_map.mp (hmem.mpr hpos), rfl, rfl⟩

end Log

/-! ## Runs of calls -/

namespace Tracer

/-- Tell a tracer what happens. -/
def told (t : Tracer) : Call → Tracer
  | .record event => t.note event
  | .phaseStart phase => t.startPhase phase
  | .phaseEnd => t.endPhase
  | .ruleDefined rule scope => t.noteIfEnabled (.ruleDefined rule scope)
  | .typeDeclared name origin => t.noteIfEnabled (.typeDeclared name origin)
  | .ruleInlined rule into => t.noteIfEnabled (.ruleInlined rule into)

/-- Tell a tracer what happens, call by call. -/
def run (t : Tracer) (calls : List Call) : Tracer := calls.foldl told t

theorem noteIfEnabled_eq (t : Tracer) (ev : Event) : t.noteIfEnabled ev = t.note ev := by
  unfold noteIfEnabled
  split
  · rfl
  · next hoff => rw [note, if_neg (by simp [hoff])]

/-- Whatever a tracer is told, it enters the phase that is started, and notes the event. -/
theorem told_eq (t : Tracer) (call : Call) : t.told call =
    { t with phase := call.started?.getD t.phase }.note
      (call.event (call.started?.getD t.phase)) := by
  cases call with
  | record | phaseStart | phaseEnd => rfl
  | ruleDefined | typeDeclared | ruleInlined => exact noteIfEnabled_eq t _

/-- An event that is noted is one more of those that the log holds the newest of. -/
theorem note_newest (o : Options) (events : List (Phase × Event)) (phase : Phase) (ev : Event) :
    note ⟨o, .newest o.capacity events, phase⟩ ev =
      ⟨o, .newest o.capacity
        (events ++ (if o.enabled && o.keeps ev then [(phase, ev)] else [])), phase⟩ := by
  change (if o.enabled && o.keeps ev
    then (⟨o, (Log.newest o.capacity events).push phase 0 ev, phase⟩ : Tracer)
    else ⟨o, .newest o.capacity events, phase⟩) = _
  rw [Log.push_newest]
  cases o.enabled && o.keeps ev with
  | true => rfl
  | false => exact congrArg (Tracer.mk o · phase) (congrArg _ (List.append_nil events).symm)

/-- The state of a tracer after calls. -/
theorem run_eq (o : Options) (calls : List Call) :
    (new o).run calls = ⟨o, .newest o.capacity (kept o calls), phaseAfter calls⟩ := by
  induction calls using List.reverseRecOn with
  | nil =>
    have hnone : kept o [] = [] := by simp [kept, asked]
    rw [hnone, Log.newest_nil]
    rfl
  | append_singleton calls call ih =>
    have hstep : (new o).run (calls ++ [call]) = ((new o).run calls).told call :=
      List.foldl_concat ..
    rw [hstep, ih, told_eq, ← phaseAfter_concat, kept_concat]
    exact note_newest o _ _ _

/-- What a tracer with some options holds after calls. -/
structure Retains (o : Options) (calls : List Call) (t : Tracer) : Prop where
  /-- The phase that was started last, whether the tracer is on or not. -/
  phase : t.phase = phaseAfter calls
  /-- The newest of the events to keep, oldest first, each with its phase. -/
  records : t.log.records = held o calls
  size : t.log.size = min o.capacity (kept o calls).length
  dropped : t.log.size + t.log.dropped = (kept o calls).length
  /-- Ids follow each other, up to that of the last event to keep. -/
  ids : t.log.records.map Record.id =
    List.range' ((kept o calls).length - t.log.size) t.log.size
  ofPhase : ∀ phase, t.log.ofPhase phase = (held o calls).filter fun r => r.phase = phase
  ofKind : ∀ kind, t.log.ofKind kind = (held o calls).filter fun r => r.event.kind = kind
  /-- Each kind that there is a record of is counted once, with the number of its records. -/
  counts : ∀ kind n, (kind, n) ∈ t.log.counts ↔
    0 < n ∧ n = (held o calls).countP fun r => r.event.kind = kind
  counted : (t.log.counts.map Prod.fst).Nodup

/-- After any calls a tracer holds the newest of the events that it keeps. -/
theorem retains_run (o : Options) (calls : List Call) : Retains o calls ((new o).run calls) := by
  have hsize := Log.size_newest o.capacity (kept o calls)
  rw [run_eq]
  constructor
  case phase => rfl
  case records => rfl
  case size => exact hsize
  case dropped =>
    change Log.size _ + ((kept o calls).length - Log.size _) = _
    rw [hsize]
    omega
  case ids =>
    change (List.drop _ _).map Record.id = _
    rw [hsize, List.map_drop, Log.map_id_numbered, Log.length_numbered, List.range_eq_range',
      List.drop_range']
    congr 1 <;> omega
  case ofPhase => exact fun _ => rfl
  case ofKind => exact fun _ => rfl
  case counts => exact Log.mem_counts_iff _
  case counted => exact Log.nodup_counts _

end Tracer

end MarkupTypes.Trace
