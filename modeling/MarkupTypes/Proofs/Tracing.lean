import MarkupTypes.Trace.Tracer

/-!
# Tracers that keep everything

A tracer that is on and keeps events of all kinds adds each event that it notes to its records, as
long as there is room (`Trace.Tracer.KeepsAll.noteAll_eq`). What is noted in a phase of its own
becomes a block of records with the tag of the phase, from its start to its end
(`Trace.Tracer.KeepsAll.exists_blocks`).
-/

namespace MarkupTypes

namespace Trace

/-! ## What events say -/

namespace Event

/-- A rule that names the reference it consists of, and the target of the reference. -/
def aliased? : Event → Option (String × String)
  | ruleAliased rule target => some (rule, target)
  | _ => none

/-- The name and the origin of a type that was created. -/
def declared? : Event → Option (String × String)
  | typeDeclared name origin => some (name, origin)
  | _ => none

/-- The name of a type that has all its members, and their number. -/
def counted? : Event → Option (String × Nat)
  | membersGenerated type count => some (type, count)
  | _ => none

/-- A phase starts or ends. -/
def isMark : Event → Bool
  | phaseStart _ => true
  | phaseEnd _ => true
  | _ => false

variable {ev : Event}

theorem aliased?_of_isMark (h : ev.isMark = true) : ev.aliased? = none := by
  cases ev <;> first | rfl | cases h

theorem declared?_of_isMark (h : ev.isMark = true) : ev.declared? = none := by
  cases ev <;> first | rfl | cases h

theorem counted?_of_isMark (h : ev.isMark = true) : ev.counted? = none := by
  cases ev <;> first | rfl | cases h

end Event

/-- The events of a phase, from its start to its end. -/
def phaseEvents (phase : Phase) (events : List Event) : List Event :=
  .phaseStart phase :: (events ++ [.phaseEnd phase])

/-- Records of events in one phase, from its start to its end. -/
structure Block (phase : Phase) (events : List Event) (rs : List Record) : Prop where
  tagged : ∀ r ∈ rs, r.phase = phase
  noted : rs.map Record.event = phaseEvents phase events
  inner : ∀ ev ∈ events, ev.isMark = false

/-- What is read off the records of a phase, but for its start and end, is read off its events. -/
theorem Block.filterMap_event {phase : Phase} {events : List Event} {rs : List Record}
    (h : Block phase events rs) {α : Type} {f : Event → Option α}
    (hmark : ∀ ev, ev.isMark = true → f ev = none) :
    (rs.filterMap fun r => f r.event) = events.filterMap f := by
  have hnoted := congrArg (List.filterMap f) h.noted
  rw [List.filterMap_map] at hnoted
  refine hnoted.trans ?_
  rw [phaseEvents, List.filterMap_cons_none (hmark _ rfl), List.filterMap_append,
    List.filterMap_cons_none (hmark _ rfl), List.filterMap_nil, List.append_nil]

/-- The records of events that are noted in a phase, numbered from `n` on. -/
def recordsFrom (phase : Phase) : Nat → List Event → List Record
  | _, [] => []
  | n, ev :: events => ⟨n, phase, 0, ev⟩ :: recordsFrom phase (n + 1) events

theorem map_event_recordsFrom (phase : Phase) : ∀ (n : Nat) (events : List Event),
    (recordsFrom phase n events).map Record.event = events
  | _, [] => rfl
  | n, ev :: events => congrArg (ev :: ·) (map_event_recordsFrom phase (n + 1) events)

theorem length_recordsFrom (phase : Phase) (n : Nat) (events : List Event) :
    (recordsFrom phase n events).length = events.length := by
  rw [← List.length_map Record.event, map_event_recordsFrom]

theorem phase_of_mem_recordsFrom {phase : Phase} {r : Record} : ∀ {n : Nat} {events : List Event},
    r ∈ recordsFrom phase n events → r.phase = phase
  | _, [], h => by cases h
  | _, _ :: _, h => by
    rcases List.mem_cons.mp h with rfl | h
    · rfl
    · exact phase_of_mem_recordsFrom h

namespace Log

variable {l : Log}

/-- The log with more records at its end, numbered on. -/
def extend (l : Log) (rs : List Record) : Log :=
  ⟨l.records ++ rs, l.capacity, l.nextId + rs.length⟩

theorem extend_nil (l : Log) : l.extend [] = l := by simp [extend]

theorem extend_extend (l : Log) (rs rs' : List Record) :
    (l.extend rs).extend rs' = l.extend (rs ++ rs') := by
  simp [extend, Nat.add_assoc]

theorem size_extend (l : Log) (rs : List Record) : (l.extend rs).size = l.size + rs.length :=
  List.length_append

/-- With room for it, a record is added to those that there are. -/
theorem push_eq {phase : Phase} {ev : Event} (hroom : l.size < l.capacity) :
    l.push phase 0 ev = l.extend [⟨l.nextId, phase, 0, ev⟩] := by
  have hsize : l.records.length ≠ l.capacity := Nat.ne_of_lt hroom
  have hcapacity : 0 < l.capacity := Nat.zero_lt_of_lt hroom
  simp [push, extend, hsize, hcapacity]

end Log

namespace Tracer

variable {t : Tracer} {phase : Phase} {events : List Event}

/-! ## Events in a row -/

/-- Note events, in order. -/
def noteAll (t : Tracer) (events : List Event) : Tracer := events.foldl note t

/-- Note events in a phase of their own. -/
def during (t : Tracer) (phase : Phase) (events : List Event) : Tracer :=
  ((t.startPhase phase).noteAll events).endPhase

/-- The tracer is on, and keeps events of all kinds. -/
structure KeepsAll (t : Tracer) : Prop where
  enabled : t.isEnabled = true
  unfiltered : t.options.kinds = []

theorem noteAll_append (t : Tracer) (events later : List Event) :
    t.noteAll (events ++ later) = (t.noteAll events).noteAll later := List.foldl_append

theorem phase_note (t : Tracer) (ev : Event) : (t.note ev).phase = t.phase := by
  unfold note
  split <;> rfl

theorem phase_noteAll : ∀ (events : List Event) (t : Tracer), (t.noteAll events).phase = t.phase
  | [], _ => rfl
  | ev :: events, t => (phase_noteAll events (t.note ev)).trans (phase_note t ev)

theorem during_eq (t : Tracer) (phase : Phase) (events : List Event) :
    t.during phase events = { t with phase }.noteAll (phaseEvents phase events) := by
  have hphase : ((t.startPhase phase).noteAll events).phase = phase :=
    (phase_noteAll events _).trans (phase_note _ _)
  rw [during, endPhase, hphase, phaseEvents, ← List.cons_append, noteAll_append]
  rfl

theorem KeepsAll.note_eq (h : t.KeepsAll) (ev : Event) :
    t.note ev = { t with log := t.log.push t.phase 0 ev } := by
  simp [note, h.enabled, Options.keeps, h.unfiltered]

theorem KeepsAll.nextId_noteAll (h : t.KeepsAll) :
    (t.noteAll events).log.nextId = t.log.nextId + events.length := by
  induction events generalizing t with
  | nil => rfl
  | cons ev events ih =>
    have hrest : ({ t with log := t.log.push t.phase 0 ev } : Tracer).KeepsAll := ⟨h.1, h.2⟩
    change ((t.note ev).noteAll events).log.nextId = _
    rw [h.note_eq, ih hrest, Log.nextId_push, List.length_cons]
    omega

/-- With room for all of them, events are added to the records as they are. -/
theorem KeepsAll.noteAll_eq (h : t.KeepsAll)
    (hroom : t.log.size + events.length ≤ t.log.capacity) :
    t.noteAll events =
      { t with log := t.log.extend (recordsFrom t.phase t.log.nextId events) } := by
  induction events generalizing t with
  | nil => rw [recordsFrom, Log.extend_nil]; rfl
  | cons ev events ih =>
    rw [List.length_cons] at hroom
    have hfirst : t.note ev = { t with log := t.log.extend [⟨t.log.nextId, t.phase, 0, ev⟩] } := by
      rw [h.note_eq, Log.push_eq (by omega)]
    have hrest : (t.note ev).log.size + events.length ≤ (t.note ev).log.capacity := by
      rw [hfirst, Log.size_extend]
      change t.log.size + 1 + events.length ≤ t.log.capacity
      omega
    change (t.note ev).noteAll events = _
    rw [ih (hfirst ▸ ⟨h.1, h.2⟩) hrest, hfirst, Log.extend_extend]
    rfl

theorem options_note (t : Tracer) (ev : Event) : (t.note ev).options = t.options := by
  unfold note
  split <;> rfl

theorem options_noteAll : ∀ (events : List Event) (t : Tracer),
    (t.noteAll events).options = t.options
  | [], _ => rfl
  | ev :: events, t => (options_noteAll events (t.note ev)).trans (options_note t ev)

theorem KeepsAll.of_options_eq {t' : Tracer} (h : t.KeepsAll) (heq : t'.options = t.options) :
    t'.KeepsAll :=
  ⟨(congrArg Options.enabled heq).trans h.enabled, by rw [heq, h.unfiltered]⟩

theorem KeepsAll.during (h : t.KeepsAll) (phase : Phase) (events : List Event) :
    (t.during phase events).KeepsAll := by
  rw [during_eq]
  exact h.of_options_eq (options_noteAll _ _)

theorem KeepsAll.nextId_during (h : t.KeepsAll) (phase : Phase) (events : List Event) :
    (t.during phase events).log.nextId =
      t.log.nextId + (phaseEvents phase events).length := by
  rw [during_eq]
  exact KeepsAll.nextId_noteAll ⟨h.1, h.2⟩

/-- With room for it, a phase adds its records to those that there are, and leaves the room that
it does not take. -/
theorem KeepsAll.exists_block (h : t.KeepsAll) {n : Nat}
    (hroom : t.log.size + ((phaseEvents phase events).length + n) ≤ t.log.capacity)
    (hevents : ∀ ev ∈ events, ev.isMark = false) : ∃ rs,
    (t.during phase events).log = t.log.extend rs ∧ Block phase events rs ∧
      (t.during phase events).log.size + n ≤ (t.during phase events).log.capacity := by
  have hinner : ({ t with phase } : Tracer).KeepsAll := ⟨h.1, h.2⟩
  have hlog : (t.during phase events).log =
      t.log.extend (recordsFrom phase t.log.nextId (phaseEvents phase events)) := by
    rw [during_eq, hinner.noteAll_eq (by change t.log.size + _ ≤ t.log.capacity; omega)]
  refine ⟨_, hlog, ⟨fun _ => phase_of_mem_recordsFrom, map_event_recordsFrom _ _ _, hevents⟩, ?_⟩
  rw [hlog, Log.size_extend, length_recordsFrom]
  change _ ≤ t.log.capacity
  omega

/-- With room for all that is noted, three phases in a row add a block of records each. -/
theorem KeepsAll.exists_blocks (h : t.KeepsAll) {first second third : Phase}
    {events₁ events₂ events₃ : List Event} {t' : Tracer}
    (ht' : t' = ((t.during first events₁).during second events₂).during third events₃)
    (hroom : t.log.size + (t'.log.nextId - t.log.nextId) ≤ t.log.capacity)
    (hevents₁ : ∀ ev ∈ events₁, ev.isMark = false) (hevents₂ : ∀ ev ∈ events₂, ev.isMark = false)
    (hevents₃ : ∀ ev ∈ events₃, ev.isMark = false) : ∃ rs₁ rs₂ rs₃,
    t'.log.records = t.log.records ++ (rs₁ ++ (rs₂ ++ rs₃)) ∧ Block first events₁ rs₁ ∧
      Block second events₂ rs₂ ∧ Block third events₃ rs₃ := by
  have h₁ := h.during first events₁
  have h₂ := h₁.during second events₂
  have hnext : t'.log.nextId = t.log.nextId + (phaseEvents first events₁).length +
      (phaseEvents second events₂).length + (phaseEvents third events₃).length := by
    rw [ht', h₂.nextId_during, h₁.nextId_during, h.nextId_during]
  have hroom₀ : t.log.size + ((phaseEvents first events₁).length +
      ((phaseEvents second events₂).length + ((phaseEvents third events₃).length + 0))) ≤
        t.log.capacity := by omega
  obtain ⟨rs₁, hlog₁, hblock₁, hroom₁⟩ := h.exists_block hroom₀ hevents₁
  obtain ⟨rs₂, hlog₂, hblock₂, hroom₂⟩ := h₁.exists_block hroom₁ hevents₂
  obtain ⟨rs₃, hlog₃, hblock₃, -⟩ := h₂.exists_block hroom₂ hevents₃
  refine ⟨rs₁, rs₂, rs₃, ?_, hblock₁, hblock₂, hblock₃⟩
  rw [ht', hlog₃, hlog₂, hlog₁, Log.extend_extend, Log.extend_extend]
  rfl

end Tracer

end Trace

end MarkupTypes
