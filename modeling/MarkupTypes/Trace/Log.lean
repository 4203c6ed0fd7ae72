import MarkupTypes.Trace.Event

/-!
# The trace log

A bounded store of records. A full log drops its oldest record for a new one, and a log
without room drops every record at once. Ids count all records ever pushed, so
the number dropped is the difference between the next id and the number held.
-/

namespace MarkupTypes.Trace

/-- A bounded sequence of records, oldest first. -/
structure Log where
  records : List Record
  capacity : Nat
  /-- The id of the next record. -/
  nextId : Nat
  deriving DecidableEq, Repr

namespace Log

/-- The room of a log when nothing else is asked for. -/
def defaultCapacity : Nat := 10000

/-- A log with room for `capacity` records. -/
def empty (capacity : Nat) : Log := ⟨[], capacity, 0⟩

instance : Inhabited Log := ⟨empty defaultCapacity⟩

/-- Append a record, dropping the oldest one if there is no room. -/
def push (l : Log) (phase : Phase) (elapsed : Nat) (event : Event) : Log :=
  let kept := if l.records.length = l.capacity then l.records.drop 1 else l.records
  { l with
    records := if 0 < l.capacity then kept ++ [⟨l.nextId, phase, elapsed, event⟩] else kept
    nextId := l.nextId + 1 }

/-- The number of records held. -/
def size (l : Log) : Nat := l.records.length

/-- No records are held. -/
def isEmpty (l : Log) : Bool := l.records.isEmpty

/-- The number of records that were pushed and are no longer held. -/
def dropped (l : Log) : Nat := l.nextId - l.size

/-- The newest record. -/
def last? (l : Log) : Option Record := l.records.getLast?

/-- The records of one phase. -/
def ofPhase (l : Log) (phase : Phase) : List Record :=
  l.records.filter fun r => r.phase = phase

/-- The records of one kind of event. -/
def ofKind (l : Log) (kind : String) : List Record :=
  l.records.filter fun r => r.event.kind = kind

/-- Each kind of event held, with the number of its records. -/
def counts (l : Log) : List (String × Nat) :=
  let kinds := l.records.map fun r => r.event.kind
  kinds.eraseDups.map fun kind => (kind, kinds.count kind)

theorem nextId_push (l : Log) (phase : Phase) (elapsed : Nat) (event : Event) :
    (l.push phase elapsed event).nextId = l.nextId + 1 := rfl

end Log

end MarkupTypes.Trace
