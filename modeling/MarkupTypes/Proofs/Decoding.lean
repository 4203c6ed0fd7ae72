import MarkupTypes.Proofs.JsonText
import MarkupTypes.Trace.Render

/-!
# Records from their text

The JSON text of a record says one object (`Trace.Record.json`), and the record can be made again
from it (`Trace.Record.ofJson?`). The text of several records says the array of their objects.

That texts are escaped and numbers written as JSON wants them is shown for the grammar of JSON and
not for one reader, so that every reader that follows the grammar gets the records back.
-/

namespace MarkupTypes

open Text.Escaped

namespace Json

/-! ## Written values -/

theorem hexValue?_hexDigit : ∀ n < 16, hexValue? (hexDigit n) = some n := by
  decide

/-- A control character is written as its number. -/
theorem escape_control {c : Char} (hc : c.toNat < 0x20) :
    Escape c ['u', '0', '0', hexDigit (c.toNat / 16), hexDigit (c.toNat % 16)] := by
  have hunit : unit? '0' '0' (hexDigit (c.toNat / 16)) (hexDigit (c.toNat % 16)) =
      some c.toNat := by
    have hzero : hexValue? '0' = some 0 := rfl
    simp only [unit?, hzero, hexValue?_hexDigit _ (show c.toNat / 16 < 16 by omega),
      hexValue?_hexDigit _ (Nat.mod_lt c.toNat (show 16 > 0 by omega)), bind, Option.bind, pure]
    congr 1
    omega
  have hescape := Escape.unit hunit (by simp [isLeading]; omega) (by simp [isTrailing]; omega)
  rwa [Char.ofNat_toNat] at hescape

theorem Quoted.cons_encodeChar {s cs : List Char} (tail : Quoted s cs) (c : Char) :
    Quoted (c :: s) (encodeChar c ++ cs) := by
  unfold encodeChar
  -- five characters have letters, and the rest of the control characters have numbers
  split_ifs with hquote hbackslash hfeed hreturn htab hcontrol
  · subst hquote
    exact .escape (.letter rfl) tail
  · subst hbackslash
    exact .escape (.letter rfl) tail
  · subst hfeed
    exact .escape (.letter rfl) tail
  · subst hreturn
    exact .escape (.letter rfl) tail
  · subst htab
    exact .escape (.letter rfl) tail
  · exact .escape (escape_control hcontrol) tail
  · exact .plain hquote hbackslash (Nat.not_lt.mp hcontrol) tail

theorem quoted_encode (s : List Char) : Quoted s (encode s) := by
  induction s with
  | nil => exact .nil
  | cons c s ih => exact ih.cons_encodeChar c

theorem toList_quote (s : String) : (quote s).toList = '"' :: encode s.toList ++ ['"'] := by
  simp [quote]

theorem written_quote (s : String) : Written (.value (.string s)) (quote s).toList := by
  have hwritten := Written.string (quoted_encode s.toList)
  rwa [String.ofList_toList, ← toList_quote] at hwritten

theorem digitChar_ne_zero : ∀ n < 10, n ≠ 0 → Nat.digitChar n ≠ '0' := by
  decide

/-- A number other than zero is written without a leading zero. -/
theorem head?_toDigits {n : Nat} (hn : n ≠ 0) :
    ∃ c, (Nat.toDigits 10 n).head? = some c ∧ c ≠ '0' := by
  induction n using Nat.strongRecOn with
  | ind n ih =>
    rw [Nat.toDigits_eq_if (by decide)]
    split
    · next hlt => exact ⟨_, rfl, digitChar_ne_zero n hlt hn⟩
    · next hle =>
      obtain ⟨c, hc, hne⟩ := ih (n / 10) (by omega) (by omega)
      exact ⟨c, by rw [List.head?_append, hc, Option.some_or], hne⟩

theorem isInteger_toDigits (n : Nat) : isInteger (Nat.toDigits 10 n) = true := by
  have hdigits : areDigits (Nat.toDigits 10 n) = true := by
    rw [areDigits, Bool.and_eq_true_iff, List.all_eq_true]
    refine ⟨by simp [Nat.toDigits_ne_nil], fun c hc => ?_⟩
    exact Nat.isDigit_of_mem_toDigits (by decide) (by decide) hc
  have hzero : (Nat.toDigits 10 n).head? ≠ some '0' ∨ Nat.toDigits 10 n = ['0'] := by
    by_cases hn : n = 0
    · exact .inr (hn ▸ rfl)
    · obtain ⟨c, hc, hne⟩ := head?_toDigits hn
      exact .inl fun h => hne (Option.some.inj (hc.symm.trans h))
  rw [isInteger, hdigits, Bool.true_and, Bool.or_eq_true_iff, decide_eq_true_eq, decide_eq_true_eq]
  exact hzero

theorem number?_toString (n : Nat) : number? (toString n).toList = some (.number n) := by
  rw [Nat.toString_eq_ofList_toDigits, String.toList_ofList, number?,
    if_pos (isInteger_toDigits n), Nat.ofDigitChars_ten_toDigits]

/-! ## Written fields -/

theorem Written.fields_append {fs gs : List (String × Json)} {cs ds : List Char}
    (h : Written (.fields fs) cs) (tail : Written (.fields gs) ds) :
    Written (.fields (fs ++ gs)) (cs ++ ',' :: ds) := by
  induction fs generalizing cs with
  | nil => cases h
  | cons f fs ih =>
    cases h with
    | lastField h => exact .nextField h tail
    | nextField h hfs =>
      rw [List.append_assoc, List.cons_append]
      exact .nextField h (ih hfs)

theorem Written.item_after {before cs : List Char} {v : Json} (hbefore : AreBlank before)
    (h : Written (.value v) cs) : Written (.item v) (before ++ cs) := by
  have hitem := Written.item hbefore h areBlank_nil
  rwa [List.append_nil] at hitem

theorem Written.field_quote {before cs : List Char} {v : Json} (hbefore : AreBlank before)
    (key : String) (h : Written (.value v) cs) :
    Written (.field key v) (before ++ (quote key).toList ++ ':' :: ' ' :: cs) := by
  have hfield := Written.field hbefore (quoted_encode key.toList) areBlank_nil
    (h.item_after areBlank_space)
  rw [String.ofList_toList] at hfield
  rw [toList_quote]
  simpa using hfield

/-! ## Conveyed values -/

section Conveys

variable {α : Type} {write : α → String} {json : α → Json} {decode : Json → Option α}

/-- Every value is written as JSON text that says one thing, and can be made again from that. -/
structure Conveys (write : α → String) (json : α → Json) (decode : Json → Option α) : Prop where
  denotes (x : α) (v : Json) : Denotes (write x) v ↔ v = json x
  read (x : α) : read? (write x) = some (json x)
  decode (x : α) : decode (json x) = some x

theorem Conveys.of_written (hwritten : ∀ x, Written (.value (json x)) (write x).toList)
    (hdecode : ∀ x, decode (json x) = some x) : Conveys write json decode := by
  have hdenotes : ∀ x, Denotes (write x) (json x) := fun x => (hwritten x).item_after areBlank_nil
  refine ⟨fun x v => ⟨fun h => h.unique (hdenotes x), ?_⟩, fun x => (hdenotes x).read?_eq, hdecode⟩
  rintro rfl
  exact hdenotes x

/-- Different values have different texts. -/
theorem Conveys.injective (h : Conveys write json decode) : Function.Injective write := by
  intro x y hxy
  have hjson : json x = json y :=
    Option.some.inj ((h.read x).symm.trans ((congrArg read? hxy).trans (h.read y)))
  exact Option.some.inj ((h.decode x).symm.trans ((congrArg decode hjson).trans (h.decode y)))

end Conveys

end Json

namespace Trace

open Json

/-! ## Records as JSON -/

/-- The value of a field. -/
def Field.value : Field → Json
  | .text value => .string value
  | .number value => .number value

/-- Fields with their values. -/
def values (fields : List (String × Field)) : List (String × Json) :=
  fields.map fun (key, field) => (key, field.value)

/-- The object of a record. -/
def Record.json (r : Record) : Json :=
  .object
    [("id", .number r.id), ("phase", .string r.phase.name), ("timestamp_ns", .number r.elapsed),
      ("type", .string r.event.kind), ("data", .object (values r.event.fields))]

theorem Field.written (field : Field) : Written (.value field.value) field.json.toList := by
  cases field with
  | text value => exact written_quote value
  | number value => exact .number (number?_toString value)

theorem written_fieldJson {before : List Char} (hbefore : AreBlank before) (key : String)
    (field : Field) :
    Written (.field key field.value) (before ++ (fieldJson key field).toList) := by
  have hfield := field.written.field_quote hbefore key
  simpa [fieldJson] using hfield

theorem written_fieldsJson {before : List Char} (hbefore : AreBlank before)
    {fields : List (String × Field)} (hne : fields ≠ []) :
    Written (.fields (values fields)) (before ++ (fieldsJson fields).toList) := by
  induction fields generalizing before with
  | nil => exact absurd rfl hne
  | cons field fields ih =>
    have hfield := written_fieldJson hbefore field.1 field.2
    cases fields with
    | nil => exact .lastField hfield
    | cons next fields =>
      have hfields := Written.nextField hfield (ih areBlank_space (List.cons_ne_nil _ _))
      simpa [fieldsJson, values, String.intercalate_cons_cons] using hfields

theorem Event.fields_ne_nil (ev : Event) : ev.fields ≠ [] := by
  cases ev <;> exact List.cons_ne_nil _ _

theorem Event.nodup_fields (ev : Event) : ((values ev.fields).map Prod.fst).Nodup := by
  cases ev <;> simp [fields, values]

theorem Record.written (r : Record) : Written (.value r.json) r.toJson.toList := by
  have hhead := written_fieldsJson areBlank_nil (List.cons_ne_nil ("id", .number r.id)
    [("phase", .text r.phase.name), ("timestamp_ns", .number r.elapsed),
      ("type", .text r.event.kind)])
  have hdata := Written.object (written_fieldsJson areBlank_nil r.event.fields_ne_nil)
    r.event.nodup_fields
  -- the data is a field like the others, only that its value is an object
  have hlast := Written.lastField (hdata.field_quote areBlank_space "data")
  have hrecord := Written.object (hhead.fields_append hlast) (by simp [values])
  have hquote : (quote "data").toList = ['"', 'd', 'a', 't', 'a', '"'] := rfl
  rw [hquote] at hrecord
  simpa [toJson, json, values, Field.value] using hrecord

theorem written_all {rs : List Record} (hne : rs ≠ []) :
    Written (.items (rs.map Record.json)) (",".intercalate (rs.map Record.toJson)).toList := by
  induction rs with
  | nil => exact absurd rfl hne
  | cons r rs ih =>
    have hitem := r.written.item_after areBlank_nil
    cases rs with
    | nil => simpa using Written.lastItem hitem
    | cons next rs =>
      have hitems := Written.nextItem hitem (ih (List.cons_ne_nil _ _))
      simpa [String.intercalate_cons_cons] using hitems

theorem Record.written_allToJson (rs : List Record) :
    Written (.value (.array (rs.map Record.json))) (Record.allToJson rs).toList := by
  cases rs with
  | nil =>
    have harray := Written.noItems areBlank_nil
    simpa [allToJson] using harray
  | cons r rs =>
    have harray := Written.array (written_all (List.cons_ne_nil r rs))
    simpa [allToJson] using harray

/-! ## Records from JSON -/

/-- The phase of a name. -/
def phase? (name : String) : Option Phase :=
  [Phase.build, .prepare, .declare, .generate, .output].find? (·.name = name)

/-- The value of a field of an object. -/
def field? (v : Json) (name : String) : Option Json :=
  match v with
  | .object fields => fields.lookup name
  | _ => none

/-- The text in a field of an object. -/
def textAt? (v : Json) (name : String) : Option String := (field? v name).bind Json.string?

/-- The natural number in a field of an object. -/
def numberAt? (v : Json) (name : String) : Option Nat :=
  match field? v name with
  | some (.number n) => some n
  | _ => none

/-- The event of a kind with its parts. -/
def Event.ofJson? (kind : String) (data : Json) : Option Event :=
  match kind with
  | "phase-start" => do return .phaseStart (← phase? (← textAt? data "target"))
  | "phase-end" => do return .phaseEnd (← phase? (← textAt? data "target"))
  | "rule-defined" => do return .ruleDefined (← textAt? data "rule") (← numberAt? data "scope")
  | "rule-aliased" => do return .ruleAliased (← textAt? data "rule") (← textAt? data "target")
  | "type-declared" => do return .typeDeclared (← textAt? data "name") (← textAt? data "origin")
  | "rule-inlined" => do return .ruleInlined (← textAt? data "rule") (← textAt? data "into")
  | "members-generated" => do
    return .membersGenerated (← textAt? data "type") (← numberAt? data "count")
  | "output-requested" => do
    return .outputRequested (← textAt? data "namespace") (← textAt? data "file")
  | "output-resolved" => do
    return .outputResolved (← textAt? data "namespace") (← textAt? data "file")
      (← textAt? data "system_id")
  | "output-skipped" => do
    return .outputSkipped (← textAt? data "namespace") (← textAt? data "file")
  | _ => none

/-- The record that an object was made of. -/
def Record.ofJson? (v : Json) : Option Record := do
  let event ← Event.ofJson? (← textAt? v "type") (← field? v "data")
  return {
    id := ← numberAt? v "id"
    phase := ← phase? (← textAt? v "phase")
    elapsed := ← numberAt? v "timestamp_ns"
    event }

theorem phase?_name (phase : Phase) : phase? phase.name = some phase := by
  cases phase <;> rfl

theorem Event.ofJson?_fields (ev : Event) :
    Event.ofJson? ev.kind (.object (values ev.fields)) = some ev := by
  cases ev with
  | phaseStart phase | phaseEnd phase => cases phase <;> rfl
  | _ => rfl

theorem Record.ofJson?_json (r : Record) : Record.ofJson? r.json = some r := by
  have hid : numberAt? r.json "id" = some r.id := rfl
  have hphase : textAt? r.json "phase" = some r.phase.name := rfl
  have helapsed : numberAt? r.json "timestamp_ns" = some r.elapsed := rfl
  have hkind : textAt? r.json "type" = some r.event.kind := rfl
  have hdata : field? r.json "data" = some (.object (values r.event.fields)) := rfl
  simp only [ofJson?, hid, hphase, helapsed, hkind, hdata, bind, Option.bind, pure,
    Event.ofJson?_fields, phase?_name]

theorem Record.list?_json (rs : List Record) :
    Json.list? Record.ofJson? (.array (rs.map Record.json)) = some rs := by
  rw [Json.list?]
  induction rs with
  | nil => rfl
  | cons r rs ih =>
    rw [List.map_cons, List.mapM_cons, ofJson?_json, ih]
    rfl

/-- Records can be made again from their JSON text, one by one and all at once. -/
theorem Record.conveys_json :
    Conveys Record.toJson Record.json Record.ofJson? ∧
    Conveys Record.allToJson (fun rs => .array (rs.map Record.json))
      (Json.list? Record.ofJson?) ∧
    Function.Injective Record.toJson ∧ Function.Injective Record.allToJson := by
  have hone := Conveys.of_written Record.written ofJson?_json
  have hall := Conveys.of_written written_allToJson list?_json
  exact ⟨hone, hall, hone.injective, hall.injective⟩

end Trace

end MarkupTypes
