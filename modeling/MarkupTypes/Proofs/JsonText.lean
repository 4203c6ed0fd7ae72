import Mathlib.Data.List.TakeDrop
import MarkupTypes.Json

/-!
# JSON text

What is JSON text, and what it says. The grammar (`Json.Written`) has strings with escapes, numbers
without leading zeros, blanks around values and names, and objects whose fields have different
names. A text is a value with blanks around it (`Json.Denotes`).

The reader (`Json.read?`) goes through a text once and looks no more than one character ahead. It
reads every text as what the grammar says it is (`Json.Denotes.read?_eq`), so that no text says two
things (`Json.Denotes.unique`).
-/

namespace MarkupTypes.Json

/-! ## Strings -/

/-- The letters that stand for characters after a backslash. -/
def letters : List (Char × Char) :=
  [('"', '"'), ('\\', '\\'), ('/', '/'), ('b', '\x08'), ('f', '\x0c'), ('n', '\n'), ('r', '\r'),
    ('t', '\t')]

/-- The value of a hexadecimal digit. -/
def hexValue? (c : Char) : Option Nat :=
  if '0' ≤ c ∧ c ≤ '9' then some (c.toNat - '0'.toNat)
  else if 'a' ≤ c ∧ c ≤ 'f' then some (c.toNat - 'a'.toNat + 10)
  else if 'A' ≤ c ∧ c ≤ 'F' then some (c.toNat - 'A'.toNat + 10)
  else none

/-- The number that four hexadecimal digits stand for. -/
def unit? (a b c d : Char) : Option Nat := do
  return (← hexValue? a) * 4096 + (← hexValue? b) * 256 + (← hexValue? c) * 16 + (← hexValue? d)

/-- The first of two numbers that stand for one character. -/
def isLeading (n : Nat) : Bool := 0xD800 ≤ n && n < 0xDC00

/-- The second of two numbers that stand for one character. -/
def isTrailing (n : Nat) : Bool := 0xDC00 ≤ n && n < 0xE000

/-- The character that two numbers stand for. -/
def joinUnits (leading trailing : Nat) : Char :=
  Char.ofNat (0x10000 + (leading - 0xD800) * 0x400 + (trailing - 0xDC00))

/-- What may follow a backslash in a string, with the character that it stands for. -/
inductive Escape : Char → List Char → Prop where
  | letter {e c : Char} (h : letters.lookup e = some c) : Escape c [e]
  | unit {a b c d : Char} {n : Nat} (h : unit? a b c d = some n) (hleading : isLeading n = false)
    (htrailing : isTrailing n = false) : Escape (Char.ofNat n) ['u', a, b, c, d]
  | units {a b c d a' b' c' d' : Char} {n n' : Nat} (h : unit? a b c d = some n)
    (hleading : isLeading n = true) (h' : unit? a' b' c' d' = some n')
    (htrailing : isTrailing n' = true) :
    Escape (joinUnits n n') ['u', a, b, c, d, '\\', 'u', a', b', c', d']

/-- A text as it stands between quotes. -/
inductive Quoted : List Char → List Char → Prop where
  | nil : Quoted [] []
  | plain {c : Char} {s cs : List Char} (hquote : c ≠ '"') (hbackslash : c ≠ '\\')
    (hcontrol : 0x20 ≤ c.toNat) (tail : Quoted s cs) : Quoted (c :: s) (c :: cs)
  | escape {c : Char} {s es cs : List Char} (h : Escape c es) (tail : Quoted s cs) :
    Quoted (c :: s) ('\\' :: es ++ cs)

/-- The character after a backslash, and what is left. -/
def readEscape : List Char → Option (Char × List Char)
  | 'u' :: a :: b :: c :: d :: cs => do
    let n ← unit? a b c d
    if isLeading n then
      match cs with
      | '\\' :: 'u' :: a :: b :: c :: d :: cs => do
        let n' ← unit? a b c d
        if isTrailing n' then some (joinUnits n n', cs) else none
      | _ => none
    else if isTrailing n then none else some (Char.ofNat n, cs)
  | e :: cs => (letters.lookup e).map (·, cs)
  | [] => none

/-- The text up to a closing quote, and what is left. -/
def readString : Nat → List Char → Option (List Char × List Char)
  | 0, _ => none
  | n + 1, cs =>
    match cs with
    | [] => none
    | c :: cs =>
      if c = '"' then some ([], cs)
      else if c = '\\' then do
        let (c, cs) ← readEscape cs
        let (s, cs) ← readString n cs
        return (c :: s, cs)
      else if c.toNat < 0x20 then none
      else do
        let (s, cs) ← readString n cs
        return (c :: s, cs)

variable {c : Char} {s es cs ds rest : List Char}

theorem Escape.readEscape_eq (h : Escape c es) (rest : List Char) :
    readEscape (es ++ rest) = some (c, rest) := by
  cases h with
  | @letter e _ hletter =>
    have hu : e ≠ 'u' := by
      rintro rfl
      cases hletter
    rw [List.singleton_append, readEscape, hletter]
    · rfl
    · intro a b c d cs h
      exact absurd h hu
  | unit hunit hleading htrailing =>
    simp [readEscape, hunit, hleading, htrailing]
  | units hunit hleading hunit' htrailing =>
    simp [readEscape, hunit, hleading, hunit', htrailing]

theorem Quoted.readString_eq (h : Quoted s cs) {n : Nat} (hn : cs.length < n)
    (rest : List Char) : readString n (cs ++ '"' :: rest) = some (s, rest) := by
  induction h generalizing n with
  | nil =>
    obtain ⟨n, rfl⟩ := Nat.exists_eq_succ_of_ne_zero (Nat.ne_of_gt hn)
    rfl
  | plain hquote hbackslash hcontrol _ ih =>
    obtain ⟨n, rfl⟩ := Nat.exists_eq_succ_of_ne_zero (Nat.ne_zero_of_lt hn)
    rw [List.cons_append, readString]
    simp only [hquote, hbackslash, Nat.not_lt.mpr hcontrol, if_false,
      ih (Nat.lt_of_succ_lt_succ hn)]
    rfl
  | @escape c s es cs hescape _ ih =>
    obtain ⟨n, rfl⟩ := Nat.exists_eq_succ_of_ne_zero (Nat.ne_zero_of_lt hn)
    have hcs : cs.length < n := by
      simp only [List.length_append, List.length_cons] at hn
      omega
    have hne : '\\' ≠ '"' := by decide
    rw [List.cons_append, List.cons_append, List.append_assoc, readString]
    simp only [if_neg hne, if_true, hescape.readEscape_eq, bind, Option.bind, ih hcs]
    rfl

/-! ## Numbers -/

/-- The characters of numbers. -/
def isNumeral (c : Char) : Bool :=
  c.isDigit || c = '-' || c = '+' || c = '.' || c = 'e' || c = 'E'

/-- One digit or more. -/
def areDigits (cs : List Char) : Bool := !cs.isEmpty && cs.all Char.isDigit

/-- Digits without a leading zero, or a zero alone. -/
def isInteger (cs : List Char) : Bool := areDigits cs && (cs.head? ≠ some '0' || cs = ['0'])

/-- What is left after one character of a kind, if there is one. -/
def dropOne (kind : Char → Bool) (cs : List Char) : List Char :=
  if cs.head?.any kind then cs.tail else cs

/-- Nothing, or an exponent. -/
def isExponent : List Char → Bool
  | [] => true
  | c :: cs => (c = 'e' || c = 'E') && areDigits (dropOne (fun c => c = '+' || c = '-') cs)

/-- Nothing, or a fraction, an exponent, or both. -/
def isFraction : List Char → Bool
  | [] => true
  | c :: cs =>
    if c = '.' then areDigits (cs.takeWhile Char.isDigit) && isExponent (cs.dropWhile Char.isDigit)
    else isExponent (c :: cs)

/-- A number without a sign. -/
def isUnsigned (cs : List Char) : Bool :=
  isInteger (cs.takeWhile Char.isDigit) && isFraction (cs.dropWhile Char.isDigit)

/-- A number that may have a minus before it. -/
def isNumber (cs : List Char) : Bool := isUnsigned (dropOne (· = '-') cs)

/-- The number that a text is. -/
def number? (cs : List Char) : Option Json :=
  if isInteger cs then some (number (Nat.ofDigitChars 10 cs 0))
  else if isNumber cs then some otherNumber
  else none

/-- The number at the beginning, as far as it may go, and what is left. -/
def readNumber (cs : List Char) : Option (Json × List Char) :=
  (number? (cs.takeWhile isNumeral)).map (·, cs.dropWhile isNumeral)

/-- A text does not begin like a number. -/
def EndsNumber (cs : List Char) : Prop := ∀ c ∈ cs.head?, isNumeral c = false

/-- All characters of a text are of numbers. -/
def AreNumerals (cs : List Char) : Prop := ∀ c ∈ cs, isNumeral c = true

theorem areNumerals_of_areDigits (h : areDigits cs = true) : AreNumerals cs := by
  intro c hc
  have hdigit : c.isDigit = true := List.all_eq_true.mp (Bool.and_eq_true_iff.mp h).2 c hc
  simp [isNumeral, hdigit]

theorem areNumerals_of_dropOne {kind : Char → Bool}
    (hkind : ∀ c, kind c = true → isNumeral c = true) (h : AreNumerals (dropOne kind cs)) :
    AreNumerals cs := by
  cases cs with
  | nil => exact h
  | cons c cs =>
    by_cases hc : kind c = true
    · rw [dropOne, List.head?_cons, Option.any_some, if_pos hc] at h
      exact List.forall_mem_cons.mpr ⟨hkind c hc, h⟩
    · rw [dropOne, List.head?_cons, Option.any_some, if_neg hc] at h
      exact h

theorem areNumerals_of_isExponent (h : isExponent cs = true) : AreNumerals cs := by
  cases cs with
  | nil => exact nofun
  | cons c cs =>
    obtain ⟨hc, hdigits⟩ := Bool.and_eq_true_iff.mp h
    refine List.forall_mem_cons.mpr ⟨?_, areNumerals_of_dropOne (fun c hsign => ?_)
      (areNumerals_of_areDigits hdigits)⟩
    · rcases Bool.or_eq_true_iff.mp hc with hc | hc <;> simp [isNumeral, of_decide_eq_true hc]
    · rcases Bool.or_eq_true_iff.mp hsign with hc | hc <;> simp [isNumeral, of_decide_eq_true hc]

/-- The digits at the beginning of a text, and the rest of it. -/
theorem areNumerals_of_parts (hdigits : areDigits (cs.takeWhile Char.isDigit) = true)
    (hrest : AreNumerals (cs.dropWhile Char.isDigit)) : AreNumerals cs := by
  rw [← cs.takeWhile_append_dropWhile (p := Char.isDigit)]
  exact List.forall_mem_append.mpr ⟨areNumerals_of_areDigits hdigits, hrest⟩

theorem areNumerals_of_isFraction (h : isFraction cs = true) : AreNumerals cs := by
  cases cs with
  | nil => exact nofun
  | cons c cs =>
    rw [isFraction] at h
    split at h
    · next hc =>
      obtain ⟨hdigits, hexponent⟩ := Bool.and_eq_true_iff.mp h
      refine List.forall_mem_cons.mpr ⟨by rw [hc]; rfl, ?_⟩
      exact areNumerals_of_parts hdigits (areNumerals_of_isExponent hexponent)
    · exact areNumerals_of_isExponent h

theorem areNumerals_of_isNumber (h : isNumber cs = true) : AreNumerals cs := by
  obtain ⟨hinteger, hfraction⟩ := Bool.and_eq_true_iff.mp h
  have hsign : ∀ c, decide (c = '-') = true → isNumeral c = true := fun c hc => by
    rw [of_decide_eq_true hc]
    rfl
  refine areNumerals_of_dropOne hsign ?_
  exact areNumerals_of_parts (Bool.and_eq_true_iff.mp hinteger).1
    (areNumerals_of_isFraction hfraction)

theorem areNumerals_of_number? {v : Json} (h : number? cs = some v) : AreNumerals cs := by
  unfold number? at h
  split at h
  · next hinteger => exact areNumerals_of_areDigits (Bool.and_eq_true_iff.mp hinteger).1
  · split at h
    · next hnumber => exact areNumerals_of_isNumber hnumber
    · cases h

/-- A number is read up to where it ends. -/
theorem readNumber_eq {v : Json} (h : number? cs = some v) (hrest : EndsNumber rest) :
    readNumber (cs ++ rest) = some (v, rest) := by
  have htake : (cs ++ rest).takeWhile isNumeral = cs := by
    rw [List.takeWhile_append_of_pos (areNumerals_of_number? h)]
    cases rest with
    | nil => rw [List.takeWhile_nil, List.append_nil]
    | cons c rest => rw [List.takeWhile_cons_of_neg (by simp [hrest c rfl]), List.append_nil]
  have hdrop : (cs ++ rest).dropWhile isNumeral = rest := by
    rw [List.dropWhile_append_of_pos (areNumerals_of_number? h)]
    cases rest with
    | nil => rfl
    | cons c rest => rw [List.dropWhile_cons_of_neg (by simp [hrest c rfl])]
  rw [readNumber, htake, hdrop, h]
  rfl

/-! ## Grammar -/

/-- A character that may stand between the parts of a text. -/
def isBlank (c : Char) : Bool := c = ' ' || c = '\n' || c = '\r' || c = '\t'

/-- All characters of a text are blank. -/
def AreBlank (cs : List Char) : Prop := ∀ c ∈ cs, isBlank c = true

/-- What a part of a text says. -/
inductive Part where
  | value (v : Json)
  /-- A value with blanks around it. -/
  | item (v : Json)
  /-- One item or more. -/
  | items (vs : List Json)
  /-- An item under a name. -/
  | field (name : String) (v : Json)
  /-- One field or more. -/
  | fields (fs : List (String × Json))

/-- The parts of texts. -/
inductive Written : Part → List Char → Prop where
  | nullWord : Written (.value .null) ['n', 'u', 'l', 'l']
  | trueWord : Written (.value (.bool true)) ['t', 'r', 'u', 'e']
  | falseWord : Written (.value (.bool false)) ['f', 'a', 'l', 's', 'e']
  | number {v : Json} {cs : List Char} (h : number? cs = some v) : Written (.value v) cs
  | string {s cs : List Char} (h : Quoted s cs) :
    Written (.value (.string (String.ofList s))) ('"' :: cs ++ ['"'])
  | noItems {cs : List Char} (h : AreBlank cs) : Written (.value (.array [])) ('[' :: cs ++ [']'])
  | array {vs : List Json} {cs : List Char} (h : Written (.items vs) cs) :
    Written (.value (.array vs)) ('[' :: cs ++ [']'])
  | noFields {cs : List Char} (h : AreBlank cs) :
    Written (.value (.object [])) ('\x7b' :: cs ++ ['\x7d'])
  | object {fs : List (String × Json)} {cs : List Char} (h : Written (.fields fs) cs)
    (hnames : (fs.map Prod.fst).Nodup) : Written (.value (.object fs)) ('\x7b' :: cs ++ ['\x7d'])
  | item {v : Json} {before cs after : List Char} (hbefore : AreBlank before)
    (h : Written (.value v) cs) (hafter : AreBlank after) :
    Written (.item v) (before ++ cs ++ after)
  | lastItem {v : Json} {cs : List Char} (h : Written (.item v) cs) : Written (.items [v]) cs
  | nextItem {v : Json} {vs : List Json} {cs ds : List Char} (h : Written (.item v) cs)
    (tail : Written (.items vs) ds) : Written (.items (v :: vs)) (cs ++ ',' :: ds)
  | field {s ns before after cs : List Char} {v : Json} (hbefore : AreBlank before)
    (hname : Quoted s ns) (hafter : AreBlank after) (h : Written (.item v) cs) :
    Written (.field (String.ofList s) v) (before ++ '"' :: ns ++ '"' :: after ++ ':' :: cs)
  | lastField {name : String} {v : Json} {cs : List Char} (h : Written (.field name v) cs) :
    Written (.fields [(name, v)]) cs
  | nextField {name : String} {v : Json} {fs : List (String × Json)} {cs ds : List Char}
    (h : Written (.field name v) cs) (tail : Written (.fields fs) ds) :
    Written (.fields ((name, v) :: fs)) (cs ++ ',' :: ds)

/-- A text says a value. -/
def Denotes (text : String) (v : Json) : Prop := Written (.item v) text.toList

/-! ## Reading -/

/-- What is left after blanks. -/
def skip (cs : List Char) : List Char := cs.dropWhile isBlank

/-- A value without parts, and what is left. -/
def readPlain : List Char → Option (Json × List Char)
  | 'n' :: 'u' :: 'l' :: 'l' :: cs => some (null, cs)
  | 't' :: 'r' :: 'u' :: 'e' :: cs => some (bool true, cs)
  | 'f' :: 'a' :: 'l' :: 's' :: 'e' :: cs => some (bool false, cs)
  | cs => readNumber cs

/-- A value with blanks around it, and what is left. -/
def readItem (readValue : List Char → Option (Json × List Char)) (cs : List Char) :
    Option (Json × List Char) :=
  (readValue (skip cs)).map fun (v, cs) => (v, skip cs)

/-- An item under a name, and what is left. -/
def readField (readValue : List Char → Option (Json × List Char)) (cs : List Char) :
    Option ((String × Json) × List Char) :=
  match skip cs with
  | '"' :: cs => do
    let (name, cs) ← readString (cs.length + 1) cs
    match skip cs with
    | ':' :: cs => (readItem readValue cs).map fun (v, cs) => ((String.ofList name, v), cs)
    | _ => none
  | _ => none

/-- One part or more up to a closing character, and what is left. -/
def readSeries {α : Type} (read : List Char → Option (α × List Char)) (close : Char) :
    Nat → List Char → Option (List α × List Char)
  | 0, _ => none
  | n + 1, cs =>
    match read cs with
    | some (x, c :: cs) =>
      if c = ',' then (readSeries read close n cs).map fun (xs, cs) => (x :: xs, cs)
      else if c = close then some ([x], cs)
      else none
    | _ => none

/-- Parts up to a closing character, of which there may be none, and what is left. -/
def readParts {α : Type} (read : List Char → Option (α × List Char)) (close : Char)
    (cs : List Char) : Option (List α × List Char) :=
  if (skip cs).head? = some close then some ([], (skip cs).tail)
  else readSeries read close (cs.length + 1) cs

/-- A value, and what is left. -/
def readValue : Nat → List Char → Option (Json × List Char)
  | 0, _ => none
  | _ + 1, '"' :: cs =>
    (readString (cs.length + 1) cs).map fun (s, cs) => (string (String.ofList s), cs)
  | n + 1, '[' :: cs =>
    (readParts (readItem (readValue n)) ']' cs).map fun (vs, cs) => (array vs, cs)
  | n + 1, '\x7b' :: cs => do
    let (fs, cs) ← readParts (readField (readValue n)) '\x7d' cs
    if (fs.map Prod.fst).Nodup then some (object fs, cs) else none
  | _ + 1, cs => readPlain cs

/-- The value that a text says. -/
def read? (text : String) : Option Json :=
  match readItem (readValue (text.toList.length + 1)) text.toList with
  | some (v, []) => some v
  | _ => none

/-! ### Blanks -/

theorem areBlank_nil : AreBlank [] := nofun

theorem areBlank_space : AreBlank [' '] := by simp [AreBlank, isBlank]

theorem skip_append (h : AreBlank cs) (rest : List Char) : skip (cs ++ rest) = skip rest :=
  List.dropWhile_append_of_pos h

theorem skip_cons (h : isBlank c = false) (cs : List Char) : skip (c :: cs) = c :: cs :=
  List.dropWhile_cons_of_neg (by simp [h])

theorem isNumeral_of_isBlank (h : isBlank c = true) : isNumeral c = false := by
  simp only [isBlank, Bool.or_eq_true, decide_eq_true_eq] at h
  obtain ((rfl | rfl) | rfl) | rfl := h <;> decide

/-- A text begins neither like a number nor with a blank. -/
def EndsItem (cs : List Char) : Prop := ∀ c ∈ cs.head?, isNumeral c = false ∧ isBlank c = false

theorem EndsItem.skip_eq (h : EndsItem rest) : skip rest = rest := by
  cases rest with
  | nil => rfl
  | cons c rest => exact skip_cons (h c rfl).2 rest

/-- A number ends at blanks. -/
theorem EndsItem.endsNumber (h : EndsItem rest) (hblank : AreBlank cs) :
    EndsNumber (cs ++ rest) := by
  cases cs with
  | nil => exact fun c hc => (h c hc).1
  | cons b cs =>
    rintro _ ⟨⟩
    exact isNumeral_of_isBlank (hblank b List.mem_cons_self)

/-- After blanks, a text goes on with a character that does not close a series. -/
def Begins (close : Char) (cs : List Char) : Prop :=
  ∃ before c after, cs = before ++ c :: after ∧ AreBlank before ∧ isBlank c = false ∧ c ≠ close

theorem Begins.append {close : Char} (h : Begins close cs) (rest : List Char) :
    Begins close (cs ++ rest) := by
  obtain ⟨before, c, after, rfl, hbefore, hc⟩ := h
  exact ⟨before, c, after ++ rest, by simp, hbefore, hc⟩

theorem Begins.readParts_eq {close : Char} (h : Begins close cs) {α : Type}
    (read : List Char → Option (α × List Char)) :
    readParts read close cs = readSeries read close (cs.length + 1) cs := by
  obtain ⟨before, c, after, rfl, hbefore, hc, hne⟩ := h
  rw [readParts, skip_append hbefore, skip_cons hc]
  exact if_neg fun h => hne (Option.some.inj h)

theorem AreBlank.readParts_eq {close : Char} (h : AreBlank cs) (hclose : isBlank close = false)
    {α : Type} (read : List Char → Option (α × List Char)) (rest : List Char) :
    readParts read close (cs ++ close :: rest) = some ([], rest) := by
  rw [readParts, skip_append h, skip_cons hclose]
  exact if_pos rfl

/-! ### Beginnings -/

variable {v : Json} {vs : List Json} {name : String} {fs : List (String × Json)}

theorem not_isBlank_of_isNumeral (h : isNumeral c = true) : isBlank c = false := by
  cases hblank : isBlank c with
  | false => rfl
  | true => exact absurd h (by simp [isNumeral_of_isBlank hblank])

theorem exists_cons_of_number? (h : number? cs = some v) :
    ∃ c after, cs = c :: after ∧ isNumeral c = true := by
  cases cs with
  | nil => cases h
  | cons c after => exact ⟨c, after, rfl, areNumerals_of_number? h c List.mem_cons_self⟩

theorem Written.exists_cons (h : Written (.value v) cs) :
    ∃ c after, cs = c :: after ∧ isBlank c = false ∧ c ≠ ']' := by
  cases h with
  | nullWord | trueWord | falseWord => exact ⟨_, _, rfl, rfl, by decide⟩
  | number h =>
    obtain ⟨c, after, rfl, hc⟩ := exists_cons_of_number? h
    refine ⟨c, after, rfl, not_isBlank_of_isNumeral hc, ?_⟩
    rintro rfl
    cases hc
  | string | noItems | array | noFields | object => exact ⟨_, _, rfl, rfl, by decide⟩

theorem Written.begins_item (h : Written (.item v) cs) : Begins ']' cs := by
  cases h with
  | item hbefore h hafter =>
    obtain ⟨c, after, rfl, hc, hne⟩ := h.exists_cons
    exact ⟨_, c, _, by rw [List.append_assoc, List.cons_append], hbefore, hc, hne⟩

theorem Written.begins_items (h : Written (.items vs) cs) : Begins ']' cs := by
  cases h with
  | lastItem h => exact h.begins_item
  | nextItem h tail => exact h.begins_item.append _

theorem Written.begins_field (h : Written (.field name v) cs) : Begins '\x7d' cs := by
  cases h with
  | field hbefore hname hafter h =>
    simp only [List.append_assoc, List.cons_append]
    exact ⟨_, '"', _, rfl, hbefore, rfl, by decide⟩

theorem Written.begins_fields (h : Written (.fields fs) cs) : Begins '\x7d' cs := by
  cases h with
  | lastField h => exact h.begins_field
  | nextField h tail => exact h.begins_field.append _

/-! ### Series -/

section Series

variable {α : Type} {read : Nat → List Char → Option (α × List Char)} {close : Char} {x : α}
  {xs : List α}

/-- A text is read as what it says, and not further. -/
def ReadsOne (read : Nat → List Char → Option (α × List Char)) (x : α) (cs : List Char) : Prop :=
  ∀ n rest, cs.length ≤ n → EndsItem rest → read n (cs ++ rest) = some (x, rest)

/-- A text up to a closing character is read as the parts that it says. -/
def ReadsSeries (read : Nat → List Char → Option (α × List Char)) (close : Char) (xs : List α)
    (cs : List Char) : Prop :=
  ∀ n k rest, cs.length ≤ n → cs.length < k →
    readSeries (read n) close k (cs ++ close :: rest) = some (xs, rest)

theorem endsItem_cons (h : isNumeral c = false ∧ isBlank c = false) (cs : List Char) :
    EndsItem (c :: cs) := by
  rintro _ ⟨⟩
  exact h

theorem ReadsOne.last (h : ReadsOne read x cs) (hclose : close ≠ ',')
    (hends : isNumeral close = false ∧ isBlank close = false) : ReadsSeries read close [x] cs := by
  intro n k rest hn hk
  obtain ⟨k, rfl⟩ := Nat.exists_eq_succ_of_ne_zero (Nat.ne_zero_of_lt hk)
  simp only [readSeries, h n _ hn (endsItem_cons hends rest), if_neg hclose, if_true]

theorem ReadsOne.next (h : ReadsOne read x cs) (tail : ReadsSeries read close xs ds) :
    ReadsSeries read close (x :: xs) (cs ++ ',' :: ds) := by
  intro n k rest hn hk
  obtain ⟨k, rfl⟩ := Nat.exists_eq_succ_of_ne_zero (Nat.ne_zero_of_lt hk)
  simp only [List.length_append, List.length_cons] at hn hk
  have hone := h n (',' :: (ds ++ close :: rest)) (by omega) (endsItem_cons (by decide) _)
  have htail := tail n k rest (by omega) (by omega)
  simp only [List.append_assoc, List.cons_append, readSeries, hone, if_true, htail,
    Option.map_some]

theorem ReadsSeries.readParts_eq (h : ReadsSeries read close xs cs) (hbegins : Begins close cs)
    {n : Nat} (hn : cs.length ≤ n) (rest : List Char) :
    readParts (read n) close (cs ++ close :: rest) = some (xs, rest) := by
  rw [(hbegins.append _).readParts_eq]
  exact h n _ rest hn (by rw [List.length_append]; omega)

end Series

/-! ### Reading what is written -/

/-- A value that begins like a number is read as one. -/
theorem readValue_eq_readNumber (h : isNumeral c = true) (n : Nat) (cs : List Char) :
    readValue (n + 1) (c :: cs) = readNumber (c :: cs) := by
  have hne : ∀ d, isNumeral d = false → c ≠ d := fun d hd => by
    rintro rfl
    exact absurd h (by simp [hd])
  rw [readValue, readPlain]
  all_goals
    intro _ h
    exact hne _ rfl (List.cons.inj h).1

/-- What the reader makes of a part of a text, whatever comes after it. -/
def Part.Reads : Part → List Char → Prop
  | .value v, cs => ∀ n rest, cs.length ≤ n → EndsNumber rest →
    readValue n (cs ++ rest) = some (v, rest)
  | .item v, cs => ReadsOne (fun n => readItem (readValue n)) v cs
  | .items vs, cs => ReadsSeries (fun n => readItem (readValue n)) ']' vs cs
  | .field name v, cs => ReadsOne (fun n => readField (readValue n)) (name, v) cs
  | .fields fs, cs => ReadsSeries (fun n => readField (readValue n)) '\x7d' fs cs

namespace Part.Reads

theorem number (h : number? cs = some v) : (Part.value v).Reads cs := by
  intro n rest hn hrest
  obtain ⟨c, after, rfl, hc⟩ := exists_cons_of_number? h
  obtain ⟨n, rfl⟩ := Nat.exists_eq_succ_of_ne_zero (Nat.ne_zero_of_lt hn)
  exact (readValue_eq_readNumber hc n _).trans (readNumber_eq h hrest)

/-- Reading what stands between two characters takes a step less. -/
theorem length_le_of_enclosed {close : Char} {n : Nat} (hn : (c :: cs ++ [close]).length ≤ n + 1) :
    cs.length ≤ n := by
  simp only [List.length_append, List.length_cons] at hn
  omega

theorem string (h : Quoted s cs) :
    (Part.value (.string (String.ofList s))).Reads ('"' :: cs ++ ['"']) := by
  intro n rest hn _
  obtain ⟨n, rfl⟩ := Nat.exists_eq_succ_of_ne_zero (Nat.ne_zero_of_lt hn)
  have hread := h.readString_eq (n := (cs ++ '"' :: rest).length + 1)
    (by rw [List.length_append]; omega) rest
  rw [List.append_assoc, List.cons_append, List.singleton_append, readValue, hread]
  rfl

theorem noItems (h : AreBlank cs) : (Part.value (.array [])).Reads ('[' :: cs ++ [']']) := by
  intro n rest hn _
  obtain ⟨n, rfl⟩ := Nat.exists_eq_succ_of_ne_zero (Nat.ne_zero_of_lt hn)
  rw [List.append_assoc, List.cons_append, List.singleton_append, readValue, h.readParts_eq rfl]
  rfl

theorem array (h : (Part.items vs).Reads cs) (hbegins : Begins ']' cs) :
    (Part.value (.array vs)).Reads ('[' :: cs ++ [']']) := by
  intro n rest hn _
  obtain ⟨n, rfl⟩ := Nat.exists_eq_succ_of_ne_zero (Nat.ne_zero_of_lt hn)
  rw [List.append_assoc, List.cons_append, List.singleton_append, readValue,
    ReadsSeries.readParts_eq h hbegins (length_le_of_enclosed hn)]
  rfl

theorem noFields (h : AreBlank cs) :
    (Part.value (.object [])).Reads ('\x7b' :: cs ++ ['\x7d']) := by
  intro n rest hn _
  obtain ⟨n, rfl⟩ := Nat.exists_eq_succ_of_ne_zero (Nat.ne_zero_of_lt hn)
  rw [List.append_assoc, List.cons_append, List.singleton_append, readValue, h.readParts_eq rfl]
  rfl

theorem object (h : (Part.fields fs).Reads cs) (hbegins : Begins '\x7d' cs)
    (hnames : (fs.map Prod.fst).Nodup) :
    (Part.value (.object fs)).Reads ('\x7b' :: cs ++ ['\x7d']) := by
  intro n rest hn _
  obtain ⟨n, rfl⟩ := Nat.exists_eq_succ_of_ne_zero (Nat.ne_zero_of_lt hn)
  rw [List.append_assoc, List.cons_append, List.singleton_append, readValue,
    ReadsSeries.readParts_eq h hbegins (length_le_of_enclosed hn)]
  exact if_pos hnames

theorem item {before after : List Char} (hbefore : AreBlank before) (h : (Part.value v).Reads cs)
    (hbegins : ∃ c after, cs = c :: after ∧ isBlank c = false ∧ c ≠ ']') (hafter : AreBlank after) :
    (Part.item v).Reads (before ++ cs ++ after) := by
  intro n rest hn hrest
  have hvalue := h n (after ++ rest) (by simp only [List.length_append] at hn; omega)
    (hrest.endsNumber hafter)
  obtain ⟨c, ds, rfl, hc, -⟩ := hbegins
  have hskip : skip (before ++ (c :: ds) ++ after ++ rest) = c :: ds ++ (after ++ rest) := by
    simp only [List.append_assoc]
    exact (skip_append hbefore _).trans (skip_cons hc _)
  simp only [readItem, hskip, hvalue, Option.map_some, skip_append hafter, hrest.skip_eq]

theorem field {ns before after : List Char} (hbefore : AreBlank before) (hname : Quoted s ns)
    (hafter : AreBlank after) (h : (Part.item v).Reads cs) :
    (Part.field (String.ofList s) v).Reads
      (before ++ '"' :: ns ++ '"' :: after ++ ':' :: cs) := by
  intro n rest hn hrest
  have hitem := h n rest
    (by simp only [List.length_append, List.length_cons] at hn; omega) hrest
  have hread := hname.readString_eq (n := (ns ++ '"' :: (after ++ ':' :: (cs ++ rest))).length + 1)
    (by rw [List.length_append]; omega) (after ++ ':' :: (cs ++ rest))
  simp only [readField, List.append_assoc, List.cons_append, skip_append hbefore,
    skip_cons (show isBlank '"' = false from rfl), hread, bind, Option.bind, skip_append hafter,
    skip_cons (show isBlank ':' = false from rfl), hitem, Option.map_some]

end Part.Reads

/-- The reader reads what is written. -/
theorem Written.reads {p : Part} (h : Written p cs) : p.Reads cs := by
  induction h with
  | nullWord | trueWord | falseWord =>
    intro n rest hn _
    obtain ⟨n, rfl⟩ := Nat.exists_eq_succ_of_ne_zero (Nat.ne_zero_of_lt hn)
    rfl
  | number h => exact .number h
  | string h => exact .string h
  | noItems h => exact .noItems h
  | array h ih => exact .array ih h.begins_items
  | noFields h => exact .noFields h
  | object h hnames ih => exact .object ih h.begins_fields hnames
  | item hbefore h hafter ih => exact .item hbefore ih h.exists_cons hafter
  | lastItem _ ih => exact ReadsOne.last ih (by decide) (by decide)
  | nextItem _ _ ih tail => exact ReadsOne.next ih tail
  | field hbefore hname hafter _ ih => exact .field hbefore hname hafter ih
  | lastField _ ih => exact ReadsOne.last ih (by decide) (by decide)
  | nextField _ _ ih tail => exact ReadsOne.next ih tail

theorem Denotes.read?_eq {text : String} (h : Denotes text v) : read? text = some v := by
  have hread : readItem (readValue (text.toList.length + 1)) (text.toList ++ []) = some (v, []) :=
    h.reads _ [] (Nat.le_succ _) nofun
  rw [List.append_nil] at hread
  rw [read?, hread]

/-- A text says no more than one value. -/
theorem Denotes.unique {text : String} {v' : Json} (h : Denotes text v) (h' : Denotes text v') :
    v = v' :=
  Option.some.inj (h.read?_eq.symm.trans h'.read?_eq)

/-- Nothing may follow the last comma. -/
example : ¬ Denotes "[1, ]" v := fun h => nomatch h.read?_eq

end MarkupTypes.Json
