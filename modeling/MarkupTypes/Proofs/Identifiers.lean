import Mathlib
import MarkupTypes.Model.Naming

/-!
# Names of types are identifiers

A name of a type is made of the words of a text, which are its longest pieces of letters and numbers
(`Worded`). A text has one sequence of words (`existsUnique_worded`), and what separates them does
not matter (`Worded.joinWords_eq`). So nothing changes when a name is made of a name : its only word
is what is left after the underscore, and starts in upper case already.

For texts in ASCII the names are identifiers in camel case that stay as they are
(`identified_typeName`).
-/

namespace MarkupTypes

open Text (isAlphanumeric uppercase)

/-! ## Words -/

/-- A text has words, in order : the longest pieces of letters and numbers. -/
inductive Worded : List Char → List (List Char) → Prop
  | nil : Worded [] []
  | separator {c : Char} {cs : List Char} {ws : List (List Char)}
    (hc : isAlphanumeric c = false) (h : Worded cs ws) : Worded (c :: cs) ws
  /-- A word goes on to the end of the text or to a separator. -/
  | word {w cs : List Char} {ws : List (List Char)} (hw : w ≠ [])
    (hall : ∀ c ∈ w, isAlphanumeric c = true) (hend : ∀ c ∈ cs.head?, isAlphanumeric c = false)
    (h : Worded cs ws) : Worded (w ++ cs) (w :: ws)

/-- A word with its first character in upper case. -/
def capitalized : List Char → List Char
  | [] => []
  | c :: cs => uppercase c ++ cs

variable {w w' cs cs' : List Char} {ws ws' : List (List Char)}

theorem takeWhile_word (hall : ∀ c ∈ w, isAlphanumeric c = true)
    (hend : ∀ c ∈ cs.head?, isAlphanumeric c = false) :
    (w ++ cs).takeWhile isAlphanumeric = w := by
  rw [List.takeWhile_append_of_pos hall]
  cases cs with
  | nil => simp
  | cons c cs => simp [hend c rfl]

/-- Words that texts start with are the same if the texts are. -/
theorem word_eq_of_append_eq (hall : ∀ c ∈ w, isAlphanumeric c = true)
    (hend : ∀ c ∈ cs.head?, isAlphanumeric c = false) (hall' : ∀ c ∈ w', isAlphanumeric c = true)
    (hend' : ∀ c ∈ cs'.head?, isAlphanumeric c = false) (heq : w ++ cs = w' ++ cs') :
    w = w' ∧ cs = cs' := by
  have hw : w = w' := by rw [← takeWhile_word hall hend, heq, takeWhile_word hall' hend']
  subst hw
  exact ⟨rfl, List.append_cancel_left heq⟩

/-- What starts with a word does not start with a separator. -/
theorem word_append_ne_cons (hw : w ≠ []) (hall : ∀ c ∈ w, isAlphanumeric c = true) {c : Char}
    (hc : isAlphanumeric c = false) : w ++ cs ≠ c :: cs' := by
  obtain ⟨d, w, rfl⟩ := List.exists_cons_of_ne_nil hw
  intro heq
  rw [← (List.cons.inj heq).1, hall d List.mem_cons_self] at hc
  cases hc

namespace Worded

theorem unique (h : Worded cs ws) (h' : Worded cs ws') : ws = ws' := by
  induction h generalizing ws' with
  | nil =>
    generalize htext : ([] : List Char) = text at h'
    cases h' with
    | nil => rfl
    | separator => cases htext
    | word hw => exact absurd (List.append_eq_nil_iff.mp htext.symm).1 hw
  | @separator c cs ws hc h ih =>
    generalize htext : c :: cs = text at h'
    cases h' with
    | nil => cases htext
    | separator _ h' =>
      cases htext
      exact ih h'
    | word hw hall => exact absurd htext.symm (word_append_ne_cons hw hall hc)
  | @word w cs ws hw hall hend h ih =>
    generalize htext : w ++ cs = text at h'
    cases h' with
    | nil => exact absurd (List.append_eq_nil_iff.mp htext).1 hw
    | separator hc => exact absurd htext (word_append_ne_cons hw hall hc)
    | word _ hall' hend' h' =>
      obtain ⟨rfl, rfl⟩ := word_eq_of_append_eq hall hend hall' hend' htext
      rw [ih h']

/-- A letter or number is a word of its own, or goes on with the word that the rest starts with. -/
theorem exists_cons (h : Worded cs ws) {c : Char} (hc : isAlphanumeric c = true) :
    ∃ ws', Worded (c :: cs) ws' := by
  have hsingle : ∀ d ∈ [c], isAlphanumeric d = true := by simpa using hc
  cases h with
  | nil => exact ⟨[[c]], .word (List.cons_ne_nil _ _) hsingle (by simp) .nil⟩
  | separator hd h =>
    exact ⟨_, .word (List.cons_ne_nil _ _) hsingle (by simpa using hd) (.separator hd h)⟩
  | @word w cs ws hw hall hend h =>
    have hlonger : ∀ d ∈ c :: w, isAlphanumeric d = true := List.forall_mem_cons.mpr ⟨hc, hall⟩
    exact ⟨(c :: w) :: ws, .word (List.cons_ne_nil c w) hlonger hend h⟩

end Worded

theorem exists_worded : ∀ cs : List Char, ∃ ws, Worded cs ws
  | [] => ⟨[], .nil⟩
  | c :: cs => by
    obtain ⟨ws, h⟩ := exists_worded cs
    cases hc : isAlphanumeric c with
    | true => exact h.exists_cons hc
    | false => exact ⟨ws, .separator hc h⟩

theorem existsUnique_worded (cs : List Char) : ∃! ws, Worded cs ws := by
  obtain ⟨ws, h⟩ := exists_worded cs
  exact ⟨ws, h, fun _ h' => h'.unique h⟩

/-! ## Words in one -/

theorem joinWords_append (hall : ∀ c ∈ w, isAlphanumeric c = true) (cs : List Char) :
    joinWords false (w ++ cs) = w ++ joinWords false cs := by
  induction w with
  | nil => rfl
  | cons c w ih =>
    obtain ⟨hc, hall⟩ := List.forall_mem_cons.mp hall
    rw [List.cons_append, joinWords, if_pos hc, ih hall]
    rfl

/-- After a separator, or at the end, a word may start. -/
theorem joinWords_false (hend : ∀ c ∈ cs.head?, isAlphanumeric c = false) :
    joinWords false cs = joinWords true cs := by
  cases cs with
  | nil => rfl
  | cons c cs => rw [joinWords, joinWords, hend c rfl]; rfl

/-- What becomes of a text depends on its words alone. -/
theorem Worded.joinWords_eq (h : Worded cs ws) : joinWords true cs = ws.flatMap capitalized := by
  induction h with
  | nil => rfl
  | separator hc h ih =>
    rw [joinWords, hc]
    exact ih
  | @word w cs ws hw hall hend h ih =>
    obtain ⟨c, w, rfl⟩ := List.exists_cons_of_ne_nil hw
    obtain ⟨hc, hall⟩ := List.forall_mem_cons.mp hall
    rw [List.cons_append, joinWords, if_pos hc, if_pos rfl, joinWords_append hall,
      joinWords_false hend, ih, List.flatMap_cons, capitalized, List.append_assoc]

/-- Texts with the same words give the same name. -/
theorem Worded.typeName_eq {base other : String} (h : Worded base.toList ws)
    (h' : Worded other.toList ws) : typeName other = typeName base := by
  rw [typeName, typeName, typeNameChars, typeNameChars, h.joinWords_eq, h'.joinWords_eq]

/-! ## Texts in ASCII -/

theorem isAlphanumeric_of_ascii {c : Char} (hc : c.toNat < 0x80) :
    isAlphanumeric c = c.isAlphanum := if_pos hc

theorem uppercase_of_ascii {c : Char} (hc : c.toNat < 0x80) : uppercase c = [c.toUpper] := if_pos hc

theorem toNat_lt_of_isAlphanum {c : Char} (hc : c.isAlphanum = true) : c.toNat < 0x80 := by
  simp only [Char.isAlphanum, Char.isAlpha, Char.isUpper, Char.isLower, Char.isDigit] at hc
  grind [Char.toNat_val, UInt32.le_iff_toNat_le]

theorem isDigit_toUpper (c : Char) : c.toUpper.isDigit = c.isDigit := by
  simp only [Char.isDigit, Char.toUpper]
  split <;> grind [UInt32.toNat_add, Char.toNat_val]

theorem isAlphanum_toUpper (c : Char) : c.toUpper.isAlphanum = c.isAlphanum := by
  rw [Char.isAlphanum, Char.isAlphanum, Char.isAlpha_toUpper_eq_isAlpha, isDigit_toUpper]

/-- The first letter or digit of a text is a digit. -/
def startsInDigit (cs : List Char) : Bool := (cs.find? Char.isAlphanum).any Char.isDigit

/-- A piece of letters and digits that does not start in lower case. -/
structure CamelCased (cs : List Char) : Prop where
  nonempty : cs ≠ []
  spelled : ∀ c ∈ cs, c.isAlphanum = true
  start : ∀ c ∈ cs.head?, c.isLower = false

section

variable (hascii : ∀ c ∈ cs, c.toNat < 0x80)

include hascii

theorem isAlphanum_of_mem_joinWords (fresh : Bool) :
    ∀ c ∈ joinWords fresh cs, c.isAlphanum = true := by
  induction cs generalizing fresh with
  | nil => simp [joinWords]
  | cons c cs ih =>
    obtain ⟨hc, hascii⟩ := List.forall_mem_cons.mp hascii
    rw [joinWords, isAlphanumeric_of_ascii hc, uppercase_of_ascii hc]
    cases halnum : c.isAlphanum with
    | false => exact ih hascii true
    | true =>
      refine List.forall_mem_append.mpr ⟨?_, ih hascii false⟩
      cases fresh with
      | false => simpa using halnum
      | true => simpa [isAlphanum_toUpper] using halnum

/-- Words in one start with the first letter or digit of the text. -/
theorem head?_joinWords :
    (joinWords true cs).head? = (cs.find? Char.isAlphanum).map Char.toUpper := by
  induction cs with
  | nil => rfl
  | cons c cs ih =>
    obtain ⟨hc, hascii⟩ := List.forall_mem_cons.mp hascii
    rw [joinWords, isAlphanumeric_of_ascii hc, uppercase_of_ascii hc, List.find?_cons]
    cases c.isAlphanum with
    | false => exact ih hascii
    | true => rfl

theorem camelCased_joinWords (hne : joinWords true cs ≠ []) : CamelCased (joinWords true cs) where
  nonempty := hne
  spelled := isAlphanum_of_mem_joinWords hascii true
  start c hc := by
    rw [head?_joinWords hascii] at hc
    obtain ⟨d, -, rfl⟩ := Option.map_eq_some_iff.mp hc
    exact Char.isLower_toUpper_eq_false d

theorem isDigit_of_head?_joinWords :
    ∀ c ∈ (joinWords true cs).head?, c.isDigit = startsInDigit cs := by
  intro c hc
  rw [head?_joinWords hascii] at hc
  obtain ⟨d, hd, rfl⟩ := Option.map_eq_some_iff.mp hc
  rw [startsInDigit, hd, isDigit_toUpper]
  rfl

theorem startsInDigit_of_joinWords_eq_nil (hnone : joinWords true cs = []) :
    startsInDigit cs = false := by
  have hhead := head?_joinWords hascii
  rw [hnone] at hhead
  rw [startsInDigit, Option.map_eq_none_iff.mp hhead.symm]
  rfl

end

/-- A name is the words in one, after an underscore if they start with a digit. -/
theorem typeNameChars_eq {mark : Bool} (hne : joinWords true cs ≠ [])
    (hmark : ∀ c ∈ (joinWords true cs).head?, c.isDigit = mark) :
    typeNameChars cs = if mark then '_' :: joinWords true cs else joinWords true cs := by
  obtain ⟨c, rest, hjoined⟩ := List.exists_cons_of_ne_nil hne
  rw [hjoined] at hmark
  rw [typeNameChars, hjoined, ← hmark c rfl]

/-- A name for a text is an underscore or nothing, then letters and digits. -/
theorem exists_camelCased (hascii : ∀ c ∈ cs, c.toNat < 0x80) : ∃ body, CamelCased body ∧
    (∀ c ∈ body.head?, c.isDigit = startsInDigit cs) ∧
      typeNameChars cs = if startsInDigit cs then '_' :: body else body := by
  by_cases hnone : joinWords true cs = []
  -- A text without words has a name of its own, which is in camel case, too.
  · have hmark := startsInDigit_of_joinWords_eq_nil hascii hnone
    refine ⟨['T', 'y', 'p', 'e'], ⟨by simp, by simp, by simp⟩, ?_, ?_⟩
    · rw [hmark]
      simp
    · rw [typeNameChars, hnone, hmark]
      rfl
  · exact ⟨_, camelCased_joinWords hascii hnone, isDigit_of_head?_joinWords hascii,
      typeNameChars_eq hnone (isDigit_of_head?_joinWords hascii)⟩

/-- Letters and digits that do not start in lower case are a word, and stay as they are. -/
theorem CamelCased.joinWords_eq (h : CamelCased cs) : joinWords true cs = cs := by
  have hall : ∀ c ∈ cs, isAlphanumeric c = true := fun c hc =>
    (isAlphanumeric_of_ascii (toNat_lt_of_isAlphanum (h.spelled c hc))).trans (h.spelled c hc)
  have hworded : Worded (cs ++ []) [cs] := .word h.nonempty hall (by simp) .nil
  obtain ⟨c, rest, rfl⟩ := List.exists_cons_of_ne_nil h.nonempty
  have hc := toNat_lt_of_isAlphanum (h.spelled c List.mem_cons_self)
  have hupper := Char.toUpper_eq_of_not_isLower (Bool.eq_false_iff.mp (h.start c rfl))
  rw [List.append_nil] at hworded
  rw [hworded.joinWords_eq, List.flatMap_singleton, capitalized, uppercase_of_ascii hc, hupper]
  rfl

/-- The underscore of a name separates nothing. -/
theorem CamelCased.joinWords_marked (h : CamelCased cs) (mark : Bool) :
    joinWords true (if mark then '_' :: cs else cs) = cs := by
  cases mark with
  | false => exact h.joinWords_eq
  | true => exact h.joinWords_eq

theorem typeNameChars_typeNameChars (hascii : ∀ c ∈ cs, c.toNat < 0x80) :
    typeNameChars (typeNameChars cs) = typeNameChars cs := by
  obtain ⟨body, hbody, hmark, heq⟩ := exists_camelCased hascii
  have hjoined := hbody.joinWords_marked (startsInDigit cs)
  rw [← heq] at hjoined
  rw [typeNameChars_eq (hjoined ▸ hbody.nonempty) (hjoined ▸ hmark), hjoined, heq]

/-- The name of a type for a text is an identifier that stays as it is. -/
structure Identified (base : String) : Prop where
  nonempty : typeName base ≠ ""
  /-- There is an underscore exactly if the first letter or digit of the text is a digit. -/
  spelled : ∃ body : List Char, (∀ c ∈ body, c.isAlphanum = true) ∧
    (typeName base).toList = if startsInDigit base.toList then '_' :: body else body
  start : ∀ c ∈ (typeName base).toList.head?, c.isDigit = false ∧ c.isLower = false
  idempotent : typeName (typeName base) = typeName base
  /-- The text has one sequence of words. -/
  worded : ∃! ws, Worded base.toList ws
  /-- The name is that of all texts with the same words, whatever separates them. -/
  words : ∀ ws (other : String), Worded base.toList ws → Worded other.toList ws →
    typeName other = typeName base

/-- A text in ASCII gives an identifier in camel case, which gives itself. -/
theorem identified_typeName {base : String} (hascii : ∀ c ∈ base.toList, c.toNat < 0x80) :
    Identified base := by
  obtain ⟨body, hbody, hmark, heq⟩ := exists_camelCased hascii
  have hname : (typeName base).toList = typeNameChars base.toList := String.toList_ofList
  have hcases : (∀ c ∈ (typeName base).toList.head?, c.isDigit = false ∧ c.isLower = false) ∧
      (typeName base).toList ≠ [] := by
    rw [hname, heq]
    cases hdigit : startsInDigit base.toList with
    | true => simp
    | false => exact ⟨fun c hc => ⟨(hmark c hc).trans hdigit, hbody.start c hc⟩, hbody.nonempty⟩
  constructor
  case nonempty => exact fun hempty => hcases.2 (by rw [hempty]; rfl)
  case spelled => exact ⟨body, hbody.spelled, hname.trans heq⟩
  case start => exact hcases.1
  case idempotent =>
    rw [typeName, hname, typeNameChars_typeNameChars hascii]
    rfl
  case worded => exact existsUnique_worded _
  case words => exact fun ws other h h' => h.typeName_eq h'

/-- A text that starts in a digit. -/
theorem identified_typeName_numbered : (∀ c ∈ "2nd-chapter".toList, c.toNat < 0x80) ∧
    Identified "2nd-chapter" ∧ typeName "2nd-chapter" = "_2ndChapter" :=
  ⟨by simp, identified_typeName (by simp), by decide +kernel⟩

end MarkupTypes
