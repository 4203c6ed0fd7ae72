import MarkupTypes.Proofs.Naming

/-!
# Types on request

Types are asked for one after the other, and each request is answered with the id of a new type
(`Model.serve`). Whatever is asked for, the names that types get tell them apart, and a type is
found by its name. A name is made from a stem : it is the stem itself while no type has it, and
otherwise the stem with the least number, from two on, that no type has with it (`Model.Allots`).
There always is one, as each type takes away one number at most
(`Model.Catalogued.exists_firstFree`).

Requests add types and leave those that there are as they are, so all this can be read off the last
model (`Model.served_serve`).
-/

namespace MarkupTypes

namespace Model

/-! ## Names that types have -/

/-- A type has the name. -/
def Taken (m : Model) (name : String) : Prop := ∃ T ∈ m.types, T.name = name

/-- The least number, from two on, that makes a name of a stem that no type has. -/
structure FirstFree (m : Model) (stem : String) (n : Nat) : Prop where
  two_le : 2 ≤ n
  free : ¬m.Taken (stem ++ toString n)
  taken : ∀ k, 2 ≤ k → k < n → m.Taken (stem ++ toString k)

/-- The name that the next type of a stem gets : the stem itself if no type has it, otherwise the
stem with the least number that no type has with it. -/
inductive Allots (m : Model) (stem : String) : String → Prop
  | plain (hfree : ¬m.Taken stem) : Allots m stem stem
  | numbered (htaken : m.Taken stem) {n : Nat} (h : m.FirstFree stem n) :
    Allots m stem (stem ++ toString n)

variable {m : Model} {stem name : String}

/-- A search that ends with a free name has passed taken ones only. -/
theorem exists_numberedName (m : Model) (stem : String) : ∀ tries n : Nat,
    m.numberedName stem tries n ∉ m.names.keys → ∃ k, n ≤ k ∧
      m.numberedName stem tries n = stem ++ toString k ∧
      ∀ i, n ≤ i → i < k → stem ++ toString i ∈ m.names.keys
  | 0, n, _ => ⟨n, Nat.le_refl n, rfl, fun i hle hlt => absurd hlt (Nat.not_lt.mpr hle)⟩
  | tries + 1, n, h => by
    rw [numberedName] at h ⊢
    split at h
    · next htaken =>
      obtain ⟨k, hk, hname, hpassed⟩ := exists_numberedName m stem tries (n + 1) h
      refine ⟨k, Nat.le_of_succ_le hk, by rw [if_pos htaken, hname], fun i hle hlt => ?_⟩
      rcases Nat.eq_or_lt_of_le hle with rfl | hnext
      · exact (m.names.contains_iff _).mp htaken
      · exact hpassed i hnext hlt
    · next hfree =>
      exact ⟨n, Nat.le_refl n, if_neg hfree, fun i hle hlt => absurd hlt (Nat.not_lt.mpr hle)⟩

/-! ## Catalogues -/

/-- The names that a model knows are those of its types, which are told apart by them, and the id
of a type is its place. -/
structure Catalogued (m : Model) : Prop extends Named m where
  id : ∀ i T, m.get? i = some T → T.id = i
  entry : ∀ name i, m.names.get? name = some i ↔ ∃ T, m.get? i = some T ∧ T.name = name

namespace Catalogued

theorem empty : Model.empty.Catalogued where
  toNamed := .empty
  id i T h := by cases h
  entry name i := by
    refine iff_of_false (fun h => by cases h) ?_
    rintro ⟨T, hT, -⟩
    cases hT

theorem mem_keys_iff (h : m.Catalogued) : name ∈ m.names.keys ↔ m.Taken name := by
  rw [h.keys.mem_iff, List.mem_map]
  rfl

/-- Some number makes a free name of a stem. -/
theorem exists_firstFree (h : m.Catalogued) (stem : String) :
    ∃ n, m.FirstFree stem n ∧ m.numberedName stem m.names.size 2 = stem ++ toString n := by
  have hfree := m.numberedName_not_mem stem
  obtain ⟨n, hle, hname, hpassed⟩ := m.exists_numberedName stem _ 2 hfree
  refine ⟨n, ⟨hle, ?_, fun k hk hlt => h.mem_keys_iff.mp (hpassed k hk hlt)⟩, hname⟩
  rwa [hname, h.mem_keys_iff] at hfree

theorem allots_freeName (h : m.Catalogued) (stem : String) : m.Allots stem (m.freeName stem) := by
  unfold freeName
  split
  · next htaken =>
    obtain ⟨n, hfirst, hname⟩ := h.exists_firstFree stem
    rw [hname]
    exact .numbered (h.mem_keys_iff.mp ((m.names.contains_iff _).mp htaken)) hfirst
  · next hfree =>
    exact .plain fun htaken => hfree ((m.names.contains_iff _).mpr (h.mem_keys_iff.mpr htaken))

theorem create (h : m.Catalogued) (base : String) (origin : Origin) :
    (m.create base origin).Catalogued where
  toNamed := h.toNamed.create base origin
  id i T hT := by
    rw [get?_create] at hT
    split at hT
    · cases hT
      rfl
    · exact h.id i T hT
  entry name i := by
    have hnew := m.freeName_not_mem (typeName base)
    change (m.names.insert _ m.size).get? name = some i ↔ _
    rw [get?_create]
    by_cases hname : name = m.freeName (typeName base)
    · subst hname
      rw [SortedMap.get?_insert_self]
      constructor
      · rintro ⟨⟩
        exact ⟨_, if_pos rfl, rfl⟩
      · rintro ⟨T, hT, hname⟩
        split at hT
        · next hi => rw [hi]
        · -- An older type does not have the new name.
          exact absurd (h.mem_keys_iff.mpr ⟨T, List.mem_of_getElem? hT, hname⟩) hnew
    · rw [SortedMap.get?_insert_of_ne _ _ hname, h.entry]
      have hold : ∀ T, m.get? i = some T → i ≠ m.size := fun T hT hi =>
        absurd (List.getElem?_eq_some_iff.mp hT).1 (Nat.not_lt.mpr (Nat.le_of_eq hi.symm))
      constructor
      · rintro ⟨T, hT, rfl⟩
        exact ⟨T, by rw [if_neg (hold T hT), hT], rfl⟩
      · rintro ⟨T, hT, rfl⟩
        split at hT
        · cases hT
          exact absurd rfl hname
        · exact ⟨T, hT, rfl⟩

theorem byName?_eq_some_iff (h : m.Catalogued) {T : WriterType} :
    m.byName? name = some T ↔ T ∈ m.types ∧ T.name = name := by
  rw [byName?, Option.bind_eq_some_iff]
  constructor
  · rintro ⟨i, hi, hT⟩
    obtain ⟨T', hT', hname⟩ := (h.entry name i).mp hi
    obtain rfl := Option.some.inj (hT.symm.trans hT')
    exact ⟨List.mem_of_getElem? hT, hname⟩
  · rintro ⟨hmem, hname⟩
    obtain ⟨i, hi⟩ := List.mem_iff_getElem?.mp hmem
    exact ⟨i, (h.entry name i).mpr ⟨T, hi, hname⟩, hi⟩

theorem byName?_eq_none_iff (h : m.Catalogued) : m.byName? name = none ↔ ¬m.Taken name := by
  rw [Option.eq_none_iff_forall_ne_some]
  simp only [ne_eq, h.byName?_eq_some_iff, Taken, not_exists]

end Catalogued

/-! ## Requests -/

/-- What a type is to be named after, and what it is for. -/
structure Request where
  base : String
  origin : Origin
  deriving DecidableEq, Repr

/-- Create a type for each request, in order, and answer each with the id of its type. -/
def serve (m : Model) : List Request → Model × List TypeId
  | [] => (m, [])
  | r :: rs =>
    let (last, ids) := (m.create r.base r.origin).serve rs
    (last, m.size :: ids)

theorem serve_append (m : Model) (rs rs' : List Request) :
    m.serve (rs ++ rs') =
      (((m.serve rs).1.serve rs').1, (m.serve rs).2 ++ ((m.serve rs).1.serve rs').2) := by
  induction rs generalizing m with
  | nil => rfl
  | cons r rs ih => simp only [List.cons_append, serve, ih]

theorem size_serve (m : Model) (rs : List Request) : (m.serve rs).1.size = m.size + rs.length := by
  induction rs generalizing m with
  | nil => rfl
  | cons r rs ih =>
    rw [serve, List.length_cons]
    exact (ih _).trans (by rw [size_create]; omega)

/-- The ids that are answered count on from the number of types. -/
theorem ids_serve (m : Model) (rs : List Request) :
    (m.serve rs).2 = List.range' m.size rs.length := by
  induction rs generalizing m with
  | nil => rfl
  | cons r rs ih =>
    rw [serve, List.length_cons, List.range'_succ]
    exact congrArg _ ((ih _).trans (by rw [size_create]))

theorem Catalogued.serve (h : m.Catalogued) (rs : List Request) : (m.serve rs).1.Catalogued := by
  induction rs generalizing m with
  | nil => exact h
  | cons r rs ih => exact ih (h.create r.base r.origin)

/-- Types stay as they are. -/
theorem get?_serve {i : TypeId} {T : WriterType} (hT : m.get? i = some T) (rs : List Request) :
    (m.serve rs).1.get? i = some T := by
  induction rs generalizing m with
  | nil => exact hT
  | cons r rs ih =>
    refine ih ?_
    have hlt : i < m.size := (List.getElem?_eq_some_iff.mp hT).1
    rw [get?_create, if_neg (Nat.ne_of_lt hlt), hT]

/-- What a model has come to after requests that were answered with `ids`. -/
structure Served (rs : List Request) (m : Model) (ids : List TypeId) : Prop where
  /-- The requests are answered with the numbers from zero on, in order. -/
  ids : ids = List.range rs.length
  /-- Each of these numbers, and no other, is the id of a type, and the place of the type. -/
  size : m.size = rs.length
  id : ∀ i T, m.get? i = some T → T.id = i
  distinct : (m.types.map WriterType.name).Nodup
  /-- A type is found by its name, and nothing is found by any other text. -/
  found : ∀ name T, m.byName? name = some T ↔ T ∈ m.types ∧ T.name = name
  missing : ∀ name, m.byName? name = none ↔ ¬m.Taken name
  /-- Whatever the next type is named after, the search for its name ends. -/
  search : ∀ stem, ∃ n, m.FirstFree stem n
  /-- The type of a request has the name that was allotted when it was asked for. -/
  type : ∀ earlier r later, rs = earlier ++ r :: later → ∃ T, m.get? earlier.length = some T ∧
    T.origin = r.origin ∧ (Model.empty.serve earlier).1.Allots (typeName r.base) T.name
  /-- A type stays as it is, whatever is asked for next. -/
  persists : ∀ more i T, m.get? i = some T → (m.serve more).1.get? i = some T

/-- After any requests, types have distinct names by which they are found, each of them the first
that was free when the type was asked for. -/
theorem served_serve (rs : List Request) :
    Served rs (Model.empty.serve rs).1 (Model.empty.serve rs).2 where
  ids := by rw [ids_serve, List.range_eq_range']; rfl
  size := (size_serve _ rs).trans (Nat.zero_add _)
  id := (Catalogued.empty.serve rs).id
  distinct := (Catalogued.empty.serve rs).nodup
  found _ _ := (Catalogued.empty.serve rs).byName?_eq_some_iff
  missing _ := (Catalogued.empty.serve rs).byName?_eq_none_iff
  search stem := by
    obtain ⟨n, hn, -⟩ := (Catalogued.empty.serve rs).exists_firstFree stem
    exact ⟨n, hn⟩
  type earlier r later hrs := by
    subst hrs
    have hsize : (Model.empty.serve earlier).1.size = earlier.length :=
      (size_serve _ earlier).trans (Nat.zero_add _)
    refine ⟨.new earlier.length ((Model.empty.serve earlier).1.freeName (typeName r.base)) r.origin,
      ?_, rfl, (Catalogued.empty.serve earlier).allots_freeName (typeName r.base)⟩
    rw [serve_append, serve]
    refine get?_serve ?_ later
    rw [get?_create, hsize, if_pos rfl]
  persists more _ _ hT := get?_serve hT more

/-- A stem that ends in a digit competes with the numbers of a shorter one. -/
example : ((Model.empty.serve (["title", "title", "title2", "title"].map fun base =>
    ⟨base, .element (.unqualified "title")⟩)).1.types.map WriterType.name) =
      ["Title", "Title2", "Title22", "Title3"] := by
  decide +kernel

end Model

end MarkupTypes
