import Mathlib.Data.List.Nodup
import MarkupTypes.Proofs.Runs

/-!
# Names of types are distinct

A type gets a name that no other type has : when the name that it would have is taken, one of
the numbers that are tried is free, as more numbers are tried than names are taken
(`Model.freeName_not_mem`). The names that a model knows are those of its types, each of them
once (`Model.Named`), and stay so in every run (`Compilation.named_afterAll`).
-/

namespace MarkupTypes

/-! ## Keys of maps -/

namespace SortedMap

variable {κ ν : Type}

/-- The keys of a map, in order. -/
def keys (m : SortedMap κ ν) : List κ := m.entries.map Prod.fst

theorem length_keys (m : SortedMap κ ν) : m.keys.length = m.size := List.length_map ..

variable [DecidableEq κ]

theorem contains_iff (m : SortedMap κ ν) (key : κ) : m.contains key = true ↔ key ∈ m.keys := by
  rw [contains, get?, Option.isSome_map, List.find?_isSome, keys, List.mem_map]
  constructor
  · rintro ⟨e, he, hkey⟩
    exact ⟨e, he, of_decide_eq_true hkey⟩
  · rintro ⟨e, he, rfl⟩
    exact ⟨e, he, decide_eq_true rfl⟩

variable [Ord κ]

/-- A new key is added to those that there are. -/
theorem perm_keys_insert (m : SortedMap κ ν) {key : κ} (value : ν) (hnew : key ∉ m.keys) :
    (m.insert key value).keys.Perm (key :: m.keys) := by
  obtain ⟨es⟩ := m
  simp only [insert, keys] at hnew ⊢
  induction es with
  | nil => exact .refl _
  | cons e es ih =>
    have hhead : key ≠ e.1 := fun heq => hnew (heq ▸ List.mem_cons_self)
    have htail : key ∉ es.map Prod.fst := fun hmem => hnew (List.mem_cons_of_mem _ hmem)
    simp only [insertEntry]
    split
    · next heq => exact absurd heq.symm hhead
    · split
      · exact .refl _
      · exact ((ih htail).cons e.1).trans (.swap ..)

end SortedMap

/-! ## Free names -/

/-- Different numbers have different texts. -/
theorem toString_injective {i j : Nat} (h : toString i = toString j) : i = j := by
  rw [Nat.toString_eq_ofList_toDigits, Nat.toString_eq_ofList_toDigits, String.ofList_inj] at h
  rw [← Nat.ofDigitChars_ten_toDigits (n := i), h, Nat.ofDigitChars_ten_toDigits]

namespace Model

variable {m m' : Model} {base : String} {origin : Origin}

/-- When even the last number that was tried is taken, all of them are. -/
theorem mem_of_numberedName_mem : ∀ (tries n : Nat),
    m.numberedName base tries n ∈ m.names.keys → ∀ i, n ≤ i → i ≤ n + tries →
      base ++ toString i ∈ m.names.keys
  | 0, n, h, i, hle, hge => by
    obtain rfl : i = n := Nat.le_antisymm hge hle
    exact h
  | tries + 1, n, h, i, hle, hge => by
    rw [numberedName] at h
    split at h
    · next htaken =>
      rcases Nat.eq_or_lt_of_le hle with rfl | hlt
      · exact (m.names.contains_iff _).mp htaken
      · exact mem_of_numberedName_mem tries (n + 1) h i hlt (by omega)
    · next hfree => exact absurd ((m.names.contains_iff _).mpr h) hfree

/-- Of the numbers that are tried, one is free : otherwise there would be more numbers taken than
names. -/
theorem numberedName_not_mem (m : Model) (base : String) :
    m.numberedName base m.names.size 2 ∉ m.names.keys := by
  intro hmem
  have hsubset : (List.range' 2 (m.names.size + 1)).map (base ++ toString ·) ⊆ m.names.keys := by
    intro name hname
    obtain ⟨i, hi, rfl⟩ := List.mem_map.mp hname
    obtain ⟨hle, hlt⟩ := List.mem_range'_1.mp hi
    exact mem_of_numberedName_mem _ 2 hmem i hle (by omega)
  have hnodup : ((List.range' 2 (m.names.size + 1)).map (base ++ toString ·)).Nodup :=
    List.Nodup.map (fun i j heq => toString_injective ((String.append_right_inj base).mp heq))
      List.nodup_range'
  have hlength := (hnodup.subperm hsubset).length_le
  rw [List.length_map, List.length_range', m.names.length_keys] at hlength
  omega

/-- The name that a type gets is not taken. -/
theorem freeName_not_mem (m : Model) (base : String) : m.freeName base ∉ m.names.keys := by
  unfold freeName
  split
  · exact m.numberedName_not_mem base
  · next hfree => exact fun hmem => hfree ((m.names.contains_iff _).mpr hmem)

/-- The names that are taken are those of the types, and no two types have one name. -/
structure Named (m : Model) : Prop where
  keys : m.names.keys.Perm (m.types.map WriterType.name)
  nodup : (m.types.map WriterType.name).Nodup

theorem Named.empty : Model.empty.Named := ⟨.refl _, List.nodup_nil⟩

theorem Named.create (h : m.Named) (base : String) (origin : Origin) :
    (m.create base origin).Named := by
  have hnew := m.freeName_not_mem (typeName base)
  have hnames : (m.create base origin).types.map WriterType.name =
      m.types.map WriterType.name ++ [m.freeName (typeName base)] := by
    simp [Model.create, WriterType.new]
  constructor
  · rw [hnames]
    refine (m.names.perm_keys_insert _ hnew).trans ?_
    exact (h.keys.cons _).trans (List.perm_append_singleton _ _).symm
  · rw [hnames]
    refine List.nodup_append.mpr ⟨h.nodup, List.nodup_singleton _, fun a ha b hb heq => ?_⟩
    rw [List.mem_singleton.mp hb] at heq
    exact hnew (h.keys.mem_iff.mpr (heq ▸ ha))

/-- What types keep while they grow can be read off all of them as before. -/
theorem Grows.map_eq {α : Type} {f : WriterType → α} (h : m.Grows m') (hsize : m'.size = m.size)
    (hf : ∀ T T', WriterType.Grows T T' → f T' = f T) : m'.types.map f = m.types.map f := by
  refine List.ext_getElem? fun i => ?_
  rw [List.getElem?_map, List.getElem?_map]
  rcases Nat.lt_or_ge i m.size with hlt | hge
  · obtain ⟨T', hT', hgrows⟩ := h i _ (List.getElem?_eq_getElem hlt)
    have hget : m'.types[i]? = some T' := hT'
    rw [hget, List.getElem?_eq_getElem hlt, Option.map_some, Option.map_some, hf _ _ hgrows]
  · rw [List.getElem?_eq_none hge, List.getElem?_eq_none (Nat.le_trans (Nat.le_of_eq hsize) hge)]

/-- Types that grow keep their names. -/
theorem Grows.map_name (h : m.Grows m') (hsize : m'.size = m.size) :
    m'.types.map WriterType.name = m.types.map WriterType.name :=
  h.map_eq hsize fun _ _ hgrows => hgrows.name

/-- A type can be told by its name. -/
theorem Named.eq_of_name (h : m.Named) {i j : TypeId} {T T' : WriterType}
    (hT : m.get? i = some T) (hT' : m.get? j = some T') (hname : T.name = T'.name) : i = j := by
  have hi : (m.types.map WriterType.name)[i]? = some T.name := by
    rw [List.getElem?_map, show m.types[i]? = some T from hT, Option.map_some]
  have hj : (m.types.map WriterType.name)[j]? = some T'.name := by
    rw [List.getElem?_map, show m.types[j]? = some T' from hT', Option.map_some]
  refine (List.getElem?_inj (List.getElem?_eq_some_iff.mp hi).1 h.nodup).mp ?_
  rw [hi, hj, hname]

theorem Named.of_grows (h : m.Named) (hgrows : m.Grows m') (hsize : m'.size = m.size)
    (hnames : m'.names = m.names) : m'.Named := by
  have hmap := hgrows.map_name hsize
  constructor
  · rw [hnames, hmap]
    exact h.keys
  · rw [hmap]
    exact h.nodup

end Model

/-! ## Names in runs -/

namespace Compilation

variable {c c' : Compilation}

/-- What creating a type keeps, and what types keep while they grow, holds throughout. -/
theorem Leads.of_create {P : Model → Prop}
    (hcreate : ∀ {m : Model}, P m → ∀ base origin, P (m.create base origin))
    (hgrows : ∀ {m m' : Model}, P m → m.Grows m' → m'.size = m.size → m'.names = m.names →
      m'.rules = m.rules → P m')
    (h : Leads c c') (hc : P c.model) : P c'.model := by
  refine h.invariant (P := fun c => P c.model) (fun hchange hbefore => ?_) hc
  cases hchange with
  | trace | label | generated => exact hbefore
  | root => exact hgrows hbefore (fun _ T hT => ⟨T, hT, .refl T⟩) rfl rfl rfl
  | declare => exact declared_keeps hcreate hbefore
  | fill hrule hstate hfill =>
    have hframe := hfill.frame 0
    exact hgrows hbefore hframe.grows hframe.size hframe.names hframe.rules

theorem Leads.named (h : Leads c c') (hc : c.model.Named) : c'.model.Named :=
  h.of_create Model.Named.create
    (fun hbefore hgrows hsize hnames _ => hbefore.of_grows hgrows hsize hnames) hc

variable {t : RuleTable} {entry : RuleId} {options : CompileOptions} {tracer : Trace.Tracer}

theorem Started.named (h : Started t entry options tracer c) : c.model.Named := by
  rw [model, h.draft_eq]
  exact .empty

/-- After any steps, no two types have the same name. -/
theorem named_afterAll (hstart : start t entry options tracer = .ok c) (steps : List Step) :
    (c.afterAll steps).model.Named :=
  (leads_afterAll steps c).named (started_of_start hstart).named

end Compilation

end MarkupTypes
