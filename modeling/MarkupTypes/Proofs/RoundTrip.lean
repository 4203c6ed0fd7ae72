import Mathlib.Data.List.Induction
import MarkupTypes.Model.Json
import MarkupTypes.Proofs.Correspondence
import MarkupTypes.Proofs.RuleKeys

/-!
# Models through JSON

What is written in JSON is read back as it was, part by part, as long as numbers have room in words
(`WriterType.ofJson?_toJson`) and what is kept in order is read back in order
(`foldl_of_pairwise`).

A model is another matter : the keys of its rules are objects, so it is written exactly when it
knows no rules (`Model.toJson?_eq_none_iff`). A compiled model knows a rule for each one that the
entry reaches and that is not inline, so it comes through JSON only where every rule is inline
(`Compilation.survives_iff`).
-/

namespace MarkupTypes

/-! ## What is kept in order -/

/-- Adding things in order adds each of them at the end. -/
theorem foldl_of_pairwise {α : Type} {r : α → α → Prop} {add : List α → α → List α}
    (hadd : ∀ xs x, (∀ y ∈ xs, r y x) → add xs x = xs ++ [x]) {xs : List α} (h : xs.Pairwise r) :
    xs.foldl add [] = xs := by
  induction xs using List.reverseRecOn with
  | nil => rfl
  | append_singleton xs x ih =>
    obtain ⟨hbefore, -, hlast⟩ := List.pairwise_append.mp h
    rw [List.foldl_concat, ih hbefore]
    exact hadd xs x fun y hy => hlast y hy x (List.mem_singleton_self x)

theorem insertId_of_forall_lt {id : Nat} {xs : List Nat} (h : ∀ x ∈ xs, x < id) :
    insertId id xs = xs ++ [id] := by
  induction xs with
  | nil => rfl
  | cons x xs ih =>
    obtain ⟨hx, hxs⟩ := List.forall_mem_cons.mp h
    rw [insertId, if_neg (Nat.lt_asymm hx), if_neg (Nat.ne_of_gt hx), ih hxs, List.cons_append]

namespace SortedMap

variable {κ ν : Type} [Ord κ]

/-- The keys stand in order. -/
def Ascending (m : SortedMap κ ν) : Prop := m.entries.Pairwise fun a b => compare a.1 b.1 = .lt

theorem Ascending.empty : (empty : SortedMap κ ν).Ascending := .nil

variable [DecidableEq κ]

theorem mem_insertEntry {key : κ} {value : ν} {entries : List (κ × ν)} {e : κ × ν}
    (h : e ∈ insertEntry key value entries) : e = (key, value) ∨ e ∈ entries := by
  induction entries with
  | nil => exact .inl (List.mem_singleton.mp h)
  | cons e' entries ih =>
    rw [insertEntry] at h
    split at h
    · exact (List.mem_cons.mp h).imp_right (List.mem_cons_of_mem e')
    · split at h
      · exact List.mem_cons.mp h
      · rcases List.mem_cons.mp h with rfl | h
        · exact .inr List.mem_cons_self
        · exact (ih h).imp_right (List.mem_cons_of_mem e')

variable [Std.TransOrd κ] [Std.LawfulEqOrd κ]

theorem Ascending.insert {m : SortedMap κ ν} (h : m.Ascending) (key : κ) (value : ν) :
    (m.insert key value).Ascending := by
  obtain ⟨entries⟩ := m
  change (insertEntry key value entries).Pairwise _
  replace h : entries.Pairwise fun a b => compare a.1 b.1 = .lt := h
  induction h with
  | nil => exact List.pairwise_singleton _ _
  | @cons e entries he hentries ih =>
    rw [insertEntry]
    split
    · next heq => exact List.pairwise_cons.mpr ⟨fun e' he' => heq ▸ he e' he', hentries⟩
    · next hne =>
      split
      · next hlt =>
        refine List.pairwise_cons.mpr ⟨fun e' he' => ?_, List.pairwise_cons.mpr ⟨he, hentries⟩⟩
        rcases List.mem_cons.mp he' with rfl | he'
        · exact hlt
        · exact Std.TransCmp.lt_trans hlt (he e' he')
      · next hnot =>
        have hgt : compare e.1 key = .lt := by
          cases hcompare : compare key e.1 with
          | lt => exact absurd hcompare hnot
          | eq => exact absurd (Std.LawfulEqCmp.eq_of_compare hcompare).symm hne
          | gt => exact Std.OrientedCmp.gt_iff_lt.mp hcompare
        refine List.pairwise_cons.mpr ⟨fun e' he' => ?_, ih⟩
        rcases mem_insertEntry he' with rfl | he'
        · exact hgt
        · exact he e' he'

theorem insertEntry_of_forall_lt {key : κ} {value : ν} {entries : List (κ × ν)}
    (h : ∀ e ∈ entries, compare e.1 key = .lt) :
    insertEntry key value entries = entries ++ [(key, value)] := by
  induction entries with
  | nil => rfl
  | cons e entries ih =>
    obtain ⟨he, hentries⟩ := List.forall_mem_cons.mp h
    have hne : e.1 ≠ key := fun heq => by
      rw [heq, Std.compare_self] at he
      cases he
    have hnot : compare key e.1 ≠ .lt := by
      rw [Std.OrientedCmp.gt_iff_lt.mpr he]
      exact Ordering.noConfusion
    rw [insertEntry, if_neg hne, if_neg hnot, ih hentries, List.cons_append]

/-- Entries in order make the map that has them in that order. -/
theorem Ascending.ofList_entries {m : SortedMap κ ν} (h : m.Ascending) : ofList m.entries = m := by
  have hfold : ofList m.entries =
      ⟨m.entries.foldl (fun entries e => insertEntry e.1 e.2 entries) []⟩ :=
    List.foldl_hom SortedMap.mk fun _ _ => rfl
  rw [hfold, foldl_of_pairwise (fun _ _ => insertEntry_of_forall_lt) h]

end SortedMap

/-! ## Parts of JSON -/

namespace Json

variable {α : Type} {read : Json → Option α} {write : α → Json}

theorem list?_array {xs : List α} (h : ∀ x ∈ xs, read (write x) = some x) :
    list? read (array (xs.map write)) = some xs := by
  rw [list?]
  induction xs with
  | nil => rfl
  | cons x xs ih =>
    obtain ⟨hx, hxs⟩ := List.forall_mem_cons.mp h
    rw [List.map_cons, List.mapM_cons, hx, ih hxs]
    rfl

theorem option?_ofOption {x? : Option α} (hnull : ∀ x, write x ≠ null)
    (h : ∀ x ∈ x?, read (write x) = some x) : option? read (ofOption write x?) = some x? := by
  cases x? with
  | none => rfl
  | some x =>
    rw [ofOption, option?, h x rfl, Option.map_some]
    exact hnull x

theorem word?_number {n : Nat} (h : n < wordLimit) : word? (number n) = some n := if_pos h

theorem option?_number {n? : Option Nat} (h : ∀ n ∈ n?, n < wordLimit) :
    option? word? (ofOption number n?) = some n? :=
  option?_ofOption (fun _ => Json.noConfusion) fun n hn => word?_number (h n hn)

/-- Entries with strings for keys make an object. -/
theorem ofEntries?_string (entries : List (String × α)) :
    ofEntries? (entries.map fun e => (string e.1, write e.2)) =
      some (object (entries.map fun e => (e.1, write e.2))) := by
  have hmapM : (entries.map fun e => (string e.1, write e.2)).mapM
      (fun e : Json × Json => e.1.key?.map fun name => (name, e.2)) =
        some (entries.map fun e => (e.1, write e.2)) := by
    induction entries with
    | nil => rfl
    | cons e entries ih =>
      rw [List.map_cons, List.mapM_cons, ih]
      rfl
  rw [ofEntries?, hmapM, Option.map_some]

/-- An entry whose key cannot name a field has no place in an object. -/
theorem ofEntries?_cons_of_key? {e : Json × Json} (h : e.1.key? = none)
    (entries : List (Json × Json)) : ofEntries? (e :: entries) = none := by
  rw [ofEntries?, List.mapM_cons, h]
  rfl

theorem entries?_object {entries : List (String × α)}
    (h : ∀ e ∈ entries, read (write e.2) = some e.2) :
    entries? string? read (object (entries.map fun e => (e.1, write e.2))) = some entries := by
  rw [entries?]
  induction entries with
  | nil => rfl
  | cons e entries ih =>
    obtain ⟨he, hentries⟩ := List.forall_mem_cons.mp h
    rw [List.map_cons, List.mapM_cons, ih hentries, string?, he]
    rfl

end Json

/-! ## Parts of models -/

theorem QName.ofJson?_toJson (q : QName) : ofJson? q.toJson = some q := rfl

theorem ValueType.ofJson?_toJson (type : ValueType) : ofJson? type.toJson = some type := by
  induction type with
  | list item ih =>
    rw [toJson, ofJson?, ofFields?, ofField?, if_pos rfl, ih]
    rfl
  | _ => rfl

theorem RuleKey.ofJson?_toJson {key : RuleKey} (h : key.scope < Json.wordLimit) :
    ofJson? key.toJson = some key := by
  change (do return ⟨← Json.word? (.number key.scope), ← Json.string? (.string key.name)⟩ :
    Option RuleKey) = _
  rw [Json.word?_number h]
  rfl

/-- The scope of a rule has room in a word. -/
def Origin.Fits : Origin → Prop
  | rule key => key.scope < Json.wordLimit
  | element _ => True

theorem Origin.ofJson?_toJson : ∀ {o : Origin}, o.Fits → ofJson? o.toJson = some o
  | rule key, h => by
    change rule <$> RuleKey.ofJson? key.toJson = _
    rw [RuleKey.ofJson?_toJson h]
    rfl
  | element _, _ => rfl

theorem MemberKind.ofJson?_toJson (k : MemberKind) : ofJson? k.toJson = some k := by
  cases k <;> rfl

theorem Returns.ofJson?_toJson (r : Returns) : ofJson? r.toJson = some r := by
  cases r <;> rfl

/-- The type of the content has room in a word. -/
def Member.Fits (m : Member) : Prop := ∀ type ∈ m.content, type < Json.wordLimit

theorem Member.ofJson?_toJson {m : Member} (h : m.Fits) : ofJson? m.toJson = some m := by
  -- Each field is found under its own name, which leaves one part to be read for each.
  change (do return ⟨← MemberKind.ofJson? m.kind.toJson, ← QName.ofJson? m.name.toJson,
    ← Json.option? Json.string? (.ofOption .string m.label),
    ← Json.list? ValueType.ofJson? (.array (m.values.map ValueType.toJson)),
    ← Json.option? Json.word? (.ofOption .number m.content), ← Returns.ofJson? m.returns.toJson,
    ← Json.bool? (.bool m.optional)⟩ : Option Member) = _
  have hlabel : Json.option? Json.string? (.ofOption .string m.label) = some m.label :=
    Json.option?_ofOption (fun _ => Json.noConfusion) fun _ _ => rfl
  have hvalues : Json.list? ValueType.ofJson? (.array (m.values.map ValueType.toJson)) =
      some m.values := Json.list?_array fun type _ => type.ofJson?_toJson
  rw [m.kind.ofJson?_toJson, m.name.ofJson?_toJson, hlabel, hvalues,
    Json.option?_number h, m.returns.ofJson?_toJson]
  rfl

/-- The numbers of a type have room in words, and its parents stand in order. -/
structure WriterType.Fits (T : WriterType) : Prop where
  id : T.id < Json.wordLimit
  origin : T.origin.Fits
  members : ∀ x ∈ T.members, x.Fits
  parents : ∀ parent ∈ T.parents, parent < Json.wordLimit
  ascending : T.parents.Pairwise (· < ·)

theorem WriterType.ofJson?_toJson {T : WriterType} (h : T.Fits) : ofJson? T.toJson = some T := by
  change (do return ⟨← Json.word? (.number T.id), ← Json.string? (.string T.name),
    ← Origin.ofJson? T.origin.toJson,
    ← Json.list? Member.ofJson? (.array (T.members.map Member.toJson)),
    (← Json.list? Json.word? (.array (T.parents.map .number))).foldl
      (fun ids id => insertId id ids) [],
    ← Json.bool? (.bool T.typedWriter)⟩ : Option WriterType) = _
  have hmembers : Json.list? Member.ofJson? (.array (T.members.map Member.toJson)) =
      some T.members := Json.list?_array fun x hx => Member.ofJson?_toJson (h.members x hx)
  have hparents : Json.list? Json.word? (.array (T.parents.map .number)) = some T.parents :=
    Json.list?_array fun parent hparent => Json.word?_number (h.parents parent hparent)
  have hinsert : T.parents.foldl (fun ids id => insertId id ids) [] = T.parents :=
    foldl_of_pairwise (fun _ _ => insertId_of_forall_lt) h.ascending
  rw [Json.word?_number h.id, Origin.ofJson?_toJson h.origin, hmembers, hparents]
  change some (⟨T.id, T.name, T.origin, T.members, _, T.typedWriter⟩ : WriterType) = some T
  rw [hinsert]

/-! ## Models -/

namespace Model

/-- The numbers of a model have room in words, and what is sorted stands in order. -/
structure Fits (m : Model) : Prop where
  types : ∀ T ∈ m.types, T.Fits
  names : m.names.Ascending
  ids : ∀ e ∈ m.names.entries, e.2 < Json.wordLimit
  root : ∀ type ∈ m.root, type < Json.wordLimit

variable {m : Model}

/-- A model without rules in JSON. -/
def asJson (m : Model) : Json :=
  .object
    [("types", .array (m.types.map WriterType.toJson)),
      ("names", .object (m.names.entries.map fun e => (e.1, .number e.2))),
      ("rules", .object []), ("root", .ofOption .number m.root)]

theorem toJson?_of_no_rules (h : m.rules.entries = []) : m.toJson? = some m.asJson := by
  rw [toJson?, Json.ofEntries?_string, h]
  rfl

/-- The keys of rules do not name fields, so the first rule is enough to keep a model from being
written. -/
theorem toJson?_of_rules (h : m.rules.entries ≠ []) : m.toJson? = none := by
  obtain ⟨e, entries, hentries⟩ := List.exists_cons_of_ne_nil h
  rw [toJson?, Json.ofEntries?_string, hentries, List.map_cons, Json.ofEntries?_cons_of_key? rfl]
  rfl

theorem toJson?_eq_none_iff (m : Model) : m.toJson? = none ↔ m.rules.entries ≠ [] := by
  refine ⟨fun hnone h => ?_, toJson?_of_rules⟩
  rw [toJson?_of_no_rules h] at hnone
  cases hnone

theorem ofJson?_asJson (hfits : m.Fits) (hrules : m.rules.entries = []) :
    ofJson? m.asJson = some m := by
  change (do return ⟨← Json.list? WriterType.ofJson? (.array (m.types.map WriterType.toJson)),
    .ofList (← Json.entries? Json.string? Json.word?
      (.object (m.names.entries.map fun e => (e.1, .number e.2)))),
    .ofList [], ← Json.option? Json.word? (.ofOption .number m.root)⟩ : Option Model) = _
  have htypes : Json.list? WriterType.ofJson? (.array (m.types.map WriterType.toJson)) =
      some m.types := Json.list?_array fun T hT => WriterType.ofJson?_toJson (hfits.types T hT)
  have hnames : Json.entries? Json.string? Json.word?
      (.object (m.names.entries.map fun e => (e.1, .number e.2))) = some m.names.entries :=
    Json.entries?_object fun e he => Json.word?_number (hfits.ids e he)
  rw [htypes, hnames, Json.option?_number hfits.root]
  -- No rules were written, and none are read.
  obtain ⟨types, names, ⟨rules⟩, root⟩ := m
  obtain rfl : rules = [] := hrules
  change some (⟨types, .ofList names.entries, .empty, root⟩ : Model) = _
  rw [hfits.names.ofList_entries]
  rfl

/-- A model that can be written in JSON and is read back as it was. -/
def Survives (m : Model) : Prop := ∃ v, m.toJson? = some v ∧ ofJson? v = some m

theorem Survives.rules_eq_nil (h : m.Survives) : m.rules.entries = [] := by
  obtain ⟨v, hwritten, -⟩ := h
  by_contra hrules
  rw [toJson?_of_rules hrules] at hwritten
  cases hwritten

theorem Fits.survives (h : m.Fits) (hrules : m.rules.entries = []) : m.Survives :=
  ⟨m.asJson, toJson?_of_no_rules hrules, ofJson?_asJson h hrules⟩

/-- The names of a model stand in order and are of its types, and it knows the rules that its types
were made for. -/
structure Indexed (m : Model) : Prop where
  names : m.names.Ascending
  ids : ∀ e ∈ m.names.entries, e.2 < m.size
  rules : ∀ key, .rule key ∈ m.types.map WriterType.origin → key ∈ m.rules.keys

namespace Indexed

theorem empty : Model.empty.Indexed where
  names := .empty
  ids _ h := absurd h List.not_mem_nil
  rules _ h := absurd h List.not_mem_nil

theorem create (h : m.Indexed) (base : String) (origin : Origin) :
    (m.create base origin).Indexed where
  names := h.names.insert _ _
  ids e he := by
    rw [size_create]
    rcases SortedMap.mem_insertEntry he with rfl | he
    · exact Nat.lt_succ_self _
    · exact Nat.lt_succ_of_lt (h.ids e he)
  rules key hkey := by
    have horigins : (m.create base origin).types.map WriterType.origin =
        m.types.map WriterType.origin ++ [origin] := by
      simp [Model.create, WriterType.new]
    rw [horigins] at hkey
    cases origin with
    | rule other =>
      change key ∈ (m.rules.insert other m.size).keys
      rw [SortedMap.mem_keys_insert]
      rcases List.mem_append.mp hkey with hkey | hkey
      · exact .inr (h.rules key hkey)
      · exact .inl (Origin.rule.inj (List.mem_singleton.mp hkey))
    | element name =>
      rcases List.mem_append.mp hkey with hkey | hkey
      · exact h.rules key hkey
      · cases List.mem_singleton.mp hkey

theorem of_grows {m' : Model} (h : m.Indexed) (hgrows : m.Grows m') (hsize : m'.size = m.size)
    (hnames : m'.names = m.names) (hrules : m'.rules = m.rules) : m'.Indexed where
  names := by
    rw [hnames]
    exact h.names
  ids := by
    rw [hnames, hsize]
    exact h.ids
  rules := by
    rw [hgrows.map_eq hsize fun _ _ h => h.origin, hrules]
    exact h.rules

end Indexed

end Model

namespace Compilation

variable {t : RuleTable} {entry : RuleId} {options : CompileOptions} {tracer : Trace.Tracer}
  {c c' : Compilation}

theorem Leads.indexed (h : Leads c c') (hc : c.model.Indexed) : c'.model.Indexed :=
  h.of_create Model.Indexed.create Model.Indexed.of_grows hc

theorem Started.indexed (h : Started t entry options tracer c) : c.model.Indexed := by
  rw [model, h.draft_eq]
  exact .empty

/-- A sound model that knows no rules has room in JSON, if its types do. -/
theorem Sound.fits (h : Sound c) (hregular : c.model.Regular) (hindexed : c.model.Indexed)
    (hsize : c.model.size ≤ Json.wordLimit) (hrules : c.model.rules.entries = []) :
    c.model.Fits := by
  have hword : ∀ {type}, c.model.Has type → type < Json.wordLimit := fun htype =>
    Nat.lt_of_lt_of_le htype.lt_size hsize
  have horigin : ∀ T ∈ c.model.types, T.origin.Fits := by
    intro T hT
    cases horigin : T.origin with
    | rule key =>
      have hkey := hindexed.rules key (horigin ▸ List.mem_map_of_mem hT)
      rw [SortedMap.keys, hrules] at hkey
      cases hkey
    | element name => trivial
  constructor
  case types =>
    intro T hT
    obtain ⟨i, hi⟩ := List.mem_iff_getElem?.mp hT
    have hT' := h.draft.types i T hi
    constructor
    case id =>
      rw [hT'.id]
      exact hword ⟨T, hi⟩
    case origin => exact horigin T hT
    case members => exact fun x hx type htype => hword ((hT'.members x hx).content type htype)
    case parents =>
      intro parent hparent
      obtain ⟨-, key, hmade⟩ := hT'.parents parent hparent
      exact hword hmade.has
    case ascending => exact (hregular T hT).parents
  case names => exact hindexed.names
  case ids => exact fun e he => Nat.lt_of_lt_of_le (hindexed.ids e he) hsize
  case root => exact fun type htype => hword (h.root type htype)

/-- A model knows no rules when all that the entry reaches are inline. -/
theorem Finished.entries_eq_nil_iff (h : Finished t entry c) (hlisted : Listed c) :
    c.model.rules.entries = [] ↔ ∀ id key, ¬t.Materializes entry id key := by
  have hkeys : c.model.rules.entries = [] ↔ c.model.rules.keys = [] := List.map_eq_nil_iff.symm
  rw [hkeys, List.eq_nil_iff_forall_not_mem]
  constructor
  · intro hnone id key hmaterializes
    obtain ⟨type, hkeyed⟩ := h.exists_keyed_iff.mpr hmaterializes
    exact hnone key (hlisted.keys id key type hkeyed)
  · intro hnone key hkey
    obtain ⟨type, hget⟩ := c.model.rules.mem_keys_iff.mp hkey
    obtain ⟨id, hkeyed⟩ := hlisted.entries key type hget
    exact hnone id key (h.exists_keyed_iff.mp ⟨type, hkeyed⟩)

/-- A compiled model whose types can be counted in a word comes through JSON exactly where all rules
that the entry reaches are inline. Where one is not, the model is not written at all. -/
theorem survives_iff (hfresh : t.Fresh) (hstart : start t entry options tracer = .ok c)
    {m : Model} (hfinish : finish c = .ok m c') (hsize : m.size ≤ Json.wordLimit) :
    (m.Survives ↔ ∀ id key, ¬t.Materializes entry id key) ∧
      (m.toJson? = none ↔ ∃ id key, t.Materializes entry id key) := by
  have hlisted := listed_of_finish hfresh hstart hfinish
  obtain ⟨rfl, h⟩ := finished_of_finish hfresh hstart hfinish
  have hrules := h.entries_eq_nil_iff hlisted
  constructor
  · constructor
    · exact fun hsurvives => hrules.mp hsurvives.rules_eq_nil
    · intro hnone
      have hstarted := started_of_start hstart
      have hleads := leads_finish hfinish
      exact (h.generating.sound.fits (hleads.regular hstarted.regular)
        (hleads.indexed hstarted.indexed) hsize (hrules.mpr hnone)).survives (hrules.mpr hnone)
  · rw [Model.toJson?_eq_none_iff, ne_eq, hrules]
    simp only [not_forall, not_not]

end Compilation

/-- A document of one element, which holds another one with an attribute. -/
def RuleTable.nestedElements : RuleTable :=
  ⟨[(Rule.mentioned rootScope startName).define
      (.ofElement (.unqualified "doc")
        (.ofElement (.unqualified "item") (.ofAttribute (.unqualified "id") .text))) none]⟩

namespace Compilation

/-- The only rule is inline, so the model with the types of two elements survives. -/
theorem survives_nestedElements : RuleTable.nestedElements.Fresh ∧
    ∃ c m c', start .nestedElements 0 .standard .off = .ok c ∧ finish c = .ok m c' ∧
      m.size = 2 ∧ m.Survives := by
  have hfresh : RuleTable.nestedElements.Fresh := by decide
  have hok : succeedsWith .nestedElements 0 .standard .off (fun m _ => m.size = 2) = true := by
    decide +kernel
  obtain ⟨c, m, c', hstart, hfinish, hends⟩ := exists_of_succeedsWith hok
  have htwo : m.size = 2 := of_decide_eq_true hends
  have hsize : m.size ≤ Json.wordLimit := by
    rw [htwo]
    decide
  have hnone : ∀ id key, ¬RuleTable.nestedElements.Materializes 0 id key := by
    rintro id key ⟨-, rule, hrule, hinline, -⟩
    have hall : ∀ rule ∈ RuleTable.nestedElements.rules, rule.isInline = true := by decide
    rw [hall rule (RuleTable.mem_of_get? hrule)] at hinline
    cases hinline
  exact ⟨hfresh, c, m, c', hstart, hfinish, htwo,
    (survives_iff hfresh hstart hfinish hsize).1.mpr hnone⟩

end Compilation

/-- A document of nothing. -/
def RuleTable.emptyDocument : RuleTable :=
  ⟨[(Rule.mentioned rootScope startName).define (.empty .plain) none]⟩

namespace Compilation

/-- The start rule is not inline, so the model knows it and is not written. -/
theorem not_survives_emptyDocument : RuleTable.emptyDocument.Fresh ∧
    ∃ c m c', start .emptyDocument 0 .standard .off = .ok c ∧ finish c = .ok m c' ∧
      m.types = [.new 0 "Root" (.rule ⟨rootScope, startName⟩)] ∧
      m.rules.entries = [(⟨rootScope, startName⟩, 0)] ∧ m.toJson? = none ∧ ¬m.Survives := by
  have hfresh : RuleTable.emptyDocument.Fresh := by decide
  have hok : succeedsWith .emptyDocument 0 .standard .off (fun m _ =>
      m.types = [.new 0 "Root" (.rule ⟨rootScope, startName⟩)] ∧
      m.rules.entries = [(⟨rootScope, startName⟩, 0)]) = true := by
    decide +kernel
  obtain ⟨c, m, c', hstart, hfinish, hends⟩ := exists_of_succeedsWith hok
  obtain ⟨htypes, hrules⟩ := of_decide_eq_true hends
  have hne : m.rules.entries ≠ [] := by
    rw [hrules]
    exact List.cons_ne_nil _ _
  exact ⟨hfresh, c, m, c', hstart, hfinish, htypes, hrules, Model.toJson?_of_rules hne,
    fun h => hne h.rules_eq_nil⟩

end Compilation

end MarkupTypes
