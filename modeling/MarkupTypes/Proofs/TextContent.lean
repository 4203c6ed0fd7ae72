import Mathlib.Data.Set.Basic
import MarkupTypes.Proofs.Chains
import MarkupTypes.Proofs.Integrity

/-!
# Text content, exactly

A scan for text descends through unions, the items of lists and the patterns of rules
(`RuleTable.below`). It finds markup exactly if an attribute or an element is reached in this way,
and otherwise the types that the pattern takes (`RuleTable.Takes`) : those of the values that are
reached outside lists, and lists of what the items of lists take.

A scan does not enter a rule that it is inside of. Nothing is lost by that, because what is reached
through such a rule again is reached from its pattern without it (`RuleTable.Runs.without`), and
the scan of that pattern is still going on. Only where a rule is entered from a list in itself the
types that the scan goes on to find are not those of the list's items
(`RuleTable.ListsItself`).

All proofs follow the scan in the same way : down the patterns, and into rules until all are open
(`RuleTable.Chain.scanning`).
-/

namespace MarkupTypes

/-! ## Descending -/

namespace Pattern

/-- The pattern is an attribute or an element. -/
def isMarkup : Pattern → Bool
  | attr _ _ _ | elem _ _ _ => true
  | _ => false

/-- The rule that the pattern refers to. -/
def target? : Pattern → Option RuleId
  | ref _ id _ => some id
  | _ => none

end Pattern

namespace RuleTable

variable {t : RuleTable} {lists : Bool} {inside : List RuleId} {id : RuleId} {p q : Pattern}
  {types : List ValueType} {type : ValueType}

/-- What stands directly below a pattern : the members of a union, the item of a list if items of
lists count, and the pattern of the rule that is referred to. -/
def below (t : RuleTable) (lists : Bool) : Pattern → List Pattern
  | .union _ members => members
  | .list _ item => if lists then [item] else []
  | .ref _ id _ => ((t.get? id).bind Rule.pattern).toList
  | _ => []

/-- A pattern is reached from another one, if items of lists count through them too. -/
def Descends (t : RuleTable) (lists : Bool) : Pattern → Pattern → Prop :=
  Relation.ReflTransGen fun p q => q ∈ t.below lists p

/-- A pattern is reached from another one without going through certain rules. -/
def Runs (t : RuleTable) (lists : Bool) (inside : List RuleId) : Pattern → Pattern → Prop :=
  Relation.ReflTransGen fun p q => q ∈ t.below lists p ∧ ∀ id ∈ p.target?, id ∉ inside

theorem mem_below_ref {m : Mark} {label : Option String} :
    q ∈ t.below lists (.ref m id label) ↔ (t.get? id).bind Rule.pattern = some q :=
  Option.mem_toList

theorem Descends.throughLists (h : t.Descends false p q) : t.Descends true p q := by
  refine Relation.ReflTransGen.mono (fun p q hq => ?_) _ _ h
  cases p with
  | list => cases hq
  | _ => exact hq

theorem Runs.descends (h : t.Runs lists inside p q) : t.Descends lists p q :=
  Relation.ReflTransGen.mono (fun _ _ hq => hq.1) _ _ h

/-- What is reached from a pattern that does not lead to certain rules is reached without them. -/
theorem Descends.runs (h : t.Descends lists p q)
    (hinside : ∀ id ∈ inside, ∀ m label, ¬t.Descends lists p (.ref m id label)) :
    t.Runs lists inside p q := by
  induction h using Relation.ReflTransGen.head_induction_on with
  | refl => exact .refl
  | @head p p' hp _ ih =>
    refine .head ⟨hp, fun id hid hmem => ?_⟩ (ih fun id hid m label hdown => ?_)
    · cases p with
      | ref m id' label =>
        obtain rfl := Option.some.inj hid
        exact hinside id' hmem m label .refl
      | _ => cases hid
    · exact hinside id hid m label (.head hp hdown)

theorem runs_nil_iff : t.Runs lists [] p q ↔ t.Descends lists p q :=
  ⟨Runs.descends, fun h => h.runs fun _ hid => absurd hid List.not_mem_nil⟩

theorem Runs.weaken (h : t.Runs lists (id :: inside) p q) : t.Runs lists inside p q :=
  Relation.ReflTransGen.mono
    (fun _ _ hq => ⟨hq.1, fun i hi hmem => hq.2 i hi (List.mem_cons_of_mem _ hmem)⟩) _ _ h

/-- What is reached through a rule is reached from its pattern without the rule, by the way from
where the rule comes up last. -/
theorem Runs.without (h : t.Runs lists inside p q) (id : RuleId) :
    t.Runs lists (id :: inside) p q ∨
      ∃ p', (t.get? id).bind Rule.pattern = some p' ∧ t.Runs lists (id :: inside) p' q := by
  induction h using Relation.ReflTransGen.head_induction_on with
  | refl => exact .inl .refl
  | @head p p' hp _ ih =>
    rcases ih with hrest | hrest
    · by_cases htarget : p.target? = some id
      · cases p with
        | ref m id' label =>
          obtain rfl := Option.some.inj htarget
          exact .inr ⟨p', mem_below_ref.mp hp.1, hrest⟩
        | _ => cases htarget
      · refine .inl (.head ⟨hp.1, fun i hi hmem => ?_⟩ hrest)
        rcases List.mem_cons.mp hmem with rfl | hmem
        · exact htarget hi
        · exact hp.2 i hi hmem
    · exact .inr hrest

/-- A pattern with a property is reached without going through certain rules. -/
def Finds (t : RuleTable) (lists : Bool) (inside : List RuleId) (F : Pattern → Prop)
    (p : Pattern) : Prop :=
  ∃ q, t.Runs lists inside p q ∧ F q

variable {F : Pattern → Prop} {m : Mark} {label : Option String}

/-- It is the pattern itself, or it is reached from what stands below it. -/
theorem finds_iff : t.Finds lists inside F p ↔
    F p ∨ (∀ id ∈ p.target?, id ∉ inside) ∧ ∃ q ∈ t.below lists p, t.Finds lists inside F q := by
  constructor
  · rintro ⟨q, hrun, hq⟩
    rcases Relation.ReflTransGen.cases_head hrun with rfl | ⟨p', ⟨hp', hnew⟩, hrest⟩
    · exact .inl hq
    · exact .inr ⟨hnew, p', hp', q, hrest, hq⟩
  · rintro (hp | ⟨hnew, p', hp', q, hrest, hq⟩)
    · exact ⟨p, .refl, hp⟩
    · exact ⟨q, .head ⟨hp', hnew⟩ hrest, hq⟩

theorem finds_iff_of_below (h : t.below lists p = []) : t.Finds lists inside F p ↔ F p := by
  rw [finds_iff, h]
  simp

theorem finds_union_iff {ps : List Pattern} (hF : ¬F (.union m ps)) :
    t.Finds lists inside F (.union m ps) ↔ ∃ p ∈ ps, t.Finds lists inside F p := by
  rw [finds_iff, or_iff_right hF]
  exact and_iff_right fun _ hi => by cases hi

theorem finds_item_iff {item : Pattern} (hF : ¬F (.list m item)) :
    t.Finds true inside F (.list m item) ↔ t.Finds true inside F item := by
  rw [finds_iff, or_iff_right hF]
  simp [below, Pattern.target?]

/-- What is found through a rule is found from its pattern without the rule. -/
theorem finds_ref_iff (hF : ¬F (.ref m id label)) (hid : id ∉ inside)
    (hp : (t.get? id).bind Rule.pattern = some p) :
    t.Finds lists inside F (.ref m id label) ↔ t.Finds lists (id :: inside) F p := by
  rw [finds_iff, or_iff_right hF]
  constructor
  · rintro ⟨-, p', hp', q, hrun, hq⟩
    obtain rfl := Option.some.inj (hp.symm.trans (mem_below_ref.mp hp'))
    rcases hrun.without id with h | ⟨p', hp', h⟩
    · exact ⟨q, h, hq⟩
    · obtain rfl := Option.some.inj (hp.symm.trans hp')
      exact ⟨q, h, hq⟩
  · rintro ⟨q, hrun, hq⟩
    refine ⟨fun i hi => ?_, p, mem_below_ref.mpr hp, q, hrun.weaken, hq⟩
    obtain rfl := Option.some.inj hi
    exact hid

/-- Nothing is found through a rule that is not gone through, or that has no pattern. -/
theorem not_finds_ref (hF : ¬F (.ref m id label))
    (h : id ∈ inside ∨ (t.get? id).bind Rule.pattern = none) :
    ¬t.Finds lists inside F (.ref m id label) := by
  rw [finds_iff, or_iff_right hF]
  rintro ⟨hnew, p', hp', -⟩
  rcases h with hid | hnone
  · exact hnew id rfl hid
  · rw [mem_below_ref, hnone] at hp'
    cases hp'

/-! ## The scan inside rules -/

/-- A scan that is inside certain rules. -/
def scanInside (t : RuleTable) (inside : List RuleId) (p : Pattern) (types : List ValueType) :
    TextScan :=
  p.scan (t.followWithin (fun _ types => ⟨true, types⟩) (t.size + 1) inside) types

/-- A rule that a scan is inside of, or that has no pattern, is passed by. -/
theorem scanInside_ref_of_closed (m : Mark) (label : Option String)
    (h : id ∈ inside ∨ (t.get? id).bind Rule.pattern = none) :
    t.scanInside inside (.ref m id label) types = ⟨true, types⟩ := by
  rw [scanInside, Pattern.scan, followWithin]
  split
  · rfl
  · next hid => rw [h.resolve_left hid]

/-- Any other rule is entered. -/
theorem scanInside_ref_of_open (h : t.Chain inside) (m : Mark) (label : Option String)
    (hid : id ∉ inside) (hp : (t.get? id).bind Rule.pattern = some p) :
    t.scanInside inside (.ref m id label) types = t.scanInside (id :: inside) p types := by
  obtain ⟨rule, hrule, -⟩ := Option.bind_eq_some_iff.mp hp
  have hchain := h.cons hrule hid
  have hlength : (id :: inside).length = inside.length + 1 := rfl
  rw [scanInside, Pattern.scan, followWithin, if_neg hid, hp]
  exact congrArg (p.scan · types) (followWithin_eq_of_chain hchain (by omega) (by omega))

theorem closed_or_open (t : RuleTable) (inside : List RuleId) (id : RuleId) :
    (id ∈ inside ∨ (t.get? id).bind Rule.pattern = none) ∨
      id ∉ inside ∧ ∃ p, (t.get? id).bind Rule.pattern = some p := by
  rw [← Option.ne_none_iff_exists', ← not_or]
  exact em _

/-- The recursion of a scan : down a pattern, and into rules that it is not inside of. -/
@[elab_as_elim]
theorem Chain.scanning {motive : List RuleId → Pattern → Prop}
    (empty : ∀ inside m, motive inside (.empty m))
    (data : ∀ inside m type, motive inside (.data m type))
    (value : ∀ inside m type literal, motive inside (.value m type literal))
    (attr : ∀ inside m tag content, motive inside (.attr m tag content))
    (elem : ∀ inside m tag content, motive inside (.elem m tag content))
    (list : ∀ inside m item, t.Chain inside → motive inside item → motive inside (.list m item))
    (union : ∀ inside m ps, t.Chain inside → (∀ p ∈ ps, motive inside p) →
      motive inside (.union m ps))
    (ref : ∀ inside m id label, t.Chain inside →
      (id ∉ inside → ∀ p, (t.get? id).bind Rule.pattern = some p → motive (id :: inside) p) →
      motive inside (.ref m id label))
    {inside : List RuleId} (h : t.Chain inside) : ∀ p, motive inside p
  | .empty m => empty inside m
  | .data m type => data inside m type
  | .value m type literal => value inside m type literal
  | .attr m tag content => attr inside m tag content
  | .elem m tag content => elem inside m tag content
  | .list m item =>
    list inside m item h (h.scanning empty data value attr elem list union ref item)
  | .union m ps =>
    union inside m ps h fun p _ => h.scanning empty data value attr elem list union ref p
  | .ref m id label => ref inside m id label h fun hid p hp => by
    have hrule := Option.bind_eq_some_iff.mp hp
    have hcons : t.Chain (id :: inside) := hrule.elim fun _ hget => h.cons hget.1 hid
    have hroom : inside.length < t.size := hcons.length_le
    exact hcons.scanning empty data value attr elem list union ref p
termination_by p => (t.size - inside.length, sizeOf p)
decreasing_by
  · exact Prod.Lex.right _ (by simp only [Pattern.list.sizeOf_spec]; omega)
  · have hlt := List.sizeOf_lt_of_mem ‹_›
    exact Prod.Lex.right _ (by simp only [Pattern.union.sizeOf_spec]; omega)
  · exact Prod.Lex.left _ _ (by simp only [List.length_cons]; omega)

end RuleTable

/-! ## Several patterns in order -/

namespace Pattern

variable {follow : RuleId → List ValueType → TextScan}

theorem onlyText_scanAll_eq_false_iff {ps : List Pattern} {Marked : Pattern → Prop}
    (h : ∀ p ∈ ps, ∀ types, (p.scan follow types).onlyText = false ↔ Marked p)
    (types : List ValueType) :
    (scanAll follow ps types).onlyText = false ↔ ∃ p ∈ ps, Marked p := by
  induction ps generalizing types with
  | nil => simp [scanAll]
  | cons p ps ih =>
    obtain ⟨hp, hps⟩ := List.forall_mem_cons.mp h
    rw [List.exists_mem_cons_iff, ← hp types, ← ih hps (p.scan follow types).values, scanAll]
    cases hfirst : (p.scan follow types).onlyText with
    | false => simp [hfirst]
    | true => simp

theorem mem_values_scanAll_iff {ps : List Pattern} {Gives : Pattern → ValueType → Prop}
    (htext : ∀ p ∈ ps, ∀ types, (p.scan follow types).onlyText = true)
    (h : ∀ p ∈ ps, ∀ types type,
      type ∈ (p.scan follow types).values ↔ type ∈ types ∨ Gives p type)
    (types : List ValueType) (type : ValueType) :
    type ∈ (scanAll follow ps types).values ↔ type ∈ types ∨ ∃ p ∈ ps, Gives p type := by
  induction ps generalizing types with
  | nil => simp [scanAll]
  | cons p ps ih =>
    obtain ⟨hp, hps⟩ := List.forall_mem_cons.mp h
    obtain ⟨hptext, hpstext⟩ := List.forall_mem_cons.mp htext
    rw [scanAll, hptext types, if_pos rfl, ih hpstext hps, hp types type, or_assoc,
      List.exists_mem_cons_iff]

end Pattern

namespace TextScan

variable {types more : List ValueType} {type : ValueType}

theorem mem_addType_iff {new : ValueType} :
    type ∈ addType types new ↔ type ∈ types ∨ type = new := by
  unfold addType
  split
  · next hnew => exact ⟨.inl, fun h => h.elim id fun heq => heq ▸ hnew⟩
  · rw [List.mem_append, List.mem_singleton]

theorem mem_foldl_addType_iff :
    type ∈ more.foldl addType types ↔ type ∈ types ∨ type ∈ more := by
  induction more generalizing types with
  | nil => simp
  | cons new more ih => rw [List.foldl_cons, ih, mem_addType_iff, or_assoc, List.mem_cons]

end TextScan

/-! ## Markup -/

namespace RuleTable

variable {t : RuleTable} {inside : List RuleId} {id : RuleId} {p : Pattern}

/-- A scan finds markup exactly if it reaches an attribute or an element. -/
theorem Chain.onlyText_eq_false_iff (h : t.Chain inside) (p : Pattern) :
    ∀ types, (t.scanInside inside p types).onlyText = false ↔
      t.Finds true inside (·.isMarkup = true) p := by
  refine h.scanning ?empty ?data ?value ?attr ?elem ?list ?union ?ref p
  case empty => exact fun _ _ _ => iff_of_false nofun ((finds_iff_of_below rfl).not.mpr nofun)
  case data => exact fun _ _ _ _ => iff_of_false nofun ((finds_iff_of_below rfl).not.mpr nofun)
  case value => exact fun _ _ _ _ _ => iff_of_false nofun ((finds_iff_of_below rfl).not.mpr nofun)
  case attr => exact fun _ _ _ _ _ => iff_of_true rfl ⟨_, .refl, rfl⟩
  case elem => exact fun _ _ _ _ _ => iff_of_true rfl ⟨_, .refl, rfl⟩
  case list =>
    intro inside m item _ ih types
    rw [finds_item_iff nofun, ← ih [], scanInside, Pattern.scan, scanInside]
    cases (item.scan _ []).onlyText <;> simp
  case union =>
    intro inside m ps _ ih types
    rw [finds_union_iff nofun]
    exact Pattern.onlyText_scanAll_eq_false_iff ih types
  case ref =>
    intro inside m id label hchain ih types
    rcases t.closed_or_open inside id with hclosed | ⟨hid, p, hp⟩
    · rw [scanInside_ref_of_closed m label hclosed]
      exact iff_of_false nofun (not_finds_ref nofun hclosed)
    · rw [scanInside_ref_of_open hchain m label hid hp, finds_ref_iff nofun hid hp]
      exact ih hid p hp types

end RuleTable

/-! ## Types of values -/

/-- The types of items, where text stands in if there are none. -/
def orText (types : Set ValueType) : Set ValueType :=
  {type | type ∈ types ∨ types = ∅ ∧ type = .text}

/-- The types that a pattern has by itself, where those of items of lists are given. -/
def Pattern.ownTypes (itemTypes : Pattern → Set ValueType) : Pattern → Set ValueType
  | data _ type => {type}
  | value _ type _ => {type}
  | list _ item => Set.image .list (orText (itemTypes item))
  | _ => ∅

theorem TextScan.mem_listTypes_iff {items : List ValueType} {type : ValueType} :
    type ∈ listTypes items ↔ type ∈ Set.image .list (orText {u | u ∈ items}) := by
  rw [listTypes, List.mem_map, Set.mem_image]
  refine exists_congr fun u => and_congr_left fun _ => ?_
  cases items with
  | nil => simp [orText]
  | cons first items =>
    have hne : {u | u ∈ first :: items} ≠ (∅ : Set ValueType) :=
      Set.nonempty_iff_ne_empty.mp ⟨first, List.mem_cons_self⟩
    exact ⟨.inl, fun h => h.elim id fun hempty => absurd hempty.1 hne⟩

namespace RuleTable

/-- The types that a pattern takes : those of data and values that are reached outside lists, and
lists, where they are reached, of the types that their items take, or of text. -/
inductive Takes (t : RuleTable) : Pattern → Set ValueType → Prop where
  | intro {p : Pattern} (itemTypes : Pattern → Set ValueType)
    (hitems : ∀ m item, t.Descends false p (.list m item) → Takes t item (itemTypes item)) :
    Takes t p {type | ∃ q, t.Descends false p q ∧ type ∈ q.ownTypes itemTypes}

/-- The types that a pattern takes, if it is known which. -/
def takenBy (t : RuleTable) (p : Pattern) : Set ValueType :=
  {type | ∃ types, t.Takes p types ∧ type ∈ types}

/-- A rule leads back to itself through an item of a list. -/
def ListsItself (t : RuleTable) (id : RuleId) : Prop :=
  ∃ p m item n label, (t.get? id).bind Rule.pattern = some p ∧
    t.Descends true p (.list m item) ∧ t.Descends true item (.ref n id label)

/-- What a scan meets when it comes to a pattern : no markup, no rule that leads back to itself
through a list, and in items of lists no rule that it is inside of. -/
structure Legible (t : RuleTable) (inside : List RuleId) (p : Pattern) : Prop where
  text : ∀ q, t.Descends true p q → q.isMarkup = false
  unlisted : ∀ m id label, t.Descends true p (.ref m id label) → ¬t.ListsItself id
  outside : ∀ id ∈ inside, ∀ m item, t.Descends false p (.list m item) →
    ∀ n label, ¬t.Descends true item (.ref n id label)

variable {t : RuleTable} {inside : List RuleId} {id : RuleId} {p q : Pattern}
  {types types' : Set ValueType}

theorem Takes.unique (h : t.Takes p types) (h' : t.Takes p types') : types = types' := by
  induction h generalizing types' with
  | @intro p itemTypes _ ih =>
    cases h' with
    | intro itemTypes' hitems' =>
      refine Set.ext fun type => exists_congr fun q => and_congr_right fun hq => ?_
      cases q with
      | list m item => rw [Pattern.ownTypes, Pattern.ownTypes, ih m item hq (hitems' m item hq)]
      | _ => rfl

theorem Takes.takenBy_eq (h : t.Takes p types) : t.takenBy p = types := by
  refine Set.ext fun type => ⟨?_, fun htype => ⟨types, h, htype⟩⟩
  rintro ⟨types', h', htype⟩
  rwa [h.unique h']

/-- It is known what a pattern takes if it is known what items take. -/
theorem takes_of_items
    (h : ∀ m item, t.Descends false p (.list m item) → ∃ types, t.Takes item types) :
    t.Takes p {type | ∃ q, t.Descends false p q ∧ type ∈ q.ownTypes t.takenBy} :=
  .intro t.takenBy fun m item hitem => by
    obtain ⟨types, htypes⟩ := h m item hitem
    rwa [htypes.takenBy_eq]

/-- What a scan meets when it goes on. -/
theorem Legible.below (h : t.Legible inside p) (hq : q ∈ t.below true p) :
    t.Legible (p.target?.toList ++ inside) q where
  text x hx := h.text x (.head hq hx)
  unlisted m id label hx := h.unlisted m id label (.head hq hx)
  outside := by
    intro id hid n item hitem k label hback
    rcases List.mem_append.mp hid with htarget | hinside
    · cases p with
      | ref m id' label' =>
        obtain rfl := List.mem_singleton.mp htarget
        exact h.unlisted m id label' .refl
          ⟨q, n, item, k, label, mem_below_ref.mp hq, hitem.throughLists, hback⟩
      | _ => cases htarget
    · cases p with
      | list m item' =>
        obtain rfl := List.mem_singleton.mp hq
        refine h.outside id hinside m q .refl k label (hitem.throughLists.trans (.head ?_ hback))
        exact List.mem_singleton_self item
      | _ => exact h.outside id hinside n item (.head hq hitem) k label hback

theorem Legible.onlyText (h : t.Legible inside p) (hchain : t.Chain inside)
    (found : List ValueType) : (t.scanInside inside p found).onlyText = true := by
  refine eq_true_of_ne_false fun hmarkup => ?_
  obtain ⟨q, hrun, hq⟩ := (hchain.onlyText_eq_false_iff p found).mp hmarkup
  rw [h.text q hrun.descends] at hq
  cases hq

/-- A list of which it is not known what its item takes. -/
def Obscure (t : RuleTable) (p : Pattern) : Prop :=
  ∃ m item, p = .list m item ∧ ¬∃ types, t.Takes item types

/-- A scan of text comes to know what the items of lists take, and finds the types that the patterns
have that it reaches outside lists. -/
theorem Chain.mem_values_iff (h : t.Chain inside) (p : Pattern) : t.Legible inside p →
    ¬t.Finds false inside t.Obscure p ∧
    ∀ found type, type ∈ (t.scanInside inside p found).values ↔
      type ∈ found ∨ t.Finds false inside (type ∈ ·.ownTypes t.takenBy) p := by
  refine h.scanning ?empty ?data ?value ?attr ?elem ?list ?union ?ref p
  case empty =>
    intro inside m _
    refine ⟨(finds_iff_of_below rfl).not.mpr nofun, fun found type => ?_⟩
    rw [finds_iff_of_below rfl]
    exact (or_iff_left nofun).symm
  case data =>
    intro inside m own _
    refine ⟨(finds_iff_of_below rfl).not.mpr nofun, fun found type => ?_⟩
    rw [finds_iff_of_below rfl]
    exact TextScan.mem_addType_iff
  case value =>
    intro inside m own literal _
    refine ⟨(finds_iff_of_below rfl).not.mpr nofun, fun found type => ?_⟩
    rw [finds_iff_of_below rfl]
    exact TextScan.mem_addType_iff
  case attr => exact fun _ _ _ _ hlegible => absurd (hlegible.text _ .refl) nofun
  case elem => exact fun _ _ _ _ hlegible => absurd (hlegible.text _ .refl) nofun
  case list =>
    intro inside m item hchain ih hlegible
    have hitem : t.Legible inside item := hlegible.below (List.mem_singleton_self item)
    obtain ⟨hclear, hvalues⟩ := ih hitem
    -- the item leads to no rule that the scan is inside of, so the scan passes nothing by in it
    have houtside : ∀ id ∈ inside, ∀ n label, ¬t.Descends false item (.ref n id label) :=
      fun id hid n label hback => hlegible.outside id hid m item .refl n label hback.throughLists
    have htakes := takes_of_items fun n item' hlist => by_contra fun hobscure =>
      hclear ⟨.list n item', Descends.runs hlist houtside, n, item', rfl, hobscure⟩
    have htaken : t.takenBy item = {u | u ∈ (t.scanInside inside item []).values} := by
      refine htakes.takenBy_eq.trans (Set.ext fun u => ?_)
      refine Iff.trans ?_ ((hvalues [] u).trans (or_iff_right List.not_mem_nil)).symm
      exact exists_congr fun q => and_congr_left fun _ =>
        ⟨fun hdown => hdown.runs houtside, Runs.descends⟩
    refine ⟨?_, fun found type => ?_⟩
    · rw [finds_iff_of_below rfl]
      rintro ⟨n, item', heq, hobscure⟩
      cases heq
      exact hobscure ⟨_, htakes⟩
    · have hscan : t.scanInside inside (.list m item) found = ⟨true,
          (TextScan.listTypes (t.scanInside inside item []).values).foldl TextScan.addType found⟩ :=
        if_pos (hitem.onlyText hchain [])
      rw [finds_iff_of_below rfl, hscan, TextScan.mem_foldl_addType_iff,
        TextScan.mem_listTypes_iff, ← htaken]
      rfl
  case union =>
    intro inside m ps hchain ih hlegible
    have hmember : ∀ p ∈ ps, t.Legible inside p := fun p hp => hlegible.below hp
    refine ⟨?_, fun found type => ?_⟩
    · rw [finds_union_iff nofun]
      rintro ⟨p, hp, hfinds⟩
      exact (ih p hp (hmember p hp)).1 hfinds
    · rw [finds_union_iff nofun]
      exact Pattern.mem_values_scanAll_iff (fun p hp => (hmember p hp).onlyText hchain)
        (fun p hp => (ih p hp (hmember p hp)).2) found type
  case ref =>
    intro inside m id label hchain ih hlegible
    rcases t.closed_or_open inside id with hclosed | ⟨hid, p, hp⟩
    · refine ⟨not_finds_ref nofun hclosed, fun found type => ?_⟩
      rw [scanInside_ref_of_closed m label hclosed]
      exact (or_iff_left (not_finds_ref nofun hclosed)).symm
    · obtain ⟨hclear, hvalues⟩ := ih hid p hp (hlegible.below (mem_below_ref.mpr hp))
      refine ⟨by rwa [finds_ref_iff nofun hid hp], fun found type => ?_⟩
      rw [finds_ref_iff nofun hid hp, scanInside_ref_of_open hchain m label hid hp]
      exact hvalues found type

/-- What a scan tells about a pattern, after the types of `found` were met. -/
structure ExactScan (t : RuleTable) (p : Pattern) (found : List ValueType) (scan : TextScan) :
    Prop where
  /-- The scan ends by itself : what it would do any deeper than there are rules makes no
  difference. -/
  ends : ∀ beyond n, t.size < n → p.scan (t.followWithin beyond n []) found = scan
  onlyText_iff : scan.onlyText = true ↔ ∀ q, t.Descends true p q → q.isMarkup = false
  nodup : found.Nodup → scan.values.Nodup
  /-- The types of a text are those that the pattern takes, if no rule that is reached leads back
  to itself through a list. -/
  values : scan.onlyText = true →
    (∀ m id label, t.Descends true p (.ref m id label) → ¬t.ListsItself id) →
    ∃ types, t.Takes p types ∧ ∀ type, type ∈ scan.values ↔ type ∈ found ∨ type ∈ types

/-- Whatever the rules are, the scan of a pattern tells text from markup exactly, and which types
the text takes. -/
theorem exactScan (t : RuleTable) (p : Pattern) (found : List ValueType) :
    t.ExactScan p found (p.scan t.follow found) := by
  have hscan : p.scan t.follow found = t.scanInside [] p found := rfl
  have honly : (p.scan t.follow found).onlyText = true ↔
      ∀ q, t.Descends true p q → q.isMarkup = false := by
    rw [← not_iff_not, Bool.not_eq_true, hscan, Chain.nil.onlyText_eq_false_iff p found]
    simp [Finds, runs_nil_iff]
  refine ⟨fun beyond n hn => by rw [t.followWithin_eq beyond hn], honly, ?_, ?_⟩
  · exact p.nodup_scan fun id _ h => t.nodup_followWithin (fun _ _ h => h) _ [] id h
  · intro htext hunlisted
    have hlegible : t.Legible [] p := ⟨honly.mp htext, hunlisted, fun _ hid => by cases hid⟩
    obtain ⟨hclear, hvalues⟩ := Chain.nil.mem_values_iff p hlegible
    have htakes := takes_of_items fun m item hlist => by_contra fun hobscure =>
      hclear ⟨.list m item, runs_nil_iff.mpr hlist, m, item, rfl, hobscure⟩
    refine ⟨_, htakes, fun type => ?_⟩
    rw [hscan, hvalues]
    exact or_congr_right (exists_congr fun q => and_congr_left fun _ => runs_nil_iff)

theorem Descends.mem_of_closed {lists : Bool} {ps : List Pattern}
    (hps : ∀ p ∈ ps, ∀ q ∈ t.below lists p, q ∈ ps) (hp : p ∈ ps) (h : t.Descends lists p q) :
    q ∈ ps := by
  induction h with
  | refl => exact hp
  | tail _ hstep ih => exact hps _ ih _ hstep

/-- A number is an integer or a decimal number, or a number again. -/
def number : Pattern := .union .plain [.data .plain .int, .data .plain .decimal, .ofRule 0]

/-- The rule for numbers alone. -/
def numbers : RuleTable := ⟨[(Rule.mentioned rootScope "number").define number none]⟩

/-- A list of numbers is text though the rule for numbers leads back to itself, and it takes lists
of both kinds of numbers. -/
theorem exactScan_numbers :
    numbers.scan (.list .plain (.ofRule 0)) = ⟨true, [.list .int, .list .decimal]⟩ ∧
    (∀ m id label, numbers.Descends true (.list .plain (.ofRule 0)) (.ref m id label) →
      ¬numbers.ListsItself id) ∧
    ∃ types, numbers.Takes (.list .plain (.ofRule 0)) types ∧
      ∀ type, type ∈ types ↔ type ∈ [.list .int, (.list .decimal : ValueType)] := by
  have hscan : numbers.scan (.list .plain (.ofRule 0)) =
      ⟨true, [.list .int, .list .decimal]⟩ := by decide
  have hunlisted : ∀ id, ¬numbers.ListsItself id := by
    rintro id ⟨p, m, item, n, label, hp, hlist, -⟩
    obtain rfl : p = number := by
      cases id with
      | zero => exact (Option.some.inj hp).symm
      | succ id => cases hp
    have hmem : Pattern.list m item ∈
        [number, .data .plain .int, .data .plain .decimal, .ofRule 0] :=
      hlist.mem_of_closed (by decide) (by decide)
    simp [number, Pattern.ofRule] at hmem
  have htext : (numbers.scan (.list .plain (.ofRule 0))).onlyText = true := by rw [hscan]
  obtain ⟨types, htakes, htypes⟩ := (numbers.exactScan (.list .plain (.ofRule 0)) []).values htext
    fun _ id _ _ => hunlisted id
  refine ⟨hscan, fun _ id _ _ => hunlisted id, types, htakes, fun type => ?_⟩
  have hvalues : (numbers.scan (.list .plain (.ofRule 0))).values =
      [.list .int, .list .decimal] := by rw [hscan]
  rw [← hvalues]
  exact ((htypes type).trans (or_iff_right List.not_mem_nil)).symm

end RuleTable

end MarkupTypes
