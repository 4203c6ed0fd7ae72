import Mathlib.Data.List.Induction
import MarkupTypes.Pattern.Construct
import MarkupTypes.Proofs.Slotwise

/-!
# The names of a class

A class is looked at in three ways, which agree because all of them look at the same parts : the
names and the wildcards that are reached through choices alone (`NameClass.leaves`). A class
contains what one of them contains (`NameClass.contains_eq_any`), it is finite if none of them is a
wildcard (`NameClass.isFinite_eq_all`), and what it lists are the names among them, in the order in
which they come up first (`NameClass.names_eq`).

An attribute or an element of a class is one node for each name that is listed
(`Pattern.fansOut_perName`). The nodes are merged, but no two of them have one name, so that each
gets a slot of its own (`Pattern.ofChildren_merge`) and none is changed.
-/

namespace MarkupTypes

namespace NameClass

mutual

/-- The names and the wildcards that a class has outside exceptions, in order. -/
def leaves : NameClass → List NameClass
  | choice alternatives => leavesAll alternatives
  | c => [c]

/-- The names and the wildcards that several classes have outside exceptions. -/
def leavesAll : List NameClass → List NameClass
  | [] => []
  | c :: cs => c.leaves ++ leavesAll cs

end

/-- The name that a class consists of. -/
def name? : NameClass → Option QName
  | name q => some q
  | _ => none

/-- A class of all names, or of all names of a namespace, but for exceptions. -/
def isWildcard : NameClass → Bool
  | any | anyExcept _ | space _ | spaceExcept _ _ => true
  | name _ | choice _ => false

/-- The names that a class has outside wildcards, in order and as often as they occur. -/
def mentioned (c : NameClass) : List QName := c.leaves.filterMap name?

/-! ## Three views of the leaves -/

mutual

theorem contains_eq_any (q : QName) : ∀ c : NameClass,
    c.contains q = c.leaves.any fun d => d.contains q
  | choice alternatives => by rw [contains, leaves, anyContains_eq_any q alternatives]
  | name _ => by simp [leaves]
  | any => by simp [leaves]
  | anyExcept _ => by simp [leaves]
  | space _ => by simp [leaves]
  | spaceExcept _ _ => by simp [leaves]

theorem anyContains_eq_any (q : QName) : ∀ cs : List NameClass,
    anyContains q cs = (leavesAll cs).any fun d => d.contains q
  | [] => rfl
  | c :: cs => by
    rw [anyContains, leavesAll, List.any_append, contains_eq_any q c, anyContains_eq_any q cs]

end

mutual

theorem isFinite_eq_all : ∀ c : NameClass, c.isFinite = c.leaves.all fun d => !d.isWildcard
  | choice alternatives => by rw [isFinite, leaves, allFinite_eq_all alternatives]
  | name _ => rfl
  | any => rfl
  | anyExcept _ => rfl
  | space _ => rfl
  | spaceExcept _ _ => rfl

theorem allFinite_eq_all : ∀ cs : List NameClass,
    allFinite cs = (leavesAll cs).all fun d => !d.isWildcard
  | [] => rfl
  | c :: cs => by
    rw [allFinite, leavesAll, List.all_append, isFinite_eq_all c, allFinite_eq_all cs]

end

mutual

/-- A leaf is a wildcard or a name. -/
theorem eq_name_of_mem_leaves : ∀ (c : NameClass) {d : NameClass}, d ∈ c.leaves →
    d.isWildcard = false → ∃ q, d = name q
  | choice alternatives, _, hd, hwild => eq_name_of_mem_leavesAll alternatives hd hwild
  | name q, _, hd, _ => ⟨q, List.mem_singleton.mp hd⟩
  | any, _, hd, hwild => by cases List.mem_singleton.mp hd; cases hwild
  | anyExcept _, _, hd, hwild => by cases List.mem_singleton.mp hd; cases hwild
  | space _, _, hd, hwild => by cases List.mem_singleton.mp hd; cases hwild
  | spaceExcept _ _, _, hd, hwild => by cases List.mem_singleton.mp hd; cases hwild

theorem eq_name_of_mem_leavesAll : ∀ (cs : List NameClass) {d : NameClass}, d ∈ leavesAll cs →
    d.isWildcard = false → ∃ q, d = name q
  | c :: cs, _, hd, hwild => by
    rcases List.mem_append.mp hd with hd | hd
    · exact eq_name_of_mem_leaves c hd hwild
    · exact eq_name_of_mem_leavesAll cs hd hwild

end

theorem leaves_of_isWildcard {c : NameClass} (h : c.isWildcard = true) : c.leaves = [c] := by
  cases c <;> first | rfl | cases h

/-! ## What is listed -/

theorem eraseDups_concat (seen : List QName) (q : QName) :
    (seen ++ [q]).eraseDups = if q ∈ seen then seen.eraseDups else seen.eraseDups ++ [q] := by
  rw [List.eraseDups_append]
  split
  · next hq => simp [List.removeAll, hq]
  · next hq => simp [List.removeAll, hq, List.eraseDups_cons]

theorem mentioned_of_isWildcard {c : NameClass} (h : c.isWildcard = true) : c.mentioned = [] := by
  rw [mentioned, leaves_of_isWildcard h]
  cases c <;> first | rfl | cases h

mutual

/-- Each name is taken up where it comes up first. -/
theorem collect_eq : ∀ (c : NameClass) (seen : List QName),
    c.collect seen.eraseDups = (seen ++ c.mentioned).eraseDups
  | choice alternatives, seen => collectAll_eq alternatives seen
  | name q, seen => by
    have hmentioned : (name q).mentioned = [q] := rfl
    rw [hmentioned, eraseDups_concat, collect]
    simp only [List.mem_eraseDups]
  | any, seen => by rw [mentioned_of_isWildcard rfl, List.append_nil, collect]
  | anyExcept _, seen => by rw [mentioned_of_isWildcard rfl, List.append_nil, collect]
  | space _, seen => by rw [mentioned_of_isWildcard rfl, List.append_nil, collect]
  | spaceExcept _ _, seen => by rw [mentioned_of_isWildcard rfl, List.append_nil, collect]

theorem collectAll_eq : ∀ (cs : List NameClass) (seen : List QName),
    collectAll cs seen.eraseDups = (seen ++ (leavesAll cs).filterMap name?).eraseDups
  | [], seen => by rw [collectAll, leavesAll, List.filterMap_nil, List.append_nil]
  | c :: cs, seen => by
    rw [collectAll, collect_eq c seen, collectAll_eq cs, mentioned, leavesAll,
      List.filterMap_append, List.append_assoc]

end

/-- What is listed are the names outside wildcards, without repetitions. -/
theorem names_eq (c : NameClass) : c.names = c.mentioned.eraseDups := c.collect_eq []

theorem mem_mentioned_iff {c : NameClass} {q : QName} : q ∈ c.mentioned ↔ name q ∈ c.leaves := by
  rw [mentioned, List.mem_filterMap]
  refine ⟨?_, fun h => ⟨name q, h, rfl⟩⟩
  rintro ⟨d, hd, hname⟩
  cases d with
  | name r => exact Option.some.inj hname ▸ hd
  | _ => cases hname

theorem mem_names_iff {c : NameClass} {q : QName} : q ∈ c.names ↔ name q ∈ c.leaves := by
  rw [names_eq, List.mem_eraseDups, mem_mentioned_iff]

/-- Names without repetitions stand in the order in which they come up first. -/
theorem pairwise_eraseDups (qs : List QName) :
    qs.eraseDups.Pairwise fun a b => qs.idxOf a < qs.idxOf b := by
  induction qs using List.reverseRecOn with
  | nil => exact .nil
  | append_singleton qs q ih =>
    have hkept : qs.eraseDups.Pairwise fun a b => (qs ++ [q]).idxOf a < (qs ++ [q]).idxOf b := by
      refine ih.imp_of_mem fun ha hb hab => ?_
      rwa [List.idxOf_append_of_mem (List.mem_eraseDups.mp ha),
        List.idxOf_append_of_mem (List.mem_eraseDups.mp hb)]
    rw [eraseDups_concat]
    split
    · exact hkept
    · next hq =>
      refine List.pairwise_append.mpr ⟨hkept, List.pairwise_singleton _ _, fun a ha b hb => ?_⟩
      rw [List.mem_singleton.mp hb, List.idxOf_append_of_mem (List.mem_eraseDups.mp ha),
        List.idxOf_append_of_notMem hq]
      exact Nat.lt_add_right _ (List.idxOf_lt_length_iff.mpr (List.mem_eraseDups.mp ha))

theorem nodup_names (c : NameClass) : c.names.Nodup := by
  rw [names_eq]
  refine (pairwise_eraseDups _).imp fun hlt heq => ?_
  rw [heq] at hlt
  exact Nat.lt_irrefl _ hlt

/-! ## Listing and membership -/

/-- A name of a class is listed, or it is of a wildcard. -/
theorem contains_iff {c : NameClass} {q : QName} : c.contains q = true ↔
    q ∈ c.names ∨ ∃ d ∈ c.leaves, d.isWildcard = true ∧ d.contains q = true := by
  rw [contains_eq_any, List.any_eq_true, mem_names_iff]
  constructor
  · rintro ⟨d, hd, hq⟩
    cases hwild : d.isWildcard with
    | true => exact .inr ⟨d, hd, hwild, hq⟩
    | false =>
      obtain ⟨r, rfl⟩ := eq_name_of_mem_leaves c hd hwild
      obtain rfl : r = q := of_decide_eq_true hq
      exact .inl hd
  · rintro (hq | ⟨d, hd, -, hq⟩)
    · exact ⟨name q, hq, decide_eq_true rfl⟩
    · exact ⟨d, hd, hq⟩

theorem isFinite_iff {c : NameClass} :
    c.isFinite = true ↔ ∀ d ∈ c.leaves, d.isWildcard = false := by
  rw [isFinite_eq_all, List.all_eq_true]
  simp only [Bool.not_eq_true']

/-- A class contains all names that it lists, and a name that it contains without listing it is of
a wildcard that is reached through choices alone, so that a finite class contains what it lists and
nothing else. -/
theorem listing_agrees (c : NameClass) :
    (∀ q ∈ c.names, c.contains q = true) ∧
    (c.isFinite = true → ∀ q, c.contains q = true ↔ q ∈ c.names) ∧
    ∀ q, c.contains q = true → q ∉ c.names →
      (∃ d ∈ c.leaves, d.isWildcard = true ∧ d.contains q = true) ∧ c.isFinite = false := by
  have hwild : ∀ q, c.contains q = true → q ∉ c.names →
      ∃ d ∈ c.leaves, d.isWildcard = true ∧ d.contains q = true := fun q hq hnames =>
    (contains_iff.mp hq).resolve_left hnames
  have hinfinite : (∃ d ∈ c.leaves, d.isWildcard = true) → c.isFinite = false := by
    rintro ⟨d, hd, hdwild⟩
    refine Bool.eq_false_iff.mpr fun hfinite => ?_
    rw [isFinite_iff.mp hfinite d hd] at hdwild
    cases hdwild
  refine ⟨fun q hq => contains_iff.mpr (.inl hq), fun hfinite q => ?_, fun q hq hnames => ?_⟩
  · refine ⟨fun hq => (contains_iff.mp hq).resolve_right ?_, fun hq => contains_iff.mpr (.inl hq)⟩
    rintro ⟨d, hd, hdwild, -⟩
    rw [hinfinite ⟨d, hd, hdwild⟩] at hfinite
    cases hfinite
  · obtain ⟨d, hd, hdwild, hdq⟩ := hwild q hq hnames
    exact ⟨⟨d, hd, hdwild, hdq⟩, hinfinite ⟨d, hd, hdwild⟩⟩

/-- Two names, one of them twice. -/
def titles : NameClass :=
  .choice [.name (.unqualified "title"),
    .choice [.name ⟨"urn:a", "name"⟩, .name (.unqualified "title")]]

/-- The names of `titles`, and those of a namespace but for one of them. -/
def titlesBeside : NameClass :=
  .choice [titles, .choice [.spaceExcept "urn:b" (.name ⟨"urn:b", "title"⟩), unreadable]]

/-- What is finite lists all its names, and a name that is not listed is of the wildcard. -/
theorem listing_agrees_titles :
    (titles.isFinite = true ∧ ∀ q, titles.contains q = true ↔ q ∈ titles.names) ∧
    ⟨"urn:a", "name"⟩ ∈ titlesBeside.names ∧ titlesBeside.contains ⟨"urn:a", "name"⟩ = true ∧
    titlesBeside.contains ⟨"urn:b", "name"⟩ = true ∧ ⟨"urn:b", "name"⟩ ∉ titlesBeside.names ∧
    (∃ d ∈ titlesBeside.leaves, d.isWildcard = true ∧ d.contains ⟨"urn:b", "name"⟩ = true) ∧
    titlesBeside.isFinite = false := by
  have hfinite : titles.isFinite = true := by decide
  have hlisted : (⟨"urn:a", "name"⟩ : QName) ∈ titlesBeside.names := by decide
  have hof : titlesBeside.contains ⟨"urn:b", "name"⟩ = true := by decide
  have hunlisted : (⟨"urn:b", "name"⟩ : QName) ∉ titlesBeside.names := by decide
  exact ⟨⟨hfinite, (listing_agrees titles).2.1 hfinite⟩, hlisted,
    (listing_agrees titlesBeside).1 _ hlisted, hof, hunlisted,
    (listing_agrees titlesBeside).2.2 _ hof hunlisted⟩

end NameClass

/-! ## One node for each name -/

namespace Pattern

variable {ps nodes : List Pattern} {b p : Pattern} {location : Option Location}

theorem location_atLocation (p : Pattern) (location : Option Location) :
    (p.atLocation location).location = location := by
  cases p <;> rfl

theorem sign?_withMark (m : Mark) (p : Pattern) : (p.withMark m).sign? = p.sign? := by
  cases p <;> rfl

theorem isSingle_of_sign? {sign : MemberKey ⊕ RuleId} (h : p.sign? = some sign) :
    p.isSingle = true := by
  cases p <;> first | rfl | cases h

theorem isEmpty_of_isSingle (h : p.isSingle = true) : p.isEmpty = false := by
  cases p <;> first | rfl | cases h

/-- What stands apart from all children of a pattern becomes one more child of it. -/
theorem ofChildren_merge (hne : ps ≠ [])
    (hps : ∀ p ∈ ps, p.isSingle = true ∧ p.location = location) (hb : b.isSingle = true)
    (hapart : ∀ p ∈ ps, p.sign? ≠ b.sign?) :
    (ofChildren location ps).merge b = ofChildren location (ps ++ [b]) := by
  have hstart : (ofChildren location ps).isEmpty = false ∧
      (ofChildren location ps).location = location := by
    unfold ofChildren
    split
    · next p =>
      obtain ⟨hp, hlocation⟩ := hps p List.mem_cons_self
      exact ⟨isEmpty_of_isSingle hp, hlocation⟩
    · exact ⟨rfl, rfl⟩
  rw [merge_of_not_isEmpty _ (isEmpty_of_isSingle hb), extend, hstart.1,
    if_neg Bool.false_ne_true, hstart.2, children_ofChildren location fun p hp => (hps p hp).1,
    children_of_isSingle hb, bringAll, bringAll, bring_eq_place, place_eq_append _ hapart]

/-- Nodes that stand apart from each other are the children of what they merge to. -/
theorem foldl_merge_ofChildren (hne : ps ≠ [])
    (hnodes : ∀ p ∈ ps ++ nodes, p.isSingle = true ∧ p.location = location)
    (hapart : (ps ++ nodes).Pairwise fun a b => a.sign? ≠ b.sign?) :
    nodes.foldl merge (ofChildren location ps) = ofChildren location (ps ++ nodes) := by
  induction nodes generalizing ps with
  | nil => rw [List.foldl_nil, List.append_nil]
  | cons b nodes ih =>
    have hps : ∀ p ∈ ps, p.isSingle = true ∧ p.location = location := fun p hp =>
      hnodes p (List.mem_append_left _ hp)
    have hb : b.isSingle = true :=
      (hnodes b (List.mem_append_right _ List.mem_cons_self)).1
    have hsigns : ∀ p ∈ ps, p.sign? ≠ b.sign? := fun p hp =>
      (List.pairwise_append.mp hapart).2.2 p hp b List.mem_cons_self
    rw [List.append_cons] at hnodes hapart ⊢
    rw [List.foldl_cons, ofChildren_merge hne hps hb hsigns]
    exact ih (List.append_ne_nil_of_right_ne_nil _ (List.cons_ne_nil _ _)) hnodes hapart

theorem mergeAll?_apart (hne : nodes ≠ [])
    (hnodes : ∀ p ∈ nodes, p.isSingle = true ∧ p.location = location)
    (hapart : nodes.Pairwise fun a b => a.sign? ≠ b.sign?) :
    mergeAll? nodes = some (ofChildren location nodes) := by
  cases nodes with
  | nil => exact absurd rfl hne
  | cons p nodes =>
    exact congrArg some (foldl_merge_ofChildren (List.cons_ne_nil p []) hnodes hapart)

/-- A pattern has one node for each name of a class, in order : the empty pattern for no name, the
node itself for a single name, and the union of the nodes for several. -/
structure FansOut (c : NameClass) (location : Option Location) (node : QName → Pattern)
    (p : Pattern) : Prop where
  children : p.children = c.names.map node
  none : c.names = [] → p = emptyAt location
  one : ∀ q, c.names = [q] → p = node q
  many : 2 ≤ c.names.length → p = union ⟨false, location⟩ (c.names.map node)

/-- Nodes that have the signs of their names are kept apart by a merge, each as it was made. -/
theorem fansOut_perName {kind : MemberKind} (c : NameClass) (location : Option Location)
    (make : QName → Pattern) (hmake : ∀ name, (make name).sign? = some (.inl (kind, name))) :
    FansOut c location (fun name => (make name).atLocation location)
      (perName c location make) := by
  have hsign : ∀ name, ((make name).atLocation location).sign? = some (.inl (kind, name)) :=
    fun name => (sign?_withMark _ _).trans (hmake name)
  have hnodes : ∀ p ∈ c.names.map fun name => (make name).atLocation location,
      p.isSingle = true ∧ p.location = location := by
    intro p hp
    obtain ⟨name, -, rfl⟩ := List.mem_map.mp hp
    exact ⟨isSingle_of_sign? (hsign name), location_atLocation _ _⟩
  have hapart : (c.names.map fun name => (make name).atLocation location).Pairwise
      fun a b => a.sign? ≠ b.sign? := by
    refine List.pairwise_map.mpr (c.nodup_names.imp fun hne heq => hne ?_)
    rw [hsign, hsign] at heq
    exact congrArg Prod.snd (Sum.inl.inj (Option.some.inj heq))
  by_cases hnames : c.names = []
  · have heq : perName c location make = emptyAt location := by
      rw [perName, hnames]
      rfl
    refine ⟨by rw [heq, hnames]; rfl, fun _ => heq, fun q hq => ?_, fun hlength => ?_⟩
    · rw [hnames] at hq
      cases hq
    · rw [hnames] at hlength
      cases hlength
  · have heq : perName c location make =
        ofChildren location (c.names.map fun name => (make name).atLocation location) := by
      rw [perName, mergeAll?_apart (mt List.map_eq_nil_iff.mp hnames) hnodes hapart]
      rfl
    rw [heq]
    refine ⟨children_ofChildren location fun p hp => (hnodes p hp).1, fun h => absurd h hnames,
      fun q hq => by rw [hq]; rfl, fun hlength => ofChildren_of_length location ?_⟩
    rwa [List.length_map]

/-- An attribute or an element of a class is one node for each name that the class lists, not
optional, at the given location and with the given content, whatever that content is. The names are
those that the class mentions outside exceptions, each once and where it comes up first. -/
theorem fansOut_names (c : NameClass) (content : Pattern) (location : Option Location) :
    FansOut c location (fun q => attr ⟨false, location⟩ ⟨q, none⟩ content)
      (attributes c content location) ∧
    FansOut c location (fun q => elem ⟨false, location⟩ ⟨q, none, none⟩ content)
      (elementsOf c content location) ∧
    c.names.Nodup ∧ (∀ q, q ∈ c.names ↔ q ∈ c.mentioned) ∧
    c.names.Pairwise fun a b => c.mentioned.idxOf a < c.mentioned.idxOf b := by
  have hattributes := fansOut_perName c location (ofAttribute · content) fun _ => rfl
  have helements := fansOut_perName c location (ofElement · content) fun _ => rfl
  have hmem : ∀ q, q ∈ c.names ↔ q ∈ c.mentioned := fun q => by
    rw [c.names_eq, List.mem_eraseDups]
  have hfirst : c.names.Pairwise fun a b => c.mentioned.idxOf a < c.mentioned.idxOf b := by
    rw [c.names_eq]
    exact NameClass.pairwise_eraseDups c.mentioned
  exact ⟨hattributes, helements, c.nodup_names, hmem, hfirst⟩

end Pattern

end MarkupTypes
