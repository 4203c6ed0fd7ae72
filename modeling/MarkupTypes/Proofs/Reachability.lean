import Mathlib.Data.List.Flatten
import Mathlib.Data.List.Nodup
import Mathlib.Logic.Relation
import MarkupTypes.Proofs.Chains
import MarkupTypes.Proofs.Skeleton

/-!
# Reachable rules

The rules of a compilation are exactly those that its entry rule reaches through references
(`Compilation.mem_order_iff`), each once, and all of them are defined. So they are closed :
whatever a rule of the compilation refers to is a rule of it (`RuleTable.Region`).

A search takes one step for the entry rule and one for every reference of the rules that it
visits, and visits no rule twice. So the steps that it has got left are enough for what is
pending and for what unvisited rules refer to (`RuleTable.unvisited`).
-/

namespace MarkupTypes

namespace RuleTable

/-- Every reference in the table is to a rule of the table. -/
def Linked (t : RuleTable) : Prop := ∀ rule ∈ t.rules, ∀ x ∈ rule.refs, x.1 < t.size

instance (t : RuleTable) : Decidable t.Linked :=
  inferInstanceAs (Decidable (∀ rule ∈ t.rules, ∀ x ∈ rule.refs, x.1 < t.size))

variable (t : RuleTable)

/-- A rule refers to another. -/
def Refers (a b : RuleId) : Prop :=
  ∃ rule, t.get? a = some rule ∧ ∃ location, (b, location) ∈ rule.refs

/-- A rule leads to another, through any number of references. -/
def Reaches : RuleId → RuleId → Prop := Relation.ReflTransGen t.Refers

/-- A search from a rule, with the rules visited and those that are pending. -/
structure Search (entry : RuleId) (pending : List (RuleId × Option Location))
    (found : List RuleId) : Prop where
  nodup : found.Nodup
  defined : ∀ id ∈ found, ∃ rule p, t.get? id = some rule ∧ rule.pattern = some p
  closed : ∀ a ∈ found, ∀ b, t.Refers a b → b ∈ found ∨ b ∈ pending.map Prod.fst
  begun : entry ∈ found ∨ entry ∈ pending.map Prod.fst
  reached : ∀ id, id ∈ found ∨ id ∈ pending.map Prod.fst → t.Reaches entry id

/-- Defined rules that refer to each other only, and are all reached from one of them. -/
structure Region (entry : RuleId) (order : List RuleId) : Prop where
  nodup : order.Nodup
  defined : ∀ id ∈ order, ∃ rule p, t.get? id = some rule ∧ rule.pattern = some p
  closed : ∀ a ∈ order, ∀ b, t.Refers a b → b ∈ order
  begun : entry ∈ order
  reached : ∀ id ∈ order, t.Reaches entry id

/-- The number of references in rules that have not been visited. -/
def unvisited (found : List RuleId) : Nat :=
  (t.rules.zipIdx.flatMap fun x => if x.2 ∈ found then [] else x.1.refs).length

variable {t} {entry id : RuleId} {location : Option Location} {rule : Rule} {p : Pattern}
  {pending : List (RuleId × Option Location)} {found order : List RuleId}

theorem Region.mem_iff (h : t.Region entry order) : id ∈ order ↔ t.Reaches entry id := by
  constructor
  · exact h.reached id
  · intro hreaches
    induction hreaches with
    | refl => exact h.begun
    | tail _ hrefers ih => exact h.closed _ ih _ hrefers

/-- References are read off the skeleton. -/
theorem refers_of_skeleton_eq {t t' : RuleTable} (h : t'.skeleton = t.skeleton) {a b : RuleId}
    (hrefers : t'.Refers a b) : t.Refers a b := by
  obtain ⟨rule', hrule', location, hmem⟩ := hrefers
  obtain ⟨rule, hrule, hskeleton⟩ := get?_of_skeleton_eq h.symm hrule'
  refine ⟨rule, hrule, location, ?_⟩
  rwa [← rule.refs_skeleton, hskeleton, rule'.refs_skeleton]

theorem Region.of_skeleton_eq {t t' : RuleTable} (h : t.Region entry order)
    (hskeleton : t'.skeleton = t.skeleton) : t'.Region entry order where
  nodup := h.nodup
  defined id hid := by
    obtain ⟨rule, p, hrule, hp⟩ := h.defined id hid
    obtain ⟨rule', hrule', heq⟩ := get?_of_skeleton_eq hskeleton hrule
    obtain ⟨p', hp', -⟩ := pattern_of_skeleton_eq heq hp
    exact ⟨rule', p', hrule', hp'⟩
  closed a ha b hb := h.closed a ha b (refers_of_skeleton_eq hskeleton hb)
  begun := h.begun
  reached id hid := by
    have hle : t.Refers ≤ t'.Refers := fun _ _ => refers_of_skeleton_eq hskeleton.symm
    exact Relation.ReflTransGen.mono hle _ _ (h.reached id hid)

/-! ## The steps of a search -/

theorem visit_of_mem (hfound : id ∈ found) (steps : Nat)
    (pending : List (RuleId × Option Location)) :
    t.visit (steps + 1) ((id, location) :: pending) found = t.visit steps pending found := by
  rw [visit, if_pos hfound]

theorem visit_of_pattern (hnew : id ∉ found) (hrule : t.get? id = some rule)
    (hp : rule.pattern = some p) (steps : Nat) (pending : List (RuleId × Option Location)) :
    t.visit (steps + 1) ((id, location) :: pending) found =
      t.visit steps (p.refs ++ pending) (found ++ [id]) := by
  rw [visit, if_neg hnew, require_eq_ok_iff.mpr hrule, Attempt.ok_bind, hp]

theorem visit_of_undefined (hnew : id ∉ found) (hrule : t.get? id = some rule)
    (hp : rule.pattern = none) (steps : Nat) (pending : List (RuleId × Option Location)) :
    t.visit (steps + 1) ((id, location) :: pending) found =
      .error ((Failure.of (.undefinedRule rule.displayName)).located location) := by
  rw [visit, if_neg hnew, require_eq_ok_iff.mpr hrule, Attempt.ok_bind, hp]

/-- A search goes on from defined rules only. -/
theorem exists_of_visit {steps : Nat} (hnew : id ∉ found)
    (h : t.visit (steps + 1) ((id, location) :: pending) found = .ok order) :
    ∃ rule p, t.get? id = some rule ∧ rule.pattern = some p := by
  rw [visit, if_neg hnew] at h
  obtain ⟨rule, hrule, h⟩ := Attempt.of_bind_eq_ok h
  cases hp : rule.pattern with
  | none =>
    rw [hp] at h
    cases h
  | some p => exact ⟨rule, p, require_eq_ok_iff.mp hrule, hp⟩

theorem unvisited_nil : t.unvisited [] = t.referenceCount := by
  simp only [unvisited, referenceCount, List.not_mem_nil, if_false]
  rw [← List.flatMap_map Prod.fst Rule.refs, List.zipIdx_map_fst]

theorem length_flatMap_add_le {α β : Type} {f g : α → List β} {n : Nat} {x : α} {xs : List α}
    (hle : ∀ y, (f y).Sublist (g y)) (hx : x ∈ xs) (hn : (f x).length + n ≤ (g x).length) :
    (xs.flatMap f).length + n ≤ (xs.flatMap g).length := by
  obtain ⟨before, after, rfl⟩ := List.append_of_mem hx
  have hbefore := (List.Sublist.flatMap_right before fun y _ => hle y).length_le
  have hafter := (List.Sublist.flatMap_right after fun y _ => hle y).length_le
  simp only [List.flatMap_append, List.flatMap_cons, List.length_append]
  omega

/-- A rule takes its references with it when it is visited. -/
theorem unvisited_append (hrule : t.get? id = some rule) (hnew : id ∉ found) :
    t.unvisited (found ++ [id]) + rule.refs.length ≤ t.unvisited found := by
  have hmem : (rule, id) ∈ t.rules.zipIdx := List.mem_zipIdx_iff_getElem?.mpr hrule
  refine length_flatMap_add_le (fun x => ?_) hmem ?_
  · by_cases hx : x.2 ∈ found
    · simp [hx]
    · by_cases hid : x.2 = id <;> simp [hx, hid]
  · simp [hnew]

theorem Search.start (t : RuleTable) (entry : RuleId) : t.Search entry [(entry, none)] [] where
  nodup := List.nodup_nil
  defined := by simp
  closed := by simp
  begun := .inr (by simp)
  reached id hid := by
    obtain rfl : id = entry := by simpa using hid
    exact .refl

/-- A pending rule that has been visited is done with. -/
theorem Search.skip (h : t.Search entry ((id, location) :: pending) found) (hid : id ∈ found) :
    t.Search entry pending found where
  nodup := h.nodup
  defined := h.defined
  closed a ha b hb := by
    rcases h.closed a ha b hb with hb | hb
    · exact .inl hb
    · rcases List.mem_cons.mp hb with rfl | hb
      · exact .inl hid
      · exact .inr hb
  begun := by
    rcases h.begun with hbegun | hbegun
    · exact .inl hbegun
    · rcases List.mem_cons.mp hbegun with rfl | hbegun
      · exact .inl hid
      · exact .inr hbegun
  reached b hb := h.reached b (hb.imp_right (List.mem_cons_of_mem _))

/-- A pending rule that is visited has its references pending instead. -/
theorem Search.visit (h : t.Search entry ((id, location) :: pending) found) (hnew : id ∉ found)
    (hrule : t.get? id = some rule) (hp : rule.pattern = some p) :
    t.Search entry (p.refs ++ pending) (found ++ [id]) := by
  have hrefs : rule.refs = p.refs := by rw [Rule.refs, hp]
  have hmoved : ∀ b, b ∈ ((id, location) :: pending).map Prod.fst →
      b ∈ found ++ [id] ∨ b ∈ (p.refs ++ pending).map Prod.fst := by
    intro b hb
    rcases List.mem_cons.mp hb with rfl | hb
    · exact .inl (List.mem_append_right _ (List.mem_singleton_self _))
    · exact .inr (by rw [List.map_append]; exact List.mem_append_right _ hb)
  constructor
  case nodup =>
    refine List.nodup_append.mpr ⟨h.nodup, List.nodup_singleton id, ?_⟩
    rintro a ha b hb rfl
    rw [List.mem_singleton] at hb
    exact hnew (hb ▸ ha)
  case defined =>
    intro b hb
    rcases List.mem_append.mp hb with hb | hb
    · exact h.defined b hb
    · obtain rfl := List.mem_singleton.mp hb
      exact ⟨rule, p, hrule, hp⟩
  case closed =>
    intro a ha b hb
    rcases List.mem_append.mp ha with ha | ha
    · rcases h.closed a ha b hb with hfound | hpending
      · exact .inl (List.mem_append_left _ hfound)
      · exact hmoved b hpending
    · obtain rfl := List.mem_singleton.mp ha
      obtain ⟨rule', hrule', loc, hb⟩ := hb
      obtain rfl : rule' = rule := Option.some.inj (hrule'.symm.trans hrule)
      rw [hrefs] at hb
      exact .inr (List.mem_map_of_mem (List.mem_append_left _ hb))
  case begun =>
    rcases h.begun with hbegun | hbegun
    · exact .inl (List.mem_append_left _ hbegun)
    · exact hmoved entry hbegun
  case reached =>
    have hid : t.Reaches entry id := h.reached id (.inr List.mem_cons_self)
    intro b hb
    rcases hb with hb | hb
    · rcases List.mem_append.mp hb with hb | hb
      · exact h.reached b (.inl hb)
      · rwa [List.mem_singleton.mp hb]
    · rw [List.map_append] at hb
      rcases List.mem_append.mp hb with hb | hb
      · obtain ⟨⟨b, loc⟩, hmem, rfl⟩ := List.mem_map.mp hb
        exact hid.tail ⟨rule, hrule, loc, hrefs ▸ hmem⟩
      · exact h.reached b (.inr (List.mem_cons_of_mem _ hb))

/-! ## The end of a search -/

/-- A search that has got enough steps ends with nothing pending. -/
theorem Search.region {steps : Nat} (h : t.Search entry pending found)
    (hsteps : pending.length + t.unvisited found ≤ steps)
    (hend : t.visit steps pending found = .ok order) : t.Region entry order := by
  have hdone : ∀ {found}, t.Search entry [] found → t.Region entry found := fun h =>
    { nodup := h.nodup
      defined := h.defined
      closed := fun a ha b hb => (h.closed a ha b hb).resolve_right (by simp)
      begun := h.begun.resolve_right (by simp)
      reached := fun id hid => h.reached id (.inl hid) }
  induction steps generalizing pending found with
  | zero =>
    obtain rfl : pending = [] := List.length_eq_zero_iff.mp (by omega)
    cases hend
    exact hdone h
  | succ steps ih =>
    cases pending with
    | nil =>
      cases hend
      exact hdone h
    | cons x pending =>
      obtain ⟨id, location⟩ := x
      rw [List.length_cons] at hsteps
      by_cases hid : id ∈ found
      · rw [visit_of_mem hid] at hend
        exact ih (h.skip hid) (by omega) hend
      · obtain ⟨rule, p, hrule, hp⟩ := exists_of_visit hid hend
        rw [visit_of_pattern hid hrule hp] at hend
        have hmeasure := unvisited_append hrule hid
        simp only [Rule.refs, hp] at hmeasure
        refine ih (h.visit hid hrule hp) ?_ hend
        rw [List.length_append]
        omega

/-- What a search has found is a region. -/
theorem region_of_reachable (h : t.reachable entry = .ok order) : t.Region entry order :=
  (Search.start t entry).region (by rw [unvisited_nil]; exact Nat.le_of_eq (Nat.add_comm _ _)) h

end RuleTable

namespace Compilation

variable {t : RuleTable} {entry : RuleId} {options : CompileOptions} {tracer : Trace.Tracer}
  {c : Compilation}

/-- A compilation that has been started, part by part. -/
structure Started (t : RuleTable) (entry : RuleId) (options : CompileOptions)
    (tracer : Trace.Tracer) (c : Compilation) : Prop where
  rules_eq : c.rules = t
  entry_eq : c.entry = entry
  inline_eq : c.inline = t.rules.map Rule.isInline
  options_eq : c.options = options
  draft_eq : c.draft = .start tracer
  region : t.Region entry c.order

theorem exists_of_start (h : start t entry options tracer = .ok c) :
    ∃ order, t.reachable entry = .ok order ∧
      c = ⟨t, entry, order, t.rules.map Rule.isInline, options, .start tracer⟩ := by
  obtain ⟨_, -, h⟩ := Attempt.of_bind_eq_ok h
  obtain ⟨order, hreachable, h⟩ := Attempt.of_bind_eq_ok h
  exact ⟨order, hreachable, (Except.ok.inj h).symm⟩

theorem reachable_of_start (h : start t entry options tracer = .ok c) :
    t.reachable entry = .ok c.order := by
  obtain ⟨order, hreachable, rfl⟩ := exists_of_start h
  exact hreachable

theorem started_of_start (h : start t entry options tracer = .ok c) :
    Started t entry options tracer c := by
  obtain ⟨order, hreachable, rfl⟩ := exists_of_start h
  exact ⟨rfl, rfl, rfl, rfl, rfl, RuleTable.region_of_reachable hreachable⟩

/-- The rules of a compilation are those that its entry rule reaches. -/
theorem mem_order_iff (h : start t entry options tracer = .ok c) {id : RuleId} :
    id ∈ c.order ↔ t.Reaches entry id :=
  (started_of_start h).region.mem_iff

end Compilation

end MarkupTypes
