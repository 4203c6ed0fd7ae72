import MarkupTypes.Proofs.Success

/-!
# Discovery

The search for the rules of a compilation keeps the rules that are pending on a stack. What it
finds is what a recursive walk meets (`RuleTable.Traverses`), which visits a rule, then all that
its references lead to, one after the other, and then goes on : the preorder of the references,
up to the first rule that is not defined (`Compilation.discovery`).

A walk over references that are at the top of the stack leaves the rest of the stack as it is
(`RuleTable.Traverses.visit_eq`). There is a walk wherever all references are to rules of the
table (`RuleTable.exists_traverses`), as every rule that is entered is new.
-/

namespace MarkupTypes

namespace RuleTable

/-- A recursive walk over references, after the rules of a list were visited. It ends with the
rules that have been visited then, in the order of their visits, or at an undefined rule, with
the location of the reference by which the walk has come there. -/
inductive Traverses (t : RuleTable) : List (RuleId × Option Location) → List RuleId →
    Except (RuleId × Option Location) (List RuleId) → Prop
  | nil {found} : Traverses t [] found (.ok found)
  /-- A rule that has been visited is not entered again. -/
  | seen {id location rest found r} (hfound : id ∈ found) (tail : Traverses t rest found r) :
    Traverses t ((id, location) :: rest) found r
  | undefined {id location rest found rule} (hnew : id ∉ found) (hrule : t.get? id = some rule)
    (hp : rule.pattern = none) : Traverses t ((id, location) :: rest) found (.error (id, location))
  /-- What the references of a rule lead to comes before what stands beside the rule. -/
  | enter {id location rest found rule p inner r} (hnew : id ∉ found)
    (hrule : t.get? id = some rule) (hp : rule.pattern = some p)
    (body : Traverses t p.refs (found ++ [id]) (.ok inner)) (tail : Traverses t rest inner r) :
    Traverses t ((id, location) :: rest) found r
  | stops {id location rest found rule p stop} (hnew : id ∉ found) (hrule : t.get? id = some rule)
    (hp : rule.pattern = some p) (body : Traverses t p.refs (found ++ [id]) (.error stop)) :
    Traverses t ((id, location) :: rest) found (.error stop)

/-- Everything that a rule leads to is a rule of the table. -/
def LinkedFrom (t : RuleTable) (entry : RuleId) : Prop :=
  ∀ id, t.Reaches entry id → ∃ rule, t.get? id = some rule

variable {t : RuleTable} {entry id : RuleId} {location : Option Location} {rule : Rule}
  {p : Pattern} {xs : List (RuleId × Option Location)} {found : List RuleId}
  {r r' : Except (RuleId × Option Location) (List RuleId)}

theorem Linked.from (h : t.Linked) (hentry : entry < t.size) : t.LinkedFrom entry := by
  have hget : ∀ {id}, id < t.size → ∃ rule, t.get? id = some rule := fun hlt =>
    ⟨_, List.getElem?_eq_getElem hlt⟩
  intro id hreaches
  cases hreaches with
  | refl => exact hget hentry
  | tail _ hrefers =>
    obtain ⟨rule, hrule, location, hmem⟩ := hrefers
    exact hget (h rule (mem_of_get? hrule) _ hmem)

theorem Chain.concat (h : t.Chain found) (hrule : t.get? id = some rule) (hnew : id ∉ found) :
    t.Chain (found ++ [id]) := by
  obtain ⟨hnodup, hlt⟩ := h.cons hrule hnew
  have hperm : (found ++ [id]).Perm (id :: found) := List.perm_append_singleton id found
  exact ⟨hperm.nodup_iff.mpr hnodup, fun i hi => hlt i (hperm.mem_iff.mp hi)⟩

/-! ## The recursive walk -/

namespace Traverses

/-- A walk ends in one way at most. -/
theorem unique (h : t.Traverses xs found r) (h' : t.Traverses xs found r') : r = r' := by
  induction h generalizing r' with
  | nil => cases h'; rfl
  | seen hfound _ ih =>
    cases h' with
    | seen _ tail => exact ih tail
    | undefined hnew | enter hnew | stops hnew => exact absurd hfound hnew
  | undefined hnew hrule hp =>
    cases h' with
    | seen hfound => exact absurd hfound hnew
    | undefined => rfl
    | enter _ hrule' hp' | stops _ hrule' hp' =>
      cases hrule.symm.trans hrule'
      cases hp.symm.trans hp'
  | enter hnew hrule hp _ _ ihbody ih =>
    cases h' with
    | seen hfound => exact absurd hfound hnew
    | undefined _ hrule' hp' =>
      cases hrule.symm.trans hrule'
      cases hp.symm.trans hp'
    | enter _ hrule' hp' body tail =>
      cases hrule.symm.trans hrule'
      cases hp.symm.trans hp'
      cases ihbody body
      exact ih tail
    | stops _ hrule' hp' body =>
      cases hrule.symm.trans hrule'
      cases hp.symm.trans hp'
      cases ihbody body
  | stops hnew hrule hp _ ihbody =>
    cases h' with
    | seen hfound => exact absurd hfound hnew
    | undefined _ hrule' hp' =>
      cases hrule.symm.trans hrule'
      cases hp.symm.trans hp'
    | enter _ hrule' hp' body tail =>
      cases hrule.symm.trans hrule'
      cases hp.symm.trans hp'
      cases ihbody body
    | stops _ hrule' hp' body =>
      cases hrule.symm.trans hrule'
      cases hp.symm.trans hp'
      exact ihbody body

/-- A walk adds different rules of the table to those that it began with. -/
theorem chain (h : t.Traverses xs found r) (hfound : t.Chain found) :
    ∀ inner, r = .ok inner → t.Chain inner ∧ found <+: inner := by
  induction h with
  | nil =>
    rintro _ ⟨⟩
    exact ⟨hfound, List.prefix_refl _⟩
  | seen _ _ ih => exact ih hfound
  | undefined | stops => rintro _ ⟨⟩
  | @enter id _ _ found rule p inner _ hnew hrule hp _ _ ihbody ih =>
    obtain ⟨hinner, hprefix⟩ := ihbody (hfound.concat hrule hnew) inner rfl
    intro last hlast
    obtain ⟨hchain, hprefix'⟩ := ih hinner last hlast
    exact ⟨hchain, ((List.prefix_append found [id]).trans hprefix).trans hprefix'⟩

/-- A walk that stops has come to an undefined rule, either by one of its references or by one of
a rule that these lead to. -/
theorem stop (h : t.Traverses xs found r) (hxs : ∀ x ∈ xs, t.Reaches entry x.1) :
    ∀ stop, r = .error stop → (∃ rule, t.get? stop.1 = some rule ∧ rule.pattern = none) ∧
      (stop ∈ xs ∨ ∃ a rule, t.Reaches entry a ∧ t.get? a = some rule ∧ stop ∈ rule.refs) := by
  induction h with
  | nil => rintro _ ⟨⟩
  | seen _ _ ih =>
    intro stop hstop
    obtain ⟨hundefined, hcame⟩ := ih (fun x hx => hxs x (List.mem_cons_of_mem _ hx)) stop hstop
    exact ⟨hundefined, hcame.imp_left (List.mem_cons_of_mem _)⟩
  | undefined _ hrule hp =>
    rintro _ ⟨⟩
    exact ⟨⟨_, hrule, hp⟩, .inl List.mem_cons_self⟩
  | enter _ _ _ _ _ _ ih =>
    intro stop hstop
    obtain ⟨hundefined, hcame⟩ := ih (fun x hx => hxs x (List.mem_cons_of_mem _ hx)) stop hstop
    exact ⟨hundefined, hcame.imp_left (List.mem_cons_of_mem _)⟩
  | @stops id _ _ _ rule p stop _ hrule hp _ ihbody =>
    rintro _ ⟨⟩
    have hid : t.Reaches entry id := hxs _ List.mem_cons_self
    have hrefs : rule.refs = p.refs := by rw [Rule.refs, hp]
    obtain ⟨hundefined, hcame⟩ := ihbody (fun x hx => hid.tail ⟨rule, hrule, x.2, hrefs ▸ hx⟩)
      stop rfl
    refine ⟨hundefined, .inr ?_⟩
    rcases hcame with hmem | hcame
    · exact ⟨id, rule, hid, hrule, hrefs ▸ hmem⟩
    · exact hcame

end Traverses

/-- Wherever all references are to rules of the table, a walk comes to an end : a rule that is
entered is new, and there are no more rules than the table has. -/
theorem exists_traverses (hlinked : t.LinkedFrom entry) (hfound : t.Chain found)
    (hxs : ∀ x ∈ xs, t.Reaches entry x.1) : ∃ r, t.Traverses xs found r := by
  induction hn : t.size - found.length using Nat.strongRecOn generalizing found xs with
  | _ n ih =>
    induction xs with
    | nil => exact ⟨_, .nil⟩
    | cons x rest ihrest =>
      obtain ⟨id, location⟩ := x
      have hid : t.Reaches entry id := hxs _ List.mem_cons_self
      have hrest : ∀ x ∈ rest, t.Reaches entry x.1 := fun x hx =>
        hxs x (List.mem_cons_of_mem _ hx)
      by_cases hmem : id ∈ found
      · obtain ⟨r, tail⟩ := ihrest hrest
        exact ⟨r, .seen hmem tail⟩
      · obtain ⟨rule, hrule⟩ := hlinked id hid
        cases hp : rule.pattern with
        | none => exact ⟨_, .undefined hmem hrule hp⟩
        | some p =>
          have hrefs : rule.refs = p.refs := by rw [Rule.refs, hp]
          have hentered : t.Chain (found ++ [id]) := hfound.concat hrule hmem
          have hroom := hentered.length_le
          have hlength : (found ++ [id]).length = found.length + 1 := List.length_append
          obtain ⟨body | inner, hbody⟩ := ih _ (by omega) hentered
            (fun x hx => hid.tail ⟨rule, hrule, x.2, hrefs ▸ hx⟩) rfl
          · exact ⟨_, .stops hmem hrule hp hbody⟩
          · obtain ⟨hinner, hprefix⟩ := hbody.chain hentered inner rfl
            have hle := hprefix.length_le
            obtain ⟨r, tail⟩ := ih _ (by omega) hinner hrest rfl
            exact ⟨r, .enter hmem hrule hp hbody tail⟩

/-! ## The search -/

/-- What a search answers when a walk has ended so. -/
def Answers (t : RuleTable) (answer : Attempt (List RuleId)) :
    Except (RuleId × Option Location) (List RuleId) → Prop
  | .ok found => answer = .ok found
  | .error (id, location) => ∃ rule, t.get? id = some rule ∧
    answer = .error ((Failure.of (.undefinedRule rule.displayName)).located location)

/-- A search does with the references at the top of its stack what a walk does, and then goes on
with what lies below. -/
theorem Traverses.visit_eq (h : t.Traverses xs found r) : ∃ used, ∀ steps pending,
    (∀ inner, r = .ok inner →
      t.visit (used + steps) (xs ++ pending) found = t.visit steps pending inner) ∧
    ∀ stop, r = .error stop → t.Answers (t.visit (used + steps) (xs ++ pending) found) r := by
  induction h with
  | nil =>
    refine ⟨0, fun steps pending => ⟨?_, fun _ hstop => nomatch hstop⟩⟩
    rintro _ ⟨⟩
    rw [Nat.zero_add]
    rfl
  | @seen id location rest found _ hfound _ ih =>
    obtain ⟨used, hused⟩ := ih
    refine ⟨used + 1, fun steps pending => ?_⟩
    have hskip : t.visit (used + 1 + steps) ((id, location) :: rest ++ pending) found =
        t.visit (used + steps) (rest ++ pending) found := by
      rw [Nat.add_right_comm]
      exact visit_of_mem hfound _ _
    rw [hskip]
    exact hused steps pending
  | @undefined id location rest found rule hnew hrule hp =>
    refine ⟨1, fun steps pending => ⟨fun _ hinner => (by cases hinner), ?_⟩⟩
    rintro _ -
    refine ⟨rule, hrule, ?_⟩
    rw [Nat.add_comm]
    exact visit_of_undefined hnew hrule hp _ _
  | @enter id location rest found rule p inner _ hnew hrule hp _ _ ihbody ih =>
    obtain ⟨usedBody, hbody⟩ := ihbody
    obtain ⟨used, hused⟩ := ih
    refine ⟨usedBody + used + 1, fun steps pending => ?_⟩
    have henter : t.visit (usedBody + used + 1 + steps) ((id, location) :: rest ++ pending) found =
        t.visit (used + steps) (rest ++ pending) inner := by
      rw [Nat.add_right_comm, Nat.add_assoc usedBody]
      rw [← (hbody (used + steps) (rest ++ pending)).1 inner rfl]
      exact visit_of_pattern hnew hrule hp _ _
    rw [henter]
    exact hused steps pending
  | @stops id location rest found rule p stop hnew hrule hp _ ihbody =>
    obtain ⟨used, hused⟩ := ihbody
    refine ⟨used + 1, fun steps pending => ⟨fun _ hinner => (by cases hinner), ?_⟩⟩
    rintro _ -
    have henter : t.visit (used + 1 + steps) ((id, location) :: rest ++ pending) found =
        t.visit (used + steps) (p.refs ++ (rest ++ pending)) (found ++ [id]) := by
      rw [Nat.add_right_comm]
      exact visit_of_pattern hnew hrule hp _ _
    rw [henter]
    exact (hused steps (rest ++ pending)).2 stop rfl

/-- A search that has got enough steps does not need more. -/
theorem visit_add {steps : Nat} {pending : List (RuleId × Option Location)}
    (hsteps : pending.length + t.unvisited found ≤ steps) (more : Nat) :
    t.visit (steps + more) pending found = t.visit steps pending found := by
  induction steps generalizing pending found with
  | zero =>
    obtain rfl : pending = [] := List.length_eq_zero_iff.mp (by omega)
    cases more <;> rfl
  | succ steps ih =>
    rw [Nat.add_right_comm]
    cases pending with
    | nil => rfl
    | cons x pending =>
      obtain ⟨id, location⟩ := x
      rw [List.length_cons] at hsteps
      by_cases hfound : id ∈ found
      · rw [visit_of_mem hfound, visit_of_mem hfound]
        exact ih (by omega)
      · cases hrule : t.get? id with
        | none => simp only [visit, hfound, if_false, require, hrule, bind, Except.bind]
        | some rule =>
          cases hp : rule.pattern with
          | none => rw [visit_of_undefined hfound hrule hp, visit_of_undefined hfound hrule hp]
          | some p =>
            rw [visit_of_pattern hfound hrule hp, visit_of_pattern hfound hrule hp]
            have hmeasure := unvisited_append hrule hfound
            simp only [Rule.refs, hp] at hmeasure
            refine ih ?_
            rw [List.length_append]
            omega

/-- More steps than a search takes make no difference. -/
theorem visit_eq_reachable {steps : Nat} (hsteps : t.referenceCount < steps) :
    t.visit steps [(entry, none)] [] = t.reachable entry := by
  obtain ⟨more, rfl⟩ := Nat.exists_eq_add_of_le hsteps
  refine visit_add ?_ more
  rw [unvisited_nil]
  exact Nat.le_of_eq (Nat.add_comm _ _)

/-- A search from a rule finds what a walk meets. -/
theorem Traverses.reachable (h : t.Traverses [(entry, none)] [] r) :
    t.Answers (t.reachable entry) r := by
  obtain ⟨used, hused⟩ := h.visit_eq
  obtain ⟨hok, herror⟩ := hused (t.referenceCount + 1) []
  have hvisit : t.visit (used + (t.referenceCount + 1)) ([(entry, none)] ++ []) [] =
      t.reachable entry := visit_eq_reachable (by omega)
  rw [hvisit] at hok herror
  cases r with
  | ok inner => exact hok inner rfl
  | error stop => exact herror stop rfl

/-! ## What is discovered -/

/-- The rules that an entry rule reaches, in the order in which a walk visits them. -/
structure Discovers (t : RuleTable) (entry : RuleId) (order : List RuleId) : Prop where
  traverses : t.Traverses [(entry, none)] [] (.ok order)
  begins : order.head? = some entry
  nodup : order.Nodup
  mem_iff : ∀ id, id ∈ order ↔ t.Reaches entry id

/-- The first undefined rule that a walk meets, with the location of the reference by which the
walk has come there. -/
structure Misses (t : RuleTable) (entry id : RuleId) (location : Option Location) : Prop where
  traverses : t.Traverses [(entry, none)] [] (.error (id, location))
  undefined : ∃ rule, t.get? id = some rule ∧ rule.pattern = none
  met : id = entry ∧ location = none ∨ id ≠ entry ∧
    ∃ a rule, t.Reaches entry a ∧ t.get? a = some rule ∧ (id, location) ∈ rule.refs

theorem Traverses.head? {order : List RuleId} (h : t.Traverses [(entry, none)] [] (.ok order)) :
    order.head? = some entry := by
  cases h with
  | seen hfound => exact absurd hfound List.not_mem_nil
  | enter _ hrule _ body tail =>
    cases tail
    obtain ⟨-, rest, rfl⟩ := body.chain (Chain.nil.concat hrule List.not_mem_nil) order rfl
    rfl

/-- A walk from a rule begins at a rule that this one reaches. -/
theorem reaches_of_begin (t : RuleTable) (entry : RuleId) :
    ∀ x ∈ [(entry, (none : Option Location))], t.Reaches entry x.1 :=
  List.forall_mem_singleton.mpr .refl

theorem Traverses.misses {id : RuleId} {location : Option Location}
    (h : t.Traverses [(entry, none)] [] (.error (id, location))) : t.Misses entry id location := by
  obtain ⟨⟨rule, hrule, hp⟩, hcame⟩ := h.stop (t.reaches_of_begin entry) (id, location) rfl
  refine ⟨h, ⟨rule, hrule, hp⟩, ?_⟩
  by_cases hid : id = entry
  · -- The entry rule is the first that is met, and by no reference.
    subst hid
    cases h.unique (.undefined List.not_mem_nil hrule hp)
    exact .inl ⟨rfl, rfl⟩
  · refine .inr ⟨hid, hcame.resolve_left fun hmem => ?_⟩
    cases List.mem_singleton.mp hmem
    exact hid rfl

/-- Rules in cycles, where the rule `b` is pending twice when it is visited. -/
def crossReferences : RuleTable :=
  ⟨[(Rule.mentioned rootScope startName).define (.union .plain [.ofRule 2, .ofRule 1]) none,
    (Rule.mentioned rootScope "b").define (.ofElement (.unqualified "b") (.ofRule 0)) none,
    (Rule.mentioned rootScope "a").define (.union .plain [.ofRule 3, .ofRule 1, .ofRule 2]) none,
    (Rule.mentioned rootScope "c").define (.ofElement (.unqualified "c") (.ofRule 3)) none]⟩

end RuleTable

namespace Compilation

variable {t : RuleTable} {entry : RuleId} {options : CompileOptions} {tracer : Trace.Tracer}

theorem start_eq (hentry : ∃ rule, t.get? entry = some rule) (options : CompileOptions)
    (tracer : Trace.Tracer) : start t entry options tracer = (t.reachable entry).map fun order =>
      ⟨t, entry, order, t.rules.map Rule.isInline, options, .start tracer⟩ := by
  obtain ⟨rule, hrule⟩ := hentry
  simp only [start, Attempt.ensure, hrule, Option.isSome_some, if_true, bind, Except.bind]
  cases t.reachable entry <;> rfl

/-- How the rules of a compilation are found. -/
structure Discovery (t : RuleTable) (entry : RuleId) (options : CompileOptions)
    (tracer : Trace.Tracer) : Prop where
  /-- A recursive walk from the entry rule comes to one end. -/
  walk : ∃ r, t.Traverses [(entry, none)] [] r ∧
    ∀ r', t.Traverses [(entry, none)] [] r' → r' = r
  /-- The search comes to its end within its steps, so that more of them make no difference. -/
  ends : ∀ steps, t.referenceCount < steps →
    t.visit steps [(entry, none)] [] = t.reachable entry
  ok_iff : (∃ c, start t entry options tracer = .ok c) ↔ t.Defined entry
  found : ∀ c, start t entry options tracer = .ok c → t.Discovers entry c.order
  missed : ∀ failure, start t entry options tracer = .error failure →
    ∃ id rule location, t.Misses entry id location ∧ t.get? id = some rule ∧
      failure = (Failure.of (.undefinedRule rule.displayName)).located location

/-- Where all references are to rules of the table, the search for the rules of a compilation
finds what a recursive walk over the references meets : all rules that the entry reaches, each
once, or else the first of them that is not defined. -/
theorem discovery (hlinked : t.Linked) (hentry : entry < t.size) (options : CompileOptions)
    (tracer : Trace.Tracer) : Discovery t entry options tracer := by
  have hfrom : t.LinkedFrom entry := hlinked.from hentry
  obtain ⟨r, hr⟩ := RuleTable.exists_traverses hfrom .nil (t.reaches_of_begin entry)
  have hanswers := hr.reachable
  have hstart := start_eq (hfrom entry .refl) options tracer
  constructor
  case walk => exact ⟨r, hr, fun r' hr' => hr'.unique hr⟩
  case ends => exact fun _ => RuleTable.visit_eq_reachable
  case ok_iff => exact start_ok_iff
  case found =>
    intro c hc
    have hregion := (started_of_start hc).region
    rw [hstart] at hc
    cases r with
    | error stop =>
      obtain ⟨rule, -, hreachable⟩ := hanswers
      rw [hreachable] at hc
      cases hc
    | ok order =>
      rw [show t.reachable entry = .ok order from hanswers] at hc
      cases hc
      exact ⟨hr, hr.head?, hregion.nodup, fun _ => hregion.mem_iff⟩
  case missed =>
    intro failure hfailure
    rw [hstart] at hfailure
    cases r with
    | ok order =>
      rw [show t.reachable entry = .ok order from hanswers] at hfailure
      cases hfailure
    | error stop =>
      obtain ⟨rule, hrule, hreachable⟩ := hanswers
      rw [hreachable] at hfailure
      cases hfailure
      exact ⟨stop.1, rule, stop.2, hr.misses, hrule, rfl⟩

theorem discovery_crossReferences :
    RuleTable.crossReferences.Linked ∧ 0 < RuleTable.crossReferences.size ∧
      (∃ c, start .crossReferences 0 .standard .off = .ok c ∧ c.order = [0, 2, 3, 1]) ∧
      Discovery .crossReferences 0 .standard .off := by
  have hlinked : RuleTable.crossReferences.Linked := by decide
  have hentry : 0 < RuleTable.crossReferences.size := by decide
  exact ⟨hlinked, hentry, ⟨_, rfl, rfl⟩, discovery hlinked hentry .standard .off⟩

end Compilation

end MarkupTypes
