import MarkupTypes.Proofs.Merging
import MarkupTypes.Proofs.Success
import MarkupTypes.Schema

/-!
# The tables of schemas

Compilations start from the table of a schema, and such a table is fresh : no rule of it has
been processed, and no rule or element has a type (`Schema.fresh_of_build`). So what holds of
compilations from fresh tables holds of all schemas that compile, and a schema compiles
exactly when it can be read and its rules compile (`Schema.compile_ok_iff`).

What every construct keeps (`Pattern.Constructive`) holds of all that is put into a table, and
work on an assembly keeps what such patterns keep of the table (`Assembling.Upholds`). No construct
makes an element with a type (`Pattern.Untyped`), so reading a schema goes from one fresh table to
another, also where it fails (`Assembling.Yields`). That, and whatever else holds of work that is
put together from calls of an assembly (`Assembling.Closed`), holds of reading every schema
(`Schema.build_of_closed`).
-/

set_option linter.unusedSectionVars false

namespace MarkupTypes

namespace Pattern

/-! ## Patterns of constructs -/

/-- Something that every construct keeps. -/
structure Constructive (P : Pattern → Prop) : Prop where
  empty : ∀ m, P (.empty m)
  data : ∀ m type, P (.data m type)
  value : ∀ m type literal, P (.value m type literal)
  list : ∀ m {item}, P item → P (.list m item)
  attr : ∀ name {content}, P content → P (.ofAttribute name content)
  elem : ∀ name {content}, P content → P (.ofElement name content)
  ref : ∀ m id label, P (.ref m id label)
  merge : ∀ {a b}, P a → P b → P (a.merge b)
  atLocation : ∀ {p}, P p → ∀ location, P (p.atLocation location)

theorem untyped_withMark (m : Mark) (p : Pattern) : (p.withMark m).Untyped ↔ p.Untyped := by
  have hiff : ∀ p : Pattern, p.Untyped ↔ ∀ type, type ∉ elementTypes p.elements :=
    fun _ => List.eq_nil_iff_forall_not_mem
  simp only [hiff, (holds_type _).withMark]

/-- No construct gives a type to an element. -/
theorem constructive_untyped : Constructive Untyped where
  empty _ := rfl
  data _ _ := rfl
  value _ _ _ := rfl
  list _ _ h := h
  attr _ _ h := h
  elem _ _ h := h
  ref _ _ _ := rfl
  merge := .merge
  atLocation h _ := (untyped_withMark _ _).mpr h

namespace Constructive

variable {P : Pattern → Prop} (hP : Constructive P) {ps : List Pattern} {p merged : Pattern}
  {location : Option Location}

include hP

theorem mergeAll (h : ∀ p ∈ ps, P p) (hmerged : mergeAll? ps = some merged) : P merged := by
  cases ps with
  | nil => cases hmerged
  | cons p ps =>
    cases hmerged
    obtain ⟨hp, hps⟩ := List.forall_mem_cons.mp h
    exact foldl_merge hP.merge hp hps

theorem combined {how : Connective} (h : ∀ p ∈ ps, P p)
    (hp : Pattern.combined how ps location = .ok p) : P p := by
  unfold Pattern.combined at hp
  split at hp
  · cases hp
  · next merged hmerged =>
    cases hp
    have hkept : P merged := hP.mergeAll h hmerged
    split
    · exact hP.atLocation hkept location
    · exact hkept

theorem perName (names : NameClass) (location : Option Location) {make : QName → Pattern}
    (h : ∀ name, P (make name)) : P (perName names location make) := by
  unfold Pattern.perName
  cases hmerged : mergeAll? (names.names.map fun name => (make name).atLocation location) with
  | none => exact hP.empty _
  | some merged =>
    refine hP.mergeAll (fun p hp => ?_) hmerged
    obtain ⟨name, -, rfl⟩ := List.mem_map.mp hp
    exact hP.atLocation (h name) location

end Constructive

end Pattern

/-! ## Rules of scopes -/

/-- What holds of a table still holds when a rule is mentioned, and when a pattern of some kind is
defined. -/
structure RuleTable.Upheld (I : RuleTable → Prop) (P : Pattern → Prop) : Prop where
  mentioned : ∀ {t}, I t → ∀ scope name, I (t.push (.mentioned scope name))
  define : ∀ {t p}, I t → P p → ∀ id location, I (t.modify id (·.define p location))

theorem RuleTable.upheld_fresh : Upheld Fresh Pattern.Untyped where
  mentioned h scope name := h.push (.mentioned scope name)
  define h hp id location := h.define hp id location

namespace Scopes

variable {s s' : Scopes} {id : ScopeId} {name : String} {rule : RuleId}
  {location : Option Location} {p : Pattern} {I : RuleTable → Prop} {P : Pattern → Prop}

theorem scope_eq_ok_iff {old : Scope} : s.scope id = .ok old ↔ s.scopes[id]? = some old := by
  unfold scope
  cases s.scopes[id]? <;> simp

/-- A name of a scope keeps its rule, and another name gets a new one. -/
theorem scope_of_mention (h : s.mention id name = .ok (s', rule)) :
    ∃ old, s.scopes[id]? = some old ∧
      (old.rules.get? name = some rule ∧ s' = s ∨
        old.rules.get? name = none ∧ rule = s.table.nextId ∧
          s' = ⟨s.scopes.set id { old with rules := old.rules.insert name s.table.nextId },
            s.table.push (.mentioned id name)⟩) := by
  obtain ⟨old, hold, h⟩ := Attempt.of_bind_eq_ok h
  refine ⟨old, scope_eq_ok_iff.mp hold, ?_⟩
  cases hrule : old.rules.get? name with
  | some found =>
    rw [hrule] at h
    cases h
    exact .inl ⟨rfl, rfl⟩
  | none =>
    rw [hrule] at h
    cases h
    exact .inr ⟨rfl, rfl, rfl⟩

theorem mention_of_define (h : s.define id name p location = .ok (s', rule)) :
    ∃ t, s.mention id name = .ok (t, rule) ∧
      s' = { t with table := t.table.modify rule (·.define p location) } := by
  obtain ⟨_, hname, hrest⟩ := Attempt.of_bind_eq_ok h
  obtain rfl := Attempt.eq_of_nonEmpty hname
  obtain ⟨⟨t, i⟩, hmention, hmade⟩ := Attempt.of_bind_eq_ok hrest
  cases hmade
  exact ⟨t, hmention, rfl⟩

theorem mention_of_reference (h : s.reference id name location = .ok (s', p)) :
    ∃ rule, s.mention id name = .ok (s', rule) ∧ p = .ref ⟨false, location⟩ rule none := by
  obtain ⟨_, hname, hrest⟩ := Attempt.of_bind_eq_ok h
  obtain rfl := Attempt.eq_of_nonEmpty hname
  obtain ⟨⟨t, i⟩, hmention, hmade⟩ := Attempt.of_bind_eq_ok hrest
  cases hmade
  exact ⟨i, hmention, rfl⟩

theorem reference_of_parentReference (h : s.parentReference id name location = .ok (s', p)) :
    ∃ parent, s.parent id = .ok (some parent) ∧
      s.reference parent name location = .ok (s', p) := by
  obtain ⟨parent, hparent, h⟩ := Attempt.of_bind_eq_ok h
  cases parent with
  | none => cases h
  | some parent => exact ⟨parent, hparent, h⟩

/-- A grammar is closed without a change, and stands for a reference. -/
theorem ref_of_close
    (h : (do return (s, ← s.close id location) : Attempt (Scopes × Pattern)) = .ok (s', p)) :
    s' = s ∧ ∃ rule, p = .ref ⟨false, location⟩ rule none := by
  obtain ⟨_, hclose, h⟩ := Attempt.of_bind_eq_ok h
  cases h
  unfold close at hclose
  split at hclose
  · cases hclose
    exact ⟨rfl, _, rfl⟩
  · cases hclose

theorem upheld_mention (hI : RuleTable.Upheld I P) (h : I s.table)
    (hmention : s.mention id name = .ok (s', rule)) : I s'.table := by
  obtain ⟨old, -, ⟨-, rfl⟩ | ⟨-, rfl, rfl⟩⟩ := scope_of_mention hmention
  · exact h
  · exact hI.mentioned h id name

theorem upheld_define (hI : RuleTable.Upheld I P) (h : I s.table) (hp : P p)
    (hdefine : s.define id name p location = .ok (s', rule)) : I s'.table := by
  obtain ⟨t, hmention, rfl⟩ := mention_of_define hdefine
  exact hI.define (upheld_mention hI h hmention) hp rule location

theorem upheld_reference (hI : RuleTable.Upheld I P) (h : I s.table)
    (hreference : s.reference id name location = .ok (s', p)) : I s'.table := by
  obtain ⟨rule, hmention, -⟩ := mention_of_reference hreference
  exact upheld_mention hI h hmention

end Scopes

/-! ## Work on an assembly -/

/-- Work that keeps what holds of the table, whether it fails or not, and has a result of some
kind when it does not fail. -/
def Assembling.Upholds (I : RuleTable → Prop) {α : Type} (work : Assembling α) (Q : α → Prop) :
    Prop :=
  ∀ a : Assembly, I a.scopes.table →
    I (endState (work a)).scopes.table ∧ ∀ x a', work a = .ok x a' → Q x

/-- Work that leaves a fresh table fresh, whether it fails or not, and has a result of some
kind when it does not fail. -/
def Assembling.Yields {α : Type} (work : Assembling α) (Q : α → Prop) : Prop :=
  ∀ a : Assembly, a.scopes.table.Fresh →
    (endState (work a)).scopes.table.Fresh ∧ ∀ x a', work a = .ok x a' → Q x

namespace Assembling.Upholds

variable {α β : Type} {work : Assembling α} {Q : α → Prop} {R : β → Prop} {I : RuleTable → Prop}
  {P : Pattern → Prop}

theorem pure {x : α} (h : Q x) : Upholds I (pure x) Q := by
  intro a hI
  refine ⟨hI, fun y a' hy => ?_⟩
  cases hy
  exact h

theorem throw (failure : Failure) : Upholds I (throw failure) Q :=
  fun _ hI => ⟨hI, fun _ _ h => by cases h⟩

theorem get : Upholds I get fun _ => True := fun _ hI => ⟨hI, fun _ _ _ => trivial⟩

theorem bind {next : α → Assembling β} (h : Upholds I work Q)
    (hnext : ∀ x, Q x → Upholds I (next x) R) : Upholds I (work >>= next) R := by
  intro a hI
  obtain ⟨hend, hresult⟩ := h a hI
  rw [run_bind]
  cases hwork : work a with
  | ok x a' =>
    rw [hwork] at hend
    exact hnext x (hresult x a' hwork) a' hend
  | error failure a' =>
    rw [hwork] at hend
    exact ⟨hend, fun _ _ h => by cases h⟩

theorem lift {attempt : Attempt α} (h : ∀ x, attempt = .ok x → Q x) :
    Upholds I attempt.lift Q := by
  cases attempt with
  | ok x => exact pure (h x rfl)
  | error failure => exact throw failure

theorem modify {f : Assembly → Assembly} (h : ∀ a, (f a).scopes = a.scopes) :
    Upholds I (modify f) fun _ => True :=
  fun a hI => ⟨(congrArg (I ·.table) (h a)).mpr hI, fun _ _ _ => trivial⟩

theorem onScopes {change : Scopes → Attempt (Scopes × α)}
    (h : ∀ s s' x, I s.table → change s = .ok (s', x) → I s'.table ∧ Q x) :
    Upholds I (Assembly.onScopes change) Q := by
  intro a hI
  unfold Assembly.onScopes
  split
  · next scopes x hchange =>
    obtain ⟨hI', hQ⟩ := h a.scopes scopes x hI hchange
    refine ⟨hI', fun y a' hy => ?_⟩
    cases hy
    exact hQ
  · exact ⟨hI, fun _ _ h => by cases h⟩

theorem grammar (parent : Option ScopeId) : Upholds I (Assembly.grammar parent) fun _ => True := by
  refine onScopes fun s s' x hI h => ?_
  cases h
  exact ⟨hI, trivial⟩

theorem external {uri : String} {location : Option Location} {read : Assembling Pattern}
    (h : Upholds I read P) : Upholds I (Assembly.external uri location read) P := by
  intro a hI
  obtain ⟨hend, hresult⟩ := h a hI
  unfold Assembly.external
  cases hread : read a with
  | ok p a' =>
    rw [hread] at hend
    refine ⟨hend, fun q a'' hq => ?_⟩
    cases hq
    exact hresult p a' hread
  | error failure a' =>
    rw [hread] at hend
    simp only
    split <;> exact ⟨hend, fun _ _ h => by cases h⟩

theorem define (hI : RuleTable.Upheld I P) {p : Pattern} (hp : P p) (scope : ScopeId)
    (name : String) (location : Option Location) :
    Upholds I (Assembly.define scope name p location) fun _ => True := by
  have hdefine : Upholds I (Assembly.onScopes (·.define scope name p location)) fun _ => True :=
    onScopes fun _ _ _ h hdefine => ⟨Scopes.upheld_define hI h hp hdefine, trivial⟩
  refine hdefine.bind fun id _ => modify fun a => ?_
  split <;> rfl

section

variable (hI : RuleTable.Upheld I P) (hP : Pattern.Constructive P)

include hI hP

theorem reference (scope : ScopeId) (name : String) (location : Option Location) :
    Upholds I (Assembly.reference scope name location) P := by
  refine onScopes fun s s' p h hreference => ⟨Scopes.upheld_reference hI h hreference, ?_⟩
  obtain ⟨rule, -, rfl⟩ := Scopes.mention_of_reference hreference
  exact hP.ref _ rule none

theorem parentReference (scope : ScopeId) (name : String) (location : Option Location) :
    Upholds I (Assembly.parentReference scope name location) P := by
  refine onScopes fun s s' p h hparent => ?_
  obtain ⟨parent, -, hreference⟩ := Scopes.reference_of_parentReference hparent
  obtain ⟨rule, -, rfl⟩ := Scopes.mention_of_reference hreference
  exact ⟨Scopes.upheld_reference hI h hreference, hP.ref _ rule none⟩

omit hI in
theorem endGrammar (scope : ScopeId) (location : Option Location) :
    Upholds I (Assembly.endGrammar scope location) P := by
  refine onScopes fun s s' p h hclose => ?_
  obtain ⟨rfl, rule, rfl⟩ := Scopes.ref_of_close hclose
  exact ⟨h, hP.ref _ rule none⟩

end

end Assembling.Upholds

/-! ## Reading a schema -/

/-- What holds of all work that is put together from calls of an assembly, where patterns without
types are defined and are the results of it. -/
structure Assembling.Closed (Y : ∀ {α : Type}, Assembling α → (α → Prop) → Prop) : Prop where
  pure : ∀ {α : Type} {x : α} {Q : α → Prop}, Q x → Y (pure x) Q
  throw : ∀ {α : Type} {Q : α → Prop} (failure : Failure), Y (throw failure) Q
  get : Y get fun _ => True
  bind : ∀ {α β : Type} {work : Assembling α} {next : α → Assembling β} {P : α → Prop}
    {R : β → Prop}, Y work P → (∀ x, P x → Y (next x) R) → Y (work >>= next) R
  grammar : ∀ parent, Y (Assembly.grammar parent) fun _ => True
  define : ∀ {p : Pattern}, p.Untyped → ∀ scope name location,
    Y (Assembly.define scope name p location) fun _ => True
  reference : ∀ scope name location, Y (Assembly.reference scope name location) Pattern.Untyped
  parentReference : ∀ scope name location,
    Y (Assembly.parentReference scope name location) Pattern.Untyped
  endGrammar : ∀ scope location, Y (Assembly.endGrammar scope location) Pattern.Untyped
  external : ∀ uri location {read : Assembling Pattern}, Y read Pattern.Untyped →
    Y (Assembly.external uri location read) Pattern.Untyped

theorem Assembling.Closed.lift {Y : ∀ {α : Type}, Assembling α → (α → Prop) → Prop} (h : Closed Y)
    {α : Type} {Q : α → Prop} {attempt : Attempt α} (hattempt : ∀ x, attempt = .ok x → Q x) :
    Y attempt.lift Q := by
  cases attempt with
  | ok x => exact h.pure (hattempt x rfl)
  | error failure => exact h.throw failure

theorem Assembling.Yields.closed : Assembling.Closed Assembling.Yields where
  pure := Upholds.pure
  throw := Upholds.throw
  get := Upholds.get
  bind := Upholds.bind
  grammar := Upholds.grammar
  define hp := Upholds.define RuleTable.upheld_fresh hp
  reference := Upholds.reference RuleTable.upheld_fresh Pattern.constructive_untyped
  parentReference := Upholds.parentReference RuleTable.upheld_fresh Pattern.constructive_untyped
  endGrammar := Upholds.endGrammar Pattern.constructive_untyped
  external _ _ := Upholds.external

namespace Schema

open Assembling

section

variable {Y : ∀ {α : Type}, Assembling α → (α → Prop) → Prop} (hclosed : Closed Y)

include hclosed

theorem dataPattern_of_closed (head : DataHead) : Y (dataPattern head) Pattern.Untyped :=
  hclosed.bind hclosed.get fun _ _ => hclosed.pure rfl

variable {external : String → Place → Assembling Pattern}
  (hexternal : ∀ uri place, Y (external uri place) Pattern.Untyped)

include hexternal

mutual

/-- Every construct gives a pattern without types, if external schemas do. -/
theorem buildWith_of_closed : ∀ (place : Place) (s : Schema),
    Y (s.buildWith external place) Pattern.Untyped
  | place, combine how operands location => by
    rw [buildWith]
    exact hclosed.bind (buildAll_of_closed place operands) fun ps hps =>
      hclosed.lift fun _ => Pattern.constructive_untyped.combined hps
  | place, oneOrMore operand => by
    rw [buildWith]
    exact hclosed.bind (buildWith_of_closed place operand) fun p hp => hclosed.pure hp
  | place, zeroOrMore operand location => by
    rw [buildWith]
    exact hclosed.bind (buildWith_of_closed place operand) fun p hp => hclosed.pure (hp.merge rfl)
  | place, optional operand location => by
    rw [buildWith]
    exact hclosed.bind (buildWith_of_closed place operand) fun p hp => hclosed.pure (hp.merge rfl)
  | place, list item location => by
    rw [buildWith]
    exact hclosed.bind (buildWith_of_closed place item) fun p hp => hclosed.pure hp
  | place, mixed operand location => by
    rw [buildWith]
    exact hclosed.bind (buildWith_of_closed place operand) fun p hp => hclosed.pure (hp.merge rfl)
  | place, empty location => hclosed.pure rfl
  | place, notAllowed location => hclosed.pure rfl
  | place, text location => hclosed.pure rfl
  | place, unreadable => hclosed.pure rfl
  | place, annotated operand => by
    rw [buildWith]
    exact buildWith_of_closed place operand
  | place, attr names content location => by
    rw [buildWith]
    refine hclosed.bind (buildWith_of_closed place content) fun p hp => ?_
    have hclass : Y (nameClass place names) fun _ => True := hclosed.lift fun _ _ => trivial
    exact hclosed.bind hclass fun names _ =>
      hclosed.pure (Pattern.constructive_untyped.perName names location hp.ofAttribute)
  | place, elem names content location => by
    rw [buildWith]
    refine hclosed.bind (buildWith_of_closed place content) fun p hp => ?_
    have hclass : Y (nameClass place names) fun _ => True := hclosed.lift fun _ _ => trivial
    exact hclosed.bind hclass fun names _ =>
      hclosed.pure (Pattern.constructive_untyped.perName names location hp.ofElement)
  | place, data head => by
    rw [buildWith]
    exact dataPattern_of_closed hclosed head
  | place, dataExcept head except => by
    rw [buildWith]
    exact hclosed.bind (buildWith_of_closed place except) fun _ _ =>
      dataPattern_of_closed hclosed head
  | place, value library type literal location => by
    rw [buildWith]
    exact hclosed.bind hclosed.get fun _ _ => hclosed.pure rfl
  | place, grammar definitions location => by
    rw [buildWith]
    refine hclosed.bind (hclosed.grammar place.scope) fun scope _ => ?_
    exact hclosed.bind (defineAll_of_closed _ definitions) fun _ _ =>
      hclosed.endGrammar scope location
  | place, ref name location => by
    rw [buildWith]
    exact hclosed.reference _ name location
  | place, parentRef name location => by
    rw [buildWith]
    exact hclosed.parentReference _ name location
  | place, externalRef uri ns location => by
    rw [buildWith]
    exact hclosed.external uri location (hexternal uri _)

theorem buildAll_of_closed : ∀ (place : Place) (ss : List Schema),
    Y (buildAll external place ss) fun ps => ∀ p ∈ ps, p.Untyped
  | place, [] => hclosed.pure fun _ h => absurd h List.not_mem_nil
  | place, s :: ss => by
    rw [buildAll]
    refine hclosed.bind (buildWith_of_closed place s) fun p hp => ?_
    exact hclosed.bind (buildAll_of_closed place ss) fun ps hps =>
      hclosed.pure (List.forall_mem_cons.mpr ⟨hp, hps⟩)

theorem defineAll_of_closed : ∀ (place : Place) (ds : List (DefinitionHead × Schema)),
    Y (defineAll external place ds) fun _ => True
  | place, [] => hclosed.pure trivial
  | place, d :: ds => by
    rw [defineAll]
    exact hclosed.bind (defineOne_of_closed place d) fun _ _ => defineAll_of_closed place ds

theorem defineOne_of_closed : ∀ (place : Place) (d : DefinitionHead × Schema),
    Y (defineOne external place d) fun _ => True
  | place, (head, s) => by
    rw [defineOne]
    exact hclosed.bind (buildWith_of_closed place s) fun p hp =>
      hclosed.define hp place.nameScope head.name head.location

end

omit hexternal

theorem buildExternal_of_closed (schemas : List (String × Schema)) : ∀ (depth : Nat)
    (uri : String) (place : Place), Y (buildExternal schemas depth uri place) Pattern.Untyped
  | 0, uri, place => hclosed.throw (notFound uri)
  | depth + 1, uri, place => by
    rw [buildExternal]
    split
    · next s _ =>
      exact buildWith_of_closed hclosed (buildExternal_of_closed schemas depth) place s
    · exact hclosed.throw (notFound uri)

/-- What holds of work that is put together from calls holds of reading a schema. -/
theorem build_of_closed (externals : Externals) (place : Place) (s : Schema) :
    Y (s.build externals place) Pattern.Untyped := by
  cases externals with
  | unavailable => exact buildWith_of_closed hclosed (fun _ _ => hclosed.throw _) place s
  | library schemas =>
    exact buildWith_of_closed hclosed (buildExternal_of_closed hclosed schemas _) place s

end

/-- Whatever schema is read, its table is fresh. -/
theorem fresh_of_build {externals : Externals} {datatypes : Datatypes} {tracer : Trace.Tracer}
    {s : Schema} {top : Pattern} {a : Assembly}
    (h : s.build externals .top ((Assembly.new datatypes).withTracer tracer) = .ok top a) :
    (a.finish top).rules.Fresh := by
  obtain ⟨hend, hresult⟩ :=
    build_of_closed Yields.closed externals .top s ((Assembly.new datatypes).withTracer tracer)
      .empty
  rw [h] at hend
  have htop : top.Untyped := hresult top a h
  unfold Assembly.finish
  split
  · exact hend
  · exact RuleTable.Fresh.push hend ((Rule.Fresh.mentioned rootScope startName).define htop _)

/-- A schema compiles exactly when it can be read, all that its entry reaches is defined, and
all that is looked into can be written out. -/
theorem compile_ok_iff {s : Schema} {externals : Externals} {datatypes : Datatypes}
    {options : CompileOptions} :
    (∃ x, s.compile externals datatypes options = .ok x) ↔
      ∃ top a, s.build externals .top
          ((Assembly.new datatypes).withTracer (.new options.trace)) = .ok top a ∧
        (a.finish top).rules.Compiles (a.finish top).entry := by
  unfold compile
  cases hbuild : s.build externals .top
      ((Assembly.new datatypes).withTracer (.new options.trace)) with
  | error failure a => simp
  | ok top a =>
    have hfresh := fresh_of_build hbuild
    constructor
    · rintro ⟨x, hx⟩
      refine ⟨top, a, rfl, ?_⟩
      obtain ⟨c, hstart, hx⟩ := Attempt.of_bind_eq_ok hx
      split at hx
      · next m c' hfinish =>
        exact (Compilation.compiles_iff hfresh).mp ⟨c, m, c', hstart, hfinish⟩
      · cases hx
    · rintro ⟨_, _, ⟨⟩, hcompiles⟩
      obtain ⟨c, m, c', hstart, hfinish⟩ : ∃ c m c',
          Compilation.start (a.finish top).rules (a.finish top).entry options
            (a.finish top).tracer = .ok c ∧ Compilation.finish c = .ok m c' :=
        (Compilation.compiles_iff hfresh).mpr hcompiles
      refine ⟨⟨m, c'.tracer⟩, ?_⟩
      simp only [hstart, Attempt.ok_bind, hfinish]
      rfl

end Schema

end MarkupTypes
