import MarkupTypes.Proofs.Assembling
import MarkupTypes.Proofs.RuleKeys

/-!
# Sources of schemas

Whatever a schema is read from, it is put into an assembly by calls (`Assembly.Call`), some of
which may fail. After any calls the rules of the table are those of the names of the scopes
(`Scopes.Registered`), so no two of them have one key. The start rule that a pattern gets is not
among these, and it takes the name of the rule that the outermost grammar starts from. So a model
knows all rules with types unless the start rule and the rule of that grammar both have types
(`Assembly.keepsRules_iff_not_collides`). Schemas are such sources (`Assembling.Issues.closed`).
-/

namespace MarkupTypes

namespace Scopes

variable {s s' : Scopes} {id : ScopeId} {name : String} {rule : RuleId} {key : RuleKey}
  {location : Option Location} {p : Pattern}

/-! ## Names of rules -/

/-- The rules of the table are those of the names of the scopes. -/
def Registered (s : Scopes) : Prop :=
  ∀ key rule, s.lookup? key.scope key.name = some rule ↔ s.table.key? rule = some key

theorem registered_empty : empty.Registered := fun _ _ => by
  simp [empty, lookup?, RuleTable.key?, RuleTable.get?, RuleTable.empty]

/-- A new scope has no rules. -/
theorem lookup?_openScope (s : Scopes) (parent : Option ScopeId) (id : ScopeId) (name : String) :
    (s.openScope parent).lookup? id name = s.lookup? id name := by
  change (s.scopes ++ [⟨parent, .empty⟩])[id]?.bind _ = _
  rw [List.getElem?_append]
  split
  · rfl
  · next hge =>
    rw [List.getElem?_singleton, lookup?, List.getElem?_eq_none (Nat.le_of_not_lt hge)]
    split <;> rfl

/-- A new name in a scope. -/
theorem lookup?_insert {old : Scope} (hold : s.scopes[id]? = some old) (table : RuleTable)
    (i : ScopeId) (n : String) :
    (Scopes.mk (s.scopes.set id ⟨old.parent, old.rules.insert name rule⟩) table).lookup? i n =
      if i = id ∧ n = name then some rule else s.lookup? i n := by
  by_cases hi : i = id
  · subst hi
    have hlt := (List.getElem?_eq_some_iff.mp hold).1
    rw [lookup?, lookup?, hold, List.getElem?_set_self hlt, Option.bind_some, Option.bind_some]
    by_cases hn : n = name
    · subst hn
      rw [if_pos ⟨rfl, rfl⟩]
      exact SortedMap.get?_insert_self _ _ _
    · rw [if_neg fun h => hn h.2]
      exact SortedMap.get?_insert_of_ne _ _ hn
  · rw [if_neg fun h => hi h.1, lookup?, lookup?, List.getElem?_set_ne (Ne.symm hi)]

/-- A name that was not mentioned before gets a new rule. -/
theorem mention_cases (h : s.mention id name = .ok (s', rule)) :
    s' = s ∨ s.lookup? id name = none ∧ s'.table = s.table.push (.mentioned id name) ∧
      ∀ i n, s'.lookup? i n = if i = id ∧ n = name then some s.table.nextId else s.lookup? i n := by
  obtain ⟨old, hold, ⟨-, rfl⟩ | ⟨hnew, rfl, rfl⟩⟩ := scope_of_mention h
  · exact .inl rfl
  · refine .inr ⟨?_, rfl, lookup?_insert hold _⟩
    rw [lookup?, hold]
    exact hnew

theorem Registered.openScope (h : s.Registered) (parent : Option ScopeId) :
    (s.openScope parent).Registered := fun key rule => by
  rw [lookup?_openScope]
  exact h key rule

theorem Registered.mention (h : s.Registered) (hmention : s.mention id name = .ok (s', rule)) :
    s'.Registered := by
  obtain rfl | ⟨hnew, htable, hlookup⟩ := mention_cases hmention
  · exact h
  · intro key i
    have hrest : s.lookup? key.scope key.name = some i ↔ s.table.key? i = some key := h key i
    rw [hlookup, htable, RuleTable.key?_push]
    by_cases hkey : key = ⟨id, name⟩
    · -- The new name : its rule is the new one, and no other has the key.
      subst hkey
      rw [if_pos ⟨rfl, rfl⟩]
      rw [hnew] at hrest
      split
      · next hi => simp [hi, Rule.key, Rule.mentioned]
      · next hi => simpa [Ne.symm hi] using hrest
    · have hother : ¬(key.scope = id ∧ key.name = name) := by
        rintro ⟨rfl, rfl⟩
        exact hkey rfl
      rw [if_neg hother, hrest]
      split
      · next hi =>
        subst hi
        constructor
        · exact fun hold => absurd (RuleTable.lt_nextId_of_key? hold) (Nat.lt_irrefl _)
        · exact fun hnext => absurd (Option.some.inj hnext).symm hkey
      · rfl

theorem Registered.modify (h : s.Registered) {f : Rule → Rule} (hkey : ∀ r, (f r).key = r.key)
    (i : RuleId) : Scopes.Registered { s with table := s.table.modify i f } := fun key rule => by
  change s.lookup? key.scope key.name = some rule ↔ (s.table.modify i f).key? rule = some key
  rw [RuleTable.key?_modify hkey]
  exact h key rule

theorem Registered.define (h : s.Registered)
    (hdefine : s.define id name p location = .ok (s', rule)) : s'.Registered := by
  obtain ⟨t, hmention, rfl⟩ := mention_of_define hdefine
  exact (h.mention hmention).modify (f := (·.define p location)) (fun _ => rfl) rule

theorem Registered.reference (h : s.Registered)
    (hreference : s.reference id name location = .ok (s', p)) : s'.Registered := by
  obtain ⟨rule, hmention, -⟩ := mention_of_reference hreference
  exact h.mention hmention

theorem Registered.parentReference (h : s.Registered)
    (hreference : s.parentReference id name location = .ok (s', p)) : s'.Registered := by
  obtain ⟨parent, -, hreference⟩ := reference_of_parentReference hreference
  exact h.reference hreference

/-- No two rules have one key. -/
theorem Registered.eq_of_key? (h : s.Registered) {a b : RuleId} (ha : s.table.key? a = some key)
    (hb : s.table.key? b = some key) : a = b :=
  Option.some.inj (((h key a).mpr ha).symm.trans ((h key b).mpr hb))

end Scopes

/-! ## Calls -/

namespace Assembly

/-- What is asked of an assembly while a schema is read, but for what leaves the rules as they
are. -/
inductive Call where
  | grammar (parent : Option ScopeId)
  | define (scope : ScopeId) (name : String) (pattern : Pattern) (location : Option Location)
  | reference (scope : ScopeId) (name : String) (location : Option Location)
  | parentReference (scope : ScopeId) (name : String) (location : Option Location)
  | endGrammar (scope : ScopeId) (location : Option Location)

variable {a : Assembly}

/-- The assembly after a call, also where that fails. -/
def perform (a : Assembly) : Call → Assembly
  | .grammar parent => endState (grammar parent a)
  | .define scope name pattern location => endState (define scope name pattern location a)
  | .reference scope name location => endState (reference scope name location a)
  | .parentReference scope name location => endState (parentReference scope name location a)
  | .endGrammar scope location => endState (endGrammar scope location a)

/-- The assembly after calls. -/
def performAll (a : Assembly) (calls : List Call) : Assembly := calls.foldl perform a

/-- No element of a pattern that is defined has a type. -/
def Call.Untyped : Call → Prop
  | define _ _ pattern _ => pattern.Untyped
  | _ => True

instance : DecidablePred Call.Untyped
  | .define _ _ pattern _ => inferInstanceAs (Decidable (elementTypes pattern.elements = []))
  | .grammar _ => .isTrue trivial
  | .reference .. => .isTrue trivial
  | .parentReference .. => .isTrue trivial
  | .endGrammar .. => .isTrue trivial

/-- A table whose rules are those of the scopes, none of them processed. -/
structure Sound (a : Assembly) : Prop where
  registered : a.scopes.Registered
  fresh : a.scopes.table.Fresh

theorem sound_new (datatypes : Datatypes) (tracer : Trace.Tracer) :
    ((new datatypes).withTracer tracer).Sound :=
  ⟨Scopes.registered_empty, .empty⟩

/-- A change of the scopes that keeps the names of rules. -/
theorem registered_onScopes {α : Type} {change : Scopes → Attempt (Scopes × α)}
    (h : a.scopes.Registered)
    (hchange : ∀ s x, change a.scopes = .ok (s, x) → s.Registered) :
    (endState (onScopes change a)).scopes.Registered := by
  unfold onScopes
  split
  · next s x hs => exact hchange s x hs
  · exact h

theorem scopes_define (scope : ScopeId) (name : String) (pattern : Pattern)
    (location : Option Location) : (endState (define scope name pattern location a)).scopes =
      (endState (onScopes (·.define scope name pattern location) a)).scopes := by
  unfold define
  rw [run_bind]
  cases onScopes (·.define scope name pattern location) a with
  | error failure a' => rfl
  | ok id a' =>
    simp only [run_modify, endState_ok]
    split <;> rfl

theorem registered_perform (h : a.scopes.Registered) (call : Call) :
    (a.perform call).scopes.Registered := by
  cases call with
  | grammar parent =>
    refine registered_onScopes h fun s x hs => ?_
    cases hs
    exact h.openScope parent
  | define scope name pattern location =>
    rw [perform, scopes_define]
    exact registered_onScopes h fun s x hs => h.define hs
  | reference scope name location =>
    exact registered_onScopes h fun s x hs => h.reference hs
  | parentReference scope name location =>
    exact registered_onScopes h fun s x hs => h.parentReference hs
  | endGrammar scope location =>
    refine registered_onScopes h fun s x hs => ?_
    obtain ⟨rfl, -⟩ := Scopes.ref_of_close hs
    exact h

theorem fresh_perform (h : a.scopes.table.Fresh) {call : Call} (hcall : call.Untyped) :
    (a.perform call).scopes.table.Fresh := by
  cases call with
  | grammar parent => exact (Assembling.Upholds.grammar parent a h).1
  | define scope name pattern location =>
    exact (Assembling.Upholds.define RuleTable.upheld_fresh hcall scope name location a h).1
  | reference scope name location =>
    exact (Assembling.Yields.closed.reference scope name location a h).1
  | parentReference scope name location =>
    exact (Assembling.Yields.closed.parentReference scope name location a h).1
  | endGrammar scope location => exact (Assembling.Yields.closed.endGrammar scope location a h).1

theorem Sound.performAll (h : a.Sound) {calls : List Call}
    (hcalls : ∀ call ∈ calls, call.Untyped) : (a.performAll calls).Sound := by
  induction calls generalizing a with
  | nil => exact h
  | cons call calls ih =>
    obtain ⟨hcall, hcalls⟩ := List.forall_mem_cons.mp hcalls
    exact ih ⟨registered_perform h.registered call, fresh_perform h.fresh hcall⟩ hcalls

/-! ## The start rule of a pattern -/

variable {top : Pattern}

/-- The start rule of a pattern that is no reference. -/
def startRule (top : Pattern) : Rule :=
  (Rule.mentioned rootScope startName).define top top.location

/-- A pattern that is no reference to a rule. -/
theorem finish_cases (a : Assembly) (top : Pattern) :
    (∃ m id label, top = .ref m id label ∧ (a.finish top).rules = a.scopes.table) ∨
      (a.finish top).rules = a.scopes.table.push (startRule top) ∧
        (a.finish top).entry = a.scopes.table.nextId := by
  unfold finish
  split
  · exact .inl ⟨_, _, _, rfl, rfl⟩
  · exact .inr ⟨rfl, rfl⟩

/-- A pattern gets a start rule with a type, and reaches a rule with a type that has the key of
the start rule. -/
def Collides (a : Assembly) (top : Pattern) : Prop :=
  top.children.length ≠ 1 ∧ ∃ id rule, a.scopes.lookup? rootScope startName = some id ∧
    a.scopes.table.get? id = some rule ∧ rule.isInline = false ∧
    (a.finish top).rules.Reaches (a.finish top).entry id

theorem Sound.fresh_finish (h : a.Sound) (htop : top.Untyped) : (a.finish top).rules.Fresh := by
  rcases a.finish_cases top with ⟨m, id, label, rfl, hrules⟩ | ⟨hrules, -⟩
  · rw [hrules]
    exact h.fresh
  · rw [hrules]
    exact h.fresh.push ((Rule.Fresh.mentioned rootScope startName).define htop _)

/-- What has the key of the start rule collides with it. -/
theorem Sound.collides_of_key (h : a.Sound)
    (hrules : (a.finish top).rules = a.scopes.table.push (startRule top)) {key : RuleKey}
    {id entry : RuleId} (hstart : (a.finish top).rules.Materializes entry a.scopes.table.nextId key)
    (hid : (a.finish top).rules.Materializes (a.finish top).entry id key)
    (hne : id ≠ a.scopes.table.nextId) : a.Collides top := by
  rw [hrules] at hstart
  obtain ⟨-, start, hget, hinline, rfl⟩ := hstart
  rw [RuleTable.get?_push, if_pos rfl] at hget
  cases hget
  obtain ⟨hreaches, rule, hrule, hrule', hkey⟩ := hid
  rw [hrules, RuleTable.get?_push, if_neg hne] at hrule
  refine ⟨of_decide_eq_false hinline, id, rule, ?_, hrule, hrule', hreaches⟩
  refine (h.registered ⟨rootScope, startName⟩ id).mpr ?_
  rw [RuleTable.key?, hrule, Option.map_some, hkey]
  rfl

/-- What collides with the start rule has its key. -/
theorem Sound.key_of_collides (h : a.Sound)
    (hrules : (a.finish top).rules = a.scopes.table.push (startRule top))
    (hentry : (a.finish top).entry = a.scopes.table.nextId) (hcollides : a.Collides top) :
    ∃ id key, id ≠ a.scopes.table.nextId ∧
      (a.finish top).rules.Materializes (a.finish top).entry id key ∧
      (a.finish top).rules.Materializes (a.finish top).entry a.scopes.table.nextId key := by
  obtain ⟨hchildren, id, rule, hlookup, hrule, hinline, hreaches⟩ := hcollides
  have hkey := (h.registered ⟨rootScope, startName⟩ id).mp hlookup
  have hne : id ≠ a.scopes.table.nextId := Nat.ne_of_lt (RuleTable.lt_nextId_of_key? hkey)
  rw [RuleTable.key?, hrule] at hkey
  refine ⟨id, ⟨rootScope, startName⟩, hne, ⟨hreaches, rule, ?_, hinline, Option.some.inj hkey⟩,
    hentry ▸ .refl, startRule top, ?_, decide_eq_false hchildren, rfl⟩
  · rw [hrules, RuleTable.get?_push, if_neg hne]
    exact hrule
  · rw [hrules, RuleTable.get?_push, if_pos rfl]

theorem Sound.distinctKeys_iff (h : a.Sound) :
    (a.finish top).rules.DistinctKeys (a.finish top).entry ↔ ¬a.Collides top := by
  rcases a.finish_cases top with ⟨m, id, label, rfl, hrules⟩ | ⟨hrules, hentry⟩
  · have hdistinct : (a.finish (.ref m id label)).rules.DistinctKeys
        (a.finish (.ref m id label)).entry := fun i j key hi hj => by
      rw [hrules] at hi hj
      exact h.registered.eq_of_key? hi.key? hj.key?
    exact iff_of_true hdistinct fun hcollides => hcollides.1 rfl
  · constructor
    · intro hdistinct hcollides
      obtain ⟨id, key, hne, hid, hstart⟩ := h.key_of_collides hrules hentry hcollides
      exact hne (hdistinct _ _ key hid hstart)
    · -- Of two rules of one key, one would be the start rule, as names are of one rule each.
      intro hfree i j key hi hj
      have hold : ∀ {k}, k ≠ a.scopes.table.nextId → (a.finish top).rules.Materializes
          (a.finish top).entry k key → a.scopes.table.key? k = some key := by
        intro k hk hmaterializes
        have hkey := hmaterializes.key?
        rwa [hrules, RuleTable.key?_push, if_neg hk] at hkey
      by_cases hi' : i = a.scopes.table.nextId
      · subst hi'
        by_contra hne
        exact hfree (h.collides_of_key hrules hi hj (Ne.symm hne))
      · by_cases hj' : j = a.scopes.table.nextId
        · subst hj'
          exact absurd (h.collides_of_key hrules hj hi hi') hfree
        · exact h.registered.eq_of_key? (hold hi' hi) (hold hj' hj)

theorem Sound.keepsRules_iff (h : a.Sound) (htop : top.Untyped) {options : CompileOptions}
    {c c' : Compilation} (hstart : Compilation.start (a.finish top).rules (a.finish top).entry
      options (a.finish top).tracer = .ok c) {m : Model} (hfinish : c.finish = .ok m c') :
    m = c'.model ∧ (c'.KeepsRules ↔ ¬a.Collides top) := by
  have hfresh := h.fresh_finish htop
  obtain ⟨hm, hfinished⟩ := Compilation.finished_of_finish hfresh hstart hfinish
  have hlisted := Compilation.listed_of_finish hfresh hstart hfinish
  exact ⟨hm, (hfinished.keepsRules_iff hlisted).trans h.distinctKeys_iff⟩

/-- However a schema is read, its model knows all rules with types, unless its start rule has a
type and the key of another rule with a type. -/
theorem keepsRules_iff_not_collides {datatypes : Datatypes} {tracer : Trace.Tracer}
    {calls : List Call} (hcalls : ∀ call ∈ calls, call.Untyped) (htop : top.Untyped)
    (ha : ((new datatypes).withTracer tracer).performAll calls = a) {options : CompileOptions}
    {c c' : Compilation} (hstart : Compilation.start (a.finish top).rules (a.finish top).entry
      options (a.finish top).tracer = .ok c) {m : Model} (hfinish : c.finish = .ok m c') :
    m = c'.model ∧ (c'.KeepsRules ↔ ¬a.Collides top) := by
  have hsound : a.Sound := ha ▸ (sound_new datatypes tracer).performAll hcalls
  exact hsound.keepsRules_iff htop hstart hfinish

/-- A grammar that starts from a rule with two attributes. -/
def pairGrammar : List Call :=
  [.grammar none,
    .define rootScope startName
      ((Pattern.ofAttribute (.unqualified "a") .text).merge (.ofAttribute (.unqualified "b") .text))
      none,
    .endGrammar rootScope none]

/-- The assembly of a grammar that starts from a rule with two attributes. -/
def pair : Assembly := ((new .xsd).withTracer .off).performAll pairGrammar

theorem keepsRules_iff_not_collides_pair : (∀ call ∈ pairGrammar, call.Untyped) ∧
    (Pattern.ofRule 0).Untyped ∧ ∃ c m c',
      Compilation.start (pair.finish (.ofRule 0)).rules (pair.finish (.ofRule 0)).entry .standard
        (pair.finish (.ofRule 0)).tracer = .ok c ∧ c.finish = .ok m c' ∧
      m = c'.model ∧ (c'.KeepsRules ↔ ¬pair.Collides (.ofRule 0)) := by
  have hcalls : ∀ call ∈ pairGrammar, call.Untyped := by decide
  have htop : (Pattern.ofRule 0).Untyped := rfl
  have hok : Compilation.succeedsWith (pair.finish (.ofRule 0)).rules
      (pair.finish (.ofRule 0)).entry .standard (pair.finish (.ofRule 0)).tracer
      (fun _ _ => true) = true := by
    decide +kernel
  obtain ⟨c, m, c', hstart, hfinish, -⟩ := Compilation.exists_of_succeedsWith hok
  exact ⟨hcalls, htop, c, m, c', hstart, hfinish,
    keepsRules_iff_not_collides hcalls htop rfl hstart hfinish⟩

/-- The grammar beside a third attribute. -/
def besidePair : Pattern := (Pattern.ofRule 0).merge (.ofAttribute (.unqualified "c") .text)

/-- The start rule of both takes the place of the grammar's own, so that of two rules with types
one is known. -/
theorem not_keepsRules_besidePair : (∀ call ∈ pairGrammar, call.Untyped) ∧ besidePair.Untyped ∧
    ∃ c m c', Compilation.start (pair.finish besidePair).rules (pair.finish besidePair).entry
        .standard (pair.finish besidePair).tracer = .ok c ∧ c.finish = .ok m c' ∧ m = c'.model ∧
      c'.typedRules = [1, 0] ∧ m.rules.size = 1 ∧ ¬c'.KeepsRules := by
  have hcalls : ∀ call ∈ pairGrammar, call.Untyped := by decide
  have hok : Compilation.succeedsWith (pair.finish besidePair).rules
      (pair.finish besidePair).entry .standard (pair.finish besidePair).tracer
      (fun m c' => m = c'.model ∧ c'.typedRules = [1, 0] ∧ m.rules.size = 1) = true := by
    decide +kernel
  obtain ⟨c, m, c', hstart, hfinish, hends⟩ := Compilation.exists_of_succeedsWith hok
  obtain ⟨hm, htyped, hsize⟩ := of_decide_eq_true hends
  refine ⟨hcalls, rfl, c, m, c', hstart, hfinish, hm, htyped, hsize, fun hkeeps => ?_⟩
  have hlength := hkeeps.size
  rw [← hm, hsize, htyped] at hlength
  cases hlength

end Assembly

/-! ## Schemas as sources -/

namespace Assembly

variable {a a' : Assembly} {α : Type} {x : α} {change : Scopes → Attempt (Scopes × α)}

theorem of_onScopes (h : onScopes change a = .ok x a') : ∃ s, change a.scopes = .ok (s, x) := by
  unfold onScopes at h
  split at h
  · next s y hchange =>
    cases h
    exact ⟨s, hchange⟩
  · cases h

theorem performAll_append (a : Assembly) (calls calls' : List Call) :
    a.performAll (calls ++ calls') = (a.performAll calls).performAll calls' :=
  List.foldl_append

theorem endState_external (uri : String) (location : Option Location) (read : Assembling Pattern)
    (a : Assembly) : endState (external uri location read a) = endState (read a) := by
  unfold external
  cases read a with
  | ok p a' => rfl
  | error failure a' =>
    simp only
    split <;> rfl

theorem of_external {uri : String} {location : Option Location} {read : Assembling Pattern}
    {p : Pattern} (h : external uri location read a = .ok p a') : read a = .ok p a' := by
  unfold external at h
  split at h
  · next hread =>
    cases h
    exact hread
  · split at h <;> cases h

end Assembly

/-- Work that is a series of calls, and has a result of some kind when it does not fail. -/
def Assembling.Issues {α : Type} (work : Assembling α) (Q : α → Prop) : Prop :=
  ∀ a : Assembly, ∃ calls : List Assembly.Call, (∀ call ∈ calls, call.Untyped) ∧
    endState (work a) = a.performAll calls ∧ ∀ x a', work a = .ok x a' → Q x

namespace Assembling.Issues

variable {α β : Type} {work : Assembling α} {next : α → Assembling β} {P Q : α → Prop}
  {R : β → Prop}

/-- Work that leaves everything as it is. -/
theorem of_still (hstill : ∀ a, endState (work a) = a) (h : ∀ a x a', work a = .ok x a' → Q x) :
    Issues work Q :=
  fun a => ⟨[], fun _ hcall => absurd hcall List.not_mem_nil, hstill a, h a⟩

theorem of_call (call : Assembly.Call) (hcall : call.Untyped)
    (hperform : ∀ a, endState (work a) = a.perform call)
    (h : ∀ a x a', work a = .ok x a' → Q x) : Issues work Q :=
  fun a => ⟨[call], List.forall_mem_singleton.mpr hcall, hperform a, h a⟩

theorem bind (h : Issues work P) (hnext : ∀ x, P x → Issues (next x) R) :
    Issues (work >>= next) R := by
  intro a
  obtain ⟨calls, hcalls, hend, hresult⟩ := h a
  rw [run_bind]
  cases hwork : work a with
  | error failure a' =>
    rw [hwork] at hend
    exact ⟨calls, hcalls, hend, fun _ _ h => by cases h⟩
  | ok x a' =>
    rw [hwork] at hend
    obtain ⟨calls', hcalls', hend', hresult'⟩ := hnext x (hresult x a' hwork) a'
    refine ⟨calls ++ calls', List.forall_mem_append.mpr ⟨hcalls, hcalls'⟩, ?_, hresult'⟩
    rw [Assembly.performAll_append, ← hend]
    exact hend'

theorem closed : Closed Issues where
  pure h := of_still (fun _ => rfl) fun _ _ _ hx => by
    cases hx
    exact h
  throw _ := of_still (fun _ => rfl) fun _ _ _ hx => by cases hx
  get := of_still (fun _ => rfl) fun _ _ _ _ => trivial
  bind := bind
  grammar parent := of_call (.grammar parent) trivial (fun _ => rfl) fun _ _ _ _ => trivial
  define hp scope name location :=
    of_call (.define scope name _ location) hp (fun _ => rfl) fun _ _ _ _ => trivial
  reference scope name location :=
    of_call (.reference scope name location) trivial (fun _ => rfl) fun _ _ _ h => by
      obtain ⟨_, hreference⟩ := Assembly.of_onScopes h
      obtain ⟨rule, -, rfl⟩ := Scopes.mention_of_reference hreference
      rfl
  parentReference scope name location :=
    of_call (.parentReference scope name location) trivial (fun _ => rfl) fun _ _ _ h => by
      obtain ⟨_, hparent⟩ := Assembly.of_onScopes h
      obtain ⟨parent, -, hreference⟩ := Scopes.reference_of_parentReference hparent
      obtain ⟨rule, -, rfl⟩ := Scopes.mention_of_reference hreference
      rfl
  endGrammar scope location :=
    of_call (.endGrammar scope location) trivial (fun _ => rfl) fun _ _ _ h => by
      obtain ⟨_, hclose⟩ := Assembly.of_onScopes h
      obtain ⟨-, rule, rfl⟩ := Scopes.ref_of_close hclose
      rfl
  external uri location _ h a := by
    obtain ⟨calls, hcalls, hend, hresult⟩ := h a
    refine ⟨calls, hcalls, (Assembly.endState_external ..).trans hend, fun p a' hp => ?_⟩
    exact hresult p a' (Assembly.of_external hp)

end Assembling.Issues

/-- The model of a schema knows all rules with types, unless the start rule of the schema has a
type and the key of another rule with a type. -/
theorem Schema.keepsRules_iff {s : Schema} {externals : Externals} {datatypes : Datatypes}
    {tracer : Trace.Tracer} {top : Pattern} {a : Assembly}
    (hbuild : s.build externals .top ((Assembly.new datatypes).withTracer tracer) = .ok top a)
    {options : CompileOptions} {c c' : Compilation}
    (hstart : Compilation.start (a.finish top).rules (a.finish top).entry options
      (a.finish top).tracer = .ok c) {m : Model} (hfinish : c.finish = .ok m c') :
    m = c'.model ∧ (c'.KeepsRules ↔ ¬a.Collides top) := by
  obtain ⟨calls, hcalls, hend, hresult⟩ :=
    build_of_closed Assembling.Issues.closed externals .top s
      ((Assembly.new datatypes).withTracer tracer)
  rw [hbuild] at hend
  obtain rfl : a = _ := hend
  have hsound := (Assembly.sound_new datatypes tracer).performAll hcalls
  exact hsound.keepsRules_iff (hresult _ _ hbuild) hstart hfinish

end MarkupTypes
