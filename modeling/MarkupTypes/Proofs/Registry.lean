import MarkupTypes.Proofs.Sources

/-!
# Registration in place

Rules are added to scopes as a side effect : a name is looked up, and when it is new a rule is
allocated in the table and entered into the scope. Here the operations on scopes change them
step by step (`Registry.Operation.work`), and are shown to come to what the functions on scopes
give (`Registry.Operation.work_eq`). So a failure comes before the first change, wherever in an
operation it arises.

A ledger logs what became of each operation (`Registry.Ledger`). The rules of the scopes are told
by the log (`Registry.Ledger.tells_run`) : whichever operation mentions a name first, all that
mention it are answered with one rule, and a rule is the merge of what was defined for it, in that
order.
-/

namespace MarkupTypes

/-- Work on scopes. After a failure the scopes are as the work left them. -/
abbrev Registering := EStateM Failure Scopes

namespace Registering

/-- A change of the scopes that is made as a whole or not at all. -/
def whole {α : Type} (change : Scopes → Attempt (Scopes × α)) : Registering α := fun s =>
  match change s with
  | .ok (s', x) => .ok x s'
  | .error failure => .error failure s

variable (id : ScopeId) (name : String)

/-- Add a rule to the table. -/
def allocate : Registering RuleId := do
  let rule := (← get).table.nextId
  modify fun s => { s with table := s.table.push (.mentioned id name) }
  return rule

/-- Enter a rule into a scope. -/
def enter (rule : RuleId) : Registering Unit :=
  modify fun s => { s with scopes := s.scopes.modify id fun scope =>
    { scope with rules := scope.rules.insert name rule } }

/-- The rule of a name in a scope, which is added if it has not been mentioned. -/
def mention : Registering RuleId := do
  let scope ← Attempt.lift ((← get).scope id)
  match scope.rules.get? name with
  | some rule => return rule
  | none =>
    let rule ← allocate id name
    enter id name rule
    return rule

/-- Add a definition of a rule. -/
def define (pattern : Pattern) (location : Option Location) : Registering RuleId := do
  let name ← Attempt.lift (Attempt.nonEmpty name "name")
  let rule ← mention id name
  modify fun s => { s with table := s.table.modify rule (·.define pattern location) }
  return rule

/-- A reference to a rule. -/
def reference (location : Option Location) : Registering Pattern := do
  let name ← Attempt.lift (Attempt.nonEmpty name "name")
  let rule ← mention id name
  return .ref ⟨false, location⟩ rule none

/-- A reference to a rule of the scope around a scope. -/
def parentReference (location : Option Location) : Registering Pattern := do
  match ← Attempt.lift ((← get).parent id) with
  | some parent => reference parent name location
  | none =>
    let message := "parentRef to " ++ name ++ " outside a nested grammar"
    throw (.of (.malformedSchema message location))

variable {id name}

theorem mention_eq : mention id name = whole (·.mention id name) := by
  funext s
  simp only [mention, whole, Scopes.mention, Scopes.scope, run_bind, run_get]
  cases hold : s.scopes[id]? with
  | none => rfl
  | some old =>
    simp only [run_lift_ok, Attempt.ok_bind]
    cases hrule : old.rules.get? name with
    | some rule => rfl
    | none =>
      have hset : s.scopes.modify id (fun scope =>
          { scope with rules := scope.rules.insert name s.table.nextId }) =
            s.scopes.set id { old with rules := old.rules.insert name s.table.nextId } := by
        rw [List.modify_eq_set_getElem?, hold]
        rfl
      simp only [allocate, enter, run_bind, run_get, run_modify, run_pure, hset]
      rfl

theorem define_eq (pattern : Pattern) (location : Option Location) :
    define id name pattern location = whole (·.define id name pattern location) := by
  funext s
  simp only [define, whole, Scopes.define, run_bind]
  cases Attempt.nonEmpty name "name" with
  | error failure => rfl
  | ok name =>
    simp only [run_lift_ok, Attempt.ok_bind, mention_eq, whole]
    cases s.mention id name <;> rfl

theorem reference_eq (location : Option Location) :
    reference id name location = whole (·.reference id name location) := by
  funext s
  simp only [reference, whole, Scopes.reference, run_bind]
  cases Attempt.nonEmpty name "name" with
  | error failure => rfl
  | ok name =>
    simp only [run_lift_ok, Attempt.ok_bind, mention_eq, whole]
    cases s.mention id name <;> rfl

theorem parentReference_eq (location : Option Location) :
    parentReference id name location = whole (·.parentReference id name location) := by
  funext s
  simp only [parentReference, whole, Scopes.parentReference, run_bind, run_get]
  cases s.parent id with
  | error failure => rfl
  | ok parent =>
    cases parent with
    | none => rfl
    | some parent => exact congrFun (reference_eq location) s

end Registering

/-! ## What a mention adds -/

namespace Scopes

variable {s s' s'' : Scopes} {id : ScopeId} {name : String} {rule : RuleId}
  {location : Option Location} {p : Pattern}

/-- The scope around a scope, if the scope exists. -/
def parent? (s : Scopes) (id : ScopeId) : Option (Option ScopeId) :=
  s.scopes[id]?.map Scope.parent

/-- Scopes stay where they are, and names keep their rules. -/
structure Extends (s s' : Scopes) : Prop where
  parent : ∀ id parent, s.parent? id = some parent → s'.parent? id = some parent
  lookup : ∀ id name rule, s.lookup? id name = some rule → s'.lookup? id name = some rule

theorem Extends.refl (s : Scopes) : s.Extends s := ⟨fun _ _ h => h, fun _ _ _ h => h⟩

theorem Extends.trans (h : s.Extends s') (h' : s'.Extends s'') : s.Extends s'' :=
  ⟨fun id parent hp => h'.parent id parent (h.parent id parent hp),
    fun id name rule hl => h'.lookup id name rule (h.lookup id name rule hl)⟩

theorem extends_openScope (s : Scopes) (parent : Option ScopeId) :
    s.Extends (s.openScope parent) where
  parent id outer h := by
    obtain ⟨scope, hscope, rfl⟩ := Option.map_eq_some_iff.mp h
    have hlt := (List.getElem?_eq_some_iff.mp hscope).1
    simp [parent?, openScope, List.getElem?_append_left hlt, hscope]
  lookup id name rule h := by rwa [lookup?_openScope]

/-- After a mention a name has the rule that was answered. -/
theorem mention_spec (h : s.mention id name = .ok (s', rule)) :
    s.Extends s' ∧ s'.lookup? id name = some rule := by
  obtain ⟨old, hold, hget⟩ := scope_of_mention h
  have hlookup : s.lookup? id name = old.rules.get? name := by rw [lookup?, hold]; rfl
  obtain ⟨hget, rfl⟩ | ⟨hget, rfl, rfl⟩ := hget
  · exact ⟨.refl _, hlookup.trans hget⟩
  · have hparent : parent? ⟨s.scopes.set id
        { old with rules := old.rules.insert name s.table.nextId },
        s.table.push (.mentioned id name)⟩ = s.parent? := by
      funext i
      by_cases hi : i = id
      · subst hi
        have hlt := (List.getElem?_eq_some_iff.mp hold).1
        simp [parent?, List.getElem?_set_self hlt, hold]
      · simp [parent?, List.getElem?_set_ne (Ne.symm hi)]
    refine ⟨⟨fun i parent hp => hparent ▸ hp, fun i n r hr => ?_⟩, ?_⟩
    · rw [lookup?_insert hold, if_neg]
      · exact hr
      · rintro ⟨rfl, rfl⟩
        rw [hlookup, hget] at hr
        cases hr
    · rw [lookup?_insert hold, if_pos ⟨rfl, rfl⟩]

theorem parent?_of_parent {outer : Option ScopeId} (h : s.parent id = .ok outer) :
    s.parent? id = some outer := by
  unfold parent scope at h
  unfold parent?
  cases hold : s.scopes[id]? with
  | none =>
    rw [hold] at h
    cases h
  | some old =>
    rw [hold] at h
    cases h
    rfl

/-- The start rule of a scope is the rule of that name, once it has been defined. -/
theorem start?_eq_some_iff : s.start? id = some rule ↔ s.lookup? id startName = some rule ∧
    ∃ r, s.table.get? rule = some r ∧ r.isDefined = true := by
  simp only [start?, bind, Option.bind_eq_some_iff, Option.ite_none_right_eq_some,
    Option.some.injEq]
  constructor
  · rintro ⟨i, hlookup, r, hr, hdefined, rfl⟩
    exact ⟨hlookup, r, hr, hdefined⟩
  · rintro ⟨hlookup, r, hr, hdefined⟩
    exact ⟨rule, hlookup, r, hr, hdefined, rfl⟩

end Scopes

/-! ## Operations -/

namespace Registry

/-- What is asked of a registry. -/
inductive Operation where
  | grammar (parent : Option ScopeId)
  | rule (scope : ScopeId) (name : String)
  | define (scope : ScopeId) (name : String) (pattern : Pattern) (location : Option Location)
  | reference (scope : ScopeId) (name : String) (location : Option Location)
  | parentReference (scope : ScopeId) (name : String) (location : Option Location)
  | endGrammar (scope : ScopeId) (location : Option Location)

/-- What a registry answers. -/
inductive Answer where
  | scope (id : ScopeId)
  | rule (id : RuleId)
  | pattern (p : Pattern)

namespace Operation

/-- What an operation does in place. -/
def work : Operation → Registering Answer
  | grammar parent => do
    let id := (← get).nextId
    modify (·.openScope parent)
    return .scope id
  | rule scope name => .rule <$> Registering.mention scope name
  | define scope name pattern location =>
    .rule <$> Registering.define scope name pattern location
  | reference scope name location => .pattern <$> Registering.reference scope name location
  | parentReference scope name location =>
    .pattern <$> Registering.parentReference scope name location
  | endGrammar scope location => do
    return .pattern (← Attempt.lift ((← get).close scope location))

/-- The scopes that an operation gives, unless it fails. -/
def change : Operation → Scopes → Attempt (Scopes × Answer)
  | grammar parent, s => .ok (s.openScope parent, .scope s.nextId)
  | rule scope name, s => do
    let (s, id) ← s.mention scope name
    return (s, .rule id)
  | define scope name pattern location, s => do
    let (s, id) ← s.define scope name pattern location
    return (s, .rule id)
  | reference scope name location, s => do
    let (s, p) ← s.reference scope name location
    return (s, .pattern p)
  | parentReference scope name location, s => do
    let (s, p) ← s.parentReference scope name location
    return (s, .pattern p)
  | endGrammar scope location, s => do return (s, .pattern (← s.close scope location))

/-- Done in place, an operation comes to the scopes that it gives, and leaves those that there
were when it fails. -/
theorem work_eq (op : Operation) : op.work = Registering.whole op.change := by
  funext s
  cases op with
  | grammar parent => rfl
  | rule scope name =>
    simp only [work, change, Registering.whole, run_map, Registering.mention_eq]
    cases s.mention scope name <;> rfl
  | define scope name pattern location =>
    simp only [work, change, Registering.whole, run_map, Registering.define_eq]
    cases s.define scope name pattern location <;> rfl
  | reference scope name location =>
    simp only [work, change, Registering.whole, run_map, Registering.reference_eq]
    cases s.reference scope name location <;> rfl
  | parentReference scope name location =>
    simp only [work, change, Registering.whole, run_map, Registering.parentReference_eq]
    cases s.parentReference scope name location <;> rfl
  | endGrammar scope location =>
    simp only [work, change, Registering.whole, run_bind, run_get]
    cases s.close scope location <;> rfl

/-- The outcome of an operation that does not fail. -/
inductive Makes (s : Scopes) : Operation → Scopes → Answer → Prop
  | grammar (parent : Option ScopeId) :
    Makes s (.grammar parent) (s.openScope parent) (.scope s.nextId)
  | rule {scope name t id} (h : s.mention scope name = .ok (t, id)) :
    Makes s (.rule scope name) t (.rule id)
  | define {scope name t id} (h : s.mention scope name = .ok (t, id)) (pattern : Pattern)
    (location : Option Location) : Makes s (.define scope name pattern location)
      { t with table := t.table.modify id (·.define pattern location) } (.rule id)
  | reference {scope name t id} (h : s.mention scope name = .ok (t, id))
    (location : Option Location) :
    Makes s (.reference scope name location) t (.pattern (.ref ⟨false, location⟩ id none))
  | parentReference {scope parent name t id} (hparent : s.parent? scope = some (some parent))
    (h : s.mention parent name = .ok (t, id)) (location : Option Location) :
    Makes s (.parentReference scope name location) t (.pattern (.ref ⟨false, location⟩ id none))
  | endGrammar {scope id} (h : s.start? scope = some id) (location : Option Location) :
    Makes s (.endGrammar scope location) s (.pattern (.ref ⟨false, location⟩ id none))

variable {s s' : Scopes} {op : Operation} {x : Answer}

theorem makes_of_change (h : op.change s = .ok (s', x)) : op.Makes s s' x := by
  cases op with
  | grammar parent =>
    cases h
    exact .grammar parent
  | rule scope name =>
    obtain ⟨⟨t, id⟩, hmention, hmade⟩ := Attempt.of_bind_eq_ok h
    cases hmade
    exact .rule hmention
  | define scope name pattern location =>
    obtain ⟨⟨t, id⟩, hdefine, hmade⟩ := Attempt.of_bind_eq_ok h
    obtain ⟨t', hmention, rfl⟩ := Scopes.mention_of_define hdefine
    cases hmade
    exact .define hmention pattern location
  | reference scope name location =>
    obtain ⟨⟨t, p⟩, hreference, hmade⟩ := Attempt.of_bind_eq_ok h
    obtain ⟨id, hmention, rfl⟩ := Scopes.mention_of_reference hreference
    cases hmade
    exact .reference hmention location
  | parentReference scope name location =>
    obtain ⟨⟨t, p⟩, hanswer, hmade⟩ := Attempt.of_bind_eq_ok h
    obtain ⟨parent, hparent, hreference⟩ := Scopes.reference_of_parentReference hanswer
    obtain ⟨id, hmention, rfl⟩ := Scopes.mention_of_reference hreference
    cases hmade
    exact .parentReference (Scopes.parent?_of_parent hparent) hmention location
  | endGrammar scope location =>
    obtain ⟨p, hclose, hmade⟩ := Attempt.of_bind_eq_ok h
    simp only [Scopes.close] at hclose
    split at hclose
    · next id hstart =>
      cases hclose
      cases hmade
      exact .endGrammar hstart location
    · cases hclose

theorem Makes.extends (h : op.Makes s s' x) : s.Extends s' := by
  cases h with
  | grammar parent => exact s.extends_openScope parent
  | rule h => exact (Scopes.mention_spec h).1
  | define h pattern location =>
    have hextends := (Scopes.mention_spec h).1
    exact ⟨hextends.parent, hextends.lookup⟩
  | reference h location => exact (Scopes.mention_spec h).1
  | parentReference hparent h location => exact (Scopes.mention_spec h).1
  | endGrammar h location => exact .refl s

theorem Makes.registered (h : op.Makes s s' x) (hs : s.Registered) : s'.Registered := by
  cases h with
  | grammar parent => exact hs.openScope parent
  | rule h => exact hs.mention h
  | @define scope name t id h pattern location =>
    exact (hs.mention h).modify (f := (·.define pattern location)) (fun _ => rfl) id
  | reference h location => exact hs.mention h
  | parentReference hparent h location => exact hs.mention h
  | endGrammar h location => exact hs

/-- The answer of an operation is what the scopes say : every operation that mentions a name is
answered with the rule of that name. -/
def Answers (s : Scopes) : Operation → Answer → Prop
  | grammar parent, x => ∃ id, x = .scope id ∧ s.parent? id = some parent
  | rule scope name, x | define scope name _ _, x =>
    ∃ id, x = .rule id ∧ s.lookup? scope name = some id
  | reference scope name location, x =>
    ∃ id, x = .pattern (.ref ⟨false, location⟩ id none) ∧ s.lookup? scope name = some id
  | parentReference scope name location, x => ∃ parent id, s.parent? scope = some (some parent) ∧
    x = .pattern (.ref ⟨false, location⟩ id none) ∧ s.lookup? parent name = some id
  | endGrammar scope location, x =>
    ∃ id, x = .pattern (.ref ⟨false, location⟩ id none) ∧ s.lookup? scope startName = some id

/-- An answer stays true. -/
theorem Answers.mono (h : s.Extends s') (hx : op.Answers s x) : op.Answers s' x := by
  cases op with
  | grammar parent =>
    obtain ⟨id, rfl, hid⟩ := hx
    exact ⟨id, rfl, h.parent _ _ hid⟩
  | rule scope name =>
    obtain ⟨id, rfl, hid⟩ := hx
    exact ⟨id, rfl, h.lookup _ _ _ hid⟩
  | define scope name pattern location =>
    obtain ⟨id, rfl, hid⟩ := hx
    exact ⟨id, rfl, h.lookup _ _ _ hid⟩
  | reference scope name location =>
    obtain ⟨id, rfl, hid⟩ := hx
    exact ⟨id, rfl, h.lookup _ _ _ hid⟩
  | parentReference scope name location =>
    obtain ⟨parent, id, hparent, rfl, hid⟩ := hx
    exact ⟨parent, id, h.parent _ _ hparent, rfl, h.lookup _ _ _ hid⟩
  | endGrammar scope location =>
    obtain ⟨id, rfl, hid⟩ := hx
    exact ⟨id, rfl, h.lookup _ _ _ hid⟩

theorem Makes.answers (h : op.Makes s s' x) : op.Answers s' x := by
  cases h with
  | grammar parent =>
    exact ⟨s.nextId, rfl, by simp [Scopes.parent?, Scopes.openScope, Scopes.nextId]⟩
  | rule h => exact ⟨_, rfl, (Scopes.mention_spec h).2⟩
  | define h pattern location => exact ⟨_, rfl, (Scopes.mention_spec h).2⟩
  | reference h location => exact ⟨_, rfl, (Scopes.mention_spec h).2⟩
  | parentReference hparent h location =>
    obtain ⟨hextends, hlookup⟩ := Scopes.mention_spec h
    exact ⟨_, _, hextends.parent _ _ hparent, rfl, hlookup⟩
  | endGrammar h location =>
    exact ⟨_, rfl, (Scopes.start?_eq_some_iff.mp h).1⟩

end Operation

end Registry

/-! ## Definitions of rules -/

theorem Pattern.mergeAll?_concat (ps : List Pattern) (p : Pattern) :
    mergeAll? (ps ++ [p]) = some (match mergeAll? ps with
      | some merged => merged.merge p
      | none => p) := by
  cases ps with
  | nil => rfl
  | cons q qs => simp [mergeAll?, List.foldl_append]

namespace Scopes

variable {s s' : Scopes} {id : ScopeId} {name : String} {rule : RuleId} {p : Pattern}
  {location : Option Location} {defs defs' : RuleKey → List (Pattern × Option Location)}

/-- Each rule is the merge of its definitions, in the order they came, and is located at the
first of them with a location. -/
def MergedFrom (s : Scopes) (defs : RuleKey → List (Pattern × Option Location)) : Prop :=
  ∀ id rule, s.table.get? id = some rule →
    rule.pattern = Pattern.mergeAll? ((defs rule.key).map Prod.fst) ∧
      rule.location = (defs rule.key).findSome? Prod.snd

/-- A rule that is mentioned for the first time has no definitions. -/
theorem MergedFrom.mention (h : s.MergedFrom defs)
    (hnone : ∀ key : RuleKey, s.lookup? key.scope key.name = none → defs key = [])
    (hmention : s.mention id name = .ok (s', rule)) : s'.MergedFrom defs := by
  obtain rfl | ⟨hnew, htable, -⟩ := mention_cases hmention
  · exact h
  · intro i r hr
    rw [htable, RuleTable.get?_push] at hr
    split at hr
    · cases hr
      have hdefs : defs (Rule.mentioned id name).key = [] := hnone ⟨id, name⟩ hnew
      rw [hdefs]
      exact ⟨rfl, rfl⟩
    · exact h i r hr

/-- A rule gets one more definition. -/
theorem MergedFrom.define (h : s.MergedFrom defs) (hregistered : s.Registered)
    (hrule : s.lookup? id name = some rule)
    (hsame : defs' ⟨id, name⟩ = defs ⟨id, name⟩ ++ [(p, location)])
    (hother : ∀ key, key ≠ ⟨id, name⟩ → defs' key = defs key) :
    MergedFrom { s with table := s.table.modify rule (·.define p location) } defs' := by
  intro i r hr
  have hkey : s.table.key? rule = some ⟨id, name⟩ := (hregistered ⟨id, name⟩ rule).mp hrule
  obtain ⟨old, hold, rfl⟩ := RuleTable.of_get?_modify hr
  obtain ⟨hpattern, hlocation⟩ := h i old hold
  by_cases hi : i = rule
  · subst hi
    rw [RuleTable.key?, hold] at hkey
    have hold' : (old.define p location).key = ⟨id, name⟩ := Option.some.inj hkey
    rw [Option.some.inj hkey] at hpattern hlocation
    rw [if_pos rfl, hold', hsame, List.map_append, List.findSome?_append, ← hlocation]
    refine ⟨?_, ?_⟩
    · rw [List.map_singleton, Pattern.mergeAll?_concat, ← hpattern]
      rfl
    · cases hl : old.location <;> simp [Rule.define, hl]
  · have hne : old.key ≠ ⟨id, name⟩ := fun heq => hi (hregistered.eq_of_key?
      (by rw [RuleTable.key?, hold, Option.map_some, heq]) hkey)
    rw [if_neg hi, hother _ hne]
    exact ⟨hpattern, hlocation⟩

end Scopes

/-! ## Runs of operations -/

namespace Registry

/-- Scopes and what became of each operation on them, in order. -/
structure Ledger where
  scopes : Scopes
  log : List (Operation × Except Failure Answer)

namespace Ledger

/-- No scopes, and nothing done. -/
def empty : Ledger := ⟨.empty, []⟩

/-- Perform an operation, whatever becomes of it. -/
def perform (l : Ledger) (op : Operation) : Ledger :=
  match op.work l.scopes with
  | .ok x s => ⟨s, l.log ++ [(op, .ok x)]⟩
  | .error failure s => ⟨s, l.log ++ [(op, .error failure)]⟩

/-- Perform operations in order. -/
def run (l : Ledger) (ops : List Operation) : Ledger := ops.foldl perform l

/-- What an entry of the log defines of a rule. -/
def definition? (key : RuleKey) :
    Operation × Except Failure Answer → Option (Pattern × Option Location)
  | (.define scope name pattern location, .ok _) =>
    if key = ⟨scope, name⟩ then some (pattern, location) else none
  | _ => none

/-- The definitions of a rule that have not failed, in the order they came. -/
def definitions (l : Ledger) (key : RuleKey) : List (Pattern × Option Location) :=
  l.log.filterMap (definition? key)

/-- The scopes are what the log tells. -/
structure Kept (l : Ledger) : Prop where
  /-- Every rule has the scope and the name of one entry of the scopes, and every entry has a
  rule. -/
  registered : l.scopes.Registered
  /-- All that was ever answered is still true. -/
  answered : ∀ op x, (op, .ok x) ∈ l.log → op.Answers l.scopes x
  merged : l.scopes.MergedFrom l.definitions

variable {l : Ledger} {key : RuleKey}

theorem kept_empty : Kept empty where
  registered := Scopes.registered_empty
  answered op x h := absurd h List.not_mem_nil
  merged id rule h := by simp [empty, Scopes.empty, RuleTable.empty, RuleTable.get?] at h

/-- A rule with definitions has been entered. -/
theorem Kept.lookup_of_definitions (h : Kept l) (hdefs : l.definitions key ≠ []) :
    ∃ rule, l.scopes.lookup? key.scope key.name = some rule := by
  obtain ⟨def', hdef⟩ := List.exists_mem_of_ne_nil _ hdefs
  obtain ⟨⟨op, answer⟩, hmem, hentry⟩ := List.mem_filterMap.mp hdef
  unfold definition? at hentry
  split at hentry
  · next scope name pattern location x heq =>
    cases heq
    split at hentry
    · next hkey =>
      subst hkey
      obtain ⟨id, -, hid⟩ := h.answered _ _ hmem
      exact ⟨id, hid⟩
    · cases hentry
  · cases hentry

theorem perform_eq (l : Ledger) (op : Operation) : l.perform op =
    match op.change l.scopes with
      | .ok (s, x) => ⟨s, l.log ++ [(op, .ok x)]⟩
      | .error failure => ⟨l.scopes, l.log ++ [(op, .error failure)]⟩ := by
  rw [perform, op.work_eq, Registering.whole]
  cases op.change l.scopes <;> rfl

/-- One more entry of the log. -/
theorem definitions_concat (s : Scopes) (e : Operation × Except Failure Answer) :
    definitions ⟨s, l.log ++ [e]⟩ =
      fun key => l.definitions key ++ (definition? key e).toList := by
  funext key
  rw [definitions, definitions, List.filterMap_append]
  cases h : definition? key e <;> simp [h]

end Ledger

namespace Ledger

variable {l : Ledger} {op : Operation} {x : Answer} {s : Scopes}

/-- The rules of a ledger after a mention are merged from the same definitions. -/
theorem Kept.merged_mention (h : Kept l) {scope : ScopeId} {name : String} {rule : RuleId}
    (hmention : l.scopes.mention scope name = .ok (s, rule)) : s.MergedFrom l.definitions :=
  h.merged.mention (fun key hnew => by
    by_contra hdefs
    obtain ⟨rule, hrule⟩ := h.lookup_of_definitions hdefs
    rw [hnew] at hrule
    cases hrule) hmention

theorem Kept.merged_makes (h : Kept l) (hmakes : op.Makes l.scopes s x) :
    s.MergedFrom (definitions ⟨s, l.log ++ [(op, .ok x)]⟩) := by
  rw [definitions_concat]
  -- Only a definition adds to the definitions of a rule.
  have hsame : (∀ key, definition? key (op, .ok x) = none) →
      (fun key => l.definitions key ++ (definition? key (op, .ok x)).toList) = l.definitions :=
    fun hnone => funext fun key => by rw [hnone, Option.toList_none, List.append_nil]
  cases hmakes with
  | grammar parent =>
    rw [hsame fun _ => rfl]
    exact h.merged
  | rule hmention =>
    rw [hsame fun _ => rfl]
    exact h.merged_mention hmention
  | reference hmention location =>
    rw [hsame fun _ => rfl]
    exact h.merged_mention hmention
  | parentReference hparent hmention location =>
    rw [hsame fun _ => rfl]
    exact h.merged_mention hmention
  | endGrammar hstart location =>
    rw [hsame fun _ => rfl]
    exact h.merged
  | define hmention pattern location =>
    refine (h.merged_mention hmention).define (h.registered.mention hmention)
      (Scopes.mention_spec hmention).2 ?_ fun key hkey => ?_
    · simp [definition?]
    · simp [definition?, hkey]

theorem Kept.perform (h : Kept l) (op : Operation) : Kept (l.perform op) := by
  rw [perform_eq]
  cases hchange : op.change l.scopes with
  | error failure =>
    have hlog : definitions ⟨l.scopes, l.log ++ [(op, .error failure)]⟩ = l.definitions := by
      rw [definitions_concat]
      funext key
      have hnone : definition? key (op, .error failure) = none := by cases op <;> rfl
      rw [hnone, Option.toList_none, List.append_nil]
    refine ⟨h.registered, fun op' x hmem => ?_, hlog ▸ h.merged⟩
    rcases List.mem_append.mp hmem with hmem | hmem
    · exact h.answered op' x hmem
    · cases List.mem_singleton.mp hmem
  | ok made =>
    obtain ⟨s, x⟩ := made
    have hmakes := Operation.makes_of_change hchange
    refine ⟨hmakes.registered h.registered, fun op' x' hmem => ?_, h.merged_makes hmakes⟩
    rcases List.mem_append.mp hmem with hmem | hmem
    · exact (h.answered op' x' hmem).mono hmakes.extends
    · cases List.mem_singleton.mp hmem
      exact hmakes.answers

theorem Kept.run (h : Kept l) (ops : List Operation) : Kept (l.run ops) := by
  induction ops generalizing l with
  | nil => exact h
  | cons op ops ih => exact ih (h.perform op)

theorem extends_perform (l : Ledger) (op : Operation) : l.scopes.Extends (l.perform op).scopes := by
  rw [perform_eq]
  cases hchange : op.change l.scopes with
  | error failure => exact .refl _
  | ok made => exact (Operation.makes_of_change hchange).extends

theorem extends_run (l : Ledger) (ops : List Operation) : l.scopes.Extends (l.run ops).scopes := by
  induction ops generalizing l with
  | nil => exact .refl _
  | cons op ops ih => exact (l.extends_perform op).trans (ih (l.perform op))

/-- The start rule of a scope has been defined. -/
theorem Kept.start_iff (h : Kept l) (scope : ScopeId) :
    (∃ id, l.scopes.start? scope = some id) ↔ l.definitions ⟨scope, startName⟩ ≠ [] := by
  have hpattern : ∀ id rule, l.scopes.lookup? scope startName = some id →
      l.scopes.table.get? id = some rule →
      (rule.isDefined = true ↔ l.definitions ⟨scope, startName⟩ ≠ []) := fun id rule hid hrule => by
    have hkey := (h.registered ⟨scope, startName⟩ id).mp hid
    rw [RuleTable.key?, hrule] at hkey
    rw [Rule.isDefined, (h.merged id rule hrule).1, Option.some.inj hkey]
    cases l.definitions ⟨scope, startName⟩ <;> simp [Pattern.mergeAll?]
  constructor
  · rintro ⟨id, hstart⟩
    obtain ⟨hid, rule, hrule, hdefined⟩ := Scopes.start?_eq_some_iff.mp hstart
    exact (hpattern id rule hid hrule).mp hdefined
  · intro hdefs
    obtain ⟨id, hid⟩ := h.lookup_of_definitions hdefs
    have hkey := (h.registered ⟨scope, startName⟩ id).mp hid
    obtain ⟨rule, hrule, -⟩ := Option.map_eq_some_iff.mp hkey
    exact ⟨id, Scopes.start?_eq_some_iff.mpr
      ⟨hid, rule, hrule, (hpattern id rule hid hrule).mpr hdefs⟩⟩

theorem log_run (l : Ledger) (ops : List Operation) :
    (l.run ops).log.map Prod.fst = l.log.map Prod.fst ++ ops := by
  induction ops generalizing l with
  | nil => exact (List.append_nil _).symm
  | cons op ops ih =>
    have hfirst : (l.perform op).log.map Prod.fst = l.log.map Prod.fst ++ [op] := by
      rw [perform_eq]
      cases op.change l.scopes <;> simp
    rw [run, List.foldl_cons, ← run, ih, hfirst, List.append_assoc, List.singleton_append]

/-- A grammar can be closed when it has been opened and its start rule has been defined. -/
theorem Kept.endGrammar_iff (h : Kept l) (scope : ScopeId) (location : Option Location) :
    (∃ x s, (Operation.endGrammar scope location).work l.scopes = .ok x s) ↔
      (∃ parent, l.scopes.parent? scope = some parent) ∧
        l.definitions ⟨scope, startName⟩ ≠ [] := by
  rw [← h.start_iff scope, Operation.work_eq]
  simp only [Registering.whole, Operation.change, Scopes.close]
  cases hstart : l.scopes.start? scope with
  | none =>
    refine iff_of_false ?_ ?_
    · rintro ⟨x, s, hok⟩
      cases hok
    · rintro ⟨-, id, hid⟩
      cases hid
  | some id =>
    refine iff_of_true ⟨_, _, rfl⟩ ⟨?_, id, rfl⟩
    have hlookup := (Scopes.start?_eq_some_iff.mp hstart).1
    obtain ⟨found, hfound, -⟩ := Option.bind_eq_some_iff.mp hlookup
    exact ⟨found.parent, by rw [Scopes.parent?, hfound, Option.map_some]⟩

/-- What holds of the scopes after operations that are told by a ledger. -/
structure Tells (l : Ledger) (ops : List Operation) : Prop extends Kept l where
  operations : l.log.map Prod.fst = ops
  /-- A name keeps its rule, whatever is done next. -/
  persists : ∀ more, l.scopes.Extends (l.run more).scopes
  /-- A grammar can be closed when it has been opened and its start rule has been defined. -/
  closes : ∀ scope location,
    (∃ x s, (Operation.endGrammar scope location).work l.scopes = .ok x s) ↔
      (∃ parent, l.scopes.parent? scope = some parent) ∧ l.definitions ⟨scope, startName⟩ ≠ []
  /-- An operation that fails leaves the scopes and the rules as they are. -/
  fails : ∀ (op : Operation) failure s, op.work l.scopes = .error failure s → s = l.scopes

/-- After any operations, of which any may have failed, the scopes are what the log tells. -/
theorem tells_run (ops : List Operation) : Tells (empty.run ops) ops where
  toKept := kept_empty.run ops
  operations := log_run empty ops
  persists := extends_run _
  closes := (kept_empty.run ops).endGrammar_iff
  fails op failure s herror := by
    rw [op.work_eq, Registering.whole] at herror
    split at herror
    · cases herror
    · cases herror
      rfl

end Ledger

end Registry

end MarkupTypes
