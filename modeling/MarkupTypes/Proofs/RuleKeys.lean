import MarkupTypes.Proofs.Hierarchy
import MarkupTypes.Proofs.Naming

/-!
# Types by rules

A model knows the type of a rule by the key of the rule, which is its scope with its name. A type
that is created replaces the one that was known by the same key, so what a model knows comes from
rules (`Compilation.Listed`), and it knows all of them exactly when no two rules that have types
have one key (`Compilation.Finished.keepsRules_iff`).
-/

namespace MarkupTypes

namespace SortedMap

variable {κ ν : Type} [DecidableEq κ]

theorem mem_keys_iff (m : SortedMap κ ν) {key : κ} :
    key ∈ m.keys ↔ ∃ value, m.get? key = some value := by
  rw [← contains_iff, contains, Option.isSome_iff_exists]

theorem mem_keys_insert [Ord κ] (m : SortedMap κ ν) {key other : κ} (value : ν) :
    other ∈ (m.insert key value).keys ↔ other = key ∨ other ∈ m.keys := by
  by_cases h : other = key
  · subst h
    simp [mem_keys_iff, m.get?_insert_self]
  · simp [mem_keys_iff, m.get?_insert_of_ne value h, h]

end SortedMap

namespace RuleTable

variable {t : RuleTable} {id i entry : RuleId} {key : RuleKey} {type : TypeId}

/-- The key of a rule, unless the id is out of range. -/
def key? (t : RuleTable) (id : RuleId) : Option RuleKey := (t.get? id).map Rule.key

/-- A rule of a table has a key and a type. -/
def Keyed (t : RuleTable) (id : RuleId) (key : RuleKey) (type : TypeId) : Prop :=
  ∃ rule, t.get? id = some rule ∧ rule.key = key ∧ rule.output = some type

/-- No two rules with types have one key. -/
def OneKeyed (t : RuleTable) : Prop :=
  ∀ a b key A B, t.Keyed a key A → t.Keyed b key B → a = b

/-- The entry reaches a rule that is not inline, of a key. -/
def Materializes (t : RuleTable) (entry id : RuleId) (key : RuleKey) : Prop :=
  t.Reaches entry id ∧ ∃ rule, t.get? id = some rule ∧ rule.isInline = false ∧ rule.key = key

theorem Materializes.key? (h : t.Materializes entry id key) : t.key? id = some key := by
  obtain ⟨-, rule, hrule, -, rfl⟩ := h
  exact congrArg (Option.map Rule.key) hrule

/-- No two rules that the entry reaches have one key, but for inline rules. -/
def DistinctKeys (t : RuleTable) (entry : RuleId) : Prop :=
  ∀ a b key, t.Materializes entry a key → t.Materializes entry b key → a = b

theorem Keyed.key? (h : t.Keyed id key type) : t.key? id = some key := by
  obtain ⟨rule, hrule, rfl, -⟩ := h
  exact congrArg (Option.map Rule.key) hrule

theorem get?_push (t : RuleTable) (rule : Rule) (id : RuleId) :
    (t.push rule).get? id = if id = t.nextId then some rule else t.get? id := by
  change (t.rules ++ [rule])[id]? = if id = t.rules.length then _ else t.rules[id]?
  split
  · next hid => rw [hid, List.getElem?_concat_length]
  · next hid =>
    rcases Nat.lt_or_gt_of_ne hid with hlt | hgt
    · rw [List.getElem?_append_left hlt]
    · have hlength : (t.rules ++ [rule]).length ≤ id := by
        rw [List.length_append, List.length_singleton]
        exact hgt
      rw [List.getElem?_eq_none hlength, List.getElem?_eq_none (Nat.le_of_lt hgt)]

theorem key?_push (t : RuleTable) (rule : Rule) (id : RuleId) :
    (t.push rule).key? id = if id = t.nextId then some rule.key else t.key? id := by
  rw [key?, get?_push]
  split <;> rfl

theorem key?_modify {f : Rule → Rule} (hkey : ∀ r, (f r).key = r.key) :
    (t.modify i f).key? id = t.key? id := by
  by_cases hi : id = i
  · subst hi
    simp [key?, get?, modify, Function.comp_def, hkey]
  · rw [key?, get?_modify_of_ne hi, key?]

theorem lt_nextId_of_key? (h : t.key? id = some key) : id < t.nextId := by
  obtain ⟨rule, hrule, -⟩ := Option.map_eq_some_iff.mp h
  exact (List.getElem?_eq_some_iff.mp hrule).1

/-- A change of a rule that leaves its key and its type. -/
theorem keyed_modify {f : Rule → Rule} (hkey : ∀ r, (f r).key = r.key)
    (houtput : ∀ r, (f r).output = r.output) :
    (t.modify i f).Keyed id key type ↔ t.Keyed id key type := by
  by_cases hi : id = i
  · subst hi
    constructor
    · rintro ⟨rule, hrule, rfl, hout⟩
      obtain ⟨old, hold, rfl⟩ := of_get?_modify hrule
      rw [if_pos rfl] at hout ⊢
      exact ⟨old, hold, (hkey old).symm, (houtput old).symm.trans hout⟩
    · rintro ⟨rule, hrule, rfl, hout⟩
      exact ⟨f rule, get?_modify_self hrule, hkey rule, (houtput rule).trans hout⟩
  · rw [Keyed, get?_modify_of_ne hi, Keyed]

end RuleTable

namespace Compilation

variable {c c' : Compilation} {id : RuleId} {rule : Rule} {key : RuleKey} {type : TypeId}

/-! ## What a model knows of rules -/

/-- What a model knows by keys are types of rules, for every key of a rule with a type. No key
stands there twice, when no two rules with types have one key. -/
structure Listed (c : Compilation) : Prop where
  entries : ∀ key type, c.model.rules.get? key = some type → ∃ id, c.rules.Keyed id key type
  keys : ∀ id key type, c.rules.Keyed id key type → key ∈ c.model.rules.keys
  nodup : c.rules.OneKeyed → c.model.rules.keys.Nodup

theorem Listed.of_eq (h : Listed c) (hrules : c'.model.rules = c.model.rules)
    (hkeyed : ∀ id key type, c'.rules.Keyed id key type ↔ c.rules.Keyed id key type) :
    Listed c' where
  entries key type hget := by
    obtain ⟨id, hid⟩ := h.entries key type (hrules ▸ hget)
    exact ⟨id, (hkeyed id key type).mpr hid⟩
  keys id key type hid := hrules ▸ h.keys id key type ((hkeyed id key type).mp hid)
  nodup hone := by
    rw [hrules]
    exact h.nodup fun a b key A B ha hb =>
      hone a b key A B ((hkeyed a key A).mpr ha) ((hkeyed b key B).mpr hb)

/-- Types of elements are not known by keys. -/
theorem rules_declareElements : ∀ (xs : List (ElementTag × Pattern)) (d : Draft),
    (c.declareElements xs d).1.model.rules = d.model.rules
  | [], _ => rfl
  | (tag, content) :: rest, d => by
    rw [declareElements_cons]
    split
    · exact rules_declareElements rest _
    · exact rules_declareElements rest d

/-- The type of a rule that is declared is known by the key of the rule. -/
theorem rules_declared (id : RuleId) (rule : Rule) : (c.declared id rule).2.model.rules =
    if c.isInline id then c.model.rules else c.model.rules.insert rule.key c.model.size := by
  rw [declared_eq, rules_declareElements, draftOfRule]
  split <;> rfl

/-- A rule has no type before it is declared. -/
theorem Ordered.not_keyed (h : Ordered c) (hrule : c.rules.get? id = some rule)
    (hstate : rule.state = .unprocessed) : ¬c.rules.Keyed id key type := by
  rintro ⟨rule', hrule', -, houtput⟩
  obtain rfl := Option.some.inj (hrule.symm.trans hrule')
  have hnone := (List.append_eq_nil_iff.mp (h.unprocessed id rule hrule hstate)).1
  rw [houtput] at hnone
  cases hnone

/-- The rule that is declared gets a type unless it is inline, and no other rule does. -/
theorem keyed_declareRule (hordered : Ordered c) (hrule : c.rules.get? id = some rule)
    (hstate : rule.state = .unprocessed) {i : RuleId} :
    (c.declareRule id rule).rules.Keyed i key type ↔ c.rules.Keyed i key type ∨
      i = id ∧ c.isInline id = false ∧ key = rule.key ∧ type = c.model.size := by
  by_cases hi : i = id
  · subst hi
    have hget : (c.declareRule i rule).rules.get? i = some (c.declared i rule).1 :=
      RuleTable.get?_modify_self hrule
    have hkey : (c.declared i rule).1.key = rule.key := by
      rw [declared_eq]
      rfl
    have houtput : (c.declared i rule).1.output =
        if c.isInline i then none else some c.model.size := by rw [declared_eq]
    rw [or_iff_right (hordered.not_keyed hrule hstate)]
    simp only [RuleTable.Keyed, hget, Option.some.injEq, exists_eq_left', hkey, houtput]
    cases c.isInline i <;> simp [eq_comm]
  · have hget : (c.declareRule id rule).rules.get? i = c.rules.get? i :=
      RuleTable.get?_modify_of_ne hi
    simp [RuleTable.Keyed, hget, hi]

theorem Listed.declare (h : Listed c) (hordered : Ordered c) (hrule : c.rules.get? id = some rule)
    (hstate : rule.state = .unprocessed) : Listed (c.declareRule id rule) := by
  have hkeyed : ∀ i key type, (c.declareRule id rule).rules.Keyed i key type ↔ _ :=
    fun _ _ _ => keyed_declareRule hordered hrule hstate
  have hrules : (c.declareRule id rule).model.rules = _ := rules_declared id rule
  cases hinline : c.isInline id with
  | true =>
    simp only [hinline, if_true] at hrules
    simp only [hinline, Bool.true_eq_false, false_and, and_false, or_false] at hkeyed
    exact h.of_eq hrules hkeyed
  | false =>
    simp only [hinline, Bool.false_eq_true, if_false] at hrules
    simp only [hinline, true_and] at hkeyed
    constructor
    case entries =>
      intro key type hget
      rw [hrules] at hget
      by_cases hkey : key = rule.key
      · subst hkey
        rw [SortedMap.get?_insert_self] at hget
        exact ⟨id, (hkeyed ..).mpr (.inr ⟨rfl, rfl, (Option.some.inj hget).symm⟩)⟩
      · rw [SortedMap.get?_insert_of_ne _ _ hkey] at hget
        obtain ⟨i, hi⟩ := h.entries key type hget
        exact ⟨i, (hkeyed ..).mpr (.inl hi)⟩
    case keys =>
      intro i key type hi
      rw [hrules, SortedMap.mem_keys_insert]
      rcases (hkeyed ..).mp hi with hi | ⟨-, hkey, -⟩
      · exact .inr (h.keys i key type hi)
      · exact .inl hkey
    case nodup =>
      intro hone
      have hnew : rule.key ∉ c.model.rules.keys := by
        -- A rule of the same key would be the one that is declared.
        intro hmem
        obtain ⟨type, hget⟩ := c.model.rules.mem_keys_iff.mp hmem
        obtain ⟨i, hi⟩ := h.entries _ type hget
        obtain rfl := hone i id rule.key type _ ((hkeyed ..).mpr (.inl hi))
          ((hkeyed ..).mpr (.inr ⟨rfl, rfl, rfl⟩))
        exact hordered.not_keyed hrule hstate hi
      have hbefore : c.rules.OneKeyed := fun a b key A B ha hb =>
        hone a b key A B ((hkeyed ..).mpr (.inl ha)) ((hkeyed ..).mpr (.inl hb))
      rw [hrules, (SortedMap.perm_keys_insert _ _ hnew).nodup_iff]
      exact List.nodup_cons.mpr ⟨hnew, h.nodup hbefore⟩

theorem Listed.change (h : Listed c) (hordered : Ordered c) (hchange : Change c c') :
    Listed c' := by
  cases hchange with
  | trace | root => exact h.of_eq rfl fun _ _ _ => Iff.rfl
  | label => exact h.of_eq rfl fun _ _ _ => RuleTable.keyed_modify (fun _ => rfl) fun _ => rfl
  | generated => exact h.of_eq rfl fun _ _ _ => RuleTable.keyed_modify (fun _ => rfl) fun _ => rfl
  | declare hrule hstate => exact h.declare hordered hrule hstate
  | fill _ _ hfills => exact h.of_eq (hfills.frame 0).rules fun _ _ _ => Iff.rfl

variable {t : RuleTable} {entry : RuleId} {options : CompileOptions} {tracer : Trace.Tracer}

/-- At the start a model knows nothing, and no rule has a type. -/
theorem Started.listed (h : Started t entry options tracer c) (hfresh : t.Fresh) : Listed c := by
  have hnone : ∀ id key type, ¬c.rules.Keyed id key type := by
    rintro id key type ⟨rule, hrule, -, houtput⟩
    rw [h.rules_eq] at hrule
    have htypes := (List.append_eq_nil_iff.mp (hfresh rule (RuleTable.mem_of_get? hrule)).2).1
    rw [houtput] at htypes
    cases htypes
  have hempty : c.model.rules = .empty := by
    rw [model, h.draft_eq]
    rfl
  constructor
  case entries =>
    intro key type hget
    rw [hempty] at hget
    cases hget
  case keys => exact fun id key type hkeyed => absurd hkeyed (hnone id key type)
  case nodup =>
    intro _
    rw [hempty]
    exact List.nodup_nil

theorem listed_of_finish (hfresh : t.Fresh) (hstart : start t entry options tracer = .ok c)
    {m : Model} (hfinish : finish c = .ok m c') : Listed c' := by
  have hstarted := started_of_start hstart
  have hboth : Ordered c' ∧ Listed c' :=
    (leads_finish hfinish).invariant (P := fun c => Ordered c ∧ Listed c)
      (fun hchange h => ⟨h.1.change hchange, h.2.change h.1 hchange⟩)
      ⟨hstarted.ordered hfresh, hstarted.listed hfresh⟩
  exact hboth.2

/-! ## Whether a model knows all rules -/

/-- The rules of a compilation that get types of their own. -/
def typedRules (c : Compilation) : List RuleId := c.order.filter fun id => !c.isInline id

/-- Every rule of a compilation that is not inline has a type, which is known by the key of the
rule, and nothing else is known. -/
structure KeepsRules (c : Compilation) : Prop where
  entry : ∀ id ∈ c.typedRules, ∃ rule type, c.rules.get? id = some rule ∧
    rule.output = some type ∧ c.model.rules.get? rule.key = some type
  size : c.model.rules.size = c.typedRules.length

theorem mem_typedRules : id ∈ c.typedRules ↔ id ∈ c.order ∧ c.isInline id = false := by
  rw [typedRules, List.mem_filter, Bool.not_eq_true']

namespace Finished

variable (h : Finished t entry c)

include h

/-- The rules with types are those that the entry reaches and that are not inline. -/
theorem exists_keyed_iff : (∃ type, c.rules.Keyed id key type) ↔ t.Materializes entry id key := by
  constructor
  · rintro ⟨type, rule, hrule, rfl, houtput⟩
    obtain ⟨hid, hinline⟩ := h.generating.mem_of_output hrule houtput
    obtain ⟨rule', hrule', hsame⟩ := RuleTable.get?_of_skeleton_eq h.skeleton.symm hrule
    refine ⟨(h.mem_order id).mp hid, rule', hrule', ?_, ?_⟩
    · rw [← rule'.isInline_skeleton, hsame, rule.isInline_skeleton]
      exact (RuleTable.isInline_eq hrule).symm.trans hinline
    · rw [← rule'.key_skeleton, hsame, rule.key_skeleton]
  · rintro ⟨hreaches, rule, hrule, hinline, rfl⟩
    have hid := (h.mem_order id).mpr hreaches
    have hsame := RuleTable.isInline_of_skeleton_eq h.skeleton
    obtain ⟨rule', type, hrule', houtput⟩ := h.generating.exists_output hid
      ((congrFun hsame id).trans ((RuleTable.isInline_eq hrule).trans hinline))
    obtain ⟨rule'', hrule'', hskeleton⟩ := RuleTable.get?_of_skeleton_eq h.skeleton hrule
    obtain rfl := Option.some.inj (hrule'.symm.trans hrule'')
    refine ⟨type, rule', hrule', ?_, houtput⟩
    rw [← rule'.key_skeleton, hskeleton, rule.key_skeleton]

theorem mem_typedRules_iff : id ∈ c.typedRules ↔ ∃ key type, c.rules.Keyed id key type := by
  rw [mem_typedRules, isInline_eq_table h.generating.inline_eq]
  constructor
  · rintro ⟨hid, hinline⟩
    obtain ⟨rule, type, hrule, houtput⟩ := h.generating.exists_output hid hinline
    exact ⟨rule.key, type, rule, hrule, rfl, houtput⟩
  · rintro ⟨key, type, rule, hrule, -, houtput⟩
    exact h.generating.mem_of_output hrule houtput

/-- There are as many keys as rules with types, when these have different keys. -/
theorem size_rules (hlisted : Listed c) (hone : c.rules.OneKeyed) :
    c.model.rules.size = c.typedRules.length := by
  have hperm : (c.model.rules.keys.map some).Perm (c.typedRules.map c.rules.key?) := by
    refine (List.perm_ext_iff_of_nodup ?_ ?_).mpr fun x => ?_
    · exact (hlisted.nodup hone).map fun _ _ => Option.some.inj
    · refine List.Nodup.map_on (fun a ha b hb heq => ?_) (h.generating.region.nodup.filter _)
      obtain ⟨key, A, hA⟩ := h.mem_typedRules_iff.mp ha
      obtain ⟨key', B, hB⟩ := h.mem_typedRules_iff.mp hb
      obtain rfl := Option.some.inj (hA.key?.symm.trans (heq.trans hB.key?))
      exact hone a b key A B hA hB
    · simp only [List.mem_map]
      constructor
      · rintro ⟨key, hkey, rfl⟩
        obtain ⟨type, hget⟩ := c.model.rules.mem_keys_iff.mp hkey
        obtain ⟨id, hkeyed⟩ := hlisted.entries key type hget
        exact ⟨id, h.mem_typedRules_iff.mpr ⟨key, type, hkeyed⟩, hkeyed.key?⟩
      · rintro ⟨id, hid, rfl⟩
        obtain ⟨key, type, hkeyed⟩ := h.mem_typedRules_iff.mp hid
        exact ⟨key, hlisted.keys id key type hkeyed, hkeyed.key?.symm⟩
  rw [← SortedMap.length_keys, ← List.length_map some, hperm.length_eq, List.length_map]

theorem get?_of_keepsRules (hkeeps : KeepsRules c) (hkeyed : c.rules.Keyed id key type) :
    c.model.rules.get? key = some type := by
  obtain ⟨rule', type', hrule', houtput', hget⟩ :=
    hkeeps.entry id (h.mem_typedRules_iff.mpr ⟨key, type, hkeyed⟩)
  obtain ⟨rule, hrule, rfl, houtput⟩ := hkeyed
  obtain rfl := Option.some.inj (hrule.symm.trans hrule')
  rwa [← houtput, houtput']

/-- A model knows all rules exactly when no two that have types have one key : two would be known
by one type, and a type is of one rule. -/
theorem keepsRules_iff (hlisted : Listed c) : KeepsRules c ↔ t.DistinctKeys entry := by
  constructor
  · intro hkeeps a b key ha hb
    obtain ⟨A, hA⟩ := h.exists_keyed_iff.mpr ha
    obtain ⟨B, hB⟩ := h.exists_keyed_iff.mpr hb
    obtain rfl := Option.some.inj
      ((h.get?_of_keepsRules hkeeps hA).symm.trans (h.get?_of_keepsRules hkeeps hB))
    obtain ⟨ruleₐ, hruleₐ, -, houtputₐ⟩ := hA
    obtain ⟨ruleᵦ, hruleᵦ, -, houtputᵦ⟩ := hB
    exact h.generating.eq_of_output hruleₐ hruleᵦ houtputₐ houtputᵦ
  · intro hdistinct
    have hone : c.rules.OneKeyed := fun a b key A B hA hB =>
      hdistinct a b key (h.exists_keyed_iff.mp ⟨A, hA⟩) (h.exists_keyed_iff.mp ⟨B, hB⟩)
    refine ⟨fun id hid => ?_, h.size_rules hlisted hone⟩
    obtain ⟨key, type, hkeyed⟩ := h.mem_typedRules_iff.mp hid
    obtain ⟨known, hget⟩ := c.model.rules.mem_keys_iff.mp (hlisted.keys id key type hkeyed)
    obtain ⟨i, hi⟩ := hlisted.entries key known hget
    obtain rfl := hone i id key known type hi hkeyed
    obtain ⟨rule, hrule, rfl, -⟩ := hkeyed
    obtain ⟨rule', hrule', -, houtput⟩ := hi
    obtain rfl := Option.some.inj (hrule.symm.trans hrule')
    exact ⟨rule, known, hrule, houtput, hget⟩

end Finished

end Compilation

end MarkupTypes
