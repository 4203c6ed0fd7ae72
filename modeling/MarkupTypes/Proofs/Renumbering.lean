import MarkupTypes.Proofs.Discovery

/-!
# Renumbering rules

A rule is known by its index alone, so nothing that is read off a table depends on what the
indices are. Where a map of indices carries the rules of a table that matter to copies of them in
another table (`RuleTable.Embeds`), the two tables answer alike : patterns hold the same text
(`RuleTable.Embeds.contentOf_eq`), writers start from the same types
(`RuleTable.Embeds.writerType_eq`), the same walks are there
(`Expansion.Embeds.walks`), and rules are filled alike (`Expansion.Embeds.fillRule_eq`).

What else the second table holds makes no difference, as no walk comes there, and neither does
how many rules it has : the bounds on walks grow with the table, and a walk does not reach them.
-/

namespace MarkupTypes

/-! ## Patterns -/

namespace Pattern

mutual

/-- A pattern with a change of the rules that it refers to. -/
def mapRules (f : RuleId → RuleId) : Pattern → Pattern
  | ref m rule label => ref m (f rule) label
  | attr m tag content => attr m tag (content.mapRules f)
  | elem m tag content => elem m tag (content.mapRules f)
  | list m item => list m (item.mapRules f)
  | union m members => union m (mapRulesAll f members)
  | empty m => empty m
  | data m type => data m type
  | value m type literal => value m type literal

/-- Patterns with a change of the rules that they refer to. -/
def mapRulesAll (f : RuleId → RuleId) : List Pattern → List Pattern
  | [] => []
  | p :: ps => p.mapRules f :: mapRulesAll f ps

end

end Pattern

/-- A slot with a change of the rules that it refers to. -/
def Slot.mapRules (f : RuleId → RuleId) : Slot → Slot
  | attr tag content o => attr tag (content.mapRules f) o
  | elem tag content o => elem tag (content.mapRules f) o
  | ref rule location o => ref (f rule) location o

@[simp] theorem Slot.key?_mapRules (f : RuleId → RuleId) (s : Slot) :
    (s.mapRules f).key? = s.key? := by
  cases s <;> rfl

namespace Pattern

variable (f : RuleId → RuleId)

theorem mapRulesAll_eq_map (ps : List Pattern) : mapRulesAll f ps = ps.map (mapRules f) := by
  induction ps with
  | nil => rfl
  | cons p ps ih => rw [mapRulesAll, ih, List.map_cons]

mutual

@[simp] theorem refs_mapRules : ∀ p : Pattern, (p.mapRules f).refs = p.refs.map (Prod.map f id)
  | ref _ _ _ => rfl
  | attr _ _ content => by rw [mapRules, refs, refs, refs_mapRules content]
  | elem _ _ content => by rw [mapRules, refs, refs, refs_mapRules content]
  | list _ item => by rw [mapRules, refs, refs, refs_mapRules item]
  | union _ ps => by rw [mapRules, refs, refs, refsAll_mapRulesAll ps]
  | empty _ => rfl
  | data _ _ => rfl
  | value _ _ _ => rfl

theorem refsAll_mapRulesAll : ∀ ps : List Pattern,
    refsAll (mapRulesAll f ps) = (refsAll ps).map (Prod.map f id)
  | [] => rfl
  | p :: ps => by
    rw [mapRulesAll, refsAll, refsAll, refs_mapRules p, refsAll_mapRulesAll ps, List.map_append]

end

mutual

@[simp] theorem elements_mapRules : ∀ p : Pattern,
    (p.mapRules f).elements = p.elements.map (Prod.map id (mapRules f))
  | elem _ _ content => by rw [mapRules, elements, elements, elements_mapRules content]; rfl
  | attr _ _ content => by rw [mapRules, elements, elements, elements_mapRules content]
  | list _ item => by rw [mapRules, elements, elements, elements_mapRules item]
  | union _ ps => by rw [mapRules, elements, elements, elementsAll_mapRulesAll ps]
  | empty _ => rfl
  | data _ _ => rfl
  | value _ _ _ => rfl
  | ref _ _ _ => rfl

theorem elementsAll_mapRulesAll : ∀ ps : List Pattern,
    elementsAll (mapRulesAll f ps) = (elementsAll ps).map (Prod.map id (mapRules f))
  | [] => rfl
  | p :: ps => by
    rw [mapRulesAll, elementsAll, elementsAll, elements_mapRules p, elementsAll_mapRulesAll ps,
      List.map_append]

end

mutual

@[simp] theorem outermost_mapRules : ∀ p : Pattern,
    (p.mapRules f).outermost = p.outermost.map (Prod.map id (mapRules f))
  | elem _ _ _ => rfl
  | attr _ _ content => by rw [mapRules, outermost, outermost, outermost_mapRules content]
  | list _ item => by rw [mapRules, outermost, outermost, outermost_mapRules item]
  | union _ ps => by rw [mapRules, outermost, outermost, outermostAll_mapRulesAll ps]
  | empty _ => rfl
  | data _ _ => rfl
  | value _ _ _ => rfl
  | ref _ _ _ => rfl

theorem outermostAll_mapRulesAll : ∀ ps : List Pattern,
    outermostAll (mapRulesAll f ps) = (outermostAll ps).map (Prod.map id (mapRules f))
  | [] => rfl
  | p :: ps => by
    rw [mapRulesAll, outermostAll, outermostAll, outermost_mapRules p,
      outermostAll_mapRulesAll ps, List.map_append]

end

mutual

@[simp] theorem slots_mapRules : ∀ (p : Pattern) (outer : Bool),
    (p.mapRules f).slots outer = (p.slots outer).map (Slot.mapRules f)
  | attr _ _ _, _ => rfl
  | elem _ _ _, _ => rfl
  | ref _ _ _, _ => rfl
  | union m ps, outer => by rw [mapRules, slots, slots, slotsAll_mapRulesAll ps]
  | empty _, _ => rfl
  | data _ _, _ => rfl
  | value _ _ _, _ => rfl
  | list _ _, _ => rfl

theorem slotsAll_mapRulesAll : ∀ (ps : List Pattern) (outer : Bool),
    slotsAll outer (mapRulesAll f ps) = (slotsAll outer ps).map (Slot.mapRules f)
  | [], _ => rfl
  | p :: ps, outer => by
    rw [mapRulesAll, slotsAll, slotsAll, slots_mapRules p, slotsAll_mapRulesAll ps,
      List.map_append]

end

@[simp] theorem elementCount_mapRules (p : Pattern) :
    (p.mapRules f).elementCount = p.elementCount := by
  rw [← length_elements, ← length_elements, elements_mapRules, List.length_map]

mutual

theorem mapElements_mapRules (g : Nat → ElementTag → ElementTag) : ∀ (p : Pattern) (n : Nat),
    (p.mapRules f).mapElements g n = (p.mapElements g n).mapRules f
  | elem _ _ content, n => by
    rw [mapRules, mapElements, mapElements, mapRules, mapElements_mapRules g content]
  | attr _ _ content, n => by
    rw [mapRules, mapElements, mapElements, mapRules, mapElements_mapRules g content]
  | list _ item, n => by
    rw [mapRules, mapElements, mapElements, mapRules, mapElements_mapRules g item]
  | union _ ps, n => by
    rw [mapRules, mapElements, mapElements, mapRules, mapElementsAll_mapRulesAll g ps]
  | empty _, _ => rfl
  | data _ _, _ => rfl
  | value _ _ _, _ => rfl
  | ref _ _ _, _ => rfl

theorem mapElementsAll_mapRulesAll (g : Nat → ElementTag → ElementTag) :
    ∀ (ps : List Pattern) (n : Nat),
    mapElementsAll g n (mapRulesAll f ps) = mapRulesAll f (mapElementsAll g n ps)
  | [], _ => rfl
  | p :: ps, n => by
    rw [mapRulesAll, mapElementsAll, mapElementsAll, mapRulesAll, mapElements_mapRules g p,
      mapElementsAll_mapRulesAll g ps, elementCount_mapRules]

end

mutual

/-- References to other rules are followed to the same text. -/
theorem scan_mapRules {f : RuleId → RuleId} {follow follow' : RuleId → List ValueType → TextScan} :
    ∀ (p : Pattern) (types : List ValueType),
    (∀ x ∈ p.refs, ∀ types, follow' (f x.1) types = follow x.1 types) →
    (p.mapRules f).scan follow' types = p.scan follow types
  | ref _ _ _, types, hfollow => hfollow _ List.mem_cons_self types
  | list _ item, types, hfollow => by rw [mapRules, scan, scan, scan_mapRules item _ hfollow]
  | union _ ps, types, hfollow => by rw [mapRules, scan, scan, scanAll_mapRulesAll ps _ hfollow]
  | attr _ _ _, _, _ => rfl
  | elem _ _ _, _, _ => rfl
  | empty _, _, _ => rfl
  | data _ _, _, _ => rfl
  | value _ _ _, _, _ => rfl

theorem scanAll_mapRulesAll {f : RuleId → RuleId}
    {follow follow' : RuleId → List ValueType → TextScan} :
    ∀ (ps : List Pattern) (types : List ValueType),
    (∀ x ∈ refsAll ps, ∀ types, follow' (f x.1) types = follow x.1 types) →
    scanAll follow' (mapRulesAll f ps) types = scanAll follow ps types
  | [], _, _ => rfl
  | p :: ps, types, hfollow => by
    have hp := scan_mapRules p types fun x hx => hfollow x (List.mem_append_left _ hx)
    have hps := fun types => scanAll_mapRulesAll ps types fun x hx =>
      hfollow x (List.mem_append_right _ hx)
    rw [mapRulesAll, scanAll, scanAll, hp, hps]

end

theorem children_mapRules (p : Pattern) :
    (p.mapRules f).children = p.children.map (mapRules f) := by
  cases p <;> simp [mapRules, children, mapRulesAll_eq_map]

theorem labelled_mapRules (name : String) (p : Pattern) :
    Compilation.labelled name (p.mapRules f) = (Compilation.labelled name p).mapRules f := by
  cases p <;> rfl

theorem withTypes_mapRules (types : List (Option TypeId)) (p : Pattern) :
    (p.mapRules f).withTypes types = (p.withTypes types).mapRules f :=
  mapElements_mapRules f _ p 0

end Pattern

/-! ## Rules -/

/-- A rule is a copy of another but for what it refers to, which is changed by `f`, and for
where it was defined. -/
structure Rule.Copies (f : RuleId → RuleId) (r r' : Rule) : Prop where
  scope : r'.scope = r.scope
  name : r'.name = r.name
  pattern : r'.pattern = r.pattern.map (Pattern.mapRules f)
  output : r'.output = r.output
  state : r'.state = r.state

namespace Rule.Copies

variable {f : RuleId → RuleId} {r r' : Rule} (h : r.Copies f r')

include h

theorem isStart : r'.isStart = r.isStart := by rw [Rule.isStart, Rule.isStart, h.name]

theorem displayName : r'.displayName = r.displayName := by
  rw [Rule.displayName, Rule.displayName, h.isStart, h.name]

theorem key : r'.key = r.key := by rw [Rule.key, Rule.key, h.scope, h.name]

theorem isInline : r'.isInline = r.isInline := by
  rw [Rule.isInline, Rule.isInline, children, children, h.pattern]
  cases r.pattern with
  | none => rfl
  | some p => simp [p.children_mapRules]

theorem elements : r'.elements = r.elements.map (Prod.map id (Pattern.mapRules f)) := by
  rw [Rule.elements, Rule.elements, h.pattern]
  cases r.pattern with
  | none => rfl
  | some p => exact p.elements_mapRules f

theorem slots (outer : Bool) : r'.slots outer = (r.slots outer).map (Slot.mapRules f) := by
  rw [Rule.slots, Rule.slots, h.pattern]
  cases r.pattern with
  | none => rfl
  | some p => exact p.slots_mapRules f outer

theorem noteInlined (d : Draft) (type : TypeId) :
    d.noteInlined r' type = d.noteInlined r type := by
  rw [Draft.noteInlined, Draft.noteInlined, h.displayName]

theorem jobs : r'.jobs = r.jobs.map (Prod.map id (List.map (Slot.mapRules f))) := by
  rw [Rule.jobs, Rule.jobs, h.output, h.pattern]
  cases r.output with
  | some type => simp [h.slots]
  | none =>
    cases r.pattern with
    | none => rfl
    | some p =>
      simp only [Option.map_some, Pattern.outermost_mapRules, List.filterMap_map,
        List.map_filterMap]
      refine List.filterMap_congr fun x _ => ?_
      cases houtput : x.1.output <;> simp [houtput]

end Rule.Copies

/-! ## Tables -/

/-- A map of indices carries the rules of a domain to copies in another table. Rules of the
domain refer to rules of the domain. -/
structure RuleTable.Embeds (f : RuleId → RuleId) (dom : RuleId → Prop) (t t' : RuleTable) :
    Prop where
  inj : ∀ a b, dom a → dom b → f a = f b → a = b
  rule : ∀ id, dom id → ∃ rule rule', t.get? id = some rule ∧ t'.get? (f id) = some rule' ∧
    rule.Copies f rule'
  closed : ∀ id rule, dom id → t.get? id = some rule → ∀ x ∈ rule.refs, dom x.1

namespace RuleTable.Embeds

variable {f : RuleId → RuleId} {dom : RuleId → Prop} {t t' : RuleTable} {id : RuleId}
  {rule : Rule} {ids : List RuleId} {p : Pattern} {isInline isInline' : RuleId → Bool}

theorem get? (h : t.Embeds f dom t') (hid : dom id) (hrule : t.get? id = some rule) :
    ∃ rule', t'.get? (f id) = some rule' ∧ rule.Copies f rule' := by
  obtain ⟨old, rule', hold, hrule', hcopies⟩ := h.rule id hid
  obtain rfl := Option.some.inj (hrule.symm.trans hold)
  exact ⟨rule', hrule', hcopies⟩

theorem mem_map_iff (h : t.Embeds f dom t') (hids : ∀ i ∈ ids, dom i) (hid : dom id) :
    f id ∈ ids.map f ↔ id ∈ ids := by
  refine ⟨fun hmem => ?_, List.mem_map_of_mem⟩
  obtain ⟨i, hi, heq⟩ := List.mem_map.mp hmem
  exact h.inj i id (hids i hi) hid heq ▸ hi

/-- A change of a rule and of its copy. -/
theorem modify (h : t.Embeds f dom t') (hid : dom id) {g g' : Rule → Rule}
    (hg : ∀ rule rule', t.get? id = some rule → rule.Copies f rule' →
      (g rule).Copies f (g' rule') ∧ (g rule).skeleton = rule.skeleton) :
    (t.modify id g).Embeds f dom (t'.modify (f id) g') where
  inj := h.inj
  rule i hi := by
    obtain ⟨rule, rule', hrule, hrule', hcopies⟩ := h.rule i hi
    by_cases hne : i = id
    · subst hne
      exact ⟨g rule, g' rule', get?_modify_self hrule, get?_modify_self hrule',
        (hg rule rule' hrule hcopies).1⟩
    · have hne' : f i ≠ f id := fun heq => hne (h.inj i id hi hid heq)
      exact ⟨rule, rule', (get?_modify_of_ne hne).trans hrule,
        (get?_modify_of_ne hne').trans hrule', hcopies⟩
  closed i rule hi hrule := by
    obtain ⟨old, hold, rfl⟩ := of_get?_modify hrule
    by_cases hne : i = id
    · subst hne
      obtain ⟨old', -, hcopies⟩ := h.get? hi hold
      rw [if_pos rfl, ← Rule.refs_skeleton, (hg old old' hold hcopies).2, Rule.refs_skeleton]
      exact h.closed i old hi hold
    · rw [if_neg hne]
      exact h.closed i old hi hold

/-! ### Text -/

theorem followWithin_eq (h : t.Embeds f dom t') (n : Nat) {inside : List RuleId}
    (hinside : ∀ i ∈ inside, dom i) (hid : dom id) (types : List ValueType) :
    t'.followWithin (fun _ types => ⟨true, types⟩) n (inside.map f) (f id) types =
      t.followWithin (fun _ types => ⟨true, types⟩) n inside id types := by
  induction n generalizing inside id types with
  | zero => rfl
  | succ n ih =>
    simp only [followWithin, h.mem_map_iff hinside hid]
    split
    · rfl
    · obtain ⟨rule, rule', hrule, hrule', hcopies⟩ := h.rule id hid
      rw [hrule, hrule', Option.bind_some, Option.bind_some, hcopies.pattern]
      cases hp : rule.pattern with
      | none => rfl
      | some p =>
        have hrefs : rule.refs = p.refs := by rw [Rule.refs, hp]
        exact p.scan_mapRules types fun x hx types =>
          ih (List.forall_mem_cons.mpr ⟨hid, hinside⟩)
            (h.closed id rule hid hrule x (hrefs ▸ hx)) types

theorem follow_eq (h : t.Embeds f dom t') (hid : dom id) (types : List ValueType) :
    t'.follow (f id) types = t.follow id types := by
  have hlt : t.size < max t.size t'.size + 1 := by omega
  have hlt' : t'.size < max t.size t'.size + 1 := by omega
  rw [← t.followWithin_eq (fun _ types => ⟨true, types⟩) hlt,
    ← t'.followWithin_eq (fun _ types => ⟨true, types⟩) hlt']
  exact h.followWithin_eq _ (fun _ hi => absurd hi List.not_mem_nil) hid types

theorem scan_eq (h : t.Embeds f dom t') (hp : ∀ x ∈ p.refs, dom x.1) :
    t'.scan (p.mapRules f) = t.scan p :=
  p.scan_mapRules [] fun x hx types => h.follow_eq (hp x hx) types

end RuleTable.Embeds

/-- What an element holds with a change of the rule that it delegates to. -/
def ElementContent.mapRules (f : RuleId → RuleId) : ElementContent → ElementContent
  | delegated id => delegated (f id)
  | nothing => nothing
  | values types => values types
  | structured => structured

theorem ElementContent.mapRules_eq_structured_iff {f : RuleId → RuleId} {x : ElementContent} :
    x.mapRules f = .structured ↔ x = .structured := by
  cases x <;> simp [mapRules]

namespace RuleTable.Embeds

variable {f : RuleId → RuleId} {dom : RuleId → Prop} {t t' : RuleTable} {id : RuleId}
  {p : Pattern} {isInline isInline' : RuleId → Bool}

/-- Patterns hold the same, where the same rules are inline. -/
theorem contentOf_eq (h : t.Embeds f dom t')
    (hinline : ∀ id, dom id → isInline' (f id) = isInline id) (hp : ∀ x ∈ p.refs, dom x.1) :
    t'.contentOf isInline' (p.mapRules f) = (t.contentOf isInline p).mapRules f := by
  have hchildren : (p.mapRules f).children.isEmpty = p.children.isEmpty := by
    rw [p.children_mapRules f, List.isEmpty_map]
  unfold contentOf
  rw [hchildren, h.scan_eq hp]
  by_cases hempty : p.children.isEmpty = true
  · rw [if_pos hempty, if_pos hempty]
    rfl
  · rw [if_neg hempty, if_neg hempty]
    by_cases htext : (t.scan p).onlyText = true
    · simp only [htext, if_true]
      split <;> rfl
    · simp only [htext, Bool.false_eq_true, if_false]
      cases p with
      | ref m rule label =>
        simp only [Pattern.mapRules, hinline rule (hp _ List.mem_cons_self)]
        split <;> rfl
      | _ => rfl

/-! ### Types of writers -/

theorem writerTypeWithin_eq (h : t.Embeds f dom t') (n : Nat) {seen : List RuleId}
    (hseen : ∀ i ∈ seen, dom i) (hid : dom id) :
    Compilation.writerTypeWithin t' (fun _ => none) n (seen.map f) (f id) =
      Compilation.writerTypeWithin t (fun _ => none) n seen id := by
  induction n generalizing seen id with
  | zero => rfl
  | succ n ih =>
    simp only [Compilation.writerTypeWithin, h.mem_map_iff hseen hid]
    split
    · rfl
    · obtain ⟨rule, rule', hrule, hrule', hcopies⟩ := h.rule id hid
      have hnext : ∀ {next location}, (next, location) ∈ rule.refs →
          Compilation.writerTypeWithin t' (fun _ => none) n (f id :: seen.map f) (f next) =
            Compilation.writerTypeWithin t (fun _ => none) n (id :: seen) next :=
        fun hmem => ih (List.forall_mem_cons.mpr ⟨hid, hseen⟩)
          (h.closed id rule hid hrule _ hmem)
      simp only [hrule, hrule', hcopies.output, hcopies.pattern]
      cases rule.output with
      | some type => rfl
      | none =>
        cases hp : rule.pattern with
        | none => rfl
        | some p =>
          rw [Rule.refs, hp] at hnext
          cases p with
          | ref m next label => exact hnext List.mem_cons_self
          | elem m tag content =>
            simp only [Option.map_some, Pattern.mapRules]
            cases tag.output with
            | some type => rfl
            | none =>
              cases content with
              | ref m next label => exact hnext List.mem_cons_self
              | _ => rfl
          | _ => rfl

theorem writerType_eq (h : t.Embeds f dom t') (hid : dom id) :
    Compilation.writerType t' (f id) = Compilation.writerType t id := by
  have hlt : t.size < max t.size t'.size + 1 := by omega
  have hlt' : t'.size < max t.size t'.size + 1 := by omega
  rw [← Compilation.writerTypeWithin_eq t (fun _ => none) hlt,
    ← Compilation.writerTypeWithin_eq t' (fun _ => none) hlt']
  exact h.writerTypeWithin_eq _ (fun _ hi => absurd hi List.not_mem_nil) hid

end RuleTable.Embeds

/-! ## Walks -/

/-- A target with a change of the rules that stand for their patterns. -/
def Target.mapRules (f : RuleId → RuleId) (target : Target) : Target :=
  { target with splicing := target.splicing.map f }

/-- The end of a walk with a change of the rules of its target. -/
def Outcome.mapRules (f : RuleId → RuleId) : Outcome → Outcome
  | .ok target d => .ok (target.mapRules f) d
  | .error failure d => .error failure d

/-- The rules that a slot refers to are of a domain. -/
def Slot.RefersIn (dom : RuleId → Prop) (s : Slot) : Prop := ∀ x ∈ s.refs, dom x.1

/-- What is fixed while types are filled, where a map of indices carries the rules of a domain to
copies. -/
structure Expansion.Embeds (f : RuleId → RuleId) (dom : RuleId → Prop) (e e' : Expansion) :
    Prop where
  rules : e.rules.Embeds f dom e'.rules
  inline : ∀ id, dom id → e'.isInline (f id) = e.isInline id
  returns : e'.returns = e.returns

namespace Expansion.Embeds

variable {f : RuleId → RuleId} {dom : RuleId → Prop} {e e' : Expansion} {content : Pattern}
  {slots : List Slot} {target : Target} {d : Draft} {r : Outcome}

theorem attributeMember_eq (h : e.Embeds f dom e') (hcontent : ∀ x ∈ content.refs, dom x.1)
    (tag : AttributeTag) (optional : Bool) :
    e'.attributeMember tag (content.mapRules f) optional =
      e.attributeMember tag content optional := by
  rw [attributeMember, attributeMember, attributeValues, attributeValues,
    h.rules.scan_eq hcontent, h.returns]

theorem elementMember_eq (h : e.Embeds f dom e') (tag : ElementTag)
    (parts : List ValueType × Option TypeId) (optional : Bool) :
    e'.elementMember tag parts optional = e.elementMember tag parts optional := by
  rw [elementMember, elementMember, h.returns]

theorem elementParts_eq (h : e.Embeds f dom e') (hcontent : ∀ x ∈ content.refs, dom x.1)
    (name : QName) : e'.elementParts name (content.mapRules f) = e.elementParts name content := by
  rw [elementParts, elementParts, h.rules.contentOf_eq h.inline hcontent]
  cases hparts : e.rules.contentOf e.isInline content with
  | nothing | values | structured => rfl
  | delegated id =>
    obtain ⟨m, label, rfl, -⟩ := RuleTable.ref_of_contentOf_delegated hparts
    obtain ⟨rule, rule', hrule, hrule', hcopies⟩ :=
      h.rules.rule id (hcontent _ List.mem_cons_self)
    simp only [ElementContent.mapRules, RuleTable.require, hrule, hrule', typeOf, hcopies.output,
      hcopies.displayName, bind, Except.bind]

theorem settled (h : e.Embeds f dom e') (hcontent : ∀ x ∈ content.refs, dom x.1)
    {tag : ElementTag} {parts : List ValueType × Option TypeId}
    (hsettled : e.Settled d tag content parts) :
    e'.Settled d tag (content.mapRules f) parts := by
  cases hsettled with
  | own houtput hfilled => exact .own houtput hfilled
  | other houtput hparts => exact .other houtput ((h.elementParts_eq hcontent _).trans hparts)

theorem stuck (h : e.Embeds f dom e') {s : Slot} (hs : s.RefersIn dom) {failure : Failure}
    (hstuck : e.Stuck target s failure) :
    e'.Stuck (target.mapRules f) (s.mapRules f) failure := by
  cases hstuck with
  | parts hnew houtput hparts =>
    exact .parts hnew houtput ((h.elementParts_eq hs _).trans hparts)
  | dangling hrule =>
    obtain ⟨rule, -, hrule', -⟩ := h.rules.rule _ (hs _ List.mem_cons_self)
    cases hrule.symm.trans hrule'
  | undeclared hrule hinline houtput =>
    have hid := hs _ List.mem_cons_self
    obtain ⟨rule', hrule', hcopies⟩ := h.rules.get? hid hrule
    rw [← hcopies.displayName]
    exact .undeclared hrule' ((h.inline _ hid).trans hinline) (hcopies.output.trans houtput)
  | cycle hrule hinline hopen =>
    have hid := hs _ List.mem_cons_self
    obtain ⟨rule', hrule', hcopies⟩ := h.rules.get? hid hrule
    rw [← hcopies.displayName]
    exact .cycle hrule' ((h.inline _ hid).trans hinline) (List.mem_map_of_mem hopen)

theorem refersIn_slots (h : e.Embeds f dom e') {id : RuleId} (hid : dom id) {rule : Rule}
    (hrule : e.rules.get? id = some rule) (outer : Bool) :
    ∀ s ∈ rule.slots outer, s.RefersIn dom := fun _ hs x hx =>
  h.rules.closed id rule hid hrule x (Rule.refs_of_mem_slots hs hx)

/-- There are the same walks. -/
theorem walks (h : e.Embeds f dom e') (hwalks : Walks e slots target d r)
    (hslots : ∀ s ∈ slots, s.RefersIn dom) (hsplicing : ∀ id ∈ target.splicing, dom id) :
    Walks e' (slots.map (Slot.mapRules f)) (target.mapRules f) d (r.mapRules f) := by
  induction hwalks with
  | nil => exact .nil
  | seen hkey hseen _ ih =>
    obtain ⟨-, hrest⟩ := List.forall_mem_cons.mp hslots
    exact .seen ((Slot.key?_mapRules f _).trans hkey) hseen (ih hrest hsplicing)
  | attr hnew _ ih =>
    obtain ⟨hfirst, hrest⟩ := List.forall_mem_cons.mp hslots
    have htail := ih hrest hsplicing
    rw [← h.attributeMember_eq hfirst] at htail
    exact .attr hnew htail
  | elem hnew hparts _ ih =>
    obtain ⟨hfirst, hrest⟩ := List.forall_mem_cons.mp hslots
    have htail := ih hrest hsplicing
    rw [← h.elementMember_eq] at htail
    exact .elem hnew (h.settled hfirst hparts) htail
  | @fill tag content _ _ _ _ _ _ _ _ hnew houtput hopen _ _ ihbody ih =>
    obtain ⟨hfirst, hrest⟩ := List.forall_mem_cons.mp hslots
    have hbody := ihbody (fun s hs x hx => hfirst x (content.refs_of_mem_slots hs hx))
      fun _ hid => absurd hid List.not_mem_nil
    have htail := ih hrest hsplicing
    rw [← h.elementMember_eq] at htail
    rw [← content.slots_mapRules f] at hbody
    exact .fill hnew houtput hopen hbody htail
  | @fillFails tag content _ _ _ _ _ _ _ hnew houtput hopen _ ihbody =>
    obtain ⟨hfirst, -⟩ := List.forall_mem_cons.mp hslots
    have hbody := ihbody (fun s hs x hx => hfirst x (content.refs_of_mem_slots hs hx))
      fun _ hid => absurd hid List.not_mem_nil
    rw [← content.slots_mapRules f] at hbody
    exact .fillFails hnew houtput hopen hbody
  | inherit hrule hinline houtput _ ih =>
    obtain ⟨hfirst, hrest⟩ := List.forall_mem_cons.mp hslots
    have hid := hfirst _ List.mem_cons_self
    obtain ⟨rule', hrule', hcopies⟩ := h.rules.get? hid hrule
    exact .inherit hrule' ((h.inline _ hid).trans hinline) (hcopies.output.trans houtput)
      (ih hrest hsplicing)
  | @splice id _ optional _ inner _ target d d₁ _ hrule hinline hnew _ _ ihbody ih =>
    obtain ⟨hfirst, hrest⟩ := List.forall_mem_cons.mp hslots
    have hid := hfirst _ List.mem_cons_self
    obtain ⟨rule', hrule', hcopies⟩ := h.rules.get? hid hrule
    have hnew' : f id ∉ (target.mapRules f).splicing := fun hmem =>
      hnew ((h.rules.mem_map_iff hsplicing hid).mp hmem)
    have hbody : Walks e' (rule'.slots optional) ((target.mapRules f).splice (f id))
        (d.noteInlined rule' target.type) (.ok (inner.mapRules f) d₁) := by
      rw [hcopies.slots, hcopies.noteInlined]
      exact ihbody (h.refersIn_slots hid hrule optional)
        (List.forall_mem_cons.mpr ⟨hid, hsplicing⟩)
    exact .splice hrule' ((h.inline _ hid).trans hinline) hnew' hbody (ih hrest hsplicing)
  | @spliceFails id _ optional _ _ target d failure d₁ hrule hinline hnew _ ihbody =>
    obtain ⟨hfirst, -⟩ := List.forall_mem_cons.mp hslots
    have hid := hfirst _ List.mem_cons_self
    obtain ⟨rule', hrule', hcopies⟩ := h.rules.get? hid hrule
    have hnew' : f id ∉ (target.mapRules f).splicing := fun hmem =>
      hnew ((h.rules.mem_map_iff hsplicing hid).mp hmem)
    have hbody : Walks e' (rule'.slots optional) ((target.mapRules f).splice (f id))
        (d.noteInlined rule' target.type) (.error failure d₁) := by
      rw [hcopies.slots, hcopies.noteInlined]
      exact ihbody (h.refersIn_slots hid hrule optional)
        (List.forall_mem_cons.mpr ⟨hid, hsplicing⟩)
    exact .spliceFails hrule' ((h.inline _ hid).trans hinline) hnew' hbody
  | stuck hstuck =>
    obtain ⟨hfirst, -⟩ := List.forall_mem_cons.mp hslots
    exact .stuck (h.stuck hfirst hstuck)

/-- Types are filled alike. -/
theorem fills (h : e.Embeds f dom e') {jobs : List (TypeId × List Slot)}
    {r : EStateM.Result Failure Draft Unit} (hfills : Fills e jobs d r)
    (hjobs : ∀ job ∈ jobs, ∀ s ∈ job.2, s.RefersIn dom) :
    Fills e' (jobs.map (Prod.map id (List.map (Slot.mapRules f)))) d r := by
  induction hfills with
  | nil => exact .nil
  | skip hfilled _ ih => exact .skip hfilled (ih (List.forall_mem_cons.mp hjobs).2)
  | fill hopen body _ ih =>
    obtain ⟨hfirst, hrest⟩ := List.forall_mem_cons.mp hjobs
    have hbody := h.walks body hfirst fun _ hid => absurd hid List.not_mem_nil
    exact .fill hopen hbody (ih hrest)
  | fails hopen body =>
    obtain ⟨hfirst, -⟩ := List.forall_mem_cons.mp hjobs
    exact .fails hopen (h.walks body hfirst fun _ hid => absurd hid List.not_mem_nil)

end Expansion.Embeds

end MarkupTypes
