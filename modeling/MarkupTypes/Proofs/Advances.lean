import MarkupTypes.Proofs.Success

/-!
# Moves

What a step of a compilation does is a series of moves that succeed (`Compilation.Advance`) :
a rule is declared, or all types of a declared rule are filled and the rule counts as
generated. A step that succeeds consists of such moves alone. Where a step fails, its last
move may have been to fill the types of a rule halfway (`Compilation.Breaks`), and what was
filled until then stays (`Compilation.carries_perform`).

Whatever the moves are, a type that has been filled stays as it is, and a rule that has a
type keeps it (`Compilation.Leads.get?_eq`, `Compilation.Leads.output_cases`).
-/

namespace MarkupTypes

namespace Compilation

/-! ## Moves that succeed -/

/-- A move that succeeds. -/
inductive Advance : Compilation → Compilation → Prop
  | trace {c} (f : Trace.Tracer → Trace.Tracer) : Advance c (c.mapTracer f)
  | declare {c id rule} (hrule : c.rules.get? id = some rule) (hstate : rule.state = .unprocessed) :
    Advance c (c.declareRule id rule)
  | root {c} : Advance c c.settleRoot
  /-- All types of a rule are filled. -/
  | generate {c id rule d} (hrule : c.rules.get? id = some rule) (hstate : rule.state = .declared)
    (hfills : Fills c.expansion rule.jobs c.draft (.ok () d)) :
    Advance c (markGenerated { c with draft := d } id)

/-- A compilation gets to another by moves that succeed. -/
def Advances : Compilation → Compilation → Prop := Relation.ReflTransGen Advance

/-- The types of a rule are filled until that fails. -/
inductive Breaks : Compilation → Compilation → Prop
  | fill {c id rule failure d} (hrule : c.rules.get? id = some rule)
    (hstate : rule.state = .declared)
    (hfills : Fills c.expansion rule.jobs c.draft (.error failure d)) :
    Breaks c { c with draft := d }

/-- Moves that succeed, after which one may fail. -/
def Tries (c c' : Compilation) : Prop := ∃ c₁, Advances c c₁ ∧ (c' = c₁ ∨ Breaks c₁ c')

/-- How work on a compilation ends : with moves that succeed, or else where one failed. -/
def Carries {α : Type} (c : Compilation) : EStateM.Result Failure Compilation α → Prop
  | .ok _ c' => Advances c c'
  | .error _ c' => Tries c c'

variable {c c₁ c' : Compilation} {α : Type}

theorem Advance.leads (h : Advance c c') : Leads c c' := by
  cases h with
  | trace f => exact .single (.trace f)
  | declare hrule hstate => exact .single (.declare hrule hstate)
  | root => exact .single .root
  | generate hrule hstate hfills =>
    exact (Relation.ReflTransGen.single (.fill hrule hstate hfills)).tail (.generated hrule hstate)

theorem Advances.leads (h : Advances c c') : Leads c c' := by
  induction h with
  | refl => exact .refl
  | tail _ hlast ih => exact ih.trans hlast.leads

theorem Breaks.leads (h : Breaks c c') : Leads c c' := by
  cases h with
  | fill hrule hstate hfills => exact .single (.fill hrule hstate hfills)

/-- What every move that succeeds keeps is kept on the way. -/
theorem Advances.invariant {P : Compilation → Prop} (hmove : ∀ {c c'}, Advance c c' → P c → P c')
    (h : Advances c c') (hc : P c) : P c' := by
  induction h with
  | refl => exact hc
  | tail _ hlast ih => exact hmove hlast ih

/-! ## The moves of a step -/

theorem Tries.of_advances (h : Advances c c') : Tries c c' := ⟨c', h, .inl rfl⟩

theorem Tries.after (h : Advances c c₁) (h' : Tries c₁ c') : Tries c c' := by
  obtain ⟨c₂, hadvances, hlast⟩ := h'
  exact ⟨c₂, h.trans hadvances, hlast⟩

theorem Carries.after {r : EStateM.Result Failure Compilation α} (h : Advances c c₁)
    (h' : Carries c₁ r) : Carries c r := by
  cases r with
  | ok x c' => exact h.trans h'
  | error failure c' => exact Tries.after h h'

theorem carries_declare (id : RuleId) (c : Compilation) : Carries c (declare id c) := by
  rw [declare_eq]
  cases hrule : c.rules.get? id with
  | none => exact .of_advances .refl
  | some rule =>
    simp only
    split
    · next hstate => exact .single (.declare hrule hstate)
    · exact .refl

theorem carries_generate (id : RuleId) (c : Compilation) : Carries c (generate id c) := by
  rw [generate_eq]
  cases hrule : c.rules.get? id with
  | none => exact .of_advances .refl
  | some rule =>
    simp only
    cases hstate : rule.state with
    | unprocessed => exact .of_advances .refl
    | generated => exact .refl
    | declared =>
      have hfills :=
        Expansion.fills_fillRule (e := c.expansion) (RuleTable.mem_of_get? hrule) c.draft
      simp only
      cases hend : c.expansion.fillRule rule c.draft with
      | ok _ d => exact .single (.generate hrule hstate (hend ▸ hfills))
      | error failure d => exact ⟨c, .refl, .inr (.fill hrule hstate (hend ▸ hfills))⟩

theorem carries_forEach {step : RuleId → Compiling Bool} (hstep : ∀ id c, Carries c (step id c)) :
    ∀ (ids : List RuleId) (c : Compilation), Carries c (forEach step ids c)
  | [], _ => .refl
  | id :: ids, c => by
    have hfirst := hstep id c
    rw [forEach_cons]
    cases hend : step id c with
    | error failure c' => rwa [hend] at hfirst
    | ok _ c' =>
      rw [hend] at hfirst
      exact .after hfirst (carries_forEach hstep ids c')

theorem carries_declareAll (c : Compilation) : Carries c (declareAll c) := by
  have hbegin : Advances c (c.mapTracer (·.startPhase .declare)) := .single (.trace _)
  have hrules := Carries.after hbegin (carries_forEach carries_declare c.order _)
  rw [declareAll_eq]
  cases hend : forEach declare c.order (c.mapTracer (·.startPhase .declare)) with
  | error failure c' => rwa [hend] at hrules
  | ok _ c' =>
    rw [hend] at hrules
    have hsettled : Advances c c'.settleRoot := Relation.ReflTransGen.tail hrules .root
    exact hsettled.tail (.trace _)

theorem carries_generateAll (c : Compilation) : Carries c (generateAll c) := by
  have hbegin : Advances c (c.mapTracer (·.startPhase .generate)) := .single (.trace _)
  have hrules := Carries.after hbegin (carries_forEach carries_generate c.order _)
  rw [generateAll_eq]
  cases hend : forEach generate c.order (c.mapTracer (·.startPhase .generate)) with
  | error failure c' => rwa [hend] at hrules
  | ok _ c' =>
    rw [hend] at hrules
    exact Relation.ReflTransGen.tail hrules (.trace _)

/-- Every step but preparing is a series of moves. -/
theorem carries_perform {step : Step} (hstep : step ≠ .prepare) (c : Compilation) :
    Carries c (perform step c) := by
  cases step with
  | prepare => exact absurd rfl hstep
  | declare id => exact carries_declare id c
  | generate id => exact carries_generate id c
  | declareAll =>
    have h := carries_declareAll c
    simp only [perform, run_bind]
    cases hend : declareAll c <;> rwa [hend] at h
  | generateAll =>
    have h := carries_generateAll c
    simp only [perform, run_bind]
    cases hend : generateAll c <;> rwa [hend] at h

theorem tries_after {step : Step} (hstep : step ≠ .prepare) (c : Compilation) :
    Tries c (c.after step) := by
  have h := carries_perform hstep c
  unfold after
  cases hend : perform step c with
  | ok x c' =>
    rw [hend] at h
    exact .of_advances h
  | error failure c' => rwa [hend] at h

end Compilation

/-! ## Types that have been filled -/

theorem Model.Grows.size_le {m m' : Model} (h : m.Grows m') : m.size ≤ m'.size := by
  by_contra hlt
  obtain ⟨T', hT', -⟩ := h m'.size _ (List.getElem?_eq_getElem (Nat.lt_of_not_le hlt))
  exact absurd (List.getElem?_eq_some_iff.mp hT').1 (Nat.lt_irrefl _)

/-- A walk that ends has met no reference to a rule without a type, but for inline rules. -/
theorem Walks.output_of_ok {e : Expansion} {slots : List Slot} {target inner : Target}
    {d d₁ : Draft} (h : Walks e slots target d (.ok inner d₁)) {occ : List Slot}
    (hexpands : e.rules.Expands e.isInline slots occ) : ∀ s ∈ occ, ∀ id, s.rule? = some id →
      ∃ rule parent, e.rules.get? id = some rule ∧ rule.output = some parent := by
  generalize hr : (EStateM.Result.ok inner d₁ : Outcome) = r at h
  induction h generalizing occ inner d₁ with
  | nil =>
    cases hexpands
    exact fun _ hs => absurd hs List.not_mem_nil
  | @seen slot _ _ _ _ _ hkey _ _ ih =>
    have hnone := slot.rule?_of_key? hkey
    obtain ⟨occ, rfl, tail⟩ := hexpands.of_keep fun id hid => by
      rw [hnone] at hid
      cases hid
    exact List.forall_mem_cons.mpr ⟨fun id hid => (by rw [hnone] at hid; cases hid), ih tail hr⟩
  | attr _ _ ih | elem _ _ _ ih | fill _ _ _ _ _ _ ih =>
    obtain ⟨occ, rfl, tail⟩ := hexpands.of_keep fun _ hid => by cases hid
    exact List.forall_mem_cons.mpr ⟨fun _ hid => (by cases hid), ih tail hr⟩
  | @inherit id location optional rule parent _ _ _ _ hrule hinline houtput _ ih =>
    obtain ⟨occ, rfl, tail⟩ := hexpands.of_keep (by rintro _ ⟨⟩; exact hinline)
    refine List.forall_mem_cons.mpr ⟨?_, ih tail hr⟩
    rintro _ ⟨⟩
    exact ⟨rule, parent, hrule, houtput⟩
  | splice hrule hinline _ _ _ ihbody ih =>
    obtain ⟨expanded, occ, rfl, body, tail⟩ := hexpands.of_splice hrule hinline
    exact List.forall_mem_append.mpr ⟨ihbody body rfl, ih tail hr⟩
  | fillFails | spliceFails | stuck => cases hr

/-- A walk fills types of elements alone. -/
theorem Walks.filled_cases {e : Expansion} {slots : List Slot} {target : Target} {d : Draft}
    {r : Outcome} (h : Walks e slots target d r) (hwithin : e.Within slots) :
    ∀ type ∈ (endState r).filled, type ∈ d.filled ∨ type ∈ elementTypes e.rules.elements := by
  induction h with
  | nil | stuck => exact fun _ htype => .inl htype
  | seen _ _ _ ih | attr _ _ ih | elem _ _ _ ih => exact ih hwithin.tail
  | fill _ houtput _ _ _ ihbody ih =>
    intro type htype
    rcases ih hwithin.tail type htype with htype | htype
    · rw [Draft.filled_addMember, Draft.filled_noteMembers] at htype
      rcases ihbody (.of_element hwithin.mem) type htype with htype | htype
      · rcases List.mem_cons.mp htype with rfl | htype
        · exact .inr (mem_elementTypes.mpr ⟨_, hwithin.mem, houtput⟩)
        · exact .inl htype
      · exact .inr htype
    · exact .inr htype
  | fillFails _ houtput _ _ ihbody =>
    intro type htype
    rcases ihbody (.of_element hwithin.mem) type htype with htype | htype
    · rcases List.mem_cons.mp htype with rfl | htype
      · exact .inr (mem_elementTypes.mpr ⟨_, hwithin.mem, houtput⟩)
      · exact .inl htype
    · exact .inr htype
  | inherit _ _ _ _ ih =>
    intro type htype
    rw [← Draft.filled_inherit]
    exact ih hwithin.tail type htype
  | splice hrule _ _ _ _ ihbody ih =>
    intro type htype
    rcases ih hwithin.tail type htype with htype | htype
    · exact ihbody (.of_rule hrule) type htype
    · exact .inr htype
  | spliceFails hrule _ _ _ ihbody => exact ihbody (.of_rule hrule)

/-- Filling types fills these types, and types of elements. -/
theorem Fills.filled_cases {e : Expansion} {jobs : List (TypeId × List Slot)} {d : Draft}
    {r : EStateM.Result Failure Draft Unit} (h : Fills e jobs d r)
    (hwithin : ∀ job ∈ jobs, e.Within job.2) : ∀ type ∈ (endState r).filled,
    type ∈ d.filled ∨ type ∈ jobs.map Prod.fst ∨ type ∈ elementTypes e.rules.elements := by
  induction h with
  | nil => exact fun _ htype => .inl htype
  | skip _ _ ih =>
    intro type htype
    have hrest := ih (fun job hjob => hwithin job (List.mem_cons_of_mem _ hjob)) type htype
    exact hrest.imp_right (Or.imp_left (List.mem_cons_of_mem _))
  | fill _ body _ ih =>
    intro type htype
    rcases ih (fun job hjob => hwithin job (List.mem_cons_of_mem _ hjob)) type htype with
      htype | htype
    · rw [Draft.filled_noteMembers] at htype
      rcases body.filled_cases (hwithin _ List.mem_cons_self) type htype with htype | htype
      · rcases List.mem_cons.mp htype with rfl | htype
        · exact .inr (.inl List.mem_cons_self)
        · exact .inl htype
      · exact .inr (.inr htype)
    · exact .inr (htype.imp_left (List.mem_cons_of_mem _))
  | fails _ body =>
    intro type htype
    rcases body.filled_cases (hwithin _ List.mem_cons_self) type htype with htype | htype
    · rcases List.mem_cons.mp htype with rfl | htype
      · exact .inr (.inl List.mem_cons_self)
      · exact .inl htype
    · exact .inr (.inr htype)

/-- The types that a rule has to fill are its own. -/
theorem Rule.mem_types_of_mem_jobs {r : Rule} {job : TypeId × List Slot} (hjob : job ∈ r.jobs) :
    job.1 ∈ r.types := by
  rw [← r.map_fst_owners]
  exact List.mem_map_of_mem (mem_owners_of_mem_jobs hjob)

/-- A rule with a type has that type to fill. -/
theorem Rule.jobs_of_output {r : Rule} {type : TypeId} (houtput : r.output = some type) :
    r.jobs = [(type, r.slots false)] := by
  rw [jobs, houtput]

theorem RuleTable.mem_types_of_get? {t : RuleTable} {id : RuleId} {rule : Rule} {type : TypeId}
    (hrule : t.get? id = some rule) (htype : type ∈ rule.types) : type ∈ t.types :=
  List.mem_flatMap.mpr ⟨rule, mem_of_get? hrule, htype⟩

theorem RuleTable.mem_types_of_mem_elementTypes {t : RuleTable} {type : TypeId}
    (htype : type ∈ elementTypes t.elements) : type ∈ t.types := by
  obtain ⟨x, hx, houtput⟩ := mem_elementTypes.mp htype
  obtain ⟨id, rule, hrule, hx⟩ := mem_elements.mp hx
  exact mem_types_of_get? hrule (List.mem_append_right _ (mem_elementTypes.mpr ⟨x, hx, houtput⟩))

/-- A type is of one rule, or of an element of one rule. -/
theorem RuleTable.eq_of_mem_types {t : RuleTable} (hnodup : t.types.Nodup) {i j : RuleId}
    {r r' : Rule} (hr : t.get? i = some r) (hr' : t.get? j = some r') {type : TypeId}
    (h : type ∈ r.types) (h' : type ∈ r'.types) : i = j := by
  obtain ⟨-, hpairwise⟩ := List.nodup_flatMap.mp hnodup
  obtain ⟨hi, rfl⟩ := List.getElem?_eq_some_iff.mp hr
  obtain ⟨hj, rfl⟩ := List.getElem?_eq_some_iff.mp hr'
  rw [List.pairwise_iff_getElem] at hpairwise
  rcases Nat.lt_trichotomy i j with hlt | heq | hgt
  · exact absurd h' (hpairwise i j hi hj hlt h)
  · exact heq
  · exact absurd h (hpairwise j i hj hi hgt h')

namespace Compilation

variable {c c' : Compilation} {id : RuleId} {rule : Rule} {type : TypeId}

/-- The type of a rule is not that of an element. -/
theorem Ordered.not_mem_elementTypes (h : Ordered c) (hrule : c.rules.get? id = some rule)
    (houtput : rule.output = some type) : type ∉ elementTypes c.rules.elements := by
  intro helement
  obtain ⟨x, hx, hx'⟩ := mem_elementTypes.mp helement
  obtain ⟨T, hT, horigin⟩ := h.hasOrigin_of_output hrule houtput
  obtain ⟨-, T', hT', horigin'⟩ := h.provides hx hx'
  obtain rfl := Option.some.inj (hT.symm.trans hT')
  rw [horigin] at horigin'
  cases horigin'

/-- Types are filled for rules and elements only. -/
def Owned (c : Compilation) : Prop := ∀ type ∈ c.draft.filled, type ∈ c.rules.types

theorem Owned.of_types_eq (h : Owned c) (htypes : c'.rules.types = c.rules.types)
    (hfilled : c'.draft.filled = c.draft.filled) : Owned c' := fun type htype => by
  rw [htypes]
  exact h type (hfilled ▸ htype)

theorem Owned.change (h : Owned c) (hordered : Ordered c) (hchange : Change c c') : Owned c' := by
  cases hchange with
  | trace f => exact h
  | root => exact h
  | label id name =>
    exact h.of_types_eq (types_modify_of_eq fun rule _ => types_labelled _ rule) rfl
  | generated => exact h.of_types_eq (types_modify_of_eq fun _ _ => rfl) rfl
  | @declare id rule hrule hstate =>
    intro type htype
    have hfilled : (c.declareRule id rule).draft.filled = c.draft.filled := declares_declared.filled
    have hperm := types_modify (f := fun _ => (c.declared id rule).1) hrule
      (hordered.unprocessed id rule hrule hstate)
    exact hperm.mem_iff.mpr (List.mem_append_left _ (h type (hfilled ▸ htype)))
  | @fill id rule r hrule hstate hfills =>
    intro type htype
    have hmem := RuleTable.mem_of_get? hrule
    rcases hfills.filled_cases (fun _ hjob => Rule.within_of_mem_jobs hmem hjob) type htype with
      htype | htype | htype
    · exact h type htype
    · obtain ⟨job, hjob, rfl⟩ := List.mem_map.mp htype
      exact RuleTable.mem_types_of_get? hrule (Rule.mem_types_of_mem_jobs hjob)
    · exact RuleTable.mem_types_of_mem_elementTypes htype

/-- Sound types, where those that have been filled are of rules and elements. -/
structure Accounted (c : Compilation) : Prop where
  sound : Sound c
  owned : Owned c

theorem Accounted.leads (h : Accounted c) (hleads : Leads c c') : Accounted c' :=
  hleads.invariant (P := Accounted)
    (fun hchange h => ⟨h.sound.change hchange, h.owned.change h.sound.toOrdered hchange⟩) h

theorem Started.accounted {t : RuleTable} {entry : RuleId} {options : CompileOptions}
    {tracer : Trace.Tracer} (h : Started t entry options tracer c) (hfresh : t.Fresh) :
    Accounted c where
  sound := h.sound hfresh
  owned type htype := by
    rw [h.draft_eq] at htype
    cases htype

/-! ## What stays -/

theorem Change.filled_subset (h : Change c c') : c.draft.filled ⊆ c'.draft.filled := by
  cases h with
  | trace | label | root | generated => exact List.Subset.refl _
  | @declare id rule =>
    have hfilled : (c.declareRule id rule).draft.filled = c.draft.filled := declares_declared.filled
    rw [hfilled]
    exact List.Subset.refl _
  | fill _ _ hfills => exact (hfills.frame 0).filled

/-- A type that has been filled stays as it is. -/
theorem Change.get?_eq (h : Change c c') (hc : Accounted c) (htype : type ∈ c.draft.filled) :
    c'.model.get? type = c.model.get? type := by
  cases h with
  | trace | label | root | generated => rfl
  | declare => exact declares_declared.old type (hc.sound.lt_size (hc.owned type htype))
  | fill _ _ hfills =>
    exact (hfills.frame (type + 1)).other type (Nat.ne_of_lt (Nat.lt_succ_self type)) (.inl htype)

theorem Leads.filled_subset (h : Leads c c') : c.draft.filled ⊆ c'.draft.filled := by
  induction h with
  | refl => exact List.Subset.refl _
  | tail _ hlast ih => exact List.Subset.trans ih hlast.filled_subset

theorem Leads.get?_eq (h : Leads c c') (hc : Accounted c) (htype : type ∈ c.draft.filled) :
    c'.model.get? type = c.model.get? type := by
  induction h with
  | refl => rfl
  | tail hleads hlast ih =>
    exact (hlast.get?_eq (hc.leads hleads) (Leads.filled_subset hleads htype)).trans ih

/-- A rule keeps the type that it has, and where it has none it may get a new one. -/
theorem Change.output_cases (h : Change c c') (hordered : Ordered c)
    (hrule : c.rules.get? id = some rule) : ∃ rule', c'.rules.get? id = some rule' ∧
    (rule'.output = rule.output ∨
      rule.output = none ∧ ∀ type, rule'.output = some type → c.model.size ≤ type) := by
  have hmodify : ∀ (i : RuleId) (f : Rule → Rule), (∀ r, (f r).output = r.output) →
      ∃ rule', (c.rules.modify i f).get? id = some rule' ∧ rule'.output = rule.output := by
    intro i f hf
    by_cases hi : id = i
    · subst hi
      exact ⟨f rule, RuleTable.get?_modify_self hrule, hf rule⟩
    · exact ⟨rule, (RuleTable.get?_modify_of_ne hi).trans hrule, rfl⟩
  cases h with
  | trace | root | fill => exact ⟨rule, hrule, .inl rfl⟩
  | label i name =>
    obtain ⟨rule', hrule', houtput⟩ := hmodify i
      (fun r => { r with pattern := r.pattern.map (labelled name) }) fun _ => rfl
    exact ⟨rule', hrule', .inl houtput⟩
  | @generated i =>
    obtain ⟨rule', hrule', houtput⟩ := hmodify i (fun r => { r with state := .generated })
      fun _ => rfl
    exact ⟨rule', hrule', .inl houtput⟩
  | @declare i old hold hstate =>
    by_cases hi : id = i
    · subst hi
      obtain rfl : rule = old := Option.some.inj (hrule.symm.trans hold)
      refine ⟨(c.declared id rule).1, RuleTable.get?_modify_self hrule,
        .inr ⟨?_, fun type htype => ?_⟩⟩
      · have hnone := hordered.unprocessed id rule hrule hstate
        exact Option.toList_eq_nil_iff.mp (List.append_eq_nil_iff.mp hnone).1
      · have hmem : type ∈ (c.declared id rule).1.types :=
          List.mem_append_left _ (Option.mem_toList.mpr htype)
        rw [types_declared] at hmem
        exact (List.mem_range'_1.mp hmem).1
    · exact ⟨rule, (RuleTable.get?_modify_of_ne hi).trans hrule, .inl rfl⟩

theorem Leads.output_cases (h : Leads c c') (hordered : Ordered c)
    (hrule : c.rules.get? id = some rule) : ∃ rule', c'.rules.get? id = some rule' ∧
    (rule'.output = rule.output ∨
      rule.output = none ∧ ∀ type, rule'.output = some type → c.model.size ≤ type) := by
  induction h with
  | refl => exact ⟨rule, hrule, .inl rfl⟩
  | tail hleads hlast ih =>
    obtain ⟨rule₁, hrule₁, hcases⟩ := ih
    obtain ⟨rule', hrule', hcases'⟩ :=
      hlast.output_cases (Leads.ordered hleads hordered) hrule₁
    refine ⟨rule', hrule', ?_⟩
    have hsize := (Leads.keeps hleads).grows.size_le
    rcases hcases, hcases' with ⟨hsame | ⟨hnone, hnew⟩, hsame' | ⟨hnone', hnew'⟩⟩
    · exact .inl (hsame'.trans hsame)
    · exact .inr ⟨hsame ▸ hnone', fun type htype => Nat.le_trans hsize (hnew' type htype)⟩
    · exact .inr ⟨hnone, fun type htype => hnew type (hsame' ▸ htype)⟩
    · exact .inr ⟨hnone, fun type htype => Nat.le_trans hsize (hnew' type htype)⟩

theorem Leads.output_eq (h : Leads c c') (hordered : Ordered c)
    (hrule : c.rules.get? id = some rule) (houtput : rule.output = some type) :
    ∃ rule', c'.rules.get? id = some rule' ∧ rule'.output = some type := by
  obtain ⟨rule', hrule', hsame | ⟨hnone, -⟩⟩ := h.output_cases hordered hrule
  · exact ⟨rule', hrule', hsame.trans houtput⟩
  · rw [houtput] at hnone
    cases hnone

end Compilation

end MarkupTypes
