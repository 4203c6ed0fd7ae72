import MarkupTypes.Proofs.InlineExpansion

/-!
# Finished models

Running all stages declares the rules that the entry rule reaches, which never fails
(`Compilation.declareAll_generating`), and then fills the types of one rule after the other. In
between, every type that has been filled is as its content says, and every rule that has
been generated has its types filled (`Compilation.Generating`). So at the end all types of
reachable rules are as their patterns say, and the types of the contents of members as
those contents say (`Compilation.finish_describes`).
-/

namespace MarkupTypes

/-! ## Tables that differ in states -/

namespace Expansion

/-- Two expansions whose rules have the same patterns and types. -/
structure Same (e e' : Expansion) : Prop where
  inline : e'.isInline = e.isInline
  returns : e'.returns = e.returns
  skeleton : e'.rules.skeleton = e.rules.skeleton
  rules : ∀ id rule, e.rules.get? id = some rule →
    ∃ rule', e'.rules.get? id = some rule' ∧ rule'.pattern = rule.pattern ∧
      rule'.output = rule.output

namespace Same

variable {e e' : Expansion} (h : e.Same e') {slots occ : List Slot}

include h

theorem expands (hexpands : e.rules.Expands e.isInline slots occ) :
    e'.rules.Expands e'.isInline slots occ := by
  induction hexpands with
  | nil => exact .nil
  | keep hslot _ ih => exact .keep (h.inline ▸ hslot) ih
  | splice hrule hinline _ _ ihbody ih =>
    obtain ⟨rule', hrule', hpattern, -⟩ := h.rules _ _ hrule
    refine .splice hrule' (h.inline ▸ hinline) ?_ ih
    rw [Rule.slots_congr hpattern]
    exact ihbody

theorem output_eq (id : RuleId) :
    (e'.rules.get? id).bind Rule.output = (e.rules.get? id).bind Rule.output := by
  cases hrule : e.rules.get? id with
  | some rule =>
    obtain ⟨rule', hrule', -, houtput⟩ := h.rules id rule hrule
    rw [hrule', Option.bind_some, Option.bind_some, houtput]
  | none =>
    have hget := congrArg (RuleTable.get? · id) h.skeleton
    simp only [RuleTable.get?_skeleton, hrule, Option.map_none, Option.map_eq_none_iff] at hget
    rw [hget]

theorem memberOf_eq (s : Slot) : e'.memberOf s = e.memberOf s := by
  cases s with
  | ref id location optional => rfl
  | attr tag content optional =>
    have hscan := RuleTable.scan_eq_of_skeleton_eq h.skeleton (p := content) rfl
    simp only [memberOf, attributeMember, attributeValues, hscan, h.returns]
  | elem tag content optional =>
    have hcontent := RuleTable.contentOf_eq_of_skeleton_eq h.skeleton e.isInline (p := content) rfl
    simp only [memberOf, partsOf, elementMember, h.inline, h.returns, hcontent, h.output_eq]

theorem parentsOf_eq (slots : List Slot) : e'.parentsOf slots = e.parentsOf slots := by
  refine congrArg (List.filterMap · slots) (funext fun s => ?_)
  cases s.rule? with
  | none => rfl
  | some id => exact h.output_eq id

theorem populated {d : Draft} {type : TypeId} (hpopulated : e.Populated d type slots) :
    e'.Populated d type slots := by
  obtain ⟨T, occ, hT, hdescribes, hopened⟩ := hpopulated
  refine ⟨T, occ, hT, ⟨h.expands hdescribes.expands, ?_, fun parent => ?_⟩, hopened⟩
  · rw [hdescribes.members]
    exact List.map_congr_left fun s _ => (h.memberOf_eq s).symm
  · rw [hdescribes.parents, h.parentsOf_eq]

end Same

end Expansion

namespace Compilation

variable {t : RuleTable} {entry : RuleId} {options : CompileOptions} {tracer : Trace.Tracer}
  {c c' : Compilation}

/-! ## Compilations with all rules declared -/

/-- A compilation on the way through its rules : all of them are declared, every type that
has been filled is as its content says, and a rule that has been generated has its types
filled. -/
structure Generating (c : Compilation) : Prop where
  sound : Sound c
  inline_eq : c.inline = c.rules.rules.map Rule.isInline
  region : c.rules.Region c.entry c.order
  declared : ∀ id ∈ c.order, ∀ rule, c.rules.get? id = some rule → rule.state ≠ .unprocessed
  confined : ∀ id rule, c.rules.get? id = some rule → rule.state ≠ .unprocessed → id ∈ c.order
  complete : ∀ type ∈ c.draft.filled, ∃ slots, (type, slots) ∈ c.rules.owners ∧
    c.expansion.Populated c.draft type slots
  generated : ∀ id rule, c.rules.get? id = some rule → rule.state = .generated →
    ∀ job ∈ rule.jobs, job.1 ∈ c.draft.filled
  rooted : c.model.root = writerType c.rules c.entry

theorem ne_unprocessed_of_rank_le {a b : RuleState} (h : a.rank ≤ b.rank)
    (ha : a ≠ .unprocessed) : b ≠ .unprocessed := by
  rintro rfl
  cases a with
  | unprocessed => exact ha rfl
  | declared => exact absurd h (by decide)
  | generated => exact absurd h (by decide)

/-- A compilation after some of its rules were declared. -/
structure Declaring (ids : List RuleId) (c c' : Compilation) : Prop where
  leads : Leads c c'
  filled : c'.draft.filled = c.draft.filled
  declared : ∀ id ∈ ids, ∀ rule, c'.rules.get? id = some rule → rule.state ≠ .unprocessed
  other : ∀ id, id ∉ ids → c'.rules.get? id = c.rules.get? id
  generated : ∀ id rule, c'.rules.get? id = some rule → rule.state = .generated →
    c.rules.get? id = some rule

/-- Rules that have been generated are not touched by a declaration. -/
theorem get?_of_declareRule {id i : RuleId} {rule rule' : Rule}
    (hrule : (c.declareRule id rule).rules.get? i = some rule')
    (hstate : rule'.state = .generated) : c.rules.get? i = some rule' := by
  obtain ⟨-, _, -, rfl⟩ | ⟨-, hold⟩ := RuleTable.get?_modify_cases hrule
  · rw [state_declared] at hstate
    cases hstate
  · exact hold

theorem declaring_declare {id : RuleId} {rule : Rule} (hrule : c.rules.get? id = some rule) :
    ∃ done c', declare id c = .ok done c' ∧ Declaring [id] c c' := by
  have hleads := leads_declare id c
  rw [declare_eq, hrule] at hleads ⊢
  simp only at hleads ⊢
  by_cases hstate : rule.state = .unprocessed
  · rw [if_pos hstate] at hleads ⊢
    refine ⟨true, _, rfl, hleads, declares_declared.filled, ?_, ?_,
      fun _ _ => get?_of_declareRule⟩
    · rintro i hi rule' hrule'
      obtain rfl := List.mem_singleton.mp hi
      have hself : (c.declareRule i rule).rules.get? i = some (c.declared i rule).1 :=
        RuleTable.get?_modify_self hrule
      obtain rfl := Option.some.inj (hself.symm.trans hrule')
      rw [state_declared]
      exact fun h => nomatch h
    · exact fun i hi => RuleTable.get?_modify_of_ne fun heq => hi (List.mem_singleton.mpr heq)
  · rw [if_neg hstate] at hleads ⊢
    refine ⟨false, c, rfl, hleads, rfl, ?_, fun _ _ => rfl, fun _ _ h _ => h⟩
    intro i hi rule' hrule'
    obtain rfl := List.mem_singleton.mp hi
    obtain rfl := Option.some.inj (hrule.symm.trans hrule')
    exact hstate

/-- Declaring rules of the table never fails. -/
theorem declaring_forEach : ∀ (ids : List RuleId) (c : Compilation),
    (∀ id ∈ ids, ∃ rule, c.rules.get? id = some rule) →
    ∃ c', forEach declare ids c = .ok () c' ∧ Declaring ids c c'
  | [], c, _ =>
    ⟨c, rfl, .refl, rfl, fun _ h => absurd h List.not_mem_nil, fun _ _ => rfl, fun _ _ h _ => h⟩
  | id :: ids, c, hids => by
    obtain ⟨rule, hrule⟩ := hids id List.mem_cons_self
    obtain ⟨done, c₁, hfirst, hdeclare⟩ := declaring_declare hrule
    have hids₁ : ∀ i ∈ ids, ∃ rule, c₁.rules.get? i = some rule := fun i hi => by
      obtain ⟨rule, hrule⟩ := hids i (List.mem_cons_of_mem _ hi)
      obtain ⟨rule', hrule', -⟩ := hdeclare.leads.keeps.states i rule hrule
      exact ⟨rule', hrule'⟩
    obtain ⟨c₂, hrest, hlater⟩ := declaring_forEach ids c₁ hids₁
    refine ⟨c₂, ?_, hdeclare.leads.trans hlater.leads, hlater.filled.trans hdeclare.filled,
      ?_, ?_, ?_⟩
    · rw [forEach_cons, hfirst]
      exact hrest
    · intro i hi rule₂ hrule₂
      rcases List.mem_cons.mp hi with rfl | hi
      · obtain ⟨rule₁, hrule₁, -⟩ := hdeclare.leads.keeps.states i rule hrule
        obtain ⟨rule₂', hrule₂', hle⟩ := hlater.leads.keeps.states i rule₁ hrule₁
        obtain rfl := Option.some.inj (hrule₂.symm.trans hrule₂')
        exact ne_unprocessed_of_rank_le hle
          (hdeclare.declared i (List.mem_singleton_self i) rule₁ hrule₁)
      · exact hlater.declared i hi rule₂ hrule₂
    · intro i hi
      rw [hlater.other i fun hm => hi (List.mem_cons_of_mem _ hm)]
      exact hdeclare.other i fun hm => hi (List.mem_singleton.mp hm ▸ List.mem_cons_self)
    · intro i rule₂ hrule₂ hstate
      exact hdeclare.generated i rule₂ (hlater.generated i rule₂ hrule₂ hstate) hstate

/-! ## Preparing leaves rules fresh -/

theorem fresh_prepareRule (hfresh : c.rules.Fresh) (id : RuleId) :
    (c.prepareRule id).rules.Fresh ∧ (c.prepareRule id).draft.filled = c.draft.filled := by
  obtain h | ⟨name, f, h⟩ := prepareRule_cases c id <;> rw [h]
  · exact ⟨hfresh, rfl⟩
  · refine ⟨fun rule hrule => ?_, rfl⟩
    obtain ⟨i, hi⟩ := List.mem_iff_getElem?.mp hrule
    obtain ⟨old, hold, rfl⟩ := RuleTable.of_get?_modify hi
    have hbefore := hfresh old (RuleTable.mem_of_get? hold)
    split
    · exact ⟨hbefore.1, (types_labelled name old).trans hbefore.2⟩
    · exact hbefore

theorem fresh_foldl_prepareRule : ∀ (ids : List RuleId) (c : Compilation), c.rules.Fresh →
    (ids.foldl prepareRule c).rules.Fresh ∧
      (ids.foldl prepareRule c).draft.filled = c.draft.filled
  | [], _, hfresh => ⟨hfresh, rfl⟩
  | id :: ids, c, hfresh => by
    obtain ⟨hfresh₁, hfilled₁⟩ := fresh_prepareRule hfresh id
    obtain ⟨hfresh₂, hfilled₂⟩ := fresh_foldl_prepareRule ids _ hfresh₁
    exact ⟨hfresh₂, hfilled₂.trans hfilled₁⟩

/-- Once the rules of a started compilation have been prepared, declaring them succeeds, and
they are ready to be generated. -/
theorem declareAll_generating (hstart : Started t entry options tracer c) (hfresh : t.Fresh) :
    ∃ c', declareAll (prepare c) = .ok () c' ∧ Leads c c' ∧ Generating c' ∧
      c'.draft.filled = [] := by
  have hprepared := leads_prepare c
  have hrules : (prepare c).rules.Fresh ∧ (prepare c).draft.filled = c.draft.filled :=
    fresh_foldl_prepareRule c.order (c.mapTracer (·.startPhase .prepare)) (hstart.rules_eq ▸ hfresh)
  have horder : (prepare c).order = c.order := hprepared.keeps.order
  have hids : ∀ id ∈ (prepare c).order, ∃ rule, (prepare c).rules.get? id = some rule := by
    intro id hid
    obtain ⟨rule, -, hrule, -⟩ := hstart.region.defined id (horder ▸ hid)
    obtain ⟨rule', hrule', -⟩ := hprepared.keeps.states id rule (hstart.rules_eq ▸ hrule)
    exact ⟨rule', hrule'⟩
  obtain ⟨c₁, hend, hdeclaring⟩ := declaring_forEach (prepare c).order
    ((prepare c).mapTracer (·.startPhase .declare)) hids
  have hdeclareAll : declareAll (prepare c) =
      .ok () (c₁.settleRoot.mapTracer Trace.Tracer.endPhase) := by rw [declareAll_eq, hend]
  have hleads : Leads c (c₁.settleRoot.mapTracer Trace.Tracer.endPhase) := by
    have hlater := leads_declareAll (prepare c)
    rw [hdeclareAll] at hlater
    exact hprepared.trans hlater
  have hskeleton : c₁.rules.skeleton = t.skeleton := by
    have hend := hstart.skeleton_eq hleads
    exact hend
  have hfilled : c₁.draft.filled = [] := by
    rw [hdeclaring.filled]
    exact hrules.2.trans (by rw [hstart.draft_eq]; rfl)
  have hc₁order : c₁.order = c.order := hleads.keeps.order
  refine ⟨_, hdeclareAll, hleads, ?_, hfilled⟩
  constructor
  case sound => exact hleads.sound (hstart.sound hfresh)
  case inline_eq =>
    exact hleads.keeps.inline_eq (hstart.rules_eq.symm ▸ hstart.inline_eq)
  case region =>
    have hentry : c₁.entry = entry := hleads.keeps.entry.trans hstart.entry_eq
    change c₁.rules.Region c₁.entry c₁.order
    rw [hentry, hc₁order]
    exact hstart.region.of_skeleton_eq hskeleton
  case declared =>
    intro id hid
    exact hdeclaring.declared id (horder.symm ▸ hc₁order ▸ hid)
  case confined =>
    intro id rule hrule hstate
    by_contra hid
    have hbefore := hdeclaring.other id fun hm => hid (hc₁order.symm ▸ horder ▸ hm)
    have hrule₀ : (prepare c).rules.get? id = some rule := hbefore.symm.trans hrule
    exact hstate (hrules.1 rule (RuleTable.mem_of_get? hrule₀)).1
  case complete =>
    intro type htype
    change type ∈ c₁.draft.filled at htype
    rw [hfilled] at htype
    cases htype
  case generated =>
    intro id rule hrule hstate
    have hrule₀ : (prepare c).rules.get? id = some rule := hdeclaring.generated id rule hrule hstate
    rw [(hrules.1 rule (RuleTable.mem_of_get? hrule₀)).1] at hstate
    cases hstate
  case rooted => rfl

/-! ## Generating rules -/

theorem Ordered.shaped (h : Ordered c) : c.expansion.Shaped := fun _ hx _ houtput =>
  (h.provides hx houtput).1

/-- Counting a rule as generated changes no pattern and no type. -/
theorem same_markGenerated (c : Compilation) (id : RuleId) :
    c.expansion.Same (c.markGenerated id).expansion where
  inline := rfl
  returns := rfl
  skeleton := RuleTable.skeleton_modify fun _ _ => rfl
  rules i rule hrule := by
    by_cases hi : i = id
    · subst hi
      exact ⟨_, RuleTable.get?_modify_self hrule, rfl, rfl⟩
    · exact ⟨rule, by rwa [← RuleTable.get?_modify_of_ne hi] at hrule, rfl, rfl⟩

theorem owners_markGenerated (c : Compilation) (id : RuleId) :
    (c.markGenerated id).rules.owners = c.rules.owners := by
  have hmap : (c.markGenerated id).rules.rules.map Rule.owners = c.rules.rules.map Rule.owners :=
    RuleTable.map_modify fun _ _ => rfl
  simp only [RuleTable.owners, List.flatMap_def, hmap]

/-- What a writer starts from can be read off the types and the patterns of rules. -/
theorem writerTypeWithin_congr {t t' : RuleTable}
    (h : ∀ id, (t'.get? id).map (fun r => (r.output, r.pattern)) =
      (t.get? id).map fun r => (r.output, r.pattern)) (beyond : RuleId → Option TypeId) (n : Nat)
    (seen : List RuleId) (id : RuleId) :
    writerTypeWithin t' beyond n seen id = writerTypeWithin t beyond n seen id := by
  induction n generalizing seen id with
  | zero => rfl
  | succ n ih =>
    have hget := h id
    simp only [writerTypeWithin, ih]
    cases hrule : t.get? id with
    | none =>
      rw [hrule, Option.map_none, Option.map_eq_none_iff] at hget
      rw [hget]
    | some rule =>
      rw [hrule, Option.map_some] at hget
      obtain ⟨rule', hrule', hparts⟩ := Option.map_eq_some_iff.mp hget
      obtain ⟨houtput, hpattern⟩ := Prod.mk.inj hparts
      rw [hrule']
      simp only [houtput, hpattern]

theorem writerType_markGenerated (c : Compilation) (id i : RuleId) :
    writerType (c.markGenerated id).rules i = writerType c.rules i := by
  have hsize : (c.markGenerated id).rules.size = c.rules.size := List.length_modify ..
  rw [writerType, writerType, hsize]
  refine writerTypeWithin_congr (fun j => ?_) _ _ _ _
  by_cases hj : j = id
  · subst hj
    cases hrule : c.rules.get? j with
    | none =>
      cases hrule' : (c.markGenerated j).rules.get? j with
      | none => rfl
      | some rule' =>
        obtain ⟨old, hold, -⟩ := RuleTable.of_get?_modify hrule'
        rw [hrule] at hold
        cases hold
    | some rule =>
      have hself : (c.markGenerated j).rules.get? j = some { rule with state := .generated } :=
        RuleTable.get?_modify_self hrule
      rw [hself]
      rfl
  · exact congrArg _ (RuleTable.get?_modify_of_ne hj)

/-- Filling types for a rule leaves none of them out, and populates all that it fills. -/
theorem Sound.completes (h : Sound c) {id : RuleId} {rule : Rule} {d : Draft}
    (hrule : c.rules.get? id = some rule)
    (hfills : Fills c.expansion rule.jobs c.draft (.ok () d)) :
    c.expansion.Completes c.draft d ∧ ∀ job ∈ rule.jobs, job.1 ∈ d.filled :=
  hfills.completes h.shaped
    (fun _ hjob => Rule.within_of_mem_jobs (RuleTable.mem_of_get? hrule) hjob)
    (fun _ hjob => RuleTable.mem_owners_of_mem_jobs hrule hjob) h.typed h.draft

/-- The rules of a compilation, before and after types were filled for a declared rule. -/
theorem Generating.fill (h : Generating c) {id : RuleId} {rule : Rule} {d : Draft}
    (hid : id ∈ c.order) (hrule : c.rules.get? id = some rule) (hstate : rule.state = .declared)
    (hfills : Fills c.expansion rule.jobs c.draft (.ok () d)) :
    Generating (markGenerated { c with draft := d } id) := by
  have hleads : Leads c (markGenerated { c with draft := d } id) :=
    (Relation.ReflTransGen.single (.fill hrule hstate hfills)).tail (.generated hrule hstate)
  have hskeleton := hleads.keeps.skeleton
  have hframe := hfills.frame
  obtain ⟨hcompletes, hjobs⟩ := h.sound.completes hrule hfills
  constructor
  case sound => exact hleads.sound h.sound
  case inline_eq => exact hleads.keeps.inline_eq h.inline_eq
  case region => exact h.region.of_skeleton_eq hskeleton
  case declared =>
    intro i hi rule' hrule'
    obtain ⟨old, hold, rfl⟩ := RuleTable.of_get?_modify hrule'
    split
    · exact fun hnot => nomatch hnot
    · exact h.declared i hi old hold
  case confined =>
    intro i rule' hrule' hstate'
    obtain ⟨rfl, -⟩ | ⟨-, hold⟩ := RuleTable.get?_modify_cases hrule'
    · exact hid
    · exact h.confined i rule' hold hstate'
  case complete =>
    intro type htype
    have hdone : ∃ slots, (type, slots) ∈ c.rules.owners ∧
        c.expansion.Populated d type slots := by
      by_cases hbefore : type ∈ c.draft.filled
      · obtain ⟨slots, howner, hpopulated⟩ := h.complete type hbefore
        have hsame := (hframe (type + 1)).other type (Nat.ne_of_lt (Nat.lt_succ_self type))
          (.inl hbefore)
        exact ⟨slots, howner, hpopulated.mono hsame (hframe 0).filled⟩
      · exact hcompletes type htype hbefore
    obtain ⟨slots, howner, hpopulated⟩ := hdone
    refine ⟨slots, ?_, (same_markGenerated { c with draft := d } id).populated hpopulated⟩
    rw [owners_markGenerated]
    exact howner
  case generated =>
    intro i rule' hrule' hstate' job hjob
    obtain ⟨rfl, old, hold, rfl⟩ | ⟨-, hold⟩ := RuleTable.get?_modify_cases hrule'
    · obtain rfl : rule = old := Option.some.inj (hrule.symm.trans hold)
      exact hjobs job hjob
    · exact (hframe 0).filled (h.generated i rule' hold hstate' job hjob)
  case rooted =>
    have hroot : d.model.root = c.model.root := (hframe 0).root
    rw [writerType_markGenerated]
    exact hroot.trans h.rooted

/-- Generating a rule of a compilation fills its types, or fails while they are filled. -/
theorem Generating.step (h : Generating c) {id : RuleId} (hid : id ∈ c.order) :
    (∃ done c', generate id c = .ok done c' ∧ Generating c' ∧ Leads c c' ∧
      ∀ rule, c'.rules.get? id = some rule → rule.state = .generated) ∨
    ∃ rule failure d, c.rules.get? id = some rule ∧
      Fills c.expansion rule.jobs c.draft (.error failure d) ∧
      generate id c = .error (failure.inRule rule.displayName) { c with draft := d } := by
  obtain ⟨rule, -, hrule, -⟩ := h.region.defined id hid
  have hleads := leads_generate id c
  have hfills := Expansion.fills_fillRule (e := c.expansion) (RuleTable.mem_of_get? hrule) c.draft
  rw [generate_eq, hrule] at hleads ⊢
  simp only at hleads ⊢
  cases hstate : rule.state with
  | unprocessed => exact absurd hstate (h.declared id hid rule hrule)
  | generated =>
    refine .inl ⟨false, c, rfl, h, .refl, fun rule' hrule' => ?_⟩
    rwa [← Option.some.inj (hrule.symm.trans hrule')]
  | declared =>
    rw [hstate] at hleads
    cases hend : c.expansion.fillRule rule c.draft with
    | error failure d => exact .inr ⟨rule, failure, d, rfl, hend ▸ hfills, rfl⟩
    | ok _ d =>
      rw [hend] at hfills hleads
      refine .inl ⟨true, _, rfl, h.fill hid hrule hstate hfills, hleads, fun rule' hrule' => ?_⟩
      have hself : (markGenerated { c with draft := d } id).rules.get? id = _ :=
        RuleTable.get?_modify_self hrule
      rw [← Option.some.inj (hself.symm.trans hrule')]

theorem Generating.mapTracer (h : Generating c) (f : Trace.Tracer → Trace.Tracer) :
    Generating (c.mapTracer f) where
  sound := h.sound.change (.trace f)
  inline_eq := h.inline_eq
  region := h.region
  declared := h.declared
  confined := h.confined
  complete := h.complete
  generated := h.generated
  rooted := h.rooted

/-- A failure of filling the types of one rule of a compilation. -/
structure FailsAt (c c' : Compilation) (failure : Failure) (id : RuleId) (rule : Rule)
    (d : Draft) : Prop where
  leads : Leads c c'
  generating : Generating c'
  mem : id ∈ c'.order
  rule_eq : c'.rules.get? id = some rule
  fills : Fills c'.expansion rule.jobs c'.draft (.error failure d)

theorem Generating.steps (h : Generating c) (ids : List RuleId) (hids : ids ⊆ c.order) :
    (∃ c', forEach generate ids c = .ok () c' ∧ Generating c' ∧ Leads c c' ∧
      ∀ id ∈ ids, ∀ rule, c'.rules.get? id = some rule → rule.state = .generated) ∨
    ∃ c' failure id rule d, FailsAt c c' failure id rule d ∧
      forEach generate ids c = .error (failure.inRule rule.displayName) { c' with draft := d } := by
  induction ids generalizing c with
  | nil => exact .inl ⟨c, rfl, h, .refl, fun _ hid => absurd hid List.not_mem_nil⟩
  | cons id ids ih =>
    have hid : id ∈ c.order := hids List.mem_cons_self
    rcases h.step hid with
      ⟨done, c₁, hfirst, h₁, hleads, hgenerated⟩ | ⟨rule, failure, d, hrule, hfills, hfirst⟩
    · have horder : ids ⊆ c₁.order := fun i hi => by
        rw [hleads.keeps.order]
        exact hids (List.mem_cons_of_mem _ hi)
      rw [forEach_cons, hfirst]
      rcases ih h₁ horder with
        ⟨c₂, hrest, h₂, hleads₂, hall⟩ | ⟨c₂, failure, i, rule, d, hfails, hrest⟩
      · refine .inl ⟨c₂, hrest, h₂, hleads.trans hleads₂, fun i hi rule hrule => ?_⟩
        rcases List.mem_cons.mp hi with rfl | hi
        · -- A rule that has been generated stays so while the others are.
          obtain ⟨rule₀, -, hrule₀, -⟩ := h₁.region.defined i (hleads.keeps.order ▸ hid)
          obtain ⟨rule', hrule', hle⟩ := hleads₂.keeps.states i rule₀ hrule₀
          obtain rfl := Option.some.inj (hrule.symm.trans hrule')
          rw [hgenerated rule₀ hrule₀] at hle
          cases hstate : rule.state with
          | generated => rfl
          | unprocessed => rw [hstate] at hle; exact absurd hle (by decide)
          | declared => rw [hstate] at hle; exact absurd hle (by decide)
        · exact hall i hi rule hrule
      · have hfails' : FailsAt c c₂ failure i rule d :=
          { hfails with leads := hleads.trans hfails.leads }
        exact .inr ⟨c₂, failure, i, rule, d, hfails', hrest⟩
    · refine .inr ⟨c, failure, id, rule, d, ⟨.refl, h, hid, hrule, hfills⟩, ?_⟩
      rw [forEach_cons, hfirst]

/-- Running all stages ends with all rules generated, or where the types of a rule could not
be filled. -/
theorem finish_cases (hstart : Started t entry options tracer c) (hfresh : t.Fresh) :
    (∃ c', finish c = .ok c'.model c' ∧ Leads c c' ∧ Generating c' ∧
      ∀ id ∈ c.order, ∀ rule, c'.rules.get? id = some rule → rule.state = .generated) ∨
    ∃ c' failure id rule d, FailsAt c c' failure id rule d ∧
      finish c = .error (failure.inRule rule.displayName) { c' with draft := d } := by
  obtain ⟨c₁, hdeclare, hleads, h₁, -⟩ := declareAll_generating hstart hfresh
  have hbegin : Leads c (c₁.mapTracer (·.startPhase .generate)) := hleads.tail (.trace _)
  have horder : c₁.order = c.order := hleads.keeps.order
  rw [finish_eq, hdeclare]
  simp only
  rw [generateAll_eq]
  rcases (h₁.mapTracer (·.startPhase .generate)).steps c₁.order (List.Subset.refl _) with
    ⟨c₂, hend, h₂, hleads₂, hall⟩ | ⟨c₂, failure, id, rule, d, hfails, hend⟩
  · rw [hend]
    refine .inl ⟨c₂.mapTracer Trace.Tracer.endPhase, rfl, (hbegin.trans hleads₂).tail (.trace _),
      h₂.mapTracer _, fun id hid => ?_⟩
    exact hall id (horder ▸ hid)
  · rw [hend]
    exact .inr ⟨c₂, failure, id, rule, d, { hfails with leads := hbegin.trans hfails.leads }, rfl⟩

/-! ## Finished models -/

/-- The types of a finished compilation are as the contents say that they were made for. -/
structure Described (t : RuleTable) (entry : RuleId) (c : Compilation) : Prop where
  /-- The type of a rule is as its pattern says. -/
  rule : ∀ id rule, t.get? id = some rule → t.Reaches entry id → rule.isInline = false →
    ∃ rule' type T occ, c.rules.get? id = some rule' ∧ rule'.skeleton = rule.skeleton ∧
      rule'.output = some type ∧ c.model.get? type = some T ∧
      c.expansion.Describes type (rule'.slots false) occ T
  /-- The type of the content of a member is that of a rule, to which the element delegates
  alone, or it is as the content of the element says. -/
  member : ∀ T ∈ c.model.types, ∀ x ∈ T.members, ∀ type, x.content = some type →
    ∃ tag content optional, c.expansion.memberOf (.elem tag content optional) = some x ∧
      (tag, content) ∈ c.rules.elements ∧
      ((tag.output = some type ∧ ∃ T' occ, c.model.get? type = some T' ∧
          c.expansion.Describes type (content.slots false) occ T') ∨
        ∃ id mark label rule, content = .ref mark id label ∧ t.Reaches entry id ∧
          c.isInline id = false ∧ c.rules.get? id = some rule ∧ rule.output = some type)

/-- The rules of a compilation that are inline are those with one child. -/
theorem isInline_eq (hinline : c.inline = c.rules.rules.map Rule.isInline) {id : RuleId}
    {rule : Rule} (hrule : c.rules.get? id = some rule) : c.isInline id = rule.isInline := by
  have hget : c.rules.rules[id]? = some rule := hrule
  rw [isInline, hinline, List.getElem?_map, hget]
  rfl

/-- The slots of an owner come from the table. -/
theorem within_of_mem_owners {e : Expansion} {owner : TypeId × List Slot}
    (howner : owner ∈ e.rules.owners) : e.Within owner.2 := by
  obtain ⟨rule, hrule, howner⟩ := List.mem_flatMap.mp howner
  obtain ⟨id, hid⟩ := List.mem_iff_getElem?.mp hrule
  rcases List.mem_append.mp howner with howner | howner
  · obtain ⟨type, -, rfl⟩ := List.mem_map.mp howner
    exact .of_rule hid
  · obtain ⟨⟨tag, content⟩, hx, hmap⟩ := List.mem_filterMap.mp howner
    obtain ⟨type, -, rfl⟩ := Option.map_eq_some_iff.mp hmap
    have hmem : (tag, content) ∈ e.rules.elements := RuleTable.mem_elements.mpr ⟨id, rule, hid, hx⟩
    exact .of_element hmem

/-- A type that has been filled is as the content of any owner of it says. -/
theorem Generating.populated (h : Generating c) {type : TypeId} {slots : List Slot}
    (hfilled : type ∈ c.draft.filled) (howner : (type, slots) ∈ c.rules.owners) :
    c.expansion.Populated c.draft type slots := by
  obtain ⟨slots', howner', hpopulated⟩ := h.complete type hfilled
  obtain rfl := RuleTable.owners_unique h.sound.nodup howner howner'
  exact hpopulated

theorem Generating.describes (h : Generating c) {type : TypeId} {slots : List Slot}
    (hfilled : type ∈ c.draft.filled) (howner : (type, slots) ∈ c.rules.owners) :
    ∃ T occ, c.model.get? type = some T ∧ c.expansion.Describes type slots occ T := by
  obtain ⟨T, occ, hT, hdescribes, -⟩ := h.populated hfilled howner
  exact ⟨T, occ, hT, hdescribes⟩

/-- A compilation of a table, with all rules that the entry reaches generated. -/
structure Finished (t : RuleTable) (entry : RuleId) (c : Compilation) : Prop where
  generating : Generating c
  skeleton : c.rules.skeleton = t.skeleton
  mem_order : ∀ id, id ∈ c.order ↔ t.Reaches entry id
  entry_eq : c.entry = entry
  generated : ∀ id ∈ c.order, ∀ rule, c.rules.get? id = some rule → rule.state = .generated

theorem finished_of_finish (hfresh : t.Fresh) (hstart : start t entry options tracer = .ok c)
    {m : Model} (hfinish : finish c = .ok m c') : m = c'.model ∧ Finished t entry c' := by
  have hstarted := started_of_start hstart
  rcases finish_cases hstarted hfresh with
    ⟨c₁, hend, hleads, h, hall⟩ | ⟨c₁, failure, id, rule, d, -, hend⟩
  · obtain ⟨rfl, rfl⟩ : m = c₁.model ∧ c' = c₁ := by
      rw [hend] at hfinish
      cases hfinish
      exact ⟨rfl, rfl⟩
    refine ⟨rfl, h, hstarted.skeleton_eq hleads, fun id => ?_,
      hleads.keeps.entry.trans hstarted.entry_eq, fun id hid => ?_⟩
    · rw [hleads.keeps.order]
      exact mem_order_iff hstart
    · exact hall id (hleads.keeps.order ▸ hid)
  · rw [hend] at hfinish
    cases hfinish

namespace Finished

/-- The rules that the entry reaches are those of the table, but for labels and types. -/
theorem exists_rule (h : Finished t entry c) {id : RuleId} {rule : Rule}
    (hid : t.Reaches entry id) (hrule : t.get? id = some rule) :
    ∃ rule', c.rules.get? id = some rule' ∧ rule'.skeleton = rule.skeleton ∧
      c.isInline id = rule.isInline ∧ rule'.Declared c.rules c.isInline c.model id ∧
      ∀ job ∈ rule'.jobs, job.1 ∈ c.draft.filled := by
  obtain ⟨rule', hrule', hsame⟩ := RuleTable.get?_of_skeleton_eq h.skeleton hrule
  have hmem : id ∈ c.order := (h.mem_order id).mpr hid
  have hstate := h.generating.declared id hmem rule' hrule'
  refine ⟨rule', hrule', hsame, ?_, h.generating.sound.declared id rule' hrule' hstate,
    h.generating.generated id rule' hrule' (h.generated id hmem rule' hrule')⟩
  rw [isInline_eq h.generating.inline_eq hrule', ← rule'.isInline_skeleton, hsame,
    rule.isInline_skeleton]

theorem describes_rule (h : Finished t entry c) {id : RuleId} {rule : Rule}
    (hrule : t.get? id = some rule) (hid : t.Reaches entry id) (hinline : rule.isInline = false) :
    ∃ rule' type T occ, c.rules.get? id = some rule' ∧ rule'.skeleton = rule.skeleton ∧
      rule'.output = some type ∧ c.model.get? type = some T ∧
      c.expansion.Describes type (rule'.slots false) occ T := by
  obtain ⟨rule', hrule', hsame, hinlineEq, hdeclared, hjobs⟩ := h.exists_rule hid hrule
  obtain ⟨type, houtput, -⟩ := hdeclared.typed (hinlineEq.trans hinline)
  have hfilled : type ∈ c.draft.filled :=
    hjobs (type, rule'.slots false) (by simp [Rule.jobs, houtput])
  obtain ⟨T, occ, hT, hdescribes⟩ :=
    h.generating.describes hfilled (RuleTable.mem_owners_of_rule hrule' houtput)
  exact ⟨rule', type, T, occ, hrule', hsame, houtput, hT, hdescribes⟩

theorem describes_member (h : Finished t entry c) {T : WriterType} (hT : T ∈ c.model.types)
    {x : Member} (hx : x ∈ T.members) {type : TypeId} (htype : x.content = some type) :
    ∃ tag content optional, c.expansion.memberOf (.elem tag content optional) = some x ∧
      (tag, content) ∈ c.rules.elements ∧
      ((tag.output = some type ∧ ∃ T' occ, c.model.get? type = some T' ∧
          c.expansion.Describes type (content.slots false) occ T') ∨
        ∃ id mark label rule, content = .ref mark id label ∧ t.Reaches entry id ∧
          c.isInline id = false ∧ c.rules.get? id = some rule ∧ rule.output = some type) := by
  obtain ⟨i, hi⟩ := List.mem_iff_getElem?.mp hT
  -- A type with members has been filled.
  have hfilled : i ∈ c.draft.filled := by
    by_contra hopen
    rw [(h.generating.sound.draft.blank i T hi hopen).1] at hx
    cases hx
  obtain ⟨slots, howner, T', occ, hT', hdescribes, hopened⟩ := h.generating.complete i hfilled
  obtain rfl : T = T' := Option.some.inj (hi.symm.trans hT')
  have hsome : some x ∈ (firsts [] occ).map c.expansion.memberOf := by
    rw [← hdescribes.members]
    exact List.mem_map_of_mem hx
  obtain ⟨s, hs, hmember⟩ := List.mem_map.mp hsome
  obtain ⟨tag, content, optional, rfl, hcontent⟩ :=
    c.expansion.content_of_memberOf hmember htype
  have hwithin : c.expansion.Within slots := within_of_mem_owners (e := c.expansion) howner
  have hmem : (tag, content) ∈ c.rules.elements :=
    hdescribes.expands.elements_subset hwithin _ (mem_of_mem_firsts hs) List.mem_cons_self
  refine ⟨tag, content, optional, hmember, hmem, ?_⟩
  rcases hcontent with houtput | ⟨id, hdelegated, houtput⟩
  · exact .inl ⟨houtput, h.generating.describes (hopened _ hs type houtput)
      (RuleTable.mem_owners_of_element hmem houtput)⟩
  · obtain ⟨mark, label, rfl, hinline⟩ := RuleTable.ref_of_contentOf_delegated hdelegated
    obtain ⟨rule, hrule, houtput⟩ := Option.bind_eq_some_iff.mp houtput
    have htypes : type ∈ rule.types := by
      rw [Rule.types, houtput]
      exact List.mem_cons_self
    have hstate := (h.generating.sound.declared_of_mem_types hrule htypes).1
    have hid : id ∈ c.order := h.generating.confined id rule hrule hstate
    exact .inr ⟨id, mark, label, rule, rfl, (h.mem_order id).mp hid, hinline, hrule, houtput⟩

end Finished

/-- Where all stages succeed, the types of the model are as the patterns say. -/
theorem finish_describes (hfresh : t.Fresh) (hstart : start t entry options tracer = .ok c)
    {m : Model} (hfinish : finish c = .ok m c') : m = c'.model ∧ Described t entry c' := by
  obtain ⟨hm, h⟩ := finished_of_finish hfresh hstart hfinish
  refine ⟨hm, fun id rule hrule hid hinline => h.describes_rule hrule hid hinline, ?_⟩
  exact fun T hT x hx type htype => h.describes_member hT hx htype

theorem finish_describes_nestedItems : RuleTable.nestedItems.Fresh ∧
    ∃ c m c', start .nestedItems 0 .standard .off = .ok c ∧ finish c = .ok m c' ∧
      m = c'.model ∧ Described .nestedItems 0 c' := by
  have hfresh : RuleTable.nestedItems.Fresh := by decide
  have hok : succeedsWith .nestedItems 0 .standard .off (fun _ _ => true) = true := by
    decide +kernel
  obtain ⟨c, m, c', hstart, hfinish, -⟩ := exists_of_succeedsWith hok
  exact ⟨hfresh, c, m, c', hstart, hfinish, finish_describes hfresh hstart hfinish⟩

end Compilation

end MarkupTypes
