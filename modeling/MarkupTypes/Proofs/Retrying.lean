import Mathlib.Data.List.Induction
import MarkupTypes.Proofs.Advances

/-!
# Generating a rule again

A step that fails may leave the type of a rule with some of its members only, and the type
counts as filled from then on (`Compilation.Abandoned`). When the rule is generated again, its
type is passed over : the rule counts as generated, and what was missing stays missing.

A type is complete when it has all that the pattern of its rule asks for
(`Compilation.Complete`). Whether it is gets decided by the one move that fills it, and no
later step changes that. So after any steps, whichever of them failed, a generated rule has a
complete type exactly when it was never abandoned on the way (`Compilation.complete_iff`).
-/

namespace MarkupTypes

/-- A type has what an attribute, an element or a reference of its content asks for. -/
structure RuleTable.Grants (t : RuleTable) (type : TypeId) (T : WriterType) (s : Slot) : Prop where
  member : ∀ key, s.key? = some key → ∃ x ∈ T.members, x.key = key
  parent : ∀ id, s.rule? = some id → ∃ rule parent, t.get? id = some rule ∧
    rule.output = some parent ∧ (parent = type ∨ parent ∈ T.parents)

theorem RuleTable.Grants.of_skeleton_eq {t : RuleTable} {type : TypeId} {T : WriterType}
    {s s' : Slot} (h : t.Grants type T s) (hs : s'.skeleton = s.skeleton) :
    t.Grants type T s' where
  member key hkey := h.member key (by rwa [← s.key?_skeleton, ← hs, s'.key?_skeleton])
  parent id hid := h.parent id (by rwa [← s.rule?_skeleton, ← hs, s'.rule?_skeleton])

/-! ## Walks that fail halfway -/

/-- A type lacks something that its content asks for, where `occ` is the content with inline
rules written out. -/
def Expansion.Lacks (e : Expansion) (type : TypeId) (d : Draft) (occ : List Slot) : Prop :=
  ∀ T, d.model.get? type = some T → ∃ s ∈ occ, ¬e.rules.Grants type T s

namespace Expansion.Lacks

variable {e : Expansion} {type : TypeId} {d : Draft} {s : Slot} {occ occ' : List Slot}

theorem mono (h : e.Lacks type d occ) (hsubset : occ ⊆ occ') : e.Lacks type d occ' := by
  intro T hT
  obtain ⟨s, hs, hnot⟩ := h T hT
  exact ⟨s, hsubset hs, hnot⟩

theorem cons (h : e.Lacks type d occ) (s : Slot) : e.Lacks type d (s :: occ) :=
  h.mono (List.subset_cons_self _ _)

/-- There is no member of a name that was not seen. -/
theorem of_name {target : Target} {key : MemberKey} (hkey : s.key? = some key)
    (hnew : key ∉ target.seen) (hcovers : target.Covers d) :
    e.Lacks target.type d (s :: occ) := by
  refine fun T hT => ⟨s, List.mem_cons_self, fun hgrants => ?_⟩
  obtain ⟨x, hx, hxkey⟩ := hgrants.member key hkey
  exact hnew (hxkey ▸ hcovers T hT x hx)

/-- There is no parent for a rule without a type. -/
theorem of_rule {id : RuleId} (hid : s.rule? = some id)
    (hnone : (e.rules.get? id).bind Rule.output = none) : e.Lacks type d (s :: occ) := by
  refine fun T _ => ⟨s, List.mem_cons_self, fun hgrants => ?_⟩
  obtain ⟨rule, parent, hrule, houtput, -⟩ := hgrants.parent id hid
  rw [hrule, Option.bind_some, houtput] at hnone
  cases hnone

end Expansion.Lacks

/-- After a walk that fails, the type at hand lacks something that its content asks for. -/
theorem Walks.lacks {e : Expansion} {slots : List Slot} {target : Target} {d d' : Draft}
    {failure : Failure} (h : Walks e slots target d (.error failure d'))
    (hinline : e.isInline = e.rules.isInline) (hwithin : e.Within slots)
    (hfilling : e.Filling target d) (hstacked : e.Stacked target.splicing slots)
    {occ : List Slot} (hexpands : e.rules.Expands e.isInline slots occ) :
    e.Lacks target.type d' occ := by
  generalize hr : (EStateM.Result.error failure d' : Outcome) = r at h
  induction h generalizing occ with
  | nil => cases hr
  | @seen slot _ _ _ _ _ hkey _ _ ih =>
    obtain ⟨occ, rfl, tail⟩ := hexpands.of_keep fun id hid => by
      rw [slot.rule?_of_key? hkey] at hid
      cases hid
    exact (ih hwithin.tail hfilling hstacked.tail tail hr).cons _
  | attr hnew _ ih =>
    obtain ⟨occ, rfl, tail⟩ := hexpands.of_keep fun _ hid => by cases hid
    exact (ih hwithin.tail (hfilling.attr hnew _ _) hstacked.tail tail hr).cons _
  | elem hnew hparts _ ih =>
    obtain ⟨occ, rfl, tail⟩ := hexpands.of_keep fun _ hid => by cases hid
    exact (ih hwithin.tail (hfilling.elem hnew hwithin.mem hparts _) hstacked.tail tail hr).cons _
  | @fill tag content optional own inner _ target d d₁ _ hnew houtput hopen body _ _ ih =>
    obtain ⟨occ, rfl, tail⟩ := hexpands.of_keep fun _ hid => by cases hid
    obtain ⟨hsound, -⟩ := body.sound (.of_element hwithin.mem)
      (.new hfilling.typed hfilling.sound hopen)
    have hnext := hfilling.fill hnew hwithin.mem houtput hopen hsound body.frame optional
    exact (ih hwithin.tail hnext hstacked.tail tail hr).cons _
  | @fillFails tag content optional own _ target d _ _ hnew houtput hopen body _ =>
    cases hr
    obtain ⟨occ, rfl, -⟩ := hexpands.of_keep fun _ hid => by cases hid
    -- The type at hand is as before the type of the element was begun.
    have hne : target.type ≠ own := fun heq => hopen (heq ▸ hfilling.filled)
    have hsame := body.frame.other target.type hne (.inl (List.mem_cons_of_mem _ hfilling.filled))
    exact .of_name rfl hnew (hfilling.covers.of_get?_eq hsame)
  | @inherit id location optional rule parent _ target d _ hrule hkept houtput _ ih =>
    obtain ⟨occ, rfl, tail⟩ := hexpands.of_keep (by rintro _ ⟨⟩; exact hkept)
    exact (ih hwithin.tail (hfilling.inherit hrule houtput) hstacked.tail tail hr).cons _
  | @splice id location optional rule inner _ target d d₁ _ hrule hspliced hnew body _ _ ih =>
    obtain ⟨expanded, occ, rfl, -, tail⟩ := hexpands.of_splice hrule hspliced
    obtain ⟨-, hinner⟩ := body.sound (.of_rule hrule) (hfilling.splice _ _ _)
    have hrest := ih hwithin.tail (hinner _ _ rfl).resume hstacked.tail tail hr
    have htype : (target.resume inner).type = target.type := body.type_eq
    rw [htype] at hrest
    exact hrest.mono (List.subset_append_right _ _)
  | spliceFails hrule hspliced hnew _ ihbody =>
    cases hr
    obtain ⟨expanded, occ, rfl, body, -⟩ := hexpands.of_splice hrule hspliced
    have hbody := ihbody (.of_rule hrule) (hfilling.splice _ _ _)
      (hstacked.splice hinline hrule hspliced) body rfl
    exact hbody.mono (List.subset_append_left _ _)
  | stuck hstuck =>
    cases hr
    cases hstuck with
    | parts hnew =>
      obtain ⟨occ, rfl, -⟩ := hexpands.of_keep fun _ hid => by cases hid
      exact .of_name rfl hnew hfilling.covers
    | @dangling id location optional hnone =>
      obtain ⟨occ, rfl, -⟩ := hexpands.of_keep (by
        rintro _ ⟨⟩
        rw [hinline, RuleTable.isInline, hnone]
        rfl)
      exact .of_rule rfl (by rw [hnone, Option.bind_none])
    | @undeclared id location optional rule hrule hkept hnone =>
      obtain ⟨occ, rfl, -⟩ := hexpands.of_keep (by rintro _ ⟨⟩; exact hkept)
      exact .of_rule rfl (by rw [hrule, Option.bind_some, hnone])
    | @cycle id location optional rule hrule hspliced hopen =>
      -- What can be written out does not lead back to an open rule.
      rw [hinline] at hexpands
      exact absurd (hstacked id hopen _ List.mem_cons_self id rfl hspliced)
        (hexpands.not_cycle _ List.mem_cons_self id rfl)

namespace Compilation

variable {t : RuleTable} {entry : RuleId} {options : CompileOptions} {tracer : Trace.Tracer}
  {c c₁ c' : Compilation} {id : RuleId} {rule : Rule} {type : TypeId}

/-! ## Complete types -/

/-- The type of a rule has a member for every name in the pattern of the rule with inline
rules written out, and takes members from every other rule that is referred to there. -/
def Complete (c : Compilation) (id : RuleId) : Prop :=
  ∃ rule type T occ, c.rules.get? id = some rule ∧ rule.output = some type ∧
    c.model.get? type = some T ∧ c.rules.Expands c.isInline (rule.slots false) occ ∧
    ∀ s ∈ occ, c.rules.Grants type T s

/-- A rule has not been generated, but its type has been given members. -/
def Abandoned (c : Compilation) (id : RuleId) : Prop :=
  ∃ rule type, c.rules.get? id = some rule ∧ rule.state = .declared ∧ rule.output = some type ∧
    type ∈ c.draft.filled

/-- What a type has been given is the same whether rules have got types since or not. -/
theorem grants_iff_of_leads (hc : Accounted c) (h : Leads c c') {T : WriterType}
    (hT : c.model.get? type = some T) (s : Slot) :
    c'.rules.Grants type T s ↔ c.rules.Grants type T s := by
  constructor
  · intro hgrants
    refine ⟨hgrants.member, fun i hi => ?_⟩
    obtain ⟨rule', parent, hrule', houtput', hparent⟩ := hgrants.parent i hi
    obtain ⟨old, hold, -⟩ := RuleTable.get?_of_skeleton_eq h.keeps.skeleton.symm hrule'
    obtain ⟨rule'', hrule'', hcases⟩ := h.output_cases hc.sound.toOrdered hold
    obtain rfl := Option.some.inj (hrule'.symm.trans hrule'')
    rcases hcases with hsame | ⟨-, hnew⟩
    · exact ⟨old, parent, hold, hsame.symm.trans houtput', hparent⟩
    · -- A type that was created since is neither the type itself nor one of its parents.
      have hlt : parent < c.model.size := by
        rcases hparent with rfl | hparent
        · exact (List.getElem?_eq_some_iff.mp hT).1
        · obtain ⟨-, key, T', hT', -⟩ := (hc.sound.draft.types type T hT).parents parent hparent
          exact (List.getElem?_eq_some_iff.mp hT').1
      exact absurd hlt (Nat.not_lt.mpr (hnew parent houtput'))
  · intro hgrants
    refine ⟨hgrants.member, fun i hi => ?_⟩
    obtain ⟨old, parent, hold, houtput, hparent⟩ := hgrants.parent i hi
    obtain ⟨rule', hrule', houtput'⟩ := h.output_eq hc.sound.toOrdered hold houtput
    exact ⟨rule', parent, hrule', houtput', hparent⟩

/-- Once the type of a rule has been filled, later steps make no difference to whether it is
complete. -/
theorem complete_iff_of_leads (hc : Accounted c) (h : Leads c c')
    (hrule : c.rules.get? id = some rule) (houtput : rule.output = some type)
    (hfilled : type ∈ c.draft.filled) : Complete c' id ↔ Complete c id := by
  obtain ⟨rule', hrule', houtput'⟩ := h.output_eq hc.sound.toOrdered hrule houtput
  have hget := h.get?_eq hc hfilled
  have hskeleton := h.keeps.skeleton
  have hsame : rule'.skeleton = rule.skeleton := by
    have hget := congrArg (RuleTable.get? · id) hskeleton
    simp only [RuleTable.get?_skeleton, hrule, hrule', Option.map_some] at hget
    exact Option.some.inj hget
  have hslots := Rule.map_skeleton_slots hsame false
  constructor
  · rintro ⟨rule'', type'', T, occ', hrule'', houtput'', hT, hexpands, hgrants⟩
    obtain rfl := Option.some.inj (hrule'.symm.trans hrule'')
    obtain rfl := Option.some.inj (houtput'.symm.trans houtput'')
    rw [h.keeps.isInline] at hexpands
    obtain ⟨occ, hexpands', hocc⟩ := hexpands.of_skeleton_eq hskeleton.symm _ hslots.symm
    rw [hget] at hT
    refine ⟨rule, type, T, occ, hrule, houtput, hT, hexpands', fun s hs => ?_⟩
    have hmem : s.skeleton ∈ occ'.map Slot.skeleton := hocc ▸ List.mem_map_of_mem hs
    obtain ⟨s', hs', heq⟩ := List.mem_map.mp hmem
    exact ((grants_iff_of_leads hc h hT s').mp (hgrants s' hs')).of_skeleton_eq heq.symm
  · rintro ⟨rule'', type'', T, occ, hrule'', houtput'', hT, hexpands, hgrants⟩
    obtain rfl := Option.some.inj (hrule.symm.trans hrule'')
    obtain rfl := Option.some.inj (houtput.symm.trans houtput'')
    obtain ⟨occ', hexpands', hocc⟩ := hexpands.of_skeleton_eq hskeleton _ hslots
    rw [← h.keeps.isInline] at hexpands'
    refine ⟨rule', type, T, occ', hrule', houtput', hget.trans hT, hexpands', fun s' hs' => ?_⟩
    have hmem : s'.skeleton ∈ occ.map Slot.skeleton := hocc ▸ List.mem_map_of_mem hs'
    obtain ⟨s, hs, heq⟩ := List.mem_map.mp hmem
    exact (grants_iff_of_leads hc h hT s').mpr ((hgrants s hs).of_skeleton_eq heq.symm)

/-! ## The move that fills a type -/

/-- Filling the type of a rule to the end makes it complete. -/
theorem complete_of_fills (hc : Accounted c) (hrule : c.rules.get? id = some rule)
    (houtput : rule.output = some type) (hopen : type ∉ c.draft.filled) {d : Draft}
    (hfills : Fills c.expansion rule.jobs c.draft (.ok () d)) :
    Complete { c with draft := d } id := by
  rw [Rule.jobs_of_output houtput] at hfills
  cases hfills with
  | skip hfilled => exact absurd hfilled hopen
  | @fill _ _ inner _ _ d₁ _ _ body tail =>
    cases tail
    have hwithin : c.expansion.Within (rule.slots false) := .of_rule hrule
    have hfilling : c.expansion.Filling (.new type) (c.draft.markFilled type) :=
      .new hc.sound.typed hc.sound.draft hopen
    obtain ⟨occ, hexpands, hadds, -⟩ := body.adds hc.sound.shaped hwithin hfilling
    obtain ⟨T, hT, -⟩ := hc.sound.hasOrigin_of_output hrule houtput
    have hblank := hc.sound.draft.blank type T hT hopen
    obtain ⟨T', occ', hT', hdescribes, -⟩ := hadds.populated hexpands hT hblank
    obtain rfl := hexpands.unique hdescribes.expands
    have hget : (d₁.noteMembers type).model.get? type = some T' := by
      rwa [Draft.model_noteMembers]
    refine ⟨rule, type, T', occ, hrule, houtput, hget, hexpands, fun s hs => ⟨?_, ?_⟩⟩
    · intro key hkey
      obtain ⟨s', hs', hkey'⟩ := exists_mem_firsts hs hkey List.not_mem_nil
      have hmem : c.expansion.memberOf s' ∈ T'.members.map some := by
        rw [hdescribes.members]
        exact List.mem_map_of_mem hs'
      obtain ⟨x, hx, hmember⟩ := List.mem_map.mp hmem
      have hxkey := c.expansion.key?_of_memberOf hmember.symm
      exact ⟨x, hx, Option.some.inj (hxkey.symm.trans hkey')⟩
    · intro i hi
      obtain ⟨rule', parent, hrule', houtput'⟩ := body.output_of_ok hexpands s hs i hi
      refine ⟨rule', parent, hrule', houtput', ?_⟩
      by_cases heq : parent = type
      · exact .inl heq
      · refine .inr ((hdescribes.parents parent).mpr ⟨heq, List.mem_filterMap.mpr ⟨s, hs, ?_⟩⟩)
        rw [hi, Option.bind_some, hrule', Option.bind_some, houtput']

/-- Filling the type of a rule until that fails leaves it incomplete. -/
theorem not_complete_of_fills (hc : Accounted c)
    (hinline : c.inline = c.rules.rules.map Rule.isInline)
    (hrule : c.rules.get? id = some rule) (houtput : rule.output = some type)
    (hopen : type ∉ c.draft.filled) {failure : Failure} {d : Draft}
    (hfills : Fills c.expansion rule.jobs c.draft (.error failure d)) :
    type ∈ d.filled ∧ ¬Complete { c with draft := d } id := by
  rw [Rule.jobs_of_output houtput] at hfills
  cases hfills with
  | skip hfilled => exact absurd hfilled hopen
  | fill _ _ tail => cases tail
  | fails _ body =>
    refine ⟨body.frame.filled List.mem_cons_self, ?_⟩
    rintro ⟨rule', type', T, occ, hrule', houtput', hT, hexpands, hgrants⟩
    obtain rfl := Option.some.inj (hrule.symm.trans hrule')
    obtain rfl := Option.some.inj (houtput.symm.trans houtput')
    have hfilling : c.expansion.Filling (.new type) (c.draft.markFilled type) :=
      .new hc.sound.typed hc.sound.draft hopen
    obtain ⟨s, hs, hnot⟩ := body.lacks (isInline_eq_table hinline) (.of_rule hrule) hfilling .nil
      hexpands T hT
    exact hnot (hgrants s hs)

/-! ## Rules that were never abandoned -/

/-- The type of a rule has been filled when the rule counts as generated, and only then, and
it is complete. -/
structure Unspoiled (c : Compilation) (id : RuleId) : Prop where
  filled : ∀ rule type, c.rules.get? id = some rule → rule.output = some type →
    (type ∈ c.draft.filled ↔ rule.state = .generated)
  complete : ∀ rule, c.rules.get? id = some rule → rule.state = .generated → Complete c id

/-- The type of a rule has been filled, and is not complete. -/
def Spoiled (c : Compilation) (id : RuleId) : Prop :=
  ∃ rule type, c.rules.get? id = some rule ∧ rule.output = some type ∧ type ∈ c.draft.filled ∧
    ¬Complete c id

theorem Unspoiled.not_abandoned (h : Unspoiled c id) : ¬Abandoned c id := by
  rintro ⟨rule, type, hrule, hstate, houtput, hfilled⟩
  rw [(h.filled rule type hrule houtput).mp hfilled] at hstate
  cases hstate

theorem Spoiled.leads (h : Spoiled c id) (hc : Accounted c) (hleads : Leads c c') :
    Spoiled c' id := by
  obtain ⟨rule, type, hrule, houtput, hfilled, hnot⟩ := h
  obtain ⟨rule', hrule', houtput'⟩ := hleads.output_eq hc.sound.toOrdered hrule houtput
  refine ⟨rule', type, hrule', houtput', hleads.filled_subset hfilled, ?_⟩
  rwa [complete_iff_of_leads hc hleads hrule houtput hfilled]

/-- A declared rule that is not inline has a type. -/
theorem Ordered.exists_output (h : Ordered c) (hinline : c.isInline id = false)
    (hrule : c.rules.get? id = some rule) (hstate : rule.state ≠ .unprocessed) :
    ∃ type, rule.output = some type := by
  obtain ⟨type, houtput, -⟩ := (h.declared id rule hrule hstate).typed hinline
  exact ⟨type, houtput⟩

/-- Moves that neither concern the rule nor fill its type. -/
theorem Unspoiled.of_leads (h : Unspoiled c id) (hc : Accounted c) (hinline : c.isInline id = false)
    (hleads : Leads c c')
    (hsame : ∀ rule', c'.rules.get? id = some rule' → ∃ rule, c.rules.get? id = some rule ∧
      rule'.output = rule.output ∧ rule'.state = rule.state)
    (hfilled : ∀ rule type, c.rules.get? id = some rule → rule.output = some type →
      type ∈ c'.draft.filled → type ∈ c.draft.filled) : Unspoiled c' id where
  filled rule' type hrule' houtput' := by
    obtain ⟨rule, hrule, houtput, hstate⟩ := hsame rule' hrule'
    rw [houtput] at houtput'
    rw [hstate, ← h.filled rule type hrule houtput']
    exact ⟨hfilled rule type hrule houtput', fun hmem => hleads.filled_subset hmem⟩
  complete rule' hrule' hgenerated := by
    obtain ⟨rule, hrule, houtput, hstate⟩ := hsame rule' hrule'
    rw [hstate] at hgenerated
    obtain ⟨type, htype⟩ := hc.sound.exists_output hinline hrule
      (by rw [hgenerated]; exact fun heq => nomatch heq)
    have hmem := (h.filled rule type hrule htype).mpr hgenerated
    exact (complete_iff_of_leads hc hleads hrule htype hmem).mpr (h.complete rule hrule hgenerated)

/-- The types of other rules and of their elements are not the type of the rule. -/
theorem not_filled_by_other (hc : Accounted c) {i : RuleId} {other : Rule} (hi : id ≠ i)
    (hother : c.rules.get? i = some other) (hrule : c.rules.get? id = some rule)
    (houtput : rule.output = some type) {r : EStateM.Result Failure Draft Unit}
    (hfills : Fills c.expansion other.jobs c.draft r) (htype : type ∈ (endState r).filled) :
    type ∈ c.draft.filled := by
  have hmem := RuleTable.mem_of_get? hother
  rcases hfills.filled_cases (fun _ hjob => Rule.within_of_mem_jobs hmem hjob) type htype with
    htype | htype | htype
  · exact htype
  · obtain ⟨job, hjob, rfl⟩ := List.mem_map.mp htype
    have hown : job.1 ∈ rule.types := List.mem_append_left _ (Option.mem_toList.mpr houtput)
    exact absurd (RuleTable.eq_of_mem_types hc.sound.nodup hrule hother hown
      (Rule.mem_types_of_mem_jobs hjob)) hi
  · exact absurd htype (hc.sound.not_mem_elementTypes hrule houtput)

/-- A rule that has just been declared has a new type, which has not been filled. -/
theorem unspoiled_declareRule (hc : Accounted c) {rule : Rule}
    (hrule : c.rules.get? id = some rule) : Unspoiled (c.declareRule id rule) id := by
  have hself : (c.declareRule id rule).rules.get? id = some (c.declared id rule).1 :=
    RuleTable.get?_modify_self hrule
  constructor
  · intro rule' type hrule' houtput'
    obtain rfl := Option.some.inj (hself.symm.trans hrule')
    have hmem : type ∈ (c.declared id rule).1.types :=
      List.mem_append_left _ (Option.mem_toList.mpr houtput')
    rw [types_declared] at hmem
    have hopen : type ∉ (c.declareRule id rule).draft.filled := fun hfilled => by
      have heq : (c.declareRule id rule).draft.filled = c.draft.filled := declares_declared.filled
      have hlt := hc.sound.lt_size (hc.owned type (heq ▸ hfilled))
      exact Nat.not_lt.mpr (List.mem_range'_1.mp hmem).1 hlt
    rw [state_declared]
    exact ⟨fun hfilled => absurd hfilled hopen, fun heq => nomatch heq⟩
  · intro rule' hrule' hgenerated
    obtain rfl := Option.some.inj (hself.symm.trans hrule')
    rw [state_declared] at hgenerated
    cases hgenerated

/-- A rule whose type has just been filled is complete. -/
theorem Unspoiled.markGenerated (h : Unspoiled c id) (hc : Accounted c)
    (hinline : c.isInline id = false) {rule : Rule} {d : Draft}
    (hrule : c.rules.get? id = some rule) (hstate : rule.state = .declared)
    (hfills : Fills c.expansion rule.jobs c.draft (.ok () d)) :
    Unspoiled (markGenerated { c with draft := d } id) id := by
  obtain ⟨type, houtput⟩ := hc.sound.exists_output hinline hrule
    (by rw [hstate]; exact fun heq => nomatch heq)
  have hopen : type ∉ c.draft.filled := fun hfilled =>
    h.not_abandoned ⟨rule, type, hrule, hstate, houtput, hfilled⟩
  have hcomplete := complete_of_fills hc hrule houtput hopen hfills
  have hfilled : type ∈ d.filled := by
    rw [Rule.jobs_of_output houtput] at hfills
    cases hfills with
    | skip hfilled => exact absurd hfilled hopen
    | fill _ body tail =>
      cases tail
      rw [Draft.filled_noteMembers]
      exact body.frame.filled List.mem_cons_self
  have hdone : Leads c { c with draft := d } := .single (.fill hrule hstate hfills)
  have hself : (Compilation.markGenerated { c with draft := d } id).rules.get? id =
      some { rule with state := .generated } := RuleTable.get?_modify_self hrule
  constructor
  · intro rule' type' hrule' houtput'
    obtain rfl := Option.some.inj (hself.symm.trans hrule')
    obtain rfl := Option.some.inj (houtput.symm.trans houtput')
    exact ⟨fun _ => rfl, fun _ => hfilled⟩
  · intro _ _ _
    exact (complete_iff_of_leads (c := { c with draft := d }) (hc.leads hdone)
      (.single (.generated hrule hstate)) hrule houtput hfilled).mpr hcomplete

theorem Unspoiled.advance (h : Unspoiled c id) (hc : Accounted c) (hinline : c.isInline id = false)
    (hmove : Advance c c') : Unspoiled c' id := by
  have hleads := hmove.leads
  have hfilledEq : c'.draft.filled = c.draft.filled → ∀ rule type, c.rules.get? id = some rule →
      rule.output = some type → type ∈ c'.draft.filled → type ∈ c.draft.filled :=
    fun heq _ _ _ _ hmem => heq ▸ hmem
  cases hmove with
  | trace | root =>
    exact h.of_leads hc hinline hleads (fun rule' hrule' => ⟨rule', hrule', rfl, rfl⟩)
      (hfilledEq rfl)
  | @declare i old hold hstate =>
    by_cases hi : id = i
    · subst hi
      exact unspoiled_declareRule hc hold
    · exact h.of_leads hc hinline hleads
        (fun rule' hrule' => ⟨rule', (RuleTable.get?_modify_of_ne hi).symm.trans hrule', rfl, rfl⟩)
        (hfilledEq declares_declared.filled)
  | @generate i old d hold hstate hfills =>
    by_cases hi : id = i
    · subst hi
      exact h.markGenerated hc hinline hold hstate hfills
    · exact h.of_leads hc hinline hleads
        (fun rule' hrule' => ⟨rule', (RuleTable.get?_modify_of_ne hi).symm.trans hrule', rfl, rfl⟩)
        fun rule type hrule houtput hmem =>
          not_filled_by_other hc hi hold hrule houtput hfills hmem

/-- A move that fails spoils the rule that it fails at, and no other. -/
theorem Unspoiled.breaks (h : Unspoiled c id) (hc : Accounted c)
    (htable : c.inline = c.rules.rules.map Rule.isInline) (hinline : c.isInline id = false)
    (hmove : Breaks c c') : Unspoiled c' id ∨ Abandoned c' id ∧ Spoiled c' id := by
  have hleads := hmove.leads
  cases hmove with
  | @fill i old failure d hold hstate hfills =>
    by_cases hi : id = i
    · subst hi
      obtain ⟨type, houtput⟩ := hc.sound.exists_output hinline hold
        (by rw [hstate]; exact fun heq => nomatch heq)
      have hopen : type ∉ c.draft.filled := fun hfilled => by
        rw [(h.filled old type hold houtput).mp hfilled] at hstate
        cases hstate
      obtain ⟨hfilled, hnot⟩ := not_complete_of_fills hc htable hold houtput hopen hfills
      exact .inr ⟨⟨old, type, hold, hstate, houtput, hfilled⟩,
        ⟨old, type, hold, houtput, hfilled, hnot⟩⟩
    · exact .inl (h.of_leads hc hinline hleads (fun rule' hrule' => ⟨rule', hrule', rfl, rfl⟩)
        fun rule type hrule houtput hmem =>
          not_filled_by_other hc hi hold hrule houtput hfills hmem)

/-- Preparing gives labels, and nothing else. -/
theorem same_prepareRule (c : Compilation) (i id : RuleId) :
    (c.prepareRule i).draft.filled = c.draft.filled ∧
      ∀ rule', (c.prepareRule i).rules.get? id = some rule' → ∃ rule, c.rules.get? id = some rule ∧
        rule'.output = rule.output ∧ rule'.state = rule.state := by
  obtain h | ⟨name, f, h⟩ := prepareRule_cases c i <;> rw [h]
  · exact ⟨rfl, fun rule' hrule' => ⟨rule', hrule', rfl, rfl⟩⟩
  · refine ⟨rfl, fun rule' hrule' => ?_⟩
    obtain ⟨old, hold, rfl⟩ := RuleTable.of_get?_modify hrule'
    refine ⟨old, hold, ?_⟩
    split <;> exact ⟨rfl, rfl⟩

theorem Unspoiled.foldl_prepareRule : ∀ (ids : List RuleId) {c : Compilation}, Unspoiled c id →
    Accounted c → c.isInline id = false → Unspoiled (ids.foldl prepareRule c) id
  | [], _, h, _, _ => h
  | i :: ids, c, h, hc, hinline => by
    have hleads := leads_prepareRule c i
    obtain ⟨hfilled, hsame⟩ := same_prepareRule c i id
    have hfirst : Unspoiled (c.prepareRule i) id :=
      h.of_leads hc hinline hleads hsame fun _ _ _ _ hmem => hfilled ▸ hmem
    have hinline' : (c.prepareRule i).isInline id = false := by rwa [hleads.keeps.isInline]
    exact Unspoiled.foldl_prepareRule ids hfirst (hc.leads hleads) hinline'

theorem Unspoiled.after (h : Unspoiled c id) (hc : Accounted c)
    (htable : c.inline = c.rules.rules.map Rule.isInline) (hinline : c.isInline id = false)
    (step : Step) :
    Unspoiled (c.after step) id ∨ Abandoned (c.after step) id ∧ Spoiled (c.after step) id := by
  by_cases hstep : step = .prepare
  · subst hstep
    have hbegin : Advance c (c.mapTracer (·.startPhase .prepare)) := .trace _
    have hc₁ := hc.leads hbegin.leads
    have hlabels := (h.advance hc hinline hbegin).foldl_prepareRule c.order hc₁ hinline
    have hleads := leads_foldl_prepareRule c.order (c.mapTracer (·.startPhase .prepare))
    have hinline' : (c.order.foldl prepareRule
        (c.mapTracer (·.startPhase .prepare))).isInline id = false := by
      rwa [hleads.keeps.isInline]
    exact .inl (hlabels.advance (hc₁.leads hleads) hinline' (.trace Trace.Tracer.endPhase))
  · obtain ⟨c₁, hadvances, hlast⟩ := tries_after hstep c
    have hkeeps : ∀ {c₁}, Advances c c₁ → c₁.isInline id = false := fun h => by
      rwa [h.leads.keeps.isInline]
    have h₁ : Unspoiled c₁ id := by
      clear hlast
      induction hadvances with
      | refl => exact h
      | tail hbefore hmove ih =>
        exact ih.advance (hc.leads (Advances.leads hbefore)) (hkeeps hbefore) hmove
    rcases hlast with heq | hbreaks
    · rw [heq]
      exact .inl h₁
    · exact h₁.breaks (hc.leads hadvances.leads) (hadvances.leads.keeps.inline_eq htable)
        (hkeeps hadvances) hbreaks

theorem Started.unspoiled (h : Started t entry options tracer c) (hfresh : t.Fresh) (id : RuleId) :
    Unspoiled c id where
  filled rule type hrule houtput := by
    rw [h.rules_eq] at hrule
    have hnone := (hfresh rule (RuleTable.mem_of_get? hrule)).2
    rw [Rule.types, houtput] at hnone
    cases hnone
  complete rule hrule hgenerated := by
    rw [h.rules_eq] at hrule
    rw [(hfresh rule (RuleTable.mem_of_get? hrule)).1] at hgenerated
    cases hgenerated

theorem afterAll_concat (c : Compilation) (steps : List Step) (step : Step) :
    c.afterAll (steps ++ [step]) = (c.afterAll steps).after step := by
  rw [afterAll, List.foldl_append, ← afterAll]
  rfl

/-- A rule is spoiled from the first step on that abandons it, and not before. -/
theorem Unspoiled.afterAll (h : Unspoiled c id) (hc : Accounted c)
    (htable : c.inline = c.rules.rules.map Rule.isInline) (hinline : c.isInline id = false)
    (steps : List Step) :
    (Unspoiled (c.afterAll steps) id ∧
      ∀ before, before <+: steps → ¬Abandoned (c.afterAll before) id) ∨
    Spoiled (c.afterAll steps) id ∧
      ∃ before, before <+: steps ∧ Abandoned (c.afterAll before) id := by
  induction steps using List.reverseRecOn with
  | nil =>
    refine .inl ⟨h, fun before hbefore => ?_⟩
    rw [List.prefix_nil.mp hbefore]
    exact h.not_abandoned
  | append_singleton steps step ih =>
    have hleads := leads_afterAll steps c
    rw [afterAll_concat]
    rcases ih with ⟨hunspoiled, hnever⟩ | ⟨hspoiled, before, hbefore, habandoned⟩
    · have hinline' : (c.afterAll steps).isInline id = false := by rwa [hleads.keeps.isInline]
      rcases hunspoiled.after (hc.leads hleads) (hleads.keeps.inline_eq htable) hinline' step with
        hnext | ⟨habandoned, hspoiled⟩
      · refine .inl ⟨hnext, fun before hbefore => ?_⟩
        rcases List.prefix_concat_iff.mp hbefore with rfl | hbefore
        · rw [afterAll_concat]
          exact hnext.not_abandoned
        · exact hnever before hbefore
      · refine .inr ⟨hspoiled, steps ++ [step], List.prefix_refl _, ?_⟩
        rwa [afterAll_concat]
    · exact .inr ⟨hspoiled.leads (hc.leads hleads) (leads_after _ step), before,
        hbefore.trans (List.prefix_append _ _), habandoned⟩

/-- After any steps, in any order and whichever of them failed, the type of a generated rule is
complete exactly when none of the steps abandoned the rule. -/
theorem complete_iff (hfresh : t.Fresh) (hstart : start t entry options tracer = .ok c)
    (steps : List Step) (hrule : (c.afterAll steps).rules.get? id = some rule)
    (hinline : rule.isInline = false) (hstate : rule.state = .generated) :
    Complete (c.afterAll steps) id ↔
      ∀ before, before <+: steps → ¬Abandoned (c.afterAll before) id := by
  have hstarted := started_of_start hstart
  have hkeeps := (leads_afterAll steps c).keeps
  have htable : c.inline = c.rules.rules.map Rule.isInline :=
    hstarted.rules_eq.symm ▸ hstarted.inline_eq
  have hinline' : c.isInline id = false := by
    rw [← hkeeps.isInline, isInline_eq (hkeeps.inline_eq htable) hrule, hinline]
  rcases (hstarted.unspoiled hfresh id).afterAll (hstarted.accounted hfresh) htable hinline' steps
    with ⟨hunspoiled, hnever⟩ | ⟨⟨_, _, _, _, _, hnot⟩, before, hbefore, habandoned⟩
  · exact iff_of_true (hunspoiled.complete rule hrule hstate) hnever
  · exact iff_of_false hnot fun hnever => hnever before hbefore habandoned

/-- A rule is generated before it has been declared, which fails but abandons nothing. -/
theorem complete_iff_nestedItems : RuleTable.nestedItems.Fresh ∧
    ∃ c rule, start .nestedItems 0 .standard .off = .ok c ∧
      (c.afterAll [.generate 2, .prepare, .declareAll, .generateAll]).rules.get? 2 = some rule ∧
      rule.isInline = false ∧ rule.state = .generated ∧
      (Complete (c.afterAll [.generate 2, .prepare, .declareAll, .generateAll]) 2 ↔
        ∀ before, before <+: [.generate 2, .prepare, .declareAll, .generateAll] →
          ¬Abandoned (c.afterAll before) 2) := by
  have hfresh : RuleTable.nestedItems.Fresh := by decide
  obtain ⟨c, hstart⟩ : ∃ c, start .nestedItems 0 .standard .off = .ok c := ⟨_, rfl⟩
  have hsome : ((c.afterAll [.generate 2, .prepare, .declareAll, .generateAll]).rules.get? 2).map
      (fun rule => (rule.isInline, rule.state)) = some (false, .generated) := by
    cases hstart
    decide +kernel
  obtain ⟨rule, hrule, hparts⟩ := Option.map_eq_some_iff.mp hsome
  obtain ⟨hinline, hstate⟩ := Prod.mk.inj hparts
  exact ⟨hfresh, c, rule, hstart, hrule, hinline, hstate,
    complete_iff hfresh hstart _ hrule hinline hstate⟩

end Compilation

/-- A document that takes the members of a rule besides one of its own. -/
def RuleTable.sharedAttributes : RuleTable :=
  ⟨[(Rule.mentioned rootScope startName).define
      (.union .plain [.ofRule 1, .ofAttribute (.unqualified "id") .text]) none,
    (Rule.mentioned rootScope "common").define
      (.union .plain [.ofAttribute (.unqualified "lang") .text,
        .ofAttribute (.unqualified "class") .text]) none]⟩

namespace Compilation

/-- The document is generated before the rule that it refers to has been declared, which fails,
and once more afterwards. Then it counts as generated, and has no attribute. -/
theorem not_complete_sharedAttributes :
    ∃ c rule, start .sharedAttributes 0 .standard .off = .ok c ∧
      (c.afterAll [.declare 0, .generate 0, .declare 1, .generate 0]).rules.get? 0 = some rule ∧
      rule.isInline = false ∧ rule.state = .generated ∧
      ¬Complete (c.afterAll [.declare 0, .generate 0, .declare 1, .generate 0]) 0 := by
  obtain ⟨c, hstart⟩ : ∃ c, start .sharedAttributes 0 .standard .off = .ok c := ⟨_, rfl⟩
  have hrules : ((c.afterAll [.declare 0, .generate 0, .declare 1, .generate 0]).rules.get? 0).map
      (fun rule => (rule.isInline, rule.state, rule.output, rule.slots false)) =
      some (false, .generated, some 0, [.ref 1 none false,
        .attr ⟨.unqualified "id", none⟩ .text false]) := by
    cases hstart
    decide +kernel
  have hmembers : ((c.afterAll [.declare 0, .generate 0, .declare 1, .generate 0]).model.get? 0).map
      WriterType.members = some [] := by
    cases hstart
    decide +kernel
  obtain ⟨rule, hrule, hparts⟩ := Option.map_eq_some_iff.mp hrules
  simp only [Prod.mk.injEq] at hparts
  obtain ⟨hinline, hstate, houtput, hslots⟩ := hparts
  refine ⟨c, rule, hstart, hrule, hinline, hstate, ?_⟩
  rintro ⟨rule', type, T, occ, hrule', houtput', hT, hexpands, hgrants⟩
  obtain rfl := Option.some.inj (hrule.symm.trans hrule')
  obtain rfl := Option.some.inj (houtput.symm.trans houtput')
  rw [hT, Option.map_some, Option.some.injEq] at hmembers
  have hid : Slot.attr ⟨.unqualified "id", none⟩ .text false ∈ occ :=
    hexpands.mem_of_mem (by rw [hslots]; simp) fun _ hid => by cases hid
  obtain ⟨x, hx, -⟩ := (hgrants _ hid).member _ rfl
  rw [hmembers] at hx
  cases hx

end Compilation

end MarkupTypes
