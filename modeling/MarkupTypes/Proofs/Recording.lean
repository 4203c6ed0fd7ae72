import MarkupTypes.Proofs.Decisions
import MarkupTypes.Proofs.Naming
import MarkupTypes.Proofs.Tracing

/-!
# What a trace says of a model

A tracer that keeps every event and has room for it gets three blocks of records from running
all stages, one for each stage (`Trace.Block`), and what they say is true (`Trace.Truthful`). The
types that are noted as created are those of the model, since generating neither makes a type nor
renames one. The number of members that is noted of a type is final, although it is noted in the
middle of a walk : the type has been filled by then, and a walk only adds to the type that it was
begun for, which has not been told of yet (`Walks.recounts`).
-/

namespace MarkupTypes

/-! ## Preparing -/

/-- The rule that a rule refers to, if a reference without a name is all that it consists of. -/
def Rule.bareTarget? (r : Rule) : Option RuleId :=
  match r.pattern with
  | some (.ref _ target none) => some target
  | _ => none

/-- The name of a rule and that of its target as it is shown, if the rule gives its name to the
reference that it consists of. -/
def RuleTable.alias? (t : RuleTable) (isInline : RuleId → Bool) (id : RuleId) :
    Option (String × String) :=
  (t.get? id).bind fun rule =>
    if isInline id && !rule.isStart then
      rule.bareTarget?.map fun target =>
        (rule.name, ((t.get? target).map Rule.displayName).getD "")
    else none

namespace Trace.Event

/-- The event of an alias. -/
def ofAlias (names : String × String) : Event := .ruleAliased names.1 names.2

/-- The event of creating a type. -/
def ofType (T : WriterType) : Event := .typeDeclared T.name T.origin.text

/-- The event of giving a type its members. -/
def ofCount (count : String × Nat) : Event := .membersGenerated count.1 count.2

/-- An event of filling types : it starts and ends no phase, and tells of no alias and of no new
type. -/
structure OfFilling (ev : Event) : Prop where
  inner : ev.isMark = false
  aliased : ev.aliased? = none
  declared : ev.declared? = none

end Trace.Event

namespace Compilation

open Trace

variable {c c' : Compilation} {id : RuleId}

theorem displayNameOf_eq (c : Compilation) (id : RuleId) :
    c.displayNameOf id = ((c.rules.get? id).map Rule.displayName).getD "" := by
  unfold displayNameOf
  cases c.rules.get? id <;> rfl

theorem draft_prepareRule (c : Compilation) (id : RuleId) : (c.prepareRule id).draft =
    { c.draft with
      tracer :=
        c.tracer.noteAll ((c.rules.alias? c.isInline id).toList.map Event.ofAlias) } := by
  unfold prepareRule RuleTable.alias?
  cases c.rules.get? id with
  | none => rfl
  | some rule =>
    rw [Option.bind_some]
    by_cases hskip : (c.isInline id && !rule.isStart) = true
    · have hskip' : (!c.isInline id || rule.isStart) = false := by grind
      simp only [hskip, hskip', if_true, Bool.false_eq_true, if_false, Rule.bareTarget?]
      cases rule.pattern with
      | none => rfl
      | some p =>
        cases p with
        | ref mark target label =>
          cases label with
          | none =>
            simp only [displayNameOf_eq]
            rfl
          | some _ => rfl
        | _ => rfl
    · have hskip' : (!c.isInline id || rule.isStart) = true := by grind
      simp only [hskip, hskip', if_true, if_false, Bool.false_eq_true]
      rfl

/-- A rule is given the same name, and those it refers to are shown alike, after others were
prepared. -/
theorem alias?_prepareRule {i : RuleId} (hi : i ≠ id) :
    (c.prepareRule id).rules.alias? (c.prepareRule id).isInline i =
      c.rules.alias? c.isInline i := by
  have hshown : ∀ target, ((c.prepareRule id).rules.get? target).map Rule.displayName =
      (c.rules.get? target).map Rule.displayName := fun target => by
    rw [rules_prepareRule, RuleTable.get?_modify]
    split
    · next htarget =>
      cases c.rules.get? target with
      | none => rfl
      | some rule =>
        have hname : (c.prepared id rule).displayName = rule.displayName := by
          unfold prepared
          split <;> rfl
        exact congrArg some hname
    · rfl
  have hinline : (c.prepareRule id).isInline = c.isInline := (leads_prepareRule c id).keeps.isInline
  have hget : (c.prepareRule id).rules.get? i = c.rules.get? i := by
    rw [rules_prepareRule, RuleTable.get?_modify_of_ne hi]
  simp only [RuleTable.alias?, hget, hinline, hshown]

theorem draft_foldl_prepareRule : ∀ (ids : List RuleId) (c : Compilation), ids.Nodup →
    (ids.foldl prepareRule c).draft =
      { c.draft with
        tracer :=
          c.tracer.noteAll ((ids.filterMap (c.rules.alias? c.isInline)).map Event.ofAlias) }
  | [], _, _ => rfl
  | id :: ids, c, hnodup => by
    obtain ⟨hid, hids⟩ := List.nodup_cons.mp hnodup
    have hsame : ids.filterMap
        ((c.prepareRule id).rules.alias? (c.prepareRule id).isInline) =
          ids.filterMap (c.rules.alias? c.isInline) :=
      List.filterMap_congr fun i hi => alias?_prepareRule fun heq => hid (heq ▸ hi)
    rw [List.foldl_cons, draft_foldl_prepareRule ids _ hids, hsame, tracer, draft_prepareRule,
      ← Tracer.noteAll_append, ← List.map_append]
    cases halias : c.rules.alias? c.isInline id <;> simp [halias]

/-- Preparing notes the aliases, and changes nothing else of the draft. -/
theorem draft_prepare (hnodup : c.order.Nodup) : c.prepare.draft =
    { c.draft with
      tracer := c.tracer.during .prepare
        ((c.order.filterMap (c.rules.alias? c.isInline)).map Event.ofAlias) } :=
  congrArg (fun d => { d with tracer := d.tracer.endPhase })
    (draft_foldl_prepareRule c.order (c.mapTracer (·.startPhase .prepare)) hnodup)

end Compilation

/-! ## Declaring -/

/-- A draft after types were created, which are blank and of which each was noted. -/
structure Draft.Announces (d d' : Draft) (created : List WriterType) : Prop where
  types : d'.model.types = d.model.types ++ created
  filled : d'.filled = d.filled
  blank : ∀ T ∈ created, T.members = [] ∧ T.parents = []
  tracer : d'.tracer = d.tracer.noteAll (created.map Trace.Event.ofType)

namespace Draft.Announces

variable {d d' d'' : Draft} {created later : List WriterType}

theorem refl (d : Draft) : d.Announces d [] :=
  ⟨(List.append_nil _).symm, rfl, fun _ h => absurd h List.not_mem_nil, rfl⟩

theorem trans (h : d.Announces d' created) (h' : d'.Announces d'' later) :
    d.Announces d'' (created ++ later) where
  types := by rw [h'.types, h.types, List.append_assoc]
  filled := h'.filled.trans h.filled
  blank T hT := (List.mem_append.mp hT).elim (h.blank T) (h'.blank T)
  tracer := by rw [h'.tracer, h.tracer, List.map_append, Trace.Tracer.noteAll_append]

theorem create (d : Draft) (base : String) (origin : Origin) : d.Announces (d.create base origin)
    [.new d.model.size (d.model.freeName (typeName base)) origin] where
  types := rfl
  filled := rfl
  blank T hT := by
    obtain rfl := List.mem_singleton.mp hT
    exact ⟨rfl, rfl⟩
  tracer := by
    have hname : (d.model.create base origin).nameOf d.model.size =
        d.model.freeName (typeName base) := by
      have hget := get?_create d base origin d.model.size
      rw [if_pos rfl] at hget
      rw [Model.nameOf, show (d.model.create base origin).get? d.model.size = _ from hget]
      rfl
    change d.tracer.note (.typeDeclared ((d.model.create base origin).nameOf d.model.size) _) = _
    rw [hname]
    rfl

end Draft.Announces

namespace Compilation

variable {c c' : Compilation} {id : RuleId}

theorem announces_declareElements (c : Compilation) : ∀ (xs : List (ElementTag × Pattern))
    (d : Draft), ∃ created, d.Announces (c.declareElements xs d).1 created
  | [], d => ⟨[], .refl d⟩
  | (tag, content) :: rest, d => by
    rw [declareElements_cons]
    split
    · obtain ⟨created, h⟩ := announces_declareElements c rest _
      exact ⟨_, (Draft.Announces.create d _ _).trans h⟩
    · exact announces_declareElements c rest d

theorem announces_declared (c : Compilation) (id : RuleId) (rule : Rule) :
    ∃ created, c.draft.Announces (c.declared id rule).2 created := by
  have hrule : ∃ created, c.draft.Announces (c.draftOfRule id rule) created := by
    unfold draftOfRule
    split
    · exact ⟨[], .refl _⟩
    · exact ⟨_, .create _ _ _⟩
  obtain ⟨created, hcreated⟩ := hrule
  obtain ⟨later, hlater⟩ := announces_declareElements c rule.elements (c.draftOfRule id rule)
  rw [declared_eq]
  exact ⟨_, hcreated.trans hlater⟩

theorem announces_declare {done : Bool} (h : declare id c = .ok done c') :
    ∃ created, c.draft.Announces c'.draft created := by
  obtain rfl | ⟨rule, -, -, rfl⟩ := of_declare h
  · exact ⟨[], .refl _⟩
  · exact announces_declared c id rule

theorem announces_forEach : ∀ {ids : List RuleId} {c : Compilation},
    forEach declare ids c = .ok () c' → ∃ created, c.draft.Announces c'.draft created
  | [], _, h => by
    cases h
    exact ⟨[], .refl _⟩
  | id :: ids, c, h => by
    obtain ⟨done, c₁, hdeclare, h⟩ := of_forEach_cons h
    obtain ⟨created, hfirst⟩ := announces_declare hdeclare
    obtain ⟨later, hrest⟩ := announces_forEach h
    exact ⟨_, hfirst.trans hrest⟩

/-- Declaring notes the types that it creates. -/
theorem announces_declareAll (h : declareAll c = .ok () c') :
    ∃ (c₁ : Compilation) (created : List WriterType),
    c' = c₁.settleRoot.mapTracer Trace.Tracer.endPhase ∧
      (c.mapTracer (·.startPhase .declare)).draft.Announces c₁.draft created := by
  obtain ⟨c₁, hdeclare, rfl⟩ := exists_of_declareAll h
  obtain ⟨created, hannounces⟩ := announces_forEach hdeclare
  exact ⟨c₁, created, rfl, hannounces⟩

end Compilation

/-! ## Generating -/

/-- The name of a type, and the number of its members. -/
def Model.count? (m : Model) (type : TypeId) : Option (String × Nat) :=
  (m.get? type).map fun T => (T.name, T.members.length)

/-- A draft after types were filled, of which each was told of once, with the number of members
that it has. -/
structure Draft.Recounts (d d' : Draft) (told : List TypeId) (events : List Trace.Event) :
    Prop where
  tracer : d'.tracer = d.tracer.noteAll events
  filled : ∀ i, i ∈ d'.filled ↔ i ∈ told ∨ i ∈ d.filled
  new : ∀ i ∈ told, i ∉ d.filled
  nodup : told.Nodup
  counts : events.filterMap Trace.Event.counted? = told.filterMap d'.model.count?
  other : ∀ ev ∈ events, ev.OfFilling

namespace Draft.Recounts

variable {d d₁ d₂ : Draft} {type : TypeId} {told later : List TypeId}
  {events more : List Trace.Event}

theorem refl (d : Draft) : d.Recounts d [] [] where
  tracer := rfl
  filled _ := ⟨.inr, fun h => h.resolve_left List.not_mem_nil⟩
  new _ h := absurd h List.not_mem_nil
  nodup := List.nodup_nil
  counts := rfl
  other _ h := absurd h List.not_mem_nil

/-- Changes that note nothing and fill no type. -/
theorem after (h : d₁.Recounts d₂ told events) (htracer : d₁.tracer = d.tracer)
    (hfilled : d₁.filled = d.filled) : d.Recounts d₂ told events where
  tracer := htracer ▸ h.tracer
  filled := hfilled ▸ h.filled
  new := hfilled ▸ h.new
  nodup := h.nodup
  counts := h.counts
  other := h.other

/-- A rule stands for its pattern. -/
theorem noteInlined {rule : Rule} (h : (d.noteInlined rule type).Recounts d₂ told events) :
    d.Recounts d₂ told
      (.ruleInlined rule.displayName (d.model.nameOf type) :: events) where
  tracer := h.tracer
  filled := h.filled
  new := h.new
  nodup := h.nodup
  counts := h.counts
  other := List.forall_mem_cons.mpr ⟨⟨rfl, rfl, rfl⟩, h.other⟩

/-- Types that were told of are as they were told of, if they stay as they are. -/
theorem trans (h : d.Recounts d₁ told events) (h' : d₁.Recounts d₂ later more)
    (hsame : ∀ i ∈ told, d₂.model.get? i = d₁.model.get? i) :
    d.Recounts d₂ (told ++ later) (events ++ more) where
  tracer := by rw [h'.tracer, h.tracer, Trace.Tracer.noteAll_append]
  filled i := by
    rw [h'.filled, h.filled, List.mem_append]
    tauto
  new i hi := by
    rcases List.mem_append.mp hi with hi | hi
    · exact h.new i hi
    · exact fun hmem => h'.new i hi ((h.filled i).mpr (.inr hmem))
  nodup := List.nodup_append.mpr ⟨h.nodup, h'.nodup, fun i hi j hj heq =>
    h'.new j hj ((h.filled j).mpr (.inl (heq ▸ hi)))⟩
  counts := by
    have hcounts : told.filterMap d₁.model.count? = told.filterMap d₂.model.count? :=
      List.filterMap_congr fun i hi => by rw [Model.count?, Model.count?, hsame i hi]
    rw [List.filterMap_append, List.filterMap_append, h.counts, h'.counts, hcounts]
  other := List.forall_mem_append.mpr ⟨h.other, h'.other⟩

/-- A type that was told of stays as it is while members are added to another that was being
filled all along. -/
theorem get?_eq (h : d.Recounts d₁ told events) (htype : type ∈ d.filled)
    (hframe : d₁.Frame type d₂) : ∀ i ∈ told, d₂.model.get? i = d₁.model.get? i := by
  intro i hi
  refine hframe.other i ?_ (.inl ((h.filled i).mpr (.inl hi)))
  rintro rfl
  exact h.new i hi htype

/-- A type is told of when it has been filled. -/
theorem noteMembers (hopen : type ∉ d.filled) (h : (d.markFilled type).Recounts d₁ told events) :
    d.Recounts (d₁.noteMembers type) (told ++ [type])
      (events ++ (d₁.model.count? type).toList.map Trace.Event.ofCount) where
  tracer := by
    have htracer : (d₁.noteMembers type).tracer =
        d₁.tracer.noteAll ((d₁.model.count? type).toList.map Trace.Event.ofCount) := by
      unfold Draft.noteMembers Model.count?
      cases d₁.model.get? type <;> rfl
    rw [htracer, h.tracer, Trace.Tracer.noteAll_append]
    rfl
  filled i := by
    rw [filled_noteMembers, h.filled, filled_markFilled, List.mem_append, List.mem_cons,
      List.mem_singleton]
    tauto
  new i hi := by
    rcases List.mem_append.mp hi with hi | hi
    · exact fun hmem => h.new i hi (List.mem_cons_of_mem _ hmem)
    · rwa [List.mem_singleton.mp hi]
  nodup := List.nodup_append.mpr ⟨h.nodup, List.nodup_singleton _, fun i hi j hj heq =>
    h.new i hi (List.mem_cons.mpr (.inl (heq.trans (List.mem_singleton.mp hj))))⟩
  counts := by
    rw [List.filterMap_append, List.filterMap_append, h.counts, model_noteMembers]
    cases hcount : d₁.model.count? type <;>
      simp [hcount, Trace.Event.ofCount, Trace.Event.counted?]
  other := by
    refine List.forall_mem_append.mpr ⟨h.other, fun ev hev => ?_⟩
    obtain ⟨count, -, rfl⟩ := List.mem_map.mp hev
    exact ⟨rfl, rfl, rfl⟩

end Draft.Recounts

/-- A walk tells of the types that it fills, and not of the type that it adds to. -/
theorem Walks.recounts {e : Expansion} {slots : List Slot} {target : Target} {d : Draft}
    {r : Outcome} (h : Walks e slots target d r) : target.type ∈ d.filled →
    ∀ inner d', r = .ok inner d' → ∃ told events, d.Recounts d' told events := by
  induction h with
  | nil =>
    rintro - _ _ ⟨⟩
    exact ⟨[], [], .refl _⟩
  | seen _ _ _ ih => exact ih
  | attr _ _ ih | elem _ _ _ ih =>
    intro htype inner d' heq
    obtain ⟨told, events, hrest⟩ := ih htype inner d' heq
    exact ⟨told, events, hrest.after rfl rfl⟩
  | @fill _ _ _ own _ _ target d d₁ _ _ _ hopen body tail ihbody ih =>
    rintro htype inner d' rfl
    obtain ⟨told, events, hbody⟩ := ihbody List.mem_cons_self _ d₁ rfl
    have hfill := hbody.noteMembers hopen
    have htype₁ : target.type ∈ (d₁.noteMembers own).filled := (hfill.filled _).mpr (.inr htype)
    obtain ⟨later, more, hrest⟩ := ih htype₁ inner d' rfl
    have hframe := (Draft.Frame.addMember _ _ _).trans tail.frame
    exact ⟨_, _, hfill.trans (hrest.after rfl rfl) (hfill.get?_eq htype hframe)⟩
  | @inherit _ _ _ _ parent _ target d _ _ _ _ _ ih =>
    intro htype inner d' heq
    have hfilled := d.filled_inherit target.type parent
    obtain ⟨told, events, hrest⟩ := ih (hfilled.symm ▸ htype) inner d' heq
    refine ⟨told, events, hrest.after ?_ hfilled⟩
    unfold Draft.inherit
    split <;> rfl
  | @splice _ _ _ _ inner₁ _ target d d₁ _ _ _ _ body tail ihbody ih =>
    rintro htype inner d' rfl
    obtain ⟨told, events, hbody⟩ := ihbody htype inner₁ d₁ rfl
    have hfirst := hbody.noteInlined
    have heq : (target.resume inner₁).type = target.type := body.type_eq
    have htype₁ : target.type ∈ d₁.filled := (hfirst.filled _).mpr (.inr htype)
    obtain ⟨later, more, hrest⟩ := ih (heq.symm ▸ htype₁) inner d' rfl
    have hframe : d₁.Frame target.type d' := heq ▸ tail.frame
    exact ⟨_, _, hfirst.trans hrest (hfirst.get?_eq htype hframe)⟩
  | fillFails | spliceFails | stuck => rintro - _ _ ⟨⟩

/-- Types that were told of stay as they are while others are filled. -/
theorem Draft.Recounts.get?_eq_of_frames {d d₁ d₂ : Draft} {told : List TypeId}
    {events : List Trace.Event} (h : d.Recounts d₁ told events)
    (hframe : ∀ type, d₁.Frame type d₂) : ∀ i ∈ told, d₂.model.get? i = d₁.model.get? i :=
  fun i hi => (hframe (i + 1)).other i (Nat.succ_ne_self i).symm
    (.inl ((h.filled i).mpr (.inl hi)))

theorem Fills.recounts {e : Expansion} {jobs : List (TypeId × List Slot)} {d d' : Draft}
    (h : Fills e jobs d (.ok () d')) : ∃ told events, d.Recounts d' told events := by
  generalize hr : (EStateM.Result.ok () d' : EStateM.Result Failure Draft Unit) = r at h
  induction h with
  | nil =>
    cases hr
    exact ⟨[], [], .refl _⟩
  | skip _ _ ih => exact ih hr
  | @fill type slots inner jobs d d₁ _ hopen body tail ih =>
    obtain ⟨told, events, hbody⟩ := body.recounts List.mem_cons_self inner d₁ rfl
    have hfill := hbody.noteMembers hopen
    obtain ⟨later, more, hrest⟩ := ih hr
    subst hr
    exact ⟨_, _, hfill.trans hrest (hfill.get?_eq_of_frames tail.frame)⟩
  | fails => cases hr

namespace Compilation

variable {c c' : Compilation} {id : RuleId}

theorem recounts_generate {done : Bool} (h : generate id c = .ok done c') :
    (∃ told events, c.draft.Recounts c'.draft told events) ∧
      ∀ type, c.draft.Frame type c'.draft := by
  obtain rfl | ⟨rule, d, -, -, hfills, rfl⟩ := of_generate h
  · exact ⟨⟨[], [], .refl _⟩, fun type => .refl type _⟩
  · exact ⟨hfills.recounts, hfills.frame⟩

theorem recounts_forEach : ∀ {ids : List RuleId} {c : Compilation},
    forEach generate ids c = .ok () c' →
    (∃ told events, c.draft.Recounts c'.draft told events) ∧
      ∀ type, c.draft.Frame type c'.draft
  | [], _, h => by
    cases h
    exact ⟨⟨[], [], .refl _⟩, fun type => .refl type _⟩
  | id :: ids, c, h => by
    obtain ⟨done, c₁, hgenerate, h⟩ := of_forEach_cons h
    obtain ⟨⟨told, events, hfirst⟩, hframe⟩ := recounts_generate hgenerate
    obtain ⟨⟨later, more, hrest⟩, hframe'⟩ := recounts_forEach h
    exact ⟨⟨_, _, hfirst.trans hrest (hfirst.get?_eq_of_frames hframe')⟩,
      fun type => (hframe type).trans (hframe' type)⟩

/-- Generating tells of the types that it fills. -/
theorem recounts_generateAll (h : generateAll c = .ok () c') :
    ∃ (c₁ : Compilation) (told : List TypeId) (events : List Trace.Event),
    c' = c₁.mapTracer Trace.Tracer.endPhase ∧
      (c.mapTracer (·.startPhase .generate)).draft.Recounts c₁.draft told events ∧
      ∀ type, (c.mapTracer (·.startPhase .generate)).draft.Frame type c₁.draft := by
  obtain ⟨c₁, hgenerate, rfl⟩ := exists_of_generateAll h
  obtain ⟨⟨told, events, hrecounts⟩, hframe⟩ := recounts_forEach hgenerate
  exact ⟨c₁, told, events, rfl, hrecounts, hframe⟩

end Compilation

/-! ## What is told of a model -/

/-- Events of filling types that tell of the types of a model, of each once, with the number of its
members, and of all that have got members or parents. -/
structure Model.ToldBy (m : Model) (told : List TypeId) (events : List Trace.Event) : Prop where
  nodup : told.Nodup
  counts : events.filterMap Trace.Event.counted? = told.filterMap m.count?
  complete : ∀ i T, m.get? i = some T → T.members ≠ [] ∨ T.parents ≠ [] → i ∈ told
  other : ∀ ev ∈ events, ev.OfFilling

namespace Model.ToldBy

variable {m : Model} {told : List TypeId} {events : List Trace.Event}

theorem mem_counts_iff (h : m.ToldBy told events) {name : String} {count : Nat} :
    (name, count) ∈ events.filterMap Trace.Event.counted? ↔
      ∃ i ∈ told, ∃ T, m.get? i = some T ∧ T.name = name ∧ T.members.length = count := by
  rw [h.counts]
  simp only [List.mem_filterMap, count?, Option.map_eq_some_iff, Prod.mk.injEq]

theorem nodup_names (h : m.ToldBy told events) (hnamed : m.Named) :
    ((events.filterMap Trace.Event.counted?).map Prod.fst).Nodup := by
  rw [h.counts, List.map_filterMap]
  refine h.nodup.filterMap fun i j name hi hj => ?_
  simp only [count?, Option.map_map, Option.mem_def, Option.map_eq_some_iff] at hi hj
  obtain ⟨T, hT, rfl⟩ := hi
  obtain ⟨T', hT', hname⟩ := hj
  exact hnamed.eq_of_name hT hT' hname.symm

theorem mem_names (h : m.ToldBy told events) {T : WriterType} (hT : T ∈ m.types)
    (hsome : T.members ≠ [] ∨ T.parents ≠ []) :
    T.name ∈ (events.filterMap Trace.Event.counted?).map Prod.fst := by
  obtain ⟨i, hi⟩ := List.mem_iff_getElem?.mp hT
  exact List.mem_map.mpr
    ⟨_, h.mem_counts_iff.mpr ⟨i, h.complete i T hi hsome, T, hi, rfl, rfl⟩, rfl⟩

theorem count_eq (h : m.ToldBy told events) (hnamed : m.Named) {name : String} {count : Nat}
    (hmem : (name, count) ∈ events.filterMap Trace.Event.counted?) :
    (∃ T ∈ m.types, T.name = name) ∧ ∀ T ∈ m.types, T.name = name → T.members.length = count := by
  obtain ⟨i, -, T, hT, rfl, rfl⟩ := h.mem_counts_iff.mp hmem
  refine ⟨⟨T, List.mem_of_getElem? hT, rfl⟩, fun T' hT' hname => ?_⟩
  obtain ⟨j, hj⟩ := List.mem_iff_getElem?.mp hT'
  obtain rfl := hnamed.eq_of_name hT hj hname.symm
  rw [Option.some.inj (hT.symm.trans hj)]

end Model.ToldBy

namespace Trace

/-- The records of a run tell what became of its rules : three blocks, one for each stage, where
the aliases are those of the rules that were reached, in order of discovery, the types those of the
model, in order, and the numbers of members those that the types have in the end. -/
structure Truthful (t : RuleTable) (entry : RuleId) (m : Model) (rs : List Record) : Prop where
  blocks : ∃ prepared declared generated rs₁ rs₂ rs₃, rs = rs₁ ++ (rs₂ ++ rs₃) ∧
    Block .prepare prepared rs₁ ∧ Block .declare declared rs₂ ∧ Block .generate generated rs₃
  aliases : ∃ order, t.reachable entry = .ok order ∧ order.Nodup ∧
    (∀ id, id ∈ order ↔ t.Reaches entry id) ∧
    (rs.filterMap fun r => r.event.aliased?) = order.filterMap (t.alias? t.isInline)
  types : (rs.filterMap fun r => r.event.declared?) = m.types.map fun T => (T.name, T.origin.text)
  /-- No type is told of twice. -/
  once : ((rs.filterMap fun r => r.event.counted?).map Prod.fst).Nodup
  told : ∀ T ∈ m.types, T.members ≠ [] ∨ T.parents ≠ [] →
    T.name ∈ (rs.filterMap fun r => r.event.counted?).map Prod.fst
  counts : ∀ name count, (name, count) ∈ (rs.filterMap fun r => r.event.counted?) →
    (∃ T ∈ m.types, T.name = name) ∧ ∀ T ∈ m.types, T.name = name → T.members.length = count

section

variable {aliases : List (String × String)} {types : List WriterType} {events : List Event}
  {rs₁ rs₂ rs₃ : List Record} (h₁ : Block .prepare (aliases.map Event.ofAlias) rs₁)
  (h₂ : Block .declare (types.map Event.ofType) rs₂) (h₃ : Block .generate events rs₃)
  (hother : ∀ ev ∈ events, ev.OfFilling)

include h₁ h₂ h₃

/-- What is read off the records of all stages is read off the events of each. -/
theorem filterMap_stages {α : Type} {f : Event → Option α} {xs ys zs : List α}
    (hmark : ∀ ev, ev.isMark = true → f ev = none)
    (hxs : (aliases.filterMap fun x => f (.ofAlias x)) = xs)
    (hys : (types.filterMap fun T => f (.ofType T)) = ys) (hzs : events.filterMap f = zs) :
    (rs₁ ++ (rs₂ ++ rs₃)).filterMap (fun r => f r.event) = xs ++ (ys ++ zs) := by
  subst hxs hys hzs
  rw [List.filterMap_append, List.filterMap_append, h₁.filterMap_event hmark,
    h₂.filterMap_event hmark, h₃.filterMap_event hmark, List.filterMap_map, List.filterMap_map]
  rfl

theorem counted?_stages : (rs₁ ++ (rs₂ ++ rs₃)).filterMap (fun r => r.event.counted?) =
    events.filterMap Event.counted? :=
  filterMap_stages h₁ h₂ h₃ (fun _ => Event.counted?_of_isMark)
    (List.filterMap_eq_nil_iff.mpr fun _ _ => rfl)
    (List.filterMap_eq_nil_iff.mpr fun _ _ => rfl) rfl

include hother

theorem aliased?_stages : (rs₁ ++ (rs₂ ++ rs₃)).filterMap (fun r => r.event.aliased?) =
    aliases := by
  have hstages := filterMap_stages h₁ h₂ h₃ (fun _ => Event.aliased?_of_isMark)
    List.filterMap_some (List.filterMap_eq_nil_iff.mpr fun _ _ => rfl)
    (List.filterMap_eq_nil_iff.mpr fun ev hev => (hother ev hev).aliased)
  rwa [List.append_nil, List.append_nil] at hstages

theorem declared?_stages : (rs₁ ++ (rs₂ ++ rs₃)).filterMap (fun r => r.event.declared?) =
    types.map fun T => (T.name, T.origin.text) := by
  have hstages := filterMap_stages h₁ h₂ h₃ (fun _ => Event.declared?_of_isMark)
    (List.filterMap_eq_nil_iff.mpr fun _ _ => rfl) (congrFun List.filterMap_eq_map types)
    (List.filterMap_eq_nil_iff.mpr fun ev hev => (hother ev hev).declared)
  rwa [List.nil_append, List.append_nil] at hstages

end

end Trace

/-! ## Whole runs -/

namespace Compilation

variable {c c' : Compilation} {t : RuleTable} {entry : RuleId} {options : CompileOptions}
  {tracer : Trace.Tracer} {m : Model}

/-- What running all stages notes, stage by stage. -/
theorem tracer_finish (hstart : start t entry options tracer = .ok c)
    (hfinish : finish c = .ok m c') : ∃ (told : List TypeId) (events : List Trace.Event),
    c'.tracer =
      ((tracer.during .prepare
          ((c.order.filterMap (t.alias? t.isInline)).map Trace.Event.ofAlias)).during .declare
        (m.types.map Trace.Event.ofType)).during .generate events ∧
    m.ToldBy told events := by
  have hstarted := started_of_start hstart
  obtain ⟨c₁, hdeclare, hgenerate, rfl⟩ := exists_of_finish hfinish
  obtain ⟨c₂, created, rfl, hannounces⟩ := announces_declareAll hdeclare
  obtain ⟨c₃, told, events, rfl, hrecounts, hframe⟩ := recounts_generateAll hgenerate
  have hinline : c.isInline = t.isInline := by
    rw [isInline_eq_table (hstarted.rules_eq.symm ▸ hstarted.inline_eq), hstarted.rules_eq]
  have hprepare := draft_prepare hstarted.region.nodup
  rw [hstarted.rules_eq, hinline, Compilation.tracer, hstarted.draft_eq] at hprepare
  have hcreated : c₂.model.types = created := by
    have htypes : c₂.model.types = c.prepare.draft.model.types ++ created := hannounces.types
    rwa [hprepare] at htypes
  have hnone : c₂.draft.filled = [] := by
    have hfilled : c₂.draft.filled = c.prepare.draft.filled := hannounces.filled
    rwa [hprepare] at hfilled
  refine ⟨told, events, ?_, ⟨hrecounts.nodup, hrecounts.counts, ?_, hrecounts.other⟩⟩
  · have htypes : c₃.model.types.map Trace.Event.ofType = created.map Trace.Event.ofType := by
      rw [← hcreated]
      exact (hframe 0).grows.map_eq (hframe 0).size fun _ _ hgrows => by
        rw [Trace.Event.ofType, Trace.Event.ofType, hgrows.name, hgrows.origin]
    have hdeclared : c₂.tracer.endPhase = (c.prepare.draft.tracer).during .declare
        (created.map Trace.Event.ofType) := congrArg Trace.Tracer.endPhase hannounces.tracer
    have hgenerated : c₃.tracer.endPhase = c₂.tracer.endPhase.during .generate events :=
      congrArg Trace.Tracer.endPhase hrecounts.tracer
    change c₃.tracer.endPhase =
      Trace.Tracer.during (Trace.Tracer.during _ _ (c₃.model.types.map Trace.Event.ofType)) _ _
    rw [hgenerated, hdeclared, hprepare, htypes]
    rfl
  · intro i T hT hsome
    by_contra hnot
    have hopen : i ∉ c₃.draft.filled := fun hmem =>
      ((hrecounts.filled i).mp hmem).elim hnot fun hmem => by
        change i ∈ c₂.draft.filled at hmem
        rw [hnone] at hmem
        cases hmem
    have hsame : c₂.model.get? i = some T :=
      ((hframe (i + 1)).other i (Nat.succ_ne_self i).symm (.inr hopen)).symm.trans hT
    have hmem : T ∈ created := hcreated ▸ List.mem_of_getElem? hsame
    obtain ⟨hmembers, hparents⟩ := hannounces.blank T hmem
    exact hsome.elim (· hmembers) (· hparents)

/-- After all stages, a trace that keeps everything and has room for all records that are made
tells what became of the rules. -/
theorem truthful_finish (hstart : start t entry options tracer = .ok c)
    (hfinish : finish c = .ok m c') (hkeeps : tracer.KeepsAll)
    (hroom : tracer.log.size + (c'.tracer.log.nextId - tracer.log.nextId) ≤ tracer.log.capacity) :
    ∃ added, c'.tracer.log.records = tracer.log.records ++ added ∧
      Trace.Truthful t entry m added := by
  have hregion := (started_of_start hstart).region
  have hnamed : m.Named := by
    obtain ⟨-, -, -, rfl⟩ := exists_of_finish hfinish
    exact (leads_finish hfinish).named (started_of_start hstart).named
  obtain ⟨told, events, htracer, htold⟩ := tracer_finish hstart hfinish
  obtain ⟨rs₁, rs₂, rs₃, hrecords, h₁, h₂, h₃⟩ := hkeeps.exists_blocks htracer hroom
    (List.forall_mem_map.mpr fun _ _ => rfl) (List.forall_mem_map.mpr fun _ _ => rfl)
    fun ev hev => (htold.other ev hev).inner
  have hcounted := Trace.counted?_stages h₁ h₂ h₃
  refine ⟨_, hrecords, ?_⟩
  constructor
  case blocks => exact ⟨_, _, _, rs₁, rs₂, rs₃, rfl, h₁, h₂, h₃⟩
  case aliases =>
    exact ⟨c.order, reachable_of_start hstart, hregion.nodup, fun id => hregion.mem_iff,
      Trace.aliased?_stages h₁ h₂ h₃ htold.other⟩
  case types => exact Trace.declared?_stages h₁ h₂ h₃ htold.other
  case once =>
    rw [hcounted]
    exact htold.nodup_names hnamed
  case told =>
    intro T hT hsome
    rw [hcounted]
    exact htold.mem_names hT hsome
  case counts =>
    intro name count hmem
    rw [hcounted] at hmem
    exact htold.count_eq hnamed hmem

end Compilation

/-- A document with an item that is referred to by a second name. -/
def RuleTable.secondName : RuleTable :=
  ⟨[(Rule.mentioned rootScope startName).define
      (.ofElement (.unqualified "doc")
        (.union .plain [.ofRule 1, .ofAttribute (.unqualified "id") .text])) none,
    (Rule.mentioned rootScope "entry").define (.ofRule 2) none,
    (Rule.mentioned rootScope "item").define
      (.union .plain [.ofAttribute (.unqualified "n") .text,
        .ofAttribute (.unqualified "lang") .text]) none]⟩

namespace Compilation

theorem truthful_finish_secondName : ∃ c m c',
    start .secondName 0 .standard (.new .keeping) = .ok c ∧ finish c = .ok m c' ∧
    (Trace.Tracer.new .keeping).KeepsAll ∧
    (Trace.Tracer.new .keeping).log.size +
        (c'.tracer.log.nextId - (Trace.Tracer.new .keeping).log.nextId) ≤
      (Trace.Tracer.new .keeping).log.capacity ∧
    RuleTable.secondName.alias? RuleTable.secondName.isInline 1 = some ("entry", "item") ∧
    ∃ added, c'.tracer.log.records = (Trace.Tracer.new .keeping).log.records ++ added ∧
      Trace.Truthful .secondName 0 m added := by
  have hok : succeedsWith .secondName 0 .standard (.new .keeping) (fun _ c' =>
      (Trace.Tracer.new .keeping).log.size +
        (c'.tracer.log.nextId - (Trace.Tracer.new .keeping).log.nextId) ≤
          (Trace.Tracer.new .keeping).log.capacity) = true := by
    decide +kernel
  obtain ⟨c, m, c', hstart, hfinish, hroom⟩ := exists_of_succeedsWith hok
  have hkeeps : (Trace.Tracer.new .keeping).KeepsAll := ⟨rfl, rfl⟩
  exact ⟨c, m, c', hstart, hfinish, hkeeps, of_decide_eq_true hroom, by decide,
    truthful_finish hstart hfinish hkeeps (of_decide_eq_true hroom)⟩

end Compilation

end MarkupTypes
