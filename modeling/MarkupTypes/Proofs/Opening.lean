import MarkupTypes.Proofs.Advances
import MarkupTypes.Proofs.Retyping

/-!
# Which types are filled

Generating a rule fills the types that the rule has to fill, and from a type that is filled it
goes on to the types of the elements that members are made for (`Expansion.Opened`). So a type
is filled for a reason that can be read off the rules, whichever rule was generated first
(`Walks.opens`).

This holds in between, too, while some rules have been generated and others have not even been
declared : whatever has been filled is as its content says, and stays so when more rules are
declared (`Compilation.Advancing`). At the end there are the same finished models as after all
stages have been run in order (`Compilation.Advancing.finished`).
-/

namespace MarkupTypes

/-! ## Types that rules lead to -/

/-- The types that some rules have to fill, and those of the elements that members are made for
in the content of such a type. -/
inductive Expansion.Opened (e : Expansion) (order : List RuleId) : TypeId → Prop
  | job {id rule job} (hid : id ∈ order) (hrule : e.rules.get? id = some rule)
    (hjob : job ∈ rule.jobs) : Opened e order job.1
  | element {type slots occ s own} (htype : Opened e order type)
    (howner : (type, slots) ∈ e.rules.owners)
    (hexpands : e.rules.Expands e.isInline slots occ) (hs : s ∈ firsts [] occ)
    (hown : s.own? = some own) : Opened e order own

/-- With a type, a set has the types of the elements that members of the type are made for. -/
def Expansion.LedBy (e : Expansion) (S : TypeId → Prop) : Prop :=
  ∀ type slots occ, S type → (type, slots) ∈ e.rules.owners →
    e.rules.Expands e.isInline slots occ → ∀ s ∈ firsts [] occ, ∀ own, s.own? = some own → S own

/-- A type of a set that was filled by a walk over its content, which ended. -/
def Expansion.Reached (e : Expansion) (S : TypeId → Prop) (type : TypeId) : Prop :=
  S type ∧ ∃ slots d inner d', (type, slots) ∈ e.rules.owners ∧
    Walks e slots (.new type) d (.ok inner d')

/-- A walk that ends fills types of a set only, where the elements that it makes members for
have types of that set. -/
theorem Walks.opens {e : Expansion} {S : TypeId → Prop} (hled : e.LedBy S) {slots : List Slot}
    {target : Target} {d : Draft} {r : Outcome} (h : Walks e slots target d r)
    (hwithin : e.Within slots) : ∀ inner d₁, r = .ok inner d₁ →
    ∃ occ, e.rules.Expands e.isInline slots occ ∧ Succeeds r (keys occ ++ target.seen) ∧
      ((∀ s ∈ firsts target.seen occ, ∀ own, s.own? = some own → S own) →
        ∀ type ∈ d₁.filled, type ∉ d.filled → e.Reached S type) := by
  induction h with
  | nil =>
    rintro _ _ ⟨⟩
    exact ⟨[], .nil, ⟨_, _, rfl, fun _ => Iff.rfl⟩, fun _ _ hmem hopen => absurd hmem hopen⟩
  | @seen slot _ _ _ _ _ hkey hseen _ ih =>
    intro inner d₁ heq
    obtain ⟨occ, hexpands, hnames, hreached⟩ := ih hwithin.tail inner d₁ heq
    refine ⟨slot :: occ, .keep (fun id hid => ?_) hexpands, hnames.skip hkey hseen, ?_⟩
    · rw [slot.rule?_of_key? hkey] at hid
      cases hid
    · rwa [firsts_cons_seen hkey hseen]
  | attr hnew _ ih =>
    intro inner d₁ heq
    obtain ⟨occ, hexpands, hnames, hreached⟩ := ih hwithin.tail inner d₁ heq
    refine ⟨_, .keep (fun _ hid => by cases hid) hexpands, hnames.cons rfl, fun hS => ?_⟩
    rw [firsts_cons_new rfl hnew] at hS
    exact hreached (List.forall_mem_cons.mp hS).2
  | elem hnew _ _ ih =>
    intro inner d₁ heq
    obtain ⟨occ, hexpands, hnames, hreached⟩ := ih hwithin.tail inner d₁ heq
    refine ⟨_, .keep (fun _ hid => by cases hid) hexpands, hnames.cons rfl, fun hS => ?_⟩
    rw [firsts_cons_new rfl hnew] at hS
    exact hreached (List.forall_mem_cons.mp hS).2
  | @fill tag content optional own inner₁ _ target d d₁ _ hnew houtput hopen body _ ihbody ih =>
    rintro inner d₂ rfl
    obtain ⟨occ₁, hexpands₁, -, hreached₁⟩ := ihbody (.of_element hwithin.mem) inner₁ d₁ rfl
    obtain ⟨occ, hexpands, hnames, hreached⟩ := ih hwithin.tail inner d₂ rfl
    refine ⟨_, .keep (fun _ hid => by cases hid) hexpands, hnames.cons rfl, fun hS => ?_⟩
    rw [firsts_cons_new rfl hnew] at hS
    obtain ⟨hfirst, hrest⟩ := List.forall_mem_cons.mp hS
    have hown : S own := hfirst own houtput
    have howner := RuleTable.mem_owners_of_element hwithin.mem houtput
    intro type htype hbefore
    by_cases hmem : type ∈ d₁.filled
    · by_cases heq : type = own
      · subst heq
        exact ⟨hown, _, _, _, _, howner, body⟩
      · exact hreached₁ (hled own _ occ₁ hown howner hexpands₁) type hmem fun hm =>
          (List.mem_cons.mp hm).elim heq hbefore
    · refine hreached hrest type htype ?_
      rwa [Draft.filled_addMember, Draft.filled_noteMembers]
  | @inherit id location optional rule parent _ target d _ hrule hinline houtput _ ih =>
    intro inner d₁ heq
    obtain ⟨occ, hexpands, hnames, hreached⟩ := ih hwithin.tail inner d₁ heq
    refine ⟨_, .keep (by rintro _ ⟨⟩; exact hinline) hexpands, hnames, ?_⟩
    intro hS type htype hopen
    refine hreached hS type htype ?_
    rwa [Draft.filled_inherit]
  | @splice id location optional rule inner₁ _ target d d₁ _ hrule hinline _ body _ ihbody ih =>
    rintro inner d₂ rfl
    obtain ⟨occ₁, hexpands₁, ⟨_, _, ⟨⟩, hnames₁⟩, hreached₁⟩ :=
      ihbody (.of_rule hrule) inner₁ d₁ rfl
    obtain ⟨occ, hexpands, hnames, hreached⟩ := ih hwithin.tail inner d₂ rfl
    refine ⟨_, .splice hrule hinline hexpands₁ hexpands, hnames.append hnames₁, fun hS => ?_⟩
    rw [firsts_append] at hS
    obtain ⟨hfirst, hrest⟩ := List.forall_mem_append.mp hS
    have hseen : firsts (target.resume inner₁).seen occ = firsts (keys occ₁ ++ target.seen) occ :=
      firsts_congr hnames₁ occ
    rw [← hseen] at hrest
    intro type htype hbefore
    by_cases hmem : type ∈ d₁.filled
    · exact hreached₁ hfirst type hmem hbefore
    · exact hreached hrest type htype hmem
  | fillFails | spliceFails | stuck => rintro _ _ ⟨⟩

/-- Filling types leads to these types, and to those that they lead to. -/
theorem Fills.opens {e : Expansion} {S : TypeId → Prop} (hled : e.LedBy S)
    {jobs : List (TypeId × List Slot)} {d d' : Draft} (h : Fills e jobs d (.ok () d'))
    (hwithin : ∀ job ∈ jobs, e.Within job.2)
    (hjobs : ∀ job ∈ jobs, S job.1 ∧ job ∈ e.rules.owners) :
    ∀ type ∈ d'.filled, type ∉ d.filled → e.Reached S type := by
  generalize hr : (EStateM.Result.ok () d' : EStateM.Result Failure Draft Unit) = r at h
  induction h with
  | nil =>
    cases hr
    exact fun _ hmem hopen => absurd hmem hopen
  | skip _ _ ih =>
    exact ih (fun job hjob => hwithin job (List.mem_cons_of_mem _ hjob))
      (fun job hjob => hjobs job (List.mem_cons_of_mem _ hjob)) hr
  | @fill type slots inner jobs d d₁ _ _ body _ ih =>
    obtain ⟨htype, howner⟩ := hjobs _ List.mem_cons_self
    obtain ⟨occ, hexpands, -, hreached⟩ :=
      body.opens hled (hwithin _ List.mem_cons_self) inner d₁ rfl
    have hlater := ih (fun job hjob => hwithin job (List.mem_cons_of_mem _ hjob))
      (fun job hjob => hjobs job (List.mem_cons_of_mem _ hjob)) hr
    intro i hi hbefore
    by_cases hmem : i ∈ d₁.filled
    · by_cases heq : i = type
      · subst heq
        exact ⟨htype, slots, _, _, _, howner, body⟩
      · exact hreached (hled type slots occ htype howner hexpands) i hmem fun hm =>
          (List.mem_cons.mp hm).elim heq hbefore
    · refine hlater i hi ?_
      rwa [Draft.filled_noteMembers]
  | fails => cases hr

/-! ## No type is filled twice -/

theorem Walks.nodup_filled {e : Expansion} {slots : List Slot} {target : Target} {d : Draft}
    {r : Outcome} (h : Walks e slots target d r) (hd : d.filled.Nodup) :
    (endState r).filled.Nodup := by
  induction h with
  | nil | stuck => exact hd
  | seen _ _ _ ih | attr _ _ ih | elem _ _ _ ih => exact ih hd
  | fill _ _ hopen _ _ ihbody ih =>
    have hbody := ihbody (List.nodup_cons.mpr ⟨hopen, hd⟩)
    refine ih ?_
    rw [Draft.filled_addMember, Draft.filled_noteMembers]
    exact hbody
  | fillFails _ _ hopen _ ihbody => exact ihbody (List.nodup_cons.mpr ⟨hopen, hd⟩)
  | inherit _ _ _ _ ih =>
    refine ih ?_
    rwa [Draft.filled_inherit]
  | splice _ _ _ _ _ ihbody ih => exact ih (ihbody hd)
  | spliceFails _ _ _ _ ihbody => exact ihbody hd

theorem Fills.nodup_filled {e : Expansion} {jobs : List (TypeId × List Slot)} {d : Draft}
    {r : EStateM.Result Failure Draft Unit} (h : Fills e jobs d r) (hd : d.filled.Nodup) :
    (endState r).filled.Nodup := by
  induction h with
  | nil => exact hd
  | skip _ _ ih => exact ih hd
  | fill hopen body _ ih =>
    refine ih ?_
    rw [Draft.filled_noteMembers]
    exact body.nodup_filled (List.nodup_cons.mpr ⟨hopen, hd⟩)
  | fails hopen body => exact body.nodup_filled (List.nodup_cons.mpr ⟨hopen, hd⟩)

/-! ## Types that more declarations leave as they are -/

namespace Expansion

variable {σ : TypeId → TypeId} {e e' : Expansion} {order : List RuleId} {d d' : Draft}
  {type : TypeId} {slots slots' occ : List Slot}

/-- A type that rules lead to has been filled as its content says, and the content refers to
rules that have got their types. -/
def Accomplished (e : Expansion) (order : List RuleId) (d : Draft) (type : TypeId) : Prop :=
  e.Opened order type ∧ ∃ slots, (type, slots) ∈ e.rules.owners ∧ e.Populated d type slots ∧
    ∀ occ, e.rules.Expands e.isInline slots occ → e.Bound occ

theorem Accomplished.mono (h : e.Accomplished order d type)
    (hget : d'.model.get? type = d.model.get? type) (hfilled : d.filled ⊆ d'.filled) :
    e.Accomplished order d' type := by
  obtain ⟨hopened, slots, howner, hpopulated, hbound⟩ := h
  exact ⟨hopened, slots, howner, hpopulated.mono hget hfilled, hbound⟩

theorem Opened.retypes (h : e.Retypes σ e') (hopened : e.Opened order type) :
    e'.Opened order (σ type) := by
  induction hopened with
  | job hid hrule hjob =>
    obtain ⟨rule', hrule', hretypes⟩ := h.rules.rules _ _ hrule
    obtain ⟨job', hjob', heq⟩ := hretypes.jobs _ hjob
    rw [← heq]
    exact .job hid hrule' hjob'
  | element _ howner hexpands hs hown ih =>
    obtain ⟨slots', howner', hslots⟩ := h.rules.owners howner
    obtain ⟨occ', hexpands', hocc⟩ := h.expands hexpands hslots
    obtain ⟨s', hs', hretyped⟩ :=
      exists_of_forall₂_left ((Slot.likens_retyped σ).firsts hocc []) hs
    exact .element ih howner' hexpands' hs' (hretyped.own_eq hown)

/-- An element that a member was made for does not get a type later. -/
theorem Retypes.own_of_own (h : e.Retypes σ e') (hshaped : e'.Shaped) {s s' : Slot}
    (hs : s.Retyped σ s') (hwithin : s'.elements ⊆ e'.rules.elements) {x : Member}
    (hx : e.memberOf s = some x) {own : TypeId} (hown : s'.own? = some own) :
    ∃ own₀, s.own? = some own₀ ∧ own = σ own₀ := by
  cases hs with
  | attr | ref => cases hown
  | @elem tag tag' p p' optional hname hlabel houtput hp =>
    cases hnone : tag.output with
    | some own₀ =>
      have hown' : tag'.output = some own := hown
      rw [houtput own₀ hnone] at hown'
      exact ⟨own₀, hnone, (Option.some.inj hown').symm⟩
    | none =>
      have hcontent := hshaped (tag', p') (hwithin List.mem_cons_self) own hown
      rw [h.contentOf_eq hp] at hcontent
      rw [memberOf, partsOf, hcontent, hnone] at hx
      cases hx

/-- A type that has been filled is still as its content says when more rules have got types. -/
theorem Accomplished.retypes (h : e.Retypes id e') (hshaped : e'.Shaped)
    (hwithin : ∀ owner ∈ e'.rules.owners, e'.Within owner.2)
    (howners : ∀ owner ∈ e.rules.owners, owner ∈ e'.rules.owners)
    (haccomplished : e.Accomplished order d type) : e'.Accomplished order d type := by
  obtain ⟨hopened, slots, howner, ⟨T, occ, hT, hdescribes, hfilled⟩, hbound⟩ := haccomplished
  have howner' := howners _ howner
  obtain ⟨occ', hexpands', hocc⟩ := h.expands hdescribes.expands (forall₂_retyped_refl slots)
  have hbound' := hbound occ hdescribes.expands
  have hmembers := h.members_eq hocc hdescribes.members
  have hparents := h.parentsOf_eq hocc hbound'
  rw [Member.retype_id, List.map_id] at hmembers
  rw [List.map_id] at hparents
  refine ⟨hopened.retypes h, slots, howner', ⟨T, occ', hT, ⟨hexpands', hmembers, ?_⟩, ?_⟩, ?_⟩
  · rw [hparents]
    exact hdescribes.parents
  · intro s' hs' own hown
    obtain ⟨s, hs, hretyped⟩ :=
      exists_of_forall₂_right ((Slot.likens_retyped id).firsts hocc []) hs'
    have hmem : e.memberOf s ∈ T.members.map some := by
      rw [hdescribes.members]
      exact List.mem_map_of_mem hs
    obtain ⟨x, -, hx⟩ := List.mem_map.mp hmem
    have helements : s'.elements ⊆ e'.rules.elements :=
      hexpands'.elements_subset (hwithin _ howner') s' (mem_of_mem_firsts hs')
    obtain ⟨own₀, hown₀, heq⟩ := h.own_of_own hshaped hretyped helements hx.symm hown
    rw [heq]
    exact hfilled s hs own₀ hown₀
  · intro occ'' hexpands''
    obtain rfl := hexpands'.unique hexpands''
    exact h.bound hocc hbound'

end Expansion

namespace Pattern

variable {σ : TypeId → TypeId} {f : Nat → ElementTag → ElementTag}

mutual

/-- Elements without types may be given any. -/
theorem retyped_mapElements (hname : ∀ n tag, (f n tag).name = tag.name)
    (hlabel : ∀ n tag, (f n tag).label = tag.label) : ∀ (p : Pattern) (n : Nat) (outer : Bool),
    (∀ x ∈ p.elements, x.1.output = none) →
    List.Forall₂ (Slot.Retyped σ) (p.slots outer) ((p.mapElements f n).slots outer)
  | attr _ _ content, n, _, _ => .cons (.attr (skeleton_mapElements f hname content n)) .nil
  | elem _ tag content, n, _, hnone => by
    refine .cons (.elem (hname n tag) (hlabel n tag) (fun own hown => ?_)
      (skeleton_mapElements f hname content (n + 1))) .nil
    rw [hnone (tag, content) List.mem_cons_self] at hown
    cases hown
  | ref _ _ _, _, _, _ => .cons .ref .nil
  | union m ps, n, outer, hnone =>
    retyped_mapElementsAll hname hlabel ps n (outer || m.optional) hnone
  | empty _, _, _, _ => .nil
  | data _ _, _, _, _ => .nil
  | value _ _ _, _, _, _ => .nil
  | list _ _, _, _, _ => .nil

theorem retyped_mapElementsAll (hname : ∀ n tag, (f n tag).name = tag.name)
    (hlabel : ∀ n tag, (f n tag).label = tag.label) :
    ∀ (ps : List Pattern) (n : Nat) (outer : Bool), (∀ x ∈ elementsAll ps, x.1.output = none) →
    List.Forall₂ (Slot.Retyped σ) (slotsAll outer ps) (slotsAll outer (mapElementsAll f n ps))
  | [], _, _, _ => .nil
  | p :: ps, n, outer, hnone =>
    List.rel_append
      (retyped_mapElements hname hlabel p n outer fun x hx => hnone x (List.mem_append_left _ hx))
      (retyped_mapElementsAll hname hlabel ps _ outer fun x hx =>
        hnone x (List.mem_append_right _ hx))

end

theorem retyped_withTypes (types : List (Option TypeId)) (p : Pattern) (outer : Bool)
    (hnone : ∀ x ∈ p.elements, x.1.output = none) :
    List.Forall₂ (Slot.Retyped σ) (p.slots outer) ((p.withTypes types).slots outer) :=
  retyped_mapElements (f := fun n tag => { tag with output := types[n]?.join })
    (fun _ _ => rfl) (fun _ _ => rfl) p 0 outer hnone

end Pattern

namespace Compilation

variable {t : RuleTable} {entry : RuleId} {options : CompileOptions} {tracer : Trace.Tracer}
  {c c' : Compilation} {id : RuleId} {rule : Rule}

/-- Declaring a rule leaves other rules and types as they are. -/
theorem retypes_declareRule (h : Ordered c) (hrule : c.rules.get? id = some rule)
    (hstate : rule.state = .unprocessed) :
    c.expansion.Retypes (fun type => type) (c.declareRule id rule).expansion where
  inline := rfl
  returns := rfl
  rules := by
    have hnone := h.unprocessed id rule hrule hstate
    refine ⟨(keeps_of_change (.declare hrule hstate)).skeleton, fun i old hold => ?_⟩
    by_cases hi : i = id
    · subst hi
      obtain rfl := Option.some.inj (hrule.symm.trans hold)
      refine ⟨(c.declared i rule).1, RuleTable.get?_modify_self hrule, ?_⟩
      obtain ⟨hout, helements⟩ := List.append_eq_nil_iff.mp hnone
      constructor
      case slots =>
        intro outer
        rw [declared_eq]
        cases hp : rule.pattern with
        | none => simp [Rule.slots, hp]
        | some p =>
          have hopen : ∀ x ∈ p.elements, x.1.output = none := by
            rw [Rule.elements, hp] at helements
            exact List.filterMap_eq_nil_iff.mp helements
          simp only [Rule.slots, hp, Option.map_some]
          exact Pattern.retyped_withTypes _ p outer hopen
      case output =>
        intro type htype
        rw [htype] at hout
        cases hout
      case jobs =>
        intro job hjob
        have hmem := Rule.mem_types_of_mem_jobs hjob
        rw [hnone] at hmem
        cases hmem
      case owners =>
        intro owner howner
        have hmem := Rule.mem_types_of_mem_owners howner
        rw [hnone] at hmem
        cases hmem
    · exact ⟨old, (RuleTable.get?_modify_of_ne hi).trans hold, .of_eq rfl rfl⟩

theorem owners_declareRule (h : Ordered c) (hrule : c.rules.get? id = some rule)
    (hstate : rule.state = .unprocessed) :
    ∀ owner ∈ c.rules.owners, owner ∈ (c.declareRule id rule).rules.owners := by
  intro owner howner
  obtain ⟨old, hmem, howner⟩ := List.mem_flatMap.mp howner
  obtain ⟨i, hold⟩ := List.mem_iff_getElem?.mp hmem
  by_cases hi : i = id
  · subst hi
    obtain rfl := Option.some.inj (hrule.symm.trans hold)
    have hmem : owner.1 ∈ rule.types := by
      rw [← rule.map_fst_owners]
      exact List.mem_map_of_mem howner
    rw [h.unprocessed i rule hrule hstate] at hmem
    cases hmem
  · have hsame : (c.declareRule id rule).rules.get? i = some old :=
      (RuleTable.get?_modify_of_ne hi).trans hold
    exact List.mem_flatMap.mpr ⟨old, RuleTable.mem_of_get? hsame, howner⟩

/-- Counting a rule as generated leaves patterns and types as they are. -/
theorem retypes_markGenerated (c : Compilation) (id : RuleId) :
    c.expansion.Retypes (fun type => type) (c.markGenerated id).expansion where
  inline := rfl
  returns := rfl
  rules := by
    refine ⟨RuleTable.skeleton_modify fun _ _ => rfl, fun i old hold => ?_⟩
    by_cases hi : i = id
    · subst hi
      exact ⟨_, RuleTable.get?_modify_self hold, .of_eq rfl rfl⟩
    · exact ⟨old, (RuleTable.get?_modify_of_ne hi).trans hold, .of_eq rfl rfl⟩

/-! ## Compilations on their way -/

/-- Only rules that the entry reaches have been declared. -/
def Confined (c : Compilation) : Prop :=
  ∀ id rule, c.rules.get? id = some rule → rule.state ≠ .unprocessed → id ∈ c.order

theorem Confined.of_leads (h : Confined c') (hleads : Leads c c') : Confined c := by
  intro id rule hrule hstate
  obtain ⟨rule', hrule', hle⟩ := hleads.keeps.states id rule hrule
  rw [← hleads.keeps.order]
  exact h id rule' hrule' (ne_unprocessed_of_rank_le hle hstate)

/-- A compilation whose steps have all succeeded : each type that has been filled is as its
content says, and was filled once. -/
structure Advancing (c : Compilation) : Prop where
  accounted : Accounted c
  inline_eq : c.inline = c.rules.rules.map Rule.isInline
  region : c.rules.Region c.entry c.order
  filled : ∀ type ∈ c.draft.filled, c.expansion.Accomplished c.order c.draft type
  generated : ∀ id rule, c.rules.get? id = some rule → rule.state = .generated →
    ∀ job ∈ rule.jobs, job.1 ∈ c.draft.filled
  nodup : c.draft.filled.Nodup

theorem Started.advancing_prepare (h : Started t entry options tracer c) (hfresh : t.Fresh) :
    Advancing c.prepare := by
  have hleads := leads_prepare c
  have hprepared : c.prepare.rules.Fresh ∧ c.prepare.draft.filled = c.draft.filled :=
    fresh_foldl_prepareRule c.order (c.mapTracer (·.startPhase .prepare)) (h.rules_eq ▸ hfresh)
  have hfilled : c.prepare.draft.filled = [] := by
    rw [hprepared.2, h.draft_eq]
    rfl
  constructor
  case accounted => exact (h.accounted hfresh).leads hleads
  case inline_eq => exact hleads.keeps.inline_eq (h.rules_eq.symm ▸ h.inline_eq)
  case region =>
    rw [hleads.keeps.entry, hleads.keeps.order, h.entry_eq]
    exact h.region.of_skeleton_eq (h.skeleton_eq hleads)
  case filled =>
    intro type htype
    rw [hfilled] at htype
    cases htype
  case generated =>
    intro id rule hrule hstate
    rw [(hprepared.1 rule (RuleTable.mem_of_get? hrule)).1] at hstate
    cases hstate
  case nodup =>
    rw [hfilled]
    exact List.nodup_nil

theorem Advancing.declareRule (h : Advancing c) (hrule : c.rules.get? id = some rule)
    (hstate : rule.state = .unprocessed) : Advancing (c.declareRule id rule) := by
  have hleads : Leads c (c.declareRule id rule) := .single (.declare hrule hstate)
  have haccounted := h.accounted.leads hleads
  have hfilled : (c.declareRule id rule).draft.filled = c.draft.filled := declares_declared.filled
  constructor
  case accounted => exact haccounted
  case inline_eq => exact hleads.keeps.inline_eq h.inline_eq
  case region => exact h.region.of_skeleton_eq hleads.keeps.skeleton
  case filled =>
    intro type htype
    rw [hfilled] at htype
    have hbefore := (h.filled type htype).retypes
      (retypes_declareRule h.accounted.sound.toOrdered hrule hstate)
      haccounted.sound.shaped (fun _ howner => within_of_mem_owners howner)
      (owners_declareRule h.accounted.sound.toOrdered hrule hstate)
    refine hbefore.mono (hleads.get?_eq h.accounted htype) ?_
    rw [hfilled]
    exact List.Subset.refl _
  case generated =>
    intro i rule' hrule' hgenerated
    rw [hfilled]
    exact h.generated i rule' (get?_of_declareRule hrule' hgenerated) hgenerated
  case nodup =>
    rw [hfilled]
    exact h.nodup

/-- The types that are filled for a rule are as their contents say. -/
theorem Advancing.accomplished_of_fills (h : Advancing c) (hid : id ∈ c.order)
    (hrule : c.rules.get? id = some rule) {d : Draft}
    (hfills : Fills c.expansion rule.jobs c.draft (.ok () d)) :
    ∀ type ∈ d.filled, c.expansion.Accomplished c.order d type := by
  obtain ⟨hcompletes, -⟩ := h.accounted.sound.completes hrule hfills
  have hreached := hfills.opens (S := c.expansion.Opened c.order)
    (fun _ _ _ htype howner hexpands _ hs _ hown => .element htype howner hexpands hs hown)
    (fun _ hjob => Rule.within_of_mem_jobs (RuleTable.mem_of_get? hrule) hjob)
    fun job hjob => ⟨.job hid hrule hjob, RuleTable.mem_owners_of_mem_jobs hrule hjob⟩
  intro type htype
  by_cases hbefore : type ∈ c.draft.filled
  · have hframe := hfills.frame (type + 1)
    exact (h.filled type hbefore).mono
      (hframe.other type (Nat.ne_of_lt (Nat.lt_succ_self type)) (.inl hbefore)) hframe.filled
  · obtain ⟨slots, howner, hpopulated⟩ := hcompletes type htype hbefore
    obtain ⟨hopened, slots', _, _, _, howner', body⟩ := hreached type htype hbefore
    obtain rfl := RuleTable.owners_unique h.accounted.sound.nodup howner howner'
    exact ⟨hopened, slots, howner, hpopulated, fun occ hexpands => body.output_of_ok hexpands⟩

theorem Advancing.generate (h : Advancing c) (hid : id ∈ c.order)
    (hrule : c.rules.get? id = some rule) (hstate : rule.state = .declared) {d : Draft}
    (hfills : Fills c.expansion rule.jobs c.draft (.ok () d)) :
    Advancing (markGenerated { c with draft := d } id) := by
  have hfilling : Leads c { c with draft := d } := .single (.fill hrule hstate hfills)
  have hleads : Leads c (markGenerated { c with draft := d } id) :=
    hfilling.tail (.generated hrule hstate)
  have haccounted := h.accounted.leads hleads
  constructor
  case accounted => exact haccounted
  case inline_eq => exact hleads.keeps.inline_eq h.inline_eq
  case region => exact h.region.of_skeleton_eq hleads.keeps.skeleton
  case filled =>
    intro type htype
    have hdone := h.accomplished_of_fills hid hrule hfills type htype
    refine hdone.retypes (retypes_markGenerated { c with draft := d } id)
      haccounted.sound.shaped (fun _ howner => within_of_mem_owners howner) ?_
    intro owner howner
    change owner ∈ (markGenerated { c with draft := d } id).rules.owners
    rw [owners_markGenerated]
    exact howner
  case generated =>
    intro i rule' hrule' hgenerated job hjob
    obtain ⟨rfl, old, hold, rfl⟩ | ⟨-, hold⟩ := RuleTable.get?_modify_cases hrule'
    · obtain rfl : rule = old := Option.some.inj (hrule.symm.trans hold)
      exact (h.accounted.sound.completes hrule hfills).2 job hjob
    · exact (hfills.frame 0).filled (h.generated i rule' hold hgenerated job hjob)
  case nodup => exact hfills.nodup_filled h.nodup

theorem Advancing.advance (h : Advancing c) (hconfined : Confined c) (hmove : Advance c c') :
    Advancing c' := by
  have hleads := hmove.leads
  cases hmove with
  | trace f =>
    exact ⟨h.accounted.leads hleads, h.inline_eq, h.region, h.filled, h.generated, h.nodup⟩
  | root =>
    exact ⟨h.accounted.leads hleads, h.inline_eq, h.region,
      fun type htype => (h.filled type htype).mono rfl (List.Subset.refl _), h.generated, h.nodup⟩
  | declare hrule hstate => exact h.declareRule hrule hstate
  | generate hrule hstate hfills =>
    refine h.generate (hconfined _ _ hrule ?_) hrule hstate hfills
    rw [hstate]
    exact fun heq => nomatch heq

theorem Advancing.advances (h : Advancing c) (hadvances : Advances c c') (hconfined : Confined c') :
    Advancing c' := by
  induction hadvances with
  | refl => exact h
  | tail _ hlast ih =>
    have hbefore := hconfined.of_leads hlast.leads
    exact (ih hbefore).advance hbefore hlast

/-! ## Finished compilations -/

/-- A compilation with all rules generated, by moves of which none failed, is finished once the
type that documents start from has been settled. -/
theorem Advancing.finished (h : Advancing c) (hconfined : Confined c)
    (hskeleton : c.rules.skeleton = t.skeleton)
    (horder : ∀ id, id ∈ c.order ↔ t.Reaches c.entry id)
    (hgenerated : ∀ id ∈ c.order, ∀ rule, c.rules.get? id = some rule → rule.state = .generated) :
    Finished t c.entry c.settleRoot where
  generating := by
    have hleads : Leads c c.settleRoot := .single .root
    constructor
    case sound => exact hleads.sound h.accounted.sound
    case inline_eq => exact h.inline_eq
    case region => exact h.region
    case declared =>
      intro id hid rule hrule
      rw [hgenerated id hid rule hrule]
      exact fun heq => nomatch heq
    case confined => exact hconfined
    case complete =>
      intro type htype
      obtain ⟨-, slots, howner, hpopulated, -⟩ := h.filled type htype
      exact ⟨slots, howner, hpopulated.mono rfl (List.Subset.refl _)⟩
    case generated => exact h.generated
    case rooted => rfl
  skeleton := hskeleton
  mem_order := horder
  entry_eq := rfl
  generated := hgenerated

/-- Running all stages is a series of moves. -/
theorem advances_finish {m : Model} (hfinish : finish c = .ok m c') : Advances c.prepare c' := by
  obtain ⟨c₁, hdeclare, hgenerate, -⟩ := exists_of_finish hfinish
  have hdeclared := carries_declareAll c.prepare
  have hgenerated := carries_generateAll c₁
  rw [hdeclare] at hdeclared
  rw [hgenerate] at hgenerated
  exact Relation.ReflTransGen.trans hdeclared hgenerated

theorem advancing_of_finish (hfresh : t.Fresh) (hstart : start t entry options tracer = .ok c)
    {m : Model} (hfinish : finish c = .ok m c') : Advancing c' := by
  obtain ⟨-, h⟩ := finished_of_finish hfresh hstart hfinish
  exact ((started_of_start hstart).advancing_prepare hfresh).advances (advances_finish hfinish)
    h.generating.confined

/-- In a finished compilation, the types that rules lead to have been filled, and no others. -/
theorem Finished.mem_filled_iff (h : Finished t entry c) (hadvancing : Advancing c)
    (type : TypeId) : type ∈ c.draft.filled ↔ c.expansion.Opened c.order type := by
  constructor
  · exact fun htype => (hadvancing.filled type htype).1
  · intro hopened
    induction hopened with
    | job hid hrule hjob =>
      exact h.generating.generated _ _ hrule (h.generated _ hid _ hrule) _ hjob
    | element _ howner hexpands hs hown ih =>
      obtain ⟨T, occ, -, hdescribes, hfilled⟩ := h.generating.populated ih howner
      obtain rfl := hexpands.unique hdescribes.expands
      exact hfilled _ hs _ hown

end Compilation

end MarkupTypes
