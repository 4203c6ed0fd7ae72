import MarkupTypes.Proofs.Runs

/-!
# Integrity of models

What holds of the model after any run, whatever steps it took and whichever of them failed,
where no rule and no element had a type before the run (`Compilation.integral_afterAll`) : types
are numbered in order, no type has two members of one kind and name or is its own parent, every
id that occurs is of a type that exists, and members are of the shape that their kind asks for.

A type gets its members in one go, when it is filled, and its target has seen the members
that it has got (`Target.Covers`). A type that has not been filled is blank
(`Draft.Sound`), and the type at hand has been, so what is filled in between leaves it alone.
-/

namespace MarkupTypes

/-! ## Value types -/

namespace TextScan

theorem nodup_addType {types : List ValueType} {type : ValueType} (h : types.Nodup) :
    (addType types type).Nodup := by
  unfold addType
  split
  · exact h
  · next hnew =>
    refine List.nodup_append.mpr ⟨h, List.nodup_singleton type, ?_⟩
    rintro a ha b hb rfl
    rw [List.mem_singleton] at hb
    exact hnew (hb ▸ ha)

theorem nodup_foldl_addType (more : List ValueType) {types : List ValueType} (h : types.Nodup) :
    (more.foldl addType types).Nodup := by
  induction more generalizing types with
  | nil => exact h
  | cons type more ih => exact ih (nodup_addType h)

end TextScan

namespace Pattern

variable {follow : RuleId → List ValueType → TextScan}

mutual

theorem nodup_scan (hfollow : ∀ id {types}, types.Nodup → (follow id types).values.Nodup) :
    ∀ (p : Pattern) {types : List ValueType}, types.Nodup → (p.scan follow types).values.Nodup
  | empty _, _, h => h
  | data _ _, _, h => TextScan.nodup_addType h
  | value _ _ _, _, h => TextScan.nodup_addType h
  | attr _ _ _, _, h => h
  | elem _ _ _, _, h => h
  | ref _ rule _, _, h => hfollow rule h
  | union _ ps, _, h => nodup_scanAll hfollow ps h
  | list _ item, _, h => by
    simp only [scan]
    split
    · exact TextScan.nodup_foldl_addType _ h
    · exact h

theorem nodup_scanAll (hfollow : ∀ id {types}, types.Nodup → (follow id types).values.Nodup) :
    ∀ (ps : List Pattern) {types : List ValueType}, types.Nodup →
    (scanAll follow ps types).values.Nodup
  | [], _, h => h
  | p :: ps, _, h => by
    have hfirst := nodup_scan hfollow p h
    simp only [scanAll]
    split
    · exact nodup_scanAll hfollow ps hfirst
    · exact hfirst

end

end Pattern

namespace RuleTable

theorem nodup_followWithin (t : RuleTable) {beyond : RuleId → List ValueType → TextScan}
    (hbeyond : ∀ id {types}, types.Nodup → (beyond id types).values.Nodup) (n : Nat)
    (inside : List RuleId) (id : RuleId) {types : List ValueType} (h : types.Nodup) :
    (t.followWithin beyond n inside id types).values.Nodup := by
  induction n generalizing inside id types with
  | zero => exact hbeyond id h
  | succ n ih =>
    simp only [followWithin]
    split
    · exact h
    · split
      · exact h
      · next p _ => exact p.nodup_scan (fun id _ htypes => ih _ id htypes) h

/-- A scan lists no type twice. -/
theorem nodup_scan (t : RuleTable) (p : Pattern) : (t.scan p).values.Nodup :=
  p.nodup_scan (fun id _ h => t.nodup_followWithin (fun _ _ h => h) _ [] id h) List.nodup_nil

theorem nodup_of_contentOf {t : RuleTable} {isInline : RuleId → Bool} {p : Pattern}
    {types : List ValueType} (h : t.contentOf isInline p = .values types) : types.Nodup := by
  have hnodup := t.nodup_scan p
  unfold contentOf at h
  split at h
  · cases h
  · simp only at h
    split at h
    · split at h
      · cases h
      · cases h
        exact hnodup
    · split at h
      · split at h <;> cases h
      · cases h

end RuleTable

/-! ## Sound types -/

/-- There is a type of an id. -/
def Model.Has (m : Model) (type : TypeId) : Prop := ∃ T, m.get? type = some T

theorem Model.Has.lt_size {m : Model} {type : TypeId} (h : m.Has type) : type < m.size := by
  obtain ⟨T, hT⟩ := h
  exact (List.getElem?_eq_some_iff.mp hT).1

theorem Model.Has.mono {m m' : Model} {type : TypeId} (h : m.Has type) (hm : m.Grows m') :
    m'.Has type := by
  obtain ⟨T, hT⟩ := h
  obtain ⟨T', hT', -⟩ := hm _ _ hT
  exact ⟨T', hT'⟩

theorem Model.HasOrigin.has {m : Model} {type : TypeId} {origin : Origin}
    (h : m.HasOrigin type origin) : m.Has type := by
  obtain ⟨T, hT, -⟩ := h
  exact ⟨T, hT⟩

/-- A member as its kind asks for. -/
structure Member.Sound (m : Model) (x : Member) : Prop where
  values : x.values.Nodup
  content : ∀ type, x.content = some type → m.Has type
  attr : x.kind = .attr → x.content = none ∧ x.values ≠ []
  elem : x.kind = .elem → x.values = [] ∨ x.content = none

/-- A type with members of different names, and with parents that were made for rules. -/
structure WriterType.Sound (m : Model) (i : TypeId) (T : WriterType) : Prop where
  id : T.id = i
  keys : (T.members.map Member.key).Nodup
  members : ∀ x ∈ T.members, x.Sound m
  parents : ∀ parent ∈ T.parents, parent ≠ i ∧ ∃ key, m.HasOrigin parent (.rule key)

theorem Member.Sound.mono {m m' : Model} {x : Member} (h : x.Sound m) (hm : m.Grows m') :
    x.Sound m' :=
  ⟨h.values, fun type htype => (h.content type htype).mono hm, h.attr, h.elem⟩

namespace WriterType.Sound

variable {m m' : Model} {i : TypeId} {T : WriterType}

theorem mono (h : T.Sound m i) (hm : m.Grows m') : T.Sound m' i where
  id := h.id
  keys := h.keys
  members x hx := (h.members x hx).mono hm
  parents parent hparent := by
    obtain ⟨hne, key, horigin⟩ := h.parents parent hparent
    exact ⟨hne, key, horigin.mono hm⟩

theorem new (m : Model) (i : TypeId) (name : String) (origin : Origin) :
    (WriterType.new i name origin).Sound m i :=
  ⟨rfl, List.nodup_nil, fun _ h => absurd h List.not_mem_nil, fun _ h => absurd h List.not_mem_nil⟩

theorem addMember (h : T.Sound m i) {x : Member} (hx : x.Sound m)
    (hnew : ∀ y ∈ T.members, y.key ≠ x.key) : (T.addMember x).Sound m i where
  id := h.id
  keys := by
    simp only [WriterType.addMember, List.map_append, List.map_cons, List.map_nil]
    refine List.nodup_append.mpr ⟨h.keys, List.nodup_singleton _, ?_⟩
    intro a ha b hb
    obtain ⟨y, hy, rfl⟩ := List.mem_map.mp ha
    rw [List.mem_singleton.mp hb]
    exact hnew y hy
  members y hy := by
    rcases List.mem_append.mp hy with hy | hy
    · exact h.members y hy
    · rwa [List.mem_singleton.mp hy]
  parents := h.parents

theorem addParent (h : T.Sound m i) {parent : TypeId} (hne : parent ≠ i)
    (hparent : ∃ key, m.HasOrigin parent (.rule key)) : (T.addParent parent).Sound m i where
  id := h.id
  keys := h.keys
  members := h.members
  parents q hq := by
    rcases mem_insertId.mp hq with rfl | hq
    · exact ⟨hne, hparent⟩
    · exact h.parents q hq

end WriterType.Sound

/-- Sound types, of which those that have not been filled are blank. -/
structure Draft.Sound (d : Draft) : Prop where
  types : ∀ i T, d.model.get? i = some T → T.Sound d.model i
  blank : ∀ i T, d.model.get? i = some T → i ∉ d.filled → T.members = [] ∧ T.parents = []

namespace Draft.Sound

variable {d d' : Draft} {type : TypeId}

theorem of_eq (h : d.Sound) (hmodel : d'.model = d.model) (hfilled : d.filled ⊆ d'.filled) :
    d'.Sound where
  types i T hT := by
    rw [hmodel] at hT ⊢
    exact h.types i T hT
  blank i T hT hi := by
    rw [hmodel] at hT
    exact h.blank i T hT fun hm => hi (hfilled hm)

/-- A change of a type that has been filled. -/
theorem of_modify (h : d.Sound) (f : WriterType → WriterType)
    (hgrows : ∀ T, WriterType.Grows T (f T)) (hmodel : d'.model = d.model.modify type f)
    (hfilled : d'.filled = d.filled) (htype : type ∈ d.filled)
    (hf : ∀ T, d.model.get? type = some T → T.Sound d.model type → (f T).Sound d.model type) :
    d'.Sound := by
  have hm : d.model.Grows d'.model := (Frame.of_modify f hgrows hmodel hfilled).grows
  constructor
  case types =>
    intro i T hT
    rw [hmodel] at hT
    by_cases hi : i = type
    · subst hi
      rw [Model.get?_modify_self] at hT
      obtain ⟨old, hold, rfl⟩ := Option.map_eq_some_iff.mp hT
      exact (hf old hold (h.types i old hold)).mono hm
    · rw [Model.get?_modify_of_ne _ _ hi] at hT
      exact (h.types i T hT).mono hm
  case blank =>
    intro i T hT hopen
    rw [hfilled] at hopen
    have hi : i ≠ type := fun heq => hopen (heq ▸ htype)
    rw [hmodel, Model.get?_modify_of_ne _ _ hi] at hT
    exact h.blank i T hT hopen

theorem markFilled (h : d.Sound) (type : TypeId) : (d.markFilled type).Sound :=
  h.of_eq rfl (List.subset_cons_self _ _)

theorem noteMembers (h : d.Sound) (type : TypeId) : (d.noteMembers type).Sound :=
  h.of_eq (by simp) (by simp)

theorem inherit (h : d.Sound) (htype : type ∈ d.filled) {parent : TypeId}
    (hparent : ∃ key, d.model.HasOrigin parent (.rule key)) : (d.inherit type parent).Sound := by
  by_cases heq : parent = type
  · exact h.of_eq (by simp [model_inherit, heq]) (by simp)
  · exact h.of_modify (·.addParent parent) (fun T => .addParent T parent)
      (by simp [model_inherit, heq]) (by simp) htype fun T _ hT => hT.addParent heq hparent

/-- New types are blank. -/
theorem declares (h : d.Sound) (hd : d.Declares d') : d'.Sound where
  types i T hT := by
    rcases Nat.lt_or_ge i d.model.size with hlt | hge
    · rw [hd.old i hlt] at hT
      exact (h.types i T hT).mono hd.grows
    · obtain ⟨name, origin, rfl⟩ := hd.blank i T hge hT
      exact .new _ _ _ _
  blank i T hT hopen := by
    rcases Nat.lt_or_ge i d.model.size with hlt | hge
    · rw [hd.old i hlt] at hT
      rw [hd.filled] at hopen
      exact h.blank i T hT hopen
    · obtain ⟨name, origin, rfl⟩ := hd.blank i T hge hT
      exact ⟨rfl, rfl⟩

end Draft.Sound

/-! ## Filling types -/

/-- The types that rules and elements have got exist, and those of rules were made for
them. -/
structure RuleTable.Typed (t : RuleTable) (m : Model) : Prop where
  rule : ∀ id rule type, t.get? id = some rule → rule.output = some type →
    m.HasOrigin type (.rule rule.key)
  element : ∀ x ∈ t.elements, ∀ type, x.1.output = some type → m.Has type

theorem RuleTable.Typed.mono {t : RuleTable} {m m' : Model} (h : t.Typed m) (hm : m.Grows m') :
    t.Typed m' where
  rule id rule type hrule htype := (h.rule id rule type hrule htype).mono hm
  element x hx type htype := (h.element x hx type htype).mono hm

/-- The type of a target has no members but those that the target has seen. -/
def Target.Covers (target : Target) (d : Draft) : Prop :=
  ∀ T, d.model.get? target.type = some T → ∀ x ∈ T.members, x.key ∈ target.seen

namespace Expansion

variable {e : Expansion}

theorem sound_attributeMember (m : Model) (tag : AttributeTag) (content : Pattern)
    (optional : Bool) : (e.attributeMember tag content optional).Sound m where
  values := by
    have hnodup := e.rules.nodup_scan content
    simp only [attributeMember, attributeValues]
    split
    · exact List.nodup_singleton _
    · exact hnodup
  content _ h := by cases h
  attr _ := by
    refine ⟨rfl, ?_⟩
    simp only [attributeMember, attributeValues]
    split
    · simp
    · next hne => exact fun heq => hne (List.isEmpty_iff.mpr heq)
  elem h := by cases h

/-- What is known of an element makes a member as it must be. -/
theorem Settled.sound {d : Draft} {tag : ElementTag} {content : Pattern}
    {parts : List ValueType × Option TypeId} (h : e.Settled d tag content parts)
    (htyped : e.rules.Typed d.model) (hmem : (tag, content) ∈ e.rules.elements)
    (optional : Bool) : (e.elementMember tag parts optional).Sound d.model := by
  have hown : ∀ type, d.model.Has type →
      (e.elementMember tag ([], some type) optional).Sound d.model := fun type htype => by
    refine ⟨List.nodup_nil, ?_, fun hkind => (by cases hkind), fun _ => .inl rfl⟩
    rintro _ ⟨⟩
    exact htype
  have hplain : ∀ types : List ValueType, types.Nodup →
      (e.elementMember tag (types, none) optional).Sound d.model := fun types htypes =>
    ⟨htypes, fun _ h => (by cases h), fun hkind => (by cases hkind), fun _ => .inr rfl⟩
  cases h with
  | @own type houtput hfilled => exact hown type (htyped.element _ hmem _ houtput)
  | other houtput hparts =>
    have hparts := e.partsOf_of_elementParts hparts
    unfold partsOf at hparts
    split at hparts
    · cases hparts
      exact hplain [] List.nodup_nil
    · next types hvalues =>
      cases hparts
      exact hplain types (RuleTable.nodup_of_contentOf hvalues)
    · obtain ⟨type, hout, rfl⟩ := Option.map_eq_some_iff.mp hparts
      obtain ⟨rule, hrule, hout⟩ := Option.bind_eq_some_iff.mp hout
      exact hown type (htyped.rule _ rule type hrule hout).has
    · rw [houtput] at hparts
      cases hparts

/-- An element whose type was filled in between is as one whose type had been filled before. -/
theorem Settled.of_frame {d d₁ : Draft} {tag : ElementTag} {content : Pattern} {own : TypeId}
    (houtput : tag.output = some own) (hframe : (d.markFilled own).Frame own d₁) :
    e.Settled (d₁.noteMembers own) tag content ([], some own) := by
  refine .own houtput ?_
  rw [Draft.filled_noteMembers]
  exact hframe.filled List.mem_cons_self

end Expansion

theorem Target.Covers.of_get?_eq {target : Target} {d d' : Draft} (h : target.Covers d)
    (hget : d'.model.get? target.type = d.model.get? target.type) : target.Covers d' :=
  fun T hT => h T (hget ▸ hT)

/-- What holds while a type is filled. -/
structure Expansion.Filling (e : Expansion) (target : Target) (d : Draft) : Prop where
  typed : e.rules.Typed d.model
  sound : d.Sound
  filled : target.type ∈ d.filled
  covers : target.Covers d

namespace Expansion.Filling

variable {e : Expansion} {target inner : Target} {d d₁ : Draft} {own : TypeId}

theorem addMember (h : e.Filling target d) (x : Member) (hnew : x.key ∉ target.seen)
    (hx : x.Sound d.model) : e.Filling (target.see x.kind x.name) (d.addMember target.type x) where
  typed := h.typed.mono (Draft.Frame.addMember _ _ _).grows
  sound := by
    refine h.sound.of_modify (·.addMember x) (fun T => .addMember T x) rfl rfl h.filled
      fun T hget hT => hT.addMember hx fun y hy heq => hnew ?_
    rw [← heq]
    exact h.covers T hget y hy
  filled := h.filled
  covers T hT y hy := by
    have hT' : (d.model.get? target.type).map (·.addMember x) = some T := by
      rw [← Model.get?_modify_self]
      exact hT
    obtain ⟨old, hold, rfl⟩ := Option.map_eq_some_iff.mp hT'
    rcases List.mem_append.mp hy with hy | hy
    · exact List.mem_cons_of_mem _ (h.covers old hold y hy)
    · rw [List.mem_singleton.mp hy]
      exact List.mem_cons_self

theorem inherit (h : e.Filling target d) {id : RuleId} {rule : Rule} {parent : TypeId}
    (hrule : e.rules.get? id = some rule) (houtput : rule.output = some parent) :
    e.Filling target (d.inherit target.type parent) where
  typed := h.typed.mono (Draft.Frame.inherit _ _ _).grows
  sound := h.sound.inherit h.filled ⟨rule.key, h.typed.rule id rule parent hrule houtput⟩
  filled := by
    rw [Draft.filled_inherit]
    exact h.filled
  covers T hT x hx := by
    rw [Draft.model_inherit] at hT
    split at hT
    · exact h.covers T hT x hx
    · rw [Model.get?_modify_self] at hT
      obtain ⟨old, hold, rfl⟩ := Option.map_eq_some_iff.mp hT
      exact h.covers old hold x hx

/-- A type that was not filled before is blank. -/
theorem new (htyped : e.rules.Typed d.model) (hsound : d.Sound) (hopen : own ∉ d.filled) :
    e.Filling (.new own) (d.markFilled own) where
  typed := htyped
  sound := hsound.markFilled own
  filled := List.mem_cons_self
  covers T hT x hx := by
    rw [(hsound.blank own T hT hopen).1] at hx
    cases hx

/-- Filling a type in between leaves the type at hand alone. -/
theorem afterFill (h : e.Filling target d) (hopen : own ∉ d.filled) (hsound : d₁.Sound)
    (hframe : (d.markFilled own).Frame own d₁) : e.Filling target (d₁.noteMembers own) where
  typed := by
    rw [Draft.model_noteMembers]
    exact h.typed.mono hframe.grows
  sound := hsound.noteMembers own
  filled := by
    rw [Draft.filled_noteMembers]
    exact hframe.filled (List.mem_cons_of_mem _ h.filled)
  covers := by
    refine h.covers.of_get?_eq ?_
    rw [Draft.model_noteMembers]
    have hne : target.type ≠ own := fun heq => hopen (heq ▸ h.filled)
    exact hframe.other _ hne (.inl (List.mem_cons_of_mem _ h.filled))

variable {tag : ElementTag} {content : Pattern} {parts : List ValueType × Option TypeId}

theorem attr {tag : AttributeTag} (h : e.Filling target d)
    (hnew : (.attr, tag.name) ∉ target.seen) (content : Pattern) (optional : Bool) :
    e.Filling (target.see .attr tag.name)
      (d.addMember target.type (e.attributeMember tag content optional)) :=
  h.addMember (e.attributeMember tag content optional) hnew
    (e.sound_attributeMember d.model tag content optional)

theorem elem (h : e.Filling target d) (hnew : (.elem, tag.name) ∉ target.seen)
    (hmem : (tag, content) ∈ e.rules.elements) (hparts : e.Settled d tag content parts)
    (optional : Bool) : e.Filling (target.see .elem tag.name)
      (d.addMember target.type (e.elementMember tag parts optional)) :=
  h.addMember (e.elementMember tag parts optional) hnew (hparts.sound h.typed hmem optional)

theorem fill (h : e.Filling target d) (hnew : (.elem, tag.name) ∉ target.seen)
    (hmem : (tag, content) ∈ e.rules.elements) (houtput : tag.output = some own)
    (hopen : own ∉ d.filled) (hsound : d₁.Sound) (hframe : (d.markFilled own).Frame own d₁)
    (optional : Bool) : e.Filling (target.see .elem tag.name) ((d₁.noteMembers own).addMember
      target.type (e.elementMember tag ([], some own) optional)) :=
  (h.afterFill hopen hsound hframe).elem hnew hmem (.of_frame houtput hframe) optional

theorem splice (h : e.Filling target d) (id : RuleId) (rule : Rule) (type : TypeId) :
    e.Filling (target.splice id) (d.noteInlined rule type) :=
  ⟨h.typed, h.sound.of_eq rfl (List.Subset.refl _), h.filled, h.covers⟩

theorem resume (h : e.Filling inner d) : e.Filling (target.resume inner) d :=
  ⟨h.typed, h.sound, h.filled, h.covers⟩

end Expansion.Filling

/-- The elements of slots are elements of the table. -/
def Expansion.Within (e : Expansion) (slots : List Slot) : Prop :=
  ∀ s ∈ slots, s.elements ⊆ e.rules.elements

namespace Expansion.Within

variable {e : Expansion} {s : Slot} {slots : List Slot} {tag : ElementTag} {content : Pattern}
  {optional : Bool} {id : RuleId} {rule : Rule}

theorem tail (h : e.Within (s :: slots)) : e.Within slots := fun s' hs =>
  h s' (List.mem_cons_of_mem _ hs)

theorem mem (h : e.Within (.elem tag content optional :: slots)) :
    (tag, content) ∈ e.rules.elements := h _ List.mem_cons_self List.mem_cons_self

theorem of_element (h : (tag, content) ∈ e.rules.elements) : e.Within (content.slots optional) :=
  fun _ hs _ hx =>
    RuleTable.elements_of_mem_elements h (content.elements_of_mem_slots hs hx)

theorem of_rule (h : e.rules.get? id = some rule) : e.Within (rule.slots optional) :=
  fun _ hs _ hx => RuleTable.mem_elements.mpr ⟨id, rule, h, Rule.elements_of_mem_slots hs hx⟩

end Expansion.Within

namespace Walks

variable {e : Expansion} {slots : List Slot} {target : Target} {d : Draft} {r : Outcome}

/-- Walks keep types sound, also where they fail. -/
theorem sound (h : Walks e slots target d r) (hwithin : e.Within slots)
    (hfilling : e.Filling target d) :
    (endState r).Sound ∧ ∀ inner d₁, r = .ok inner d₁ → e.Filling inner d₁ := by
  induction h with
  | nil =>
    refine ⟨hfilling.sound, ?_⟩
    rintro _ _ ⟨⟩
    exact hfilling
  | seen _ _ _ ih => exact ih hwithin.tail hfilling
  | attr hnew _ ih => exact ih hwithin.tail (hfilling.attr hnew _ _)
  | elem hnew hparts _ ih => exact ih hwithin.tail (hfilling.elem hnew hwithin.mem hparts _)
  | fill hnew houtput hopen body _ ihbody ih =>
    obtain ⟨hsound, -⟩ :=
      ihbody (.of_element hwithin.mem) (.new hfilling.typed hfilling.sound hopen)
    exact ih hwithin.tail (hfilling.fill hnew hwithin.mem houtput hopen hsound body.frame _)
  | fillFails hnew houtput hopen _ ihbody =>
    obtain ⟨hsound, -⟩ :=
      ihbody (.of_element hwithin.mem) (.new hfilling.typed hfilling.sound hopen)
    exact ⟨hsound, fun _ _ heq => by cases heq⟩
  | inherit hrule hinline houtput _ ih => exact ih hwithin.tail (hfilling.inherit hrule houtput)
  | splice hrule hinline hnew body _ ihbody ih =>
    obtain ⟨-, hinner⟩ := ihbody (.of_rule hrule) (hfilling.splice _ _ _)
    exact ih hwithin.tail (hinner _ _ rfl).resume
  | spliceFails hrule hinline hnew _ ihbody =>
    obtain ⟨hsound, -⟩ := ihbody (.of_rule hrule) (hfilling.splice _ _ _)
    exact ⟨hsound, fun _ _ heq => by cases heq⟩
  | stuck _ => exact ⟨hfilling.sound, fun _ _ heq => by cases heq⟩

end Walks

/-- What a job fills a type with comes from the rule. -/
theorem Rule.within_of_mem_jobs {e : Expansion} {rule : Rule} (hrule : rule ∈ e.rules.rules)
    {job : TypeId × List Slot} (hjob : job ∈ rule.jobs) : e.Within job.2 := by
  obtain ⟨id, hid⟩ := List.mem_iff_getElem?.mp hrule
  unfold jobs at hjob
  split at hjob
  · obtain rfl := List.mem_singleton.mp hjob
    exact .of_rule hid
  · next p _ hp =>
    obtain ⟨⟨tag, content⟩, hx, hout⟩ := List.mem_filterMap.mp hjob
    obtain ⟨type, -, rfl⟩ := Option.map_eq_some_iff.mp hout
    have hmem : (tag, content) ∈ e.rules.elements :=
      RuleTable.mem_elements.mpr ⟨id, rule, hid, by
        rw [elements, hp]
        exact p.outermost_subset_elements hx⟩
    exact .of_element hmem
  · cases hjob

/-- Filling types keeps types sound, also where it fails. -/
theorem Fills.sound {e : Expansion} {jobs : List (TypeId × List Slot)} {d : Draft}
    {r : EStateM.Result Failure Draft Unit} (h : Fills e jobs d r)
    (hwithin : ∀ job ∈ jobs, e.Within job.2) (htyped : e.rules.Typed d.model)
    (hsound : d.Sound) : (endState r).Sound := by
  induction h with
  | nil => exact hsound
  | skip _ _ ih =>
    exact ih (fun job hjob => hwithin job (List.mem_cons_of_mem _ hjob)) htyped hsound
  | @fill type _ _ _ _ d₁ _ hopen body _ ih =>
    have hbody := body.sound (hwithin _ List.mem_cons_self) (.new htyped hsound hopen)
    refine ih (fun job hjob => hwithin job (List.mem_cons_of_mem _ hjob)) ?_
      (hbody.1.noteMembers type)
    rw [Draft.model_noteMembers]
    exact htyped.mono body.frame.grows
  | fails hopen body =>
    exact (body.sound (hwithin _ List.mem_cons_self) (.new htyped hsound hopen)).1

/-! ## Runs -/

namespace Compilation

variable {c c' : Compilation}

/-- The types of rules and elements exist. -/
theorem Numbered.typed (h : Numbered c) : c.rules.Typed c.model where
  rule _ _ _ hrule houtput := h.hasOrigin_of_output hrule houtput
  element _ hx _ houtput := (h.provides hx houtput).2.has

/-- The types that there are belong to rules and elements. -/
theorem Numbered.has_iff (h : Numbered c) {type : TypeId} :
    c.model.Has type ↔ type ∈ c.rules.types := by
  constructor
  · intro htype
    exact h.types.mem_iff.mpr (List.mem_range.mpr htype.lt_size)
  · intro htype
    exact ⟨_, List.getElem?_eq_getElem (h.lt_size htype)⟩

/-- Sound types, which are those of rules and elements, and of which one is the root if there is
a root. -/
structure Coherent (c : Compilation) : Prop extends Numbered c where
  draft : c.draft.Sound
  root : ∀ type, c.model.root = some type → c.model.Has type

/-- Besides, rules have the types that they need once they have been declared. -/
structure Sound (c : Compilation) : Prop extends Ordered c, Coherent c

/-- The type that a writer starts from is one of those that rules and elements have got. -/
theorem writerTypeWithin_has {t : RuleTable} {m : Model} (htyped : t.Typed m)
    {beyond : RuleId → Option TypeId} (hbeyond : ∀ id type, beyond id = some type → m.Has type)
    {n : Nat} {seen : List RuleId} {id : RuleId} {type : TypeId}
    (h : writerTypeWithin t beyond n seen id = some type) : m.Has type := by
  induction n generalizing seen id with
  | zero => exact hbeyond id type h
  | succ n ih =>
    simp only [writerTypeWithin] at h
    split at h
    · cases h
    · split at h
      · cases h
      · next rule hrule =>
        split at h
        · next output _ houtput =>
          cases h
          exact (htyped.rule id rule type hrule houtput).has
        · next tag content _ hp =>
          split at h
          · next content _ _ hp hown =>
            cases h
            refine htyped.element (tag, content) (RuleTable.mem_elements.mpr ⟨id, rule, hrule, ?_⟩)
              type hown
            rw [Rule.elements, hp]
            exact List.mem_cons_self
          · exact ih h
          · cases h
        · exact ih h
        · cases h

theorem Coherent.change (h : Coherent c) (hchange : Change c c') : Coherent c' := by
  have hnumbered := h.toNumbered.change hchange
  have hgrows := (keeps_of_change hchange).grows
  cases hchange with
  | trace f => exact ⟨hnumbered, h.draft.of_eq rfl (List.Subset.refl _), h.root⟩
  | label id name => exact ⟨hnumbered, h.draft, h.root⟩
  | generated hrule hstate => exact ⟨hnumbered, h.draft, h.root⟩
  | @declare id rule hrule hstate =>
    refine ⟨hnumbered, h.draft.declares declares_declared, fun type htype => ?_⟩
    have hroot : (c.declared id rule).2.model.root = c.model.root := declares_declared.root
    exact (h.root type (hroot ▸ htype)).mono hgrows
  | root =>
    refine ⟨hnumbered, ?_, fun type htype => ?_⟩
    · exact ⟨fun i T hT => (h.draft.types i T hT).mono hgrows, h.draft.blank⟩
    · exact writerTypeWithin_has hnumbered.typed (fun _ _ hnone => by cases hnone) htype
  | @fill id rule r hrule hstate hfill =>
    have hframe := hfill.frame 0
    refine ⟨hnumbered, ?_, fun type htype => ?_⟩
    · exact hfill.sound (fun job hjob => Rule.within_of_mem_jobs (RuleTable.mem_of_get? hrule) hjob)
        h.typed h.draft
    · exact (h.root type (hframe.root ▸ htype)).mono hgrows

theorem Leads.coherent (h : Leads c c') (hc : Coherent c) : Coherent c' :=
  h.invariant (fun hchange hbefore => hbefore.change hchange) hc

theorem Sound.change (h : Sound c) (hchange : Change c c') : Sound c' :=
  { h.toOrdered.change hchange, h.toCoherent.change hchange with }

theorem Leads.sound (h : Leads c c') (hc : Sound c) : Sound c' :=
  h.invariant (fun hchange hbefore => hbefore.change hchange) hc

theorem Started.coherent {t : RuleTable} {entry : RuleId} {options : CompileOptions}
    {tracer : Trace.Tracer} (h : Started t entry options tracer c) (hnone : t.types = []) :
    Coherent c where
  toNumbered := h.numbered hnone
  draft := by
    rw [h.draft_eq]
    exact ⟨fun _ _ hT => (by cases hT), fun _ _ hT => (by cases hT)⟩
  root type htype := by
    rw [model, h.draft_eq] at htype
    cases htype

theorem Started.sound {t : RuleTable} {entry : RuleId} {options : CompileOptions}
    {tracer : Trace.Tracer} (h : Started t entry options tracer c) (hfresh : t.Fresh) :
    Sound c :=
  { h.ordered hfresh, h.coherent hfresh.types with }

/-- What may be relied on in the model of a compilation at any time. -/
structure Integral (c : Compilation) : Prop where
  /-- Types are numbered in order, and none is its own parent. -/
  types : ∀ i T, c.model.get? i = some T → T.Sound c.model i
  root : ∀ type, c.model.root = some type → c.model.Has type
  /-- Types of rules and elements exist, and no two of them share a type. -/
  outputs : ∀ type ∈ c.rules.types, c.model.Has type
  owners : c.rules.types.Nodup

theorem Coherent.integral (h : Coherent c) : Integral c where
  types := h.draft.types
  root := h.root
  outputs _ htype := h.has_iff.mpr htype
  owners := h.nodup

/-- Where no rule and no element has a type before the run, whatever states the rules are in, the
model is integral after any steps, in any order and whichever of them failed, and one more step
leaves every type, every member and every rule at least as far as it was. -/
theorem integral_afterAll {t : RuleTable} {entry : RuleId} {options : CompileOptions}
    {tracer : Trace.Tracer} (hnone : t.types = []) (hstart : start t entry options tracer = .ok c)
    (steps : List Step) :
    Integral (c.afterAll steps) ∧
      ∀ step, Keeps (c.afterAll steps) ((c.afterAll steps).after step) := by
  constructor
  · have hcoherent := (started_of_start hstart).coherent hnone
    exact ((leads_afterAll steps c).coherent hcoherent).integral
  · intro step
    exact (leads_after _ step).keeps

/-- Rules are generated before they are declared here, and a rule is named that there is not. -/
theorem integral_nestedItems : RuleTable.nestedItems.types = [] ∧
    ∃ c, start .nestedItems 0 .standard .off = .ok c ∧
      Integral (c.afterAll [.generate 0, .declare 1, .declareAll, .generate 9, .generate 0]) ∧
        ∀ step, Keeps
          (c.afterAll [.generate 0, .declare 1, .declareAll, .generate 9, .generate 0])
          ((c.afterAll [.generate 0, .declare 1, .declareAll, .generate 9, .generate 0]).after
            step) := by
  have hnone : RuleTable.nestedItems.types = [] := by decide
  obtain ⟨c, hstart⟩ : ∃ c, start .nestedItems 0 .standard .off = .ok c := ⟨_, rfl⟩
  exact ⟨hnone, c, hstart, integral_afterAll hnone hstart _⟩

end Compilation

/-- A document that takes in a rule besides an attribute of its own. The rule is an element which
was given a type before the run. -/
def RuleTable.presetElement : RuleTable :=
  ⟨[(Rule.mentioned rootScope startName).define
      (.union .plain [.ofRule 1, .ofAttribute (.unqualified "id") .text]) none,
    (Rule.mentioned rootScope "x").define
      (.elem .plain ⟨.unqualified "e", none, some 5⟩
        (.union .plain [.ofAttribute (.unqualified "a") .text,
          .ofAttribute (.unqualified "b") .text])) none]⟩

namespace Compilation

/-- All rules that are referred to exist, but the member for the element points at the type that
the element came with, and there is no such type. -/
theorem not_integral_presetElement : RuleTable.presetElement.Linked ∧
    ∃ c, start .presetElement 0 .standard .off = .ok c ∧
      (c.afterAll [.declare 0, .generate 0]).model.size = 1 ∧
      (∃ T, (c.afterAll [.declare 0, .generate 0]).model.get? 0 = some T ∧
        ∃ x ∈ T.members, x.content = some 5) ∧
      ¬Integral (c.afterAll [.declare 0, .generate 0]) := by
  obtain ⟨c, hstart⟩ : ∃ c, start .presetElement 0 .standard .off = .ok c := ⟨_, rfl⟩
  have hsize : (c.afterAll [.declare 0, .generate 0]).model.size = 1 := by
    cases hstart
    decide +kernel
  have hcontents : ((c.afterAll [.declare 0, .generate 0]).model.get? 0).map
      (fun T => T.members.map Member.content) = some [some 5, none] := by
    cases hstart
    decide +kernel
  obtain ⟨T, hT, hmap⟩ := Option.map_eq_some_iff.mp hcontents
  obtain ⟨x, hx, hcontent⟩ : ∃ x ∈ T.members, x.content = some 5 := by
    rw [← List.mem_map, hmap]
    exact List.mem_cons_self
  refine ⟨by decide, c, hstart, hsize, ⟨T, hT, x, hx, hcontent⟩, fun hintegral => ?_⟩
  have hlt := (((hintegral.types 0 T hT).members x hx).content 5 hcontent).lt_size
  rw [hsize] at hlt
  exact absurd hlt (by decide)

end Compilation

end MarkupTypes
