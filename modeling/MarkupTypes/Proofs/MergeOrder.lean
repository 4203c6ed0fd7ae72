import MarkupTypes.Proofs.Merging
import MarkupTypes.Proofs.Success

/-!
# The order of merging

A document type is made from an element that holds two patterns, merged in one order or in
the other, and an attribute (`RuleTable.document`). The names of the members do not depend
on the order : merging keeps the names and the references of both patterns
(`Pattern.Holds.merge_iff`), and references give their names wherever they stand
(`RuleTable.Gives`).

The flags may depend on it. A merge counts what it brings into one slot as optional where
either operand was, but a name that comes from a reference shares no slot : it counts only
where it comes first, with the flag that it has there. And of two elements of one name only
the content of the first is looked into, so one order may compile and the other may not.
`Compilation.sameMembers_iff` says that there is no other difference.
-/

namespace MarkupTypes

/-! ## First occurrences of a name -/

/-- Names that were seen come up no more. -/
theorem not_mem_seen_of_mem_firsts {seen : List MemberKey} {slots : List Slot} {s : Slot}
    {key : MemberKey} (hs : s ∈ firsts seen slots) (hkey : s.key? = some key) : key ∉ seen := by
  induction slots generalizing seen with
  | nil => cases hs
  | cons s' rest ih =>
    cases hkey' : s'.key? with
    | none =>
      rw [firsts_cons_none hkey'] at hs
      exact ih hs
    | some key' =>
      by_cases hseen : key' ∈ seen
      · rw [firsts_cons_seen hkey' hseen] at hs
        exact ih hs
      · rw [firsts_cons_new hkey' hseen] at hs
        rcases List.mem_cons.mp hs with rfl | hs
        · rw [hkey] at hkey'
          obtain rfl := Option.some.inj hkey'
          exact hseen
        · exact fun hmem => ih hs (List.mem_cons_of_mem _ hmem)

/-- The first attribute or element of a name. -/
def firstOf (key : MemberKey) (slots : List Slot) : Option Slot :=
  slots.find? fun s => s.key? = some key

section

variable {key : MemberKey} {slots slots' : List Slot} {s : Slot}

theorem key?_of_firstOf (h : firstOf key slots = some s) : s.key? = some key := by
  have hs := List.find?_some h
  exact of_decide_eq_true hs

/-- The first occurrence of a name is the only one of its name among the first occurrences. -/
theorem mem_firsts_iff {seen : List MemberKey} (hnew : key ∉ seen) :
    s ∈ firsts seen slots ∧ s.key? = some key ↔ firstOf key slots = some s := by
  induction slots generalizing seen with
  | nil => simp [firsts, firstOf]
  | cons s' rest ih =>
    rw [firstOf, List.find?_cons, ← firstOf]
    cases hkey : s'.key? with
    | none =>
      rw [firsts_cons_none hkey, ih hnew, decide_eq_false (by simp)]
    | some key' =>
      by_cases heq : key' = key
      · subst heq
        rw [firsts_cons_new hkey hnew, decide_eq_true rfl, List.mem_cons]
        constructor
        · rintro ⟨rfl | hmem, hs⟩
          · rfl
          · exact absurd List.mem_cons_self (not_mem_seen_of_mem_firsts hmem hs)
        · rintro ⟨⟩
          exact ⟨.inl rfl, hkey⟩
      · rw [decide_eq_false fun h => heq (Option.some.inj h)]
        by_cases hseen : key' ∈ seen
        · rw [firsts_cons_seen hkey hseen, ih hnew]
        · have hnew' : key ∉ key' :: seen := fun hmem =>
            (List.mem_cons.mp hmem).elim (fun h => heq h.symm) hnew
          rw [firsts_cons_new hkey hseen, ← ih hnew', List.mem_cons]
          refine and_congr_left fun hs => or_iff_right ?_
          rintro rfl
          exact heq (Option.some.inj (hkey.symm.trans hs))

/-- A name occurs first among first occurrences where it does among all. -/
theorem firstOf_firsts (key : MemberKey) (slots : List Slot) :
    firstOf key (firsts [] slots) = firstOf key slots := by
  cases hs : firstOf key slots with
  | none =>
    refine List.find?_eq_none.mpr fun s hs' hkey => ?_
    rw [(mem_firsts_iff List.not_mem_nil).mp ⟨hs', of_decide_eq_true hkey⟩] at hs
    cases hs
  | some s =>
    obtain ⟨hmem, hkey⟩ := (mem_firsts_iff List.not_mem_nil).mpr hs
    have hsome : (firstOf key (firsts [] slots)).isSome := by
      rw [firstOf, List.find?_isSome]
      exact ⟨s, hmem, decide_eq_true hkey⟩
    obtain ⟨s', hs'⟩ := Option.isSome_iff_exists.mp hsome
    have hfirst :=
      (mem_firsts_iff List.not_mem_nil).mp ⟨List.mem_of_find?_eq_some hs', key?_of_firstOf hs'⟩
    rw [hs', ← hfirst, hs]

end

/-! ## Flags -/

/-- The name of a slot, if it is that of a member, and the flag of the slot. -/
def Slot.outline (s : Slot) : Option MemberKey × Bool := (s.key?, s.optional)

/-- The flag of the first attribute or element of a name. -/
def flagOf (key : MemberKey) : List Slot → Option Bool
  | [] => none
  | s :: rest => if s.key? = some key then some s.optional else flagOf key rest

theorem flagOf_eq (key : MemberKey) (slots : List Slot) :
    flagOf key slots = (firstOf key slots).map Slot.optional := by
  induction slots with
  | nil => rfl
  | cons s rest ih =>
    rw [flagOf, firstOf, List.find?_cons, ← firstOf]
    by_cases hkey : s.key? = some key
    · rw [if_pos hkey, decide_eq_true hkey, Option.map_some]
    · rw [if_neg hkey, decide_eq_false hkey, ih]

/-- The flag of a name is that of its first occurrence. -/
theorem flagOf_eq_some_iff {key : MemberKey} {optional : Bool} {slots : List Slot}
    {seen : List MemberKey} (hnew : key ∉ seen) : flagOf key slots = some optional ↔
      (some key, optional) ∈ (firsts seen slots).map Slot.outline := by
  rw [flagOf_eq, Option.map_eq_some_iff, List.mem_map]
  refine exists_congr fun s => ?_
  rw [← mem_firsts_iff hnew, Slot.outline, Prod.mk.injEq, and_assoc]

theorem flagOf_isSome_iff {key : MemberKey} {slots : List Slot} :
    (flagOf key slots).isSome ↔ key ∈ keys slots := by
  induction slots with
  | nil => simp [flagOf, keys]
  | cons s rest ih =>
    rw [flagOf]
    split
    · next hkey => simp [keys, hkey]
    · next hkey =>
      rw [ih]
      cases hkey' : s.key? with
      | none => simp [keys, hkey']
      | some key' =>
        have hne : key ≠ key' := fun heq => hkey (heq ▸ hkey')
        simp [keys, hkey', hne]

/-! ## The names that references give -/

namespace RuleTable

/-- A rule that stands for its pattern gives a name to the type at hand, itself or through
the inline rules that it refers to. -/
inductive Gives (t : RuleTable) (key : MemberKey) : RuleId → Prop
  | own {id rule} (hrule : t.get? id = some rule)
    (hslot : ∃ s ∈ rule.slots false, s.key? = some key) : Gives t key id
  | through {id rule next} (hrule : t.get? id = some rule)
    (hslot : ∃ s ∈ rule.slots false, s.rule? = some next) (hinline : t.isInline next = true)
    (hnext : Gives t key next) : Gives t key id

variable {t t' : RuleTable} {key : MemberKey} {id : RuleId} {rule : Rule} {slots occ : List Slot}

theorem exists_mem_slots_iff {f : Slot → Prop} (hf : ∀ o s, f (s.under o) ↔ f s) (rule : Rule)
    (optional : Bool) : (∃ s ∈ rule.slots optional, f s) ↔ ∃ s ∈ rule.slots false, f s := by
  unfold Rule.slots
  cases rule.pattern with
  | none => rfl
  | some p => exact (p.hasSlot_iff hf optional).symm

theorem gives_iff (hrule : t.get? id = some rule) : t.Gives key id ↔
    (∃ s ∈ rule.slots false, s.key? = some key) ∨ ∃ next,
      (∃ s ∈ rule.slots false, s.rule? = some next) ∧
        t.isInline next = true ∧ t.Gives key next := by
  constructor
  · intro h
    cases h with
    | own hrule' hslot =>
      obtain rfl := Option.some.inj (hrule.symm.trans hrule')
      exact .inl hslot
    | through hrule' hslot hinline hnext =>
      obtain rfl := Option.some.inj (hrule.symm.trans hrule')
      exact .inr ⟨_, hslot, hinline, hnext⟩
  · rintro (hslot | ⟨next, hslot, hinline, hnext⟩)
    · exact .own hrule hslot
    · exact .through hrule hslot hinline hnext

theorem mem_keys_cons_iff {slot : Slot} :
    key ∈ keys (slot :: slots) ↔ slot.key? = some key ∨ key ∈ keys slots := by
  simp only [keys, List.mem_filterMap, List.exists_mem_cons_iff]

/-- The names in what is written out are those of the slots and those that the inline rules
among them give. -/
theorem Expands.mem_keys_iff (h : t.Expands t.isInline slots occ) : key ∈ keys occ ↔
    (∃ s ∈ slots, s.key? = some key) ∨ ∃ next,
      (∃ s ∈ slots, s.rule? = some next) ∧ t.isInline next = true ∧ t.Gives key next := by
  induction h with
  | nil => simp [keys]
  | @keep slot rest occ hslot _ ih =>
    rw [mem_keys_cons_iff, ih, List.exists_mem_cons_iff, or_assoc]
    refine or_congr_right (or_congr_right (exists_congr fun next => ?_))
    rw [List.exists_mem_cons_iff]
    constructor
    · rintro ⟨hrest, hinline, hnext⟩
      exact ⟨.inr hrest, hinline, hnext⟩
    · rintro ⟨hid | hrest, hinline, hnext⟩
      · rw [hslot next hid] at hinline
        cases hinline
      · exact ⟨hrest, hinline, hnext⟩
  | @splice id location optional rule rest inner occ hrule hinline _ _ ihbody ih =>
    have hbody : key ∈ keys inner ↔ t.Gives key id := by
      rw [ihbody, gives_iff hrule]
      refine or_congr ?_ (exists_congr fun next => and_congr_left fun _ => ?_)
      · exact exists_mem_slots_iff (fun o s => by rw [Slot.key?_under]) rule optional
      · exact exists_mem_slots_iff (fun o s => by rw [Slot.rule?_under]) rule optional
    have hself : (Slot.ref id location optional).key? ≠ some key := by simp [Slot.key?]
    rw [keys_append, List.mem_append, hbody, ih, List.exists_mem_cons_iff, or_iff_right hself]
    constructor
    · rintro (hid | hrest | ⟨next, hrest, hnext⟩)
      · exact .inr ⟨id, ⟨_, List.mem_cons_self, rfl⟩, hinline, hid⟩
      · exact .inl hrest
      · obtain ⟨s, hs, hid⟩ := hrest
        exact .inr ⟨next, ⟨s, List.mem_cons_of_mem _ hs, hid⟩, hnext⟩
    · rintro (hrest | ⟨next, ⟨s, hs, hid⟩, hinline', hnext⟩)
      · exact .inr (.inl hrest)
      · rcases List.mem_cons.mp hs with rfl | hs
        · obtain rfl := Option.some.inj hid
          exact .inl hnext
        · exact .inr (.inr ⟨next, ⟨s, hs, hid⟩, hinline', hnext⟩)

/-- Every rule of one table has a counterpart in another, of the same names and references. -/
def Outlined (t t' : RuleTable) : Prop :=
  ∀ id rule, t.get? id = some rule → ∃ rule', t'.get? id = some rule' ∧
    rule'.isInline = rule.isInline ∧
    (∀ key, (∃ s ∈ rule.slots false, s.key? = some key) →
      ∃ s ∈ rule'.slots false, s.key? = some key) ∧
    ∀ next, (∃ s ∈ rule.slots false, s.rule? = some next) →
      ∃ s ∈ rule'.slots false, s.rule? = some next

theorem Outlined.isInline (h : t.Outlined t') (hinline : t.isInline id = true) :
    t'.isInline id = true := by
  obtain ⟨rule, hrule, hinline⟩ := (Option.any_eq_true ..).mp hinline
  obtain ⟨rule', hrule', hsame, -⟩ := h id rule hrule
  rw [isInline_eq hrule', hsame, hinline]

theorem Outlined.gives (h : t.Outlined t') (hgives : t.Gives key id) : t'.Gives key id := by
  induction hgives with
  | own hrule hslot =>
    obtain ⟨rule', hrule', -, hkeys, -⟩ := h _ _ hrule
    exact .own hrule' (hkeys key hslot)
  | through hrule hslot hinline _ ih =>
    obtain ⟨rule', hrule', -, -, hrules⟩ := h _ _ hrule
    exact .through hrule' (hrules _ hslot) (h.isInline hinline) ih

end RuleTable

/-! ## The members of a document -/

mutual

/-- A pattern that attributes or elements stand in is more than text. -/
theorem Pattern.onlyText_scan (follow : RuleId → List ValueType → TextScan) {key : MemberKey} :
    ∀ (p : Pattern) {outer : Bool} (types : List ValueType),
      (∃ s ∈ p.slots outer, s.key? = some key) → (p.scan follow types).onlyText = false
  | .attr _ _ _, _, _, _ => rfl
  | .elem _ _ _, _, _, _ => rfl
  | .union _ ps, _, types, h => Pattern.onlyText_scanAll follow ps types h
  | .ref _ _ _, _, _, h => by simp [slots, Slot.key?] at h
  | .empty _, _, _, h => by simp [slots] at h
  | .data _ _, _, _, h => by simp [slots] at h
  | .value _ _ _, _, _, h => by simp [slots] at h
  | .list _ _, _, _, h => by simp [slots] at h

theorem Pattern.onlyText_scanAll (follow : RuleId → List ValueType → TextScan) {key : MemberKey} :
    ∀ (ps : List Pattern) {outer : Bool} (types : List ValueType),
    (∃ s ∈ Pattern.slotsAll outer ps, s.key? = some key) →
    (Pattern.scanAll follow ps types).onlyText = false
  | [], _, _, h => by simp [slotsAll] at h
  | p :: ps, _, types, ⟨s, hs, hkey⟩ => by
    rw [scanAll]
    rcases List.mem_append.mp hs with hs | hs
    · have hfirst := p.onlyText_scan follow types ⟨s, hs, hkey⟩
      simp only [hfirst, Bool.false_eq_true, if_false]
    · split
      · exact Pattern.onlyText_scanAll follow ps _ ⟨s, hs, hkey⟩
      · next hfirst => exact eq_false_of_ne_true hfirst

end

/-- An element that attributes or elements stand in has a type of its own. -/
theorem RuleTable.contentOf_eq_structured (t : RuleTable) (isInline : RuleId → Bool) {p : Pattern}
    {key : MemberKey} (h : ∃ s ∈ p.slots false, s.key? = some key) :
    t.contentOf isInline p = .structured := by
  have hchildren : p.children.isEmpty = false := by
    cases p with
    | empty m => simp [Pattern.slots] at h
    | union m ps =>
      cases ps with
      | nil => simp [Pattern.slots, Pattern.slotsAll] at h
      | cons p ps => rfl
    | _ => rfl
  have htext : (t.scan p).onlyText = false := p.onlyText_scan t.follow [] h
  unfold contentOf
  simp only [hchildren, htext, Bool.false_eq_true, if_false]
  cases p with
  | ref m id label => simp [Pattern.slots, Slot.key?] at h
  | _ => rfl

theorem Slot.outline_skeleton (s : Slot) : s.skeleton.outline = s.outline := by
  rw [outline, outline, key?_skeleton, optional_skeleton]

theorem map_outline_of_map_skeleton {slots slots' : List Slot}
    (h : slots'.map Slot.skeleton = slots.map Slot.skeleton) :
    slots'.map Slot.outline = slots.map Slot.outline := by
  have hcomp : ∀ l : List Slot, l.map Slot.outline = (l.map Slot.skeleton).map Slot.outline := by
    intro l
    rw [List.map_map]
    exact List.map_congr_left fun s _ => s.outline_skeleton.symm
  rw [hcomp, h, ← hcomp]

theorem Expansion.optional_of_memberOf (e : Expansion) {s : Slot} {x : Member}
    (h : e.memberOf s = some x) : x.optional = s.optional := by
  cases s with
  | attr tag content optional => cases h; rfl
  | elem tag content optional =>
    obtain ⟨parts, -, rfl⟩ := Option.map_eq_some_iff.mp h
    rfl
  | ref id location optional => cases h

/-- A member has the name and the flag of the slot that it was made for. -/
theorem Expansion.map_outline_eq (e : Expansion) : ∀ (members : List Member) (slots : List Slot),
    members.map some = slots.map e.memberOf →
    members.map (fun x => (some x.key, x.optional)) = slots.map Slot.outline
  | [], [], _ => rfl
  | x :: members, s :: slots, h => by
    rw [List.map_cons, List.map_cons, List.cons.injEq] at h
    rw [List.map_cons, List.map_cons, e.map_outline_eq members slots h.2, Slot.outline,
      e.key?_of_memberOf h.1.symm, e.optional_of_memberOf h.1.symm]

/-- The names and the flags of the members of the type that documents start from. -/
def Model.rootMembers (m : Model) : List (MemberKey × Bool) :=
  match m.root.bind m.get? with
  | some T => T.members.map fun x => (x.key, x.optional)
  | none => []

namespace Compilation

variable {t : RuleTable} {entry : RuleId} {options : CompileOptions} {tracer : Trace.Tracer}
  {c c' : Compilation}

/-- Where documents start from an element with a type of its own, the members of that type
are made for the content of the element. -/
theorem Finished.exists_root (h : Finished t entry c) {rule : Rule}
    (hrule : t.get? entry = some rule) {mark : Mark} {tag : ElementTag} {content : Pattern}
    (hp : rule.pattern = some (.elem mark tag content))
    (hcontent : t.contentOf t.isInline content = .structured) {occ : List Slot}
    (hexpands : t.Expands t.isInline (content.slots false) occ) :
    ∃ T occ', c.model.root.bind c.model.get? = some T ∧
      T.members.map some = (firsts [] occ').map c.expansion.memberOf ∧
      occ'.map Slot.skeleton = occ.map Slot.skeleton := by
  have hinline : rule.isInline = true := by
    rw [Rule.isInline, Rule.children, hp]
    rfl
  obtain ⟨rule', p', x, type, hrule', hnone, hp', hpattern, hx, hskeleton, htype, howner,
    hfilled⟩ := h.exists_type_of_outermost .refl hrule hinline hp List.mem_cons_self hcontent
  obtain ⟨mark', tag', content', rfl⟩ : ∃ mark' tag' content', p' = .elem mark' tag' content' := by
    cases p' with
    | elem mark' tag' content' => exact ⟨mark', tag', content', rfl⟩
    | _ => cases hpattern
  obtain rfl : x = (tag', content') := List.mem_singleton.mp hx
  replace htype : tag'.output = some type := htype
  -- The type of the element is the one that documents start from.
  have hroot : c.model.root = some type := by
    rw [h.generating.rooted, h.entry_eq, writerType, writerTypeWithin]
    simp only [List.not_mem_nil, if_false, hrule', hnone, hp', htype]
  obtain ⟨T, occ', hT, hdescribes⟩ := h.generating.describes hfilled howner
  refine ⟨T, occ', ?_, hdescribes.members, ?_⟩
  · rw [hroot, Option.bind_some, hT]
  · exact h.map_skeleton_eq hdescribes hexpands (Pattern.map_skeleton_slots hskeleton false)

/-- The members of that type are the first occurrences of the names in the element. -/
theorem Finished.mem_rootMembers_iff (h : Finished t entry c) {rule : Rule}
    (hrule : t.get? entry = some rule) {mark : Mark} {tag : ElementTag} {content : Pattern}
    (hp : rule.pattern = some (.elem mark tag content))
    (hcontent : t.contentOf t.isInline content = .structured) {occ : List Slot}
    (hexpands : t.Expands t.isInline (content.slots false) occ) (key : MemberKey)
    (optional : Bool) :
    (key, optional) ∈ c.model.rootMembers ↔ flagOf key occ = some optional := by
  obtain ⟨T, occ', hT, hmembers, hocc⟩ := h.exists_root hrule hp hcontent hexpands
  have houtline : T.members.map (fun x => (some x.key, x.optional)) =
      (firsts [] occ).map Slot.outline := by
    rw [c.expansion.map_outline_eq T.members _ hmembers]
    exact map_outline_of_map_skeleton (map_skeleton_firsts hocc [])
  have hroot : c.model.rootMembers = T.members.map fun x => (x.key, x.optional) := by
    rw [Model.rootMembers, hT]
  rw [flagOf_eq_some_iff List.not_mem_nil, ← houtline, hroot]
  simp only [List.mem_map, Prod.mk.injEq, Option.some.injEq]

/-- The model that rules compile to, if they do. -/
def compiled (t : RuleTable) (entry : RuleId) (options : CompileOptions) (tracer : Trace.Tracer) :
    Option Model :=
  match start t entry options tracer with
  | .error _ => none
  | .ok c => match finish c with
    | .error _ _ => none
    | .ok m _ => some m

theorem compiled_of_compiles (hfresh : t.Fresh) (h : t.Compiles entry) (options : CompileOptions)
    (tracer : Trace.Tracer) :
    ∃ c, compiled t entry options tracer = some c.model ∧ Finished t entry c := by
  obtain ⟨c, m, c', hstart, hfinish⟩ := (compiles_iff hfresh).mpr h
  obtain ⟨rfl, hfinished⟩ := finished_of_finish hfresh hstart hfinish
  refine ⟨c', ?_, hfinished⟩
  rw [compiled, hstart]
  simp only [hfinish]

theorem compiled_of_not_compiles (hfresh : t.Fresh) (h : ¬t.Compiles entry) :
    compiled t entry options tracer = none := by
  unfold compiled
  cases hstart : start t entry options tracer with
  | error failure => rfl
  | ok c =>
    cases hfinish : finish c with
    | error failure c' => simp only [hfinish]
    | ok m c' => exact absurd ((compiles_iff hfresh).mp ⟨c, m, c', hstart, hfinish⟩) h

end Compilation

/-- Neither of two compilations succeeded, or both did and the members of the types that
documents start from have the same names and flags. -/
def SameMembers : Option Model → Option Model → Prop
  | none, none => True
  | some m, some m' => ∀ x, x ∈ m.rootMembers ↔ x ∈ m'.rootMembers
  | _, _ => False

instance : ∀ m m' : Option Model, Decidable (SameMembers m m')
  | none, none => .isTrue trivial
  | some m, some m' => decidable_of_iff
      ((∀ x ∈ m.rootMembers, x ∈ m'.rootMembers) ∧ ∀ x ∈ m'.rootMembers, x ∈ m.rootMembers)
      ⟨fun h x => ⟨h.1 x, h.2 x⟩, fun h => ⟨fun x => (h x).mp, fun x => (h x).mpr⟩⟩
  | none, some _ => .isFalse id
  | some _, none => .isFalse id

/-! ## Documents of two patterns -/

/-- A pattern and an attribute. -/
def Pattern.withAttribute (p : Pattern) (name : QName) : Pattern :=
  p.merge (.ofAttribute name .text)

theorem exists_attribute (p : Pattern) (name : QName) :
    ∃ s ∈ (p.withAttribute name).slots false, s.key? = some (.attr, name) := by
  refine ((Pattern.holds_key (.attr, name)).merge_iff (fun s t h => ?_) p _).mpr (.inr ?_)
  · rw [h]
  · exact ⟨_, List.mem_cons_self, rfl⟩

/-- The table with the rule that documents start from defined : as an element that holds a
pattern and an attribute. -/
def RuleTable.document (t : RuleTable) (entry : RuleId) (doc name : QName) (p : Pattern) :
    RuleTable :=
  t.modify entry (·.define (.ofElement doc (p.withAttribute name)) none)

section

variable {t : RuleTable} {entry : RuleId} {undefined : Rule} {doc name : QName} {p p' a b : Pattern}
  (hentry : t.get? entry = some undefined) (hnone : undefined.pattern = none)

include hentry hnone

theorem get?_document (doc name : QName) (p : Pattern) :
    ∃ rule, (t.document entry doc name p).get? entry = some rule ∧
      rule.pattern = some (.ofElement doc (p.withAttribute name)) := by
  refine ⟨_, RuleTable.get?_modify_self hentry, ?_⟩
  rw [Rule.define, hnone]

/-- Two documents differ in what their elements hold. -/
theorem outlined_document :
    (t.document entry doc name p).Outlined (t.document entry doc name p') := by
  intro id rule hrule
  by_cases hid : id = entry
  · subst hid
    obtain ⟨rule₁, hrule₁, hp₁⟩ := get?_document hentry hnone doc name p
    obtain ⟨rule₂, hrule₂, hp₂⟩ := get?_document hentry hnone doc name p'
    obtain rfl := Option.some.inj (hrule.symm.trans hrule₁)
    refine ⟨rule₂, hrule₂, ?_, fun key => ?_, fun next => ?_⟩
    · rw [Rule.isInline, Rule.isInline, Rule.children, Rule.children, hp₁, hp₂]
      rfl
    · rw [Rule.slots, Rule.slots, hp₁, hp₂]
      simp [Pattern.ofElement, Pattern.slots, Slot.key?]
    · rw [Rule.slots, Rule.slots, hp₁, hp₂]
      simp [Pattern.ofElement, Pattern.slots, Slot.rule?]
  · refine ⟨rule, ?_, rfl, fun _ h => h, fun _ h => h⟩
    rw [RuleTable.document, RuleTable.get?_modify_of_ne hid] at hrule ⊢
    exact hrule

theorem live_document : (t.document entry doc name p).Live entry
    ((p.withAttribute name).slots false) := by
  obtain ⟨rule, hrule, hp⟩ := get?_document hentry hnone doc name p
  have hinline : rule.isInline = true := by
    rw [Rule.isInline, Rule.children, hp]
    rfl
  exact .outermost .refl hrule hinline hp List.mem_cons_self
    (RuleTable.contentOf_eq_structured _ _ (exists_attribute p name))

/-- The names in the content of a document are those of both patterns, in either order. -/
theorem mem_keys_document_iff {occ occ' : List Slot} {key : MemberKey}
    (h : (t.document entry doc name (a.merge b)).Expands
      (t.document entry doc name (a.merge b)).isInline
      (((a.merge b).withAttribute name).slots false) occ)
    (h' : (t.document entry doc name (b.merge a)).Expands
      (t.document entry doc name (b.merge a)).isInline
      (((b.merge a).withAttribute name).slots false) occ') :
    key ∈ keys occ ↔ key ∈ keys occ' := by
  have hforth : (t.document entry doc name (a.merge b)).Outlined
      (t.document entry doc name (b.merge a)) := outlined_document hentry hnone
  have hback : (t.document entry doc name (b.merge a)).Outlined
      (t.document entry doc name (a.merge b)) := outlined_document hentry hnone
  have hswap : ∀ {f : Slot → Prop} {inner attrs elems rules},
      Pattern.Holds (Pattern.HasSlot f) inner attrs elems rules → Pattern.ByName elems →
      ((∃ s ∈ ((a.merge b).withAttribute name).slots false, f s) ↔
        ∃ s ∈ ((b.merge a).withAttribute name).slots false, f s) := by
    intro f inner attrs elems rules hholds hname
    change Pattern.HasSlot f ((a.merge b).merge _) ↔ Pattern.HasSlot f ((b.merge a).merge _)
    rw [hholds.merge_iff hname, hholds.merge_iff hname, hholds.merge_iff hname,
      hholds.merge_iff hname, or_comm (a := Pattern.HasSlot f a)]
  rw [h.mem_keys_iff, h'.mem_keys_iff]
  refine or_congr ?_ (exists_congr fun next => and_congr ?_ ?_)
  · exact hswap (Pattern.holds_key key) fun s t h => by rw [h]
  · exact hswap (Pattern.holds_bareRule next) fun _ _ _ => Iff.rfl
  · exact and_congr ⟨hforth.isInline, hback.isInline⟩ ⟨hforth.gives, hback.gives⟩

end

theorem fresh_document {t : RuleTable} (hfresh : t.Fresh) {p : Pattern} (hp : p.Untyped)
    (entry : RuleId) (doc name : QName) : (t.document entry doc name p).Fresh := by
  have hattribute : (Pattern.ofAttribute name .text).Untyped := rfl
  exact hfresh.define ((hp.merge hattribute).ofElement doc) entry none

/-- A name occurs in the content of a document, and first with this flag. -/
def RuleTable.DocumentFlag (t : RuleTable) (entry : RuleId) (doc name : QName) (p : Pattern)
    (key : MemberKey) (optional : Bool) : Prop :=
  ∃ occ, (t.document entry doc name p).Expands (t.document entry doc name p).isInline
    ((p.withAttribute name).slots false) occ ∧ flagOf key occ = some optional

/-- Documents of two patterns compile in both orders or in none, and no name that occurs first
with one flag in one order occurs first with the other flag in the other order. -/
structure RuleTable.OrderFree (t : RuleTable) (entry : RuleId) (doc name : QName) (a b : Pattern) :
    Prop where
  compiles : (t.document entry doc name (a.merge b)).Compiles entry ↔
    (t.document entry doc name (b.merge a)).Compiles entry
  flags : (t.document entry doc name (a.merge b)).Compiles entry →
    (t.document entry doc name (b.merge a)).Compiles entry → ∀ key optional optional',
      t.DocumentFlag entry doc name (a.merge b) key optional →
      t.DocumentFlag entry doc name (b.merge a) key optional' → optional = optional'

namespace RuleTable.DocumentFlag

variable {t : RuleTable} {entry : RuleId} {undefined : Rule} {doc name : QName} {p a b : Pattern}
  {key : MemberKey} {optional optional' : Bool}

theorem unique (h : t.DocumentFlag entry doc name p key optional)
    (h' : t.DocumentFlag entry doc name p key optional') : optional = optional' := by
  obtain ⟨occ, hexpands, hflag⟩ := h
  obtain ⟨occ', hexpands', hflag'⟩ := h'
  obtain rfl := hexpands.unique hexpands'
  exact Option.some.inj (hflag.symm.trans hflag')

/-- Merging in the other order keeps the name, with some flag. -/
theorem swap (hentry : t.get? entry = some undefined) (hnone : undefined.pattern = none)
    (h : t.DocumentFlag entry doc name (a.merge b) key optional)
    (hcompiles : (t.document entry doc name (b.merge a)).Compiles entry) :
    ∃ optional', t.DocumentFlag entry doc name (b.merge a) key optional' := by
  obtain ⟨occ, hexpands, hflag⟩ := h
  obtain ⟨occ', hexpands'⟩ := hcompiles.expands _ (live_document hentry hnone)
  have hmem : key ∈ keys occ := flagOf_isSome_iff.mp (by rw [hflag]; rfl)
  have hmem' : key ∈ keys occ' :=
    (mem_keys_document_iff hentry hnone hexpands hexpands').mp hmem
  obtain ⟨optional', hflag'⟩ := Option.isSome_iff_exists.mp (flagOf_isSome_iff.mpr hmem')
  exact ⟨optional', occ', hexpands', hflag'⟩

end RuleTable.DocumentFlag

namespace Compilation

variable {t : RuleTable} {entry : RuleId} {undefined : Rule} {doc name : QName} {p a b : Pattern}
  {options : CompileOptions} {tracer : Trace.Tracer} {c : Compilation}

/-- The members of a document have the names that occur in it, and the flags with which
these occur first. -/
theorem mem_rootMembers_document_iff (hentry : t.get? entry = some undefined)
    (hnone : undefined.pattern = none) (hcompiles : (t.document entry doc name p).Compiles entry)
    (h : Finished (t.document entry doc name p) entry c) (key : MemberKey) (optional : Bool) :
    (key, optional) ∈ c.model.rootMembers ↔ t.DocumentFlag entry doc name p key optional := by
  obtain ⟨rule, hrule, hp⟩ := get?_document hentry hnone doc name p
  obtain ⟨occ, hexpands⟩ := hcompiles.expands _ (live_document hentry hnone)
  have hcontent := RuleTable.contentOf_eq_structured (t.document entry doc name p)
    (t.document entry doc name p).isInline (exists_attribute p name)
  rw [h.mem_rootMembers_iff hrule hp hcontent hexpands]
  constructor
  · exact fun hflag => ⟨occ, hexpands, hflag⟩
  · rintro ⟨occ', hexpands', hflag⟩
    rwa [hexpands.unique hexpands']

/-- The order of merging makes no difference to the names and the flags of the members exactly
if it makes none to what compiles and to the flags with which names occur first. -/
theorem sameMembers_iff (hfresh : t.Fresh) (hentry : t.get? entry = some undefined)
    (hnone : undefined.pattern = none) (ha : a.Untyped) (hb : b.Untyped) :
    SameMembers (compiled (t.document entry doc name (a.merge b)) entry options tracer)
        (compiled (t.document entry doc name (b.merge a)) entry options tracer) ↔
      t.OrderFree entry doc name a b := by
  have hfresh₁ := fresh_document hfresh (ha.merge hb) entry doc name
  have hfresh₂ := fresh_document hfresh (hb.merge ha) entry doc name
  by_cases h₁ : (t.document entry doc name (a.merge b)).Compiles entry
  · obtain ⟨c₁, hc₁, hfinished₁⟩ :=
      compiled_of_compiles hfresh₁ h₁ options tracer
    by_cases h₂ : (t.document entry doc name (b.merge a)).Compiles entry
    · obtain ⟨c₂, hc₂, hfinished₂⟩ :=
        compiled_of_compiles hfresh₂ h₂ options tracer
      have hmem₁ := mem_rootMembers_document_iff hentry hnone h₁ hfinished₁
      have hmem₂ := mem_rootMembers_document_iff hentry hnone h₂ hfinished₂
      rw [hc₁, hc₂]
      constructor
      · intro hsame
        refine ⟨iff_of_true h₁ h₂, fun _ _ key optional optional' hflag hflag' => ?_⟩
        have hmem := (hsame (key, optional)).mp ((hmem₁ key optional).mpr hflag)
        exact ((hmem₂ key optional).mp hmem).unique hflag'
      · rintro horder ⟨key, optional⟩
        rw [hmem₁, hmem₂]
        constructor
        · intro hflag
          obtain ⟨optional', hflag'⟩ := hflag.swap hentry hnone h₂
          rwa [horder.flags h₁ h₂ key optional optional' hflag hflag']
        · intro hflag'
          obtain ⟨optional', hflag⟩ := hflag'.swap hentry hnone h₁
          rwa [← horder.flags h₁ h₂ key optional' optional hflag hflag']
    · rw [hc₁, compiled_of_not_compiles hfresh₂ h₂]
      exact ⟨False.elim, fun horder => h₂ (horder.compiles.mp h₁)⟩
  · by_cases h₂ : (t.document entry doc name (b.merge a)).Compiles entry
    · obtain ⟨c₂, hc₂, -⟩ :=
        compiled_of_compiles hfresh₂ h₂ options tracer
      rw [compiled_of_not_compiles hfresh₁ h₁, hc₂]
      exact ⟨False.elim, fun horder => h₁ (horder.compiles.mpr h₂)⟩
    · rw [compiled_of_not_compiles hfresh₁ h₁, compiled_of_not_compiles hfresh₂ h₂]
      exact ⟨fun _ => ⟨iff_of_false h₁ h₂, fun h => absurd h h₁⟩, fun _ => trivial⟩

/-- A rule that stands for an attribute, and one that has not been defined. -/
def namedAttribute : RuleTable :=
  ⟨[(Rule.mentioned rootScope "x").define (.ofAttribute (.unqualified "n") .text) none,
    .mentioned rootScope startName]⟩

/-- The attribute that may be left out. -/
def optionalAttribute : Pattern := (Pattern.ofAttribute (.unqualified "n") .text).setOptional true

theorem sameMembers_iff_namedAttribute : namedAttribute.Fresh ∧
    namedAttribute.get? 1 = some (.mentioned rootScope startName) ∧
    (Rule.mentioned rootScope startName).pattern = none ∧
    (Pattern.ofRule 0).Untyped ∧ optionalAttribute.Untyped ∧
    (SameMembers
        (compiled (namedAttribute.document 1 (.unqualified "doc") (.unqualified "id")
          ((Pattern.ofRule 0).merge optionalAttribute)) 1 .standard .off)
        (compiled (namedAttribute.document 1 (.unqualified "doc") (.unqualified "id")
          (optionalAttribute.merge (.ofRule 0))) 1 .standard .off) ↔
      namedAttribute.OrderFree 1 (.unqualified "doc") (.unqualified "id") (.ofRule 0)
        optionalAttribute) := by
  have hfresh : namedAttribute.Fresh := by decide
  exact ⟨hfresh, rfl, rfl, rfl, rfl, sameMembers_iff hfresh rfl rfl rfl rfl⟩

/-- An attribute that a rule stands for and that may be left out beside the rule : which of
the two comes first decides whether it may be left out. -/
theorem not_sameMembers_namedAttribute : namedAttribute.Fresh ∧
    ¬SameMembers
      (compiled (namedAttribute.document 1 (.unqualified "doc") (.unqualified "id")
        ((Pattern.ofRule 0).merge optionalAttribute)) 1 .standard .off)
      (compiled (namedAttribute.document 1 (.unqualified "doc") (.unqualified "id")
        (optionalAttribute.merge (.ofRule 0))) 1 .standard .off) := by
  refine ⟨by decide, ?_⟩
  decide +kernel

/-- Only the first of two elements of one name is looked into, so that a document may compile
in one order alone. -/
example :
    let t : RuleTable :=
      ⟨[(Rule.mentioned rootScope "item").define
          (.ofElement (.unqualified "item") (.ofAttribute (.unqualified "n") .text)) none,
        (Rule.mentioned rootScope "cycle").define (.ofRule 1) none,
        .mentioned rootScope startName]⟩
    let b := Pattern.ofElement (.unqualified "item")
      (.union .plain [.ofRule 1, .ofAttribute (.unqualified "n") .text])
    (compiled (t.document 2 (.unqualified "doc") (.unqualified "id") ((Pattern.ofRule 0).merge b)) 2
        .standard .off).isSome = true ∧
      compiled (t.document 2 (.unqualified "doc") (.unqualified "id") (b.merge (.ofRule 0))) 2
        .standard .off = none := by
  decide +kernel

end Compilation

end MarkupTypes
