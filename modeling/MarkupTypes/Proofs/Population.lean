import MarkupTypes.Proofs.Opening
import MarkupTypes.Proofs.Places

/-!
# Types that stay blank

A type is made for every element whose content needs one, but only types that a member is made
for get filled. An element that stands behind another of its name, be it one that an inline rule
brings in, gets no member (`RuleTable.Shadows`). Where every element has one place, nothing else
fills its type either (`Compilation.Finished.not_mem_filled`). So every type of a finished model
was filled, and once, exactly when no element that needs a type stands behind another of its
name (`Compilation.allPopulated_iff`).
-/

namespace MarkupTypes

/-! ## Elements behind others of their name -/

theorem keys_skeleton (slots : List Slot) : keys (slots.map Slot.skeleton) = keys slots := by
  rw [keys, List.filterMap_map]
  exact congrArg (List.filterMap · slots) (funext Slot.key?_skeleton)

namespace RuleTable

variable {t t' : RuleTable} {entry : RuleId} {slots slots' : List Slot}

/-- Some element among the slots needs a type, and stands behind another element of its name
when the slots are written out. -/
def Shadows (t : RuleTable) (slots : List Slot) : Prop :=
  ∃ before tag content optional after occ,
    slots = before ++ .elem tag content optional :: after ∧
      t.Expands t.isInline before occ ∧ (.elem, tag.name) ∈ keys occ ∧
      t.contentOf t.isInline content = .structured

/-- The contents that types are made for : those of reachable rules that are not inline, and of
elements of reachable rules that need a type. -/
inductive Owed (t : RuleTable) (entry : RuleId) : List Slot → Prop
  | rule {id rule} (hreaches : t.Reaches entry id) (hrule : t.get? id = some rule)
    (hinline : rule.isInline = false) : Owed t entry (rule.slots false)
  | element {id rule tag content} (hreaches : t.Reaches entry id)
    (hrule : t.get? id = some rule) (hmem : (tag, content) ∈ rule.elements)
    (hcontent : t.contentOf t.isInline content = .structured) :
    Owed t entry (content.slots false)

/-- Labels and types have no part in which elements stand behind others. -/
theorem Shadows.of_skeleton_eq (h : t'.skeleton = t.skeleton)
    (hslots : slots'.map Slot.skeleton = slots.map Slot.skeleton) (hshadows : t.Shadows slots) :
    t'.Shadows slots' := by
  obtain ⟨before, tag, content, optional, after, occ, rfl, hexpands, hkey, hcontent⟩ := hshadows
  rw [List.map_append, List.map_cons] at hslots
  obtain ⟨before', rest, rfl, hbefore, hrest⟩ := List.map_eq_append_iff.mp hslots
  obtain ⟨s, after', rfl, hs, -⟩ := List.map_eq_cons_iff.mp hrest
  obtain ⟨tag', content', rfl, hname, hp⟩ := Slot.exists_elem_of_skeleton_eq hs
  obtain ⟨occ', hexpands', hocc⟩ := hexpands.of_skeleton_eq h before' hbefore
  have hinline := isInline_of_skeleton_eq h
  refine ⟨before', tag', content', optional, after', occ', rfl, hinline ▸ hexpands', ?_, ?_⟩
  · rwa [← keys_skeleton occ', hocc, keys_skeleton, hname]
  · rwa [hinline, contentOf_eq_of_skeleton_eq h _ hp]

/-- An element of a rule is an element of a rule of the same skeleton. -/
theorem exists_element_of_skeleton_eq {r r' : Rule} (h : r'.skeleton = r.skeleton)
    {x : ElementTag × Pattern} (hx : x ∈ r.elements) :
    ∃ x' ∈ r'.elements, x'.2.skeleton = x.2.skeleton := by
  cases hp : r.pattern with
  | none => simp [Rule.elements, hp] at hx
  | some p =>
    obtain ⟨p', hp', hpattern⟩ := pattern_of_skeleton_eq h hp
    rw [Rule.elements, hp] at hx
    have hmem : ((⟨x.1.name, none, none⟩ : ElementTag), x.2.skeleton) ∈ p'.skeleton.elements := by
      rw [hpattern, Pattern.elements_skeleton]
      exact List.mem_map_of_mem hx
    rw [Pattern.elements_skeleton] at hmem
    obtain ⟨x', hx', heq⟩ := List.mem_map.mp hmem
    exact ⟨x', by rwa [Rule.elements, hp'], congrArg Prod.snd heq⟩

end RuleTable

namespace Compilation

variable {t : RuleTable} {entry : RuleId} {options : CompileOptions} {tracer : Trace.Tracer}
  {c c' : Compilation} {id : RuleId} {rule : Rule} {type own : TypeId} {slots part occ : List Slot}

/-- An inline rule has no type, declared or not. -/
theorem Ordered.output_of_isInline (h : Ordered c) (hrule : c.rules.get? id = some rule)
    (hinline : c.isInline id = true) : rule.output = none := by
  by_cases hstate : rule.state = .unprocessed
  · have hnone := h.unprocessed id rule hrule hstate
    exact Option.toList_eq_nil_iff.mp (List.append_eq_nil_iff.mp hnone).1
  · exact (h.declared id rule hrule hstate).inline hinline

/-- An element that is written out in the content of some type stands there itself, if it has
its place in the content of any. -/
theorem mem_of_mem_expanded (h : Ordered c) (hplain : c.rules.Plain)
    (howner : (type, slots) ∈ c.rules.owners) (hplace : own ∈ ownTypes slots)
    (hexpands : c.rules.Expands c.isInline part occ) {s : Slot} (hs : s ∈ occ)
    (hown : s.own? = some own) : s ∈ part := by
  rcases hexpands.mem_cases hs with hs | ⟨id, rule, optional, hrule, hinline, hs⟩
  · exact hs
  · have hmem : own ∈ ownTypes (rule.slots false) := by
      rw [← rule.ownTypes_slots optional]
      exact mem_ownTypes.mpr ⟨s, hs, hown⟩
    have hsame := RuleTable.holders_unique hplain h.nodup
      (RuleTable.mem_holders_of_rule hrule) (RuleTable.mem_holders_of_mem_owners howner) hmem hplace
    rw [h.output_of_isInline hrule hinline] at hsame
    cases hsame

/-- No rule fills the type of an element that has its place in the content of a type. -/
theorem Ordered.ne_of_mem_jobs (h : Ordered c) (hplain : c.rules.Plain)
    (howner : (type, slots) ∈ c.rules.owners) (hplace : own ∈ ownTypes slots)
    (hrule : c.rules.get? id = some rule) {job : TypeId × List Slot} (hjob : job ∈ rule.jobs) :
    job.1 ≠ own := by
  rintro rfl
  unfold Rule.jobs at hjob
  split at hjob
  · next type' _ hout =>
    -- The type of a rule is not that of an element.
    obtain rfl := List.mem_singleton.mp hjob
    obtain ⟨s, hs, hown⟩ := mem_ownTypes.mp hplace
    cases s with
    | attr _ _ _ => cases hown
    | ref _ _ _ => cases hown
    | elem tag content optional =>
      have helement : (tag, content) ∈ c.rules.elements :=
        within_of_mem_owners (e := c.expansion) howner _ hs List.mem_cons_self
      exact h.not_mem_elementTypes hrule hout (mem_elementTypes.mpr ⟨_, helement, hown⟩)
  · next p hout hp =>
    -- An inline rule fills the types of elements that stand in its own pattern.
    obtain ⟨x, hx, hmap⟩ := List.mem_filterMap.mp hjob
    obtain ⟨type', hxout, rfl⟩ := Option.map_eq_some_iff.mp hmap
    have hpPlain : p.plain = true := hplain rule (RuleTable.mem_of_get? hrule) p hp
    obtain ⟨optional', hslot⟩ := p.mem_slots_of_mem_outermost false hpPlain hx
    have hmem : type' ∈ ownTypes (rule.slots false) := by
      rw [Rule.slots, hp]
      exact mem_ownTypes.mpr ⟨_, hslot, hxout⟩
    have hsame := RuleTable.holders_unique hplain h.nodup (RuleTable.mem_holders_of_rule hrule)
      (RuleTable.mem_holders_of_mem_owners howner) hmem hplace
    rw [hout] at hsame
    cases hsame
  · cases hjob

/-- An element that stands behind another of its name is not the first of its name, and no other
element has its type. -/
theorem Ordered.own_ne_of_behind (h : Ordered c) (hplain : c.rules.Plain)
    {before after occ' : List Slot} {tag : ElementTag} {content : Pattern} {optional : Bool}
    (howner : (type, before ++ .elem tag content optional :: after) ∈ c.rules.owners)
    (hexpands : c.rules.Expands c.isInline before occ) (hkey : (.elem, tag.name) ∈ keys occ)
    (houtput : tag.output = some own)
    (hexpands' : c.rules.Expands c.isInline (before ++ .elem tag content optional :: after) occ')
    {s : Slot} (hs : s ∈ firsts [] occ') : s.own? ≠ some own := by
  intro hown
  have hplace : own ∈ ownTypes (before ++ .elem tag content optional :: after) :=
    mem_ownTypes.mpr ⟨_, List.mem_append_right _ List.mem_cons_self, houtput⟩
  have hnodup :=
    RuleTable.nodup_of_mem_holders hplain h.nodup (RuleTable.mem_holders_of_mem_owners howner)
  rw [ownTypes_append] at hnodup
  obtain ⟨-, hafter, hdisjoint⟩ := List.nodup_append.mp hnodup
  have helem : ownTypes (.elem tag content optional :: after) = own :: ownTypes after :=
    List.filterMap_cons_some houtput
  rw [helem] at hafter hdisjoint
  obtain ⟨occ₁, occ₂, rfl, hfirst, hrest⟩ := hexpands'.of_append
  obtain rfl := hfirst.unique hexpands
  obtain ⟨occ₃, rfl, hlast⟩ := hrest.of_keep fun _ hid => by cases hid
  rw [firsts_append, firsts_cons_seen rfl (List.mem_append_left _ hkey)] at hs
  rcases List.mem_append.mp hs with hs | hs
  · have hbefore := mem_of_mem_expanded h hplain howner hplace hfirst (mem_of_mem_firsts hs) hown
    exact hdisjoint own (mem_ownTypes.mpr ⟨s, hbefore, hown⟩) own List.mem_cons_self rfl
  · have hbehind := mem_of_mem_expanded h hplain howner hplace hlast (mem_of_mem_firsts hs) hown
    exact (List.nodup_cons.mp hafter).1 (mem_ownTypes.mpr ⟨s, hbehind, hown⟩)

/-- The type of an element that stands behind another of its name stays open. -/
theorem Finished.not_mem_filled (h : Finished t entry c) (hadvancing : Advancing c)
    (hplain : c.rules.Plain) {before after : List Slot} {tag : ElementTag} {content : Pattern}
    {optional : Bool}
    (howner : (type, before ++ .elem tag content optional :: after) ∈ c.rules.owners)
    (hexpands : c.rules.Expands c.isInline before occ) (hkey : (.elem, tag.name) ∈ keys occ)
    (houtput : tag.output = some own) : own ∉ c.draft.filled := by
  have hordered := h.generating.sound.toOrdered
  have hplace : own ∈ ownTypes (before ++ .elem tag content optional :: after) :=
    mem_ownTypes.mpr ⟨_, List.mem_append_right _ List.mem_cons_self, houtput⟩
  rw [h.mem_filled_iff hadvancing]
  intro hopened
  generalize heq : own = own' at hopened
  cases hopened with
  | job _ hrule hjob => exact hordered.ne_of_mem_jobs hplain howner hplace hrule hjob heq.symm
  | @element type' slots' occ' s _ _ howner' hexpands' hs hown =>
    subst heq
    -- It could only be filled from the content that it stands in, which makes no member for it.
    have hmem := mem_of_mem_expanded hordered hplain howner hplace hexpands'
      (mem_of_mem_firsts hs) hown
    have hsame := RuleTable.holders_unique hplain hordered.nodup
      (RuleTable.mem_holders_of_mem_owners howner') (RuleTable.mem_holders_of_mem_owners howner)
      (mem_ownTypes.mpr ⟨s, hmem, hown⟩) hplace
    obtain rfl := congrArg Prod.snd hsame
    exact hordered.own_ne_of_behind hplain howner hexpands hkey houtput hexpands' hs hown

/-- Where no element of a content stands behind another of its name, the types of all of them
are filled with the type of the content. -/
theorem Finished.mem_filled_of_slots (h : Finished t entry c)
    (howner : (type, slots) ∈ c.rules.owners) (hfilled : type ∈ c.draft.filled)
    (hclear : ¬c.rules.Shadows slots) : ∀ own ∈ ownTypes slots, own ∈ c.draft.filled := by
  intro own hown
  obtain ⟨s, hs, hown⟩ := mem_ownTypes.mp hown
  obtain ⟨T, occ, -, hdescribes, hopened⟩ := h.generating.populated hfilled howner
  refine hopened s ?_ own hown
  cases s with
  | attr _ _ _ => cases hown
  | ref _ _ _ => cases hown
  | elem tag content optional =>
    have hcontent : c.rules.contentOf c.isInline content = .structured :=
      h.generating.sound.shaped (tag, content)
        (within_of_mem_owners (e := c.expansion) howner _ hs List.mem_cons_self) own hown
    obtain ⟨before, after, rfl⟩ := List.append_of_mem hs
    obtain ⟨occ₁, occ₂, hocc, hfirst, hrest⟩ := hdescribes.expands.of_append
    obtain ⟨occ₃, rfl, -⟩ := hrest.of_keep fun _ hid => by cases hid
    have hinline : c.isInline = c.rules.isInline := isInline_eq_table h.generating.inline_eq
    have hnew : (.elem, tag.name) ∉ keys occ₁ ++ [] := by
      rw [List.append_nil]
      intro hkey
      change c.rules.Expands c.isInline before occ₁ at hfirst
      rw [hinline] at hfirst hcontent
      exact hclear ⟨before, tag, content, optional, after, occ₁, rfl, hfirst, hkey, hcontent⟩
    rw [hocc, firsts_append, firsts_cons_new rfl hnew]
    exact List.mem_append_right _ List.mem_cons_self

/-- Where that is so for all contents, the elements that stand in the pattern of a rule are
filled for the rule. -/
theorem Finished.mem_filled_of_rule_slots (h : Finished t entry c)
    (hclear : ∀ owner ∈ c.rules.owners, ¬c.rules.Shadows owner.2) (hid : id ∈ c.order)
    (hrule : c.rules.get? id = some rule) : ∀ own ∈ ownTypes (rule.slots false),
      own ∈ c.draft.filled := by
  have hjobs := h.generating.generated id rule hrule (h.generated id hid rule hrule)
  intro own hown
  cases houtput : rule.output with
  | some type =>
    have howner := RuleTable.mem_owners_of_rule hrule houtput
    have hjob : (type, rule.slots false) ∈ rule.jobs := by
      rw [Rule.jobs_of_output houtput]
      exact List.mem_singleton_self _
    exact h.mem_filled_of_slots howner (hjobs _ hjob) (hclear _ howner) own hown
  | none =>
    obtain ⟨s, hs, hown⟩ := mem_ownTypes.mp hown
    cases hp : rule.pattern with
    | none => simp [Rule.slots, hp] at hs
    | some p =>
      rw [Rule.slots, hp] at hs
      cases s with
      | attr _ _ _ => cases hown
      | ref _ _ _ => cases hown
      | elem tag content optional =>
        refine hjobs (own, content.slots false) ?_
        rw [Rule.jobs, houtput, hp]
        exact List.mem_filterMap.mpr ⟨(tag, content), p.mem_outermost_of_mem_slots hs,
          Option.map_eq_some_iff.mpr ⟨own, hown, rfl⟩⟩

/-- Where no element stands behind another of its name, every type is filled : by induction on
the pattern of its rule, from the type of the element or the rule around it. -/
theorem Finished.mem_filled_of_clear (h : Finished t entry c) (hplain : c.rules.Plain)
    (hclear : ∀ owner ∈ c.rules.owners, ¬c.rules.Shadows owner.2) {owner : TypeId × List Slot}
    (howner : owner ∈ c.rules.owners) : owner.1 ∈ c.draft.filled := by
  obtain ⟨id, rule, hrule, hid, howner⟩ := h.generating.exists_rule_of_mem_owners howner
  rcases List.mem_append.mp howner with howner | howner
  · obtain ⟨type, houtput, rfl⟩ := List.mem_map.mp howner
    refine h.generating.generated id rule hrule (h.generated id hid rule hrule)
      (type, rule.slots false) ?_
    rw [Rule.jobs_of_output (Option.mem_toList.mp houtput)]
    exact List.mem_singleton_self _
  · obtain ⟨x, hx, hmap⟩ := List.mem_filterMap.mp howner
    obtain ⟨type, houtput, rfl⟩ := Option.map_eq_some_iff.mp hmap
    cases hp : rule.pattern with
    | none => simp [Rule.elements, hp] at hx
    | some p =>
      have helements : rule.elements = p.elements := by simp [Rule.elements, hp]
      have hslots : rule.slots false = p.slots false := by simp [Rule.slots, hp]
      rw [helements] at hx
      refine p.forall_types false (hplain rule (RuleTable.mem_of_get? hrule) p hp)
        (hslots ▸ h.mem_filled_of_rule_slots hclear hid hrule) ?_ x hx type houtput
      rintro ⟨tag, content⟩ hy hcontent hpass own hown
      have helement : (tag, content) ∈ rule.elements := helements ▸ hy
      cases houtput : tag.output with
      | some type' =>
        have howner := RuleTable.mem_owners_of_element
          (RuleTable.mem_elements.mpr ⟨id, rule, hrule, helement⟩) houtput
        exact h.mem_filled_of_slots howner (hpass type' houtput) (hclear _ howner) own hown
      | none =>
        have hnot := h.generating.supports.elements id hid rule hrule _ helement houtput
        rw [ownTypes_of_elements_eq_nil (Pattern.elements_of_contentOf hcontent hnot)] at hown
        cases hown

/-- All types are filled exactly when no element that needs one stands behind another of its
name. -/
theorem Finished.forall_filled_iff (h : Finished t entry c) (hadvancing : Advancing c)
    (hplain : c.rules.Plain) : (∀ owner ∈ c.rules.owners, owner.1 ∈ c.draft.filled) ↔
      ∀ owner ∈ c.rules.owners, ¬c.rules.Shadows owner.2 := by
  have hinline : c.isInline = c.rules.isInline := isInline_eq_table h.generating.inline_eq
  constructor
  · rintro hall ⟨type, slots⟩ howner
      ⟨before, tag, content, optional, after, occ, heq, hexpands, hkey, hcontent⟩
    dsimp only at heq
    subst heq
    rw [← hinline] at hexpands hcontent
    have hmem : Slot.elem tag content optional ∈ before ++ .elem tag content optional :: after :=
      List.mem_append_right _ List.mem_cons_self
    cases houtput : tag.output with
    | none =>
      have hslot := h.generating.inside_of_mem_owners howner _ hmem
      exact hslot.elements _ List.mem_cons_self houtput hcontent
    | some own =>
      have helement := within_of_mem_owners (e := c.expansion) howner _ hmem List.mem_cons_self
      exact h.not_mem_filled hadvancing hplain howner hexpands hkey houtput
        (hall _ (RuleTable.mem_owners_of_element helement houtput))
  · exact fun hclear owner howner => h.mem_filled_of_clear hplain hclear howner

/-- Types have been made for what they are owed to alone. -/
theorem Finished.exists_owed (h : Finished t entry c) (howner : (type, slots) ∈ c.rules.owners) :
    ∃ slots', t.Owed entry slots' ∧ slots'.map Slot.skeleton = slots.map Slot.skeleton := by
  have hordered := h.generating.sound.toOrdered
  obtain ⟨id, rule, hrule, hid, howner'⟩ := h.generating.exists_rule_of_mem_owners howner
  have hreaches := (h.mem_order id).mp hid
  obtain ⟨rule₀, hrule₀, hsame⟩ := RuleTable.get?_of_skeleton_eq h.skeleton.symm hrule
  rcases List.mem_append.mp howner' with howner' | howner'
  · obtain ⟨type', houtput, heq⟩ := List.mem_map.mp howner'
    obtain ⟨rfl, rfl⟩ := Prod.mk.inj heq
    have hinline : rule₀.isInline = false := by
      rw [← rule₀.isInline_skeleton, hsame, rule.isInline_skeleton,
        ← isInline_eq h.generating.inline_eq hrule]
      by_contra hinline
      have hnone := hordered.output_of_isInline hrule (eq_true_of_ne_false hinline)
      rw [Option.mem_toList.mp houtput] at hnone
      cases hnone
    exact ⟨_, .rule hreaches hrule₀ hinline, Rule.map_skeleton_slots hsame false⟩
  · obtain ⟨x, hx, hmap⟩ := List.mem_filterMap.mp howner'
    obtain ⟨type', houtput, heq⟩ := Option.map_eq_some_iff.mp hmap
    obtain ⟨rfl, rfl⟩ := Prod.mk.inj heq
    obtain ⟨⟨tag₀, content₀⟩, hx₀, hcontent⟩ := RuleTable.exists_element_of_skeleton_eq hsame hx
    refine ⟨_, .element hreaches hrule₀ hx₀ ?_, Pattern.map_skeleton_slots hcontent false⟩
    rw [← h.contentOf_eq hcontent.symm]
    exact hordered.shaped x (RuleTable.mem_elements.mpr ⟨id, rule, hrule, hx⟩) _ houtput

/-- A type has been made for all that one is owed to. -/
theorem Finished.exists_owner (h : Finished t entry c) (howed : t.Owed entry slots) :
    ∃ type slots', (type, slots') ∈ c.rules.owners ∧
      slots'.map Slot.skeleton = slots.map Slot.skeleton := by
  cases howed with
  | rule hreaches hrule hinline =>
    obtain ⟨rule', type, _, _, hrule', hsame, houtput, -, -⟩ :=
      h.describes_rule hrule hreaches hinline
    exact ⟨type, _, RuleTable.mem_owners_of_rule hrule' houtput,
      Rule.map_skeleton_slots hsame false⟩
  | @element id rule tag content hreaches hrule hmem hcontent =>
    obtain ⟨rule', hrule', hsame, -, hdeclared, -⟩ := h.exists_rule hreaches hrule
    obtain ⟨x, hx, hskeleton⟩ := RuleTable.exists_element_of_skeleton_eq hsame hmem
    cases houtput : x.1.output with
    | none =>
      have hprovides := hdeclared.elements x hx
      rw [houtput] at hprovides
      exact absurd ((h.contentOf_eq hskeleton).trans hcontent) hprovides
    | some type =>
      exact ⟨type, _, RuleTable.mem_owners_of_element
        (RuleTable.mem_elements.mpr ⟨id, rule', hrule', hx⟩) houtput,
        Pattern.map_skeleton_slots hskeleton false⟩

/-- Whether elements stand behind others can be seen before anything has been compiled. -/
theorem Finished.forall_not_shadows_iff (h : Finished t entry c) :
    (∀ owner ∈ c.rules.owners, ¬c.rules.Shadows owner.2) ↔
      ∀ slots, t.Owed entry slots → ¬t.Shadows slots := by
  constructor
  · intro hclear slots howed hshadows
    obtain ⟨type, slots', howner, hslots⟩ := h.exists_owner howed
    exact hclear _ howner (hshadows.of_skeleton_eq h.skeleton hslots)
  · rintro hclear ⟨type, slots⟩ howner hshadows
    obtain ⟨slots', howed, hslots⟩ := h.exists_owed howner
    exact hclear _ howed (hshadows.of_skeleton_eq h.skeleton.symm hslots)

/-! ## Finished models -/

/-- Every type of the model was filled, and once, with what it was made for. -/
def AllPopulated (c : Compilation) : Prop :=
  ∀ type, c.model.Has type → ∃ slots T occ, (type, slots) ∈ c.rules.owners ∧
    c.draft.filled.count type = 1 ∧ c.model.get? type = some T ∧
    c.expansion.Describes type slots occ T

/-- Every type of the model was filled, and once, with what it was made for, or it was never
filled and is blank. -/
def OncePopulated (c : Compilation) : Prop :=
  ∀ type, c.model.Has type → ∃ slots T, (type, slots) ∈ c.rules.owners ∧
    c.model.get? type = some T ∧
    ((c.draft.filled.count type = 1 ∧ ∃ occ, c.expansion.Describes type slots occ T) ∨
      (c.draft.filled.count type = 0 ∧ T.members = [] ∧ T.parents = []))

theorem Ordered.exists_owner (h : Ordered c) (htype : c.model.Has type) :
    ∃ slots, (type, slots) ∈ c.rules.owners := by
  have hmem : type ∈ c.rules.types := h.has_iff.mp htype
  rw [← RuleTable.map_fst_owners] at hmem
  obtain ⟨⟨type, slots⟩, howner, rfl⟩ := List.mem_map.mp hmem
  exact ⟨slots, howner⟩

theorem Finished.oncePopulated (h : Finished t entry c) (hadvancing : Advancing c) :
    OncePopulated c := by
  intro type htype
  obtain ⟨slots, howner⟩ := h.generating.sound.exists_owner htype
  by_cases hfilled : type ∈ c.draft.filled
  · obtain ⟨T, occ, hT, hdescribes⟩ := h.generating.describes hfilled howner
    exact ⟨slots, T, howner, hT,
      .inl ⟨List.count_eq_one_of_mem hadvancing.nodup hfilled, occ, hdescribes⟩⟩
  · obtain ⟨T, hT⟩ := htype
    exact ⟨slots, T, howner, hT, .inr ⟨List.count_eq_zero_of_not_mem hfilled,
      h.generating.sound.draft.blank type T hT hfilled⟩⟩

theorem Finished.allPopulated_iff_filled (h : Finished t entry c) (hadvancing : Advancing c) :
    AllPopulated c ↔ ∀ owner ∈ c.rules.owners, owner.1 ∈ c.draft.filled := by
  constructor
  · intro hall owner howner
    obtain ⟨slots, T, occ, -, hcount, -⟩ :=
      hall owner.1 (h.generating.sound.typed.has_of_mem_owners howner)
    exact List.count_pos_iff.mp (hcount ▸ Nat.one_pos)
  · intro hall type htype
    obtain ⟨slots, howner⟩ := h.generating.sound.exists_owner htype
    have hfilled := hall _ howner
    obtain ⟨T, occ, hT, hdescribes⟩ := h.generating.describes hfilled howner
    exact ⟨slots, T, occ, howner, List.count_eq_one_of_mem hadvancing.nodup hfilled, hT,
      hdescribes⟩

/-- Where no attribute and no list holds elements, no type of a finished model was filled twice,
and each of them was filled with what it was made for exactly when no element that needs a type
stands behind another of its name, be it in an inline rule. -/
theorem allPopulated_iff (hfresh : t.Fresh) (hplain : t.Plain)
    (hstart : start t entry options tracer = .ok c) {m : Model} (hfinish : finish c = .ok m c') :
    m = c'.model ∧ OncePopulated c' ∧
      (AllPopulated c' ↔ ∀ slots, t.Owed entry slots → ¬t.Shadows slots) := by
  obtain ⟨hm, h⟩ := finished_of_finish hfresh hstart hfinish
  have hadvancing := advancing_of_finish hfresh hstart hfinish
  refine ⟨hm, h.oncePopulated hadvancing, ?_⟩
  rw [h.allPopulated_iff_filled hadvancing,
    h.forall_filled_iff hadvancing (hplain.of_skeleton_eq h.skeleton), h.forall_not_shadows_iff]

theorem allPopulated_iff_nestedItems : RuleTable.nestedItems.Fresh ∧
    RuleTable.nestedItems.Plain ∧ ∃ c m c', start .nestedItems 0 .standard .off = .ok c ∧
      finish c = .ok m c' ∧ m = c'.model ∧ OncePopulated c' ∧
      (AllPopulated c' ↔
        ∀ slots, RuleTable.nestedItems.Owed 0 slots → ¬RuleTable.nestedItems.Shadows slots) := by
  have hfresh : RuleTable.nestedItems.Fresh := by decide
  have hplain : RuleTable.nestedItems.Plain := by decide
  have hok : succeedsWith .nestedItems 0 .standard .off (fun _ _ => true) = true := by
    decide +kernel
  obtain ⟨c, m, c', hstart, hfinish, -⟩ := exists_of_succeedsWith hok
  exact ⟨hfresh, hplain, c, m, c', hstart, hfinish,
    allPopulated_iff hfresh hplain hstart hfinish⟩

end Compilation

/-- Content with attributes or elements gives its type members. -/
theorem Expansion.Describes.members_ne_nil {e : Expansion} {type : TypeId} {slots occ : List Slot}
    {T : WriterType} (h : e.Describes type slots occ T) {s : Slot} (hs : s ∈ slots)
    {key : MemberKey} (hkey : s.key? = some key) : T.members ≠ [] := by
  have hmem : s ∈ occ := h.expands.mem_of_mem hs fun id hid => by
    rw [s.rule?_of_key? hkey] at hid
    cases hid
  obtain ⟨s', hs', -⟩ := exists_mem_firsts hmem hkey List.not_mem_nil
  intro hnil
  have hmembers := h.members
  rw [hnil, List.map_nil] at hmembers
  rw [List.map_eq_nil_iff.mp hmembers.symm] at hs'
  cases hs'

/-- A document with an element of its own beside one of that name from an inline rule. -/
def RuleTable.repeatedItem : RuleTable :=
  ⟨[(Rule.mentioned rootScope startName).define
      (.ofElement (.unqualified "doc")
        (((Pattern.ofRule 1).merge
          (.ofElement (.unqualified "item") (.ofAttribute (.unqualified "n") .text))).merge
            (.ofAttribute (.unqualified "id") .text))) none,
    (Rule.mentioned rootScope "item").define
      (.ofElement (.unqualified "item") (.ofAttribute (.unqualified "lang") .text)) none]⟩

namespace Compilation

/-- The type of the document's own element is left without members, although it was made for
content with an attribute. -/
theorem not_allPopulated_repeatedItem : RuleTable.repeatedItem.Fresh ∧
    RuleTable.repeatedItem.Plain ∧ ∃ c c' slots T, start .repeatedItem 0 .standard .off = .ok c ∧
      finish c = .ok c'.model c' ∧ (1, slots) ∈ c'.rules.owners ∧
      keys slots = [(.attr, .unqualified "n")] ∧ c'.model.get? 1 = some T ∧ T.members = [] ∧
      ¬AllPopulated c' := by
  have hfresh : RuleTable.repeatedItem.Fresh := by decide
  have hplain : RuleTable.repeatedItem.Plain := by decide
  have hok : succeedsWith .repeatedItem 0 .standard .off (fun _ c' =>
      c'.rules.owners.lookup 1 = some [.attr ⟨.unqualified "n", none⟩ .text false] ∧
      (c'.model.get? 1).map WriterType.members = some []) = true := by
    decide +kernel
  obtain ⟨c, m, c', hstart, hfinish, hends⟩ := exists_of_succeedsWith hok
  obtain ⟨hlookup, hmembers⟩ := of_decide_eq_true hends
  obtain ⟨T, hT, hnone⟩ := Option.map_eq_some_iff.mp hmembers
  obtain ⟨rfl, h⟩ := finished_of_finish hfresh hstart hfinish
  have howner : (1, [.attr ⟨.unqualified "n", none⟩ .text false]) ∈ c'.rules.owners := by
    obtain ⟨before, after, heq, -⟩ := List.lookup_eq_some_iff.mp hlookup
    rw [heq]
    exact List.mem_append_right _ List.mem_cons_self
  refine ⟨hfresh, hplain, c, c', _, T, hstart, hfinish, howner, rfl, hT, hnone, fun hall => ?_⟩
  obtain ⟨slots, T', occ, howner', -, hT', hdescribes⟩ := hall 1 ⟨T, hT⟩
  obtain rfl := Option.some.inj (hT.symm.trans hT')
  obtain rfl := RuleTable.owners_unique h.generating.sound.nodup howner howner'
  exact hdescribes.members_ne_nil List.mem_cons_self rfl hnone

end Compilation

end MarkupTypes
