import MarkupTypes.Proofs.Slots
import MarkupTypes.Proofs.Work

/-!
# What compiling leaves of a table

Compiling writes labels, types and states into a table of rules, and nothing else. The
skeleton of a table (`RuleTable.skeleton`) is what is left without them : every step keeps
it, and whether a rule is inline, what it refers to and what an element holds can be read
off it (`RuleTable.contentOf_skeleton`).
-/

namespace MarkupTypes

namespace Pattern

mutual

/-- A pattern without labels and types. -/
def skeleton : Pattern → Pattern
  | attr m tag content => attr m ⟨tag.name, none⟩ content.skeleton
  | elem m tag content => elem m ⟨tag.name, none, none⟩ content.skeleton
  | ref m rule _ => ref m rule none
  | list m item => list m item.skeleton
  | union m members => union m (skeletons members)
  | empty m => empty m
  | data m type => data m type
  | value m type literal => value m type literal

/-- Patterns without labels and types. -/
def skeletons : List Pattern → List Pattern
  | [] => []
  | p :: ps => p.skeleton :: skeletons ps

end

theorem skeletons_eq_map (ps : List Pattern) : skeletons ps = ps.map skeleton := by
  induction ps with
  | nil => rfl
  | cons p ps ih => rw [skeletons, ih, List.map_cons]

/-! ## What does not change the skeleton -/

mutual

/-- Labels and types may change, names may not. -/
theorem skeleton_mapElements (f : Nat → ElementTag → ElementTag)
    (hf : ∀ n tag, (f n tag).name = tag.name) : ∀ (p : Pattern) (n : Nat),
    (p.mapElements f n).skeleton = p.skeleton
  | attr _ _ content, n => by simp [mapElements, skeleton, skeleton_mapElements f hf content n]
  | elem _ _ content, n => by
    simp [mapElements, skeleton, hf, skeleton_mapElements f hf content (n + 1)]
  | list _ item, n => by simp [mapElements, skeleton, skeleton_mapElements f hf item n]
  | union _ ps, n => by simp [mapElements, skeleton, skeletons_mapElementsAll f hf ps n]
  | empty _, _ => rfl
  | data _ _, _ => rfl
  | value _ _ _, _ => rfl
  | ref _ _ _, _ => rfl

theorem skeletons_mapElementsAll (f : Nat → ElementTag → ElementTag)
    (hf : ∀ n tag, (f n tag).name = tag.name) : ∀ (ps : List Pattern) (n : Nat),
    skeletons (mapElementsAll f n ps) = skeletons ps
  | [], _ => rfl
  | p :: ps, n => by
    simp [mapElementsAll, skeletons, skeleton_mapElements f hf p n,
      skeletons_mapElementsAll f hf ps (n + p.elementCount)]

end

theorem skeleton_labelled (name : String) (p : Pattern) :
    (Compilation.labelled name p).skeleton = p.skeleton := by
  cases p <;> rfl

/-! ## What the skeleton shows -/

mutual

@[simp] theorem refs_skeleton : ∀ p : Pattern, p.skeleton.refs = p.refs
  | attr _ _ content => by simp [skeleton, refs, refs_skeleton content]
  | elem _ _ content => by simp [skeleton, refs, refs_skeleton content]
  | list _ item => by simp [skeleton, refs, refs_skeleton item]
  | union _ ps => by simp [skeleton, refs, refsAll_skeletons ps]
  | empty _ => rfl
  | data _ _ => rfl
  | value _ _ _ => rfl
  | ref _ _ _ => rfl

theorem refsAll_skeletons : ∀ ps : List Pattern, refsAll (skeletons ps) = refsAll ps
  | [] => rfl
  | p :: ps => by simp [skeletons, refsAll, refs_skeleton p, refsAll_skeletons ps]

end

mutual

@[simp] theorem scan_skeleton (follow : RuleId → List ValueType → TextScan) :
    ∀ (p : Pattern) (types : List ValueType), p.skeleton.scan follow types = p.scan follow types
  | list _ item, _ => by simp [skeleton, scan, scan_skeleton follow item]
  | union _ ps, types => by simp [skeleton, scan, scanAll_skeletons follow ps types]
  | attr _ _ _, _ => rfl
  | elem _ _ _, _ => rfl
  | empty _, _ => rfl
  | data _ _, _ => rfl
  | value _ _ _, _ => rfl
  | ref _ _ _, _ => rfl

theorem scanAll_skeletons (follow : RuleId → List ValueType → TextScan) :
    ∀ (ps : List Pattern) (types : List ValueType),
    scanAll follow (skeletons ps) types = scanAll follow ps types
  | [], _ => rfl
  | p :: ps, types => by
    simp [skeletons, scanAll, scan_skeleton follow p, scanAll_skeletons follow ps]

end

theorem children_skeleton (p : Pattern) : p.skeleton.children = p.children.map skeleton := by
  cases p <;> simp [skeleton, children, skeletons_eq_map]

end Pattern

/-- A slot without labels and types. -/
def Slot.skeleton : Slot → Slot
  | attr tag content o => attr ⟨tag.name, none⟩ content.skeleton o
  | elem tag content o => elem ⟨tag.name, none, none⟩ content.skeleton o
  | ref rule location o => ref rule location o

namespace Slot

@[simp] theorem key?_skeleton (s : Slot) : s.skeleton.key? = s.key? := by cases s <;> rfl

@[simp] theorem rule?_skeleton (s : Slot) : s.skeleton.rule? = s.rule? := by cases s <;> rfl

@[simp] theorem optional_skeleton (s : Slot) : s.skeleton.optional = s.optional := by
  cases s <;> rfl

end Slot

namespace Pattern

mutual

theorem slots_skeleton : ∀ (p : Pattern) (outer : Bool),
    p.skeleton.slots outer = (p.slots outer).map Slot.skeleton
  | attr _ _ _, _ => rfl
  | elem _ _ _, _ => rfl
  | ref _ _ _, _ => rfl
  | union m ps, outer => by simp [skeleton, slots, slotsAll_skeletons ps (outer || m.optional)]
  | empty _, _ => rfl
  | data _ _, _ => rfl
  | value _ _ _, _ => rfl
  | list _ _, _ => rfl

theorem slotsAll_skeletons : ∀ (ps : List Pattern) (outer : Bool),
    slotsAll outer (skeletons ps) = (slotsAll outer ps).map Slot.skeleton
  | [], _ => rfl
  | p :: ps, outer => by
    simp [skeletons, slotsAll, slots_skeleton p outer, slotsAll_skeletons ps outer]

end

@[simp] theorem bareRules_skeleton (p : Pattern) : p.skeleton.bareRules = p.bareRules := by
  rw [bareRules, slots_skeleton, List.filterMap_map]
  exact congrArg (List.filterMap · _) (funext fun s => s.rule?_skeleton)

end Pattern

/-- A rule as it is before anything was done with it. -/
def Rule.skeleton (r : Rule) : Rule :=
  { r with pattern := r.pattern.map Pattern.skeleton, output := none, state := .unprocessed }

namespace Rule

@[simp] theorem pattern_skeleton (r : Rule) :
    r.skeleton.pattern = r.pattern.map Pattern.skeleton := rfl

@[simp] theorem displayName_skeleton (r : Rule) : r.skeleton.displayName = r.displayName := rfl

@[simp] theorem key_skeleton (r : Rule) : r.skeleton.key = r.key := rfl

@[simp] theorem refs_skeleton (r : Rule) : r.skeleton.refs = r.refs := by
  cases h : r.pattern <;> simp [refs, h]

@[simp] theorem isInline_skeleton (r : Rule) : r.skeleton.isInline = r.isInline := by
  cases h : r.pattern <;> simp [isInline, children, h, Pattern.children_skeleton]

end Rule

namespace RuleTable

/-- The table as it is before anything was done with it. -/
def skeleton (t : RuleTable) : RuleTable := ⟨t.rules.map Rule.skeleton⟩

variable (t : RuleTable)

@[simp] theorem size_skeleton : t.skeleton.size = t.size := List.length_map ..

@[simp] theorem get?_skeleton (id : RuleId) :
    t.skeleton.get? id = (t.get? id).map Rule.skeleton := List.getElem?_map ..

theorem map_isInline_skeleton : t.skeleton.rules.map Rule.isInline = t.rules.map Rule.isInline := by
  simp [skeleton, Function.comp_def]

/-- A change of one rule that keeps what `g` reads off it. -/
theorem map_modify {α : Type} {t : RuleTable} {id : RuleId} {f : Rule → Rule} {g : Rule → α}
    (hf : ∀ rule, t.get? id = some rule → g (f rule) = g rule) :
    (t.modify id f).rules.map g = t.rules.map g := by
  refine List.ext_getElem? fun i => ?_
  simp only [modify, List.getElem?_map, List.getElem?_modify]
  by_cases hi : id = i
  · subst hi
    cases hrule : t.rules[id]? with
    | none => simp
    | some rule => simp [hf rule hrule]
  · simp [hi]

/-- A change of one rule that keeps its skeleton keeps that of the table. -/
theorem skeleton_modify {t : RuleTable} {id : RuleId} {f : Rule → Rule}
    (hf : ∀ rule, t.get? id = some rule → (f rule).skeleton = rule.skeleton) :
    (t.modify id f).skeleton = t.skeleton := congrArg mk (map_modify hf)

/-- Two tables of one skeleton have the same rules, but for labels, types and states. -/
theorem get?_of_skeleton_eq {t t' : RuleTable} (h : t'.skeleton = t.skeleton) {id : RuleId}
    {rule : Rule} (hrule : t.get? id = some rule) :
    ∃ rule', t'.get? id = some rule' ∧ rule'.skeleton = rule.skeleton := by
  have hget := congrArg (RuleTable.get? · id) h
  simp only [get?_skeleton, hrule, Option.map_some] at hget
  exact Option.map_eq_some_iff.mp hget

/-- The same patterns, but for labels and types. -/
theorem pattern_of_skeleton_eq {r r' : Rule} (h : r'.skeleton = r.skeleton) {p : Pattern}
    (hp : r.pattern = some p) : ∃ p', r'.pattern = some p' ∧ p'.skeleton = p.skeleton := by
  have hpattern := congrArg Rule.pattern h
  simp only [Rule.pattern_skeleton, hp, Option.map_some] at hpattern
  exact Option.map_eq_some_iff.mp hpattern

/-! ## Text content -/

theorem followWithin_skeleton (beyond : RuleId → List ValueType → TextScan) (n : Nat)
    (inside : List RuleId) :
    t.skeleton.followWithin beyond n inside = t.followWithin beyond n inside := by
  induction n generalizing inside with
  | zero => rfl
  | succ n ih =>
    funext id types
    simp only [followWithin, get?_skeleton, ih]
    cases hrule : t.get? id with
    | none => rfl
    | some rule =>
      cases hp : rule.pattern <;> simp [hp]

@[simp] theorem scan_skeleton (p : Pattern) : t.skeleton.scan p.skeleton = t.scan p := by
  rw [scan, scan, Pattern.scan_skeleton, follow, follow, followWithin_skeleton, size_skeleton]

/-- What an element holds can be read off the skeletons. -/
theorem contentOf_skeleton (isInline : RuleId → Bool) (p : Pattern) :
    t.skeleton.contentOf isInline p.skeleton = t.contentOf isInline p := by
  have hchildren : p.skeleton.children.isEmpty = p.children.isEmpty := by
    rw [Pattern.children_skeleton, List.isEmpty_map]
  unfold contentOf
  rw [scan_skeleton, hchildren]
  cases p <;> rfl

/-- Only a lone reference to a rule with a type is delegated to. -/
theorem ref_of_contentOf_delegated {t : RuleTable} {isInline : RuleId → Bool} {p : Pattern}
    {id : RuleId} (h : t.contentOf isInline p = .delegated id) :
    ∃ m label, p = .ref m id label ∧ isInline id = false := by
  unfold contentOf at h
  split at h
  · cases h
  · simp only at h
    split at h
    · split at h <;> cases h
    · split at h
      · next m rule label _ _ =>
        split at h
        · cases h
        · next hinline =>
          cases h
          exact ⟨m, label, rfl, Bool.eq_false_iff.mpr hinline⟩
      · cases h

theorem contentOf_eq_of_skeleton_eq {t t' : RuleTable} (h : t'.skeleton = t.skeleton)
    (isInline : RuleId → Bool) {p p' : Pattern} (hp : p'.skeleton = p.skeleton) :
    t'.contentOf isInline p' = t.contentOf isInline p := by
  rw [← contentOf_skeleton t', ← contentOf_skeleton t, h, hp]

theorem scan_eq_of_skeleton_eq {t t' : RuleTable} (h : t'.skeleton = t.skeleton)
    {p p' : Pattern} (hp : p'.skeleton = p.skeleton) : t'.scan p' = t.scan p := by
  rw [← scan_skeleton t', ← scan_skeleton t, h, hp]

end RuleTable

end MarkupTypes
