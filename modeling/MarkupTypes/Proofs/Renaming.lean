import MarkupTypes.Proofs.Opening

/-!
# Tables with renamed types

The table that results when every type in it is changed by a function (`RuleTable.mapTypes`).
It stands to the first one as `RuleTable.Retypes` says, so that expansions of the two give the
same members and parents, but for the change.

Two tables that are the same when types and states are left out, and in which the same rules and
elements have types, arise from each other by such a change (`RuleTable.exists_mapTypes`).
-/

namespace MarkupTypes

/-! ## Patterns -/

namespace Pattern

variable (f g : Option TypeId → Option TypeId)

mutual

/-- A pattern with the types of its elements changed. -/
def mapTypes : Pattern → Pattern
  | attr m tag content => attr m tag content.mapTypes
  | elem m tag content => elem m { tag with output := f tag.output } content.mapTypes
  | list m item => list m item.mapTypes
  | union m members => union m (mapTypesAll members)
  | ref m rule label => ref m rule label
  | empty m => empty m
  | data m type => data m type
  | value m type literal => value m type literal

/-- Patterns with the types of their elements changed. -/
def mapTypesAll : List Pattern → List Pattern
  | [] => []
  | p :: ps => p.mapTypes :: mapTypesAll ps

end

variable {f g}

mutual

@[simp] theorem skeleton_mapTypes : ∀ p : Pattern, (p.mapTypes f).skeleton = p.skeleton
  | attr _ _ content => by rw [mapTypes, skeleton, skeleton, content.skeleton_mapTypes]
  | elem _ _ content => by rw [mapTypes, skeleton, skeleton, content.skeleton_mapTypes]
  | list _ item => by rw [mapTypes, skeleton, skeleton, item.skeleton_mapTypes]
  | union _ ps => by rw [mapTypes, skeleton, skeleton, skeletons_mapTypesAll ps]
  | ref _ _ _ => rfl
  | empty _ => rfl
  | data _ _ => rfl
  | value _ _ _ => rfl

theorem skeletons_mapTypesAll : ∀ ps : List Pattern, skeletons (mapTypesAll f ps) = skeletons ps
  | [] => rfl
  | p :: ps => by rw [mapTypesAll, skeletons, skeletons, p.skeleton_mapTypes,
      skeletons_mapTypesAll ps]

end

mutual

theorem mapTypes_mapTypes : ∀ p : Pattern, (p.mapTypes f).mapTypes g = p.mapTypes (g ∘ f)
  | attr _ _ content => by simp only [mapTypes, content.mapTypes_mapTypes]
  | elem _ _ content => by simp only [mapTypes, content.mapTypes_mapTypes, Function.comp_apply]
  | list _ item => by simp only [mapTypes, item.mapTypes_mapTypes]
  | union _ ps => by simp only [mapTypes, mapTypesAll_mapTypesAll ps]
  | ref _ _ _ => rfl
  | empty _ => rfl
  | data _ _ => rfl
  | value _ _ _ => rfl

theorem mapTypesAll_mapTypesAll : ∀ ps : List Pattern,
    mapTypesAll g (mapTypesAll f ps) = mapTypesAll (g ∘ f) ps
  | [] => rfl
  | p :: ps => by simp only [mapTypesAll, p.mapTypes_mapTypes, mapTypesAll_mapTypesAll ps]

end

mutual

theorem mapTypes_id : ∀ p : Pattern, p.mapTypes id = p
  | attr _ _ content => by rw [mapTypes, content.mapTypes_id]
  | elem _ _ content => by rw [mapTypes, content.mapTypes_id, id]
  | list _ item => by rw [mapTypes, item.mapTypes_id]
  | union _ ps => by rw [mapTypes, mapTypesAll_id ps]
  | ref _ _ _ => rfl
  | empty _ => rfl
  | data _ _ => rfl
  | value _ _ _ => rfl

theorem mapTypesAll_id : ∀ ps : List Pattern, mapTypesAll id ps = ps
  | [] => rfl
  | p :: ps => by rw [mapTypesAll, p.mapTypes_id, mapTypesAll_id ps]

end

mutual

theorem elements_mapTypes : ∀ p : Pattern, (p.mapTypes f).elements =
    p.elements.map fun x => ({ x.1 with output := f x.1.output }, x.2.mapTypes f)
  | attr _ _ content => content.elements_mapTypes
  | elem _ _ content => by
    rw [mapTypes, elements, elements, List.map_cons, content.elements_mapTypes]
  | list _ item => item.elements_mapTypes
  | union _ ps => elementsAll_mapTypesAll ps
  | ref _ _ _ => rfl
  | empty _ => rfl
  | data _ _ => rfl
  | value _ _ _ => rfl

theorem elementsAll_mapTypesAll : ∀ ps : List Pattern, elementsAll (mapTypesAll f ps) =
    (elementsAll ps).map fun x => ({ x.1 with output := f x.1.output }, x.2.mapTypes f)
  | [] => rfl
  | p :: ps => by
    rw [mapTypesAll, elementsAll, elementsAll, List.map_append, p.elements_mapTypes,
      elementsAll_mapTypesAll ps]

end

mutual

theorem outermost_mapTypes : ∀ p : Pattern, (p.mapTypes f).outermost =
    p.outermost.map fun x => ({ x.1 with output := f x.1.output }, x.2.mapTypes f)
  | attr _ _ content => content.outermost_mapTypes
  | elem _ _ _ => rfl
  | list _ item => item.outermost_mapTypes
  | union _ ps => outermostAll_mapTypesAll ps
  | ref _ _ _ => rfl
  | empty _ => rfl
  | data _ _ => rfl
  | value _ _ _ => rfl

theorem outermostAll_mapTypesAll : ∀ ps : List Pattern, outermostAll (mapTypesAll f ps) =
    (outermostAll ps).map fun x => ({ x.1 with output := f x.1.output }, x.2.mapTypes f)
  | [] => rfl
  | p :: ps => by
    rw [mapTypesAll, outermostAll, outermostAll, List.map_append, p.outermost_mapTypes,
      outermostAll_mapTypesAll ps]

end

mutual

/-- The slots with the types changed. -/
theorem retyped_mapTypes {σ : TypeId → TypeId} : ∀ (p : Pattern) (outer : Bool),
    List.Forall₂ (Slot.Retyped σ) (p.slots outer) ((p.mapTypes (Option.map σ)).slots outer)
  | attr _ _ content, _ => .cons (.attr content.skeleton_mapTypes) .nil
  | elem _ tag content, _ => by
    refine .cons (.elem rfl rfl (fun own hown => ?_) content.skeleton_mapTypes) .nil
    rw [hown, Option.map_some]
  | ref _ _ _, _ => .cons .ref .nil
  | union m ps, outer => retyped_mapTypesAll ps (outer || m.optional)
  | list _ _, _ => .nil
  | empty _, _ => .nil
  | data _ _, _ => .nil
  | value _ _ _, _ => .nil

theorem retyped_mapTypesAll {σ : TypeId → TypeId} : ∀ (ps : List Pattern) (outer : Bool),
    List.Forall₂ (Slot.Retyped σ) (slotsAll outer ps)
      (slotsAll outer (mapTypesAll (Option.map σ) ps))
  | [], _ => .nil
  | p :: ps, outer => List.rel_append (p.retyped_mapTypes outer) (retyped_mapTypesAll ps outer)

end

mutual

/-- A change of elements that keeps all but their types is no change once types are left out. -/
theorem mapTypes_mapElements {h : Nat → ElementTag → ElementTag}
    (hh : ∀ n tag, { h n tag with output := none } = { tag with output := none }) :
    ∀ (p : Pattern) (n : Nat),
    (p.mapElements h n).mapTypes (fun _ => none) = p.mapTypes fun _ => none
  | attr _ _ content, n => by rw [mapElements, mapTypes, mapTypes, content.mapTypes_mapElements hh]
  | elem _ _ content, n => by
    rw [mapElements, mapTypes, mapTypes, content.mapTypes_mapElements hh, hh]
  | list _ item, n => by rw [mapElements, mapTypes, mapTypes, item.mapTypes_mapElements hh]
  | union _ ps, n => by rw [mapElements, mapTypes, mapTypes, mapTypesAll_mapElementsAll hh ps]
  | ref _ _ _, _ => rfl
  | empty _, _ => rfl
  | data _ _, _ => rfl
  | value _ _ _, _ => rfl

theorem mapTypesAll_mapElementsAll {h : Nat → ElementTag → ElementTag}
    (hh : ∀ n tag, { h n tag with output := none } = { tag with output := none }) :
    ∀ (ps : List Pattern) (n : Nat),
    mapTypesAll (fun _ => none) (mapElementsAll h n ps) = mapTypesAll (fun _ => none) ps
  | [], _ => rfl
  | p :: ps, n => by
    rw [mapElementsAll, mapTypesAll, mapTypesAll, p.mapTypes_mapElements hh,
      mapTypesAll_mapElementsAll hh ps]

end

mutual

/-- Two patterns that are the same but for types differ by a change, if the types do. -/
theorem eq_mapTypes : ∀ p q : Pattern,
    q.mapTypes (fun _ => none) = p.mapTypes (fun _ => none) →
    (q.elements.map fun x => x.1.output) = (p.elements.map fun x => f x.1.output) →
    q = p.mapTypes f
  | attr _ _ content, q, h, htypes => by
    cases q with
    | attr _ _ content' =>
      simp only [mapTypes, attr.injEq] at h ⊢
      exact ⟨h.1, h.2.1, content.eq_mapTypes content' h.2.2 htypes⟩
    | _ => cases h
  | elem _ tag content, q, h, htypes => by
    cases q with
    | elem _ tag' content' =>
      simp only [mapTypes, elem.injEq, ElementTag.mk.injEq, and_true] at h ⊢
      simp only [elements, List.map_cons, List.cons.injEq] at htypes
      refine ⟨h.1, ?_, content.eq_mapTypes content' h.2.2 htypes.2⟩
      rw [← h.2.1.1, ← h.2.1.2, ← htypes.1]
    | _ => cases h
  | list _ item, q, h, htypes => by
    cases q with
    | list _ item' =>
      simp only [mapTypes, list.injEq] at h ⊢
      exact ⟨h.1, item.eq_mapTypes item' h.2 htypes⟩
    | _ => cases h
  | union _ ps, q, h, htypes => by
    cases q with
    | union _ qs =>
      simp only [mapTypes, union.injEq] at h ⊢
      exact ⟨h.1, eq_mapTypesAll ps qs h.2 htypes⟩
    | _ => cases h
  | ref _ _ _, q, h, _ => by cases q <;> first | exact h | cases h
  | empty _, q, h, _ => by cases q <;> first | exact h | cases h
  | data _ _, q, h, _ => by cases q <;> first | exact h | cases h
  | value _ _ _, q, h, _ => by cases q <;> first | exact h | cases h

theorem eq_mapTypesAll : ∀ ps qs : List Pattern,
    mapTypesAll (fun _ => none) qs = mapTypesAll (fun _ => none) ps →
    ((elementsAll qs).map fun x => x.1.output) = ((elementsAll ps).map fun x => f x.1.output) →
    qs = mapTypesAll f ps
  | [], qs, h, _ => by
    cases qs with
    | nil => rfl
    | cons => cases h
  | p :: ps, qs, h, htypes => by
    cases qs with
    | nil => cases h
    | cons q qs =>
      simp only [mapTypesAll, List.cons.injEq] at h ⊢
      -- As many elements in the first patterns as in each other.
      have hlength : q.elements.length = p.elements.length := by
        have hsame := congrArg (fun r : Pattern => r.elements.length) h.1
        simpa [elements_mapTypes] using hsame
      rw [elementsAll, elementsAll, List.map_append, List.map_append] at htypes
      obtain ⟨hfirst, hrest⟩ := List.append_inj htypes (by simp [hlength])
      exact ⟨p.eq_mapTypes q h.1 hfirst, eq_mapTypesAll ps qs h.2 hrest⟩

end

end Pattern

/-! ## Rules and tables -/

/-- A rule with its types changed. -/
def Rule.mapTypes (f : Option TypeId → Option TypeId) (r : Rule) : Rule :=
  { r with pattern := r.pattern.map (Pattern.mapTypes f), output := f r.output }

/-- A rule without types, as it is before it is declared. -/
def Rule.stripped (r : Rule) : Rule :=
  { r.mapTypes fun _ => none with state := .unprocessed }

/-- The types of a rule and of its elements, where there are any. -/
def Rule.outputs (r : Rule) : List (Option TypeId) :=
  r.output :: r.elements.map fun x => x.1.output

/-- A table with its types changed. -/
def RuleTable.mapTypes (f : Option TypeId → Option TypeId) (t : RuleTable) : RuleTable :=
  ⟨t.rules.map (Rule.mapTypes f)⟩

/-- A table without types, as it is before any rule is declared. -/
def RuleTable.stripped (t : RuleTable) : RuleTable := ⟨t.rules.map Rule.stripped⟩

namespace Rule

variable {f : Option TypeId → Option TypeId} {σ : TypeId → TypeId} {r r' : Rule}

theorem filterMap_outputs (r : Rule) : r.outputs.filterMap id = r.types := by
  rw [outputs, types, elementTypes, List.filterMap_cons, List.filterMap_map]
  cases r.output <;> rfl

theorem elements_mapTypes (f : Option TypeId → Option TypeId) (r : Rule) :
    (r.mapTypes f).elements =
      r.elements.map fun x => ({ x.1 with output := f x.1.output }, x.2.mapTypes f) := by
  cases hp : r.pattern with
  | none => simp [elements, mapTypes, hp]
  | some p => simp [elements, mapTypes, hp, p.elements_mapTypes]

theorem outputs_mapTypes (f : Option TypeId → Option TypeId) (r : Rule) :
    (r.mapTypes f).outputs = r.outputs.map f := by
  rw [outputs, outputs, elements_mapTypes, List.map_map, List.map_cons, List.map_map]
  rfl

theorem skeleton_mapTypes (f : Option TypeId → Option TypeId) (r : Rule) :
    (r.mapTypes f).skeleton = r.skeleton := by
  cases hp : r.pattern <;> simp [skeleton, mapTypes, hp]

theorem mapTypes_mapTypes {g : Option TypeId → Option TypeId} (r : Rule) :
    (r.mapTypes f).mapTypes g = r.mapTypes (g ∘ f) := by
  cases hp : r.pattern <;> simp [mapTypes, hp, Pattern.mapTypes_mapTypes]

theorem mapTypes_id (r : Rule) : r.mapTypes id = r := by
  have hpattern : r.pattern.map (Pattern.mapTypes id) = r.pattern := by
    rw [show Pattern.mapTypes id = id from funext Pattern.mapTypes_id, Option.map_id, id]
  rw [mapTypes, hpattern]
  rfl

/-- Two rules that are the same but for types differ by a change, if the types do. -/
theorem eq_mapTypes (h : r'.stripped = r.stripped) (hstate : r'.state = r.state)
    (houtputs : r'.outputs = r.outputs.map f) : r' = r.mapTypes f := by
  have hstripped : r'.pattern.map (Pattern.mapTypes fun _ => none) =
      r.pattern.map (Pattern.mapTypes fun _ => none) := congrArg Rule.pattern h
  rw [outputs, outputs, List.map_cons, List.map_map] at houtputs
  obtain ⟨houtput, helements⟩ := List.cons.inj houtputs
  have hpattern : r'.pattern = r.pattern.map (Pattern.mapTypes f) := by
    cases hp : r.pattern with
    | none =>
      rw [hp, Option.map_none, Option.map_eq_none_iff] at hstripped
      exact hstripped
    | some p =>
      rw [hp, Option.map_some] at hstripped
      obtain ⟨q, hq, heq⟩ := Option.map_eq_some_iff.mp hstripped
      have htypes : (q.elements.map fun x => x.1.output) =
          p.elements.map fun x => f x.1.output := by
        simpa only [elements, hp, hq, Function.comp_def] using helements
      rw [hq, Option.map_some, p.eq_mapTypes q heq htypes]
  have hscope : r'.scope = r.scope := by
    change r'.stripped.scope = r.stripped.scope
    rw [h]
  have hname : r'.name = r.name := by
    change r'.stripped.name = r.stripped.name
    rw [h]
  have hlocation : r'.location = r.location := by
    change r'.stripped.location = r.stripped.location
    rw [h]
  obtain ⟨_, _, _, _, _, _⟩ := r'
  subst hscope hname hlocation hstate houtput hpattern
  rfl

theorem slots_mapTypes (σ : TypeId → TypeId) (r : Rule) (outer : Bool) :
    List.Forall₂ (Slot.Retyped σ) (r.slots outer)
      ((r.mapTypes (Option.map σ)).slots outer) := by
  cases hp : r.pattern with
  | none => simp [slots, mapTypes, hp]
  | some p =>
    simp only [slots, mapTypes, hp, Option.map_some]
    exact p.retyped_mapTypes outer

theorem output_mapTypes (σ : TypeId → TypeId) (r : Rule) :
    (r.mapTypes (Option.map σ)).output = r.output.map σ := rfl

/-- What a rule has to fill are the types that they were changed to. -/
theorem exists_job_mapTypes (σ : TypeId → TypeId) {r : Rule} {job : TypeId × List Slot}
    (hjob : job ∈ r.jobs) : ∃ job' ∈ (r.mapTypes (Option.map σ)).jobs, job'.1 = σ job.1 := by
  unfold jobs at hjob
  split at hjob
  · next _ type houtput =>
    obtain rfl := List.mem_singleton.mp hjob
    have houtput' : (r.mapTypes (Option.map σ)).output = some (σ type) := by
      rw [output_mapTypes, houtput, Option.map_some]
    exact ⟨(σ type, _), by rw [jobs_of_output houtput']; exact List.mem_singleton_self _, rfl⟩
  · next p houtput hp =>
    obtain ⟨x, hx, hmap⟩ := List.mem_filterMap.mp hjob
    obtain ⟨type, htype, rfl⟩ := Option.map_eq_some_iff.mp hmap
    have houtput' : (r.mapTypes (Option.map σ)).output = none := by
      rw [output_mapTypes, houtput, Option.map_none]
    have hp' : (r.mapTypes (Option.map σ)).pattern = some (p.mapTypes (Option.map σ)) := by
      rw [mapTypes, hp, Option.map_some]
    refine ⟨(σ type, (x.2.mapTypes (Option.map σ)).slots false), ?_, rfl⟩
    rw [jobs, houtput', hp']
    refine List.mem_filterMap.mpr
      ⟨({ x.1 with output := x.1.output.map σ }, x.2.mapTypes (Option.map σ)), ?_, ?_⟩
    · rw [p.outermost_mapTypes]
      exact List.mem_map_of_mem hx
    · simp [htype]
  · cases hjob

theorem exists_owner_mapTypes (σ : TypeId → TypeId) {r : Rule} {owner : TypeId × List Slot}
    (howner : owner ∈ r.owners) : ∃ slots', (σ owner.1, slots') ∈
        (r.mapTypes (Option.map σ)).owners ∧
      List.Forall₂ (Slot.Retyped σ) owner.2 slots' := by
  rcases List.mem_append.mp howner with howner | howner
  · obtain ⟨type, houtput, rfl⟩ := List.mem_map.mp howner
    refine ⟨_, List.mem_append_left _ (List.mem_map.mpr ⟨σ type, ?_, rfl⟩),
      slots_mapTypes σ r false⟩
    rw [output_mapTypes, Option.mem_toList.mp houtput]
    exact List.mem_singleton_self _
  · obtain ⟨x, hx, hmap⟩ := List.mem_filterMap.mp howner
    obtain ⟨type, houtput, rfl⟩ := Option.map_eq_some_iff.mp hmap
    refine ⟨(x.2.mapTypes (Option.map σ)).slots false, List.mem_append_right _ ?_,
      x.2.retyped_mapTypes false⟩
    refine List.mem_filterMap.mpr
      ⟨({ x.1 with output := x.1.output.map σ }, x.2.mapTypes (Option.map σ)), ?_, ?_⟩
    · rw [elements_mapTypes]
      exact List.mem_map_of_mem hx
    · simp [houtput]

/-- A rule with types changed by a function has them as `Rule.Retypes` says. -/
theorem retypes_mapTypes (σ : TypeId → TypeId) (r : Rule) :
    r.Retypes σ (r.mapTypes (Option.map σ)) where
  slots := slots_mapTypes σ r
  output type htype := by rw [output_mapTypes, htype, Option.map_some]
  jobs _ hjob := exists_job_mapTypes σ hjob
  owners _ howner := exists_owner_mapTypes σ howner

end Rule

namespace RuleTable

variable {t t' : RuleTable} {f g : Option TypeId → Option TypeId} {σ : TypeId → TypeId}

/-- The types of all rules and all elements of a table, where there are any. -/
def outputs (t : RuleTable) : List (Option TypeId) := t.rules.flatMap Rule.outputs

theorem filterMap_outputs (t : RuleTable) : t.outputs.filterMap id = t.types := by
  rw [outputs, List.filterMap_flatMap, types]
  exact congrArg (List.flatMap · t.rules) (funext Rule.filterMap_outputs)

theorem outputs_mapTypes (f : Option TypeId → Option TypeId) (t : RuleTable) :
    (t.mapTypes f).outputs = t.outputs.map f := by
  rw [outputs, mapTypes, List.flatMap_map, outputs, List.map_flatMap]
  exact congrArg (List.flatMap · t.rules) (funext (Rule.outputs_mapTypes f))

theorem mapTypes_mapTypes (t : RuleTable) : (t.mapTypes f).mapTypes g = t.mapTypes (g ∘ f) := by
  rw [mapTypes, mapTypes, mapTypes, List.map_map]
  exact congrArg (fun h => mk (t.rules.map h)) (funext Rule.mapTypes_mapTypes)

theorem mapTypes_id (t : RuleTable) : t.mapTypes id = t := by
  rw [mapTypes, show Rule.mapTypes id = id from funext Rule.mapTypes_id, List.map_id]

theorem get?_mapTypes (f : Option TypeId → Option TypeId) (t : RuleTable) (id : RuleId) :
    (t.mapTypes f).get? id = (t.get? id).map (Rule.mapTypes f) := List.getElem?_map ..

theorem retypes_mapTypes (σ : TypeId → TypeId) (t : RuleTable) :
    t.Retypes σ (t.mapTypes (Option.map σ)) where
  skeleton := by
    rw [skeleton, mapTypes, List.map_map, skeleton]
    exact congrArg (fun h => mk (t.rules.map h)) (funext (Rule.skeleton_mapTypes _))
  rules id rule hrule := by
    refine ⟨rule.mapTypes (Option.map σ), ?_, rule.retypes_mapTypes σ⟩
    rw [get?_mapTypes, hrule, Option.map_some]

/-- What a change leaves as it is, it leaves as it is everywhere. -/
theorem eq_of_mapTypes_eq (h : t.mapTypes (Option.map σ) = t) :
    ∀ type ∈ t.types, σ type = type := by
  intro type htype
  have houtputs : t.outputs.map (Option.map σ) = t.outputs.map id := by
    rw [← outputs_mapTypes, h, List.map_id]
  rw [← filterMap_outputs] at htype
  obtain ⟨a, ha, rfl⟩ := List.mem_filterMap.mp htype
  exact Option.some.inj (List.map_inj_left.mp houtputs _ ha)

end RuleTable

end MarkupTypes
