import MarkupTypes.Proofs.Discovery

/-!
# Tables without locations

A table without its locations (`RuleTable.unplaced`) has the same references, elements and slots
as the table, holds the same text (`RuleTable.contentOf_unplaced`), and gives writers the same
types (`RuleTable.writerType_unplaced`). A search finds the same rules in the same order, and
where it fails, the failures differ in their locations only (`RuleTable.reachable_unplaced`).
-/

namespace MarkupTypes

/-! ## Patterns -/

namespace Pattern

mutual

/-- A pattern without locations. -/
def unplaced : Pattern → Pattern
  | empty m => empty { m with location := none }
  | data m type => data { m with location := none } type
  | value m type literal => value { m with location := none } type literal
  | list m item => list { m with location := none } item.unplaced
  | attr m tag content => attr { m with location := none } tag content.unplaced
  | elem m tag content => elem { m with location := none } tag content.unplaced
  | ref m rule label => ref { m with location := none } rule label
  | union m members => union { m with location := none } (unplacedAll members)

/-- Patterns without locations. -/
def unplacedAll : List Pattern → List Pattern
  | [] => []
  | p :: ps => p.unplaced :: unplacedAll ps

end

end Pattern

/-- A slot without locations. -/
def Slot.unplaced : Slot → Slot
  | attr tag content o => attr tag content.unplaced o
  | elem tag content o => elem tag content.unplaced o
  | ref rule _ o => ref rule none o

@[simp] theorem Slot.key?_unplaced (s : Slot) : s.unplaced.key? = s.key? := by cases s <;> rfl

/-- A reference without its location. -/
def unplacedRef (x : RuleId × Option Location) : RuleId × Option Location := (x.1, none)

namespace Pattern

theorem unplacedAll_eq_map (ps : List Pattern) : unplacedAll ps = ps.map unplaced := by
  induction ps with
  | nil => rfl
  | cons p ps ih => rw [unplacedAll, ih, List.map_cons]

mutual

@[simp] theorem refs_unplaced : ∀ p : Pattern, p.unplaced.refs = p.refs.map unplacedRef
  | ref _ _ _ => rfl
  | attr _ _ content => by rw [unplaced, refs, refs, refs_unplaced content]
  | elem _ _ content => by rw [unplaced, refs, refs, refs_unplaced content]
  | list _ item => by rw [unplaced, refs, refs, refs_unplaced item]
  | union _ ps => by rw [unplaced, refs, refs, refsAll_unplacedAll ps]
  | empty _ => rfl
  | data _ _ => rfl
  | value _ _ _ => rfl

theorem refsAll_unplacedAll : ∀ ps : List Pattern,
    refsAll (unplacedAll ps) = (refsAll ps).map unplacedRef
  | [] => rfl
  | p :: ps => by
    rw [unplacedAll, refsAll, refsAll, refs_unplaced p, refsAll_unplacedAll ps, List.map_append]

end

mutual

@[simp] theorem elements_unplaced : ∀ p : Pattern,
    p.unplaced.elements = p.elements.map (Prod.map id unplaced)
  | elem _ _ content => by rw [unplaced, elements, elements, elements_unplaced content]; rfl
  | attr _ _ content => by rw [unplaced, elements, elements, elements_unplaced content]
  | list _ item => by rw [unplaced, elements, elements, elements_unplaced item]
  | union _ ps => by rw [unplaced, elements, elements, elementsAll_unplacedAll ps]
  | empty _ => rfl
  | data _ _ => rfl
  | value _ _ _ => rfl
  | ref _ _ _ => rfl

theorem elementsAll_unplacedAll : ∀ ps : List Pattern,
    elementsAll (unplacedAll ps) = (elementsAll ps).map (Prod.map id unplaced)
  | [] => rfl
  | p :: ps => by
    rw [unplacedAll, elementsAll, elementsAll, elements_unplaced p, elementsAll_unplacedAll ps,
      List.map_append]

end

mutual

@[simp] theorem outermost_unplaced : ∀ p : Pattern,
    p.unplaced.outermost = p.outermost.map (Prod.map id unplaced)
  | elem _ _ _ => rfl
  | attr _ _ content => by rw [unplaced, outermost, outermost, outermost_unplaced content]
  | list _ item => by rw [unplaced, outermost, outermost, outermost_unplaced item]
  | union _ ps => by rw [unplaced, outermost, outermost, outermostAll_unplacedAll ps]
  | empty _ => rfl
  | data _ _ => rfl
  | value _ _ _ => rfl
  | ref _ _ _ => rfl

theorem outermostAll_unplacedAll : ∀ ps : List Pattern,
    outermostAll (unplacedAll ps) = (outermostAll ps).map (Prod.map id unplaced)
  | [] => rfl
  | p :: ps => by
    rw [unplacedAll, outermostAll, outermostAll, outermost_unplaced p,
      outermostAll_unplacedAll ps, List.map_append]

end

mutual

@[simp] theorem slots_unplaced : ∀ (p : Pattern) (outer : Bool),
    p.unplaced.slots outer = (p.slots outer).map Slot.unplaced
  | attr _ _ _, _ => rfl
  | elem _ _ _, _ => rfl
  | ref _ _ _, _ => rfl
  | union m ps, outer => by rw [unplaced, slots, slots, slotsAll_unplacedAll ps]
  | empty _, _ => rfl
  | data _ _, _ => rfl
  | value _ _ _, _ => rfl
  | list _ _, _ => rfl

theorem slotsAll_unplacedAll : ∀ (ps : List Pattern) (outer : Bool),
    slotsAll outer (unplacedAll ps) = (slotsAll outer ps).map Slot.unplaced
  | [], _ => rfl
  | p :: ps, outer => by
    rw [unplacedAll, slotsAll, slotsAll, slots_unplaced p, slotsAll_unplacedAll ps,
      List.map_append]

end

@[simp] theorem elementCount_unplaced (p : Pattern) :
    p.unplaced.elementCount = p.elementCount := by
  rw [← length_elements, ← length_elements, elements_unplaced, List.length_map]

mutual

theorem mapElements_unplaced (f : Nat → ElementTag → ElementTag) : ∀ (p : Pattern) (n : Nat),
    p.unplaced.mapElements f n = (p.mapElements f n).unplaced
  | elem _ _ content, n => by
    rw [unplaced, mapElements, mapElements, unplaced, mapElements_unplaced f content]
  | attr _ _ content, n => by
    rw [unplaced, mapElements, mapElements, unplaced, mapElements_unplaced f content]
  | list _ item, n => by
    rw [unplaced, mapElements, mapElements, unplaced, mapElements_unplaced f item]
  | union _ ps, n => by
    rw [unplaced, mapElements, mapElements, unplaced, mapElementsAll_unplacedAll f ps]
  | empty _, _ => rfl
  | data _ _, _ => rfl
  | value _ _ _, _ => rfl
  | ref _ _ _, _ => rfl

theorem mapElementsAll_unplacedAll (f : Nat → ElementTag → ElementTag) :
    ∀ (ps : List Pattern) (n : Nat),
    mapElementsAll f n (unplacedAll ps) = unplacedAll (mapElementsAll f n ps)
  | [], _ => rfl
  | p :: ps, n => by
    rw [unplacedAll, mapElementsAll, mapElementsAll, unplacedAll, mapElements_unplaced f p,
      mapElementsAll_unplacedAll f ps, elementCount_unplaced]

end

mutual

@[simp] theorem scan_unplaced (follow : RuleId → List ValueType → TextScan) :
    ∀ (p : Pattern) (types : List ValueType), p.unplaced.scan follow types = p.scan follow types
  | list _ item, _ => by rw [unplaced, scan, scan, scan_unplaced follow item]
  | union _ ps, types => by rw [unplaced, scan, scan, scanAll_unplacedAll follow ps]
  | ref _ _ _, _ => rfl
  | attr _ _ _, _ => rfl
  | elem _ _ _, _ => rfl
  | empty _, _ => rfl
  | data _ _, _ => rfl
  | value _ _ _, _ => rfl

theorem scanAll_unplacedAll (follow : RuleId → List ValueType → TextScan) :
    ∀ (ps : List Pattern) (types : List ValueType),
    scanAll follow (unplacedAll ps) types = scanAll follow ps types
  | [], _ => rfl
  | p :: ps, types => by
    simp only [unplacedAll, scanAll, scan_unplaced follow p, scanAll_unplacedAll follow ps]

end

theorem children_unplaced (p : Pattern) : p.unplaced.children = p.children.map unplaced := by
  cases p <;> simp [unplaced, children, unplacedAll_eq_map]

theorem labelled_unplaced (name : String) (p : Pattern) :
    Compilation.labelled name p.unplaced = (Compilation.labelled name p).unplaced := by
  cases p <;> rfl

theorem withTypes_unplaced (types : List (Option TypeId)) (p : Pattern) :
    p.unplaced.withTypes types = (p.withTypes types).unplaced :=
  mapElements_unplaced _ p 0

end Pattern

/-! ## Failures -/

namespace Failure

/-- The rules on the trail of a failure, innermost first. -/
def rules (f : Failure) : List String := (f.trail.map Trail.rules).getD []

/-- A failure without the location of its trail. -/
def unplaced (f : Failure) : Failure :=
  ⟨f.cause, if f.rules = [] then none else some ⟨none, f.rules⟩⟩

@[simp] theorem rules_unplaced (f : Failure) : f.unplaced.rules = f.rules := by
  unfold unplaced
  split
  · next h => rw [h]; rfl
  · rfl

@[simp] theorem unplaced_of (cause : Cause) : (of cause).unplaced = of cause := rfl

@[simp] theorem unplaced_located (f : Failure) (location : Option Location) :
    (f.located location).unplaced = f.unplaced := by
  obtain ⟨cause, trail⟩ := f
  cases location with
  | none => rfl
  | some location => cases trail <;> rfl

@[simp] theorem unplaced_inRule (f : Failure) (rule : String) :
    (f.inRule rule).unplaced = f.unplaced.inRule rule := by
  obtain ⟨cause, trail⟩ := f
  cases trail with
  | none => rfl
  | some trail =>
    obtain ⟨location, rules⟩ := trail
    cases rules <;> simp [unplaced, rules, inRule, Trail.inRule, Trail.empty]

end Failure

/-! ## Rules -/

namespace Rule

/-- A rule without locations. -/
def unplaced (r : Rule) : Rule :=
  { r with pattern := r.pattern.map Pattern.unplaced, location := none }

variable (r : Rule)

@[simp] theorem pattern_unplaced : r.unplaced.pattern = r.pattern.map Pattern.unplaced := rfl

@[simp] theorem output_unplaced : r.unplaced.output = r.output := rfl

@[simp] theorem displayName_unplaced : r.unplaced.displayName = r.displayName := rfl

@[simp] theorem isStart_unplaced : r.unplaced.isStart = r.isStart := rfl

@[simp] theorem refs_unplaced : r.unplaced.refs = r.refs.map unplacedRef := by
  cases h : r.pattern <;> simp [refs, h]

@[simp] theorem elements_unplaced :
    r.unplaced.elements = r.elements.map (Prod.map id Pattern.unplaced) := by
  cases h : r.pattern <;> simp [elements, h]

@[simp] theorem slots_unplaced (outer : Bool) :
    r.unplaced.slots outer = (r.slots outer).map Slot.unplaced := by
  cases h : r.pattern <;> simp [slots, h]

@[simp] theorem isInline_unplaced : r.unplaced.isInline = r.isInline := by
  cases h : r.pattern <;> simp [isInline, children, h, Pattern.children_unplaced]

theorem jobs_unplaced : r.unplaced.jobs = r.jobs.map (Prod.map id (List.map Slot.unplaced)) := by
  unfold jobs
  rw [output_unplaced, pattern_unplaced]
  cases r.output with
  | some type => simp
  | none =>
    cases r.pattern with
    | none => rfl
    | some p =>
      simp only [Option.map_some, Pattern.outermost_unplaced, List.filterMap_map,
        List.map_filterMap]
      refine List.filterMap_congr fun x _ => ?_
      cases hx : x.1.output <;> simp [hx]

end Rule

namespace RuleTable

/-- A table without locations. -/
def unplaced (t : RuleTable) : RuleTable := ⟨t.rules.map Rule.unplaced⟩

variable (t : RuleTable)

@[simp] theorem size_unplaced : t.unplaced.size = t.size := List.length_map ..

@[simp] theorem get?_unplaced (id : RuleId) :
    t.unplaced.get? id = (t.get? id).map Rule.unplaced := List.getElem?_map ..

theorem modify_unplaced {id : RuleId} {f g : Rule → Rule}
    (h : ∀ rule, t.get? id = some rule → (f rule).unplaced = g rule.unplaced) :
    (t.modify id f).unplaced = t.unplaced.modify id g := by
  refine congrArg mk (List.ext_getElem? fun i => ?_)
  simp only [modify, unplaced, List.getElem?_map, List.getElem?_modify]
  by_cases hi : id = i
  · subst hi
    cases hrule : t.rules[id]? with
    | none => simp
    | some rule => simp [h rule hrule]
  · simp [hi]

/-! ### Text -/

theorem followWithin_unplaced (beyond : RuleId → List ValueType → TextScan) (n : Nat)
    (inside : List RuleId) :
    t.unplaced.followWithin beyond n inside = t.followWithin beyond n inside := by
  induction n generalizing inside with
  | zero => rfl
  | succ n ih =>
    funext id types
    simp only [followWithin, get?_unplaced, ih]
    cases hrule : t.get? id with
    | none => rfl
    | some rule => cases hp : rule.pattern <;> simp [hp]

@[simp] theorem scan_unplaced (p : Pattern) : t.unplaced.scan p.unplaced = t.scan p := by
  rw [scan, scan, Pattern.scan_unplaced, follow, follow, followWithin_unplaced, size_unplaced]

/-- What an element holds does not depend on locations. -/
theorem contentOf_unplaced (isInline : RuleId → Bool) (p : Pattern) :
    t.unplaced.contentOf isInline p.unplaced = t.contentOf isInline p := by
  have hchildren : p.unplaced.children.isEmpty = p.children.isEmpty := by
    rw [Pattern.children_unplaced, List.isEmpty_map]
  unfold contentOf
  rw [scan_unplaced, hchildren]
  cases p <;> rfl

/-! ### Types of writers -/

theorem writerTypeWithin_unplaced (n : Nat) (seen : List RuleId) (id : RuleId) :
    Compilation.writerTypeWithin t.unplaced (fun _ => none) n seen id =
      Compilation.writerTypeWithin t (fun _ => none) n seen id := by
  induction n generalizing seen id with
  | zero => rfl
  | succ n ih =>
    simp only [Compilation.writerTypeWithin, get?_unplaced]
    cases hrule : t.get? id with
    | none => rfl
    | some rule =>
      simp only [Option.map_some, Rule.output_unplaced, Rule.pattern_unplaced]
      cases rule.output with
      | some type => rfl
      | none =>
        cases rule.pattern with
        | none => rfl
        | some p =>
          cases p with
          | ref m next label => simp only [Option.map_some, Pattern.unplaced, ih]
          | elem m tag content =>
            cases htype : tag.output <;> cases content <;>
              simp only [Option.map_some, Pattern.unplaced, htype, ih]
          | _ => rfl

theorem writerType_unplaced (id : RuleId) :
    Compilation.writerType t.unplaced id = Compilation.writerType t id := by
  rw [Compilation.writerType, writerTypeWithin_unplaced, size_unplaced, Compilation.writerType]

/-! ### Reachable rules -/

theorem referenceCount_unplaced : t.unplaced.referenceCount = t.referenceCount := by
  simp only [referenceCount, unplaced, List.flatMap_map, Rule.refs_unplaced, List.length_flatMap,
    List.length_map]

/-- A search goes the same way. -/
theorem visit_unplaced (n : Nat) (pending : List (RuleId × Option Location))
    (found : List RuleId) : t.unplaced.visit n (pending.map unplacedRef) found =
      (t.visit n pending found).mapError Failure.unplaced := by
  induction n generalizing pending found with
  | zero => rfl
  | succ n ih =>
    cases pending with
    | nil => rfl
    | cons x pending =>
      obtain ⟨id, location⟩ := x
      simp only [List.map_cons, unplacedRef, visit]
      by_cases hmem : id ∈ found
      · simpa [hmem] using ih pending found
      · simp only [hmem, if_false, require, get?_unplaced]
        cases hrule : t.get? id with
        | none => rfl
        | some rule =>
          cases hp : rule.pattern with
          | none =>
            have hfailure :=
              (Failure.of (.undefinedRule rule.displayName)).unplaced_located location
            simp only [Option.map_some, bind, Except.bind, Rule.pattern_unplaced, hp,
              Option.map_none]
            exact congrArg Except.error hfailure.symm
          | some p =>
            have hrest := ih (p.refs ++ pending) (found ++ [id])
            rw [List.map_append, ← p.refs_unplaced] at hrest
            simpa [hp, bind, Except.bind] using hrest

theorem reachable_unplaced (entry : RuleId) :
    t.unplaced.reachable entry = (t.reachable entry).mapError Failure.unplaced := by
  rw [reachable, reachable, referenceCount_unplaced]
  exact t.visit_unplaced _ [(entry, none)] []

end RuleTable

end MarkupTypes
