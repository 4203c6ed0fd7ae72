import MarkupTypes.Proofs.Depth
import MarkupTypes.Proofs.Skeleton

/-!
# Declaring rules

What declaring a rule does to a draft (`Draft.Declares`) and to the rule (`Rule.Declared`).
New types are blank, and older types stay as they are. A declared rule has a type unless it
is inline, its elements have types where their contents need them, and the types that it
has got are the new ones, each once (`Compilation.types_declared`).
-/

namespace MarkupTypes

/-- There is a type of an id, created for `origin`. -/
def Model.HasOrigin (m : Model) (type : TypeId) (origin : Origin) : Prop :=
  ∃ T, m.get? type = some T ∧ T.origin = origin

theorem Model.HasOrigin.mono {m m' : Model} {type : TypeId} {origin : Origin}
    (h : m.HasOrigin type origin) (hm : m.Grows m') : m'.HasOrigin type origin := by
  obtain ⟨T, hT, horigin⟩ := h
  obtain ⟨T', hT', hgrows⟩ := hm _ _ hT
  exact ⟨T', hT', hgrows.origin.trans horigin⟩

theorem Model.size_create (m : Model) (base : String) (origin : Origin) :
    (m.create base origin).size = m.size + 1 := by
  simp [Model.create, Model.size]

/-- A type that is created stands after those that there were. -/
theorem Model.get?_create (m : Model) (base : String) (origin : Origin) (i : TypeId) :
    (m.create base origin).get? i =
      if i = m.size then some (.new i (m.freeName (typeName base)) origin) else m.get? i := by
  change (m.types ++ [WriterType.new m.size _ origin])[i]? = _
  by_cases hi : i = m.size
  · subst hi
    rw [if_pos rfl]
    exact List.getElem?_concat_length
  · rw [if_neg hi, List.getElem?_append, Model.get?]
    split
    · rfl
    · next hge =>
      have hlt : m.types.length < i := Nat.lt_of_le_of_ne (Nat.le_of_not_lt hge) (Ne.symm hi)
      rw [List.getElem?_eq_none (by simp; omega), List.getElem?_eq_none (by omega)]

namespace Draft

/-- A draft before and after types were created. -/
structure Declares (d d' : Draft) : Prop where
  filled : d'.filled = d.filled
  root : d'.model.root = d.model.root
  size : d.model.size ≤ d'.model.size
  old : ∀ i, i < d.model.size → d'.model.get? i = d.model.get? i
  blank : ∀ i T, d.model.size ≤ i → d'.model.get? i = some T → ∃ name origin, T = .new i name origin

@[simp] theorem size_create (d : Draft) (base : String) (origin : Origin) :
    (d.create base origin).model.size = d.model.size + 1 :=
  d.model.size_create base origin

theorem get?_create (d : Draft) (base : String) (origin : Origin) (i : TypeId) :
    (d.create base origin).model.get? i =
      if i = d.model.size then
        some (.new i (d.model.freeName (typeName base)) origin)
      else d.model.get? i :=
  d.model.get?_create base origin i

theorem hasOrigin_create (d : Draft) (base : String) (origin : Origin) :
    (d.create base origin).model.HasOrigin d.model.size origin :=
  ⟨_, by rw [get?_create, if_pos rfl], rfl⟩

namespace Declares

variable {d d' d'' : Draft}

theorem refl (d : Draft) : d.Declares d where
  filled := rfl
  root := rfl
  size := Nat.le_refl _
  old _ _ := rfl
  blank _ _ hi hT := absurd (List.getElem?_eq_some_iff.mp hT).1 (Nat.not_lt.mpr hi)

theorem trans (h : d.Declares d') (h' : d'.Declares d'') : d.Declares d'' where
  filled := h'.filled.trans h.filled
  root := h'.root.trans h.root
  size := Nat.le_trans h.size h'.size
  old i hi := (h'.old i (Nat.lt_of_lt_of_le hi h.size)).trans (h.old i hi)
  blank i T hi hT := by
    rcases Nat.lt_or_ge i d'.model.size with hlt | hge
    · exact h.blank i T hi (h'.old i hlt ▸ hT)
    · exact h'.blank i T hge hT

theorem create (d : Draft) (base : String) (origin : Origin) :
    d.Declares (d.create base origin) where
  filled := rfl
  root := rfl
  size := by simp
  old i hi := by rw [get?_create, if_neg (Nat.ne_of_lt hi)]
  blank i T hi hT := by
    have hlt : i < d.model.size + 1 := by
      have := (List.getElem?_eq_some_iff.mp hT).1
      rwa [← size_create d base origin]
    obtain rfl : i = d.model.size := by omega
    rw [get?_create, if_pos rfl] at hT
    exact ⟨_, origin, (Option.some.inj hT).symm⟩

theorem grows (h : d.Declares d') : d.model.Grows d'.model := fun i T hT =>
  ⟨T, (h.old i (List.getElem?_eq_some_iff.mp hT).1).trans hT, .refl T⟩

end Declares

end Draft

/-! ## Elements with types -/

/-- The types for the elements of a pattern, in the order of the elements. -/
def Pattern.withTypes (types : List (Option TypeId)) (p : Pattern) : Pattern :=
  p.mapElements (fun n tag => { tag with output := types[n]?.join }) 0

namespace Pattern

mutual

/-- The elements after every element was changed by its number. -/
theorem elements_mapElements (f : Nat → ElementTag → ElementTag) : ∀ (p : Pattern) (n : Nat),
    (p.mapElements f n).elements =
      (p.elements.zipIdx n).map fun x => (f x.2 x.1.1, x.1.2.mapElements f (x.2 + 1))
  | elem _ _ content, n => by
    simp [mapElements, elements, elements_mapElements f content (n + 1)]
  | attr _ _ content, n => by simp [mapElements, elements, elements_mapElements f content n]
  | list _ item, n => by simp [mapElements, elements, elements_mapElements f item n]
  | union _ ps, n => by simp [mapElements, elements, elementsAll_mapElementsAll f ps n]
  | empty _, _ => rfl
  | data _ _, _ => rfl
  | value _ _ _, _ => rfl
  | ref _ _ _, _ => rfl

theorem elementsAll_mapElementsAll (f : Nat → ElementTag → ElementTag) :
    ∀ (ps : List Pattern) (n : Nat),
    elementsAll (mapElementsAll f n ps) =
      ((elementsAll ps).zipIdx n).map fun x => (f x.2 x.1.1, x.1.2.mapElements f (x.2 + 1))
  | [], _ => rfl
  | p :: ps, n => by
    simp [mapElementsAll, elementsAll, elements_mapElements f p n, List.zipIdx_append,
      elementsAll_mapElementsAll f ps (n + p.elementCount), length_elements]

end

theorem skeleton_withTypes (types : List (Option TypeId)) (p : Pattern) :
    (p.withTypes types).skeleton = p.skeleton :=
  skeleton_mapElements (fun n tag => { tag with output := types[n]?.join }) (fun _ _ => rfl) p 0

/-- The elements of a pattern get the types one by one. -/
theorem mem_elements_withTypes {types : List (Option TypeId)} {p : Pattern}
    {x : ElementTag × Pattern} (hx : x ∈ (p.withTypes types).elements) :
    ∃ (i : Nat) (y : ElementTag × Pattern), p.elements[i]? = some y ∧
      x.1 = { y.1 with output := types[i]?.join } ∧ x.2.skeleton = y.2.skeleton := by
  rw [withTypes, elements_mapElements] at hx
  obtain ⟨⟨y, i⟩, hy, rfl⟩ := List.mem_map.mp hx
  refine ⟨i, y, List.mem_zipIdx_iff_getElem?.mp hy, rfl, ?_⟩
  exact skeleton_mapElements (fun n tag => { tag with output := types[n]?.join })
    (fun _ _ => rfl) y.2 (i + 1)

theorem elementTypes_withTypes {types : List (Option TypeId)} {p : Pattern}
    (hlength : types.length = p.elements.length) :
    elementTypes (p.withTypes types).elements = types.filterMap id := by
  have hmap : (p.elements.zipIdx.map fun x => types[x.2]?.join) = types := by
    refine List.ext_getElem (by simp [hlength]) fun i hi hi' => ?_
    simp [List.getElem?_eq_getElem hi']
  rw [elementTypes, withTypes, elements_mapElements, List.filterMap_map]
  conv_rhs => rw [← hmap, List.filterMap_map]
  rfl

end Pattern

/-- The type of an element, if it has one, is as the element needs it. -/
def RuleTable.Provides (t : RuleTable) (isInline : RuleId → Bool) (m : Model)
    (x : ElementTag × Pattern) : Option TypeId → Prop
  | some type => t.contentOf isInline x.2 = .structured ∧ m.HasOrigin type (.element x.1.name)
  | none => t.contentOf isInline x.2 ≠ .structured

/-- A rule with the types that it needs. -/
structure Rule.Declared (t : RuleTable) (isInline : RuleId → Bool) (m : Model) (id : RuleId)
    (r : Rule) : Prop where
  inline : isInline id = true → r.output = none
  typed : isInline id = false → ∃ type, r.output = some type ∧ m.HasOrigin type (.rule r.key)
  elements : ∀ x ∈ r.elements, t.Provides isInline m x x.1.output

/-- The types of a rule and of its elements. -/
def Rule.types (r : Rule) : List TypeId := r.output.toList ++ elementTypes r.elements

/-- The types of all rules and of all elements. -/
def RuleTable.types (t : RuleTable) : List TypeId := t.rules.flatMap Rule.types

section

variable {t t' : RuleTable} {isInline : RuleId → Bool} {m m' : Model} {id : RuleId} {r : Rule}

theorem RuleTable.Provides.mono (hm : m.Grows m') (ht : t'.skeleton = t.skeleton)
    {x : ElementTag × Pattern} {output : Option TypeId} (h : t.Provides isInline m x output) :
    t'.Provides isInline m' x output := by
  have hcontent := contentOf_eq_of_skeleton_eq ht isInline (p := x.2) rfl
  cases output with
  | none =>
    rw [Provides, hcontent]
    exact h
  | some type =>
    rw [Provides, hcontent]
    exact ⟨h.1, h.2.mono hm⟩

theorem RuleTable.Provides.of_skeleton {x y : ElementTag × Pattern} {output : Option TypeId}
    (h : t.Provides isInline m y output) (hname : x.1.name = y.1.name)
    (hcontent : x.2.skeleton = y.2.skeleton) : t.Provides isInline m x output := by
  have hcontent := contentOf_eq_of_skeleton_eq (t := t) rfl isInline hcontent
  cases output with
  | none =>
    rw [Provides, hcontent]
    exact h
  | some type =>
    rw [Provides, hcontent, hname]
    exact h

/-- A declared rule stays declared. -/
theorem Rule.Declared.mono (hm : m.Grows m') (ht : t'.skeleton = t.skeleton)
    (h : r.Declared t isInline m id) : r.Declared t' isInline m' id where
  inline := h.inline
  typed hinline := by
    obtain ⟨type, houtput, horigin⟩ := h.typed hinline
    exact ⟨type, houtput, horigin.mono hm⟩
  elements x hx := (h.elements x hx).mono hm ht

end

namespace Compilation

variable (c : Compilation)

/-! ## Declaring elements -/

theorem declareElements_cons (tag : ElementTag) (content : Pattern)
    (rest : List (ElementTag × Pattern)) (d : Draft) :
    c.declareElements ((tag, content) :: rest) d =
      if c.rules.contentOf c.isInline content = .structured then
        let later := c.declareElements rest
          (d.create (tag.label.getD tag.name.localName) (.element tag.name))
        (later.1, some d.model.size :: later.2)
      else
        let later := c.declareElements rest d
        (later.1, none :: later.2) := rfl

theorem declares_declareElements : ∀ (xs : List (ElementTag × Pattern)) (d : Draft),
    d.Declares (c.declareElements xs d).1
  | [], d => .refl d
  | (tag, content) :: rest, d => by
    rw [declareElements_cons]
    split
    · exact (Draft.Declares.create _ _ _).trans (declares_declareElements rest _)
    · exact declares_declareElements rest d

theorem length_declareElements : ∀ (xs : List (ElementTag × Pattern)) (d : Draft),
    (c.declareElements xs d).2.length = xs.length
  | [], _ => rfl
  | (tag, content) :: rest, d => by
    rw [declareElements_cons]
    split
    · exact congrArg (· + 1) (length_declareElements rest _)
    · exact congrArg (· + 1) (length_declareElements rest d)

/-- Every element gets a type just when its content needs one. -/
theorem provides_declareElements (xs : List (ElementTag × Pattern)) (d : Draft) (i : Nat)
    (x : ElementTag × Pattern) (hx : xs[i]? = some x) :
    c.rules.Provides c.isInline (c.declareElements xs d).1.model x
      (c.declareElements xs d).2[i]?.join := by
  induction xs generalizing d i with
  | nil => cases hx
  | cons y rest ih =>
    obtain ⟨tag, content⟩ := y
    rw [declareElements_cons]
    cases i with
    | zero =>
      obtain rfl : (tag, content) = x := Option.some.inj hx
      split
      · next hstructured =>
        have hmade := d.hasOrigin_create (tag.label.getD tag.name.localName) (.element tag.name)
        have hlater := c.declares_declareElements rest
          (d.create (tag.label.getD tag.name.localName) (.element tag.name))
        exact ⟨hstructured, hmade.mono hlater.grows⟩
      · next hother => exact hother
    | succ i =>
      split
      · exact ih _ i hx
      · exact ih d i hx

/-- The types of the elements are the new types, in order. -/
theorem types_declareElements : ∀ (xs : List (ElementTag × Pattern)) (d : Draft),
    (c.declareElements xs d).2.filterMap id =
      List.range' d.model.size ((c.declareElements xs d).1.model.size - d.model.size)
  | [], d => by simp [declareElements]
  | (tag, content) :: rest, d => by
    rw [declareElements_cons]
    split
    · have ih := types_declareElements rest
        (d.create (tag.label.getD tag.name.localName) (.element tag.name))
      have hsize := (c.declares_declareElements rest
        (d.create (tag.label.getD tag.name.localName) (.element tag.name))).size
      rw [Draft.size_create] at ih hsize
      change d.model.size :: List.filterMap id _ = List.range' _ (Model.size _ - _)
      rw [ih, ← List.range'_succ]
      congr 1
      change _ = (c.declareElements rest _).1.model.size - _
      omega
    · exact types_declareElements rest d

/-! ## Declaring a rule -/

/-- What creating a type keeps, declaring elements keeps. -/
theorem declareElements_keeps {P : Model → Prop}
    (hcreate : ∀ {m : Model}, P m → ∀ base origin, P (m.create base origin)) :
    ∀ (xs : List (ElementTag × Pattern)) {d : Draft}, P d.model → P (c.declareElements xs d).1.model
  | [], _, h => h
  | (tag, content) :: rest, d, h => by
    rw [declareElements_cons]
    split
    · exact declareElements_keeps hcreate rest (hcreate h _ _)
    · exact declareElements_keeps hcreate rest h

/-- The draft that the elements of a rule are declared in. -/
def draftOfRule (id : RuleId) (rule : Rule) : Draft :=
  if c.isInline id then c.draft else c.draft.create (c.baseName rule) (.rule rule.key)

theorem declared_eq (id : RuleId) (rule : Rule) :
    c.declared id rule =
      let made := c.declareElements rule.elements (c.draftOfRule id rule)
      ({ rule with
          pattern := rule.pattern.map (Pattern.withTypes made.2)
          output := if c.isInline id then none else some c.model.size
          state := .declared }, made.1) := by
  unfold declared draftOfRule Rule.elements
  cases c.isInline id <;> cases hp : rule.pattern <;> rfl

variable {c} {id : RuleId} {rule : Rule}

theorem declares_draftOfRule : c.draft.Declares (c.draftOfRule id rule) := by
  unfold draftOfRule
  split
  · exact .refl _
  · exact .create _ _ _

theorem declares_declared : c.draft.Declares (c.declared id rule).2 := by
  rw [declared_eq]
  exact declares_draftOfRule.trans (c.declares_declareElements _ _)

/-- What creating a type keeps, declaring a rule keeps. -/
theorem declared_keeps {P : Model → Prop}
    (hcreate : ∀ {m : Model}, P m → ∀ base origin, P (m.create base origin)) (h : P c.model) :
    P (c.declared id rule).2.model := by
  rw [declared_eq]
  refine c.declareElements_keeps hcreate _ ?_
  unfold draftOfRule
  split
  · exact h
  · exact hcreate h _ _

theorem skeleton_declared : (c.declared id rule).1.skeleton = rule.skeleton := by
  rw [declared_eq]
  cases hp : rule.pattern <;> simp [Rule.skeleton, hp, Pattern.skeleton_withTypes]

theorem state_declared : (c.declared id rule).1.state = .declared := by rw [declared_eq]

/-- The elements of a declared rule are those of the rule, with types. -/
theorem elements_declared : (c.declared id rule).1.elements =
    match rule.pattern with
    | some p =>
      (p.withTypes (c.declareElements rule.elements (c.draftOfRule id rule)).2).elements
    | none => [] := by
  rw [declared_eq]
  cases hp : rule.pattern <;> simp [Rule.elements, hp]

/-- A rule that is declared has the types that it needs. -/
theorem declared_declared :
    (c.declared id rule).1.Declared c.rules c.isInline (c.declared id rule).2.model id := by
  have hlater : (c.draftOfRule id rule).Declares (c.declared id rule).2 := by
    rw [declared_eq]
    exact c.declares_declareElements _ _
  constructor
  case inline =>
    intro hinline
    simp [declared_eq, hinline]
  case typed =>
    intro hinline
    have hkey : (c.declared id rule).1.key = rule.key := by rw [declared_eq]; rfl
    have hmade : (c.draftOfRule id rule).model.HasOrigin c.model.size (.rule rule.key) := by
      simp only [draftOfRule, hinline, Bool.false_eq_true, if_false]
      exact c.draft.hasOrigin_create _ _
    refine ⟨c.model.size, by simp [declared_eq, hinline], ?_⟩
    rw [hkey]
    exact hmade.mono hlater.grows
  case elements =>
    intro x hx
    rw [elements_declared] at hx
    cases hp : rule.pattern with
    | none => simp [hp] at hx
    | some p =>
      rw [hp] at hx
      obtain ⟨i, y, hy, htag, hcontent⟩ := Pattern.mem_elements_withTypes hx
      have helements : rule.elements = p.elements := by rw [Rule.elements, hp]
      have hprovides := c.provides_declareElements rule.elements (c.draftOfRule id rule) i y
        (helements ▸ hy)
      have houtput : x.1.output =
          (c.declareElements rule.elements (c.draftOfRule id rule)).2[i]?.join := by
        rw [htag]
      have hname : x.1.name = y.1.name := by rw [htag]
      rw [declared_eq, houtput]
      exact hprovides.of_skeleton hname hcontent

/-- The types of a rule that is declared are the new types, in order. -/
theorem types_declared : (c.declared id rule).1.types =
    List.range' c.model.size ((c.declared id rule).2.model.size - c.model.size) := by
  have hlength := c.length_declareElements rule.elements (c.draftOfRule id rule)
  have hnew := c.types_declareElements rule.elements (c.draftOfRule id rule)
  have htypes : elementTypes (c.declared id rule).1.elements =
      (c.declareElements rule.elements (c.draftOfRule id rule)).2.filterMap (fun x => x) := by
    rw [elements_declared]
    cases hp : rule.pattern with
    | none =>
      have helements : rule.elements = [] := by rw [Rule.elements, hp]
      rw [helements]
      rfl
    | some p =>
      have helements : rule.elements = p.elements := by rw [Rule.elements, hp]
      exact Pattern.elementTypes_withTypes (hlength.trans (congrArg List.length helements))
  have hlater := c.declares_declareElements rule.elements (c.draftOfRule id rule)
  have hdraft : (c.declared id rule).2 =
      (c.declareElements rule.elements (c.draftOfRule id rule)).1 := by rw [declared_eq]
  rw [Rule.types, htypes, hdraft]
  cases hinline : c.isInline id with
  | true =>
    have houtput : (c.declared id rule).1.output = none := by simp [declared_eq, hinline]
    have hbefore : c.draftOfRule id rule = c.draft := by simp [draftOfRule, hinline]
    rw [houtput]
    rw [hbefore] at hnew ⊢
    exact hnew
  | false =>
    have houtput : (c.declared id rule).1.output = some c.model.size := by
      simp [declared_eq, hinline]
    have hbefore : (c.draftOfRule id rule).model.size = c.model.size + 1 := by
      simp [draftOfRule, hinline, model]
    have hsize := hlater.size
    rw [hbefore] at hnew hsize
    change List.filterMap (fun x => x) _ = _ at hnew
    rw [houtput, hnew]
    change c.model.size :: List.range' (c.model.size + 1) _ = _
    rw [← List.range'_succ]
    congr 1
    omega

end Compilation

end MarkupTypes
