import MarkupTypes.Proofs.Walks

/-!
# What walks leave alone

A walk gives members and parents to the type it fills and to types that it fills on the
way, and to no other (`Walks.frame`). A type that was filled before the walk began, and
one that has not been filled when it ends, are as they were, unless it is the type that
the walk adds to. Types are never taken away, and never lose what they have got
(`WriterType.Grows`).
-/

namespace MarkupTypes

/-- A type as it was before members and parents were added. -/
structure WriterType.Grows (T T' : WriterType) : Prop where
  id : T'.id = T.id
  name : T'.name = T.name
  origin : T'.origin = T.origin
  members : T.members <+: T'.members
  parents : T.parents ⊆ T'.parents

namespace WriterType.Grows

variable {T T' T'' : WriterType}

theorem refl (T : WriterType) : T.Grows T :=
  ⟨rfl, rfl, rfl, List.prefix_refl _, List.Subset.refl _⟩

theorem trans (h : T.Grows T') (h' : T'.Grows T'') : T.Grows T'' :=
  ⟨h'.id.trans h.id, h'.name.trans h.name, h'.origin.trans h.origin,
    h.members.trans h'.members, List.Subset.trans h.parents h'.parents⟩

theorem addMember (T : WriterType) (m : Member) : T.Grows (T.addMember m) :=
  ⟨rfl, rfl, rfl, List.prefix_append _ _, List.Subset.refl _⟩

theorem addParent (T : WriterType) (parent : TypeId) : T.Grows (T.addParent parent) :=
  ⟨rfl, rfl, rfl, List.prefix_refl _, fun _ h => mem_insertId.mpr (.inr h)⟩

end WriterType.Grows

namespace Model

/-- A model with no type taken away, and no type less than it was. -/
def Grows (m m' : Model) : Prop :=
  ∀ i T, m.get? i = some T → ∃ T', m'.get? i = some T' ∧ T.Grows T'

theorem Grows.refl (m : Model) : m.Grows m := fun _ T hT => ⟨T, hT, .refl T⟩

theorem Grows.trans {m m' m'' : Model} (h : m.Grows m') (h' : m'.Grows m'') : m.Grows m'' := by
  intro i T hT
  obtain ⟨T', hT', hgrows⟩ := h i T hT
  obtain ⟨T'', hT'', hgrows'⟩ := h' i T' hT'
  exact ⟨T'', hT'', hgrows.trans hgrows'⟩

variable (m : Model)

@[simp] theorem size_modify (i : TypeId) (f : WriterType → WriterType) :
    (m.modify i f).size = m.size := by
  simp [modify, size]

theorem get?_modify_self (i : TypeId) (f : WriterType → WriterType) :
    (m.modify i f).get? i = (m.get? i).map f := by
  simp [modify, get?]

theorem get?_modify_of_ne {i j : TypeId} (f : WriterType → WriterType) (h : j ≠ i) :
    (m.modify i f).get? j = m.get? j := by
  simp [modify, get?, Ne.symm h]

end Model

namespace Draft

/-! ## The parts of a draft after a step -/

section

variable (d : Draft) (type : TypeId)

@[simp] theorem model_note (event : Trace.Event) : (d.note event).model = d.model := rfl

@[simp] theorem filled_note (event : Trace.Event) : (d.note event).filled = d.filled := rfl

@[simp] theorem model_markFilled : (d.markFilled type).model = d.model := rfl

@[simp] theorem filled_markFilled : (d.markFilled type).filled = type :: d.filled := rfl

@[simp] theorem model_noteInlined (rule : Rule) : (d.noteInlined rule type).model = d.model := rfl

@[simp] theorem filled_noteInlined (rule : Rule) :
    (d.noteInlined rule type).filled = d.filled := rfl

@[simp] theorem model_noteMembers : (d.noteMembers type).model = d.model := by
  unfold noteMembers
  split <;> rfl

@[simp] theorem filled_noteMembers : (d.noteMembers type).filled = d.filled := by
  unfold noteMembers
  split <;> rfl

@[simp] theorem filled_addMember (m : Member) : (d.addMember type m).filled = d.filled := rfl

@[simp] theorem filled_inherit (parent : TypeId) :
    (d.inherit type parent).filled = d.filled := by
  unfold inherit
  split <;> rfl

theorem model_inherit (parent : TypeId) :
    (d.inherit type parent).model =
      if parent = type then d.model else d.model.modify type (·.addParent parent) := by
  unfold inherit
  split <;> rfl

end

/-- A draft before and after members were added to the type `type`, where other types may
have been filled in between. -/
structure Frame (type : TypeId) (d d' : Draft) : Prop where
  names : d'.model.names = d.model.names
  rules : d'.model.rules = d.model.rules
  root : d'.model.root = d.model.root
  size : d'.model.size = d.model.size
  filled : d.filled ⊆ d'.filled
  other : ∀ i, i ≠ type → (i ∈ d.filled ∨ i ∉ d'.filled) → d'.model.get? i = d.model.get? i
  grows : d.model.Grows d'.model

namespace Frame

variable {type : TypeId} {d d' d'' : Draft}

/-- Steps that touch no type. -/
theorem of_eq (hmodel : d'.model = d.model) (hfilled : d'.filled = d.filled) :
    Frame type d d' where
  names := by rw [hmodel]
  rules := by rw [hmodel]
  root := by rw [hmodel]
  size := by rw [hmodel]
  filled := by rw [hfilled]; exact List.Subset.refl _
  other _ _ _ := by rw [hmodel]
  grows := by rw [hmodel]; exact .refl _

theorem refl (type : TypeId) (d : Draft) : Frame type d d := of_eq rfl rfl

theorem trans (h : Frame type d d') (h' : Frame type d' d'') : Frame type d d'' where
  names := h'.names.trans h.names
  rules := h'.rules.trans h.rules
  root := h'.root.trans h.root
  size := h'.size.trans h.size
  filled := List.Subset.trans h.filled h'.filled
  other i hi hor := by
    have h₁ : i ∈ d.filled ∨ i ∉ d'.filled := hor.imp_right fun hn hm => hn (h'.filled hm)
    have h₂ : i ∈ d'.filled ∨ i ∉ d''.filled := hor.imp_left fun hm => h.filled hm
    rw [h'.other i hi h₂, h.other i hi h₁]
  grows := h.grows.trans h'.grows

/-- A change of the type itself. -/
theorem of_modify (f : WriterType → WriterType) (hf : ∀ T, WriterType.Grows T (f T))
    (hmodel : d'.model = d.model.modify type f) (hfilled : d'.filled = d.filled) :
    Frame type d d' where
  names := by rw [hmodel]; rfl
  rules := by rw [hmodel]; rfl
  root := by rw [hmodel]; rfl
  size := by rw [hmodel, Model.size_modify]
  filled := by rw [hfilled]; exact List.Subset.refl _
  other i hi _ := by rw [hmodel, Model.get?_modify_of_ne _ _ hi]
  grows i T hT := by
    by_cases hi : i = type
    · subst hi
      exact ⟨f T, by rw [hmodel, Model.get?_modify_self, hT]; rfl, hf T⟩
    · exact ⟨T, by rw [hmodel, Model.get?_modify_of_ne _ _ hi, hT], .refl T⟩

theorem addMember (type : TypeId) (d : Draft) (m : Member) : Frame type d (d.addMember type m) :=
  of_modify (·.addMember m) (fun T => .addMember T m) rfl rfl

theorem inherit (type parent : TypeId) (d : Draft) : Frame type d (d.inherit type parent) := by
  by_cases h : parent = type
  · exact of_eq (by simp [model_inherit, h]) (by simp)
  · exact of_modify (·.addParent parent) (fun T => .addParent T parent)
      (by simp [model_inherit, h]) (by simp)

/-- A type that was not filled before may be filled on the way. -/
theorem of_fill {own : TypeId} (type : TypeId) (hopen : own ∉ d.filled)
    (h : Frame own (d.markFilled own) d') : Frame type d d' where
  names := h.names
  rules := h.rules
  root := h.root
  size := h.size
  filled _ hi := h.filled (List.mem_cons_of_mem _ hi)
  other i _ hor := by
    have hne : i ≠ own := by
      rintro rfl
      exact hor.elim hopen fun hn => hn (h.filled List.mem_cons_self)
    exact h.other i hne (hor.imp_left fun hm => List.mem_cons_of_mem _ hm)
  grows := h.grows

end Frame

end Draft

namespace Walks

variable {e : Expansion} {slots : List Slot} {target inner : Target} {d d₁ : Draft}
  {r : Outcome}

private theorem target_aux (h : Walks e slots target d r) :
    ∀ inner d₁, r = .ok inner d₁ → inner.type = target.type ∧ inner.splicing = target.splicing := by
  induction h with
  | nil =>
    rintro _ _ ⟨⟩
    exact ⟨rfl, rfl⟩
  | seen _ _ _ ih | inherit _ _ _ _ ih => exact ih
  | attr _ _ ih | elem _ _ _ ih | fill _ _ _ _ _ _ ih => exact ih
  | splice _ _ _ _ _ ihbody ih =>
    intro _ _ heq
    obtain ⟨htype, -⟩ := ihbody _ _ rfl
    obtain ⟨htype', hsplicing'⟩ := ih _ _ heq
    exact ⟨htype'.trans htype, hsplicing'⟩
  | fillFails | spliceFails | stuck => rintro _ _ ⟨⟩

/-- A walk fills the type it began with. -/
theorem type_eq (h : Walks e slots target d (.ok inner d₁)) : inner.type = target.type :=
  (target_aux h _ _ rfl).1

/-- A walk leaves the rules that it has entered. -/
theorem splicing_eq (h : Walks e slots target d (.ok inner d₁)) :
    inner.splicing = target.splicing :=
  (target_aux h _ _ rfl).2

/-- A walk adds to the type of its target, and to types that it fills. -/
theorem frame (h : Walks e slots target d r) : d.Frame target.type (endState r) := by
  induction h with
  | nil => exact .refl _ _
  | seen _ _ _ ih => exact ih
  | attr _ _ ih => exact (Draft.Frame.addMember _ _ _).trans ih
  | elem _ _ _ ih => exact (Draft.Frame.addMember _ _ _).trans ih
  | @fill _ _ _ _ _ _ target _ _ _ _ _ hopen _ _ ihbody ih =>
    have hfill := Draft.Frame.of_fill target.type hopen ihbody
    exact (hfill.trans ((Draft.Frame.of_eq (by simp) (by simp)).trans
      (Draft.Frame.addMember _ _ _))).trans ih
  | fillFails _ _ hopen _ ihbody => exact .of_fill _ hopen ihbody
  | inherit _ _ _ _ ih => exact (Draft.Frame.inherit _ _ _).trans ih
  | @splice _ _ _ rule inner _ target d d₁ _ _ _ _ body _ ihbody ih =>
    have hnote : d.Frame target.type (d.noteInlined rule target.type) := .of_eq rfl rfl
    have hbody : (d.noteInlined rule target.type).Frame target.type d₁ := ihbody
    have htype : inner.type = (target.splice _).type := type_eq body
    rw [show (target.resume inner).type = target.type from htype] at ih
    exact hnote.trans (hbody.trans ih)
  | @spliceFails _ _ _ rule _ target d _ d₁ _ _ _ _ ihbody =>
    have hnote : d.Frame target.type (d.noteInlined rule target.type) := .of_eq rfl rfl
    exact hnote.trans ihbody
  | stuck _ => exact .refl _ _

end Walks

end MarkupTypes
