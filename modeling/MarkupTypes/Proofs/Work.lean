import MarkupTypes.Compilation.Basic

/-!
# Running work

What work on a state does from a given state, for the ways to put work together
(`run_bind`, `run_map`), what an attempt that did not fail went through
(`Attempt.of_bind_eq_ok`), and what is done by the operations that fill types
(`Drafting.fillOnce_eq`, `Expansion.addAttribute_eq`, `Expansion.addElement_eq`,
`Expansion.inherit_eq`, `Expansion.referWithin_succ`). Proofs about generation use these
equations and look into no operation.
-/

namespace MarkupTypes

section

variable {ε σ α β : Type}

/-- The state that work has left, whether it failed or not. -/
def endState : EStateM.Result ε σ α → σ
  | .ok _ s => s
  | .error _ s => s

@[simp] theorem endState_ok (x : α) (s : σ) :
    endState (.ok x s : EStateM.Result ε σ α) = s := rfl

@[simp] theorem endState_error (failure : ε) (s : σ) :
    endState (.error failure s : EStateM.Result ε σ α) = s := rfl

/-- The work has not failed, and its result and the state that it left pass a test. -/
def endsWith (P : α → σ → Bool) : EStateM.Result ε σ α → Bool
  | .ok x s => P x s
  | .error _ _ => false

theorem exists_of_endsWith {P : α → σ → Bool} {r : EStateM.Result ε σ α}
    (h : endsWith P r = true) : ∃ x s, r = .ok x s ∧ P x s = true := by
  cases r with
  | ok x s => exact ⟨x, s, rfl, h⟩
  | error failure s => cases h

@[simp] theorem run_pure (x : α) (s : σ) : (pure x : EStateM ε σ α) s = .ok x s := rfl

@[simp] theorem run_bind (x : EStateM ε σ α) (f : α → EStateM ε σ β) (s : σ) :
    (x >>= f) s = match x s with
      | .ok a s' => f a s'
      | .error failure s' => .error failure s' := by
  simp only [bind, EStateM.bind]
  cases x s <;> rfl

/-- Work that went on did not fail. -/
theorem of_run_bind {x : EStateM ε σ α} {f : α → EStateM ε σ β} {s s' : σ} {b : β}
    (h : (x >>= f) s = .ok b s') : ∃ a s₁, x s = .ok a s₁ ∧ f a s₁ = .ok b s' := by
  rw [run_bind] at h
  cases hx : x s with
  | ok a s₁ =>
    rw [hx] at h
    exact ⟨a, s₁, rfl, h⟩
  | error failure s₁ =>
    rw [hx] at h
    cases h

@[simp] theorem run_map (f : α → β) (x : EStateM ε σ α) (s : σ) :
    (f <$> x) s = match x s with
      | .ok a s' => .ok (f a) s'
      | .error failure s' => .error failure s' := by
  simp only [Functor.map, EStateM.map]
  cases x s <;> rfl

@[simp] theorem run_get (s : σ) : (get : EStateM ε σ σ) s = .ok s s := rfl

@[simp] theorem run_set (s s' : σ) : (set s' : EStateM ε σ PUnit) s = .ok ⟨⟩ s' := rfl

@[simp] theorem run_modify (f : σ → σ) (s : σ) :
    (modify f : EStateM ε σ PUnit) s = .ok ⟨⟩ (f s) := rfl

@[simp] theorem run_throw (failure : ε) (s : σ) :
    (throw failure : EStateM ε σ α) s = .error failure s := rfl

@[simp] theorem run_lift_ok (x : α) (s : σ) :
    (Attempt.lift (.ok x) : EStateM Failure σ α) s = .ok x s := rfl

@[simp] theorem run_lift_error (failure : Failure) (s : σ) :
    (Attempt.lift (.error failure) : EStateM Failure σ α) s = .error failure s := rfl

end

/-! ## Attempts -/

namespace Attempt

variable {α β : Type}

/-- An attempt that has not failed goes on. -/
theorem ok_bind (x : α) (f : α → Attempt β) : ((.ok x : Attempt α) >>= f) = f x := rfl

/-- What went on did not fail. -/
theorem of_bind_eq_ok {attempt : Attempt α} {f : α → Attempt β} {y : β}
    (h : (attempt >>= f) = .ok y) : ∃ x, attempt = .ok x ∧ f x = .ok y := by
  cases attempt with
  | error failure => cases h
  | ok x => exact ⟨x, rfl, h⟩

theorem eq_of_nonEmpty {value argument name : String}
    (h : nonEmpty value argument = .ok name) : name = value := by
  unfold nonEmpty at h
  split at h
  · cases h
  · cases h
    rfl

end Attempt

theorem RuleTable.require_eq_ok_iff {t : RuleTable} {id : RuleId} {rule : Rule} :
    t.require id = .ok rule ↔ t.get? id = some rule := by
  unfold require
  cases t.get? id <;> simp

/-! ## Compilations that succeed -/

namespace Compilation

variable {t : RuleTable} {entry : RuleId} {options : CompileOptions} {tracer : Trace.Tracer}
  {P : Model → Compilation → Bool}

/-- The rules compile, and the model and the compilation at the end pass a test. -/
def succeedsWith (t : RuleTable) (entry : RuleId) (options : CompileOptions)
    (tracer : Trace.Tracer) (P : Model → Compilation → Bool) : Bool :=
  match start t entry options tracer with
  | .ok c => endsWith P (finish c)
  | .error _ => false

theorem exists_of_succeedsWith (h : succeedsWith t entry options tracer P = true) :
    ∃ c m c', start t entry options tracer = .ok c ∧ finish c = .ok m c' ∧ P m c' = true := by
  unfold succeedsWith at h
  split at h
  · next c hstart =>
    obtain ⟨m, c', hfinish, hends⟩ := exists_of_endsWith h
    exact ⟨c, m, c', hstart, hfinish, hends⟩
  · cases h

end Compilation

/-! ## Members and parents -/

theorem Drafting.fillOnce_eq (type : TypeId) (work : Drafting Target) (d : Draft) :
    Drafting.fillOnce type work d =
      if type ∈ d.filled then .ok () d
      else match work (d.markFilled type) with
        | .ok _ d' => .ok () (d'.noteMembers type)
        | .error failure d' => .error failure d' := by
  by_cases h : type ∈ d.filled
  · simp [fillOnce, h]
  · simp only [fillOnce, run_bind, run_get, h, if_false, run_modify]
    cases work (d.markFilled type) <;> simp

namespace Expansion

variable (e : Expansion)

/-- The member of an attribute. -/
def attributeMember (tag : AttributeTag) (content : Pattern) (optional : Bool) : Member :=
  ⟨.attr, tag.name, tag.label, e.attributeValues content, none, e.returns, optional⟩

/-- The member of an element with the values it takes and the type of its content. -/
def elementMember (tag : ElementTag) (parts : List ValueType × Option TypeId) (optional : Bool) :
    Member :=
  ⟨.elem, tag.name, tag.label, parts.1, parts.2, e.returns, optional⟩

theorem addAttribute_eq (tag : AttributeTag) (content : Pattern) (optional : Bool)
    (target : Target) (d : Draft) :
    e.addAttribute tag content optional target d =
      if (.attr, tag.name) ∈ target.seen then .ok target d
      else .ok (target.see .attr tag.name)
        (d.addMember target.type (e.attributeMember tag content optional)) := by
  by_cases h : (MemberKind.attr, tag.name) ∈ target.seen <;>
    simp [addAttribute, Target.has, h, attributeMember]

theorem addElement_eq (fillOwn : TypeId → Drafting Unit) (tag : ElementTag) (content : Pattern)
    (optional : Bool) (target : Target) (d : Draft) :
    e.addElement fillOwn tag content optional target d =
      if (.elem, tag.name) ∈ target.seen then .ok target d
      else match tag.output with
        | some type => match fillOwn type d with
          | .ok _ d₁ => .ok (target.see .elem tag.name)
            (d₁.addMember target.type (e.elementMember tag ([], some type) optional))
          | .error failure d₁ => .error failure d₁
        | none => match e.elementParts tag.name content with
          | .ok parts => .ok (target.see .elem tag.name)
            (d.addMember target.type (e.elementMember tag parts optional))
          | .error failure => .error failure d := by
  by_cases h : (MemberKind.elem, tag.name) ∈ target.seen
  · simp [addElement, Target.has, h]
  · cases ho : tag.output with
    | some type =>
      simp only [addElement, Target.has, h, ho, decide_false, Bool.false_eq_true, if_false]
      cases hf : fillOwn type d <;> simp [hf, elementMember]
    | none =>
      simp only [addElement, Target.has, h, ho, decide_false, Bool.false_eq_true, if_false]
      cases e.elementParts tag.name content <;> simp [elementMember]

end Expansion

namespace Draft

/-- A type takes members from another, unless that is itself. -/
def inherit (d : Draft) (type parent : TypeId) : Draft :=
  if parent = type then d else d.addParent type parent

/-- Note that a rule stands for its pattern in a type. -/
def noteInlined (d : Draft) (rule : Rule) (type : TypeId) : Draft :=
  d.note (.ruleInlined rule.displayName (d.model.nameOf type))

end Draft

namespace Target

/-- The target while a rule stands for its pattern. -/
def splice (t : Target) (id : RuleId) : Target := { t with splicing := id :: t.splicing }

/-- What a target has become, with the rules that stood for their patterns before. -/
def resume (t inner : Target) : Target := { inner with splicing := t.splicing }

end Target

namespace Expansion

variable (e : Expansion)

theorem inherit_eq (rule : Rule) (target : Target) (d : Draft) :
    inherit rule target d =
      match rule.output with
      | some parent => .ok target (d.inherit target.type parent)
      | none => .error (.undeclared rule.displayName) d := by
  cases h : rule.output with
  | none => simp [inherit, typeOf, h]
  | some parent =>
    by_cases hp : parent = target.type <;> simp [inherit, typeOf, h, hp, Draft.inherit]

theorem referWithin_succ (beyond : Refer) (n : Nat) (id : RuleId) (location : Option Location)
    (optional : Bool) (target : Target) (d : Draft) :
    e.referWithin beyond (n + 1) id location optional target d =
      match e.rules.get? id with
      | none => .error (.of (.danglingRule id)) d
      | some rule =>
        if e.isInline id = false then inherit rule target d
        else if id ∈ target.splicing then
          .error ((Failure.of (.recursiveInline rule.displayName)).located location) d
        else match rule.pattern with
          | none => .ok target (d.noteInlined rule target.type)
          | some p =>
            match e.walk (e.referWithin beyond n) p optional (target.splice id)
              (d.noteInlined rule target.type) with
            | .ok inner d₁ => .ok (target.resume inner) d₁
            | .error failure d₁ => .error failure d₁ := by
  simp only [referWithin, RuleTable.require]
  cases e.rules.get? id with
  | none => simp
  | some rule =>
    cases e.isInline id with
    | false => simp
    | true =>
      by_cases h : id ∈ target.splicing
      · simp [h]
      · cases hp : rule.pattern with
        | none => simp [h, hp, Draft.noteInlined]
        | some p =>
          cases hw : e.walk (e.referWithin beyond n) p optional (target.splice id)
              (d.noteInlined rule target.type) <;>
            simp only [Target.splice, Draft.noteInlined] at hw <;>
            simp [h, hp, hw, Target.resume, Target.splice, Draft.noteInlined]

end Expansion

end MarkupTypes
