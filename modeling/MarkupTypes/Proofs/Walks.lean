import MarkupTypes.Proofs.Slots
import MarkupTypes.Proofs.Work

/-!
# Walks without bounds

`Walks e slots target d r` says that adding what `slots` stand for to `target`, from the
draft `d`, ends with `r`. It is the walk of `Expansion.walk` without a bound on its depth :
a derivation enters one rule after the other, and one type from within another, as often
as the rules ask for it, and what has no derivation never ends. So walks are reasoned about
by induction on derivations, where the steps of a walk are the constructors and a type
that is filled on the way has a derivation of its own.

A walk has at most one end (`Walks.unique`), and walks in a row are a walk
(`Walks.append`).
-/

namespace MarkupTypes

/-- How a walk ends : with the target it has got to, or with a failure. -/
abbrev Outcome := EStateM.Result Failure Draft Target

namespace Expansion

/-- The value types and the content type of an element. -/
def partsOf (e : Expansion) (tag : ElementTag) (content : Pattern) :
    Option (List ValueType × Option TypeId) :=
  match e.rules.contentOf e.isInline content with
  | .nothing => some ([], none)
  | .values types => some (types, none)
  | .delegated id => ((e.rules.get? id).bind Rule.output).map fun type => ([], some type)
  | .structured => tag.output.map fun type => ([], some type)

theorem output_of_typeOf {rule : Rule} {type : TypeId} (h : typeOf rule = .ok type) :
    rule.output = some type := by
  unfold typeOf at h
  split at h
  · next houtput =>
    cases h
    exact houtput
  · cases h

/-- An element without a type of its own has what its content says. -/
theorem partsOf_of_elementParts (e : Expansion) {tag : ElementTag} {content : Pattern}
    {parts : List ValueType × Option TypeId}
    (h : e.elementParts tag.name content = .ok parts) : e.partsOf tag content = some parts := by
  rw [elementParts] at h
  rw [partsOf]
  cases hcontent : e.rules.contentOf e.isInline content with
  | nothing =>
    rw [hcontent] at h
    cases h
    rfl
  | values types =>
    rw [hcontent] at h
    cases h
    rfl
  | structured =>
    rw [hcontent] at h
    cases h
  | delegated id =>
    rw [hcontent] at h
    obtain ⟨rule, hrule, h⟩ := Attempt.of_bind_eq_ok h
    obtain ⟨type, htype, h⟩ := Attempt.of_bind_eq_ok h
    cases h
    simp [RuleTable.require_eq_ok_iff.mp hrule, output_of_typeOf htype]

/-- What is known of an element without filling a type : it has no type, or one that has
been filled. -/
inductive Settled (e : Expansion) (d : Draft) (tag : ElementTag) (content : Pattern) :
    List ValueType × Option TypeId → Prop
  | own {type} (houtput : tag.output = some type) (hfilled : type ∈ d.filled) :
    Settled e d tag content ([], some type)
  | other {parts} (houtput : tag.output = none)
    (hparts : e.elementParts tag.name content = .ok parts) : Settled e d tag content parts

/-- A slot that a walk fails at. -/
inductive Stuck (e : Expansion) (target : Target) : Slot → Failure → Prop
  | parts {tag content optional failure} (hnew : (.elem, tag.name) ∉ target.seen)
    (houtput : tag.output = none) (hparts : e.elementParts tag.name content = .error failure) :
    Stuck e target (.elem tag content optional) failure
  | dangling {id location optional} (hrule : e.rules.get? id = none) :
    Stuck e target (.ref id location optional) (.of (.danglingRule id))
  | undeclared {id location optional rule} (hrule : e.rules.get? id = some rule)
    (hinline : e.isInline id = false) (houtput : rule.output = none) :
    Stuck e target (.ref id location optional) (.undeclared rule.displayName)
  | cycle {id location optional rule} (hrule : e.rules.get? id = some rule)
    (hinline : e.isInline id = true) (hopen : id ∈ target.splicing) :
    Stuck e target (.ref id location optional)
      ((Failure.of (.recursiveInline rule.displayName)).located location)

variable {e : Expansion} {d : Draft} {target : Target} {slot : Slot} {tag : ElementTag}
  {content : Pattern} {optional : Bool} {parts parts' : List ValueType × Option TypeId}
  {id : RuleId} {location : Option Location} {rule : Rule} {type : TypeId}
  {failure failure' : Failure}

theorem Settled.unique (h : e.Settled d tag content parts) (h' : e.Settled d tag content parts') :
    parts = parts' := by
  cases h <;> cases h' <;> simp_all

theorem Stuck.unique (h : e.Stuck target slot failure) (h' : e.Stuck target slot failure') :
    failure = failure' := by
  cases h <;> cases h' <;> simp_all

/-- A settled element does not wait for its type. -/
theorem Settled.mem_filled (h : e.Settled d tag content parts) (houtput : tag.output = some type) :
    type ∈ d.filled := by
  cases h with
  | own houtput' hfilled =>
    cases houtput.symm.trans houtput'
    exact hfilled
  | other hnone => cases houtput.symm.trans hnone

/-! What a walk gets stuck at is not gone past in any other way. -/

theorem Stuck.not_mem_seen {key : MemberKind × QName} (h : e.Stuck target slot failure)
    (hkey : slot.key? = some key) : key ∉ target.seen := by
  cases h with
  | parts hnew =>
    cases hkey
    exact hnew
  | dangling | undeclared | cycle => cases hkey

theorem Stuck.output_eq_none (h : e.Stuck target (.elem tag content optional) failure) :
    tag.output = none := by
  cases h with
  | parts _ houtput => exact houtput

theorem Stuck.not_settled (h : e.Stuck target (.elem tag content optional) failure) :
    ¬e.Settled d tag content parts := by
  rintro (⟨houtput, -⟩ | ⟨-, hparts⟩)
  · cases houtput.symm.trans h.output_eq_none
  · cases h with
    | parts _ _ hfails => cases hparts.symm.trans hfails

/-- A rule that a walk gets stuck at can neither be a parent nor stand for its pattern. -/
theorem Stuck.of_ref (h : e.Stuck target (.ref id location optional) failure)
    (hrule : e.rules.get? id = some rule) :
    (e.isInline id = false → rule.output = none) ∧
      (e.isInline id = true → id ∈ target.splicing) := by
  cases h with
  | dangling hnone => cases hrule.symm.trans hnone
  | undeclared hrule' hinline houtput =>
    cases hrule.symm.trans hrule'
    exact ⟨fun _ => houtput, fun hother => by cases hinline.symm.trans hother⟩
  | cycle _ hinline hopen =>
    exact ⟨fun hother => (by cases hinline.symm.trans hother), fun _ => hopen⟩

end Expansion

/-- A walk over slots, from a target and a draft to its end. -/
inductive Walks (e : Expansion) : List Slot → Target → Draft → Outcome → Prop
  | nil {target d} : Walks e [] target d (.ok target d)
  /-- The type has a member of that name. -/
  | seen {slot rest target d r key} (hkey : slot.key? = some key) (hseen : key ∈ target.seen)
    (tail : Walks e rest target d r) : Walks e (slot :: rest) target d r
  | attr {tag content optional rest target d r} (hnew : (.attr, tag.name) ∉ target.seen)
    (tail : Walks e rest (target.see .attr tag.name)
      (d.addMember target.type (e.attributeMember tag content optional)) r) :
    Walks e (.attr tag content optional :: rest) target d r
  | elem {tag content optional parts rest target d r} (hnew : (.elem, tag.name) ∉ target.seen)
    (hparts : e.Settled d tag content parts)
    (tail : Walks e rest (target.see .elem tag.name)
      (d.addMember target.type (e.elementMember tag parts optional)) r) :
    Walks e (.elem tag content optional :: rest) target d r
  /-- The type of the element is filled first. -/
  | fill {tag content optional type inner rest target d d₁ r}
    (hnew : (.elem, tag.name) ∉ target.seen) (houtput : tag.output = some type)
    (hopen : type ∉ d.filled)
    (body : Walks e (content.slots false) (.new type) (d.markFilled type) (.ok inner d₁))
    (tail : Walks e rest (target.see .elem tag.name)
      ((d₁.noteMembers type).addMember target.type
        (e.elementMember tag ([], some type) optional)) r) :
    Walks e (.elem tag content optional :: rest) target d r
  | fillFails {tag content optional type rest target d failure d₁}
    (hnew : (.elem, tag.name) ∉ target.seen) (houtput : tag.output = some type)
    (hopen : type ∉ d.filled)
    (body : Walks e (content.slots false) (.new type) (d.markFilled type) (.error failure d₁)) :
    Walks e (.elem tag content optional :: rest) target d (.error failure d₁)
  /-- A rule with a type becomes a parent. -/
  | inherit {id location optional rule parent rest target d r}
    (hrule : e.rules.get? id = some rule) (hinline : e.isInline id = false)
    (houtput : rule.output = some parent)
    (tail : Walks e rest target (d.inherit target.type parent) r) :
    Walks e (.ref id location optional :: rest) target d r
  /-- An inline rule stands for its pattern. -/
  | splice {id location optional rule inner rest target d d₁ r}
    (hrule : e.rules.get? id = some rule) (hinline : e.isInline id = true)
    (hnew : id ∉ target.splicing)
    (body : Walks e (rule.slots optional) (target.splice id) (d.noteInlined rule target.type)
      (.ok inner d₁))
    (tail : Walks e rest (target.resume inner) d₁ r) :
    Walks e (.ref id location optional :: rest) target d r
  | spliceFails {id location optional rule rest target d failure d₁}
    (hrule : e.rules.get? id = some rule) (hinline : e.isInline id = true)
    (hnew : id ∉ target.splicing)
    (body : Walks e (rule.slots optional) (target.splice id) (d.noteInlined rule target.type)
      (.error failure d₁)) :
    Walks e (.ref id location optional :: rest) target d (.error failure d₁)
  | stuck {slot rest target d failure} (hstuck : e.Stuck target slot failure) :
    Walks e (slot :: rest) target d (.error failure d)

namespace Walks

variable {e : Expansion} {slots rest : List Slot} {target inner : Target} {d d₁ : Draft}
  {r r' : Outcome} {failure : Failure}

/-! ## Walks in a row -/

private theorem append_aux (h : Walks e slots target d r) :
    (∀ inner d₁, r = .ok inner d₁ → ∀ r', Walks e rest inner d₁ r' →
      Walks e (slots ++ rest) target d r') ∧
    (∀ failure d₁, r = .error failure d₁ →
      Walks e (slots ++ rest) target d (.error failure d₁)) := by
  induction h with
  | nil =>
    refine ⟨fun inner d₁ heq r' h => ?_, fun _ _ heq => (by cases heq)⟩
    cases heq
    exact h
  | seen hkey hseen _ ih =>
    exact ⟨fun _ _ heq _ h => .seen hkey hseen (ih.1 _ _ heq _ h),
      fun _ _ heq => .seen hkey hseen (ih.2 _ _ heq)⟩
  | attr hnew _ ih =>
    exact ⟨fun _ _ heq _ h => .attr hnew (ih.1 _ _ heq _ h),
      fun _ _ heq => .attr hnew (ih.2 _ _ heq)⟩
  | elem hnew hparts _ ih =>
    exact ⟨fun _ _ heq _ h => .elem hnew hparts (ih.1 _ _ heq _ h),
      fun _ _ heq => .elem hnew hparts (ih.2 _ _ heq)⟩
  | fill hnew houtput hopen body _ _ ih =>
    exact ⟨fun _ _ heq _ h => .fill hnew houtput hopen body (ih.1 _ _ heq _ h),
      fun _ _ heq => .fill hnew houtput hopen body (ih.2 _ _ heq)⟩
  | fillFails hnew houtput hopen body _ =>
    refine ⟨fun _ _ heq => (by cases heq), fun _ _ heq => ?_⟩
    cases heq
    exact .fillFails hnew houtput hopen body
  | inherit hrule hinline houtput _ ih =>
    exact ⟨fun _ _ heq _ h => .inherit hrule hinline houtput (ih.1 _ _ heq _ h),
      fun _ _ heq => .inherit hrule hinline houtput (ih.2 _ _ heq)⟩
  | splice hrule hinline hnew body _ _ ih =>
    exact ⟨fun _ _ heq _ h => .splice hrule hinline hnew body (ih.1 _ _ heq _ h),
      fun _ _ heq => .splice hrule hinline hnew body (ih.2 _ _ heq)⟩
  | spliceFails hrule hinline hnew body _ =>
    refine ⟨fun _ _ heq => (by cases heq), fun _ _ heq => ?_⟩
    cases heq
    exact .spliceFails hrule hinline hnew body
  | stuck hstuck =>
    refine ⟨fun _ _ heq => (by cases heq), fun _ _ heq => ?_⟩
    cases heq
    exact .stuck hstuck

/-- A walk goes on where the one before it ended. -/
theorem append (h : Walks e slots target d (.ok inner d₁)) (h' : Walks e rest inner d₁ r) :
    Walks e (slots ++ rest) target d r :=
  (append_aux h).1 inner d₁ rfl r h'

/-- No walk goes on after a failure. -/
theorem append_of_error (h : Walks e slots target d (.error failure d₁)) :
    Walks e (slots ++ rest) target d (.error failure d₁) :=
  (append_aux h).2 failure d₁ rfl

/-! ## The first slot -/

section

variable {slot : Slot} {key : MemberKey} {tag : AttributeTag} {content : Pattern}
  {optional : Bool} {id : RuleId} {location : Option Location} {rule : Rule}

theorem of_seen (h : Walks e (slot :: rest) target d r) (hkey : slot.key? = some key)
    (hseen : key ∈ target.seen) : Walks e rest target d r := by
  cases h with
  | seen _ _ tail => exact tail
  | attr hnew | elem hnew | fill hnew | fillFails hnew =>
    cases hkey
    exact absurd hseen hnew
  | inherit | splice | spliceFails => cases hkey
  | stuck hstuck => exact absurd hseen (hstuck.not_mem_seen hkey)

theorem of_attr (h : Walks e (.attr tag content optional :: rest) target d r)
    (hnew : (.attr, tag.name) ∉ target.seen) :
    Walks e rest (target.see .attr tag.name)
      (d.addMember target.type (e.attributeMember tag content optional)) r := by
  cases h with
  | seen hkey hseen =>
    cases hkey
    exact absurd hseen hnew
  | attr _ tail => exact tail
  | stuck hstuck => cases hstuck

theorem of_inherit {parent : TypeId} (h : Walks e (.ref id location optional :: rest) target d r)
    (hrule : e.rules.get? id = some rule) (hinline : e.isInline id = false)
    (houtput : rule.output = some parent) :
    Walks e rest target (d.inherit target.type parent) r := by
  cases h with
  | seen hkey => cases hkey
  | inherit hrule' _ houtput' tail =>
    cases hrule.symm.trans hrule'
    cases houtput.symm.trans houtput'
    exact tail
  | splice _ hinline' | spliceFails _ hinline' => cases hinline.symm.trans hinline'
  | stuck hstuck => cases houtput.symm.trans ((hstuck.of_ref hrule).1 hinline)

/-- An inline rule is spliced, and the walk goes on unless its pattern fails. -/
theorem of_splice (h : Walks e (.ref id location optional :: rest) target d r)
    (hrule : e.rules.get? id = some rule) (hinline : e.isInline id = true)
    (hnew : id ∉ target.splicing) :
    ∃ r₁, Walks e (rule.slots optional) (target.splice id) (d.noteInlined rule target.type) r₁ ∧
      ((∃ inner d₁, r₁ = .ok inner d₁ ∧ Walks e rest (target.resume inner) d₁ r) ∨
        ∃ failure d₁, r₁ = .error failure d₁ ∧ r = r₁) := by
  cases h with
  | seen hkey => cases hkey
  | inherit _ hinline' => cases hinline.symm.trans hinline'
  | splice hrule' _ _ body tail =>
    cases hrule.symm.trans hrule'
    exact ⟨_, body, .inl ⟨_, _, rfl, tail⟩⟩
  | spliceFails hrule' _ _ body =>
    cases hrule.symm.trans hrule'
    exact ⟨_, body, .inr ⟨_, _, rfl, rfl⟩⟩
  | stuck hstuck => exact absurd ((hstuck.of_ref hrule).2 hinline) hnew

end

section

variable {slot : Slot} {tag : ElementTag} {content : Pattern} {optional : Bool}
  {parts : List ValueType × Option TypeId} {type : TypeId}

theorem of_settled (h : Walks e (.elem tag content optional :: rest) target d r)
    (hnew : (.elem, tag.name) ∉ target.seen) (hparts : e.Settled d tag content parts) :
    Walks e rest (target.see .elem tag.name)
      (d.addMember target.type (e.elementMember tag parts optional)) r := by
  cases h with
  | seen hkey hseen =>
    cases hkey
    exact absurd hseen hnew
  | elem _ hparts' tail => exact hparts.unique hparts' ▸ tail
  | fill _ houtput hopen | fillFails _ houtput hopen =>
    exact absurd (hparts.mem_filled houtput) hopen
  | stuck hstuck => exact absurd hparts hstuck.not_settled

/-- The type of an element is filled, and the walk goes on unless its content fails. -/
theorem of_fill (h : Walks e (.elem tag content optional :: rest) target d r)
    (hnew : (.elem, tag.name) ∉ target.seen) (houtput : tag.output = some type)
    (hopen : type ∉ d.filled) :
    ∃ r₁, Walks e (content.slots false) (.new type) (d.markFilled type) r₁ ∧
      ((∃ inner d₁, r₁ = .ok inner d₁ ∧ Walks e rest (target.see .elem tag.name)
          ((d₁.noteMembers type).addMember target.type
            (e.elementMember tag ([], some type) optional)) r) ∨
        ∃ failure d₁, r₁ = .error failure d₁ ∧ r = r₁) := by
  cases h with
  | seen hkey hseen =>
    cases hkey
    exact absurd hseen hnew
  | elem _ hparts => exact absurd (hparts.mem_filled houtput) hopen
  | fill _ houtput' _ body tail =>
    cases houtput.symm.trans houtput'
    exact ⟨_, body, .inl ⟨_, _, rfl, tail⟩⟩
  | fillFails _ houtput' _ body =>
    cases houtput.symm.trans houtput'
    exact ⟨_, body, .inr ⟨_, _, rfl, rfl⟩⟩
  | stuck hstuck => cases houtput.symm.trans hstuck.output_eq_none

theorem of_stuck (h : Walks e (slot :: rest) target d r) (hstuck : e.Stuck target slot failure) :
    r = .error failure d := by
  cases h with
  | seen hkey hseen => exact absurd hseen (hstuck.not_mem_seen hkey)
  | attr => cases hstuck
  | elem _ hparts => exact absurd hparts hstuck.not_settled
  | fill _ houtput | fillFails _ houtput => cases houtput.symm.trans hstuck.output_eq_none
  | inherit hrule hinline houtput => cases houtput.symm.trans ((hstuck.of_ref hrule).1 hinline)
  | splice hrule hinline hnew | spliceFails hrule hinline hnew =>
    exact absurd ((hstuck.of_ref hrule).2 hinline) hnew
  | stuck hstuck' => rw [hstuck.unique hstuck']

end

/-! ## One end -/

/-- A walk ends in one way at most. -/
theorem unique (h : Walks e slots target d r) (h' : Walks e slots target d r') : r = r' := by
  induction h generalizing r' with
  | nil =>
    cases h'
    rfl
  | seen hkey hseen _ ih => exact ih (h'.of_seen hkey hseen)
  | attr hnew _ ih => exact ih (h'.of_attr hnew)
  | elem hnew hparts _ ih => exact ih (h'.of_settled hnew hparts)
  | fill hnew houtput hopen _ _ ihb ih =>
    obtain ⟨_, body, ⟨inner, d₁, rfl, tail⟩ | ⟨failure, d₁, rfl, -⟩⟩ :=
      h'.of_fill hnew houtput hopen
    · cases ihb body
      exact ih tail
    · cases ihb body
  | fillFails hnew houtput hopen _ ihb =>
    obtain ⟨_, body, ⟨inner, d₁, rfl, -⟩ | ⟨failure, d₁, rfl, rfl⟩⟩ :=
      h'.of_fill hnew houtput hopen
    · cases ihb body
    · exact ihb body
  | inherit hrule hinline houtput _ ih => exact ih (h'.of_inherit hrule hinline houtput)
  | splice hrule hinline hnew _ _ ihb ih =>
    obtain ⟨_, body, ⟨inner, d₁, rfl, tail⟩ | ⟨failure, d₁, rfl, -⟩⟩ :=
      h'.of_splice hrule hinline hnew
    · cases ihb body
      exact ih tail
    · cases ihb body
  | spliceFails hrule hinline hnew _ ihb =>
    obtain ⟨_, body, ⟨inner, d₁, rfl, -⟩ | ⟨failure, d₁, rfl, rfl⟩⟩ :=
      h'.of_splice hrule hinline hnew
    · cases ihb body
    · exact ihb body
  | stuck hstuck => exact (h'.of_stuck hstuck).symm

end Walks

end MarkupTypes
