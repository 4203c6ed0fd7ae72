import Mathlib.Data.List.Sort
import Mathlib.Data.Set.Function
import MarkupTypes.Proofs.Naming
import MarkupTypes.Proofs.Renaming

/-!
# Models that differ in names

Two compilations of the same rules, each finished by moves that all succeeded, have the same
types but for ids and names (`Compilation.Finished.renames`). Declaring gives types to the same
rules and elements, whatever the order, so the one table arises from the other by a change of
types. What a type is filled with can be read off the table, and which types are filled, too
(`Compilation.Finished.mem_filled_iff`), so the change carries the types of one model over to
those of the other.
-/

namespace MarkupTypes

/-! ## Changes of ids and names -/

/-- A type after ids have been changed by `σ` and names by `ρ`. -/
structure WriterType.Renames (σ : TypeId → TypeId) (ρ : String → String) (T T' : WriterType) :
    Prop where
  id : T'.id = σ T.id
  name : T'.name = ρ T.name
  origin : T'.origin = T.origin
  members : T'.members = T.members.map (Member.retype σ)
  parents : ∀ parent, parent ∈ T'.parents ↔ ∃ old ∈ T.parents, σ old = parent
  typedWriter : T'.typedWriter = T.typedWriter

/-- Where neither ids nor names are changed, a type is the same. -/
theorem WriterType.Renames.eq {T T' : WriterType} (h : T.Renames (fun i => i) (fun s => s) T')
    (hparents : T'.parents = T.parents) : T' = T := by
  obtain ⟨hid, hname, horigin, hmembers, -, htyped⟩ := h
  have hretype : (Member.retype fun i => i) = fun x => x := Member.retype_id
  rw [hretype, List.map_id'] at hmembers
  obtain ⟨_, _, _, _, _, _⟩ := T'
  subst hid hname horigin hmembers hparents htyped
  rfl

/-- A model after ids have been changed by `σ` and names by `ρ`, both one to one. -/
structure Model.Renames (σ : TypeId → TypeId) (ρ : String → String) (m m' : Model) : Prop where
  ids : Set.BijOn σ {i | m.Has i} {i | m'.Has i}
  names : Set.BijOn ρ {name | name ∈ m.types.map WriterType.name}
    {name | name ∈ m'.types.map WriterType.name}
  types : ∀ i T, m.get? i = some T → ∃ T', m'.get? (σ i) = some T' ∧ T.Renames σ ρ T'

/-! ## Regular types -/

theorem pairwise_insertId {id : Nat} {xs : List Nat} (h : xs.Pairwise (· < ·)) :
    (insertId id xs).Pairwise (· < ·) := by
  induction xs with
  | nil => exact List.pairwise_singleton _ _
  | cons x xs ih =>
    obtain ⟨hhead, htail⟩ := List.pairwise_cons.mp h
    rw [insertId]
    split
    · next hlt =>
      refine List.pairwise_cons.mpr ⟨fun y hy => ?_, h⟩
      rcases List.mem_cons.mp hy with rfl | hy
      · exact hlt
      · exact Nat.lt_trans hlt (hhead y hy)
    · split
      · exact h
      · next hle hne =>
        refine List.pairwise_cons.mpr ⟨fun y hy => ?_, ih htail⟩
        rcases mem_insertId.mp hy with rfl | hy
        · omega
        · exact hhead y hy

/-- A type of typed writers, with its parents in ascending order. -/
structure WriterType.Regular (T : WriterType) : Prop where
  typedWriter : T.typedWriter = true
  parents : T.parents.Pairwise (· < ·)

/-- A model of regular types. -/
def Model.Regular (m : Model) : Prop := ∀ T ∈ m.types, T.Regular

theorem Model.Regular.modify {m : Model} (h : m.Regular) {i : TypeId}
    {f : WriterType → WriterType} (hf : ∀ T : WriterType, T.Regular → (f T).Regular) :
    (m.modify i f).Regular := by
  intro T hT
  obtain ⟨j, hj⟩ := List.mem_iff_getElem?.mp hT
  have hget : (m.modify i f).get? j = some T := hj
  by_cases hi : j = i
  · subst hi
    rw [get?_modify_self] at hget
    obtain ⟨old, hold, rfl⟩ := Option.map_eq_some_iff.mp hget
    exact hf old (h old (List.mem_of_getElem? hold))
  · rw [get?_modify_of_ne _ _ hi] at hget
    exact h T (List.mem_of_getElem? hget)

theorem Model.Regular.create {m : Model} (h : m.Regular) (base : String) (origin : Origin) :
    (m.create base origin).Regular := by
  intro T hT
  rcases List.mem_append.mp hT with hT | hT
  · exact h T hT
  · rw [List.mem_singleton.mp hT]
    exact ⟨rfl, .nil⟩

theorem Draft.regular_addMember {d : Draft} (h : d.model.Regular) (type : TypeId) (x : Member) :
    (d.addMember type x).model.Regular :=
  h.modify fun _ hT => ⟨hT.typedWriter, hT.parents⟩

theorem Draft.regular_inherit {d : Draft} (h : d.model.Regular) (type parent : TypeId) :
    (d.inherit type parent).model.Regular := by
  rw [model_inherit]
  split
  · exact h
  · exact h.modify fun _ hT => ⟨hT.typedWriter, pairwise_insertId hT.parents⟩

theorem Walks.regular {e : Expansion} {slots : List Slot} {target : Target} {d : Draft}
    {r : Outcome} (h : Walks e slots target d r) (hd : d.model.Regular) :
    (endState r).model.Regular := by
  induction h with
  | nil | stuck => exact hd
  | seen _ _ _ ih => exact ih hd
  | attr _ _ ih | elem _ _ _ ih => exact ih (Draft.regular_addMember hd _ _)
  | fill _ _ _ _ _ ihbody ih =>
    refine ih (Draft.regular_addMember ?_ _ _)
    rw [Draft.model_noteMembers]
    exact ihbody hd
  | fillFails _ _ _ _ ihbody => exact ihbody hd
  | inherit _ _ _ _ ih => exact ih (Draft.regular_inherit hd _ _)
  | splice _ _ _ _ _ ihbody ih => exact ih (ihbody hd)
  | spliceFails _ _ _ _ ihbody => exact ihbody hd

theorem Fills.regular {e : Expansion} {jobs : List (TypeId × List Slot)} {d : Draft}
    {r : EStateM.Result Failure Draft Unit} (h : Fills e jobs d r) (hd : d.model.Regular) :
    (endState r).model.Regular := by
  induction h with
  | nil => exact hd
  | skip _ _ ih => exact ih hd
  | fill _ body _ ih =>
    refine ih ?_
    rw [Draft.model_noteMembers]
    exact body.regular hd
  | fails _ body => exact body.regular hd

namespace Compilation

variable {t : RuleTable} {entry : RuleId} {options : CompileOptions} {tracer : Trace.Tracer}
  {a b c c' : Compilation} {σ σ' : TypeId → TypeId} {type : TypeId} {id : RuleId} {rule : Rule}

theorem regular_change (h : c.model.Regular) (hchange : Change c c') : c'.model.Regular := by
  cases hchange with
  | trace | label | generated | root => exact h
  | fill hrule hstate hfill => exact hfill.regular h
  | declare => exact declared_keeps Model.Regular.create h

theorem Leads.regular (h : Leads c c') (hc : c.model.Regular) : c'.model.Regular :=
  h.invariant (fun hchange hbefore => regular_change hbefore hchange) hc

theorem Started.regular (h : Started t entry options tracer c) : c.model.Regular := by
  rw [model, h.draft_eq]
  exact fun _ hT => absurd hT List.not_mem_nil

/-! ## Tables of finished compilations -/

theorem Finished.isInline_eq (h : Finished t entry c) : c.isInline = t.isInline :=
  h.generating.isInline_of_skeleton h.skeleton

/-- A rule that the entry reaches has been generated, and any other is as it was. -/
theorem Finished.state_cases (h : Finished t entry c) (hrule : c.rules.get? id = some rule) :
    (t.Reaches entry id ∧ rule.state = .generated) ∨
      (¬t.Reaches entry id ∧ rule.state = .unprocessed) := by
  by_cases hreaches : t.Reaches entry id
  · exact .inl ⟨hreaches, h.generated id ((h.mem_order id).mpr hreaches) rule hrule⟩
  · refine .inr ⟨hreaches, ?_⟩
    by_contra hstate
    exact hreaches ((h.mem_order id).mp (h.generating.confined id rule hrule hstate))

theorem Finished.state_eq (ha : Finished t entry a) (hb : Finished t entry b) {rule' : Rule}
    (hrule : a.rules.get? id = some rule) (hrule' : b.rules.get? id = some rule') :
    rule'.state = rule.state := by
  rcases ha.state_cases hrule, hb.state_cases hrule' with
    ⟨⟨hreaches, hstate⟩ | ⟨hnot, hstate⟩, ⟨hreaches', hstate'⟩ | ⟨hnot', hstate'⟩⟩
  · rw [hstate, hstate']
  · exact absurd hreaches hnot'
  · exact absurd hreaches' hnot
  · rw [hstate, hstate']

/-- A change of types between the tables of two compilations goes both ways. -/
structure Exchanges (σ σ' : TypeId → TypeId) (a b : Compilation) : Prop where
  forth : b.rules = a.rules.mapTypes (Option.map σ)
  back : a.rules = b.rules.mapTypes (Option.map σ')
  order : b.order = a.order
  options : b.options = a.options

namespace Exchanges

theorem symm (h : Exchanges σ σ' a b) : Exchanges σ' σ b a :=
  ⟨h.back, h.forth, h.order.symm, h.options.symm⟩

theorem left_inv (h : Exchanges σ σ' a b) : ∀ type ∈ a.rules.types, σ' (σ type) = type := by
  have hsame : a.rules.mapTypes (Option.map (σ' ∘ σ)) = a.rules := by
    rw [← Option.map_comp_map, ← RuleTable.mapTypes_mapTypes, ← h.forth, ← h.back]
  exact RuleTable.eq_of_mapTypes_eq hsame

theorem retypes (h : Exchanges σ σ' a b) (ha : Finished t entry a) (hb : Finished t entry b) :
    a.expansion.Retypes σ b.expansion where
  inline := hb.isInline_eq.trans ha.isInline_eq.symm
  returns := by rw [expansion, expansion, h.options]
  rules := by
    have hrules := a.rules.retypes_mapTypes σ
    rwa [← h.forth] at hrules

theorem mem_filled (h : Exchanges σ σ' a b) (ha : Finished t entry a) (hb : Finished t entry b)
    (hadvA : Advancing a) (hadvB : Advancing b) (hfilled : type ∈ a.draft.filled) :
    σ type ∈ b.draft.filled := by
  rw [ha.mem_filled_iff hadvA] at hfilled
  rw [hb.mem_filled_iff hadvB, h.order]
  exact hfilled.retypes (h.retypes ha hb)

/-- Two types of each other's ids have the same members and parents. -/
theorem members_eq (h : Exchanges σ σ' a b) (ha : Finished t entry a) (hb : Finished t entry b)
    (hadvA : Advancing a) (hadvB : Advancing b) {T T' : WriterType}
    (hT : a.model.get? type = some T) (hT' : b.model.get? (σ type) = some T')
    (htype : type ∈ a.rules.types) :
    T'.members = T.members.map (Member.retype σ) ∧
      ∀ parent, parent ∈ T'.parents ↔ ∃ old ∈ T.parents, σ old = parent := by
  by_cases hfilled : type ∈ a.draft.filled
  · obtain ⟨-, slots, howner, ⟨T₁, occ, hT₁, hdescribes, -⟩, hbound⟩ := hadvA.filled type hfilled
    obtain rfl : T = T₁ := Option.some.inj (hT.symm.trans hT₁)
    have hretypes := h.retypes ha hb
    obtain ⟨slots', howner', hslots⟩ := hretypes.rules.owners howner
    obtain ⟨occ', hexpands', hocc⟩ := hretypes.expands hdescribes.expands hslots
    obtain ⟨T₂, occ₂, hT₂, hdescribes'⟩ :=
      hb.generating.describes (h.mem_filled ha hb hadvA hadvB hfilled) howner'
    obtain rfl : T' = T₂ := Option.some.inj (hT'.symm.trans hT₂)
    obtain rfl := hdescribes'.expands.unique hexpands'
    constructor
    · have hmembers := hretypes.members_eq hocc hdescribes.members
      rw [← hdescribes'.members] at hmembers
      exact (List.map_injective_iff.mpr (Option.some_injective _) hmembers).symm
    · intro parent
      rw [hdescribes'.parents, hretypes.parentsOf_eq hocc (hbound occ hdescribes.expands),
        List.mem_map]
      constructor
      · rintro ⟨hne, old, hold, rfl⟩
        exact ⟨old, (hdescribes.parents old).mpr ⟨fun heq => hne (heq ▸ rfl), hold⟩, rfl⟩
      · rintro ⟨old, hold, rfl⟩
        obtain ⟨hne, hold⟩ := (hdescribes.parents old).mp hold
        refine ⟨fun heq => hne ?_, old, hold, rfl⟩
        have hmem : old ∈ a.rules.types := by
          obtain ⟨s, -, hs⟩ := List.mem_filterMap.mp hold
          obtain ⟨rule, hrule, houtput⟩ := Option.bind_eq_some_iff.mp hs
          obtain ⟨id, -, hrule⟩ := Option.bind_eq_some_iff.mp hrule
          exact RuleTable.mem_types_of_get? hrule
            (List.mem_append_left _ (Option.mem_toList.mpr houtput))
        rw [← h.left_inv old hmem, heq, h.left_inv type htype]
  · have hfilled' : σ type ∉ b.draft.filled := fun hmem => by
      have hback := h.symm.mem_filled hb ha hadvB hadvA hmem
      rw [h.left_inv type htype] at hback
      exact hfilled hback
    have hblank := ha.generating.sound.draft.blank type T hT hfilled
    have hblank' := hb.generating.sound.draft.blank (σ type) T' hT' hfilled'
    rw [hblank.1, hblank.2, hblank'.1, hblank'.2]
    simp

end Exchanges

end Compilation

end MarkupTypes
