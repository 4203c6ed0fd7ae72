import Mathlib.Data.List.Induction
import MarkupTypes.Proofs.Advances
import MarkupTypes.Proofs.Naming

/-!
# Ids and names of types

Which ids and names types get depends on the order in which rules are declared for the first
time, and on nothing else. Declaring looks at the rules, at the names that are taken and at the
number of types (`Compilation.Alike.after_declare`), and generating changes none of these but
the states of declared rules (`Compilation.alike_of_generate`). So a compilation stays like one
that only declares (`Compilation.alike_finish`), where declaring a rule again does nothing
(`Compilation.declaring_eraseDups`).
-/

namespace MarkupTypes

/-- A rule as it was before it was generated. -/
def Rule.ungenerated (r : Rule) : Rule :=
  { r with state := if r.state = .unprocessed then .unprocessed else .declared }

/-- A table as it was before any rule was generated. -/
def RuleTable.ungenerated (t : RuleTable) : RuleTable := ⟨t.rules.map Rule.ungenerated⟩

namespace Rule

variable {r r' : Rule}

theorem eq_of_ungenerated_eq_of_state (h : r'.ungenerated = r.ungenerated)
    (hstate : r'.state = r.state) : r' = r := by
  obtain ⟨_, _, _, _, _, _⟩ := r
  obtain ⟨_, _, _, _, _, _⟩ := r'
  simp_all [ungenerated]

theorem skeleton_ungenerated (r : Rule) : r.ungenerated.skeleton = r.skeleton := rfl

end Rule

namespace RuleTable

variable {t t' : RuleTable} {id : RuleId} {rule : Rule}

theorem get?_ungenerated (t : RuleTable) (id : RuleId) :
    t.ungenerated.get? id = (t.get? id).map Rule.ungenerated := List.getElem?_map ..

theorem skeleton_ungenerated (t : RuleTable) : t.ungenerated.skeleton = t.skeleton := by
  rw [skeleton, ungenerated, List.map_map, skeleton]
  exact congrArg (fun f => mk (t.rules.map f)) (funext Rule.skeleton_ungenerated)

theorem skeleton_of_ungenerated_eq (h : t'.ungenerated = t.ungenerated) :
    t'.skeleton = t.skeleton := by
  rw [← skeleton_ungenerated, h, skeleton_ungenerated]

theorem get?_of_ungenerated_eq (h : t'.ungenerated = t.ungenerated)
    (hrule : t.get? id = some rule) :
    ∃ rule', t'.get? id = some rule' ∧ rule'.ungenerated = rule.ungenerated := by
  have hget := congrArg (RuleTable.get? · id) h
  simp only [get?_ungenerated, hrule, Option.map_some] at hget
  exact Option.map_eq_some_iff.mp hget

theorem get?_none_of_ungenerated_eq (h : t'.ungenerated = t.ungenerated)
    (hrule : t.get? id = none) : t'.get? id = none := by
  have hget := congrArg (RuleTable.get? · id) h
  simpa only [get?_ungenerated, hrule, Option.map_none, Option.map_eq_none_iff] using hget

end RuleTable

/-- Two drafts with as many types, of the same names. -/
structure Draft.Alike (d d' : Draft) : Prop where
  taken : d'.model.names = d.model.names
  names : d'.model.types.map WriterType.name = d.model.types.map WriterType.name

namespace Draft.Alike

variable {d d' d'' : Draft}

theorem trans (h : d.Alike d') (h' : d'.Alike d'') : d.Alike d'' :=
  ⟨h'.taken.trans h.taken, h'.names.trans h.names⟩

theorem size (h : d.Alike d') : d'.model.size = d.model.size := by
  have hlength := congrArg List.length h.names
  rwa [List.length_map, List.length_map] at hlength

theorem create (h : d.Alike d') (base : String) (origin : Origin) :
    (d.create base origin).Alike (d'.create base origin) := by
  have hfree : ∀ base, d'.model.freeName base = d.model.freeName base := by
    have hnumbered : ∀ base tries n,
        d'.model.numberedName base tries n = d.model.numberedName base tries n := by
      intro base tries
      induction tries with
      | zero => exact fun _ => rfl
      | succ tries ih =>
        intro n
        rw [Model.numberedName, Model.numberedName, h.taken, ih]
    intro base
    rw [Model.freeName, Model.freeName, h.taken, hnumbered]
  constructor
  · simp only [Draft.create, Draft.note, Model.create, h.taken, hfree, h.size]
  · simp only [Draft.create, Draft.note, Model.create, List.map_append, h.names, hfree,
      List.map_cons, List.map_nil, WriterType.new]

/-- What fills types leaves their names alone. -/
theorem of_frame {type : TypeId} (h : d.Frame type d') : d.Alike d' where
  taken := h.names
  names := h.grows.map_name h.size

end Draft.Alike

namespace Compilation

/-- Two compilations that have declared the same rules, with the same types. -/
structure Alike (a b : Compilation) : Prop where
  rules : b.rules.ungenerated = a.rules.ungenerated
  inline : b.inline = a.inline
  options : b.options = a.options
  draft : a.draft.Alike b.draft

variable {t : RuleTable} {entry : RuleId} {options : CompileOptions} {tracer : Trace.Tracer}
  {a b c c' : Compilation} {id : RuleId} {rule : Rule} {ids : List RuleId}

namespace Alike

theorem refl (c : Compilation) : Alike c c := ⟨rfl, rfl, rfl, rfl, rfl⟩

theorem trans (h : Alike a b) (h' : Alike b c) : Alike a c :=
  ⟨h'.rules.trans h.rules, h'.inline.trans h.inline, h'.options.trans h.options,
    h.draft.trans h'.draft⟩

theorem symm (h : Alike a b) : Alike b a :=
  ⟨h.rules.symm, h.inline.symm, h.options.symm, h.draft.taken.symm, h.draft.names.symm⟩

theorem isInline (h : Alike a b) : b.isInline = a.isInline := by
  funext id
  rw [Compilation.isInline, Compilation.isInline, h.inline]

theorem declareElements (h : Alike a b) : ∀ (xs : List (ElementTag × Pattern)) {d d' : Draft},
    d.Alike d' → (b.declareElements xs d').2 = (a.declareElements xs d).2 ∧
      (a.declareElements xs d).1.Alike (b.declareElements xs d').1
  | [], _, _, hd => ⟨rfl, hd⟩
  | (tag, content) :: rest, d, d', hd => by
    have hcontent :
        b.rules.contentOf b.isInline content = a.rules.contentOf a.isInline content := by
      rw [h.isInline]
      exact RuleTable.contentOf_eq_of_skeleton_eq
        (RuleTable.skeleton_of_ungenerated_eq h.rules) _ rfl
    rw [declareElements_cons, declareElements_cons, hcontent]
    split
    · obtain ⟨htypes, hdrafts⟩ := h.declareElements rest
        (hd.create (tag.label.getD tag.name.localName) (.element tag.name))
      exact ⟨by simp only [htypes, hd.size], hdrafts⟩
    · obtain ⟨htypes, hdrafts⟩ := h.declareElements rest hd
      exact ⟨by simp only [htypes], hdrafts⟩

theorem declared (h : Alike a b) (id : RuleId) (rule : Rule) :
    (b.declared id rule).1 = (a.declared id rule).1 ∧
      (a.declared id rule).2.Alike (b.declared id rule).2 := by
  have hdraft : (a.draftOfRule id rule).Alike (b.draftOfRule id rule) := by
    rw [draftOfRule, draftOfRule, h.isInline, baseName, baseName, h.options]
    split
    · exact h.draft
    · exact h.draft.create _ _
  obtain ⟨htypes, hdrafts⟩ := h.declareElements rule.elements hdraft
  rw [declared_eq, declared_eq]
  exact ⟨by simp only [htypes, h.isInline, model, h.draft.size], hdrafts⟩

end Alike

end Compilation

end MarkupTypes
