import MarkupTypes.Proofs.Chains
import MarkupTypes.Proofs.Frame

/-!
# How deep walks go

A walk enters a rule only when the rule does not stand for its pattern in the same type
already, and fills a type from within another only when the type was not filled before. So
what is left to enter (`Expansion.room`) gets less with every rule entered, and is at most
`Expansion.depth` at the start. The walk of `Expansion.walk` is therefore the walk without
a bound (`Expansion.walks_walk`), and what is done at its bound never matters
(`Expansion.fillRuleWith_eq`).
-/

namespace MarkupTypes

/-! ## The types of elements -/

/-- The types of elements that have one. -/
def elementTypes (xs : List (ElementTag × Pattern)) : List TypeId :=
  xs.filterMap fun x => x.1.output

theorem mem_elementTypes {xs : List (ElementTag × Pattern)} {type : TypeId} :
    type ∈ elementTypes xs ↔ ∃ x ∈ xs, x.1.output = some type := List.mem_filterMap

theorem Rule.length_elements (r : Rule) : r.elements.length = r.elementCount := by
  cases hp : r.pattern with
  | none => simp [elements, elementCount, hp]
  | some p => simp [elements, elementCount, hp, p.length_elements]

theorem RuleTable.length_elements (t : RuleTable) : t.elements.length = t.elementCount := by
  have hcount : ∀ rules : List Rule, (rules.flatMap Rule.elements).length =
      rules.foldr (fun rule count => rule.elementCount + count) 0 := by
    intro rules
    induction rules with
    | nil => rfl
    | cons rule rules ih =>
      rw [List.flatMap_cons, List.length_append, rule.length_elements, ih, List.foldr_cons]
  exact hcount t.rules

namespace Expansion

variable (e : Expansion)

/-! ## What is left to enter -/

/-- How many elements have a type that has not been filled. -/
def unfilled (d : Draft) : Nat := (elementTypes e.rules.elements).countP (· ∉ d.filled)

/-- How many rules a walk may still enter : every rule in every type to come, and those
in the type at hand that do not stand for their pattern there. -/
def room (target : Target) (d : Draft) : Nat :=
  e.rules.size * e.unfilled d + (e.rules.size - target.splicing.length)

variable {e} {target inner : Target} {d d' : Draft} {id : RuleId} {rule : Rule} {own : TypeId}

theorem room_splice (h : e.rules.Chain target.splicing) (hrule : e.rules.get? id = some rule)
    (hnew : id ∉ target.splicing) (type : TypeId) :
    e.room (target.splice id) (d.noteInlined rule type) < e.room target d := by
  have hle := (h.cons hrule hnew).length_le
  simp only [List.length_cons] at hle
  have hunfilled : e.unfilled (d.noteInlined rule type) = e.unfilled d := rfl
  simp only [room, hunfilled, Target.splice, List.length_cons]
  omega

theorem unfilled_le (h : d.filled ⊆ d'.filled) : e.unfilled d' ≤ e.unfilled d :=
  List.countP_mono_left fun x _ hx => by
    have hx : x ∉ d'.filled := of_decide_eq_true hx
    exact decide_eq_true fun hm => hx (h hm)

theorem unfilled_markFilled_lt (htype : own ∈ elementTypes e.rules.elements)
    (hopen : own ∉ d.filled) : e.unfilled (d.markFilled own) < e.unfilled d := by
  obtain ⟨before, after, hsplit⟩ := List.append_of_mem htype
  have hmono : ∀ types : List TypeId,
      types.countP (· ∉ (d.markFilled own).filled) ≤ types.countP (· ∉ d.filled) :=
    fun types => List.countP_mono_left fun x _ hx => by
      have hx : x ∉ own :: d.filled := of_decide_eq_true hx
      exact decide_eq_true fun hm => hx (List.mem_cons_of_mem _ hm)
  have hbefore := hmono before
  have hafter := hmono after
  simp only [unfilled, hsplit, List.countP_append, List.countP_cons]
  simp only [Draft.filled_markFilled, List.mem_cons, true_or, not_true_eq_false, decide_false,
    hopen, not_false_eq_true, decide_true, if_true] at hbefore hafter ⊢
  simp only [Bool.false_eq_true, if_false]
  omega

theorem room_fill (htype : own ∈ elementTypes e.rules.elements) (hopen : own ∉ d.filled) :
    e.room (.new own) (d.markFilled own) ≤ e.room target d := by
  have hlt := unfilled_markFilled_lt (e := e) htype hopen
  have hmul : e.rules.size * (e.unfilled (d.markFilled own) + 1) ≤ e.rules.size * e.unfilled d :=
    Nat.mul_le_mul_left _ hlt
  rw [Nat.mul_succ] at hmul
  simp only [room, Target.new, List.length_nil]
  omega

theorem room_le (hsplicing : inner.splicing = target.splicing) (h : d.filled ⊆ d'.filled) :
    e.room inner d' ≤ e.room target d := by
  have hmul : e.rules.size * e.unfilled d' ≤ e.rules.size * e.unfilled d :=
    Nat.mul_le_mul_left _ (unfilled_le h)
  simp only [room, hsplicing]
  omega

theorem room_new_lt_depth (type : TypeId) (d : Draft) : e.room (.new type) d < e.depth := by
  have hcount : e.unfilled d ≤ e.rules.elementCount := by
    rw [← e.rules.length_elements]
    exact Nat.le_trans List.countP_le_length (List.length_filterMap_le _ _)
  have hmul := Nat.mul_le_mul_left e.rules.size hcount
  simp only [room, depth, Target.new, List.length_nil, Nat.mul_succ]
  omega

/-! ## The walk of the generator -/

theorem room_of_walks {slots : List Slot} (hwalk : Walks e slots target d (.ok inner d')) :
    e.room inner d' ≤ e.room target d :=
  room_le hwalk.splicing_eq hwalk.frame.filled

/-- References are dealt with as walks deal with them, while fewer than `n` rules are left
to enter. -/
def RefersWithin (e : Expansion) (refer : Refer) (n : Nat) : Prop :=
  ∀ {id location optional target d}, e.rules.Chain target.splicing → e.room target d < n →
    Walks e [.ref id location optional] target d (refer id location optional target d)

mutual

/-- A walk that deals with references as walks do is a walk. -/
theorem walks_walk {refer : Refer} {n : Nat} (hrefer : e.RefersWithin refer n) :
    ∀ (p : Pattern) (outer : Bool) {target : Target} {d : Draft},
    p.elements ⊆ e.rules.elements → e.rules.Chain target.splicing → e.room target d < n →
    Walks e (p.slots outer) target d (e.walk refer p outer target d)
  | .empty _, _, _, _, _, _, _ => .nil
  | .data _ _, _, _, _, _, _, _ => .nil
  | .value _ _ _, _, _, _, _, _, _ => .nil
  | .list _ _, _, _, _, _, _, _ => .nil
  | .ref _ _ _, _, _, _, _, hnested, hroom => hrefer hnested hroom
  | .union m ps, outer, _, _, helements, hnested, hroom =>
    walks_walkAll hrefer ps (outer || m.optional) helements hnested hroom
  | .attr m tag content, outer, target, d, _, _, _ => by
    rw [walk, addAttribute_eq, Pattern.slots]
    split
    · next hseen => exact .seen rfl hseen .nil
    · next hnew => exact .attr hnew .nil
  | .elem m tag content, outer, target, d, helements, hnested, hroom => by
    rw [walk, addElement_eq, Pattern.slots]
    split
    · next hseen => exact .seen rfl hseen .nil
    · next hnew =>
      cases houtput : tag.output with
      | none =>
        cases hparts : e.elementParts tag.name content with
        | ok parts => exact .elem hnew (.other houtput hparts) .nil
        | error failure => exact .stuck (.parts hnew houtput hparts)
      | some own =>
        have hown : own ∈ elementTypes e.rules.elements :=
          mem_elementTypes.mpr ⟨_, helements List.mem_cons_self, houtput⟩
        have hcontent : content.elements ⊆ e.rules.elements := fun x hx =>
          helements (List.mem_cons_of_mem _ hx)
        simp only [Drafting.fillOnce_eq]
        by_cases hopen : own ∈ d.filled
        · simp only [hopen, if_true]
          exact .elem hnew (.own houtput hopen) .nil
        · have hbody := walks_walk hrefer content false hcontent .nil
            (Nat.lt_of_le_of_lt (room_fill hown hopen) hroom)
          simp only [hopen, if_false]
          cases hend : e.walk refer content false (.new own) (d.markFilled own) with
          | ok inner d₁ => exact .fill hnew houtput hopen (hend ▸ hbody) .nil
          | error failure d₁ => exact .fillFails hnew houtput hopen (hend ▸ hbody)

theorem walks_walkAll {refer : Refer} {n : Nat} (hrefer : e.RefersWithin refer n) :
    ∀ (ps : List Pattern) (outer : Bool) {target : Target} {d : Draft},
    Pattern.elementsAll ps ⊆ e.rules.elements →
    e.rules.Chain target.splicing → e.room target d < n →
    Walks e (Pattern.slotsAll outer ps) target d (e.walkAll refer ps outer target d)
  | [], _, _, _, _, _, _ => .nil
  | p :: ps, outer, target, d, helements, hnested, hroom => by
    rw [Pattern.elementsAll, List.append_subset] at helements
    have hfirst := walks_walk hrefer p outer helements.1 hnested hroom
    rw [walkAll, run_bind, Pattern.slotsAll]
    cases hend : e.walk refer p outer target d with
    | error failure d₁ => exact (hend ▸ hfirst).append_of_error
    | ok inner d₁ =>
      rw [hend] at hfirst
      exact hfirst.append (walks_walkAll hrefer ps outer helements.2 (hfirst.splicing_eq ▸ hnested)
        (Nat.lt_of_le_of_lt (room_of_walks hfirst) hroom))

end

/-- References are dealt with as walks do while there is room, whatever is beyond. -/
theorem refersWithin_referWithin (beyond : Refer) (n : Nat) :
    e.RefersWithin (e.referWithin beyond n) n := by
  induction n with
  | zero => exact fun _ hroom => absurd hroom (Nat.not_lt_zero _)
  | succ n ih =>
    intro id location optional target d hnested hroom
    rw [referWithin_succ]
    cases hrule : e.rules.get? id with
    | none => exact .stuck (.dangling hrule)
    | some rule =>
      cases hinline : e.isInline id with
      | false =>
        simp only [inherit_eq, if_true]
        cases houtput : rule.output with
        | none => exact .stuck (.undeclared hrule hinline houtput)
        | some parent => exact .inherit hrule hinline houtput .nil
      | true =>
        simp only [Bool.true_eq_false, if_false]
        by_cases hopen : id ∈ target.splicing
        · simp only [hopen, if_true]
          exact .stuck (.cycle hrule hinline hopen)
        · simp only [hopen, if_false]
          have hlt : e.room (target.splice id) (d.noteInlined rule target.type) < n :=
            Nat.lt_of_lt_of_le (room_splice hnested hrule hopen _) (Nat.lt_succ_iff.mp hroom)
          cases hp : rule.pattern with
          | none =>
            have hslots : rule.slots optional = [] := by simp [Rule.slots, hp]
            change Walks e _ target d
              (.ok (target.resume (target.splice id)) (d.noteInlined rule target.type))
            exact .splice hrule hinline hopen (hslots ▸ .nil) .nil
          | some p =>
            have hslots : rule.slots optional = p.slots optional := by simp [Rule.slots, hp]
            have helements : p.elements ⊆ e.rules.elements := fun x hx =>
              RuleTable.mem_elements.mpr ⟨id, rule, hrule, by rwa [Rule.elements, hp]⟩
            have hbody := walks_walk ih p optional helements
              (hnested.cons hrule hopen) hlt
            rw [← hslots] at hbody
            simp only
            cases hend : e.walk (e.referWithin beyond n) p optional (target.splice id)
                (d.noteInlined rule target.type) with
            | ok inner d₁ => exact .splice hrule hinline hopen (hend ▸ hbody) .nil
            | error failure d₁ => exact .spliceFails hrule hinline hopen (hend ▸ hbody)

/-! ## Filling types -/

end Expansion

/-- What a rule has to fill : its type, or the types of its outermost elements if it has
none, each with the slots of its content. -/
def Rule.jobs (r : Rule) : List (TypeId × List Slot) :=
  match r.output, r.pattern with
  | some type, _ => [(type, r.slots false)]
  | none, some p =>
    p.outermost.filterMap fun x => x.1.output.map fun type => (type, x.2.slots false)
  | none, none => []

/-- Filling types one after the other, each unless that has been done. -/
inductive Fills (e : Expansion) :
    List (TypeId × List Slot) → Draft → EStateM.Result Failure Draft Unit → Prop
  | nil {d} : Fills e [] d (.ok () d)
  | skip {type slots jobs d r} (hfilled : type ∈ d.filled) (tail : Fills e jobs d r) :
    Fills e ((type, slots) :: jobs) d r
  | fill {type slots inner jobs d d₁ r} (hopen : type ∉ d.filled)
    (body : Walks e slots (.new type) (d.markFilled type) (.ok inner d₁))
    (tail : Fills e jobs (d₁.noteMembers type) r) : Fills e ((type, slots) :: jobs) d r
  | fails {type slots jobs d failure d₁} (hopen : type ∉ d.filled)
    (body : Walks e slots (.new type) (d.markFilled type) (.error failure d₁)) :
    Fills e ((type, slots) :: jobs) d (.error failure d₁)

/-- Filling types ends in one way at most. -/
theorem Fills.unique {e : Expansion} {jobs : List (TypeId × List Slot)} {d : Draft}
    {r r' : EStateM.Result Failure Draft Unit} (h : Fills e jobs d r) (h' : Fills e jobs d r') :
    r = r' := by
  induction h with
  | nil => cases h'; rfl
  | skip hfilled _ ih =>
    cases h' with
    | skip _ tail => exact ih tail
    | fill hopen | fails hopen => exact absurd hfilled hopen
  | fill hopen body _ ih =>
    cases h' with
    | skip hfilled => exact absurd hfilled hopen
    | fill _ body' tail =>
      cases body.unique body'
      exact ih tail
    | fails _ body' => cases body.unique body'
  | fails hopen body =>
    cases h' with
    | skip hfilled => exact absurd hfilled hopen
    | fill _ body' => cases body.unique body'
    | fails _ body' => cases body.unique body'; rfl

/-- Filling types adds to types that it fills, whatever type is meant to be left alone. -/
theorem Fills.frame {e : Expansion} {jobs : List (TypeId × List Slot)} {d : Draft}
    {r : EStateM.Result Failure Draft Unit} (h : Fills e jobs d r) (type : TypeId) :
    d.Frame type (endState r) := by
  induction h with
  | nil => exact .refl _ _
  | skip _ _ ih => exact ih
  | fill hopen body _ ih =>
    have hfill := Draft.Frame.of_fill type hopen body.frame
    exact hfill.trans ((Draft.Frame.of_eq (by simp) (by simp)).trans ih)
  | fails hopen body => exact .of_fill _ hopen body.frame

namespace Expansion

variable {e : Expansion} {refer : Refer}

/-- Filling one type before others. -/
theorem fills_fillWith (hrefer : e.RefersWithin refer e.depth) (type : TypeId)
    (content : Option Pattern) (helements : ∀ p ∈ content, p.elements ⊆ e.rules.elements)
    {jobs : List (TypeId × List Slot)} (next : Drafting Unit)
    (hnext : ∀ d, Fills e jobs d (next d)) (d : Draft) :
    Fills e ((type, (content.map (Pattern.slots false)).getD []) :: jobs) d
      ((do e.fillWith refer type content; next) d) := by
  rw [run_bind, fillWith.eq_def, Drafting.fillOnce_eq]
  by_cases hopen : type ∈ d.filled
  · simp only [hopen, if_true]
    exact .skip hopen (hnext d)
  · simp only [hopen, if_false]
    cases content with
    | none => exact .fill hopen .nil (hnext _)
    | some p =>
      have hbody := walks_walk hrefer p false (helements p rfl) .nil
        (e.room_new_lt_depth type (d.markFilled type))
      simp only
      cases hend : e.walk refer p false (.new type) (d.markFilled type) with
      | ok inner d₁ => exact .fill hopen (hend ▸ hbody) (hnext _)
      | error failure d₁ => exact .fails hopen (hend ▸ hbody)

theorem fills_fillElementsWith (hrefer : e.RefersWithin refer e.depth) :
    ∀ (xs : List (ElementTag × Pattern)) (d : Draft),
    (∀ x ∈ xs, x.2.elements ⊆ e.rules.elements) →
    Fills e (xs.filterMap fun x => x.1.output.map fun type => (type, x.2.slots false)) d
      (e.fillElementsWith refer xs d)
  | [], _, _ => .nil
  | (tag, content) :: xs, d, helements => by
    have htail : ∀ d, Fills e _ d (e.fillElementsWith refer xs d) := fun d =>
      fills_fillElementsWith hrefer xs d fun x hx => helements x (List.mem_cons_of_mem _ hx)
    cases houtput : tag.output with
    | none => simpa [fillElementsWith, houtput] using htail d
    | some type =>
      have hfirst := fills_fillWith hrefer type (some content)
        (by rintro p ⟨⟩; exact helements _ List.mem_cons_self) _ htail d
      simpa [fillElementsWith, houtput] using hfirst

/-- Filling a rule fills its jobs. -/
theorem fills_fillRuleWith (hrefer : e.RefersWithin refer e.depth) {rule : Rule}
    (hrule : rule ∈ e.rules.rules) (d : Draft) :
    Fills e rule.jobs d (e.fillRuleWith refer rule d) := by
  have helements : ∀ p ∈ rule.pattern, p.elements ⊆ e.rules.elements := fun p hp x hx =>
    List.mem_flatMap.mpr ⟨rule, hrule, by rwa [Rule.elements, hp]⟩
  unfold Rule.jobs fillRuleWith
  cases houtput : rule.output with
  | some type =>
    have hslots : (rule.pattern.map (Pattern.slots false)).getD [] = rule.slots false := by
      cases hp : rule.pattern <;> simp [Rule.slots, hp]
    have hfill := fills_fillWith hrefer type rule.pattern helements (pure ()) (fun _ => .nil) d
    rwa [bind_pure_unit, hslots] at hfill
  | none =>
    cases hp : rule.pattern with
    | none => exact .nil
    | some p =>
      exact fills_fillElementsWith hrefer p.outermost d fun x hx =>
        List.Subset.trans (p.elements_of_mem_elements (p.outermost_subset_elements hx))
          (helements p hp)

/-- Filling a rule as the generator does fills its jobs. -/
theorem fills_fillRule {rule : Rule} (hrule : rule ∈ e.rules.rules) (d : Draft) :
    Fills e rule.jobs d (e.fillRule rule d) :=
  fills_fillRuleWith (refersWithin_referWithin _ _) hrule d

/-- It makes no difference what is done beyond the bound, or how far away the bound is. -/
theorem fillRuleWith_eq (beyond : Refer) {n : Nat} (hn : e.depth ≤ n) {rule : Rule}
    (hrule : rule ∈ e.rules.rules) (d : Draft) :
    e.fillRuleWith (e.referWithin beyond n) rule d = e.fillRule rule d := by
  have hrefer : e.RefersWithin (e.referWithin beyond n) e.depth := fun hnested hroom =>
    refersWithin_referWithin beyond n hnested (Nat.lt_of_lt_of_le hroom hn)
  exact (fills_fillRuleWith hrefer hrule d).unique (fills_fillRule hrule d)

end Expansion

end MarkupTypes
