import Mathlib.Data.List.Forall2
import MarkupTypes.Proofs.Termination

/-!
# Which rules compile

Filling types looks into the contents of reachable rules and, from these, into the contents
of the elements that they give members for (`RuleTable.Live`). Rules compile exactly when
every rule that is reached has been defined and every content that is looked into can be
written out (`RuleTable.Compiles`, `Compilation.compiles_iff`).

A relation of slots that keeps names and references carries expansions over, whatever else it
allows to differ (`RuleTable.Expands.related`). Contents are told apart here by what they were
before anything was compiled, so expansions are carried over between tables of one skeleton first
(`RuleTable.Expands.of_skeleton_eq`).
-/

namespace MarkupTypes

/-! ## Lists that are related -/

section

variable {α β γ : Type} {R : α → β → Prop} {as : List α} {bs : List β}

theorem exists_of_forall₂_left (h : List.Forall₂ R as bs) {a : α} (ha : a ∈ as) :
    ∃ b ∈ bs, R a b := by
  induction h with
  | nil => cases ha
  | cons hab _ ih =>
    rcases List.mem_cons.mp ha with rfl | ha
    · exact ⟨_, List.mem_cons_self, hab⟩
    · obtain ⟨b, hb, hrel⟩ := ih ha
      exact ⟨b, List.mem_cons_of_mem _ hb, hrel⟩

theorem exists_of_forall₂_right (h : List.Forall₂ R as bs) {b : β} (hb : b ∈ bs) :
    ∃ a ∈ as, R a b :=
  exists_of_forall₂_left h.flip hb

theorem map_eq_of_forall₂ (h : List.Forall₂ R as bs) {f : α → γ} {g : β → γ}
    (hfg : ∀ a b, a ∈ as → R a b → g b = f a) : bs.map g = as.map f := by
  induction h with
  | nil => rfl
  | cons hab _ ih =>
    rw [List.map_cons, List.map_cons, hfg _ _ List.mem_cons_self hab,
      ih fun a b ha => hfg a b (List.mem_cons_of_mem _ ha)]

end

/-! ## Relations of slots -/

/-- A relation of slots that keeps names and references. -/
structure Slot.Likens (R : Slot → Slot → Prop) : Prop where
  key : ∀ {s s'}, R s s' → s'.key? = s.key?
  rule : ∀ {s s'}, R s s' → s'.rule? = s.rule?
  ref : ∀ {id location optional s'}, R (.ref id location optional) s' →
    ∃ location', s' = .ref id location' optional

namespace Slot.Likens

variable {R : Slot → Slot → Prop} (hR : Likens R) {slots slots' : List Slot}

include hR

theorem firsts (h : List.Forall₂ R slots slots') (seen : List MemberKey) :
    List.Forall₂ R (firsts seen slots) (MarkupTypes.firsts seen slots') := by
  induction h generalizing seen with
  | nil => exact .nil
  | @cons s s' _ _ hs _ ih =>
    cases hkey : s.key? with
    | none =>
      rw [firsts_cons_none hkey, firsts_cons_none ((hR.key hs).trans hkey)]
      exact ih seen
    | some key =>
      by_cases hseen : key ∈ seen
      · rw [firsts_cons_seen hkey hseen, firsts_cons_seen ((hR.key hs).trans hkey) hseen]
        exact ih seen
      · rw [firsts_cons_new hkey hseen, firsts_cons_new ((hR.key hs).trans hkey) hseen]
        exact .cons hs (ih _)

end Slot.Likens

/-- Related slots are written out in the same way, where the inline rules have related slots. -/
theorem RuleTable.Expands.related {t t' : RuleTable} {isInline : RuleId → Bool}
    {R : Slot → Slot → Prop} (hR : Slot.Likens R)
    (hrules : ∀ id rule, t.get? id = some rule → isInline id = true →
      ∃ rule', t'.get? id = some rule' ∧
        ∀ outer, List.Forall₂ R (rule.slots outer) (rule'.slots outer))
    {slots occ : List Slot} (h : t.Expands isInline slots occ) {slots' : List Slot}
    (hslots : List.Forall₂ R slots slots') :
    ∃ occ', t'.Expands isInline slots' occ' ∧ List.Forall₂ R occ occ' := by
  induction h generalizing slots' with
  | nil =>
    cases hslots
    exact ⟨[], .nil, .nil⟩
  | keep hslot _ ih =>
    cases hslots with
    | cons hs hrest =>
      obtain ⟨occ', hexpands, hocc⟩ := ih hrest
      exact ⟨_, .keep (fun id hid => hslot id (hR.rule hs ▸ hid)) hexpands, .cons hs hocc⟩
  | splice hrule hinline _ _ ihbody ih =>
    cases hslots with
    | cons hs hrest =>
      obtain ⟨location', rfl⟩ := hR.ref hs
      obtain ⟨rule', hrule', hbody⟩ := hrules _ _ hrule hinline
      obtain ⟨inner', hexpandsInner, hinner⟩ := ihbody (hbody _)
      obtain ⟨occ', hexpands, hocc⟩ := ih hrest
      exact ⟨inner' ++ occ', .splice hrule' hinline hexpandsInner hexpands,
        List.rel_append hinner hocc⟩

/-! ## Tables of one skeleton -/

theorem Rule.slots_skeleton (r : Rule) (outer : Bool) :
    r.skeleton.slots outer = (r.slots outer).map Slot.skeleton := by
  rw [slots, slots, pattern_skeleton]
  cases r.pattern with
  | none => rfl
  | some p => exact p.slots_skeleton outer

theorem Rule.map_skeleton_slots {r r' : Rule} (h : r'.skeleton = r.skeleton) (outer : Bool) :
    (r'.slots outer).map Slot.skeleton = (r.slots outer).map Slot.skeleton := by
  rw [← slots_skeleton, h, slots_skeleton]

theorem Pattern.map_skeleton_slots {p p' : Pattern} (h : p'.skeleton = p.skeleton) (outer : Bool) :
    (p'.slots outer).map Slot.skeleton = (p.slots outer).map Slot.skeleton := by
  rw [← slots_skeleton, h, slots_skeleton]

theorem Slot.likens_skeleton : Slot.Likens fun s s' => s.skeleton = s'.skeleton where
  key h := by rw [← key?_skeleton, ← h, key?_skeleton]
  rule h := by rw [← rule?_skeleton, ← h, rule?_skeleton]
  ref {id location optional s'} h := by
    cases s' with
    | ref id' location' optional' =>
      cases h
      exact ⟨location, rfl⟩
    | attr _ _ _ => cases h
    | elem _ _ _ => cases h

/-- Lists of slots have one skeleton if their slots do. -/
theorem map_skeleton_eq_iff {slots slots' : List Slot} :
    slots'.map Slot.skeleton = slots.map Slot.skeleton ↔
      List.Forall₂ (fun s s' => s.skeleton = s'.skeleton) slots slots' := by
  rw [eq_comm, ← List.forall₂_eq_eq_eq, List.forall₂_map_left_iff, List.forall₂_map_right_iff]

theorem map_skeleton_firsts {slots slots' : List Slot}
    (h : slots'.map Slot.skeleton = slots.map Slot.skeleton) (seen : List MemberKey) :
    (firsts seen slots').map Slot.skeleton = (firsts seen slots).map Slot.skeleton :=
  map_skeleton_eq_iff.mpr (Slot.likens_skeleton.firsts (map_skeleton_eq_iff.mp h) seen)

/-- A slot with the skeleton of an element is an element. -/
theorem Slot.exists_elem_of_skeleton_eq {s : Slot} {tag : ElementTag} {p : Pattern}
    {optional : Bool} (h : s.skeleton = (Slot.elem tag p optional).skeleton) :
    ∃ tag' p', s = .elem tag' p' optional ∧ tag'.name = tag.name ∧ p'.skeleton = p.skeleton := by
  cases s with
  | elem tag' p' optional' =>
    simp only [skeleton, elem.injEq, ElementTag.mk.injEq, and_true] at h
    obtain ⟨hname, hp, rfl⟩ := h
    exact ⟨tag', p', rfl, hname, hp⟩
  | attr _ _ _ => cases h
  | ref _ _ _ => cases h

/-- An element among slots is an element among slots of the same skeleton. -/
theorem exists_elem_of_map_skeleton {slots slots' : List Slot}
    (h : slots'.map Slot.skeleton = slots.map Slot.skeleton) {tag : ElementTag} {p : Pattern}
    {optional : Bool} (hmem : .elem tag p optional ∈ slots) :
    ∃ tag' p', .elem tag' p' optional ∈ slots' ∧ tag'.name = tag.name ∧
      p'.skeleton = p.skeleton := by
  obtain ⟨s', hs', heq⟩ := exists_of_forall₂_left (map_skeleton_eq_iff.mp h) hmem
  obtain ⟨tag', p', rfl, hname, hp⟩ := Slot.exists_elem_of_skeleton_eq heq.symm
  exact ⟨tag', p', hs', hname, hp⟩

mutual

theorem Pattern.outermost_skeleton : ∀ p : Pattern,
    p.skeleton.outermost = p.outermost.map fun x => (⟨x.1.name, none, none⟩, x.2.skeleton)
  | .elem _ _ _ => rfl
  | .list _ item => item.outermost_skeleton
  | .attr _ _ content => content.outermost_skeleton
  | .union _ ps => Pattern.outermostAll_skeletons ps
  | .empty _ => rfl
  | .data _ _ => rfl
  | .value _ _ _ => rfl
  | .ref _ _ _ => rfl

theorem Pattern.outermostAll_skeletons : ∀ ps : List Pattern,
    outermostAll (skeletons ps) =
      (outermostAll ps).map fun x => (⟨x.1.name, none, none⟩, x.2.skeleton)
  | [] => rfl
  | p :: ps => by
    rw [skeletons, outermostAll, outermostAll, List.map_append, p.outermost_skeleton,
      Pattern.outermostAll_skeletons ps]

end

theorem Pattern.exists_outermost {p p' : Pattern} (h : p'.skeleton = p.skeleton)
    {x : ElementTag × Pattern} (hx : x ∈ p.outermost) :
    ∃ x' ∈ p'.outermost, x'.2.skeleton = x.2.skeleton := by
  have hmem : ((⟨x.1.name, none, none⟩ : ElementTag), x.2.skeleton) ∈ p'.skeleton.outermost := by
    rw [h, outermost_skeleton]
    exact List.mem_map_of_mem hx
  rw [outermost_skeleton] at hmem
  obtain ⟨x', hx', heq⟩ := List.mem_map.mp hmem
  exact ⟨x', hx', congrArg Prod.snd heq⟩

namespace RuleTable

variable {t t' : RuleTable} {entry : RuleId} {isInline : RuleId → Bool} {slots occ : List Slot}

/-- Slots are written out in the same way in tables of one skeleton. -/
theorem Expands.of_skeleton_eq (h : t'.skeleton = t.skeleton)
    (hexpands : t.Expands isInline slots occ) (slots' : List Slot)
    (hslots : slots'.map Slot.skeleton = slots.map Slot.skeleton) :
    ∃ occ', t'.Expands isInline slots' occ' ∧ occ'.map Slot.skeleton = occ.map Slot.skeleton := by
  have hrules : ∀ id rule, t.get? id = some rule → isInline id = true →
      ∃ rule', t'.get? id = some rule' ∧ ∀ outer,
        List.Forall₂ (fun s s' => s.skeleton = s'.skeleton) (rule.slots outer)
          (rule'.slots outer) := fun id rule hrule _ => by
    obtain ⟨rule', hrule', hskeleton⟩ := get?_of_skeleton_eq h hrule
    exact ⟨rule', hrule', fun outer =>
      map_skeleton_eq_iff.mp (Rule.map_skeleton_slots hskeleton outer)⟩
  obtain ⟨occ', hexpands', hocc⟩ :=
    hexpands.related Slot.likens_skeleton hrules (map_skeleton_eq_iff.mp hslots)
  exact ⟨occ', hexpands', map_skeleton_eq_iff.mpr hocc⟩

/-- What can be written out does not lead back to itself. -/
theorem Expands.not_cycle (h : t.Expands t.isInline slots occ) :
    ∀ s ∈ slots, ∀ id, s.rule? = some id → ¬Relation.TransGen t.Splices id id := by
  induction h with
  | nil => exact fun _ hs => absurd hs List.not_mem_nil
  | @keep slot rest occ hslot _ ih =>
    intro s hs id hid hcycle
    rcases List.mem_cons.mp hs with rfl | hs
    · obtain ⟨_, ⟨hinline, -⟩, -⟩ := Relation.TransGen.head'_iff.mp hcycle
      rw [hslot id hid] at hinline
      cases hinline
    · exact ih s hs id hid hcycle
  | @splice a location optional rule rest inner occ hrule hinline _ _ ihbody ih =>
    intro s hs id hid hcycle
    rcases List.mem_cons.mp hs with rfl | hs
    · obtain rfl : a = id := Option.some.inj hid
      -- The cycle also goes through the rule that the pattern of `a` refers to.
      obtain ⟨b, hstep, hback⟩ := Relation.TransGen.head'_iff.mp hcycle
      obtain ⟨-, -, rule', p, hrule', hp, hb⟩ := id hstep
      obtain rfl := Option.some.inj (hrule.symm.trans hrule')
      obtain ⟨s, hs, hsb⟩ := (Pattern.mem_bareRules optional).mp hb
      have hmem : s ∈ rule.slots optional := by rw [Rule.slots, hp]; exact hs
      exact ihbody s hmem b hsb (Relation.TransGen.tail' hback hstep)
    · exact ih s hs id hid hcycle

end RuleTable

/-! ## Walks that succeed -/

/-- A set of contents that can be written out, with the contents of the elements that have
types among them. -/
structure Expansion.Closed (e : Expansion) (S : List Slot → Prop) : Prop where
  expands : ∀ slots, S slots → ∃ occ, e.rules.Expands e.isInline slots occ
  elements : ∀ slots occ, S slots → e.rules.Expands e.isInline slots occ →
    ∀ tag p optional, .elem tag p optional ∈ firsts [] occ → ∀ own, tag.output = some own →
      S (p.slots false)

/-- The contents of the elements that members are made for, unless their names are among
`seen`, belong to a set. -/
def OpensInto (S : List Slot → Prop) (seen : List MemberKey) (occ : List Slot) : Prop :=
  ∀ tag p optional, .elem tag p optional ∈ firsts seen occ → ∀ own, tag.output = some own →
    S (p.slots false)

/-- A walk has succeeded, with some names. -/
def Succeeds (r : Outcome) (names : List MemberKey) : Prop :=
  ∃ inner d, r = .ok inner d ∧ ∀ key, key ∈ inner.seen ↔ key ∈ names

section

variable {S : List Slot → Prop} {seen : List MemberKey} {slot : Slot} {key : MemberKey}
  {occ occ' : List Slot} {r : Outcome}

theorem Succeeds.congr {names names' : List MemberKey} (h : Succeeds r names)
    (hnames : ∀ key, key ∈ names ↔ key ∈ names') : Succeeds r names' := by
  obtain ⟨inner, d, hr, hseen⟩ := h
  exact ⟨inner, d, hr, fun key => (hseen key).trans (hnames key)⟩

theorem not_succeeds_error {failure : Failure} {d : Draft} {names : List MemberKey} :
    ¬Succeeds (.error failure d) names := by
  rintro ⟨inner, d', hr, -⟩
  cases hr

theorem mem_keys_cons (hkey : slot.key? = some key) {k : MemberKey} :
    k ∈ keys (slot :: occ) ++ seen ↔ k ∈ keys occ ++ key :: seen := by
  have hkeys : keys (slot :: occ) = key :: keys occ := List.filterMap_cons_some hkey
  simp only [hkeys, List.cons_append, List.mem_cons, List.mem_append]
  exact or_left_comm

/-- The names after a slot with a new name. -/
theorem Succeeds.cons (h : Succeeds r (keys occ ++ key :: seen)) (hkey : slot.key? = some key) :
    Succeeds r (keys (slot :: occ) ++ seen) :=
  h.congr fun _ => (mem_keys_cons hkey).symm

/-- The names after a slot with a name that was seen. -/
theorem Succeeds.skip (h : Succeeds r (keys occ ++ seen)) (hkey : slot.key? = some key)
    (hseen : key ∈ seen) : Succeeds r (keys (slot :: occ) ++ seen) := by
  refine h.congr fun k => ?_
  rw [mem_keys_cons hkey, List.mem_append, List.mem_append, List.mem_cons]
  constructor
  · exact Or.imp_right .inr
  · rintro (hk | rfl | hk)
    · exact .inl hk
    · exact .inr hseen
    · exact .inr hk

/-- The names after slots whose names were added to those seen before. -/
theorem Succeeds.append {seen' : List MemberKey} (h : Succeeds r (keys occ' ++ seen'))
    (hnames : ∀ key, key ∈ seen' ↔ key ∈ keys occ ++ seen) :
    Succeeds r (keys (occ ++ occ') ++ seen) := by
  refine h.congr fun k => ?_
  rw [keys_append, List.mem_append, hnames]
  simp only [List.mem_append, or_assoc]
  exact or_left_comm

/-- After a walk made a member, the rest goes on with its name. -/
theorem OpensInto.tail (h : OpensInto S seen (slot :: occ)) (hkey : slot.key? = some key)
    (hnew : key ∉ seen) : OpensInto S (key :: seen) occ := by
  intro tag p optional hmem
  refine h tag p optional ?_
  rw [firsts_cons_new hkey hnew]
  exact List.mem_cons_of_mem _ hmem

theorem OpensInto.append (h : OpensInto S seen (occ ++ occ')) :
    OpensInto S seen occ ∧ OpensInto S (keys occ ++ seen) occ' := by
  rw [OpensInto, firsts_append] at h
  exact ⟨fun tag p optional hmem => h tag p optional (List.mem_append_left _ hmem),
    fun tag p optional hmem => h tag p optional (List.mem_append_right _ hmem)⟩

end

/-- A walk succeeds over slots that can be written out, where the contents that it enters can
be too. -/
theorem Walks.succeeds {e : Expansion} {order : List RuleId} {S : List Slot → Prop}
    (hclosed : e.Closed S) (hsupports : e.Supports order) {slots : List Slot} {target : Target}
    {d : Draft} {r : Outcome} (h : Walks e slots target d r) {occ : List Slot}
    (hinside : e.Inside order slots) (hstacked : e.Stacked target.splicing slots)
    (hexpands : e.rules.Expands e.isInline slots occ) (hopens : OpensInto S target.seen occ) :
    Succeeds r (keys occ ++ target.seen) := by
  induction h generalizing occ with
  | nil =>
    cases hexpands
    exact ⟨_, _, rfl, fun _ => Iff.rfl⟩
  | @seen slot rest target d r key hkey hseen _ ih =>
    have hslot : ∀ id, slot.rule? = some id → e.isInline id = false := fun id hid => by
      rw [slot.rule?_of_key? hkey] at hid
      cases hid
    obtain ⟨occ, rfl, tail⟩ := hexpands.of_keep hslot
    rw [OpensInto, firsts_cons_seen hkey hseen] at hopens
    exact (ih hinside.tail hstacked.tail tail hopens).skip hkey hseen
  | attr hnew _ ih =>
    obtain ⟨occ, rfl, tail⟩ := hexpands.of_keep fun _ hid => by cases hid
    exact (ih hinside.tail hstacked.tail tail (hopens.tail rfl hnew)).cons rfl
  | elem hnew _ _ ih =>
    obtain ⟨occ, rfl, tail⟩ := hexpands.of_keep fun _ hid => by cases hid
    exact (ih hinside.tail hstacked.tail tail (hopens.tail rfl hnew)).cons rfl
  | fill hnew _ _ _ _ _ ih =>
    obtain ⟨occ, rfl, tail⟩ := hexpands.of_keep fun _ hid => by cases hid
    exact (ih hinside.tail hstacked.tail tail (hopens.tail rfl hnew)).cons rfl
  | @fillFails tag content optional type rest target d failure d₁ hnew houtput _ _ ihbody =>
    obtain ⟨occ, rfl, tail⟩ := hexpands.of_keep fun _ hid => by cases hid
    have hmem : .elem tag content optional ∈
        firsts target.seen (.elem tag content optional :: occ) := by
      rw [firsts_cons_new rfl hnew]
      exact List.mem_cons_self
    have hcontent := hopens tag content optional hmem type houtput
    obtain ⟨occ', hexpands'⟩ := hclosed.expands _ hcontent
    exact absurd (ihbody hinside.content .nil hexpands' (hclosed.elements _ _ hcontent hexpands'))
      not_succeeds_error
  | @inherit id location optional rule parent rest target d r _ hinline _ _ ih =>
    have hslot : ∀ i, (Slot.ref id location optional).rule? = some i → e.isInline i = false := by
      rintro _ ⟨⟩
      exact hinline
    obtain ⟨occ, rfl, tail⟩ := hexpands.of_keep hslot
    have hrest := ih hinside.tail hstacked.tail tail hopens
    exact hrest
  | @splice id location optional rule inner rest target d d₁ r hrule hinline _ _ _ ihbody ih =>
    obtain ⟨expanded, occ, rfl, body, tail⟩ := hexpands.of_splice hrule hinline
    obtain ⟨hfirst, hrest⟩ := hopens.append
    have hinner : e.Inside order (rule.slots optional) :=
      hsupports.inside_rule hinside.mem_order hrule optional
    have hstacked' := hstacked.splice hsupports.inline hrule hinline
    obtain ⟨_, _, ⟨⟩, hnames⟩ := ihbody hinner hstacked' body hfirst
    have hopens' : OpensInto S inner.seen occ := by
      rw [OpensInto, firsts_congr hnames]
      exact hrest
    exact (ih hinside.tail hstacked.tail tail hopens').append hnames
  | @spliceFails id location optional rule rest target d failure d₁ hrule hinline _ _ ihbody =>
    obtain ⟨expanded, occ, rfl, body, tail⟩ := hexpands.of_splice hrule hinline
    have hinner : e.Inside order (rule.slots optional) :=
      hsupports.inside_rule hinside.mem_order hrule optional
    have hstacked' := hstacked.splice hsupports.inline hrule hinline
    exact absurd (ihbody hinner hstacked' body hopens.append.1) not_succeeds_error
  | stuck hstuck =>
    obtain ⟨id, rule, hid, -, -, hinline, hopen, -⟩ := hsupports.cycle_of_stuck hinside hstuck
    rw [hsupports.inline] at hexpands
    exact absurd (hstacked id hopen _ List.mem_cons_self id hid hinline)
      (hexpands.not_cycle _ List.mem_cons_self id hid)

/-- Filling types succeeds where their contents can be written out. -/
theorem Fills.ne_error_of_closed {e : Expansion} {order : List RuleId} {S : List Slot → Prop}
    {jobs : List (TypeId × List Slot)} {d : Draft} {r : EStateM.Result Failure Draft Unit}
    (h : Fills e jobs d r) (hclosed : e.Closed S) (hsupports : e.Supports order)
    (hjobs : ∀ job ∈ jobs, S job.2 ∧ e.Inside order job.2) :
    ∀ failure d', r ≠ .error failure d' := by
  induction h with
  | nil => exact fun _ _ heq => nomatch heq
  | skip _ _ ih => exact ih fun job hjob => hjobs job (List.mem_cons_of_mem _ hjob)
  | fill _ _ _ ih => exact ih fun job hjob => hjobs job (List.mem_cons_of_mem _ hjob)
  | fails _ body =>
    obtain ⟨hcontent, hinside⟩ := hjobs _ List.mem_cons_self
    obtain ⟨occ, hexpands⟩ := hclosed.expands _ hcontent
    have hopens : OpensInto S [] occ := hclosed.elements _ _ hcontent hexpands
    exact absurd (body.succeeds hclosed hsupports hinside .nil hexpands hopens) not_succeeds_error

namespace RuleTable

/-! ## Contents that are looked into -/

/-- The contents that types are filled from : those of reachable rules with types, those of
the outermost elements of inline rules, and those of the elements that members are made for
in the contents that are looked into. -/
inductive Live (t : RuleTable) (entry : RuleId) : List Slot → Prop
  | rule {id rule} (hreaches : t.Reaches entry id) (hrule : t.get? id = some rule)
    (hinline : rule.isInline = false) : Live t entry (rule.slots false)
  | outermost {id rule p tag content} (hreaches : t.Reaches entry id)
    (hrule : t.get? id = some rule) (hinline : rule.isInline = true) (hp : rule.pattern = some p)
    (hmem : (tag, content) ∈ p.outermost)
    (hcontent : t.contentOf t.isInline content = .structured) :
    Live t entry (content.slots false)
  | element {slots occ tag content optional} (hlive : Live t entry slots)
    (hexpands : t.Expands t.isInline slots occ)
    (hmem : .elem tag content optional ∈ firsts [] occ)
    (hcontent : t.contentOf t.isInline content = .structured) : Live t entry (content.slots false)

/-- Every rule that the entry reaches is defined. -/
def Defined (t : RuleTable) (entry : RuleId) : Prop :=
  ∀ id, t.Reaches entry id → ∃ rule p, t.get? id = some rule ∧ rule.pattern = some p

/-- The rules that the entry reaches are defined, and every content that is looked into can
be written out. -/
structure Compiles (t : RuleTable) (entry : RuleId) : Prop where
  defined : t.Defined entry
  expands : ∀ slots, t.Live entry slots → ∃ occ, t.Expands t.isInline slots occ

variable {t : RuleTable} {entry : RuleId}

/-- A search that meets defined rules only does not fail. -/
theorem visit_ok (hdefined : t.Defined entry) : ∀ (steps : Nat)
    (pending : List (RuleId × Option Location)) (found : List RuleId),
    (∀ x ∈ pending, t.Reaches entry x.1) → ∃ order, t.visit steps pending found = .ok order
  | 0, _, found, _ => ⟨found, rfl⟩
  | _ + 1, [], found, _ => ⟨found, rfl⟩
  | steps + 1, (id, location) :: pending, found, hpending => by
    have hid : t.Reaches entry id := hpending _ List.mem_cons_self
    have hrest : ∀ x ∈ pending, t.Reaches entry x.1 := fun x hx =>
      hpending x (List.mem_cons_of_mem _ hx)
    rw [visit]
    split
    · exact visit_ok hdefined steps pending found hrest
    · obtain ⟨rule, p, hrule, hp⟩ := hdefined id hid
      simp only [require, hrule, hp, bind, Except.bind]
      refine visit_ok hdefined steps _ _ fun x hx => ?_
      rcases List.mem_append.mp hx with hx | hx
      · exact hid.tail ⟨rule, hrule, x.2, by rw [Rule.refs, hp]; exact hx⟩
      · exact hrest x hx

end RuleTable

namespace Compilation

variable {t : RuleTable} {entry : RuleId} {options : CompileOptions} {tracer : Trace.Tracer}
  {c c' : Compilation} {slots : List Slot}

/-- A compilation can be started exactly when all that its entry reaches is defined. -/
theorem start_ok_iff : (∃ c, start t entry options tracer = .ok c) ↔ t.Defined entry := by
  constructor
  · rintro ⟨c, hstart⟩ id hid
    exact (started_of_start hstart).region.defined id ((mem_order_iff hstart).mpr hid)
  · intro hdefined
    obtain ⟨rule, p, hrule, -⟩ := hdefined entry .refl
    obtain ⟨order, horder⟩ := RuleTable.visit_ok hdefined (t.referenceCount + 1) [(entry, none)] []
      (by rintro x hx; obtain rfl := List.mem_singleton.mp hx; exact .refl)
    have hreachable : t.reachable entry = .ok order := horder
    simp only [start, Attempt.ensure, hrule, Option.isSome_some, hreachable, bind, Except.bind]
    exact ⟨_, rfl⟩

/-- Types belong to rules of the compilation. -/
theorem Generating.exists_rule_of_mem_owners (h : Generating c) {owner : TypeId × List Slot}
    (howner : owner ∈ c.rules.owners) :
    ∃ id rule, c.rules.get? id = some rule ∧ id ∈ c.order ∧ owner ∈ rule.owners := by
  obtain ⟨rule, hmem, howner⟩ := List.mem_flatMap.mp howner
  obtain ⟨id, hrule⟩ := List.mem_iff_getElem?.mp hmem
  have hdeclared :=
    h.sound.declared_of_mem_types hrule (Rule.mem_types_of_mem_owners howner)
  exact ⟨id, rule, hrule, h.confined id rule hrule hdeclared.1, howner⟩

/-- What owns a type in a compilation has been declared. -/
theorem Generating.inside_of_mem_owners (h : Generating c) {owner : TypeId × List Slot}
    (howner : owner ∈ c.rules.owners) : c.expansion.Inside c.order owner.2 := by
  obtain ⟨id, rule, hid, hmem, howner⟩ := h.exists_rule_of_mem_owners howner
  rcases List.mem_append.mp howner with howner | howner
  · obtain ⟨type, -, rfl⟩ := List.mem_map.mp howner
    exact h.supports.inside_rule hmem hid false
  · obtain ⟨x, hx, hmap⟩ := List.mem_filterMap.mp howner
    obtain ⟨type, -, rfl⟩ := Option.map_eq_some_iff.mp hmap
    exact h.supports.inside_element hmem hid hx

/-- Slots have been filled into some type, but for labels and types. -/
def FilledIn (c : Compilation) (slots : List Slot) : Prop :=
  ∃ type slots', (type, slots') ∈ c.rules.owners ∧ type ∈ c.draft.filled ∧
    slots'.map Slot.skeleton = slots.map Slot.skeleton

namespace Finished

/-- What the content of an element needs is read off its skeleton. -/
theorem contentOf_eq (h : Finished t entry c) {p p' : Pattern} (hp : p'.skeleton = p.skeleton) :
    c.rules.contentOf c.isInline p' = t.contentOf t.isInline p := by
  rw [h.generating.isInline_of_skeleton h.skeleton,
    RuleTable.contentOf_eq_of_skeleton_eq h.skeleton _ hp]

theorem filledIn_rule (h : Finished t entry c) {id : RuleId} {rule : Rule}
    (hreaches : t.Reaches entry id) (hrule : t.get? id = some rule)
    (hinline : rule.isInline = false) : FilledIn c (rule.slots false) := by
  obtain ⟨rule', hrule', hsame, hinlineEq, hdeclared, hjobs⟩ := h.exists_rule hreaches hrule
  obtain ⟨type, houtput, -⟩ := hdeclared.typed (hinlineEq.trans hinline)
  have hfilled : type ∈ c.draft.filled :=
    hjobs (type, rule'.slots false) (by simp [Rule.jobs, houtput])
  exact ⟨type, rule'.slots false, RuleTable.mem_owners_of_rule hrule' houtput, hfilled,
    Rule.map_skeleton_slots hsame false⟩

/-- An outermost element of an inline rule has a type of its own, if its content needs one. -/
theorem exists_type_of_outermost (h : Finished t entry c) {id : RuleId} {rule : Rule} {p : Pattern}
    {tag : ElementTag} {content : Pattern} (hreaches : t.Reaches entry id)
    (hrule : t.get? id = some rule) (hinline : rule.isInline = true) (hp : rule.pattern = some p)
    (hmem : (tag, content) ∈ p.outermost)
    (hcontent : t.contentOf t.isInline content = .structured) :
    ∃ rule' p' x type, c.rules.get? id = some rule' ∧ rule'.output = none ∧
      rule'.pattern = some p' ∧ p'.skeleton = p.skeleton ∧ x ∈ p'.outermost ∧
      x.2.skeleton = content.skeleton ∧ x.1.output = some type ∧
      (type, x.2.slots false) ∈ c.rules.owners ∧ type ∈ c.draft.filled := by
  obtain ⟨rule', hrule', hsame, hinlineEq, hdeclared, hjobs⟩ := h.exists_rule hreaches hrule
  obtain ⟨p', hp', hpattern⟩ := RuleTable.pattern_of_skeleton_eq hsame hp
  obtain ⟨x, hx, hskeleton⟩ := Pattern.exists_outermost hpattern hmem
  have helement : x ∈ rule'.elements := by
    rw [Rule.elements, hp']
    exact p'.outermost_subset_elements hx
  have hnone : rule'.output = none := hdeclared.inline (hinlineEq.trans hinline)
  have hprovides := hdeclared.elements x helement
  cases houtput : x.1.output with
  | none =>
    rw [houtput] at hprovides
    exact absurd ((h.contentOf_eq hskeleton).trans hcontent) hprovides
  | some type =>
    have hjob : (type, x.2.slots false) ∈ rule'.jobs := by
      rw [Rule.jobs, hnone, hp']
      exact List.mem_filterMap.mpr ⟨x, hx, by rw [houtput]; rfl⟩
    have howner : (type, x.2.slots false) ∈ c.rules.owners :=
      RuleTable.mem_owners_of_element
        (RuleTable.mem_elements.mpr ⟨id, rule', hrule', helement⟩) houtput
    exact ⟨rule', p', x, type, hrule', hnone, hp', hpattern, hx, hskeleton, houtput, howner,
      hjobs _ hjob⟩

/-- What a type was made for is written out as in the table, but for labels and types. -/
theorem map_skeleton_eq (h : Finished t entry c) {slots' occ occ' : List Slot} {type : TypeId}
    {T : WriterType} (hdescribes : c.expansion.Describes type slots' occ' T)
    (hexpands : t.Expands t.isInline slots occ)
    (hslots : slots'.map Slot.skeleton = slots.map Slot.skeleton) :
    occ'.map Slot.skeleton = occ.map Slot.skeleton := by
  obtain ⟨occ'', hexpands'', hocc⟩ := hexpands.of_skeleton_eq h.skeleton slots' hslots
  have hexpands' : c.rules.Expands t.isInline slots' occ' :=
    h.generating.isInline_of_skeleton h.skeleton ▸ hdescribes.expands
  rw [hexpands'.unique hexpands'', hocc]

theorem filledIn_element (h : Finished t entry c) {occ : List Slot} {tag : ElementTag}
    {content : Pattern} {optional : Bool} (hfilled : FilledIn c slots)
    (hexpands : t.Expands t.isInline slots occ)
    (hmem : .elem tag content optional ∈ firsts [] occ)
    (hcontent : t.contentOf t.isInline content = .structured) :
    FilledIn c (content.slots false) := by
  obtain ⟨type, slots', howner, hfilled, hslots⟩ := hfilled
  obtain ⟨T, occ', hT, hdescribes, hopened⟩ := h.generating.populated hfilled howner
  -- The member of the element was made for an element of the same skeleton.
  have hocc := h.map_skeleton_eq hdescribes hexpands hslots
  obtain ⟨tag', content', hmem', -, hskeleton⟩ :=
    exists_elem_of_map_skeleton (map_skeleton_firsts hocc []) hmem
  have hinside : c.expansion.Inside c.order occ' :=
    h.generating.supports.inside_expands hdescribes.expands
      (h.generating.inside_of_mem_owners howner)
  cases houtput : tag'.output with
  | none =>
    have hslot := hinside _ (mem_of_mem_firsts hmem')
    have hnot := hslot.elements _ List.mem_cons_self houtput
    exact absurd ((h.contentOf_eq hskeleton).trans hcontent) hnot
  | some own =>
    have hwithin : c.expansion.Within slots' := within_of_mem_owners (e := c.expansion) howner
    have helement : (tag', content') ∈ c.rules.elements :=
      hdescribes.expands.elements_subset hwithin _ (mem_of_mem_firsts hmem') List.mem_cons_self
    exact ⟨own, content'.slots false, RuleTable.mem_owners_of_element helement houtput,
      hopened _ hmem' own houtput, Pattern.map_skeleton_slots hskeleton false⟩

/-- A content that is looked into has been filled into some type. -/
theorem filledIn_of_live (h : Finished t entry c) (hlive : t.Live entry slots) :
    FilledIn c slots := by
  induction hlive with
  | rule hreaches hrule hinline => exact h.filledIn_rule hreaches hrule hinline
  | outermost hreaches hrule hinline hp hmem hcontent =>
    obtain ⟨_, _, x, type, -, -, -, -, -, hskeleton, -, howner, hfilled⟩ :=
      h.exists_type_of_outermost hreaches hrule hinline hp hmem hcontent
    exact ⟨type, x.2.slots false, howner, hfilled, Pattern.map_skeleton_slots hskeleton false⟩
  | element _ hexpands hmem hcontent ih => exact h.filledIn_element ih hexpands hmem hcontent

/-- Rules that have been compiled, compile. -/
theorem compiles (h : Finished t entry c) (hdefined : t.Defined entry) : t.Compiles entry := by
  refine ⟨hdefined, fun slots hlive => ?_⟩
  obtain ⟨type, slots', howner, hfilled, hsame⟩ := h.filledIn_of_live hlive
  obtain ⟨T, occ, -, hdescribes⟩ := h.generating.describes hfilled howner
  obtain ⟨occ', hexpands, -⟩ :=
    hdescribes.expands.of_skeleton_eq h.skeleton.symm slots hsame.symm
  have hinline : c.isInline = t.isInline := h.generating.isInline_of_skeleton h.skeleton
  exact ⟨occ', hinline ▸ hexpands⟩

end Finished

/-- Slots of a compilation that are looked into, but for labels and types. -/
def LiveIn (t : RuleTable) (entry : RuleId) (c : Compilation) (slots : List Slot) : Prop :=
  c.expansion.Within slots ∧
    ∃ slots', t.Live entry slots' ∧ slots'.map Slot.skeleton = slots.map Slot.skeleton

/-- What is looked into can be written out in every compilation of rules that compile. -/
theorem closed_liveIn (h : t.Compiles entry) (hskeleton : c.rules.skeleton = t.skeleton)
    (hinline : c.isInline = t.isInline) (hshaped : c.expansion.Shaped) :
    c.expansion.Closed (LiveIn t entry c) where
  expands slots hslots := by
    obtain ⟨-, slots', hlive, hsame⟩ := hslots
    obtain ⟨occ', hexpands⟩ := h.expands slots' hlive
    obtain ⟨occ, hocc, -⟩ := hexpands.of_skeleton_eq hskeleton slots hsame.symm
    refine ⟨occ, ?_⟩
    change c.rules.Expands c.isInline slots occ
    rw [hinline]
    exact hocc
  elements slots occ hslots hexpands tag p optional hmem own houtput := by
    obtain ⟨hwithin, slots', hlive, hsame⟩ := hslots
    have helement : (tag, p) ∈ c.rules.elements :=
      hexpands.elements_subset hwithin _ (mem_of_mem_firsts hmem) List.mem_cons_self
    have hexpands' : c.rules.Expands t.isInline slots occ := hinline ▸ hexpands
    obtain ⟨occ', hocc', hoccEq⟩ := hexpands'.of_skeleton_eq hskeleton.symm slots' hsame
    obtain ⟨tag', p', hmem', -, hp⟩ :=
      exists_elem_of_map_skeleton (map_skeleton_firsts hoccEq []) hmem
    have hcontent : t.contentOf t.isInline p' = .structured := by
      rw [← hinline, RuleTable.contentOf_eq_of_skeleton_eq hskeleton.symm _ hp]
      exact hshaped _ helement own houtput
    exact ⟨.of_element helement, p'.slots false, .element hlive hocc' hmem' hcontent,
      Pattern.map_skeleton_slots hp false⟩

/-- What a reachable rule has to fill is looked into. -/
theorem Generating.liveIn_of_mem_jobs (h : Generating c) (hskeleton : c.rules.skeleton = t.skeleton)
    {id : RuleId} {rule : Rule} (hid : id ∈ c.order) (hreaches : t.Reaches entry id)
    (hrule : c.rules.get? id = some rule) {job : TypeId × List Slot} (hjob : job ∈ rule.jobs) :
    LiveIn t entry c job.2 := by
  have hwithin : c.expansion.Within job.2 :=
    Rule.within_of_mem_jobs (RuleTable.mem_of_get? hrule) hjob
  have hdeclared := h.sound.declared id rule hrule (h.declared id hid rule hrule)
  obtain ⟨rule₀, hrule₀, hsame⟩ := RuleTable.get?_of_skeleton_eq hskeleton.symm hrule
  have hinlineEq : rule₀.isInline = c.isInline id := by
    rw [isInline_eq h.inline_eq hrule, ← rule₀.isInline_skeleton, hsame, rule.isInline_skeleton]
  have hisInline : c.isInline = t.isInline := h.isInline_of_skeleton hskeleton
  refine ⟨hwithin, ?_⟩
  unfold Rule.jobs at hjob
  split at hjob
  · next type _ houtput =>
    obtain rfl := List.mem_singleton.mp hjob
    have hinline : c.isInline id = false := by
      by_contra hnot
      rw [hdeclared.inline (eq_true_of_ne_false hnot)] at houtput
      cases houtput
    exact ⟨rule₀.slots false, .rule hreaches hrule₀ (hinlineEq.trans hinline),
      Rule.map_skeleton_slots hsame false⟩
  · next p houtput hp =>
    obtain ⟨⟨tag, content⟩, hx, hmap⟩ := List.mem_filterMap.mp hjob
    obtain ⟨type, htype, rfl⟩ := Option.map_eq_some_iff.mp hmap
    have hinline : c.isInline id = true := by
      by_contra hnot
      obtain ⟨type', houtput', -⟩ := hdeclared.typed (eq_false_of_ne_true hnot)
      rw [houtput] at houtput'
      cases houtput'
    obtain ⟨p₀, hp₀, hpattern⟩ := RuleTable.pattern_of_skeleton_eq hsame hp
    obtain ⟨⟨tag₀, content₀⟩, hx₀, hcontentEq⟩ := Pattern.exists_outermost hpattern hx
    have helement : (tag, content) ∈ rule.elements := by
      rw [Rule.elements, hp]
      exact p.outermost_subset_elements hx
    have hprovides := hdeclared.elements _ helement
    rw [htype] at hprovides
    have hcontent : t.contentOf t.isInline content₀ = .structured := by
      rw [← hisInline, RuleTable.contentOf_eq_of_skeleton_eq hskeleton.symm _ hcontentEq]
      exact hprovides.1
    exact ⟨content₀.slots false,
      .outermost hreaches hrule₀ (hinlineEq.trans hinline) hp₀ hx₀ hcontent,
      Pattern.map_skeleton_slots hcontentEq false⟩
  · cases hjob

/-- Rules compile exactly when all that is reached is defined, and all that is looked into can
be written out. -/
theorem compiles_iff (hfresh : t.Fresh) :
    (∃ c m c', start t entry options tracer = .ok c ∧ finish c = .ok m c') ↔ t.Compiles entry := by
  constructor
  · rintro ⟨c, m, c', hstart, hfinish⟩
    obtain ⟨-, h⟩ := finished_of_finish hfresh hstart hfinish
    exact h.compiles (start_ok_iff.mp ⟨c, hstart⟩)
  · intro hcompiles
    obtain ⟨c, hstart⟩ : ∃ c, start t entry options tracer = .ok c :=
      start_ok_iff.mpr hcompiles.defined
    have hstarted := started_of_start hstart
    rcases finish_cases hstarted hfresh with
      ⟨c', hend, -⟩ | ⟨c', failure, id, rule, d, hfails, -⟩
    · exact ⟨c, _, c', hstart, hend⟩
    · have h := hfails.generating
      have hskeleton : c'.rules.skeleton = t.skeleton := hstarted.skeleton_eq hfails.leads
      have hinline : c'.isInline = t.isInline := h.isInline_of_skeleton hskeleton
      have hreaches : t.Reaches entry id :=
        (mem_order_iff hstart).mp (hfails.leads.keeps.order ▸ hfails.mem)
      have hclosed := closed_liveIn hcompiles hskeleton hinline h.sound.shaped
      exact absurd rfl (hfails.fills.ne_error_of_closed hclosed h.supports (fun job hjob =>
        ⟨h.liveIn_of_mem_jobs hskeleton hfails.mem hreaches hfails.rule_eq hjob,
          h.supports.inside_jobs hfails.mem hfails.rule_eq hjob⟩) failure d)

end Compilation

end MarkupTypes
