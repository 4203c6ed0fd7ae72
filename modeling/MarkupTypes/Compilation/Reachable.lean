import MarkupTypes.Rule

/-!
# Reachable rules

The rules that an entry rule reaches through references, in the order of a depth-first
walk that follows the references of a rule from left to right and visits no rule twice
(`RuleTable.reachable`). Each of them must be defined : an undefined one fails at the
reference by which it was reached.
-/

namespace MarkupTypes.RuleTable

/-- The number of references in all patterns of the table. -/
def referenceCount (t : RuleTable) : Nat := (t.rules.flatMap Rule.refs).length

/-- Visit the pending rules and those they reach, after the rules of `found`. Every
step takes one pending rule away, and a rule adds its references once, so a walk from
one rule takes at most one step more than there are references. -/
def visit (t : RuleTable) :
    Nat → List (RuleId × Option Location) → List RuleId → Attempt (List RuleId)
  | 0, _, found => .ok found
  | _ + 1, [], found => .ok found
  | steps + 1, (id, location) :: pending, found =>
    if id ∈ found then t.visit steps pending found
    else do
      let rule ← t.require id
      match rule.pattern with
      | none => .error ((Failure.of (.undefinedRule rule.displayName)).located location)
      | some p => t.visit steps (p.refs ++ pending) (found ++ [id])

/-- The rules reached from an entry rule, in order of discovery. -/
def reachable (t : RuleTable) (entry : RuleId) : Attempt (List RuleId) :=
  t.visit (t.referenceCount + 1) [(entry, none)] []

end MarkupTypes.RuleTable
