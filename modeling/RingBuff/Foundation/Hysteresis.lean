import Mathlib.Tactic.Common

/-! # A reader that looks at a growing counter in batches

A reader has taken `tail` items, has last seen `seen` of them and does not know
how many there really are, `head`. It looks again only when it has taken all it
had seen. It reports when what it has seen and not taken falls from `level` to
below. `Owed` says that a report is still to come: the reader has enough in hand
to cross the level, or it will have after its next look.
-/

namespace RingBuff

/-- The reader will still report falling below `level`. -/
def Owed (level tail seen head : Nat) : Prop :=
  level ≤ seen - tail ∨ level ≤ head - seen

namespace Owed

variable {level tail seen head : Nat}

/-- If a report is owed, the true number of items is not below the level. -/
theorem level_le (howed : Owed level tail seen head) (htail : tail ≤ seen) (hseen : seen ≤ head) :
    level ≤ head - tail := by
  rcases howed with hknown | hunseen <;> omega

/-- More items leave the report owed. -/
theorem grow (howed : Owed level tail seen head) {head' : Nat} (hle : head ≤ head') :
    Owed level tail seen head' := by
  rcases howed with hknown | hunseen
  · exact Or.inl hknown
  · exact Or.inr (by omega)

/-- A look leaves the report owed: what was unseen is now in hand. -/
theorem look (howed : Owed level tail seen head) (htail : tail ≤ seen) (hseen : seen ≤ head) :
    Owed level tail head head :=
  Or.inl (howed.level_le htail hseen)

/-- Taking an item leaves the report owed, unless it makes the report. -/
theorem take (howed : Owed level tail seen head) :
    Owed level (tail + 1) seen head ∨
      (¬ seen - tail < level ∧ seen - (tail + 1) < level) := by
  rcases howed with hknown | hunseen
  · by_cases hstill : level ≤ seen - (tail + 1)
    · exact Or.inl (Or.inl hstill)
    · exact Or.inr (by omega)
  · exact Or.inl (Or.inr hunseen)

/-- Of `limit` items, at least `level` are either in hand or unseen, if twice the
level is within one of the limit. -/
theorem of_full {limit : Nat} (hlevel : 2 * level ≤ limit + 1) (htail : tail ≤ seen)
    (hfull : limit ≤ head - tail) : Owed level tail seen head := by
  by_cases hknown : level ≤ seen - tail
  · exact Or.inl hknown
  · exact Or.inr (by omega)

end Owed

end RingBuff
