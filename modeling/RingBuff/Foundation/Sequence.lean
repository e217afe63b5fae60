import Mathlib.Data.List.Basic

/-! # Growing sequences

Lists that only grow at their end, read by position.
-/

namespace RingBuff

theorem getElem?_concat_eq_some {α : Type*} {l : List α} {x y : α} {k : Nat} :
    (l ++ [x])[k]? = some y ↔ l[k]? = some y ∨ k = l.length ∧ x = y := by
  grind

theorem getElem?_of_prefix {α : Type*} {l l' : List α} (hpre : l <+: l') {k : Nat} {x : α}
    (hget : l[k]? = some x) : l'[k]? = some x := by
  obtain ⟨rest, rfl⟩ := hpre
  rw [List.getElem?_append_left (List.getElem?_eq_some_iff.mp hget).1]
  exact hget

/-- Beyond the end of the shorter list nothing is paired. -/
theorem zip_concat_left {α β : Type*} {l : List α} {l' : List β} (hle : l'.length ≤ l.length)
    (x : α) : (l ++ [x]).zip l' = l.zip l' := by
  induction l generalizing l' with
  | nil =>
      rw [List.length_nil, Nat.le_zero, List.length_eq_zero_iff] at hle
      rw [hle, List.zip_nil_right, List.zip_nil_right]
  | cons a l ih =>
      cases l' with
      | nil => rfl
      | cons y l' =>
          rw [List.cons_append, List.zip_cons_cons, List.zip_cons_cons]
          rw [ih (Nat.le_of_succ_le_succ hle)]

/-- The next pair. -/
theorem zip_concat_right {α β : Type*} {l : List α} {l' : List β} {x : α}
    (hget : l[l'.length]? = some x) (y : β) : l.zip (l' ++ [y]) = l.zip l' ++ [(x, y)] := by
  induction l' generalizing l with
  | nil =>
      obtain ⟨hlt, rfl⟩ := List.getElem?_eq_some_iff.mp hget
      cases l with
      | nil => cases hlt
      | cons a l => simp
  | cons a l' ih =>
      cases l with
      | nil => cases hget
      | cons a' l =>
          rw [List.cons_append, List.zip_cons_cons, List.zip_cons_cons, List.cons_append]
          rw [ih hget]

end RingBuff
