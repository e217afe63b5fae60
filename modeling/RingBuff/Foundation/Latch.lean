import RingBuff.Foundation.Automaton

/-! # A latch that announces being set

A latch is set only when it is clear, and every time it has been set this is
announced once before it may be set again. Clearing is possible at any time.
What follows is about the words of events that such a latch accepts: how often
it can be set, and what lies between two settings.
-/

namespace RingBuff.Latch

inductive Event where
  | set
  | clear
  | announce
  deriving DecidableEq, Repr

structure State where
  on : Bool := false
  /-- Set, and not announced yet. -/
  due : Bool := false
  deriving DecidableEq, Repr

/-- The latch as an acceptor of events; `none` is a step without one. -/
def acceptor : Automaton State (Option Event) Unit where
  step state
    | none => some ((), state)
    | some .set => if state.on || state.due then none else some ((), ⟨true, true⟩)
    | some .clear => some ((), { state with on := false })
    | some .announce => if state.due then some ((), { state with due := false }) else none

variable {state next last : State} {events : List (Option Event)} {units : List Unit} {u : Unit}

theorem step_none : acceptor.step state none = some (u, next) ↔ state = next := by
  simp [acceptor]

theorem step_set : acceptor.step state (some .set) = some (u, next) ↔
    state.on = false ∧ state.due = false ∧ ⟨true, true⟩ = next := by
  simp [acceptor, and_assoc]

theorem step_clear :
    acceptor.step state (some .clear) = some (u, next) ↔ { state with on := false } = next := by
  simp [acceptor]

theorem step_announce : acceptor.step state (some .announce) = some (u, next) ↔
    state.due = true ∧ { state with due := false } = next := by
  simp [acceptor]

/-- Every setting is announced once. -/
theorem count_announce (hrun : acceptor.run state events = some (units, last)) :
    events.count (some .announce) + last.due.toNat =
      events.count (some .set) + state.due.toNat := by
  induction events generalizing state units with
  | nil =>
      obtain ⟨-, rfl⟩ := Prod.mk.inj (Option.some.inj hrun)
      rfl
  | cons event rest ih =>
      obtain ⟨_, next, _, hstep, hrest, -⟩ := acceptor.run_cons_eq_some.mp hrun
      have hcount := ih hrest
      rcases event with _ | _ | _ | _
      · obtain rfl := step_none.mp hstep
        simpa using hcount
      · obtain ⟨-, hdue, rfl⟩ := step_set.mp hstep
        simpa [hdue] using hcount
      · obtain rfl := step_clear.mp hstep
        simpa using hcount
      · obtain ⟨hdue, rfl⟩ := step_announce.mp hstep
        simp [hdue] at hcount ⊢
        omega

/-- Without clearing, the latch is set at most once, and only if it was clear. -/
theorem count_set (hrun : acceptor.run state events = some (units, last))
    (hclear : some .clear ∉ events) :
    events.count (some .set) + state.on.toNat = last.on.toNat := by
  induction events generalizing state units with
  | nil =>
      obtain ⟨-, rfl⟩ := Prod.mk.inj (Option.some.inj hrun)
      exact Nat.zero_add _
  | cons event rest ih =>
      obtain ⟨_, next, _, hstep, hrest, -⟩ := acceptor.run_cons_eq_some.mp hrun
      have hcount := ih hrest (fun hmem => hclear (List.mem_cons_of_mem _ hmem))
      rcases event with _ | _ | _ | _
      · obtain rfl := step_none.mp hstep
        simpa using hcount
      · obtain ⟨hon, -, rfl⟩ := step_set.mp hstep
        simpa [hon] using hcount
      · exact absurd List.mem_cons_self hclear
      · obtain ⟨-, rfl⟩ := step_announce.mp hstep
        simpa using hcount

/-- Between two settings the latch was cleared; and if they are consecutive, the
first of them was announced exactly once. -/
theorem between_sets {before middle after : List (Option Event)}
    (hrun : acceptor.run state (before ++ some .set :: (middle ++ some .set :: after)) =
      some (units, last)) :
    some .clear ∈ middle ∧ (some .set ∉ middle → middle.count (some .announce) = 1) := by
  obtain ⟨_, first, _, -, hfrom, -⟩ := acceptor.exists_run_of_append hrun
  obtain ⟨_, lit, _, hset, hrest, -⟩ := acceptor.run_cons_eq_some.mp hfrom
  obtain ⟨_, second, _, hmiddle, hend, -⟩ := acceptor.exists_run_of_append hrest
  obtain ⟨_, again, _, hagain, -, -⟩ := acceptor.run_cons_eq_some.mp hend
  obtain ⟨-, -, rfl⟩ := step_set.mp hset
  obtain ⟨hon, hdue, -⟩ := step_set.mp hagain
  constructor
  · by_contra hclear
    have hcount := count_set hmiddle hclear
    simp [hon] at hcount
  · intro hnone
    have hcount := count_announce hmiddle
    simpa [hdue, List.count_eq_zero.mpr hnone] using hcount

end RingBuff.Latch
