import Mathlib.Logic.Function.Basic
import Mathlib.Order.Lattice

/-! # Happens-before by vector clocks

Threads access plain locations and signal to each other. Every access is one
tick of its thread's own clock, a signal carries what its sender knew, and
receiving it joins that knowledge. An access of `u` then happens before what `t`
does next when its tick is one that `t` knows. Two accesses to one location by
two threads, one of them a write, race when neither happens before the other.

The second part is the rule for a thread that works through positions and
signals each: who has received the `j`-th signal knows all accesses to the
locations that no later position uses.
-/

namespace RingBuff

variable {τ ℓ : Type*}

/-- An access to a plain location. -/
inductive Access (ℓ : Type*) where
  | read (x : ℓ)
  | write (x : ℓ)
  deriving DecidableEq, Repr

/-- The location of an access. -/
def Access.loc : Access ℓ → ℓ
  | .read x | .write x => x

/-- What happened before what, so far. -/
structure HappensBefore (τ ℓ : Type*) where
  /-- The last access of the second thread that the first one knows. -/
  clock : τ → τ → Nat := fun _ _ => 0
  /-- The last write of a thread to a location. -/
  writes : ℓ → τ → Nat := fun _ _ => 0
  /-- The last read of a location by a thread. -/
  reads : ℓ → τ → Nat := fun _ _ => 0

namespace HappensBefore

variable (h : HappensBefore τ ℓ)

/-- The last access of a thread to a location. -/
def last (x : ℓ) (u : τ) : Nat := max (h.writes x u) (h.reads x u)

/-- `u` made a conflicting access that `t` does not know of. -/
def Unknown (t u : τ) : Access ℓ → Prop
  | .read x => h.clock t u < h.writes x u
  | .write x => h.clock t u < h.last x u

instance (t u : τ) (a : Access ℓ) : Decidable (h.Unknown t u a) :=
  match a with
  | .read x => inferInstanceAs (Decidable (h.clock t u < h.writes x u))
  | .write x => inferInstanceAs (Decidable (h.clock t u < h.last x u))

/-- The access would race with one that another thread has made. -/
def Racy (t : τ) (a : Access ℓ) : Prop := ∃ u, u ≠ t ∧ h.Unknown t u a

/-- A thread receives a signal and knows what its sender knew. -/
def receive [DecidableEq τ] (t : τ) (view : τ → Nat) : HappensBefore τ ℓ :=
  { h with clock := Function.update h.clock t (h.clock t ⊔ view) }

/-- A thread accesses a location. -/
def access [DecidableEq τ] [DecidableEq ℓ] (t : τ) (a : Access ℓ) : HappensBefore τ ℓ :=
  let now := h.clock t t + 1
  let ticked := { h with clock := Function.update h.clock t (Function.update (h.clock t) t now) }
  match a with
  | .read x =>
      { ticked with reads := Function.update h.reads x (Function.update (h.reads x) t now) }
  | .write x =>
      { ticked with writes := Function.update h.writes x (Function.update (h.writes x) t now) }

/-- No access is ahead of the clock of its thread. -/
def Bounded : Prop := ∀ x u, h.last x u ≤ h.clock u u

theorem not_racy {t : τ} {a : Access ℓ} (hknown : ∀ u, u ≠ t → h.last a.loc u ≤ h.clock t u) :
    ¬ h.Racy t a := by
  rintro ⟨u, hne, hunknown⟩
  have hle := hknown u hne
  cases a with
  | read x => exact ((le_max_left _ _).trans hle).not_gt hunknown
  | write x => exact hle.not_gt hunknown

section Receive

variable [DecidableEq τ] {h} {t u : τ} {view : τ → Nat}

theorem clock_receive (v : τ) :
    (h.receive t view).clock t v = max (h.clock t v) (view v) := by
  simp [receive]

theorem clock_receive_of_ne (hne : u ≠ t) : (h.receive t view).clock u = h.clock u :=
  Function.update_of_ne hne _ _

theorem clock_le_receive (v : τ) : h.clock u v ≤ (h.receive t view).clock u v := by
  by_cases heq : u = t
  · subst heq
    rw [clock_receive]
    exact le_max_left _ _
  · rw [clock_receive_of_ne heq]

theorem Bounded.receive (hok : h.Bounded) : (h.receive t view).Bounded :=
  fun x u => (hok x u).trans (clock_le_receive u)

end Receive

section Access

variable [DecidableEq τ] [DecidableEq ℓ] {h} {t u : τ} {a : Access ℓ} {x : ℓ}

theorem clock_access_self : (h.access t a).clock t t = h.clock t t + 1 := by
  cases a <;> simp [access]

theorem clock_access_of_ne {v : τ} (hne : v ≠ t) : (h.access t a).clock u v = h.clock u v := by
  by_cases heq : u = t
  · subst heq
    cases a <;> simp [access, hne]
  · cases a <;> simp [access, heq]

theorem clock_access_other (hne : u ≠ t) : (h.access t a).clock u = h.clock u := by
  cases a <;> simp [access, hne]

theorem last_access_of_ne (hne : u ≠ t) : (h.access t a).last x u = h.last x u := by
  cases a with
  | read y | write y =>
      by_cases heq : x = y
      · subst heq
        simp [access, last, hne]
      · simp [access, last, heq]

theorem last_access_of_loc_ne (hne : x ≠ a.loc) : (h.access t a).last x u = h.last x u := by
  cases a with
  | read y | write y =>
      have hne : x ≠ y := hne
      simp [access, last, hne]

theorem Bounded.access (hok : h.Bounded) : (h.access t a).Bounded := by
  intro x u
  by_cases heq : u = t
  · subst heq
    have hold := hok x u
    rw [clock_access_self]
    simp only [last, Nat.max_le] at hold ⊢
    cases a with
    | read y | write y =>
        by_cases hloc : x = y
        · subst hloc
          simp only [HappensBefore.access, Function.update_self]
          omega
        · simp only [HappensBefore.access, Function.update_of_ne hloc]
          omega
  · rw [last_access_of_ne heq, clock_access_of_ne heq]
    exact hok x u

end Access

end HappensBefore

/-! ## Positions that are signalled in order -/

/-- A thread works through positions, each with locations of its own, and signals
them in order to another thread. Its accesses were for positions in `reach`; `sent`
signals have been given, with views, and the last one received is `seen`. -/
structure Handover [DecidableEq τ] (h : HappensBefore τ ℓ) (uses : Nat → ℓ → Prop)
    (source target : τ) (reach : Nat → Prop) (view : Nat → τ → Nat) (sent seen : Nat) : Prop where
  /-- The `j`-th signal covers the accesses to what no position from `j` on uses. -/
  covered : ∀ j ≤ sent, ∀ x, (∀ q, j ≤ q → reach q → ¬ uses q x) → h.last x source ≤ view j source
  seen_le : seen ≤ sent
  known : view seen source ≤ h.clock target source

namespace Handover

open HappensBefore

variable [DecidableEq τ] {h : HappensBefore τ ℓ} {uses : Nat → ℓ → Prop} {source target : τ}
  {reach reach' : Nat → Prop} {view : Nat → τ → Nat} {sent seen : Nat}

/-- The target knows of all accesses to what no position in reach uses that it has
not seen the signal of. -/
theorem last_le (hand : Handover h uses source target reach view sent seen) {x : ℓ}
    (hnone : ∀ q, seen ≤ q → reach q → ¬ uses q x) : h.last x source ≤ h.clock target source :=
  (hand.covered seen hand.seen_le x hnone).trans hand.known

/-- More positions may come into reach. -/
theorem mono (hand : Handover h uses source target reach view sent seen)
    (hsub : ∀ q, reach q → reach' q) : Handover h uses source target reach' view sent seen :=
  { hand with covered := fun j hj x hnone =>
      hand.covered j hj x fun q hq hr => hnone q hq (hsub q hr) }

/-- The source accesses the position that it signals next. -/
theorem access_source [DecidableEq ℓ] (hand : Handover h uses source target reach view sent seen)
    (hne : source ≠ target) {a : Access ℓ} (hreach : reach sent) (huses : uses sent a.loc) :
    Handover (h.access source a) uses source target reach view sent seen where
  covered j hj x hnone := by
    have hloc : x ≠ a.loc := by
      rintro rfl
      exact hnone sent hj hreach huses
    rw [last_access_of_loc_ne hloc]
    exact hand.covered j hj x hnone
  seen_le := hand.seen_le
  known := by
    rw [clock_access_other hne.symm]
    exact hand.known

theorem access_target [DecidableEq ℓ] (hand : Handover h uses source target reach view sent seen)
    (hne : source ≠ target) (a : Access ℓ) :
    Handover (h.access target a) uses source target reach view sent seen where
  covered j hj x hnone := by
    rw [last_access_of_ne hne]
    exact hand.covered j hj x hnone
  seen_le := hand.seen_le
  known := by
    rw [clock_access_of_ne hne]
    exact hand.known

/-- Anything that is received only adds to what is known. -/
theorem receive (hand : Handover h uses source target reach view sent seen) (t : τ)
    (other : τ → Nat) : Handover (h.receive t other) uses source target reach view sent seen :=
  { hand with known := hand.known.trans (clock_le_receive source) }

/-- The target receives a signal. -/
theorem see (hand : Handover h uses source target reach view sent seen) {k : Nat} (hk : k ≤ sent) :
    Handover (h.receive target (view k)) uses source target reach view sent k :=
  { hand with
    seen_le := hk
    known := by
      rw [clock_receive]
      exact le_max_right _ _ }

/-- One more signal, with all the source knows. -/
theorem signal (hand : Handover h uses source target reach view sent seen) (hok : h.Bounded) :
    Handover h uses source target reach (Function.update view (sent + 1) (h.clock source))
      (sent + 1) seen where
  covered j hj x hnone := by
    rcases Nat.le_succ_iff.mp hj with hj | rfl
    · rw [Function.update_of_ne (by omega)]
      exact hand.covered j hj x hnone
    · rw [Function.update_self]
      exact hok x source
  seen_le := Nat.le_succ_of_le hand.seen_le
  known := by
    have hle := hand.seen_le
    rw [Function.update_of_ne (by omega)]
    exact hand.known

end Handover

end RingBuff
