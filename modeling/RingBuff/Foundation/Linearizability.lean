import RingBuff.Foundation.Automaton
import Mathlib.Data.List.Forall2
import Mathlib.Data.List.Induction
import Mathlib.Order.Nat

/-! # Linearizability

Threads call an object, and a call extends over several steps of a system. The
object is linearizable when every call can be given one moment between its start
and its return so that the calls, made one after the other in the order of these
moments, get the same replies from a sequential automaton. A call that has not
returned may have had its moment already.

The rule at the end proves this from a relation between the states of the system
and those of the automaton, in which every thread is in one of three phases: not
in a call, in a call that has not taken effect, in one that has.
-/

namespace RingBuff

variable {τ ι ω σ α κ : Type*}

/-- What a step of a thread shows of its calls. -/
structure Shown (τ ι ω : Type*) where
  thread : τ
  called : Option ι
  returned : Option ω
  deriving DecidableEq, Repr

/-- A call that has returned, with the numbers of its first and its last step. -/
structure Completed (ι ω : Type*) where
  call : ι
  reply : ω
  first : Nat
  last : Nat
  deriving DecidableEq, Repr

/-- The calls of one thread. -/
structure Calls (ι ω : Type*) where
  done : List (Completed ι ω) := []
  /-- The call that has not returned, and the number of its first step. -/
  current : Option (ι × Nat) := none
  deriving DecidableEq, Repr

namespace Calls

/-- In step `n` the thread makes a call. -/
def start (h : Calls ι ω) (n : Nat) : Option ι → Calls ι ω
  | none => h
  | some c => { h with current := some (c, n) }

/-- In step `n` the thread returns. -/
def finish (h : Calls ι ω) (n : Nat) : Option ω → Calls ι ω
  | none => h
  | some r =>
      match h.current with
      | none => h
      | some (c, first) => { done := h.done ++ [⟨c, r, first, n⟩], current := none }

/-- The call in progress began no later than now. -/
theorem start_begun {h : Calls ι ω} {n : Nat} {called : Option ι}
    (hbegun : ∀ c k, h.current = some (c, k) → k < n) (c : ι) (k : Nat)
    (hcurrent : (h.start n called).current = some (c, k)) : k ≤ n := by
  cases called with
  | none => exact (hbegun c k hcurrent).le
  | some c' => exact (Prod.mk.inj (Option.some.inj hcurrent)).2.ge

end Calls

/-- The calls of a thread along a trace. -/
def callsOf [DecidableEq τ] (t : τ) (trace : List (Shown τ ι ω)) : Calls ι ω :=
  trace.zipIdx.foldl (fun h e =>
    if e.1.thread = t then (h.start e.2 e.1.called).finish e.2 e.1.returned else h) {}

theorem callsOf_concat [DecidableEq τ] (t : τ) (trace : List (Shown τ ι ω)) (e : Shown τ ι ω) :
    callsOf t (trace ++ [e]) =
      if e.thread = t then
        ((callsOf t trace).start trace.length e.called).finish trace.length e.returned
      else callsOf t trace := by
  simp [callsOf, List.zipIdx_append, List.foldl_append]

/-- The moment at which a call takes effect. -/
structure Point (τ ι ω : Type*) where
  thread : τ
  call : ι
  reply : ω
  time : Nat
  deriving DecidableEq, Repr

/-- The moment of a call that has returned. -/
def Point.Within (d : Completed ι ω) (p : Point τ ι ω) : Prop :=
  p.call = d.call ∧ p.reply = d.reply ∧ d.first ≤ p.time ∧ p.time ≤ d.last

/-- Every call that has returned has its moment, and the current one may. -/
def Calls.Explained (h : Calls ι ω) (points : List (Point τ ι ω)) : Prop :=
  ∃ first rest, points = first ++ rest ∧ List.Forall₂ Point.Within h.done first ∧
    (rest = [] ∨ ∃ c n p, h.current = some (c, n) ∧ rest = [p] ∧ p.call = c ∧ n ≤ p.time)

/-- The calls of a trace could have been made one after the other. -/
def Linearizable [DecidableEq τ] (spec : Automaton κ ι ω) (q : κ) (trace : List (Shown τ ι ω)) :
    Prop :=
  ∃ (points : List (Point τ ι ω)) (q' : κ),
    spec.run q (points.map Point.call) = some (points.map Point.reply, q') ∧
    points.Pairwise (fun p p' => p.time < p'.time) ∧
    ∀ t, (callsOf t trace).Explained (points.filter fun p => p.thread = t)

/-! ## Phases -/

/-- Where a thread is with respect to the sequential automaton. -/
inductive CallPhase (ι ω : Type*) where
  | idle
  | called (c : ι)
  | done (c : ι) (r : ω)
  deriving DecidableEq, Repr

namespace CallPhase

/-- A thread may make a call when it is in none. -/
inductive Start : CallPhase ι ω → Option ι → CallPhase ι ω → Prop where
  | none (ph : CallPhase ι ω) : Start ph none ph
  | call (c : ι) : Start .idle (some c) (.called c)

/-- A call may take effect once. -/
inductive Commit (spec : Automaton κ ι ω) (q : κ) : CallPhase ι ω → CallPhase ι ω → κ → Prop where
  | none (ph : CallPhase ι ω) : Commit spec q ph ph q
  | effect {c : ι} {r : ω} {q' : κ} (hstep : spec.step q c = some (r, q')) :
      Commit spec q (.called c) (.done c r) q'

/-- A call returns after it took effect, with the reply it got then. -/
inductive Finish : CallPhase ι ω → Option ω → CallPhase ι ω → Prop where
  | none (ph : CallPhase ι ω) : Finish ph none ph
  | answer (c : ι) (r : ω) : Finish (.done c r) (some r) .idle

/-- One step of a thread: it may make a call, the call may take effect, it may
return. -/
inductive Advance (spec : Automaton κ ι ω) (q : κ) (ph : CallPhase ι ω) (called : Option ι)
    (returned : Option ω) (ph' : CallPhase ι ω) (q' : κ) : Prop where
  | intro {ph₁ ph₂ : CallPhase ι ω} (hstart : Start ph called ph₁)
      (hcommit : Commit spec q ph₁ ph₂ q') (hfinish : Finish ph₂ returned ph')

/-- Nothing happens that concerns the calls. -/
theorem Advance.stay {spec : Automaton κ ι ω} {q : κ} (ph : CallPhase ι ω) :
    Advance spec q ph none none ph q :=
  ⟨.none ph, .none ph, .none ph⟩

/-- A call is made and takes effect later. -/
theorem Advance.call {spec : Automaton κ ι ω} {q : κ} (c : ι) :
    Advance spec q .idle (some c) none (.called c) q :=
  ⟨.call c, .none _, .none _⟩

/-- A call that is one step. -/
theorem Advance.whole {spec : Automaton κ ι ω} {q q' : κ} {c : ι} {r : ω}
    (hstep : spec.step q c = some (r, q')) : Advance spec q .idle (some c) (some r) .idle q' :=
  ⟨.call c, .effect hstep, .answer c r⟩

/-- A call takes effect. -/
theorem Advance.effect {spec : Automaton κ ι ω} {q q' : κ} {c : ι} {r : ω}
    (hstep : spec.step q c = some (r, q')) :
    Advance spec q (.called c) none none (.done c r) q' :=
  ⟨.none _, .effect hstep, .none _⟩

/-- A call takes effect as it returns. -/
theorem Advance.last {spec : Automaton κ ι ω} {q q' : κ} {c : ι} {r : ω}
    (hstep : spec.step q c = some (r, q')) : Advance spec q (.called c) none (some r) .idle q' :=
  ⟨.none _, .effect hstep, .answer c r⟩

/-- A call returns. -/
theorem Advance.answer {spec : Automaton κ ι ω} {q : κ} (c : ι) (r : ω) :
    Advance spec q (.done c r) none (some r) .idle q :=
  ⟨.none _, .none _, .answer c r⟩

/-- The moments chosen so far for the calls of a thread, in its present phase. -/
inductive Matches (h : Calls ι ω) : CallPhase ι ω → List (Point τ ι ω) → Prop where
  | idle {points : List (Point τ ι ω)} (hnone : h.current = none)
      (hdone : List.Forall₂ Point.Within h.done points) : Matches h .idle points
  | called {points : List (Point τ ι ω)} {c : ι} {n : Nat} (hcurrent : h.current = some (c, n))
      (hdone : List.Forall₂ Point.Within h.done points) : Matches h (.called c) points
  | done {points : List (Point τ ι ω)} {n : Nat} {p : Point τ ι ω}
      (hcurrent : h.current = some (p.call, n)) (htime : n ≤ p.time)
      (hdone : List.Forall₂ Point.Within h.done points) :
      Matches h (.done p.call p.reply) (points ++ [p])

namespace Matches

variable {h : Calls ι ω} {ph ph' : CallPhase ι ω} {points : List (Point τ ι ω)} {now : Nat}

theorem explained (hmatch : Matches h ph points) : h.Explained points := by
  cases hmatch with
  | idle hnone hdone => exact ⟨points, [], by simp, hdone, Or.inl rfl⟩
  | called hcurrent hdone => exact ⟨points, [], by simp, hdone, Or.inl rfl⟩
  | done hcurrent htime hdone =>
      exact ⟨_, _, rfl, hdone, Or.inr ⟨_, _, _, hcurrent, rfl, rfl, htime⟩⟩

theorem start (now : ℕ) {called : Option ι} (hmatch : Matches h ph points)
    (hstart : Start ph called ph') :
    Matches (h.start now called) ph' points := by
  cases hstart with
  | none => exact hmatch
  | call c =>
      cases hmatch with
      | idle hnone hdone => exact .called rfl hdone

/-- The call in progress takes effect now. -/
theorem effect {c : ι} {r : ω} (hmatch : Matches h (.called c) points) (t : τ)
    (hfirst : ∀ c n, h.current = some (c, n) → n ≤ now) :
    Matches h (.done c r) (points ++ [⟨t, c, r, now⟩]) := by
  cases hmatch with
  | called hcurrent hdone => exact .done (p := ⟨t, c, r, now⟩) hcurrent (hfirst _ _ hcurrent) hdone

theorem finish {returned : Option ω} (hmatch : Matches h ph points)
    (hfinish : Finish ph returned ph') (hpast : ∀ p ∈ points, p.time ≤ now) :
    Matches (h.finish now returned) ph' points := by
  cases hfinish with
  | none => exact hmatch
  | answer c r =>
      cases hmatch with
      | done hcurrent htime hdone =>
          simp only [Calls.finish, hcurrent]
          refine .idle rfl (List.rel_append hdone (.cons ?_ .nil))
          exact ⟨rfl, rfl, htime, hpast _ (by simp)⟩

end Matches

end CallPhase

/-! ## The rule -/

/-- Moments chosen for the calls of a trace, with the phases they leave the threads
in. -/
structure Chosen [DecidableEq τ] (spec : Automaton κ ι ω) (q₀ : κ) (trace : List (Shown τ ι ω))
    (points : List (Point τ ι ω)) (ph : τ → CallPhase ι ω) (q : κ) : Prop where
  run : spec.run q₀ (points.map Point.call) = some (points.map Point.reply, q)
  sorted : points.Pairwise fun p p' => p.time < p'.time
  past : ∀ p ∈ points, p.time < trace.length
  begun : ∀ t c n, (callsOf t trace).current = some (c, n) → n < trace.length
  explains : ∀ t, (ph t).Matches (callsOf t trace) (points.filter fun p => p.thread = t)

namespace Chosen

variable [DecidableEq τ] {spec : Automaton κ ι ω} {q₀ q q' : κ} {trace : List (Shown τ ι ω)}
  {points : List (Point τ ι ω)} {ph : τ → CallPhase ι ω} {e : Shown τ ι ω}

theorem linearizable (hchosen : Chosen spec q₀ trace points ph q) : Linearizable spec q₀ trace :=
  ⟨points, q, hchosen.run, hchosen.sorted, fun t => (hchosen.explains t).explained⟩

/-- A call in progress after one more step was begun before its end. -/
theorem begun_concat (hbegun : ∀ t c n, (callsOf t trace).current = some (c, n) → n < trace.length)
    (t : τ) (c : ι) (n : Nat) (hcurrent : (callsOf t (trace ++ [e])).current = some (c, n)) :
    n < (trace ++ [e]).length := by
  rw [List.length_append, List.length_singleton]
  rw [callsOf_concat] at hcurrent
  split_ifs at hcurrent
  · cases hreturned : e.returned with
    | none =>
        rw [hreturned] at hcurrent
        exact Nat.lt_succ_of_le (Calls.start_begun (hbegun t) c n hcurrent)
    | some r =>
        rw [hreturned] at hcurrent
        simp only [Calls.finish] at hcurrent
        split at hcurrent
        next hnone => cases hnone.symm.trans hcurrent
        next => cases hcurrent
  · exact Nat.lt_succ_of_lt (hbegun t c n hcurrent)

/-- One more step of a thread. -/
theorem advance (hchosen : Chosen spec q₀ trace points ph q) {ph' : CallPhase ι ω}
    (hadv : CallPhase.Advance spec q (ph e.thread) e.called e.returned ph' q') :
    ∃ points', Chosen spec q₀ (trace ++ [e]) points' (Function.update ph e.thread ph') q' := by
  obtain ⟨hrun, hsorted, hpast, hbegun, hexplains⟩ := hchosen
  obtain ⟨hstart, hcommit, hfinish⟩ := hadv
  have hlength : (trace ++ [e]).length = trace.length + 1 := by simp
  have hown := (hexplains e.thread).start trace.length hstart
  have hother : ∀ t, t ≠ e.thread → (callsOf t (trace ++ [e])) = callsOf t trace := by
    intro t hne
    rw [callsOf_concat, if_neg hne.symm]
  cases hcommit with
  | none =>
      refine ⟨points, hrun, hsorted, fun p hp => hlength ▸ Nat.lt_succ_of_lt (hpast p hp),
        begun_concat hbegun, fun t => ?_⟩
      by_cases heq : t = e.thread
      · subst heq
        rw [Function.update_self, callsOf_concat, if_pos rfl]
        exact hown.finish hfinish fun p hp => (hpast p (List.mem_filter.mp hp).1).le
      · rw [Function.update_of_ne heq, hother t heq]
        exact hexplains t
  | @effect c r _ hstep =>
      refine ⟨points ++ [⟨e.thread, c, r, trace.length⟩], ?_, ?_, ?_, begun_concat hbegun, ?_⟩
      · rw [List.map_append, List.map_append]
        exact spec.run_append_eq_some hrun
          (spec.run_cons_eq_some.mpr ⟨r, q', [], hstep, rfl, rfl⟩)
      · refine List.pairwise_append.mpr ⟨hsorted, List.pairwise_singleton _ _, ?_⟩
        intro p hp p' hp'
        rw [List.mem_singleton.mp hp']
        exact hpast p hp
      · intro p hp
        rcases List.mem_append.mp hp with hp | hp
        · exact hlength ▸ Nat.lt_succ_of_lt (hpast p hp)
        · rw [List.mem_singleton.mp hp]
          dsimp only
          omega
      · intro t
        rw [List.filter_append]
        by_cases heq : t = e.thread
        · subst heq
          rw [Function.update_self, callsOf_concat, if_pos rfl]
          simp only [List.filter_cons, List.filter_nil, decide_true, if_true]
          refine (hown.effect e.thread (Calls.start_begun (hbegun _))).finish hfinish ?_
          intro p hp
          rcases List.mem_append.mp hp with hp | hp
          · exact (hpast p (List.mem_filter.mp hp).1).le
          · exact (congrArg Point.time (List.mem_singleton.mp hp)).le
        · rw [Function.update_of_ne heq, hother t heq]
          simpa [Ne.symm heq] using hexplains t

end Chosen

/-- A system is linearizable if its states can be related to phases of the threads
and to states of the automaton, and every step advances its thread. The relation
may rest on a condition about the state a run ends in that no step establishes. -/
theorem Automaton.linearizable [DecidableEq τ] (M : Automaton σ α (Shown τ ι ω))
    (spec : Automaton κ ι ω) (rel : σ → (τ → CallPhase ι ω) → κ → Prop) (cond : σ → Prop) {s₀ s : σ}
    {q₀ : κ} (hkeep : ∀ {s a e s'}, M.step s a = some (e, s') → cond s' → cond s)
    (hinit : rel s₀ (fun _ => .idle) q₀)
    (hstep : ∀ {s a e s' ph q}, rel s ph q → cond s' → M.step s a = some (e, s') →
      ∃ ph' q', CallPhase.Advance spec q (ph e.thread) e.called e.returned ph' q' ∧
        rel s' (Function.update ph e.thread ph') q')
    {inputs : List α} {trace : List (Shown τ ι ω)} (hrun : M.run s₀ inputs = some (trace, s))
    (hcond : cond s) : Linearizable spec q₀ trace := by
  -- by induction on the end of the run, since moments are chosen as the run goes on
  have hchosen : ∃ points ph q, rel s ph q ∧ Chosen spec q₀ trace points ph q := by
    induction inputs using List.reverseRecOn generalizing trace s with
    | nil =>
        obtain ⟨rfl, rfl⟩ := Prod.mk.inj (Option.some.inj hrun)
        refine ⟨[], fun _ => .idle, q₀, hinit, rfl, .nil, fun p hp => ?_, fun t c n hn => ?_,
          fun t => .idle rfl .nil⟩
        · cases hp
        · cases hn
    | append_singleton inputs a ih =>
        obtain ⟨first, middle, last, hfirst, hlast, rfl⟩ := M.exists_run_of_append hrun
        obtain ⟨e, next, tail, hmove, hnil, rfl⟩ := M.run_cons_eq_some.mp hlast
        obtain ⟨rfl, rfl⟩ := Prod.mk.inj (Option.some.inj hnil)
        obtain ⟨points, ph, q, hrel, hchosen⟩ := ih hfirst (hkeep hmove hcond)
        obtain ⟨ph', q', hadv, hrel'⟩ := hstep hrel hcond hmove
        obtain ⟨points', hchosen'⟩ := hchosen.advance hadv
        exact ⟨points', _, q', hrel', hchosen'⟩
  obtain ⟨points, ph, q, -, hchosen⟩ := hchosen
  exact hchosen.linearizable

end RingBuff
