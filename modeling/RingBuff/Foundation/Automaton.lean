import Mathlib.Data.Option.Basic

/-! # Partial automata with outputs

An automaton answers an input with an output and a successor state, or does
not accept the input in its current state. The two rules below lift facts about
one step to whole runs: an invariant rule and a forward simulation. Both may
assume a side condition about the last state of the run, as long as a step
cannot establish that condition once it has been lost.
-/

namespace RingBuff

/-- A deterministic partial automaton with outputs. -/
structure Automaton (σ ι ω : Type*) where
  /-- The answer to one input, if the input is accepted. -/
  step : σ → ι → Option (ω × σ)

namespace Automaton

variable {σ τ ι ω : Type*}

/-- Feed a list of inputs, collecting the outputs in order. -/
def run (M : Automaton σ ι ω) : σ → List ι → Option (List ω × σ)
  | state, [] => some ([], state)
  | state, input :: rest =>
      match M.step state input with
      | none => none
      | some (output, next) =>
          (M.run next rest).map fun (outputs, last) => (output :: outputs, last)

@[simp] theorem run_nil (M : Automaton σ ι ω) (state : σ) :
    M.run state [] = some ([], state) := rfl

theorem run_cons (M : Automaton σ ι ω) (state : σ) (input : ι) (rest : List ι) :
    M.run state (input :: rest) = (M.step state input).bind fun answer =>
      (M.run answer.2 rest).map fun tail => (answer.1 :: tail.1, tail.2) := by
  rw [run]
  cases M.step state input <;> rfl

theorem run_cons_eq_some (M : Automaton σ ι ω) {state last : σ} {input : ι} {rest : List ι}
    {outputs : List ω} :
    M.run state (input :: rest) = some (outputs, last) ↔
      ∃ output next tail, M.step state input = some (output, next) ∧
        M.run next rest = some (tail, last) ∧ outputs = output :: tail := by
  rw [run_cons]
  simp only [Option.bind_eq_some_iff, Option.map_eq_some_iff, Prod.exists, Prod.mk.injEq]
  constructor
  · rintro ⟨output, next, hstep, tail, final, hrun, rfl, rfl⟩
    exact ⟨output, next, tail, hstep, hrun, rfl⟩
  · rintro ⟨output, next, tail, hstep, hrun, rfl⟩
    exact ⟨output, next, hstep, tail, last, hrun, rfl, rfl⟩

theorem run_append_eq_some (M : Automaton σ ι ω) {state middle last : σ}
    {first second : List ι} {outputs outputs' : List ω}
    (hfirst : M.run state first = some (outputs, middle))
    (hsecond : M.run middle second = some (outputs', last)) :
    M.run state (first ++ second) = some (outputs ++ outputs', last) := by
  induction first generalizing state outputs with
  | nil =>
      simp only [run_nil, Option.some.injEq, Prod.mk.injEq] at hfirst
      obtain ⟨rfl, rfl⟩ := hfirst
      exact hsecond
  | cons input rest ih =>
      obtain ⟨output, next, tail, hstep, hrest, rfl⟩ := M.run_cons_eq_some.mp hfirst
      exact M.run_cons_eq_some.mpr ⟨output, next, tail ++ outputs', hstep, ih hrest, rfl⟩

/-- The same, for a run given as a trace of inputs and outputs. -/
theorem run_trace_cons (M : Automaton σ ι ω) {state last : σ} {input : ι} {output : ω}
    {trace : List (ι × ω)} :
    M.run state (((input, output) :: trace).map Prod.fst) =
        some (((input, output) :: trace).map Prod.snd, last) ↔
      ∃ next, M.step state input = some (output, next) ∧
        M.run next (trace.map Prod.fst) = some (trace.map Prod.snd, last) := by
  rw [List.map_cons, List.map_cons, run_cons_eq_some]
  constructor
  · rintro ⟨_, next, _, hstep, hrest, heq⟩
    obtain ⟨rfl, rfl⟩ := List.cons.inj heq
    exact ⟨next, hstep, hrest⟩
  · rintro ⟨next, hstep, hrest⟩
    exact ⟨output, next, _, hstep, hrest, rfl⟩

theorem exists_run_of_append (M : Automaton σ ι ω) {state last : σ} {first second : List ι}
    {outputs : List ω} (hrun : M.run state (first ++ second) = some (outputs, last)) :
    ∃ outputs₁ middle outputs₂, M.run state first = some (outputs₁, middle) ∧
      M.run middle second = some (outputs₂, last) ∧ outputs = outputs₁ ++ outputs₂ := by
  induction first generalizing state outputs with
  | nil => exact ⟨[], state, outputs, rfl, hrun, rfl⟩
  | cons input rest ih =>
      obtain ⟨output, next, tail, hstep, hrest, rfl⟩ := M.run_cons_eq_some.mp hrun
      obtain ⟨outputs₁, middle, outputs₂, hfirst, hsecond, rfl⟩ := ih hrest
      exact ⟨output :: outputs₁, middle, outputs₂,
        M.run_cons_eq_some.mpr ⟨output, next, outputs₁, hstep, hfirst, rfl⟩, hsecond, rfl⟩

/-- A state is reachable when some run ends in it. -/
def Reaches (M : Automaton σ ι ω) (start state : σ) : Prop :=
  ∃ inputs outputs, M.run start inputs = some (outputs, state)

theorem Reaches.refl (M : Automaton σ ι ω) (start : σ) : M.Reaches start start :=
  ⟨[], [], rfl⟩

theorem Reaches.trans {M : Automaton σ ι ω} {start middle last : σ}
    (hfirst : M.Reaches start middle) (hsecond : M.Reaches middle last) :
    M.Reaches start last := by
  obtain ⟨first, outputs, hfirst⟩ := hfirst
  obtain ⟨second, outputs', hsecond⟩ := hsecond
  exact ⟨_, _, M.run_append_eq_some hfirst hsecond⟩

theorem Reaches.single {M : Automaton σ ι ω} {start next : σ} {input : ι} {output : ω}
    (hstep : M.step start input = some (output, next)) : M.Reaches start next :=
  ⟨[input], [output], M.run_cons_eq_some.mpr ⟨output, next, [], hstep, rfl, rfl⟩⟩

/-- A computed run, seen through a function of its last state. -/
theorem Reaches.of_run {α : Type*} (M : Automaton σ ι ω) (start : σ) (inputs : List ι)
    (f : σ → α) {value : α} (hrun : (M.run start inputs).map (fun r => f r.2) = some value) :
    ∃ state, M.Reaches start state ∧ f state = value := by
  obtain ⟨⟨outputs, state⟩, hsome, hvalue⟩ := Option.map_eq_some_iff.mp hrun
  exact ⟨state, ⟨inputs, outputs, hsome⟩, hvalue⟩

/-- A run passes through a state if one of its prefixes ends there. -/
def Visits (M : Automaton σ ι ω) (start : σ) (inputs : List ι) (state : σ) : Prop :=
  ∃ n outputs, M.run start (inputs.take n) = some (outputs, state)

theorem visits_nil (M : Automaton σ ι ω) {start state : σ} :
    M.Visits start [] state ↔ state = start := by
  constructor
  · rintro ⟨n, outputs, hrun⟩
    rw [List.take_nil] at hrun
    exact (Prod.mk.inj (Option.some.inj hrun)).2.symm
  · rintro rfl
    exact ⟨0, [], rfl⟩

theorem visits_cons (M : Automaton σ ι ω) {start next state : σ} {input : ι} {inputs : List ι}
    {output : ω} (hone : M.step start input = some (output, next))
    (hvisit : M.Visits start (input :: inputs) state) :
    state = start ∨ M.Visits next inputs state := by
  obtain ⟨n, outputs, hrun⟩ := hvisit
  cases n with
  | zero =>
      obtain ⟨-, rfl⟩ := Prod.mk.inj (Option.some.inj hrun)
      exact Or.inl rfl
  | succ n =>
      obtain ⟨output', next', tail, hone', hrest, -⟩ := M.run_cons_eq_some.mp hrun
      obtain ⟨-, rfl⟩ := Prod.mk.inj (Option.some.inj (hone.symm.trans hone'))
      exact Or.inr ⟨n, tail, hrest⟩

theorem visits_concat (M : Automaton σ ι ω) {start last state : σ} {inputs : List ι} {input : ι}
    {outputs : List ω} (hrun : M.run start (inputs ++ [input]) = some (outputs, last)) :
    M.Visits start (inputs ++ [input]) state ↔ M.Visits start inputs state ∨ state = last := by
  constructor
  · rintro ⟨n, seen, hseen⟩
    rcases Nat.lt_or_ge inputs.length n with hn | hn
    · rw [List.take_of_length_le (by rwa [List.length_append]), hrun] at hseen
      exact Or.inr (Prod.mk.inj (Option.some.inj hseen)).2.symm
    · rw [List.take_append_of_le_length hn] at hseen
      exact Or.inl ⟨n, seen, hseen⟩
  · rintro (⟨n, seen, hseen⟩ | rfl)
    · refine ⟨min n inputs.length, seen, ?_⟩
      rwa [List.take_append_of_le_length (Nat.min_le_right _ _), ← List.take_eq_take_min]
    · exact ⟨(inputs ++ [input]).length, outputs, by rwa [List.take_length]⟩

/-! ## From one step to whole runs -/

/-- A condition that no step can establish holds at the start of a run when it
holds at the end. -/
theorem run_bound (M : Automaton σ ι ω) (bound : σ → Prop)
    (hback : ∀ {state input output next},
      M.step state input = some (output, next) → bound next → bound state)
    {state last : σ} {inputs : List ι} {outputs : List ω}
    (hrun : M.run state inputs = some (outputs, last)) (hlast : bound last) :
    bound state := by
  induction inputs generalizing state outputs with
  | nil =>
      simp only [run_nil, Option.some.injEq, Prod.mk.injEq] at hrun
      exact hrun.2 ▸ hlast
  | cons input rest ih =>
      obtain ⟨output, next, tail, hstep, hrest, -⟩ := M.run_cons_eq_some.mp hrun
      exact hback hstep (ih hrest)

/-- Invariant rule. The invariant may speak about the outputs seen so far, and a
step may assume that its input is one of the run. -/
theorem run_invariant (M : Automaton σ ι ω) (inv : List ω → σ → Prop) {state last : σ}
    {inputs : List ι} {outputs : List ω} (hrun : M.run state inputs = some (outputs, last))
    (hstep : ∀ {seen state input output next}, input ∈ inputs → inv seen state →
      M.step state input = some (output, next) → inv (seen ++ [output]) next)
    (seen : List ω) (hinv : inv seen state) : inv (seen ++ outputs) last := by
  induction inputs generalizing state outputs seen with
  | nil =>
      simp only [run_nil, Option.some.injEq, Prod.mk.injEq] at hrun
      obtain ⟨rfl, rfl⟩ := hrun
      rwa [List.append_nil]
  | cons input rest ih =>
      obtain ⟨output, next, tail, hone, hrest, rfl⟩ := M.run_cons_eq_some.mp hrun
      have hnext := hstep List.mem_cons_self hinv hone
      have hlast := ih hrest (fun hmem => hstep (List.mem_cons_of_mem _ hmem)) _ hnext
      rwa [List.append_assoc, List.singleton_append] at hlast

/-- The invariant rule with the whole trace of the run so far. -/
theorem run_history (M : Automaton σ ι ω) (inv : List (ι × ω) → σ → Prop) {state last : σ}
    {inputs : List ι} {outputs : List ω} (hrun : M.run state inputs = some (outputs, last))
    (hstep : ∀ {seen state input output next}, inv seen state →
      M.step state input = some (output, next) → inv (seen ++ [(input, output)]) next)
    (seen : List (ι × ω)) (hinv : inv seen state) : inv (seen ++ inputs.zip outputs) last := by
  induction inputs generalizing state outputs seen with
  | nil =>
      obtain ⟨rfl, rfl⟩ := Prod.mk.inj (Option.some.inj hrun)
      rwa [List.zip_nil_left, List.append_nil]
  | cons input rest ih =>
      obtain ⟨output, next, tail, hone, hrest, rfl⟩ := M.run_cons_eq_some.mp hrun
      have hlast := ih hrest _ (hstep hinv hone)
      rwa [List.append_assoc, List.singleton_append] at hlast

/-- The invariant rule for reachable states. -/
theorem Reaches.invariant {M : Automaton σ ι ω} {start state : σ}
    (hreach : M.Reaches start state) (inv : σ → Prop) (hinv : inv start)
    (hstep : ∀ {state input output next}, inv state →
      M.step state input = some (output, next) → inv next) : inv state := by
  obtain ⟨inputs, outputs, hrun⟩ := hreach
  exact M.run_invariant (fun _ => inv) hrun (fun _ => hstep) [] hinv

/-- Forward simulation. If `N` answers every step of `M` with the same output and
the two stay related, every run of `M` is a run of `N` with the same outputs. -/
theorem run_simulation (M : Automaton σ ι ω) (N : Automaton τ ι ω) (bound : σ → Prop)
    (rel : σ → τ → Prop)
    (hback : ∀ {state input output next},
      M.step state input = some (output, next) → bound next → bound state)
    (hstep : ∀ {state other input output next}, rel state other → bound next →
      M.step state input = some (output, next) →
      ∃ next', N.step other input = some (output, next') ∧ rel next next')
    {state last : σ} {other : τ} {inputs : List ι} {outputs : List ω}
    (hrun : M.run state inputs = some (outputs, last)) (hlast : bound last)
    (hrel : rel state other) :
    ∃ last', N.run other inputs = some (outputs, last') ∧ rel last last' := by
  induction inputs generalizing state other outputs with
  | nil =>
      simp only [run_nil, Option.some.injEq, Prod.mk.injEq] at hrun
      obtain ⟨rfl, rfl⟩ := hrun
      exact ⟨other, rfl, hrel⟩
  | cons input rest ih =>
      obtain ⟨output, next, tail, hone, hrest, rfl⟩ := M.run_cons_eq_some.mp hrun
      obtain ⟨next', hone', hrel'⟩ := hstep hrel (M.run_bound bound hback hrest hlast) hone
      obtain ⟨last', hrest', hrel''⟩ := ih hrest hrel'
      exact ⟨last', N.run_cons_eq_some.mpr ⟨output, next', tail, hone', hrest', rfl⟩, hrel''⟩

/-- Rank rule. While one party waits, each of its inputs lowers a rank and no other
input raises it, until the goal is met. So a run with enough of its inputs meets the
goal, and the party has been waiting until then. -/
theorem exists_goal_of_rank (M : Automaton σ ι ω) (mine : ι → Bool) (rank : σ → Nat)
    (wait : σ → Prop) (goal : σ → ι → σ → Prop) (bound : σ → Prop)
    (hback : ∀ {state input output next},
      M.step state input = some (output, next) → bound next → bound state)
    (hpos : ∀ {state}, wait state → 0 < rank state)
    (hstep : ∀ {state input output next}, wait state → bound next →
      M.step state input = some (output, next) → goal state input next ∨
        wait next ∧ rank next + (if mine input then 1 else 0) ≤ rank state)
    {state last : σ} {inputs : List ι} {outputs : List ω}
    (hrun : M.run state inputs = some (outputs, last)) (hlast : bound last)
    (hwait : wait state) (hcount : rank state ≤ inputs.countP mine) :
    ∃ front input rest seen middle output next, inputs = front ++ input :: rest ∧
      M.run state front = some (seen, middle) ∧
      (∀ before, M.Visits state front before → wait before) ∧
      M.step middle input = some (output, next) ∧ goal middle input next := by
  induction inputs generalizing state outputs with
  | nil => exact absurd hcount (Nat.not_le.mpr (hpos hwait))
  | cons input rest ih =>
      obtain ⟨output, next, tail, hone, hrest, -⟩ := M.run_cons_eq_some.mp hrun
      rcases hstep hwait (M.run_bound bound hback hrest hlast) hone with hgoal | ⟨hwait', hrank⟩
      · refine ⟨[], input, rest, [], state, output, next, rfl, rfl, ?_, hone, hgoal⟩
        rintro before hvisit
        rwa [M.visits_nil.mp hvisit]
      · have hcount' : rank next ≤ rest.countP mine := by
          rw [List.countP_cons] at hcount
          omega
        obtain ⟨front, input', rest', seen, middle, output', next', rfl, hseen, hbefore, hgoal⟩ :=
          ih hrest hwait' hcount'
        refine ⟨input :: front, input', rest', output :: seen, middle, output', next', rfl,
          M.run_cons_eq_some.mpr ⟨output, next, seen, hone, hseen, rfl⟩, ?_, hgoal⟩
        intro before hvisit
        rcases M.visits_cons hone hvisit with rfl | hvisit
        · exact hwait
        · exact hbefore before hvisit

/-- An automaton that accepts every input in every state has a run on every
sequence of inputs. -/
theorem exists_run (M : Automaton σ ι ω)
    (htotal : ∀ state input, ∃ answer, M.step state input = some answer)
    (state : σ) (inputs : List ι) : ∃ outputs last, M.run state inputs = some (outputs, last) := by
  induction inputs generalizing state with
  | nil => exact ⟨[], state, rfl⟩
  | cons input rest ih =>
      obtain ⟨⟨output, next⟩, hstep⟩ := htotal state input
      obtain ⟨outputs, last, hrest⟩ := ih next
      exact ⟨output :: outputs, last,
        M.run_cons_eq_some.mpr ⟨output, next, outputs, hstep, hrest, rfl⟩⟩

/-- See the outputs through a function. -/
def mapOutput {ω' : Type*} (M : Automaton σ ι ω) (f : ω → ω') : Automaton σ ι ω' where
  step state input := (M.step state input).map fun answer => (f answer.1, answer.2)

theorem run_of_run_mapOutput {ω' : Type*} (M : Automaton σ ι ω) (f : ω → ω') {state last : σ}
    {inputs : List ι} {outputs : List ω'}
    (hrun : (M.mapOutput f).run state inputs = some (outputs, last)) :
    ∃ outputs', M.run state inputs = some (outputs', last) ∧ outputs'.map f = outputs := by
  induction inputs generalizing state outputs with
  | nil =>
      simp only [run_nil, Option.some.injEq, Prod.mk.injEq] at hrun
      obtain ⟨rfl, rfl⟩ := hrun
      exact ⟨[], rfl, rfl⟩
  | cons input rest ih =>
      obtain ⟨output, next, tail, hstep, hrest, rfl⟩ := (M.mapOutput f).run_cons_eq_some.mp hrun
      obtain ⟨⟨output', next'⟩, hone, hanswer⟩ := Option.map_eq_some_iff.mp hstep
      obtain ⟨rfl, rfl⟩ := Prod.mk.inj hanswer
      obtain ⟨tail', htail, rfl⟩ := ih hrest
      exact ⟨output' :: tail',
        M.run_cons_eq_some.mpr ⟨output', next', tail', hone, htail, rfl⟩, rfl⟩

/-- The automaton that only accepts the inputs `allowed` in the current state. -/
def restrict (M : Automaton σ ι ω) (allowed : σ → ι → Bool) : Automaton σ ι ω where
  step state input := if allowed state input then M.step state input else none

theorem restrict_step_eq_some (M : Automaton σ ι ω) {allowed : σ → ι → Bool}
    {state next : σ} {input : ι} {output : ω} :
    (M.restrict allowed).step state input = some (output, next) ↔
      allowed state input = true ∧ M.step state input = some (output, next) := by
  simp [restrict]

/-- A run of an automaton restricted to some inputs is a run with these inputs. -/
theorem run_restrict (M : Automaton σ ι ω) {allowed : ι → Bool} {state last : σ}
    {inputs : List ι} {outputs : List ω}
    (hrun : (M.restrict fun _ => allowed).run state inputs = some (outputs, last)) :
    (∀ input ∈ inputs, allowed input = true) ∧ M.run state inputs = some (outputs, last) := by
  induction inputs generalizing state outputs with
  | nil => exact ⟨nofun, hrun⟩
  | cons input rest ih =>
      obtain ⟨output, next, tail, hstep, hrest, rfl⟩ := run_cons_eq_some _ |>.mp hrun
      obtain ⟨hallowed, hone⟩ := M.restrict_step_eq_some.mp hstep
      obtain ⟨hall, hrun'⟩ := ih hrest
      exact ⟨List.forall_mem_cons.mpr ⟨hallowed, hall⟩,
        M.run_cons_eq_some.mpr ⟨output, next, tail, hone, hrun', rfl⟩⟩

end Automaton

end RingBuff
