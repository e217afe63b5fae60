import RingBuff.Notify.Wait
import RingBuff.Threads.Moves

/-! # `rb_wait` between two threads

In the system of two threads `rb_wait` is a row of steps of the consumer, on its own
it is a program that asks its environment. Each step of the consumer is the next call
of the program, answered by the ring, the clock or the kernel. So a wait in the system
is an execution of the program and keeps its contract, whatever the producer does in
the meantime.
-/

namespace RingBuff.Wait

open Threads

variable {b : Build} {expected : UInt32} {timeoutMs : Int32} {fuel : Nat} {s s' : Sys} {a : Act}
  {p : Client WaitCall World (Option Int)}

/-- The end of `rb_wait`, behind its loop. -/
def lowered (loop : Client WaitCall World (Option Int)) : Client WaitCall World (Option Int) :=
  loop.bind fun
    | none => .done none
    | some result => .call .lowerWaiters fun _ => .done (some result)

/-- `rb_wait` once it has found the ring empty. -/
def started (b : Build) (expected : UInt32) (timeoutMs : Int32) (fuel : Nat) :
    Client WaitCall World (Option Int) :=
  .call .now fun w =>
    .call .raiseWaiters fun _ =>
      lowered (waitLoop b expected timeoutMs (deadlineFor timeoutMs w.now) fuel)

/-- A round of the loop once it has found the ring empty. -/
def checked (b : Build) (expected : UInt32) (timeoutMs : Int32) (deadline : UInt64) (fuel : Nat) :
    Client WaitCall World (Option Int) :=
  .call .now fun w =>
    if 0 ≤ timeoutMs ∧ deadline ≤ w.now then .done (some (-etimedout))
    else if sliceFor b timeoutMs deadline w.now = 0 then .done (some (-etimedout))
    else .call (.futexWait expected (timespecOf (sliceFor b timeoutMs deadline w.now)))
      fun w => afterFutex timeoutMs deadline (waitLoop b expected timeoutMs deadline fuel) w.futex

/-- What is left of the program at a position of the consumer. The length of the sleep
is not part of the position. -/
inductive At (b : Build) (timeoutMs : Int32) (fuel : Nat) :
    ConsumerPc → Client WaitCall World (Option Int) → Prop
  | count (expected : UInt32) :
      At b timeoutMs fuel (.waitCount expected timeoutMs.toInt)
        (.call .count fun w =>
          if w.count ≠ 0 then .done (some 0) else started b expected timeoutMs fuel)
  | start (expected : UInt32) :
      At b timeoutMs fuel (.waitStart expected timeoutMs.toInt)
        (started b expected timeoutMs fuel)
  | raise (expected : UInt32) (deadline : UInt64) :
      At b timeoutMs fuel (.waitRaise ⟨expected, timeoutMs.toInt, deadline⟩)
        (.call .raiseWaiters fun _ => lowered (waitLoop b expected timeoutMs deadline fuel))
  | check (expected : UInt32) (deadline : UInt64) :
      At b timeoutMs fuel (.waitCheck ⟨expected, timeoutMs.toInt, deadline⟩)
        (lowered (waitLoop b expected timeoutMs deadline fuel))
  | now (expected : UInt32) (deadline : UInt64) :
      At b timeoutMs fuel (.waitNow ⟨expected, timeoutMs.toInt, deadline⟩)
        (lowered (checked b expected timeoutMs deadline fuel))
  | futex (expected : UInt32) (deadline : UInt64) (ts : Timespec) :
      At b timeoutMs fuel (.waitFutex ⟨expected, timeoutMs.toInt, deadline⟩)
        (lowered (.call (.futexWait expected ts) fun w =>
          afterFutex timeoutMs deadline (waitLoop b expected timeoutMs deadline fuel) w.futex))
  | asleep (expected : UInt32) (deadline : UInt64) (ts : Timespec) :
      At b timeoutMs fuel (.waitAsleep ⟨expected, timeoutMs.toInt, deadline⟩)
        (lowered (.call (.futexWait expected ts) fun w =>
          afterFutex timeoutMs deadline (waitLoop b expected timeoutMs deadline fuel) w.futex))
  | late (expected : UInt32) (deadline : UInt64) :
      At b timeoutMs fuel (.waitLate ⟨expected, timeoutMs.toInt, deadline⟩)
        (lowered (.call .now fun w =>
          if deadline ≤ w.now then .done (some (-etimedout))
          else waitLoop b expected timeoutMs deadline fuel))
  | lower (result : Int) :
      At b timeoutMs fuel (.waitLower result) (lowered (.done (some result)))

/-- The consumer is inside `rb_wait`. -/
def inWait : ConsumerPc → Bool
  | .waitCount _ _ | .waitStart _ _ | .waitRaise _ | .waitCheck _ | .waitNow _ | .waitFutex _
  | .waitAsleep _ | .waitLate _ | .waitLower _ => true
  | .idle | .conTail | .conHead _ | .conEntry _ | .conStale _ _ | .conHeader _ | .relTail _
  | .relStamp _ _ | .relStore _ | .relClear _ _ | .relLowD _ _ | .relClearUp _ _ | .relLowE _ _
  | .relFireE | .fdRead => false

theorem At.in_wait {pc : ConsumerPc} (hat : At b timeoutMs fuel pc p) : inWait pc = true := by
  cases hat <;> rfl

/-- The clock reading of a move, if it is one. -/
def reading : Act → List UInt64
  | .clock now => [now]
  | .acquire _ | .write _ _ | .publishEx _ _ _ | .abort | .producer | .eventfdFails | .consume
  | .read _ | .release _ | .notifyValue | .wait _ _ | .drainFd | .consumer | .futexReturns _ => []

/-- A futex call that leaves this `errno`. -/
def answerWith (errno : Nat) : FutexAnswer := if hpos : 0 < errno then .err ⟨errno, hpos⟩ else .ok

/-- What `rb_futex_wait` returns. -/
def answerOf : FutexResult → FutexAnswer
  | .woken => .ok
  | .eagain => answerWith 11
  | .eintr => answerWith 4
  | .timedOut => answerWith 110
  | .failed errno => answerWith errno

/-- An `errno` that has no name of its own. -/
def Other (a : Act) : Prop :=
  ∀ errno : Nat, a = .futexReturns (.failed errno) →
    0 < errno ∧ errno ≠ eagain ∧ errno ≠ eintr ∧ errno ≠ etimedout

/-- What a move leaves of a wait: it goes on, or it has returned. -/
def Goes (b : Build) (timeoutMs : Int32) (fuel : Nat) (s s' : Sys)
    (p : Client WaitCall World (Option Int)) : Prop :=
  (∃ fuel', fuel ≤ fuel' + 1 ∧ At b timeoutMs fuel' s'.c.pc p) ∨
    ∃ result, p = .done (some result) ∧ s'.c.pc = .idle ∧ s'.log = s.log ++ [.waited result]

theorem Goes.at {q : Client WaitCall World (Option Int)} {pc : ConsumerPc}
    (hat : At b timeoutMs fuel pc q) (hpc : s'.c.pc = pc) : Goes b timeoutMs fuel s s' q :=
  Or.inl ⟨fuel, Nat.le_succ fuel, hpc ▸ hat⟩

/-- The program makes calls that are answered by the move. -/
def Answered (b : Build) (timeoutMs : Int32) (fuel : Nat) (s s' : Sys) (a : Act)
    (p : Client WaitCall World (Option Int)) : Prop :=
  ∃ trace q, p.Leads trace q ∧ readings trace = reading a ∧ Goes b timeoutMs fuel s s' q

theorem Answered.call {c : WaitCall} {next : World → Client WaitCall World (Option Int)}
    (w : World) (hreadings : readings [(c, w)] = reading a)
    (hgoes : Goes b timeoutMs fuel s s' (next w)) :
    Answered b timeoutMs fuel s s' a (.call c next) :=
  ⟨_, _, .one c w next, hreadings, hgoes⟩

theorem toInt_nonneg : 0 ≤ timeoutMs.toInt ↔ 0 ≤ timeoutMs := by
  rw [Int32.le_iff_toInt_le, Int32.toInt_zero]

theorem toInt_neg : timeoutMs.toInt < 0 ↔ timeoutMs < 0 := by
  rw [Int32.lt_iff_toInt_lt, Int32.toInt_zero]

theorem waitSlice_eq {deadline now : UInt64} :
    Sys.waitSlice b ⟨expected, timeoutMs.toInt, deadline⟩ now =
      sliceFor b timeoutMs deadline now := by
  unfold Sys.waitSlice sliceFor
  simp only [toInt_nonneg]

/-- The consumer takes a step of its own. -/
theorem At.consumerStep (hat : At b timeoutMs fuel s.c.pc p) (hfuel : 0 < fuel)
    (hstep : s.consumerStep b = some s') : Answered b timeoutMs fuel s s' .consumer p := by
  generalize hpc : s.c.pc = pc at hat
  cases hat with
  | count expected =>
      simp only [Sys.consumerStep, hpc, Option.some.injEq] at hstep
      refine .call { count := rbCount s.rb } rfl ?_
      subst hstep
      by_cases hcount : rbCount s.rb = 0
      · simp only [Sys.nonEmpty, hcount]
        exact .at (.start expected) rfl
      · simp only [Sys.nonEmpty, ne_eq, hcount, not_false_eq_true, decide_true, ↓reduceIte]
        exact Or.inr ⟨0, rfl, rfl, rfl⟩
  | start expected => simp [Sys.consumerStep, hpc] at hstep
  | raise expected deadline =>
      simp only [Sys.consumerStep, hpc, Option.some.injEq] at hstep
      subst hstep
      exact .call {} rfl (.at (.check expected deadline) rfl)
  | check expected deadline =>
      simp only [Sys.consumerStep, hpc, Option.some.injEq] at hstep
      obtain ⟨fuel, rfl⟩ := Nat.exists_eq_succ_of_ne_zero hfuel.ne'
      refine .call { count := rbCount s.rb } rfl ?_
      subst hstep
      by_cases hcount : rbCount s.rb = 0
      · simp only [Sys.nonEmpty, hcount]
        exact Or.inl ⟨fuel, le_rfl, .now expected deadline⟩
      · simp only [Sys.nonEmpty, ne_eq, hcount, not_false_eq_true, decide_true, ↓reduceIte]
        exact .at (.lower 0) rfl
  | now expected deadline => simp [Sys.consumerStep, hpc] at hstep
  | futex expected deadline ts =>
      simp only [Sys.consumerStep, hpc, Option.some.injEq] at hstep
      subst hstep
      by_cases hhead : s.rb.head = expected
      · rw [if_pos hhead]
        exact ⟨[], _, .nil _, rfl, .at (.asleep expected deadline ts) rfl⟩
      · rw [if_neg hhead]
        -- the kernel has found another value
        exact .call { futex := answerOf .eagain } rfl (.at (.lower 0) rfl)
  | asleep expected deadline ts =>
      simp only [Sys.consumerStep, hpc] at hstep
      split_ifs at hstep
      obtain rfl := Option.some.inj hstep
      exact .call { futex := .ok } rfl (.at (.lower 0) rfl)
  | late expected deadline => simp [Sys.consumerStep, hpc] at hstep
  | lower result =>
      simp only [Sys.consumerStep, hpc, Option.some.injEq] at hstep
      subst hstep
      exact .call {} rfl (Or.inr ⟨result, rfl, rfl, rfl⟩)

/-- The consumer reads the clock. -/
theorem At.clockStep {now : UInt64} (hat : At b timeoutMs fuel s.c.pc p)
    (hstep : s.clockStep b now = some s') :
    Answered b timeoutMs fuel s s' (.clock now) p := by
  generalize hpc : s.c.pc = pc at hat
  cases hat with
  | start expected =>
      simp only [Sys.clockStep, hpc, Option.some.injEq] at hstep
      subst hstep
      refine .call { now } rfl (.at (.raise expected _) ?_)
      simp only [deadlineFor, toInt_nonneg]
      rfl
  | now expected deadline =>
      simp only [Sys.clockStep, hpc, waitSlice_eq, toInt_nonneg] at hstep
      refine .call { now } rfl ?_
      dsimp only
      split_ifs at hstep ⊢
      · obtain rfl := Option.some.inj hstep
        exact .at (.lower _) rfl
      · obtain rfl := Option.some.inj hstep
        exact .at (.lower _) rfl
      · obtain rfl := Option.some.inj hstep
        exact .at (.futex expected deadline _) rfl
  | late expected deadline =>
      simp only [Sys.clockStep, hpc, Option.some.injEq] at hstep
      subst hstep
      refine .call { now } rfl ?_
      dsimp only
      split_ifs
      · exact .at (.lower _) rfl
      · exact .at (.check expected deadline) rfl
  | count | raise | check | futex | asleep | lower => simp [Sys.clockStep, hpc] at hstep

/-- What the loop makes of the result of its futex call. -/
theorem goes_afterFutex {result : FutexResult} {deadline : UInt64}
    (hpc : s.c.pc = .waitFutex ⟨expected, timeoutMs.toInt, deadline⟩ ∨
      s.c.pc = .waitAsleep ⟨expected, timeoutMs.toInt, deadline⟩)
    (hother : Other (.futexReturns result)) (hstep : s.futexStep result = some s') :
    Goes b timeoutMs fuel s s' (lowered (afterFutex timeoutMs deadline
      (waitLoop b expected timeoutMs deadline fuel) (answerOf result))) := by
  rcases hpc with hpc | hpc <;>
  · simp only [Sys.futexStep, hpc, Option.some.injEq, toInt_neg] at hstep
    subst hstep
    cases result with
    | woken => exact .at (.lower 0) rfl
    | eagain => exact .at (.lower 0) rfl
    | eintr => exact .at (.check expected deadline) rfl
    | timedOut =>
        change Goes b timeoutMs fuel s _ (lowered (if timeoutMs < 0 then _ else _))
        dsimp only
        split_ifs
        · exact .at (.check expected deadline) rfl
        · exact .at (.late expected deadline) rfl
    | failed errno =>
        obtain ⟨hpos, hagain, hintr, htimed⟩ := hother errno rfl
        simp only [answerOf, answerWith, dif_pos hpos, afterFutex, if_neg hagain, if_neg hintr,
          if_neg htimed]
        exact .at (.lower _) rfl

/-- The futex call returns by itself. -/
theorem At.futexStep {result : FutexResult} (hat : At b timeoutMs fuel s.c.pc p)
    (hother : Other (.futexReturns result)) (hstep : s.futexStep result = some s') :
    Answered b timeoutMs fuel s s' (.futexReturns result) p := by
  generalize hpc : s.c.pc = pc at hat
  cases hat with
  | futex expected deadline ts =>
      exact .call { futex := answerOf result } rfl (goes_afterFutex (Or.inl hpc) hother hstep)
  | asleep expected deadline ts =>
      exact .call { futex := answerOf result } rfl (goes_afterFutex (Or.inr hpc) hother hstep)
  | count | start | raise | check | now | late | lower => simp [Sys.futexStep, hpc] at hstep

/-- Every move of the system answers what the wait asks next, or nothing. -/
theorem At.step (hat : At b timeoutMs fuel s.c.pc p) (hfuel : 0 < fuel) (hother : Other a)
    (hstep : Threads.step b s a = some s') : Answered b timeoutMs fuel s s' a p := by
  have hbusy : s.c.pc ≠ .idle := by
    intro hidle
    have hwait := hat.in_wait
    rw [hidle] at hwait
    cases hwait
  have hproducer : a.byProducer = true → reading a = [] → Answered b timeoutMs fuel s s' a p := by
    intro ha hnone
    have hside := (step_producerMove ha hstep).frame.side
    exact ⟨[], p, .nil p, hnone.symm, .at hat (congrArg ConsumerSide.pc hside)⟩
  cases a with
  | acquire | write | publishEx | abort | producer | eventfdFails => exact hproducer rfl rfl
  | consume | read | release | notifyValue | wait | drainFd =>
      simp [Threads.step, hbusy] at hstep
  | consumer => exact hat.consumerStep hfuel hstep
  | clock now => exact hat.clockStep hstep
  | futexReturns result => exact hat.futexStep hother hstep

/-- The moves of the system while the consumer is inside `rb_wait`. -/
def waiting (b : Build) : Automaton Sys Act Unit :=
  (machine b).restrict fun s _ => inWait s.c.pc

/-- A wait that has returned is a finished run of the program. -/
theorem At.run {acts : List Act} {outs : List Unit} (hat : At b timeoutMs fuel s.c.pc p)
    (hfuel : acts.length ≤ fuel) (hother : ∀ a ∈ acts, Other a)
    (hrun : (waiting b).run s acts = some (outs, s')) (hreturned : inWait s'.c.pc = false) :
    ∃ trace result, p.Leads trace (.done (some result)) ∧
      s'.log.getLast? = some (.waited result) ∧ readings trace = acts.flatMap reading := by
  induction acts generalizing s p fuel outs with
  | nil =>
      obtain ⟨-, rfl⟩ := Prod.mk.inj (Option.some.inj hrun)
      rw [hat.in_wait] at hreturned
      cases hreturned
  | cons a acts ih =>
      obtain ⟨⟨⟩, next, tail, hone, hrest, -⟩ := (waiting b).run_cons_eq_some.mp hrun
      obtain ⟨-, hone⟩ := (machine b).restrict_step_eq_some.mp hone
      obtain ⟨_, hstep, heq⟩ := Option.map_eq_some_iff.mp hone
      obtain ⟨-, rfl⟩ := Prod.mk.inj heq
      rw [List.length_cons] at hfuel
      obtain ⟨front, q, hleads, hreadings, hgoes⟩ :=
        hat.step (Nat.zero_lt_of_lt hfuel) (hother a List.mem_cons_self) hstep
      rcases hgoes with ⟨fuel', hle, hat'⟩ | ⟨result, rfl, hidle, hlog⟩
      · obtain ⟨trace, result, hleads', hlog, hreadings'⟩ := ih hat' (by omega)
          (fun a' ha' => hother a' (List.mem_cons_of_mem a ha')) hrest
        refine ⟨front ++ trace, result, hleads.append hleads', hlog, ?_⟩
        rw [readings_append, hreadings, hreadings', List.flatMap_cons]
      · -- outside of `rb_wait` the run is over
        cases acts with
        | nil =>
            obtain ⟨-, rfl⟩ := Prod.mk.inj (Option.some.inj hrest)
            refine ⟨front, result, hleads, ?_, ?_⟩
            · rw [hlog, List.getLast?_concat]
            · rw [hreadings, List.flatMap_cons, List.flatMap_nil, List.append_nil]
        | cons a' acts =>
            obtain ⟨_, _, _, hone', -, -⟩ := (waiting b).run_cons_eq_some.mp hrest
            obtain ⟨hwait, -⟩ := (machine b).restrict_step_eq_some.mp hone'
            rw [hidle] at hwait
            cases hwait

/-- A `rb_wait` of the consumer is an execution of `rbWait` that reads the same clock and
has the same result. -/
theorem wait_leads {s₁ : Sys} {acts : List Act} {outs : List Unit}
    (hbegin : Threads.step b s (.wait expected timeoutMs.toInt) = some s₁)
    (hrun : (waiting b).run s₁ acts = some (outs, s')) (hreturned : inWait s'.c.pc = false)
    (hother : ∀ a ∈ acts, Other a) :
    ∃ trace result,
      (rbWait b s.rb expected timeoutMs acts.length).Leads trace (.done (some result)) ∧
      s'.log.getLast? = some (.waited result) ∧ readings trace = acts.flatMap reading := by
  obtain ⟨hidle, hbegin⟩ := Option.ite_none_right_eq_some.mp hbegin
  obtain rfl := Option.some.inj hbegin
  unfold rbWait
  unfold Sys.startWait at hrun
  split_ifs at hrun ⊢ with hdead
  · cases acts with
    | nil =>
        obtain ⟨-, rfl⟩ := Prod.mk.inj (Option.some.inj hrun)
        exact ⟨[], -einval, .nil _, List.getLast?_concat, rfl⟩
    | cons a acts =>
        obtain ⟨_, _, _, hone, -, -⟩ := (waiting b).run_cons_eq_some.mp hrun
        obtain ⟨hwait, -⟩ := (machine b).restrict_step_eq_some.mp hone
        simp only [hidle] at hwait
        cases hwait
  · exact (At.count expected).run le_rfl hother hrun hreturned

/-- So every `rb_wait` of the consumer keeps the contract, with the deadline the caller
asked for. -/
theorem wait_keeps (hslice : 0 < b.waitSliceMs) (hrb : s.rb.geo.scratchSize ≠ 0) {s₁ : Sys}
    {acts : List Act} {outs : List Unit}
    (hbegin : Threads.step b s (.wait expected timeoutMs.toInt) = some s₁)
    (hrun : (waiting b).run s₁ acts = some (outs, s')) (hreturned : inWait s'.c.pc = false)
    (hother : ∀ a ∈ acts, Other a)
    (hclock : ∀ now ∈ acts.flatMap reading, now.toNat < 2 ^ 63) :
    ∃ trace result, readings trace = acts.flatMap reading ∧
      s'.log.getLast? = some (.waited result) ∧
      Contract b.waitSliceMs.toNat (dueAt timeoutMs trace) trace (some result) := by
  obtain ⟨trace, result, hleads, hlog, hreadings⟩ := wait_leads hbegin hrun hreturned hother
  have hexec := script.exec_of_leads hleads (script_run trace)
  exact ⟨trace, result, hreadings, hlog,
    rbWait_keeps hslice hrb hexec (by dsimp only; rwa [hreadings])⟩

end RingBuff.Wait
