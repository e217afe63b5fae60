import Mathlib.Data.List.Chain
import RingBuff.Core.Layout
import RingBuff.Foundation.Client
import RingBuff.Threads.Machine

/-! # `rb_wait` against any environment

Between two threads `rb_wait` is part of the hand-shake with the producer. Here
it is on its own: the counters, the clock and the kernel may answer anything, and
what is shown is what the caller can rely on all the same. Every answer of the
environment is one step of an arbitrary automaton.
-/

namespace RingBuff.Wait

open Threads (etimedout einval)

/-- `EINTR`. -/
def eintr : Int := 4

/-- `EAGAIN`. -/
def eagain : Int := 11

/-- A value of `errno` after a system call has failed. -/
structure Errno where
  code : Nat
  pos : 0 < code
  deriving DecidableEq

/-- What `rb_futex_wait` returns: zero, or -1 with an `errno`. -/
inductive FutexAnswer where
  | ok
  | err (errno : Errno)
  deriving DecidableEq

/-- `struct timespec`. -/
structure Timespec where
  sec : UInt64
  nsec : UInt64
  deriving DecidableEq, Repr

/-- What `rb_wait` asks of its environment. -/
inductive WaitCall where
  | count
  | now
  | raiseWaiters
  | lowerWaiters
  | futexWait (expected : UInt32) (ts : Timespec)
  deriving DecidableEq, Repr

/-- What the environment would answer to each of these at some moment. -/
structure World where
  count : UInt32 := 0
  now : UInt64 := 0
  futex : FutexAnswer := .ok
  deriving DecidableEq

/-- `ts`. -/
def timespecOf (slice : UInt64) : Timespec := ⟨slice / 1000, slice % 1000 * 1000000⟩

/-- `deadline`. -/
def deadlineFor (timeoutMs : Int32) (start : UInt64) : UInt64 :=
  if 0 ≤ timeoutMs then start + UInt64.ofNat timeoutMs.toInt.toNat else 0 - 1

/-- `slice`. -/
def sliceFor (b : Build) (timeoutMs : Int32) (deadline now : UInt64) : UInt64 :=
  let remain := if 0 ≤ timeoutMs then deadline - now else b.waitSliceMs
  if remain < b.waitSliceMs then remain else b.waitSliceMs

/-- What `rb_wait` does with the result of its futex call; `again` is the next round
of its loop. -/
def afterFutex (timeoutMs : Int32) (deadline : UInt64)
    (again : Client WaitCall World (Option Int)) :
    FutexAnswer → Client WaitCall World (Option Int)
  | .ok => .done (some 0)
  | .err errno =>
      if errno.code = eagain then .done (some 0)
      else if errno.code = eintr then again
      else if errno.code = etimedout then
        if timeoutMs < 0 then again
        else .call .now fun w =>
          if deadline ≤ w.now then .done (some (-etimedout)) else again
      else .done (some (-errno.code))

/-- The loop of `rb_wait`; without fuel it has not returned. -/
def waitLoop (b : Build) (expected : UInt32) (timeoutMs : Int32) (deadline : UInt64) :
    Nat → Client WaitCall World (Option Int)
  | 0 => .done none
  | fuel + 1 =>
      .call .count fun w =>
        if w.count ≠ 0 then .done (some 0)
        else .call .now fun w =>
          if 0 ≤ timeoutMs ∧ deadline ≤ w.now then .done (some (-etimedout))
          else if sliceFor b timeoutMs deadline w.now = 0 then .done (some (-etimedout))
          else .call (.futexWait expected (timespecOf (sliceFor b timeoutMs deadline w.now)))
            fun w => afterFutex timeoutMs deadline (waitLoop b expected timeoutMs deadline fuel)
              w.futex

/-- `rb_wait`. -/
def rbWait (b : Build) (rb : Rb) (expected : UInt32) (timeoutMs : Int32) (fuel : Nat) :
    Client WaitCall World (Option Int) :=
  if rb.geo.scratchSize = 0 then .done (some (-einval))
  else .call .count fun w =>
    if w.count ≠ 0 then .done (some 0)
    else .call .now fun w =>
      .call .raiseWaiters fun _ =>
        (waitLoop b expected timeoutMs (deadlineFor timeoutMs w.now) fuel).bind fun
          | none => .done none
          | some result => .call .lowerWaiters fun _ => .done (some result)

/-! ## The contract -/

/-- The calls of a wait with their answers. -/
abbrev Trace : Type := List (WaitCall × World)

/-- The values `rb_count` returned. -/
def counts (trace : Trace) : List UInt32 :=
  trace.filterMap fun (c, w) => if c = .count then some w.count else none

/-- The clock readings. -/
def readings (trace : Trace) : List UInt64 :=
  trace.filterMap fun (c, w) => if c = .now then some w.now else none

/-- The results of the futex calls. -/
def futexAnswers (trace : Trace) : List FutexAnswer :=
  trace.filterMap fun (c, w) =>
    match c with
    | .futexWait _ _ => some w.futex
    | _ => none

/-- The length of a sleep in nanoseconds. -/
def Timespec.nanos (ts : Timespec) : Nat := ts.sec.toNat * 10 ^ 9 + ts.nsec.toNat

/-- A futex call comes right after a clock reading. It sleeps for at least one
millisecond, at most one slice, and not beyond the deadline. -/
def Sleeps (sliceMs : Nat) (deadline? : Option Nat) (previous next : WaitCall × World) : Prop :=
  match next.1 with
  | .futexWait _ ts =>
      previous.1 = .now ∧ 10 ^ 6 ≤ ts.nanos ∧ ts.nanos ≤ sliceMs * 10 ^ 6 ∧
        ∀ deadline, deadline? = some deadline →
          previous.2.now.toNat * 10 ^ 6 + ts.nanos ≤ deadline * 10 ^ 6
  | _ => True

/-- What the caller of `rb_wait` can conclude from its result. -/
structure Outcome (deadline? : Option Nat) (trace : Trace) (result : Int) : Prop where
  nonpos : result ≤ 0
  not_eintr : result ≠ -eintr
  not_eagain : result ≠ -eagain
  timedOut : result = -etimedout →
    ∃ deadline, deadline? = some deadline ∧ ∃ now ∈ readings trace, deadline ≤ now.toNat
  woken : result = 0 → (∃ n ∈ counts trace, n ≠ 0) ∨
    .ok ∈ futexAnswers trace ∨ ∃ errno : Errno, .err errno ∈ futexAnswers trace ∧
      errno.code = eagain
  failed : result < 0 → result ≠ -etimedout →
    ∃ errno, (futexAnswers trace).getLast? = some (.err errno) ∧ result = -errno.code

/-- What `rb_wait` promises, whether or not it has returned. -/
structure Contract (sliceMs : Nat) (deadline? : Option Nat) (trace : Trace)
    (result? : Option Int) : Prop where
  sleeps : trace.IsChain (Sleeps sliceMs deadline?)
  outcome : ∀ result, result? = some result → Outcome deadline? trace result

variable {sliceMs : Nat} {deadline? : Option Nat} {result? : Option Int}

theorem readings_append (front rest : Trace) :
    readings (front ++ rest) = readings front ++ readings rest := List.filterMap_append

theorem counts_append (front rest : Trace) :
    counts (front ++ rest) = counts front ++ counts rest := List.filterMap_append

theorem futexAnswers_append (front rest : Trace) :
    futexAnswers (front ++ rest) = futexAnswers front ++ futexAnswers rest :=
  List.filterMap_append

/-- What happened before does not matter. -/
theorem Outcome.prepend (front : Trace) {trace : Trace} {result : Int}
    (htrace : Outcome deadline? trace result) : Outcome deadline? (front ++ trace) result where
  nonpos := htrace.nonpos
  not_eintr := htrace.not_eintr
  not_eagain := htrace.not_eagain
  timedOut hresult := by
    obtain ⟨deadline, heq, now, hnow, hle⟩ := htrace.timedOut hresult
    refine ⟨deadline, heq, now, ?_, hle⟩
    rw [readings_append]
    exact List.mem_append_right _ hnow
  woken hresult := by
    rw [counts_append, futexAnswers_append]
    rcases htrace.woken hresult with ⟨n, hn, hne⟩ | hok | ⟨errno, herr, hagain⟩
    · exact Or.inl ⟨n, List.mem_append_right _ hn, hne⟩
    · exact Or.inr (Or.inl (List.mem_append_right _ hok))
    · exact Or.inr (Or.inr ⟨errno, List.mem_append_right _ herr, hagain⟩)
  failed hneg hne := by
    obtain ⟨errno, hlast, heq⟩ := htrace.failed hneg hne
    refine ⟨errno, ?_, heq⟩
    rw [futexAnswers_append, List.getLast?_append, hlast]
    rfl

/-- Nor does a last look at the number of waiters. -/
theorem Outcome.lowered {trace : Trace} {result : Int} (htrace : Outcome deadline? trace result)
    (w : World) : Outcome deadline? (trace ++ [(.lowerWaiters, w)]) result where
  nonpos := htrace.nonpos
  not_eintr := htrace.not_eintr
  not_eagain := htrace.not_eagain
  timedOut := by simpa [readings_append, readings] using htrace.timedOut
  woken := by
    simpa [counts_append, futexAnswers_append, counts, futexAnswers] using htrace.woken
  failed := by simpa [futexAnswers_append, futexAnswers] using htrace.failed

/-- A wait that goes on with `rb_count`. -/
theorem Contract.prepend {front trace : Trace}
    (htrace : Contract sliceMs deadline? trace result?)
    (hfront : front.IsChain (Sleeps sliceMs deadline?))
    (hhead : ∀ x ∈ trace.head?, x.1 = .count) :
    Contract sliceMs deadline? (front ++ trace) result? where
  sleeps := by
    refine List.isChain_append.mpr ⟨hfront, htrace.sleeps, fun x _ y hy => ?_⟩
    simp [Sleeps, hhead y hy]
  outcome result hresult := (htrace.outcome result hresult).prepend front

/-- A wait that returns. -/
theorem Contract.returned {trace : Trace} {result : Int}
    (hsleeps : trace.IsChain (Sleeps sliceMs deadline?))
    (hresult : Outcome deadline? trace result) :
    Contract sliceMs deadline? trace (some result) where
  sleeps := hsleeps
  outcome _ heq := Option.some.inj heq ▸ hresult

/-- A wait that ends because there is something to consume. -/
theorem Outcome.zero {trace : Trace}
    (hwoken : (∃ n ∈ counts trace, n ≠ 0) ∨ .ok ∈ futexAnswers trace ∨
      ∃ errno : Errno, .err errno ∈ futexAnswers trace ∧ errno.code = eagain) :
    Outcome deadline? trace 0 where
  nonpos := le_rfl
  not_eintr := by decide
  not_eagain := by decide
  timedOut hresult := absurd hresult (by decide)
  woken _ := hwoken
  failed hneg := absurd hneg (by decide)

/-- A wait that ends because the deadline has passed. -/
theorem Outcome.late {trace : Trace} {deadline : Nat} (hdeadline : deadline? = some deadline)
    {now : UInt64} (hnow : now ∈ readings trace) (hle : deadline ≤ now.toNat) :
    Outcome deadline? trace (-etimedout) where
  nonpos := by decide
  not_eintr := by decide
  not_eagain := by decide
  timedOut _ := ⟨deadline, hdeadline, now, hnow, hle⟩
  woken hresult := absurd hresult (by decide)
  failed _ hne := absurd rfl hne

/-- A wait that ends with another error of its futex call. -/
theorem Outcome.error {trace : Trace} {errno : Errno}
    (hlast : (futexAnswers trace).getLast? = some (.err errno)) (hagain : errno.code ≠ eagain)
    (hintr : errno.code ≠ eintr) (htimed : errno.code ≠ etimedout) :
    Outcome deadline? trace (-errno.code) where
  nonpos := by omega
  not_eintr := fun heq => hintr (neg_injective heq)
  not_eagain := fun heq => hagain (neg_injective heq)
  timedOut hresult := absurd (neg_injective hresult) htimed
  woken hresult := by
    have hpos := errno.pos
    omega
  failed _ _ := ⟨errno, hlast, rfl⟩

/-! ## The loop -/

theorem nanos_timespecOf (slice : UInt64) : (timespecOf slice).nanos = slice.toNat * 10 ^ 6 := by
  have hlt := slice.toNat_lt
  have hsec : (slice / 1000).toNat = slice.toNat / 1000 := rfl
  have hnsec : (slice % 1000 * 1000000).toNat = slice.toNat % 1000 * 1000000 := by
    rw [UInt64.toNat_mul]
    exact Nat.mod_eq_of_lt (by change slice.toNat % 1000 * 1000000 < 2 ^ 64; omega)
  rw [Timespec.nanos, timespecOf, hsec, hnsec]
  omega

/-- The deadline the loop works with, if there is one. -/
def deadlineOf (timeoutMs : Int32) (deadline : UInt64) : Option Nat :=
  if 0 ≤ timeoutMs then some deadline.toNat else none

variable {b : Build} {expected : UInt32} {timeoutMs : Int32} {deadline : UInt64}

/-- A slice is at most the configured one and ends by the deadline. -/
theorem sliceFor_le (b : Build) (timeoutMs : Int32) (deadline now : UInt64) :
    (sliceFor b timeoutMs deadline now).toNat ≤ b.waitSliceMs.toNat ∧
      (0 ≤ timeoutMs → now < deadline →
        now.toNat + (sliceFor b timeoutMs deadline now).toNat ≤ deadline.toNat) := by
  have hremain : now < deadline → (deadline - now).toNat = deadline.toNat - now.toNat :=
    fun hlt => UInt64.toNat_sub_of_le _ _ (UInt64.le_of_lt hlt)
  unfold sliceFor
  dsimp only
  split_ifs with htimeout hshort hshort
  · have hle := (UInt64.lt_iff_toNat_lt.mp hshort).le
    refine ⟨hle, fun _ hlt => ?_⟩
    have hnow := UInt64.lt_iff_toNat_lt.mp hlt
    rw [hremain hlt]
    omega
  · refine ⟨le_rfl, fun _ hlt => ?_⟩
    have hnow := UInt64.lt_iff_toNat_lt.mp hlt
    have hlong := UInt64.le_iff_toNat_le.mp (UInt64.not_lt.mp hshort)
    rw [hremain hlt] at hlong
    omega
  · exact ⟨le_rfl, fun hpos => absurd hpos htimeout⟩
  · exact ⟨le_rfl, fun hpos => absurd hpos htimeout⟩

/-- The futex call of the loop. -/
theorem sleeps_futexWait {w w' : World} (hearly : ¬ (0 ≤ timeoutMs ∧ deadline ≤ w.now))
    (hslice : sliceFor b timeoutMs deadline w.now ≠ 0) :
    Sleeps b.waitSliceMs.toNat (deadlineOf timeoutMs deadline) (.now, w)
      (.futexWait expected (timespecOf (sliceFor b timeoutMs deadline w.now)), w') := by
  have hpos : 0 < (sliceFor b timeoutMs deadline w.now).toNat :=
    Nat.pos_of_ne_zero fun hzero => hslice (UInt64.toNat_inj.mp hzero)
  obtain ⟨hle, hends⟩ := sliceFor_le b timeoutMs deadline w.now
  refine ⟨rfl, ?_, ?_, ?_⟩
  · rw [nanos_timespecOf]
    omega
  · rw [nanos_timespecOf]
    exact Nat.mul_le_mul_right _ hle
  · intro d hd
    simp only [deadlineOf, Option.ite_none_right_eq_some, Option.some.injEq] at hd
    obtain ⟨htimeout, rfl⟩ := hd
    have hend := hends htimeout (UInt64.not_le.mp fun hle => hearly ⟨htimeout, hle⟩)
    rw [nanos_timespecOf, ← Nat.add_mul]
    exact Nat.mul_le_mul_right _ hend

/-- If the configured slice is not zero, no slice is: before the deadline there is
time left. -/
theorem sliceFor_ne_zero (hslice : 0 < b.waitSliceMs) {now : UInt64}
    (hearly : ¬ (0 ≤ timeoutMs ∧ deadline ≤ now)) : sliceFor b timeoutMs deadline now ≠ 0 := by
  have hne : b.waitSliceMs ≠ 0 := fun hzero => by simp [hzero] at hslice
  unfold sliceFor
  dsimp only
  split_ifs with htimeout hshort hshort
  · have hlt : now < deadline := UInt64.not_le.mp fun hle => hearly ⟨htimeout, hle⟩
    intro hzero
    have hnat := congrArg UInt64.toNat hzero
    rw [UInt64.toNat_sub_of_le _ _ (UInt64.le_of_lt hlt)] at hnat
    have hnow := UInt64.lt_iff_toNat_lt.mp hlt
    change _ = 0 at hnat
    omega
  all_goals exact hne

/-- Every execution keeps the contract, and it starts with `rb_count`. -/
def Keeps (sliceMs : Nat) (deadline? : Option Nat) (p : Client WaitCall World (Option Int))
    {σ : Type*} (env : Automaton σ WaitCall World) : Prop :=
  ∀ {state : σ} {e : Execution WaitCall World (Option Int) σ}, env.exec p state = some e →
    Contract sliceMs deadline? e.trace e.result ∧ ∀ x ∈ e.trace.head?, x.1 = .count

/-- The rest of a round, after a futex call that ended `front`. -/
theorem afterFutex_contract {σ : Type*} {env : Automaton σ WaitCall World}
    {again : Client WaitCall World (Option Int)}
    (hagain : Keeps sliceMs (deadlineOf timeoutMs deadline) again env) {front : Trace}
    {answer : FutexAnswer}
    (hsleeps : front.IsChain (Sleeps sliceMs (deadlineOf timeoutMs deadline)))
    (hlast : (futexAnswers front).getLast? = some answer) {state : σ}
    {e : Execution WaitCall World (Option Int) σ}
    (hexec : env.exec (afterFutex timeoutMs deadline again answer) state = some e) :
    Contract sliceMs (deadlineOf timeoutMs deadline) (front ++ e.trace) e.result := by
  have hmem : answer ∈ futexAnswers front := List.mem_of_getLast? hlast
  cases answer with
  | ok =>
      obtain rfl := Option.some.inj hexec
      rw [List.append_nil]
      exact .returned hsleeps (.zero (Or.inr (Or.inl hmem)))
  | err errno =>
      simp only [afterFutex] at hexec
      split_ifs at hexec with hisAgain hintr htimed hforever
      · obtain rfl := Option.some.inj hexec
        rw [List.append_nil]
        exact .returned hsleeps (.zero (Or.inr (Or.inr ⟨errno, hmem, hisAgain⟩)))
      · obtain ⟨hcontract, hhead⟩ := hagain hexec
        exact hcontract.prepend hsleeps hhead
      · obtain ⟨hcontract, hhead⟩ := hagain hexec
        exact hcontract.prepend hsleeps hhead
      · -- one more look at the clock
        obtain ⟨w, middle, rest, -, hrest, rfl⟩ := env.exec_call_eq_some.mp hexec
        have hsleeps' : (front ++ [(WaitCall.now, w)]).IsChain
            (Sleeps sliceMs (deadlineOf timeoutMs deadline)) :=
          List.isChain_append.mpr ⟨hsleeps, List.isChain_singleton _, fun x _ y hy =>
            Option.some.inj hy ▸ trivial⟩
        dsimp only
        rw [List.append_cons]
        split_ifs at hrest with hlate
        · obtain rfl := Option.some.inj hrest
          rw [List.append_nil]
          exact .returned hsleeps' (.late (if_pos (Int32.not_lt.mp hforever))
            (readings_append front _ ▸ List.mem_append_right _ (by simp [readings]))
            (UInt64.le_iff_toNat_le.mp hlate))
        · obtain ⟨hcontract, hhead⟩ := hagain hrest
          exact hcontract.prepend hsleeps' hhead
      · obtain rfl := Option.some.inj hexec
        rw [List.append_nil]
        exact .returned hsleeps (.error hlast hisAgain hintr htimed)

theorem waitLoop_keeps (hslice : 0 < b.waitSliceMs) {σ : Type*}
    (env : Automaton σ WaitCall World) (fuel : Nat) :
    Keeps b.waitSliceMs.toNat (deadlineOf timeoutMs deadline)
      (waitLoop b expected timeoutMs deadline fuel) env := by
  induction fuel with
  | zero =>
      intro state e hexec
      obtain rfl := Option.some.inj hexec
      exact ⟨⟨.nil, (by rintro result ⟨⟩)⟩, (by rintro x ⟨⟩)⟩
  | succ fuel ih =>
      intro state e hexec
      obtain ⟨w₀, s₀, rest₀, -, h₀, rfl⟩ := env.exec_call_eq_some.mp hexec
      refine ⟨?_, fun x hx => Option.some.inj hx ▸ rfl⟩
      dsimp only
      split_ifs at h₀ with hcount
      · -- there is something to consume
        obtain rfl := Option.some.inj h₀
        exact .returned (List.isChain_singleton _)
          (.zero (Or.inl ⟨w₀.count, by simp [counts], hcount⟩))
      obtain ⟨w₁, s₁, rest₁, -, h₁, rfl⟩ := env.exec_call_eq_some.mp h₀
      split_ifs at h₁ with hlate hzero
      · -- the deadline has passed
        obtain rfl := Option.some.inj h₁
        exact .returned (by simp [Sleeps]) (.late (if_pos hlate.1) (by simp [readings])
          (UInt64.le_iff_toNat_le.mp hlate.2))
      · exact absurd hzero (sliceFor_ne_zero hslice hlate)
      obtain ⟨w₂, s₂, rest₂, -, h₂, rfl⟩ := env.exec_call_eq_some.mp h₁
      have hsleeps : [(.count, w₀), (.now, w₁),
          (.futexWait expected (timespecOf (sliceFor b timeoutMs deadline w₁.now)), w₂)].IsChain
            (Sleeps b.waitSliceMs.toNat (deadlineOf timeoutMs deadline)) := by
        simp only [List.isChain_cons_cons, List.isChain_singleton, and_true]
        exact ⟨trivial, sleeps_futexWait hlate hzero⟩
      exact afterFutex_contract ih hsleeps (by simp [futexAnswers]) h₂

/-- The loop leaves the number of waiters alone. -/
def WaitCall.asks (c : WaitCall) : Prop := c ≠ .raiseWaiters ∧ c ≠ .lowerWaiters

theorem waitLoop_asks (fuel : Nat) :
    (waitLoop b expected timeoutMs deadline fuel).All WaitCall.asks := by
  induction fuel with
  | zero => trivial
  | succ fuel ih =>
      have hafter : ∀ answer, (afterFutex timeoutMs deadline
          (waitLoop b expected timeoutMs deadline fuel) answer).All WaitCall.asks := by
        intro answer
        cases answer with
        | ok => trivial
        | err errno =>
            simp only [afterFutex]
            split_ifs
            · trivial
            · exact ih
            · exact ih
            · refine ⟨by simp [WaitCall.asks], fun w => ?_⟩
              dsimp only
              split_ifs
              · trivial
              · exact ih
            · trivial
      refine ⟨by simp [WaitCall.asks], fun w₀ => ?_⟩
      dsimp only
      split_ifs
      · trivial
      refine ⟨by simp [WaitCall.asks], fun w₁ => ?_⟩
      dsimp only
      split_ifs
      · trivial
      · trivial
      · exact ⟨by simp [WaitCall.asks], fun w₂ => hafter w₂.futex⟩

/-! ## The whole call -/

/-- The deadline the caller asked for: `timeout_ms` after the first clock reading. -/
def dueAt (timeoutMs : Int32) (trace : Trace) : Option Nat :=
  if 0 ≤ timeoutMs then (readings trace).head?.map fun start => start.toNat + timeoutMs.toInt.toNat
  else none

/-- The deadline does not overflow. -/
theorem deadlineOf_deadlineFor {start : UInt64} (hstart : start.toNat < 2 ^ 63) :
    deadlineOf timeoutMs (deadlineFor timeoutMs start) =
      if 0 ≤ timeoutMs then some (start.toNat + timeoutMs.toInt.toNat) else none := by
  have hlt : timeoutMs.toInt < 2 ^ 31 := timeoutMs.toInt_lt
  unfold deadlineOf deadlineFor
  split_ifs
  · rw [UInt64.toNat_add, UInt64.toNat_ofNat_of_lt' (by change _ < 2 ^ 64; omega),
      Nat.mod_eq_of_lt (by omega)]
  · rfl

section Call

variable {b : Build} {rb : Rb} {σ : Type*} {env : Automaton σ WaitCall World} {fuel : Nat}
  {state : σ} {e : Execution WaitCall World (Option Int) σ}

theorem rbWait_keeps (hslice : 0 < b.waitSliceMs) (hrb : rb.geo.scratchSize ≠ 0)
    (hexec : env.exec (rbWait b rb expected timeoutMs fuel) state = some e)
    (hclock : ∀ now ∈ readings e.trace, now.toNat < 2 ^ 63) :
    Contract b.waitSliceMs.toNat (dueAt timeoutMs e.trace) e.trace e.result := by
  rw [rbWait, if_neg hrb] at hexec
  obtain ⟨w₀, s₀, rest₀, -, h₀, rfl⟩ := env.exec_call_eq_some.mp hexec
  dsimp only at hclock ⊢
  split_ifs at h₀ with hcount
  · obtain rfl := Option.some.inj h₀
    exact .returned (List.isChain_singleton _)
      (.zero (Or.inl ⟨w₀.count, by simp [counts], hcount⟩))
  obtain ⟨w₁, s₁, rest₁, -, h₁, rfl⟩ := env.exec_call_eq_some.mp h₀
  obtain ⟨w₂, s₂, rest₂, -, h₂, rfl⟩ := env.exec_call_eq_some.mp h₁
  obtain ⟨loop, final, hloop, hfinal, rfl⟩ := env.exists_exec_of_bind h₂
  dsimp only at hclock ⊢
  have hdue : dueAt timeoutMs ((.count, w₀) :: (.now, w₁) :: (.raiseWaiters, w₂) ::
      (loop.trace ++ final.trace)) = deadlineOf timeoutMs (deadlineFor timeoutMs w₁.now) := by
    rw [deadlineOf_deadlineFor (hclock w₁.now (by simp [readings]))]
    simp [dueAt, readings]
  have hcontract : Contract b.waitSliceMs.toNat
      (deadlineOf timeoutMs (deadlineFor timeoutMs w₁.now))
      ([(.count, w₀), (.now, w₁), (.raiseWaiters, w₂)] ++ loop.trace) loop.result := by
    obtain ⟨hkept, hhead⟩ := waitLoop_keeps hslice env fuel hloop
    exact hkept.prepend (by simp [Sleeps]) hhead
  rw [hdue]
  cases hreturned : loop.result with
  | none =>
      -- the loop has not returned, nor has the call
      rw [hreturned] at hfinal hcontract
      obtain rfl := Option.some.inj hfinal
      dsimp only
      rw [List.append_nil]
      exact hcontract
  | some result =>
      rw [hreturned] at hfinal hcontract
      obtain ⟨w₃, s₃, rest₃, -, h₃, rfl⟩ := env.exec_call_eq_some.mp hfinal
      obtain rfl := Option.some.inj h₃
      refine .returned ?_ ((hcontract.outcome result rfl).lowered w₃)
      refine List.isChain_append.mpr ⟨hcontract.sleeps, List.isChain_singleton _,
        fun x _ y hy => ?_⟩
      obtain rfl := Option.some.inj hy
      trivial

/-- When it returns, `rb_wait` has lowered the number of waiters as often as it has
raised it. -/
theorem rbWait_balanced (hexec : env.exec (rbWait b rb expected timeoutMs fuel) state = some e)
    (hreturned : e.result.isSome) :
    (e.trace.map Prod.fst).count .raiseWaiters = (e.trace.map Prod.fst).count .lowerWaiters := by
  unfold rbWait at hexec
  split_ifs at hexec
  · obtain rfl := Option.some.inj hexec
    rfl
  obtain ⟨w₀, s₀, rest₀, -, h₀, rfl⟩ := env.exec_call_eq_some.mp hexec
  dsimp only at hreturned ⊢
  split_ifs at h₀
  · obtain rfl := Option.some.inj h₀
    rfl
  obtain ⟨w₁, s₁, rest₁, -, h₁, rfl⟩ := env.exec_call_eq_some.mp h₀
  obtain ⟨w₂, s₂, rest₂, -, h₂, rfl⟩ := env.exec_call_eq_some.mp h₁
  obtain ⟨loop, final, hloop, hfinal, rfl⟩ := env.exists_exec_of_bind h₂
  cases hresult : loop.result with
  | none =>
      rw [hresult] at hfinal
      obtain rfl := Option.some.inj hfinal
      cases hreturned
  | some result =>
      rw [hresult] at hfinal
      obtain ⟨w₃, s₃, rest₃, -, h₃, rfl⟩ := env.exec_call_eq_some.mp hfinal
      obtain rfl := Option.some.inj h₃
      have hasks := env.forall_trace_of_all (waitLoop_asks fuel) hloop
      have hnone : ∀ c : WaitCall, ¬ c.asks → (loop.trace.map Prod.fst).count c = 0 := by
        intro c hc
        refine List.count_eq_zero.mpr fun hmem => ?_
        obtain ⟨x, hx, rfl⟩ := List.mem_map.mp hmem
        exact hc (hasks x hx)
      simp [hnone .raiseWaiters (by simp [WaitCall.asks]),
        hnone .lowerWaiters (by simp [WaitCall.asks])]

end Call

/-- Whatever the environment answers, as long as the clock stays below `2 ^ 63`
milliseconds: `rb_wait` keeps its contract, and when it returns it has lowered the
number of waiters as often as it has raised it. -/
theorem rbWait_contract {b : Build} (hslice : 0 < b.waitSliceMs) {rb : Rb}
    (hrb : rb.geo.scratchSize ≠ 0) (expected : UInt32) (timeoutMs : Int32) {σ : Type*}
    (env : Automaton σ WaitCall World) {fuel : Nat} {state : σ}
    {e : Execution WaitCall World (Option Int) σ}
    (hexec : env.exec (rbWait b rb expected timeoutMs fuel) state = some e)
    (hclock : ∀ now ∈ readings e.trace, now.toNat < 2 ^ 63) :
    Contract b.waitSliceMs.toNat (dueAt timeoutMs e.trace) e.trace e.result ∧
      (e.result.isSome → (e.trace.map Prod.fst).count .raiseWaiters =
        (e.trace.map Prod.fst).count .lowerWaiters) :=
  ⟨rbWait_keeps hslice hrb hexec hclock, rbWait_balanced hexec⟩

/-- An environment that answers from a script. -/
def script : Automaton (List World) WaitCall World where
  step
    | [], _ => none
    | w :: rest, _ => some (w, rest)

theorem script_run (trace : Trace) :
    script.run (trace.map Prod.snd) (trace.map Prod.fst) = some (trace.map Prod.snd, []) := by
  induction trace with
  | nil => rfl
  | cons x trace ih => exact script.run_cons_eq_some.mpr ⟨_, _, _, rfl, ih, rfl⟩

/-- A wait of 250 ms that is interrupted, then sleeps one slice, then finds its
deadline passed. -/
def lateWorlds : List World :=
  [{}, { now := 1000 }, {},
    {}, { now := 1000 }, { futex := .err ⟨4, by decide⟩ },
    {}, { now := 1050 }, { futex := .err ⟨110, by decide⟩ }, { now := 1150 },
    {}, { now := 1250 }, {}]

theorem rbWait_late :
    ∃ e, script.exec (rbWait { mode := .index } (smallRing .index) 0 250 3) lateWorlds = some e ∧
      e.result = some (-110) ∧
      Contract 100 (some 1250) e.trace (some (-110)) ∧
      (e.trace.map Prod.fst).count .raiseWaiters =
        (e.trace.map Prod.fst).count .lowerWaiters := by
  have hrun : (script.exec (rbWait { mode := .index } (smallRing .index) 0 250 3)
      lateWorlds).map (fun e => (e.result, readings e.trace)) =
        some (some (-110), [1000, 1000, 1050, 1150, 1250]) := by decide
  obtain ⟨e, hexec, heq⟩ := Option.map_eq_some_iff.mp hrun
  obtain ⟨hresult, hreadings⟩ := Prod.mk.inj heq
  obtain ⟨hcontract, hwaiters⟩ := rbWait_contract (b := { mode := .index }) (by decide)
    (show (smallRing .index).geo.scratchSize ≠ 0 by decide) 0 250 script hexec
    (by rw [hreadings]; simp)
  rw [dueAt, hreadings, hresult] at hcontract
  exact ⟨e, hexec, hresult, hcontract, hwaiters (by rw [hresult]; rfl)⟩

/-- A build whose slice is zero never sleeps: if there is nothing to consume, the wait
counts as timed out whatever the caller asked for. -/
theorem waitLoop_zero_slice {b : Build} (hslice : b.waitSliceMs = 0) {σ : Type*}
    (env : Automaton σ WaitCall World) {fuel : Nat} {state : σ}
    {e : Execution WaitCall World (Option Int) σ}
    (hexec : env.exec (waitLoop b expected timeoutMs deadline (fuel + 1)) state = some e) :
    futexAnswers e.trace = [] ∧ (e.result = some 0 ∨ e.result = some (-etimedout)) := by
  have hzero : ∀ now, sliceFor b timeoutMs deadline now = 0 := by
    intro now
    simp [sliceFor, hslice]
  obtain ⟨w₀, s₀, rest₀, -, h₀, rfl⟩ := env.exec_call_eq_some.mp hexec
  dsimp only at h₀ ⊢
  split_ifs at h₀
  · obtain rfl := Option.some.inj h₀
    exact ⟨rfl, Or.inl rfl⟩
  obtain ⟨w₁, s₁, rest₁, -, h₁, rfl⟩ := env.exec_call_eq_some.mp h₀
  rw [if_pos (hzero w₁.now), ite_self] at h₁
  obtain rfl := Option.some.inj h₁
  exact ⟨rfl, Or.inr rfl⟩

end RingBuff.Wait
