import RingBuff.Threads.Counters

/-! # Occupancy estimates

Each thread knows its own counter and has an old value of the other's. The
producer therefore never computes less than the true occupancy and the consumer
never more, whatever the other side does meanwhile and however often the counters
have wrapped.

`rb_count` loads both counters. Its two loads are separate steps here, in either
order, with moves of the other thread in between; only one of the counters can
change during the call.
-/

namespace RingBuff.Threads

variable {b : Build} {s s' : Sys}

/-- The number of messages in the ring: stores of `head` that no store of `tail`
has answered. -/
def Sys.occupancy (s : Sys) : Nat := s.p.published - s.c.released

/-- An estimate of the producer: it errs upwards, and not beyond the limit. -/
def Sys.Covers (s : Sys) (count : UInt32) : Prop :=
  s.occupancy ≤ count.toNat ∧ count.toNat ≤ s.rb.limit.toNat

/-- `old_count` and `new_count` of `rb_release`, as long as it needs them. -/
def ConsumerPc.counts : ConsumerPc → Option (UInt32 × UInt32)
  | .relClear oldCount newCount | .relLowD oldCount newCount | .relClearUp oldCount newCount
  | .relLowE oldCount newCount => some (oldCount, newCount)
  | .idle | .conTail | .conHead _ | .conEntry _ | .conStale _ _ | .conHeader _ | .relTail _
  | .relStamp _ _ | .relStore _ | .relFireE | .waitCount _ _ | .waitStart _ _ | .waitRaise _
  | .waitCheck _ | .waitNow _ | .waitFutex _ | .waitAsleep _ | .waitLate _ | .waitLower _
  | .fdRead => none

/-- The occupancies the threads compute in this state. A count that is only compared
is given with the move it decides, one that is kept with the state that holds it. -/
structure Estimates (b : Build) (s : Sys) : Prop where
  /-- `rb_acquire`, from the cached tail. -/
  cached : ∀ w, s.p.pc = .acqHead w →
    ∃ count, count = s.rb.head - s.rb.cachedTail ∧ s.Covers count ∧
      s.producerNext b =
        if s.rb.limit ≤ count then s.goP (.acqTail w s.rb.head)
        else s.finishAcquire b w s.rb.head
  /-- `rb_acquire`, from the tail it loads. -/
  loaded : ∀ w head, s.p.pc = .acqTail w head →
    ∃ count, count = head - s.rb.tail ∧ s.Covers count ∧
      s.producerNext b =
        if s.rb.limit ≤ count then s.refreshTail.noteFullAttempt.returnP (.code .full)
        else s.refreshTail.finishAcquire b w head
  /-- `rb_publish_ex`, when it loads the tail. -/
  published : ∀ m head, s.p.pc = .pubTail m head →
    ∃ count, (s.producerNext b).p.pc = .pubAdded m count ∧ s.Covers count
  /-- The consumer can only make the estimate more generous before it is used. -/
  added : ∀ m count, s.p.pc = .pubAdded m count → s.Covers count
  /-- `rb_release`, when it has stored the tail: the difference does not wrap, and it
  is at most what is left. -/
  released : ∀ tail s', s.c.pc = .relStore tail → s.consumerStep b = some s' →
    ∃ oldCount newCount, s'.c.pc.counts = some (oldCount, newCount) ∧
      oldCount = s.rb.cachedHead - tail ∧ newCount.toNat + 1 = oldCount.toNat ∧
      newCount.toNat ≤ s'.occupancy
  /-- The producer can only add to what is left before the counts are used. -/
  kept : ∀ oldCount newCount, s.c.pc.counts = some (oldCount, newCount) →
    newCount.toNat + 1 = oldCount.toNat ∧ newCount.toNat ≤ s.occupancy

namespace Counted

theorem occupancy_eq (hok : Counted s) : (s.rb.head - s.rb.tail).toNat = s.occupancy :=
  hok.count_eq

theorem occupancy_le (hok : Counted s) : s.occupancy ≤ s.rb.limit.toNat := by
  have hle := hok.published_le
  unfold Sys.occupancy
  omega

/-- What the producer computes from a tail it knows. -/
theorem covers_known (hok : Counted s) :
    s.Covers (UInt32.ofNat (s.p.published - s.p.knownTail)) := by
  have hroom := hok.producer.room
  have hlimit := hok.sized.limit_le
  have hknown := hok.producer.knownTail_le
  unfold Sys.Covers Sys.occupancy
  rw [UInt32.toNat_ofNat_of_lt' (by change _ < 2 ^ 32; omega)]
  omega

theorem covers_cached (hok : Counted s) : s.Covers (s.rb.head - s.rb.cachedTail) := by
  rw [hok.producer.head, hok.producer.cachedTail,
    ← UInt32.ofNat_sub hok.producer.knownTail_le_published]
  exact hok.covers_known

/-- What the producer computes from the tail it has just loaded is exact. -/
theorem covers_loaded (hok : Counted s) : s.Covers (s.rb.head - s.rb.tail) := by
  unfold Sys.Covers
  rw [hok.occupancy_eq]
  exact ⟨le_rfl, hok.occupancy_le⟩

/-- What the consumer computes from the head it knows. -/
theorem kept_counts (hok : Counted s) {oldCount newCount : UInt32}
    (hcounts : s.c.pc.counts = some (oldCount, newCount)) :
    newCount.toNat + 1 = oldCount.toNat ∧ newCount.toNat ≤ s.occupancy := by
  have hlocals : newCount = UInt32.ofNat (s.c.knownHead - s.c.released) ∧
      oldCount = UInt32.ofNat (s.c.knownHead - s.c.released + 1) := by
    have hlocals := hok.consumer.locals
    unfold ConsumerLocals at hlocals
    cases hpc : s.c.pc <;> simp only [hpc, ConsumerPc.counts, reduceCtorEq, Option.some.injEq,
      Prod.mk.injEq] at hcounts <;> rw [hpc] at hlocals
    all_goals
      obtain ⟨rfl, rfl⟩ := hcounts
      exact hlocals
  have hknown := hok.consumer.knownHead_le
  have hle := hok.published_le
  have hlimit := hok.sized.limit_le
  rw [hlocals.1, hlocals.2, UInt32.toNat_ofNat_of_lt' (by change _ < 2 ^ 32; omega),
    UInt32.toNat_ofNat_of_lt' (by change _ < 2 ^ 32; omega)]
  unfold Sys.occupancy
  omega

theorem estimates (hok : Counted s) : Estimates b s where
  cached w hpc := ⟨_, rfl, hok.covers_cached, by simp only [Sys.producerNext, hpc]⟩
  loaded w head hpc := by
    refine ⟨_, rfl, ?_, by simp only [Sys.producerNext, hpc]⟩
    have hlocals := hok.producer.locals
    simp only [ProducerLocals, hpc] at hlocals
    rw [hlocals.2]
    exact hok.covers_loaded
  published m head hpc := by
    have hlocals := hok.producer.locals
    simp only [ProducerLocals, hpc] at hlocals
    refine ⟨head + 1 - s.rb.tail, by simp only [Sys.producerNext, hpc, Sys.goP], ?_⟩
    rw [hlocals]
    exact hok.covers_loaded
  added m count hpc := by
    have hlocals := hok.producer.locals
    simp only [ProducerLocals, hpc] at hlocals
    rw [hlocals]
    exact hok.covers_known
  released tail s' hpc hnext := by
    -- the store keeps the invariant, so the counts are those of the state it leads to
    have hok' : Counted s' := step_counted hok (show step b s .consumer = some s' from hnext)
    simp only [Sys.consumerStep, hpc] at hnext
    obtain rfl := Option.some.inj hnext
    have hcounts : (s.crossing (s.rb.cachedHead - (tail + 1) + 1)
        (s.rb.cachedHead - (tail + 1))).counts =
          some (s.rb.cachedHead - (tail + 1) + 1, s.rb.cachedHead - (tail + 1)) := by
      simp only [Sys.crossing]
      split_ifs <;> rfl
    obtain ⟨hsucc, hle⟩ := hok'.kept_counts hcounts
    exact ⟨_, _, hcounts, by grind, hsucc, hle⟩
  kept _ _ hcounts := hok.kept_counts hcounts

end Counted

/-! ## `rb_count` -/

inductive Side where
  | producer
  | consumer
  deriving DecidableEq, Repr

/-- The counter a thread stores. -/
def Side.counter (rb : Rb) : Side → UInt32
  | .producer => rb.head
  | .consumer => rb.tail

def Act.side (a : Act) : Side := if a.byProducer then .producer else .consumer

/-- A `rb_count` in progress: what it has loaded, and the occupancies there have
been since it was called. -/
structure CountCall where
  head : Option UInt32 := none
  tail : Option UInt32 := none
  seen : List Nat
  deriving DecidableEq, Repr

def CountCall.see (call : CountCall) (occupancy : Nat) : CountCall :=
  { call with seen := occupancy :: call.seen }

/-- The system, and the `rb_count` each thread may be in. -/
structure Counting where
  sys : Sys
  p : Option CountCall := none
  c : Option CountCall := none

namespace Counting

def call (st : Counting) : Side → Option CountCall
  | .producer => st.p
  | .consumer => st.c

def setCall (st : Counting) (call : Option CountCall) : Side → Counting
  | .producer => { st with p := call }
  | .consumer => { st with c := call }

/-- The thread is outside of any operation. -/
def free (st : Counting) : Side → Bool
  | .producer => st.sys.p.pc = .idle ∧ st.p.isNone
  | .consumer => st.sys.c.pc = .idle ∧ st.c.isNone

end Counting

inductive CountMove where
  | act (a : Act)
  | enter (side : Side)
  | loadHead (side : Side)
  | loadTail (side : Side)
  | leave (side : Side)
  deriving DecidableEq, Repr

/-- One move. The output is what a `rb_count` returns, with the occupancies during
the call. -/
def countStep (b : Build) (st : Counting) :
    CountMove → Option (Option (UInt32 × List Nat) × Counting)
  | .act a =>
      if (st.call a.side).isSome then none
      else (step b st.sys a).map fun s =>
        (none, ⟨s, st.p.map (·.see s.occupancy), st.c.map (·.see s.occupancy)⟩)
  | .enter side =>
      if st.free side then
        if st.sys.rb.geo.scratchSize = 0 then some (some (0, [st.sys.occupancy]), st)
        else some (none, st.setCall (some { seen := [st.sys.occupancy] }) side)
      else none
  | .loadHead side =>
      match st.call side with
      | some call =>
          if call.head.isSome then none
          else some (none, st.setCall (some { call with head := some st.sys.rb.head }) side)
      | none => none
  | .loadTail side =>
      match st.call side with
      | some call =>
          if call.tail.isSome then none
          else some (none, st.setCall (some { call with tail := some st.sys.rb.tail }) side)
      | none => none
  | .leave side =>
      match st.call side with
      | some ⟨some head, some tail, seen⟩ => some (some (head - tail, seen), st.setCall none side)
      | _ => none

/-- The two threads, with calls of `rb_count`. -/
def counting (b : Build) : Automaton Counting CountMove (Option (UInt32 × List Nat)) where
  step := countStep b

/-- What a call has loaded so far. The caller's own counter does not change during
the call; the difference to the other one was the occupancy when that was loaded. -/
def CountCall.Reads (call : CountCall) (s : Sys) : Side → Prop
  | .producer => (∀ head, call.head = some head → head = s.rb.head) ∧
      ∀ tail, call.tail = some tail → (s.rb.head - tail).toNat ∈ call.seen
  | .consumer => (∀ tail, call.tail = some tail → tail = s.rb.tail) ∧
      ∀ head, call.head = some head → (head - s.rb.tail).toNat ∈ call.seen

structure CountCall.Sound (call : CountCall) (s : Sys) (side : Side) : Prop where
  now : s.occupancy ∈ call.seen
  bounded : ∀ n ∈ call.seen, n ≤ s.rb.limit.toNat
  reads : call.Reads s side

namespace CountCall.Sound

variable {call : CountCall} {side : Side}

theorem enter (hok : Counted s) (side : Side) :
    CountCall.Sound { seen := [s.occupancy] } s side where
  now := List.mem_singleton_self _
  bounded n hn := List.mem_singleton.mp hn ▸ hok.occupancy_le
  reads := by
    cases side with
    | producer | consumer =>
        exact ⟨by rintro v ⟨⟩, by rintro v ⟨⟩⟩

theorem loadHead (hcall : call.Sound s side) (hok : Counted s) :
    CountCall.Sound { call with head := some s.rb.head } s side where
  now := hcall.now
  bounded := hcall.bounded
  reads := by
    cases side with
    | producer => exact ⟨by rintro v ⟨⟩; rfl, hcall.reads.2⟩
    | consumer =>
        refine ⟨hcall.reads.1, ?_⟩
        rintro v ⟨⟩
        exact hok.occupancy_eq ▸ hcall.now

theorem loadTail (hcall : call.Sound s side) (hok : Counted s) :
    CountCall.Sound { call with tail := some s.rb.tail } s side where
  now := hcall.now
  bounded := hcall.bounded
  reads := by
    cases side with
    | consumer => exact ⟨by rintro v ⟨⟩; rfl, hcall.reads.2⟩
    | producer =>
        refine ⟨hcall.reads.1, ?_⟩
        rintro v ⟨⟩
        exact hok.occupancy_eq ▸ hcall.now

/-- A move of the other thread. -/
theorem see (hcall : call.Sound s side) (hok' : Counted s') (hlimit : s'.rb.limit = s.rb.limit)
    (hown : side.counter s'.rb = side.counter s.rb) :
    CountCall.Sound (call.see s'.occupancy) s' side where
  now := List.mem_cons_self
  bounded n hn := by
    rcases List.mem_cons.mp hn with rfl | hn
    · exact hok'.occupancy_le
    · exact hlimit ▸ hcall.bounded n hn
  reads := by
    cases side with
    | producer | consumer =>
        simp only [Side.counter] at hown
        exact ⟨fun v hv => hown ▸ hcall.reads.1 v hv,
          fun v hv => List.mem_cons_of_mem _ (hown ▸ hcall.reads.2 v hv)⟩

/-- What the call returns was the occupancy at some time during the call. -/
theorem leave {head tail : UInt32} {seen : List Nat}
    (hcall : CountCall.Sound ⟨some head, some tail, seen⟩ s side) :
    (head - tail).toNat ∈ seen := by
  cases side with
  | producer => exact hcall.reads.1 head rfl ▸ hcall.reads.2 tail rfl
  | consumer => exact hcall.reads.1 tail rfl ▸ hcall.reads.2 head rfl

end CountCall.Sound

/-- A ring without a scratchpad stays empty. -/
theorem step_dormant {a : Act} (hstep : step b s a = some s') (hinit : s.rb.geo.scratchSize = 0)
    (hpc : s.p.pc = .idle) : s'.p.published = s.p.published ∧ s'.p.pc = .idle := by
  rcases step_moves hstep with hmove | hmove
  · cases hmove with
    | acquire w hidle =>
        unfold Sys.startAcquire
        rw [if_pos hinit]
        exact ⟨rfl, rfl⟩
    | write offset byte hidle => exact ⟨rfl, rfl⟩
    | publish i n t hidle =>
        unfold Sys.startPublish
        rw [if_pos hinit]
        exact ⟨rfl, rfl⟩
    | abort hidle => exact ⟨rfl, rfl⟩
    | next =>
        simp only [Sys.producerNext, hpc]
        exact ⟨trivial, trivial⟩
    | eventfdFails m head hfd => rw [hpc] at hfd; cases hfd
  · rw [hmove.frame.side]
    exact ⟨rfl, hpc⟩

/-- What holds in every state of a run with calls of `rb_count`. -/
structure Counting.Ok (rb : Rb) (st : Counting) : Prop where
  counted : Counted st.sys
  settings : st.sys.rb.settings = rb.settings
  calls : ∀ side call, st.call side = some call → call.Sound st.sys side
  dormant : st.sys.rb.geo.scratchSize = 0 → st.sys.p.published = 0 ∧ st.sys.p.pc = .idle

theorem Counting.Ok.setCall {rb : Rb} {st : Counting} (hst : st.Ok rb) {side : Side}
    {call : Option CountCall} (hcall : ∀ c, call = some c → c.Sound st.sys side) :
    (st.setCall call side).Ok rb := by
  cases side with
  | producer =>
      refine ⟨hst.counted, hst.settings, ?_, hst.dormant⟩
      rintro (_ | _) c hc
      · exact hcall c hc
      · exact hst.calls .consumer c hc
  | consumer =>
      refine ⟨hst.counted, hst.settings, ?_, hst.dormant⟩
      rintro (_ | _) c hc
      · exact hst.calls .producer c hc
      · exact hcall c hc

/-- A thread leaves the counter of the other alone. -/
theorem step_counter {a : Act} (hstep : step b s a = some s') {side : Side} (hne : side ≠ a.side) :
    side.counter s'.rb = side.counter s.rb := by
  cases ha : a.byProducer with
  | true =>
      have hregs := (step_producerMove ha hstep).frame.regs
      simp only [Rb.consumerRegs, Prod.mk.injEq] at hregs
      cases side with
      | producer => simp [Act.side, ha] at hne
      | consumer => exact hregs.1
  | false =>
      have hregs := (step_consumerMove ha hstep).frame.regs
      simp only [Rb.producerRegs, Prod.mk.injEq] at hregs
      cases side with
      | producer => exact hregs.1
      | consumer => simp [Act.side, ha] at hne

theorem Counting.Ok.act {rb : Rb} {st : Counting} (hst : st.Ok rb) {a : Act}
    (hbusy : ¬ (st.call a.side).isSome = true) {s : Sys}
    (hstep : Threads.step b st.sys a = some s) :
    Counting.Ok rb ⟨s, st.p.map (·.see s.occupancy), st.c.map (·.see s.occupancy)⟩ := by
  have hset := step_settings hstep
  have hok := step_counted hst.counted hstep
  have hfields := hset
  simp only [Rb.settings, Prod.mk.injEq] at hfields
  obtain ⟨hgeo, hlimit, -⟩ := hfields
  have hsee : ∀ side call, st.call side = some call →
      (call.see s.occupancy).Sound s side := by
    intro side call hcall
    have hne : side ≠ a.side := by
      rintro rfl
      exact hbusy (hcall ▸ rfl)
    exact (hst.calls side call hcall).see hok hlimit (step_counter hstep hne)
  refine ⟨hok, hset.trans hst.settings, ?_, ?_⟩
  · rintro (_ | _) call hcall
    · obtain ⟨old, hold, rfl⟩ := Option.map_eq_some_iff.mp hcall
      exact hsee .producer old hold
    · obtain ⟨old, hold, rfl⟩ := Option.map_eq_some_iff.mp hcall
      exact hsee .consumer old hold
  · intro hinit
    have hinit' := hgeo ▸ hinit
    obtain ⟨hnone, hidle⟩ := hst.dormant hinit'
    obtain ⟨hsame, hpc⟩ := step_dormant hstep hinit' hidle
    exact ⟨hsame.trans hnone, hpc⟩

theorem countStep_ok {rb : Rb} {st st' : Counting} {m : CountMove}
    {result : Option (UInt32 × List Nat)} (hst : st.Ok rb)
    (hstep : countStep b st m = some (result, st')) :
    st'.Ok rb ∧ ∀ v seen, result = some (v, seen) →
      v.toNat ∈ seen ∧ v.toNat ≤ rb.limit.toNat := by
  have hlimit : st.sys.rb.limit = rb.limit := by
    have hset := hst.settings
    simp only [Rb.settings, Prod.mk.injEq] at hset
    exact hset.2.1
  cases m with
  | act a =>
      simp only [countStep, Option.ite_none_left_eq_some, Option.map_eq_some_iff,
        Prod.mk.injEq] at hstep
      obtain ⟨hbusy, s, hact, rfl, rfl⟩ := hstep
      exact ⟨hst.act hbusy hact, by rintro v seen ⟨⟩⟩
  | enter side =>
      simp only [countStep, Option.ite_none_right_eq_some] at hstep
      obtain ⟨-, hstep⟩ := hstep
      split_ifs at hstep with hinit
      · obtain ⟨rfl, rfl⟩ := Prod.mk.inj (Option.some.inj hstep)
        refine ⟨hst, ?_⟩
        rintro v seen ⟨⟩
        have hzero : st.sys.occupancy = 0 := by
          rw [Sys.occupancy, (hst.dormant hinit).1, Nat.zero_sub]
        rw [hzero]
        exact ⟨List.mem_singleton_self _, Nat.zero_le _⟩
      · obtain ⟨rfl, rfl⟩ := Prod.mk.inj (Option.some.inj hstep)
        refine ⟨hst.setCall ?_, by rintro v seen ⟨⟩⟩
        rintro c ⟨⟩
        exact .enter hst.counted side
  | loadHead side =>
      simp only [countStep] at hstep
      split at hstep
      next call hcall =>
        simp only [Option.ite_none_left_eq_some, Option.some.injEq, Prod.mk.injEq] at hstep
        obtain ⟨-, rfl, rfl⟩ := hstep
        refine ⟨hst.setCall ?_, by rintro v seen ⟨⟩⟩
        rintro c ⟨⟩
        exact (hst.calls side call hcall).loadHead hst.counted
      next => cases hstep
  | loadTail side =>
      simp only [countStep] at hstep
      split at hstep
      next call hcall =>
        simp only [Option.ite_none_left_eq_some, Option.some.injEq, Prod.mk.injEq] at hstep
        obtain ⟨-, rfl, rfl⟩ := hstep
        refine ⟨hst.setCall ?_, by rintro v seen ⟨⟩⟩
        rintro c ⟨⟩
        exact (hst.calls side call hcall).loadTail hst.counted
      next => cases hstep
  | leave side =>
      simp only [countStep] at hstep
      split at hstep
      next head tail seen hcall =>
        obtain ⟨rfl, rfl⟩ := Prod.mk.inj (Option.some.inj hstep)
        refine ⟨hst.setCall (by rintro c ⟨⟩), ?_⟩
        rintro v seen' ⟨⟩
        have hsound := hst.calls side _ hcall
        exact ⟨hsound.leave, hlimit ▸ hsound.bounded _ hsound.leave⟩
      next => cases hstep

/-- For every interleaving of the two threads: what the producer computes is at
least the true occupancy and at most `limit`, what the consumer computes does not
wrap and is at most the true occupancy, and what `rb_count` returns was the true
occupancy at some time during the call. -/
theorem occupancy_estimates {addr scratch scratchSize : BitVec b.sizeBits}
    {cfg : Option Config} {before : Store} {rb : Rb}
    (hinit : rbInit b addr cfg scratch scratchSize before = .ok rb)
    {moves : List CountMove} {results : List (Option (UInt32 × List Nat))} {st : Counting}
    (hrun : (counting b).run { sys := start rb } moves = some (results, st)) :
    Estimates b st.sys ∧ ∀ v seen, some (v, seen) ∈ results →
      v.toNat ∈ seen ∧ v.toNat ≤ rb.limit.toNat := by
  obtain ⟨cfg', -, hacc⟩ := rbInit_accepted hinit
  have hinv := (counting b).run_invariant
    (fun seen st => st.Ok rb ∧ ∀ v occupancies, some (v, occupancies) ∈ seen →
      v.toNat ∈ occupancies ∧ v.toNat ≤ rb.limit.toNat) hrun ?_ [] ?_
  · exact ⟨hinv.1.counted.estimates, hinv.2⟩
  · rintro seen st m result st' - ⟨hst, hseen⟩ hstep
    obtain ⟨hst', hresult⟩ := countStep_ok hst hstep
    refine ⟨hst', fun v occupancies hmem => ?_⟩
    rcases List.mem_append.mp hmem with hmem | hmem
    · exact hseen v occupancies hmem
    · exact hresult v occupancies (List.mem_singleton.mp hmem).symm
  · refine ⟨⟨start_counted hacc, rfl, ?_, fun _ => ⟨rfl, rfl⟩⟩, ?_⟩
    · rintro (_ | _) call ⟨⟩
    · intro v occupancies hmem
      cases hmem

/-- The producer has published one message and calls `rb_count`. Between its loads
the consumer takes and releases the message. -/
def countWhileTaken : List CountMove :=
  [Act.acquire 0, .producer, .publishEx 0 0 false, .producer, .producer, .producer, .producer,
    .producer, .producer].map CountMove.act ++
  [CountMove.enter .producer, .loadHead .producer] ++
  [Act.consume, .consumer, .consumer, .consumer, .consumer, .release 0, .consumer,
    .consumer].map CountMove.act ++
  [CountMove.loadTail .producer, .leave .producer]

theorem smallRing_occupancy_estimates :
    ∃ results st, (counting { mode := .index }).run { sys := start (smallRing .index) }
        countWhileTaken = some (results, st) ∧
      (results.filterMap id, st.sys.c.pc.counts) =
        ([(0, [0, 1, 1, 1, 1, 1, 1, 1, 1])], some (1, 0)) ∧
      Estimates { mode := .index } st.sys ∧ ∀ v seen, some (v, seen) ∈ results →
        v.toNat ∈ seen ∧ v.toNat ≤ 2 := by
  have hseen : ((counting { mode := .index }).run { sys := start (smallRing .index) }
      countWhileTaken).map (fun r => (r.1.filterMap id, r.2.sys.c.pc.counts)) =
        some ([(0, [0, 1, 1, 1, 1, 1, 1, 1, 1])], some (1, 0)) := by decide +kernel
  obtain ⟨⟨results, st⟩, hrun, hseen⟩ := Option.map_eq_some_iff.mp hseen
  exact ⟨results, st, hrun, hseen, occupancy_estimates (smallRing_init .index) hrun⟩

end RingBuff.Threads
