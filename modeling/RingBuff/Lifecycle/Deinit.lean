import RingBuff.Core.Footprint
import RingBuff.Lifecycle.StatsReset
import RingBuff.Notify.Eventfd
import RingBuff.Notify.Wait

/-! # From initialisation to the end

One control block, used as its owner pleases: initialised, used, asked for its eventfd,
given up with `rb_deinit`, initialised again. The descriptors that `rb_notify_fd` opened
are accounted for, and a ring that was given up stays as it is until it is initialised
again, whatever is called on it; only `rb_stats_reset` clears its statistics all the same.
-/

namespace RingBuff

/-- `rb_deinit`, with the descriptor it closes. -/
def rbDeinit (b : Build) (rb : Rb) : Option Int × Rb :=
  let dead := { rb with
    geo := { rb.geo with scratchOff := 0, scratchSize := 0 }
    pendingSlot := noPending
    consumerActive := 0 }
  if b.notify ∧ 0 ≤ rb.notifyFd then (some rb.notifyFd, { dead with notifyFd := -1 })
  else (none, dead)

/-- `EIO`. -/
def eio : Int := 5

/-- What a `read` from the eventfd returns: its counter, -1 with `EAGAIN` or another `errno`,
or something else. -/
inductive FdAnswer where
  | counter
  | again
  | failed (errno : Nat)
  | short
  deriving DecidableEq, Repr

/-- The loop of `rb_notify_drain_fd`; without an answer it has not returned. -/
def drainReads : List FdAnswer → Option Int
  | [] => none
  | .counter :: rest => drainReads rest
  | .again :: _ => some 0
  | .failed errno :: _ => some (-errno)
  | .short :: _ => some (-eio)

/-- `rb_notify_drain_fd`, given the answers to its reads. -/
def rbNotifyDrainFd (rb : Rb) (answers : List FdAnswer) : Option Int :=
  if rb.notifyFd < 0 then some (-Threads.einval) else drainReads answers

/-- `rb_notify_value`. -/
def rbNotifyValue (rb : Rb) : UInt32 := rb.head

/-- The environment of `rb_wait` on a ring that nobody else uses: the ring counts, the clock
and the kernel answer from a script. -/
def Wait.alone : Automaton (Rb × List World) WaitCall World where
  step state
    | .count => some ({ count := rbCount state.1 }, state)
    | .raiseWaiters =>
        some ({}, { state.1 with notifyWaiters := state.1.notifyWaiters + 1 }, state.2)
    | .lowerWaiters =>
        some ({}, { state.1 with notifyWaiters := state.1.notifyWaiters - 1 }, state.2)
    | .now | .futexWait _ _ => (Wait.script.step state.2 .now).map fun (w, rest) =>
        (w, state.1, rest)

/-- A wait changes nothing but the number of waiters. -/
theorem Wait.alone_keeps {α : Type} {p : Client WaitCall World α} {rb : Rb} {worlds : List World}
    {e : Execution WaitCall World α (Rb × List World)}
    (hexec : Wait.alone.exec p (rb, worlds) = some e) :
    ∃ n, e.last.1 = { rb with notifyWaiters := n } := by
  refine Wait.alone.run_invariant (fun _ state => ∃ n, state.1 = { rb with notifyWaiters := n })
    (Wait.alone.run_of_exec hexec) ?_ [] ⟨rb.notifyWaiters, rfl⟩
  rintro - ⟨ring, script⟩ c w next - ⟨n, rfl⟩ hstep
  cases c with
  | count =>
      obtain ⟨-, rfl⟩ := Prod.mk.inj (Option.some.inj hstep)
      exact ⟨n, rfl⟩
  | raiseWaiters | lowerWaiters =>
      obtain ⟨-, rfl⟩ := Prod.mk.inj (Option.some.inj hstep)
      exact ⟨_, rfl⟩
  | now | futexWait expected ts =>
      obtain ⟨_, -, heq⟩ := Option.map_eq_some_iff.mp hstep
      obtain ⟨-, rfl⟩ := Prod.mk.inj heq
      exact ⟨n, rfl⟩

section Keeps

variable {b : Build} {rb rb' : Rb}

theorem reserve_notifyFd (wantedLen head : UInt32) :
    (reserve b rb wantedLen head).2.notifyFd = rb.notifyFd := by
  unfold reserve
  dsimp only
  split_ifs <;> rfl

theorem rbAcquire_notifyFd (wantedLen : UInt32) :
    (rbAcquire b rb wantedLen).2.notifyFd = rb.notifyFd := by
  unfold rbAcquire
  dsimp only
  split_ifs
  · rfl
  · rfl
  · rfl
  · exact reserve_notifyFd _ _
  · exact reserve_notifyFd _ _

theorem rbPublishEx_notifyFd (slotIndex writtenLen : UInt32) (truncated : Bool) :
    (rbPublishEx b rb slotIndex writtenLen truncated).2.notifyFd = rb.notifyFd := by
  unfold rbPublishEx Rb.handOver
  dsimp only
  split_ifs <;> rfl

theorem takeFront_notifyFd {tail : UInt32} {answer : Reply × Rb}
    (htake : rb.takeFront b tail = some answer) : answer.2.notifyFd = rb.notifyFd := by
  unfold Rb.takeFront at htake
  split at htake
  · cases htake
  · cases htake
    rfl
  · dsimp only at htake
    split_ifs at htake <;> cases htake <;> rfl

theorem rbConsume_notifyFd {answer : Reply × Rb} (hconsume : rbConsume b rb = some answer) :
    answer.2.notifyFd = rb.notifyFd := by
  unfold rbConsume at hconsume
  dsimp only at hconsume
  split_ifs at hconsume
  · cases hconsume
    rfl
  · cases hconsume
    rfl
  · cases hconsume
    rfl
  · exact (takeFront_notifyFd hconsume).trans rfl
  · exact takeFront_notifyFd hconsume

theorem rbRelease_notifyFd (slotIndex : UInt32) :
    (rbRelease b rb slotIndex).2.notifyFd = rb.notifyFd := by
  have hlowD : ∀ (rb : Rb) (oldCount newCount : UInt32),
      (rb.crossLowD oldCount newCount).2.notifyFd = rb.notifyFd := by
    intro rb oldCount newCount
    unfold Rb.crossLowD
    dsimp only
    split_ifs <;> rfl
  have hlowE : ∀ (rb : Rb) (oldCount newCount : UInt32),
      (rb.crossLowE oldCount newCount).2.notifyFd = rb.notifyFd := by
    intro rb oldCount newCount
    unfold Rb.crossLowE
    dsimp only
    split_ifs <;> rfl
  unfold rbRelease
  dsimp only
  split_ifs
  · rfl
  · rfl
  · dsimp only
    rw [hlowE, hlowD]

/-- No call touches the descriptor. -/
theorem rbCall_notifyFd {c : Call} {output : Output} (hcall : rbCall b rb c = some (output, rb')) :
    rb'.notifyFd = rb.notifyFd := by
  have hsome : ∀ {answer : Output × Rb}, some answer = some (output, rb') →
      answer.2.notifyFd = rb.notifyFd → rb'.notifyFd = rb.notifyFd := by
    intro answer heq hfd
    rw [Option.some.inj heq] at hfd
    exact hfd
  cases c with
  | acquire wantedLen => exact hsome hcall (rbAcquire_notifyFd wantedLen)
  | write offset byte =>
      refine hsome hcall ?_
      unfold payloadWrite
      split_ifs <;> rfl
  | publish slotIndex writtenLen => exact hsome hcall (rbPublishEx_notifyFd _ _ _)
  | publishEx slotIndex writtenLen truncated => exact hsome hcall (rbPublishEx_notifyFd _ _ _)
  | abort =>
      refine hsome hcall ?_
      unfold rbAbort
      split_ifs <;> rfl
  | consume =>
      obtain ⟨answer, hconsume, heq⟩ := Option.map_eq_some_iff.mp hcall
      have hfd := rbConsume_notifyFd hconsume
      rwa [show answer.2 = rb' from congrArg Prod.snd heq] at hfd
  | release slotIndex => exact hsome hcall (rbRelease_notifyFd slotIndex)
  | setLimit limit =>
      refine hsome hcall ?_
      unfold rbSetLimit
      split_ifs <;> rfl
  | setLowD percent =>
      refine hsome hcall ?_
      unfold rbSetLowD
      dsimp only [quiet]
      split_ifs <;> rfl
  | setLowE percent =>
      refine hsome hcall ?_
      unfold rbSetLowE
      dsimp only [quiet]
      split_ifs <;> rfl
  | setOversizePolicy policy =>
      refine hsome hcall ?_
      unfold rbSetOversizePolicy
      split_ifs
      · rfl
      · cases policy <;> rfl
  | setCallbacks cb =>
      refine hsome hcall ?_
      cases cb with
      | none => rfl
      | some cb =>
          unfold rbSetCallbacks
          dsimp only
          split_ifs <;> rfl
  | setProducerStack bytes =>
      refine hsome hcall ?_
      unfold rbSetProducerStack
      split_ifs <;> rfl
  | setConsumerStack bytes =>
      refine hsome hcall ?_
      unfold rbSetConsumerStack
      split_ifs <;> rfl
  | read | count | isFull | isEmpty => exact hsome hcall rfl

end Keeps

/-! ## A ring that was given up -/

/-- `rb_deinit` leaves a ring like this. -/
structure Rb.Dead (rb : Rb) : Prop where
  scratchOff : rb.geo.scratchOff = 0
  scratchSize : rb.geo.scratchSize = 0
  pending : rb.pendingSlot = noPending
  released : rb.consumerActive = 0
  closed : rb.notifyFd < 0

/-- The caller gets nothing: no slot, no message, no byte, and not `RB_OK`. -/
def Reply.empty : Reply → Bool
  | .code err => err ≠ .ok
  | .number value => value = 0
  | .flag _ => true
  | .reserved _ _ | .message _ _ _ | .byte _ => false

/-- Such a ring answers every call, invokes no callback and does not change. -/
theorem Rb.Dead.call {b : Build} {rb : Rb} (hdead : rb.Dead) (c : Call) :
    ∃ reply, rbCall b rb c = some ((reply, []), rb) ∧ reply.empty = true := by
  have hsize := hdead.scratchSize
  have hcount : rbCount rb = 0 := if_pos hsize
  cases c with
  | acquire wantedLen => exact ⟨_, by rw [rbCall, rbAcquire, if_pos hsize]; rfl, rfl⟩
  | write offset byte =>
      have hnone : ¬ (rb.pendingSlot ≠ noPending ∧ offset < (payloadCap b rb.geo).toNat) :=
        fun h => h.1 hdead.pending
      exact ⟨_, by rw [rbCall, payloadWrite, if_neg hnone]; rfl, rfl⟩
  | publish slotIndex writtenLen =>
      exact ⟨_, by rw [rbCall, rbPublish, rbPublishEx, if_pos hsize], rfl⟩
  | publishEx slotIndex writtenLen truncated =>
      exact ⟨_, by rw [rbCall, rbPublishEx, if_pos hsize], rfl⟩
  | abort => exact ⟨_, by rw [rbCall, rbAbort, if_pos hsize]; rfl, rfl⟩
  | consume => exact ⟨_, by rw [rbCall, rbConsume, if_pos hsize]; rfl, rfl⟩
  | read offset =>
      have hnone : ¬ (rb.consumerActive ≠ 0 ∧ offset < (payloadCap b rb.geo).toNat) :=
        fun h => h.1 hdead.released
      exact ⟨_, by rw [rbCall, payloadRead, if_neg hnone]; rfl, rfl⟩
  | release slotIndex => exact ⟨_, by rw [rbCall, rbRelease, if_pos hsize], rfl⟩
  | count => exact ⟨_, rfl, by rw [hcount]; rfl⟩
  | isFull | isEmpty => exact ⟨_, rfl, rfl⟩
  | setLimit limit => exact ⟨_, by rw [rbCall, rbSetLimit, if_pos hsize]; rfl, rfl⟩
  | setLowD percent =>
      have hcheck : rb.percentCheck percent = .notInit := if_pos hsize
      exact ⟨_, by rw [rbCall, rbSetLowD, hcheck, if_neg (by decide)]; rfl, rfl⟩
  | setLowE percent =>
      have hcheck : rb.percentCheck percent = .notInit := if_pos hsize
      exact ⟨_, by rw [rbCall, rbSetLowE, hcheck, if_neg (by decide)]; rfl, rfl⟩
  | setOversizePolicy policy =>
      exact ⟨_, by rw [rbCall, rbSetOversizePolicy.eq_def, if_pos hsize]; rfl, rfl⟩
  | setCallbacks cb =>
      cases cb with
      | none => exact ⟨_, rfl, rfl⟩
      | some cb =>
          refine ⟨.code .inval, ?_, rfl⟩
          simp only [rbCall, rbSetCallbacks, if_pos hsize]
          rfl
  | setProducerStack bytes =>
      exact ⟨_, by rw [rbCall, rbSetProducerStack, if_pos hsize]; rfl, rfl⟩
  | setConsumerStack bytes =>
      exact ⟨_, by rw [rbCall, rbSetConsumerStack, if_pos hsize]; rfl, rfl⟩

theorem Rb.Dead.notifyFd {rb : Rb} (hdead : rb.Dead) (created : Int) :
    rbNotifyFd rb created = (-Threads.einval, rb) := if_pos hdead.scratchSize

theorem Rb.Dead.drainFd {rb : Rb} (hdead : rb.Dead) (answers : List FdAnswer) :
    rbNotifyDrainFd rb answers = some (-Threads.einval) := if_pos hdead.closed

theorem Rb.Dead.wait {b : Build} {rb : Rb} (hdead : rb.Dead) (expected : UInt32)
    (timeoutMs : Int32) (fuel : Nat) :
    Wait.rbWait b rb expected timeoutMs fuel = .done (some (-Threads.einval)) :=
  if_pos hdead.scratchSize

/-- A second `rb_deinit` closes nothing. -/
theorem Rb.Dead.deinit {b : Build} {rb : Rb} (hdead : rb.Dead) : rbDeinit b rb = (none, rb) := by
  have hclosed : ¬ (b.notify = true ∧ 0 ≤ rb.notifyFd) := fun h => absurd hdead.closed h.2.not_gt
  have hgeo : { rb.geo with scratchOff := 0, scratchSize := 0 } = rb.geo := by
    have hoff := hdead.scratchOff
    have hsize := hdead.scratchSize
    generalize rb.geo = geo at hoff hsize ⊢
    cases geo
    subst hoff
    subst hsize
    rfl
  rw [rbDeinit, if_neg hclosed]
  dsimp only at hgeo ⊢
  rw [hgeo, ← hdead.pending, ← hdead.released]

theorem rbDeinit_dead (b : Build) {rb : Rb} (hfd : b.notify = true ∨ rb.notifyFd < 0) :
    (rbDeinit b rb).2.Dead := by
  unfold rbDeinit
  dsimp only
  split_ifs with hopen
  · exact ⟨rfl, rfl, rfl, rfl, Int.negSucc_lt_zero 0⟩
  · refine ⟨rfl, rfl, rfl, rfl, ?_⟩
    rcases hfd with hnotify | hclosed
    · exact not_le.mp fun hle => hopen ⟨hnotify, hle⟩
    · exact hclosed

/-! ## Uses of one control block -/

namespace Lifecycle

/-- What became of a descriptor: `rb_deinit` closed it, or `rb_init` forgot it. -/
inductive Fate where
  | closed
  | lost
  deriving DecidableEq, Repr

/-- A control block and its history: whether `rb_init` or `rb_deinit` came last, the
descriptors `eventfd` has returned, and those that are out of use. -/
structure Block where
  rb : Rb
  alive : Bool := true
  opened : List Int := []
  retired : List (Int × Fate) := []

/-- The descriptor in use. -/
def Block.current (blk : Block) : List Int :=
  if 0 ≤ blk.rb.notifyFd then [blk.rb.notifyFd] else []

/-- A use of the block. Those that ask the environment come with its answers. -/
inductive Use (b : Build) where
  | call (c : Call)
  | statsReset
  | notifyValue
  | wait (expected : UInt32) (timeoutMs : Int32) (worlds : List Wait.World)
  | notifyFd (created : Int)
  | drainFd (answers : List FdAnswer)
  | deinit
  | init (cfg : Option Config) (scratch scratchSize : BitVec b.sizeBits)

/-- What the caller sees. -/
inductive Shown where
  | output (output : Output)
  | value (value : UInt32)
  | result (value : Int)
  | code (err : RbErr)
  | nothing
  deriving DecidableEq, Repr

/-- What `rb_notify_fd` opens, if `eventfd` would return `created`. -/
def Block.opens (blk : Block) (created : Int) : List Int :=
  if blk.rb.geo.scratchSize = 0 ∨ 0 ≤ blk.rb.notifyFd ∨ created < 0 then [] else [created]

/-- The control block at `addr` under all its uses. -/
def system (b : Build) (addr : BitVec b.sizeBits) : Automaton Block (Use b) Shown where
  step blk
    | .call c => (rbCall b blk.rb c).map fun answer =>
        (.output answer.1, { blk with rb := answer.2 })
    | .statsReset => some (.nothing, { blk with rb := rbStatsReset blk.rb })
    | .notifyValue => if b.notify then some (.value (rbNotifyValue blk.rb), blk) else none
    | .wait expected timeoutMs worlds =>
        if b.notify then
          -- a round of the loop asks the clock, so the script is fuel enough
          let p := Wait.rbWait b blk.rb expected timeoutMs (worlds.length + 1)
          (Wait.alone.exec p (blk.rb, worlds)).bind fun e => e.result.map fun result =>
            (.result result, { blk with rb := e.last.1 })
        else none
    | .notifyFd created =>
        if b.notify then
          let answer := rbNotifyFd blk.rb created
          some (.result answer.1,
            { blk with rb := answer.2, opened := blk.opened ++ blk.opens created })
        else none
    | .drainFd answers =>
        if b.notify then (rbNotifyDrainFd blk.rb answers).map fun result => (.result result, blk)
        else none
    | .deinit =>
        let answer := rbDeinit b blk.rb
        some (.nothing, { blk with
          rb := answer.2
          alive := false
          retired := blk.retired ++ answer.1.toList.map fun fd => (fd, .closed) })
    | .init cfg scratch scratchSize =>
        match rbInit b addr cfg scratch scratchSize blk.rb.store with
        | .error err => some (.code err, blk)
        | .ok rb =>
            some (.code .ok, { blk with
              rb
              alive := true
              retired := blk.retired ++ blk.current.map fun fd => (fd, .lost) })

variable {b : Build} {addr : BitVec b.sizeBits} {blk blk' : Block}

/-- Descriptors are opened one at a time, and each is retired once. -/
structure Tidy (b : Build) (blk : Block) : Prop where
  accounted : blk.opened = blk.retired.map Prod.fst ++ blk.current
  notify : b.notify = false → blk.rb.notifyFd < 0
  dead : blk.alive = false → blk.rb.Dead

theorem current_of_neg (hneg : blk.rb.notifyFd < 0) : blk.current = [] := if_neg hneg.not_ge

/-- What leaves the descriptor, the layout and the two slots alone keeps the accounts. -/
theorem Tidy.congr (htidy : Tidy b blk) {rb : Rb} (hgeo : rb.geo = blk.rb.geo)
    (hpending : rb.pendingSlot = blk.rb.pendingSlot)
    (hactive : rb.consumerActive = blk.rb.consumerActive) (hfd : rb.notifyFd = blk.rb.notifyFd) :
    Tidy b { blk with rb } := by
  refine ⟨?_, ?_, fun hgone => ?_⟩
  · rw [Block.current, hfd]
    exact htidy.accounted
  · rw [hfd]
    exact htidy.notify
  · obtain ⟨hoff, hsize, hnone, hreleased, hclosed⟩ := htidy.dead hgone
    exact ⟨hgeo ▸ hoff, hgeo ▸ hsize, hpending.trans hnone, hactive.trans hreleased,
      hfd.trans_lt hclosed⟩

theorem Tidy.call (htidy : Tidy b blk) {c : Call} {output : Output} {rb : Rb}
    (hcall : rbCall b blk.rb c = some (output, rb)) : Tidy b { blk with rb } := by
  have hfd := rbCall_notifyFd hcall
  refine ⟨?_, ?_, ?_⟩
  · rw [Block.current, hfd]
    exact htidy.accounted
  · rw [hfd]
    exact htidy.notify
  -- a dead ring is the same ring after the call
  · intro hgone
    obtain ⟨reply, hsame, -⟩ := (htidy.dead hgone).call (b := b) c
    obtain ⟨-, rfl⟩ := Prod.mk.inj (Option.some.inj (hsame.symm.trans hcall))
    exact htidy.dead hgone

/-- `rb_notify_fd` either leaves everything as it is or opens a descriptor. -/
theorem rbNotifyFd_opens (blk : Block) (created : Int) :
    ((rbNotifyFd blk.rb created).2 = blk.rb ∧ blk.opens created = []) ∨
      (blk.rb.geo.scratchSize ≠ 0 ∧ blk.rb.notifyFd < 0 ∧ 0 ≤ created ∧
        (rbNotifyFd blk.rb created).2 = { blk.rb with notifyFd := created } ∧
          blk.opens created = [created]) := by
  unfold rbNotifyFd Block.opens
  by_cases hsize : blk.rb.geo.scratchSize = 0
  · simp [hsize]
  by_cases hfd : 0 ≤ blk.rb.notifyFd
  · simp [hsize, hfd]
  by_cases hcreated : created < 0
  · simp [hsize, hfd, hcreated]
  · simp [hsize, hfd, hcreated, not_le.mp hfd, not_lt.mp hcreated]

theorem Tidy.notifyFd (htidy : Tidy b blk) (hnotify : b.notify = true) (created : Int) :
    Tidy b { blk with
      rb := (rbNotifyFd blk.rb created).2, opened := blk.opened ++ blk.opens created } := by
  rcases rbNotifyFd_opens blk created with ⟨hsame, hnone⟩ | ⟨hsize, hfd, hcreated, hnext, hone⟩
  · rw [hsame, hnone, List.append_nil]
    exact htidy
  · rw [hnext, hone]
    refine ⟨?_, fun hquiet => ?_, fun hgone => absurd (htidy.dead hgone).scratchSize hsize⟩
    · rw [htidy.accounted, current_of_neg hfd, List.append_nil, Block.current, if_pos hcreated]
    · rw [hnotify] at hquiet
      cases hquiet

theorem Tidy.deinit (htidy : Tidy b blk) :
    Tidy b { blk with
      rb := (rbDeinit b blk.rb).2
      alive := false
      retired := blk.retired ++ (rbDeinit b blk.rb).1.toList.map fun fd => (fd, .closed) } := by
  have hopen : b.notify = true ∨ blk.rb.notifyFd < 0 := by
    cases hnotify : b.notify with
    | true => exact Or.inl rfl
    | false => exact Or.inr (htidy.notify hnotify)
  have hdead := rbDeinit_dead b hopen
  refine ⟨?_, fun _ => hdead.closed, fun _ => hdead⟩
  rw [current_of_neg hdead.closed, htidy.accounted, List.append_nil, List.map_append, List.map_map]
  refine congrArg (_ ++ ·) ?_
  unfold rbDeinit Block.current
  dsimp only
  by_cases hfd : 0 ≤ blk.rb.notifyFd
  · rw [if_pos hfd, if_pos ⟨hopen.resolve_right hfd.not_gt, hfd⟩]
    rfl
  · rw [if_neg hfd, if_neg fun hboth => hfd hboth.2]
    rfl

theorem rbInit_notifyFd {cfg : Option Config} {scratch size : BitVec b.sizeBits} {before : Store}
    {rb : Rb} (hinit : rbInit b addr cfg scratch size before = .ok rb) : rb.notifyFd < 0 := by
  unfold rbInit at hinit
  split at hinit
  · cases hinit
  · split_ifs at hinit
    cases hinit
    exact Int.negSucc_lt_zero 0

theorem Tidy.init (htidy : Tidy b blk) {cfg : Option Config} {scratch size : BitVec b.sizeBits}
    {rb : Rb} (hinit : rbInit b addr cfg scratch size blk.rb.store = .ok rb) :
    Tidy b { blk with
      rb
      alive := true
      retired := blk.retired ++ blk.current.map fun fd => (fd, .lost) } := by
  have hfd : rb.notifyFd < 0 := rbInit_notifyFd hinit
  refine ⟨?_, fun _ => hfd, fun hgone => ?_⟩
  -- the new ring has no descriptor; one that was in use is only remembered here
  · have hretired : (blk.retired ++ blk.current.map fun fd => (fd, Fate.lost)).map Prod.fst =
        blk.retired.map Prod.fst ++ blk.current := by
      rw [List.map_append, List.map_map]
      exact congrArg (_ ++ ·) (List.map_id _)
    refine htidy.accounted.trans (hretired.symm.trans ?_)
    refine (List.append_nil _).symm.trans (congrArg (_ ++ ·) ?_)
    exact (current_of_neg hfd).symm
  · cases hgone

/-- Every use keeps the accounts. -/
theorem tidy_step {use : Use b} {shown : Shown} (htidy : Tidy b blk)
    (hstep : (system b addr).step blk use = some (shown, blk')) : Tidy b blk' := by
  cases use with
  | call c =>
      obtain ⟨⟨output, rb⟩, hcall, heq⟩ := Option.map_eq_some_iff.mp hstep
      obtain ⟨-, rfl⟩ := Prod.mk.inj heq
      exact htidy.call hcall
  | statsReset =>
      obtain ⟨-, rfl⟩ := Prod.mk.inj (Option.some.inj hstep)
      exact htidy.congr rfl rfl rfl rfl
  | notifyValue =>
      simp only [system] at hstep
      split_ifs at hstep
      obtain ⟨-, rfl⟩ := Prod.mk.inj (Option.some.inj hstep)
      exact htidy
  | wait expected timeoutMs worlds =>
      simp only [system] at hstep
      split_ifs at hstep
      obtain ⟨e, hexec, hresult⟩ := Option.bind_eq_some_iff.mp hstep
      obtain ⟨result, -, heq⟩ := Option.map_eq_some_iff.mp hresult
      obtain ⟨-, rfl⟩ := Prod.mk.inj heq
      obtain ⟨n, hlast⟩ := Wait.alone_keeps hexec
      rw [hlast]
      exact htidy.congr rfl rfl rfl rfl
  | notifyFd created =>
      simp only [system] at hstep
      split_ifs at hstep with hnotify
      obtain ⟨-, rfl⟩ := Prod.mk.inj (Option.some.inj hstep)
      exact htidy.notifyFd hnotify created
  | drainFd answers =>
      simp only [system] at hstep
      split_ifs at hstep
      obtain ⟨result, -, heq⟩ := Option.map_eq_some_iff.mp hstep
      obtain ⟨-, rfl⟩ := Prod.mk.inj heq
      exact htidy
  | deinit =>
      obtain ⟨-, rfl⟩ := Prod.mk.inj (Option.some.inj hstep)
      exact htidy.deinit
  | init cfg scratch scratchSize =>
      simp only [system] at hstep
      split at hstep
      next err hinit =>
        obtain ⟨-, rfl⟩ := Prod.mk.inj (Option.some.inj hstep)
        exact htidy
      next rb hinit =>
        obtain ⟨-, rfl⟩ := Prod.mk.inj (Option.some.inj hstep)
        exact htidy.init hinit

/-- What the owner of a control block can rely on. -/
structure Kept (b : Build) (addr : BitVec b.sizeBits) (blk : Block) : Prop where
  /-- Every descriptor that was opened was closed once, was forgotten by an `rb_init` that
  found it in use, or is the one in use. -/
  accounted : blk.opened = blk.retired.map Prod.fst ++ blk.current
  /-- After `rb_deinit` no descriptor is in use; a forgotten one stays open. -/
  closed : blk.alive = false → blk.current = []
  /-- Until the next `rb_init` no call changes anything or invokes a callback. -/
  inert : blk.alive = false → ∀ c, ∃ reply, reply.empty = true ∧
    (system b addr).step blk (.call c) = some (.output (reply, []), blk)
  /-- A second `rb_deinit` closes nothing. -/
  ended : blk.alive = false → (system b addr).step blk .deinit = some (.nothing, blk)
  /-- Of the notification calls only `rb_notify_value` does not fail. -/
  silent : blk.alive = false → b.notify = true →
    (system b addr).step blk .notifyValue = some (.value blk.rb.head, blk) ∧
    (∀ created,
      (system b addr).step blk (.notifyFd created) = some (.result (-Threads.einval), blk)) ∧
    (∀ answers,
      (system b addr).step blk (.drainFd answers) = some (.result (-Threads.einval), blk)) ∧
    ∀ expected timeoutMs worlds, (system b addr).step blk (.wait expected timeoutMs worlds) =
      some (.result (-Threads.einval), blk)
  /-- The statistics can still be reset. -/
  cleared : blk.alive = false → (system b addr).step blk .statsReset =
    some (.nothing, { blk with rb := { blk.rb with stats := {} } })

theorem Tidy.kept (htidy : Tidy b blk) : Kept b addr blk where
  accounted := htidy.accounted
  closed hgone := current_of_neg (htidy.dead hgone).closed
  inert hgone c := by
    obtain ⟨reply, hcall, hempty⟩ := (htidy.dead hgone).call (b := b) c
    exact ⟨reply, hempty, congrArg (Option.map _) hcall⟩
  ended hgone := by
    simp only [system, (htidy.dead hgone).deinit, Option.toList_none, List.map_nil,
      List.append_nil]
    rw [← hgone]
  silent hgone hnotify := by
    have hdead := htidy.dead hgone
    refine ⟨if_pos hnotify, fun created => ?_, fun answers => ?_,
      fun expected timeoutMs worlds => ?_⟩
    · have hopens : blk.opens created = [] := if_pos (Or.inl hdead.scratchSize)
      simp only [system, hnotify, if_true, hdead.notifyFd, hopens, List.append_nil]
    · simp only [system, hnotify, if_true, hdead.drainFd, Option.map_some]
    · simp only [system, hnotify, if_true, hdead.wait, Automaton.exec_done, Option.bind_some,
        Option.map_some]
  cleared _ := rfl

/-- However a control block is used after `rb_init`, its descriptors are accounted for, and
between `rb_deinit` and the next `rb_init` only its statistics can change. -/
theorem lifecycle_kept {cfg : Option Config} {scratch size : BitVec b.sizeBits} {before : Store}
    {rb : Rb} (hinit : rbInit b addr cfg scratch size before = .ok rb)
    (hreach : (system b addr).Reaches { rb } blk) : Kept b addr blk := by
  have hstart : Tidy b { rb } := by
    have hfd := rbInit_notifyFd hinit
    exact ⟨(current_of_neg hfd).symm, fun _ => hfd, nofun⟩
  have htidy := hreach.invariant (Tidy b) hstart tidy_step
  exact htidy.kept

/-- The second `rb_init` finds descriptor 5 in use. -/
def forgetful : List (Use { mode := .index, notify := true }) :=
  [.notifyFd 4, .deinit, .notifyFd 9, .init (some smallConfig) 4096#64 128#64, .notifyFd 5,
    .drainFd [.counter, .again], .init (some smallConfig) 4096#64 128#64, .notifyFd 6,
    .wait 0 0 [{ now := 7 }, { now := 7 }], .call (.acquire 1), .statsReset, .deinit,
    .call (.publish 0 1)]

theorem forgetful_kept :
    ∃ rb blk, rbInit { mode := .index, notify := true } 64#64 (some smallConfig) 4096#64 128#64
        blank = .ok rb ∧
      (system { mode := .index, notify := true } 64#64).Reaches { rb } blk ∧
      (blk.opened, blk.retired) = ([4, 5, 6], [(4, .closed), (5, .lost), (6, .closed)]) ∧
      Kept { mode := .index, notify := true } 64#64 blk := by
  have hrun : ((rbInit { mode := .index, notify := true } 64#64 (some smallConfig) 4096#64 128#64
      blank).toOption.bind fun rb =>
        ((system { mode := .index, notify := true } 64#64).run { rb } forgetful).map fun r =>
          (r.2.opened, r.2.retired)) =
      some ([4, 5, 6], [(4, .closed), (5, .lost), (6, .closed)]) := by
    decide +kernel
  obtain ⟨rb, hinit, hrun⟩ := Option.bind_eq_some_iff.mp hrun
  obtain ⟨⟨outs, blk⟩, hrun, hseen⟩ := Option.map_eq_some_iff.mp hrun
  have hok : rbInit { mode := .index, notify := true } 64#64 (some smallConfig) 4096#64 128#64
      blank = .ok rb := by
    cases hcase : rbInit { mode := .index, notify := true } 64#64 (some smallConfig) 4096#64 128#64
        blank with
    | error err =>
        rw [hcase] at hinit
        cases hinit
    | ok rb' =>
        rw [hcase] at hinit
        exact congrArg _ (Option.some.inj hinit)
  exact ⟨rb, blk, hok, ⟨forgetful, outs, hrun⟩, hseen,
    lifecycle_kept hok ⟨forgetful, outs, hrun⟩⟩

end Lifecycle

end RingBuff
