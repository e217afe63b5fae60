import RingBuff.Threads.Counters

/-! # A thread alone makes whole calls

The operations are written twice, as whole calls and as step sequences. Here the
two meet: a thread that is not interrupted takes its steps to the reply, the
callbacks and the ring of the whole call. So every run of whole calls is a run of
the two threads.
-/

namespace RingBuff.Threads

variable {b : Build} {s s' : Sys}

/-- Neither thread is inside a call. -/
structure Rests (s : Sys) : Prop where
  producer : s.p.pc = .idle
  consumer : s.c.pc = .idle

/-- The threads come to rest after these callbacks, with this reply and this ring. -/
def Returns (b : Build) (s : Sys) (answer : Output × Rb) : Prop :=
  ∃ s', (machine b).Reaches s s' ∧ Rests s' ∧ s'.rb = answer.2 ∧
    s'.log = s.log ++ (answer.1.2.map .event ++ [.reply answer.1.1])

theorem reaches_of_step {a : Act} (hstep : step b s a = some s') : (machine b).Reaches s s' :=
  .single (machine_step_eq_some (u := ()).mpr hstep)

namespace Returns

variable {reply : Reply} {events : List Event} {rb : Rb}

/-- The last step of a call. -/
theorem now {a : Act} (hstep : step b s a = some s') (hrests : Rests s') (hrb : s'.rb = rb)
    (hlog : s'.log = s.log ++ [.reply reply]) : Returns b s ((reply, []), rb) :=
  ⟨s', reaches_of_step hstep, hrests, hrb, hlog⟩

/-- One step without a callback, and the rest of the call. -/
theorem after {a : Act} {answer : Output × Rb} (hstep : step b s a = some s')
    (hlog : s'.log = s.log) (hreturns : Returns b s' answer) : Returns b s answer := by
  obtain ⟨t, hreach, hrests, hrb, hlog'⟩ := hreturns
  exact ⟨t, (reaches_of_step hstep).trans hreach, hrests, hrb, by rw [hlog', hlog]⟩

/-- One step with a callback, and the rest of the call. -/
theorem callback {a : Act} {installed : Bool} {event : Event} (hstep : step b s a = some s')
    (hlog : s'.log = (s.callback installed event).log)
    (hreturns : Returns b s' ((reply, events), rb)) :
    Returns b s ((reply, fire installed event ++ events), rb) := by
  obtain ⟨t, hreach, hrests, hrb, hlog'⟩ := hreturns
  refine ⟨t, (reaches_of_step hstep).trans hreach, hrests, hrb, ?_⟩
  rw [hlog', hlog, Sys.callback]
  simp only [List.map_append, List.append_assoc]

/-- The last step of a call, with a callback. -/
theorem now_callback {a : Act} {installed : Bool} {event : Event} (hstep : step b s a = some s')
    (hrests : Rests s') (hrb : s'.rb = rb)
    (hlog : s'.log = (s.callback installed event).log ++ [.reply reply]) :
    Returns b s ((reply, fire installed event), rb) :=
  ⟨s', reaches_of_step hstep, hrests, hrb, by rw [hlog, Sys.callback, List.append_assoc]⟩

end Returns

/-! ## The producer -/

theorem step_producer {pc : ProducerPc} (next : Sys) (hpc : pc ≠ .idle)
    (hnext : (s.goP pc).producerNext b = next) : step b (s.goP pc) .producer = some next :=
  (if_neg hpc).trans (congrArg some hnext)

theorem acquire_returns (hrests : Rests s) (wantedLen : UInt32) :
    Returns b s (quiet (rbAcquire b s.rb wantedLen)) := by
  obtain ⟨hp, hc⟩ := hrests
  have hstart : step b s (.acquire wantedLen) = some (s.startAcquire wantedLen) := if_pos hp
  dsimp only [rbAcquire]
  unfold Sys.startAcquire at hstart
  split_ifs at hstart ⊢ with hinit hpending hcached hfull
  · exact .now hstart ⟨rfl, hc⟩ rfl rfl
  · exact .now hstart ⟨rfl, hc⟩ rfl rfl
  · refine .after hstart rfl (.after (step_producer _ nofun (if_pos hcached)) rfl ?_)
    exact .now (step_producer _ nofun (if_pos hfull)) ⟨rfl, hc⟩ rfl rfl
  · refine .after hstart rfl (.after (step_producer _ nofun (if_pos hcached)) rfl ?_)
    exact .now (step_producer _ nofun (if_neg hfull)) ⟨rfl, hc⟩ rfl rfl
  · refine .after hstart rfl ?_
    exact .now (step_producer _ nofun (if_neg hcached)) ⟨rfl, hc⟩ rfl rfl

/-- The end of `rb_publish_ex`, from the load of `tail` on. -/
theorem pubTail_returns (hc : s.c.pc = .idle) (m : Outgoing) (head : UInt32) :
    Returns b (s.goP (.pubTail m head))
      (let count := head + 1 - s.rb.tail
      let rb := s.rb.afterPublish count m.truncated
      let added := fire rb.cb.onSlotAdded (.slotAdded m.slotIndex m.len m.truncated)
      if rb.limit ≤ count ∧ rb.fullLatch = 0 then
        ((.code .ok, added ++ fire rb.cb.onFull .full),
          { rb with fullLatch := 1, stats.fullHits := rb.stats.fullHits + 1 })
      else ((.code .ok, added), rb)) := by
  refine .after (step_producer _ nofun rfl) rfl ?_
  dsimp only
  split_ifs with hfull
  · refine .callback (step_producer _ nofun (if_pos hfull.1)) rfl ?_
    refine .after (step_producer _ nofun (if_pos hfull.2)) rfl ?_
    exact .after (step_producer _ nofun rfl) rfl
      (.now_callback (step_producer _ nofun rfl) ⟨rfl, hc⟩ rfl rfl)
  · by_cases hcount : s.rb.limit ≤ head + 1 - s.rb.tail
    · -- the latch is already set
      have hlatch : ¬ s.rb.fullLatch = 0 := fun hzero => hfull ⟨hcount, hzero⟩
      rw [← List.append_nil (fire _ _)]
      refine .callback (step_producer _ nofun (if_pos hcount)) rfl ?_
      exact .now (step_producer _ nofun (if_neg hlatch)) ⟨rfl, hc⟩ rfl rfl
    · exact .now_callback (step_producer _ nofun (if_neg hcount)) ⟨rfl, hc⟩ rfl rfl

theorem pubEventfd_returns {answer : Output × Rb} (m : Outgoing) (head : UInt32)
    (hreturns : ∀ eventfd, Returns b ({ s with eventfd }.goP (.pubTail m head)) answer) :
    Returns b (s.goP (.pubEventfd m head)) answer :=
  .after (step_producer _ nofun rfl) rfl
    (hreturns (if 0 ≤ s.rb.notifyFd then s.eventfd + 1 else s.eventfd))

/-- With notifications the producer looks for a sleeper and writes the eventfd. -/
theorem pubWaiters_returns {answer : Output × Rb} (m : Outgoing) (head : UInt32)
    (hreturns : ∀ sleeping eventfd,
      Returns b ({ s with sleeping, eventfd }.goP (.pubTail m head)) answer) :
    Returns b (s.goP (.pubWaiters m head)) answer := by
  by_cases hwaiters : s.rb.notifyWaiters ≠ 0
  · refine .after (step_producer _ nofun (congrArg s.goP (if_pos hwaiters))) rfl ?_
    exact .after (step_producer _ nofun rfl) rfl
      (pubEventfd_returns (s := { s with sleeping := false }) m head (hreturns false))
  · refine .after (step_producer _ nofun (congrArg s.goP (if_neg hwaiters))) rfl ?_
    exact pubEventfd_returns m head (hreturns s.sleeping)

/-- The stores of `rb_publish_ex`, in their order. -/
theorem pubHeader_returns (hc : s.c.pc = .idle) (m : Outgoing) :
    Returns b (s.goP (.pubHeader m)) (s.rb.handOver b m.slotIndex m.len m.truncated) := by
  let stored := s.rb.store.setHeader b s.rb.geo m.slotIndex (encodeHeader m.len m.truncated)
  let entered := stored.enter b s.rb.geo m.slotIndex s.rb.head
  have hend : ∀ sleeping eventfd,
      Returns b ({ (s.setStore entered).storeHead (s.rb.head + 1) with sleeping, eventfd }.goP
        (.pubTail m s.rb.head)) (s.rb.handOver b m.slotIndex m.len m.truncated) :=
    fun sleeping eventfd => pubTail_returns
      (s := { (s.setStore entered).storeHead (s.rb.head + 1) with sleeping, eventfd })
        hc m s.rb.head
  refine .after (step_producer ((s.setStore stored).goP (.pubHead m)) (by rintro ⟨⟩) rfl) rfl ?_
  refine .after (step_producer ((s.setStore stored).goP (.pubEntry m s.rb.head)) (by rintro ⟨⟩) rfl)
    rfl ?_
  refine .after
    (step_producer ((s.setStore entered).goP (.pubStore m s.rb.head)) (by rintro ⟨⟩) rfl)
    rfl ?_
  cases hnotify : b.notify with
  | false =>
      have hnext : ((s.setStore entered).goP (.pubStore m s.rb.head)).producerNext b =
          ((s.setStore entered).storeHead (s.rb.head + 1)).goP (.pubTail m s.rb.head) := by
        simp only [Sys.producerNext, Sys.goP, hnotify]
        rfl
      exact .after (step_producer _ (by rintro ⟨⟩) hnext) rfl (hend s.sleeping s.eventfd)
  | true =>
      have hnext : ((s.setStore entered).goP (.pubStore m s.rb.head)).producerNext b =
          ((s.setStore entered).storeHead (s.rb.head + 1)).goP (.pubWaiters m s.rb.head) := by
        simp only [Sys.producerNext, Sys.goP, hnotify]
        rfl
      exact .after (step_producer _ (by rintro ⟨⟩) hnext) rfl (pubWaiters_returns m s.rb.head hend)

theorem publishEx_returns (hrests : Rests s) (slotIndex writtenLen : UInt32) (truncated : Bool) :
    Returns b s (rbPublishEx b s.rb slotIndex writtenLen truncated) := by
  obtain ⟨hp, hc⟩ := hrests
  have hstart : step b s (.publishEx slotIndex writtenLen truncated) =
    some (s.startPublish b slotIndex writtenLen truncated) := if_pos hp
  unfold rbPublishEx
  unfold Sys.startPublish at hstart
  split_ifs at hstart ⊢ with hinit hpending
  · exact .now hstart ⟨rfl, hc⟩ rfl rfl
  · exact .now hstart ⟨rfl, hc⟩ rfl rfl
  · let written := clampWritten (payloadCap b s.rb.geo) s.rb.pendingWanted writtenLen truncated
    let sent : Sent :=
      { slotIndex, wantedLen := s.rb.pendingWanted, writtenLen, truncated,
        payload := s.rb.store.payload b s.rb.geo slotIndex }
    exact .after hstart rfl (pubHeader_returns (s := { s with p.sent := s.p.sent ++ [sent] }) hc
      ⟨slotIndex, written.1, written.2⟩)

theorem abort_returns (hrests : Rests s) : Returns b s (quiet (rbAbort s.rb)) :=
  .now (a := .abort) (if_pos hrests.producer) ⟨rfl, hrests.consumer⟩ rfl rfl

theorem write_returns (hrests : Rests s) (offset : Nat) (byte : UInt8) :
    Returns b s (quiet (payloadWrite b s.rb offset byte)) :=
  .now (a := .write offset byte) (if_pos hrests.producer) ⟨rfl, hrests.consumer⟩ rfl rfl

/-! ## The consumer -/

theorem read_returns (hrests : Rests s) (offset : Nat) :
    Returns b s (quiet (payloadRead b s.rb offset, s.rb)) :=
  .now (a := .read offset) (if_pos hrests.consumer) ⟨hrests.producer, rfl⟩ rfl rfl

theorem conHeader_returns (hp : s.p.pc = .idle) (slotIndex : UInt32) :
    Returns b (s.goC (.conHeader slotIndex)) (quiet (s.rb.latch b slotIndex)) :=
  .now (a := .consumer) rfl ⟨hp, rfl⟩ rfl rfl

/-- `rb_consume`, once the ring was found not to be empty. -/
theorem conEntry_returns (hp : s.p.pc = .idle) (tail : UInt32) {answer : Reply × Rb}
    (htake : s.rb.takeFront b tail = some answer) :
    Returns b (s.goC (.conEntry tail)) (quiet answer) := by
  unfold Rb.takeFront at htake
  split at htake
  next hfront => cases htake
  next err hfront =>
    obtain rfl := Option.some.inj htake
    have hnext : (s.goC (.conEntry tail)).consumerStep b = some (s.returnC (.code err)) := by
      simp only [Sys.consumerStep, Sys.goC, hfront]
      rfl
    exact .now (a := .consumer) hnext ⟨hp, rfl⟩ rfl rfl
  next i hfront =>
    dsimp only at htake
    split_ifs at htake with hstale hempty <;> obtain rfl := Option.some.inj htake
    · have hnext : (s.goC (.conEntry tail)).consumerStep b = some (s.goC (.conStale tail i)) := by
        simp only [Sys.consumerStep, Sys.goC, hfront, hstale]
        rfl
      refine .after (a := .consumer) hnext rfl ?_
      exact .now (a := .consumer) (congrArg some (if_pos hempty)) ⟨hp, rfl⟩ rfl rfl
    · have hnext : (s.goC (.conEntry tail)).consumerStep b = some (s.goC (.conStale tail i)) := by
        simp only [Sys.consumerStep, Sys.goC, hfront, hstale]
        rfl
      refine .after (a := .consumer) hnext rfl ?_
      exact .after (a := .consumer) (congrArg some (if_neg hempty)) rfl
        (conHeader_returns (s := s.refreshHead) hp i)
    · have hnext : (s.goC (.conEntry tail)).consumerStep b = some (s.goC (.conHeader i)) := by
        simp only [Sys.consumerStep, Sys.goC, hfront, hstale]
        rfl
      exact .after (a := .consumer) hnext rfl (conHeader_returns hp i)

theorem consume_returns (hrests : Rests s) {answer : Reply × Rb}
    (hconsume : rbConsume b s.rb = some answer) : Returns b s (quiet answer) := by
  obtain ⟨hp, hc⟩ := hrests
  have hstart : step b s .consume = some s.startConsume := if_pos hc
  dsimp only [rbConsume] at hconsume
  unfold Sys.startConsume at hstart
  split_ifs at hstart hconsume with hinit hactive hcached hempty
  · obtain rfl := Option.some.inj hconsume
    exact .now hstart ⟨hp, rfl⟩ rfl rfl
  · obtain rfl := Option.some.inj hconsume
    exact .now hstart ⟨hp, rfl⟩ rfl rfl
  · obtain rfl := Option.some.inj hconsume
    refine .after hstart rfl ?_
    refine .after (a := .consumer) (congrArg (fun pc => some (s.goC pc)) (if_pos hcached)) rfl ?_
    exact .now (a := .consumer) (congrArg some (if_pos hempty)) ⟨hp, rfl⟩ rfl rfl
  · refine .after hstart rfl ?_
    refine .after (a := .consumer) (congrArg (fun pc => some (s.goC pc)) (if_pos hcached)) rfl ?_
    exact .after (a := .consumer) (congrArg some (if_neg hempty)) rfl
      (conEntry_returns (s := s.refreshHead) hp s.rb.tail hconsume)
  · refine .after hstart rfl ?_
    exact .after (a := .consumer) (congrArg (fun pc => some (s.goC pc)) (if_neg hcached)) rfl
      (conEntry_returns hp s.rb.tail hconsume)

theorem relLowE_returns (hp : s.p.pc = .idle) (oldCount newCount : UInt32) :
    Returns b (s.goC (.relLowE oldCount newCount))
      ((.code .ok, (s.rb.crossLowE oldCount newCount).1),
        (s.rb.crossLowE oldCount newCount).2) := by
  dsimp only [Rb.crossLowE]
  split_ifs with hdown hup
  · refine .after (a := .consumer) (congrArg some (if_pos hdown)) rfl ?_
    exact .now_callback (a := .consumer) rfl ⟨hp, rfl⟩ rfl rfl
  · exact .now (a := .consumer) (congrArg some ((if_neg hdown).trans (if_pos hup))) ⟨hp, rfl⟩
      rfl rfl
  · exact .now (a := .consumer) (congrArg some ((if_neg hdown).trans (if_neg hup))) ⟨hp, rfl⟩
      rfl rfl

/-- The two thresholds, after the store of `tail`. -/
theorem crossing_returns (hp : s.p.pc = .idle) (oldCount newCount : UInt32) :
    Returns b (s.goC (s.crossing oldCount newCount))
      ((.code .ok, (s.rb.crossLowD oldCount newCount).1 ++
          ((s.rb.crossLowD oldCount newCount).2.crossLowE oldCount newCount).1),
        ((s.rb.crossLowD oldCount newCount).2.crossLowE oldCount newCount).2) := by
  dsimp only [Rb.crossLowD, Sys.crossing]
  split_ifs with hdown hup
  · let cleared : Sys := { s with
      rb.lowDLatch := 1
      rb.fullLatch := 0
      rb.stats.lowDHits := s.rb.stats.lowDHits + 1 }
    refine .after (a := .consumer) rfl rfl (.callback (a := .consumer) rfl rfl ?_)
    exact relLowE_returns (s := cleared.callback s.rb.cb.onLowD .lowD) hp oldCount newCount
  · exact .after (a := .consumer) rfl rfl
      (relLowE_returns (s := { s with rb.fullLatch := 0 }) hp oldCount newCount)
  · exact relLowE_returns hp oldCount newCount

/-- `rb_release` from the store of `tail` on. -/
theorem relStore_returns (hp : s.p.pc = .idle) (tail : UInt32) :
    Returns b (s.goC (.relStore tail))
      (let rb := { s.rb with
        tail := tail + 1, consumerActive := 0, stats.consumed := s.rb.stats.consumed + 1 }
      let newCount := rb.cachedHead - (tail + 1)
      let lowD := rb.crossLowD (newCount + 1) newCount
      let lowE := lowD.2.crossLowE (newCount + 1) newCount
      ((.code .ok, lowD.1 ++ lowE.1), lowE.2)) :=
  .after (a := .consumer) rfl rfl (crossing_returns (s := s.storeTail (tail + 1)) hp _ _)

theorem release_returns (hrests : Rests s) (slotIndex : UInt32) :
    Returns b s (rbRelease b s.rb slotIndex) := by
  obtain ⟨hp, hc⟩ := hrests
  have hstart : step b s (.release slotIndex) = some (s.startRelease slotIndex) := if_pos hc
  unfold rbRelease
  unfold Sys.startRelease at hstart
  split_ifs at hstart ⊢ with hinit hwrong
  · exact .now hstart ⟨hp, rfl⟩ rfl rfl
  · exact .now hstart ⟨hp, rfl⟩ rfl rfl
  · refine .after hstart rfl ?_
    by_cases hmode : b.mode = .lap
    · refine .after (a := .consumer) (congrArg (fun pc => some (s.goC pc)) (if_pos hmode)) rfl ?_
      exact .after (a := .consumer) rfl rfl (relStore_returns
        (s := s.setStore (s.rb.store.recycle b s.rb.geo slotIndex s.rb.tail)) hp s.rb.tail)
    · have hsame : s.rb.store.recycle b s.rb.geo slotIndex s.rb.tail = s.rb.store := by
        unfold Store.recycle
        cases hcase : b.mode <;> simp_all
      dsimp only
      rw [hsame]
      refine .after (a := .consumer) (congrArg (fun pc => some (s.goC pc)) (if_neg hmode)) rfl ?_
      exact relStore_returns hp s.rb.tail

/-! ## Runs -/

/-- Every call of a thread alone is the whole call. -/
theorem call_returns (hrests : Rests s) {c : Call} (hc : c.threaded = true)
    {answer : Output × Rb} (hcall : rbCall b s.rb c = some answer) : Returns b s answer := by
  cases c with
  | acquire w => exact Option.some.inj hcall ▸ acquire_returns hrests w
  | write offset byte => exact Option.some.inj hcall ▸ write_returns hrests offset byte
  | publish i n => exact Option.some.inj hcall ▸ publishEx_returns hrests i n false
  | publishEx i n t => exact Option.some.inj hcall ▸ publishEx_returns hrests i n t
  | abort => exact Option.some.inj hcall ▸ abort_returns hrests
  | consume =>
      obtain ⟨answer', hconsume, rfl⟩ := Option.map_eq_some_iff.mp hcall
      exact consume_returns hrests hconsume
  | read offset => exact Option.some.inj hcall ▸ read_returns hrests offset
  | release i => exact Option.some.inj hcall ▸ release_returns hrests i
  | count | isFull | isEmpty | setLimit _ | setLowD _ | setLowE _ | setOversizePolicy _
  | setCallbacks _ | setProducerStack _ | setConsumerStack _ => cases hc

/-- What a run of whole calls leaves in the log. -/
def logged (outputs : List Output) : List Obs :=
  outputs.flatMap fun output => output.2.map .event ++ [.reply output.1]

/-- A run of whole calls is a run of the two threads, with the same callbacks and
replies. -/
theorem run_alone {rb rb' : Rb} {calls : List Call} {outputs : List Output}
    (hrun : (ring b).run rb calls = some (outputs, rb'))
    (hcalls : ∀ c ∈ calls, c.threaded = true) :
    ∃ s, (machine b).Reaches (start rb) s ∧ Rests s ∧ s.rb = rb' ∧ s.log = logged outputs := by
  refine (ring b).run_invariant
    (fun seen state => ∃ s, (machine b).Reaches (start rb) s ∧ Rests s ∧ s.rb = state ∧
      s.log = logged seen) hrun ?_ [] ⟨start rb, .refl _ _, ⟨rfl, rfl⟩, rfl, rfl⟩
  rintro seen state c output next hmem ⟨s, hreach, hrests, rfl, hlog⟩ hstep
  obtain ⟨s', hreach', hrests', hrb, hlog'⟩ := call_returns hrests (hcalls c hmem) hstep
  refine ⟨s', hreach.trans hreach', hrests', hrb, ?_⟩
  rw [hlog', hlog]
  simp [logged]

end RingBuff.Threads
