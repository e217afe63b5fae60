import RingBuff.Threads.Ring

/-! # Wait-freedom

No message call waits for the other thread. Inside a call a thread can always move,
every move brings it nearer to its return, and the other thread can neither hold it up
nor spoil its answer: a message that is there when `rb_consume` looks for it will be
returned, and room that is there when `rb_acquire` looks for it will be reserved.
-/

namespace RingBuff.Threads

variable {b : Build} {s s' : Sys} {a : Act} {rb : Rb}

/-- At most so many moves of the producer until its call returns. -/
def ProducerPc.movesLeft : ProducerPc → Nat
  | .idle => 0
  | .acqHead _ => 2
  | .acqTail _ _ => 1
  | .pubHeader _ => 12
  | .pubHead _ => 11
  | .pubEntry _ _ => 10
  | .pubStore _ _ => 9
  | .pubWaiters _ _ => 8
  | .pubWake _ _ => 7
  | .pubEventfd _ _ => 6
  | .pubTail _ _ => 5
  | .pubAdded _ _ => 4
  | .pubLatch => 3
  | .pubSetLatch => 2
  | .pubFull => 1

/-- At most so many moves of the consumer until `rb_consume` or `rb_release`
returns. -/
def ConsumerPc.movesLeft : ConsumerPc → Nat
  | .conTail => 5
  | .conHead _ => 4
  | .conEntry _ => 3
  | .conStale _ _ => 2
  | .conHeader _ => 1
  | .relTail _ => 7
  | .relStamp _ _ => 6
  | .relStore _ => 5
  | .relClear _ _ => 4
  | .relLowD _ _ | .relClearUp _ _ => 3
  | .relLowE _ _ => 2
  | .relFireE => 1
  | .idle | .waitCount _ _ | .waitStart _ _ | .waitRaise _ | .waitCheck _ | .waitNow _
  | .waitFutex _ | .waitAsleep _ | .waitLate _ | .waitLower _ | .fdRead => 0

theorem ProducerPc.movesLeft_eq_zero {pc : ProducerPc} : pc.movesLeft = 0 ↔ pc = .idle := by
  cases pc <;> simp [movesLeft]

theorem ConsumerPc.movesLeft_eq_zero {pc : ConsumerPc} :
    pc.movesLeft = 0 ↔ pc.messaging = false := by
  cases pc <;> simp [movesLeft, messaging]

/-! ## One move -/

theorem ProducerBranch.movesLeft_lt (hbranch : ProducerBranch b s a s') :
    s'.p.pc.movesLeft < s.p.pc.movesLeft := by
  cases hbranch with
  | store m head hpc =>
      rw [hpc]
      dsimp only [Sys.goP]
      split_ifs <;> simp [ProducerPc.movesLeft]
  | acqLook w hpc _ | acqRoom w hpc _ | waiting m _ hpc _ | noWaiter m _ hpc _
  | eventfdFails m _ hpc _ | addedFull m _ hpc _ | added m _ hpc _ | acqFull w _ hpc _
  | acqFreed w _ hpc _ | header m hpc | head m hpc | entry m _ hpc | wake m _ hpc
  | eventfd m _ hpc | tail m _ hpc | latchOpen hpc _ | latchSet hpc _ | setLatch hpc
  | full hpc =>
      rw [hpc]
      exact Nat.lt_of_sub_eq_succ rfl

theorem ConsumerBranch.movesLeft_lt (hbranch : ConsumerBranch b s s') :
    s'.c.pc.movesLeft < s.c.pc.movesLeft := by
  cases hbranch with
  | store tail hpc =>
      rw [hpc]
      apply Sys.crossing_of (fun pc => pc.movesLeft < 5) <;> simp [ConsumerPc.movesLeft]
  | conLook hpc _ | conCached hpc _ | conEmpty _ hpc _ | conFresh _ hpc _ | conRefuse _ _ hpc _
  | conStamp _ _ hpc _ _ | conFound _ _ hpc _ _ | staleEmpty _ _ hpc _ | staleFresh _ _ hpc _
  | take _ hpc | relLap _ hpc _ | relPlain _ hpc _ | recycle _ _ hpc | clear _ _ hpc
  | fireD _ _ hpc | clearUp _ _ hpc | lowEDown _ _ hpc | lowEUp _ _ hpc | lowESame _ _ hpc
  | fireE hpc =>
      rw [hpc]
      exact Nat.lt_of_sub_eq_succ rfl

theorem producer_movesLeft_lt (hstep : step b s a = some s') (ha : a.byProducer = true)
    (hbusy : 0 < s.p.pc.movesLeft) : s'.p.pc.movesLeft < s.p.pc.movesLeft := by
  rcases producer_cases ha hstep with ⟨hidle, -⟩ | hbranch
  · rw [hidle] at hbusy
    exact absurd hbusy (Nat.lt_irrefl 0)
  · exact hbranch.movesLeft_lt

theorem consumer_movesLeft_lt (hstep : step b s a = some s') (ha : a.byProducer = false)
    (hbusy : 0 < s.c.pc.movesLeft) : s'.c.pc.movesLeft < s.c.pc.movesLeft := by
  rcases consumer_cases ha hstep with ⟨hidle, -⟩ | ⟨-, hbranch⟩ | ⟨-, haside⟩
  · rw [hidle] at hbusy
    exact absurd hbusy (Nat.lt_irrefl 0)
  · exact hbranch.movesLeft_lt
  · rw [ConsumerPc.movesLeft_eq_zero.mpr haside.before] at hbusy
    exact absurd hbusy (Nat.lt_irrefl 0)

/-! ## Calls in progress -/

/-- Inside `rb_publish_ex`. -/
def ProducerPc.inPublish : ProducerPc → Bool
  | .pubHeader _ | .pubHead _ | .pubEntry _ _ | .pubStore _ _ | .pubWaiters _ _ | .pubWake _ _
  | .pubEventfd _ _ | .pubTail _ _ | .pubAdded _ _ | .pubLatch | .pubSetLatch | .pubFull => true
  | .idle | .acqHead _ | .acqTail _ _ => false

/-- Inside `rb_release`. -/
def ConsumerPc.inRelease : ConsumerPc → Bool
  | .relTail _ | .relStamp _ _ | .relStore _ | .relClear _ _ | .relLowD _ _ | .relClearUp _ _
  | .relLowE _ _ | .relFireE => true
  | .idle | .conTail | .conHead _ | .conEntry _ | .conStale _ _ | .conHeader _ | .waitCount _ _
  | .waitStart _ _ | .waitRaise _ | .waitCheck _ | .waitNow _ | .waitFutex _ | .waitAsleep _
  | .waitLate _ | .waitLower _ | .fdRead => false

theorem ConsumerPc.messaging_of_inRelease {pc : ConsumerPc} (hpc : pc.inRelease = true) :
    pc.messaging = true := by
  cases pc <;> simp_all [inRelease, messaging]

/-- In a message call the consumer only has its next step. -/
theorem consumer_next (hmsg : s.c.pc.messaging = true) (ha : a.byProducer = false)
    (hstep : step b s a = some s') : a = .consumer ∧ ConsumerBranch b s s' := by
  rcases consumer_cases ha hstep with ⟨hidle, -⟩ | hnext | ⟨-, haside⟩
  · rw [hidle] at hmsg
    cases hmsg
  · exact hnext
  · rw [haside.before] at hmsg
    cases hmsg

theorem publish_next (hin : s.p.pc.inPublish = true) (ha : a.byProducer = true)
    (hstep : step b s a = some s') :
    s'.p.pc.inPublish = true ∨ reply s a s' = some (.code .ok) := by
  rcases producer_cases ha hstep with ⟨hidle, -⟩ | hbranch
  · rw [hidle] at hin
    cases hin
  cases hbranch with
  | acqLook w hat _ | acqRoom w hat _ | acqFull w _ hat _ | acqFreed w _ hat _ =>
      rw [hat] at hin
      cases hin
  | store m head hat =>
      dsimp only [Sys.goP]
      split_ifs
      · exact Or.inl rfl
      · exact Or.inl rfl
  | header m hat | head m hat | entry m _ hat | waiting m _ hat _ | noWaiter m _ hat _
  | wake m _ hat | eventfd m _ hat | eventfdFails m _ hat _ | tail m _ hat
  | addedFull m _ hat _ | latchOpen hat _ | setLatch hat => exact Or.inl rfl
  | added m _ hat _ | latchSet hat _ | full hat => exact Or.inr (reply_returnP ha _)

theorem release_next (hin : s.c.pc.inRelease = true) (ha : a.byProducer = false)
    (hstep : step b s a = some s') :
    s'.c.pc.inRelease = true ∨ reply s a s' = some (.code .ok) := by
  have hmsg := ConsumerPc.messaging_of_inRelease hin
  obtain ⟨rfl, hbranch⟩ := consumer_next hmsg ha hstep
  cases hbranch with
  | conLook hpc _ | conCached hpc _ | conFresh _ hpc _ | conStamp _ _ hpc _ _
  | conFound _ _ hpc _ _ | staleFresh _ _ hpc _ | conEmpty _ hpc _ | conRefuse _ _ hpc _
  | staleEmpty _ _ hpc _ | take _ hpc =>
      rw [hpc] at hin
      cases hin
  | store tail hpc =>
      exact Or.inl (Sys.crossing_of (fun pc => pc.inRelease = true) rfl rfl rfl)
  | relLap _ hpc _ | relPlain _ hpc _ | recycle _ _ hpc | clear _ _ hpc | fireD _ _ hpc
  | clearUp _ _ hpc | lowEDown _ _ hpc => exact Or.inl rfl
  | lowEUp _ _ hpc | lowESame _ _ hpc | fireE hpc =>
      exact Or.inr (reply_returnC rfl (by simp [hmsg]) _)

/-- A move lowers what is left of its own thread's call and nothing else. -/
theorem movesLeft_step (hstep : step b s a = some s') :
    (s.p.pc ≠ .idle → s'.p.pc.movesLeft + (if a.byProducer = true then 1 else 0) ≤
        s.p.pc.movesLeft) ∧
      (s.c.pc.messaging = true → s'.c.pc.movesLeft + (if a.byProducer = false then 1 else 0) ≤
        s.c.pc.movesLeft) := by
  cases ha : a.byProducer with
  | true =>
      refine ⟨fun hbusy => ?_, fun _ => ?_⟩
      · refine producer_movesLeft_lt hstep ha (Nat.pos_of_ne_zero fun hzero => hbusy ?_)
        exact ProducerPc.movesLeft_eq_zero.mp hzero
      · rw [(step_producerMove ha hstep).frame.side]
        exact le_rfl
  | false =>
      refine ⟨fun _ => ?_, fun hmsg => ?_⟩
      · rw [(step_consumerMove ha hstep).frame.side]
        exact le_rfl
      · refine consumer_movesLeft_lt hstep ha (Nat.pos_of_ne_zero fun hzero => ?_)
        rw [ConsumerPc.movesLeft_eq_zero.mp hzero] at hmsg
        cases hmsg

/-! ## Waiting for a message -/

/-- A consumer in `rb_consume`, which it was in already at `s₀`. -/
structure AwaitsMessage (b : Build) (s₀ s : Sys) : Prop where
  ring : Ring b s
  geo : s.rb.geo = s₀.rb.geo
  consuming : s.c.pc.consuming = true
  released : s.c.released = s₀.c.released
  sent : s₀.p.sent <+: s.p.sent
  published : s₀.p.published ≤ s.p.published

/-- The oldest message, if there was one at `s₀`. -/
def GivesOldest (b : Build) (s₀ : Sys) (r : Reply) : Prop :=
  s₀.c.released < s₀.p.published → ∃ x, s₀.p.sent[s₀.c.released]? = some x ∧
    r = .message x.slotIndex (x.recorded (payloadCap b s₀.rb.geo)).1
      (x.recorded (payloadCap b s₀.rb.geo)).2

/-- Inside `rb_consume` no slot is held. -/
theorem Counted.consuming (hok : Counted s) (hpc : s.c.pc.consuming = true) : Consuming s := by
  refine ⟨Or.inr hpc, ?_⟩
  have hlocals := hok.consumer.locals
  cases hat : s.c.pc <;> simp_all [ConsumerLocals, ConsumerPc.consuming]

theorem AwaitsMessage.step {s₀ : Sys} (hok : Counted s₀) (hwait : AwaitsMessage b s₀ s)
    (haddr : b.mode = .pointer → s₀.rb.geo.Addressable b)
    (hwrap : WrapSafe s₀.rb.geo.slots s'.p.published) (hstep : Threads.step b s a = some s') :
    (a.byProducer = false ∧ ∃ r, reply s a s' = some r ∧ GivesOldest b s₀ r) ∨
      AwaitsMessage b s₀ s' := by
  obtain ⟨hring, hgeo, hpc, hreleased, hsent, hpublished⟩ := hwait
  have hgeo' : s'.rb.geo = s.rb.geo := congrArg Prod.fst (step_settings hstep)
  have haddr' : b.mode = .pointer → s.rb.geo.Addressable b := hgeo ▸ haddr
  have hring' := hring.step haddr' hstep (by rw [hgeo', hgeo]; exact hwrap)
  cases ha : a.byProducer with
  | true =>
      have hframe := (step_producerMove ha hstep).frame
      exact Or.inr ⟨hring', hgeo'.trans hgeo, hframe.side ▸ hpc, hframe.side ▸ hreleased,
        hsent.trans hframe.sent, hpublished.trans hframe.published_le⟩
  | false =>
      have hframe := (step_consumerMove ha hstep).frame
      have hconsuming := hring.counted.consuming hpc
      have hmsg := ConsumerPc.messaging_of_consuming hpc
      obtain ⟨rfl, -⟩ := consumer_next hmsg ha hstep
      have hcall : s.callC .consume = .consumer := if_neg fun hidle => by
        rw [hidle] at hpc
        cases hpc
      have hcase := consume_step hring.live hconsuming (hcall.symm ▸ hstep)
      have hempty : ∀ err, reply s .consumer s' = some (.code err) →
          s.p.published = s.c.released := fun err hreply =>
        hring.empty_of_nothing haddr' hconsuming (hcall.symm ▸ hstep) (hcall.symm ▸ hreply)
      rw [hcall] at hcase
      generalize reply s .consumer s' = r at hcase hempty
      cases hcase with
      | going hpc' hactive' hdelivered =>
          refine Or.inr ⟨hring', hgeo'.trans hgeo, hpc', ?_, hframe.side ▸ hsent,
            hframe.side ▸ hpublished⟩
          rw [released_of_consuming hring'.counted ⟨Or.inr hpc', hactive'⟩, hdelivered,
            ← released_of_consuming hring.counted hconsuming, hreleased]
      | nothing err hpc' hactive' hdelivered =>
          refine Or.inl ⟨rfl, _, rfl, fun hlt => ?_⟩
          have hsame := hempty err rfl
          omega
      | message i len truncated hheld hdelivered =>
          refine Or.inl ⟨rfl, _, rfl, fun hlt => ?_⟩
          have hget : s'.c.delivered[s₀.c.released]? = some ⟨i, len, truncated⟩ := by
            rw [hdelivered, ← hreleased, released_of_consuming hring.counted hconsuming,
              List.getElem?_concat_length]
          obtain ⟨m, hm, hd⟩ := hring'.delivered hget
          obtain ⟨x, hx⟩ := hok.exists_sent hlt
          -- the other thread has only sent more since
          have hx' := getElem?_of_prefix hsent hx
          rw [hframe.side, hx'] at hm
          obtain rfl := Option.some.inj hm
          obtain ⟨rfl, rfl, rfl⟩ := Delivered.mk.inj hd
          rw [hgeo', hgeo]
          exact ⟨x, hx, rfl⟩

/-! ## Waiting for room -/

/-- A producer in `rb_acquire`, which it was in already at `s₀`. -/
structure AwaitsRoom (b : Build) (wantedLen : UInt32) (s₀ s : Sys) : Prop where
  ring : Ring b s
  settings : s.rb.settings = s₀.rb.settings
  busy : s.p.pc ≠ .idle
  acquires : s.p.pc.acquires wantedLen
  published : s.p.published = s₀.p.published
  released : s₀.c.released ≤ s.c.released

/-- The next slot, if there was room at `s₀` and the length is not refused. -/
def GivesSlot (b : Build) (wantedLen : UInt32) (s₀ : Sys) (r : Reply) : Prop :=
  s₀.p.published < s₀.c.released + s₀.rb.limit.toNat →
    r = .reserved (s₀.rb.geo.slotAt s₀.p.published) (payloadCap b s₀.rb.geo) ∨
      r = .code .oversize ∧ payloadCap b s₀.rb.geo < wantedLen ∧
        s₀.rb.oversizePolicy = .drop

/-- Inside `rb_acquire` nothing is reserved. -/
theorem Counted.acquiring (hok : Counted s) {wantedLen : UInt32} (hbusy : s.p.pc ≠ .idle)
    (hpc : s.p.pc.acquires wantedLen) : Acquiring s wantedLen := by
  refine ⟨hpc, ?_⟩
  have hlocals := hok.producer.locals
  cases hat : s.p.pc <;> simp_all [ProducerLocals, ProducerPc.acquires]

theorem acquire_next {wantedLen : UInt32} (hbusy : s.p.pc ≠ .idle)
    (hpc : s.p.pc.acquires wantedLen) (ha : a.byProducer = true)
    (hstep : step b s a = some s') :
    a = .producer ∧ (reply s a s' = none → s'.p.pc ≠ .idle) := by
  rcases producer_cases ha hstep with ⟨hidle, -⟩ | hbranch
  · exact absurd hidle hbusy
  cases hbranch with
  | acqLook w hat _ => exact ⟨rfl, fun _ => by rintro ⟨⟩⟩
  | acqRoom w hat _ | acqFreed w head hat _ =>
      refine ⟨rfl, fun hreply => ?_⟩
      rw [finishAcquire_reply rfl] at hreply
      cases hreply
  | acqFull w head hat _ =>
      refine ⟨rfl, fun hreply => ?_⟩
      rw [reply_returnP rfl] at hreply
      cases hreply
  | header _ hat | head _ hat | entry _ _ hat | store _ _ hat | waiting _ _ hat _
  | noWaiter _ _ hat _ | wake _ _ hat | eventfd _ _ hat | eventfdFails _ _ hat _
  | tail _ _ hat | addedFull _ _ hat _ | added _ _ hat _ | latchOpen hat _ | latchSet hat _
  | setLatch hat | full hat =>
      rw [hat] at hpc
      exact hpc.elim

theorem AwaitsRoom.step {s₀ : Sys} {wantedLen : UInt32} (hwait : AwaitsRoom b wantedLen s₀ s)
    (haddr : b.mode = .pointer → s₀.rb.geo.Addressable b)
    (hwrap : WrapSafe s₀.rb.geo.slots s'.p.published) (hstep : Threads.step b s a = some s') :
    (a.byProducer = true ∧ ∃ r, reply s a s' = some r ∧ GivesSlot b wantedLen s₀ r) ∨
      AwaitsRoom b wantedLen s₀ s' := by
  obtain ⟨hring, hset, hbusy, hpc, hpublished, hreleased⟩ := hwait
  have hset' : s'.rb.settings = s₀.rb.settings := (step_settings hstep).trans hset
  have hgeo : s.rb.geo = s₀.rb.geo := congrArg Prod.fst hset
  have hgeo' : s'.rb.geo = s₀.rb.geo := congrArg Prod.fst hset'
  have hring' := hring.step (hgeo ▸ haddr) hstep (by rw [hgeo']; exact hwrap)
  cases ha : a.byProducer with
  | false =>
      have hframe := (step_consumerMove ha hstep).frame
      exact Or.inr ⟨hring', hset', hframe.side ▸ hbusy, hframe.side ▸ hpc,
        hframe.side ▸ hpublished, hreleased.trans hframe.released_le⟩
  | true =>
      have hframe := (step_producerMove ha hstep).frame
      have hacquiring := hring.counted.acquiring hbusy hpc
      obtain ⟨rfl, hgoing⟩ := acquire_next hbusy hpc ha hstep
      have hcall : s.callP (.acquire wantedLen) = .producer := if_neg hbusy
      have hcase := acquire_step hring.geo.toMasked hring.live hacquiring (hcall.symm ▸ hstep)
      have hfull := hring.counted.full_of_reply hacquiring hstep
      rw [hcall] at hcase
      simp only [Rb.settings, Prod.mk.injEq] at hset
      generalize reply s .producer s' = r at hcase hfull hgoing
      cases hcase with
      | going hacquiring' hsent =>
          refine Or.inr ⟨hring', hset', hgoing rfl, hacquiring'.pc, ?_, hframe.side ▸ hreleased⟩
          rw [published_of_acquiring hring'.counted hacquiring', hsent,
            ← published_of_acquiring hring.counted hacquiring, hpublished]
      | full hpc' hpending hsent =>
          refine Or.inl ⟨rfl, _, rfl, fun hroom => ?_⟩
          have hfull := hfull rfl
          rw [hset.2.1] at hfull
          omega
      | oversize hover hdrop hpc' hpending hsent =>
          exact Or.inl ⟨rfl, _, rfl, fun _ => Or.inr ⟨rfl, hgeo ▸ hover, by
            rw [← hset.2.2.2.2.1]; exact hdrop⟩⟩
      | reserved i hreserved hsent =>
          refine Or.inl ⟨rfl, _, rfl, fun _ => Or.inl ?_⟩
          have hslot := (hring'.counted.producer.reserved (by rw [hreserved.pc]; rfl)
            hreserved.pending).1
          rw [hreserved.slot, published_of_idle hring'.counted hreserved.pc, hsent,
            ← published_of_acquiring hring.counted hacquiring, hpublished, hgeo'] at hslot
          rw [hslot, hgeo]

/-! ## Runs -/

/-- The thread is inside a call. -/
def Sys.busy (s : Sys) (producer : Bool) : Prop :=
  if producer then s.p.pc ≠ .idle else s.c.pc ≠ .idle

/-- In the course of `acts` the call that a thread is in returns with `r`. -/
def ReturnsWith (b : Build) (producer : Bool) (s : Sys) (acts : List Act) (r : Reply) : Prop :=
  ∃ front a rest seen middle next, acts = front ++ a :: rest ∧
    (machine b).run s front = some (seen, middle) ∧
    (∀ before, (machine b).Visits s front before → before.busy producer) ∧
    a.byProducer = producer ∧ step b middle a = some next ∧ reply middle a next = some r

/-- A call that waits for nothing but its own moves returns when it has made them. -/
theorem returnsWith_of_wait (producer : Bool) {slots : UInt32} (rank : Sys → Nat)
    (wait : Sys → Prop) (answer : Reply → Prop)
    (hbusy : ∀ {t}, wait t → t.busy producer ∧ 0 < rank t)
    (hstep : ∀ {t a t'}, wait t → WrapSafe slots t'.p.published → step b t a = some t' →
      (a.byProducer = producer ∧ ∃ r, reply t a t' = some r ∧ answer r) ∨ wait t')
    (hrank : ∀ {t a t'}, wait t → step b t a = some t' →
      rank t' + (if a.byProducer = producer then 1 else 0) ≤ rank t)
    {acts : List Act} {outs : List Unit} {last : Sys}
    (hrun : (machine b).run s acts = some (outs, last))
    (hwrap : WrapSafe slots last.p.published) (hwait : wait s)
    (hcount : rank s ≤ acts.countP fun a => a.byProducer = producer) :
    ∃ r, ReturnsWith b producer s acts r ∧ answer r := by
  obtain ⟨front, a, rest, seen, middle, _, next, rfl, hfront, hbefore, hone, ha, r, hreply, hr⟩ :=
    (machine b).exists_goal_of_rank (fun a => a.byProducer = producer) rank wait
      (fun t a t' => a.byProducer = producer ∧ ∃ r, reply t a t' = some r ∧ answer r)
      (fun t => WrapSafe slots t.p.published)
      (fun hmove hnext => hnext.mono (step_published_le (machine_step_eq_some.mp hmove)))
      (fun hwait => (hbusy hwait).2)
      (fun hwait hnext hmove => by
        have hmove := machine_step_eq_some.mp hmove
        refine (hstep hwait hnext hmove).imp_right fun hwait' => ⟨hwait', ?_⟩
        simpa using hrank hwait hmove)
      hrun hwrap hwait hcount
  exact ⟨r, ⟨front, a, rest, seen, middle, next, rfl, hfront,
    fun before hvisit => (hbusy (hbefore before hvisit)).1, ha, machine_step_eq_some.mp hone,
    hreply⟩, hr⟩

/-- What a thread inside a message call can rely on, whatever the other one does. -/
structure Served (b : Build) (s : Sys) (acts : List Act) : Prop where
  /-- It can always move. -/
  moves : (s.p.pc ≠ .idle → ∃ s', step b s .producer = some s') ∧
    (s.c.pc.messaging = true → ∃ s', step b s .consumer = some s')
  /-- `rb_acquire` returns after two moves, with a slot if there is room. -/
  acquire : ∀ wantedLen, s.p.pc ≠ .idle → s.p.pc.acquires wantedLen →
    2 ≤ acts.countP (fun a => a.byProducer = true) →
      ∃ r, ReturnsWith b true s acts r ∧ GivesSlot b wantedLen s r
  publish : s.p.pc.inPublish = true → 12 ≤ acts.countP (fun a => a.byProducer = true) →
    ReturnsWith b true s acts (.code .ok)
  /-- `rb_consume` returns after five moves, with the oldest message if there is one. -/
  consume : s.c.pc.consuming = true → 5 ≤ acts.countP (fun a => a.byProducer = false) →
    ∃ r, ReturnsWith b false s acts r ∧ GivesOldest b s r
  release : s.c.pc.inRelease = true → 7 ≤ acts.countP (fun a => a.byProducer = false) →
    ReturnsWith b false s acts (.code .ok)

section Threads

variable (wait : Sys → Prop) (answer : Reply → Prop) {slots : UInt32} {acts : List Act}
  {outs : List Unit} {last : Sys} (hrun : (machine b).run s acts = some (outs, last))
  (hwrap : WrapSafe slots last.p.published) (hwait : wait s)

include hrun hwrap hwait

theorem producer_returns (hbusy : ∀ {t}, wait t → t.p.pc ≠ .idle)
    (hstep : ∀ {t a t'}, wait t → WrapSafe slots t'.p.published → step b t a = some t' →
      (a.byProducer = true ∧ ∃ r, reply t a t' = some r ∧ answer r) ∨ wait t')
    (hcount : s.p.pc.movesLeft ≤ acts.countP fun a => a.byProducer = true) :
    ∃ r, ReturnsWith b true s acts r ∧ answer r :=
  returnsWith_of_wait true (fun t => t.p.pc.movesLeft) wait answer
    (fun hwait => ⟨hbusy hwait, Nat.pos_of_ne_zero fun hzero =>
      hbusy hwait (ProducerPc.movesLeft_eq_zero.mp hzero)⟩)
    hstep (fun hwait hmove => (movesLeft_step hmove).1 (hbusy hwait)) hrun hwrap hwait hcount

theorem consumer_returns (hbusy : ∀ {t}, wait t → t.c.pc.messaging = true)
    (hstep : ∀ {t a t'}, wait t → WrapSafe slots t'.p.published → step b t a = some t' →
      (a.byProducer = false ∧ ∃ r, reply t a t' = some r ∧ answer r) ∨ wait t')
    (hcount : s.c.pc.movesLeft ≤ acts.countP fun a => a.byProducer = false) :
    ∃ r, ReturnsWith b false s acts r ∧ answer r := by
  refine returnsWith_of_wait false (fun t => t.c.pc.movesLeft) wait answer
    (fun {t} hwait => ⟨?_, ?_⟩) hstep
    (fun hwait hmove => (movesLeft_step hmove).2 (hbusy hwait)) hrun hwrap hwait hcount
  · intro hidle
    have hmsg := hbusy hwait
    rw [hidle] at hmsg
    cases hmsg
  · refine Nat.pos_of_ne_zero fun hzero => ?_
    have hmsg := hbusy hwait
    rw [ConsumerPc.movesLeft_eq_zero.mp hzero] at hmsg
    cases hmsg

end Threads

theorem ProducerPc.movesLeft_acquire {pc : ProducerPc} {wantedLen : UInt32}
    (hpc : pc.acquires wantedLen) : pc.movesLeft ≤ 2 := by
  cases pc <;> simp_all [acquires, movesLeft]

theorem ProducerPc.movesLeft_publish (pc : ProducerPc) : pc.movesLeft ≤ 12 := by
  cases pc <;> simp [movesLeft]

theorem ConsumerPc.movesLeft_consume {pc : ConsumerPc} (hpc : pc.consuming = true) :
    pc.movesLeft ≤ 5 := by
  cases pc <;> simp_all [consuming, movesLeft]

theorem ConsumerPc.movesLeft_release (pc : ConsumerPc) : pc.movesLeft ≤ 7 := by
  cases pc <;> simp [movesLeft]

/-- On a ring that keeps its promises, and under every schedule. -/
theorem Ring.served (hring : Ring b s) (haddr : b.mode = .pointer → s.rb.geo.Addressable b)
    {acts : List Act} {outs : List Unit} {last : Sys}
    (hrun : (machine b).run s acts = some (outs, last))
    (hwrap : WrapSafe s.rb.geo.slots last.p.published) : Served b s acts where
  moves := ⟨fun hbusy => ⟨s.producerNext b, if_neg hbusy⟩,
    consumerStep_isSome fun hmode => (haddr hmode).stride_ne⟩
  acquire wantedLen hbusy hpc hcount :=
    producer_returns (AwaitsRoom b wantedLen s) (GivesSlot b wantedLen s) hrun hwrap
      ⟨hring, rfl, hbusy, hpc, rfl, le_rfl⟩ AwaitsRoom.busy (fun hwait => hwait.step haddr)
      ((ProducerPc.movesLeft_acquire hpc).trans hcount)
  publish hin hcount := by
    have hstep : ∀ {t a t'}, t.p.pc.inPublish = true →
        WrapSafe s.rb.geo.slots t'.p.published → Threads.step b t a = some t' →
        (a.byProducer = true ∧ ∃ r, reply t a t' = some r ∧ r = .code .ok) ∨
          t'.p.pc.inPublish = true := by
      intro t a t' hin _ hstep
      cases ha : a.byProducer with
      | true => exact (publish_next hin ha hstep).symm.imp_left fun hreply => ⟨rfl, _, hreply, rfl⟩
      | false => exact Or.inr ((step_consumerMove ha hstep).frame.side ▸ hin)
    obtain ⟨r, hreturns, rfl⟩ := producer_returns (fun t => t.p.pc.inPublish = true)
      (· = .code .ok) hrun hwrap hin (fun hin hidle => by rw [hidle] at hin; cases hin) hstep
      ((ProducerPc.movesLeft_publish _).trans hcount)
    exact hreturns
  consume hpc hcount :=
    consumer_returns (AwaitsMessage b s) (GivesOldest b s) hrun hwrap
      ⟨hring, rfl, hpc, rfl, List.prefix_rfl, le_rfl⟩
      (fun hwait => ConsumerPc.messaging_of_consuming hwait.consuming)
      (fun hwait => hwait.step hring.counted haddr)
      ((ConsumerPc.movesLeft_consume hpc).trans hcount)
  release hin hcount := by
    have hstep : ∀ {t a t'}, t.c.pc.inRelease = true →
        WrapSafe s.rb.geo.slots t'.p.published → Threads.step b t a = some t' →
        (a.byProducer = false ∧ ∃ r, reply t a t' = some r ∧ r = .code .ok) ∨
          t'.c.pc.inRelease = true := by
      intro t a t' hin _ hstep
      cases ha : a.byProducer with
      | false => exact (release_next hin ha hstep).symm.imp_left fun hreply => ⟨rfl, _, hreply, rfl⟩
      | true => exact Or.inr ((step_producerMove ha hstep).frame.side ▸ hin)
    obtain ⟨r, hreturns, rfl⟩ := consumer_returns (fun t => t.c.pc.inRelease = true)
      (· = .code .ok) hrun hwrap hin ConsumerPc.messaging_of_inRelease hstep
      ((ConsumerPc.movesLeft_release _).trans hcount)
    exact hreturns

end RingBuff.Threads
