import RingBuff.Foundation.Linearizability
import RingBuff.Queue.Model
import RingBuff.Threads.Replies
import RingBuff.Threads.Safety

/-! # The two threads share an atomic queue

The calls of the producer and of the consumer overlap, and their steps interleave
in any order. Seen from outside, each call happens at one moment: a publish at
its store of `head`, a release at its store of `tail`, and every other call at the
step in which it returns. Between these moments the state stands for one bounded
queue, the same that whole calls refine.
-/

namespace RingBuff.Threads

variable {b : Build} {s s' : Sys} {a : Act} {Q : Queue}

/-! ## What a move shows -/

/-- What a move from `s` to `s'` shows of the message calls. -/
def shown (s : Sys) (a : Act) (s' : Sys) : Shown Side Call Reply where
  thread := a.side
  called := a.call
  returned := reply s a s'

/-- The machine with the calls and the replies of both threads as its output. -/
def observed (b : Build) : Automaton Sys Act (Shown Side Call Reply) where
  step s a := (step b s a).map fun s' => (shown s a s', s')

/-! ## Phases -/

/-- The call that published a message. -/
def Sent.call (x : Sent) : Call := .publishEx x.slotIndex x.writtenLen x.truncated

/-- The publish in progress. -/
def ProducerSide.publishCall (p : ProducerSide) : Call :=
  (p.sent.getLast?.map Sent.call).getD .abort

def Sys.producerPhase (s : Sys) : CallPhase Call Reply :=
  match s.p.pc with
  | .idle => .idle
  | .acqHead wantedLen | .acqTail wantedLen _ => .called (.acquire wantedLen)
  | .pubHeader _ | .pubHead _ | .pubEntry _ _ | .pubStore _ _ => .called s.p.publishCall
  | .pubWaiters _ _ | .pubWake _ _ | .pubEventfd _ _ | .pubTail _ _ | .pubAdded _ _ | .pubLatch
  | .pubSetLatch | .pubFull => .done s.p.publishCall (.code .ok)

def Sys.consumerPhase (s : Sys) : CallPhase Call Reply :=
  match s.c.pc with
  | .conTail | .conHead _ | .conEntry _ | .conStale _ _ | .conHeader _ => .called .consume
  | .relTail _ | .relStamp _ _ | .relStore _ => .called (.release s.rb.consumerSlot)
  | .relClear _ _ | .relLowD _ _ | .relClearUp _ _ | .relLowE _ _ | .relFireE =>
      .done (.release s.rb.consumerSlot) (.code .ok)
  | .idle | .waitCount _ _ | .waitStart _ _ | .waitRaise _ | .waitCheck _ | .waitNow _
  | .waitFutex _ | .waitAsleep _ | .waitLate _ | .waitLower _ | .fdRead => .idle

/-! ## The queue a state stands for -/

/-- The messages that have been published and not released. -/
def Sys.live (s : Sys) : List Sent := (s.p.sent.take s.p.published).drop s.c.released

/-- The pending reservation; it ends with the store of `head`. -/
def Sys.reservation (s : Sys) : Option (UInt32 × UInt32) :=
  if s.rb.pendingSlot ≠ noPending ∧ s.p.pc.handedOver = false then
    some (s.rb.pendingSlot, s.rb.pendingWanted)
  else none

/-- A message of the queue is one that was sent. -/
structure SameMessage (cap : UInt32) (m : Message) (x : Sent) : Prop where
  slot : m.slotIndex = x.slotIndex
  recorded : (m.len, m.truncated) = x.recorded cap
  payload : ∀ off < cap.toNat, m.payload off = x.payload off

/-- The state stands for the queue. -/
structure Abstracts (b : Build) (s : Sys) (Q : Queue) : Prop where
  slots : Q.slots = s.rb.geo.slots
  cap : Q.cap = payloadCap b s.rb.geo
  limit : Q.limit = s.rb.limit
  policy : Q.oversizePolicy = s.rb.oversizePolicy
  published : Q.published = s.p.published
  messages : List.Forall₂ (SameMessage (payloadCap b s.rb.geo)) Q.messages s.live
  pending : Q.pending = s.reservation
  held : Q.held = decide (s.rb.consumerActive ≠ 0)
  bytes : ∀ i, i.toNat < s.rb.geo.slots.toNat → ∀ off < (payloadCap b s.rb.geo).toNat,
    Q.bytes i off = s.rb.store.payload b s.rb.geo i off

/-- The empty queue of a ring. -/
def emptyQueue (b : Build) (rb : Rb) : Queue where
  capacity := rb.geo.capacity
  slots := rb.geo.slots
  cap := payloadCap b rb.geo
  limit := rb.limit
  oversizePolicy := rb.oversizePolicy
  published := 0
  messages := []
  pending := none
  held := false
  bytes := rb.store.payload b rb.geo

theorem Counted.live_length (hok : Counted s) :
    s.live.length = s.p.published - s.c.released := by
  have hlength := hok.producer.sent_length
  rw [Sys.live, List.length_drop, List.length_take]
  omega

/-- The oldest live message. -/
theorem Counted.live_cons (hok : Counted s) (hlt : s.c.released < s.p.published) :
    ∃ x, s.p.sent[s.c.released]? = some x ∧
      s.live = x :: (s.p.sent.take s.p.published).drop (s.c.released + 1) := by
  obtain ⟨x, hx⟩ := hok.exists_sent hlt
  have hget : (s.p.sent.take s.p.published)[s.c.released]? = some x := by
    rw [List.getElem?_take_of_lt hlt, hx]
  obtain ⟨hin, hget⟩ := List.getElem?_eq_some_iff.mp hget
  exact ⟨x, hx, by rw [Sys.live, List.drop_eq_getElem_cons hin, hget]⟩

/-- While a message is being published it is the last one sent. -/
theorem Counted.getLast?_sent (hok : Counted s) (hpub : s.p.pc.publishing = true) :
    s.p.sent.getLast? = s.p.sent[s.p.published]? := by
  have hlength := hok.producer.sent_length
  rw [hpub] at hlength
  rw [List.getLast?_eq_getElem?, hlength]
  rfl

namespace Abstracts

/-- A move that changes nothing the queue is about. -/
theorem congr (habs : Abstracts b s Q) (hset : s'.rb.settings = s.rb.settings)
    (hpub : s'.p.published = s.p.published) (hlive : s'.live = s.live)
    (hres : s'.reservation = s.reservation)
    (hactive : s'.rb.consumerActive = s.rb.consumerActive)
    (hbytes : ∀ i, i.toNat < s.rb.geo.slots.toNat → ∀ off < (payloadCap b s.rb.geo).toNat,
      s'.rb.store.payload b s.rb.geo i off = s.rb.store.payload b s.rb.geo i off) :
    Abstracts b s' Q := by
  simp only [Rb.settings, Prod.mk.injEq] at hset
  obtain ⟨hgeo, hlimit, -, -, hpolicy, -⟩ := hset
  constructor
  · rw [hgeo]; exact habs.slots
  · rw [hgeo]; exact habs.cap
  · rw [hlimit]; exact habs.limit
  · rw [hpolicy]; exact habs.policy
  · rw [hpub]; exact habs.published
  · rw [hgeo, hlive]; exact habs.messages
  · rw [hres]; exact habs.pending
  · rw [hactive]; exact habs.held
  · rw [hgeo]
    intro i hi off hoff
    rw [hbytes i hi off hoff]
    exact habs.bytes i hi off hoff

theorem messages_length (habs : Abstracts b s Q) (hok : Counted s) :
    Q.messages.length = s.p.published - s.c.released := by
  rw [habs.messages.length_eq, hok.live_length]

/-- The queue computes the slot of the next message without wrapping. -/
theorem nextSlot (habs : Abstracts b s Q) (hok : Counted s)
    (hwrap : WrapSafe s.rb.geo.slots s.p.published) :
    Q.nextSlot = s.rb.geo.slotAt s.p.published := by
  apply UInt32.toNat_inj.mp
  rw [Queue.nextSlot, habs.published, habs.slots, hok.sized.slotAt_toNat]
  have hpos := hok.sized.slots_pos
  have hlt := Nat.mod_lt s.p.published hpos
  have hslots := s.rb.geo.slots.toNat_lt
  rw [Counter.toNat_of_lt (by omega)]
  rcases hwrap with hpow | hlt
  · rw [Nat.mod_mod_of_dvd _ (Counter.dvd_of_isPow2 hpow)]
  · rw [Nat.mod_eq_of_lt hlt]

end Abstracts

theorem queue_step (Q : Queue) (c : Call) :
    queue.step Q c = some ((Q.call c).1, (Q.call c).2) := rfl

/-! ## Moves of the producer -/

theorem reservation_none (hnone : s.rb.pendingSlot = noPending) : s.reservation = none :=
  if_neg fun hres => hres.1 hnone

theorem reservation_some (hsome : s.rb.pendingSlot ≠ noPending)
    (hover : s.p.pc.handedOver = false) :
    s.reservation = some (s.rb.pendingSlot, s.rb.pendingWanted) :=
  if_pos ⟨hsome, hover⟩

theorem reservation_congr (hslot : s'.rb.pendingSlot = s.rb.pendingSlot)
    (hwanted : s'.rb.pendingWanted = s.rb.pendingWanted)
    (hover : s'.p.pc.handedOver = s.p.pc.handedOver) : s'.reservation = s.reservation := by
  rw [Sys.reservation, hslot, hwanted, hover]
  rfl

/-- The publish in progress is for the pending reservation. -/
def Publishing (s : Sys) : Prop :=
  s.p.pc.publishing = true → ∃ x, s.p.sent.getLast? = some x ∧ x.slotIndex = s.rb.pendingSlot ∧
    x.wantedLen = s.rb.pendingWanted

/-- How the producer's phase and the queue go on. -/
structure ProducerAdvance (b : Build) (s : Sys) (a : Act) (s' : Sys) (Q Q' : Queue) : Prop where
  phase : CallPhase.Advance queue Q s.producerPhase a.call (reply s a s') s'.producerPhase Q'
  queue : Abstracts b s' Q'
  publishing : Publishing s'

namespace ProducerAdvance

/-- A call that is one step. -/
theorem whole (ha : a.byProducer = true) (hpc : s.p.pc = .idle) {c : Call} (hcall : a.call = some c)
    {Q' : Queue} {r : Reply} (hQ : Q.call c = (r, Q')) (habs : Abstracts b (s'.returnP r) Q') :
    ProducerAdvance b s a (s'.returnP r) Q Q' where
  phase := by
    rw [hcall, reply_returnP ha, show s.producerPhase = .idle by rw [Sys.producerPhase, hpc]]
    exact .whole (by rw [queue_step, hQ])
  queue := habs
  publishing := by rintro ⟨⟩

/-- The step in which an acquire returns. -/
theorem last (hcall : a.call = none) (ha : a.byProducer = true) {w : UInt32}
    (hphase : s.producerPhase = .called (.acquire w)) {Q' : Queue} {r : Reply}
    (hQ : Q.call (.acquire w) = (r, Q')) (habs : Abstracts b (s'.returnP r) Q') :
    ProducerAdvance b s a (s'.returnP r) Q Q' where
  phase := by
    rw [hcall, reply_returnP ha, hphase]
    exact .last (by rw [queue_step, hQ])
  queue := habs
  publishing := by rintro ⟨⟩

/-- A publish returns. -/
theorem answer (hcall : a.call = none) (ha : a.byProducer = true)
    (hphase : s.producerPhase = .done s.p.publishCall (.code .ok))
    (habs : Abstracts b (s'.returnP (.code .ok)) Q) :
    ProducerAdvance b s a (s'.returnP (.code .ok)) Q Q where
  phase := by
    rw [hcall, reply_returnP ha, hphase]
    exact .answer _ _
  queue := habs
  publishing := by rintro ⟨⟩

/-- A step inside a call. -/
theorem stay (hcall : a.call = none) (ha : a.byProducer = true) (hpc : s'.p.pc ≠ .idle)
    (hphase : s'.producerPhase = s.producerPhase) (habs : Abstracts b s' Q)
    (hpub : Publishing s') : ProducerAdvance b s a s' Q Q where
  phase := by
    rw [hcall, reply_busyP ha hpc, hphase]
    exact .stay _
  queue := habs
  publishing := hpub

end ProducerAdvance

/-- The oversize test of the source also asks for a non-zero length, which a length
above the capacity always is. -/
theorem oversize_iff {cap wantedLen : UInt32} {policy : OversizePolicy} :
    (wantedLen ≠ 0 ∧ cap < wantedLen ∧ policy = .drop) ↔ (cap < wantedLen ∧ policy = .drop) := by
  refine ⟨And.right, fun hover => ⟨?_, hover⟩⟩
  rintro rfl
  exact Nat.not_lt_zero _ (UInt32.lt_iff_toNat_lt.mp hover.1)

/-- With room, the queue reserves what the ring reserves. -/
theorem Abstracts.finishAcquire (habs : Abstracts b s Q)
    (hnone : s.rb.pendingSlot = noPending) (hroom : Q.messages.length < s.rb.limit.toNat)
    {head : UInt32} (hslot : Q.nextSlot = slotIndexFor s.rb.geo head)
    (hlt : (slotIndexFor s.rb.geo head).toNat < s.rb.geo.slots.toNat) (w : UInt32) :
    ∃ Q', Q.call (.acquire w) = ((reserve b s.rb w head).1, Q') ∧
      Abstracts b (s.finishAcquire b w head) Q' := by
  have hpend : Q.pending = none := habs.pending.trans (reservation_none hnone)
  have hfree : s.reservation = none := reservation_none hnone
  have hlen : Q.messages.length ≠ Q.limit.toNat := by
    rw [habs.limit]
    exact hroom.ne
  rw [Queue.call, Queue.acquire, if_neg (by simp [hpend]), if_neg hlen, hslot, habs.cap,
    habs.policy]
  simp only [Sys.finishAcquire, reserve, oversize_iff]
  split_ifs with hbig
  · refine ⟨Q, rfl, habs.congr rfl rfl rfl ?_ rfl fun _ _ _ _ => rfl⟩
    rw [hfree]
    exact reservation_none hnone
  · refine ⟨_, rfl, habs.slots, habs.cap, habs.limit, habs.policy, habs.published, habs.messages,
      ?_, habs.held, habs.bytes⟩
    exact (if_pos ⟨Geometry.Masked.ne_noPending hlt, rfl⟩).symm

/-- A full ring is a full queue. -/
theorem Abstracts.acquire_full (habs : Abstracts b s Q) (hok : Counted s)
    (hnone : s.rb.pendingSlot = noPending)
    (hfull : s.rb.limit.toNat ≤ s.p.published - s.c.released) (w : UInt32) :
    Q.call (.acquire w) = (.code .full, Q) := by
  have hpend : Q.pending = none := habs.pending.trans (reservation_none hnone)
  have hroom := hok.published_le
  have hlen : Q.messages.length = Q.limit.toNat := by
    rw [habs.limit, habs.messages_length hok]
    omega
  rw [Queue.call, Queue.acquire, if_neg (by simp [hpend]), if_pos hlen]

/-- A payload byte is written in both. -/
theorem Abstracts.write (habs : Abstracts b s Q) (hgeo : s.rb.geo.Sound b) (hok : Counted s)
    (hpc : s.p.pc = .idle) (hsome : s.rb.pendingSlot ≠ noPending) {offset : Nat}
    (hlt : offset < (payloadCap b s.rb.geo).toNat) (byte : UInt8) :
    ∃ Q', Q.call (.write offset byte) = (.code .ok, Q') ∧
      Abstracts b
        ((s.setStore (s.rb.store.setPayload b s.rb.geo s.rb.pendingSlot offset byte)).returnP
          (.code .ok)) Q' := by
  have hpend := habs.pending.trans (reservation_some hsome (by rw [hpc]; rfl))
  obtain ⟨hslot, -⟩ := hok.producer.reserved (by rw [hpc]; rfl) hsome
  have hmine := hok.sized.slotAt_lt s.p.published
  rw [← hslot] at hmine
  have hcall : Q.call (.write offset byte) =
      (.code .ok, Q.setByte s.rb.pendingSlot offset byte) := by
    simp [Queue.call, Queue.write, hpend, habs.cap, hlt]
  refine ⟨_, hcall, habs.slots, habs.cap, habs.limit, habs.policy, habs.published, habs.messages,
    ?_, habs.held, ?_⟩
  · exact hpend.trans (if_pos ⟨hsome, rfl⟩).symm
  · intro i hi off hoff
    dsimp only [Sys.returnP, Sys.setStore, Queue.setByte]
    by_cases hat : i = s.rb.pendingSlot ∧ off = offset
    · obtain ⟨rfl, rfl⟩ := hat
      rw [Function.update_self, Function.update_self, Store.payload_setPayload_same]
    · rw [Store.payload_setPayload_ne hgeo hmine hi byte hlt hoff (by tauto)]
      by_cases hi' : i = s.rb.pendingSlot
      · subst hi'
        rw [Function.update_self, Function.update_of_ne (by tauto)]
        exact habs.bytes _ hi off hoff
      · rw [Function.update_of_ne hi']
        exact habs.bytes i hi off hoff

/-- The store of `head` appends the message. -/
theorem Abstracts.storeHead (habs : Abstracts b s Q) (hok : Counted s) (hkept : Kept b s)
    (hpublishing : Publishing s) {m : Outgoing} {head : UInt32} (hpc : s.p.pc = .pubStore m head)
    {pc : ProducerPc} (hover : pc.handedOver = true) :
    ∃ Q', Q.call s.p.publishCall = (.code .ok, Q') ∧
      Abstracts b ((s.storeHead (head + 1)).goP pc) Q' := by
  have hlocals := hok.producer.locals
  simp only [ProducerLocals, hpc] at hlocals
  obtain ⟨x, hlast, hslot, hwanted⟩ := hpublishing (by rw [hpc]; rfl)
  have hx := (hok.getLast?_sent (by rw [hpc]; rfl)).symm.trans hlast
  have hat := hok.producer.sent_slot _ x hx
  have hpend := habs.pending.trans (reservation_some hlocals.1 (by rw [hpc]; rfl))
  rw [← hslot, ← hwanted] at hpend
  have hcall : Q.call s.p.publishCall =
      (.code .ok, Q.push (Q.message x.slotIndex x.wantedLen x.writtenLen x.truncated)) := by
    simp [ProducerSide.publishCall, hlast, Sent.call, Queue.call, Queue.publishEx, hpend]
  have hlive : ((s.storeHead (head + 1)).goP pc).live = s.live ++ [x] := by
    have hle := hok.released_le
    have hlength := hok.producer.sent_length
    show (s.p.sent.take (s.p.published + 1)).drop s.c.released = _
    rw [List.take_add_one, hx, Option.toList_some, List.drop_append_of_le_length]
    · rfl
    · rw [List.length_take]
      omega
  refine ⟨_, hcall, habs.slots, habs.cap, habs.limit, habs.policy,
    congrArg (· + 1) habs.published, ?_, ?_, habs.held, habs.bytes⟩
  · rw [hlive]
    refine List.rel_append habs.messages (.cons ⟨rfl, ?_, ?_⟩ .nil)
    · rw [Sent.recorded, clampWritten_eq]
      simp only [Queue.message, habs.cap]
    · intro off hoff
      have hpayload := hkept.payload _ x hok.released_le hx off hoff
      have hlt := hok.sized.slotAt_lt s.p.published
      rw [← hat] at hpayload hlt
      exact (habs.bytes _ hlt off hoff).trans hpayload
  · exact (if_neg fun hres => by simpa [Sys.goP, hover] using hres.2).symm

theorem producerStart_advances (ha : a.byProducer = true) (hpc : s.p.pc = .idle)
    (hstart : ProducerStart b s a s') (hgeo : s.rb.geo.Sound b) (hok : Counted s)
    (habs : Abstracts b s Q) : ∃ Q', ProducerAdvance b s a s' Q Q' := by
  have hlive := hgeo.scratchSize_pos
  have hidle : s.p.pc.handedOver = false := by rw [hpc]; rfl
  have hsame : ∀ {r}, Abstracts b (s.returnP r) Q := by
    intro r
    exact habs.congr rfl rfl rfl (reservation_congr rfl rfl hidle.symm) rfl fun _ _ _ _ => rfl
  cases hstart with
  | acquireDead w hinit | publishDead i n t hinit | abortDead hinit => omega
  | acquirePending w hsome =>
      have hpend := habs.pending.trans (reservation_some hsome hidle)
      exact ⟨Q, .whole ha hpc rfl (by simp [Queue.call, Queue.acquire, hpend]) hsame⟩
  | acquire w hnone =>
      refine ⟨Q, ⟨?_, ?_, (by rintro ⟨⟩)⟩⟩
      · rw [show s.producerPhase = .idle by rw [Sys.producerPhase, hpc]]
        exact .call _
      · exact habs.congr rfl rfl rfl (reservation_congr rfl rfl hidle.symm) rfl fun _ _ _ _ => rfl
  | writeOutside offset byte hout =>
      refine ⟨Q, .whole ha hpc rfl ?_ hsame⟩
      by_cases hsome : s.rb.pendingSlot = noPending
      · have hpend := habs.pending.trans (reservation_none hsome)
        simp [Queue.call, Queue.write, hpend]
      · have hpend := habs.pending.trans (reservation_some hsome hidle)
        have hlt : ¬ offset < Q.cap.toNat := fun hlt => hout ⟨hsome, habs.cap ▸ hlt⟩
        simp [Queue.call, Queue.write, hpend, hlt]
  | write offset byte hsome hlt =>
      obtain ⟨Q', hcall, habs'⟩ := habs.write hgeo hok hpc hsome hlt byte
      exact ⟨Q', .whole ha hpc rfl hcall habs'⟩
  | publishOther i n t hother =>
      refine ⟨Q, .whole ha hpc rfl ?_ hsame⟩
      by_cases hsome : s.rb.pendingSlot = noPending
      · have hpend := habs.pending.trans (reservation_none hsome)
        simp [Queue.call, Queue.publishEx, hpend]
      · have hpend := habs.pending.trans (reservation_some hsome hidle)
        have hne := hother.resolve_left hsome
        simp [Queue.call, Queue.publishEx, hpend, hne]
  | publish i n t hsome hslot =>
      refine ⟨Q, ⟨?_, ?_, fun _ => ⟨_, List.getLast?_concat, hslot.symm, rfl⟩⟩⟩
      · rw [show s.producerPhase = .idle by rw [Sys.producerPhase, hpc]]
        have hphase : Sys.producerPhase { s with
            p.pc := .pubHeader
              ⟨i, (clampWritten (payloadCap b s.rb.geo) s.rb.pendingWanted n t).1,
                (clampWritten (payloadCap b s.rb.geo) s.rb.pendingWanted n t).2⟩
            p.sent := s.p.sent ++
              [⟨i, s.rb.pendingWanted, n, t, s.rb.store.payload b s.rb.geo i⟩] } =
            .called (.publishEx i n t) := by
          simp [Sys.producerPhase, ProducerSide.publishCall, Sent.call]
        rw [hphase]
        exact .call _
      · have hlength := hok.producer.sent_length
        rw [hpc] at hlength
        refine habs.congr rfl rfl ?_ (reservation_congr rfl rfl hidle.symm) rfl fun _ _ _ _ => rfl
        have hle : s.p.published ≤ s.p.sent.length := hlength.ge
        simp only [Sys.live]
        rw [List.take_append_of_le_length hle]
  | abortNone hnone =>
      have hpend := habs.pending.trans (reservation_none hnone)
      exact ⟨Q, .whole ha hpc rfl (by simp [Queue.call, Queue.abort, hpend]) hsame⟩
  | abort hsome =>
      have hpend := habs.pending.trans (reservation_some hsome hidle)
      refine ⟨Q.withPending none,
        .whole ha hpc rfl (by simp [Queue.call, Queue.abort, hpend]) ?_⟩
      exact ⟨habs.slots, habs.cap, habs.limit, habs.policy, habs.published, habs.messages,
        (reservation_none rfl).symm, habs.held, habs.bytes⟩

theorem Abstracts.producerMove (habs : Abstracts b s Q) (hset : s'.rb.settings = s.rb.settings)
    (hstore : s'.rb.store = s.rb.store) (hpub : s'.p.published = s.p.published)
    (hsent : s'.p.sent = s.p.sent) (hother : s'.c = s.c)
    (hactive : s'.rb.consumerActive = s.rb.consumerActive)
    (hres : s'.reservation = s.reservation) : Abstracts b s' Q := by
  refine habs.congr hset hpub ?_ hres hactive fun _ _ _ _ => by rw [hstore]
  rw [Sys.live, hsent, hpub, hother, Sys.live]

theorem producerBranch_advances (hbranch : ProducerBranch b s a s') (hgeo : s.rb.geo.Sound b)
    (hok : Counted s) (hwrap : WrapSafe s.rb.geo.slots s.p.published) (hkept : Kept b s)
    (hpublishing : Publishing s) (habs : Abstracts b s Q) :
    ∃ Q', ProducerAdvance b s a s' Q Q' := by
  have hlocals := hok.producer.locals
  have hlen := habs.messages_length hok
  have hknown := hok.producer.knownTail_le
  have hslot : Q.nextSlot = slotIndexFor s.rb.geo s.rb.head := by
    rw [hok.producer.head]
    exact habs.nextSlot hok hwrap
  have hlt : (slotIndexFor s.rb.geo s.rb.head).toNat < s.rb.geo.slots.toNat :=
    hok.sized.slotIndexFor_lt _
  cases hbranch with
  | acqLook w hpc hfull =>
      refine ⟨Q, .stay rfl rfl (by rintro ⟨⟩) ?_ ?_ (by rintro ⟨⟩)⟩
      · simp only [Sys.producerPhase, hpc]
        rfl
      · exact habs.producerMove rfl rfl rfl rfl rfl rfl
          (reservation_congr rfl rfl (by rw [hpc]; rfl))
  | acqRoom w hpc hroom =>
      simp only [ProducerLocals, hpc] at hlocals
      rw [hok.producer.limit_le_cached hok.sized] at hroom
      obtain ⟨Q', hcall, habs'⟩ := habs.finishAcquire hlocals (by omega) hslot hlt w
      exact ⟨Q', .last rfl rfl (by rw [Sys.producerPhase, hpc]) hcall habs'⟩
  | acqFull w head hpc hfull =>
      simp only [ProducerLocals, hpc] at hlocals
      obtain ⟨hnone, rfl⟩ := hlocals
      rw [UInt32.le_iff_toNat_le, hok.count_eq] at hfull
      refine ⟨Q, .last rfl rfl (by rw [Sys.producerPhase, hpc])
        (habs.acquire_full hok hnone hfull w) ?_⟩
      exact habs.producerMove rfl rfl rfl rfl rfl rfl
        (reservation_congr rfl rfl (by rw [hpc]; rfl))
  | acqFreed w head hpc hroom =>
      simp only [ProducerLocals, hpc] at hlocals
      obtain ⟨hnone, rfl⟩ := hlocals
      rw [UInt32.le_iff_toNat_le, hok.count_eq] at hroom
      have hfresh : Abstracts b s.refreshTail Q :=
        habs.producerMove rfl rfl rfl rfl rfl rfl (reservation_congr rfl rfl rfl)
      have hroom : Q.messages.length < s.rb.limit.toNat := by omega
      obtain ⟨Q', hcall, habs'⟩ := hfresh.finishAcquire hnone hroom hslot hlt w
      exact ⟨Q', .last rfl rfl (by rw [Sys.producerPhase, hpc]) hcall habs'⟩
  | header m hpc =>
      simp only [ProducerLocals, hpc] at hlocals
      have hmine := hok.sized.slotAt_lt s.p.published
      rw [← (hok.producer.reserved (by rw [hpc]; rfl) hlocals.1).1, ← hlocals.2] at hmine
      refine ⟨Q, .stay rfl rfl (by rintro ⟨⟩) ?_ ?_ fun _ => hpublishing (by rw [hpc]; rfl)⟩
      · simp only [Sys.producerPhase, hpc]
        rfl
      · exact habs.congr rfl rfl rfl (reservation_congr rfl rfl (by rw [hpc]; rfl)) rfl
          fun i hi off hoff => Store.payload_setHeader hgeo hmine hi _ hoff
  | head m hpc =>
      refine ⟨Q, .stay rfl rfl (by rintro ⟨⟩) ?_ ?_ fun _ => hpublishing (by rw [hpc]; rfl)⟩
      · simp only [Sys.producerPhase, hpc]
        rfl
      · exact habs.producerMove rfl rfl rfl rfl rfl rfl
          (reservation_congr rfl rfl (by rw [hpc]; rfl))
  | entry m head hpc =>
      simp only [ProducerLocals, hpc] at hlocals
      have hmine := hok.sized.slotAt_lt s.p.published
      rw [← (hok.producer.reserved (by rw [hpc]; rfl) hlocals.1).1, ← hlocals.2.1] at hmine
      refine ⟨Q, .stay rfl rfl (by rintro ⟨⟩) ?_ ?_ fun _ => hpublishing (by rw [hpc]; rfl)⟩
      · simp only [Sys.producerPhase, hpc]
        rfl
      · exact habs.congr rfl rfl rfl (reservation_congr rfl rfl (by rw [hpc]; rfl)) rfl
          fun i hi off hoff => Store.payload_enter hgeo hmine hi _ hoff
  | store m head hpc =>
      have hover : (if b.notify then ProducerPc.pubWaiters m head else .pubTail m head).handedOver =
          true := by split_ifs <;> rfl
      obtain ⟨Q', hcall, habs'⟩ := habs.storeHead hok hkept hpublishing hpc hover
      refine ⟨Q', ⟨?_, habs', ?_⟩⟩
      · have hphase : ((s.storeHead (head + 1)).goP
            (if b.notify then ProducerPc.pubWaiters m head else .pubTail m head)).producerPhase =
            .done s.p.publishCall (.code .ok) := by
          split_ifs <;> rfl
        have hbusy : ((s.storeHead (head + 1)).goP
            (if b.notify then ProducerPc.pubWaiters m head else .pubTail m head)).p.pc ≠ .idle := by
          dsimp only [Sys.goP]
          split_ifs <;> rintro ⟨⟩
        rw [hphase, reply_busyP rfl hbusy, show s.producerPhase = .called s.p.publishCall by
          rw [Sys.producerPhase, hpc]]
        exact .effect (by rw [queue_step, hcall])
      · intro hpub
        dsimp only [Sys.goP] at hpub
        split_ifs at hpub <;> cases hpub
  | tail m head hpc =>
      refine ⟨Q, .stay rfl rfl (by rintro ⟨⟩) ?_ ?_ (by rintro ⟨⟩)⟩
      · simp only [Sys.producerPhase, hpc]
        rfl
      · refine habs.producerMove rfl rfl rfl rfl rfl rfl ((reservation_none rfl).trans ?_)
        exact (if_neg fun hres => by simpa [hpc, ProducerPc.handedOver] using hres.2).symm
  | added m count hpc hroom =>
      refine ⟨Q, .answer rfl rfl (by rw [Sys.producerPhase, hpc]) ?_⟩
      exact habs.producerMove rfl rfl rfl rfl rfl rfl
        (reservation_congr rfl rfl (by rw [hpc]; rfl))
  | latchSet hpc hlatch | full hpc =>
      refine ⟨Q, .answer rfl rfl (by rw [Sys.producerPhase, hpc]) ?_⟩
      exact habs.producerMove rfl rfl rfl rfl rfl rfl
        (reservation_congr rfl rfl (by rw [hpc]; rfl))
  | waiting m head hpc | noWaiter m head hpc | wake m head hpc | eventfd m head hpc
  | eventfdFails m head hpc | addedFull m count hpc | latchOpen hpc | setLatch hpc =>
      refine ⟨Q, .stay rfl rfl (by rintro ⟨⟩) ?_ ?_ (by rintro ⟨⟩)⟩
      · simp only [Sys.producerPhase, hpc]
        rfl
      · exact habs.producerMove rfl rfl rfl rfl rfl rfl
          (reservation_congr rfl rfl (by rw [hpc]; rfl))

/-! ## Moves of the consumer -/

/-- How the consumer's phase and the queue go on. -/
structure ConsumerAdvance (b : Build) (s : Sys) (a : Act) (s' : Sys) (Q Q' : Queue) : Prop where
  phase : CallPhase.Advance queue Q s.consumerPhase a.call (reply s a s') s'.consumerPhase Q'
  queue : Abstracts b s' Q'

namespace ConsumerAdvance

/-- A call that is one step. -/
theorem whole (ha : a.byProducer = false) (hpc : s.c.pc = .idle) {c : Call}
    (hcall : a.call = some c) {Q' : Queue} {r : Reply} (hQ : Q.call c = (r, Q'))
    (habs : Abstracts b (s'.returnC r) Q') : ConsumerAdvance b s a (s'.returnC r) Q Q' where
  phase := by
    rw [reply_returnC ha (by simp [hcall]), hcall,
      show s.consumerPhase = .idle by rw [Sys.consumerPhase, hpc]]
    exact .whole (by rw [queue_step, hQ])
  queue := habs

/-- The step in which a consume returns. -/
theorem last (hmsg : s.c.pc.messaging = true) (hphase : s.consumerPhase = .called .consume)
    {Q' : Queue} {r : Reply} (hQ : Q.call .consume = (r, Q'))
    (habs : Abstracts b (s'.returnC r) Q') :
    ConsumerAdvance b s .consumer (s'.returnC r) Q Q' where
  phase := by
    rw [reply_returnC rfl (by simp [hmsg]), hphase]
    exact .last (by rw [queue_step, hQ])
  queue := habs

/-- A release returns. -/
theorem answer (hmsg : s.c.pc.messaging = true)
    (hphase : s.consumerPhase = .done (.release s.rb.consumerSlot) (.code .ok))
    (habs : Abstracts b (s'.returnC (.code .ok)) Q) :
    ConsumerAdvance b s .consumer (s'.returnC (.code .ok)) Q Q where
  phase := by
    rw [reply_returnC rfl (by simp [hmsg]), hphase]
    exact .answer _ _
  queue := habs

/-- A step inside a call. -/
theorem stay (hpc : s'.c.pc ≠ .idle) (hphase : s'.consumerPhase = s.consumerPhase)
    (habs : Abstracts b s' Q) : ConsumerAdvance b s .consumer s' Q Q where
  phase := by
    rw [reply_busyC rfl hpc, hphase]
    exact .stay _
  queue := habs

end ConsumerAdvance

/-- A move of the consumer that neither stores memory nor takes or frees a slot. -/
theorem Abstracts.consumerMove (habs : Abstracts b s Q) (hset : s'.rb.settings = s.rb.settings)
    (hstore : s'.rb.store = s.rb.store) (hother : s'.p = s.p)
    (hregs : s'.rb.producerRegs = s.rb.producerRegs)
    (hreleased : s'.c.released = s.c.released)
    (hactive : s'.rb.consumerActive = s.rb.consumerActive) : Abstracts b s' Q := by
  simp only [Rb.producerRegs, Prod.mk.injEq] at hregs
  obtain ⟨-, -, hslot, hwanted⟩ := hregs
  refine habs.congr hset (by rw [hother]) ?_ (reservation_congr hslot hwanted (by rw [hother]))
    hactive fun _ _ _ _ => by rw [hstore]
  rw [Sys.live, hother, hreleased, Sys.live]

/-- The message at the front of the queue is the one at the position to release. -/
theorem Abstracts.front (habs : Abstracts b s Q) (hok : Counted s)
    (hlt : s.c.released < s.p.published) :
    ∃ m rest x, Q.messages = m :: rest ∧ s.p.sent[s.c.released]? = some x ∧
      SameMessage (payloadCap b s.rb.geo) m x ∧
      List.Forall₂ (SameMessage (payloadCap b s.rb.geo)) rest
        ((s.p.sent.take s.p.published).drop (s.c.released + 1)) := by
  obtain ⟨x, hx, hlive⟩ := hok.live_cons hlt
  have hmessages := habs.messages
  rw [hlive] at hmessages
  obtain ⟨m, rest, hsame, hrest, hcons⟩ := List.forall₂_cons_right_iff.mp hmessages
  exact ⟨m, rest, x, hcons, hx, hsame, hrest⟩

/-- The queue reads the byte the ring reads. -/
theorem Abstracts.read (habs : Abstracts b s Q) (hok : Counted s) (howned : Owned b s)
    (offset : Nat) : Q.call (.read offset) = (payloadRead b s.rb offset, Q) := by
  have hheld := habs.held
  rw [Queue.call, Queue.read, payloadRead, hheld]
  by_cases hactive : s.rb.consumerActive = 0
  · simp [hactive]
  · have hlt := (hok.consumer.active hactive).trans_le hok.consumer.knownHead_le
    obtain ⟨m, rest, x, hmessages, hx, hsame, -⟩ := habs.front hok hlt
    simp only [hactive, hmessages, habs.cap, not_false_eq_true, decide_true, true_and, ne_eq]
    split_ifs with hoff
    · rw [hsame.payload offset hoff, ← howned.kept.payload _ x le_rfl hx offset hoff,
        howned.taken.held hactive]
    · rfl

/-- The message taken is the front of the queue. -/
theorem Abstracts.take (habs : Abstracts b s Q) (hok : Counted s) (howned : Owned b s)
    (hcap : (payloadCap b s.rb.geo).toNat < 2 ^ 31) {i : UInt32} (hpc : s.c.pc = .conHeader i)
    {d : Delivered} {r : Reply}
    (hr : r = .message i (headerLen (s.rb.store.header b s.rb.geo i))
      (headerTruncated (s.rb.store.header b s.rb.geo i))) :
    ∃ Q', Q.call .consume = (r, Q') ∧ Abstracts b ((s.latch d).returnC r) Q' := by
  have hlocals := hok.consumer.locals
  simp only [ConsumerLocals, hpc] at hlocals
  obtain ⟨hactive, hlt⟩ := hlocals
  have hlt := hlt.trans_le hok.consumer.knownHead_le
  obtain ⟨m, rest, x, hmessages, hx, hsame, -⟩ := habs.front hok hlt
  have hfront := howned.taken.front i hpc
  have hheader := howned.kept.header _ x le_rfl (Nat.lt_add_right _ hlt) hx
  rw [← hfront] at hheader
  have hheld : Q.held = false := by rw [habs.held, hactive]; rfl
  refine ⟨Q.hold, ?_, habs.slots, habs.cap, habs.limit, habs.policy, habs.published,
    habs.messages, habs.pending, rfl, habs.bytes⟩
  rw [Queue.call, Queue.consume, if_neg (by simp [hheld]), hmessages, hr, hheader,
    headerLen_encodeHeader (recorded_lt hcap x), headerTruncated_encodeHeader, ← hsame.recorded]
  dsimp only
  rw [hsame.slot, hok.producer.sent_slot _ x hx, hfront]

/-- The store of `tail` drops the front of the queue. -/
theorem Abstracts.storeTail (habs : Abstracts b s Q) (hok : Counted s) (howned : Owned b s)
    (hactive : s.rb.consumerActive ≠ 0) (tail : UInt32) (pc : ConsumerPc) :
    ∃ Q', Q.call (.release s.rb.consumerSlot) = (.code .ok, Q') ∧
      Abstracts b ((s.storeTail tail).goC pc) Q' := by
  have hlt := (hok.consumer.active hactive).trans_le hok.consumer.knownHead_le
  obtain ⟨m, rest, x, hmessages, hx, hsame, hrest⟩ := habs.front hok hlt
  have hheld : Q.held = true := by rw [habs.held]; exact decide_eq_true hactive
  have hslot : s.rb.consumerSlot = m.slotIndex := by
    rw [howned.taken.held hactive, hsame.slot, hok.producer.sent_slot _ x hx]
  refine ⟨Q.withFront rest, ?_, habs.slots, habs.cap, habs.limit, habs.policy, habs.published,
    hrest, habs.pending, rfl, habs.bytes⟩
  simp [Queue.call, Queue.release, hheld, hmessages, hslot]

theorem consumerStart_advances (ha : a.byProducer = false) (hpc : s.c.pc = .idle)
    (hstart : ConsumerStart b s a s') (hgeo : s.rb.geo.Sound b) (hok : Counted s)
    (howned : Owned b s) (habs : Abstracts b s Q) : ∃ Q', ConsumerAdvance b s a s' Q Q' := by
  have hlive := hgeo.scratchSize_pos
  have hsame : ∀ {r}, Abstracts b (s.returnC r) Q := habs.consumerMove rfl rfl rfl rfl rfl rfl
  have hidle : s.consumerPhase = .idle := by rw [Sys.consumerPhase, hpc]
  cases hstart with
  | consumeDead hinit | releaseDead i hinit => omega
  | consumeActive hactive =>
      have hheld : Q.held = true := habs.held.trans (decide_eq_true hactive)
      exact ⟨Q, .whole ha hpc rfl (by simp [Queue.call, Queue.consume, hheld]) hsame⟩
  | consume hactive =>
      refine ⟨Q, ⟨?_, habs.consumerMove rfl rfl rfl rfl rfl rfl⟩⟩
      rw [hidle, reply_busyC rfl (by rintro ⟨⟩)]
      exact .call _
  | read offset => exact ⟨Q, .whole ha hpc rfl (habs.read hok howned offset) hsame⟩
  | releaseOther i hother =>
      refine ⟨Q, .whole ha hpc rfl ?_ hsame⟩
      by_cases hactive : s.rb.consumerActive = 0
      · have hheld : Q.held = false := by rw [habs.held, hactive]; rfl
        simp [Queue.call, Queue.release, hheld]
      · have hheld : Q.held = true := habs.held.trans (decide_eq_true hactive)
        have hlt := (hok.consumer.active hactive).trans_le hok.consumer.knownHead_le
        obtain ⟨m, rest, x, hmessages, hx, hsame, -⟩ := habs.front hok hlt
        have hslot : i ≠ m.slotIndex := by
          rw [hsame.slot, hok.producer.sent_slot _ x hx, ← howned.taken.held hactive]
          exact hother.resolve_left hactive
        simp [Queue.call, Queue.release, hheld, hmessages, hslot]
  | release i hactive hslot =>
      refine ⟨Q, ⟨?_, habs.consumerMove rfl rfl rfl rfl rfl rfl⟩⟩
      rw [hidle, reply_busyC rfl (by rintro ⟨⟩), hslot]
      exact .call _

theorem consumerBranch_advances (hbranch : ConsumerBranch b s s') (hgeo : s.rb.geo.Sound b)
    (haddr : b.mode = .pointer → s.rb.geo.Addressable b) (hok : Counted s) (howned : Owned b s)
    (hcap : (payloadCap b s.rb.geo).toNat < 2 ^ 31) (habs : Abstracts b s Q) :
    ∃ Q', ConsumerAdvance b s .consumer s' Q Q' := by
  have hlocals := hok.consumer.locals
  -- what the consumer finds for the front position
  have hfound : ∀ {tail}, s.c.pc = .conEntry tail →
      s.rb.store.frontSlot b s.rb.geo tail = some (.ok (s.rb.geo.slotAt s.c.released)) ∧
        s.rb.store.stale b s.rb.geo tail (s.rb.geo.slotAt s.c.released) = false := by
    intro tail hpc
    simp only [ConsumerLocals, hpc] at hlocals
    obtain ⟨-, rfl, hlt⟩ := hlocals
    have hlt := hlt.trans_le hok.consumer.knownHead_le
    have hent := howned.kept.entered s.c.released
      (by simp [ConsumerSide.freed, hpc, ConsumerPc.freeing]) (Nat.lt_add_right _ hlt)
    rw [hok.consumer.tail]
    exact ⟨hent.frontSlot (hgeo.findable haddr), hent.not_stale⟩
  cases hbranch with
  | conRefuse tail err hpc hfront => cases (hfound hpc).1.symm.trans hfront
  | conStamp tail i hpc hfront hstale =>
      obtain ⟨hslot, hfresh⟩ := hfound hpc
      cases hslot.symm.trans hfront
      cases hfresh.symm.trans hstale
  | staleEmpty tail i hpc | staleFresh tail i hpc =>
      exact absurd hpc (howned.taken.not_stale tail i)
  | conEmpty tail hpc hempty =>
      simp only [ConsumerLocals, hpc] at hlocals
      obtain ⟨hactive, rfl⟩ := hlocals
      have hcount := hok.count_eq
      rw [hempty, UInt32.sub_self] at hcount
      have hnil : Q.messages = [] := by
        apply List.eq_nil_of_length_eq_zero
        rw [habs.messages_length hok]
        exact hcount.symm
      have hheld : Q.held = false := by rw [habs.held, hactive]; rfl
      refine ⟨Q, .last (by rw [hpc]; rfl) (by rw [Sys.consumerPhase, hpc]) ?_
        (habs.consumerMove rfl rfl rfl rfl rfl rfl)⟩
      simp [Queue.call, Queue.consume, hheld, hnil]
  | take i hpc =>
      obtain ⟨Q', hcall, habs'⟩ := habs.take hok howned hcap hpc rfl
      exact ⟨Q', .last (by rw [hpc]; rfl) (by rw [Sys.consumerPhase, hpc]) hcall habs'⟩
  | recycle i tail hpc =>
      simp only [ConsumerLocals, hpc] at hlocals
      have hmine := hok.sized.slotAt_lt s.c.released
      rw [← howned.taken.held hlocals.1, ← hlocals.2.1] at hmine
      refine ⟨Q, .stay (by rintro ⟨⟩) (by simp only [Sys.consumerPhase, hpc]; rfl) ?_⟩
      exact habs.congr rfl rfl rfl (reservation_congr rfl rfl rfl) rfl
        fun j hj off hoff => Store.payload_recycle hgeo hmine hj _ hoff
  | store tail hpc =>
      simp only [ConsumerLocals, hpc] at hlocals
      obtain ⟨Q', hcall, habs'⟩ := habs.storeTail hok howned hlocals.1 (tail + 1)
        (s.crossing (s.rb.cachedHead - (tail + 1) + 1) (s.rb.cachedHead - (tail + 1)))
      refine ⟨Q', ?_, habs'⟩
      rw [reply_busyC rfl (Sys.crossing_of (· ≠ .idle) (by rintro ⟨⟩) (by rintro ⟨⟩)
          (by rintro ⟨⟩)),
        show s.consumerPhase = .called (.release s.rb.consumerSlot) by
          rw [Sys.consumerPhase, hpc],
        show Sys.consumerPhase _ = .done (.release s.rb.consumerSlot) (.code .ok) from
          Sys.crossing_of (fun pc => ((s.storeTail (tail + 1)).goC pc).consumerPhase = _)
            rfl rfl rfl]
      exact .effect (by rw [queue_step, hcall])
  | lowEUp o n hpc | lowESame o n hpc | fireE hpc =>
      exact ⟨Q, .answer (by rw [hpc]; rfl) (by rw [Sys.consumerPhase, hpc])
        (habs.consumerMove rfl rfl rfl rfl rfl rfl)⟩
  | conLook hpc | conCached hpc | conFresh tail hpc | conFound tail i hpc | relLap i hpc
  | relPlain i hpc | clear o n hpc | fireD o n hpc | clearUp o n hpc | lowEDown o n hpc =>
      exact ⟨Q, .stay (by rintro ⟨⟩) (by simp only [Sys.consumerPhase, hpc]; rfl)
        (habs.consumerMove rfl rfl rfl rfl rfl rfl)⟩

/-! ## Runs -/

/-- A state of the machine, the phases of its threads and the queue belong together. -/
structure Linked (b : Build) (s : Sys) (ph : Side → CallPhase Call Reply) (Q : Queue) : Prop where
  counted : Counted s
  owned : Owned b s
  publishing : Publishing s
  queue : Abstracts b s Q
  producer : ph .producer = s.producerPhase
  consumer : ph .consumer = s.consumerPhase

theorem consumerPhase_congr (hside : s'.c = s.c) (hslot : s'.rb.consumerSlot = s.rb.consumerSlot) :
    s'.consumerPhase = s.consumerPhase := by
  rw [Sys.consumerPhase, hside, hslot, Sys.consumerPhase]

theorem producerPhase_congr (hside : s'.p = s.p) : s'.producerPhase = s.producerPhase := by
  rw [Sys.producerPhase, hside, Sys.producerPhase]

theorem consumerPhase_idle (hmsg : s.c.pc.messaging = false) : s.consumerPhase = .idle := by
  cases hpc : s.c.pc <;> simp_all [Sys.consumerPhase, ConsumerPc.messaging]

theorem producer_advances (ha : a.byProducer = true) (hstep : step b s a = some s')
    (hgeo : s.rb.geo.Sound b) (hwrap : WrapSafe s.rb.geo.slots s.p.published) (hok : Counted s)
    (hkept : Kept b s) (hpub : Publishing s) (habs : Abstracts b s Q) :
    ∃ Q', ProducerAdvance b s a s' Q Q' := by
  rcases producer_cases ha hstep with ⟨hpc, hstart⟩ | hbranch
  · exact producerStart_advances ha hpc hstart hgeo hok habs
  · exact producerBranch_advances hbranch hgeo hok hwrap hkept hpub habs

theorem consumer_advances (ha : a.byProducer = false) (hstep : step b s a = some s')
    (hgeo : s.rb.geo.Sound b) (haddr : b.mode = .pointer → s.rb.geo.Addressable b)
    (hcap : (payloadCap b s.rb.geo).toNat < 2 ^ 31) (hok : Counted s) (howned : Owned b s)
    (habs : Abstracts b s Q) : ∃ Q', ConsumerAdvance b s a s' Q Q' := by
  rcases consumer_cases ha hstep with ⟨hpc, hstart⟩ | ⟨rfl, hbranch⟩ | ⟨hcall, haside⟩
  · exact consumerStart_advances ha hpc hstart hgeo hok howned habs
  · exact consumerBranch_advances hbranch hgeo haddr hok howned hcap habs
  · have hreply : reply s a s' = none := by
      simp [reply, ha, hcall, haside.before]
    refine ⟨Q, ?_, ?_⟩
    · rw [hcall, hreply, consumerPhase_idle haside.before, consumerPhase_idle haside.after]
      exact .stay _
    · rw [haside.eq]
      exact habs.consumerMove rfl rfl rfl rfl rfl rfl

/-- Every move advances its thread, and the state goes on standing for a queue. -/
theorem linked_step {ph : Side → CallPhase Call Reply} (hlink : Linked b s ph Q)
    (hstep : step b s a = some s') (hgeo : s.rb.geo.Sound b)
    (haddr : b.mode = .pointer → s.rb.geo.Addressable b)
    (hcap : (payloadCap b s.rb.geo).toNat < 2 ^ 31)
    (hwrap : WrapSafe s.rb.geo.slots s.p.published) :
    ∃ ph' Q', CallPhase.Advance queue Q (ph (shown s a s').thread) (shown s a s').called
        (shown s a s').returned ph' Q' ∧
      Linked b s' (Function.update ph (shown s a s').thread ph') Q' := by
  have hok := hlink.counted
  have hok' := step_counted hok hstep
  have howned' := step_owned hstep hgeo haddr hok hwrap hlink.owned
  cases ha : a.byProducer with
  | true =>
      have hthread : (shown s a s').thread = .producer := Act.side_producer ha
      have hframe := (step_producerMove ha hstep).frame
      have hregs := hframe.regs
      simp only [Rb.consumerRegs, Prod.mk.injEq] at hregs
      obtain ⟨Q', hadv⟩ := producer_advances ha hstep hgeo hwrap hok hlink.owned.kept
        hlink.publishing hlink.queue
      rw [hthread, hlink.producer]
      refine ⟨_, Q', hadv.phase, hok', howned', hadv.publishing, hadv.queue,
        Function.update_self .., ?_⟩
      rw [Function.update_of_ne (by rintro ⟨⟩), hlink.consumer]
      exact (consumerPhase_congr hframe.side hregs.2.2.2.1).symm
  | false =>
      have hthread : (shown s a s').thread = .consumer := Act.side_consumer ha
      have hframe := (step_consumerMove ha hstep).frame
      have hregs := hframe.regs
      simp only [Rb.producerRegs, Prod.mk.injEq] at hregs
      obtain ⟨Q', hadv⟩ := consumer_advances ha hstep hgeo haddr hcap hok hlink.owned hlink.queue
      rw [hthread, hlink.consumer]
      refine ⟨_, Q', hadv.phase, hok', howned', ?_, hadv.queue, ?_, Function.update_self ..⟩
      · have hpub := hlink.publishing
        unfold Publishing at hpub ⊢
        rw [hframe.side, hregs.2.2.1, hregs.2.2.2]
        exact hpub
      · rw [Function.update_of_ne (by rintro ⟨⟩), hlink.producer]
        exact (producerPhase_congr hframe.side).symm

section Init

variable {addr scratch scratchSize : BitVec b.sizeBits} {cfg : Config} {before : Store} {rb : Rb}

theorem start_linked (hacc : Accepted b addr cfg scratch scratchSize before rb) :
    Linked b (start rb) (fun _ => .idle) (emptyQueue b rb) := by
  have hnone : rb.pendingSlot = noPending := by rw [hacc.eq]; rfl
  have hactive : rb.consumerActive = 0 := by rw [hacc.eq]; rfl
  refine ⟨start_counted hacc, start_owned hacc, (by rintro ⟨⟩), ?_, rfl, rfl⟩
  exact ⟨rfl, rfl, rfl, rfl, rfl, .nil, (reservation_none hnone).symm,
    (decide_eq_false (not_not.mpr hactive)).symm, fun _ _ _ _ => rfl⟩

end Init

/-- Whatever the interleaving, the message calls of one producer and one consumer
on an initialised ring get the replies that some order of whole calls gets from an
empty bounded queue, each call at a moment between its start and its return. -/
theorem ring_linearizable {addr scratch scratchSize : BitVec b.sizeBits} {cfg : Option Config}
    {before : Store} {rb : Rb} (hinit : rbInit b addr cfg scratch scratchSize before = .ok rb)
    (hover : rb.geo.NonOverlapping) (haddr : b.mode = .pointer → rb.geo.Addressable b)
    (hcap : (payloadCap b rb.geo).toNat < 2 ^ 31) {acts : List Act}
    {trace : List (Shown Side Call Reply)}
    (hrun : (observed b).run (start rb) acts = some (trace, s))
    (hwrap : WrapSafe rb.geo.slots s.p.published) :
    Linearizable queue (emptyQueue b rb) trace := by
  obtain ⟨cfg', -, hacc⟩ := rbInit_accepted hinit
  have hgeo := hacc.sound hover
  refine (observed b).linearizable queue (fun s ph Q => s.rb.geo = rb.geo ∧ Linked b s ph Q)
    (fun s => WrapSafe rb.geo.slots s.p.published) ?_ ⟨rfl, start_linked hacc⟩ ?_ hrun hwrap
  · intro s a e s' hmove hwrap
    obtain ⟨s₁, hstep, heq⟩ := Option.map_eq_some_iff.mp hmove
    obtain ⟨-, rfl⟩ := Prod.mk.inj heq
    exact hwrap.mono (step_published_le hstep)
  · rintro s a e s' ph Q ⟨hsame, hlink⟩ hwrap hmove
    obtain ⟨s₁, hstep, heq⟩ := Option.map_eq_some_iff.mp hmove
    obtain ⟨rfl, rfl⟩ := Prod.mk.inj heq
    rw [← hsame] at hgeo haddr hcap hwrap
    obtain ⟨ph', Q', hadv, hlink'⟩ := linked_step hlink hstep hgeo haddr hcap
      (hwrap.mono (step_published_le hstep))
    exact ⟨ph', Q', hadv, (congrArg Prod.fst (step_settings hstep)).trans hsame, hlink'⟩

/-- The message of a publish that has not returned is consumed. -/
theorem smallRing_linearizable :
    ∃ trace s, (observed { mode := .index }).run (start (smallRing .index)) overlappedRun =
        some (trace, s) ∧
      (callsOf .consumer trace).done = [⟨.consume, .message 0 5 false, 4, 13⟩] ∧
      (callsOf .producer trace).current = some (.publishEx 0 5 false, 3) ∧
      Linearizable queue (emptyQueue { mode := .index } (smallRing .index)) trace := by
  have hseen : ((observed { mode := .index }).run (start (smallRing .index)) overlappedRun).map
      (fun r => ((callsOf .consumer r.1).done, (callsOf .producer r.1).current)) =
      some ([⟨.consume, .message 0 5 false, 4, 13⟩], some (.publishEx 0 5 false, 3)) := by
    decide +kernel
  obtain ⟨⟨trace, s⟩, hrun, hseen⟩ := Option.map_eq_some_iff.mp hseen
  obtain ⟨hdone, hcurrent⟩ := Prod.mk.inj hseen
  exact ⟨trace, s, hrun, hdone, hcurrent, ring_linearizable (smallRing_init .index)
    (smallRing_nonOverlapping .index) nofun (by decide) hrun (Or.inl (by decide))⟩

end RingBuff.Threads
