import RingBuff.Relaxed.Order

/-! # The ring on release/acquire memory

What holds of the interleaving machine holds with stale loads as well, since a
load that returns an older counter only makes its thread more careful. With the
orders of `rb.c` no access races, so every read of plain memory returns what was
written last, and messages arrive as they were sent. Each of the four orders is
needed for that.
-/

namespace RingBuff.Relaxed

open Threads

variable {ord : Orders} {b : Build} {w w' : State} {s s' : Sys} {k : Nat}

/-! ## Loads keep what the interleaving machine keeps -/

theorem counted_nextWithTail (hok : Counted s) (hpc : loadsTail s.p.pc = true)
    (hk : s.p.knownTail ≤ k) (hk' : k ≤ s.c.released) : Counted (nextWithTail b s k) := by
  have hshow : ProducerOk (showTail s k) :=
    ⟨hok.producer.head, hok.producer.cachedTail, hk, hok.producer.knownTail_le_published,
      hok.producer.room, hok.producer.reserved, hok.producer.locals, hok.producer.sent_length,
      hok.producer.sent_slot⟩
  have hnext : ProducerOk ((showTail s k).producerNext b) :=
    hshow.producerNext (hok.sized.of_settings rfl) rfl (hk'.trans hok.released_le)
  have hframe := producerNext_frame b (showTail s k)
  have hside : ((showTail s k).producerNext b).c.released = k := by rw [hframe.side]; rfl
  refine ⟨?_, hnext.of_frame ⟨rfl, rfl, rfl, rfl, hside.le.trans hk'⟩, ?_⟩
  · exact hok.sized.of_settings hframe.settings
  · obtain ⟨pc, slot, wanted, stats, log, heq, -⟩ := nextWithTail_eq (b := b) (k := k) hpc
    rw [heq]
    exact hok.consumer.of_frame ⟨rfl, rfl, rfl, le_rfl, List.prefix_rfl⟩

theorem counted_stepWithHead (hok : Counted s) (hpc : loadsHead s.c.pc = true)
    (hk : s.c.knownHead ≤ k) (hk' : k ≤ s.p.published) (hnext : stepWithHead b s k = some s') :
    Counted s' := by
  have hshow : ConsumerOk (showHead s k) :=
    ⟨hok.consumer.tail, hok.consumer.cachedHead, hok.consumer.released_le, hk,
      hok.consumer.active, hok.consumer.locals, hok.consumer.delivered_length⟩
  obtain ⟨pc, log, heq, -⟩ := stepWithHead_eq hpc hnext
  obtain ⟨s₁, hstep, rfl⟩ := Option.map_eq_some_iff.mp hnext
  have hframe := consumerStep_frame hstep
  have hpub : s₁.p.published = k := by rw [hframe.side]; rfl
  have hsent : s₁.p.sent = s.p.sent := by rw [hframe.side]; rfl
  refine ⟨?_, ?_, ?_⟩
  · exact hok.sized.of_settings hframe.settings
  · rw [heq]
    exact hok.producer.of_frame ⟨rfl, rfl, rfl, rfl, le_rfl⟩
  · exact (hshow.consumerStep rfl hstep).of_frame
      ⟨rfl, rfl, rfl, hpub.le.trans hk', hsent ▸ List.prefix_rfl⟩

theorem counted_nextWithLatch (hok : Counted s) (hpc : s.p.pc = .pubLatch) (value : UInt32) :
    Counted (nextWithLatch b s value) := by
  have hlocals := hok.producer.locals
  simp only [ProducerLocals, hpc] at hlocals
  obtain ⟨pc, log, heq, hat⟩ := nextWithLatch_eq (b := b) value hpc
  rw [heq]
  refine ⟨hok.sized.of_settings rfl, ?_,
    hok.consumer.of_frame ⟨rfl, rfl, rfl, le_rfl, List.prefix_rfl⟩⟩
  rcases hat with rfl | rfl
  · exact hok.producer.of_pc rfl rfl rfl rfl (by rw [hpc]; rfl) (by rw [hpc]; rfl) trivial
  · exact hok.producer.of_pc rfl rfl rfl rfl (by rw [hpc]; rfl) (by rw [hpc]; rfl) hlocals

/-- A step of the producer that stores no memory and starts no message. -/
theorem owned_of_producer (howned : Owned b s) (hstore : s'.rb.store = s.rb.store)
    (hside : s'.p = { s.p with pc := s'.p.pc, knownTail := s'.p.knownTail })
    (hframe : SameConsumer s s') (hheader : s'.p.pc.headerStored = false)
    (hentry : s'.p.pc.entryStored = false) (hpc : ∀ m, s'.p.pc ≠ .pubHeader m) : Owned b s' := by
  obtain ⟨hother, hregs, hset, -⟩ := hframe
  have hgeo : s'.rb.geo = s.rb.geo := congrArg Prod.fst hset
  simp only [Rb.consumerRegs, Prod.mk.injEq] at hregs
  obtain ⟨-, -, hactive, hslot, -⟩ := hregs
  refine ⟨howned.kept.of_pc hstore hgeo hside hother (by simp [hheader]) (by simp [hentry]),
    fun m hm => absurd hm (hpc m), ?_, ?_, ?_, ?_⟩
  · rw [hactive, hslot, hgeo, hother]; exact howned.taken.held
  · rw [hgeo, hother]; exact howned.taken.front
  · rw [hother]; exact howned.taken.not_stale
  · rw [hgeo, hother, hside]; exact howned.taken.delivered

theorem owned_nextWithTail (howned : Owned b s) (hpc : loadsTail s.p.pc = true) :
    Owned b (nextWithTail b s k) := by
  obtain ⟨pc, slot, wanted, stats, log, heq, hat⟩ := nextWithTail_eq (b := b) (k := k) hpc
  rw [heq]
  rcases hat with rfl | ⟨m, count, rfl⟩ <;>
    exact owned_of_producer howned rfl rfl ⟨rfl, rfl, rfl, le_rfl, List.prefix_rfl⟩ rfl rfl
      (by rintro _ ⟨⟩)

theorem owned_nextWithLatch (howned : Owned b s) (hpc : s.p.pc = .pubLatch) (value : UInt32) :
    Owned b (nextWithLatch b s value) := by
  obtain ⟨pc, log, heq, hat⟩ := nextWithLatch_eq (b := b) value hpc
  rw [heq]
  rcases hat with rfl | rfl <;>
    exact owned_of_producer howned rfl rfl ⟨rfl, rfl, rfl, le_rfl, List.prefix_rfl⟩ rfl rfl
      (by rintro _ ⟨⟩)

theorem owned_stepWithHead (howned : Owned b s) (hpc : loadsHead s.c.pc = true)
    (hnext : stepWithHead b s k = some s') : Owned b s' := by
  have hfree : s.c.pc.freeing = false := by
    cases hat : s.c.pc <;> simp_all [loadsHead, ConsumerPc.freeing]
  obtain ⟨pc, log, rfl, hat⟩ := stepWithHead_eq hpc hnext
  rcases hat with rfl | ⟨tail, rfl⟩ | ⟨tail, i, hstale⟩
  · exact howned.of_pc ⟨rfl, rfl, rfl, rfl, le_rfl⟩ rfl rfl rfl rfl rfl hfree
      (by rintro _ ⟨⟩) (by rintro _ _ ⟨⟩)
  · exact howned.of_pc ⟨rfl, rfl, rfl, rfl, le_rfl⟩ rfl rfl rfl rfl rfl hfree
      (by rintro _ ⟨⟩) (by rintro _ _ ⟨⟩)
  · exact absurd hstale (howned.taken.not_stale tail i)

/-! ## Loads keep the order -/

theorem Ordered.loadTail (hordered : Ordered w) (hpc : loadsTail w.sys.p.pc = true)
    (hk : w.sys.p.knownTail ≤ k) (hk' : k ≤ w.sys.c.released) :
    Ordered { w with
      sys := nextWithTail b w.sys k
      hb := w.hb.receive .producer (w.tailView k) } := by
  obtain ⟨pc, slot, wanted, stats, log, heq, -⟩ := nextWithTail_eq (b := b) (k := k) hpc
  rw [heq]
  refine ⟨hordered.bounded.receive, (hordered.head.receive _ _).mono ?_, hordered.tail.see hk'⟩
  rintro q ⟨hq, hroom⟩
  exact ⟨hq, hroom.trans_le (Nat.add_le_add_right hk _)⟩

theorem Ordered.loadHead (hordered : Ordered w) (hpc : loadsHead w.sys.c.pc = true)
    (hk : w.sys.c.knownHead ≤ k) (hk' : k ≤ w.sys.p.published)
    (hnext : stepWithHead b w.sys k = some s') :
    Ordered { w with sys := s', hb := w.hb.receive .consumer (w.headView k) } := by
  obtain ⟨pc, log, rfl, -⟩ := stepWithHead_eq hpc hnext
  refine ⟨hordered.bounded.receive, hordered.head.see hk', (hordered.tail.receive _ _).mono ?_⟩
  rintro q ⟨hq, hlt⟩
  exact ⟨hq, hlt.trans_le hk⟩

theorem Ordered.loadLatch (hordered : Ordered w) (hpc : w.sys.p.pc = .pubLatch) (value : UInt32) :
    Ordered { w with sys := nextWithLatch b w.sys value } := by
  obtain ⟨pc, log, heq, -⟩ := nextWithLatch_eq (b := b) value hpc
  rw [heq]
  exact ⟨hordered.bounded, hordered.head, hordered.tail⟩

/-! ## Runs -/

/-- What every reachable state satisfies while slots and positions stay aligned. -/
structure Sound (b : Build) (w : State) : Prop where
  owned : Owned b w.sys
  ordered : Ordered w

theorem step_counted {m : Move} (hok : Counted w.sys) (hstep : step ord b w m = some w') :
    Counted w'.sys := by
  cases m with
  | act a =>
      simp only [step, Option.ite_none_right_eq_some, Option.map_eq_some_iff] at hstep
      obtain ⟨-, s', hnext, rfl⟩ := hstep
      exact Threads.step_counted hok hnext
  | loadTail k =>
      simp only [step, Option.ite_none_right_eq_some, Option.some.injEq] at hstep
      obtain ⟨⟨hpc, hk, hk'⟩, rfl⟩ := hstep
      exact counted_nextWithTail hok hpc hk hk'
  | loadHead k =>
      simp only [step, Option.ite_none_right_eq_some, Option.map_eq_some_iff] at hstep
      obtain ⟨⟨hpc, hk, hk'⟩, s', hnext, rfl⟩ := hstep
      exact counted_stepWithHead hok hpc hk hk' hnext
  | loadLatch value =>
      simp only [step, Option.ite_none_right_eq_some, Option.some.injEq] at hstep
      obtain ⟨hpc, rfl⟩ := hstep
      exact counted_nextWithLatch hok hpc value

theorem step_sound {m : Move} (hstep : step .rb b w m = some w') (hgeo : w.sys.rb.geo.Sound b)
    (haddr : b.mode = .pointer → w.sys.rb.geo.Addressable b) (hok : Counted w.sys)
    (hwrap : WrapSafe w.sys.rb.geo.slots w.sys.p.published) (hsound : Sound b w) :
    Sound b w' := by
  obtain ⟨howned, hordered⟩ := hsound
  cases m with
  | act a =>
      simp only [step, Option.ite_none_right_eq_some, Option.map_eq_some_iff] at hstep
      obtain ⟨hord, s', hnext, rfl⟩ := hstep
      refine ⟨step_owned hnext hgeo haddr hok hwrap howned, ?_⟩
      cases ha : a.byProducer with
      | true => exact hordered.producerMove hok rfl ha hord hnext
      | false => exact hordered.consumerMove hok howned.taken rfl ha hord hnext
  | loadTail k =>
      simp only [step, Option.ite_none_right_eq_some, Option.some.injEq] at hstep
      obtain ⟨⟨hpc, hk, hk'⟩, rfl⟩ := hstep
      exact ⟨owned_nextWithTail howned hpc, hordered.loadTail hpc hk hk'⟩
  | loadHead k =>
      simp only [step, Option.ite_none_right_eq_some, Option.map_eq_some_iff] at hstep
      obtain ⟨⟨hpc, hk, hk'⟩, s', hnext, rfl⟩ := hstep
      exact ⟨owned_stepWithHead howned hpc hnext, hordered.loadHead hpc hk hk' hnext⟩
  | loadLatch value =>
      simp only [step, Option.ite_none_right_eq_some, Option.some.injEq] at hstep
      obtain ⟨hpc, rfl⟩ := hstep
      exact ⟨owned_nextWithLatch howned hpc value, hordered.loadLatch hpc value⟩

theorem step_geo {m : Move} (hstep : step ord b w m = some w') :
    w'.sys.rb.geo = w.sys.rb.geo ∧ w.sys.p.published ≤ w'.sys.p.published := by
  cases m with
  | act a =>
      simp only [step, Option.ite_none_right_eq_some, Option.map_eq_some_iff] at hstep
      obtain ⟨-, s', hnext, rfl⟩ := hstep
      exact ⟨congrArg Prod.fst (step_settings hnext), step_published_le hnext⟩
  | loadTail k =>
      simp only [step, Option.ite_none_right_eq_some, Option.some.injEq] at hstep
      obtain ⟨⟨hpc, -⟩, rfl⟩ := hstep
      obtain ⟨pc, slot, wanted, stats, log, heq, -⟩ := nextWithTail_eq (b := b) (k := k) hpc
      rw [heq]
      exact ⟨rfl, le_rfl⟩
  | loadHead k =>
      simp only [step, Option.ite_none_right_eq_some, Option.map_eq_some_iff] at hstep
      obtain ⟨⟨hpc, -⟩, s', hnext, rfl⟩ := hstep
      obtain ⟨pc, log, rfl, -⟩ := stepWithHead_eq hpc hnext
      exact ⟨rfl, le_rfl⟩
  | loadLatch value =>
      simp only [step, Option.ite_none_right_eq_some, Option.some.injEq] at hstep
      obtain ⟨hpc, rfl⟩ := hstep
      obtain ⟨pc, log, heq, -⟩ := nextWithLatch_eq (b := b) value hpc
      rw [heq]
      exact ⟨rfl, le_rfl⟩

section Init

variable {addr scratch scratchSize : BitVec b.sizeBits} {cfg : Config} {before : Store} {rb : Rb}

theorem start_sound (hacc : Accepted b addr cfg scratch scratchSize before rb) :
    Sound b (start rb) where
  owned := start_owned hacc
  ordered :=
    { bounded := fun _ _ => le_rfl
      head := ⟨fun _ _ _ _ => le_rfl, le_rfl, le_rfl⟩
      tail := ⟨fun _ _ _ _ => le_rfl, le_rfl, le_rfl⟩ }

theorem reaches_sound (hacc : Accepted b addr cfg scratch scratchSize before rb)
    (hgeo : rb.geo.Sound b) (haddr : b.mode = .pointer → rb.geo.Addressable b)
    (hreach : (machine .rb b).Reaches (start rb) w) :
    w.sys.rb.geo = rb.geo ∧ Counted w.sys ∧
      (WrapSafe rb.geo.slots w.sys.p.published → Sound b w) := by
  refine hreach.invariant (fun w => w.sys.rb.geo = rb.geo ∧ Counted w.sys ∧
    (WrapSafe rb.geo.slots w.sys.p.published → Sound b w))
    ⟨rfl, start_counted hacc, fun _ => start_sound hacc⟩ ?_
  rintro w m u w' ⟨hsame, hok, hsound⟩ hmove
  have hstep := machine_step_eq_some.mp hmove
  obtain ⟨hkeep, hle⟩ := step_geo hstep
  refine ⟨hkeep.trans hsame, step_counted hok hstep, fun hwrap => ?_⟩
  have hwrap := hwrap.mono hle
  rw [← hsame] at hgeo haddr
  exact step_sound hstep hgeo haddr hok (hsame ▸ hwrap) (hsound hwrap)

theorem reaches_not_race (hacc : Accepted b addr cfg scratch scratchSize before rb)
    (hgeo : rb.geo.Sound b) (haddr : b.mode = .pointer → rb.geo.Addressable b)
    (hreach : (machine .rb b).Reaches (start rb) w)
    (hwrap : WrapSafe rb.geo.slots w.sys.p.published) : ¬ Race .rb b w := by
  obtain ⟨hsame, hok, hsound⟩ := reaches_sound hacc hgeo haddr hreach
  obtain ⟨howned, hordered⟩ := hsound hwrap
  rintro ⟨a, access, hsome, haccess, hracy⟩
  obtain ⟨w', hstep⟩ := Option.isSome_iff_exists.mp hsome
  simp only [step, Option.ite_none_right_eq_some, Option.map_eq_some_iff] at hstep
  obtain ⟨-, s', hnext, -⟩ := hstep
  exact hordered.not_racy hok howned.taken (hsame ▸ hwrap) hnext haccess hracy

end Init

/-- With the memory orders of `rb.c`, whatever the loads return, no state can
race, and every state is as safe as on sequentially consistent memory. -/
theorem relaxed_safe {addr scratch scratchSize : BitVec b.sizeBits} {cfg : Option Config}
    {before : Store} {rb : Rb} (hinit : rbInit b addr cfg scratch scratchSize before = .ok rb)
    (hover : rb.geo.NonOverlapping) (haddr : b.mode = .pointer → rb.geo.Addressable b)
    (hcap : (payloadCap b rb.geo).toNat < 2 ^ 31)
    (hreach : (machine .rb b).Reaches (start rb) w)
    (hwrap : WrapSafe rb.geo.slots w.sys.p.published) : ¬ Race .rb b w ∧ Safe b w.sys := by
  obtain ⟨cfg', -, hacc⟩ := rbInit_accepted hinit
  have hgeo := hacc.sound hover
  obtain ⟨hsame, hok, hsound⟩ := reaches_sound hacc hgeo haddr hreach
  exact ⟨reaches_not_race hacc hgeo haddr hreach hwrap,
    (hsound hwrap).owned.safe hok (hsame ▸ hcap) (hsame ▸ hwrap)⟩

/-- The producer sends one message, up to its load of `tail`. -/
def sending (slotIndex : UInt32) : List Move :=
  [.act (.acquire 5), .act .producer, .act (.write 0 7), .act (.publishEx slotIndex 5 false),
    .act .producer, .act .producer, .act .producer, .act .producer]

/-- Of two messages, the consumer has seen the first and reads its header. -/
def staleRun : List Move :=
  sending 0 ++ [Move.loadTail 0, .act .producer] ++ sending 1 ++
    [Move.act .consume, .act .consumer, .loadHead 1, .act .consumer, .act .consumer]

theorem smallRing_relaxed_safe :
    ∃ w, (machine .rb { mode := .index }).Reaches (start (smallRing .index)) w ∧
      (w.sys.c.delivered, w.sys.c.knownHead, w.sys.p.published) = ([⟨0, 5, false⟩], 1, 2) ∧
      ¬ Race .rb { mode := .index } w ∧ Safe { mode := .index } w.sys := by
  obtain ⟨w, hreach, hseen⟩ := Automaton.Reaches.of_run (machine .rb { mode := .index })
    (start (smallRing .index)) staleRun
    (fun w => (w.sys.c.delivered, w.sys.c.knownHead, w.sys.p.published))
    (show _ = some ([⟨0, 5, false⟩], 1, 2) by decide +kernel)
  exact ⟨w, hreach, hseen, relaxed_safe (smallRing_init .index) (smallRing_nonOverlapping .index)
    nofun (by decide) hreach (Or.inl (by decide))⟩

/-! ## Every order is needed -/

/-- A computed run to a state in which the given move races with the other thread. -/
theorem race_of_run {rb : Rb} (moves : List Move) (a : Act) (u : Side) (access : Access Cell)
    (hne : u ≠ a.side)
    (hrun : ((machine ord b).run (start rb) moves).map (fun r =>
      ((step ord b r.2 (.act a)).isSome, accessOf b r.2.sys a,
        decide (r.2.hb.Unknown a.side u access))) = some (true, some access, true)) :
    ∃ w, (machine ord b).Reaches (start rb) w ∧ Race ord b w := by
  obtain ⟨w, hreach, hseen⟩ := Automaton.Reaches.of_run (machine ord b) (start rb) moves
    (fun w => ((step ord b w (.act a)).isSome, accessOf b w.sys a,
      decide (w.hb.Unknown a.side u access))) hrun
  simp only [Prod.mk.injEq, decide_eq_true_eq] at hseen
  obtain ⟨hstep, haccess, hunknown⟩ := hseen
  exact ⟨w, hreach, a, access, hstep, haccess, u, hne, hunknown⟩

/-- The consumer looks at the first message as soon as it sees it. -/
def firstMessage : List Move := sending 0 ++ [Move.act .consume, .act .consumer, .loadHead 1]

/-- The producer gets the first slot again as soon as it sees it released. -/
def slotAgain : List Move :=
  sending 0 ++ [Move.loadTail 0, .act .producer] ++ sending 1 ++
    [Move.loadTail 0, .act .producer, .loadLatch 1] ++
    [Move.act .consume, .act .consumer, .loadHead 1, .act .consumer, .act .consumer,
      .act (.release 0), .act .consumer, .act .consumer, .act (.acquire 5), .act .producer,
      .loadTail 1]

/-- Without the pair on `head`, an entry is read that is not known to be written. -/
theorem head_race (hweak : (ord.storeHead && ord.loadHead) = false) :
    ∃ w, (machine ord { mode := .index }).Reaches (start (smallRing .index)) w ∧
      Race ord { mode := .index } w := by
  refine race_of_run firstMessage .consumer .producer (.read (.entry 0)) nofun ?_
  obtain ⟨_ | _, _ | _, _ | _, _ | _⟩ := ord
  all_goals first
    | exact absurd hweak (by decide)
    | decide +kernel

/-- Without the pair on `tail`, a slot is written that is not known to be read. -/
theorem tail_race (hweak : (ord.storeTail && ord.loadTail) = false) :
    ∃ w, (machine ord { mode := .index }).Reaches (start (smallRing .index)) w ∧
      Race ord { mode := .index } w := by
  refine race_of_run slotAgain (.write 0 8) .consumer (.write (.slot 0)) nofun ?_
  obtain ⟨_ | _, _ | _, _ | _, _ | _⟩ := ord
  all_goals first
    | exact absurd hweak (by decide)
    | decide +kernel

/-- Rings are free of races exactly with the memory orders of `rb.c`. -/
theorem race_free_iff (ord : Orders) :
    (∀ (b : Build) (addr scratch scratchSize : BitVec b.sizeBits) (cfg : Option Config)
      (before : Store) (rb : Rb) (w : State),
      rbInit b addr cfg scratch scratchSize before = .ok rb → rb.geo.NonOverlapping →
      (b.mode = .pointer → rb.geo.Addressable b) → (machine ord b).Reaches (start rb) w →
      WrapSafe rb.geo.slots w.sys.p.published → ¬ Race ord b w) ↔ ord = .rb := by
  constructor
  · intro hfree
    by_contra hne
    have hrace : ∃ w, (machine ord { mode := .index }).Reaches (start (smallRing .index)) w ∧
        Race ord { mode := .index } w := by
      cases hhead : ord.storeHead && ord.loadHead with
      | false => exact head_race hhead
      | true =>
          refine tail_race (Bool.eq_false_of_not_eq_true fun htail => hne ?_)
          obtain ⟨_, _, _, _⟩ := ord
          simp_all [Orders.rb]
    obtain ⟨w, hreach, hrace⟩ := hrace
    exact hfree _ _ _ _ _ _ _ w (smallRing_init .index) (smallRing_nonOverlapping .index) nofun
      hreach (Or.inl (by decide)) hrace
  · rintro rfl b addr scratch scratchSize cfg before rb w hinit hover haddr hreach hwrap
    obtain ⟨cfg', -, hacc⟩ := rbInit_accepted hinit
    exact reaches_not_race hacc (hacc.sound hover) haddr hreach hwrap

end RingBuff.Relaxed
