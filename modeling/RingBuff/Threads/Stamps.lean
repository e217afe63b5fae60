import RingBuff.Threads.Safety

/-! # The stamps of the per-slot-lap build

Every slot carries the next position that will use it, or one more while it holds
a message. Stamps are stored by `rb_init`, by `rb_publish_ex` and by
`rb_release`, with a different formula each. The invariant follows one round of
positions, from the oldest one not yet freed on: each of them has its own slot,
and the stamp of that slot says whether the position has been entered.
-/

namespace RingBuff.Threads

variable {b : Build} {s s' : Sys}

/-- The slot a position belongs to, in exact numbers. -/
def home (geo : Geometry) (q : Nat) : UInt32 := UInt32.ofNat (q % geo.slots.toNat)

theorem home_toNat {geo : Geometry} (hgeo : geo.Masked) (q : Nat) :
    (home geo q).toNat = q % geo.slots.toNat := by
  have hlt := Nat.mod_lt q hgeo.slots_pos
  have hslots := geo.slots.toNat_lt
  exact Counter.toNat_of_lt (by omega)

theorem home_lt {geo : Geometry} (hgeo : geo.Masked) (q : Nat) :
    (home geo q).toNat < geo.slots.toNat := by
  rw [home_toNat hgeo]
  exact Nat.mod_lt q hgeo.slots_pos

/-- Positions of one round have different slots. -/
theorem home_ne {geo : Geometry} (hgeo : geo.Masked) {p q : Nat} (hlt : p < q)
    (hspan : q < p + geo.slots.toNat) : home geo p ≠ home geo q := by
  intro heq
  have hnat := congrArg UInt32.toNat heq
  rw [home_toNat hgeo, home_toNat hgeo] at hnat
  exact Counter.mod_ne_of_lt hlt hspan hnat

/-- As long as positions and slots stay aligned, `slot_index_for` finds the slot. -/
theorem slotAt_eq_home {geo : Geometry} (hgeo : geo.Masked) {q : Nat}
    (hwrap : WrapSafe geo.slots q) : geo.slotAt q = home geo q := by
  apply UInt32.toNat_inj.mp
  rw [hgeo.slotAt_toNat, home_toNat hgeo]
  rcases hwrap with hpow | hlt
  · exact Nat.mod_mod_of_dvd q (Counter.dvd_of_isPow2 hpow)
  · rw [Nat.mod_eq_of_lt hlt]

/-- The stamp of position `q`: one more once the position has been entered. -/
def stampOf (entries q : Nat) : UInt32 := UInt32.ofNat (if q < entries then q + 1 else q)

/-- The stamps of one round of positions. -/
def Stamped (b : Build) (s : Sys) : Prop :=
  ∀ q, s.c.freed ≤ q → q < s.c.freed + s.rb.geo.slots.toNat →
    s.rb.store.stamp b s.rb.geo (home s.rb.geo q) = stampOf s.p.entries q

/-- A move that changes no stamp and no range. -/
theorem Stamped.of_eq (hstamped : Stamped b s) (hmasked : s.rb.geo.Masked)
    (hgeo : s'.rb.geo = s.rb.geo)
    (hstamp : ∀ i, i.toNat < s.rb.geo.slots.toNat →
      s'.rb.store.stamp b s.rb.geo i = s.rb.store.stamp b s.rb.geo i)
    (hentries : s'.p.entries = s.p.entries) (hfreed : s'.c.freed = s.c.freed) :
    Stamped b s' := by
  intro q
  rw [hgeo, hentries, hfreed, hstamp _ (home_lt hmasked q)]
  exact hstamped q

/-! ## Init -/

/-- The loop of `rb_init` stamps the slots before it reaches `n`. -/
theorem stamp_preseed {geo : Geometry} (hgeo : geo.Sound b) (mem : Memory) {n : Nat}
    (hn : n ≤ geo.slots.toNat) {j : Nat} (hj : j < n) :
    (preseed b geo mem n).load32 (slotOffset b geo (UInt32.ofNat j)) = UInt32.ofNat j := by
  have hslots := geo.slots.toNat_lt
  induction n with
  | zero => exact absurd hj (Nat.not_lt_zero j)
  | succ n ih =>
      rw [preseed]
      rcases Nat.lt_succ_iff_lt_or_eq.mp hj with hlt | rfl
      · -- the stamp of slot `n` does not reach into slot `j`
        have hjn : (UInt32.ofNat j).toNat = j := Counter.toNat_of_lt (by omega)
        have hnn : (UInt32.ofNat n).toNat = n := Counter.toNat_of_lt (by omega)
        have hne : UInt32.ofNat n ≠ UInt32.ofNat j := fun heq => by
          have hnat := congrArg UInt32.toNat heq
          omega
        have hfour := b.four_le_hdrSize
        have hhdr := hgeo.hdr_lt
        have hapart := hgeo.slotOffset_apart (by omega) (by omega) hne
        rw [Memory.load32_store32_disjoint]
        · exact ih (by omega) hlt
        · omega
      · exact Memory.load32_store32_same _ _ _

section Init

variable {addr scratch scratchSize : BitVec b.sizeBits} {cfg : Config} {before : Store} {rb : Rb}

theorem start_stamped (hacc : Accepted b addr cfg scratch scratchSize before rb)
    (hmode : b.mode = .lap) (hgeo : rb.geo.Sound b) : Stamped b (start rb) := by
  intro q _ hq
  have hq : q < rb.geo.slots.toNat := by
    simpa [start, ConsumerSide.freed, ConsumerPc.freeing] using hq
  have hstore : rb.store.scratch = preseed b rb.geo before.scratch rb.geo.slots.toNat := by
    rw [hacc.eq]
    simp only [Config.fresh, hmode]
  have hhome : home rb.geo q = UInt32.ofNat q := by rw [home, Nat.mod_eq_of_lt hq]
  have hnone : stampOf (start rb).p.entries q = UInt32.ofNat q := by
    simp [stampOf, start, ProducerSide.entries, ProducerPc.entryStored]
  have hstamp := stamp_preseed hgeo before.scratch le_rfl hq
  rw [← hstore] at hstamp
  rw [hnone]
  change rb.store.stamp b rb.geo (home rb.geo q) = UInt32.ofNat q
  rw [hhome]
  exact hstamp

end Init

/-! ## The producer -/

/-- A free position that is about to be entered lies in the current round. -/
theorem Counted.freed_le (hok : Counted s) : s.c.freed ≤ s.p.published := by
  have hle := hok.released_le
  have hlocals := hok.consumer.locals
  cases hpc : s.c.pc with
  | relStore tail =>
      simp only [ConsumerLocals, hpc] at hlocals
      have hlt := (hok.consumer.active hlocals.1).trans_le hok.consumer.knownHead_le
      simp only [ConsumerSide.freed, hpc, ConsumerPc.freeing, if_true]
      omega
  | _ => simpa [ConsumerSide.freed, hpc, ConsumerPc.freeing] using hle

/-- The stamp store of `rb_publish_ex`. -/
theorem Stamped.enter (hstamped : Stamped b s) (hmode : b.mode = .lap) (hgeo : s.rb.geo.Sound b)
    (hok : Counted s) (hwrap : WrapSafe s.rb.geo.slots s.p.published) {m : Outgoing}
    {head : UInt32} (hpc : s.p.pc = .pubEntry m head) :
    Stamped b ((s.setStore (s.rb.store.enter b s.rb.geo m.slotIndex head)).goP
      (.pubStore m head)) := by
  have hlocals := hok.producer.locals
  simp only [ProducerLocals, hpc] at hlocals
  obtain ⟨hsome, hmine, hhead⟩ := hlocals
  obtain ⟨hslot, hroom⟩ := hok.producer.reserved (by rw [hpc]; rfl) hsome
  have hknown := hok.producer.knownTail_le
  have hslots := hok.sized.limit_le_slots
  have hentries : s.p.entries = s.p.published := ProducerSide.entries_eq (by rw [hpc]; rfl)
  have hfreed := hok.freed_le
  rw [hmine, hslot, hhead, hok.producer.head, slotAt_eq_home hgeo.toMasked hwrap]
  intro q hq hlast
  change (s.rb.store.enter b s.rb.geo (home s.rb.geo s.p.published)
    (UInt32.ofNat s.p.published)).stamp b s.rb.geo (home s.rb.geo q) =
      stampOf (s.p.published + 1) q
  have hq : s.c.freed ≤ q := hq
  have hlast : q < s.c.freed + s.rb.geo.slots.toNat := hlast
  have hreleased : s.c.released ≤ q := (Nat.le_add_right _ _).trans hq
  have hold := hstamped q hq hlast
  rw [hentries] at hold
  simp only [Store.enter, hmode]
  rcases Nat.lt_trichotomy q s.p.published with hlt | rfl | hgt
  · rw [Store.stamp_setStamp_ne hgeo (home_lt hgeo.toMasked _) (home_lt hgeo.toMasked _)
      (home_ne hgeo.toMasked hlt (by omega)).symm, hold]
    simp [stampOf, hlt, Nat.lt_succ_of_lt hlt]
  · rw [Store.stamp_setStamp_same, stampOf, if_pos (Nat.lt_succ_self _), Counter.ofNat_succ]
  · rw [Store.stamp_setStamp_ne hgeo (home_lt hgeo.toMasked _) (home_lt hgeo.toMasked _)
      (home_ne hgeo.toMasked hgt (by omega)), hold]
    simp [stampOf, Nat.not_lt.mpr hgt.le, Nat.not_lt.mpr (Nat.succ_le_of_lt hgt)]

/-- A move of the producer that changes no stamp and enters no position. -/
theorem Stamped.of_pc (hstamped : Stamped b s) (hmasked : s.rb.geo.Masked)
    (hbefore : s.p.pc.entryStored = false) (hafter : s'.p.pc.entryStored = false)
    (hpub : s'.p.published = s.p.published) (hgeo : s'.rb.geo = s.rb.geo)
    (hstore : s'.rb.store = s.rb.store) (hother : s'.c = s.c) : Stamped b s' := by
  refine hstamped.of_eq hmasked hgeo (fun i _ => by rw [hstore]) ?_ (by rw [hother])
  rw [ProducerSide.entries_eq hbefore, ProducerSide.entries_eq hafter, hpub]

theorem Stamped.finishAcquire (hstamped : Stamped b s) (hmasked : s.rb.geo.Masked)
    (hbefore : s.p.pc.entryStored = false) (w head : UInt32) :
    Stamped b (s.finishAcquire b w head) := by
  dsimp only [Sys.finishAcquire, reserve]
  split_ifs <;> exact hstamped.of_pc hmasked hbefore rfl rfl rfl rfl rfl

theorem producerNext_stamped (hmode : b.mode = .lap) (hgeo : s.rb.geo.Sound b) (hok : Counted s)
    (hwrap : WrapSafe s.rb.geo.slots s.p.published) (hstamped : Stamped b s) :
    Stamped b (s.producerNext b) := by
  have hlocals := hok.producer.locals
  cases hpc : s.p.pc with
  | idle =>
      simp only [Sys.producerNext, hpc]
      exact hstamped
  | acqHead w =>
      simp only [Sys.producerNext, hpc]
      split
      · exact hstamped.of_pc hgeo.toMasked (by rw [hpc]; rfl) rfl rfl rfl rfl rfl
      · exact hstamped.finishAcquire hgeo.toMasked (by rw [hpc]; rfl) w _
  | acqTail w head =>
      have hfresh : Stamped b s.refreshTail := hstamped
      simp only [Sys.producerNext, hpc]
      split
      · exact hstamped.of_pc hgeo.toMasked (by rw [hpc]; rfl) rfl rfl rfl rfl rfl
      · exact hfresh.finishAcquire hgeo.toMasked (congrArg _ hpc) w head
  | pubHeader m =>
      simp only [ProducerLocals, hpc] at hlocals
      have hslot := (hok.producer.reserved (by rw [hpc]; rfl) hlocals.1).1
      have hmine := hok.sized.slotAt_lt s.p.published
      rw [← hslot, ← hlocals.2] at hmine
      simp only [Sys.producerNext, hpc]
      exact hstamped.of_eq hgeo.toMasked rfl
        (fun i hi => Store.stamp_setHeader hgeo hmine hi hmode _)
        (ProducerSide.entries_eq (by rw [hpc]; rfl)).symm rfl
  | pubEntry m head =>
      simp only [Sys.producerNext, hpc]
      exact hstamped.enter hmode hgeo hok hwrap hpc
  | pubStore m head =>
      have hone : s.p.entries = s.p.published + 1 := by
        rw [ProducerSide.entries, hpc]
        rfl
      simp only [Sys.producerNext, hpc]
      split_ifs <;> exact hstamped.of_eq hgeo.toMasked rfl (fun i _ => rfl) hone.symm rfl
  | pubWaiters m head | pubAdded m count | pubLatch =>
      simp only [Sys.producerNext, hpc]
      split_ifs <;> exact hstamped.of_pc hgeo.toMasked (by rw [hpc]; rfl) rfl rfl rfl rfl rfl
  | pubHead m | pubWake m head | pubEventfd m head | pubTail m head | pubSetLatch | pubFull =>
      simp only [Sys.producerNext, hpc]
      exact hstamped.of_pc hgeo.toMasked (by rw [hpc]; rfl) rfl rfl rfl rfl rfl

theorem ProducerMove.stamped (hmove : ProducerMove b s s') (hmode : b.mode = .lap)
    (hgeo : s.rb.geo.Sound b) (hok : Counted s) (hwrap : WrapSafe s.rb.geo.slots s.p.published)
    (hstamped : Stamped b s) : Stamped b s' := by
  cases hmove with
  | acquire w hpc =>
      unfold Sys.startAcquire
      split_ifs <;> exact hstamped.of_pc hgeo.toMasked (by rw [hpc]; rfl) rfl rfl rfl rfl rfl
  | write offset byte hpc =>
      unfold Sys.runWrite payloadWrite
      split_ifs with hin
      · have hslot := (hok.producer.reserved (by rw [hpc]; rfl) hin.1).1
        have hmine := hok.sized.slotAt_lt s.p.published
        rw [← hslot] at hmine
        refine hstamped.of_eq hgeo.toMasked rfl
          (fun i hi => Store.stamp_setPayload hgeo hmine hi byte hin.2) ?_ rfl
        simp only [ProducerSide.entries, hpc]
        rfl
      · exact hstamped.of_pc hgeo.toMasked (by rw [hpc]; rfl) rfl rfl rfl rfl rfl
  | publish i n t hpc =>
      unfold Sys.startPublish
      split_ifs <;> exact hstamped.of_pc hgeo.toMasked (by rw [hpc]; rfl) rfl rfl rfl rfl rfl
  | abort hpc =>
      unfold Sys.runAbort rbAbort
      split_ifs <;> exact hstamped.of_pc hgeo.toMasked (by rw [hpc]; rfl) rfl rfl rfl rfl rfl
  | next => exact producerNext_stamped hmode hgeo hok hwrap hstamped
  | eventfdFails m head hpc hfd =>
      exact hstamped.of_pc hgeo.toMasked (by rw [hpc]; rfl) rfl rfl rfl rfl rfl

/-! ## The consumer -/

/-- Outside of the two stores of `rb_release` the consumer frees nothing. -/
theorem ConsumerMove.frees_nothing (hmove : ConsumerMove b s s') (hmode : b.mode = .lap)
    (hstamp : ∀ i tail, s.c.pc ≠ .relStamp i tail) (hstore : ∀ tail, s.c.pc ≠ .relStore tail) :
    s'.rb.store = s.rb.store ∧ s'.c.released = s.c.released ∧ s'.c.pc.freeing = false := by
  cases hmove with
  | consume hpc =>
      unfold Sys.startConsume
      split_ifs <;> exact ⟨rfl, rfl, rfl⟩
  | release i hpc =>
      unfold Sys.startRelease
      split_ifs <;> exact ⟨rfl, rfl, rfl⟩
  | wait e t hpc =>
      unfold Sys.startWait
      split_ifs
      · exact ⟨rfl, rfl, by rw [hpc]; rfl⟩
      · exact ⟨rfl, rfl, rfl⟩
  | drainFd hpc =>
      unfold Sys.startDrainFd
      split_ifs <;> exact ⟨rfl, rfl, rfl⟩
  | read offset hpc | notifyValue hpc => exact ⟨rfl, rfl, rfl⟩
  | clock now hnext =>
      unfold Sys.clockStep at hnext
      split at hnext
      case h_4 => cases hnext
      all_goals
        split_ifs at hnext <;> obtain rfl := Option.some.inj hnext <;> exact ⟨rfl, rfl, rfl⟩
  | futexReturns r hnext =>
      unfold Sys.futexStep at hnext
      split at hnext
      case h_3 => cases hnext
      all_goals
        obtain rfl := Option.some.inj hnext
        cases r <;> split_ifs <;> exact ⟨rfl, rfl, rfl⟩
  | next hnext =>
      cases hpc : s.c.pc with
      | idle | waitStart _ _ | waitNow _ | waitLate _ =>
          simp [Sys.consumerStep, hpc] at hnext
      | relStamp i tail => exact absurd hpc (hstamp i tail)
      | relStore tail => exact absurd hpc (hstore tail)
      | conEntry tail =>
          simp only [Sys.consumerStep, hpc] at hnext
          split at hnext
          · cases hnext
          · obtain rfl := Option.some.inj hnext
            exact ⟨rfl, rfl, rfl⟩
          · obtain rfl := Option.some.inj hnext
            split_ifs <;> exact ⟨rfl, rfl, rfl⟩
      | relTail i =>
          simp only [Sys.consumerStep, hpc, hmode, if_true] at hnext
          obtain rfl := Option.some.inj hnext
          exact ⟨rfl, rfl, rfl⟩
      | waitAsleep w =>
          simp only [Sys.consumerStep, hpc, Option.ite_none_left_eq_some] at hnext
          obtain rfl := Option.some.inj hnext.2
          exact ⟨rfl, rfl, rfl⟩
      | fdRead =>
          simp only [Sys.consumerStep, hpc] at hnext
          obtain rfl := Option.some.inj hnext
          split_ifs
          · exact ⟨rfl, rfl, by rw [hpc]; rfl⟩
          · exact ⟨rfl, rfl, rfl⟩
      | relLowE o n =>
          simp only [Sys.consumerStep, hpc, Sys.crossLowE] at hnext
          obtain rfl := Option.some.inj hnext
          split_ifs <;> exact ⟨rfl, rfl, rfl⟩
      | conTail | conHead tail | conStale tail i | waitCount e t | waitCheck w | waitFutex w =>
          simp only [Sys.consumerStep, hpc] at hnext
          obtain rfl := Option.some.inj hnext
          split_ifs <;> exact ⟨rfl, rfl, rfl⟩
      | conHeader i | relClear o n | relLowD o n | relClearUp o n | relFireE | waitRaise w
      | waitLower r =>
          simp only [Sys.consumerStep, hpc] at hnext
          obtain rfl := Option.some.inj hnext
          exact ⟨rfl, rfl, rfl⟩

/-- The stamp store of `rb_release`: the slot goes one round ahead. -/
theorem Stamped.recycle (hstamped : Stamped b s) (hmode : b.mode = .lap)
    (hgeo : s.rb.geo.Sound b) (hok : Counted s) (htaken : Taken b s)
    (hwrap : WrapSafe s.rb.geo.slots s.p.published) {i tail : UInt32}
    (hpc : s.c.pc = .relStamp i tail) :
    Stamped b ((s.setStore (s.rb.store.recycle b s.rb.geo i tail)).goC (.relStore tail)) := by
  have hlocals := hok.consumer.locals
  simp only [ConsumerLocals, hpc] at hlocals
  obtain ⟨hactive, rfl, rfl⟩ := hlocals
  have hroom := hok.entries_le
  have hslots := hok.sized.limit_le_slots
  have hfreed : s.c.freed = s.c.released := ConsumerSide.freed_eq (by rw [hpc]; rfl)
  rw [htaken.held hactive, hok.consumer.tail,
    slotAt_eq_home hgeo.toMasked (hwrap.mono hok.released_le)]
  intro q hq hlast
  have hq : s.c.released + 1 ≤ q := hq
  have hlast : q < s.c.released + 1 + s.rb.geo.slots.toNat := hlast
  change (s.rb.store.recycle b s.rb.geo (home s.rb.geo s.c.released)
    (UInt32.ofNat s.c.released)).stamp b s.rb.geo (home s.rb.geo q) = stampOf s.p.entries q
  simp only [Store.recycle, hmode]
  rcases Nat.lt_succ_iff_lt_or_eq.mp
    (show q < s.c.released + s.rb.geo.slots.toNat + 1 by omega) with hlt | rfl
  · rw [Store.stamp_setStamp_ne hgeo (home_lt hgeo.toMasked _) (home_lt hgeo.toMasked _)
      (home_ne hgeo.toMasked hq hlt)]
    exact hstamped q (by omega) (by omega)
  · have hhome : home s.rb.geo (s.c.released + s.rb.geo.slots.toNat) =
        home s.rb.geo s.c.released := by rw [home, home, Nat.add_mod_right]
    rw [hhome, Store.stamp_setStamp_same, stampOf, if_neg (by omega), UInt32.ofNat_add,
      UInt32.ofNat_toNat]

/-- Inside `rb_release` the consumer can only take its next step. -/
theorem ConsumerMove.consumerStep_eq (hmove : ConsumerMove b s s') {pc : ConsumerPc}
    (hpc : s.c.pc = pc) (hidle : pc ≠ .idle) (hclock : ∀ now, s.clockStep b now = none)
    (hfutex : ∀ r, s.futexStep r = none) : s.consumerStep b = some s' := by
  subst hpc
  cases hmove with
  | consume hpc | read offset hpc | release i hpc | notifyValue hpc | wait e t hpc | drainFd hpc =>
      exact absurd hpc hidle
  | next hnext => exact hnext
  | clock now hnext => rw [hclock] at hnext; cases hnext
  | futexReturns r hnext => rw [hfutex] at hnext; cases hnext

theorem ConsumerMove.stamped (hmove : ConsumerMove b s s') (hmode : b.mode = .lap)
    (hgeo : s.rb.geo.Sound b) (hok : Counted s) (htaken : Taken b s)
    (hwrap : WrapSafe s.rb.geo.slots s.p.published) (hstamped : Stamped b s) : Stamped b s' := by
  obtain ⟨hside, -, hset, -⟩ := hmove.frame
  have hgeo' : s'.rb.geo = s.rb.geo := congrArg Prod.fst hset
  have hentries : s'.p.entries = s.p.entries := by rw [hside]
  cases hpc : s.c.pc with
  | relStamp i tail =>
      have hnext := hmove.consumerStep_eq hpc (by rintro ⟨⟩)
        (fun now => by simp [Sys.clockStep, hpc])
        (fun r => by simp [Sys.futexStep, hpc])
      simp only [Sys.consumerStep, hpc] at hnext
      obtain rfl := Option.some.inj hnext
      exact hstamped.recycle hmode hgeo hok htaken hwrap hpc
  | relStore tail =>
      have hnext := hmove.consumerStep_eq hpc (by rintro ⟨⟩)
        (fun now => by simp [Sys.clockStep, hpc])
        (fun r => by simp [Sys.futexStep, hpc])
      simp only [Sys.consumerStep, hpc] at hnext
      obtain rfl := Option.some.inj hnext
      have hpcs : ∀ o n, (s.crossing o n).freeing = false := by
        intro o n
        simp only [Sys.crossing]
        split_ifs <;> rfl
      refine hstamped.of_eq hgeo.toMasked rfl (fun i _ => rfl) rfl ?_
      rw [ConsumerSide.freed_eq (hpcs _ _), ConsumerSide.freed, hpc]
      rfl
  | _ =>
      obtain ⟨hstore, hreleased, hfree⟩ := hmove.frees_nothing hmode (by simp [hpc]) (by simp [hpc])
      refine hstamped.of_eq hgeo.toMasked hgeo' (fun i _ => by rw [hstore]) hentries ?_
      rw [ConsumerSide.freed_eq hfree, hreleased, ConsumerSide.freed_eq (by rw [hpc]; rfl)]

theorem step_stamped {a : Act} (hstep : step b s a = some s') (hmode : b.mode = .lap)
    (hgeo : s.rb.geo.Sound b) (hok : Counted s) (htaken : Taken b s)
    (hwrap : WrapSafe s.rb.geo.slots s.p.published) (hstamped : Stamped b s) : Stamped b s' := by
  rcases step_moves hstep with hmove | hmove
  · exact hmove.stamped hmode hgeo hok hwrap hstamped
  · exact hmove.stamped hmode hgeo hok htaken hwrap hstamped

/-! ## Runs -/

theorem reaches_stamped {addr scratch scratchSize : BitVec b.sizeBits} {cfg : Config}
    {before : Store} {rb : Rb} (hacc : Accepted b addr cfg scratch scratchSize before rb)
    (hmode : b.mode = .lap) (hgeo : rb.geo.Sound b)
    (hreach : (machine b).Reaches (start rb) s)
    (hwrap : WrapSafe rb.geo.slots s.p.published) : Owned b s ∧ Stamped b s := by
  have haddr : ∀ geo : Geometry, b.mode = .pointer → geo.Addressable b :=
    fun _ hptr => by rw [hmode] at hptr; cases hptr
  have hinv := reaches_invariant hreach
    (fun s => s.rb.geo = rb.geo ∧ Counted s ∧
      (WrapSafe rb.geo.slots s.p.published → Owned b s ∧ Stamped b s))
    ⟨rfl, start_counted hacc, fun _ => ⟨start_owned hacc, start_stamped hacc hmode hgeo⟩⟩ ?_
  · exact hinv.2.2 hwrap
  · rintro s s' a ⟨hsame, hok, hinv⟩ hstep
    refine ⟨(congrArg Prod.fst (step_settings hstep)).trans hsame, step_counted hok hstep, ?_⟩
    intro hwrap
    have hwrap := hwrap.mono (step_published_le hstep)
    obtain ⟨howned, hstamped⟩ := hinv hwrap
    rw [← hsame] at hgeo hwrap
    exact ⟨step_owned hstep hgeo (haddr _) hok hwrap howned,
      step_stamped hstep hmode hgeo hok howned.taken hwrap hstamped⟩

/-- Every slot has one position in each round of positions. -/
theorem exists_home {geo : Geometry} (hgeo : geo.Masked) (first : Nat) {i : UInt32}
    (hi : i.toNat < geo.slots.toNat) :
    ∃ q, first ≤ q ∧ q < first + geo.slots.toNat ∧ home geo q = i := by
  have hmem : i.toNat ∈
      (Finset.Ico first (first + geo.slots.toNat)).image (· % geo.slots.toNat) := by
    rw [Nat.image_Ico_mod]
    exact Finset.mem_range.mpr hi
  obtain ⟨q, hq, heq⟩ := Finset.mem_image.mp hmem
  rw [Finset.mem_Ico] at hq
  refine ⟨q, hq.1, hq.2, UInt32.toNat_inj.mp ?_⟩
  rw [home_toNat hgeo]
  exact heq

/-- What the stamps of a state say. A stamp store and the counter store after it
are two steps; between them the slot in question is ahead of its counter. -/
structure StampsInStep (b : Build) (s : Sys) : Prop where
  /-- A slot that holds a position carries that position plus one. -/
  holding : s.p.pc.entryStored = false → s.c.pc.freeing = false →
    ∀ k < (s.rb.head - s.rb.tail).toNat,
      s.rb.store.stamp b s.rb.geo (slotIndexFor s.rb.geo (s.rb.tail + UInt32.ofNat k)) =
        s.rb.tail + UInt32.ofNat k + 1
  /-- Any other slot carries the next position that maps to it. -/
  free : s.p.pc.entryStored = false → s.c.pc.freeing = false →
    ∀ i, i.toNat < s.rb.geo.slots.toNat →
      (∀ k < (s.rb.head - s.rb.tail).toNat,
        slotIndexFor s.rb.geo (s.rb.tail + UInt32.ofNat k) ≠ i) →
      ∃ q, s.p.published ≤ q ∧ q % s.rb.geo.slots.toNat = i.toNat ∧
        (∀ q', s.p.published ≤ q' → q' % s.rb.geo.slots.toNat = i.toNat → q ≤ q') ∧
        s.rb.store.stamp b s.rb.geo i = UInt32.ofNat q
  /-- The stamp `rb_consume` loads is the one it expects. -/
  front : ∀ tail, s.c.pc = .conEntry tail →
    s.rb.store.stamp b s.rb.geo (slotIndexFor s.rb.geo tail) = tail + 1
  no_mismatch : ∀ tail i, s.c.pc ≠ .conStale tail i

theorem Stamped.free (hstamped : Stamped b s) (hok : Counted s)
    (hwrap : WrapSafe s.rb.geo.slots s.p.published) (hentry : s.p.pc.entryStored = false)
    (hfree : s.c.pc.freeing = false) {i : UInt32} (hi : i.toNat < s.rb.geo.slots.toNat)
    (hnone : ∀ p, s.c.released ≤ p → p < s.p.published → s.rb.geo.slotAt p ≠ i) :
    ∃ q, s.p.published ≤ q ∧ q % s.rb.geo.slots.toNat = i.toNat ∧
      (∀ q', s.p.published ≤ q' → q' % s.rb.geo.slots.toNat = i.toNat → q ≤ q') ∧
      s.rb.store.stamp b s.rb.geo i = UInt32.ofNat q := by
  have hmasked := hok.sized.toMasked
  have hle := hok.released_le
  obtain ⟨q, hfirst, hlast, hhome⟩ := exists_home hmasked s.c.released hi
  have hmod : q % s.rb.geo.slots.toNat = i.toNat := by rw [← hhome, home_toNat hmasked]
  have hahead : s.p.published ≤ q := by
    by_contra hlt
    have hlt := Nat.lt_of_not_le hlt
    exact hnone q hfirst hlt ((slotAt_eq_home hmasked (hwrap.mono hlt.le)).trans hhome)
  refine ⟨q, hahead, hmod, ?_, ?_⟩
  · intro q' hq' hmod'
    by_contra hlt
    exact Counter.mod_ne_of_lt (Nat.lt_of_not_le hlt) (by omega) (hmod'.trans hmod.symm)
  · have hstamp := hstamped q (by rwa [ConsumerSide.freed_eq hfree])
      (by rwa [ConsumerSide.freed_eq hfree])
    rw [hhome, stampOf, ProducerSide.entries_eq hentry, if_neg (Nat.not_lt.mpr hahead)] at hstamp
    exact hstamp

/-- In every state of the per-slot-lap build, the stamps are in step with the
counters, and the mismatch branch of `rb_consume` is dead. -/
theorem stamps_in_step {addr scratch scratchSize : BitVec b.sizeBits} {cfg : Option Config}
    {before : Store} {rb : Rb} (hmode : b.mode = .lap)
    (hinit : rbInit b addr cfg scratch scratchSize before = .ok rb)
    (hover : rb.geo.NonOverlapping) (hreach : (machine b).Reaches (start rb) s)
    (hwrap : WrapSafe rb.geo.slots s.p.published) : StampsInStep b s := by
  obtain ⟨cfg', -, hacc⟩ := rbInit_accepted hinit
  have hgeo : s.rb.geo = rb.geo := congrArg Prod.fst (reaches_settings hreach)
  have hok := reaches_counted hacc hreach
  obtain ⟨howned, hstamped⟩ := reaches_stamped hacc hmode (hacc.sound hover) hreach hwrap
  have hentered : ∀ p, s.c.freed ≤ p → p < s.p.entries →
      s.rb.store.stamp b s.rb.geo (s.rb.geo.slotAt p) = UInt32.ofNat p + 1 := by
    intro p hp hlt
    have hent := howned.kept.entered p hp hlt
    simpa only [Store.Entered, hmode] using hent
  constructor
  case holding =>
    intro hentry hfree k hk
    obtain ⟨hpos, hlt⟩ := hok.live hk
    rw [hpos]
    exact hentered _ (by rw [ConsumerSide.freed_eq hfree]; omega)
      (by rwa [ProducerSide.entries_eq hentry])
  case free =>
    intro hentry hfree i hi hnone
    refine hstamped.free hok (hgeo ▸ hwrap) hentry hfree hi fun p hp hlt => ?_
    have hk : p - s.c.released < (s.rb.head - s.rb.tail).toNat := by rw [hok.count_eq]; omega
    have hpos := (hok.live hk).1
    rw [Nat.add_sub_cancel' hp] at hpos
    rw [Geometry.slotAt, ← hpos]
    exact hnone _ hk
  case front =>
    intro tail hpc
    have hlocals := hok.consumer.locals
    simp only [ConsumerLocals, hpc] at hlocals
    obtain ⟨-, rfl, hlt⟩ := hlocals
    rw [hok.consumer.tail]
    exact hentered _ (by rw [ConsumerSide.freed_eq (by rw [hpc]; rfl)])
      ((hlt.trans_le hok.consumer.knownHead_le).trans_le (Nat.le_add_right _ _))
  case no_mismatch => exact howned.taken.not_stale

theorem smallRing_stamps_in_step :
    ∃ s, (machine { mode := .lap }).Reaches (start (smallRing .lap)) s ∧
      (s.c.delivered, s.p.published, decide (s.p.pc = .idle)) = ([⟨0, 5, false⟩], 1, false) ∧
      StampsInStep { mode := .lap } s := by
  obtain ⟨s, hreach, hseen⟩ := Automaton.Reaches.of_run (machine { mode := .lap })
    (start (smallRing .lap)) overlappedRun
    (fun s => (s.c.delivered, s.p.published, decide (s.p.pc = .idle)))
    (show _ = some ([⟨0, 5, false⟩], 1, false) by decide +kernel)
  exact ⟨s, hreach, hseen, stamps_in_step rfl (smallRing_init .lap)
    (smallRing_nonOverlapping .lap) hreach (Or.inl (by decide))⟩

end RingBuff.Threads
