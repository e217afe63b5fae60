import RingBuff.Relaxed.Machine

/-! # Why no access races

A thread only accesses the memory of the position it works on: the producer that
of the next one to publish, while it knows of room for it, and the consumer that
of the next one to release, while it knows that it has been published. What the
other thread did there belongs to a position whose signal has been seen. Both
directions are the same argument with the counters exchanged.
-/

namespace RingBuff.Relaxed

open Threads

variable {ord : Orders} {b : Build} {w w' : State} {s s' : Sys} {a : Act}

/-- The memory of a position. -/
def uses (geo : Geometry) (q : Nat) (x : Cell) : Prop :=
  x = .slot (geo.slotAt q) ∨ x = .entry (geo.cellAt q)

/-- Positions the producer may have written for. -/
def writable (s : Sys) (q : Nat) : Prop :=
  q ≤ s.p.published ∧ q < s.p.knownTail + s.rb.limit.toNat

/-- Positions the consumer may have looked at. -/
def readable (s : Sys) (q : Nat) : Prop := q ≤ s.c.released ∧ q < s.c.knownHead

/-- Positions less than one round apart share no memory. -/
theorem not_uses_of_lt (hsize : Sized s.rb) {p q : Nat} (hwrap : WrapSafe s.rb.geo.slots q)
    (hlt : p < q) (hspan : q < p + s.rb.limit.toNat) {x : Cell} (hp : uses s.rb.geo p x) :
    ¬ uses s.rb.geo q x := by
  have hslots := hsize.limit_le_slots
  have hcap := hsize.limit_le_capacity
  rcases hp with rfl | rfl
  · rintro (heq | ⟨⟨⟩⟩)
    exact hsize.slotAt_ne hwrap hlt (by omega) (Cell.slot.inj heq)
  · rintro (⟨⟨⟩⟩ | heq)
    exact hsize.cell_ne hlt (by omega) (Cell.entry.inj heq)

/-! ## What a thread accesses -/

theorem producerAccess_uses (hok : Counted s) (hstep : Threads.step b s a = some s')
    {acc : Access Cell} (hacc : producerAccess b s a = some acc) :
    uses s.rb.geo s.p.published acc.loc ∧ writable s s.p.published := by
  unfold producerAccess at hacc
  split at hacc
  next i hslot =>
    obtain rfl := Option.some.inj hacc
    obtain ⟨rfl, hroom⟩ := slotTarget_eq hok hstep hslot
    exact ⟨Or.inl rfl, le_rfl, hroom⟩
  next cell hcell =>
    obtain rfl := Option.some.inj hacc
    obtain ⟨rfl, hroom⟩ := cellTarget_eq hok hcell
    exact ⟨Or.inr rfl, le_rfl, hroom⟩
  next => cases hacc

theorem consumerAccess_uses (hok : Counted s) (htaken : Taken b s) {acc : Access Cell}
    (hacc : consumerAccess b s a = some acc) :
    uses s.rb.geo s.c.released acc.loc ∧ readable s s.c.released := by
  have hlocals := hok.consumer.locals
  unfold consumerAccess at hacc
  split at hacc
  next offset =>
    simp only [Option.ite_none_right_eq_some, Option.some.injEq] at hacc
    obtain ⟨⟨hactive, -⟩, rfl⟩ := hacc
    exact ⟨Or.inl (congrArg Cell.slot (htaken.held hactive)), le_rfl, hok.consumer.active hactive⟩
  next =>
    split at hacc
    next tail hpc =>
      simp only [ConsumerLocals, hpc] at hlocals
      obtain ⟨-, rfl, hlt⟩ := hlocals
      obtain rfl := Option.some.inj hacc
      refine ⟨?_, le_rfl, hlt⟩
      rw [hok.consumer.tail]
      dsimp only [Access.loc]
      split_ifs
      · exact Or.inl rfl
      · exact Or.inr rfl
    next i hpc =>
      simp only [ConsumerLocals, hpc] at hlocals
      obtain rfl := Option.some.inj hacc
      exact ⟨Or.inl (congrArg Cell.slot (htaken.front i hpc)), le_rfl, hlocals.2⟩
    next i tail hpc =>
      simp only [ConsumerLocals, hpc] at hlocals
      obtain ⟨hactive, rfl, -⟩ := hlocals
      obtain rfl := Option.some.inj hacc
      exact ⟨Or.inl (congrArg Cell.slot (htaken.held hactive)), le_rfl,
        hok.consumer.active hactive⟩
    next => cases hacc
  next => cases hacc

/-! ## What an ordinary move does to the counters -/

theorem ordinary_producer (ha : a.byProducer = true) (hord : ordinary s a = true)
    (hstep : Threads.step b s a = some s') :
    s'.p.knownTail = s.p.knownTail ∧ (s'.p.published = s.p.published ∨
      s'.p.published = s.p.published + 1 ∧ producerAccess b s a = none) := by
  rcases producer_cases ha hstep with ⟨hpc, hstart⟩ | hbranch
  · cases hstart <;> exact ⟨rfl, Or.inl rfl⟩
  · cases hbranch with
    | acqRoom w hpc hroom =>
        dsimp only [Sys.finishAcquire, reserve]
        split_ifs <;> exact ⟨rfl, Or.inl rfl⟩
    | acqFull w head hpc | acqFreed w head hpc | tail m head hpc =>
        simp [ordinary, loadsTail, hpc] at hord
    | store m head hpc =>
        exact ⟨rfl, Or.inr ⟨rfl, by simp [producerAccess, slotTarget, cellTarget, hpc]⟩⟩
    | _ => exact ⟨rfl, Or.inl rfl⟩

theorem ordinary_consumer (ha : a.byProducer = false) (hord : ordinary s a = true)
    (hstep : Threads.step b s a = some s') :
    s'.c.knownHead = s.c.knownHead ∧ (s'.c.released = s.c.released ∨
      s'.c.released = s.c.released + 1 ∧ consumerAccess b s a = none) := by
  rcases consumer_cases ha hstep with ⟨hpc, hstart⟩ | ⟨rfl, hbranch⟩ | ⟨-, haside⟩
  · cases hstart <;> exact ⟨rfl, Or.inl rfl⟩
  · cases hbranch with
    | conEmpty tail hpc | conFresh tail hpc | staleEmpty tail i hpc | staleFresh tail i hpc =>
        simp [ordinary, loadsHead, hpc] at hord
    | store tail hpc => exact ⟨rfl, Or.inr ⟨rfl, by simp [consumerAccess, hpc]⟩⟩
    | _ => exact ⟨rfl, Or.inl rfl⟩
  · rw [haside.eq]
    exact ⟨rfl, Or.inl rfl⟩

/-! ## The invariant -/

/-- Both counters hand over the memory of the positions they count. -/
structure Ordered (w : State) : Prop where
  bounded : w.hb.Bounded
  head : Handover w.hb (uses w.sys.rb.geo) .producer .consumer (writable w.sys) w.headView
    w.sys.p.published w.sys.c.knownHead
  tail : Handover w.hb (uses w.sys.rb.geo) .consumer .producer (readable w.sys) w.tailView
    w.sys.c.released w.sys.p.knownTail

/-- The producer knows everything the consumer did to the memory of the position
there is room for. -/
theorem Ordered.producer_known (hordered : Ordered w) (hok : Counted w.sys)
    (hwrap : WrapSafe w.sys.rb.geo.slots w.sys.p.published)
    (hroom : writable w.sys w.sys.p.published) {x : Cell}
    (huses : uses w.sys.rb.geo w.sys.p.published x) :
    w.hb.last x .consumer ≤ w.hb.clock .producer .consumer := by
  have hknown := hok.consumer.knownHead_le
  have hlimit := hroom.2
  refine hordered.tail.last_le ?_
  rintro q hq ⟨-, hlt⟩ hq'
  exact not_uses_of_lt hok.sized hwrap (by omega) (by omega) hq' huses

/-- The consumer knows everything the producer did to the memory of a position it
knows to be published. -/
theorem Ordered.consumer_known (hordered : Ordered w) (hok : Counted w.sys)
    (hwrap : WrapSafe w.sys.rb.geo.slots w.sys.p.published)
    (hread : readable w.sys w.sys.c.released) {x : Cell}
    (huses : uses w.sys.rb.geo w.sys.c.released x) :
    w.hb.last x .producer ≤ w.hb.clock .consumer .producer := by
  have htail := hok.producer.knownTail_le
  have hlt := hread.2
  refine hordered.head.last_le ?_
  rintro q hq ⟨hle, hroom⟩
  exact not_uses_of_lt hok.sized (hwrap.mono hle) (by omega) (by omega) huses

/-- No move can race. -/
theorem Ordered.not_racy (hordered : Ordered w) (hok : Counted w.sys) (htaken : Taken b w.sys)
    (hwrap : WrapSafe w.sys.rb.geo.slots w.sys.p.published)
    (hstep : Threads.step b w.sys a = some s') {acc : Access Cell}
    (hacc : accessOf b w.sys a = some acc) : ¬ w.hb.Racy a.side acc := by
  apply HappensBefore.not_racy
  unfold accessOf at hacc
  cases ha : a.byProducer with
  | true =>
      rw [if_pos ha] at hacc
      rw [Act.side_producer ha]
      obtain ⟨huses, hroom⟩ := producerAccess_uses hok hstep hacc
      rintro (_ | _) hne
      · exact absurd rfl hne
      · exact hordered.producer_known hok hwrap hroom huses
  | false =>
      rw [ha, if_neg Bool.false_ne_true] at hacc
      rw [Act.side_consumer ha]
      obtain ⟨huses, hread⟩ := consumerAccess_uses hok htaken hacc
      rintro (_ | _) hne
      · exact hordered.consumer_known hok hwrap hread huses
      · exact absurd rfl hne

/-! ## Steps -/

theorem bounded_record {hb : HappensBefore Side Cell} (hok : hb.Bounded) (t : Side)
    (acc : Option (Access Cell)) : (record hb t acc).Bounded := by
  cases acc with
  | none => exact hok
  | some acc => exact hok.access

theorem Ordered.producerMove (hordered : Ordered w) (hok : Counted w.sys)
    (hrel : ord.storeHead = true) (ha : a.byProducer = true)
    (hord : ordinary w.sys a = true) (hstep : Threads.step b w.sys a = some s') :
    Ordered (w.after ord b a s') := by
  obtain ⟨hside, -, hset, -⟩ := (step_producerMove ha hstep).frame
  simp only [Rb.settings, Prod.mk.injEq] at hset
  obtain ⟨hgeo, hlimit, -⟩ := hset
  obtain ⟨hknown, hpub⟩ := ordinary_producer ha hord hstep
  have haccess : accessOf b w.sys a = producerAccess b w.sys a := if_pos ha
  have hwho := Act.side_producer ha
  have hreach : ∀ q, writable w.sys q → writable s' q := by
    rintro q ⟨hq, hroom⟩
    refine ⟨?_, by rw [hknown, hlimit]; exact hroom⟩
    rcases hpub with hpub | ⟨hpub, -⟩ <;> omega
  refine ⟨bounded_record hordered.bounded _ _, ?_, ?_⟩
  · dsimp only [State.after]
    rw [hgeo, hside, hwho, haccess]
    refine Handover.mono ?_ hreach
    rcases hpub with hpub | ⟨hpub, hnone⟩
    · rw [if_pos hpub, hpub]
      cases hacc : producerAccess b w.sys a with
      | none => exact hordered.head
      | some acc =>
          obtain ⟨huses, hroom⟩ := producerAccess_uses hok hstep hacc
          exact hordered.head.access_source (by rintro ⟨⟩) hroom huses
    · rw [if_neg (by omega), hpub, hnone, carried, if_pos hrel]
      exact hordered.head.signal hordered.bounded
  · have hreadable : readable s' = readable w.sys := by
      unfold readable
      rw [hside]
    dsimp only [State.after]
    rw [hgeo, hreadable, hside, if_pos rfl, hknown, hwho]
    cases hacc : accessOf b w.sys a with
    | none => exact hordered.tail
    | some acc => exact hordered.tail.access_target (by rintro ⟨⟩) acc

theorem Ordered.consumerMove (hordered : Ordered w) (hok : Counted w.sys) (htaken : Taken b w.sys)
    (hrel : ord.storeTail = true) (ha : a.byProducer = false)
    (hord : ordinary w.sys a = true) (hstep : Threads.step b w.sys a = some s') :
    Ordered (w.after ord b a s') := by
  obtain ⟨hside, -, hset, -⟩ := (step_consumerMove ha hstep).frame
  simp only [Rb.settings, Prod.mk.injEq] at hset
  obtain ⟨hgeo, hlimit, -⟩ := hset
  obtain ⟨hknown, hrelsd⟩ := ordinary_consumer ha hord hstep
  have haccess : accessOf b w.sys a = consumerAccess b w.sys a := by simp [accessOf, ha]
  have hwho := Act.side_consumer ha
  have hreach : ∀ q, readable w.sys q → readable s' q := by
    rintro q ⟨hq, hlt⟩
    refine ⟨?_, by rw [hknown]; exact hlt⟩
    rcases hrelsd with hrelsd | ⟨hrelsd, -⟩ <;> omega
  refine ⟨bounded_record hordered.bounded _ _, ?_, ?_⟩
  · have hwritable : writable s' = writable w.sys := by
      unfold writable
      rw [hside, hlimit]
    dsimp only [State.after]
    rw [hgeo, hwritable, hside, if_pos rfl, hknown, hwho]
    cases hacc : accessOf b w.sys a with
    | none => exact hordered.head
    | some acc => exact hordered.head.access_target (by rintro ⟨⟩) acc
  · dsimp only [State.after]
    rw [hgeo, hside, hwho, haccess]
    refine Handover.mono ?_ hreach
    rcases hrelsd with hrelsd | ⟨hrelsd, hnone⟩
    · rw [if_pos hrelsd, hrelsd]
      cases hacc : consumerAccess b w.sys a with
      | none => exact hordered.tail
      | some acc =>
          obtain ⟨huses, hread⟩ := consumerAccess_uses hok htaken hacc
          exact hordered.tail.access_source (by rintro ⟨⟩) hread huses
    · rw [if_neg (by omega), hrelsd, hnone, carried, if_pos hrel]
      exact hordered.tail.signal hordered.bounded

/-! ## Loads -/

/-- What a load of `tail` leads to. -/
theorem nextWithTail_eq {k : Nat} (hpc : loadsTail s.p.pc = true) :
    ∃ pc slot wanted stats log, nextWithTail b s k = { s with
      rb.cachedTail := UInt32.ofNat k
      rb.pendingSlot := slot
      rb.pendingWanted := wanted
      rb.stats := stats
      p.pc := pc
      p.knownTail := k
      log } ∧ (pc = .idle ∨ ∃ m count, pc = .pubAdded m count) := by
  unfold nextWithTail
  have hbusy : (showTail s k).p.pc ≠ .idle := fun hidle => by
    rw [show s.p.pc = .idle from hidle] at hpc
    cases hpc
  have hbranch := producerNext_branch (b := b) hbusy
  have hloads : loadsTail (showTail s k).p.pc = true := hpc
  generalize (showTail s k).producerNext b = s' at hbranch
  cases hbranch with
  | acqFull wanted head hat hfull => exact ⟨_, _, _, _, _, rfl, Or.inl rfl⟩
  | acqFreed wanted head hat hroom =>
      dsimp only [Sys.finishAcquire, reserve]
      split_ifs <;> exact ⟨_, _, _, _, _, rfl, Or.inl rfl⟩
  | tail m head hat => exact ⟨_, _, _, _, _, rfl, Or.inr ⟨_, _, rfl⟩⟩
  | _ => simp_all [loadsTail]

/-- What a load of `head` leads to. -/
theorem stepWithHead_eq {k : Nat} (hpc : loadsHead s.c.pc = true)
    (hnext : stepWithHead b s k = some s') :
    ∃ pc log, s' = { s with
      rb.cachedHead := UInt32.ofNat k
      c.pc := pc
      c.knownHead := k
      log } ∧
      (pc = .idle ∨ (∃ tail, pc = .conEntry tail) ∨ ∃ tail i, s.c.pc = .conStale tail i) := by
  obtain ⟨s₁, hstep, rfl⟩ := Option.map_eq_some_iff.mp hnext
  have hloads : loadsHead (showHead s k).c.pc = true := hpc
  have hmsg : (showHead s k).c.pc.messaging = true := by
    cases hat : s.c.pc <;> simp_all [loadsHead, ConsumerPc.messaging, showHead]
  cases consumerStep_branch hmsg hstep with
  | conEmpty tail hat hempty | staleEmpty tail i hat hempty => exact ⟨_, _, rfl, Or.inl rfl⟩
  | conFresh tail hat hmore => exact ⟨_, _, rfl, Or.inr (Or.inl ⟨_, rfl⟩)⟩
  | staleFresh tail i hat hmore => exact ⟨_, _, rfl, Or.inr (Or.inr ⟨_, _, hat⟩)⟩
  | _ => simp_all [loadsHead]

/-- What a load of `full_latch` leads to. -/
theorem nextWithLatch_eq (value : UInt32) (hpc : s.p.pc = .pubLatch) :
    ∃ pc log, nextWithLatch b s value = { s with p.pc := pc, log } ∧
      (pc = .idle ∨ pc = .pubSetLatch) := by
  have hbranch := producerNext_branch (b := b) (s := { s with rb.fullLatch := value })
    (fun hidle => by cases hpc.symm.trans hidle)
  unfold nextWithLatch
  generalize Sys.producerNext b { s with rb.fullLatch := value } = s' at hbranch
  cases hbranch with
  | latchOpen hat hlatch => exact ⟨_, _, rfl, Or.inr rfl⟩
  | latchSet hat hlatch => exact ⟨_, _, rfl, Or.inl rfl⟩
  | _ => simp_all

end RingBuff.Relaxed
