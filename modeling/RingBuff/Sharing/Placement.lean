import RingBuff.Undo.Marks

/-! # What was in memory before does not matter

`rb_init` leaves `entries[]` and the payloads as they were, and it may be called on
memory that another ring has used: `cpu_host` sets up its shared region again before
every run. Whatever was there, and wherever the control block and the scratchpad lie,
rings of one configuration answer every sequence of calls in the same way. The one
trace of the old contents are payload bytes that the producer of a message did not
store.
-/

namespace RingBuff

namespace Ledger

/-- The ledger with other bytes in its slots. -/
abbrev withPayload (L : Ledger) (payload : UInt32 → Nat → UInt8) : Ledger := { L with payload }

section WithPayload

variable (L : Ledger) (P : UInt32 → Nat → UInt8)

theorem reserve_withPayload (w : UInt32) : (L.withPayload P).reserve w =
    ((L.reserve w).1, (L.reserve w).2.withPayload P) := by
  unfold reserve
  dsimp only
  split_ifs <;> rfl

theorem acquire_withPayload (w : UInt32) : (L.withPayload P).acquire w =
    ((L.acquire w).1, (L.acquire w).2.withPayload P) := by
  unfold acquire count
  dsimp only
  split_ifs
  · rfl
  · rfl
  · exact L.refreshTail.reserve_withPayload P w
  · exact L.reserve_withPayload P w

theorem publishEx_withPayload (i n : UInt32) (t : Bool) : (L.withPayload P).publishEx i n t =
    ((L.publishEx i n t).1, (L.publishEx i n t).2.withPayload P) := by
  unfold publishEx handOver append count
  dsimp only
  cases L.pending with
  | none => rfl
  | some r =>
      dsimp only
      split_ifs <;> rfl

theorem abort_withPayload :
    (L.withPayload P).abort = (L.abort.1, L.abort.2.withPayload P) := by
  unfold abort
  dsimp only
  split_ifs <;> rfl

theorem consume_withPayload :
    (L.withPayload P).consume = (L.consume.1, L.consume.2.withPayload P) := by
  unfold consume
  dsimp only
  split_ifs <;> rfl

theorem crossLowD_withPayload (oldCount newCount : Nat) :
    (L.withPayload P).crossLowD oldCount newCount =
      ((L.crossLowD oldCount newCount).1, (L.crossLowD oldCount newCount).2.withPayload P) := by
  unfold crossLowD
  dsimp only
  split_ifs <;> rfl

theorem crossLowE_withPayload (oldCount newCount : Nat) :
    (L.withPayload P).crossLowE oldCount newCount =
      ((L.crossLowE oldCount newCount).1, (L.crossLowE oldCount newCount).2.withPayload P) := by
  unfold crossLowE
  dsimp only
  split_ifs <;> rfl

theorem release_withPayload (i : UInt32) : (L.withPayload P).release i =
    ((L.release i).1, (L.release i).2.withPayload P) := by
  have hdrop : (L.withPayload P).drop = L.drop.withPayload P := rfl
  simp only [release, hdrop, crossLowD_withPayload, crossLowE_withPayload]
  split_ifs <;> rfl

theorem setLimit_withPayload (limit : UInt32) : (L.withPayload P).setLimit limit =
    ((L.setLimit limit).1, (L.setLimit limit).2.withPayload P) := by
  unfold setLimit count
  dsimp only
  split_ifs <;> rfl

/-- Only the accesses to a payload depend on the bytes. -/
theorem call_withPayload {c : Call} (hread : ∀ k, c ≠ .read k) (hwrite : ∀ k v, c ≠ .write k v) :
    (L.withPayload P).call c = ((L.call c).1, (L.call c).2.withPayload P) := by
  cases c with
  | acquire w => simp only [call, quiet, acquire_withPayload]
  | publish i n => exact L.publishEx_withPayload P i n false
  | publishEx i n t => exact L.publishEx_withPayload P i n t
  | abort => simp only [call, quiet, abort_withPayload]
  | consume => simp only [call, quiet, consume_withPayload]
  | release i => exact L.release_withPayload P i
  | setLimit limit => simp only [call, quiet, setLimit_withPayload]
  | setLowD percent =>
      simp only [call, quiet, setLowD]
      split_ifs <;> rfl
  | setLowE percent =>
      simp only [call, quiet, setLowE]
      split_ifs <;> rfl
  | setOversizePolicy policy => cases policy <;> rfl
  | setCallbacks cb => cases cb <;> rfl
  | read k => exact absurd rfl (hread k)
  | write k v => exact absurd rfl (hwrite k v)
  | count | isFull | isEmpty | setProducerStack | setConsumerStack => rfl

theorem call_payload {c : Call} (hwrite : ∀ k v, c ≠ .write k v) :
    (L.call c).2.payload = L.payload := by
  by_cases hread : ∃ k, c = .read k
  · obtain ⟨k, rfl⟩ := hread
    rfl
  · have hcall := L.call_withPayload L.payload (fun k hk => hread ⟨k, hk⟩) hwrite
    exact congrArg (fun answer => answer.2.payload) hcall

end WithPayload

section Writes

variable {L : Ledger} {r : Reservation} {k : Nat} {v : UInt8}

theorem call_write (hpending : L.pending = some r) (hk : k < L.cap.toNat) :
    L.call (.write k v) = ((.code .ok, []), L.setByte r.slotIndex k v) := by
  simp only [call, quiet, write, hpending, if_pos hk]

theorem call_write_refused (hstores : ¬ ∃ r, L.pending = some r ∧ k < L.cap.toNat) :
    L.call (.write k v) = ((.code .inval, []), L) := by
  cases hpending : L.pending with
  | none => simp only [call, quiet, write, hpending]
  | some r =>
      have hk : ¬ k < L.cap.toNat := fun hk => hstores ⟨r, hpending, hk⟩
      simp only [call, quiet, write, hpending, if_neg hk]

theorem setByte_other (L : Ledger) {s s' : UInt32} {j : Nat} (hbyte : ¬ (s = s' ∧ j = k)) :
    (L.setByte s' k v).payload s j = L.payload s j := by
  rcases eq_or_ne s s' with rfl | hs
  · simp [setByte, Function.update_of_ne fun hj => hbyte ⟨rfl, hj⟩]
  · simp [setByte, Function.update_of_ne hs]

end Writes

/-- Two ledgers that differ in bytes which nobody stored for the message they belong to. -/
structure Agrees (m : Marks) (L L' : Ledger) : Prop where
  same : L' = L.withPayload L'.payload
  firm : ∀ s k, L.Firm m s k → L'.payload s k = L.payload s k

namespace Agrees

variable {m : Marks} {L L' : Ledger}

/-- A message that is held is still in its slot. -/
theorem busy_of_held (hok : L.Ok) {s : UInt32} (hheld : L.held = some s) : L.usage.Busy s := by
  obtain ⟨hslot, hfront⟩ := hok.held_slot s hheld
  exact Or.inr ⟨L.tail, le_rfl, hfront.trans_le hok.cachedHead_le, hslot.symm⟩

theorem read (hagrees : Agrees m L L') (hok : L.Ok) (hmarked : L.usage.Marked m) (k : Nat) :
    m.shown (.read k) (L'.call (.read k)).1 = m.shown (.read k) (L.call (.read k)).1 := by
  have hheld' : L'.held = L.held := by rw [hagrees.same]
  have hcap' : L'.cap = L.cap := by rw [hagrees.same]
  simp only [call, quiet, Ledger.read, hheld', hcap']
  cases hheld : L.held with
  | none => rfl
  | some s =>
      obtain rfl := hmarked.held s hheld
      dsimp only
      split_ifs
      · simp only [Marks.shown]
        split_ifs with hwrote
        · rw [hagrees.firm _ k ⟨busy_of_held hok hheld, hwrote⟩]
        · rfl
      · rfl

theorem write (hagrees : Agrees m L L') (hok : L.Ok) (hmarked : L.usage.Marked m) (k : Nat)
    (v : UInt8) : (L'.call (.write k v)).1 = (L.call (.write k v)).1 ∧
      Agrees (m.note (.write k v) (L.call (.write k v)).1) (L.call (.write k v)).2
        (L'.call (.write k v)).2 := by
  have hpending : L'.pending = L.pending := by rw [hagrees.same]
  have hcap : L'.cap = L.cap := by rw [hagrees.same]
  by_cases hstores : ∃ r, L.pending = some r ∧ k < L.cap.toNat
  · obtain ⟨r, hr, hk⟩ := hstores
    have hturn := L.turn_call (.write k v)
    rw [call_write hr hk] at hturn ⊢
    rw [call_write (hpending.trans hr) (hcap ▸ hk)]
    refine ⟨rfl, by rw [hagrees.same]; rfl, fun s j hfirm => ?_⟩
    -- the byte just stored is the same in both, every other firm byte was firm before
    by_cases hbyte : s = r.slotIndex ∧ j = k
    · obtain ⟨rfl, rfl⟩ := hbyte
      simp [setByte]
    · rcases hturn.firm hok hmarked hfirm with hfirm | ⟨_, r', hc, hr', rfl, -⟩
      · rw [setByte_other _ hbyte, setByte_other _ hbyte]
        exact hagrees.firm s j hfirm
      · cases hc
        cases hr.symm.trans hr'
        exact absurd ⟨rfl, rfl⟩ hbyte
  · rw [call_write_refused hstores, call_write_refused (by rwa [hpending, hcap])]
    exact ⟨rfl, hagrees⟩

/-- One call on both. -/
theorem step (hagrees : Agrees m L L') (hok : L.Ok) (hmarked : L.usage.Marked m) (c : Call) :
    m.shown c (L'.call c).1 = m.shown c (L.call c).1 ∧
      m.note c (L'.call c).1 = m.note c (L.call c).1 ∧
      Agrees (m.note c (L.call c).1) (L.call c).2 (L'.call c).2 := by
  by_cases hread : ∃ k, c = .read k
  · obtain ⟨k, rfl⟩ := hread
    exact ⟨hagrees.read hok hmarked k, rfl, hagrees⟩
  by_cases hwrite : ∃ k v, c = .write k v
  · obtain ⟨k, v, rfl⟩ := hwrite
    obtain ⟨houtput, hnext⟩ := hagrees.write hok hmarked k v
    exact ⟨by rw [houtput], by rw [houtput], hnext⟩
  have hwrite : ∀ k v, c ≠ .write k v := fun k v hc => hwrite ⟨k, v, hc⟩
  have hcall : L'.call c = ((L.call c).1, (L.call c).2.withPayload L'.payload) := by
    rw [hagrees.same]
    exact L.call_withPayload _ (fun k hk => hread ⟨k, hk⟩) hwrite
  rw [hcall]
  refine ⟨rfl, rfl, rfl, fun s k hfirm => ?_⟩
  rcases (L.turn_call c).firm hok hmarked hfirm with hfirm | ⟨v, _, hc, -⟩
  · rw [L.call_payload hwrite]
    exact hagrees.firm s k hfirm
  · exact absurd hc (hwrite k v)

/-- The same calls on both. -/
theorem run (hagrees : Agrees m L L') (hok : L.Ok) (hmarked : L.usage.Marked m)
    {calls : List Call} {outputs : List Output} {M : Ledger}
    (hrun : ledger.run L calls = some (outputs, M)) :
    ∃ outputs' M', ledger.run L' calls = some (outputs', M') ∧
      m.shownAll (calls.zip outputs') = m.shownAll (calls.zip outputs) ∧
      Agrees (m.after (calls.zip outputs)) M M' := by
  induction calls generalizing L L' m outputs with
  | nil =>
      obtain ⟨rfl, rfl⟩ := Prod.mk.inj (Option.some.inj hrun)
      exact ⟨[], L', rfl, rfl, hagrees⟩
  | cons c rest ih =>
      obtain ⟨output, next, tail, hstep, hrest, rfl⟩ := ledger.run_cons_eq_some.mp hrun
      obtain ⟨rfl, rfl⟩ := ledger_step_eq_some.mp hstep
      obtain ⟨hshown, hnote, hnext⟩ := hagrees.step hok hmarked c
      obtain ⟨outputs', M', hrun', hall, hlast⟩ :=
        ih hnext (call_ok hok c) ((L.turn_call c).marked hmarked) hrest
      refine ⟨(L'.call c).1 :: outputs', M',
        ledger.run_cons_eq_some.mpr ⟨_, _, outputs', rfl, hrun', rfl⟩, ?_, hlast⟩
      simp only [List.zip_cons_cons, Marks.shownAll, hshown, hnote, hall]

end Agrees

end Ledger

section Placement

variable {b : Build} {cfg : Config} {addr addr' scratch scratch' scratchSize scratchSize' :
  BitVec b.sizeBits} {before before' : Store} {rb rb' last : Rb}

/-- Set up one configuration twice, in any two places with any two previous contents. What
one ring answers to a sequence of calls the other one answers too, up to bytes that nobody
stored for the message they are read from, and the statistics are the same. -/
theorem placement_irrelevant
    (hinit : rbInit b addr (some cfg) scratch scratchSize before = .ok rb)
    (hinit' : rbInit b addr' (some cfg) scratch' scratchSize' before' = .ok rb')
    (hover : rb.geo.NonOverlapping) (hover' : rb'.geo.NonOverlapping)
    (haddr : b.mode = .pointer → rb.geo.Addressable b)
    (haddr' : b.mode = .pointer → rb'.geo.Addressable b)
    {calls : List Call} {outputs : List Output}
    (hrun : (ring b).run rb calls = some (outputs, last))
    (hwrap : WrapSafe rb.geo.slots (publishes calls outputs)) :
    ∃ outputs' last', (ring b).run rb' calls = some (outputs', last') ∧
      Marks.shownAll {} (calls.zip outputs') = Marks.shownAll {} (calls.zip outputs) ∧
      last'.stats = last.stats := by
  obtain ⟨_, heq, hacc⟩ := rbInit_accepted hinit
  obtain rfl := Option.some.inj heq
  obtain ⟨_, heq', hacc'⟩ := rbInit_accepted hinit'
  obtain rfl := Option.some.inj heq'
  have htracks := hacc.tracks
  have hslots := htracks.rep.slots
  obtain ⟨M, hledger, hM⟩ := htracks.run_ledger (hacc.sound hover) haddr hrun
    (by rw [hslots]; exact (Nat.zero_add _).symm ▸ hwrap)
  have hagrees : Ledger.Agrees {} (cfg.ledger b (rb.store.payload b rb.geo))
      (cfg.ledger b (rb'.store.payload b rb'.geo)) :=
    ⟨rfl, fun _ _ hfirm => by cases hfirm.2⟩
  obtain ⟨outputs', M', hledger', hshown, hlast⟩ :=
    hagrees.run htracks.ok ⟨by rintro _ ⟨⟩, by rintro _ ⟨⟩⟩ hledger
  have hwrap' : WrapSafe M'.slots M'.head := by
    obtain ⟨hhead, hslots'⟩ := Ledger.run_head hledger
    rw [hlast.same]
    dsimp only
    rw [hhead, hslots', hslots]
    exact (Nat.zero_add _).symm ▸ hwrap
  obtain ⟨last', hrun', hM'⟩ :=
    hacc'.tracks.run_exact (hacc'.sound hover') haddr' hledger' fun _ => hwrap'
  refine ⟨outputs', last', hrun', hshown, ?_⟩
  rw [hM'.rep.stats, hM.rep.stats, hlast.same]

end Placement

/-- The small ring elsewhere, in memory that was used before. -/
def usedRing : Rb :=
  smallConfig.fresh { mode := .index }
    (smallConfig.geometry { mode := .index } 192#64 8192#64 256#64) ⟨fun _ => 9, fun _ => 255⟩

/-- One message of which only the first byte is stored. -/
def halfWritten : List Call :=
  [.acquire 0, .write 0 7, .publishEx 0 2 false, .consume, .read 0, .read 1]

/-- Both rings return the first byte; the second one is `0` in the one and `255` in the
other. -/
theorem usedRing_answers :
    ∃ outputs last outputs' last',
      (ring { mode := .index }).run (smallRing .index) halfWritten = some (outputs, last) ∧
        (ring { mode := .index }).run usedRing halfWritten = some (outputs', last') ∧
        Marks.shownAll {} (halfWritten.zip outputs') = Marks.shownAll {} (halfWritten.zip outputs) ∧
        last'.stats = last.stats ∧ outputs.drop 4 = [(.byte 7, []), (.byte 0, [])] ∧
        outputs'.drop 4 = [(.byte 7, []), (.byte 255, [])] := by
  have hbytes : ((ring { mode := .index }).run (smallRing .index) halfWritten).map
      (fun r => r.1.drop 4) = some [(.byte 7, []), (.byte 0, [])] := by decide +kernel
  have hbytes' : ((ring { mode := .index }).run usedRing halfWritten).map
      (fun r => r.1.drop 4) = some [(.byte 7, []), (.byte 255, [])] := by decide +kernel
  obtain ⟨⟨outputs, last⟩, hrun, hdrop⟩ := Option.map_eq_some_iff.mp hbytes
  have hinit : rbInit { mode := .index } 192#64 (some smallConfig) 8192#64 256#64
      ⟨fun _ => 9, fun _ => 255⟩ = .ok usedRing := rfl
  obtain ⟨outputs', last', hrun', hshown, hstats⟩ :=
    placement_irrelevant (smallRing_init .index) hinit (smallRing_nonOverlapping .index)
      (Accepted.nonOverlapping_of_le (by decide) (by decide)) (by rintro ⟨⟩) (by rintro ⟨⟩) hrun
      (Or.inl (by decide))
  rw [hrun'] at hbytes'
  exact ⟨outputs, last, outputs', last', hrun, hrun', hshown, hstats, hdrop,
    Option.some.inj hbytes'⟩

end RingBuff
