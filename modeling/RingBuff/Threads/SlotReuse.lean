import RingBuff.Ledger.Runs
import RingBuff.Ledger.Stages
import RingBuff.Threads.Ownership
import RingBuff.Threads.Solo

/-! # Slots around the wrap of the counters

`slot_index_for` takes the remainder of a position that itself wraps at `2 ^ 32`.
If the number of slots does not divide `2 ^ 32`, the slot numbers jump at the
wrap, and two positions on its two sides can share a slot. Here is exactly when
that happens, for a window of positions and for the slot `rb_acquire` hands out,
and a run in which it does.
-/

namespace RingBuff

/-- The slots of `limit` consecutive positions from `pos` on are different. -/
def Geometry.DistinctFrom (geo : Geometry) (limit : Nat) (pos : UInt32) : Prop :=
  ∀ i j, i < j → j < limit →
    slotIndexFor geo (pos + UInt32.ofNat i) ≠ slotIndexFor geo (pos + UInt32.ofNat j)

namespace Geometry.Masked

variable {geo : Geometry}

/-- Two positions of one round share a slot exactly if the counter has wrapped
between them and a lap leaves their distance over. -/
theorem slotAt_eq_iff (hgeo : geo.Masked) {p q : Nat} (hlt : p < q)
    (hspan : q < p + geo.slots.toNat) :
    geo.slotAt p = geo.slotAt q ↔ q % 2 ^ 32 < q - p ∧ 2 ^ 32 % geo.slots.toNat = q - p := by
  rw [← UInt32.toNat_inj, hgeo.slotAt_toNat, hgeo.slotAt_toNat,
    Counter.wrapped_mod_eq_iff hlt hspan geo.slots.toNat_lt.le]

theorem distinctFrom_iff (hgeo : geo.Masked) {limit : Nat} (hlimit : limit ≤ geo.slots.toNat)
    (pos : UInt32) :
    geo.DistinctFrom limit pos ↔ Counter.isPow2 geo.slots = true ∨
      limit ≤ 2 ^ 32 % geo.slots.toNat ∨ pos.toNat + limit ≤ 2 ^ 32 := by
  have hpos := pos.toNat_lt
  have hslot : ∀ i, slotIndexFor geo (pos + UInt32.ofNat i) = geo.slotAt (pos.toNat + i) := by
    intro i
    rw [Geometry.slotAt, UInt32.ofNat_add, UInt32.ofNat_toNat]
  have hsame : ∀ i j, i < j → j < limit →
      (slotIndexFor geo (pos + UInt32.ofNat i) = slotIndexFor geo (pos + UInt32.ofNat j) ↔
        (pos.toNat + j) % 2 ^ 32 < j - i ∧ 2 ^ 32 % geo.slots.toNat = j - i) := by
    intro i j hij hj
    rw [hslot, hslot, hgeo.slotAt_eq_iff (by omega) (by omega), Nat.add_sub_add_left]
  rw [← Counter.lap_mod_eq_zero_iff]
  constructor
  · -- otherwise the last positions before the wrap and the first after it collide
    intro hdistinct
    by_contra hnone
    simp only [not_or, not_le] at hnone
    obtain ⟨hrest, hshort, hacross⟩ := hnone
    have hjlt : max (2 ^ 32 - pos.toNat) (2 ^ 32 % geo.slots.toNat) < limit := by omega
    refine hdistinct (max (2 ^ 32 - pos.toNat) (2 ^ 32 % geo.slots.toNat) -
      2 ^ 32 % geo.slots.toNat) _ (by omega) hjlt ((hsame _ _ (by omega) hjlt).mpr ?_)
    omega
  · rintro (hzero | hlong | hshort) i j hij hj hcollide
    all_goals
      obtain ⟨hwrapped, hrest⟩ := (hsame i j hij hj).mp hcollide
      omega

/-- Every window of positions has distinct slots exactly if a lap leaves nothing
over or at least a window. -/
theorem forall_distinctFrom_iff (hgeo : geo.Masked) {limit : Nat} (hpos : 0 < limit)
    (hlimit : limit ≤ geo.slots.toNat) :
    (∀ pos, geo.DistinctFrom limit pos) ↔
      Counter.isPow2 geo.slots = true ∨ limit ≤ 2 ^ 32 % geo.slots.toNat := by
  constructor
  · intro hall
    rcases (hgeo.distinctFrom_iff hlimit (UInt32.ofNat (2 ^ 32 - 1))).mp (hall _) with
      hpow | hlong | hshort
    · exact Or.inl hpow
    · exact Or.inr hlong
    · rw [Counter.toNat_of_lt (by omega)] at hshort
      rw [← Counter.lap_mod_eq_zero_iff]
      omega
  · intro hrest pos
    exact (hgeo.distinctFrom_iff hlimit pos).mpr (hrest.imp_right Or.inl)

end Geometry.Masked

namespace Threads

variable {b : Build} {s s' : Sys} {i : UInt32}

/-! ## The slot that is handed out -/

/-- Inside `rb_acquire`. -/
def ProducerPc.acquiring : ProducerPc → Bool
  | .acqHead _ | .acqTail _ _ => true
  | _ => false

/-- The step with which `rb_acquire` returns slot `i`. -/
structure HandsOut (b : Build) (s s' : Sys) (i : UInt32) : Prop where
  acquiring : s.p.pc.acquiring = true
  step : step b s .producer = some s'
  reply : ∃ cap, s'.log = s.log ++ [.reply (.reserved i cap)]

/-- Slot `i` has a published message that has not been released. -/
def Live (s : Sys) (i : UInt32) : Prop :=
  ∃ k m, s.c.released ≤ k ∧ k < s.p.published ∧ s.p.sent[k]? = some m ∧ m.slotIndex = i

theorem Counted.live_slotAt (hok : Counted s) :
    Live s i ↔ ∃ k, s.c.released ≤ k ∧ k < s.p.published ∧ s.rb.geo.slotAt k = i := by
  constructor
  · rintro ⟨k, m, hfrom, hto, hget, rfl⟩
    exact ⟨k, hfrom, hto, (hok.producer.sent_slot k m hget).symm⟩
  · rintro ⟨k, hfrom, hto, rfl⟩
    obtain ⟨m, hget⟩ := hok.exists_sent hto
    exact ⟨k, m, hfrom, hto, hget, hok.producer.sent_slot k m hget⟩

theorem finishAcquire_handsOut {wantedLen head : UInt32}
    (hreply : ∃ cap, (s.finishAcquire b wantedLen head).log =
      s.log ++ [.reply (.reserved i cap)]) : i = slotIndexFor s.rb.geo head := by
  obtain ⟨cap, hlog⟩ := hreply
  have hanswer : Obs.reply (reserve b s.rb wantedLen head).1 = .reply (.reserved i cap) :=
    List.singleton_inj.mp (List.append_cancel_left hlog)
  unfold reserve at hanswer
  dsimp only at hanswer
  split_ifs at hanswer
  · cases hanswer
  · cases hanswer
    rfl

/-- It is the slot of the next position, and there is room for that position. -/
theorem HandsOut.slot (hout : HandsOut b s s' i) (hok : Counted s) :
    i = s.rb.geo.slotAt s.p.published ∧ s.p.published < s.c.released + s.rb.limit.toNat := by
  obtain ⟨hacq, hstep, hreply⟩ := hout
  have hle := hok.published_le
  have hknown := hok.producer.knownTail_le
  have hlocals := hok.producer.locals
  have hslot : slotIndexFor s.rb.geo s.rb.head = s.rb.geo.slotAt s.p.published :=
    congrArg (slotIndexFor s.rb.geo) hok.producer.head
  cases hpc : s.p.pc with
  | acqHead w =>
      have hnext : s.producerNext b = s' := by simpa [Threads.step, hpc] using hstep
      subst hnext
      simp only [Sys.producerNext, hpc] at hreply
      split at hreply
      next hfull => simp [Sys.goP] at hreply
      next hfull =>
        rw [hok.producer.limit_le_cached hok.sized] at hfull
        exact ⟨(finishAcquire_handsOut hreply).trans hslot, by omega⟩
  | acqTail w head =>
      simp only [ProducerLocals, hpc] at hlocals
      obtain ⟨-, rfl⟩ := hlocals
      have hnext : s.producerNext b = s' := by simpa [Threads.step, hpc] using hstep
      subst hnext
      simp only [Sys.producerNext, hpc] at hreply
      split at hreply
      next hfull => simp [Sys.returnP, Sys.refreshTail, Sys.noteFullAttempt] at hreply
      next hfull =>
        rw [UInt32.le_iff_toNat_le, hok.count_eq] at hfull
        exact ⟨(finishAcquire_handsOut (s := s.refreshTail) hreply).trans hslot, by omega⟩
  | _ => simp [hpc, ProducerPc.acquiring] at hacq

/-- The slot of a live message is handed out exactly if the position of that
message is on the other side of the wrap, by what a lap leaves over. -/
theorem HandsOut.live_iff (hout : HandsOut b s s' i) (hok : Counted s) :
    Live s i ↔ s.rb.head.toNat < 2 ^ 32 % s.rb.geo.slots.toNat ∧
      2 ^ 32 % s.rb.geo.slots.toNat ≤ (s.rb.head - s.rb.tail).toNat := by
  obtain ⟨rfl, hroom⟩ := hout.slot hok
  have hslots := hok.sized.limit_le_slots
  have hle := hok.released_le
  rw [hok.live_slotAt, hok.count_eq, hok.producer.head, Counter.toNat_ofNat]
  constructor
  · rintro ⟨k, hfrom, hto, heq⟩
    obtain ⟨hwrapped, hrest⟩ := (hok.sized.slotAt_eq_iff hto (by omega)).mp heq
    omega
  · rintro ⟨hwrapped, hrest⟩
    refine ⟨s.p.published - 2 ^ 32 % s.rb.geo.slots.toNat, by omega, by omega, ?_⟩
    exact (hok.sized.slotAt_eq_iff (by omega) (by omega)).mpr (by omega)

/-- What the slots are for: no two positions of a window share one, and a slot is
not handed out while a message is in it. -/
structure SlotsKept (b : Build) (rb : Rb) : Prop where
  index_lt : ∀ pos, (slotIndexFor rb.geo pos).toNat < rb.geo.slots.toNat
  distinct : ∀ pos, rb.geo.DistinctFrom rb.limit.toNat pos
  not_live : ∀ s s' i, (machine b).Reaches (start rb) s → HandsOut b s s' i → ¬ Live s i

/-- The slots keep their messages across the wrap exactly if their number is a
power of two, or what a lap leaves over is at least the limit. -/
theorem slotsKept_iff {addr scratch scratchSize : BitVec b.sizeBits} {cfg : Option Config}
    {before : Store} {rb : Rb} (hinit : rbInit b addr cfg scratch scratchSize before = .ok rb) :
    SlotsKept b rb ↔ Counter.isPow2 rb.geo.slots = true ∨
      rb.limit.toNat ≤ 2 ^ 32 % rb.geo.slots.toNat := by
  obtain ⟨cfg', -, hacc⟩ := rbInit_accepted hinit
  have hsize : Sized rb := (start_counted hacc).sized
  have hdistinct :=
    hsize.toMasked.forall_distinctFrom_iff hsize.limit_pos hsize.limit_le_slots
  refine ⟨fun hkept => hdistinct.mp hkept.distinct, fun hrest => ?_⟩
  refine ⟨hsize.slotIndexFor_lt, hdistinct.mpr hrest, fun s s' i hreach hout hlive => ?_⟩
  have hok := reaches_counted hacc hreach
  have hsettings := reaches_settings hreach
  simp only [Rb.settings, Prod.mk.injEq] at hsettings
  obtain ⟨hgeo, hlimit, -⟩ := hsettings
  obtain ⟨hwrapped, hcount⟩ := (hout.live_iff hok).mp hlive
  have hroom := (hout.slot hok).2
  rw [hok.count_eq] at hcount
  rw [← Counter.lap_mod_eq_zero_iff, ← hgeo, ← hlimit] at hrest
  omega

/-! ## A run to the wrap -/

/-- A thread alone follows the ledger call by call. -/
theorem call_tracks {geo : Geometry} (hgeo : geo.Sound b)
    (haddr : b.mode = .pointer → geo.Addressable b) {L : Ledger} (hrests : Rests s)
    (htracks : Tracks b geo s.rb L) (hwrap : b.mode = .lap → WrapSafe L.slots L.head) {c : Call}
    (hc : c.threaded = true) :
    ∃ s', (machine b).Reaches s s' ∧ Rests s' ∧ Tracks b geo s'.rb (L.call c).2 := by
  obtain ⟨rb', hcall, htracks'⟩ := htracks.call_exact hgeo haddr hwrap c
  obtain ⟨s', hreach, hrests', hrb, -⟩ := call_returns hrests hc hcall
  exact ⟨s', hreach, hrests', hrb ▸ htracks'⟩

/-- A thread alone follows the ledger until the counters wrap. -/
theorem steady_tracks {geo : Geometry} (hgeo : geo.Sound b)
    (haddr : b.mode = .pointer → geo.Addressable b) {rb : Rb} {L M : Ledger}
    (htracks : Tracks b geo rb L) (hreach : Ledger.steady.Reaches L M)
    (hwrap : WrapSafe M.slots M.head) :
    ∃ s, (machine b).Reaches (start rb) s ∧ Rests s ∧ Tracks b geo s.rb M := by
  obtain ⟨calls, outputs, hrun⟩ := hreach
  obtain ⟨hmoves, hrun⟩ := ledger.run_restrict hrun
  obtain ⟨rb', hrun', htracks'⟩ := htracks.run_exact hgeo haddr hrun fun _ => hwrap
  obtain ⟨s, hreach, hrests, hrb, -⟩ := run_alone hrun' hmoves
  exact ⟨s, hreach, hrests, hrb ▸ htracks'⟩

/-- With room and without a reservation, `rb_acquire` hands out a slot. -/
theorem exists_handsOut (hrests : Rests s) (hinit : s.rb.geo.scratchSize ≠ 0)
    (hnone : s.rb.pendingSlot = noPending)
    (hroom : (s.rb.head - s.rb.tail).toNat < s.rb.limit.toNat) :
    ∃ s₁ s₂, (machine b).Reaches s s₁ ∧ s₁.rb = s.rb ∧
      HandsOut b s₁ s₂ (slotIndexFor s.rb.geo s.rb.head) := by
  have hstart : step b s (.acquire 0) = some (s.goP (.acqHead 0)) := by
    rw [step, if_pos hrests.producer, Sys.startAcquire, if_neg hinit, if_neg (not_not.mpr hnone)]
  have hreply : ∀ s' : Sys, s'.rb.geo = s.rb.geo → s'.log = s.log →
      ∃ cap, (s'.finishAcquire b 0 s.rb.head).log =
        s.log ++ [.reply (.reserved (slotIndexFor s.rb.geo s.rb.head) cap)] := by
    intro s' hgeo hlog
    refine ⟨payloadCap b s.rb.geo, ?_⟩
    simp [Sys.finishAcquire, Sys.returnP, reserve, hgeo, hlog]
  by_cases hcached : s.rb.limit ≤ s.rb.head - s.rb.cachedTail
  · have hslow : step b (s.goP (.acqHead 0)) .producer =
        some (s.goP (.acqTail 0 s.rb.head)) := congrArg some (if_pos hcached)
    have hroom' : ¬ s.rb.limit ≤ s.rb.head - s.rb.tail := by
      rw [UInt32.le_iff_toNat_le]
      omega
    exact ⟨_, _, (reaches_of_step hstart).trans (reaches_of_step hslow), rfl, rfl,
      congrArg some (if_neg hroom'), hreply _ rfl rfl⟩
  · exact ⟨_, _, reaches_of_step hstart, rfl, rfl, congrArg some (if_neg hcached),
      hreply _ rfl rfl⟩

/-- Any number of messages below the limit can be in the ring when the counters
wrap. -/
theorem exists_wrapped {geo : Geometry} (hgeo : geo.Sound b)
    (haddr : b.mode = .pointer → geo.Addressable b) {rb : Rb} {L : Ledger}
    (htracks : Tracks b geo rb L) (hfresh : L.Stage 0 0 0 false false)
    (hpending : L.pending = none) {r : Nat} (hpos : 0 < r) (hlimit : r < L.limit.toNat) :
    ∃ s M, (machine b).Reaches (start rb) s ∧ Rests s ∧ Tracks b geo s.rb M ∧
      M.pending = none ∧ M.tail = 2 ^ 32 - r ∧ M.head = 2 ^ 32 ∧ M.limit = L.limit := by
  have hlt := L.limit.toNat_lt
  -- one message after the other, up to the last `r` positions
  obtain ⟨A, hA, hpendingA, hstageA⟩ :=
    Ledger.Stage.cycles htracks.ok hfresh hpending (by omega) (2 ^ 32 - r)
  obtain ⟨hokA, hsameA⟩ := Ledger.steady_reaches htracks.ok hA
  obtain ⟨B, hB, hpendingB, hstageB⟩ := hstageA.publishes hokA hpendingA (r - 1)
    (by rw [Ledger.limit_of_thresholds hsameA]; omega)
  obtain ⟨hokB, hsameB⟩ := Ledger.steady_reaches htracks.ok (hA.trans hB)
  have hlimitB := Ledger.limit_of_thresholds hsameB
  have hwrap : WrapSafe B.slots B.head := Or.inr (by rw [hstageB.head_eq]; omega)
  obtain ⟨s, hreach, hrests, hB'⟩ := steady_tracks hgeo haddr htracks (hA.trans hB) hwrap
  -- the last position before the wrap
  obtain ⟨hstageC, hpendingC⟩ := hstageB.acquire hpendingB (by rw [hlimitB]; omega)
  obtain ⟨s₁, hreach₁, hrests₁, hC'⟩ :=
    call_tracks hgeo haddr hrests hB' (fun _ => hwrap) (c := .acquire 0) rfl
  obtain ⟨hstageD, hpendingD⟩ := hstageC.publishEx hpendingC 0 false
  obtain ⟨s₂, hreach₂, hrests₂, hD'⟩ := call_tracks hgeo haddr hrests₁ hC'
    (fun _ => Or.inr (by rw [Ledger.call, quiet, hstageC.head_eq]; omega))
    (c := .publishEx (B.slotFor (2 ^ 32 - r + (r - 1))) 0 false) rfl
  have hD := (hA.trans hB).trans ((B.steady_call (c := .acquire 0) rfl).trans
    (Ledger.steady_call _ (c := .publishEx (B.slotFor (2 ^ 32 - r + (r - 1))) 0 false) rfl))
  refine ⟨s₂, _, (hreach.trans hreach₁).trans hreach₂, hrests₂, hD', hpendingD,
    hstageD.tail_eq, ?_, Ledger.limit_of_thresholds (Ledger.steady_reaches htracks.ok hD).2⟩
  have hhead := hstageD.head_eq
  rwa [show 2 ^ 32 - r + (r - 1) + 1 = 2 ^ 32 by omega] at hhead

/-- On every other ring a slot is handed out while a message is in it: after just
under `2 ^ 32` messages, when the last ones before the wrap are still there. -/
theorem exists_reused_slot {addr scratch scratchSize : BitVec b.sizeBits} {cfg : Option Config}
    {before : Store} {rb : Rb} (hinit : rbInit b addr cfg scratch scratchSize before = .ok rb)
    (hover : rb.geo.NonOverlapping) (haddr : b.mode = .pointer → rb.geo.Addressable b)
    (hpow : Counter.isPow2 rb.geo.slots = false)
    (hlimit : 2 ^ 32 % rb.geo.slots.toNat < rb.limit.toNat) :
    ∃ s s' i, (machine b).Reaches (start rb) s ∧ HandsOut b s s' i ∧ Live s i := by
  obtain ⟨cfg', -, hacc⟩ := rbInit_accepted hinit
  have hgeo := hacc.sound hover
  have hrep := hacc.represents fun i _ k _ => rfl
  have hok := Config.ledger_ok hacc.valid (rb.store.payload b rb.geo)
  have hrest : 0 < 2 ^ 32 % rb.geo.slots.toNat :=
    Nat.pos_of_ne_zero fun hzero =>
      absurd (Counter.lap_mod_eq_zero_iff.mp hzero) (by simp [hpow])
  have hslots := Nat.mod_lt (2 ^ 32) hgeo.slots_pos
  have hlt := rb.geo.slots.toNat_lt
  obtain ⟨s, M, hreach, hrests, ⟨hlayout, hokM, hM⟩, hpending, htail, hhead, hsame⟩ :=
    exists_wrapped hgeo haddr ⟨rfl, hok, hrep⟩ ⟨rfl, rfl, rfl, rfl, rfl⟩ rfl hrest
      (hrep.limit ▸ hlimit)
  have hcounted := reaches_counted hacc hreach
  have hcount : (s.rb.head - s.rb.tail).toNat = 2 ^ 32 % rb.geo.slots.toNat := by
    rw [hM.head, hM.tail, hhead, htail, Counter.toNat_sub (by omega) (by omega)]
    omega
  have hroom : (s.rb.head - s.rb.tail).toNat < s.rb.limit.toNat := by
    rw [hcount, hM.limit, hsame, ← hrep.limit]
    exact hlimit
  obtain ⟨s₁, s₂, hreach₁, hrb, hout⟩ := exists_handsOut (b := b) hrests
    (hlayout ▸ hgeo.scratchSize_pos.ne') ((hM.pendingSlot_none hokM).mpr hpending) hroom
  have hcounted₁ := reaches_counted hacc (hreach.trans hreach₁)
  refine ⟨s₁, s₂, _, hreach.trans hreach₁, hout, (hout.live_iff hcounted₁).mpr ?_⟩
  rw [hrb, hcount, hlayout, hM.head, hhead]
  exact ⟨hrest, le_rfl⟩

/-- Three slots of 64 bytes. -/
def threeSlots : Config := { smallConfig with capacity := 4, slots := 3 }

def threeSlotRing : Rb :=
  threeSlots.fresh { mode := .index }
    (threeSlots.geometry { mode := .index } 64#64 4096#64 192#64) blank

theorem smallRing_slotsKept : SlotsKept { mode := .index } (smallRing .index) :=
  (slotsKept_iff (smallRing_init .index)).mpr (Or.inl (by decide))

/-- With three slots, the positions on the two sides of the wrap share slot zero,
and a run gets there. -/
theorem threeSlotRing_reused :
    rbInit { mode := .index } 64#64 (some threeSlots) 4096#64 192#64 blank =
        .ok threeSlotRing ∧
      ¬ threeSlotRing.geo.DistinctFrom threeSlotRing.limit.toNat 0xFFFFFFFF ∧
      ∃ s s' i, (machine { mode := .index }).Reaches (start threeSlotRing) s ∧
        HandsOut { mode := .index } s s' i ∧ Live s i := by
  have hinit : rbInit { mode := .index } 64#64 (some threeSlots) 4096#64 192#64 blank =
      .ok threeSlotRing := rfl
  refine ⟨hinit, fun hdistinct => ?_, ?_⟩
  · exact hdistinct 0 1 (by decide) (by decide) (by decide)
  · exact exists_reused_slot hinit
      (Accepted.nonOverlapping_of_le (by decide) (by decide)) nofun (by decide) (by decide)

end Threads

end RingBuff
