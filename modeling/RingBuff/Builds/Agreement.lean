import RingBuff.Ledger.Runs

/-! # The three builds agree

Slot indices in `entries[]`, slot pointers in `entries[]` and stamps in the slots
are three representations of one ledger. Rings of the three builds that are set
up alike start from the same ledger, so every sequence of calls and batch calls
gets the same answers from them. The one exception is the pointer build with a
slot stride of zero: it divides by the stride.
-/

namespace RingBuff

/-- Two freshly initialised rings that were set up alike. -/
structure Alike (b b' : Build) (rb rb' : Rb) : Prop where
  capacity : rb'.geo.capacity = rb.geo.capacity
  slots : rb'.geo.slots = rb.geo.slots
  cap : payloadCap b' rb'.geo = payloadCap b rb.geo
  limit : rb'.limit = rb.limit
  lowD : rb'.lowD = rb.lowD
  lowE : rb'.lowE = rb.lowE
  policy : rb'.oversizePolicy = rb.oversizePolicy
  cb : rb'.cb = rb.cb
  payload : ∀ i, i.toNat < rb.geo.slots.toNat → ∀ k < (payloadCap b rb.geo).toNat,
    rb'.store.payload b' rb'.geo i k = rb.store.payload b rb.geo i k

/-- Rings set up alike represent the same ledger. -/
theorem Alike.represents {b b' : Build} {addr scratch scratchSize : BitVec b.sizeBits}
    {addr' scratch' scratchSize' : BitVec b'.sizeBits} {cfg cfg' : Config}
    {before before' : Store} {rb rb' : Rb} (halike : Alike b b' rb rb')
    (hacc : Accepted b addr cfg scratch scratchSize before rb)
    (hacc' : Accepted b' addr' cfg' scratch' scratchSize' before' rb') :
    Represents b' rb' (cfg.ledger b (rb.store.payload b rb.geo)) := by
  have hrep := hacc.represents fun i _ k _ => rfl
  have hrep' : Represents b' rb' (cfg'.ledger b' (rb.store.payload b rb.geo)) :=
    hacc'.represents (by rw [halike.slots, halike.cap]; exact halike.payload)
  have heq : cfg'.ledger b' (rb.store.payload b rb.geo) =
      cfg.ledger b (rb.store.payload b rb.geo) := by
    simp only [Config.ledger, Ledger.mk.injEq, and_true, true_and]
    exact ⟨hrep'.capacity.trans (halike.capacity.trans hrep.capacity.symm),
      hrep'.slots.trans (halike.slots.trans hrep.slots.symm),
      hrep'.cap.trans (halike.cap.trans hrep.cap.symm),
      hrep'.limit.symm.trans (halike.limit.trans hrep.limit),
      hrep'.lowD.symm.trans (halike.lowD.trans hrep.lowD),
      hrep'.lowE.symm.trans (halike.lowE.trans hrep.lowE),
      hrep'.policy.symm.trans (halike.policy.trans hrep.policy),
      hrep'.cb.symm.trans (halike.cb.trans hrep.cb)⟩
  exact heq ▸ hrep'

/-! ## Initial payload bytes -/

/-- The stamps of the per-slot-lap build are outside of the payloads. -/
theorem payload_preseed {b : Build} {geo : Geometry} (hgeo : geo.Sound b) (entries : UInt32 → Nat)
    (mem : Memory) {n : Nat} (hn : n ≤ geo.slots.toNat) {i : UInt32}
    (hi : i.toNat < geo.slots.toNat) {k : Nat} (hk : k < (payloadCap b geo).toNat) :
    (⟨entries, preseed b geo mem n⟩ : Store).payload b geo i k =
      (⟨entries, mem⟩ : Store).payload b geo i k := by
  have hslots := geo.slots.toNat_lt
  induction n with
  | zero => rfl
  | succ n ih =>
      have hslot : (UInt32.ofNat n).toNat < geo.slots.toNat := by
        rw [Counter.toNat_of_lt (by omega)]
        omega
      let st : Store := ⟨entries, preseed b geo mem n⟩
      have hstamp : (st.setStamp b geo (UInt32.ofNat n) (UInt32.ofNat n)).payload b geo i k =
          st.payload b geo i k := Store.payload_setStamp hgeo hslot hi _ hk
      exact hstamp.trans (ih (by omega))

/-- `rb_init` changes no payload byte. -/
theorem Accepted.payload_eq {b : Build} {addr scratch scratchSize : BitVec b.sizeBits}
    {cfg : Config} {before : Store} {rb : Rb}
    (hacc : Accepted b addr cfg scratch scratchSize before rb) (hover : rb.geo.NonOverlapping)
    {i : UInt32} (hi : i.toNat < rb.geo.slots.toNat) {k : Nat}
    (hk : k < (payloadCap b rb.geo).toNat) :
    rb.store.payload b rb.geo i k = before.payload b rb.geo i k := by
  have hgeo := hacc.sound hover
  cases hmode : b.mode with
  | index | pointer =>
      have hstore : rb.store = before := by
        rw [hacc.eq]
        simp only [Config.fresh, hmode]
      rw [hstore]
  | lap =>
      have hstore : rb.store =
          ⟨before.entries, preseed b rb.geo before.scratch rb.geo.slots.toNat⟩ := by
        rw [hacc.geo_eq, hacc.eq]
        simp only [Config.fresh, hmode]
      rw [hstore]
      exact payload_preseed hgeo before.entries before.scratch le_rfl hi hk

/-! ## A stride of zero -/

section ZeroStride

variable {b : Build} {rb : Rb}

/-- Where the pointer build finds an entry, it divides by the stride. -/
theorem rbConsume_zero_stride (hmode : b.mode = .pointer) (hstride : rb.geo.slotStride = 0)
    (hinit : rb.geo.scratchSize ≠ 0) (hactive : rb.consumerActive = 0) (hne : rb.tail ≠ rb.head)
    (hentry : scratchAddr b rb.geo ≤ rb.store.entries (rb.tail &&& rb.geo.mask)) :
    rbConsume b rb = none := by
  have hfront : rb.store.frontSlot b rb.geo rb.tail = none := by
    simp only [Store.frontSlot, hmode, hstride, if_neg (Nat.not_lt.mpr hentry), if_true]
  have htake : ∀ rb' : Rb, rb'.geo = rb.geo → rb'.store = rb.store →
      rb'.takeFront b rb.tail = none := by
    intro rb' hgeo hstore
    rw [Rb.takeFront, hstore, hgeo, hfront]
  rw [rbConsume, if_neg hinit, if_neg (not_not.mpr hactive)]
  split_ifs with hcached
  · exact (if_neg hne).trans (htake _ rfl rfl)
  · exact htake rb rfl rfl

/-- The ring after the first message. -/
theorem handOver_first (b : Build) (rb : Rb) (i n : UInt32) (t : Bool) :
    (rb.handOver b i n t).1.1 = .code .ok ∧ (rb.handOver b i n t).2.geo = rb.geo ∧
      (rb.handOver b i n t).2.head = rb.head + 1 ∧ (rb.handOver b i n t).2.tail = rb.tail ∧
      (rb.handOver b i n t).2.consumerActive = rb.consumerActive ∧
      (rb.handOver b i n t).2.store =
        (rb.store.setHeader b rb.geo i (encodeHeader n t)).enter b rb.geo i rb.head := by
  unfold Rb.handOver
  dsimp only
  split_ifs <;> exact ⟨rfl, rfl, rfl, rfl, rfl, rfl⟩

/-- One message is published and taken. -/
def oneMessage : List (Cmd Unit) :=
  [.call (.acquire 0), .call (.publishEx 0 0 false), .call .consume]

variable {addr scratch scratchSize : BitVec b.sizeBits} {cfg : Config} {before : Store}

theorem Accepted.rbAcquire_first (hacc : Accepted b addr cfg scratch scratchSize before rb)
    (hinit : rb.geo.scratchSize ≠ 0) :
    rbAcquire b rb 0 =
      (.reserved 0 (payloadCap b rb.geo), { rb with pendingSlot := 0, pendingWanted := 0 }) := by
  have hslot : slotIndexFor rb.geo 0 = 0 := by
    apply UInt32.toNat_inj.mp
    rw [hacc.masked.slotIndexFor_toNat]
    exact Nat.zero_mod _
  have hhead : rb.head = 0 := by rw [hacc.eq]; rfl
  have hcached : rb.cachedTail = 0 := by rw [hacc.eq]; rfl
  have hnone : rb.pendingSlot = noPending := by rw [hacc.eq]; rfl
  have hlimit : rb.limit = (cfg.dims b).limit := by rw [hacc.eq]; rfl
  have hpos := (Config.valid_iff.mp hacc.valid).2.2.2.2.1
  have hroom : ¬ rb.limit ≤ rb.head - rb.cachedTail := by
    rw [hhead, hcached, hlimit]
    simpa using hpos
  rw [rbAcquire, if_neg hinit, if_neg (not_not.mpr hnone), if_neg hroom]
  simp [reserve, hhead, hslot]

theorem oneMessage_length {σ : Type} {M : Automaton σ Call Output} {fuel : Nat} {state : σ}
    {e : Execution Call Output (Option (List Answer × Unit)) σ}
    (hexec : M.exec (runAll fuel () oneMessage) state = some e) : e.trace.length = 3 := by
  obtain ⟨_, _, _, -, hpublish, rfl⟩ := M.exec_call_eq_some.mp hexec
  obtain ⟨_, _, _, -, hconsume, rfl⟩ := M.exec_call_eq_some.mp hpublish
  obtain ⟨_, _, _, -, hdone, rfl⟩ := M.exec_call_eq_some.mp hconsume
  obtain rfl := Option.some.inj hdone
  rfl

/-- With a stride of zero the pointer build has no result for the first message
that is taken. -/
theorem oneMessage_zero_stride (hacc : Accepted b addr cfg scratch scratchSize before rb)
    (hover : rb.geo.NonOverlapping) (hmode : b.mode = .pointer)
    (hstride : rb.geo.slotStride = 0) (fuel : Nat) :
    (ring b).exec (runAll fuel () oneMessage) rb = none := by
  have hinit := (hacc.sound hover).scratchSize_pos.ne'
  have hfirst : (ring b).step rb (.acquire 0) = some ((.reserved 0 (payloadCap b rb.geo), []),
      { rb with pendingSlot := 0, pendingWanted := 0 }) := by
    change some (quiet (rbAcquire b rb 0)) = _
    rw [hacc.rbAcquire_first hinit]
    rfl
  let rb₁ : Rb := { rb with pendingSlot := 0, pendingWanted := 0 }
  have hsecond : (ring b).step rb₁ (.publishEx 0 0 false) =
      some (rb₁.handOver b 0 (clampWritten (payloadCap b rb.geo) 0 0 false).1
        (clampWritten (payloadCap b rb.geo) 0 0 false).2) := by
    change some (rbPublishEx b rb₁ 0 0 false) = _
    rw [rbPublishEx, if_neg hinit,
      if_neg (show ¬ ((0 : UInt32) = noPending ∨ (0 : UInt32) ≠ 0) by decide)]
  obtain ⟨-, hgeo, hhead, htail, hactive, hstore⟩ := handOver_first b rb₁ 0
    (clampWritten (payloadCap b rb.geo) 0 0 false).1
    (clampWritten (payloadCap b rb.geo) 0 0 false).2
  generalize rb₁.handOver b 0 (clampWritten (payloadCap b rb.geo) 0 0 false).1
    (clampWritten (payloadCap b rb.geo) 0 0 false).2 = answer at *
  have hthird : (ring b).step answer.2 .consume = none := by
    have hzero : rb.head = 0 ∧ rb.tail = 0 ∧ rb.consumerActive = 0 := by
      rw [hacc.eq]
      exact ⟨rfl, rfl, rfl⟩
    have hentry : answer.2.store.entries (answer.2.tail &&& answer.2.geo.mask) =
        scratchAddr b rb.geo := by
      rw [hstore, htail, hgeo, Store.enter, hmode]
      simp [Store.setEntry, rb₁, hzero, slotOffset, scratchAddr]
    have hconsume : rbConsume b answer.2 = none := by
      refine rbConsume_zero_stride hmode ?_ ?_ ?_ ?_ ?_
      · rw [hgeo]; exact hstride
      · rw [hgeo]; exact hinit
      · rw [hactive]; exact hzero.2.2
      · rw [htail, hhead]
        simp [rb₁, hzero]
      · rw [hentry, hgeo]
    change (rbConsume b answer.2).map quiet = none
    rw [hconsume]
    rfl
  rw [Option.eq_none_iff_forall_ne_some]
  intro e hexec
  obtain ⟨_, _, _, hstep, hrest, -⟩ := (ring b).exec_call_eq_some.mp hexec
  obtain ⟨rfl, rfl⟩ := Prod.mk.inj (Option.some.inj (hfirst.symm.trans hstep))
  obtain ⟨_, _, _, hstep, hrest, -⟩ := (ring b).exec_call_eq_some.mp hrest
  obtain rfl := Option.some.inj (hsecond.symm.trans hstep)
  obtain ⟨_, _, _, hstep, -⟩ := (ring b).exec_call_eq_some.mp hrest
  rw [hthird] at hstep
  cases hstep

end ZeroStride

/-! ## The builds side by side -/

section Builds

variable {bI bP bL : Build} {rbI rbP rbL : Rb}

/-- Rings of the three builds give a program the same answers, call the same
callbacks and end with the same statistics. -/
def Agree {α : Type} (bI bP bL : Build) (rbI rbP rbL : Rb) (p : Session α) : Prop :=
  ∃ e, (ring bI).exec p rbI = some e ∧
    (WrapSafe rbI.geo.slots (publishes (e.trace.map Prod.fst) (e.trace.map Prod.snd)) →
      ∃ rbP' rbL', (ring bP).exec p rbP = some ⟨e.trace, e.result, rbP'⟩ ∧
        (ring bL).exec p rbL = some ⟨e.trace, e.result, rbL'⟩ ∧
        rbP'.stats = e.last.stats ∧ rbL'.stats = e.last.stats)

variable {addrI scratchI sizeI : BitVec bI.sizeBits} {cfgI : Option Config} {beforeI : Store}
  {addrP scratchP sizeP : BitVec bP.sizeBits} {cfgP : Option Config} {beforeP : Store}
  {addrL scratchL sizeL : BitVec bL.sizeBits} {cfgL : Option Config} {beforeL : Store}

/-- Rings of the three builds that were set up alike agree on every sequence of
calls and batch calls, exactly if the pointer build does not divide by zero. -/
theorem builds_agree_iff (hI : bI.mode = .index) (hP : bP.mode = .pointer) (hL : bL.mode = .lap)
    (hinitI : rbInit bI addrI cfgI scratchI sizeI beforeI = .ok rbI)
    (hinitP : rbInit bP addrP cfgP scratchP sizeP beforeP = .ok rbP)
    (hinitL : rbInit bL addrL cfgL scratchL sizeL beforeL = .ok rbL)
    (hoverI : rbI.geo.NonOverlapping) (hoverP : rbP.geo.NonOverlapping)
    (hoverL : rbL.geo.NonOverlapping)
    (halikeP : Alike bI bP rbI rbP) (halikeL : Alike bI bL rbI rbL)
    (hrange : scratchAddr bP rbP.geo + rbP.geo.scratchSize ≤ 2 ^ bP.sizeBits) :
    (∀ (σ : Type) (fuel : Nat) (user : σ) (cmds : List (Cmd σ)),
        Agree bI bP bL rbI rbP rbL (runAll fuel user cmds)) ↔
      rbP.geo.slotStride ≠ 0 := by
  obtain ⟨cI, -, haccI⟩ := rbInit_accepted hinitI
  obtain ⟨cP, -, haccP⟩ := rbInit_accepted hinitP
  obtain ⟨cL, -, haccL⟩ := rbInit_accepted hinitL
  constructor
  · intro hall hstride
    obtain ⟨e, hexecI, hagree⟩ := hall Unit 0 () oneMessage
    have hshort := publishes_le (e.trace.map Prod.fst) (e.trace.map Prod.snd)
    rw [List.length_map, oneMessage_length hexecI] at hshort
    obtain ⟨rbP', -, hexecP, -⟩ := hagree (Or.inr (by omega))
    rw [oneMessage_zero_stride haccP hoverP hP hstride] at hexecP
    cases hexecP
  · intro hstride σ fuel user cmds
    have hok := Config.ledger_ok haccI.valid (rbI.store.payload bI rbI.geo)
    have hrepI := haccI.represents fun i _ k _ => rfl
    obtain ⟨e, hexec⟩ := ledger.exists_exec ledger_total (runAll fuel user cmds)
      (cI.ledger bI (rbI.store.payload bI rbI.geo))
    have hhead := Ledger.run_head (ledger.run_of_exec hexec)
    obtain ⟨rbI', hexecI, hI'⟩ :=
      Tracks.exec_exact (haccI.sound hoverI) (by simp [hI]) ⟨rfl, hok, hrepI⟩ hexec (by simp [hI])
    refine ⟨_, hexecI, fun hwrap => ?_⟩
    have hwrap' : WrapSafe e.last.slots e.last.head := by
      rw [hhead.1, hhead.2, hrepI.slots]
      exact hwrap.mono (Nat.zero_add _).le
    obtain ⟨rbP', hexecP, hP'⟩ := Tracks.exec_exact (haccP.sound hoverP)
      (fun _ => ⟨hstride, hrange⟩) ⟨rfl, hok, halikeP.represents haccI haccP⟩ hexec
      fun _ => hwrap'
    obtain ⟨rbL', hexecL, hL'⟩ := Tracks.exec_exact (haccL.sound hoverL) (by simp [hL])
      ⟨rfl, hok, halikeL.represents haccI haccL⟩ hexec fun _ => hwrap'
    exact ⟨rbP', rbL', hexecP, hexecL, hP'.rep.stats.trans hI'.rep.stats.symm,
      hL'.rep.stats.trans hI'.rep.stats.symm⟩

end Builds

/-- Rings in blank memory with the same settings are alike. -/
theorem alike_blank {b b' : Build} {cfg cfg' : Config} {size : BitVec b.sizeBits}
    {size' : BitVec b'.sizeBits}
    (hinit : rbInit b (BitVec.ofNat _ 64) (some cfg) (BitVec.ofNat _ 4096) size blank =
      .ok (blankRing b cfg size))
    (hinit' : rbInit b' (BitVec.ofNat _ 64) (some cfg') (BitVec.ofNat _ 4096) size' blank =
      .ok (blankRing b' cfg' size'))
    (hover : (blankRing b cfg size).geo.NonOverlapping)
    (hover' : (blankRing b' cfg' size').geo.NonOverlapping)
    (hslots : (cfg'.dims b').slots = (cfg.dims b).slots)
    (hcap : payloadCap b' (blankRing b' cfg' size').geo = payloadCap b (blankRing b cfg size).geo)
    (hsame : ((cfg'.dims b').capacity, (cfg'.dims b').limit, cfg'.lowD, cfg'.lowE,
        cfg'.oversizePolicy, cfg'.cb) =
      ((cfg.dims b).capacity, (cfg.dims b).limit, cfg.lowD, cfg.lowE, cfg.oversizePolicy, cfg.cb)) :
    Alike b b' (blankRing b cfg size) (blankRing b' cfg' size') := by
  obtain ⟨c, heq, hacc⟩ := rbInit_accepted hinit
  obtain ⟨c', heq', hacc'⟩ := rbInit_accepted hinit'
  simp only [Prod.mk.injEq] at hsame
  obtain ⟨hcapacity, hlimit, hlowD, hlowE, hpolicy, hcb⟩ := hsame
  refine ⟨hcapacity, hslots, hcap, hlimit, hlowD, hlowE, hpolicy, hcb, ?_⟩
  intro i hi k hk
  have hi' : i.toNat < (blankRing b' cfg' size').geo.slots.toNat := by
    rw [show (blankRing b' cfg' size').geo.slots = (cfg.dims b).slots from hslots]
    exact hi
  rw [hacc.payload_eq hover hi hk, hacc'.payload_eq hover' hi' (hcap ▸ hk)]
  rfl

/-- Two messages are flushed into the ring, one is drained. -/
def flushTwo : List (Cmd Nat) :=
  [.flush fun _ k => ({ len := 1, stores := [(0, UInt8.ofNat k)], stop := k = 1 }, k + 1),
    .drain fun bytes _ _ k => (false, k + bytes.length), .call .count]

/-- The small ring with room for stamps. -/
def stampedConfig : Config := { smallConfig with slotSize := 68 }

theorem smallRings_agree :
    Agree { mode := .index } { mode := .pointer } { mode := .lap }
      (blankRing { mode := .index } smallConfig 128#64)
      (blankRing { mode := .pointer } smallConfig 128#64)
      (blankRing { mode := .lap } stampedConfig 160#64)
      (runAll 3 0 flushTwo) := by
  have hinitI : rbInit { mode := .index } 64#64 (some smallConfig) 4096#64 128#64 blank =
      .ok (blankRing { mode := .index } smallConfig 128#64) := rfl
  have hinitP : rbInit { mode := .pointer } 64#64 (some smallConfig) 4096#64 128#64 blank =
      .ok (blankRing { mode := .pointer } smallConfig 128#64) := rfl
  have hinitL : rbInit { mode := .lap } 64#64 (some stampedConfig) 4096#64 160#64 blank =
      .ok (blankRing { mode := .lap } stampedConfig 160#64) := rfl
  have hoverI : (blankRing { mode := .index } smallConfig 128#64).geo.NonOverlapping :=
    Accepted.nonOverlapping_of_le (by decide) (by decide)
  have hoverP : (blankRing { mode := .pointer } smallConfig 128#64).geo.NonOverlapping :=
    Accepted.nonOverlapping_of_le (by decide) (by decide)
  have hoverL : (blankRing { mode := .lap } stampedConfig 160#64).geo.NonOverlapping :=
    Accepted.nonOverlapping_of_le (by decide) (by decide)
  have hall := (builds_agree_iff rfl rfl rfl hinitI hinitP hinitL hoverI hoverP hoverL
    (alike_blank hinitI hinitP hoverI hoverP rfl rfl rfl)
    (alike_blank hinitI hinitL hoverI hoverL rfl rfl rfl) (by decide)).mpr (by decide)
  exact hall Nat 3 0 flushTwo

/-- One slot within an alignment of 4 GiB has a stride of zero: the index build
takes a message out of it, the pointer build divides by zero. -/
theorem hugeSlot_builds_differ :
    let rbI := blankRing { mode := .index } (hugeSlot 0xFFFFFFF4) 0x100000000#64
    let rbP := blankRing { mode := .pointer } (hugeSlot 0xFFFFFFF4) 0x100000000#64
    let rbL := blankRing { mode := .lap } (hugeSlot 0xFFFFFFF8) 0x100000000#64
    (rbInit { mode := .index } 64#64 (some (hugeSlot 0xFFFFFFF4)) 4096#64 0x100000000#64 blank =
          .ok rbI ∧
        rbInit { mode := .pointer } 64#64 (some (hugeSlot 0xFFFFFFF4)) 4096#64 0x100000000#64
          blank = .ok rbP ∧
        rbInit { mode := .lap } 64#64 (some (hugeSlot 0xFFFFFFF8)) 4096#64 0x100000000#64 blank =
          .ok rbL) ∧
      (rbI.geo.NonOverlapping ∧ rbP.geo.NonOverlapping ∧ rbL.geo.NonOverlapping) ∧
      (Alike { mode := .index } { mode := .pointer } rbI rbP ∧
        Alike { mode := .index } { mode := .lap } rbI rbL) ∧
      scratchAddr { mode := .pointer } rbP.geo + rbP.geo.scratchSize ≤ 2 ^ 64 ∧
      ((ring { mode := .index }).exec (runAll 0 () oneMessage) rbI).isSome = true ∧
      (ring { mode := .pointer }).exec (runAll 0 () oneMessage) rbP = none := by
  have hoverI := hugeSlot_nonOverlapping { mode := .index } (show (0xFFFFFFF4 : UInt32).toNat ≤
    (0x100000000#64).toNat by decide) (by decide)
  have hoverP := hugeSlot_nonOverlapping { mode := .pointer } (show (0xFFFFFFF4 : UInt32).toNat ≤
    (0x100000000#64).toNat by decide) (by decide)
  have hoverL := hugeSlot_nonOverlapping { mode := .lap } (show (0xFFFFFFF8 : UInt32).toNat ≤
    (0x100000000#64).toNat by decide) (by decide)
  have hinitI : rbInit { mode := .index } 64#64 (some (hugeSlot 0xFFFFFFF4)) 4096#64
      0x100000000#64 blank =
        .ok (blankRing { mode := .index } (hugeSlot 0xFFFFFFF4) 0x100000000#64) := rfl
  have hinitP : rbInit { mode := .pointer } 64#64 (some (hugeSlot 0xFFFFFFF4)) 4096#64
      0x100000000#64 blank =
        .ok (blankRing { mode := .pointer } (hugeSlot 0xFFFFFFF4) 0x100000000#64) := rfl
  have hinitL : rbInit { mode := .lap } 64#64 (some (hugeSlot 0xFFFFFFF8)) 4096#64
      0x100000000#64 blank =
        .ok (blankRing { mode := .lap } (hugeSlot 0xFFFFFFF8) 0x100000000#64) := rfl
  obtain ⟨c, -, hacc⟩ := rbInit_accepted hinitP
  exact ⟨⟨hinitI, hinitP, hinitL⟩, ⟨hoverI, hoverP, hoverL⟩,
    ⟨alike_blank hinitI hinitP hoverI hoverP rfl rfl rfl,
      alike_blank hinitI hinitL hoverI hoverL rfl rfl rfl⟩,
    by decide, rfl, oneMessage_zero_stride hacc hoverP rfl rfl 0⟩

end RingBuff
