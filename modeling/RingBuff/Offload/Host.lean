import RingBuff.Offload.Exact

/-! # The geometry `cpu_host` accepts

`cpu_host` takes the sizes of the rings from its command line, fills in defaults,
checks them and initialises both rings with them. The stub then stores results of
24 bytes whatever the slots can hold: it ignores the capacity `rb_acquire` reports.
So the lower bound `cpu_host` puts on the slot size decides whether the stub stays
inside of its slots.
-/

namespace RingBuff.Offload

open Threads

/-- The sizes on the command line of `cpu_host`, zero where the option is missing. -/
structure HostArgs where
  capacity : UInt32 := 32
  slots : UInt32 := 0
  slotSize : UInt32 := 0
  msgSize : UInt32 := 64
  deriving DecidableEq, Repr

namespace HostArgs

/-- The slot size for a payload, in full cache lines. -/
def autoSlotSize (msgSize : UInt32) : UInt32 :=
  let size := msgSize + 64
  let size := if size < 128 then 128 else size
  (size + 63) &&& ~~~63

/-- The missing sizes filled in. -/
def complete (h : HostArgs) : HostArgs :=
  { h with
    slots := if h.slots = 0 then h.capacity else h.slots
    slotSize := if h.slotSize = 0 then autoSlotSize h.msgSize else h.slotSize }

/-- The checks of `main`, with the lower bound on the slot size as a parameter. -/
def accepted (least : UInt32) (h : HostArgs) : Bool :=
  2 ≤ h.capacity && h.capacity &&& (h.capacity - 1) = 0 && h.capacity ≤ 256 &&
    1 ≤ h.slots && h.slots ≤ 256 && least ≤ h.slotSize && h.slotSize ≤ 8192 &&
    4 ≤ h.msgSize && h.msgSize + 8 ≤ h.slotSize

/-- The lower bound in the source. -/
def leastSlotSize : UInt32 := 16

/-- The configuration of both rings. -/
def config (b : Build) (h : HostArgs) : Config :=
  { rbConfigInit b with
    capacity := h.capacity
    slots := h.slots
    slotSize := h.slotSize
    limit := h.capacity }

end HostArgs

/-- The size of each scratchpad in `struct zo_shared`. -/
def scratchBytes : Nat := 2097152

/-- `init_rings` on a region that is mapped at `base`. -/
def initRings (b : Build) (base : BitVec b.sizeBits) (h : HostArgs) (beforeA beforeB : Store) :
    Option (Rb × Rb) :=
  let size := BitVec.ofNat b.sizeBits scratchBytes
  if size < BitVec.ofNat b.sizeBits h.slots.toNat * BitVec.ofNat b.sizeBits h.slotSize.toNat then
    none
  else
    match rbInit b (base + BitVec.ofNat _ 64) (some (h.config b)) (base + BitVec.ofNat _ 16448)
        size beforeA with
    | .error _ => none
    | .ok rbA =>
        match rbInit b (base + BitVec.ofNat _ 8256) (some (h.config b))
            (base + BitVec.ofNat _ (16448 + scratchBytes)) size beforeB with
        | .error _ => none
        | .ok rbB => some (rbA, rbB)

variable {b : Build}

theorem initRings_eq_some {base : BitVec b.sizeBits} {h : HostArgs} {beforeA beforeB : Store}
    {rbA rbB : Rb} (hinit : initRings b base h beforeA beforeB = some (rbA, rbB)) :
    Accepted b (base + BitVec.ofNat _ 64) (h.config b) (base + BitVec.ofNat _ 16448)
        (BitVec.ofNat _ scratchBytes) beforeA rbA ∧
      Accepted b (base + BitVec.ofNat _ 8256) (h.config b)
        (base + BitVec.ofNat _ (16448 + scratchBytes)) (BitVec.ofNat _ scratchBytes)
        beforeB rbB := by
  unfold initRings at hinit
  obtain ⟨-, hinit⟩ := Option.ite_none_left_eq_some.mp hinit
  split at hinit
  · cases hinit
  next rbA' hA =>
    split at hinit
    · cases hinit
    next rbB' hB =>
      obtain ⟨rfl, rfl⟩ := Prod.mk.inj (Option.some.inj hinit)
      obtain ⟨cfgA, heqA, haccA⟩ := rbInit_accepted hA
      obtain ⟨cfgB, heqB, haccB⟩ := rbInit_accepted hB
      obtain rfl := Option.some.inj heqA
      obtain rfl := Option.some.inj heqB
      exact ⟨haccA, haccB⟩

/-- What the checks of `cpu_host` give. -/
structure HostArgs.Checked (least : UInt32) (h : HostArgs) : Prop where
  capacity_ne : h.capacity ≠ 0
  slots_ne : h.slots ≠ 0
  slots_le : h.slots.toNat ≤ 256
  least_le : least.toNat ≤ h.slotSize.toNat
  slotSize_le : h.slotSize.toNat ≤ 8192

theorem HostArgs.accepted_checked {least : UInt32} {h : HostArgs}
    (haccepted : h.accepted least = true) : h.Checked least := by
  simp only [accepted, Bool.and_eq_true, decide_eq_true_eq, UInt32.le_iff_toNat_le] at haccepted
  obtain ⟨⟨⟨⟨⟨⟨⟨⟨hcap, -⟩, -⟩, hslots⟩, hslots'⟩, hleast⟩, hsize⟩, -⟩, -⟩ := haccepted
  refine ⟨?_, ?_, hslots', hleast, hsize⟩
  · intro hzero
    rw [hzero] at hcap
    exact absurd hcap (by decide)
  · intro hzero
    rw [hzero] at hslots
    exact absurd hslots (by decide)

/-- `rb_init` takes the sizes as they are. -/
theorem HostArgs.Checked.dims {least : UInt32} {h : HostArgs} (hchecked : h.Checked least)
    (hpos : 0 < least.toNat) :
    ((h.config b).dims b).slots = h.slots ∧ ((h.config b).dims b).slotSize = h.slotSize := by
  have hsize : h.slotSize ≠ 0 := by
    intro hzero
    have hleast := hchecked.least_le
    rw [hzero] at hleast
    exact absurd hpos (Nat.not_lt.mpr hleast)
  simp [Config.dims, config, hchecked.slots_ne, hsize]

/-- The rings `cpu_host` initialises are laid out as promised. -/
theorem HostArgs.Checked.nonOverlapping {least : UInt32} {h : HostArgs}
    (hchecked : h.Checked least) (hpos : 0 < least.toNat) (htarget : b.Target)
    (halign : b.needAlign ≤ 64) {addr scratch size : BitVec b.sizeBits} {before : Store} {rb : Rb}
    (hacc : Accepted b addr (h.config b) scratch size before rb) : rb.geo.NonOverlapping := by
  obtain ⟨hslots, hsize⟩ := hchecked.dims (b := b) hpos
  have hstride : roundUp h.slotSize.toNat b.needAlign ≤ 8192 + 64 := by
    have hle := hchecked.slotSize_le
    have hround := Nat.div_mul_le_self (h.slotSize.toNat + (b.needAlign - 1)) b.needAlign
    unfold roundUp
    omega
  have hbits : 2 ^ 32 ≤ 2 ^ b.sizeBits := by
    apply Nat.pow_le_pow_right (by decide)
    rcases htarget.bits with hbits | hbits <;> omega
  refine (hacc.fits_of_sizesFit htarget ?_).toNonOverlapping
  unfold Config.SizesFit
  simp only [hslots, hsize]
  have hmul : h.slots.toNat * roundUp h.slotSize.toNat b.needAlign ≤ 256 * (8192 + 64) :=
    Nat.mul_le_mul hchecked.slots_le hstride
  refine ⟨by omega, Or.inl (by omega)⟩

/-- The slots have room for a result. -/
theorem HostArgs.Checked.cap {least : UInt32} {h : HostArgs} (hchecked : h.Checked least)
    (hpos : 0 < least.toNat) {addr scratch size : BitVec b.sizeBits} {before : Store} {rb : Rb}
    (hacc : Accepted b addr (h.config b) scratch size before rb) (hover : rb.geo.NonOverlapping)
    (hroom : b.hdrSize.toNat + ZoResult.size.toNat ≤ h.slotSize.toNat) :
    ZoResult.size.toNat ≤ (payloadCap b rb.geo).toNat ∧ (payloadCap b rb.geo).toNat < 2 ^ 31 := by
  have hsize : rb.geo.slotSize = h.slotSize := by
    rw [hacc.geo_eq]
    exact (hchecked.dims hpos).2
  have hmax := hchecked.slotSize_le
  rw [(hacc.sound hover).payloadCap_toNat, hsize]
  omega

/-- What host and stub find when `cpu_host` has initialised both rings with slots that
have room for a result. -/
structure Prepared (b : Build) (rbA rbB : Rb) : Prop where
  running : ∀ {P : Prop}, P → Running b rbA rbB (start rbA rbB) P
  linked : Linked b (start rbA rbB)
  freeA : Free (Threads.start rbA)
  consumingB : Consuming (Threads.start rbB)
  room : ZoResult.size.toNat ≤ (payloadCap b rbB.geo).toNat
  policy : rbA.oversizePolicy ≠ .drop
  limitA : rbA.limit.toNat ≤ 256
  limitB : rbB.limit.toNat ≤ 256

theorem prepared {base : BitVec b.sizeBits} {h : HostArgs} {beforeA beforeB : Store} {rbA rbB : Rb}
    (htarget : b.Target) (halign : b.needAlign ≤ 64)
    (haccepted : h.accepted HostArgs.leastSlotSize = true)
    (hroom : b.hdrSize.toNat + ZoResult.size.toNat ≤ h.slotSize.toNat)
    (hinit : initRings b base h beforeA beforeB = some (rbA, rbB)) : Prepared b rbA rbB := by
  have hchecked := HostArgs.accepted_checked haccepted
  have hpos : 0 < HostArgs.leastSlotSize.toNat := by decide
  obtain ⟨haccA, haccB⟩ := initRings_eq_some hinit
  have hoverA := hchecked.nonOverlapping hpos htarget halign haccA
  have hoverB := hchecked.nonOverlapping hpos htarget halign haccB
  obtain ⟨-, hcapA⟩ := hchecked.cap hpos haccA hoverA hroom
  obtain ⟨hresult, hcapB⟩ := hchecked.cap hpos haccB hoverB hroom
  have hlimit : ((h.config b).dims b).limit.toNat ≤ 256 := by
    refine (UInt32.le_iff_toNat_le.mp (Config.limit_le b (h.config b)).2).trans ?_
    rw [(hchecked.dims hpos).1]
    exact hchecked.slots_le
  exact
    { running := start_running haccA haccB hoverA hoverB hcapA hcapB
      linked := start_linked haccA haccB
      freeA := ⟨rfl, by rw [Threads.start, haccA.eq]; rfl⟩
      consumingB := ⟨Or.inl rfl, by rw [Threads.start, haccB.eq]; rfl⟩
      room := hresult
      policy := by rw [haccA.eq]; rintro ⟨⟩
      limitA := by rw [haccA.eq]; exact hlimit
      limitB := by rw [haccB.eq]; exact hlimit }

/-- The host never drops a payload for its size. -/
theorem Prepared.policy_running {rbA rbB : Rb} (hprepared : Prepared b rbA rbB) {w : State}
    {P : Prop} (hrunning : Running b rbA rbB w P) : w.ringA.rb.oversizePolicy ≠ .drop := by
  have hsame : w.ringA.rb.oversizePolicy = rbA.oversizePolicy :=
    congrArg (fun settings => settings.2.2.2.2.1) hrunning.settingsA
  rw [hsame]
  exact hprepared.policy

/-- Whatever sizes `cpu_host` is started with under a lower bound on the slot size,
the stub can always go on: it never stores outside of its slot. -/
def StubStaysInside (mode : Mode) (least : UInt32) : Prop :=
  ∀ (b : Build) (base : BitVec b.sizeBits) (h : HostArgs) (beforeA beforeB : Store) (rbA rbB : Rb)
    (w : State), b.Target → b.needAlign ≤ 64 → b.mode = mode →
    h.complete.accepted least = true →
    initRings b base h.complete beforeA beforeB = some (rbA, rbB) →
    (system b).Reaches (start rbA rbB) w →
    WrapSafe rbA.geo.slots w.ringA.p.published → WrapSafe rbB.geo.slots w.ringB.p.published →
    ∀ ns, ∃ w', step b w (.stub ns) = some w'

/-- A slot one byte too small for a result. -/
def tightArgs (mode : Mode) : HostArgs where
  capacity := 2
  slots := 2
  slotSize := Build.hdrSize { mode } + 23
  msgSize := 4

/-- The host publishes an empty message and the stub begins to answer it. -/
def tightRun : List Move :=
  [Move.send (.acquire 0), .send .producer, .send (.publishEx 0 0 false)] ++
    List.replicate 4 (Move.send .producer) ++ List.replicate 28 (Move.stub 0)

theorem tight_overrun {mode : Mode} (hmode : mode ≠ .pointer) :
    ∃ rbA rbB w, initRings { mode } 4096#64 (tightArgs mode).complete blank blank =
        some (rbA, rbB) ∧
      (system { mode }).Reaches (start rbA rbB) w ∧
      (Counter.isPow2 rbA.geo.slots, Counter.isPow2 rbB.geo.slots,
        (step { mode } w (.stub 0)).isNone) = (true, true, true) := by
  have hrun : ((initRings { mode } 4096#64 (tightArgs mode).complete blank blank).bind
      fun rings => ((system { mode }).run (start rings.1 rings.2) tightRun).map fun r =>
        (Counter.isPow2 rings.1.geo.slots, Counter.isPow2 rings.2.geo.slots,
          (step { mode } r.2 (.stub 0)).isNone)) = some (true, true, true) := by
    cases mode with
    | index => decide +kernel
    | lap => decide +kernel
    | pointer => exact absurd rfl hmode
  obtain ⟨⟨rbA, rbB⟩, hinit, hrun⟩ := Option.bind_eq_some_iff.mp hrun
  obtain ⟨⟨outs, w⟩, hrun, hseen⟩ := Option.map_eq_some_iff.mp hrun
  exact ⟨rbA, rbB, w, hinit, ⟨tightRun, outs, hrun⟩, hseen⟩

/-- The stub stays inside of its slots exactly when the lower bound on the slot
size leaves room for a header and a result. The source's bound of 16 does not. -/
theorem stub_inside_iff {mode : Mode} (hmode : mode ≠ .pointer) (least : UInt32) :
    StubStaysInside mode least ↔
      (Build.hdrSize { mode }).toNat + ZoResult.size.toNat ≤ least.toNat := by
  constructor
  · intro hinside
    by_contra hsmall
    obtain ⟨rbA, rbB, w, hinit, hreach, hseen⟩ := tight_overrun hmode
    simp only [Prod.mk.injEq, Option.isNone_iff_eq_none] at hseen
    obtain ⟨hslotsA, hslotsB, hstuck⟩ := hseen
    have haccepted : (tightArgs mode).complete.accepted least = true := by
      cases mode with
      | pointer => exact absurd rfl hmode
      | index | lap =>
          simp [HostArgs.accepted, HostArgs.complete, tightArgs, Build.hdrSize,
            UInt32.le_iff_toNat_le, ZoResult.size] at hsmall ⊢
          exact ⟨by decide, Nat.le_of_lt_succ hsmall⟩
    obtain ⟨w', hstep⟩ := hinside { mode } 4096#64 (tightArgs mode) blank blank rbA rbB w
      ⟨Or.inr rfl, 4, by decide, (by decide : 4 < 64), rfl⟩ (by decide : 16 ≤ 64) rfl haccepted
      hinit hreach (Or.inl hslotsA) (Or.inl hslotsB) 0
    rw [hstuck] at hstep
    cases hstep
  · intro hleast b base h beforeA beforeB rbA rbB w htarget halign hsame haccepted hinit hreach
      hwrapA hwrapB ns
    have hchecked := HostArgs.accepted_checked haccepted
    have hpos : 0 < least.toNat := by
      have hsize : ZoResult.size.toNat = 24 := rfl
      omega
    obtain ⟨haccA, haccB⟩ := initRings_eq_some hinit
    have hoverA := hchecked.nonOverlapping hpos htarget halign haccA
    have hoverB := hchecked.nonOverlapping hpos htarget halign haccB
    have hroom : b.hdrSize.toNat + ZoResult.size.toNat ≤ h.complete.slotSize.toNat := by
      have hhdr : b.hdrSize = Build.hdrSize { mode } := by
        rw [Build.hdrSize, Build.hdrSize, hsame]
      rw [hhdr]
      exact hleast.trans hchecked.least_le
    have hcapA := hchecked.cap hpos haccA hoverA hroom
    have hcapB := hchecked.cap hpos haccB hoverB hroom
    have hmode' : b.mode ≠ .pointer := hsame ▸ hmode
    exact (reaches_exact hmode' haccA haccB hoverA hoverB hcapA.2 hcapB.2 hcapB.1 hreach hwrapA
      hwrapB).running ns

theorem index_stub_inside :
    StubStaysInside .index 28 ∧ ¬ StubStaysInside .index HostArgs.leastSlotSize :=
  ⟨(stub_inside_iff (by decide) 28).mpr (by decide),
    fun hinside => absurd ((stub_inside_iff (by decide) _).mp hinside) (by decide)⟩

end RingBuff.Offload
