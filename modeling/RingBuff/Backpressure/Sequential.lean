import RingBuff.Foundation.Hysteresis
import RingBuff.Ledger.Runs
import RingBuff.Ledger.Stages

/-! # Backpressure over whole calls

`rb_publish_ex` latches the full condition and calls `on_full`; `rb_release`
clears the latch and calls `on_low_d` when the occupancy it computes falls below
the threshold. That occupancy is taken from `cached_head`, so a crossing can
happen between two looks at the head and be missed. Whether it can depends on
how large the threshold is compared with the limit.
-/

namespace RingBuff

/-- A producer that stops on `on_full` and goes on after `on_low_d`. -/
def stopped (events : List Event) : Bool :=
  events.foldl (fun waiting event =>
    match event with
    | .full => true
    | .lowD => false
    | .slotAdded _ _ _ | .lowE => waiting) false

theorem stopped_append (events : List Event) (event : Event) :
    stopped (events ++ [event]) =
      match event with
      | .full => true
      | .lowD => false
      | .slotAdded _ _ _ | .lowE => stopped events := by
  cases event <;> simp [stopped]

/-- The other two callbacks do not concern such a producer. -/
theorem stopped_fire (events : List Event) (installed : Bool) (event : Event)
    (hfull : event ≠ .full) (hlow : event ≠ .lowD) :
    stopped (events ++ fire installed event) = stopped events := by
  cases installed with
  | false => exact congrArg stopped (List.append_nil events)
  | true =>
      rw [fire, if_pos rfl, stopped_append]
      cases event with
      | full => exact absurd rfl hfull
      | lowD => exact absurd rfl hlow
      | slotAdded i len truncated => rfl
      | lowE => rfl

/-- The events of a run, in order. -/
def events (outputs : List Output) : List Event := outputs.flatMap Prod.snd

theorem events_append (outputs : List Output) (output : Output) :
    events (outputs ++ [output]) = events outputs ++ output.2 := by
  simp [events]

namespace Ledger

/-- What decides about backpressure. -/
def pressure (L : Ledger) : Bool × Nat × Nat × Nat × UInt32 × UInt32 × Callbacks :=
  (L.fullLatch, L.tail, L.cachedHead, L.head, L.limit, L.lowD, L.cb)

def Owed (L : Ledger) : Prop := RingBuff.Owed L.level L.tail L.cachedHead L.head

/-- While the latch is set or a producer waits for `on_low_d`, a crossing of the
threshold is still to be seen. -/
def Pressed (L : Ledger) (seen : List Event) : Prop :=
  (L.fullLatch = true ∨ L.cb.onLowD = true ∧ stopped seen = true) → L.Owed

section Calls

variable {L : Ledger} {seen : List Event}

/-- A call that calls no callback and changes nothing that matters. -/
theorem Pressed.of_quiet (hpressed : L.Pressed seen) {next : Ledger}
    (hsame : next.pressure = L.pressure) : next.Pressed (seen ++ []) := by
  simp only [pressure, Prod.mk.injEq] at hsame
  obtain ⟨hlatch, htail, hcached, hhead, hlimit, hlow, hcb⟩ := hsame
  unfold Pressed Owed level at hpressed ⊢
  rw [List.append_nil, hlatch, htail, hcached, hhead, hlimit, hlow, hcb]
  exact hpressed

theorem Pressed.refreshHead (hpressed : L.Pressed seen) (hok : L.Ok) :
    L.refreshHead.Pressed seen :=
  fun hwaits => (hpressed hwaits).look hok.tail_le hok.cachedHead_le

theorem Pressed.consume (hpressed : L.Pressed seen) (hok : L.Ok) :
    L.consume.2.Pressed (seen ++ []) := by
  unfold Ledger.consume
  split_ifs
  · exact hpressed.of_quiet rfl
  · exact (hpressed.refreshHead hok).of_quiet rfl
  · exact (hpressed.refreshHead hok).of_quiet rfl
  · exact hpressed.of_quiet rfl

/-- Filling the ring owes a crossing, if the threshold is low enough. -/
theorem Pressed.handOver (hpressed : L.Pressed seen) (hok : L.Ok)
    (hlevel : 2 * L.level ≤ L.limit.toNat + 1) (i len : UInt32) (truncated : Bool) :
    (L.handOver i len truncated).2.Pressed (seen ++ (L.handOver i len truncated).1.2) := by
  dsimp only [Ledger.handOver]
  split_ifs with hfull
  · intro _
    exact RingBuff.Owed.of_full hlevel hok.tail_le hfull.1
  · intro hwaits
    dsimp only at hwaits
    rw [stopped_fire _ _ (.slotAdded i len truncated) nofun nofun] at hwaits
    exact (hpressed hwaits).grow (Nat.le_succ _)

theorem Pressed.publishEx (hpressed : L.Pressed seen) (hok : L.Ok)
    (hlevel : 2 * L.level ≤ L.limit.toNat + 1) (i n : UInt32) (t : Bool) :
    (L.publishEx i n t).2.Pressed (seen ++ (L.publishEx i n t).1.2) := by
  unfold Ledger.publishEx
  split
  · exact hpressed.of_quiet rfl
  split_ifs
  · exact hpressed.of_quiet rfl
  · exact hpressed.handOver hok hlevel i _ _

/-- The message is released and what is owed is paid, or still owed. -/
theorem Pressed.crossLowD (hpressed : L.Pressed seen) :
    (L.drop.crossLowD L.known L.drop.known).2.Pressed
      (seen ++ (L.drop.crossLowD L.known L.drop.known).1) := by
  have hcross : crossed L.known L.drop.known L.limit.toNat L.lowD.toNat = true ↔
      ¬ L.cachedHead - L.tail < L.level ∧ L.cachedHead - (L.tail + 1) < L.level := by
    rw [crossed, Bool.and_eq_true, Bool.not_eq_true', ← Bool.not_eq_true, below_iff, below_iff]
    rfl
  unfold Ledger.crossLowD
  split_ifs with hlow
  · -- the latch is cleared, and `on_low_d` runs if it is installed
    rintro (hlatch | ⟨hcb, hstop⟩)
    · cases hlatch
    · have hcb : L.drop.cb.onLowD = true := hcb
      dsimp only at hstop
      rw [hcb, fire, if_pos rfl, stopped_append] at hstop
      cases hstop
  · intro hwaits
    rw [List.append_nil] at hwaits
    exact (hpressed hwaits).take.resolve_right fun hdown => hlow (hcross.mpr hdown)

theorem Pressed.crossLowE (hpressed : L.Pressed seen) (oldCount newCount : Nat) :
    (L.crossLowE oldCount newCount).2.Pressed (seen ++ (L.crossLowE oldCount newCount).1) := by
  unfold Ledger.crossLowE
  split_ifs
  · intro hwaits
    dsimp only at hwaits
    rw [stopped_fire _ _ .lowE nofun nofun] at hwaits
    exact hpressed hwaits
  · exact hpressed.of_quiet rfl

theorem Pressed.release (hpressed : L.Pressed seen) (i : UInt32) :
    (L.release i).2.Pressed (seen ++ (L.release i).1.2) := by
  unfold Ledger.release
  split_ifs
  · dsimp only
    rw [← List.append_assoc]
    exact hpressed.crossLowD.crossLowE L.known L.drop.known
  · exact hpressed.of_quiet rfl

/-- Every call but three setters keeps the invariant. -/
theorem Pressed.call (hpressed : L.Pressed seen) (hok : L.Ok)
    (hlevel : 2 * L.level ≤ L.limit.toNat + 1) {c : Call} (hkeeps : c.keepsThresholds = true) :
    (L.call c).2.Pressed (seen ++ (L.call c).1.2) := by
  cases c with
  | acquire w =>
      dsimp only [Ledger.call, quiet, acquire, reserve]
      split_ifs <;> exact hpressed.of_quiet rfl
  | write offset byte =>
      dsimp only [Ledger.call, quiet, write]
      split
      · exact hpressed.of_quiet rfl
      · split_ifs <;> exact hpressed.of_quiet rfl
  | publish i n => exact hpressed.publishEx hok hlevel i n false
  | publishEx i n t => exact hpressed.publishEx hok hlevel i n t
  | abort =>
      dsimp only [Ledger.call, quiet, abort]
      split_ifs <;> exact hpressed.of_quiet rfl
  | consume => exact hpressed.consume hok
  | release i => exact hpressed.release i
  | read offset | count | isFull | isEmpty | setProducerStack bytes | setConsumerStack bytes =>
      exact hpressed.of_quiet rfl
  | setLimit limit | setLowD percent | setCallbacks cb => cases hkeeps
  | setLowE percent =>
      dsimp only [Ledger.call, quiet, setLowE]
      split_ifs <;> exact hpressed.of_quiet rfl
  | setOversizePolicy policy => cases policy <;> exact hpressed.of_quiet rfl

end Calls

/-! ## A crossing that is missed -/

variable {L : Ledger}

/-- With a threshold of more than half of the limit, the consumer can see the
ring fill up to just below the threshold, then work off what it has seen while
the producer fills the rest: the ring is full and goes below the threshold
without the consumer ever knowing of an occupancy above it. -/
theorem exists_missed_crossing (hok : L.Ok) (hfresh : L.Stage 0 0 0 false false)
    (hpending : L.pending = none) (hle : L.level ≤ L.limit.toNat)
    (hlevel : L.limit.toNat + 1 < 2 * L.level) :
    ∃ M, steady.Reaches L M ∧ M.fullLatch = true ∧ M.count < L.level ∧
      M.head = L.limit.toNat := by
  have hpos := hok.limit_pos
  -- `seen` messages are published and looked at
  obtain ⟨seen, hseen⟩ : ∃ seen, L.level = seen + 2 := ⟨L.level - 2, by omega⟩
  obtain ⟨A, hA, hpendingA, hstageA⟩ := hfresh.publishes hok hpending (seen + 1) (by omega)
  obtain ⟨hokA, hsameA⟩ := steady_reaches hok hA
  obtain ⟨hlooked, hpendingB⟩ := hstageA.consume (by omega)
  rw [if_pos rfl] at hlooked
  have hB := hA.trans (A.steady_call (c := .consume) rfl)
  obtain ⟨hokB, hsameB⟩ := steady_reaches hok hB
  -- the rest of the ring is filled behind the consumer's back
  obtain ⟨C, hC, hpendingC, hstageC⟩ := hlooked.publishes hokB (hpendingB.trans hpendingA)
    (L.limit.toNat - (seen + 2)) (by rw [limit_of_thresholds hsameB]; omega)
  obtain ⟨hokC, hsameC⟩ := steady_reaches hok (hB.trans hC)
  obtain ⟨D, hD, -, hstageD⟩ := hstageC.publish hokC hpendingC
    (by rw [limit_of_thresholds hsameC]; omega)
  have hfull : 0 + (seen + 1) + (L.limit.toNat - (seen + 2)) + 1 = L.limit.toNat := by omega
  rw [limit_of_thresholds hsameC, hfull, Bool.false_or, decide_eq_true (by omega)] at hstageD
  obtain ⟨hokD, hsameD⟩ := steady_reaches hok ((hB.trans hC).trans hD)
  -- the consumer works off what it has seen
  have hfreed := (hstageD.release (.inr (by rw [level_of_thresholds hsameD]; omega))).1
  have hE := ((hB.trans hC).trans hD).trans
    (D.steady_call (c := .release (D.slotFor 0)) rfl)
  obtain ⟨hokE, hsameE⟩ := steady_reaches hok hE
  rw [show 0 + (seen + 1) = 0 + 1 + seen by omega] at hfreed
  obtain ⟨M, hM, hdone⟩ := hfreed.drain hokE (by omega)
    (by rw [level_of_thresholds hsameE]; omega)
  refine ⟨M, hE.trans hM, hdone.latch_eq, ?_, hdone.head_eq⟩
  rw [count, hdone.head_eq, hdone.tail_eq]
  omega

end Ledger

/-! ## Runs of the ring -/

theorem threshold_le {limit percent : Nat} (hle : percent ≤ 100) :
    threshold limit percent ≤ limit := by
  have hmul := Nat.mul_le_mul_left limit hle
  unfold threshold
  omega

/-- The full condition is released: whenever the ring is below the `low_d`
threshold, the latch is clear and the last of `on_full` and `on_low_d` to run was
not `on_full`. -/
def Released (rb : Rb) (outputs : List Output) : Prop :=
  belowLow (rbCount rb) rb.limit rb.lowD = true →
    rb.fullLatch = 0 ∧ (rb.cb.onLowD = true → stopped (events outputs) = false)

namespace Tracks

variable {b : Build} {geo : Geometry} {rb : Rb} {L : Ledger}

theorem belowLow_count (htracks : Tracks b geo rb L) (hgeo : geo.Sound b) :
    belowLow (rbCount rb) rb.limit rb.lowD = true ↔ L.count < L.level := by
  obtain ⟨rfl, hok, hrep⟩ := htracks
  have hlt : L.count < 2 ^ 32 := hok.count_lt
  rw [hrep.rbCount_eq hok hgeo, belowLow_ofNat hlt, hrep.limit, hrep.lowD, below_iff]
  rfl

/-- Nothing is owed below the threshold, so nothing waits. -/
theorem released (htracks : Tracks b geo rb L) (hgeo : geo.Sound b) {outputs : List Output}
    (hpressed : L.Pressed (events outputs)) : Released rb outputs := by
  intro hbelow
  rw [htracks.belowLow_count hgeo] at hbelow
  obtain ⟨-, hok, hrep⟩ := htracks
  have hquiet : ¬ (L.fullLatch = true ∨ L.cb.onLowD = true ∧ stopped (events outputs) = true) :=
    fun hwaits => absurd ((hpressed hwaits).level_le hok.tail_le hok.cachedHead_le)
      (Nat.not_le.mpr hbelow)
  constructor
  · rw [hrep.fullLatch, if_neg fun hlatch => hquiet (Or.inl hlatch)]
  · intro hlow
    rw [hrep.cb] at hlow
    exact Bool.not_eq_true _ ▸ fun hstop => hquiet (Or.inr ⟨hlow, hstop⟩)

end Tracks

/-- In every run of whole calls the full condition is released again, exactly if
twice the `low_d` threshold is at most one more than the limit. -/
theorem backpressure_released_iff {b : Build} {addr scratch scratchSize : BitVec b.sizeBits}
    {cfg : Config} {before : Store} {rb : Rb}
    (hinit : rbInit b addr (some cfg) scratch scratchSize before = .ok rb)
    (hover : rb.geo.NonOverlapping) (haddr : b.mode = .pointer → rb.geo.Addressable b) :
    (∀ calls outputs rb', (∀ c ∈ calls, c.keepsThresholds = true) →
        (ring b).run rb calls = some (outputs, rb') → Released rb' outputs) ↔
      2 * threshold rb.limit.toNat rb.lowD.toNat ≤ rb.limit.toNat + 1 := by
  obtain ⟨cfg', heq, hacc⟩ := rbInit_accepted hinit
  obtain rfl := Option.some.inj heq
  have htracks := hacc.tracks
  have hok := htracks.ok
  have hrep := htracks.rep
  have hgeo := hacc.sound hover
  rw [hrep.limit, hrep.lowD]
  constructor
  · intro hall
    by_contra hlevel
    have hlow : cfg.lowD.toNat ≤ 100 :=
      UInt32.le_iff_toNat_le.mp (Config.valid_iff.mp hacc.valid).2.2.2.2.2.1
    obtain ⟨M, ⟨calls, outputs, hsteady⟩, hlatch, hcount, hhead⟩ :=
      Ledger.exists_missed_crossing hok ⟨rfl, rfl, rfl, rfl, rfl⟩ rfl (threshold_le hlow)
        (Nat.lt_of_not_le hlevel)
    obtain ⟨hmoves, hledger⟩ := ledger.run_restrict hsteady
    have hwrap : WrapSafe M.slots M.head := Or.inr (hhead ▸ UInt32.toNat_lt _)
    obtain ⟨rb', hrun, hM⟩ := htracks.run_exact hgeo haddr hledger fun _ => hwrap
    have hsame := (Ledger.steady_reaches hok ⟨calls, outputs, hsteady⟩).2
    have hbelow := (hM.belowLow_count hgeo).mpr (Ledger.level_of_thresholds hsame ▸ hcount)
    have hclear := (hall calls outputs rb' (fun c hc => keepsThresholds_of_threaded (hmoves c hc))
      hrun hbelow).1
    rw [hM.rep.fullLatch, if_pos hlatch] at hclear
    exact absurd hclear (by decide)
  · intro hlevel calls outputs rb' hkeeps hrun
    obtain ⟨M, hM, hpressed, -⟩ := htracks.run_invariant hgeo haddr hrun
      (fun seen M => M.Pressed (events seen) ∧
        M.thresholds = (cfg.ledger b (rb.store.payload b rb.geo)).thresholds)
      ⟨nofun, rfl⟩
      (fun hokM hinv => ⟨hinv.1.refreshHead hokM, hinv.2⟩)
      (fun {seen M c} hmem hokM hinv => by
        rw [events_append]
        refine ⟨hinv.1.call hokM ?_ (hkeeps c hmem),
          (M.call_thresholds (hkeeps c hmem)).trans hinv.2⟩
        rw [Ledger.level_of_thresholds hinv.2, Ledger.limit_of_thresholds hinv.2]
        exact hlevel)
    exact hM.released hgeo hpressed

/-- Four slots of 64 bytes. -/
def fourSlots (lowD : UInt32) : Config := { smallConfig with capacity := 4, slots := 4, lowD }

def fourSlotRing (lowD : UInt32) : Rb :=
  (fourSlots lowD).fresh { mode := .index }
    ((fourSlots lowD).geometry { mode := .index } 64#64 4096#64 256#64) blank

/-- Two messages are seen, two more fill the ring; three are released. -/
def fillBehind : List Call :=
  [.acquire 0, .publishEx 0 0 false, .acquire 0, .publishEx 1 0 false, .consume,
    .acquire 0, .publishEx 2 0 false, .acquire 0, .publishEx 3 0 false,
    .release 0, .consume, .release 1, .consume, .release 2]

/-- With the threshold at half of the ring, the producer is released. -/
theorem fourSlotRing_backpressure_released : ∃ outputs rb',
    (ring { mode := .index }).run (fourSlotRing 50) fillBehind = some (outputs, rb') ∧
      rb'.fullLatch = 0 ∧ stopped (events outputs) = false := by
  have hinit : rbInit { mode := .index } 64#64 (some (fourSlots 50)) 4096#64 256#64 blank =
      .ok (fourSlotRing 50) := rfl
  have hall := (backpressure_released_iff hinit
    (Accepted.nonOverlapping_of_le (by decide) (by decide)) nofun).mpr (by decide)
  have hend : ((ring { mode := .index }).run (fourSlotRing 50) fillBehind).map
      (fun r => (belowLow (rbCount r.2) r.2.limit r.2.lowD, r.2.cb.onLowD)) =
        some (true, true) := by decide
  obtain ⟨⟨outputs, rb'⟩, hrun, heq⟩ := Option.map_eq_some_iff.mp hend
  obtain ⟨hbelow, hlow⟩ := Prod.mk.inj heq
  obtain ⟨hlatch, hstop⟩ := hall _ outputs rb' (by decide) hrun hbelow
  exact ⟨outputs, rb', hrun, hlatch, hstop hlow⟩

/-- With the threshold at three quarters, the same calls leave one message in the
ring, the latch set and `on_full` without an `on_low_d` after it. -/
theorem fourSlotRing_missed_crossing :
    rbInit { mode := .index } 64#64 (some (fourSlots 75)) 4096#64 256#64 blank =
        .ok (fourSlotRing 75) ∧
      (fourSlotRing 75).geo.NonOverlapping ∧
      (∀ c ∈ fillBehind, c.keepsThresholds = true) ∧
      ((ring { mode := .index }).run (fourSlotRing 75) fillBehind).map
        (fun r => (belowLow (rbCount r.2) r.2.limit r.2.lowD, r.2.fullLatch,
          stopped (events r.1))) = some (true, 1, true) :=
  ⟨rfl, Accepted.nonOverlapping_of_le (by decide) (by decide), by decide, by decide⟩

end RingBuff
