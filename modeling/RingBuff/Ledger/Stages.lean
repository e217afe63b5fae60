import RingBuff.Ledger.Invariant
import RingBuff.Core.Threshold

/-! # Stages of a ledger

Long runs of the ledger are put together from stages: what the counters are,
whether a message is held and whether the latch is set. Each call takes a ledger
from one stage to the next, and induction gives the runs that fill the ring, work
it off or go around it any number of times.
-/

namespace RingBuff

/-- Calls that leave the limit, the `low_d` threshold and the callbacks alone. -/
def Call.keepsThresholds : Call → Bool
  | .setLimit _ | .setLowD _ | .setCallbacks _ => false
  | _ => true

theorem keepsThresholds_of_threaded {c : Call} (hmoves : c.threaded = true) :
    c.keepsThresholds = true := by
  cases c <;> first | rfl | cases hmoves

namespace Ledger

variable {L : Ledger}

/-- The `low_d` threshold as a number of messages. -/
def level (L : Ledger) : Nat := threshold L.limit.toNat L.lowD.toNat

/-- What the thresholds are made of. -/
def thresholds (L : Ledger) : UInt32 × UInt32 × Callbacks := (L.limit, L.lowD, L.cb)

theorem limit_of_thresholds {M : Ledger} (hsame : M.thresholds = L.thresholds) :
    M.limit = L.limit :=
  congrArg Prod.fst hsame

theorem level_of_thresholds {M : Ledger} (hsame : M.thresholds = L.thresholds) :
    M.level = L.level := by
  have hlow : M.lowD = L.lowD := congrArg (fun t => t.2.1) hsame
  rw [level, level, limit_of_thresholds hsame, hlow]

theorem call_thresholds (L : Ledger) {c : Call} (hkeeps : c.keepsThresholds = true) :
    (L.call c).2.thresholds = L.thresholds := by
  cases c with
  | acquire w =>
      dsimp only [Ledger.call, quiet, acquire, reserve]
      split_ifs <;> rfl
  | write offset byte =>
      dsimp only [Ledger.call, quiet, write]
      split
      · rfl
      · split_ifs <;> rfl
  | publish i n | publishEx i n t =>
      dsimp only [Ledger.call, Ledger.publishEx, Ledger.handOver]
      split
      · rfl
      · split_ifs <;> rfl
  | abort =>
      dsimp only [Ledger.call, quiet, abort]
      split_ifs <;> rfl
  | consume =>
      dsimp only [Ledger.call, quiet, Ledger.consume]
      split_ifs <;> rfl
  | release i =>
      dsimp only [Ledger.call, Ledger.release, Ledger.crossLowD, Ledger.crossLowE]
      split_ifs <;> rfl
  | read offset | count | isFull | isEmpty | setProducerStack bytes | setConsumerStack bytes => rfl
  | setLimit limit | setLowD percent | setCallbacks cb => cases hkeeps
  | setLowE percent =>
      dsimp only [Ledger.call, quiet, setLowE]
      split_ifs <;> rfl
  | setOversizePolicy policy => cases policy <;> rfl

/-- The ledger under the calls that move messages. -/
def steady : Automaton Ledger Call Output :=
  ledger.restrict fun _ c => c.threaded

theorem steady_call (L : Ledger) {c : Call} (hmoves : c.threaded = true) :
    steady.Reaches L (L.call c).2 :=
  .single (ledger.restrict_step_eq_some.mpr ⟨hmoves, rfl⟩)

/-- The counters, the held message and the latch are as given. -/
structure Stage (L : Ledger) (tail cached head : Nat) (held latch : Bool) : Prop where
  tail_eq : L.tail = tail
  cached_eq : L.cachedHead = cached
  head_eq : L.head = head
  held_eq : L.held = if held then some (L.slotFor tail) else none
  latch_eq : L.fullLatch = latch

variable {tail cached head : Nat} {held latch : Bool}

theorem steady_reaches {M : Ledger} (hok : L.Ok) (hreach : steady.Reaches L M) :
    M.Ok ∧ M.thresholds = L.thresholds := by
  refine hreach.invariant (fun M => M.Ok ∧ M.thresholds = L.thresholds) ⟨hok, rfl⟩ ?_
  rintro M c output next ⟨hM, hsame⟩ hstep
  obtain ⟨hmoves, hstep⟩ := ledger.restrict_step_eq_some.mp hstep
  obtain ⟨rfl, rfl⟩ := ledger_step_eq_some.mp hstep
  exact ⟨call_ok hM c, (M.call_thresholds (keepsThresholds_of_threaded hmoves)).trans hsame⟩

/-- Reserving a slot when there is room. -/
theorem Stage.acquire (hstage : L.Stage tail cached head held latch) (hpending : L.pending = none)
    (hroom : head - tail < L.limit.toNat) :
    (L.acquire 0).2.Stage tail cached head held latch ∧
      (L.acquire 0).2.pending = some ⟨L.slotFor head, 0⟩ := by
  obtain ⟨rfl, rfl, rfl, hheld, rfl⟩ := hstage
  have hnone : ¬ L.pending.isSome := by simp [hpending]
  have hfull : ¬ L.limit.toNat ≤ L.count := Nat.not_le.mpr hroom
  unfold Ledger.acquire
  rw [if_neg hnone, if_neg hfull]
  split_ifs <;> exact ⟨⟨rfl, rfl, rfl, hheld, rfl⟩, rfl⟩

/-- Publishing sets the latch when the ring is full after it. -/
theorem Stage.publishEx (hstage : L.Stage tail cached head held latch) {r : Reservation}
    (hpending : L.pending = some r) (n : UInt32) (t : Bool) :
    (L.publishEx r.slotIndex n t).2.Stage tail cached (head + 1) held
        (latch || decide (L.limit.toNat ≤ head + 1 - tail)) ∧
      (L.publishEx r.slotIndex n t).2.pending = none := by
  obtain ⟨rfl, rfl, rfl, hheld, rfl⟩ := hstage
  simp only [Ledger.publishEx, hpending, ne_eq, not_true_eq_false, if_false]
  dsimp only [Ledger.handOver]
  split_ifs with hfull
  · have hcount : L.limit.toNat ≤ L.head + 1 - L.tail := hfull.1
    refine ⟨⟨rfl, rfl, rfl, hheld, ?_⟩, rfl⟩
    simp [latchFull, hcount]
  · have hcount : ¬ (L.limit.toNat ≤ L.head + 1 - L.tail ∧ L.fullLatch = false) := hfull
    refine ⟨⟨rfl, rfl, rfl, hheld, ?_⟩, rfl⟩
    change L.fullLatch = _
    cases hlatch : L.fullLatch with
    | true => rfl
    | false => simpa [hlatch] using hcount

theorem Stage.publish (hstage : L.Stage tail cached head held latch) (hok : L.Ok)
    (hpending : L.pending = none) (hroom : head - tail < L.limit.toNat) :
    ∃ M, steady.Reaches L M ∧ M.pending = none ∧
      M.Stage tail cached (head + 1) held (latch || decide (L.limit.toNat ≤ head + 1 - tail)) := by
  have hacquire := L.steady_call (c := .acquire 0) rfl
  obtain ⟨hreserved, hpending'⟩ := hstage.acquire hpending hroom
  have hlimit : (L.acquire 0).2.limit = L.limit :=
    congrArg Prod.fst (steady_reaches hok hacquire).2
  have hdone := hreserved.publishEx hpending' 0 false
  rw [hlimit] at hdone
  exact ⟨_, hacquire.trans (steady_call _ (c := .publishEx (L.slotFor head) 0 false) rfl),
    hdone.2, hdone.1⟩

/-- Publishing some messages without filling the ring. -/
theorem Stage.publishes (hok : L.Ok) (hstage : L.Stage tail cached head held false)
    (hpending : L.pending = none) (n : Nat) (hroom : head + n - tail < L.limit.toNat) :
    ∃ M, steady.Reaches L M ∧ M.pending = none ∧ M.Stage tail cached (head + n) held false := by
  induction n with
  | zero => exact ⟨L, .refl _ L, hpending, hstage⟩
  | succ n ih =>
      obtain ⟨M, hreach, hpendingM, hstageM⟩ := ih (by omega)
      obtain ⟨hokM, hsame⟩ := steady_reaches hok hreach
      have hlimit : M.limit = L.limit := congrArg Prod.fst hsame
      obtain ⟨N, hreach', hpendingN, hstageN⟩ :=
        hstageM.publish hokM hpendingM (by rw [hlimit]; omega)
      rw [hlimit, Bool.false_or, decide_eq_false (by omega)] at hstageN
      exact ⟨N, hreach.trans hreach', hpendingN, hstageN⟩

/-- Taking the front message. -/
theorem Stage.consume (hstage : L.Stage tail cached head false latch) (hlt : tail < head) :
    (L.call .consume).2.Stage tail (if tail = cached then head else cached) head true latch ∧
      (L.call .consume).2.pending = L.pending := by
  obtain ⟨rfl, rfl, rfl, hheld, rfl⟩ := hstage
  have hfree : ¬ L.held.isSome := by simp [hheld]
  dsimp only [Ledger.call, quiet, Ledger.consume]
  rw [if_neg hfree]
  split_ifs with hcached hempty
  · exact absurd hempty hlt.ne
  · exact ⟨⟨rfl, rfl, rfl, rfl, rfl⟩, rfl⟩
  · exact ⟨⟨rfl, rfl, rfl, rfl, rfl⟩, rfl⟩

/-- Releasing a message leaves a clear latch clear, and a set one set while the
consumer already believes to be below. -/
theorem Stage.release (hstage : L.Stage tail cached head true latch)
    (hquiet : latch = false ∨ cached - tail < L.level) :
    (L.call (.release (L.slotFor tail))).2.Stage (tail + 1) cached head false latch ∧
      (L.call (.release (L.slotFor tail))).2.pending = L.pending := by
  obtain ⟨rfl, rfl, rfl, hheld, rfl⟩ := hstage
  have hheld : L.held = some (L.slotFor L.tail) := hheld
  have hlatch : ∀ x, crossed L.known x L.limit.toNat L.lowD.toNat = true →
      false = L.fullLatch := by
    intro x hcrossed
    rcases hquiet with hclear | hbelow
    · exact hclear.symm
    · have hlow : below L.known L.limit.toNat L.lowD.toNat = true := below_iff.mpr hbelow
      simp [crossed, hlow] at hcrossed
  dsimp only [Ledger.call, Ledger.release, Ledger.crossLowD, Ledger.crossLowE]
  rw [if_pos hheld]
  dsimp only
  split_ifs with hlowD
  all_goals first
    | exact ⟨⟨rfl, rfl, rfl, rfl, rfl⟩, rfl⟩
    | exact ⟨⟨rfl, rfl, rfl, rfl, hlatch _ hlowD⟩, rfl⟩

/-- Taking and releasing all that was seen, below the level all the time. -/
theorem Stage.drain {n : Nat} (hok : L.Ok) (hstage : L.Stage tail (tail + n) head false latch)
    (hhead : tail + n < head) (hbelow : n < L.level) :
    ∃ M, steady.Reaches L M ∧ M.Stage (tail + n) (tail + n) head false latch := by
  induction n generalizing L tail with
  | zero => exact ⟨L, .refl _ L, hstage⟩
  | succ n ih =>
      have htaken := (hstage.consume (by omega)).1
      rw [if_neg (by omega)] at htaken
      have hconsume := L.steady_call (c := .consume) rfl
      obtain ⟨hok', hsame⟩ := steady_reaches hok hconsume
      have hfreed := (htaken.release (.inr (by rw [level_of_thresholds hsame]; omega))).1
      have hrelease := steady_call (L.call .consume).2
        (c := .release ((L.call .consume).2.slotFor tail)) rfl
      obtain ⟨hok'', hsame'⟩ := steady_reaches hok' hrelease
      rw [show tail + (n + 1) = tail + 1 + n by omega] at hfreed hhead ⊢
      obtain ⟨M, hreach, hdone⟩ := ih hok'' hfreed hhead
        (by rw [level_of_thresholds (hsame'.trans hsame)]; omega)
      exact ⟨M, (hconsume.trans hrelease).trans hreach, hdone⟩

/-- One message goes through an empty ring. -/
theorem Stage.cycle {n : Nat} (hok : L.Ok) (hstage : L.Stage n n n false false)
    (hpending : L.pending = none) (hlimit : 1 < L.limit.toNat) :
    ∃ M, steady.Reaches L M ∧ M.pending = none ∧ M.Stage (n + 1) (n + 1) (n + 1) false false := by
  obtain ⟨A, hA, hpendingA, hstageA⟩ := hstage.publish hok hpending (by omega)
  rw [Bool.false_or, decide_eq_false (by omega)] at hstageA
  obtain ⟨htaken, hpendingB⟩ := hstageA.consume (Nat.lt_succ_self n)
  rw [if_pos rfl] at htaken
  have hB := hA.trans (A.steady_call (c := .consume) rfl)
  obtain ⟨hfreed, hpendingC⟩ := htaken.release (.inl rfl)
  exact ⟨_, hB.trans (steady_call _ (c := .release ((A.call .consume).2.slotFor n)) rfl),
    hpendingC.trans (hpendingB.trans hpendingA), hfreed⟩

/-- Any number of messages goes through, one after the other. -/
theorem Stage.cycles (hok : L.Ok) (hstage : L.Stage 0 0 0 false false)
    (hpending : L.pending = none) (hlimit : 1 < L.limit.toNat) (n : Nat) :
    ∃ M, steady.Reaches L M ∧ M.pending = none ∧ M.Stage n n n false false := by
  induction n with
  | zero => exact ⟨L, .refl _ L, hpending, hstage⟩
  | succ n ih =>
      obtain ⟨M, hM, hpendingM, hstageM⟩ := ih
      obtain ⟨hokM, hsame⟩ := steady_reaches hok hM
      obtain ⟨N, hN, hdone⟩ := hstageM.cycle hokM hpendingM
        (by rw [limit_of_thresholds hsame]; exact hlimit)
      exact ⟨N, hM.trans hN, hdone⟩

end Ledger

end RingBuff
