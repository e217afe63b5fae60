import RingBuff.Core.Calls

/-! # Resetting the statistics

A monitor reads `rb_stats` now and then, adds what it finds to its own sums and calls
`rb_stats_reset`. No call reads the statistics but to count them up, so the resets show
nowhere else, and the sums of the monitor are what the counters would have shown.
-/

namespace RingBuff

/-- `rb_stats_reset`. -/
def rbStatsReset (rb : Rb) : Rb := { rb with stats := {} }

/-- Statistics from before and from after a reset, taken together. -/
def Stats.plus (s t : Stats) : Stats where
  published := s.published + t.published
  consumed := s.consumed + t.consumed
  truncated := s.truncated + t.truncated
  fullAttempts := s.fullAttempts + t.fullAttempts
  highWater := if s.highWater < t.highWater then t.highWater else s.highWater
  fullHits := s.fullHits + t.fullHits
  lowDHits := s.lowDHits + t.lowDHits
  lowEHits := s.lowEHits + t.lowEHits

/-- The counters that go up on their own; the others go up with `published`. -/
inductive Tally where
  | consumed
  | fullAttempts
  | fullHits
  | lowDHits
  | lowEHits
  deriving DecidableEq, Repr

/-- Count one up. -/
def Stats.bump (s : Stats) : Tally → Stats
  | .consumed => { s with consumed := s.consumed + 1 }
  | .fullAttempts => { s with fullAttempts := s.fullAttempts + 1 }
  | .fullHits => { s with fullHits := s.fullHits + 1 }
  | .lowDHits => { s with lowDHits := s.lowDHits + 1 }
  | .lowEHits => { s with lowEHits := s.lowEHits + 1 }

namespace Stats

variable (s t : Stats)

theorem plus_zero : s.plus {} = s := by
  have hmark : ¬ s.highWater < 0 := UInt32.not_lt.mpr UInt32.zero_le
  simp only [plus, UInt64.add_zero, UInt32.add_zero, hmark, if_false]

theorem zero_plus : plus {} t = t := by
  have hmark : (if 0 < t.highWater then t.highWater else 0) = t.highWater := by
    split_ifs with hpos
    · rfl
    · exact (UInt32.le_antisymm (UInt32.not_lt.mp hpos) UInt32.zero_le).symm
  simp only [plus, UInt64.zero_add, UInt32.zero_add, hmark]

/-- The larger of three, in either order. -/
theorem mark_assoc (x y z : UInt32) :
    (if (if x < y then y else x) < z then z else if x < y then y else x) =
      if x < (if y < z then z else y) then (if y < z then z else y) else x := by
  simp only [UInt32.lt_iff_toNat_lt]
  split_ifs <;> first | rfl | omega

/-- A counter is counted up before or after the sum is taken. -/
theorem plus_bump (c : Tally) : (s.plus t).bump c = s.plus (t.bump c) := by
  cases c <;> simp only [plus, bump, UInt64.add_assoc, UInt32.add_assoc] <;> rfl

theorem plus_published (count : UInt32) (truncated : Bool) :
    { s.plus t with
        published := (s.plus t).published + 1
        highWater := if (s.plus t).highWater < count then count else (s.plus t).highWater
        truncated := if truncated then (s.plus t).truncated + 1 else (s.plus t).truncated } =
      s.plus { t with
        published := t.published + 1
        highWater := if t.highWater < count then count else t.highWater
        truncated := if truncated then t.truncated + 1 else t.truncated } := by
  have hmark : (if (s.plus t).highWater < count then count else (s.plus t).highWater) =
      if s.highWater < (if t.highWater < count then count else t.highWater) then
        (if t.highWater < count then count else t.highWater) else s.highWater :=
    mark_assoc s.highWater t.highWater count
  rw [hmark]
  cases truncated
  · simp only [plus, UInt64.add_assoc, Bool.false_eq_true, if_false]
  · simp only [plus, UInt64.add_assoc, if_true]

end Stats

/-- The ring with more in its statistics. -/
abbrev Rb.plus (rb : Rb) (s : Stats) : Rb := { rb with stats := s.plus rb.stats }

section Plus

variable {b : Build} (rb : Rb) (s : Stats)

theorem plus_reset : (rbStatsReset rb).plus (s.plus rb.stats) = rb.plus s := by
  rw [Rb.plus, rbStatsReset, Stats.plus_zero]

theorem reserve_plus (wantedLen head : UInt32) : reserve b (rb.plus s) wantedLen head =
    ((reserve b rb wantedLen head).1, (reserve b rb wantedLen head).2.plus s) := by
  unfold reserve Rb.plus
  dsimp only
  split_ifs <;> rfl

theorem rbAcquire_plus (wantedLen : UInt32) : rbAcquire b (rb.plus s) wantedLen =
    ((rbAcquire b rb wantedLen).1, (rbAcquire b rb wantedLen).2.plus s) := by
  unfold rbAcquire
  dsimp only
  split_ifs
  · rfl
  · rfl
  · exact congrArg (fun stats => (_, { rb with cachedTail := rb.tail, stats }))
      (Stats.plus_bump s rb.stats .fullAttempts)
  · exact reserve_plus { rb with cachedTail := rb.tail } s wantedLen rb.head
  · exact reserve_plus rb s wantedLen rb.head

theorem afterPublish_plus (count : UInt32) (truncated : Bool) :
    (rb.plus s).afterPublish count truncated = (rb.afterPublish count truncated).plus s :=
  congrArg (fun stats => { rb with
      pendingSlot := noPending, pendingWanted := 0, cachedTail := rb.tail, stats })
    (Stats.plus_published s rb.stats count truncated)

theorem handOver_plus (slotIndex len : UInt32) (truncated : Bool) :
    (rb.plus s).handOver b slotIndex len truncated =
      ((rb.handOver b slotIndex len truncated).1,
        (rb.handOver b slotIndex len truncated).2.plus s) := by
  unfold Rb.handOver
  dsimp only
  generalize Store.enter b rb.geo _ slotIndex rb.head = store
  have hafter := afterPublish_plus { rb with store, head := rb.head + 1 } s
    (rb.head + 1 - rb.tail) truncated
  rw [hafter]
  generalize Rb.afterPublish _ (rb.head + 1 - rb.tail) truncated = after
  split_ifs
  · exact congrArg (fun stats => (_, { after with fullLatch := 1, stats }))
      (Stats.plus_bump s after.stats .fullHits)
  · rfl

theorem rbPublishEx_plus (slotIndex writtenLen : UInt32) (truncated : Bool) :
    rbPublishEx b (rb.plus s) slotIndex writtenLen truncated =
      ((rbPublishEx b rb slotIndex writtenLen truncated).1,
        (rbPublishEx b rb slotIndex writtenLen truncated).2.plus s) := by
  unfold rbPublishEx
  dsimp only
  split_ifs
  · rfl
  · rfl
  · exact handOver_plus rb s slotIndex _ _

theorem rbAbort_plus : rbAbort (rb.plus s) = ((rbAbort rb).1, (rbAbort rb).2.plus s) := by
  unfold rbAbort
  dsimp only
  split_ifs <;> rfl

theorem takeFront_plus (tail : UInt32) : (rb.plus s).takeFront b tail =
    (rb.takeFront b tail).map fun answer => (answer.1, answer.2.plus s) := by
  unfold Rb.takeFront
  dsimp only
  split
  · rfl
  · rfl
  · split_ifs <;> rfl

theorem rbConsume_plus : rbConsume b (rb.plus s) =
    (rbConsume b rb).map fun answer => (answer.1, answer.2.plus s) := by
  unfold rbConsume
  dsimp only
  split_ifs
  · rfl
  · rfl
  · rfl
  · exact takeFront_plus { rb with cachedHead := rb.head } s rb.tail
  · exact takeFront_plus rb s rb.tail

theorem crossLowD_plus (oldCount newCount : UInt32) : (rb.plus s).crossLowD oldCount newCount =
    ((rb.crossLowD oldCount newCount).1, (rb.crossLowD oldCount newCount).2.plus s) := by
  unfold Rb.crossLowD
  dsimp only
  split_ifs
  · exact congrArg (fun stats => (_, { rb with lowDLatch := 1, fullLatch := 0, stats }))
      (Stats.plus_bump s rb.stats .lowDHits)
  · rfl
  · rfl

theorem crossLowE_plus (oldCount newCount : UInt32) : (rb.plus s).crossLowE oldCount newCount =
    ((rb.crossLowE oldCount newCount).1, (rb.crossLowE oldCount newCount).2.plus s) := by
  unfold Rb.crossLowE
  dsimp only
  split_ifs
  · exact congrArg (fun stats => (_, { rb with lowELatch := 1, stats }))
      (Stats.plus_bump s rb.stats .lowEHits)
  · rfl
  · rfl

/-- Both thresholds, one after the other. -/
theorem cross_plus (oldCount newCount : UInt32) :
    (((rb.plus s).crossLowD oldCount newCount).1 ++
        (((rb.plus s).crossLowD oldCount newCount).2.crossLowE oldCount newCount).1,
      (((rb.plus s).crossLowD oldCount newCount).2.crossLowE oldCount newCount).2) =
    ((rb.crossLowD oldCount newCount).1 ++
        ((rb.crossLowD oldCount newCount).2.crossLowE oldCount newCount).1,
      ((rb.crossLowD oldCount newCount).2.crossLowE oldCount newCount).2.plus s) := by
  rw [crossLowD_plus, crossLowE_plus]

theorem rbRelease_plus (slotIndex : UInt32) : rbRelease b (rb.plus s) slotIndex =
    ((rbRelease b rb slotIndex).1, (rbRelease b rb slotIndex).2.plus s) := by
  unfold rbRelease
  dsimp only
  split_ifs
  · rfl
  · rfl
  · generalize Store.recycle b rb.geo rb.store slotIndex rb.tail = store
    have hconsumed := congrArg (fun stats => { rb with
        store, tail := rb.tail + 1, consumerActive := 0, stats })
      (Stats.plus_bump s rb.stats .consumed)
    dsimp only [Stats.bump] at hconsumed
    rw [hconsumed]
    have hcross := cross_plus { rb with
        store, tail := rb.tail + 1, consumerActive := 0
        stats.consumed := rb.stats.consumed + 1 } s
      (rb.cachedHead - (rb.tail + 1) + 1) (rb.cachedHead - (rb.tail + 1))
    exact congrArg (fun answer : List Event × Rb => ((Reply.code .ok, answer.1), answer.2)) hcross

/-- More in the statistics changes nothing that a call does or shows. -/
theorem rbCall_plus (c : Call) : rbCall b (rb.plus s) c =
    (rbCall b rb c).map fun answer => (answer.1, answer.2.plus s) := by
  cases c with
  | acquire wantedLen =>
      rw [rbCall, rbAcquire_plus]
      rfl
  | write offset byte =>
      simp only [rbCall, payloadWrite]
      split_ifs <;> rfl
  | publish slotIndex writtenLen => exact congrArg some (rbPublishEx_plus rb s slotIndex _ _)
  | publishEx slotIndex writtenLen truncated =>
      exact congrArg some (rbPublishEx_plus rb s slotIndex _ _)
  | abort =>
      rw [rbCall, rbAbort_plus]
      rfl
  | consume =>
      rw [rbCall, rbCall, rbConsume_plus, Option.map_map, Option.map_map]
      rfl
  | release slotIndex => exact congrArg some (rbRelease_plus rb s slotIndex)
  | setLimit limit =>
      have hcount : rbCount (rb.plus s) = rbCount rb := rfl
      simp only [rbCall, rbSetLimit, hcount]
      split_ifs <;> rfl
  | setLowD percent =>
      have hcheck : (rb.plus s).percentCheck percent = rb.percentCheck percent := rfl
      simp only [rbCall, rbSetLowD, hcheck]
      split_ifs <;> rfl
  | setLowE percent =>
      have hcheck : (rb.plus s).percentCheck percent = rb.percentCheck percent := rfl
      simp only [rbCall, rbSetLowE, hcheck]
      split_ifs <;> rfl
  | setOversizePolicy policy =>
      simp only [rbCall, rbSetOversizePolicy]
      split_ifs
      · rfl
      · cases policy <;> rfl
  | setCallbacks cb =>
      cases cb with
      | none => rfl
      | some cb =>
          simp only [rbCall, rbSetCallbacks]
          split_ifs <;> rfl
  | setProducerStack bytes =>
      simp only [rbCall, rbSetProducerStack]
      split_ifs <;> rfl
  | setConsumerStack bytes =>
      simp only [rbCall, rbSetConsumerStack]
      split_ifs <;> rfl
  | read | count | isFull | isEmpty => rfl

end Plus

/-! ## A monitor -/

/-- A call on the ring, or a reset by the monitor. -/
inductive MonitorOp where
  | call (c : Call)
  | statsReset

def MonitorOp.call? : MonitorOp → Option Call
  | .call c => some c
  | .statsReset => none

/-- The ring, and the sums of a monitor that reads the statistics before it resets them. -/
structure Monitored where
  rb : Rb
  banked : Stats := {}

/-- The ring under calls and resets. -/
def monitored (b : Build) : Automaton Monitored MonitorOp (Option Output) where
  step m
    | .call c => (rbCall b m.rb c).map fun answer => (some answer.1, { m with rb := answer.2 })
    | .statsReset => some (none, ⟨rbStatsReset m.rb, m.banked.plus m.rb.stats⟩)

/-- The outputs of the calls, and the ring with all that was counted. -/
def Monitored.total (r : List (Option Output) × Monitored) : List Output × Rb :=
  (r.1.filterMap id, r.2.rb.plus r.2.banked)

theorem monitored_run {b : Build} (m : Monitored) (ops : List MonitorOp) :
    ((monitored b).run m ops).map Monitored.total =
      (ring b).run (m.rb.plus m.banked) (ops.filterMap MonitorOp.call?) := by
  induction ops generalizing m with
  | nil => rfl
  | cons op ops ih =>
      rw [Automaton.run_cons]
      cases op with
      | call c =>
          have hstep : (monitored b).step m (.call c) = (rbCall b m.rb c).map fun answer =>
            (some answer.1, { m with rb := answer.2 }) := rfl
          have hring : (ring b).step (m.rb.plus m.banked) c =
            (rbCall b m.rb c).map fun answer => (answer.1, answer.2.plus m.banked) :=
              rbCall_plus m.rb m.banked c
          have hcalls : (MonitorOp.call c :: ops).filterMap MonitorOp.call? =
            c :: ops.filterMap MonitorOp.call? := rfl
          rw [hcalls, Automaton.run_cons, hstep, hring]
          cases rbCall b m.rb c with
          | none => rfl
          | some answer =>
              rw [Option.map_some, Option.map_some, Option.bind_some, Option.bind_some,
                ← ih { m with rb := answer.2 }, Option.map_map, Option.map_map]
              rfl
      | statsReset =>
          -- what the reset takes from the ring is in the sums of the monitor
          have hnext := ih ⟨rbStatsReset m.rb, m.banked.plus m.rb.stats⟩
          rw [plus_reset] at hnext
          rw [List.filterMap_cons_none rfl, ← hnext]
          have hstep : (monitored b).step m .statsReset =
            some (none, ⟨rbStatsReset m.rb, m.banked.plus m.rb.stats⟩) := rfl
          rw [hstep, Option.bind_some, Option.map_map]
          rfl

/-- Resetting the statistics at any time changes no reply and no callback, and what the
monitor has summed up together with what the counters show at the end is what they would
show without the resets. -/
theorem resets_lose_nothing {b : Build} (rb : Rb) (ops : List MonitorOp) :
    ((monitored b).run { rb } ops).map Monitored.total =
      (ring b).run rb (ops.filterMap MonitorOp.call?) := by
  have hsame : rb.plus {} = rb := by
    rw [Rb.plus, Stats.zero_plus]
  have hrun := monitored_run (b := b) { rb } ops
  rwa [hsame] at hrun

end RingBuff
