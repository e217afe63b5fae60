import RingBuff.Backpressure.Sequential
import RingBuff.Threads.Solo
import RingBuff.Threads.Tuning

/-! # When the low-water callbacks tell the truth

`rb_release` decides about `on_low_d` and `on_low_e` from the head it has cached,
not from the occupancy. The cached head is never ahead of the real one, so the
ring was indeed at or above the threshold; but messages published since the
consumer last looked may keep it there. The callback is true exactly if the
cached head is up to date when the cached occupancy crosses the threshold.

Nothing here looks at memory: it holds for every layout `rb_init` accepts.
-/

namespace RingBuff

/-- The release is not refused. -/
def Rb.Releases (rb : Rb) (slotIndex : UInt32) : Prop :=
  rb.geo.scratchSize ≠ 0 ∧ rb.consumerActive ≠ 0 ∧ slotIndex = rb.consumerSlot

/-- If the callback runs in this release, the occupancy crosses the threshold. -/
def Genuine (rb : Rb) (answer : Output × Rb) (event : Event) (percent : UInt32) : Prop :=
  event ∈ answer.1.2 →
    rb.limit.toNat * percent.toNat ≤ (rbCount rb).toNat * 100 ∧
      (rbCount answer.2).toNat * 100 < rb.limit.toNat * percent.toNat

instance (rb : Rb) (answer : Output × Rb) (event : Event) (percent : UInt32) :
    Decidable (Genuine rb answer event percent) :=
  inferInstanceAs (Decidable (_ → _))

/-- The release crosses the threshold as far as the consumer knows, but there are
messages it does not know of. -/
def CrossesUnseen (rb : Rb) (slotIndex : UInt32) (installed : Bool) (percent : UInt32) : Prop :=
  rb.Releases slotIndex ∧ installed = true ∧
    (rb.cachedHead - rb.tail).toNat = threshold rb.limit.toNat percent.toNat ∧
    rb.cachedHead ≠ rb.head

theorem lt_threshold_iff {count limit percent : Nat} :
    count < threshold limit percent ↔ count * 100 < limit * percent := by
  unfold threshold
  omega

theorem mem_fire {installed : Bool} {event event' : Event} :
    event ∈ fire installed event' ↔ installed = true ∧ event = event' := by
  cases installed <;> simp [fire]

/-- The consumer sees the occupancy fall below the threshold in this release. -/
def Rb.crosses (rb : Rb) (percent : UInt32) : Bool :=
  let newCount := rb.cachedHead - (rb.tail + 1)
  !belowLow (newCount + 1) rb.limit percent && belowLow newCount rb.limit percent

theorem mem_crossLowD {rb : Rb} {old new : UInt32} {event : Event} :
    event ∈ (rb.crossLowD old new).1 ↔
      (rb.cb.onLowD = true ∧ event = .lowD) ∧
        (!belowLow old rb.limit rb.lowD && belowLow new rb.limit rb.lowD) = true := by
  unfold Rb.crossLowD
  dsimp only
  split_ifs with hdown hup
  · simp [mem_fire, hdown]
  · simp [hdown]
  · simp [hdown]

theorem mem_crossLowE {rb : Rb} {old new : UInt32} {event : Event} :
    event ∈ (rb.crossLowE old new).1 ↔
      (rb.cb.onLowE = true ∧ event = .lowE) ∧
        (!belowLow old rb.limit rb.lowE && belowLow new rb.limit rb.lowE) = true := by
  unfold Rb.crossLowE
  dsimp only
  split_ifs with hdown hup
  · simp [mem_fire, hdown]
  · simp [hdown]
  · simp [hdown]

/-- The `low_d` part leaves what the `low_e` part looks at. -/
theorem crossLowD_keeps (rb : Rb) (old new : UInt32) :
    (rb.crossLowD old new).2.cb = rb.cb ∧ (rb.crossLowD old new).2.limit = rb.limit ∧
      (rb.crossLowD old new).2.lowE = rb.lowE := by
  unfold Rb.crossLowD
  dsimp only
  split_ifs <;> exact ⟨rfl, rfl, rfl⟩

/-- A callback of `rb_release` runs if its threshold is crossed. -/
theorem mem_rbRelease {b : Build} {rb : Rb} {slotIndex : UInt32} {event : Event} :
    event ∈ (rbRelease b rb slotIndex).1.2 ↔ rb.Releases slotIndex ∧
      ((rb.cb.onLowD = true ∧ event = .lowD) ∧ rb.crosses rb.lowD = true ∨
        (rb.cb.onLowE = true ∧ event = .lowE) ∧ rb.crosses rb.lowE = true) := by
  unfold rbRelease Rb.Releases
  split_ifs with hinit hwrong
  · simp [hinit]
  · simp only [List.not_mem_nil, false_iff, not_and]
    rintro ⟨-, hactive, rfl⟩
    exact absurd hwrong (by simp [hactive])
  · obtain ⟨hactive, hslot⟩ := not_or.mp hwrong
    obtain ⟨hcb, hlimit, hlow⟩ := crossLowD_keeps { rb with
      store := rb.store.recycle b rb.geo slotIndex rb.tail
      tail := rb.tail + 1, consumerActive := 0, stats.consumed := rb.stats.consumed + 1 }
      (rb.cachedHead - (rb.tail + 1) + 1) (rb.cachedHead - (rb.tail + 1))
    dsimp only
    rw [List.mem_append, mem_crossLowD, mem_crossLowE, hcb, hlimit, hlow]
    simp only [hinit, hactive, not_not.mp hslot, ne_eq, not_false_eq_true, and_self, true_and]
    rfl

/-- A release that is not refused takes one message. -/
theorem rbCount_rbRelease {b : Build} {rb : Rb} {slotIndex : UInt32}
    (hreleases : rb.Releases slotIndex) :
    rbCount (rbRelease b rb slotIndex).2 = rb.head - (rb.tail + 1) := by
  obtain ⟨hinit, hactive, rfl⟩ := hreleases
  unfold rbRelease Rb.crossLowD Rb.crossLowE
  dsimp only
  rw [if_neg hinit, if_neg (by simp [hactive])]
  split_ifs <;> exact if_neg hinit

/-! ## The counters between calls -/

namespace Threads

variable {b : Build} {s s' : Sys}

theorem Counted.reaches (hok : Counted s) (hreach : (machine b).Reaches s s') : Counted s' :=
  reaches_invariant hreach Counted hok step_counted

/-- The calls that leave `limit` as it is. -/
def keepsLimit : Call → Bool
  | .setLimit _ => false
  | _ => true

/-- A query changes nothing, and a setter only what it sets. -/
theorem rbCall_retuned {rb rb' : Rb} {c : Call} {output : Output}
    (hthreaded : ¬ c.threaded = true) (hkeeps : keepsLimit c = true)
    (hcall : rbCall b rb c = some (output, rb')) : Retuned rb rb' := by
  cases c with
  | acquire | write | publish | publishEx | abort | consume | read | release =>
      exact absurd rfl hthreaded
  | setLimit limit => cases hkeeps
  | count | isFull | isEmpty =>
      obtain ⟨-, rfl⟩ := Prod.mk.inj (Option.some.inj hcall)
      exact .refl rb
  | setLowD percent =>
      obtain ⟨-, rfl⟩ := Prod.mk.inj (Option.some.inj hcall)
      dsimp only [rbSetLowD]
      split_ifs
      · exact ⟨_, _, _, _, _, _, rfl⟩
      · exact .refl rb
  | setLowE percent =>
      obtain ⟨-, rfl⟩ := Prod.mk.inj (Option.some.inj hcall)
      dsimp only [rbSetLowE]
      split_ifs
      · exact ⟨_, _, _, _, _, _, rfl⟩
      · exact .refl rb
  | setOversizePolicy policy =>
      obtain ⟨-, rfl⟩ := Prod.mk.inj (Option.some.inj hcall)
      unfold rbSetOversizePolicy
      split_ifs
      · exact .refl rb
      · cases policy with
        | other raw => exact .refl rb
        | truncate | drop => exact ⟨_, _, _, _, _, _, rfl⟩
  | setCallbacks cb =>
      obtain ⟨-, rfl⟩ := Prod.mk.inj (Option.some.inj hcall)
      cases cb with
      | none => exact .refl rb
      | some cb =>
          dsimp only [rbSetCallbacks]
          split_ifs
          · exact .refl rb
          · exact ⟨_, _, _, _, _, _, rfl⟩
  | setProducerStack bytes =>
      obtain ⟨-, rfl⟩ := Prod.mk.inj (Option.some.inj hcall)
      unfold rbSetProducerStack
      split_ifs <;> exact ⟨_, _, _, _, _, _, rfl⟩
  | setConsumerStack bytes =>
      obtain ⟨-, rfl⟩ := Prod.mk.inj (Option.some.inj hcall)
      unfold rbSetConsumerStack
      split_ifs <;> exact ⟨_, _, _, _, _, _, rfl⟩

/-- After whole calls, `rb_set_limit` apart, the counters are in order. -/
theorem run_counted {addr scratch scratchSize : BitVec b.sizeBits} {cfg : Config}
    {before : Store} {rb rb' : Rb} (hacc : Accepted b addr cfg scratch scratchSize before rb)
    {calls : List Call} {outputs : List Output} (hcalls : ∀ c ∈ calls, keepsLimit c = true)
    (hrun : (ring b).run rb calls = some (outputs, rb')) :
    ∃ s, Rests s ∧ Counted s ∧ s.rb = rb' := by
  refine (ring b).run_invariant (fun _ state => ∃ s, Rests s ∧ Counted s ∧ s.rb = state)
    hrun ?_ [] ⟨start rb, ⟨rfl, rfl⟩, start_counted hacc, rfl⟩
  rintro seen state c output next hmem ⟨s, hrests, hok, rfl⟩ hstep
  by_cases hthreaded : c.threaded = true
  · obtain ⟨s', hreach, hrests', hrb, -⟩ := call_returns hrests hthreaded hstep
    exact ⟨s', hrests', hok.reaches hreach, hrb⟩
  · have hretuned := rbCall_retuned hthreaded (hcalls c hmem) hstep
    exact ⟨{ s with rb := next }, ⟨hrests.producer, hrests.consumer⟩, hok.retune hretuned, rfl⟩

/-- The consumer sees a crossing when what it knows of is just the threshold. -/
theorem Counted.crosses_iff (hok : Counted s) (hactive : s.rb.consumerActive ≠ 0)
    (percent : UInt32) : s.rb.crosses percent = true ↔
      (s.rb.cachedHead - s.rb.tail).toNat = threshold s.rb.limit.toNat percent.toNat := by
  have hlt := hok.consumer.active hactive
  have hroom := hok.published_le
  have hlimit := hok.sized.limit_le
  have hknown := hok.consumer.knownHead_le
  have hcached : (s.rb.cachedHead - s.rb.tail).toNat = s.c.knownHead - s.c.released := by
    rw [hok.consumer.cachedHead, hok.consumer.tail, Counter.toNat_sub hlt.le (by omega)]
  have hnew : s.rb.cachedHead - (s.rb.tail + 1) =
      UInt32.ofNat (s.c.knownHead - (s.c.released + 1)) := by
    rw [hok.consumer.cachedHead, hok.consumer.tail, ← Counter.ofNat_succ, UInt32.ofNat_sub hlt]
  rw [Rb.crosses, hcached]
  simp only [hnew, ← Counter.ofNat_succ, Bool.and_eq_true, Bool.not_eq_true', ← Bool.not_eq_true]
  rw [belowLow_ofNat (by omega), belowLow_ofNat (by omega), below_iff, below_iff]
  omega

theorem Counted.count_toNat (hok : Counted s) (hinit : s.rb.geo.scratchSize ≠ 0) :
    (rbCount s.rb).toNat = s.p.published - s.c.released := by
  rw [rbCount, if_neg hinit, hok.count_eq]

/-- A release from a state with the counters in order. -/
theorem Counted.genuine_iff (hok : Counted s) {slotIndex : UInt32} {event : Event}
    {installed : Bool} {percent : UInt32}
    (hfires : event ∈ (rbRelease b s.rb slotIndex).1.2 ↔
      s.rb.Releases slotIndex ∧ installed = true ∧ s.rb.crosses percent = true) :
    Genuine s.rb (rbRelease b s.rb slotIndex) event percent ↔
      ¬ CrossesUnseen s.rb slotIndex installed percent := by
  have hroom := hok.published_le
  have hlimit := hok.sized.limit_le
  have hknown := hok.consumer.knownHead_le
  have hreleased := hok.consumer.released_le
  -- what the release does, if it is not refused
  have hrelease : s.rb.Releases slotIndex → s.c.released < s.c.knownHead ∧
      (s.rb.cachedHead - s.rb.tail).toNat = s.c.knownHead - s.c.released ∧
      (rbCount (rbRelease b s.rb slotIndex).2).toNat = s.p.published - (s.c.released + 1) := by
    intro hreleases
    have hlt := hok.consumer.active hreleases.2.1
    refine ⟨hlt, ?_, ?_⟩
    · rw [hok.consumer.cachedHead, hok.consumer.tail, Counter.toNat_sub hlt.le (by omega)]
    · rw [rbCount_rbRelease hreleases, hok.producer.head, hok.consumer.tail,
        ← Counter.ofNat_succ, Counter.toNat_sub (by omega) (by omega)]
  have hseen : s.rb.cachedHead = s.rb.head ↔ s.c.knownHead = s.p.published := by
    rw [hok.consumer.cachedHead, hok.producer.head, Counter.ofNat_inj hknown (by omega)]
  constructor
  · rintro hgenuine ⟨hreleases, hon, hlevel, hne⟩
    obtain ⟨hlt, hcached, hafter⟩ := hrelease hreleases
    have hcross := (hok.crosses_iff hreleases.2.1 percent).mpr hlevel
    obtain ⟨-, hbelow⟩ := hgenuine (hfires.mpr ⟨hreleases, hon, hcross⟩)
    rw [← lt_threshold_iff, hafter, ← hlevel, hcached] at hbelow
    exact hne (hseen.mpr (by omega))
  · intro hall hmem
    obtain ⟨hreleases, hon, hcross⟩ := hfires.mp hmem
    obtain ⟨hlt, hcached, hafter⟩ := hrelease hreleases
    have hlevel := (hok.crosses_iff hreleases.2.1 percent).mp hcross
    have heq : s.c.knownHead = s.p.published := by
      by_contra hne
      exact hall ⟨hreleases, hon, hlevel, fun hsame => hne (hseen.mp hsame)⟩
    rw [← Nat.not_lt, ← lt_threshold_iff, ← lt_threshold_iff, hafter,
      hok.count_toNat hreleases.1, ← hlevel, hcached]
    omega

/-- After any run of whole calls that leave `limit` alone, a release runs `on_low_d`
and `on_low_e` only at true crossings, unless it crosses with messages unseen; and
then it does run the callback although the ring is not below the threshold. -/
theorem lowWater_genuine_iff {addr scratch scratchSize : BitVec b.sizeBits}
    {cfg : Option Config} {before : Store} {rb rb' : Rb}
    (hinit : rbInit b addr cfg scratch scratchSize before = .ok rb)
    {calls : List Call} {outputs : List Output} (hcalls : ∀ c ∈ calls, keepsLimit c = true)
    (hrun : (ring b).run rb calls = some (outputs, rb')) (slotIndex : UInt32) :
    (Genuine rb' (rbRelease b rb' slotIndex) .lowD rb'.lowD ↔
        ¬ CrossesUnseen rb' slotIndex rb'.cb.onLowD rb'.lowD) ∧
      (Genuine rb' (rbRelease b rb' slotIndex) .lowE rb'.lowE ↔
        ¬ CrossesUnseen rb' slotIndex rb'.cb.onLowE rb'.lowE) := by
  obtain ⟨cfg', -, hacc⟩ := rbInit_accepted hinit
  obtain ⟨s, -, hok, rfl⟩ := run_counted hacc hcalls hrun
  refine ⟨hok.genuine_iff ?_, hok.genuine_iff ?_⟩
  · simp [mem_rbRelease]
  · simp [mem_rbRelease]

/-- Two messages of four, seen by the consumer: the release of the first brings the
ring below half, and `on_low_d` says so. -/
theorem fourSlotRing_genuine_lowD : ∃ outputs rb',
    (ring { mode := .index }).run (fourSlotRing 50) (fillBehind.take 5) = some (outputs, rb') ∧
      (rbRelease { mode := .index } rb' 0).1.2 = [.lowD] ∧
      Genuine rb' (rbRelease { mode := .index } rb' 0) .lowD rb'.lowD := by
  have hinit : rbInit { mode := .index } 64#64 (some (fourSlots 50)) 4096#64 256#64 blank =
      .ok (fourSlotRing 50) := rfl
  have hend : ((ring { mode := .index }).run (fourSlotRing 50) (fillBehind.take 5)).map
      (fun r => ((rbRelease { mode := .index } r.2 0).1.2, r.2.cachedHead, r.2.head)) =
        some ([.lowD], 2, 2) := by decide
  obtain ⟨⟨outputs, rb'⟩, hrun, heq⟩ := Option.map_eq_some_iff.mp hend
  simp only [Prod.mk.injEq] at heq
  obtain ⟨hfires, hcached, hhead⟩ := heq
  refine ⟨outputs, rb', hrun, hfires,
    (lowWater_genuine_iff hinit (by decide) hrun 0).1.mpr fun hunseen => ?_⟩
  exact hunseen.2.2.2 (hcached.trans hhead.symm)

/-- Two more messages fill the ring before that release: `on_low_d` runs although
three messages of four are left. -/
theorem fourSlotRing_spurious_lowD :
    rbInit { mode := .index } 64#64 (some (fourSlots 50)) 4096#64 256#64 blank =
        .ok (fourSlotRing 50) ∧
      (∀ c ∈ fillBehind.take 9, keepsLimit c = true) ∧
      ((ring { mode := .index }).run (fourSlotRing 50) (fillBehind.take 9)).map
        (fun r => ((rbCount r.2, (rbRelease { mode := .index } r.2 0).1.2,
            rbCount (rbRelease { mode := .index } r.2 0).2),
          decide (Genuine r.2 (rbRelease { mode := .index } r.2 0) .lowD r.2.lowD))) =
        some ((4, [.lowD], 3), false) :=
  ⟨rfl, by decide, by decide⟩

end Threads

end RingBuff
