import RingBuff.Core.Footprint

/-! # Two rings that differ in little

A ring with another `cached_tail`, another reservation, another count of full
attempts and other bytes in its scratchpad. Every call is followed on both rings at
once: what it returns, and how the two differ afterwards.
-/

namespace RingBuff

/-- The parts in which the two rings differ. -/
structure Parts where
  cachedTail : UInt32
  pendingSlot : UInt32
  pendingWanted : UInt32
  fullAttempts : UInt64
  scratch : Memory

abbrev Store.withScratch (st : Store) (scratch : Memory) : Store := { st with scratch }

/-- The ring with other parts. -/
abbrev Rb.vary (rb : Rb) (d : Parts) : Rb :=
  { rb with
    cachedTail := d.cachedTail
    pendingSlot := d.pendingSlot
    pendingWanted := d.pendingWanted
    stats := { rb.stats with fullAttempts := d.fullAttempts }
    store := rb.store.withScratch d.scratch }

def Rb.parts (rb : Rb) : Parts :=
  ⟨rb.cachedTail, rb.pendingSlot, rb.pendingWanted, rb.stats.fullAttempts, rb.store.scratch⟩

theorem Rb.vary_parts (rb : Rb) : rb.vary rb.parts = rb := rfl

/-- Two memories are changed alike: a byte is left alone in both, or becomes the same in
both. -/
def Memory.Alike (before after before' after' : Memory) : Prop :=
  ∀ a, (after a = before a ∧ after' a = before' a) ∨ after a = after' a

namespace Memory.Alike

variable {before after before' after' : Memory}

theorem refl (before before' : Memory) : Alike before before before' before' :=
  fun _ => Or.inl ⟨rfl, rfl⟩

theorem store32 (before before' : Memory) (addr : Nat) (word : UInt32) :
    Alike before (before.store32 addr word) before' (before'.store32 addr word) := by
  intro a
  unfold Memory.store32
  split_ifs
  · exact Or.inr rfl
  · exact Or.inl ⟨rfl, rfl⟩

theorem store8 (before before' : Memory) (addr : Nat) (byte : UInt8) :
    Alike before (before.store8 addr byte) before' (before'.store8 addr byte) := by
  intro a
  rcases eq_or_ne a addr with rfl | hne
  · exact Or.inr (by rw [store8_same, store8_same])
  · exact Or.inl ⟨store8_of_ne _ _ hne, store8_of_ne _ _ hne⟩

theorem trans {middle middle' : Memory} (hfirst : Alike before middle before' middle')
    (hsecond : Alike middle after middle' after') : Alike before after before' after' := by
  intro a
  rcases hsecond a with ⟨hsame, hsame'⟩ | heq
  · rcases hfirst a with ⟨hleft, hleft'⟩ | heq
    · exact Or.inl ⟨hsame.trans hleft, hsame'.trans hleft'⟩
    · exact Or.inr (hsame.trans (heq.trans hsame'.symm))
  · exact Or.inr heq

/-- Where the memories agreed, they still agree. -/
theorem eqOn (halike : Alike before after before' after') {s : Set Nat}
    (heq : Set.EqOn before before' s) : Set.EqOn after after' s := by
  intro a ha
  rcases halike a with ⟨hsame, hsame'⟩ | hnew
  · rw [hsame, hsame', heq ha]
  · exact hnew

end Memory.Alike

namespace Store

variable (b : Build) (geo : Geometry) (st : Store) (mem : Memory)

theorem setHeader_withScratch (i word : UInt32) : ∃ mem',
    (st.withScratch mem).setHeader b geo i word = (st.setHeader b geo i word).withScratch mem' ∧
      Memory.Alike st.scratch (st.setHeader b geo i word).scratch mem mem' :=
  ⟨_, rfl, .store32 _ _ _ _⟩

theorem enter_withScratch (i head : UInt32) : ∃ mem',
    (st.withScratch mem).enter b geo i head = (st.enter b geo i head).withScratch mem' ∧
      Memory.Alike st.scratch (st.enter b geo i head).scratch mem mem' := by
  unfold enter
  split
  · exact ⟨_, rfl, .refl _ _⟩
  · exact ⟨_, rfl, .refl _ _⟩
  · exact ⟨_, rfl, .store32 _ _ _ _⟩

theorem recycle_withScratch (i tail : UInt32) : ∃ mem',
    (st.withScratch mem).recycle b geo i tail = (st.recycle b geo i tail).withScratch mem' ∧
      Memory.Alike st.scratch (st.recycle b geo i tail).scratch mem mem' := by
  unfold recycle
  split
  · exact ⟨_, rfl, .refl _ _⟩
  · exact ⟨_, rfl, .refl _ _⟩
  · exact ⟨_, rfl, .store32 _ _ _ _⟩

end Store

/-- The consumer reads the same headers and stamps in both rings. -/
structure Rb.ReadsAlike (b : Build) (rb : Rb) (d : Parts) : Prop where
  header : ∀ i : UInt32, ¬ rb.geo.slots ≤ i →
    (rb.vary d).store.header b rb.geo i = rb.store.header b rb.geo i
  stamp : ∀ i : UInt32, ¬ rb.geo.slots ≤ i →
    (rb.vary d).store.stamp b rb.geo i = rb.store.stamp b rb.geo i

namespace Rb

variable {b : Build} {rb : Rb} {d : Parts}

/-! ## The consumer and the setters -/

theorem ReadsAlike.refreshed (hreads : rb.ReadsAlike b d) :
    Rb.ReadsAlike b { rb with cachedHead := rb.head } d :=
  ⟨hreads.header, hreads.stamp⟩

theorem latch_vary (hreads : rb.ReadsAlike b d) {i : UInt32} (hi : ¬ rb.geo.slots ≤ i) :
    (rb.vary d).latch b i = ((rb.latch b i).1, (rb.latch b i).2.vary d) := by
  unfold latch
  dsimp only
  rw [hreads.header i hi]

theorem takeFront_vary (hreads : rb.ReadsAlike b d) (tail : UInt32) :
    (rb.vary d).takeFront b tail = (rb.takeFront b tail).map fun a => (a.1, a.2.vary d) := by
  have hfront : (rb.vary d).store.frontSlot b rb.geo tail = rb.store.frontSlot b rb.geo tail := rfl
  unfold takeFront
  rw [hfront]
  cases hslot : rb.store.frontSlot b rb.geo tail with
  | none => rfl
  | some found =>
      cases found with
      | error err => rfl
      | ok i =>
          have hi := frontSlot_lt hslot
          have hstale : (rb.vary d).store.stale b rb.geo tail i =
              rb.store.stale b rb.geo tail i := by
            rw [Store.stale, Store.stale, hreads.stamp i hi]
          have hlatch := latch_vary hreads hi
          have hrefreshed := latch_vary hreads.refreshed hi
          dsimp only
          rw [hstale]
          split_ifs
          · rfl
          · exact congrArg some hrefreshed
          · exact congrArg some hlatch

theorem rbConsume_vary (hreads : rb.ReadsAlike b d) :
    rbConsume b (rb.vary d) = (rbConsume b rb).map fun a => (a.1, a.2.vary d) := by
  have hfront := takeFront_vary hreads rb.tail
  have hrefreshed := takeFront_vary hreads.refreshed rb.tail
  unfold rbConsume
  dsimp only
  split_ifs
  · rfl
  · rfl
  · rfl
  · exact hrefreshed
  · exact hfront

theorem crossLowD_vary (oldCount newCount : UInt32) :
    (rb.vary d).crossLowD oldCount newCount =
      ((rb.crossLowD oldCount newCount).1, (rb.crossLowD oldCount newCount).2.vary d) := by
  unfold crossLowD
  dsimp only
  split_ifs <;> rfl

theorem crossLowE_vary (oldCount newCount : UInt32) :
    (rb.vary d).crossLowE oldCount newCount =
      ((rb.crossLowE oldCount newCount).1, (rb.crossLowE oldCount newCount).2.vary d) := by
  unfold crossLowE
  dsimp only
  split_ifs <;> rfl

theorem cross_vary (rb : Rb) (d : Parts) (oldCount newCount : UInt32) :
    let lowD := rb.crossLowD oldCount newCount
    let lowD' := (rb.vary d).crossLowD oldCount newCount
    let lowE := lowD.2.crossLowE oldCount newCount
    let lowE' := lowD'.2.crossLowE oldCount newCount
    lowD'.1 ++ lowE'.1 = lowD.1 ++ lowE.1 ∧ lowE'.2 = lowE.2.vary d := by
  intro lowD lowD' lowE lowE'
  have hD : lowD' = (lowD.1, lowD.2.vary d) := crossLowD_vary oldCount newCount
  have hE : lowE' = (lowE.1, lowE.2.vary d) := by
    simp only [lowE', hD]
    exact crossLowE_vary oldCount newCount
  rw [hE, hD]
  exact ⟨rfl, rfl⟩

theorem cross_store (oldCount newCount : UInt32) :
    ((rb.crossLowD oldCount newCount).2.crossLowE oldCount newCount).2.store = rb.store := by
  unfold crossLowD crossLowE
  dsimp only
  split_ifs <;> rfl

theorem rbRelease_vary (b : Build) (rb : Rb) (d : Parts) (i : UInt32) : ∃ scratch,
    rbRelease b (rb.vary d) i =
        ((rbRelease b rb i).1, (rbRelease b rb i).2.vary { d with scratch }) ∧
      Memory.Alike rb.store.scratch (rbRelease b rb i).2.store.scratch d.scratch scratch := by
  obtain ⟨scratch, hstore, halike⟩ :=
    Store.recycle_withScratch b rb.geo rb.store d.scratch i rb.tail
  unfold rbRelease
  dsimp only
  split_ifs
  · exact ⟨_, rfl, .refl _ _⟩
  · exact ⟨_, rfl, .refl _ _⟩
  · rw [hstore, cross_store]
    obtain ⟨hevents, hnext⟩ := cross_vary
      { rb with
        store := rb.store.recycle b rb.geo i rb.tail
        tail := rb.tail + 1, consumerActive := 0, stats.consumed := rb.stats.consumed + 1 }
      { d with scratch } (rb.cachedHead - (rb.tail + 1) + 1) (rb.cachedHead - (rb.tail + 1))
    exact ⟨scratch, Prod.ext (Prod.ext rfl hevents) hnext, halike⟩

theorem rbSetLimit_vary (limit : UInt32) :
    rbSetLimit (rb.vary d) limit = ((rbSetLimit rb limit).1, (rbSetLimit rb limit).2.vary d) := by
  unfold rbSetLimit rbCount
  dsimp only
  split_ifs <;> rfl

theorem rbSetLowD_vary (percent : UInt32) :
    rbSetLowD (rb.vary d) percent =
      ((rbSetLowD rb percent).1, (rbSetLowD rb percent).2.vary d) := by
  unfold rbSetLowD percentCheck
  dsimp only
  split_ifs <;> rfl

theorem rbSetLowE_vary (percent : UInt32) :
    rbSetLowE (rb.vary d) percent =
      ((rbSetLowE rb percent).1, (rbSetLowE rb percent).2.vary d) := by
  unfold rbSetLowE percentCheck
  dsimp only
  split_ifs <;> rfl

theorem rbSetOversizePolicy_vary (policy : OversizePolicy) :
    rbSetOversizePolicy (rb.vary d) policy =
      ((rbSetOversizePolicy rb policy).1, (rbSetOversizePolicy rb policy).2.vary d) := by
  unfold rbSetOversizePolicy
  dsimp only
  split_ifs
  · rfl
  · cases policy <;> rfl

theorem rbSetCallbacks_vary (cb : Option Callbacks) :
    rbSetCallbacks (rb.vary d) cb =
      ((rbSetCallbacks rb cb).1, (rbSetCallbacks rb cb).2.vary d) := by
  cases cb with
  | none => rfl
  | some cb =>
      unfold rbSetCallbacks
      dsimp only
      split_ifs <;> rfl

theorem rbSetProducerStack_vary (bytes : Nat) :
    rbSetProducerStack b (rb.vary d) bytes =
      ((rbSetProducerStack b rb bytes).1, (rbSetProducerStack b rb bytes).2.vary d) := by
  unfold rbSetProducerStack
  by_cases hinit : rb.geo.scratchSize = 0
  · simp only [if_pos hinit]
  · simp only [if_neg hinit]

theorem rbSetConsumerStack_vary (bytes : Nat) :
    rbSetConsumerStack b (rb.vary d) bytes =
      ((rbSetConsumerStack b rb bytes).1, (rbSetConsumerStack b rb bytes).2.vary d) := by
  unfold rbSetConsumerStack
  by_cases hinit : rb.geo.scratchSize = 0
  · simp only [if_pos hinit]
  · simp only [if_neg hinit]

/-! ## The producer -/

/-- The two rings hold the same reservation. -/
structure SamePending (rb : Rb) (d : Parts) : Prop where
  slot : d.pendingSlot = rb.pendingSlot
  wanted : d.pendingWanted = rb.pendingWanted

/-- The cached counter of the producer can only make the ring look fuller than it is. -/
def CacheLags (rb : Rb) : Prop := rb.limit ≤ rb.head - rb.tail → rb.limit ≤ rb.head - rb.cachedTail

/-- The two rings give the same answer to a call of the producer, and hold the same
reservation afterwards. -/
def Alongside {α : Type} (rb : Rb) (d : Parts) (answer answer' : α × Rb) : Prop :=
  ∃ d', answer' = (answer.1, answer.2.vary d') ∧ answer.2.SamePending d' ∧
    Memory.Alike rb.store.scratch answer.2.store.scratch d.scratch d'.scratch

theorem reserve_vary (hsame : rb.SamePending d) (wantedLen head : UInt32) :
    rb.Alongside d (reserve b rb wantedLen head) (reserve b (rb.vary d) wantedLen head) := by
  unfold reserve
  dsimp only
  split_ifs
  · exact ⟨d, rfl, hsame, .refl _ _⟩
  · exact ⟨⟨_, _, _, _, _⟩, rfl, ⟨rfl, rfl⟩, .refl _ _⟩

/-- Whether there is room is decided by the real counters, so the cached one does not
show in what `rb_acquire` returns. -/
theorem rbAcquire_eq (hlags : rb.CacheLags) (wantedLen : UInt32) : ∃ cachedTail,
    rbAcquire b rb wantedLen =
      if rb.geo.scratchSize = 0 then (.code .notInit, rb)
      else if rb.pendingSlot ≠ noPending then (.code .inval, rb)
      else if rb.limit ≤ rb.head - rb.tail then
        (.code .full, { rb with cachedTail, stats.fullAttempts := rb.stats.fullAttempts + 1 })
      else reserve b { rb with cachedTail } wantedLen rb.head := by
  unfold CacheLags at hlags
  by_cases hslow : rb.limit ≤ rb.head - rb.cachedTail
  · refine ⟨rb.tail, ?_⟩
    rw [rbAcquire, if_pos hslow]
  · have hroom : ¬ rb.limit ≤ rb.head - rb.tail := fun hfull => hslow (hlags hfull)
    refine ⟨rb.cachedTail, ?_⟩
    rw [rbAcquire, if_neg hslow, if_neg hroom]

theorem rbAcquire_vary (hsame : rb.SamePending d) (hlags : rb.CacheLags)
    (hlags' : (rb.vary d).CacheLags) (wantedLen : UInt32) :
    rb.Alongside d (rbAcquire b rb wantedLen) (rbAcquire b (rb.vary d) wantedLen) := by
  obtain ⟨cachedTail, heq⟩ := rbAcquire_eq (b := b) hlags wantedLen
  obtain ⟨cachedTail', heq'⟩ := rbAcquire_eq (b := b) hlags' wantedLen
  have hrefreshed : Rb.SamePending { rb with cachedTail } { d with cachedTail := cachedTail' } :=
    ⟨hsame.slot, hsame.wanted⟩
  have hreserve := reserve_vary (b := b) hrefreshed wantedLen rb.head
  have hpending : (rb.vary d).pendingSlot = noPending ↔ rb.pendingSlot = noPending := by
    rw [← hsame.slot]
  simp only [heq, heq', ne_eq, hpending]
  split_ifs
  · exact ⟨d, rfl, hsame, .refl _ _⟩
  · exact ⟨{ d with cachedTail := cachedTail', fullAttempts := d.fullAttempts + 1 }, rfl,
      ⟨hsame.slot, hsame.wanted⟩, .refl _ _⟩
  · exact hreserve
  · exact ⟨d, rfl, hsame, .refl _ _⟩

theorem payloadWrite_vary (hsame : rb.SamePending d) (offset : Nat) (byte : UInt8) :
    rb.Alongside d (payloadWrite b rb offset byte) (payloadWrite b (rb.vary d) offset byte) := by
  have hpending : (rb.vary d).pendingSlot = rb.pendingSlot := hsame.slot
  unfold payloadWrite
  rw [hpending]
  split_ifs
  · exact ⟨⟨_, _, d.pendingWanted, _, _⟩, rfl, ⟨rfl, hsame.wanted⟩, .store8 _ _ _ _⟩
  · exact ⟨d, rfl, hsame, .refl _ _⟩

theorem handOver_vary (i len : UInt32) (truncated : Bool) :
    rb.Alongside d (rb.handOver b i len truncated) ((rb.vary d).handOver b i len truncated) := by
  obtain ⟨mem, hheader, halike⟩ := Store.setHeader_withScratch b rb.geo rb.store d.scratch i
    (encodeHeader len truncated)
  obtain ⟨mem', henter, halike'⟩ := Store.enter_withScratch b rb.geo
    (rb.store.setHeader b rb.geo i (encodeHeader len truncated)) mem i rb.head
  unfold handOver afterPublish
  dsimp only
  rw [hheader, henter]
  by_cases hfull : rb.limit ≤ rb.head + 1 - rb.tail ∧ rb.fullLatch = 0
  · simp only [if_pos hfull]
    exact ⟨⟨_, _, _, _, _⟩, rfl, ⟨rfl, rfl⟩, halike.trans halike'⟩
  · simp only [if_neg hfull]
    exact ⟨⟨_, _, _, _, _⟩, rfl, ⟨rfl, rfl⟩, halike.trans halike'⟩

theorem rbPublishEx_vary (hsame : rb.SamePending d) (i writtenLen : UInt32) (truncated : Bool) :
    rb.Alongside d (rbPublishEx b rb i writtenLen truncated)
      (rbPublishEx b (rb.vary d) i writtenLen truncated) := by
  have hslot : (rb.vary d).pendingSlot = rb.pendingSlot := hsame.slot
  have hwanted : (rb.vary d).pendingWanted = rb.pendingWanted := hsame.wanted
  unfold rbPublishEx
  rw [hslot, hwanted]
  split_ifs
  · exact ⟨d, rfl, hsame, .refl _ _⟩
  · exact ⟨d, rfl, hsame, .refl _ _⟩
  · exact handOver_vary i _ _

theorem rbAbort_vary (hsame : rb.SamePending d) :
    rb.Alongside d (rbAbort rb) (rbAbort (rb.vary d)) := by
  have hpending : (rb.vary d).pendingSlot = rb.pendingSlot := hsame.slot
  unfold rbAbort
  rw [hpending]
  split_ifs
  · exact ⟨d, rfl, hsame, .refl _ _⟩
  · exact ⟨d, rfl, hsame, .refl _ _⟩
  · exact ⟨⟨_, _, _, _, _⟩, rfl, ⟨rfl, rfl⟩, .refl _ _⟩

end Rb

/-! ## Every call -/

/-- The calls that look at the reservation. -/
def Call.produces : Call → Bool
  | .acquire _ | .write _ _ | .publish _ _ | .publishEx _ _ _ | .abort => true
  | .consume | .read _ | .release _ | .count | .isFull | .isEmpty | .setLimit _ | .setLowD _
  | .setLowE _ | .setOversizePolicy _ | .setCallbacks _ | .setProducerStack _
  | .setConsumerStack _ => false

/-- What a call does to the two rings: the same, except that the consumer may read
another byte. -/
structure InParallel (b : Build) (c : Call) (rb : Rb) (d : Parts) (output : Output) (next : Rb)
    (output' : Output) (d' : Parts) : Prop where
  step : rbCall b (rb.vary d) c = some (output', next.vary d')
  output : (∀ offset, c ≠ .read offset) → output' = output
  memory : Memory.Alike rb.store.scratch next.store.scratch d.scratch d'.scratch
  pending : rb.SamePending d → next.SamePending d'
  kept : c.produces = false → d'.pendingSlot = d.pendingSlot ∧ d'.pendingWanted = d.pendingWanted

namespace InParallel

variable {b : Build} {c : Call} {rb next : Rb} {d : Parts} {output : Output}

theorem of_alongside {answer answer' : Output × Rb} (hproduces : c.produces = true)
    (hanswer : rbCall b rb c = some answer) (hstep : rbCall b (rb.vary d) c = some answer')
    (halong : rb.Alongside d answer answer') (hcall : rbCall b rb c = some (output, next)) :
    ∃ output' d', InParallel b c rb d output next output' d' := by
  obtain rfl := Option.some.inj (hanswer.symm.trans hcall)
  obtain ⟨d', rfl, hpending, hmemory⟩ := halong
  exact ⟨output, d', hstep, fun _ => rfl, hmemory, fun _ => hpending,
    fun hnot => absurd (hproduces.symm.trans hnot) (by decide)⟩

/-- A call that gives the same answer whatever the parts are does not touch them. -/
theorem of_forall (hcall : rbCall b rb c = some (output, next))
    (hall : ∀ d, rb.ReadsAlike b d → rbCall b (rb.vary d) c = some (output, next.vary d))
    (hreads : rb.ReadsAlike b d) : InParallel b c rb d output next output d := by
  have hself : next = next.vary rb.parts := by
    have hrefl := hall rb.parts ⟨fun _ _ => rfl, fun _ _ => rfl⟩
    rw [Rb.vary_parts, hcall] at hrefl
    exact (Prod.mk.inj (Option.some.inj hrefl)).2
  have hscratch : next.store.scratch = rb.store.scratch := by rw [hself]; rfl
  have hslot : next.pendingSlot = rb.pendingSlot := by rw [hself]; rfl
  have hwanted : next.pendingWanted = rb.pendingWanted := by rw [hself]; rfl
  refine ⟨hall d hreads, fun _ => rfl, ?_, ?_, fun _ => ⟨rfl, rfl⟩⟩
  · rw [hscratch]
    exact .refl _ _
  · rintro ⟨hs, hw⟩
    exact ⟨hs.trans hslot.symm, hw.trans hwanted.symm⟩

end InParallel

theorem Rb.Alongside.quiet {rb : Rb} {d : Parts} {answer answer' : Reply × Rb}
    (halong : rb.Alongside d answer answer') :
    rb.Alongside d (RingBuff.quiet answer) (RingBuff.quiet answer') := by
  obtain ⟨d', rfl, hrest⟩ := halong
  exact ⟨d', rfl, hrest⟩

theorem rbCall_vary {b : Build} {rb next : Rb} {d : Parts} {c : Call} {output : Output}
    (hreads : rb.ReadsAlike b d) (hlags : rb.CacheLags) (hlags' : (rb.vary d).CacheLags)
    (hsame : c.produces = true → rb.SamePending d)
    (hcall : rbCall b rb c = some (output, next)) :
    ∃ output' d', InParallel b c rb d output next output' d' := by
  cases c with
  | acquire wantedLen =>
      exact InParallel.of_alongside rfl rfl rfl
        (Rb.rbAcquire_vary (hsame rfl) hlags hlags' wantedLen).quiet hcall
  | write offset byte =>
      exact InParallel.of_alongside rfl rfl rfl
        (Rb.payloadWrite_vary (hsame rfl) offset byte).quiet hcall
  | publish slotIndex writtenLen =>
      exact InParallel.of_alongside rfl rfl rfl
        (Rb.rbPublishEx_vary (hsame rfl) slotIndex writtenLen false) hcall
  | publishEx slotIndex writtenLen truncated =>
      exact InParallel.of_alongside rfl rfl rfl
        (Rb.rbPublishEx_vary (hsame rfl) slotIndex writtenLen truncated) hcall
  | abort =>
      exact InParallel.of_alongside rfl rfl rfl (Rb.rbAbort_vary (hsame rfl)).quiet hcall
  | consume =>
      refine ⟨_, d, .of_forall hcall (fun d hreads => ?_) hreads⟩
      obtain ⟨answer, hanswer, heq⟩ := Option.map_eq_some_iff.mp hcall
      obtain ⟨rfl, rfl⟩ := Prod.mk.inj heq
      simp only [rbCall, Rb.rbConsume_vary hreads, hanswer]
      rfl
  | read offset =>
      obtain ⟨rfl, rfl⟩ := Prod.mk.inj (Option.some.inj hcall)
      exact ⟨_, d, rfl, fun hne => absurd rfl (hne offset), .refl _ _, id, fun _ => ⟨rfl, rfl⟩⟩
  | release slotIndex =>
      obtain ⟨scratch, hstep, hmemory⟩ := Rb.rbRelease_vary b rb d slotIndex
      obtain ⟨_, hself, -⟩ := Rb.rbRelease_vary b rb rb.parts slotIndex
      obtain heq : rbRelease b rb slotIndex = (output, next) := Option.some.inj hcall
      rw [heq] at hstep hmemory
      rw [Rb.vary_parts, heq] at hself
      have hslot : next.pendingSlot = rb.pendingSlot := congrArg (fun a => a.2.pendingSlot) hself
      have hwanted : next.pendingWanted = rb.pendingWanted :=
        congrArg (fun a => a.2.pendingWanted) hself
      exact ⟨output, { d with scratch }, congrArg some hstep, fun _ => rfl, hmemory,
        fun hsame => ⟨hsame.slot.trans hslot.symm, hsame.wanted.trans hwanted.symm⟩,
        fun _ => ⟨rfl, rfl⟩⟩
  | count | isFull | isEmpty =>
      obtain ⟨rfl, rfl⟩ := Prod.mk.inj (Option.some.inj hcall)
      exact ⟨_, d, .of_forall rfl (fun d _ => rfl) hreads⟩
  | setLimit limit =>
      obtain ⟨rfl, rfl⟩ := Prod.mk.inj (Option.some.inj hcall)
      exact ⟨_, d, .of_forall rfl
        (fun d _ => congrArg (fun a => some (quiet a)) (Rb.rbSetLimit_vary limit)) hreads⟩
  | setLowD percent =>
      obtain ⟨rfl, rfl⟩ := Prod.mk.inj (Option.some.inj hcall)
      exact ⟨_, d, .of_forall rfl
        (fun d _ => congrArg (fun a => some (quiet a)) (Rb.rbSetLowD_vary percent)) hreads⟩
  | setLowE percent =>
      obtain ⟨rfl, rfl⟩ := Prod.mk.inj (Option.some.inj hcall)
      exact ⟨_, d, .of_forall rfl
        (fun d _ => congrArg (fun a => some (quiet a)) (Rb.rbSetLowE_vary percent)) hreads⟩
  | setOversizePolicy policy =>
      obtain ⟨rfl, rfl⟩ := Prod.mk.inj (Option.some.inj hcall)
      exact ⟨_, d, .of_forall rfl
        (fun d _ => congrArg (fun a => some (quiet a)) (Rb.rbSetOversizePolicy_vary policy)) hreads⟩
  | setCallbacks cb =>
      obtain ⟨rfl, rfl⟩ := Prod.mk.inj (Option.some.inj hcall)
      exact ⟨_, d, .of_forall rfl
        (fun d _ => congrArg (fun a => some (quiet a)) (Rb.rbSetCallbacks_vary cb)) hreads⟩
  | setProducerStack bytes =>
      obtain ⟨rfl, rfl⟩ := Prod.mk.inj (Option.some.inj hcall)
      exact ⟨_, d, .of_forall rfl
        (fun d _ => congrArg (fun a => some (quiet a)) (Rb.rbSetProducerStack_vary bytes)) hreads⟩
  | setConsumerStack bytes =>
      obtain ⟨rfl, rfl⟩ := Prod.mk.inj (Option.some.inj hcall)
      exact ⟨_, d, .of_forall rfl
        (fun d _ => congrArg (fun a => some (quiet a)) (Rb.rbSetConsumerStack_vary bytes)) hreads⟩

/-! ## Calls that are left out -/

/-- The reply is an error code. -/
def Reply.failed : Reply → Bool
  | .code err => err ≠ .ok
  | .reserved _ _ | .message _ _ _ | .number _ | .flag _ | .byte _ => false

section Undone

variable {b : Build} {rb : Rb}

theorem rbAcquire_undone (wantedLen : UInt32) : ∃ d, (rbAcquire b rb wantedLen).2 = rb.vary d := by
  unfold rbAcquire reserve
  dsimp only
  split_ifs <;> exact ⟨⟨_, _, _, _, _⟩, rfl⟩

theorem payloadWrite_undone (offset : Nat) (byte : UInt8) :
    ∃ d, (payloadWrite b rb offset byte).2 = rb.vary d := by
  unfold payloadWrite
  split_ifs <;> exact ⟨⟨_, _, _, _, _⟩, rfl⟩

theorem rbAbort_undone : ∃ d, (rbAbort rb).2 = rb.vary d := by
  unfold rbAbort
  split_ifs <;> exact ⟨⟨_, _, _, _, _⟩, rfl⟩

end Undone

/-- At most the cached counter and the count of full attempts have changed. -/
def Rb.Unmoved (rb next : Rb) : Prop :=
  ∃ cachedTail fullAttempts, next = rb.vary { rb.parts with cachedTail, fullAttempts }

namespace Rb.Unmoved

theorem refl (rb : Rb) : rb.Unmoved rb := ⟨_, _, rfl⟩

variable {b : Build} {rb : Rb}

theorem reserve (cachedTail : UInt32) {wantedLen head : UInt32}
    (hfailed : (reserve b { rb with cachedTail } wantedLen head).1.failed = true) :
    rb.Unmoved (RingBuff.reserve b { rb with cachedTail } wantedLen head).2 := by
  unfold RingBuff.reserve at hfailed ⊢
  dsimp only at hfailed ⊢
  split_ifs at hfailed ⊢
  · exact ⟨_, _, rfl⟩
  · cases hfailed

theorem acquire {wantedLen : UInt32} (hfailed : (rbAcquire b rb wantedLen).1.failed = true) :
    rb.Unmoved (rbAcquire b rb wantedLen).2 := by
  unfold rbAcquire at hfailed ⊢
  dsimp only at hfailed ⊢
  split_ifs at hfailed ⊢
  · exact refl rb
  · exact refl rb
  · exact ⟨_, _, rfl⟩
  · exact reserve rb.tail hfailed
  · exact reserve rb.cachedTail hfailed

theorem write {offset : Nat} {byte : UInt8}
    (hfailed : (payloadWrite b rb offset byte).1.failed = true) :
    rb.Unmoved (payloadWrite b rb offset byte).2 := by
  unfold payloadWrite at hfailed ⊢
  split_ifs at hfailed ⊢
  · cases hfailed
  · exact refl rb

theorem publishEx {i writtenLen : UInt32} {truncated : Bool}
    (hfailed : (rbPublishEx b rb i writtenLen truncated).1.1.failed = true) :
    rb.Unmoved (rbPublishEx b rb i writtenLen truncated).2 := by
  unfold rbPublishEx at hfailed ⊢
  split_ifs at hfailed ⊢
  · exact refl rb
  · exact refl rb
  · unfold handOver at hfailed
    dsimp only at hfailed
    split_ifs at hfailed <;> cases hfailed

theorem abort (hfailed : (rbAbort rb).1.failed = true) : rb.Unmoved (rbAbort rb).2 := by
  unfold rbAbort at hfailed ⊢
  split_ifs at hfailed ⊢
  · exact refl rb
  · exact refl rb
  · cases hfailed

theorem release {i : UInt32} (hfailed : (rbRelease b rb i).1.1.failed = true) :
    rb.Unmoved (rbRelease b rb i).2 := by
  unfold rbRelease at hfailed ⊢
  split_ifs at hfailed ⊢
  · exact refl rb
  · exact refl rb
  · cases hfailed

/-- An empty ring is left as it is: the consumer had seen all there was to see. -/
theorem consume {answer : Reply × Rb}
    (hnone : rb.consumerActive = 0 → rb.tail = rb.cachedHead ∧ rb.tail = rb.head)
    (hanswer : rbConsume b rb = some answer) : rb.Unmoved answer.2 := by
  unfold rbConsume at hanswer
  dsimp only at hanswer
  split_ifs at hanswer with _ hactive hcached hhead
  · cases hanswer
    exact refl rb
  · cases hanswer
    exact refl rb
  · cases hanswer
    have hseen : { rb with cachedHead := rb.head } = rb :=
      congrArg (fun n => ({ rb with cachedHead := n } : Rb)) (hhead.symm.trans hcached)
    rw [hseen]
    exact refl rb
  · exact absurd (hnone (not_not.mp hactive)).2 hhead
  · exact absurd (hnone (not_not.mp hactive)).1 hcached

theorem setLimit {limit : UInt32} (hfailed : (rbSetLimit rb limit).1.failed = true) :
    rb.Unmoved (rbSetLimit rb limit).2 := by
  unfold rbSetLimit at hfailed ⊢
  split_ifs at hfailed ⊢
  · exact refl rb
  · exact refl rb
  · cases hfailed

theorem setLowD {percent : UInt32} (hfailed : (rbSetLowD rb percent).1.failed = true) :
    rb.Unmoved (rbSetLowD rb percent).2 := by
  have hne : ¬ rb.percentCheck percent = .ok := of_decide_eq_true hfailed
  rw [rbSetLowD, if_neg hne]
  exact refl rb

theorem setLowE {percent : UInt32} (hfailed : (rbSetLowE rb percent).1.failed = true) :
    rb.Unmoved (rbSetLowE rb percent).2 := by
  have hne : ¬ rb.percentCheck percent = .ok := of_decide_eq_true hfailed
  rw [rbSetLowE, if_neg hne]
  exact refl rb

theorem setOversizePolicy {policy : OversizePolicy}
    (hfailed : (rbSetOversizePolicy rb policy).1.failed = true) :
    rb.Unmoved (rbSetOversizePolicy rb policy).2 := by
  unfold rbSetOversizePolicy at hfailed ⊢
  split_ifs at hfailed ⊢
  · exact refl rb
  · cases policy with
    | other raw => exact refl rb
    | truncate | drop => cases hfailed

theorem setCallbacks {cb : Option Callbacks} (hfailed : (rbSetCallbacks rb cb).1.failed = true) :
    rb.Unmoved (rbSetCallbacks rb cb).2 := by
  cases cb with
  | none => exact refl rb
  | some cb =>
      unfold rbSetCallbacks at hfailed ⊢
      dsimp only at hfailed ⊢
      split_ifs at hfailed ⊢
      · exact refl rb
      · cases hfailed

theorem setProducerStack {bytes : Nat}
    (hfailed : (rbSetProducerStack b rb bytes).1.failed = true) :
    rb.Unmoved (rbSetProducerStack b rb bytes).2 := by
  by_cases hinit : rb.geo.scratchSize = 0
  · rw [rbSetProducerStack, if_pos hinit]
    exact refl rb
  · rw [rbSetProducerStack, if_neg hinit] at hfailed
    cases hfailed

theorem setConsumerStack {bytes : Nat}
    (hfailed : (rbSetConsumerStack b rb bytes).1.failed = true) :
    rb.Unmoved (rbSetConsumerStack b rb bytes).2 := by
  by_cases hinit : rb.geo.scratchSize = 0
  · rw [rbSetConsumerStack, if_pos hinit]
    exact refl rb
  · rw [rbSetConsumerStack, if_neg hinit] at hfailed
    cases hfailed

end Rb.Unmoved

/-- A call that returns an error leaves the ring as it was, but for the cached counter
and the count of full attempts. -/
theorem rbCall_failed {b : Build} {rb next : Rb} {c : Call} {output : Output}
    (hnone : c = .consume → rb.consumerActive = 0 →
      rb.tail = rb.cachedHead ∧ rb.tail = rb.head)
    (hcall : rbCall b rb c = some (output, next)) (hfailed : output.1.failed = true) :
    rb.Unmoved next := by
  cases c with
  | consume =>
      obtain ⟨answer, hanswer, heq⟩ := Option.map_eq_some_iff.mp hcall
      obtain ⟨rfl, rfl⟩ := Prod.mk.inj heq
      exact .consume (hnone rfl) hanswer
  | acquire wantedLen =>
      obtain ⟨rfl, rfl⟩ := Prod.mk.inj (Option.some.inj hcall)
      exact .acquire hfailed
  | write offset byte =>
      obtain ⟨rfl, rfl⟩ := Prod.mk.inj (Option.some.inj hcall)
      exact .write hfailed
  | publish slotIndex writtenLen =>
      obtain ⟨rfl, rfl⟩ := Prod.ext_iff.mp (Option.some.inj hcall)
      exact .publishEx hfailed
  | publishEx slotIndex writtenLen truncated =>
      obtain ⟨rfl, rfl⟩ := Prod.ext_iff.mp (Option.some.inj hcall)
      exact .publishEx hfailed
  | abort =>
      obtain ⟨rfl, rfl⟩ := Prod.mk.inj (Option.some.inj hcall)
      exact .abort hfailed
  | release slotIndex =>
      obtain ⟨rfl, rfl⟩ := Prod.ext_iff.mp (Option.some.inj hcall)
      exact .release hfailed
  | read offset | count | isFull | isEmpty =>
      obtain ⟨rfl, rfl⟩ := Prod.mk.inj (Option.some.inj hcall)
      exact .refl _
  | setLimit limit =>
      obtain ⟨rfl, rfl⟩ := Prod.mk.inj (Option.some.inj hcall)
      exact .setLimit hfailed
  | setLowD percent =>
      obtain ⟨rfl, rfl⟩ := Prod.mk.inj (Option.some.inj hcall)
      exact .setLowD hfailed
  | setLowE percent =>
      obtain ⟨rfl, rfl⟩ := Prod.mk.inj (Option.some.inj hcall)
      exact .setLowE hfailed
  | setOversizePolicy policy =>
      obtain ⟨rfl, rfl⟩ := Prod.mk.inj (Option.some.inj hcall)
      exact .setOversizePolicy hfailed
  | setCallbacks cb =>
      obtain ⟨rfl, rfl⟩ := Prod.mk.inj (Option.some.inj hcall)
      exact .setCallbacks hfailed
  | setProducerStack bytes =>
      obtain ⟨rfl, rfl⟩ := Prod.mk.inj (Option.some.inj hcall)
      exact .setProducerStack hfailed
  | setConsumerStack bytes =>
      obtain ⟨rfl, rfl⟩ := Prod.mk.inj (Option.some.inj hcall)
      exact .setConsumerStack hfailed

end RingBuff
