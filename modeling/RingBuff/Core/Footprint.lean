import RingBuff.Core.Calls
import RingBuff.Core.Geometry

/-! # Where a call stores

The scratchpad bytes a call may store to are known before it runs: they belong
to the slot of the pending reservation or to the slot the consumer holds. Both
are slots of the ring after any sequence of calls, however the calls are misused,
and no call changes the layout.
-/

namespace RingBuff

/-- A range of scratchpad bytes. -/
structure Range where
  first : Nat
  size : Nat
  deriving DecidableEq, Repr

/-- The stamp of a slot, in the build that has one. -/
def stampRange (b : Build) (geo : Geometry) (slotIndex : UInt32) : List Range :=
  match b.mode with
  | .index | .pointer => []
  | .lap => [{ first := slotOffset b geo slotIndex, size := 4 }]

/-- What `rb_publish_ex` stores in a slot. -/
def publishRanges (b : Build) (rb : Rb) (slotIndex : UInt32) : List Range :=
  if rb.pendingSlot = noPending ∨ rb.pendingSlot ≠ slotIndex then []
  else { first := headerOffset b rb.geo slotIndex, size := 4 } :: stampRange b rb.geo slotIndex

/-- The scratchpad bytes a call stores to. -/
def footprint (b : Build) (rb : Rb) : Call → List Range
  | .write offset _ =>
      if rb.pendingSlot ≠ noPending ∧ offset < (payloadCap b rb.geo).toNat then
        [{ first := payloadOffset b rb.geo rb.pendingSlot offset, size := 1 }]
      else []
  | .publish slotIndex _ | .publishEx slotIndex _ _ => publishRanges b rb slotIndex
  | .release slotIndex =>
      if rb.consumerActive = 0 ∨ slotIndex ≠ rb.consumerSlot then []
      else stampRange b rb.geo slotIndex
  | .acquire _ | .abort | .consume | .read _ | .count | .isFull | .isEmpty | .setLimit _
  | .setLowD _ | .setLowE _ | .setOversizePolicy _ | .setCallbacks _ | .setProducerStack _
  | .setConsumerStack _ => []

/-- What a call can do to the layout, the scratchpad and the two slot registers. -/
structure Keeps (rb rb' : Rb) (ranges : List Range) : Prop where
  geo : rb'.geo = rb.geo
  outside : ∀ offset, (∀ r ∈ ranges, offset < r.first ∨ r.first + r.size ≤ offset) →
    rb'.store.scratch offset = rb.store.scratch offset
  pending : rb'.pendingSlot = noPending ∨ rb'.pendingSlot = rb.pendingSlot ∨
    rb'.pendingSlot = slotIndexFor rb.geo rb.head
  held : rb'.consumerSlot = rb.consumerSlot ∨ rb'.consumerSlot < rb.geo.slots

theorem Keeps.refl (rb : Rb) (ranges : List Range) : Keeps rb rb ranges where
  geo := rfl
  outside := fun _ _ => rfl
  pending := Or.inr (Or.inl rfl)
  held := Or.inl rfl

section

variable (b : Build) (rb : Rb)

theorem reserve_keeps (wantedLen : UInt32) (ranges : List Range) :
    Keeps rb (reserve b rb wantedLen rb.head).2 ranges := by
  unfold reserve
  dsimp only
  split
  · exact .refl rb ranges
  · exact { Keeps.refl rb ranges with pending := Or.inr (Or.inr rfl) }

theorem rbAcquire_keeps (wantedLen : UInt32) (ranges : List Range) :
    Keeps rb (rbAcquire b rb wantedLen).2 ranges := by
  unfold rbAcquire
  split
  · exact .refl rb ranges
  split
  · exact .refl rb ranges
  split
  · dsimp only
    split
    · exact { Keeps.refl rb ranges with }
    · exact { reserve_keeps b { rb with cachedTail := rb.tail } wantedLen ranges with }
  · exact reserve_keeps b rb wantedLen ranges

theorem payloadWrite_keeps (offset : Nat) (byte : UInt8) :
    Keeps rb (payloadWrite b rb offset byte).2 (footprint b rb (.write offset byte)) := by
  unfold payloadWrite
  dsimp only [footprint]
  split
  · refine { Keeps.refl rb [] with outside := ?_ }
    intro other hout
    have hne := hout _ (List.mem_singleton.mpr rfl)
    exact Memory.store8_of_ne _ byte (by dsimp only at hne; omega)
  · exact .refl rb _

/-- The two stores of a publish stay within the header and the stamp. -/
theorem enter_outside (slotIndex word head : UInt32) {offset : Nat}
    (hout : ∀ r ∈ { first := headerOffset b rb.geo slotIndex, size := 4 } ::
      stampRange b rb.geo slotIndex, offset < r.first ∨ r.first + r.size ≤ offset) :
    ((rb.store.setHeader b rb.geo slotIndex word).enter b rb.geo slotIndex head).scratch offset =
      rb.store.scratch offset := by
  have hheader : (rb.store.setHeader b rb.geo slotIndex word).scratch offset =
      rb.store.scratch offset :=
    Memory.store32_outside _ word (hout _ List.mem_cons_self)
  unfold Store.enter
  cases hmode : b.mode with
  | index | pointer => exact hheader
  | lap =>
      have hstamp := hout { first := slotOffset b rb.geo slotIndex, size := 4 }
        (by simp [stampRange, hmode])
      exact (Memory.store32_outside _ _ hstamp).trans hheader

theorem rbPublishEx_keeps (slotIndex writtenLen : UInt32) (truncated : Bool) :
    Keeps rb (rbPublishEx b rb slotIndex writtenLen truncated).2
      (publishRanges b rb slotIndex) := by
  unfold rbPublishEx publishRanges
  split
  · exact .refl rb _
  split
  · exact .refl rb _
  · unfold Rb.handOver
    dsimp only
    split
    · exact { geo := rfl, outside := fun _ => enter_outside b rb slotIndex _ _,
              pending := Or.inl rfl, held := Or.inl rfl }
    · exact { geo := rfl, outside := fun _ => enter_outside b rb slotIndex _ _,
              pending := Or.inl rfl, held := Or.inl rfl }

theorem rbAbort_keeps (ranges : List Range) : Keeps rb (rbAbort rb).2 ranges := by
  unfold rbAbort
  split
  · exact .refl rb ranges
  split
  · exact .refl rb ranges
  · exact { Keeps.refl rb ranges with pending := Or.inl rfl }

theorem latch_keeps {slotIndex : UInt32} (hlt : ¬ rb.geo.slots ≤ slotIndex)
    (ranges : List Range) : Keeps rb (rb.latch b slotIndex).2 ranges :=
  { Keeps.refl rb ranges with held := Or.inr (UInt32.not_le.mp hlt) }

/-- Whatever the consumer finds, it is a slot of the ring. -/
theorem frontSlot_lt {b : Build} {geo : Geometry} {st : Store} {tail slotIndex : UInt32}
    (hfound : st.frontSlot b geo tail = some (.ok slotIndex)) : ¬ geo.slots ≤ slotIndex := by
  have hbounded : ∀ {i : UInt32}, some (if geo.slots ≤ i then .error RbErr.inval else .ok i) =
      some (Except.ok slotIndex) → ¬ geo.slots ≤ slotIndex := by
    intro i heq
    split at heq
    · cases heq
    next hlt => cases heq; exact hlt
  unfold Store.frontSlot at hfound
  dsimp only at hfound
  split at hfound
  · exact hbounded hfound
  · split at hfound
    · cases hfound
    split at hfound
    · cases hfound
    split at hfound
    · cases hfound
    · exact hbounded hfound
  · exact hbounded hfound

theorem takeFront_keeps {answer : Reply × Rb} (tail : UInt32)
    (hanswer : rb.takeFront b tail = some answer) (ranges : List Range) :
    Keeps rb answer.2 ranges := by
  unfold Rb.takeFront at hanswer
  split at hanswer
  · cases hanswer
  · cases hanswer
    exact .refl rb ranges
  next slotIndex hfound =>
    have hlt := frontSlot_lt hfound
    dsimp only at hanswer
    split at hanswer
    · split at hanswer <;> cases hanswer
      · exact { Keeps.refl rb ranges with }
      · exact { latch_keeps b { rb with cachedHead := rb.head } hlt ranges with }
    · cases hanswer
      exact latch_keeps b rb hlt ranges

theorem rbConsume_keeps {answer : Reply × Rb} (hanswer : rbConsume b rb = some answer)
    (ranges : List Range) : Keeps rb answer.2 ranges := by
  unfold rbConsume at hanswer
  split at hanswer
  · cases hanswer
    exact .refl rb ranges
  split at hanswer
  · cases hanswer
    exact .refl rb ranges
  split at hanswer
  · dsimp only at hanswer
    split at hanswer
    · cases hanswer
      exact { Keeps.refl rb ranges with }
    · exact { takeFront_keeps b { rb with cachedHead := rb.head } rb.tail hanswer ranges with }
  · exact takeFront_keeps b rb rb.tail hanswer ranges

variable {rb}

omit b in
theorem Keeps.crossLowD {rb' : Rb} {ranges : List Range} (hkeeps : Keeps rb rb' ranges)
    (oldCount newCount : UInt32) : Keeps rb (rb'.crossLowD oldCount newCount).2 ranges := by
  unfold Rb.crossLowD
  dsimp only
  split
  · exact { hkeeps with }
  split
  · exact { hkeeps with }
  · exact hkeeps

omit b in
theorem Keeps.crossLowE {rb' : Rb} {ranges : List Range} (hkeeps : Keeps rb rb' ranges)
    (oldCount newCount : UInt32) : Keeps rb (rb'.crossLowE oldCount newCount).2 ranges := by
  unfold Rb.crossLowE
  dsimp only
  split
  · exact { hkeeps with }
  split
  · exact { hkeeps with }
  · exact hkeeps

theorem rbRelease_keeps (slotIndex : UInt32) :
    Keeps rb (rbRelease b rb slotIndex).2 (footprint b rb (.release slotIndex)) := by
  unfold rbRelease
  dsimp only [footprint]
  split
  · exact .refl rb _
  split
  · exact .refl rb _
  · refine Keeps.crossLowE (Keeps.crossLowD ?_ _ _) _ _
    refine { Keeps.refl rb [] with outside := ?_ }
    intro offset hout
    dsimp only
    unfold Store.recycle
    cases hmode : b.mode with
    | index | pointer => rfl
    | lap =>
        have hstamp := hout { first := slotOffset b rb.geo slotIndex, size := 4 }
          (by simp [stampRange, hmode])
        exact Memory.store32_outside _ _ hstamp

/-- A call stores inside its footprint and keeps the layout. -/
theorem rbCall_keeps {answer : Output × Rb} (c : Call) (hanswer : rbCall b rb c = some answer) :
    Keeps rb answer.2 (footprint b rb c) := by
  cases c with
  | consume =>
      rw [rbCall, Option.map_eq_some_iff] at hanswer
      obtain ⟨answer', hconsume, rfl⟩ := hanswer
      exact rbConsume_keeps b rb hconsume _
  | acquire wantedLen => cases hanswer; exact rbAcquire_keeps b rb wantedLen _
  | write offset byte => cases hanswer; exact payloadWrite_keeps b rb offset byte
  | publish slotIndex writtenLen =>
      cases hanswer; exact rbPublishEx_keeps b rb slotIndex writtenLen false
  | publishEx slotIndex writtenLen truncated =>
      cases hanswer; exact rbPublishEx_keeps b rb slotIndex writtenLen truncated
  | abort => cases hanswer; exact rbAbort_keeps rb _
  | release slotIndex => cases hanswer; exact rbRelease_keeps b slotIndex
  | read offset | count | isFull | isEmpty => cases hanswer; exact .refl rb _
  | setLimit limit =>
      cases hanswer
      dsimp only [quiet, rbSetLimit]
      split
      · exact .refl rb _
      split
      · exact .refl rb _
      · exact { Keeps.refl rb _ with }
  | setLowD percent =>
      cases hanswer
      dsimp only [quiet, rbSetLowD]
      split
      · exact { Keeps.refl rb _ with }
      · exact .refl rb _
  | setLowE percent =>
      cases hanswer
      dsimp only [quiet, rbSetLowE]
      split
      · exact { Keeps.refl rb _ with }
      · exact .refl rb _
  | setOversizePolicy policy =>
      cases hanswer
      dsimp only [quiet, rbSetOversizePolicy]
      split
      · exact .refl rb _
      split
      · exact .refl rb _
      · exact { Keeps.refl rb _ with }
      · exact { Keeps.refl rb _ with }
  | setCallbacks cb =>
      cases hanswer
      cases cb with
      | none => exact .refl rb _
      | some cb =>
          dsimp only [quiet, rbSetCallbacks]
          split
          · exact .refl rb _
          · exact { Keeps.refl rb _ with }
  | setProducerStack bytes =>
      cases hanswer
      dsimp only [quiet, rbSetProducerStack]
      split
      · exact .refl rb _
      · exact { Keeps.refl rb _ with }
  | setConsumerStack bytes =>
      cases hanswer
      dsimp only [quiet, rbSetConsumerStack]
      split
      · exact .refl rb _
      · exact { Keeps.refl rb _ with }

end

/-! ## Over whole runs -/

/-- The slot registers name slots of the ring. -/
structure Rb.InRange (rb : Rb) : Prop where
  masked : rb.geo.Masked
  pending : rb.pendingSlot ≠ noPending → rb.pendingSlot.toNat < rb.geo.slots.toNat
  held : rb.consumerSlot.toNat < rb.geo.slots.toNat

theorem Keeps.inRange {rb rb' : Rb} {ranges : List Range} (hkeeps : Keeps rb rb' ranges)
    (hrange : rb.InRange) : rb'.InRange := by
  refine ⟨hkeeps.geo ▸ hrange.masked, ?_, ?_⟩
  · intro hsome
    rw [hkeeps.geo]
    rcases hkeeps.pending with hnone | hsame | hnext
    · exact absurd hnone hsome
    · rw [hsame] at hsome ⊢
      exact hrange.pending hsome
    · rw [hnext]
      exact hrange.masked.slotIndexFor_lt rb.head
  · rw [hkeeps.geo]
    rcases hkeeps.held with hsame | hlt
    · exact hsame ▸ hrange.held
    · exact UInt32.lt_iff_toNat_lt.mp hlt

/-- No call changes the layout, and the slot registers stay in range. -/
theorem reaches_inRange {b : Build} {rb rb' : Rb} (hrange : rb.InRange)
    (hreach : (ring b).Reaches rb rb') : rb'.geo = rb.geo ∧ rb'.InRange := by
  refine hreach.invariant (fun state => state.geo = rb.geo ∧ state.InRange) ⟨rfl, hrange⟩ ?_
  rintro state c output next ⟨hgeo, hstate⟩ hstep
  have hkeeps := rbCall_keeps b c hstep
  exact ⟨hkeeps.geo.trans hgeo, hkeeps.inRange hstate⟩

section

variable {b : Build} {geo : Geometry} {slotIndex : UInt32}
  (hhdr : b.hdrSize.toNat < geo.slotSize.toNat)
  (hslot : slotOffset b geo slotIndex + geo.slotSize.toNat ≤ geo.scratchSize)

include hhdr hslot

theorem stampRange_inside {r : Range} (hmem : r ∈ stampRange b geo slotIndex) :
    r.first + r.size ≤ geo.scratchSize := by
  have hfour := b.four_le_hdrSize
  unfold stampRange at hmem
  cases hmode : b.mode with
  | index | pointer => simp [hmode] at hmem
  | lap =>
      simp only [hmode, List.mem_singleton] at hmem
      subst hmem
      dsimp only
      omega

theorem headerRange_inside : headerOffset b geo slotIndex + 4 ≤ geo.scratchSize := by
  have hfour := b.four_le_hdrSize
  unfold headerOffset
  omega

theorem payloadRange_inside {offset : Nat} (hoff : offset < (payloadCap b geo).toNat) :
    payloadOffset b geo slotIndex offset + 1 ≤ geo.scratchSize := by
  have hcap : (payloadCap b geo).toNat = geo.slotSize.toNat - b.hdrSize.toNat :=
    UInt32.toNat_sub_of_le _ _ (by rw [UInt32.le_iff_toNat_le]; omega)
  unfold payloadOffset
  omega

end

/-- A slot that lies in the scratchpad contains what the calls store in it. -/
theorem footprint_inside {b : Build} {rb : Rb} (hrange : rb.InRange)
    (hhdr : b.hdrSize.toNat < rb.geo.slotSize.toNat)
    (hslot : ∀ i : UInt32, i.toNat < rb.geo.slots.toNat →
      slotOffset b rb.geo i + rb.geo.slotSize.toNat ≤ rb.geo.scratchSize)
    {c : Call} {r : Range} (hmem : r ∈ footprint b rb c) :
    r.first + r.size ≤ rb.geo.scratchSize := by
  have hpublish : ∀ {i}, r ∈ publishRanges b rb i → r.first + r.size ≤ rb.geo.scratchSize := by
    intro i hmem
    unfold publishRanges at hmem
    split at hmem
    · cases hmem
    next hcheck =>
      obtain ⟨hsome, heq⟩ := not_or.mp hcheck
      have hin := hslot i (not_not.mp heq ▸ hrange.pending hsome)
      rcases List.mem_cons.mp hmem with rfl | hstamp
      · exact headerRange_inside hhdr hin
      · exact stampRange_inside hhdr hin hstamp
  cases c with
  | write offset byte =>
      simp only [footprint] at hmem
      split at hmem
      next hcheck =>
        rw [List.mem_singleton.mp hmem]
        exact payloadRange_inside hhdr (hslot _ (hrange.pending hcheck.1)) hcheck.2
      · cases hmem
  | publish slotIndex writtenLen => exact hpublish hmem
  | publishEx slotIndex writtenLen truncated => exact hpublish hmem
  | release slotIndex =>
      simp only [footprint] at hmem
      split at hmem
      · cases hmem
      next hcheck =>
        have heq := not_not.mp (not_or.mp hcheck).2
        exact stampRange_inside hhdr (hslot _ (heq ▸ hrange.held)) hmem
  | acquire | abort | consume | read | count | isFull | isEmpty | setLimit | setLowD | setLowE
  | setOversizePolicy | setCallbacks | setProducerStack | setConsumerStack => cases hmem

end RingBuff
