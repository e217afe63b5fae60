import RingBuff.Undo.Marks
import RingBuff.Undo.Variation

/-! # Failed calls and aborted reservations leave no trace

A run is compared with the run that is left when failed calls are taken out of it, and
reservations together with all the producer did up to their abort. The two rings differ
in their producer's cached counter, in the count of full attempts and in payload bytes
that no message owns. What is left of the run shows the same.
-/

namespace RingBuff

/-- `Deletes false trace kept`: what is kept of a trace when failed calls are taken out,
and any number of successful reservations, each with its writes, its abort and all failed
calls in between. `Deletes true` stands inside such a reservation. -/
inductive Deletes : Bool → List (Call × Output) → List (Call × Output) → Prop where
  | done : Deletes false [] []
  | keep {x : Call × Output} {trace kept : List (Call × Output)} :
      Deletes false trace kept → Deletes false (x :: trace) (x :: kept)
  | failed {inside : Bool} {c : Call} {output : Output} {trace kept : List (Call × Output)}
      (hfailed : output.1.failed = true) :
      Deletes inside trace kept → Deletes inside ((c, output) :: trace) kept
  | acquire {w s cap : UInt32} {events : List Event} {trace kept : List (Call × Output)} :
      Deletes true trace kept →
        Deletes false ((.acquire w, (.reserved s cap, events)) :: trace) kept
  | write {k : Nat} {v : UInt8} {events : List Event} {trace kept : List (Call × Output)} :
      Deletes true trace kept → Deletes true ((.write k v, (.code .ok, events)) :: trace) kept
  | between {c : Call} {output : Output} {trace kept : List (Call × Output)}
      (hother : c.produces = false) (hdone : output.1.failed = false) :
      Deletes true trace kept → Deletes true ((c, output) :: trace) ((c, output) :: kept)
  | abort {events : List Event} {trace kept : List (Call × Output)} :
      Deletes false trace kept → Deletes true ((.abort, (.code .ok, events)) :: trace) kept

/-! ## Bytes -/

/-- All bytes of the scratchpad but the payload bytes without the property. -/
def bytesWhere (b : Build) (geo : Geometry) (owned : UInt32 → Nat → Prop) : Set Nat :=
  {a | ∀ s k, s.toNat < geo.slots.toNat → k < (payloadCap b geo).toNat →
    a = payloadOffset b geo s k → owned s k}

section Bytes

variable {b : Build} {geo : Geometry} {owned : UInt32 → Nat → Prop}

/-- Headers are not payload. -/
theorem header_mem (hgeo : geo.Sound b) {i : UInt32} (hi : i.toNat < geo.slots.toNat) {j : Nat}
    (hj : j < 4) : headerOffset b geo i + j ∈ bytesWhere b geo owned := by
  intro s k hs hk heq
  have hfour := b.four_le_hdrSize
  have hhdr := hgeo.hdr_lt
  rw [hgeo.payloadCap_toNat] at hk
  have hapart := hgeo.parts_apart hi hs (a := b.hdrSize.toNat - 4) (m := 4)
    (c := b.hdrSize.toNat + k) (n := 1) (by omega) (by omega) (Or.inr (by omega))
  simp only [headerOffset, payloadOffset] at heq
  omega

/-- Neither are stamps. -/
theorem stamp_mem (hgeo : geo.Sound b) {i : UInt32} (hi : i.toNat < geo.slots.toNat) {j : Nat}
    (hj : j < 4) : slotOffset b geo i + j ∈ bytesWhere b geo owned := by
  intro s k hs hk heq
  have hfour := b.four_le_hdrSize
  have hhdr := hgeo.hdr_lt
  rw [hgeo.payloadCap_toNat] at hk
  have hapart := hgeo.parts_apart hi hs (a := 0) (m := 4)
    (c := b.hdrSize.toNat + k) (n := 1) (by omega) (by omega) (Or.inr (by omega))
  simp only [payloadOffset] at heq
  omega

/-- A payload byte belongs to one slot and one offset. -/
theorem payloadOffset_inj (hgeo : geo.Sound b) {i j : UInt32} (hi : i.toNat < geo.slots.toNat)
    (hj : j.toNat < geo.slots.toNat) {k l : Nat} (hk : k < (payloadCap b geo).toNat)
    (hl : l < (payloadCap b geo).toNat)
    (heq : payloadOffset b geo i k = payloadOffset b geo j l) : i = j ∧ k = l := by
  have hhdr := hgeo.hdr_lt
  rw [hgeo.payloadCap_toNat] at hk hl
  simp only [payloadOffset] at heq
  rcases eq_or_ne i j with rfl | hij
  · exact ⟨rfl, by omega⟩
  · have hapart := hgeo.parts_apart hi hj (a := b.hdrSize.toNat + k) (m := 1)
      (c := b.hdrSize.toNat + l) (n := 1) (by omega) (by omega) (Or.inl hij)
    omega

theorem payload_mem (hgeo : geo.Sound b) {i : UInt32} (hi : i.toNat < geo.slots.toNat) {k : Nat}
    (hk : k < (payloadCap b geo).toNat) (howned : owned i k) :
    payloadOffset b geo i k ∈ bytesWhere b geo owned := by
  intro s l hs hl heq
  obtain ⟨rfl, rfl⟩ := payloadOffset_inj hgeo hi hs hk hl heq
  exact howned

/-- Rings that agree on these bytes have the same headers and stamps. -/
theorem Rb.ReadsAlike.of_eqOn {rb : Rb} {d : Parts} (hgeo : rb.geo.Sound b)
    (heq : Set.EqOn rb.store.scratch d.scratch (bytesWhere b rb.geo owned)) :
    rb.ReadsAlike b d where
  header _ hi := Memory.load32_congr fun _ hj =>
    (heq (header_mem hgeo (UInt32.lt_iff_toNat_lt.mp (UInt32.not_le.mp hi)) hj)).symm
  stamp _ hi := Memory.load32_congr fun _ hj =>
    (heq (stamp_mem hgeo (UInt32.lt_iff_toNat_lt.mp (UInt32.not_le.mp hi)) hj)).symm

end Bytes

/-! ## The two runs -/

/-- The ring `rb'` of the run that is left over follows the ring `rb` of the whole run. -/
structure Follows (b : Build) (geo : Geometry) (inside : Bool) (m : Marks) (rb : Rb) (L : Ledger)
    (rb' : Rb) (L' : Ledger) : Prop where
  whole : Tracks b geo rb L
  rest : Tracks b geo rb' L'
  marked : L'.usage.Marked m
  head : L'.head = L.head
  vary : ∃ d, rb' = rb.vary d
  same : inside = false → rb'.pendingSlot = rb.pendingSlot ∧ rb'.pendingWanted = rb.pendingWanted
  clear : inside = true → L'.pending = none
  memory : Set.EqOn rb.store.scratch rb'.store.scratch (bytesWhere b geo (L'.Firm m))

theorem Tracks.cacheLags {b : Build} {geo : Geometry} {rb : Rb} {L : Ledger}
    (htracks : Tracks b geo rb L) : rb.CacheLags := by
  intro hfull
  rw [htracks.rep.limit_le_count htracks.ok] at hfull
  rw [htracks.rep.limit_le_cached htracks.ok]
  by_contra hroom
  exact absurd (htracks.ok.full_of_cached hroom) (Nat.not_lt.mpr hfull)

/-- A failed `rb_consume` found a message held, or nothing to consume. -/
theorem Ledger.consume_failed {L : Ledger} (hfailed : L.consume.1.failed = true)
    (hheld : ¬ L.held.isSome) : L.tail = L.cachedHead ∧ L.tail = L.head := by
  unfold Ledger.consume at hfailed
  split_ifs at hfailed with hcached hhead
  · exact ⟨hcached, hhead⟩
  · cases hfailed
  · cases hfailed

theorem Ledger.pending_of_reserved {L : Ledger} {w s cap : UInt32}
    (hreply : (L.acquire w).1 = .reserved s cap) : L.pending = none := by
  by_contra hpending
  rw [Ledger.acquire, if_pos (Option.isSome_iff_ne_none.mpr hpending)] at hreply
  cases hreply

theorem Ledger.abort_pending (L : Ledger) : L.abort.2.pending = none := by
  unfold Ledger.abort
  split_ifs with hpending
  · rfl
  · exact Option.not_isSome_iff_eq_none.mp hpending

namespace Follows

variable {b : Build} {geo : Geometry} {inside : Bool} {m : Marks} {rb next : Rb} {L : Ledger}
  {rb' : Rb} {L' : Ledger} {c : Call} {output : Output}

section Rings

variable (hfollows : Follows b geo inside m rb L rb' L')

include hfollows

theorem slots_eq : L'.slots = L.slots := by
  rw [hfollows.rest.rep.slots, hfollows.whole.rep.slots, hfollows.rest.layout,
    hfollows.whole.layout]

theorem wrapSafe (hwrap : WrapSafe L.slots L.head) : WrapSafe L'.slots L'.head := by
  rwa [hfollows.slots_eq, hfollows.head]

/-- The two rings hold equally many messages. -/
theorem count_eq (hgeo : geo.Sound b) : L'.count = L.count := by
  obtain ⟨d, hd⟩ := hfollows.vary
  have hcount : rbCount rb' = rbCount rb := by rw [hd]; rfl
  rw [← hfollows.rest.rbCount_toNat hgeo, ← hfollows.whole.rbCount_toNat hgeo, hcount]

/-- What the producer of the held message wrote, both consumers read. -/
theorem read_eq (hgeo : geo.Sound b) {k : Nat} (hk : k < (payloadCap b geo).toNat)
    (hactive : rb.consumerActive ≠ 0) (hwrote : k ∈ m.wrote m.held) :
    rb.store.payload b geo rb.consumerSlot k = rb'.store.payload b geo rb.consumerSlot k := by
  obtain ⟨d, hd⟩ := hfollows.vary
  have hactive' : rb'.consumerActive ≠ 0 := by rwa [hd]
  have hslot : rb'.consumerSlot = rb.consumerSlot := by rw [hd]
  have hrest := hfollows.rest
  obtain ⟨s, hheld⟩ := Option.isSome_iff_exists.mp (hrest.rep.active_ne.mp hactive')
  obtain ⟨hs, hfront⟩ := hrest.ok.held_slot s hheld
  have hbusy : L'.usage.Busy s :=
    Or.inr ⟨L'.tail, le_rfl, hfront.trans_le hrest.ok.cachedHead_le, hs.symm⟩
  have hlt := hrest.rep.slotFor_lt hrest.ok L'.tail
  rw [← hs, hrest.layout] at hlt
  rw [← hfollows.marked.held s hheld] at hwrote
  rw [← hslot, hrest.rep.held s hheld]
  exact hfollows.memory (payload_mem hgeo hlt hk ⟨hbusy, hwrote⟩)

end Rings

theorem shown_eq (hgeo : geo.Sound b) (hfollows : Follows b geo inside m rb L rb' L') {k : Nat} :
    m.shown (.read k) (quiet (payloadRead b rb' k, rb')).1 =
      m.shown (.read k) (quiet (payloadRead b rb k, rb)).1 := by
  obtain ⟨d, hd⟩ := hfollows.vary
  have hactive : rb'.consumerActive = rb.consumerActive := by rw [hd]
  have hslot : rb'.consumerSlot = rb.consumerSlot := by rw [hd]
  have hlayout := hfollows.whole.layout
  have hlayout' := hfollows.rest.layout
  unfold payloadRead
  rw [hactive, hslot, hlayout, hlayout']
  split_ifs with haccess
  · by_cases hwrote : k ∈ m.wrote m.held
    · rw [hfollows.read_eq hgeo haccess.2 haccess.1 hwrote]
      rfl
    · simp only [quiet, Marks.shown, if_neg hwrote]
  · rfl

/-- A stored byte is in memory. -/
theorem stores {rb next : Rb} (hne : rb.pendingSlot ≠ noPending) {k : Nat} {v : UInt8}
    (hk : k < (payloadCap b rb.geo).toNat)
    (hcall : rbCall b rb (.write k v) = some (output, next)) :
    next.store.scratch (payloadOffset b rb.geo rb.pendingSlot k) = v := by
  obtain ⟨-, rfl⟩ := Prod.ext_iff.mp (Option.some.inj hcall)
  simp only [quiet, payloadWrite, if_pos (And.intro hne hk)]
  exact Memory.store8_same _ _ _

/-- A call that is made on both rings keeps them equal where bytes are firm. -/
theorem eqOn_call (hgeo : geo.Sound b) {d d' : Parts} {output' : Output}
    (hfollows : Follows b geo inside m rb L (rb.vary d) L')
    (hside : c.produces = true → rb.SamePending d)
    (hcall : rbCall b rb c = some (output, next))
    (hpar : InParallel b c rb d output next output' d') {L'' : Ledger}
    (hturn : L'.Turn c output' L'') :
    Set.EqOn next.store.scratch d'.scratch (bytesWhere b geo (L''.Firm (m.note c output'))) := by
  have hrest := hfollows.rest
  intro a ha
  by_cases hold : a ∈ bytesWhere b geo (L'.Firm m)
  · exact hpar.memory.eqOn hfollows.memory hold
  · -- the byte has become firm just now, so the call has stored it in both rings
    simp only [bytesWhere, Set.mem_ofPred_eq, not_forall] at hold
    obtain ⟨s, k, hs, hk, rfl, hnot⟩ := hold
    obtain hfirm | ⟨v, r, rfl, hr, rfl, -⟩ :=
      hturn.firm hrest.ok hfollows.marked (ha s k hs hk rfl)
    · exact absurd hfirm hnot
    · have hslot' : (rb.vary d).pendingSlot = r.slotIndex := by
        rw [hrest.rep.pendingSlot_eq, hr]
        rfl
      have hslot : rb.pendingSlot = r.slotIndex := (hside rfl).slot.symm.trans hslot'
      have hne : r.slotIndex ≠ noPending := Geometry.Masked.ne_noPending hs
      obtain rfl := hfollows.whole.layout
      have hne' : (rb.vary d).pendingSlot ≠ noPending := hslot' ▸ hne
      have hstored := stores (hslot ▸ hne) hk hcall
      have hstored' := stores hne' hk hpar.step
      rw [hslot] at hstored
      rw [hslot'] at hstored'
      rw [hstored]
      exact hstored'.symm

section Steps

variable (hgeo : geo.Sound b) (haddr : b.mode = .pointer → geo.Addressable b)
  (hwrap : WrapSafe L.slots L.head) (hfollows : Follows b geo inside m rb L rb' L')

include hgeo haddr hwrap hfollows

/-- A call that stays is made on both rings. -/
theorem keep (hcall : rbCall b rb c = some (output, next))
    (hside : inside = true → c.produces = false) :
    ∃ output' next', rbCall b rb' c = some (output', next') ∧
      m.shown c output' = m.shown c output ∧ m.note c output' = m.note c output ∧
      Follows b geo inside (m.note c output) next (L.call c).2 next' (L'.call c).2 := by
  have hwhole := hfollows.whole
  have hrest := hfollows.rest
  have hmemory := hfollows.memory
  have hmarked := hfollows.marked
  obtain ⟨_, hanswer, hnext⟩ := hwhole.call_exact hgeo haddr (fun _ => hwrap) c
  obtain ⟨rfl, rfl⟩ := Prod.mk.inj (Option.some.inj (hanswer.symm.trans hcall))
  obtain ⟨next', hanswer', hnext'⟩ :=
    hrest.call_exact hgeo haddr (fun _ => hfollows.wrapSafe hwrap) c
  obtain ⟨d, rfl⟩ := hfollows.vary
  have hreads : rb.ReadsAlike b d := by
    rw [← hwhole.layout] at hmemory
    exact .of_eqOn (hwhole.layout ▸ hgeo) hmemory
  have hsame : inside = false → rb.SamePending d := fun houter =>
    ⟨(hfollows.same houter).1, (hfollows.same houter).2⟩
  have hproducer : c.produces = true → inside = false := by
    intro hproduces
    by_contra hinside
    exact absurd (hproduces.symm.trans (hside (Bool.eq_true_of_not_eq_false hinside))) (by decide)
  obtain ⟨output', d', hpar⟩ := rbCall_vary hreads hwhole.cacheLags hrest.cacheLags
    (fun hproduces => hsame (hproducer hproduces)) hcall
  obtain ⟨rfl, rfl⟩ := Prod.mk.inj (Option.some.inj (hpar.step.symm.trans hanswer'))
  have hsameOutput : (∃ k, c = .read k) ∨ (L'.call c).1 = (L.call c).1 := by
    by_cases hread : ∃ k, c = .read k
    · exact Or.inl hread
    · exact Or.inr (hpar.output fun k hk => hread ⟨k, hk⟩)
  have hnote : m.note c (L'.call c).1 = m.note c (L.call c).1 := by
    rcases hsameOutput with ⟨k, rfl⟩ | heq
    · rfl
    · rw [heq]
  have hpublished : c.published (L'.call c).1 = c.published (L.call c).1 := by
    rcases hsameOutput with ⟨k, rfl⟩ | heq
    · rfl
    · rw [heq]
  refine ⟨_, _, hanswer', ?_, hnote, ⟨hnext, hnext', ?_, ?_, ⟨d', rfl⟩, ?_, ?_, ?_⟩⟩
  · rcases hsameOutput with ⟨k, rfl⟩ | heq
    · obtain ⟨hout, -⟩ := Prod.mk.inj (Option.some.inj hcall)
      obtain ⟨hout', -⟩ := Prod.mk.inj (Option.some.inj hpar.step)
      rw [← hout, ← hout']
      exact hfollows.shown_eq hgeo
    · rw [heq]
  · rw [← hnote]
    exact (L'.turn_call c).marked hmarked
  · rw [(L'.call_head c).1, (L.call_head c).1, hfollows.head, hpublished]
  · intro houter
    have hpending := hpar.pending (hsame houter)
    exact ⟨hpending.slot, hpending.wanted⟩
  · intro hinner
    have hnone := (hrest.rep.pendingSlot_none hrest.ok).mpr (hfollows.clear hinner)
    rw [← hnext'.rep.pendingSlot_none hnext'.ok]
    exact (hpar.kept (hside hinner)).1.trans hnone
  · rw [← hnote]
    exact eqOn_call hgeo hfollows (fun hproduces => hsame (hproducer hproduces)) hcall hpar
      (L'.turn_call c)

/-- A call that is left out is made on one ring only. -/
theorem leave {inside' : Bool} (hcall : rbCall b rb c = some (output, next))
    (hvary : ∃ d, next = rb.vary d) (hpublished : c.published output = false)
    (hsame : inside' = false → rb'.pendingSlot = next.pendingSlot ∧
      rb'.pendingWanted = next.pendingWanted)
    (hnone : inside' = true → L'.pending = none)
    (hmemory : ∀ a ∈ bytesWhere b geo (L'.Firm m),
      next.store.scratch a = rb.store.scratch a) :
    Follows b geo inside' m next (L.call c).2 rb' L' := by
  obtain ⟨_, hanswer, hnext⟩ := hfollows.whole.call_exact hgeo haddr (fun _ => hwrap) c
  obtain ⟨rfl, rfl⟩ := Prod.mk.inj (Option.some.inj (hanswer.symm.trans hcall))
  obtain ⟨d, hd⟩ := hfollows.vary
  obtain ⟨d', hd'⟩ := hvary
  refine ⟨hnext, hfollows.rest, hfollows.marked, ?_, ⟨d, ?_⟩, hsame, hnone, ?_⟩
  · rw [(L.call_head c).1, hpublished, hfollows.head]
    rfl
  · rw [hd, hd']
  · intro a ha
    rw [hmemory a ha]
    exact hfollows.memory ha

theorem failed (hcall : rbCall b rb c = some (output, next)) (hfailed : output.1.failed = true) :
    Follows b geo inside m next (L.call c).2 rb' L' := by
  have hwhole := hfollows.whole
  have hpublished : c.published output = false := by
    have hne : output.1 ≠ .code .ok := fun hok => by
      rw [hok] at hfailed
      cases hfailed
    cases c with
    | publish | publishEx => exact decide_eq_false hne
    | acquire | write | abort | consume | read | release | count | isFull | isEmpty | setLimit
    | setLowD | setLowE | setOversizePolicy | setCallbacks | setProducerStack
    | setConsumerStack => rfl
  have hnothing : c = .consume → rb.consumerActive = 0 →
      rb.tail = rb.cachedHead ∧ rb.tail = rb.head := by
    rintro rfl hidle
    obtain ⟨_, hanswer, -⟩ := hwhole.call_exact hgeo haddr (fun _ => hwrap) .consume
    obtain ⟨rfl, -⟩ := Prod.mk.inj (Option.some.inj (hanswer.symm.trans hcall))
    have hheld : ¬ L.held.isSome = true := fun hheld => hwhole.rep.active_ne.mpr hheld hidle
    obtain ⟨hcached, hhead⟩ := Ledger.consume_failed hfailed hheld
    exact ⟨(hwhole.rep.tail_eq_cachedHead hwhole.ok).mpr hcached,
      (hwhole.rep.tail_eq_head hwhole.ok).mpr hhead⟩
  obtain ⟨cachedTail, fullAttempts, rfl⟩ := rbCall_failed hnothing hcall hfailed
  exact hfollows.leave hgeo haddr hwrap hcall ⟨_, rfl⟩ hpublished hfollows.same hfollows.clear
    fun _ _ => rfl

theorem acquire {w s cap : UInt32} {events : List Event} (houtside : inside = false)
    (hcall : rbCall b rb (.acquire w) = some ((.reserved s cap, events), next)) :
    Follows b geo true m next (L.call (.acquire w)).2 rb' L' := by
  have hwhole := hfollows.whole
  have hrest := hfollows.rest
  have hclear : L'.pending = none := by
    obtain ⟨_, hanswer, -⟩ := hwhole.call_exact hgeo haddr (fun _ => hwrap) (.acquire w)
    obtain ⟨hreply, -⟩ := Prod.mk.inj (Option.some.inj (hanswer.symm.trans hcall))
    have hpending := Ledger.pending_of_reserved (congrArg Prod.fst hreply)
    rw [← hrest.rep.pendingSlot_none hrest.ok, (hfollows.same houtside).1]
    exact (hwhole.rep.pendingSlot_none hwhole.ok).mpr hpending
  obtain ⟨-, rfl⟩ := Prod.ext_iff.mp (Option.some.inj hcall)
  exact hfollows.leave hgeo haddr hwrap hcall (rbAcquire_undone w) rfl (by rintro ⟨⟩)
    (fun _ => hclear) fun a _ => (rbCall_keeps b (.acquire w) hcall).outside a (by rintro _ ⟨⟩)

theorem abort {events : List Event} (hinside : inside = true)
    (hcall : rbCall b rb .abort = some ((.code .ok, events), next)) :
    Follows b geo false m next (L.call .abort).2 rb' L' := by
  have hsame : (rb'.pendingSlot, rb'.pendingWanted) = (next.pendingSlot, next.pendingWanted) := by
    obtain ⟨_, hanswer, hnext⟩ := hfollows.whole.call_exact hgeo haddr (fun _ => hwrap) .abort
    obtain ⟨-, rfl⟩ := Prod.mk.inj (Option.some.inj (hanswer.symm.trans hcall))
    rw [hfollows.rest.rep.pending, hnext.rep.pending, hfollows.clear hinside]
    exact congrArg pendingFields L.abort_pending.symm
  obtain ⟨-, rfl⟩ := Prod.ext_iff.mp (Option.some.inj hcall)
  exact hfollows.leave hgeo haddr hwrap hcall rbAbort_undone rfl
    (fun _ => Prod.mk.inj hsame) (by rintro ⟨⟩)
    fun a _ => (rbCall_keeps b .abort hcall).outside a (by rintro _ ⟨⟩)

omit haddr in
/-- A reservation that is left out writes to a slot that is not in use. -/
theorem not_busy (hinside : inside = true) {r : Reservation} (hpending : L.pending = some r) :
    ¬ L'.usage.Busy r.slotIndex := by
  have hwhole := hfollows.whole
  have hrest := hfollows.rest
  obtain ⟨hslot, hroom⟩ := hwhole.ok.pending_slot r hpending
  have hlimit : L'.limit = L.limit := by
    obtain ⟨d, hd⟩ := hfollows.vary
    rw [← hrest.rep.limit, ← hwhole.rep.limit, hd]
  have hfree : L'.count < L'.limit.toNat := by rwa [hfollows.count_eq hgeo, hlimit]
  have hhead : L'.slotFor L'.head = r.slotIndex := by
    rw [hslot, hfollows.head, Ledger.slotFor, Ledger.slotFor, hfollows.slots_eq]
  rintro (⟨r', hr', -⟩ | ⟨p, htail, hlt, heq⟩)
  · exact absurd ((hfollows.clear hinside).symm.trans hr') (by rintro ⟨⟩)
  · refine Ledger.slotFor_head_ne hrest.ok (hfollows.wrapSafe hwrap) hfree ?_ (heq.trans hhead.symm)
    have hend : L'.tail + L'.count = L'.head := Nat.add_sub_of_le hrest.ok.tail_le_head
    exact List.mem_range'_1.mpr ⟨htail, hlt.trans_eq hend.symm⟩

omit haddr in
theorem not_written (hinside : inside = true) {k : Nat}
    (hwrites : rb.pendingSlot ≠ noPending ∧ k < (payloadCap b rb.geo).toNat) :
    payloadOffset b rb.geo rb.pendingSlot k ∉ bytesWhere b geo (L'.Firm m) := by
  intro hmem
  obtain ⟨hlayout, hok, hrep⟩ := hfollows.whole
  have hpending : L.pending ≠ none := fun hnone => hwrites.1 ((hrep.pendingSlot_none hok).mpr hnone)
  obtain ⟨r, hr⟩ := Option.ne_none_iff_exists'.mp hpending
  have hslot : rb.pendingSlot = r.slotIndex := by
    rw [hrep.pendingSlot_eq, hr]
    rfl
  have hlt : r.slotIndex.toNat < rb.geo.slots.toNat := by
    rw [(hok.pending_slot r hr).1]
    exact hrep.slotFor_lt hok L.head
  rw [hslot, hlayout] at hmem
  exact hfollows.not_busy hgeo hwrap hinside hr
    (hmem r.slotIndex k (hlayout ▸ hlt) (hlayout ▸ hwrites.2) rfl).1

theorem write {k : Nat} {v : UInt8} {events : List Event} (hinside : inside = true)
    (hcall : rbCall b rb (.write k v) = some ((.code .ok, events), next)) :
    Follows b geo inside m next (L.call (.write k v)).2 rb' L' := by
  have hmemory : ∀ a ∈ bytesWhere b geo (L'.Firm m), next.store.scratch a = rb.store.scratch a := by
    intro a ha
    apply (rbCall_keeps b (.write k v) hcall).outside
    intro range hrange
    simp only [footprint] at hrange
    split_ifs at hrange with hwrites
    · obtain rfl := List.mem_singleton.mp hrange
      have hne : a ≠ payloadOffset b rb.geo rb.pendingSlot k := by
        rintro rfl
        exact hfollows.not_written hgeo hwrap hinside hwrites ha
      dsimp only
      omega
    · cases hrange
  obtain ⟨-, rfl⟩ := Prod.ext_iff.mp (Option.some.inj hcall)
  exact hfollows.leave hgeo haddr hwrap hcall (payloadWrite_undone k v) rfl
    (fun houtside => absurd (hinside.symm.trans houtside) (by decide))
    (fun _ => hfollows.clear hinside) hmemory

end Steps

/-- The first call of a run, and the run after it. -/
theorem uncons (hgeo : geo.Sound b) (haddr : b.mode = .pointer → geo.Addressable b)
    (htracks : Tracks b geo rb L) {trace : List (Call × Output)} {last : Rb}
    (hrun : (ring b).run rb (((c, output) :: trace).map Prod.fst) =
      some (((c, output) :: trace).map Prod.snd, last))
    (hwrap : WrapSafe L.slots (L.head + publishes (((c, output) :: trace).map Prod.fst)
      (((c, output) :: trace).map Prod.snd))) :
    ∃ next, rbCall b rb c = some (output, next) ∧
      (ring b).run next (trace.map Prod.fst) = some (trace.map Prod.snd, last) ∧
      WrapSafe L.slots L.head ∧ WrapSafe (L.call c).2.slots
        ((L.call c).2.head + publishes (trace.map Prod.fst) (trace.map Prod.snd)) := by
  obtain ⟨next, hcall, hrest⟩ := (ring b).run_trace_cons.mp hrun
  have hsafe : WrapSafe L.slots L.head := hwrap.mono (Nat.le_add_right _ _)
  obtain ⟨_, hanswer, -⟩ := htracks.call_exact hgeo haddr (fun _ => hsafe) c
  obtain ⟨rfl, -⟩ := Prod.mk.inj (Option.some.inj (hanswer.symm.trans hcall))
  refine ⟨next, hcall, hrest, hsafe, ?_⟩
  rw [L.call_slots, (L.call_head c).1, Nat.add_assoc, ← publishes_cons]
  exact hwrap

/-- From `rb'` on, the calls that are kept can be made again: they show the same, and the
ring they end with follows `last`. -/
def Reruns (b : Build) (geo : Geometry) (m : Marks) (rb' last : Rb)
    (kept : List (Call × Output)) : Prop :=
  ∃ rerun last' M M', rerun.map Prod.fst = kept.map Prod.fst ∧
    (ring b).run rb' (rerun.map Prod.fst) = some (rerun.map Prod.snd, last') ∧
    m.shownAll rerun = m.shownAll kept ∧ Follows b geo false (m.after kept) last M last' M'

theorem Reruns.cons {next' last : Rb} {output' : Output} {kept : List (Call × Output)}
    (hcall' : rbCall b rb' c = some (output', next'))
    (hshown : m.shown c output' = m.shown c output)
    (hnote : m.note c output' = m.note c output)
    (hrest : Reruns b geo (m.note c output) next' last kept) :
    Reruns b geo m rb' last ((c, output) :: kept) := by
  obtain ⟨rerun, last', M, M', hcalls, hrerun, hsame, hlast⟩ := hrest
  refine ⟨(c, output') :: rerun, last', M, M', ?_, ?_, ?_, hlast⟩
  · exact congrArg (c :: ·) hcalls
  · exact (ring b).run_trace_cons.mpr ⟨_, hcall', hrerun⟩
  · rw [Marks.shownAll, Marks.shownAll, hshown, hnote, hsame]

/-- The run that is left over shows the same, and its ring still follows the other. -/
theorem run (hgeo : geo.Sound b) (haddr : b.mode = .pointer → geo.Addressable b)
    {trace kept : List (Call × Output)} (hdeletes : Deletes inside trace kept) {last : Rb}
    (hfollows : Follows b geo inside m rb L rb' L')
    (hrun : (ring b).run rb (trace.map Prod.fst) = some (trace.map Prod.snd, last))
    (hwrap : WrapSafe L.slots
      (L.head + publishes (trace.map Prod.fst) (trace.map Prod.snd))) :
    Reruns b geo m rb' last kept := by
  induction hdeletes generalizing m rb L rb' L' with
  | done =>
      obtain ⟨-, rfl⟩ := Prod.mk.inj (Option.some.inj hrun)
      exact ⟨[], rb', L, L', rfl, rfl, rfl, hfollows⟩
  | @keep x trace kept hdeletes ih =>
      obtain ⟨next, hcall, hrest, hsafe, hlater⟩ := uncons hgeo haddr hfollows.whole hrun hwrap
      obtain ⟨output', next', hcall', hshown, hnote, hnext⟩ :=
        hfollows.keep hgeo haddr hsafe hcall (by rintro ⟨⟩)
      exact (ih hnext hrest hlater).cons hcall' hshown hnote
  | failed hfailed hdeletes ih =>
      obtain ⟨next, hcall, hrest, hsafe, hlater⟩ := uncons hgeo haddr hfollows.whole hrun hwrap
      exact ih (hfollows.failed hgeo haddr hsafe hcall hfailed) hrest hlater
  | acquire hdeletes ih =>
      obtain ⟨next, hcall, hrest, hsafe, hlater⟩ := uncons hgeo haddr hfollows.whole hrun hwrap
      exact ih (hfollows.acquire hgeo haddr hsafe rfl hcall) hrest hlater
  | write hdeletes ih =>
      obtain ⟨next, hcall, hrest, hsafe, hlater⟩ := uncons hgeo haddr hfollows.whole hrun hwrap
      exact ih (hfollows.write hgeo haddr hsafe rfl hcall) hrest hlater
  | between hother hdone hdeletes ih =>
      obtain ⟨next, hcall, hrest, hsafe, hlater⟩ := uncons hgeo haddr hfollows.whole hrun hwrap
      obtain ⟨output', next', hcall', hshown, hnote, hnext⟩ :=
        hfollows.keep hgeo haddr hsafe hcall fun _ => hother
      exact (ih hnext hrest hlater).cons hcall' hshown hnote
  | abort hdeletes ih =>
      obtain ⟨next, hcall, hrest, hsafe, hlater⟩ := uncons hgeo haddr hfollows.whole hrun hwrap
      exact ih (hfollows.abort hgeo haddr hsafe rfl hcall) hrest hlater

end Follows

/-! ## From `rb_init` on -/

/-- The slot is reserved, or a message waits in it or is held. -/
def Rb.InUse (rb : Rb) (s : UInt32) : Prop :=
  rb.pendingSlot = s ∨
    ∃ k < (rbCount rb).toNat, slotIndexFor rb.geo (rb.tail + UInt32.ofNat k) = s

/-- The two rings are the same but for the cached counter of the producer, the count of
full attempts, the payload of free slots, and payload bytes of slots in use that their own
producer did not write. -/
structure Rb.SameButUnowned (b : Build) (m : Marks) (rb rb' : Rb) : Prop where
  fields : rb' = { rb with
    cachedTail := rb'.cachedTail
    stats.fullAttempts := rb'.stats.fullAttempts
    store.scratch := rb'.store.scratch }
  bytes : Set.EqOn rb.store.scratch rb'.store.scratch
    (bytesWhere b rb.geo fun s k => rb.InUse s ∧ k ∈ m.wrote s)

theorem Tracks.busy_of_inUse {b : Build} {geo : Geometry} {rb : Rb} {L : Ledger}
    (hgeo : geo.Sound b) (htracks : Tracks b geo rb L) {s : UInt32}
    (hs : s.toNat < geo.slots.toNat) (huse : rb.InUse s) : L.usage.Busy s := by
  have hcount := htracks.rbCount_toNat hgeo
  obtain ⟨rfl, hok, hrep⟩ := htracks
  rcases huse with rfl | ⟨k, hk, rfl⟩
  · have hpending : L.pending ≠ none := fun hnone =>
      Geometry.Masked.ne_noPending hs ((hrep.pendingSlot_none hok).mpr hnone)
    obtain ⟨r, hr⟩ := Option.ne_none_iff_exists'.mp hpending
    refine Or.inl ⟨r, hr, ?_⟩
    rw [hrep.pendingSlot_eq, hr]
    rfl
  · have hend : L.tail + L.count = L.head := Nat.add_sub_of_le hok.tail_le_head
    refine Or.inr ⟨L.tail + k, Nat.le_add_right _ _, ?_, ?_⟩
    · show L.tail + k < L.head
      omega
    · rw [hrep.tail, ← UInt32.ofNat_add]
      exact (hrep.slotAt_eq hok hgeo _).symm

theorem Follows.sameButUnowned {b : Build} {geo : Geometry} {m : Marks} {rb rb' : Rb}
    {L L' : Ledger} (hgeo : geo.Sound b) (hfollows : Follows b geo false m rb L rb' L') :
    rb.SameButUnowned b m rb' := by
  have hrest := hfollows.rest
  have hmemory := hfollows.memory
  have hlayout := hfollows.whole.layout
  obtain ⟨hslot, hwanted⟩ := hfollows.same rfl
  obtain ⟨d, rfl⟩ := hfollows.vary
  have huse : ∀ s, rb.InUse s → (rb.vary d).InUse s := by
    rintro s (rfl | hqueued)
    · exact Or.inl hslot
    · exact Or.inr hqueued
  refine ⟨?_, ?_⟩
  · exact congrArg₂ (fun slot wanted =>
      rb.vary { d with pendingSlot := slot, pendingWanted := wanted }) hslot hwanted
  · intro a ha
    apply hmemory
    intro s k hs hk heq
    rw [hlayout] at ha
    obtain ⟨hused, hwrote⟩ := ha s k hs hk heq
    exact ⟨hrest.busy_of_inUse hgeo hs (huse s hused), hwrote⟩

/-- Take out of any run from `rb_init` on any failed calls, and any successful reservations
together with their writes, their abort and the failed calls in between: every call that is
left returns the same and invokes the same callbacks, every byte that the producer of a
message wrote is read unchanged, and the rings at the end are the same but for what no
message owns. -/
theorem deletion_leaves_no_trace {b : Build} {addr scratch scratchSize : BitVec b.sizeBits}
    {cfg : Config} {before : Store} {rb last : Rb}
    (hinit : rbInit b addr (some cfg) scratch scratchSize before = .ok rb)
    (hover : rb.geo.NonOverlapping) (haddr : b.mode = .pointer → rb.geo.Addressable b)
    {trace kept : List (Call × Output)}
    (hrun : (ring b).run rb (trace.map Prod.fst) = some (trace.map Prod.snd, last))
    (hwrap : WrapSafe rb.geo.slots (publishes (trace.map Prod.fst) (trace.map Prod.snd)))
    (hdeletes : Deletes false trace kept) :
    ∃ rerun last', rerun.map Prod.fst = kept.map Prod.fst ∧
      (ring b).run rb (rerun.map Prod.fst) = some (rerun.map Prod.snd, last') ∧
      Marks.shownAll {} rerun = Marks.shownAll {} kept ∧
      last.SameButUnowned b (Marks.after {} kept) last' := by
  obtain ⟨cfg', heq, hacc⟩ := rbInit_accepted hinit
  obtain rfl := Option.some.inj heq
  have hgeo := hacc.sound hover
  have htracks := hacc.tracks
  have hfollows : Follows b rb.geo false {} rb (cfg.ledger b (rb.store.payload b rb.geo)) rb
      (cfg.ledger b (rb.store.payload b rb.geo)) :=
    ⟨htracks, htracks, ⟨by rintro _ ⟨⟩, by rintro _ ⟨⟩⟩, rfl, ⟨rb.parts, rfl⟩, fun _ => ⟨rfl, rfl⟩,
      by rintro ⟨⟩, fun _ _ => rfl⟩
  have hslots : (cfg.ledger b (rb.store.payload b rb.geo)).slots = rb.geo.slots := htracks.rep.slots
  obtain ⟨rerun, last', M, M', hcalls, hrerun, hshown, hlast⟩ :=
    hfollows.run hgeo haddr hdeletes hrun (by rw [hslots]; exact (Nat.zero_add _).symm ▸ hwrap)
  exact ⟨rerun, last', hcalls, hrerun, hshown, hlast.sameButUnowned hgeo⟩

/-- A reservation is aborted after its first byte was stored. The next one gets the same
slot and is published without storing that byte. -/
def scribbled : List (Call × Output) :=
  [(.consume, (.code .empty, [])),
    (.acquire 0, (.reserved 0 60, [])),
    (.acquire 3, (.code .inval, [])),
    (.write 0 7, (.code .ok, [])),
    (.abort, (.code .ok, [])),
    (.acquire 0, (.reserved 0 60, [])),
    (.write 1 5, (.code .ok, [])),
    (.publishEx 0 2 false, (.code .ok, [.slotAdded 0 2 false]))]

theorem scribbled_deletes : Deletes false scribbled (scribbled.drop 5) :=
  .failed rfl (.acquire (.failed rfl (.write (.abort (.keep (.keep (.keep .done)))))))

theorem scribbled_run : ∃ last, (ring { mode := .index }).run (smallRing .index)
    (scribbled.map Prod.fst) = some (scribbled.map Prod.snd, last) ∧
      last.store.payload { mode := .index } last.geo 0 0 = 7 ∧ last.InUse 0 := by
  have hrun : ((ring { mode := .index }).run (smallRing .index) (scribbled.map Prod.fst)).map
      (fun x => (x.1, x.2.store.payload { mode := .index } x.2.geo 0 0, rbCount x.2,
        slotIndexFor x.2.geo (x.2.tail + 0))) = some (scribbled.map Prod.snd, 7, 1, 0) := by
    decide +kernel
  obtain ⟨⟨outputs, last⟩, hlast, heq⟩ := Option.map_eq_some_iff.mp hrun
  obtain ⟨rfl, hbyte, hcount, hslot⟩ : outputs = scribbled.map Prod.snd ∧ _ ∧ _ ∧ _ := by
    simpa only [Prod.mk.injEq] using heq
  refine ⟨last, hlast, hbyte, Or.inr ⟨0, ?_, hslot⟩⟩
  rw [hcount]
  decide

theorem scribbled_leaves_no_trace :
    ∃ last, (ring { mode := .index }).run (smallRing .index) (scribbled.map Prod.fst) =
        some (scribbled.map Prod.snd, last) ∧
      ∃ rerun last', rerun.map Prod.fst = (scribbled.drop 5).map Prod.fst ∧
      (ring { mode := .index }).run (smallRing .index) (rerun.map Prod.fst) =
        some (rerun.map Prod.snd, last') ∧
      Marks.shownAll {} rerun = Marks.shownAll {} (scribbled.drop 5) ∧
      last.SameButUnowned { mode := .index } (Marks.after {} (scribbled.drop 5)) last' := by
  obtain ⟨last, hrun, -⟩ := scribbled_run
  exact ⟨last, hrun, deletion_leaves_no_trace (smallRing_init .index)
    (smallRing_nonOverlapping .index) (fun hmode => by cases hmode) hrun (Or.inl (by decide))
    scribbled_deletes⟩

/-- The message is in the ring after both runs, and its first byte differs: an abort does
not take back what was stored. -/
theorem scribbled_byte_differs :
    ∃ last last', (ring { mode := .index }).run (smallRing .index) (scribbled.map Prod.fst) =
        some (scribbled.map Prod.snd, last) ∧
      (ring { mode := .index }).run (smallRing .index) ((scribbled.drop 5).map Prod.fst) =
        some ((scribbled.drop 5).map Prod.snd, last') ∧
      Deletes false scribbled (scribbled.drop 5) ∧ last.InUse 0 ∧
      last.store.payload { mode := .index } last.geo 0 0 = 7 ∧
      last'.store.payload { mode := .index } last'.geo 0 0 = 0 := by
  obtain ⟨last, hrun, hbyte, huse⟩ := scribbled_run
  have hrerun : ((ring { mode := .index }).run (smallRing .index)
      ((scribbled.drop 5).map Prod.fst)).map
        (fun x => (x.1, x.2.store.payload { mode := .index } x.2.geo 0 0)) =
          some ((scribbled.drop 5).map Prod.snd, 0) := by
    decide +kernel
  obtain ⟨⟨outputs, last'⟩, hlast, heq⟩ := Option.map_eq_some_iff.mp hrerun
  obtain ⟨rfl, hbyte'⟩ := Prod.mk.inj heq
  exact ⟨last, last', hrun, hlast, scribbled_deletes, huse, hbyte, hbyte'⟩

end RingBuff
