import RingBuff.Ledger.Delivery
import RingBuff.Queue.Batch

/-! # What waits in a ring

The messages in a ring, read from its memory in the way `rb_consume` would come to
them, and what `rb_flush` and `rb_drain` do to them. The list is the queue of the
ledger that the ring tracks, so both follow from the batch calls on the queue.
-/

namespace RingBuff

/-- The message at a position, as `rb_consume` would find it. -/
def Store.parcelAt (b : Build) (geo : Geometry) (st : Store) (pos : UInt32) : Option Parcel :=
  match st.frontSlot b geo pos with
  | some (.ok slotIndex) =>
      let hdr := st.header b geo slotIndex
      some ⟨slotIndex, headerLen hdr, headerTruncated hdr,
        (List.range (headerLen hdr).toNat).map (st.payload b geo slotIndex)⟩
  | _ => none

/-- The messages that wait in the ring, oldest first; the first may be held. -/
def Rb.waiting (b : Build) (rb : Rb) : List Parcel :=
  (List.range (rbCount rb).toNat).filterMap fun k =>
    rb.store.parcelAt b rb.geo (rb.tail + UInt32.ofNat k)

/-- The message an answer of a flush callback stands for, if it is the `k`-th to be
published: what the callback did not store is what the slot held. -/
def Rb.outgoing (b : Build) (rb : Rb) (k : Nat) (a : Filled) : Parcel :=
  let cap := payloadCap b rb.geo
  let slotIndex := slotIndexFor rb.geo (rb.head + UInt32.ofNat k)
  let len := if cap < a.len then cap else a.len
  ⟨slotIndex, len, a.truncated || cap < a.len,
    (List.range len.toNat).map
      (overwrite cap.toNat (rb.store.payload b rb.geo slotIndex) a.stores)⟩

/-- The answers a flush callback gives as long as there is room. -/
def Rb.offered {σ : Type} (b : Build) (rb : Rb) (fn : FlushFn σ) (user : σ) : List Filled :=
  fn.answers (payloadCap b rb.geo) (rb.limit.toNat - (rbCount rb).toNat) user

/-- What `rb_flush` makes of a ring. -/
structure Rb.Flushed {σ : Type} (b : Build) (rb : Rb) (fn : FlushFn σ) (user : σ)
    (result : Option (UInt32 × σ)) (last : Rb) : Prop where
  result : result = some (UInt32.ofNat (accepted (rb.offered b fn user)).length,
    fn.after (payloadCap b rb.geo) (asked (rb.offered b fn user)).length user)
  waiting : last.waiting b =
    rb.waiting b ++ (accepted (rb.offered b fn user)).mapIdx (rb.outgoing b)
  pending : last.pendingSlot = noPending

/-- What `rb_drain` makes of a ring. -/
structure Rb.Drained {σ : Type} (b : Build) (rb : Rb) (fn : DrainFn σ) (user : σ)
    (result : Option (UInt32 × σ)) (last : Rb) : Prop where
  result : result = some (UInt32.ofNat (fn.handed (rb.waiting b) user).1,
    (fn.handed (rb.waiting b) user).2)
  waiting : last.waiting b = (rb.waiting b).drop (fn.handed (rb.waiting b) user).1
  active : last.consumerActive = 0

/-- In a state with a history, no waiting message is longer than its slot. -/
theorem Recorded.fits {h : History} {L : Ledger} (hrec : Recorded h L) (hok : L.Ok) :
    L.queue.Fits := by
  intro m hm
  obtain ⟨p, hp, rfl⟩ := List.mem_map.mp hm
  obtain ⟨htail, hlt⟩ := List.mem_range'_1.mp hp
  have hend : L.tail + L.count = L.head := Nat.add_sub_of_le hok.tail_le_head
  obtain ⟨posted, hposted⟩ : ∃ posted, h.posted[p]? = some posted :=
    ⟨_, List.getElem?_eq_getElem (by rw [hrec.head]; omega)⟩
  have hlen := posted.fetched_len L.cap (L.slotFor p)
  rw [Posted.fetched, ← hrec.header p posted htail hposted] at hlen
  calc (L.messageAt p).len.toNat = min posted.written.toNat L.cap.toNat % 2 ^ 31 := hlen
    _ ≤ min posted.written.toNat L.cap.toNat := Nat.mod_le _ _
    _ ≤ L.cap.toNat := Nat.min_le_right _ _

namespace Tracks

variable {b : Build} {geo : Geometry} {rb : Rb} {L : Ledger} (hgeo : geo.Sound b)
  (haddr : b.mode = .pointer → geo.Addressable b) (htracks : Tracks b geo rb L)

include hgeo htracks

/-- The message an answer stands for is the same in the ring and in the queue. -/
theorem outgoing_eq {k : Nat} (hwrap : WrapSafe L.slots (L.head + k)) (a : Filled) :
    (L.queue.outgoing k a).parcel = rb.outgoing b k a := by
  obtain ⟨rfl, hok, hrep⟩ := htracks
  have hcap : L.queue.cap = payloadCap b rb.geo := hrep.cap
  have hslot : L.queue.slotAfter k = slotIndexFor rb.geo (rb.head + UInt32.ofNat k) := by
    rw [hrep.head, ← UInt32.ofNat_add]
    exact ((hrep.slotAt_eq hok hgeo _).trans (Ledger.slotFor_eq hwrap)).symm
  have hlt : (L.queue.slotAfter k).toNat < rb.geo.slots.toNat := by
    rw [hslot]
    exact hgeo.slotIndexFor_lt _
  have hlen : UInt32.ofNat (min a.len.toNat L.queue.cap.toNat) =
      if L.queue.cap < a.len then L.queue.cap else a.len := by
    split_ifs with hover
    · rw [Nat.min_eq_right (UInt32.lt_iff_toNat_lt.mp hover).le, UInt32.ofNat_toNat]
    · rw [Nat.min_eq_left (UInt32.le_iff_toNat_le.mp (UInt32.not_lt.mp hover)),
        UInt32.ofNat_toNat]
  have hlen_le : (if L.queue.cap < a.len then L.queue.cap else a.len).toNat ≤
      L.queue.cap.toNat := by
    split_ifs with hover
    · exact le_rfl
    · exact UInt32.le_iff_toNat_le.mp (UInt32.not_lt.mp hover)
  have hbytes := overwrite_congr (fun j hj => hrep.payload _ hlt j (hcap ▸ hj)) a.stores
  have hobj := List.map_congr_left fun j hj =>
    hbytes j ((List.mem_range.mp hj).trans_le hlen_le)
  rw [Message.parcel, Queue.outgoing, Rb.outgoing]
  dsimp only
  rw [hlen, ← hslot, ← hcap, hobj]
  rfl

include haddr

theorem parcelAt_eq (hwrap : WrapSafe L.slots L.head) {p : Nat}
    (hp : p ∈ List.range' L.tail L.count) (hfits : (L.messageAt p).len.toNat ≤ L.cap.toNat) :
    rb.store.parcelAt b rb.geo (UInt32.ofNat p) = some (L.messageAt p).parcel := by
  obtain ⟨rfl, hok, hrep⟩ := htracks
  obtain ⟨htail, hlt⟩ := List.mem_range'_1.mp hp
  have hend : L.tail + L.count = L.head := Nat.add_sub_of_le hok.tail_le_head
  have hentered := hrep.entered (fun _ => hwrap) p htail (by omega)
  have hheader := hrep.header p htail (by omega)
  have hbytes : (List.range (headerLen (L.header (L.slotFor p))).toNat).map
      (rb.store.payload b rb.geo (L.slotFor p)) =
        (List.range (headerLen (L.header (L.slotFor p))).toNat).map (L.payload (L.slotFor p)) := by
    apply List.map_congr_left
    intro k hk
    have hk' := (List.mem_range.mp hk).trans_le hfits
    exact hrep.payload _ (hrep.slotFor_lt hok p) k (hrep.cap ▸ hk')
  rw [Store.parcelAt, hentered.frontSlot (hgeo.findable haddr), hrep.slotAt_eq hok hgeo]
  dsimp only
  rw [hheader, hbytes]
  rfl

theorem waiting_eq (hwrap : WrapSafe L.slots L.head) (hfits : L.queue.Fits) :
    rb.waiting b = L.queue.messages.map Message.parcel := by
  have hmessages : L.queue.messages =
      (List.range L.count).map fun k => L.messageAt (L.tail + k) := by
    rw [Ledger.queue, List.range'_eq_map_range, List.map_map]
    rfl
  rw [Rb.waiting, htracks.rbCount_toNat hgeo, hmessages, List.map_map, ← List.filterMap_eq_map]
  apply List.filterMap_congr
  intro k hk
  have hmem : L.tail + k ∈ List.range' L.tail L.count :=
    List.mem_range'_1.mpr ⟨Nat.le_add_right _ _, Nat.add_lt_add_left (List.mem_range.mp hk) _⟩
  rw [htracks.rep.tail, ← UInt32.ofNat_add]
  exact htracks.parcelAt_eq hgeo haddr hwrap hmem (hfits _ (List.mem_map_of_mem hmem))

/-- A client that ends on the queue ends on the ring. -/
theorem exec_gives {α : Type} {p : Session α} {result : α} {Q' : Queue}
    (hgives : Gives p L.queue result Q') (hshort : L.cap.toNat < 2 ^ 31)
    (hwrap : WrapSafe L.slots Q'.published) :
    ∃ e M, (ring b).exec p rb = some e ∧ e.result = result ∧ Tracks b geo e.last M ∧
      M.queue = Q' ∧ WrapSafe M.slots M.head := by
  obtain ⟨e, hexec, hresult, hlast⟩ := hgives L ⟨htracks.ok, hshort, rfl⟩
  have hslots : e.last.slots = L.slots := (Ledger.run_head (ledger.run_of_exec hexec)).2
  have hhead : e.last.head = Q'.published := congrArg Queue.published hlast.queue
  have hsafe : WrapSafe e.last.slots e.last.head := by
    rw [hslots, hhead]
    exact hwrap
  obtain ⟨rb', hring, htracks'⟩ := htracks.exec_exact hgeo haddr hexec fun _ => hsafe
  exact ⟨_, e.last, hring, hresult, htracks', hlast.queue, hsafe⟩

theorem flush {σ : Type} (hshort : L.cap.toNat < 2 ^ 31) (hfits : L.queue.Fits)
    (hpending : rb.pendingSlot = noPending) (fn : FlushFn σ) (user : σ) {fuel : Nat}
    (hfuel : rb.limit.toNat < fuel)
    (hwrap : WrapSafe L.slots (L.head + (accepted (rb.offered b fn user)).length)) :
    ∃ e, (ring b).exec (rbFlush fuel fn user) rb = some e ∧
      rb.Flushed b fn user e.result e.last := by
  have hok := htracks.ok
  have hlimit : rb.limit = L.queue.limit := htracks.rep.limit
  have hoffered : rb.offered b fn user =
      fn.answers L.queue.cap (L.limit.toNat - L.count) user := by
    rw [Rb.offered, htracks.rbCount_toNat hgeo, hlimit]
    exact congrArg (fun cap => fn.answers cap _ user) htracks.rep.cap.symm
  have hroom : L.queue.messages.length + (L.limit.toNat - L.count) = L.queue.limit.toNat := by
    rw [L.queue_length]
    exact Nat.add_sub_of_le hok.room
  have hnone : L.queue.pending = none :=
    congrArg (Option.map _) ((htracks.rep.pendingSlot_none hok).mp hpending)
  have hrounds : L.limit.toNat - L.count < fuel :=
    (Nat.sub_le _ _).trans_lt (htracks.rep.limit ▸ hfuel)
  obtain ⟨Q', hgives, hflushed⟩ := Queue.gives_flushLoop fn _ hrounds 0 user hnone hroom
    hok.limit_slots (hoffered ▸ hwrap)
  rw [← hoffered] at hgives hflushed
  obtain ⟨e, M, hexec, hresult, hM, hqueue, hsafe⟩ := htracks.exec_gives hgeo haddr hgives hshort
    (hflushed.published ▸ hwrap)
  refine ⟨e, hexec, ?_, ?_, ?_⟩
  · rw [hresult, UInt32.zero_add]
    exact congrArg (fun cap => some (_, fn.after cap _ user)) htracks.rep.cap
  · have hold := htracks.waiting_eq hgeo haddr (hwrap.mono (Nat.le_add_right _ _)) hfits
    have hnew := hM.waiting_eq hgeo haddr hsafe (hqueue ▸ hfits.flushed hflushed)
    have hsent : ((accepted (rb.offered b fn user)).mapIdx L.queue.outgoing).map Message.parcel =
        (accepted (rb.offered b fn user)).mapIdx (rb.outgoing b) := by
      apply List.ext_getElem
      · simp
      · intro k hk hk'
        rw [List.length_mapIdx] at hk'
        rw [List.getElem_map, List.getElem_mapIdx, List.getElem_mapIdx]
        exact htracks.outgoing_eq hgeo (hwrap.mono (by omega)) _
    rw [hnew, hold, hqueue, hflushed.messages, List.map_append, hsent]
  · refine (hM.rep.pendingSlot_none hM.ok).mpr ?_
    have hpend := hflushed.pending
    rw [← hqueue] at hpend
    exact Option.map_eq_none_iff.mp hpend

theorem drain {σ : Type} (hshort : L.cap.toNat < 2 ^ 31) (hfits : L.queue.Fits)
    (hactive : rb.consumerActive = 0) (fn : DrainFn σ) (user : σ) {fuel : Nat}
    (hfuel : (rbCount rb).toNat < fuel) (hwrap : WrapSafe L.slots L.head) :
    ∃ e, (ring b).exec (rbDrain fuel fn user) rb = some e ∧
      rb.Drained b fn user e.result e.last := by
  have hheld : L.queue.held = false := by
    have hnot : ¬ L.held.isSome = true := fun hsome => htracks.rep.active_ne.mpr hsome hactive
    simpa [Ledger.queue] using hnot
  have hwaiting := htracks.waiting_eq hgeo haddr hwrap hfits
  have hrounds : L.queue.messages.length < fuel := by
    rwa [L.queue_length, ← htracks.rbCount_toNat hgeo]
  have hgives := Queue.gives_drainLoop fn 0 user hrounds hheld hfits hwrap
  rw [← hwaiting] at hgives
  obtain ⟨e, M, hexec, hresult, hM, hqueue, hsafe⟩ :=
    htracks.exec_gives hgeo haddr hgives hshort hwrap
  refine ⟨e, hexec, ?_, ?_, ?_⟩
  · rw [hresult, UInt32.zero_add]
  · rw [hM.waiting_eq hgeo haddr hsafe (hqueue ▸ hfits.dropped _), hqueue, hwaiting]
    exact List.map_drop
  · have hnone : M.held.isSome = false := by
      have hsame : M.queue.held = false := by rw [hqueue]; exact hheld
      exact hsame
    rw [hM.rep.active, hnone]
    rfl

end Tracks

/-- Batch calls are exact. In every state that whole calls reach, whatever the callback
answers: `rb_flush` ends, and appends the messages of the answers up to the first that
refuses or stops, as long as there is room; `rb_drain` ends, and hands out the waiting
messages in order until the callback answers false. -/
theorem batch_exact {b : Build} {addr scratch scratchSize : BitVec b.sizeBits}
    {cfg : Config} {before : Store} {rb rb' : Rb}
    (hinit : rbInit b addr (some cfg) scratch scratchSize before = .ok rb)
    (hover : rb.geo.NonOverlapping) (hcap : (payloadCap b rb.geo).toNat < 2 ^ 31)
    (haddr : b.mode = .pointer → rb.geo.Addressable b)
    {calls : List Call} {outputs : List Output}
    (hrun : (ring b).run rb calls = some (outputs, rb')) (σ : Type) (user : σ) :
    (∀ fn : FlushFn σ, rb'.pendingSlot = noPending →
      WrapSafe rb.geo.slots (publishes calls outputs + (accepted (rb'.offered b fn user)).length) →
      ∀ fuel, rb'.limit.toNat < fuel →
        ∃ e, (ring b).exec (rbFlush fuel fn user) rb' = some e ∧
          rb'.Flushed b fn user e.result e.last) ∧
    (∀ fn : DrainFn σ, rb'.consumerActive = 0 →
      WrapSafe rb.geo.slots (publishes calls outputs) →
      ∀ fuel, (rbCount rb').toNat < fuel →
        ∃ e, (ring b).exec (rbDrain fuel fn user) rb' = some e ∧
          rb'.Drained b fn user e.result e.last) := by
  obtain ⟨cfg', heq, hacc⟩ := rbInit_accepted hinit
  obtain rfl := Option.some.inj heq
  have hgeo := hacc.sound hover
  have hstate : WrapSafe rb.geo.slots (publishes calls outputs) →
      ∃ M, Tracks b rb.geo rb' M ∧ M.slots = rb.geo.slots ∧ M.head = publishes calls outputs ∧
        M.cap.toNat < 2 ^ 31 ∧ M.queue.Fits := by
    intro hwrap
    obtain ⟨M, -, hM, -, hrec⟩ := hacc.recorded hover haddr hrun hwrap
    refine ⟨M, hM, ?_, ?_, ?_, hrec.fits hM.ok⟩
    · rw [hM.rep.slots, hM.layout]
    · rw [← hrec.head, length_posted_historyOf]
    · rw [hM.rep.cap, hM.layout]
      exact hcap
  constructor
  · intro fn hpending hwrap fuel hfuel
    obtain ⟨M, hM, hslots, hhead, hshort, hfits⟩ := hstate (hwrap.mono (Nat.le_add_right _ _))
    rw [← hslots, ← hhead] at hwrap
    exact hM.flush hgeo haddr hshort hfits hpending fn user hfuel hwrap
  · intro fn hactive hwrap fuel hfuel
    obtain ⟨M, hM, hslots, hhead, hshort, hfits⟩ := hstate hwrap
    rw [← hslots, ← hhead] at hwrap
    exact hM.drain hgeo haddr hshort hfits hactive fn user hfuel hwrap

/-- A callback that never stops and asks for more than a slot holds, and one that adds
up what it is given: one of two slots is taken, so the first has room for one more
message and the second gets one of five bytes. -/
theorem smallRing_batch_exact :
    let fill : FlushFn Nat := fun _ sum => ({ len := 100 }, sum + 1)
    let add : DrainFn Nat := fun obj _ _ sum => (true, sum + obj.length)
    ∃ rb', ((ring { mode := .index }).run (smallRing .index) [.acquire 5, .publish 0 5]).map
        Prod.snd = some rb' ∧
      (∃ e, (ring { mode := .index }).exec (rbFlush 3 fill 0) rb' = some e ∧
        e.result = some (1, 1) ∧ rb'.Flushed { mode := .index } fill 0 e.result e.last) ∧
      ∃ e, (ring { mode := .index }).exec (rbDrain 3 add 0) rb' = some e ∧
        e.result = some (1, 5) ∧ rb'.Drained { mode := .index } add 0 e.result e.last := by
  intro fill add
  have hbatch := batch_exact (smallRing_init .index) (smallRing_nonOverlapping .index)
    (by decide) (fun hmode => by cases hmode)
    (show (ring { mode := .index }).run (smallRing .index) [.acquire 5, .publish 0 5] =
      some (_, _) from rfl) Nat 0
  obtain ⟨e, hflush, hflushed⟩ := hbatch.1 fill rfl (Or.inl (by decide)) 3 (by decide)
  obtain ⟨e', hdrain, hdrained⟩ := hbatch.2 add rfl (Or.inl (by decide)) 3 (by decide)
  refine ⟨_, rfl, ⟨e, hflush, ?_, hflushed⟩, ⟨e', hdrain, ?_, hdrained⟩⟩
  · rw [hflushed.result]
    rfl
  · rw [hdrained.result]
    rfl

end RingBuff
