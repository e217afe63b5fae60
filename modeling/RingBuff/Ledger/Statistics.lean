import RingBuff.Ledger.Account
import RingBuff.Queue.Contents

/-! # The statistics account for the whole run

After every program of calls and batch calls the fields of `rb_stats_t` are read off
the run: what its calls returned, which states it passed through, and what waits in
the ring at its end. Counters are taken modulo their width.
-/

namespace RingBuff

/-- The statistics of `last` are those of a run from `rb` with this trace. -/
structure Rb.Accounts (b : Build) (rb : Rb) (trace : List (Call × Output)) (last : Rb) :
    Prop where
  published : last.stats.published = UInt64.ofNat (historyOf trace).posted.length
  consumed : last.stats.consumed = UInt64.ofNat (historyOf trace).released
  balance : (last.stats.published - last.stats.consumed).toUInt32 = rbCount last
  highWater : IsGreatest {n | ∃ s, (ring b).Visits rb (trace.map Prod.fst) s ∧ rbCount s = n}
    last.stats.highWater
  /-- Some limit in force during the run is not exceeded by the mark. -/
  limit : ∃ s, (ring b).Visits rb (trace.map Prod.fst) s ∧ last.stats.highWater ≤ s.limit
  /-- Messages delivered and released, and messages that still wait. -/
  truncated : last.stats.truncated = UInt64.ofNat
    (((historyOf trace).fetched.take (historyOf trace).released).countP Fetched.truncated +
      (last.waiting b).countP Parcel.truncated)
  fullAttempts : last.stats.fullAttempts = UInt64.ofNat (historyOf trace).refused
  /-- Whichever callbacks are installed instead, once and for all, the other calls return
  the same, the statistics are the same, and the hits count the invocations. -/
  hits : ∀ cb : Callbacks, ∃ outputs last',
    (ring b).run { rb with cb } ((trace.filter fun x => x.1.keepsCallbacks).map Prod.fst) =
        some (outputs, last') ∧
      outputs.map Prod.fst = (trace.filter fun x => x.1.keepsCallbacks).map (fun x => x.2.1) ∧
      last'.stats = last.stats ∧ Hits cb last.stats (outputs.flatMap Prod.snd)

/-! ## Truncated messages -/

section Truncated

variable {h : History} {L : Ledger} (hrec : Recorded h L)

include hrec

/-- The flags of the released messages are those of the first published ones. -/
theorem Recorded.released_flags :
    (h.fetched.take h.released).map Fetched.truncated =
      (h.posted.take L.tail).map (Posted.cut L.cap) := by
  have hlength := hrec.fetched_length
  rw [hrec.tail]
  apply List.ext_getElem?
  intro k
  rw [List.getElem?_map, List.getElem?_map, List.getElem?_take, List.getElem?_take]
  split_ifs with hk
  · cases hd : h.fetched[k]? with
    | none =>
        have hle := List.getElem?_eq_none_iff.mp hd
        omega
    | some d =>
        obtain ⟨m, hm, rfl⟩ := hrec.fetched k d hd
        rw [hm, Option.map_some, Option.map_some, m.fetched_truncated]
  · rfl

/-- The flags of the waiting messages are those of the other published ones. -/
theorem Recorded.waiting_flags :
    L.queue.messages.map Message.truncated = (h.posted.drop L.tail).map (Posted.cut L.cap) := by
  have hlength := hrec.head
  have hcount : L.count = L.head - L.tail := rfl
  apply List.ext_getElem?
  intro k
  rw [Ledger.queue, List.map_map, List.getElem?_map, List.getElem?_map, List.getElem?_drop]
  rcases Nat.lt_or_ge k L.count with hk | hk
  · obtain ⟨m, hm⟩ : ∃ m, h.posted[L.tail + k]? = some m :=
      ⟨_, List.getElem?_eq_getElem (by omega)⟩
    have hheader := hrec.header _ m (Nat.le_add_right _ _) hm
    have hflag := m.fetched_truncated L.cap (L.slotFor (L.tail + k))
    rw [Posted.fetched, ← hheader] at hflag
    rw [hm, List.getElem?_range' hk, Nat.one_mul, Option.map_some, Option.map_some]
    exact congrArg some hflag
  · rw [List.getElem?_eq_none (by rwa [List.length_range']), List.getElem?_eq_none (by omega)]
    rfl

/-- So both together are all truncated messages. -/
theorem Recorded.truncated_eq :
    h.posted.countP (Posted.cut L.cap) =
      (h.fetched.take h.released).countP Fetched.truncated +
        L.queue.messages.countP Message.truncated := by
  have hcount : ∀ {α : Type} (f : α → Bool) (l : List α), l.countP f = (l.map f).countP id := by
    intro α f l
    rw [List.countP_map]
    rfl
  rw [hcount Fetched.truncated, hcount Message.truncated, hrec.released_flags, hrec.waiting_flags,
    ← hcount, ← hcount, ← List.countP_append, List.take_append_drop]

end Truncated

namespace Tracks

variable {b : Build} {geo : Geometry} (hgeo : geo.Sound b)
  (haddr : b.mode = .pointer → geo.Addressable b)

/-- Other callbacks in the ring are other callbacks in the ledger. -/
theorem withCb {rb : Rb} {L : Ledger} (htracks : Tracks b geo rb L) (cb : Callbacks) :
    Tracks b geo { rb with cb } (L.withCb cb) where
  layout := htracks.layout
  ok := { htracks.ok with }
  rep := htracks.rep.withCb cb

include hgeo haddr

/-- The states a run of the ring passes through are those of its ledger. -/
theorem visits {rb : Rb} {L M : Ledger} (htracks : Tracks b geo rb L) {calls : List Call}
    {outputs : List Output} (hrun : ledger.run L calls = some (outputs, M))
    (hwrap : WrapSafe M.slots M.head) (n : Nat) :
    ∃ seen s S, (ring b).run rb (calls.take n) = some (seen, s) ∧
      ledger.run L (calls.take n) = some (seen, S) ∧ Tracks b geo s S := by
  rw [← List.take_append_drop n calls] at hrun
  obtain ⟨seen, S, later, hfirst, hsecond, -⟩ := ledger.exists_run_of_append hrun
  obtain ⟨hhead, hslots⟩ := Ledger.run_head hsecond
  have hsafe : WrapSafe S.slots S.head := by
    rw [hslots, hhead] at hwrap
    exact hwrap.mono (Nat.le_add_right _ _)
  obtain ⟨s, hring, hs⟩ := htracks.run_exact hgeo haddr hfirst fun _ => hsafe
  exact ⟨seen, s, S, hring, hfirst, hs⟩

theorem highWater {rb last : Rb} {L M : Ledger} (htracks : Tracks b geo rb L) {calls : List Call}
    {outputs : List Output} (hrun : ledger.run L calls = some (outputs, M))
    (hwrap : WrapSafe M.slots M.head) (hstart : L.stats.highWater.toNat = L.count)
    (hM : Tracks b geo last M) :
    IsGreatest {n | ∃ s, (ring b).Visits rb calls s ∧ rbCount s = n} last.stats.highWater ∧
      ∃ s, (ring b).Visits rb calls s ∧ last.stats.highWater ≤ s.limit := by
  obtain ⟨⟨S, ⟨n, seen, hseen⟩, hcount⟩, hupper⟩ :=
    Ledger.highWater_isGreatest htracks.ok hstart hrun
  rw [hM.rep.stats]
  obtain ⟨seen', s, S', hring, hledger, hs⟩ := htracks.visits hgeo haddr hrun hwrap n
  obtain ⟨rfl, rfl⟩ := Prod.mk.inj (Option.some.inj (hledger.symm.trans hseen))
  have hmark : rbCount s = M.stats.highWater := by
    apply UInt32.toNat_inj.mp
    rw [hs.rbCount_toNat hgeo, hcount]
  have hvisits : (ring b).Visits rb calls s := ⟨n, seen', hring⟩
  refine ⟨⟨⟨s, hvisits, hmark⟩, ?_⟩, s, hvisits, ?_⟩
  · rintro _ ⟨s', ⟨n', seen'', hring'⟩, rfl⟩
    obtain ⟨_, _, T, hring'', hledger', hT⟩ := htracks.visits hgeo haddr hrun hwrap n'
    obtain ⟨-, rfl⟩ := Prod.mk.inj (Option.some.inj (hring''.symm.trans hring'))
    rw [UInt32.le_iff_toNat_le, hT.rbCount_toNat hgeo]
    exact hupper ⟨T, ⟨n', _, hledger'⟩, rfl⟩
  · rw [← hmark, UInt32.le_iff_toNat_le, hs.rbCount_toNat hgeo, hs.rep.limit]
    exact hs.ok.room

/-- A run with other callbacks. -/
theorem hits {rb last : Rb} {L M : Ledger} (htracks : Tracks b geo rb L)
    {trace : List (Call × Output)}
    (hrun : ledger.run L (trace.map Prod.fst) = some (trace.map Prod.snd, M))
    (hwrap : WrapSafe M.slots M.head) (hstart : ∀ cb, Hits cb L.stats [])
    (hM : Tracks b geo last M) (cb : Callbacks) :
    ∃ outputs last',
      (ring b).run { rb with cb } ((trace.filter fun x => x.1.keepsCallbacks).map Prod.fst) =
          some (outputs, last') ∧
        outputs.map Prod.fst = (trace.filter fun x => x.1.keepsCallbacks).map (fun x => x.2.1) ∧
        last'.stats = last.stats ∧ Hits cb last.stats (outputs.flatMap Prod.snd) := by
  obtain ⟨outputs, hrun', hmap⟩ := Ledger.run_withCb cb hrun
  obtain ⟨last', hring, hlast⟩ :=
    (htracks.withCb cb).run_exact hgeo haddr hrun' fun _ => hwrap
  have hkeeps : ∀ c ∈ (trace.filter fun x => x.1.keepsCallbacks).map Prod.fst,
      c.keepsCallbacks = true := by
    intro c hc
    obtain ⟨x, hx, rfl⟩ := List.mem_map.mp hc
    exact (List.mem_filter.mp hx).2
  have hhits := Hits.run (L := L.withCb cb) (hstart cb) hkeeps hrun'
  refine ⟨outputs, last', hring, hmap, ?_, ?_⟩
  · rw [hlast.rep.stats, hM.rep.stats]
  · rw [hM.rep.stats]
    exact hhits

end Tracks

/-- For every program of calls and batch calls from `rb_init` on, whatever it does with
the answers: the statistics account for the whole run. -/
theorem statistics_account {b : Build} {addr scratch scratchSize : BitVec b.sizeBits}
    {cfg : Config} {before : Store} {rb : Rb}
    (hinit : rbInit b addr (some cfg) scratch scratchSize before = .ok rb)
    (hover : rb.geo.NonOverlapping) (haddr : b.mode = .pointer → rb.geo.Addressable b)
    {α : Type} {p : Session α} {e : Execution Call Output α Rb}
    (hexec : (ring b).exec p rb = some e)
    (hwrap : WrapSafe rb.geo.slots (historyOf e.trace).posted.length) :
    rb.Accounts b e.trace e.last := by
  obtain ⟨cfg', heq, hacc⟩ := rbInit_accepted hinit
  obtain rfl := Option.some.inj heq
  have hgeo := hacc.sound hover
  have htracks := hacc.tracks
  have hzip : (e.trace.map Prod.fst).zip (e.trace.map Prod.snd) = e.trace := by
    rw [List.zip_map', List.map_id'']
    exact fun _ => rfl
  have hrun := (ring b).run_of_exec hexec
  rw [← hzip, length_posted_historyOf] at hwrap
  obtain ⟨M, hledger, hM, hend, hrec⟩ := hacc.recorded hover haddr hrun hwrap
  have hbooks := ((cfg.recorded b (rb.store.payload b rb.geo)).run_invariant htracks.ok hledger
    hend Accounted ⟨rfl, rfl, rfl, rfl⟩
    fun {h S} c _ hrecS haccS => haccS.effect hrecS (S.effect_call c)).2
  rw [hzip] at hrec hbooks
  obtain ⟨hmark, hlimit⟩ := htracks.highWater hgeo haddr hledger hend rfl hM
  have hstats := hM.rep.stats
  refine ⟨?_, ?_, ?_, hmark, hlimit, ?_, ?_, ?_⟩
  · rw [hstats, hbooks.published]
  · rw [hstats, hbooks.consumed]
  · rw [hstats, hbooks.published, hbooks.consumed, hrec.head, hrec.tail,
      hM.rep.rbCount_eq hM.ok (hM.layout ▸ hgeo)]
    have hle := hM.ok.tail_le_head
    apply UInt32.toNat_inj.mp
    rw [UInt64.toNat_toUInt32, UInt64.toNat_sub, UInt64.toNat_ofNat', UInt64.toNat_ofNat',
      UInt32.toNat_ofNat', Ledger.count]
    omega
  · rw [hstats, hbooks.truncated, hrec.truncated_eq,
      hM.waiting_eq hgeo haddr hend (hrec.fits hM.ok), List.countP_map]
    rfl
  · rw [hstats, hbooks.fullAttempts]
  · exact htracks.hits hgeo haddr hledger hend
      (fun _ => ⟨fun _ => rfl, fun _ => rfl, fun _ => rfl⟩) hM

/-- Fill the ring, fail once more, let the batch call take everything out: with no
callback installed, one full ring has been counted. -/
theorem smallRing_statistics_account :
    let fill : FlushFn Nat := fun _ sum => ({ len := 100 }, sum + 1)
    let add : DrainFn Nat := fun obj _ _ sum => (true, sum + obj.length)
    ∃ e, (ring { mode := .index }).exec
        (runAll 3 0 [.flush fill, .call (.acquire 1), .drain add]) (smallRing .index) = some e ∧
      (e.last.stats.published, e.last.stats.truncated, e.last.stats.fullAttempts,
        e.last.stats.highWater, e.last.stats.fullHits) = (2, 2, 2, 2, 1) ∧
      (smallRing .index).Accounts { mode := .index } e.trace e.last := by
  intro fill add
  have hrun : ((ring { mode := .index }).exec
      (runAll 3 0 [.flush fill, .call (.acquire 1), .drain add]) (smallRing .index)).map
        (fun e => (e.last.stats.published, e.last.stats.truncated, e.last.stats.fullAttempts,
          e.last.stats.highWater, e.last.stats.fullHits)) = some (2, 2, 2, 2, 1) := by
    decide +kernel
  obtain ⟨e, hexec, hstats⟩ := Option.map_eq_some_iff.mp hrun
  exact ⟨e, hexec, hstats, statistics_account (smallRing_init .index)
    (smallRing_nonOverlapping .index) (fun hmode => by cases hmode) hexec
    (Or.inl (by decide))⟩

end RingBuff
