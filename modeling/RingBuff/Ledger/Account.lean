import Mathlib.Order.Bounds.Basic
import RingBuff.Ledger.Delivery

/-! # The statistics of a ledger

`Effect` says once what a call can do to the counters of a ledger: nothing, refuse a
reservation, publish a message or release one. The statistics are then followed along
a run and compared with its history, with the occupancy of the states it passes
through, and with the callbacks it would invoke if all of them were installed.
-/

namespace RingBuff

/-- What the statistics are about. -/
def Ledger.books (L : Ledger) : Nat × Nat × UInt32 × Stats :=
  (L.head, L.tail, L.cap, L.stats)

/-- What of a history the statistics count. -/
def History.tally (h : History) : List Posted × Nat × Nat := (h.posted, h.released, h.refused)

/-- What a call can do to the books, and how its history sees that. -/
inductive Ledger.Effect (L : Ledger) : Call → Output → Ledger → Prop where
  | still {c : Call} {reply : Reply} {next : Ledger} (hbooks : next.books = L.books)
      (hnote : ∀ h : History, (h.note c (reply, [])).tally = h.tally) :
      Effect L c (reply, []) next
  | refused {w : UInt32} {next : Ledger} (hbooks : next.books = L.noteFullAttempt.books) :
      Effect L (.acquire w) (.code .full, []) next
  | posted {c : Call} {r : Reservation} {n : UInt32} {t : Bool} (hpending : L.pending = some r)
      (hnote : ∀ (h : History) (events : List Event),
        h.note c (.code .ok, events) = h.post n t) :
      Effect L c
        (L.handOver r.slotIndex (clampWritten L.cap r.wantedLen n t).1
          (clampWritten L.cap r.wantedLen n t).2).1
        (L.handOver r.slotIndex (clampWritten L.cap r.wantedLen n t).1
          (clampWritten L.cap r.wantedLen n t).2).2
  | released {i : UInt32} (hheld : L.held = some i) :
      Effect L (.release i) (L.release i).1 (L.release i).2

namespace Ledger

variable {L : Ledger}

theorem effect_reserve {S : Ledger} (hbooks : S.books = L.books) (w : UInt32) :
    L.Effect (.acquire w) ((S.reserve w).1, []) (S.reserve w).2 := by
  unfold reserve
  split_ifs
  · exact .still hbooks fun _ => rfl
  · exact .still hbooks fun _ => rfl

theorem effect_publishEx {c : Call} {n : UInt32} {t : Bool} (i : UInt32)
    (hnote : ∀ (h : History) (output : Output), h.note c output = h.notePublish n t output.1) :
    L.Effect c (L.publishEx i n t).1 (L.publishEx i n t).2 := by
  cases hpending : L.pending with
  | none =>
      simp only [publishEx, hpending]
      exact .still rfl fun h => by rw [hnote]; rfl
  | some r =>
      simp only [publishEx, hpending]
      split_ifs with hwrong
      · exact .still rfl fun h => by rw [hnote]; rfl
      · obtain rfl := not_not.mp hwrong
        exact .posted hpending fun h events => by rw [hnote]; rfl

theorem effect_consume : L.Effect .consume (L.consume.1, []) L.consume.2 := by
  unfold consume
  split_ifs
  · exact .still rfl fun _ => rfl
  · exact .still rfl fun _ => rfl
  · exact .still rfl fun _ => rfl
  · exact .still rfl fun _ => rfl

theorem effect_release (i : UInt32) : L.Effect (.release i) (L.release i).1 (L.release i).2 := by
  by_cases hheld : L.held = some i
  · exact .released hheld
  · rw [release, if_neg hheld]
    exact .still rfl fun _ => rfl

/-- Every call has one of the effects. -/
theorem effect_call (L : Ledger) (c : Call) : L.Effect c (L.call c).1 (L.call c).2 := by
  cases c with
  | acquire w =>
      simp only [call, quiet, acquire]
      split_ifs
      · exact .still rfl fun _ => rfl
      · exact .refused rfl
      · exact effect_reserve (show L.refreshTail.books = L.books from rfl) w
      · exact effect_reserve rfl w
  | write offset byte =>
      simp only [call, quiet, write]
      split
      · exact .still rfl fun _ => rfl
      · split_ifs
        · exact .still rfl fun _ => rfl
        · exact .still rfl fun _ => rfl
  | publish i n => exact effect_publishEx i fun _ _ => rfl
  | publishEx i n t => exact effect_publishEx i fun _ _ => rfl
  | abort =>
      simp only [call, quiet, abort]
      split_ifs
      · exact .still rfl fun _ => rfl
      · exact .still rfl fun _ => rfl
  | consume => exact effect_consume
  | release i => exact effect_release i
  | read | count | isFull | isEmpty => exact .still rfl fun _ => rfl
  | setLimit limit =>
      simp only [call, quiet, setLimit]
      split_ifs
      · exact .still rfl fun _ => rfl
      · exact .still rfl fun _ => rfl
  | setLowD percent =>
      simp only [call, quiet, setLowD]
      split_ifs
      · exact .still rfl fun _ => rfl
      · exact .still rfl fun _ => rfl
  | setLowE percent =>
      simp only [call, quiet, setLowE]
      split_ifs
      · exact .still rfl fun _ => rfl
      · exact .still rfl fun _ => rfl
  | setOversizePolicy policy =>
      cases policy with
      | other raw => exact .still rfl fun _ => rfl
      | truncate => exact .still rfl fun _ => rfl
      | drop => exact .still rfl fun _ => rfl
  | setCallbacks cb => cases cb <;> exact .still rfl fun _ => rfl
  | setProducerStack | setConsumerStack => exact .still rfl fun _ => rfl

/-- The statistics a publish leaves, apart from the hits. -/
theorem handOver_stats (L : Ledger) (i len : UInt32) (truncated : Bool) :
    (L.handOver i len truncated).2.stats =
      { (L.append i len truncated).stats with
        fullHits := (L.handOver i len truncated).2.stats.fullHits } := by
  unfold handOver
  dsimp only
  split_ifs <;> rfl

theorem handOver_reply (L : Ledger) (i len : UInt32) (truncated : Bool) :
    (L.handOver i len truncated).1 = (.code .ok, (L.handOver i len truncated).1.2) := by
  unfold handOver
  dsimp only
  split_ifs <;> rfl

theorem handOver_head (L : Ledger) (i len : UInt32) (truncated : Bool) :
    (L.handOver i len truncated).2.head = L.head + 1 ∧
      (L.handOver i len truncated).2.tail = L.tail ∧
      (L.handOver i len truncated).2.cap = L.cap ∧
      (L.handOver i len truncated).2.cb = L.cb := by
  unfold handOver
  dsimp only
  split_ifs <;> exact ⟨rfl, rfl, rfl, rfl⟩

/-- The statistics a release leaves, apart from the hits. -/
theorem release_stats {i : UInt32} (hheld : L.held = some i) :
    (L.release i).2.stats =
      { L.drop.stats with
        lowDHits := (L.release i).2.stats.lowDHits
        lowEHits := (L.release i).2.stats.lowEHits } := by
  rw [release, if_pos hheld]
  dsimp only [crossLowD, crossLowE]
  split_ifs <;> rfl

theorem release_tail {i : UInt32} (hheld : L.held = some i) :
    (L.release i).1.1 = .code .ok ∧ (L.release i).2.head = L.head ∧
      (L.release i).2.tail = L.tail + 1 ∧ (L.release i).2.cap = L.cap ∧
      (L.release i).2.cb = L.cb := by
  rw [release, if_pos hheld]
  dsimp only [crossLowD, crossLowE]
  split_ifs <;> exact ⟨rfl, rfl, rfl, rfl, rfl⟩

end Ledger

/-! ## Counting calls -/

/-- The statistics agree with the history. -/
structure Accounted (h : History) (L : Ledger) : Prop where
  published : L.stats.published = UInt64.ofNat h.posted.length
  consumed : L.stats.consumed = UInt64.ofNat h.released
  truncated : L.stats.truncated = UInt64.ofNat (h.posted.countP (Posted.cut L.cap))
  fullAttempts : L.stats.fullAttempts = UInt64.ofNat h.refused

theorem UInt64.ofNat_succ (n : Nat) : UInt64.ofNat (n + 1) = UInt64.ofNat n + 1 := by
  rw [UInt64.ofNat_add]
  rfl

namespace Accounted

variable {h : History} {L : Ledger}

theorem post (hacc : Accounted h L) (hrec : Recorded h L) {r : Reservation}
    (hpending : L.pending = some r) (n : UInt32) (t : Bool) :
    Accounted (h.post n t) (L.handOver r.slotIndex (clampWritten L.cap r.wantedLen n t).1
      (clampWritten L.cap r.wantedLen n t).2).2 := by
  have hcut : (clampWritten L.cap r.wantedLen n t).2 =
      Posted.cut L.cap ⟨h.wanted, n, t⟩ := by
    rw [clampWritten_eq, Posted.cut, hrec.pending r hpending]
  have hstats := L.handOver_stats r.slotIndex (clampWritten L.cap r.wantedLen n t).1
    (clampWritten L.cap r.wantedLen n t).2
  obtain ⟨-, -, hcap, -⟩ := L.handOver_head r.slotIndex (clampWritten L.cap r.wantedLen n t).1
    (clampWritten L.cap r.wantedLen n t).2
  rw [hcut] at hstats hcap ⊢
  refine ⟨?_, ?_, ?_, ?_⟩
  · rw [hstats, History.post, List.length_append, List.length_singleton, UInt64.ofNat_succ,
      ← hacc.published]
    rfl
  · rw [hstats]
    exact hacc.consumed
  · rw [hcap, hstats, History.post, List.countP_append, List.countP_singleton]
    cases hflag : Posted.cut L.cap ⟨h.wanted, n, t⟩ with
    | true => exact (congrArg (· + 1) hacc.truncated).trans (UInt64.ofNat_succ _).symm
    | false => exact hacc.truncated
  · rw [hstats]
    exact hacc.fullAttempts

theorem release (hacc : Accounted h L) {i : UInt32} (hheld : L.held = some i) :
    Accounted { h with released := h.released + 1 } (L.release i).2 := by
  have hstats := Ledger.release_stats hheld
  obtain ⟨-, -, -, hcap, -⟩ := Ledger.release_tail hheld
  refine ⟨?_, ?_, ?_, ?_⟩
  · rw [hstats]
    exact hacc.published
  · rw [hstats, UInt64.ofNat_succ, ← hacc.consumed]
    rfl
  · rw [hstats, hcap]
    exact hacc.truncated
  · rw [hstats]
    exact hacc.fullAttempts

theorem of_tally {h' : History} {L' : Ledger} (hacc : Accounted h L)
    (htally : h'.tally = h.tally) (hbooks : L'.books = L.books) : Accounted h' L' := by
  simp only [History.tally, Ledger.books, Prod.mk.injEq] at htally hbooks
  obtain ⟨hposted, hreleased, hrefused⟩ := htally
  obtain ⟨-, -, hcap, hstats⟩ := hbooks
  refine ⟨?_, ?_, ?_, ?_⟩
  · rw [hstats, hposted, hacc.published]
  · rw [hstats, hreleased, hacc.consumed]
  · rw [hstats, hcap, hposted, hacc.truncated]
  · rw [hstats, hrefused, hacc.fullAttempts]

/-- One call, as the history sees it. -/
theorem effect (hacc : Accounted h L) (hrec : Recorded h L) {c : Call} {output : Output}
    {next : Ledger} (heffect : L.Effect c output next) : Accounted (h.note c output) next := by
  cases heffect with
  | still hbooks hnote => exact hacc.of_tally (hnote h) hbooks
  | refused hbooks =>
      have hcount : Accounted { h with refused := h.refused + 1 } L.noteFullAttempt := by
        refine ⟨hacc.published, hacc.consumed, hacc.truncated, ?_⟩
        exact (congrArg (· + 1) hacc.fullAttempts).trans (UInt64.ofNat_succ _).symm
      exact hcount.of_tally rfl hbooks
  | posted hpending hnote =>
      rw [Ledger.handOver_reply, hnote]
      exact hacc.post hrec hpending _ _
  | @released i hheld =>
      have hnote : ∀ output : Output, output.1 = .code .ok →
          h.note (.release i) output = { h with released := h.released + 1 } :=
        fun output hok => if_pos hok
      rw [hnote _ (Ledger.release_tail hheld).1]
      exact hacc.release hheld

end Accounted

/-! ## The high-water mark -/

namespace Ledger

/-- The mark follows the occupancy. -/
theorem Effect.highWater {L next : Ledger} {c : Call} {output : Output}
    (heffect : L.Effect c output next) (hok : L.Ok) (hbelow : L.count ≤ L.stats.highWater.toNat) :
    next.stats.highWater.toNat = max L.stats.highWater.toNat next.count := by
  have hsame : ∀ {S : Ledger}, S.head = L.head → S.tail = L.tail →
      S.stats.highWater = L.stats.highWater →
      S.stats.highWater.toNat = max L.stats.highWater.toNat S.count := by
    intro S hhead htail hmark
    rw [count, hhead, htail, hmark]
    exact (Nat.max_eq_left hbelow).symm
  cases heffect with
  | still hbooks hnote =>
      simp only [books, Prod.mk.injEq] at hbooks
      exact hsame hbooks.1 hbooks.2.1 (congrArg Stats.highWater hbooks.2.2.2)
  | refused hbooks =>
      simp only [books, Prod.mk.injEq] at hbooks
      have hmark := congrArg Stats.highWater hbooks.2.2.2
      exact hsame hbooks.1 hbooks.2.1 hmark
  | @posted c r n t hpending hnote =>
      obtain ⟨hhead, htail, -⟩ := L.handOver_head r.slotIndex
        (clampWritten L.cap r.wantedLen n t).1 (clampWritten L.cap r.wantedLen n t).2
      have hcount : L.head + 1 - L.tail = L.count + 1 := Nat.succ_sub hok.tail_le_head
      have hlt : L.count + 1 < 2 ^ 32 :=
        Nat.lt_of_le_of_lt (hok.pending_slot r hpending).2 L.limit.toNat_lt
      rw [handOver_stats, count, hhead, htail, hcount]
      change (if L.stats.highWater < UInt32.ofNat (L.count + 1) then UInt32.ofNat (L.count + 1)
        else L.stats.highWater).toNat = _
      split_ifs with hmark
      · rw [UInt32.lt_iff_toNat_lt, Counter.toNat_of_lt hlt] at hmark
        rw [Counter.toNat_of_lt hlt, Nat.max_eq_right hmark.le]
      · rw [UInt32.lt_iff_toNat_lt, Counter.toNat_of_lt hlt] at hmark
        exact (Nat.max_eq_left (Nat.le_of_not_lt hmark)).symm
  | released hheld =>
      obtain ⟨-, hhead, htail, -⟩ := release_tail hheld
      rw [release_stats hheld, count, hhead, htail]
      have hcount : L.head - (L.tail + 1) ≤ L.count := Nat.sub_le_sub_left (Nat.le_succ _) _
      exact (Nat.max_eq_left (hcount.trans hbelow)).symm

/-- The mark is the largest occupancy of the states the run passes through. The
induction adds one call at the end. -/
theorem highWater_isGreatest {L : Ledger} (hok : L.Ok)
    (hstart : L.stats.highWater.toNat = L.count) {calls : List Call} {outputs : List Output}
    {M : Ledger} (hrun : ledger.run L calls = some (outputs, M)) :
    IsGreatest {n | ∃ S, ledger.Visits L calls S ∧ S.count = n} M.stats.highWater.toNat := by
  induction calls using List.reverseRecOn generalizing outputs M with
  | nil =>
      obtain ⟨rfl, rfl⟩ := Prod.mk.inj (Option.some.inj hrun)
      simp [ledger.visits_nil, hstart]
  | append_singleton calls c ih =>
      obtain ⟨outputs₁, S, outputs₂, hfirst, hlast, rfl⟩ := ledger.exists_run_of_append hrun
      obtain ⟨output, next, tail, hstep, hnil, rfl⟩ := ledger.run_cons_eq_some.mp hlast
      obtain ⟨rfl, rfl⟩ := Prod.mk.inj (Option.some.inj hnil)
      obtain ⟨rfl, rfl⟩ := ledger_step_eq_some.mp hstep
      have hbest := ih hfirst
      have hbelow : S.count ≤ S.stats.highWater.toNat :=
        hbest.2 ⟨S, ⟨calls.length, outputs₁, by rwa [List.take_length]⟩, rfl⟩
      have hokS : S.Ok := Ok.reaches hok ⟨calls, outputs₁, hfirst⟩
      have hset : {n | ∃ T, ledger.Visits L (calls ++ [c]) T ∧ T.count = n} =
          insert (S.call c).2.count {n | ∃ T, ledger.Visits L calls T ∧ T.count = n} := by
        ext n
        simp only [ledger.visits_concat hrun, Set.mem_ofPred_eq, Set.mem_insert_iff, or_and_right,
          exists_or, exists_eq_left]
        exact ⟨fun hn => hn.symm.imp_left Eq.symm, fun hn => hn.symm.imp_right Eq.symm⟩
      rw [hset, (S.effect_call c).highWater hokS hbelow, max_comm]
      exact hbest.insert _

end Ledger

/-! ## Threshold events -/

/-- Each counter of hits counts the invocations of its callback, if that is installed. -/
structure Hits (cb : Callbacks) (stats : Stats) (events : List Event) : Prop where
  full : cb.onFull = true → stats.fullHits = UInt32.ofNat (events.count .full)
  lowD : cb.onLowD = true → stats.lowDHits = UInt32.ofNat (events.count .lowD)
  lowE : cb.onLowE = true → stats.lowEHits = UInt32.ofNat (events.count .lowE)

theorem count_fire_self (event : Event) {installed : Bool} (hinstalled : installed = true) :
    (fire installed event).count event = 1 := by
  rw [fire, if_pos hinstalled, List.count_singleton_self]

theorem count_fire_ne {event other : Event} (hne : other ≠ event) (installed : Bool) :
    (fire installed other).count event = 0 := by
  unfold fire
  split_ifs
  · rw [List.count_singleton, if_neg (by simpa using hne)]
  · rfl

namespace Hits

variable {cb : Callbacks} {stats stats' : Stats} {events new : List Event}

theorem append (hhits : Hits cb stats events)
    (hfull : cb.onFull = true → stats'.fullHits = stats.fullHits + UInt32.ofNat (new.count .full))
    (hlowD : cb.onLowD = true → stats'.lowDHits = stats.lowDHits + UInt32.ofNat (new.count .lowD))
    (hlowE : cb.onLowE = true → stats'.lowEHits = stats.lowEHits + UInt32.ofNat (new.count .lowE)) :
    Hits cb stats' (events ++ new) where
  full hcb := by rw [List.count_append, UInt32.ofNat_add, hfull hcb, hhits.full hcb]
  lowD hcb := by rw [List.count_append, UInt32.ofNat_add, hlowD hcb, hhits.lowD hcb]
  lowE hcb := by rw [List.count_append, UInt32.ofNat_add, hlowE hcb, hhits.lowE hcb]

theorem quiet (hhits : Hits cb stats events) (hfull : stats'.fullHits = stats.fullHits)
    (hlowD : stats'.lowDHits = stats.lowDHits) (hlowE : stats'.lowEHits = stats.lowEHits) :
    Hits cb stats' (events ++ []) :=
  hhits.append (fun _ => by rw [hfull]; exact (UInt32.add_zero _).symm)
    (fun _ => by rw [hlowD]; exact (UInt32.add_zero _).symm)
    (fun _ => by rw [hlowE]; exact (UInt32.add_zero _).symm)

theorem handOver {L : Ledger} (hhits : Hits L.cb L.stats events) (i len : UInt32)
    (truncated : Bool) :
    Hits L.cb (L.handOver i len truncated).2.stats
      (events ++ (L.handOver i len truncated).1.2) := by
  have hadded : ∀ event, event ≠ .slotAdded i len truncated →
      (fire L.cb.onSlotAdded (.slotAdded i len truncated)).count event = 0 :=
    fun event hne => count_fire_ne hne.symm _
  unfold Ledger.handOver
  dsimp only
  split_ifs
  · refine hhits.append (fun hcb => ?_) (fun _ => ?_) (fun _ => ?_)
    · rw [List.count_append, hadded _ (by simp), count_fire_self _ hcb]
      rfl
    · rw [List.count_append, hadded _ (by simp), count_fire_ne (by simp)]
      exact (UInt32.add_zero _).symm
    · rw [List.count_append, hadded _ (by simp), count_fire_ne (by simp)]
      exact (UInt32.add_zero _).symm
  · refine hhits.append (fun _ => ?_) (fun _ => ?_) (fun _ => ?_)
    all_goals
      rw [hadded _ (by simp)]
      exact (UInt32.add_zero _).symm

theorem crossLowD {L : Ledger} (hhits : Hits L.cb L.stats events) (oldCount newCount : Nat) :
    Hits L.cb (L.crossLowD oldCount newCount).2.stats
      (events ++ (L.crossLowD oldCount newCount).1) := by
  unfold Ledger.crossLowD
  split_ifs
  · refine hhits.append (fun _ => ?_) (fun hcb => ?_) (fun _ => ?_)
    · rw [count_fire_ne (by simp)]
      exact (UInt32.add_zero _).symm
    · rw [count_fire_self _ hcb]
      rfl
    · rw [count_fire_ne (by simp)]
      exact (UInt32.add_zero _).symm
  · exact hhits.quiet rfl rfl rfl

theorem crossLowE {L : Ledger} (hhits : Hits L.cb L.stats events) (oldCount newCount : Nat) :
    Hits L.cb (L.crossLowE oldCount newCount).2.stats
      (events ++ (L.crossLowE oldCount newCount).1) := by
  unfold Ledger.crossLowE
  split_ifs
  · refine hhits.append (fun _ => ?_) (fun _ => ?_) (fun hcb => ?_)
    · rw [count_fire_ne (by simp)]
      exact (UInt32.add_zero _).symm
    · rw [count_fire_ne (by simp)]
      exact (UInt32.add_zero _).symm
    · rw [count_fire_self _ hcb]
      rfl
  · exact hhits.quiet rfl rfl rfl

theorem effect {L next : Ledger} {c : Call} {output : Output} (hhits : Hits L.cb L.stats events)
    (heffect : L.Effect c output next) : Hits L.cb next.stats (events ++ output.2) := by
  cases heffect with
  | still hbooks hnote =>
      simp only [Ledger.books, Prod.mk.injEq] at hbooks
      obtain ⟨-, -, -, hstats⟩ := hbooks
      exact hhits.quiet (by rw [hstats]) (by rw [hstats]) (by rw [hstats])
  | refused hbooks =>
      simp only [Ledger.books, Prod.mk.injEq] at hbooks
      obtain ⟨-, -, -, hstats⟩ := hbooks
      exact hhits.quiet (by rw [hstats]; rfl) (by rw [hstats]; rfl) (by rw [hstats]; rfl)
  | posted hpending hnote => exact hhits.handOver _ _ _
  | @released i hheld =>
      rw [Ledger.release, if_pos hheld]
      have hdrop : Hits L.drop.cb L.drop.stats events := ⟨hhits.full, hhits.lowD, hhits.lowE⟩
      have hlowD := hdrop.crossLowD L.known L.drop.known
      have hcb : (L.drop.crossLowD L.known L.drop.known).2.cb = L.cb := by
        unfold Ledger.crossLowD
        split_ifs <;> rfl
      have hlowE := Hits.crossLowE (L := (L.drop.crossLowD L.known L.drop.known).2)
        (hcb ▸ hlowD) L.known L.drop.known
      rw [hcb, List.append_assoc] at hlowE
      exact hlowE

end Hits

/-! ## Other callbacks -/

/-- Calls that leave the callbacks alone. -/
def Call.keepsCallbacks : Call → Bool
  | .setCallbacks _ => false
  | _ => true

namespace Ledger

theorem handOver_withCb (L : Ledger) (cb : Callbacks) (i len : UInt32) (t : Bool) :
    ((L.withCb cb).handOver i len t).1.1 = (L.handOver i len t).1.1 ∧
      ((L.withCb cb).handOver i len t).2 = (L.handOver i len t).2.withCb cb := by
  unfold handOver
  dsimp only
  split_ifs <;> first | exact ⟨rfl, rfl⟩ | contradiction

theorem publishEx_withCb (L : Ledger) (cb : Callbacks) (i n : UInt32) (t : Bool) :
    ((L.withCb cb).publishEx i n t).1.1 = (L.publishEx i n t).1.1 ∧
      ((L.withCb cb).publishEx i n t).2 = (L.publishEx i n t).2.withCb cb := by
  have hpending : (L.withCb cb).pending = L.pending := rfl
  unfold publishEx
  rw [hpending]
  cases L.pending with
  | none => exact ⟨rfl, rfl⟩
  | some r =>
      dsimp only
      split_ifs
      · exact ⟨rfl, rfl⟩
      · exact L.handOver_withCb cb _ _ _

theorem release_withCb (L : Ledger) (cb : Callbacks) (i : UInt32) :
    ((L.withCb cb).release i).1.1 = (L.release i).1.1 ∧
      ((L.withCb cb).release i).2 = (L.release i).2.withCb cb := by
  simp only [release, crossLowD, crossLowE]
  split_ifs <;> first | exact ⟨rfl, rfl⟩ | contradiction

/-- Callbacks are only told; no reply and no state depends on them. -/
theorem call_withCb (L : Ledger) (cb : Callbacks) {c : Call} (hkeeps : c.keepsCallbacks = true) :
    ((L.withCb cb).call c).1.1 = (L.call c).1.1 ∧
      ((L.withCb cb).call c).2 = (L.call c).2.withCb cb := by
  cases c with
  | acquire w =>
      simp only [call, quiet, acquire, reserve]
      split_ifs <;> first | exact ⟨rfl, rfl⟩ | contradiction
  | write offset byte =>
      simp only [call, quiet, write]
      cases L.pending with
      | none => exact ⟨rfl, rfl⟩
      | some r =>
          dsimp only
          split_ifs <;> exact ⟨rfl, rfl⟩
  | publish i n => exact L.publishEx_withCb cb i n false
  | publishEx i n t => exact L.publishEx_withCb cb i n t
  | abort =>
      simp only [call, quiet, abort]
      split_ifs <;> exact ⟨rfl, rfl⟩
  | consume =>
      simp only [call, quiet, consume]
      split_ifs <;> exact ⟨rfl, rfl⟩
  | release i => exact L.release_withCb cb i
  | read | count | isFull | isEmpty => exact ⟨rfl, rfl⟩
  | setLimit limit =>
      simp only [call, quiet, setLimit]
      split_ifs <;> first | exact ⟨rfl, rfl⟩ | contradiction
  | setLowD percent =>
      simp only [call, quiet, setLowD]
      split_ifs <;> exact ⟨rfl, rfl⟩
  | setLowE percent =>
      simp only [call, quiet, setLowE]
      split_ifs <;> exact ⟨rfl, rfl⟩
  | setOversizePolicy policy => cases policy <;> exact ⟨rfl, rfl⟩
  | setCallbacks cb => cases hkeeps
  | setProducerStack | setConsumerStack => exact ⟨rfl, rfl⟩

/-- So a call that leaves them alone has those it started with. -/
theorem call_cb (L : Ledger) {c : Call} (hkeeps : c.keepsCallbacks = true) :
    (L.call c).2.cb = L.cb := by
  have hself : (L.call c).2 = (L.call c).2.withCb L.cb := (L.call_withCb L.cb hkeeps).2
  rw [hself]

/-- New callbacks are forgotten where others are installed. -/
theorem withCb_call (L : Ledger) (cb : Callbacks) {c : Call} (hkeeps : ¬ c.keepsCallbacks = true) :
    (L.call c).2.withCb cb = L.withCb cb := by
  cases c with
  | setCallbacks new => cases new <;> rfl
  | acquire | write | publish | publishEx | abort | consume | read | release | count | isFull
  | isEmpty | setLimit | setLowD | setLowE | setOversizePolicy | setProducerStack
  | setConsumerStack => exact absurd rfl hkeeps

/-- With the callbacks installed once and for all, the other calls are answered the
same. -/
theorem run_withCb {L M : Ledger} (cb : Callbacks) {trace : List (Call × Output)}
    (hrun : ledger.run L (trace.map Prod.fst) = some (trace.map Prod.snd, M)) :
    ∃ outputs, ledger.run (L.withCb cb) ((trace.filter fun x => x.1.keepsCallbacks).map Prod.fst) =
        some (outputs, M.withCb cb) ∧
      outputs.map Prod.fst = (trace.filter fun x => x.1.keepsCallbacks).map fun x => x.2.1 := by
  induction trace generalizing L with
  | nil =>
      obtain ⟨-, rfl⟩ := Prod.mk.inj (Option.some.inj hrun)
      exact ⟨[], rfl, rfl⟩
  | cons x rest ih =>
      obtain ⟨c, output⟩ := x
      obtain ⟨next, hstep, hrest⟩ := ledger.run_trace_cons.mp hrun
      obtain ⟨rfl, rfl⟩ := ledger_step_eq_some.mp hstep
      obtain ⟨tail, htail, hmap⟩ := ih hrest
      by_cases hkeeps : c.keepsCallbacks = true
      · obtain ⟨hreply, hnext⟩ := L.call_withCb cb hkeeps
        simp only [List.filter_cons, hkeeps, if_true]
        refine ⟨((L.withCb cb).call c).1 :: tail, ?_, ?_⟩
        · exact ledger.run_cons_eq_some.mpr ⟨_, _, _, rfl, hnext ▸ htail, rfl⟩
        · rw [List.map_cons, List.map_cons, hreply, hmap]
      · simp only [List.filter_cons, hkeeps, Bool.false_eq_true, if_false]
        rw [← L.withCb_call cb hkeeps]
        exact ⟨tail, htail, hmap⟩

end Ledger

/-- Along a run that leaves the callbacks alone, the hits count their invocations. -/
theorem Hits.run {L M : Ledger} (hhits : Hits L.cb L.stats []) {calls : List Call}
    (hkeeps : ∀ c ∈ calls, c.keepsCallbacks = true) {outputs : List Output}
    (hrun : ledger.run L calls = some (outputs, M)) :
    Hits L.cb M.stats (outputs.flatMap Prod.snd) := by
  refine (ledger.run_invariant
    (fun seen S => S.cb = L.cb ∧ Hits L.cb S.stats (seen.flatMap Prod.snd)) hrun ?_ []
      ⟨rfl, hhits⟩).2
  rintro seen S c output next hmem ⟨hcb, hS⟩ hstep
  obtain ⟨rfl, rfl⟩ := ledger_step_eq_some.mp hstep
  rw [← hcb] at hS
  rw [List.flatMap_append, List.flatMap_singleton, ← hcb]
  exact ⟨S.call_cb (hkeeps c hmem), hS.effect (S.effect_call c)⟩

end RingBuff
