import RingBuff.Core.Header
import RingBuff.Foundation.Sequence
import RingBuff.Ledger.Runs

/-! # The history of a run

What a run of calls has shown so far, put together from the calls and their
replies alone: which messages were published and with which arguments, which were
delivered, how many were released. The invariant ties it to the ledger: the slot
of every message that is still in the ring carries the header of that message.
-/

namespace RingBuff

/-- What the producer passed for one message, to `rb_acquire` and to
`rb_publish_ex`. -/
structure Posted where
  wanted : UInt32
  written : UInt32
  truncated : Bool
  deriving DecidableEq, Repr

/-- What a successful `rb_consume` reported. -/
structure Fetched where
  slotIndex : UInt32
  len : UInt32
  truncated : Bool
  deriving DecidableEq, Repr

structure History where
  /-- The length of the last reservation. -/
  wanted : UInt32 := 0
  posted : List Posted := []
  fetched : List Fetched := []
  released : Nat := 0
  /-- Reservations that were refused because the ring was full. -/
  refused : Nat := 0
  deriving DecidableEq, Repr

namespace History

def post (h : History) (written : UInt32) (truncated : Bool) : History :=
  { h with posted := h.posted ++ [⟨h.wanted, written, truncated⟩] }

def noteAcquire (h : History) (wanted : UInt32) : Reply → History
  | .reserved _ _ => { h with wanted }
  | .code .full => { h with refused := h.refused + 1 }
  | _ => h

def notePublish (h : History) (written : UInt32) (truncated : Bool) (reply : Reply) : History :=
  if reply = .code .ok then h.post written truncated else h

def noteConsume (h : History) : Reply → History
  | .message slotIndex len truncated =>
      { h with fetched := h.fetched ++ [⟨slotIndex, len, truncated⟩] }
  | _ => h

def noteRelease (h : History) (reply : Reply) : History :=
  if reply = .code .ok then { h with released := h.released + 1 } else h

/-- Take note of one call and its output. -/
def note (h : History) (c : Call) (output : Output) : History :=
  match c with
  | .acquire wanted => h.noteAcquire wanted output.1
  | .publish _ written => h.notePublish written false output.1
  | .publishEx _ written truncated => h.notePublish written truncated output.1
  | .consume => h.noteConsume output.1
  | .release _ => h.noteRelease output.1
  | .write _ _ | .abort | .read _ | .count | .isFull | .isEmpty | .setLimit _ | .setLowD _
  | .setLowE _ | .setOversizePolicy _ | .setCallbacks _ | .setProducerStack _
  | .setConsumerStack _ => h

end History

theorem History.posted_noteAcquire (h : History) (wanted : UInt32) (reply : Reply) :
    (h.noteAcquire wanted reply).posted = h.posted := by
  cases reply with
  | code err => cases err <;> rfl
  | reserved | message | number | flag | byte => rfl

theorem History.posted_noteConsume (h : History) (reply : Reply) :
    (h.noteConsume reply).posted = h.posted := by
  cases reply <;> rfl

theorem History.posted_noteRelease (h : History) (reply : Reply) :
    (h.noteRelease reply).posted = h.posted := by
  unfold History.noteRelease
  split_ifs <;> rfl

theorem History.length_posted_notePublish (h : History) (written : UInt32) (truncated : Bool)
    (reply : Reply) : (h.notePublish written truncated reply).posted.length =
      h.posted.length + (decide (reply = .code .ok)).toNat := by
  unfold History.notePublish
  split_ifs with hok <;> simp [hok, History.post]

/-- The history counts a message exactly if the call published one. -/
theorem History.length_posted_note (h : History) (c : Call) (output : Output) :
    (h.note c output).posted.length = h.posted.length + (c.published output).toNat := by
  cases c with
  | acquire w => exact congrArg List.length (h.posted_noteAcquire w output.1)
  | publish i n => exact h.length_posted_notePublish n false output.1
  | publishEx i n t => exact h.length_posted_notePublish n t output.1
  | consume => exact congrArg List.length (h.posted_noteConsume output.1)
  | release i => exact congrArg List.length (h.posted_noteRelease output.1)
  | write | abort | read | count | isFull | isEmpty | setLimit | setLowD | setLowE
  | setOversizePolicy | setCallbacks | setProducerStack | setConsumerStack => rfl

/-- The history of a trace. -/
def historyOf (trace : List (Call × Output)) : History :=
  trace.foldl (fun h (c, output) => h.note c output) {}

theorem historyOf_concat (trace : List (Call × Output)) (c : Call) (output : Output) :
    historyOf (trace ++ [(c, output)]) = (historyOf trace).note c output := by
  rw [historyOf, List.foldl_append]
  rfl

/-- The history lists as many messages as the run has published. -/
theorem length_posted_historyOf (calls : List Call) (outputs : List Output) :
    (historyOf (calls.zip outputs)).posted.length = publishes calls outputs := by
  suffices hgen : ∀ (trace : List (Call × Output)) (h : History),
      (trace.foldl (fun h (c, output) => h.note c output) h).posted.length =
        h.posted.length + trace.countP fun (c, output) => c.published output by
    rw [historyOf, hgen, publishes]
    exact Nat.zero_add _
  intro trace
  induction trace with
  | nil => exact fun h => rfl
  | cons x rest ih =>
      intro h
      obtain ⟨c, output⟩ := x
      rw [List.foldl_cons, ih, History.length_posted_note, List.countP_cons, Nat.add_assoc,
        Nat.add_comm (c.published output).toNat]
      cases hpub : c.published output <;> simp [hpub]

/-- The length and the flag that `rb_publish_ex` records for a message. -/
def Posted.recorded (cap : UInt32) (m : Posted) : UInt32 × Bool :=
  clampWritten cap m.wanted m.written m.truncated

/-- The header of a message. -/
def Posted.header (cap : UInt32) (m : Posted) : UInt32 :=
  encodeHeader (m.recorded cap).1 (m.recorded cap).2

/-- What `rb_consume` reports for a message in a slot. -/
def Posted.fetched (cap slotIndex : UInt32) (m : Posted) : Fetched :=
  ⟨slotIndex, headerLen (m.header cap), headerTruncated (m.header cap)⟩

/-! ## The history and the ledger -/

/-- The ledger is where the history says it is. -/
structure Recorded (h : History) (L : Ledger) : Prop where
  head : h.posted.length = L.head
  tail : h.released = L.tail
  pending : ∀ r, L.pending = some r → r.wantedLen = h.wanted
  header : ∀ p (m : Posted), L.tail ≤ p → h.posted[p]? = some m →
    L.header (L.slotFor p) = m.header L.cap
  fetched_length : h.fetched.length = L.tail + if L.held.isSome then 1 else 0
  fetched : ∀ k d, h.fetched[k]? = some d →
    ∃ m : Posted, h.posted[k]? = some m ∧ d = m.fetched L.cap (L.slotFor k)

namespace Recorded

variable {h : History} {L M : Ledger}

/-- A call that moves no message. -/
theorem keep (hrec : Recorded h L) (hfixed : M.fixed = L.fixed) (hhead : M.head = L.head)
    (htail : M.tail = L.tail) (hheader : M.header = L.header) (hheld : M.held = L.held)
    (hpending : ∀ r, M.pending = some r → r.wantedLen = h.wanted) : Recorded h M := by
  simp only [Ledger.fixed, Prod.mk.injEq] at hfixed
  obtain ⟨-, hslots, hcap⟩ := hfixed
  have hslot : ∀ p, M.slotFor p = L.slotFor p := fun p => by
    rw [Ledger.slotFor, Ledger.slotFor, hslots]
  refine ⟨hhead ▸ hrec.head, htail ▸ hrec.tail, hpending, ?_, ?_, ?_⟩
  · intro p m hp hget
    rw [hheader, hslot, hcap]
    exact hrec.header p m (htail ▸ hp) hget
  · rw [htail, hheld]
    exact hrec.fetched_length
  · intro k d hget
    rw [hslot, hcap]
    exact hrec.fetched k d hget

/-- A refused reservation moves no message either. -/
theorem refuse (hrec : Recorded h L) : Recorded { h with refused := h.refused + 1 } L :=
  ⟨hrec.head, hrec.tail, hrec.pending, hrec.header, hrec.fetched_length, hrec.fetched⟩

theorem reserve (hrec : Recorded h L) (w : UInt32) :
    Recorded (h.noteAcquire w (L.reserve w).1) (L.reserve w).2 := by
  unfold Ledger.reserve
  split_ifs with hover
  · exact hrec
  · refine ⟨hrec.head, hrec.tail, ?_, hrec.header, hrec.fetched_length, hrec.fetched⟩
    rintro r ⟨⟩
    rfl

theorem acquire (hrec : Recorded h L) (w : UInt32) :
    Recorded (h.noteAcquire w (L.acquire w).1) (L.acquire w).2 := by
  have hfresh : Recorded h L.refreshTail := hrec.keep rfl rfl rfl rfl rfl hrec.pending
  unfold Ledger.acquire
  split_ifs with hpending hcached hfull
  · exact hrec
  · exact hfresh.refuse.keep rfl rfl rfl rfl rfl hrec.pending
  · exact hfresh.reserve w
  · exact hrec.reserve w

/-- Publishing puts the header of the new message into its slot, and no message
that is still in the ring has the same slot. -/
theorem append (hrec : Recorded h L) (hok : L.Ok) (hwrap : WrapSafe L.slots L.head)
    {r : Reservation} (hpending : L.pending = some r) (n : UInt32) (t : Bool) :
    Recorded (h.post n t)
      (L.append r.slotIndex (clampWritten L.cap r.wantedLen n t).1
        (clampWritten L.cap r.wantedLen n t).2) := by
  obtain ⟨hslot, hroom⟩ := hok.pending_slot r hpending
  have hwanted := hrec.pending r hpending
  have hlimit := hok.limit_slots
  have htail := hok.tail_le_head
  have hcount : L.head - L.tail < L.limit.toNat := hroom
  refine ⟨?_, hrec.tail, ?_, ?_, hrec.fetched_length, ?_⟩
  · rw [History.post, List.length_append, hrec.head]
    rfl
  · rintro r' ⟨⟩
  · intro p m hp hget
    change Function.update L.header r.slotIndex _ (L.slotFor p) = m.header L.cap
    rcases getElem?_concat_eq_some.mp hget with hold | ⟨rfl, rfl⟩
    · have hlt : p < L.head := hrec.head ▸ (List.getElem?_eq_some_iff.mp hold).1
      have hne : L.slotFor p ≠ r.slotIndex := by
        rw [hslot]
        exact hok.slotFor_ne hwrap hlt (by have hp' : L.tail ≤ p := hp; omega)
      rw [Function.update_of_ne hne]
      exact hrec.header p m hp hold
    · rw [hrec.head, ← hslot, Function.update_self, Posted.header, Posted.recorded, hwanted]
  · intro k d hget
    obtain ⟨m, hm, rfl⟩ := hrec.fetched k d hget
    exact ⟨m, getElem?_of_prefix (List.prefix_append _ _) hm, rfl⟩

theorem publishEx (hrec : Recorded h L) (hok : L.Ok) (hwrap : WrapSafe L.slots L.head)
    (i n : UInt32) (t : Bool) :
    Recorded (h.notePublish n t (L.publishEx i n t).1.1) (L.publishEx i n t).2 := by
  cases hpending : L.pending with
  | none =>
      simp only [Ledger.publishEx, hpending]
      exact hrec
  | some r =>
      simp only [Ledger.publishEx, hpending]
      split_ifs with hwrong
      · exact hrec
      · obtain rfl := not_not.mp hwrong
        have happend := hrec.append hok hwrap hpending n t
        unfold Ledger.handOver
        dsimp only
        split_ifs
        · exact happend.keep rfl rfl rfl rfl rfl happend.pending
        · exact happend

theorem take (hrec : Recorded h L) (hheld : L.held = none) (hne : L.tail < L.head) :
    Recorded (h.noteConsume (L.take (L.slotFor L.tail)).1) (L.take (L.slotFor L.tail)).2 := by
  have hlength := hrec.fetched_length
  rw [hheld] at hlength
  obtain ⟨m, hm⟩ : ∃ m, h.posted[L.tail]? = some m :=
    ⟨_, List.getElem?_eq_getElem (hrec.head ▸ hne)⟩
  have hheader := hrec.header L.tail m le_rfl hm
  refine ⟨hrec.head, hrec.tail, hrec.pending, hrec.header, ?_, ?_⟩
  · change (h.fetched ++ [_]).length = L.tail + 1
    rw [List.length_append, hlength]
    rfl
  · intro k d hget
    rcases getElem?_concat_eq_some.mp hget with hold | ⟨rfl, rfl⟩
    · exact hrec.fetched k d hold
    · refine ⟨m, ?_, ?_⟩
      · rw [hlength]
        exact hm
      · rw [hlength, hheader]
        rfl

theorem refreshHead (hrec : Recorded h L) : Recorded h L.refreshHead :=
  hrec.keep rfl rfl rfl rfl rfl hrec.pending

theorem consume (hrec : Recorded h L) (hok : L.Ok) :
    Recorded (h.noteConsume L.consume.1) L.consume.2 := by
  have htail := hok.tail_le
  have hhead := hok.cachedHead_le
  unfold Ledger.consume
  split_ifs with hheld hcached hempty
  · exact hrec
  · exact hrec.refreshHead
  · exact hrec.refreshHead.take (Option.not_isSome_iff_eq_none.mp hheld)
      (hok.tail_le_head.lt_of_ne hempty)
  · exact hrec.take (Option.not_isSome_iff_eq_none.mp hheld) (by omega)

/-- Releasing gives up the oldest message and its header. -/
theorem drop (hrec : Recorded h L) {i : UInt32} (hheld : L.held = some i) :
    Recorded { h with released := h.released + 1 } L.drop := by
  have hlength := hrec.fetched_length
  rw [hheld] at hlength
  refine ⟨hrec.head, congrArg (· + 1) hrec.tail, hrec.pending, ?_, hlength, hrec.fetched⟩
  intro p m hp hget
  have hle : L.tail + 1 ≤ p := hp
  exact hrec.header p m (Nat.le_of_succ_le hle) hget

theorem release (hrec : Recorded h L) (i : UInt32) :
    Recorded (h.noteRelease (L.release i).1.1) (L.release i).2 := by
  unfold Ledger.release
  split_ifs with hheld
  · have hdrop := hrec.drop hheld
    dsimp only [Ledger.crossLowD, Ledger.crossLowE]
    split_ifs <;> exact hdrop.keep rfl rfl rfl rfl rfl hdrop.pending
  · exact hrec

/-- One call, seen by the history. -/
theorem call (hrec : Recorded h L) (hok : L.Ok) (hwrap : WrapSafe L.slots L.head) (c : Call) :
    Recorded (h.note c (L.call c).1) (L.call c).2 := by
  cases c with
  | acquire w => exact hrec.acquire w
  | publish i n => exact hrec.publishEx hok hwrap i n false
  | publishEx i n t => exact hrec.publishEx hok hwrap i n t
  | consume => exact hrec.consume hok
  | release i => exact hrec.release i
  | write offset byte =>
      dsimp only [Ledger.call, quiet, Ledger.write]
      split
      · exact hrec
      · split_ifs
        · exact hrec.keep rfl rfl rfl rfl rfl hrec.pending
        · exact hrec
  | abort =>
      dsimp only [Ledger.call, quiet, Ledger.abort]
      split_ifs
      · exact hrec.keep rfl rfl rfl rfl rfl (by rintro r ⟨⟩)
      · exact hrec
  | read | count | isFull | isEmpty => exact hrec
  | setLimit limit =>
      dsimp only [Ledger.call, quiet, Ledger.setLimit]
      split_ifs
      · exact hrec
      · exact hrec.keep rfl rfl rfl rfl rfl hrec.pending
  | setLowD percent =>
      dsimp only [Ledger.call, quiet, Ledger.setLowD]
      split_ifs
      · exact hrec
      · exact hrec.keep rfl rfl rfl rfl rfl hrec.pending
  | setLowE percent =>
      dsimp only [Ledger.call, quiet, Ledger.setLowE]
      split_ifs
      · exact hrec
      · exact hrec.keep rfl rfl rfl rfl rfl hrec.pending
  | setOversizePolicy policy =>
      cases policy with
      | other raw => exact hrec
      | truncate => exact hrec.keep rfl rfl rfl rfl rfl hrec.pending
      | drop => exact hrec.keep rfl rfl rfl rfl rfl hrec.pending
  | setCallbacks cb =>
      cases cb with
      | none => exact hrec
      | some cb => exact hrec.keep rfl rfl rfl rfl rfl hrec.pending
  | setProducerStack | setConsumerStack => exact hrec

end Recorded

/-- After every run, the ledger is where the history of the run says it is; and
whatever else the calls keep, given that, holds as well. -/
theorem Recorded.run_invariant {L M : Ledger} (hrec : Recorded {} L) (hok : L.Ok)
    {calls : List Call} {outputs : List Output} (hrun : ledger.run L calls = some (outputs, M))
    (hwrap : WrapSafe M.slots M.head) (inv : History → Ledger → Prop) (hinv : inv {} L)
    (hcall : ∀ {h S} c, S.Ok → Recorded h S → inv h S →
      inv (h.note c (S.call c).1) (S.call c).2) :
    Recorded (historyOf (calls.zip outputs)) M ∧ inv (historyOf (calls.zip outputs)) M := by
  refine (ledger.run_history (fun seen S => S.Ok ∧ (WrapSafe S.slots S.head →
    Recorded (historyOf seen) S ∧ inv (historyOf seen) S)) hrun ?_ []
      ⟨hok, fun _ => ⟨hrec, hinv⟩⟩).2 hwrap
  rintro seen S c output next ⟨hokS, hS⟩ hstep
  obtain ⟨rfl, rfl⟩ := ledger_step_eq_some.mp hstep
  refine ⟨Ledger.call_ok hokS c, fun hsafe => ?_⟩
  rw [S.call_slots] at hsafe
  have hbefore := hsafe.mono (S.head_le_call c)
  obtain ⟨hrecS, hinvS⟩ := hS hbefore
  rw [historyOf_concat]
  exact ⟨hrecS.call hokS hbefore c, hcall c hokS hrecS hinvS⟩

theorem Config.recorded (b : Build) (cfg : Config) (bytes : UInt32 → Nat → UInt8) :
    Recorded {} (cfg.ledger b bytes) where
  head := rfl
  tail := rfl
  pending := by rintro r ⟨⟩
  header := by
    intro p m _ hget
    cases hget
  fetched_length := rfl
  fetched := by
    intro k d hget
    cases hget

/-- A run of the ring from its initialisation: the ledger it ends in, and the history
that ledger has. -/
theorem Accepted.recorded {b : Build} {addr scratch scratchSize : BitVec b.sizeBits}
    {cfg : Config} {before : Store} {rb rb' : Rb}
    (hacc : Accepted b addr cfg scratch scratchSize before rb) (hover : rb.geo.NonOverlapping)
    (haddr : b.mode = .pointer → rb.geo.Addressable b) {calls : List Call}
    {outputs : List Output} (hrun : (ring b).run rb calls = some (outputs, rb'))
    (hwrap : WrapSafe rb.geo.slots (publishes calls outputs)) :
    ∃ M, ledger.run (cfg.ledger b (rb.store.payload b rb.geo)) calls = some (outputs, M) ∧
      Tracks b rb.geo rb' M ∧ WrapSafe M.slots M.head ∧
      Recorded (historyOf (calls.zip outputs)) M := by
  have htracks := hacc.tracks
  have hsafe := hwrap
  rw [← htracks.rep.slots, ← Nat.zero_add (publishes calls outputs)] at hsafe
  obtain ⟨M, hledger, hM⟩ := htracks.run_ledger (hacc.sound hover) haddr hrun hsafe
  obtain ⟨hhead, hslots⟩ := Ledger.run_head hledger
  have hend : WrapSafe M.slots M.head := by
    rw [hhead, hslots]
    exact hsafe
  have hrec := (cfg.recorded b (rb.store.payload b rb.geo)).run_invariant htracks.ok hledger hend
    (fun _ _ => True) trivial fun _ _ _ _ => trivial
  exact ⟨M, hledger, hM, hend, hrec.1⟩

end RingBuff
