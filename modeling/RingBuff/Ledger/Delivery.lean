import RingBuff.Ledger.History

/-! # What the consumer is told about a message

A message may be cut when it is published: its length is clamped to the payload
of a slot, and a flag says so. Both travel to the consumer in one header word, the
flag in its top bit. What `rb_consume` reports of the `k`-th message is here
compared with what the producer passed for it, over whole runs. The flag always
arrives; the length arrives if it leaves the top bit free.
-/

namespace RingBuff

/-- The message was clamped, its reservation was clamped, or the producer said that
it is cut. -/
def Posted.cut (cap : UInt32) (m : Posted) : Bool :=
  m.truncated || decide (cap < m.written) || decide (cap < m.wanted)

/-- The report is true of the message. -/
structure Fetched.Faithful (cap : UInt32) (m : Posted) (d : Fetched) : Prop where
  len : d.len.toNat = min m.written.toNat cap.toNat
  truncated : d.truncated = m.cut cap
  whole : d.truncated = false → d.len = m.written

theorem Posted.fetched_len (cap slotIndex : UInt32) (m : Posted) :
    (m.fetched cap slotIndex).len.toNat = min m.written.toNat cap.toNat % 2 ^ 31 := by
  have hmin : min m.written.toNat cap.toNat < 2 ^ 32 :=
    (min_le_right _ _).trans_lt cap.toNat_lt
  simp only [Posted.fetched, Posted.header, Posted.recorded, clampWritten_eq]
  rw [headerLen_encodeHeader_toNat, UInt32.toNat_ofNat_of_lt' hmin]

theorem Posted.fetched_truncated (cap slotIndex : UInt32) (m : Posted) :
    (m.fetched cap slotIndex).truncated = m.cut cap := by
  simp only [Posted.fetched, Posted.header, Posted.recorded, clampWritten_eq]
  exact headerTruncated_encodeHeader _ _

/-- A message that is not cut fits its slot. -/
theorem Posted.written_le_of_cut {cap : UInt32} {m : Posted} (hcut : m.cut cap = false) :
    m.written.toNat ≤ cap.toNat := by
  simp only [Posted.cut, Bool.or_eq_false_iff, decide_eq_false_iff_not] at hcut
  exact UInt32.le_iff_toNat_le.mp (UInt32.not_lt.mp hcut.1.2)

/-- The header is faithful exactly to the lengths that leave its top bit free. -/
theorem Posted.faithful_iff (cap slotIndex : UInt32) (m : Posted) :
    (m.fetched cap slotIndex).Faithful cap m ↔ min m.written.toNat cap.toNat < 2 ^ 31 := by
  have hlen := m.fetched_len cap slotIndex
  have hflag := m.fetched_truncated cap slotIndex
  constructor
  · intro hfaithful
    have hexact := hfaithful.len
    omega
  · intro hshort
    rw [Nat.mod_eq_of_lt hshort] at hlen
    refine ⟨hlen, hflag, fun hwhole => ?_⟩
    have hle := Posted.written_le_of_cut (hflag.symm.trans hwhole)
    rw [← UInt32.toNat_inj, hlen, Nat.min_eq_left hle]

/-- In every run of whole calls, the `k`-th message that is delivered is the `k`-th
that was published, whatever was refused, aborted or reconfigured in between; and
what the consumer is told about it is true exactly if its clamped length is below
`2 ^ 31`. -/
theorem truncation_reported_iff {b : Build} {addr scratch scratchSize : BitVec b.sizeBits}
    {cfg : Config} {before : Store} {rb rb' : Rb}
    (hinit : rbInit b addr (some cfg) scratch scratchSize before = .ok rb)
    (hover : rb.geo.NonOverlapping) (haddr : b.mode = .pointer → rb.geo.Addressable b)
    {calls : List Call} {outputs : List Output}
    (hrun : (ring b).run rb calls = some (outputs, rb'))
    (hwrap : WrapSafe rb.geo.slots (historyOf (calls.zip outputs)).posted.length)
    {k : Nat} {d : Fetched} (hfetched : (historyOf (calls.zip outputs)).fetched[k]? = some d) :
    ∃ m, (historyOf (calls.zip outputs)).posted[k]? = some m ∧
      (d.Faithful (payloadCap b rb.geo) m ↔
        min m.written.toNat (payloadCap b rb.geo).toNat < 2 ^ 31) := by
  obtain ⟨cfg', heq, hacc⟩ := rbInit_accepted hinit
  obtain rfl := Option.some.inj heq
  rw [length_posted_historyOf] at hwrap
  obtain ⟨M, -, hM, -, hrec⟩ := hacc.recorded hover haddr hrun hwrap
  have hcap : M.cap = payloadCap b rb.geo := by rw [hM.rep.cap, hM.layout]
  obtain ⟨m, hm, rfl⟩ := hrec.fetched k d hfetched
  rw [hcap]
  exact ⟨m, hm, m.faithful_iff _ _⟩

/-- A reservation for 100 bytes and a message of 90, in slots that hold 60: the
consumer is told 60 bytes, cut. -/
theorem smallRing_truncation_reported :
    let trace := [(Call.acquire 100, (Reply.reserved 0 60, [])),
      (.publish 0 90, (.code .ok, [.slotAdded 0 60 true])), (.consume, (.message 0 60 true, []))]
    ((ring { mode := .index }).run (smallRing .index) (trace.map Prod.fst)).map Prod.fst =
        some (trace.map Prod.snd) ∧
      ∃ m, (historyOf trace).posted[0]? = some m ∧
        ((⟨0, 60, true⟩ : Fetched).Faithful 60 m ↔ min m.written.toNat 60 < 2 ^ 31) := by
  refine ⟨rfl, ?_⟩
  exact truncation_reported_iff (smallRing_init .index) (smallRing_nonOverlapping .index)
    (fun hmode => by cases hmode) (k := 0) (d := ⟨0, 60, true⟩)
    (show (ring { mode := .index }).run (smallRing .index)
      [.acquire 100, .publish 0 90, .consume] = some (_, _) from rfl) (Or.inl (by decide)) rfl

/-- A message of `2 ^ 31` bytes in a slot that holds it: the consumer is told that it
is empty and whole. -/
theorem hugeSlot_truncation_silent :
    let rb := blankRing { mode := .index } (hugeSlot 0x80000008) 0x100000000#64
    rbInit { mode := .index } 64#64 (some (hugeSlot 0x80000008)) 4096#64 0x100000000#64 blank =
        .ok rb ∧
      rb.geo.NonOverlapping ∧ payloadCap { mode := .index } rb.geo = 0x80000004 ∧
      ((ring { mode := .index }).run rb
        [.acquire 0x80000000, .publishEx 0 0x80000000 false, .consume]).map
          (fun answer => answer.1.map Prod.fst) =
        some [.reserved 0 0x80000004, .code .ok, .message 0 0 false] :=
  ⟨rfl, hugeSlot_nonOverlapping { mode := .index } (by decide) (by decide), rfl, rfl⟩

end RingBuff
