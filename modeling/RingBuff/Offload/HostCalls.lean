import RingBuff.Offload.Exact

/-! # What the host does on the rings

Both modes of `cpu_host` publish with `publish_payload`: reserve a slot, again and
again while the ring is full, copy as much of the payload as fits and publish it; in
drop mode a full ring makes it return at once. And both read a result through a
pointer to its slot. The host takes these steps one by one while the stub works on
the same rings; what it gets is said here once.
-/

namespace RingBuff.Offload

open Threads

/-- The arguments of `publish_payload`. -/
structure Request where
  payload : Memory
  want : UInt32
  dropMode : Bool := false

namespace Request

/-- `len`: how much of the payload goes into the slot. -/
def len (q : Request) (cap : UInt32) : UInt32 := if q.want ≤ cap then q.want else cap

/-- A published message carries the request. -/
structure Carried (q : Request) (cap : UInt32) (m : Sent) : Prop where
  wanted : m.wantedLen = q.want
  written : m.writtenLen = q.len cap
  truncated : m.truncated = false
  payload : ∀ off < (q.len cap).toNat, m.payload off = q.payload off

variable {q : Request} {cap : UInt32}

theorem len_le : (q.len cap).toNat ≤ cap.toNat := by
  unfold len
  split_ifs with hfits
  · exact UInt32.le_iff_toNat_le.mp hfits
  · exact le_rfl

/-- The length the ring records for it. -/
theorem Carried.recorded {m : Sent} (hcarried : q.Carried cap m) :
    (m.recorded cap).1 = q.len cap := by
  rw [Sent.recorded, clampWritten_eq, hcarried.written, min_eq_left len_le]
  exact UInt32.ofNat_toNat

end Request

/-- The buffer `main` fills before it sends anything. -/
def hostPayload : Memory := fun i => ([0x5A, 0x59, 0x4E, 0x51] : List UInt8).getD i 0xA5

/-- `publish_payload`, before the named step. -/
inductive Sending where
  | acquire
  /-- `memcpy`, before byte `i`. -/
  | copy (idx len : UInt32) (i : Nat)
  | publish (idx len : UInt32)
  deriving DecidableEq, Repr

namespace Sending

/-- A call returns: `publish_payload` goes on, or returns itself. -/
def resume (q : Request) : Sending → Reply → Option (Sending ⊕ Int)
  | .acquire, .reserved idx cap => some (.inl (.copy idx (q.len cap) 0))
  | .acquire, .code .full => some (if q.dropMode then .inr 1 else .inl .acquire)
  | .acquire, _ => some (.inr (-1))
  | .copy idx len i, .code .ok => some (.inl (.copy idx len (i + 1)))
  | .copy _ _ _, _ => none
  | .publish _ _, .code .ok => some (.inr 0)
  | .publish _ _, _ => some (.inr (-1))

/-- A move of the call it is in. -/
def move (b : Build) (q : Request) (s : Sys) (x : Sending) (a : Act) :
    Option (Sys × (Sending ⊕ Int)) :=
  (Threads.step b s a).bind fun s' =>
    match reply s a s' with
    | none => some (s', .inl x)
    | some r => (x.resume q r).map fun y => (s', y)

/-- The next step, on the ring in state `s`. -/
def step (b : Build) (q : Request) (s : Sys) (x : Sending) : Option (Sys × (Sending ⊕ Int)) :=
  match x with
  | .acquire => x.move b q s (s.callP (.acquire q.want))
  | .copy idx len i =>
      if i < len.toNat then x.move b q s (.write i (q.payload i))
      else some (s, .inl (.publish idx len))
  | .publish idx len => x.move b q s (s.callP (.publishEx idx len false))

/-- The same when the write to the eventfd fails. -/
def stepEventfdFails (b : Build) (q : Request) (s : Sys) (x : Sending) :
    Option (Sys × (Sending ⊕ Int)) :=
  match x with
  | .publish _ _ => x.move b q s .eventfdFails
  | .acquire | .copy _ _ _ => none

end Sending

variable {b : Build} {q : Request} {s s' : Sys} {x : Sending} {before : List Sent}

/-- What the position says about the producer's side of the ring, on which `before`
had been published when `publish_payload` was called. -/
def SendingOk (b : Build) (q : Request) (before : List Sent) (s : Sys) : Sending → Prop
  | .acquire => Acquiring s q.want ∧ s.p.sent = before
  | .copy idx len i =>
      Reserved s idx q.want ∧ s.p.sent = before ∧ len = q.len (payloadCap b s.rb.geo) ∧
        i ≤ len.toNat ∧ ∀ off < i, s.rb.store.payload b s.rb.geo idx off = q.payload off
  | .publish idx len =>
      (Reserved s idx q.want ∧ s.p.sent = before ∧ len = q.len (payloadCap b s.rb.geo) ∧
        ∀ off < len.toNat, s.rb.store.payload b s.rb.geo idx off = q.payload off) ∨
      (InPublish s ∧ ∃ m, s.p.sent = before ++ [m] ∧ q.Carried (payloadCap b s.rb.geo) m)

/-- What a step of `publish_payload` leads to. -/
inductive Sends (b : Build) (q : Request) (before : List Sent) (s s' : Sys) :
    Sending ⊕ Int → Prop where
  | going (x : Sending) (hok : SendingOk b q before s' x) : Sends b q before s s' (.inl x)
  | sent (m : Sent) (hfree : Free s') (hsent : s'.p.sent = before ++ [m])
      (hcarried : q.Carried (payloadCap b s'.rb.geo) m) : Sends b q before s s' (.inr 0)
  | dropped (hdrop : q.dropMode = true) (hfree : Free s') (hsent : s'.p.sent = before) :
      Sends b q before s s' (.inr 1)
  | refused (hover : payloadCap b s.rb.geo < q.want) (hpolicy : s.rb.oversizePolicy = .drop) :
      Sends b q before s s' (.inr (-1))

/-- The consumer of the ring leaves the position valid. -/
theorem SendingOk.of_moved (hok : SendingOk b q before s x) (hring : Ring b s)
    (hmoved : MovedBy b false s s') : SendingOk b q before s' x := by
  have hframe := hmoved.sameProducer
  have hgeo : s'.rb.geo = s.rb.geo := congrArg Prod.fst hframe.settings
  have hpayload : ∀ {idx : UInt32} {n : Nat}, Reserved s idx q.want →
      n ≤ (payloadCap b s.rb.geo).toNat →
      (∀ off < n, s.rb.store.payload b s.rb.geo idx off = q.payload off) →
      ∀ off < n, s'.rb.store.payload b s'.rb.geo idx off = q.payload off := by
    intro idx n hreserved hle hsame off hoff
    rcases hmoved with rfl | ⟨a, ha, hstep⟩
    · exact hsame off hoff
    · rw [hgeo, consumer_payload hring.geo hring.counted hring.owned ha hstep
        (hring.reserved_lt hreserved) (hoff.trans_le hle)]
      exact hsame off hoff
  have hsent : s'.p.sent = s.p.sent := congrArg ProducerSide.sent hframe.side
  cases x with
  | acquire => exact ⟨hok.1.of_frame hframe, hsent.trans hok.2⟩
  | copy idx len i =>
      obtain ⟨hreserved, hbefore, rfl, hle, hbytes⟩ := hok
      exact ⟨hreserved.of_frame hframe, hsent.trans hbefore, by rw [hgeo], hle,
        hpayload hreserved (hle.trans Request.len_le) hbytes⟩
  | publish idx len =>
      rcases hok with ⟨hreserved, hbefore, rfl, hbytes⟩ | ⟨hin, m, hm, hcarried⟩
      · exact Or.inl ⟨hreserved.of_frame hframe, hsent.trans hbefore, by rw [hgeo],
          hpayload hreserved Request.len_le hbytes⟩
      · exact Or.inr ⟨hin.of_frame hframe, m, hsent.trans hm, hgeo ▸ hcarried⟩

/-- What is published in one `publish_payload`. -/
theorem sent_of_sending (hok : SendingOk b q before s x) :
    s.p.sent = before ∨ ∃ m, s.p.sent = before ++ [m] ∧ q.Carried (payloadCap b s.rb.geo) m := by
  cases x with
  | acquire => exact Or.inl hok.2
  | copy idx len i => exact Or.inl hok.2.1
  | publish idx len => exact hok.imp (fun h => h.2.1) fun h => h.2

/-! ## One step of `publish_payload` -/

theorem sending_acquire (hring : Ring b s) (hok : SendingOk b q before s .acquire) :
    ∃ s' y, Sending.step b q s .acquire = some (s', y) ∧ Sends b q before s s' y := by
  obtain ⟨hacquiring, hbefore⟩ := hok
  obtain ⟨s', hstep⟩ := acquire_enabled (b := b) s q.want
  have hcase := acquire_step hring.geo.toMasked hring.live hacquiring hstep
  have hgeo : s'.rb.geo = s.rb.geo := congrArg Prod.fst (step_settings hstep)
  simp only [Sending.step, Sending.move, hstep, Option.bind_some]
  generalize reply s (s.callP (.acquire q.want)) s' = r at hcase
  cases hcase with
  | going hacquiring' hsent =>
      exact ⟨s', _, rfl, .going .acquire ⟨hacquiring', hsent.trans hbefore⟩⟩
  | full hpc hpending hsent =>
      have hfree : Free s' := ⟨hpc, hpending⟩
      refine ⟨s', _, rfl, ?_⟩
      split_ifs with hdrop
      · exact .dropped hdrop hfree (hsent.trans hbefore)
      · exact .going .acquire ⟨hfree.acquiring _, hsent.trans hbefore⟩
  | oversize hover hdrop hpc hpending hsent => exact ⟨s', _, rfl, .refused hover hdrop⟩
  | reserved idx hreserved hsent =>
      exact ⟨s', _, rfl, .going _ ⟨hreserved, hsent.trans hbefore, by rw [hgeo], Nat.zero_le _,
        fun off hoff => absurd hoff (Nat.not_lt_zero off)⟩⟩

theorem sending_copy {idx len : UInt32} {i : Nat} (hring : Ring b s)
    (hok : SendingOk b q before s (.copy idx len i)) :
    ∃ s' y, Sending.step b q s (.copy idx len i) = some (s', y) ∧ Sends b q before s s' y := by
  obtain ⟨hreserved, hbefore, rfl, hle, hbytes⟩ := hok
  by_cases hlt : i < (q.len (payloadCap b s.rb.geo)).toNat
  · obtain ⟨s', hstep, hreply, hreserved', hsent, hgeo, hsame, hother⟩ :=
      hring.write_step hreserved (hlt.trans_le Request.len_le) (q.payload i)
    refine ⟨s', .inl (.copy idx (q.len (payloadCap b s.rb.geo)) (i + 1)), ?_, .going _ ?_⟩
    · simp only [Sending.step, if_pos hlt, Sending.move, hstep, Option.bind_some, hreply]
      rfl
    · refine ⟨hreserved', hsent.trans hbefore, by rw [hgeo], hlt, ?_⟩
      intro off hoff
      rw [hgeo]
      rcases Nat.lt_succ_iff_lt_or_eq.mp hoff with hold | rfl
      · rw [hother off (hold.trans (hlt.trans_le Request.len_le)) hold.ne]
        exact hbytes off hold
      · exact hsame
  · have heq : i = (q.len (payloadCap b s.rb.geo)).toNat := hle.antisymm (Nat.not_lt.mp hlt)
    refine ⟨s, _, if_neg hlt, .going _ (Or.inl ⟨hreserved, hbefore, rfl, ?_⟩)⟩
    rw [← heq]
    exact hbytes

/-- A step of `rb_publish` after the first. -/
theorem sending_inPublish {idx len : UInt32} {a : Act}
    (hok : SendingOk b q before s (.publish idx len)) (hin : InPublish s)
    (ha : a = .producer ∨ a = .eventfdFails) (hstep : Threads.step b s a = some s') :
    ∃ y, Sending.move b q s (.publish idx len) a = some (s', y) ∧ Sends b q before s s' y := by
  obtain ⟨m, hm, hcarried⟩ : ∃ m, s.p.sent = before ++ [m] ∧
      q.Carried (payloadCap b s.rb.geo) m := by
    rcases hok with ⟨hreserved, -⟩ | ⟨-, hm⟩
    · exact absurd hreserved.pc hin.busy
    · exact hm
  have hgeo : s'.rb.geo = s.rb.geo := congrArg Prod.fst (step_settings hstep)
  rw [← hgeo] at hcarried
  have hcase := publish_step hin ha hstep
  simp only [Sending.move, hstep, Option.bind_some]
  generalize reply s a s' = r at hcase
  cases hcase with
  | going hin' hsent => exact ⟨_, rfl, .going _ (Or.inr ⟨hin', m, hsent.trans hm, hcarried⟩)⟩
  | done hpc hpending hsent => exact ⟨_, rfl, .sent m ⟨hpc, hpending⟩ (hsent.trans hm) hcarried⟩

theorem sending_publish {idx len : UInt32} (hring : Ring b s)
    (hok : SendingOk b q before s (.publish idx len)) :
    ∃ s' y, Sending.step b q s (.publish idx len) = some (s', y) ∧ Sends b q before s s' y := by
  rcases id hok with ⟨hreserved, hbefore, rfl, hbytes⟩ | ⟨hin, -⟩
  · obtain ⟨s', hstep⟩ : ∃ s', Threads.step b s
        (.publishEx idx (q.len (payloadCap b s.rb.geo)) false) = some s' :=
      ⟨_, if_pos hreserved.pc⟩
    obtain ⟨hreply, hin, hsent⟩ := publish_start hring.live hreserved hstep
    have hgeo : s'.rb.geo = s.rb.geo := congrArg Prod.fst (step_settings hstep)
    refine ⟨s', .inl (.publish idx (q.len (payloadCap b s.rb.geo))), ?_, .going _ (Or.inr ?_)⟩
    · simp only [Sending.step, Sending.move, Sys.callP, if_pos hreserved.pc, hstep,
        Option.bind_some, hreply]
    · rw [hbefore] at hsent
      exact ⟨hin, _, hsent, rfl, by rw [hgeo], rfl, by rw [hgeo]; exact hbytes⟩
  · have hstep : Threads.step b s .producer = some (s.producerNext b) := if_neg hin.busy
    obtain ⟨y, hmove, hsends⟩ := sending_inPublish hok hin (Or.inl rfl) hstep
    refine ⟨_, y, ?_, hsends⟩
    simp only [Sending.step, Sys.callP, if_neg hin.busy]
    exact hmove

/-- `publish_payload` never gets stuck, and returns as promised. -/
theorem sending_step (hring : Ring b s) (hok : SendingOk b q before s x) :
    ∃ s' y, Sending.step b q s x = some (s', y) ∧ Sends b q before s s' y := by
  cases x with
  | acquire => exact sending_acquire hring hok
  | copy idx len i => exact sending_copy hring hok
  | publish idx len => exact sending_publish hring hok

theorem sending_eventfdFails {y : Sending ⊕ Int} (hok : SendingOk b q before s x)
    (hstep : Sending.stepEventfdFails b q s x = some (s', y)) : Sends b q before s s' y := by
  cases x with
  | acquire | copy => cases hstep
  | publish idx len =>
      obtain ⟨next, hmove, hnext⟩ := Option.bind_eq_some_iff.mp hstep
      -- the eventfd is written inside `rb_publish` only
      have hin : InPublish s := by
        rcases hok with ⟨hreserved, -⟩ | ⟨hin, -⟩
        · simp [Threads.step, hreserved.pc] at hmove
        · exact hin
      obtain ⟨y', hmove', hsends⟩ := sending_inPublish hok hin (Or.inr rfl) hmove
      obtain ⟨rfl, rfl⟩ := Prod.mk.inj (Option.some.inj (hmove'.symm.trans hstep))
      exact hsends

/-- A step of `publish_payload` is at most one move of the producer. -/
theorem sending_moved {y : Sending ⊕ Int}
    (hstep : Sending.step b q s x = some (s', y) ∨
      Sending.stepEventfdFails b q s x = some (s', y)) : MovedBy b true s s' := by
  have hmove : ∀ {a : Act}, a.byProducer = true → x.move b q s a = some (s', y) →
      MovedBy b true s s' := by
    intro a ha hmove
    obtain ⟨next, hnext, hrest⟩ := Option.bind_eq_some_iff.mp hmove
    split at hrest
    · obtain ⟨rfl, -⟩ := Prod.mk.inj (Option.some.inj hrest)
      exact Or.inr ⟨a, ha, hnext⟩
    · obtain ⟨_, -, heq⟩ := Option.map_eq_some_iff.mp hrest
      obtain ⟨rfl, -⟩ := Prod.mk.inj heq
      exact Or.inr ⟨a, ha, hnext⟩
  rcases hstep with hstep | hstep
  · unfold Sending.step at hstep
    split at hstep
    · exact hmove (Sys.callP_byProducer rfl) hstep
    · split_ifs at hstep
      · exact hmove rfl hstep
      · obtain ⟨rfl, -⟩ := Prod.mk.inj (Option.some.inj hstep)
        exact Or.inl rfl
    · exact hmove (Sys.callP_byProducer rfl) hstep
  · unfold Sending.stepEventfdFails at hstep
    split at hstep
    · exact hmove rfl hstep
    · cases hstep
    · cases hstep

/-! ## A host around its rings

The host keeps the two rings in a larger state, from which `rings` takes them. -/

section Moves

variable {T : Type} (rings : T → State) {t' : T} {w : State}

theorem moved_of_stay {next : T} (hstep : some next = some t') (hrings : rings next = w) :
    Moved b w.ringA (rings t').ringA ∧ Moved b w.ringB (rings t').ringB := by
  obtain rfl := Option.some.inj hstep
  rw [hrings]
  exact ⟨Or.inl rfl, Or.inl rfl⟩

/-- A move on ring B, whatever the host then makes of it. -/
theorem moved_of_onB {a : Act} {next : Sys → Option T}
    (hstep : (Threads.step b w.ringB a).bind next = some t')
    (hnext : ∀ ringB, next ringB = some t' → rings t' = { w with ringB }) :
    Moved b w.ringA (rings t').ringA ∧ Moved b w.ringB (rings t').ringB := by
  obtain ⟨ringB, hmove, hrest⟩ := Option.bind_eq_some_iff.mp hstep
  rw [hnext ringB hrest]
  exact ⟨Or.inl rfl, Or.inr ⟨a, hmove⟩⟩

/-- A step of `publish_payload` on ring A. -/
theorem moved_of_sending {next : Sys × (Sending ⊕ Int) → T}
    (hstep : (x.step b q w.ringA).map next = some t' ∨
      (x.stepEventfdFails b q w.ringA).map next = some t')
    (hnext : ∀ ringA y, rings (next (ringA, y)) = { w with ringA }) :
    Moved b w.ringA (rings t').ringA ∧ Moved b w.ringB (rings t').ringB := by
  have hsend : ∃ ringA y, (x.step b q w.ringA = some (ringA, y) ∨
      x.stepEventfdFails b q w.ringA = some (ringA, y)) ∧ next (ringA, y) = t' := by
    rcases hstep with hstep | hstep
    · obtain ⟨⟨ringA, y⟩, hsend, heq⟩ := Option.map_eq_some_iff.mp hstep
      exact ⟨ringA, y, Or.inl hsend, heq⟩
    · obtain ⟨⟨ringA, y⟩, hsend, heq⟩ := Option.map_eq_some_iff.mp hstep
      exact ⟨ringA, y, Or.inr hsend, heq⟩
  obtain ⟨ringA, y, hsend, rfl⟩ := hsend
  rw [hnext]
  exact ⟨(sending_moved hsend).moved, Or.inl rfl⟩

theorem moved_of_stub {m : Move} {next : State → T}
    (hstep : (Offload.step b w m).map next = some t') (hnext : ∀ w', rings (next w') = w') :
    Moved b w.ringA (rings t').ringA ∧ Moved b w.ringB (rings t').ringB := by
  obtain ⟨w', hmove, rfl⟩ := Option.map_eq_some_iff.mp hstep
  rw [hnext]
  exact step_moved hmove

end Moves

/-! ## Reading a result -/

/-- A message of ring B, read as a result. -/
def result (x : Sent) : ZoResult := ZoResult.load x.payload

/-- The answer the host waits for. -/
theorem answer_of_fetched {w : State} {job : Job} {x : Sent} {n : Nat} (hlinked : Linked b w)
    (hfetched : Fetched b w.ringB job x n) :
    ∃ m, w.ringA.p.sent[n]? = some m ∧
      (result x).IsFor (payloadCap b w.ringA.rb.geo) n m := by
  obtain ⟨m, r, hm, hfor, -, -, -, hbytes⟩ := hlinked.answers n x hfetched.sent
  refine ⟨m, hm, ?_⟩
  rw [result, ZoResult.load_of_bytes hbytes]
  exact hfor

/-- The host has a whole result in hand. -/
theorem len_of_fetched {w : State} {job : Job} {x : Sent} {n : Nat} (hlinked : Linked b w)
    (hroom : ZoResult.size.toNat ≤ (payloadCap b w.ringB.rb.geo).toNat)
    (hfetched : Fetched b w.ringB job x n) : job.len = ZoResult.size := by
  obtain ⟨m, r, -, -, hwanted, hwritten, htruncated, -⟩ := hlinked.answers n x hfetched.sent
  rw [hfetched.len, recorded_result hroom hwanted hwritten htruncated]

/-- The offsets of `r->seq`. -/
def seqOffsets : List Nat := [0, 1, 2, 3]

/-- The offsets of `r->compute_ns`. -/
def timeOffsets : List Nat := [16, 17, 18, 19, 20, 21, 22, 23]

/-- Of the bytes at `offsets` only those in `todo` have not been loaded. -/
def Seen (x : Sent) (offsets : List Nat) (seen : Memory) (todo : List Nat) : Prop :=
  ∀ off ∈ offsets, off ∉ todo → seen off = x.payload off

section Seen

variable {x : Sent} {offsets todo : List Nat} {seen : Memory} {off : Nat}

theorem Seen.start : Seen x offsets seen offsets := fun _ hmem hnot => absurd hmem hnot

theorem Seen.store8 (hseen : Seen x offsets seen (off :: todo)) :
    Seen x offsets (seen.store8 off (x.payload off)) todo := by
  intro other hmem hnot
  by_cases heq : other = off
  · rw [heq, Memory.store8_same]
  · rw [Memory.store8_of_ne _ _ heq]
    exact hseen other hmem fun hin => (List.mem_cons.mp hin).elim heq hnot

/-- A word of which all bytes have been loaded. -/
theorem Seen.load32 (hseen : Seen x offsets seen []) {addr : Nat}
    (hmem : ∀ k < 4, addr + k ∈ offsets) : seen.load32 addr = Memory.load32 x.payload addr :=
  Memory.load32_congr fun k hk => hseen _ (hmem k hk) List.not_mem_nil

theorem Seen.seq (hseen : Seen x seqOffsets seen []) :
    (ZoResult.load seen).seq = (result x).seq :=
  hseen.load32 (by decide)

theorem Seen.computeNs (hseen : Seen x timeOffsets seen []) :
    (ZoResult.load seen).computeNs = (result x).computeNs := by
  have hlow : seen.load32 16 = Memory.load32 x.payload 16 := hseen.load32 (by decide)
  have hhigh : seen.load32 20 = Memory.load32 x.payload 20 := hseen.load32 (by decide)
  simp only [result, ZoResult.load, hlow, hhigh]

end Seen

end RingBuff.Offload
