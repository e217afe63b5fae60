import RingBuff.Offload.System
import RingBuff.Threads.Ring

/-! # The offload system answers every message

Whatever the host does and however the steps of the two processes interleave, the
`k`-th result the stub publishes is the one for the `k`-th message the host
published: it carries the number `k + 1`, the length and the hash of that message.
The stub never fails and never leaves its slot. The argument joins the guarantees
of the two rings at the stub, whose position in `process_one` says how far the
message in hand has come.
-/

namespace RingBuff.Offload

open Threads

variable {b : Build} {s s' : Sys} {w w' : State}

/-- A recorded length fits the slot. -/
theorem recorded_le (cap : UInt32) (m : Sent) : (m.recorded cap).1.toNat ≤ cap.toNat := by
  rw [Sent.recorded, clampWritten_eq]
  have hlt := cap.toNat_lt
  rw [Counter.toNat_of_lt (by omega)]
  exact min_le_right _ _

/-! ## The message in hand -/

/-- A result for message `k`, which the host published as `m`. -/
structure ZoResult.IsFor (cap : UInt32) (k : Nat) (m : Sent) (r : ZoResult) : Prop where
  seq : r.seq = UInt32.ofNat (k + 1)
  inLen : r.inLen = (m.recorded cap).1
  hash : r.hash = zoFastHash m.payload r.inLen

/-- The stub has message `n` of ring A in hand. -/
structure Fetched (b : Build) (s : Sys) (job : Job) (m : Sent) (n : Nat) : Prop where
  held : Holding s job.idx
  count : s.c.delivered.length = n + 1
  sent : s.p.sent[n]? = some m
  len : job.len = (m.recorded (payloadCap b s.rb.geo)).1

/-- The host sends on while the stub has a message in hand. -/
theorem Fetched.of_frame {job : Job} {m : Sent} {n : Nat} (hfetched : Fetched b s job m n)
    (hframe : SameConsumer s s') : Fetched b s' job m n where
  held := hfetched.held.of_frame hframe
  count := by rw [hframe.side]; exact hfetched.count
  sent := getElem?_of_prefix hframe.sent hfetched.sent
  len := by
    rw [show s'.rb.geo = s.rb.geo from congrArg Prod.fst hframe.settings]
    exact hfetched.len

/-- A load from the message in hand. -/
theorem Fetched.read {job : Job} {m : Sent} {n off : Nat} (hfetched : Fetched b s job m n)
    (hring : Ring b s) (hoff : off < (payloadCap b s.rb.geo).toNat) :
    Threads.step b s (.read off) = some (s.returnC (.byte (m.payload off))) ∧
      reply s (.read off) (s.returnC (.byte (m.payload off))) = some (.byte (m.payload off)) ∧
      Fetched b (s.returnC (.byte (m.payload off))) job m n := by
  obtain ⟨hheld, hcount, hsent, hlen⟩ := hfetched
  have hread : payloadRead b s.rb off = .byte (m.payload off) := by
    rw [payloadRead, if_pos ⟨hheld.active, hoff⟩, hring.payload_held hheld hcount hsent hoff]
  refine ⟨?_, reply_returnC rfl rfl _, ⟨rfl, hheld.active, hheld.slot⟩, hcount, hsent, hlen⟩
  rw [← hread]
  exact if_pos hheld.pc

/-- What a move of `rb_consume` leads to. -/
inductive Received (b : Build) (s s' : Sys) : Option Reply → Prop where
  | going (hconsuming : Consuming s') (hdelivered : s'.c.delivered = s.c.delivered) :
      Received b s s' none
  | nothing (err : RbErr) (hconsuming : Consuming s')
      (hdelivered : s'.c.delivered = s.c.delivered)
      (hempty : s.p.published = s.c.released) : Received b s s' (some (.code err))
  | message (job : Job) (truncated : Bool) (m : Sent)
      (hfetched : Fetched b s' job m s.c.delivered.length) :
      Received b s s' (some (.message job.idx job.len truncated))

/-- A consumer that holds nothing can go on with `rb_consume`. -/
theorem receive_step (hring : Ring b s) (hmode : b.mode ≠ .pointer) (hconsuming : Consuming s) :
    ∃ s', Threads.step b s (s.callC .consume) = some s' ∧
      Received b s s' (reply s (s.callC .consume) s') := by
  obtain ⟨s', hstep⟩ := consume_enabled (fun h => absurd h hmode) hconsuming
  refine ⟨s', hstep, ?_⟩
  have hframe := (step_consumerMove (Sys.callC_byProducer rfl) hstep).frame
  have hgeo : s'.rb.geo = s.rb.geo := congrArg Prod.fst hframe.settings
  have howned := step_owned hstep hring.geo (fun h => absurd h hmode) hring.counted hring.wrap
    hring.owned
  have hempty : ∀ err, reply s (s.callC .consume) s' = some (.code err) →
      s.p.published = s.c.released := fun _ =>
    hring.empty_of_nothing (fun h => absurd h hmode) hconsuming hstep
  have hcase := consume_step hring.live hconsuming hstep
  generalize reply s (s.callC .consume) s' = r at hcase hempty
  cases hcase with
  | going hpc hactive hdelivered => exact .going ⟨Or.inr hpc, hactive⟩ hdelivered
  | nothing err hpc hactive hdelivered =>
      exact .nothing err ⟨Or.inl hpc, hactive⟩ hdelivered (hempty err rfl)
  | message i len truncated hheld hdelivered =>
      have hget : s'.c.delivered[s.c.delivered.length]? = some ⟨i, len, truncated⟩ := by
        rw [hdelivered, List.getElem?_concat_length]
      obtain ⟨m, hm, hd⟩ := howned.taken.delivered (hgeo ▸ hring.cap_lt) _ _ hget
      refine .message ⟨i, len⟩ truncated m ⟨hheld, ?_, hm, congrArg Delivered.len hd⟩
      rw [hdelivered, List.length_append]
      rfl

/-- No reservation and no call of the producer. -/
structure Free (s : Sys) : Prop where
  pc : s.p.pc = .idle
  pending : s.rb.pendingSlot = noPending

theorem Free.acquiring (hfree : Free s) (wantedLen : UInt32) : Acquiring s wantedLen :=
  ⟨by rw [hfree.pc]; trivial, hfree.pending⟩

theorem Free.of_frame (hfree : Free s) (hframe : SameProducer s s') : Free s' := by
  obtain ⟨hside, hslot, -⟩ := hframe.fields
  exact ⟨hside ▸ hfree.pc, hslot.trans hfree.pending⟩

/-- Of the result in the reserved slot only the bytes `todo` are missing. -/
def Filled (b : Build) (s : Sys) (oidx : UInt32) (r : ZoResult) (todo : List Nat) : Prop :=
  ∀ off < ZoResult.size.toNat, off ∉ todo → s.rb.store.payload b s.rb.geo oidx off = r.byte off

/-- A message of ring B is the answer to message `k` of ring A. -/
def Answers (b : Build) (s : Sys) (k : Nat) (x : Sent) : Prop :=
  ∃ m, ∃ r : ZoResult, s.p.sent[k]? = some m ∧ r.IsFor (payloadCap b s.rb.geo) k m ∧
    x.wantedLen = ZoResult.size ∧ x.writtenLen = ZoResult.size ∧ x.truncated = false ∧
    ∀ off < ZoResult.size.toNat, x.payload off = r.byte off

/-- How many messages the stub has answered. -/
def State.answered (w : State) : Nat := w.ringB.p.sent.length

/-- What the position of the stub says about its sides of the two rings. -/
def StubOk (b : Build) (w : State) : Prop :=
  match w.stub with
  | .consume =>
      Consuming w.ringA ∧ Free w.ringB ∧ w.ringA.c.delivered.length = w.answered ∧
        w.seqOut = UInt32.ofNat w.answered
  | .hash job i h =>
      ∃ m, Fetched b w.ringA job m w.answered ∧ Free w.ringB ∧
        w.seqOut = UInt32.ofNat w.answered ∧ i ≤ job.len.toNat ∧ h = hashUpTo m.payload i
  | .count job h _ =>
      ∃ m, Fetched b w.ringA job m w.answered ∧ Free w.ringB ∧
        w.seqOut = UInt32.ofNat w.answered ∧ h = zoFastHash m.payload job.len
  | .acquire job r =>
      ∃ m, Fetched b w.ringA job m w.answered ∧ Acquiring w.ringB ZoResult.size ∧
        w.seqOut = UInt32.ofNat (w.answered + 1) ∧
        r.IsFor (payloadCap b w.ringA.rb.geo) w.answered m
  | .fill job r oidx todo =>
      ∃ m, Fetched b w.ringA job m w.answered ∧ Reserved w.ringB oidx ZoResult.size ∧
        w.seqOut = UInt32.ofNat (w.answered + 1) ∧
        r.IsFor (payloadCap b w.ringA.rb.geo) w.answered m ∧
        (∀ off ∈ todo, off < ZoResult.size.toNat) ∧ Filled b w.ringB oidx r todo
  | .publish job oidx =>
      (∃ m r, Fetched b w.ringA job m w.answered ∧ Reserved w.ringB oidx ZoResult.size ∧
        w.seqOut = UInt32.ofNat (w.answered + 1) ∧
        r.IsFor (payloadCap b w.ringA.rb.geo) w.answered m ∧ Filled b w.ringB oidx r []) ∨
      (InPublish w.ringB ∧ Holding w.ringA job.idx ∧
        w.ringA.c.delivered.length = w.answered ∧ w.seqOut = UInt32.ofNat w.answered)
  | .release job true =>
      Free w.ringB ∧ Releasing w.ringA job.idx ∧ w.ringA.c.delivered.length = w.answered ∧
        w.seqOut = UInt32.ofNat w.answered
  | .abort _ | .release _ false | .stopped => False

/-- The rings and the stub fit together. -/
structure Linked (b : Build) (w : State) : Prop where
  answers : ∀ k x, w.ringB.p.sent[k]? = some x → Answers b w.ringA k x
  stub : StubOk b w

/-! ## Moves of the host -/

theorem Answers.of_sent {k : Nat} {x : Sent} (hanswers : Answers b s k x)
    (hgeo : s'.rb.geo = s.rb.geo) (hsent : s.p.sent <+: s'.p.sent) : Answers b s' k x := by
  obtain ⟨m, r, hget, hfor, hx⟩ := hanswers
  exact ⟨m, r, getElem?_of_prefix hsent hget, hgeo ▸ hfor, hx⟩

/-- The host makes a move on ring A. -/
theorem Linked.send (hlinked : Linked b w) (hframe : SameConsumer w.ringA s') :
    Linked b { w with ringA := s' } := by
  have hgeo : s'.rb.geo = w.ringA.rb.geo := congrArg Prod.fst hframe.settings
  refine ⟨fun k x hget => (hlinked.answers k x hget).of_sent hgeo hframe.sent, ?_⟩
  have hstub := hlinked.stub
  unfold StubOk at hstub ⊢
  dsimp only
  rw [hframe.side, hgeo]
  split at hstub
  · exact hstub.imp_left fun hconsuming => hconsuming.of_frame hframe
  · exact hstub.imp fun m hm => hm.imp_left fun hfetched => hfetched.of_frame hframe
  · exact hstub.imp fun m hm => hm.imp_left fun hfetched => hfetched.of_frame hframe
  · exact hstub.imp fun m hm => hm.imp_left fun hfetched => hfetched.of_frame hframe
  · exact hstub.imp fun m hm => hm.imp_left fun hfetched => hfetched.of_frame hframe
  · refine hstub.imp (fun ⟨m, r, hfetched, hrest⟩ => ⟨m, r, hfetched.of_frame hframe, hrest⟩) ?_
    exact fun ⟨hin, hheld, hrest⟩ => ⟨hin, hheld.of_frame hframe, hrest⟩
  · exact ⟨hstub.1, hstub.2.1.of_frame hframe, hstub.2.2⟩
  all_goals exact hstub

/-- The host makes a move on ring B. -/
theorem Linked.receive {a : Act} (hlinked : Linked b w) (hring : Ring b w.ringB)
    (hroom : ZoResult.size.toNat ≤ (payloadCap b w.ringB.rb.geo).toNat)
    (ha : a.byProducer = false) (hstep : Threads.step b w.ringB a = some s') :
    Linked b { w with ringB := s' } := by
  have hframe := (step_consumerMove ha hstep).frame
  have hgeo : s'.rb.geo = w.ringB.rb.geo := congrArg Prod.fst hframe.settings
  have hanswered : State.answered { w with ringB := s' } = w.answered :=
    congrArg (fun p => p.sent.length) hframe.side
  have hfilled : ∀ {oidx : UInt32} {r : ZoResult} {todo : List Nat},
      Reserved w.ringB oidx ZoResult.size → Filled b w.ringB oidx r todo →
        Filled b s' oidx r todo := by
    intro oidx r todo hreserved hfilled off hoff hmem
    rw [hgeo, consumer_payload hring.geo hring.counted hring.owned ha hstep
      (hring.reserved_lt hreserved) (hoff.trans_le hroom)]
    exact hfilled off hoff hmem
  refine ⟨fun k x hget => hlinked.answers k x (by rwa [← hframe.side]), ?_⟩
  have hstub := hlinked.stub
  unfold StubOk at hstub ⊢
  rw [hanswered]
  dsimp only
  split at hstub
  · exact ⟨hstub.1, hstub.2.1.of_frame hframe, hstub.2.2⟩
  · exact hstub.imp fun m hm => ⟨hm.1, hm.2.1.of_frame hframe, hm.2.2⟩
  · exact hstub.imp fun m hm => ⟨hm.1, hm.2.1.of_frame hframe, hm.2.2⟩
  · exact hstub.imp fun m hm => ⟨hm.1, hm.2.1.of_frame hframe, hm.2.2⟩
  · obtain ⟨m, hfetched, hreserved, hseq, hfor, htodo, hfill⟩ := hstub
    exact ⟨m, hfetched, hreserved.of_frame hframe, hseq, hfor, htodo, hfilled hreserved hfill⟩
  · rcases hstub with ⟨m, r, hfetched, hreserved, hseq, hfor, hfill⟩ | ⟨hin, hrest⟩
    · exact Or.inl ⟨m, r, hfetched, hreserved.of_frame hframe, hseq, hfor,
        hfilled hreserved hfill⟩
    · exact Or.inr ⟨hin.of_frame hframe, hrest⟩
  · exact ⟨hstub.1.of_frame hframe, hstub.2⟩
  all_goals exact hstub

/-! ## Moves of the stub -/

section Stub

variable {A B : Sys} {n : UInt32} {ns : UInt64} {job : Job}

/-- The stub's moves on ring A leave what the host has published. -/
theorem Answers.of_consumer {k : Nat} {x : Sent} (hanswers : Answers b s k x)
    (hframe : SameProducer s s') : Answers b s' k x :=
  hanswers.of_sent (congrArg Prod.fst hframe.settings) (by rw [hframe.side])

theorem Linked.consume (hlinked : Linked b ⟨A, B, .consume, n⟩) (hmode : b.mode ≠ .pointer)
    (hring : Ring b A) : ∃ w', State.stubStep b ⟨A, B, .consume, n⟩ ns = some w' ∧ Linked b w' := by
  obtain ⟨hanswers, hconsuming, hfree, hcount, hseq⟩ := hlinked
  obtain ⟨s', hstep, hcase⟩ := receive_step hring hmode hconsuming
  have hframe := (step_consumerMove (Sys.callC_byProducer rfl) hstep).frame
  have hanswers' : ∀ k x, B.p.sent[k]? = some x → Answers b s' k x :=
    fun k x hget => (hanswers k x hget).of_consumer hframe
  simp only [State.stubStep, State.onA, hstep, Option.bind_some]
  generalize reply A (A.callC .consume) s' = r at hcase
  cases hcase with
  | going hconsuming' hdelivered =>
      exact ⟨_, rfl, hanswers', hconsuming', hfree, hdelivered ▸ hcount, hseq⟩
  | nothing err hconsuming' hdelivered hempty =>
      exact ⟨_, rfl, hanswers', hconsuming', hfree, hdelivered ▸ hcount, hseq⟩
  | message job truncated m hfetched =>
      rw [hcount] at hfetched
      exact ⟨_, rfl, hanswers', m, hfetched, hfree, hseq, Nat.zero_le _, rfl⟩

theorem Linked.hash {i : Nat} {h : UInt32} (hlinked : Linked b ⟨A, B, .hash job i h, n⟩)
    (hring : Ring b A) :
    ∃ w', State.stubStep b ⟨A, B, .hash job i h, n⟩ ns = some w' ∧ Linked b w' := by
  obtain ⟨hanswers, m, hfetched, hfree, hseq, hle, rfl⟩ := hlinked
  by_cases hlt : i < job.len.toNat
  · have hcap : i < (payloadCap b A.rb.geo).toNat := by
      rw [hfetched.len] at hlt
      exact hlt.trans_le (recorded_le _ _)
    obtain ⟨hstep, hreply, hfetched'⟩ := hfetched.read hring hcap
    simp only [State.stubStep, if_pos hlt, State.onA, hstep, Option.bind_some, hreply]
    exact ⟨_, rfl, hanswers, m, hfetched', hfree, hseq, hlt, rfl⟩
  · obtain rfl : i = job.len.toNat := by omega
    simp only [State.stubStep, if_neg hlt]
    exact ⟨_, rfl, hanswers, m, hfetched, hfree, hseq, rfl⟩

theorem Linked.count {h : UInt32} {ns' : UInt64} (hlinked : Linked b ⟨A, B, .count job h ns', n⟩) :
    ∃ w', State.stubStep b ⟨A, B, .count job h ns', n⟩ ns = some w' ∧ Linked b w' := by
  obtain ⟨hanswers, m, hfetched, hfree, hseq, rfl⟩ := hlinked
  have hnext : n + 1 = UInt32.ofNat (B.p.sent.length + 1) := by
    rw [UInt32.ofNat_add]
    exact congrArg (· + 1) hseq
  exact ⟨_, rfl, hanswers, m, hfetched, hfree.acquiring _, hnext, hnext, hfetched.len, rfl⟩

theorem Linked.acquire {r : ZoResult} (hlinked : Linked b ⟨A, B, .acquire job r, n⟩)
    (hring : Ring b B) (hroom : ZoResult.size.toNat ≤ (payloadCap b B.rb.geo).toNat) :
    ∃ w', State.stubStep b ⟨A, B, .acquire job r, n⟩ ns = some w' ∧ Linked b w' := by
  obtain ⟨hanswers, m, hfetched, hacquiring, hseq, hfor⟩ := hlinked
  obtain ⟨s', hstep⟩ := acquire_enabled (b := b) B ZoResult.size
  have hcase := acquire_step hring.geo.toMasked hring.live hacquiring hstep
  simp only [State.stubStep, State.onB, hstep, Option.bind_some]
  generalize reply B (B.callP (.acquire ZoResult.size)) s' = reply at hcase
  have hlinked' : s'.p.sent = B.p.sent → ∀ k x, s'.p.sent[k]? = some x → Answers b A k x :=
    fun hsent k x hget => hanswers k x (by rwa [← hsent])
  cases hcase with
  | going hacquiring hsent =>
      refine ⟨_, rfl, hlinked' hsent, m, ?_⟩
      dsimp only [State.answered]
      rw [hsent]
      exact ⟨hfetched, hacquiring, hseq, hfor⟩
  | full hpc hpending hsent =>
      refine ⟨_, rfl, hlinked' hsent, m, ?_⟩
      dsimp only [State.answered]
      rw [hsent]
      exact ⟨hfetched, Free.acquiring ⟨hpc, hpending⟩ _, hseq, hfor⟩
  | oversize hover =>
      exact absurd (UInt32.lt_iff_toNat_lt.mp hover) (Nat.not_lt.mpr hroom)
  | reserved oidx hreserved hsent =>
      refine ⟨_, rfl, hlinked' hsent, m, ?_⟩
      dsimp only [State.answered]
      rw [hsent]
      exact ⟨hfetched, hreserved, hseq, hfor, fun off => ZoResult.mem_storeOrder.mp,
        fun off hoff hmem => absurd (ZoResult.mem_storeOrder.mpr hoff) hmem⟩

theorem Linked.fill {r : ZoResult} {oidx : UInt32} {todo : List Nat}
    (hlinked : Linked b ⟨A, B, .fill job r oidx todo, n⟩) (hring : Ring b B)
    (hroom : ZoResult.size.toNat ≤ (payloadCap b B.rb.geo).toNat) :
    ∃ w', State.stubStep b ⟨A, B, .fill job r oidx todo, n⟩ ns = some w' ∧ Linked b w' := by
  obtain ⟨hanswers, m, hfetched, hreserved, hseq, hfor, htodo, hfilled⟩ := hlinked
  cases todo with
  | nil => exact ⟨_, rfl, hanswers, Or.inl ⟨m, r, hfetched, hreserved, hseq, hfor, hfilled⟩⟩
  | cons off todo =>
      have hoff : off < (payloadCap b B.rb.geo).toNat :=
        (htodo off List.mem_cons_self).trans_le hroom
      obtain ⟨s', hstep, hreply, hreserved', hsent, hgeo, hsame, hother⟩ :=
        hring.write_step hreserved hoff (r.byte off)
      simp only [State.stubStep, State.onB, hstep, Option.bind_some, hreply]
      refine ⟨_, rfl, fun k x hget => hanswers k x (by rwa [← hsent]), m, ?_⟩
      dsimp only [State.answered]
      rw [hsent]
      refine ⟨hfetched, hreserved', hseq, hfor,
        fun off' hmem => htodo off' (List.mem_cons_of_mem _ hmem), ?_⟩
      intro off' hoff' hmem
      rw [hgeo]
      by_cases heq : off' = off
      · rw [heq]
        exact hsame
      · rw [hother off' (hoff'.trans_le hroom) heq]
        exact hfilled off' hoff' fun hin => (List.mem_cons.mp hin).elim heq hmem

/-- A step of `rb_publish` after the first. -/
theorem Linked.publishing {oidx : UInt32} {a : Act} {s' : Sys}
    (hlinked : Linked b ⟨A, B, .publish job oidx, n⟩) (hin : InPublish B)
    (ha : a = .producer ∨ a = .eventfdFails) (hstep : Threads.step b B a = some s') :
    ∃ w', State.onB b ⟨A, B, .publish job oidx, n⟩ a = some w' ∧ Linked b w' := by
  obtain ⟨hanswers, hstub⟩ := hlinked
  have hstub : Holding A job.idx ∧ A.c.delivered.length = B.p.sent.length ∧
      n = UInt32.ofNat B.p.sent.length := by
    rcases hstub with ⟨m, r, -, hreserved, -⟩ | ⟨-, hrest⟩
    · exact absurd hreserved.pc hin.busy
    · exact hrest
  obtain ⟨hheld, hcount, hseq⟩ := hstub
  have hcase := publish_step hin ha hstep
  simp only [State.onB, hstep, Option.bind_some]
  generalize reply B a s' = reply at hcase
  cases hcase with
  | going hin' hsent =>
      refine ⟨_, rfl, fun k x hget => hanswers k x (by rwa [← hsent]), Or.inr ?_⟩
      dsimp only [State.answered]
      rw [hsent]
      exact ⟨hin', hheld, hcount, hseq⟩
  | done hpc hpending hsent =>
      refine ⟨_, rfl, fun k x hget => hanswers k x (by rwa [← hsent]), ?_⟩
      refine ⟨⟨hpc, hpending⟩, hheld.releasing, ?_⟩
      dsimp only [State.answered]
      rw [hsent]
      exact ⟨hcount, hseq⟩

theorem Linked.publish {oidx : UInt32} (hlinked : Linked b ⟨A, B, .publish job oidx, n⟩)
    (hring : Ring b B) :
    ∃ w', State.stubStep b ⟨A, B, .publish job oidx, n⟩ ns = some w' ∧ Linked b w' := by
  rcases hlinked.stub with ⟨m, r, hfetched, hreserved, hseq, hfor, hfilled⟩ | ⟨hin, -⟩
  · have hreserved : Reserved B oidx ZoResult.size := hreserved
    obtain ⟨s', hstep⟩ : ∃ s', Threads.step b B (.publishEx oidx ZoResult.size false) = some s' :=
      ⟨_, if_pos hreserved.pc⟩
    obtain ⟨hreply, hin, hsent⟩ := publish_start hring.live hreserved hstep
    have hlength : s'.p.sent.length = B.p.sent.length + 1 := by
      rw [hsent, List.length_append]
      rfl
    simp only [State.stubStep, Sys.callP, if_pos hreserved.pc, State.onB, hstep, Option.bind_some,
      hreply]
    refine ⟨_, rfl, ?_, Or.inr ?_⟩
    · intro k x hget
      dsimp only at hget
      rw [hsent] at hget
      -- either an old answer or the one that has just been handed over
      rcases getElem?_concat_eq_some.mp hget with hold | ⟨rfl, rfl⟩
      · exact hlinked.answers k x hold
      · exact ⟨m, r, hfetched.sent, hfor, rfl, rfl, rfl,
          fun off hoff => hfilled off hoff List.not_mem_nil⟩
    · dsimp only [State.answered]
      rw [hlength]
      exact ⟨hin, hfetched.held, hfetched.count, hseq⟩
  · have hin : InPublish B := hin
    have hstep : Threads.step b B .producer = some (B.producerNext b) := if_neg hin.busy
    obtain ⟨w', hnext, hlinked'⟩ := hlinked.publishing hin (Or.inl rfl) hstep
    refine ⟨w', ?_, hlinked'⟩
    simp only [State.stubStep, Sys.callP, if_neg hin.busy]
    exact hnext

theorem Linked.release (hlinked : Linked b ⟨A, B, .release job true, n⟩)
    (hmode : b.mode ≠ .pointer) (hring : Ring b A) :
    ∃ w', State.stubStep b ⟨A, B, .release job true, n⟩ ns = some w' ∧ Linked b w' := by
  obtain ⟨hanswers, hfree, hreleasing, hcount, hseq⟩ := hlinked
  obtain ⟨s', hstep⟩ := release_enabled (fun h => absurd h hmode) hreleasing
  have hframe := (step_consumerMove (Sys.callC_byProducer rfl) hstep).frame
  have hcase := release_step hring.live hreleasing hstep
  have hanswers' : ∀ k x, B.p.sent[k]? = some x → Answers b s' k x :=
    fun k x hget => (hanswers k x hget).of_consumer hframe
  simp only [State.stubStep, State.onA, hstep, Option.bind_some]
  generalize reply A (A.callC (.release job.idx)) s' = reply at hcase
  cases hcase with
  | going hreleasing' hdelivered =>
      exact ⟨_, rfl, hanswers', hfree, hreleasing', hdelivered ▸ hcount, hseq⟩
  | done hpc hactive hdelivered =>
      exact ⟨_, rfl, hanswers', ⟨Or.inl hpc, hactive⟩, hfree, hdelivered ▸ hcount, hseq⟩

end Stub

/-- The stub can always go on, and stays linked. -/
theorem Linked.stubStep (hlinked : Linked b w) (hmode : b.mode ≠ .pointer) (hA : Ring b w.ringA)
    (hB : Ring b w.ringB) (hroom : ZoResult.size.toNat ≤ (payloadCap b w.ringB.rb.geo).toNat)
    (ns : UInt64) : ∃ w', w.stubStep b ns = some w' ∧ Linked b w' := by
  obtain ⟨A, B, stub, n⟩ := w
  cases stub with
  | consume => exact hlinked.consume hmode hA
  | hash job i h => exact hlinked.hash hA
  | count job h ns' => exact hlinked.count
  | acquire job r => exact hlinked.acquire hB hroom
  | fill job r oidx todo => exact hlinked.fill hB hroom
  | publish job oidx => exact hlinked.publish hB
  | abort job => exact hlinked.stub.elim
  | release job answered =>
      cases answered with
      | true => exact hlinked.release hmode hA
      | false => exact hlinked.stub.elim
  | stopped => exact hlinked.stub.elim

/-! ## Runs -/

/-- A ring makes at most one move in a move of the system. -/
def Moved (b : Build) (s s' : Sys) : Prop := s' = s ∨ ∃ a, Threads.step b s a = some s'

theorem Moved.settings (hmoved : Moved b s s') : s'.rb.settings = s.rb.settings := by
  rcases hmoved with rfl | ⟨a, hstep⟩
  · rfl
  · exact step_settings hstep

theorem Moved.geo (hmoved : Moved b s s') : s'.rb.geo = s.rb.geo :=
  congrArg Prod.fst hmoved.settings

theorem Moved.published_le (hmoved : Moved b s s') : s.p.published ≤ s'.p.published := by
  rcases hmoved with rfl | ⟨a, hstep⟩
  · exact le_rfl
  · exact step_published_le hstep

theorem Moved.ring (hmoved : Moved b s s') (hring : Ring b s) (hmode : b.mode ≠ .pointer)
    (hwrap : WrapSafe s'.rb.geo.slots s'.p.published) : Ring b s' := by
  rcases hmoved with rfl | ⟨a, hstep⟩
  · exact hring
  · exact hring.step (fun h => absurd h hmode) hstep hwrap

/-- The same, by one side of the ring. -/
def MovedBy (b : Build) (producer : Bool) (s s' : Sys) : Prop :=
  s' = s ∨ ∃ a : Act, a.byProducer = producer ∧ Threads.step b s a = some s'

theorem MovedBy.moved {producer : Bool} (hmoved : MovedBy b producer s s') : Moved b s s' :=
  hmoved.imp_right fun ⟨a, _, hstep⟩ => ⟨a, hstep⟩

theorem MovedBy.sameProducer (hmoved : MovedBy b false s s') : SameProducer s s' := by
  rcases hmoved with rfl | ⟨a, ha, hstep⟩
  · exact ⟨rfl, rfl, rfl, rfl, le_rfl⟩
  · exact (step_consumerMove ha hstep).frame

theorem MovedBy.sameConsumer (hmoved : MovedBy b true s s') : SameConsumer s s' := by
  rcases hmoved with rfl | ⟨a, ha, hstep⟩
  · exact ⟨rfl, rfl, rfl, le_rfl, List.prefix_rfl⟩
  · exact (step_producerMove ha hstep).frame

theorem onA_moved {a : Act} (ha : a.byProducer = false) (hstep : w.onA b a = some w') :
    MovedBy b false w.ringA w'.ringA ∧ MovedBy b true w.ringB w'.ringB := by
  obtain ⟨s', hmove, hnext⟩ := Option.bind_eq_some_iff.mp hstep
  split at hnext
  · obtain rfl := Option.some.inj hnext
    exact ⟨Or.inr ⟨a, ha, hmove⟩, Or.inl rfl⟩
  · obtain ⟨stub, -, rfl⟩ := Option.map_eq_some_iff.mp hnext
    exact ⟨Or.inr ⟨a, ha, hmove⟩, Or.inl rfl⟩

theorem onB_moved {a : Act} (ha : a.byProducer = true) (hstep : w.onB b a = some w') :
    MovedBy b false w.ringA w'.ringA ∧ MovedBy b true w.ringB w'.ringB := by
  obtain ⟨s', hmove, hnext⟩ := Option.bind_eq_some_iff.mp hstep
  split at hnext
  · obtain rfl := Option.some.inj hnext
    exact ⟨Or.inl rfl, Or.inr ⟨a, ha, hmove⟩⟩
  · obtain ⟨stub, -, rfl⟩ := Option.map_eq_some_iff.mp hnext
    exact ⟨Or.inl rfl, Or.inr ⟨a, ha, hmove⟩⟩

theorem stubStep_moved {ns : UInt64} (hstep : w.stubStep b ns = some w') :
    MovedBy b false w.ringA w'.ringA ∧ MovedBy b true w.ringB w'.ringB := by
  unfold State.stubStep at hstep
  split at hstep
  · exact onA_moved (Sys.callC_byProducer rfl) hstep
  · split_ifs at hstep
    · exact onA_moved rfl hstep
    · obtain rfl := Option.some.inj hstep
      exact ⟨Or.inl rfl, Or.inl rfl⟩
  · obtain rfl := Option.some.inj hstep
    exact ⟨Or.inl rfl, Or.inl rfl⟩
  · exact onB_moved (Sys.callP_byProducer rfl) hstep
  · split at hstep
    · obtain rfl := Option.some.inj hstep
      exact ⟨Or.inl rfl, Or.inl rfl⟩
    · exact onB_moved rfl hstep
  · exact onB_moved (Sys.callP_byProducer rfl) hstep
  · exact onB_moved rfl hstep
  · exact onA_moved (Sys.callC_byProducer rfl) hstep
  · cases hstep

theorem stubEventfdFails_moved (hstep : step b w .stubEventfdFails = some w') :
    MovedBy b false w.ringA w'.ringA ∧ MovedBy b true w.ringB w'.ringB := by
  simp only [step] at hstep
  split at hstep
  · exact onB_moved rfl hstep
  · cases hstep

theorem step_moved {m : Move} (hstep : step b w m = some w') :
    Moved b w.ringA w'.ringA ∧ Moved b w.ringB w'.ringB := by
  cases m with
  | send a =>
      obtain ⟨-, hstep⟩ := Option.ite_none_right_eq_some.mp hstep
      obtain ⟨s', hmove, rfl⟩ := Option.map_eq_some_iff.mp hstep
      exact ⟨Or.inr ⟨a, hmove⟩, Or.inl rfl⟩
  | receive a =>
      obtain ⟨-, hstep⟩ := Option.ite_none_left_eq_some.mp hstep
      obtain ⟨s', hmove, rfl⟩ := Option.map_eq_some_iff.mp hstep
      exact ⟨Or.inl rfl, Or.inr ⟨a, hmove⟩⟩
  | stub ns => exact (stubStep_moved hstep).imp MovedBy.moved MovedBy.moved
  | stubEventfdFails => exact (stubEventfdFails_moved hstep).imp MovedBy.moved MovedBy.moved

/-- Every move keeps the system linked. -/
theorem linked_step {m : Move} (hlinked : Linked b w) (hmode : b.mode ≠ .pointer)
    (hA : Ring b w.ringA) (hB : Ring b w.ringB)
    (hroom : ZoResult.size.toNat ≤ (payloadCap b w.ringB.rb.geo).toNat)
    (hstep : step b w m = some w') : Linked b w' := by
  cases m with
  | send a =>
      obtain ⟨ha, hstep⟩ := Option.ite_none_right_eq_some.mp hstep
      obtain ⟨s', hmove, rfl⟩ := Option.map_eq_some_iff.mp hstep
      exact hlinked.send (step_producerMove ha hmove).frame
  | receive a =>
      obtain ⟨ha, hstep⟩ := Option.ite_none_left_eq_some.mp hstep
      obtain ⟨s', hmove, rfl⟩ := Option.map_eq_some_iff.mp hstep
      exact hlinked.receive hB hroom (Bool.eq_false_of_not_eq_true ha) hmove
  | stub ns =>
      obtain ⟨next, hnext, hlinked'⟩ := hlinked.stubStep hmode hA hB hroom ns
      obtain rfl := Option.some.inj (hstep.symm.trans hnext)
      exact hlinked'
  | stubEventfdFails =>
      obtain ⟨A, B, stub, n⟩ := w
      cases stub with
      | publish job oidx =>
          obtain ⟨s', hmove, -⟩ := Option.bind_eq_some_iff.mp hstep
          -- the eventfd is written inside `rb_publish` only
          have hin : InPublish B := by
            rcases hlinked.stub with ⟨_, _, -, hreserved, -⟩ | ⟨hin, -⟩
            · have hidle : B.p.pc = .idle := hreserved.pc
              simp [Threads.step, hidle] at hmove
            · exact hin
          obtain ⟨next, hnext, hlinked'⟩ := hlinked.publishing hin (Or.inr rfl) hmove
          obtain rfl := Option.some.inj (hstep.symm.trans hnext)
          exact hlinked'
      | consume | hash | count | acquire | fill | abort | release | stopped => cases hstep

/-- What the two processes can rely on. -/
structure Exact (b : Build) (w : State) : Prop where
  /-- The stub can always go on: it has not failed, and its next load or store is
  inside of its slot. -/
  running : ∀ ns, ∃ w', step b w (.stub ns) = some w'
  /-- The `k`-th result published is the one for the `k`-th message. -/
  answers : ∀ k x, w.ringB.p.sent[k]? = some x → Answers b w.ringA k x
  /-- Nothing is answered twice, and only the message in hand is not answered. -/
  complete : w.answered ≤ w.ringA.c.delivered.length ∧
    w.ringA.c.delivered.length ≤ w.answered + 1
  /-- The host is given whole results only. -/
  received : ∀ (k : Nat) d, w.ringB.c.delivered[k]? = some d →
    d.len = ZoResult.size ∧ d.truncated = false
  /-- What the host reads from the `k`-th of them is the result for message `k`. -/
  read : ∀ k : Nat, w.ringB.rb.consumerActive ≠ 0 → k + 1 = w.ringB.c.delivered.length →
    ∃ m, w.ringA.p.sent[k]? = some m ∧
      (ZoResult.load (w.ringB.rb.store.payload b w.ringB.rb.geo w.ringB.rb.consumerSlot)).IsFor
        (payloadCap b w.ringA.rb.geo) k m

theorem Linked.complete (hlinked : Linked b w) :
    w.answered ≤ w.ringA.c.delivered.length ∧ w.ringA.c.delivered.length ≤ w.answered + 1 := by
  have hstub := hlinked.stub
  unfold StubOk at hstub
  split at hstub
  · omega
  · obtain ⟨m, hfetched, -⟩ := hstub
    have hcount := hfetched.count
    omega
  · obtain ⟨m, hfetched, -⟩ := hstub
    have hcount := hfetched.count
    omega
  · obtain ⟨m, hfetched, -⟩ := hstub
    have hcount := hfetched.count
    omega
  · obtain ⟨m, hfetched, -⟩ := hstub
    have hcount := hfetched.count
    omega
  · rcases hstub with ⟨m, r, hfetched, -⟩ | ⟨-, -, hcount, -⟩
    · have hcount := hfetched.count
      omega
    · omega
  · omega
  all_goals exact hstub.elim

/-- A whole result is recorded as such. -/
theorem recorded_result {cap : UInt32} {x : Sent} (hroom : ZoResult.size.toNat ≤ cap.toNat)
    (hwanted : x.wantedLen = ZoResult.size) (hwritten : x.writtenLen = ZoResult.size)
    (htruncated : x.truncated = false) : x.recorded cap = (ZoResult.size, false) := by
  have hnot : ¬ cap < ZoResult.size := fun h =>
    absurd (UInt32.lt_iff_toNat_lt.mp h) (Nat.not_lt.mpr hroom)
  rw [Sent.recorded, clampWritten_eq, hwanted, hwritten, htruncated, min_eq_left hroom]
  simp [hnot]

theorem Linked.exact (hlinked : Linked b w) (hmode : b.mode ≠ .pointer) (hA : Ring b w.ringA)
    (hB : Ring b w.ringB)
    (hroom : ZoResult.size.toNat ≤ (payloadCap b w.ringB.rb.geo).toNat) : Exact b w where
  running ns := by
    obtain ⟨w', hnext, -⟩ := hlinked.stubStep hmode hA hB hroom ns
    exact ⟨w', hnext⟩
  answers := hlinked.answers
  complete := hlinked.complete
  received := by
    intro k d hget
    obtain ⟨x, hx, rfl⟩ := hB.delivered hget
    obtain ⟨m, r, -, -, hwanted, hwritten, htruncated, -⟩ := hlinked.answers k x hx
    rw [Sent.delivery, recorded_result hroom hwanted hwritten htruncated]
    exact ⟨rfl, rfl⟩
  read := by
    intro k hactive hk
    obtain ⟨x, hx, -, hpayload⟩ :=
      (hB.owned.safe hB.counted hB.cap_lt hB.wrap).payload hactive k hk
    obtain ⟨m, r, hm, hfor, -, -, -, hbytes⟩ := hlinked.answers k x hx
    refine ⟨m, hm, ?_⟩
    rw [ZoResult.load_of_bytes (r := r)
      (fun off hoff => (hpayload off (hoff.trans_le hroom)).trans (hbytes off hoff))]
    exact hfor

/-- The rings were initialised as `rbA` and `rbB`. As long as slots and positions stay
aligned, the promises of the library hold on both, and `P` with them. -/
structure Running (b : Build) (rbA rbB : Rb) (w : State) (P : Prop) : Prop where
  settingsA : w.ringA.rb.settings = rbA.settings
  settingsB : w.ringB.rb.settings = rbB.settings
  aligned : WrapSafe rbA.geo.slots w.ringA.p.published →
    WrapSafe rbB.geo.slots w.ringB.p.published → Ring b w.ringA ∧ Ring b w.ringB ∧ P

namespace Running

variable {rbA rbB : Rb} {P P' : Prop}

theorem geoA (hrunning : Running b rbA rbB w P) : w.ringA.rb.geo = rbA.geo :=
  congrArg Prod.fst hrunning.settingsA

theorem geoB (hrunning : Running b rbA rbB w P) : w.ringB.rb.geo = rbB.geo :=
  congrArg Prod.fst hrunning.settingsB

theorem step (hrunning : Running b rbA rbB w P) (hmode : b.mode ≠ .pointer)
    (hA : Moved b w.ringA w'.ringA) (hB : Moved b w.ringB w'.ringB)
    (hkeep : Ring b w.ringA → Ring b w.ringB → P → P') : Running b rbA rbB w' P' := by
  refine ⟨hA.settings.trans hrunning.settingsA, hB.settings.trans hrunning.settingsB, ?_⟩
  intro hwrapA hwrapB
  obtain ⟨hringA, hringB, hP⟩ := hrunning.aligned (hwrapA.mono hA.published_le)
    (hwrapB.mono hB.published_le)
  refine ⟨hA.ring hringA hmode ?_, hB.ring hringB hmode ?_, hkeep hringA hringB hP⟩
  · rw [hA.geo, hrunning.geoA]
    exact hwrapA
  · rw [hB.geo, hrunning.geoB]
    exact hwrapB

end Running

section Init

variable {addrA addrB scratchA scratchB sizeA sizeB : BitVec b.sizeBits} {cfgA cfgB : Option Config}
  {beforeA beforeB : Store} {rbA rbB : Rb}

theorem start_ring {addr scratch scratchSize : BitVec b.sizeBits} {cfg : Config} {before : Store}
    {rb : Rb} (hacc : Accepted b addr cfg scratch scratchSize before rb)
    (hover : rb.geo.NonOverlapping) (hcap : (payloadCap b rb.geo).toNat < 2 ^ 31)
    (hwrap : WrapSafe rb.geo.slots 0) : Ring b (Threads.start rb) :=
  ⟨hacc.sound hover, start_counted hacc, start_owned hacc, hcap, hwrap⟩

theorem start_linked {cfgA cfgB : Config}
    (haccA : Accepted b addrA cfgA scratchA sizeA beforeA rbA)
    (haccB : Accepted b addrB cfgB scratchB sizeB beforeB rbB) : Linked b (start rbA rbB) := by
  refine ⟨nofun, ⟨Or.inl rfl, ?_⟩, ⟨rfl, ?_⟩, rfl, rfl⟩
  · rw [start, Threads.start, haccA.eq]
    rfl
  · rw [start, Threads.start, haccB.eq]
    rfl

theorem start_running {cfgA cfgB : Config} {P : Prop}
    (haccA : Accepted b addrA cfgA scratchA sizeA beforeA rbA)
    (haccB : Accepted b addrB cfgB scratchB sizeB beforeB rbB)
    (hoverA : rbA.geo.NonOverlapping) (hoverB : rbB.geo.NonOverlapping)
    (hcapA : (payloadCap b rbA.geo).toNat < 2 ^ 31) (hcapB : (payloadCap b rbB.geo).toNat < 2 ^ 31)
    (hP : P) : Running b rbA rbB (start rbA rbB) P :=
  ⟨rfl, rfl, fun hwrapA hwrapB => ⟨start_ring haccA hoverA hcapA hwrapA,
    start_ring haccB hoverB hcapB hwrapB, hP⟩⟩

/-- The guarantees in every state the system reaches, as long as slots and
positions stay aligned. -/
theorem reaches_exact {cfgA cfgB : Config} (hmode : b.mode ≠ .pointer)
    (haccA : Accepted b addrA cfgA scratchA sizeA beforeA rbA)
    (haccB : Accepted b addrB cfgB scratchB sizeB beforeB rbB)
    (hoverA : rbA.geo.NonOverlapping) (hoverB : rbB.geo.NonOverlapping)
    (hcapA : (payloadCap b rbA.geo).toNat < 2 ^ 31) (hcapB : (payloadCap b rbB.geo).toNat < 2 ^ 31)
    (hroom : ZoResult.size.toNat ≤ (payloadCap b rbB.geo).toNat)
    (hreach : (system b).Reaches (start rbA rbB) w)
    (hwrapA : WrapSafe rbA.geo.slots w.ringA.p.published)
    (hwrapB : WrapSafe rbB.geo.slots w.ringB.p.published) : Exact b w := by
  have hrunning := hreach.invariant (fun w => Running b rbA rbB w (Linked b w))
    (start_running haccA haccB hoverA hoverB hcapA hcapB (start_linked haccA haccB)) ?_
  · obtain ⟨hA, hB, hlinked⟩ := hrunning.aligned hwrapA hwrapB
    exact hlinked.exact hmode hA hB (hrunning.geoB ▸ hroom)
  · rintro w m ⟨⟩ w' hrunning hmove
    obtain ⟨next, hstep, heq⟩ := Option.map_eq_some_iff.mp hmove
    obtain ⟨-, rfl⟩ := Prod.mk.inj heq
    obtain ⟨hmovedA, hmovedB⟩ := step_moved hstep
    exact hrunning.step hmode hmovedA hmovedB fun hA hB hlinked =>
      linked_step hlinked hmode hA hB (hrunning.geoB ▸ hroom) hstep

/-- Whatever the host does and in whatever order the steps of host and stub come,
the stub answers message after message, and the host gets for its `k`-th message
the result with number `k + 1`, its length and its hash. The two processes map the
rings at addresses of their own, so the build is not the one with pointers; a
result takes 24 bytes, which the slots of ring B must have. -/
theorem offload_exact (hmode : b.mode ≠ .pointer)
    (hinitA : rbInit b addrA cfgA scratchA sizeA beforeA = .ok rbA)
    (hinitB : rbInit b addrB cfgB scratchB sizeB beforeB = .ok rbB)
    (hoverA : rbA.geo.NonOverlapping) (hoverB : rbB.geo.NonOverlapping)
    (hcapA : (payloadCap b rbA.geo).toNat < 2 ^ 31) (hcapB : (payloadCap b rbB.geo).toNat < 2 ^ 31)
    (hroom : ZoResult.size.toNat ≤ (payloadCap b rbB.geo).toNat)
    (hreach : (system b).Reaches (start rbA rbB) w)
    (hwrapA : WrapSafe rbA.geo.slots w.ringA.p.published)
    (hwrapB : WrapSafe rbB.geo.slots w.ringB.p.published) : Exact b w := by
  obtain ⟨cfgA', -, haccA⟩ := rbInit_accepted hinitA
  obtain ⟨cfgB', -, haccB⟩ := rbInit_accepted hinitB
  exact reaches_exact hmode haccA haccB hoverA hoverB hcapA hcapB hroom hreach hwrapA hwrapB

end Init

/-- The host publishes two bytes, the stub answers, and the host takes the result
before the stub has released the message. -/
def oneAnswer : List Move :=
  [Move.send (.acquire 2), .send .producer, .send (.write 0 0x5A), .send (.write 1 0x4F),
    .send (.publishEx 0 2 false)] ++ List.replicate 6 (Move.send .producer) ++
  List.replicate 43 (Move.stub 7) ++ [Move.receive .consume] ++
    List.replicate 4 (Move.receive .consumer)

theorem smallRing_offload_exact :
    ∃ w, (system { mode := .index }).Reaches (start (smallRing .index) (smallRing .index)) w ∧
      (w.stub, w.ringB.c.delivered, ZoResult.load (w.ringB.rb.store.payload { mode := .index }
        w.ringB.rb.geo w.ringB.rb.consumerSlot)) =
          (.release ⟨0, 2⟩ true, [⟨0, 24, false⟩], ⟨1, 571995686, 2, 7⟩) ∧
      Exact { mode := .index } w := by
  obtain ⟨w, hreach, hseen⟩ := Automaton.Reaches.of_run (system { mode := .index })
    (start (smallRing .index) (smallRing .index)) oneAnswer
    (fun w => (w.stub, w.ringB.c.delivered, ZoResult.load (w.ringB.rb.store.payload
      { mode := .index } w.ringB.rb.geo w.ringB.rb.consumerSlot)))
    (show _ = some (.release ⟨0, 2⟩ true, [⟨0, 24, false⟩], ⟨1, 571995686, 2, 7⟩)
      by decide +kernel)
  exact ⟨w, hreach, hseen, offload_exact (by decide) (smallRing_init .index)
    (smallRing_init .index) (smallRing_nonOverlapping .index) (smallRing_nonOverlapping .index)
    (by decide) (by decide) (by decide) hreach (Or.inl (by decide)) (Or.inl (by decide))⟩

end RingBuff.Offload
