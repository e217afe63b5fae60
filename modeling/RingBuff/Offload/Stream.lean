import RingBuff.Offload.Host
import RingBuff.Offload.HostCalls

/-! # Streaming

The default mode of `cpu_host`. In each round the host takes all results that are
there, counts up its sequence number, stores it into the payload and publishes it;
in drop mode a message that finds ring A full is given up. A run of at most five
messages is a demo and publishes texts of its own instead. When the rounds are over,
`drain_results` collects what is missing. While the host waits for room in ring A it
takes nothing from ring B, and while the stub waits for room in ring B it releases
nothing of ring A.

Left out are what the host prints and the pauses between messages.
-/

namespace RingBuff.Offload.Stream

open Threads

/-- The options of the streaming mode. -/
structure Args where
  msgSize : UInt32
  dropMode : Bool
  /-- `-L`. -/
  latency : Bool
  /-- `-n`; otherwise the time decides. -/
  total : Option UInt64

/-- `demo`. -/
def Args.demo (args : Args) : Bool :=
  match args.total with
  | some total => total ≤ 5
  | none => false

/-- `sample_json`. -/
def sampleJson : List String := [
  "\x7b\"id\":1,\"method\":\"mining.subscribe\",\"params\":[\"rig/1\"]\x7d",
  "\x7b\"id\":2,\"method\":\"mining.authorize\",\"params\":[\"user\",\"x\"]\x7d",
  "\x7b\"id\":3,\"method\":\"mining.submit\",\"params\":[\"user\",\"job\",\"0000\"]\x7d",
  "\x7b\"id\":4,\"result\":true,\"error\":null\x7d",
  "\x7b\"id\":5,\"method\":\"mining.notify\",\"params\":[\"job\",\"prev\",\"cb\"]\x7d"]

/-- A text with the zero byte that ends it. -/
def textRequest (json : String) (dropMode : Bool) : Request where
  payload := fun i => json.toUTF8.data.toList.getD i 0
  want := UInt32.ofNat json.utf8ByteSize + 1
  dropMode := dropMode

/-- The next message. The copy of its number covers bytes 4 to 7 of a buffer of
`msg_size` bytes. -/
def message (args : Args) (attempted : UInt64) (seq : UInt32) : Option Request :=
  if args.demo then some (textRequest (sampleJson.getD (attempted % 5).toNat "") args.dropMode)
  else if args.msgSize < 8 then none
  else some ⟨hostPayload.store32 4 seq, args.msgSize, args.dropMode⟩

/-- The buffer has room for the number, unless it is not used. -/
def Args.Sized (args : Args) : Prop := args.demo = true ∨ ¬ args.msgSize < 8

theorem exists_message {args : Args} (hsize : args.Sized) (attempted : UInt64) (seq : UInt32) :
    ∃ q, message args attempted seq = some q := by
  unfold message
  rcases hsize with hdemo | hsize
  · exact ⟨_, if_pos hdemo⟩
  · split_ifs
    · exact ⟨_, rfl⟩
    · exact ⟨_, rfl⟩

theorem message_dropMode {args : Args} {attempted : UInt64} {seq : UInt32} {q : Request}
    (hq : message args attempted seq = some q) : q.dropMode = args.dropMode := by
  unfold message at hq
  split_ifs at hq
  · exact (congrArg Request.dropMode (Option.some.inj hq)).symm
  · exact (congrArg Request.dropMode (Option.some.inj hq)).symm

/-- The host, before the named step. `final` tells `drain_results` from the drain in
each round. -/
inductive Host where
  | begin
  | consume (final : Bool)
  | note (final : Bool) (idx len : UInt32)
  | seq (final : Bool) (idx : UInt32) (ts : UInt64) (seen : Memory) (todo : List Nat)
  | release (final : Bool) (idx : UInt32)
  | count
  | send (q : Request) (x : Sending)
  | stamp
  | rest
  | returned (code : Int)

structure Run where
  w : State
  host : Host := .begin
  /-- `bell.seq_in`, which only the host stores. -/
  seqIn : UInt32 := 0
  attempted : UInt64 := 0
  published : UInt64 := 0
  dropped : UInt64 := 0
  gotLive : Int := 0
  /-- `expected`, `got` and `idle` of `drain_results`. -/
  expected : Int := 0
  got : Int := 0
  idle : Int := 0
  /-- `g_send_ns`. -/
  sendNs : UInt32 → UInt64 := fun _ => 0
  /-- `g_lat_samples_ns`. -/
  samples : List UInt64 := []
  /-- History: when each message was sent and each result was received. -/
  sentAt : List UInt64 := []
  receivedAt : List UInt64 := []

/-- `DUMP_TS_SLOTS`. -/
def tsSlots : UInt32 := 4096

/-- `(int)n`. -/
def toInt (n : UInt64) : Int := Int.bmod n.toNat (2 ^ 32)

/-- What `latency_record` gets, if anything. -/
def sample (send ts : UInt64) : List UInt64 := if send ≠ 0 ∧ send ≤ ts then [ts - send] else []

/-- One move. `late` is what the comparison with `t_end` says, `now` what the clock
says. -/
inductive Turn where
  | host (late : Bool) (now : UInt64)
  | hostEventfdFails
  | stub (ns : UInt64)
  | stubEventfdFails
  deriving DecidableEq, Repr

namespace Run

variable (b : Build) (args : Args) (t : Run)

/-- A call on ring B returns. -/
def resume (r : Reply) : Option Run :=
  match t.host, r with
  | .consume false, .message idx len _ => some { t with host := .note false idx len }
  | .consume true, .message idx len _ => some { t with idle := 0, host := .note true idx len }
  | .consume false, _ => some { t with host := .count }
  | .consume true, _ => some { t with idle := t.idle + 1, host := .rest }
  | .seq final idx ts seen (off :: todo), .byte value =>
      some { t with host := .seq final idx ts (seen.store8 off value) todo }
  | .release false _, _ => some { t with host := .consume false }
  | .release true _, _ => some { t with host := .rest }
  | _, _ => none

/-- The host moves on ring B. -/
def onB (a : Act) : Option Run :=
  (Threads.step b t.w.ringB a).bind fun ringB =>
    match reply t.w.ringB a ringB with
    | none => some { t with w.ringB := ringB }
    | some r => resume { t with w.ringB := ringB } r

/-- `publish_payload` has made a step on ring A. -/
def sent (q : Request) (next : Sys × (Sending ⊕ Int)) : Run :=
  match next.2 with
  | .inl x => { t with w.ringA := next.1, host := .send q x }
  | .inr code =>
      let t := { t with w.ringA := next.1, attempted := t.attempted + 1 }
      if code < 0 then { t with host := .returned 1 }
      else if code = 1 then { t with dropped := t.dropped + 1, host := .begin }
      else { t with published := t.published + 1, host := .stamp }

/-- Whether the rounds are over. -/
def ended (late : Bool) : Bool :=
  match args.total with
  | some total => total ≤ t.attempted
  | none => late

/-- `got_live++` or `got++`. -/
def counted (final : Bool) : Run :=
  if final then { t with got := t.got + 1 } else { t with gotLive := t.gotLive + 1 }

/-- The exit code of `main`. -/
def exitCode : Int := if t.gotLive + t.got = toInt t.published then 0 else 2

/-- The next step of the host. -/
def hostStep (late : Bool) (now : UInt64) : Option Run :=
  match t.host with
  | .begin =>
      if t.ended args late then
        some { t with expected := max 0 (toInt t.published - t.gotLive), host := .rest }
      else some { t with host := .consume false }
  | .consume _ => t.onB b (t.w.ringB.callC .consume)
  | .note final idx len =>
      if len < ZoResult.size then some { t with host := .release final idx }
      else if args.latency then
        some { t.counted final with host := .seq final idx now (fun _ => 0) seqOffsets }
      else some { t.counted final with host := .release final idx }
  | .seq final idx ts seen todo =>
      match todo with
      | [] =>
          let send := t.sendNs ((ZoResult.load seen).seq % tsSlots)
          some { t with
            samples := t.samples ++ sample send ts
            receivedAt := t.receivedAt ++ [ts]
            host := .release final idx }
      | off :: _ => t.onB b (.read off)
  | .release _ idx => t.onB b (t.w.ringB.callC (.release idx))
  | .count =>
      (message args t.attempted (t.seqIn + 1)).map fun q =>
        { t with seqIn := t.seqIn + 1, host := .send q .acquire }
  | .send q x => (x.step b q t.w.ringA).map (t.sent q)
  | .stamp =>
      some { t with
        sendNs := if args.latency then Function.update t.sendNs (t.seqIn % tsSlots) now
          else t.sendNs
        sentAt := t.sentAt ++ [now]
        host := .begin }
  | .rest =>
      if t.got < t.expected ∧ t.idle < 100000000 then some { t with host := .consume true }
      else some { t with host := .returned t.exitCode }
  | .returned _ => none

def step : Turn → Option Run
  | .host late now => t.hostStep b args late now
  | .hostEventfdFails =>
      match t.host with
      | .send q x => (x.stepEventfdFails b q t.w.ringA).map (t.sent q)
      | _ => none
  | .stub ns => (Offload.step b t.w (.stub ns)).map fun w => { t with w }
  | .stubEventfdFails => (Offload.step b t.w .stubEventfdFails).map fun w => { t with w }

/-- What the host counts of its own messages. -/
def counters : UInt64 × UInt64 × UInt64 × UInt32 :=
  (t.attempted, t.published, t.dropped, t.seqIn)

end Run

/-- The streaming host and the stub. -/
def system (b : Build) (args : Args) : Automaton Run Turn Unit where
  step t m := (t.step b args m).map fun t' => ((), t')

variable {b : Build} {args : Args} {t t' : Run} {P : Nat} {w : State}

section Counted

variable (t : Run) (final : Bool)

theorem counted_w : (t.counted final).w = t.w := by
  cases final <;> rfl

theorem counted_counters : (t.counted final).counters = t.counters := by
  cases final <;> rfl

theorem counted_sentAt : (t.counted final).sentAt = t.sentAt := by
  cases final <;> rfl

theorem counted_got :
    (t.counted final).gotLive + (t.counted final).got = t.gotLive + t.got + 1 := by
  cases final <;> simp only [Run.counted, Bool.false_eq_true, ↓reduceIte] <;> omega

end Counted

/-! ## How far the two rings can be apart -/

/-- The stub releases a message after it has published the answer. -/
theorem released_le_published (hlinked : Linked b w) (hA : Counted w.ringA)
    (hB : Counted w.ringB) : w.ringA.c.released ≤ w.ringB.p.published := by
  have hfetched : ∀ {job : Job} {m : Sent}, Fetched b w.ringA job m w.answered →
      w.ringB.p.published = w.ringB.p.sent.length →
      w.ringA.c.released ≤ w.ringB.p.published := by
    intro job m hfetched hsame
    have hheld := released_of_holding hA hfetched.held
    have hcount : w.ringA.c.delivered.length = w.ringB.p.sent.length + 1 := hfetched.count
    omega
  have hstub := hlinked.stub
  unfold StubOk at hstub
  split at hstub
  · obtain ⟨hconsuming, hfree, hcount, -⟩ := hstub
    have hcount : w.ringA.c.delivered.length = w.ringB.p.sent.length := hcount
    rw [released_of_consuming hA hconsuming, published_of_idle hB hfree.pc, hcount]
  · obtain ⟨m, hjob, hfree, -⟩ := hstub
    exact hfetched hjob (published_of_idle hB hfree.pc)
  · obtain ⟨m, hjob, hfree, -⟩ := hstub
    exact hfetched hjob (published_of_idle hB hfree.pc)
  · obtain ⟨m, hjob, hacquiring, -⟩ := hstub
    exact hfetched hjob (published_of_acquiring hB hacquiring)
  · obtain ⟨m, hjob, hreserved, -⟩ := hstub
    exact hfetched hjob (published_of_idle hB hreserved.pc)
  · rcases hstub with ⟨m, r, hjob, hreserved, -⟩ | ⟨-, hheld, hcount, -⟩
    · exact hfetched hjob (published_of_idle hB hreserved.pc)
    · -- the answer may not have reached `head` yet, but the message is still held
      have hheld := released_of_holding hA hheld
      have hcount : w.ringA.c.delivered.length = w.ringB.p.sent.length := hcount
      have hsent := hB.producer.sent_length
      split_ifs at hsent <;> omega
  · obtain ⟨hfree, -, hcount, -⟩ := hstub
    have hcount : w.ringA.c.delivered.length = w.ringB.p.sent.length := hcount
    have hle := hA.consumer.delivered_length
    rw [published_of_idle hB hfree.pc]
    omega
  all_goals exact hstub.elim

/-- With `P` messages the host has sent at most a ring full more than it has got back. -/
def Drained (w : State) (P : Nat) : Prop :=
  P ≤ w.ringB.c.delivered.length + w.ringA.rb.limit.toNat

/-- Nothing of ring A is in hand, and as many results were counted as delivered. -/
structure Between (t : Run) (P : Nat) : Prop where
  free : Free t.w.ringA
  sent : t.w.ringA.p.sent.length = P
  consuming : Consuming t.w.ringB
  counted : t.gotLive + t.got = t.w.ringB.c.delivered.length

/-- What the position of the host says after `P` messages. -/
def HostOk (b : Build) (args : Args) (P : Nat) (t : Run) : Prop :=
  match t.host with
  | .begin | .consume _ | .rest | .stamp => Between t P
  | .note _ idx len =>
      Free t.w.ringA ∧ t.w.ringA.p.sent.length = P ∧
        ∃ x n, Fetched b t.w.ringB ⟨idx, len⟩ x n ∧ t.gotLive + t.got = n
  | .seq _ idx _ seen todo =>
      Free t.w.ringA ∧ t.w.ringA.p.sent.length = P ∧
        (∃ x n len, Fetched b t.w.ringB ⟨idx, len⟩ x n ∧ t.gotLive + t.got = n + 1 ∧
          Seen x seqOffsets seen todo) ∧ ∀ off ∈ todo, off < ZoResult.size.toNat
  | .release _ idx =>
      Free t.w.ringA ∧ t.w.ringA.p.sent.length = P ∧ Releasing t.w.ringB idx ∧
        t.gotLive + t.got = t.w.ringB.c.delivered.length
  | .count => Between t P ∧ Drained t.w P
  | .send q x =>
      (∃ before, before.length = P ∧ SendingOk b q before t.w.ringA x) ∧
        message args t.attempted t.seqIn = some q ∧ Consuming t.w.ringB ∧
        t.gotLive + t.got = t.w.ringB.c.delivered.length ∧ Drained t.w P
  | .returned code =>
      code = t.exitCode ∧ t.w.ringA.p.sent.length = P ∧
        t.gotLive + t.got = t.w.ringB.c.delivered.length

/-- Inside `publish_payload`, for a message that has been numbered. -/
def Host.sending : Host → Nat
  | .send _ _ => 1
  | .begin | .consume _ | .note _ _ _ | .seq _ _ _ _ _ | .release _ _ | .count | .stamp | .rest
  | .returned _ => 0

/-- After the message has been published and before the time is taken. -/
def Host.stamping : Host → Nat
  | .stamp => 1
  | .begin | .consume _ | .note _ _ _ | .seq _ _ _ _ _ | .release _ _ | .count | .send _ _ | .rest
  | .returned _ => 0

/-- The message of attempt `k`, counted from 0. -/
def IsMessage (args : Args) (cap : UInt32) (k : Nat) (m : Sent) : Prop :=
  ∃ q, message args (UInt64.ofNat k) (UInt32.ofNat (k + 1)) = some q ∧ q.Carried cap m

/-- The messages in `sent` are those of the attempts in `numbers`, out of `tries`. -/
structure Numbered (args : Args) (cap : UInt32) (tries : Nat) (numbers : List Nat)
    (sent : List Sent) : Prop where
  messages : List.Forall₂ (IsMessage args cap) numbers sent
  increasing : numbers.Pairwise (· < ·)
  tried : ∀ k ∈ numbers, k < tries
  /-- Without drops no attempt is missing. -/
  complete : args.dropMode = false → numbers = List.range numbers.length

section Numbered

variable {cap : UInt32} {tries : Nat} {numbers : List Nat} {sent : List Sent} {m : Sent}

theorem Numbered.nil : Numbered args cap tries [] [] := ⟨.nil, .nil, nofun, fun _ => rfl⟩

theorem Numbered.mono {tries' : Nat} (hnumbered : Numbered args cap tries numbers sent)
    (hle : tries ≤ tries') : Numbered args cap tries' numbers sent :=
  { hnumbered with tried := fun k hk => (hnumbered.tried k hk).trans_le hle }

/-- The next attempt is published. -/
theorem Numbered.push (hnumbered : Numbered args cap tries numbers sent)
    (hm : IsMessage args cap tries m) (hall : args.dropMode = false → tries = sent.length) :
    Numbered args cap (tries + 1) (numbers ++ [tries]) (sent ++ [m]) where
  messages := List.rel_append hnumbered.messages (.cons hm .nil)
  increasing := by
    refine List.pairwise_append.mpr ⟨hnumbered.increasing, List.pairwise_singleton _ _, ?_⟩
    intro k hk k' hk'
    rw [List.mem_singleton.mp hk']
    exact hnumbered.tried k hk
  tried k hk := by
    rcases List.mem_append.mp hk with hk | hk
    · exact (hnumbered.tried k hk).trans (Nat.lt_succ_self tries)
    · rw [List.mem_singleton.mp hk]
      exact Nat.lt_succ_self tries
  complete hmode := by
    have hlength : numbers.length = tries :=
      hnumbered.messages.length_eq.trans (hall hmode).symm
    rw [List.length_append, List.length_singleton, List.range_succ, hlength]
    rw [← hlength, ← hnumbered.complete hmode]

end Numbered

/-- The numbers after `tries` attempts, of which `P` have published their message. -/
structure Tried (b : Build) (args : Args) (P tries : Nat) (t : Run) : Prop where
  attempted : t.attempted = UInt64.ofNat tries
  accounted : t.attempted = t.published + t.dropped
  seqIn : t.seqIn = UInt32.ofNat (tries + t.host.sending)
  all : args.dropMode = false → tries = P
  settled : ∃ numbers, Numbered args (payloadCap b t.w.ringA.rb.geo) tries numbers
    (t.w.ringA.p.sent.take P)

/-- Host, stub and rings fit together after `P` messages. -/
structure Ok (b : Build) (args : Args) (P : Nat) (t : Run) : Prop where
  linked : Linked b t.w
  published : t.published = UInt64.ofNat P
  tried : ∃ tries, Tried b args P tries t
  stamped : t.sentAt.length + t.host.stamping = P
  host : HostOk b args P t

/-- Without drops the host has counted its messages. -/
theorem Ok.seqIn (hok : Ok b args P t) (hmode : args.dropMode = false) :
    t.seqIn = UInt32.ofNat (P + t.host.sending) := by
  obtain ⟨tries, htried⟩ := hok.tried
  rw [htried.seqIn, htried.all hmode]

/-! ## Moves of the stub -/

theorem Between.of_stub {w' : State} (hbetween : Between t P)
    (hA : SameProducer t.w.ringA w'.ringA) (hB : SameConsumer t.w.ringB w'.ringB) :
    Between { t with w := w' } P where
  free := hbetween.free.of_frame hA
  sent := by
    dsimp only
    rw [hA.side]
    exact hbetween.sent
  consuming := hbetween.consuming.of_frame hB
  counted := by
    dsimp only
    rw [hB.side]
    exact hbetween.counted

theorem Drained.of_frame {w' : State} (hdrained : Drained w P)
    (hA : w'.ringA.rb.settings = w.ringA.rb.settings)
    (hB : w'.ringB.c.delivered = w.ringB.c.delivered) : Drained w' P := by
  simp only [Rb.settings, Prod.mk.injEq] at hA
  unfold Drained
  rw [hB, hA.2.1]
  exact hdrained

theorem HostOk.of_stub {w' : State} (hhost : HostOk b args P t) (hring : Ring b t.w.ringA)
    (hA : MovedBy b false t.w.ringA w'.ringA) (hB : MovedBy b true t.w.ringB w'.ringB) :
    HostOk b args P { t with w := w' } := by
  have hframeA := hA.sameProducer
  have hframeB := hB.sameConsumer
  have hsent : w'.ringA.p.sent = t.w.ringA.p.sent := congrArg ProducerSide.sent hframeA.side
  have hdelivered : w'.ringB.c.delivered = t.w.ringB.c.delivered :=
    congrArg ConsumerSide.delivered hframeB.side
  unfold HostOk at hhost ⊢
  dsimp only
  split at hhost
  · exact hhost.of_stub hframeA hframeB
  · exact hhost.of_stub hframeA hframeB
  · exact hhost.of_stub hframeA hframeB
  · exact hhost.of_stub hframeA hframeB
  · obtain ⟨hfree, hP, x, n, hfetched, hn⟩ := hhost
    exact ⟨hfree.of_frame hframeA, hsent ▸ hP, x, n, hfetched.of_frame hframeB, hn⟩
  · obtain ⟨hfree, hP, ⟨x, n, len, hfetched, hn, hseen⟩, htodo⟩ := hhost
    exact ⟨hfree.of_frame hframeA, hsent ▸ hP,
      ⟨x, n, len, hfetched.of_frame hframeB, hn, hseen⟩, htodo⟩
  · obtain ⟨hfree, hP, hreleasing, hn⟩ := hhost
    exact ⟨hfree.of_frame hframeA, hsent ▸ hP, hreleasing.of_frame hframeB, hdelivered ▸ hn⟩
  · exact ⟨hhost.1.of_stub hframeA hframeB, hhost.2.of_frame hframeA.settings hdelivered⟩
  · obtain ⟨⟨before, hP, hsending⟩, hq, hconsuming, hn, hdrained⟩ := hhost
    exact ⟨⟨before, hP, hsending.of_moved hring hA⟩, hq, hconsuming.of_frame hframeB,
      hdelivered ▸ hn, hdrained.of_frame hframeA.settings hdelivered⟩
  · exact ⟨hhost.1, hsent ▸ hhost.2.1, hdelivered ▸ hhost.2.2⟩

/-! ## Moves of the host -/

theorem Tried.next {tries : Nat} (htried : Tried b args P tries t)
    (hgeo : t'.w.ringA.rb.geo = t.w.ringA.rb.geo) (hsent : t'.w.ringA.p.sent = t.w.ringA.p.sent)
    (hcounters : t'.counters = t.counters) (hsending : t'.host.sending = t.host.sending) :
    Tried b args P tries t' := by
  simp only [Run.counters, Prod.mk.injEq] at hcounters
  obtain ⟨hattempted, hpublished, hdropped, hseqIn⟩ := hcounters
  refine ⟨hattempted.trans htried.attempted, ?_, ?_, htried.all, ?_⟩
  · rw [hattempted, hpublished, hdropped]
    exact htried.accounted
  · rw [hseqIn, hsending]
    exact htried.seqIn
  · rw [hgeo, hsent]
    exact htried.settled

/-- A move that leaves ring A and the numbers alone. -/
theorem Ok.next (hok : Ok b args P t) (hlinked : Linked b t'.w) (hA : t'.w.ringA = t.w.ringA)
    (hcounters : t'.counters = t.counters) (hsending : t'.host.sending = t.host.sending)
    (hstamped : t'.sentAt.length + t'.host.stamping = t.sentAt.length + t.host.stamping)
    (hhost : HostOk b args P t') : Ok b args P t' where
  linked := hlinked
  published := (congrArg (·.2.1) hcounters).trans hok.published
  tried := by
    obtain ⟨tries, htried⟩ := hok.tried
    exact ⟨tries, htried.next (by rw [hA]) (by rw [hA]) hcounters hsending⟩
  stamped := hstamped.trans hok.stamped
  host := hhost

section Host

variable {late : Bool} {now : UInt64}

theorem Ok.begin (hok : Ok b args P t) (hhost : t.host = .begin) :
    ∃ t', t.hostStep b args late now = some t' ∧ Ok b args P t' := by
  have hpos := hok.host
  simp only [HostOk, hhost] at hpos
  simp only [Run.hostStep, hhost]
  split_ifs
  · exact ⟨_, rfl, hok.next hok.linked rfl rfl (by rw [hhost]; rfl) (by rw [hhost]; rfl)
      ⟨hpos.free, hpos.sent, hpos.consuming, hpos.counted⟩⟩
  · exact ⟨_, rfl, hok.next hok.linked rfl rfl (by rw [hhost]; rfl) (by rw [hhost]; rfl)
      ⟨hpos.free, hpos.sent, hpos.consuming, hpos.counted⟩⟩

theorem Ok.rest (hok : Ok b args P t) (hhost : t.host = .rest) :
    ∃ t', t.hostStep b args late now = some t' ∧ Ok b args P t' := by
  have hpos := hok.host
  simp only [HostOk, hhost] at hpos
  simp only [Run.hostStep, hhost]
  split_ifs
  · exact ⟨_, rfl, hok.next hok.linked rfl rfl (by rw [hhost]; rfl) (by rw [hhost]; rfl)
      ⟨hpos.free, hpos.sent, hpos.consuming, hpos.counted⟩⟩
  · exact ⟨_, rfl, hok.next hok.linked rfl rfl (by rw [hhost]; rfl) (by rw [hhost]; rfl)
      ⟨rfl, hpos.sent, hpos.counted⟩⟩

theorem Ok.stamp (hok : Ok b args P t) (hhost : t.host = .stamp) :
    ∃ t', t.hostStep b args late now = some t' ∧ Ok b args P t' := by
  have hpos := hok.host
  simp only [HostOk, hhost] at hpos
  simp only [Run.hostStep, hhost]
  exact ⟨_, rfl, hok.next hok.linked rfl rfl (by rw [hhost]; rfl)
    (by simp [hhost, Host.stamping]) ⟨hpos.free, hpos.sent, hpos.consuming, hpos.counted⟩⟩

theorem Ok.count (hok : Ok b args P t) (hhost : t.host = .count) (hsize : args.Sized) :
    ∃ t', t.hostStep b args late now = some t' ∧ Ok b args P t' := by
  have hpos := hok.host
  simp only [HostOk, hhost] at hpos
  obtain ⟨hbetween, hdrained⟩ := hpos
  obtain ⟨q, hq⟩ := exists_message hsize t.attempted (t.seqIn + 1)
  simp only [Run.hostStep, hhost, hq, Option.map_some]
  have hstamped := hok.stamped
  rw [hhost] at hstamped
  obtain ⟨tries, htried⟩ := hok.tried
  refine ⟨_, rfl, hok.linked, hok.published,
    ⟨tries, htried.attempted, htried.accounted, ?_, htried.all, htried.settled⟩, hstamped,
    ⟨t.w.ringA.p.sent, hbetween.sent, hbetween.free.acquiring _, rfl⟩, hq,
    hbetween.consuming, hbetween.counted, hdrained⟩
  have hseq := htried.seqIn
  rw [hhost] at hseq
  dsimp only [Host.sending] at hseq ⊢
  rw [UInt32.ofNat_add, hseq]
  rfl

/-- Inside `publish_payload` the host sends the message of the next attempt. -/
theorem Tried.isMessage {tries : Nat} {cap : UInt32} {q : Request} {x : Sending} {m : Sent}
    (htried : Tried b args P tries t) (hhost : t.host = .send q x)
    (hq : message args t.attempted t.seqIn = some q) (hcarried : q.Carried cap m) :
    IsMessage args cap tries m := by
  have hseq : t.seqIn = UInt32.ofNat (tries + 1) := by
    have hseq := htried.seqIn
    rwa [hhost] at hseq
  refine ⟨q, ?_, hcarried⟩
  rw [← htried.attempted, ← hseq]
  exact hq

/-- What had been published before this attempt. -/
theorem settled_of_sending {q : Request} {x : Sending} {s : Sys} {before : List Sent}
    (hsending : SendingOk b q before s x) : s.p.sent.take before.length = before := by
  rcases sent_of_sending hsending with hsent | ⟨last, hsent, -⟩
  · rw [hsent, List.take_length]
  · rw [hsent, List.take_left]

/-- `publish_payload` has made a step. -/
theorem Ok.sent {q : Request} {x : Sending} {s' : Sys} {y : Sending ⊕ Int} {before : List Sent}
    (hok : Ok b args P t) (hhost : t.host = .send q x)
    (hpolicy : t.w.ringA.rb.oversizePolicy ≠ .drop) (hP : before.length = P)
    (hsending : SendingOk b q before t.w.ringA x) (hmoved : MovedBy b true t.w.ringA s')
    (hsends : Sends b q before t.w.ringA s' y) :
    ∃ P', Ok b args P' (t.sent q (s', y)) := by
  have hpos := hok.host
  simp only [HostOk, hhost] at hpos
  obtain ⟨-, hq, hconsuming, hn, hdrained⟩ := hpos
  have hgeo : s'.rb.geo = t.w.ringA.rb.geo := hmoved.moved.geo
  have hlinked' := hok.linked.send hmoved.sameConsumer
  have hstamped : t.sentAt.length = P := by
    have hstamped := hok.stamped
    rwa [hhost] at hstamped
  obtain ⟨tries, htried⟩ := hok.tried
  obtain ⟨numbers, hsettled⟩ := htried.settled
  rw [← hP, settled_of_sending hsending, ← hgeo] at hsettled
  have hseq := htried.seqIn
  rw [hhost] at hseq
  have hattempted : t.attempted + 1 = UInt64.ofNat (tries + 1) := by
    rw [UInt64.ofNat_add, htried.attempted]
    rfl
  subst hP
  cases hsends with
  | going x' hgoing =>
      refine ⟨before.length, hlinked', hok.published, ⟨tries, htried.attempted, htried.accounted,
        hseq, htried.all, numbers, ?_⟩, hstamped, ⟨before, rfl, hgoing⟩, hq, hconsuming, hn,
        hdrained.of_frame hmoved.moved.settings rfl⟩
      rw [← settled_of_sending hgoing] at hsettled
      exact hsettled
  | sent m hfree hsent hcarried =>
      have hm := htried.isMessage hhost hq hcarried
      have hlength : s'.p.sent.length = before.length + 1 := by
        rw [hsent, List.length_append, List.length_singleton]
      refine ⟨before.length + 1, hlinked', ?_, ⟨tries + 1, hattempted, ?_, hseq, ?_,
        numbers ++ [tries], ?_⟩, congrArg (· + 1) hstamped, hfree, hlength, hconsuming, hn⟩
      · rw [UInt64.ofNat_add]
        exact congrArg (· + 1) hok.published
      · change t.attempted + 1 = t.published + 1 + t.dropped
        rw [htried.accounted, UInt64.add_assoc, UInt64.add_comm t.dropped, UInt64.add_assoc]
      · exact fun hmode => congrArg (· + 1) (htried.all hmode)
      · change Numbered _ _ _ _ (s'.p.sent.take _)
        rw [← hlength, List.take_length, hsent]
        exact hsettled.push hm htried.all
  | dropped hdrop hfree hsent =>
      refine ⟨before.length, hlinked', hok.published, ⟨tries + 1, hattempted, ?_, hseq, ?_,
        numbers, ?_⟩, hstamped, hfree, congrArg List.length hsent, hconsuming, hn⟩
      · change t.attempted + 1 = t.published + (t.dropped + 1)
        rw [htried.accounted, UInt64.add_assoc]
      · intro hmode
        rw [message_dropMode hq, hmode] at hdrop
        cases hdrop
      · change Numbered _ _ _ _ (s'.p.sent.take _)
        rw [hsent, List.take_length]
        exact hsettled.mono (Nat.le_succ tries)
  | refused hover hrefuse => exact absurd hrefuse hpolicy

/-- The last look of the drain: what was sent since is at most a ring full. -/
theorem Between.drained (hbetween : Between t P) (hlinked : Linked b t.w)
    (hA : Counted t.w.ringA) (hB : Counted t.w.ringB)
    (hempty : t.w.ringB.p.published = t.w.ringB.c.released) : Drained t.w P := by
  have hsent := published_of_idle hA hbetween.free.pc
  have hroom := hA.published_le
  have hback := released_le_published hlinked hA hB
  have hreleased := released_of_consuming hB hbetween.consuming
  have hP := hbetween.sent
  unfold Drained
  omega

theorem Ok.consume {final : Bool} (hok : Ok b args P t) (hhost : t.host = .consume final)
    (hmode : b.mode ≠ .pointer) (hA : Ring b t.w.ringA) (hB : Ring b t.w.ringB)
    (hroom : ZoResult.size.toNat ≤ (payloadCap b t.w.ringB.rb.geo).toNat) :
    ∃ t', t.hostStep b args late now = some t' ∧ Ok b args P t' := by
  have hpos := hok.host
  simp only [HostOk, hhost] at hpos
  obtain ⟨s', hstep, hcase⟩ := receive_step hB hmode hpos.consuming
  have hlinked' := hok.linked.receive hB hroom (Sys.callC_byProducer rfl) hstep
  simp only [Run.hostStep, hhost, Run.onB, hstep, Option.bind_some]
  generalize reply t.w.ringB (t.w.ringB.callC .consume) s' = r at hcase
  cases hcase with
  | going hconsuming' hdelivered =>
      exact ⟨_, rfl, hok.next hlinked' rfl rfl (by rw [hhost]) (by rw [hhost])
        ⟨hpos.free, hpos.sent, hconsuming', hdelivered ▸ hpos.counted⟩⟩
  | nothing err hconsuming' hdelivered hempty =>
      have hbetween : ∀ t' : Run, t'.w = { t.w with ringB := s' } → t'.gotLive = t.gotLive →
          t'.got = t.got → Between t' P := by
        intro t' hw hlive hgot
        refine ⟨?_, ?_, ?_, ?_⟩ <;> simp only [hw, hlive, hgot, hdelivered]
        exacts [hpos.free, hpos.sent, hconsuming', hpos.counted]
      cases final with
      | true =>
          simp only [Run.resume]
          exact ⟨_, rfl, hok.next hlinked' rfl rfl (by rw [hhost]; rfl) (by rw [hhost]; rfl)
            (hbetween _ rfl rfl rfl)⟩
      | false =>
          simp only [Run.resume]
          -- the drain of this round ends with ring B empty
          refine ⟨_, rfl, hok.next hlinked' rfl rfl (by rw [hhost]; rfl) (by rw [hhost]; rfl)
            ⟨hbetween _ rfl rfl rfl, ?_⟩⟩
          exact (hpos.drained hok.linked hA.counted hB.counted hempty).of_frame rfl hdelivered
  | message job truncated x hfetched =>
      have hcounted : t.gotLive + t.got = t.w.ringB.c.delivered.length := hpos.counted
      cases final with
      | true =>
          simp only [Run.resume]
          exact ⟨_, rfl, hok.next hlinked' rfl rfl (by rw [hhost]; rfl) (by rw [hhost]; rfl)
            ⟨hpos.free, hpos.sent, x, _, hfetched, hcounted⟩⟩
      | false =>
          simp only [Run.resume]
          exact ⟨_, rfl, hok.next hlinked' rfl rfl (by rw [hhost]; rfl) (by rw [hhost]; rfl)
            ⟨hpos.free, hpos.sent, x, _, hfetched, hcounted⟩⟩

theorem Ok.note {final : Bool} {idx len : UInt32} (hok : Ok b args P t)
    (hhost : t.host = .note final idx len)
    (hroom : ZoResult.size.toNat ≤ (payloadCap b t.w.ringB.rb.geo).toNat) :
    ∃ t', t.hostStep b args late now = some t' ∧ Ok b args P t' := by
  have hpos := hok.host
  simp only [HostOk, hhost] at hpos
  obtain ⟨hfree, hP, x, n, hfetched, hn⟩ := hpos
  have hlong : ¬ len < ZoResult.size := by
    rw [show len = ZoResult.size from len_of_fetched hok.linked hroom hfetched]
    exact UInt32.lt_irrefl _
  have hcounted : (t.counted final).gotLive + (t.counted final).got = n + 1 := by
    rw [counted_got, hn]
  have hw := counted_w t final
  have hcounters := counted_counters t final
  have hsentAt := counted_sentAt t final
  simp only [Run.hostStep, hhost, if_neg hlong]
  split_ifs
  · refine ⟨_, rfl, hok.next (by rw [hw]; exact hok.linked) (by rw [hw]) hcounters
      (by rw [hhost]; rfl) (by rw [hhost, hsentAt]; rfl) ?_⟩
    simp only [HostOk, hw]
    exact ⟨hfree, hP, ⟨x, n, len, hfetched, hcounted, Seen.start⟩, by decide⟩
  · refine ⟨_, rfl, hok.next (by rw [hw]; exact hok.linked) (by rw [hw]) hcounters
      (by rw [hhost]; rfl) (by rw [hhost, hsentAt]; rfl) ?_⟩
    simp only [HostOk, hw]
    refine ⟨hfree, hP, hfetched.held.releasing, hcounted.trans ?_⟩
    rw [hfetched.count]
    rfl

theorem Ok.seq {final : Bool} {idx : UInt32} {ts : UInt64} {seen : Memory} {todo : List Nat}
    (hok : Ok b args P t) (hhost : t.host = .seq final idx ts seen todo)
    (hB : Ring b t.w.ringB)
    (hroom : ZoResult.size.toNat ≤ (payloadCap b t.w.ringB.rb.geo).toNat) :
    ∃ t', t.hostStep b args late now = some t' ∧ Ok b args P t' := by
  have hpos := hok.host
  simp only [HostOk, hhost] at hpos
  obtain ⟨hfree, hP, ⟨x, n, len, hfetched, hn, hseen⟩, htodo⟩ := hpos
  cases todo with
  | nil =>
      simp only [Run.hostStep, hhost]
      refine ⟨_, rfl, hok.next hok.linked rfl rfl (by rw [hhost]; rfl) (by rw [hhost]; rfl)
        ⟨hfree, hP, hfetched.held.releasing, hn.trans ?_⟩⟩
      rw [hfetched.count]
      rfl
  | cons off todo =>
      obtain ⟨hstep, hreply, hfetched'⟩ :=
        hfetched.read hB ((htodo off List.mem_cons_self).trans_le hroom)
      simp only [Run.hostStep, hhost, Run.onB, hstep, Option.bind_some, hreply, Run.resume]
      exact ⟨_, rfl, hok.next (hok.linked.receive hB hroom rfl hstep) rfl rfl
        (by rw [hhost]; rfl) (by rw [hhost]; rfl)
        ⟨hfree, hP, ⟨x, n, len, hfetched', hn, hseen.store8⟩,
          fun off' hmem => htodo off' (List.mem_cons_of_mem _ hmem)⟩⟩

theorem Ok.release {final : Bool} {idx : UInt32} (hok : Ok b args P t)
    (hhost : t.host = .release final idx) (hmode : b.mode ≠ .pointer) (hB : Ring b t.w.ringB)
    (hroom : ZoResult.size.toNat ≤ (payloadCap b t.w.ringB.rb.geo).toNat) :
    ∃ t', t.hostStep b args late now = some t' ∧ Ok b args P t' := by
  have hpos := hok.host
  simp only [HostOk, hhost] at hpos
  obtain ⟨hfree, hP, hreleasing, hn⟩ := hpos
  obtain ⟨s', hstep⟩ := release_enabled (fun h => absurd h hmode) hreleasing
  have hlinked' := hok.linked.receive hB hroom (Sys.callC_byProducer rfl) hstep
  have hcase := release_step hB.live hreleasing hstep
  simp only [Run.hostStep, hhost, Run.onB, hstep, Option.bind_some]
  generalize reply t.w.ringB (t.w.ringB.callC (.release idx)) s' = r at hcase
  cases hcase with
  | going hreleasing' hdelivered =>
      exact ⟨_, rfl, hok.next hlinked' rfl rfl (by rw [hhost]) (by rw [hhost])
        ⟨hfree, hP, hreleasing', hdelivered ▸ hn⟩⟩
  | done hpc hactive hdelivered =>
      cases final with
      | true =>
          simp only [Run.resume]
          exact ⟨_, rfl, hok.next hlinked' rfl rfl (by rw [hhost]; rfl) (by rw [hhost]; rfl)
            ⟨hfree, hP, ⟨Or.inl hpc, hactive⟩, hdelivered ▸ hn⟩⟩
      | false =>
          simp only [Run.resume]
          exact ⟨_, rfl, hok.next hlinked' rfl rfl (by rw [hhost]; rfl) (by rw [hhost]; rfl)
            ⟨hfree, hP, ⟨Or.inl hpc, hactive⟩, hdelivered ▸ hn⟩⟩

end Host

/-! ## Runs -/

section Runs

variable (hmode : b.mode ≠ .pointer) (hA : Ring b t.w.ringA) (hB : Ring b t.w.ringB)
  (hroom : ZoResult.size.toNat ≤ (payloadCap b t.w.ringB.rb.geo).toNat)
  (hpolicy : t.w.ringA.rb.oversizePolicy ≠ .drop) (hsize : args.Sized)

include hmode hA hB hroom hpolicy hsize

/-- The host can go on until `main` returns. -/
theorem Ok.hostStep (hok : Ok b args P t) (hreturned : ∀ code, t.host ≠ .returned code)
    (late : Bool) (now : UInt64) :
    ∃ t', t.hostStep b args late now = some t' ∧ ∃ P', Ok b args P' t' := by
  have hkeep : (∃ t', t.hostStep b args late now = some t' ∧ Ok b args P t') →
      ∃ t', t.hostStep b args late now = some t' ∧ ∃ P', Ok b args P' t' :=
    fun ⟨t', hstep, hok'⟩ => ⟨t', hstep, P, hok'⟩
  cases hhost : t.host with
  | begin => exact hkeep (hok.begin hhost)
  | consume final => exact hkeep (hok.consume hhost hmode hA hB hroom)
  | note final idx len => exact hkeep (hok.note hhost hroom)
  | seq final idx ts seen todo => exact hkeep (hok.seq hhost hB hroom)
  | release final idx => exact hkeep (hok.release hhost hmode hB hroom)
  | count => exact hkeep (hok.count hhost hsize)
  | send q x =>
      have hpos := hok.host
      simp only [HostOk, hhost] at hpos
      obtain ⟨⟨before, hP, hsending⟩, -⟩ := hpos
      obtain ⟨s', y, hstep, hsends⟩ := sending_step hA hsending
      refine ⟨t.sent q (s', y), ?_, ?_⟩
      · simp only [Run.hostStep, hhost, hstep, Option.map_some]
      · exact hok.sent hhost hpolicy hP hsending (sending_moved (Or.inl hstep)) hsends
  | stamp => exact hkeep (hok.stamp hhost)
  | rest => exact hkeep (hok.rest hhost)
  | returned code => exact absurd hhost (hreturned code)

/-- Every move keeps host, stub and rings together. -/
theorem ok_step {m : Turn} (hok : Ok b args P t) (hstep : t.step b args m = some t') :
    ∃ P', Ok b args P' t' := by
  have hstub : ∀ {w' : State}, Linked b w' → MovedBy b false t.w.ringA w'.ringA →
      MovedBy b true t.w.ringB w'.ringB → Ok b args P { t with w := w' } := by
    intro w' hlinked hmovedA hmovedB
    obtain ⟨tries, htried⟩ := hok.tried
    have hsent := congrArg ProducerSide.sent hmovedA.sameProducer.side
    exact ⟨hlinked, hok.published, ⟨tries, htried.next hmovedA.moved.geo hsent rfl rfl⟩,
      hok.stamped, hok.host.of_stub hA hmovedA hmovedB⟩
  cases m with
  | host late now =>
      by_cases hreturned : ∃ code, t.host = .returned code
      · obtain ⟨code, hcode⟩ := hreturned
        simp [Run.step, Run.hostStep, hcode] at hstep
      · obtain ⟨next, hnext, hok'⟩ := hok.hostStep hmode hA hB hroom hpolicy hsize
          (fun code hcode => hreturned ⟨code, hcode⟩) late now
        obtain rfl := Option.some.inj (hstep.symm.trans hnext)
        exact hok'
  | hostEventfdFails =>
      simp only [Run.step] at hstep
      split at hstep
      next q x hhost =>
        obtain ⟨⟨s', y⟩, hsend, rfl⟩ := Option.map_eq_some_iff.mp hstep
        have hpos := hok.host
        simp only [HostOk, hhost] at hpos
        obtain ⟨⟨before, hP, hsending⟩, -⟩ := hpos
        exact hok.sent hhost hpolicy hP hsending (sending_moved (Or.inr hsend))
          (sending_eventfdFails hsending hsend)
      next => cases hstep
  | stub ns =>
      obtain ⟨w', hmove, rfl⟩ := Option.map_eq_some_iff.mp hstep
      obtain ⟨hmovedA, hmovedB⟩ := stubStep_moved hmove
      exact ⟨P, hstub (linked_step hok.linked hmode hA hB hroom hmove) hmovedA hmovedB⟩
  | stubEventfdFails =>
      obtain ⟨w', hmove, rfl⟩ := Option.map_eq_some_iff.mp hstep
      obtain ⟨hmovedA, hmovedB⟩ := stubEventfdFails_moved hmove
      exact ⟨P, hstub (linked_step hok.linked hmode hA hB hroom hmove) hmovedA hmovedB⟩

end Runs

theorem resume_w {r : Reply} (hresume : t.resume r = some t') : t'.w = t.w := by
  unfold Run.resume at hresume
  split at hresume <;> cases hresume <;> rfl

theorem host_onB_moved {a : Act} (hstep : t.onB b a = some t') :
    Moved b t.w.ringA t'.w.ringA ∧ Moved b t.w.ringB t'.w.ringB := by
  refine moved_of_onB Run.w hstep fun ringB hnext => ?_
  split at hnext
  · exact (congrArg Run.w (Option.some.inj hnext)).symm
  · exact resume_w hnext

theorem sent_w {q : Request} (ringA : Sys) (y : Sending ⊕ Int) :
    (t.sent q (ringA, y)).w = { t.w with ringA } := by
  unfold Run.sent
  split
  · rfl
  · dsimp only
    split_ifs <;> rfl

theorem hostStep_moved {late : Bool} {now : UInt64}
    (hstep : t.hostStep b args late now = some t') :
    Moved b t.w.ringA t'.w.ringA ∧ Moved b t.w.ringB t'.w.ringB := by
  unfold Run.hostStep at hstep
  split at hstep
  · split at hstep
    · exact moved_of_stay Run.w hstep rfl
    · exact moved_of_stay Run.w hstep rfl
  · exact host_onB_moved hstep
  next final idx len _ =>
    split at hstep
    · exact moved_of_stay Run.w hstep rfl
    · split at hstep
      · exact moved_of_stay Run.w hstep (counted_w t final)
      · exact moved_of_stay Run.w hstep (counted_w t final)
  · split at hstep
    · exact moved_of_stay Run.w hstep rfl
    · exact host_onB_moved hstep
  · exact host_onB_moved hstep
  · obtain ⟨q, -, hnext⟩ := Option.map_eq_some_iff.mp hstep
    exact moved_of_stay Run.w (congrArg some hnext) rfl
  · exact moved_of_sending Run.w (Or.inl hstep) sent_w
  · exact moved_of_stay Run.w hstep rfl
  · split at hstep
    · exact moved_of_stay Run.w hstep rfl
    · exact moved_of_stay Run.w hstep rfl
  · cases hstep

theorem turn_moved {m : Turn} (hstep : t.step b args m = some t') :
    Moved b t.w.ringA t'.w.ringA ∧ Moved b t.w.ringB t'.w.ringB := by
  cases m with
  | host late now => exact hostStep_moved hstep
  | hostEventfdFails =>
      simp only [Run.step] at hstep
      split at hstep
      · exact moved_of_sending Run.w (Or.inr hstep) sent_w
      · cases hstep
  | stub ns => exact moved_of_stub Run.w hstep fun _ => rfl
  | stubEventfdFails => exact moved_of_stub Run.w hstep fun _ => rfl

/-! ## What the streaming mode can rely on -/

theorem toInt_of_lt {n : UInt64} (hlt : n.toNat < 2 ^ 31) : toInt n = n.toNat := by
  unfold toInt
  rw [Int.bmod_def]
  generalize n.toNat = k at *
  norm_num at *
  split_ifs <;> omega

/-- Outside `publish_payload` all messages are settled. -/
theorem Ok.sent_length (hok : Ok b args P t) (hnot : t.host.sending = 0) :
    t.w.ringA.p.sent.length = P := by
  have hpos := hok.host
  unfold HostOk at hpos
  split at hpos
  · exact hpos.sent
  · exact hpos.sent
  · exact hpos.sent
  · exact hpos.sent
  · exact hpos.2.1
  · exact hpos.2.1
  · exact hpos.2.1
  · exact hpos.1.sent
  next q x hhost =>
    rw [hhost] at hnot
    cases hnot
  · exact hpos.2.1

theorem Ok.messages (hok : Ok b args P t) :
    ∃ tries numbers, t.attempted = UInt64.ofNat tries ∧
      t.seqIn = UInt32.ofNat (tries + t.host.sending) ∧
      Numbered args (payloadCap b t.w.ringA.rb.geo) (tries + t.host.sending) numbers
        t.w.ringA.p.sent := by
  obtain ⟨tries, htried⟩ := hok.tried
  obtain ⟨numbers, hsettled⟩ := htried.settled
  suffices hnumbered : ∃ numbers, Numbered args (payloadCap b t.w.ringA.rb.geo)
      (tries + t.host.sending) numbers t.w.ringA.p.sent by
    obtain ⟨numbers, hnumbered⟩ := hnumbered
    exact ⟨tries, numbers, htried.attempted, htried.seqIn, hnumbered⟩
  by_cases hsending : ∃ q x, t.host = .send q x
  · obtain ⟨q, x, hhost⟩ := hsending
    have hpos := hok.host
    simp only [HostOk, hhost] at hpos
    obtain ⟨⟨before, rfl, hsending⟩, hq, -⟩ := hpos
    rw [settled_of_sending hsending] at hsettled
    rw [hhost]
    -- the message of this attempt may already be published
    rcases sent_of_sending hsending with hsent | ⟨m, hsent, hcarried⟩
    · exact ⟨numbers, hsent ▸ hsettled.mono (Nat.le_succ tries)⟩
    · have hm := htried.isMessage hhost hq hcarried
      exact ⟨numbers ++ [tries], hsent ▸ hsettled.push hm htried.all⟩
  · have hnot : t.host.sending = 0 := by
      cases hhost : t.host
      case send q x => exact absurd ⟨q, x, hhost⟩ hsending
      all_goals rfl
    rw [← hok.sent_length hnot, List.take_length] at hsettled
    rw [hnot]
    exact ⟨numbers, hsettled⟩

theorem Ok.counted (hok : Ok b args P t) :
    t.gotLive + t.got ≤ t.w.ringB.c.delivered.length := by
  have hpos := hok.host
  unfold HostOk at hpos
  split at hpos
  · exact hpos.counted.le
  · exact hpos.counted.le
  · exact hpos.counted.le
  · exact hpos.counted.le
  · obtain ⟨-, -, x, n, hfetched, hn⟩ := hpos
    have hcount := hfetched.count
    omega
  · obtain ⟨-, -, ⟨x, n, len, hfetched, hn, -⟩, -⟩ := hpos
    have hcount := hfetched.count
    omega
  · exact hpos.2.2.2.le
  · exact hpos.1.counted.le
  · exact hpos.2.2.2.1.le
  · exact hpos.2.2.le

theorem Ok.returned (hok : Ok b args P t) {code : Int} (hcode : t.host = .returned code)
    (hlt : t.w.ringA.p.sent.length < 2 ^ 31) :
    code = if t.w.ringB.c.delivered.length = t.w.ringA.p.sent.length then 0 else 2 := by
  have hpos := hok.host
  simp only [HostOk, hcode] at hpos
  obtain ⟨hexit, hP, hn⟩ := hpos
  rw [hP] at hlt
  have hpublished : t.published.toNat = P := by
    rw [hok.published, UInt64.toNat_ofNat']
    omega
  have hvalue : toInt t.published = P := by
    rw [toInt_of_lt (by rwa [hpublished]), hpublished]
  rw [hexit, Run.exitCode, hn, hvalue, hP]
  simp only [Nat.cast_inj]

/-- Host and stub when the rounds begin. -/
def start (rbA rbB : Rb) : Run := { w := Offload.start rbA rbB }

section Init

variable {base : BitVec b.sizeBits} {h : HostArgs} {beforeA beforeB : Store} {rbA rbB : Rb}

theorem start_ok (hprepared : Prepared b rbA rbB) : Ok b args 0 (start rbA rbB) :=
  ⟨hprepared.linked, rfl, ⟨0, rfl, rfl, rfl, fun _ => rfl, [], .nil⟩, rfl, hprepared.freeA, rfl,
    hprepared.consumingB, rfl⟩

end Init

/-- What `main` has returned. -/
def Host.code : Host → Option Int
  | .returned code => some code
  | .begin | .consume _ | .note _ _ _ | .seq _ _ _ _ _ | .release _ _ | .count | .send _ _ | .stamp
  | .rest => none

/-- Two slots with just enough room for a result, and messages that are only their
header and number. -/
def oneMessageArgs : HostArgs where
  capacity := 2
  slots := 2
  slotSize := 28
  msgSize := 8

/-- The host sends one message, the stub answers it, and `drain_results` finds the
result when the time is over. -/
def oneMessage : List Turn :=
  List.replicate 24 (Turn.host false 5) ++ List.replicate 55 (Turn.stub 7) ++
    List.replicate 16 (Turn.host true 9)

end RingBuff.Offload.Stream
