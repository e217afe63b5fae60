import Mathlib.Data.UInt
import RingBuff.Offload.Host
import RingBuff.Offload.HostCalls

/-! # Round trips

`run_roundtrip` of `cpu_host`: the host publishes its payload on ring A, waits for
the result on ring B, checks its sequence number, takes the time the stub measured
into its statistics and begins again. A result that is too short or carries another
number than the one just counted is a bad response and ends the run.

The host steps through its calls while the stub steps through its own. The clock of
the host only decides when a run without a limit ends; the times it takes for
itself and what it prints are left out.
-/

namespace RingBuff.Offload

open Threads

/-- `g_rt_compute_sum_ns`, `_min_ns`, `_max_ns` and `_samples`. -/
structure Times where
  sum : UInt64 := 0
  min : UInt64 := 0xFFFFFFFFFFFFFFFF
  max : UInt64 := 0
  samples : UInt64 := 0
  deriving DecidableEq, Repr

namespace Times

/-- One more result. -/
def note (t : Times) (ns : UInt64) : Times where
  sum := t.sum + ns
  min := if ns < t.min then ns else t.min
  max := if t.max < ns then ns else t.max
  samples := t.samples + 1

/-- Sum, minimum, maximum and number of a list of times. Sum and number are counted in
a `uint64_t`. -/
def of (times : List UInt64) : Times where
  sum := times.sum
  min := times.min?.getD 0xFFFFFFFFFFFFFFFF
  max := times.max?.getD 0
  samples := UInt64.ofNat times.length

variable (times : List UInt64) (ns : UInt64)

theorem min_concat :
    (times ++ [ns]).min?.getD 0xFFFFFFFFFFFFFFFF =
      if ns < times.min?.getD 0xFFFFFFFFFFFFFFFF then ns
      else times.min?.getD 0xFFFFFFFFFFFFFFFF := by
  cases times with
  | nil =>
      change ns = if ns < 0xFFFFFFFFFFFFFFFF then ns else 0xFFFFFFFFFFFFFFFF
      grind
  | cons first times =>
      rw [List.cons_append, List.min?_cons', List.min?_cons', List.foldl_concat]
      simp only [Option.getD_some]
      change (if _ ≤ ns then _ else ns) = _
      grind

theorem max_concat :
    (times ++ [ns]).max?.getD 0 =
      if times.max?.getD 0 < ns then ns else times.max?.getD 0 := by
  cases times with
  | nil =>
      change ns = if 0 < ns then ns else 0
      grind
  | cons first times =>
      rw [List.cons_append, List.max?_cons', List.max?_cons', List.foldl_concat]
      simp only [Option.getD_some]
      change (if _ ≤ ns then ns else _) = _
      grind

/-- What the code keeps is what there is to say about the list. -/
theorem of_concat : of (times ++ [ns]) = (of times).note ns := by
  unfold of note
  rw [min_concat, max_concat, List.sum_append, List.sum_singleton, List.length_append,
    UInt64.ofNat_add]
  rfl

end Times

/-- The times the stub has measured for these results. -/
def computeTimes (served : List Sent) : List UInt64 := served.map fun x => (result x).computeNs

namespace Roundtrip

/-- The host, before the named step of `run_roundtrip`. What it has loaded through
`r` is in `seen`. -/
inductive Host where
  | begin
  | send (x : Sending)
  | consume
  | seq (idx len : UInt32) (seen : Memory) (todo : List Nat)
  | time (idx : UInt32) (seen : Memory) (todo : List Nat)
  /-- `good` tells the two `rb_release(zo_ring_b(g_zo), idx)` apart. -/
  | release (idx : UInt32) (good : Bool)
  | returned (code : Int)

/-- The arguments of `run_roundtrip`: a limit, or the time decides. -/
structure Args where
  request : Request
  limit : Option UInt64

structure Trip where
  w : State
  host : Host := .begin
  /-- `bell.seq_in`, which only the host stores. -/
  seqIn : UInt32 := 0
  completed : UInt64 := 0
  times : Times := {}

/-- `completed == (uint64_t)(int)completed ? (int)completed : -1`. -/
def returnValue (completed : UInt64) : Int :=
  let value := Int.bmod completed.toNat (2 ^ 32)
  if value % 2 ^ 64 = completed.toNat then value else -1

/-- One move. `late` is what the comparison with `t_end` says. -/
inductive Turn where
  | host (late : Bool)
  | hostEventfdFails
  | stub (ns : UInt64)
  | stubEventfdFails
  deriving DecidableEq, Repr

namespace Trip

variable (b : Build) (args : Args) (t : Trip)

/-- A call on ring B returns. The host only looks at what `rb_consume` and its own
loads return. -/
def resume (r : Reply) : Option Trip :=
  match t.host, r with
  | .consume, .message idx len _ =>
      some { t with host := .seq idx len (fun _ => 0) seqOffsets }
  | .consume, _ => some t
  | .seq idx len seen (off :: todo), .byte value =>
      some { t with host := .seq idx len (seen.store8 off value) todo }
  | .time idx seen (off :: todo), .byte value =>
      some { t with host := .time idx (seen.store8 off value) todo }
  | .release _ true, _ => some { t with completed := t.completed + 1, host := .begin }
  | .release _ false, _ => some { t with host := .returned (-1) }
  | _, _ => none

/-- The host moves on ring B. -/
def onB (a : Act) : Option Trip :=
  (Threads.step b t.w.ringB a).bind fun ringB =>
    match reply t.w.ringB a ringB with
    | none => some { t with w.ringB := ringB }
    | some r => resume { t with w.ringB := ringB } r

/-- `publish_payload` has made a step on ring A. -/
def sent (next : Sys × (Sending ⊕ Int)) : Trip :=
  { t with
    w.ringA := next.1
    host := match next.2 with
      | .inl x => .send x
      | .inr code => if code = 0 then .consume else .returned (-1) }

/-- Whether the loop ends. -/
def ended (late : Bool) : Bool :=
  match args.limit with
  | some limit => limit ≤ t.completed
  | none => late

/-- The next step of the host. -/
def hostStep (late : Bool) : Option Trip :=
  match t.host with
  | .begin =>
      if t.ended args late then some { t with host := .returned (returnValue t.completed) }
      else some { t with seqIn := t.seqIn + 1, host := .send .acquire }
  | .send x => (x.step b args.request t.w.ringA).map t.sent
  | .consume => t.onB b (t.w.ringB.callC .consume)
  | .seq idx len seen todo =>
      if len < ZoResult.size then some { t with host := .release idx false }
      else
        match todo with
        | [] =>
            if (ZoResult.load seen).seq = t.seqIn then
              some { t with host := .time idx seen timeOffsets }
            else some { t with host := .release idx false }
        | off :: _ => t.onB b (.read off)
  | .time idx seen todo =>
      match todo with
      | [] => some { t with times := t.times.note (ZoResult.load seen).computeNs,
                            host := .release idx true }
      | off :: _ => t.onB b (.read off)
  | .release idx _ => t.onB b (t.w.ringB.callC (.release idx))
  | .returned _ => none

def step : Turn → Option Trip
  | .host late => t.hostStep b args late
  | .hostEventfdFails =>
      match t.host with
      | .send x => (x.stepEventfdFails b args.request t.w.ringA).map t.sent
      | _ => none
  | .stub ns => (Offload.step b t.w (.stub ns)).map fun w => { t with w }
  | .stubEventfdFails => (Offload.step b t.w .stubEventfdFails).map fun w => { t with w }

end Trip

/-- `run_roundtrip` and the stub. -/
def system (b : Build) (args : Args) : Automaton Trip Turn Unit where
  step t m := (t.step b args m).map fun t' => ((), t')

variable {b : Build} {args : Args} {t t' : Trip} {N : Nat}

/-! ## The value returned -/

/-- The statistics are those of the first `n` results. -/
def Served (t : Trip) (n : Nat) : Prop :=
  ∃ served, served <+: t.w.ringB.p.sent ∧ served.length = n ∧
    t.times = Times.of (computeTimes served)

/-- What the position of the host says after `N` round trips. -/
def HostOk (b : Build) (q : Request) (N : Nat) (t : Trip) : Prop :=
  match t.host with
  | .begin =>
      Free t.w.ringA ∧ t.w.ringA.p.sent.length = N ∧ Consuming t.w.ringB ∧
        t.w.ringB.c.delivered.length = N ∧ t.seqIn = UInt32.ofNat N ∧ Served t N
  | .send x =>
      (∃ before, before.length = N ∧ SendingOk b q before t.w.ringA x) ∧ Consuming t.w.ringB ∧
        t.w.ringB.c.delivered.length = N ∧ t.seqIn = UInt32.ofNat (N + 1) ∧ Served t N
  | .consume =>
      Free t.w.ringA ∧ t.w.ringA.p.sent.length = N + 1 ∧ Consuming t.w.ringB ∧
        t.w.ringB.c.delivered.length = N ∧ t.seqIn = UInt32.ofNat (N + 1) ∧ Served t N
  | .seq idx len seen todo =>
      Free t.w.ringA ∧ t.w.ringA.p.sent.length = N + 1 ∧
        (∃ x, Fetched b t.w.ringB ⟨idx, len⟩ x N ∧ Seen x seqOffsets seen todo) ∧
        (∀ off ∈ todo, off < ZoResult.size.toNat) ∧ t.seqIn = UInt32.ofNat (N + 1) ∧ Served t N
  | .time idx seen todo =>
      Free t.w.ringA ∧ t.w.ringA.p.sent.length = N + 1 ∧
        (∃ x len, Fetched b t.w.ringB ⟨idx, len⟩ x N ∧ Seen x timeOffsets seen todo) ∧
        (∀ off ∈ todo, off < ZoResult.size.toNat) ∧ t.seqIn = UInt32.ofNat (N + 1) ∧ Served t N
  | .release idx true =>
      Free t.w.ringA ∧ t.w.ringA.p.sent.length = N + 1 ∧ Releasing t.w.ringB idx ∧
        t.w.ringB.c.delivered.length = N + 1 ∧ t.seqIn = UInt32.ofNat (N + 1) ∧ Served t (N + 1)
  | .release _ false => False
  | .returned code =>
      code = returnValue t.completed ∧ t.w.ringA.p.sent.length = N ∧
        t.w.ringB.c.delivered.length = N ∧ Served t N

/-- Host, stub and rings fit together after `N` round trips. -/
structure Ok (b : Build) (q : Request) (N : Nat) (t : Trip) : Prop where
  linked : Linked b t.w
  requests : ∀ m ∈ t.w.ringA.p.sent, q.Carried (payloadCap b t.w.ringA.rb.geo) m
  completed : t.completed = UInt64.ofNat N
  host : HostOk b q N t

/-! ## Moves of the stub -/

theorem Served.of_extends {n : Nat} (hserved : Served t n)
    (hextends : t.w.ringB.p.sent <+: t'.w.ringB.p.sent) (htimes : t'.times = t.times) :
    Served t' n := by
  obtain ⟨served, hsent, hlength, heq⟩ := hserved
  exact ⟨served, hsent.trans hextends, hlength, htimes.trans heq⟩

theorem HostOk.of_stub {q : Request} {w' : State} (hhost : HostOk b q N t)
    (hring : Ring b t.w.ringA) (hA : MovedBy b false t.w.ringA w'.ringA)
    (hB : MovedBy b true t.w.ringB w'.ringB) : HostOk b q N { t with w := w' } := by
  have hframeA := hA.sameProducer
  have hframeB := hB.sameConsumer
  have hsent : w'.ringA.p.sent = t.w.ringA.p.sent := congrArg ProducerSide.sent hframeA.side
  have hdelivered : w'.ringB.c.delivered = t.w.ringB.c.delivered :=
    congrArg ConsumerSide.delivered hframeB.side
  have hserved : ∀ {n : Nat}, Served t n → Served { t with w := w' } n :=
    fun h => h.of_extends hframeB.sent rfl
  unfold HostOk at hhost ⊢
  dsimp only
  rw [hsent, hdelivered]
  split at hhost
  · obtain ⟨hfree, hN, hconsuming, hd, hseq, hs⟩ := hhost
    exact ⟨hfree.of_frame hframeA, hN, hconsuming.of_frame hframeB, hd, hseq, hserved hs⟩
  · obtain ⟨⟨before, hN, hsending⟩, hconsuming, hd, hseq, hs⟩ := hhost
    exact ⟨⟨before, hN, hsending.of_moved hring hA⟩, hconsuming.of_frame hframeB, hd, hseq,
      hserved hs⟩
  · obtain ⟨hfree, hN, hconsuming, hd, hseq, hs⟩ := hhost
    exact ⟨hfree.of_frame hframeA, hN, hconsuming.of_frame hframeB, hd, hseq, hserved hs⟩
  · obtain ⟨hfree, hN, ⟨x, hfetched, hseen⟩, htodo, hseq, hs⟩ := hhost
    exact ⟨hfree.of_frame hframeA, hN, ⟨x, hfetched.of_frame hframeB, hseen⟩, htodo, hseq,
      hserved hs⟩
  · obtain ⟨hfree, hN, ⟨x, len, hfetched, hseen⟩, htodo, hseq, hs⟩ := hhost
    exact ⟨hfree.of_frame hframeA, hN, ⟨x, len, hfetched.of_frame hframeB, hseen⟩, htodo, hseq,
      hserved hs⟩
  · obtain ⟨hfree, hN, hreleasing, hd, hseq, hs⟩ := hhost
    exact ⟨hfree.of_frame hframeA, hN, hreleasing.of_frame hframeB, hd, hseq, hserved hs⟩
  · exact hhost.elim
  · exact ⟨hhost.1, hhost.2.1, hhost.2.2.1, hserved hhost.2.2.2⟩

/-! ## Moves of the host -/

/-- A load of the host from the result in hand. -/
theorem onB_read {job : Job} {x : Sent} {off : Nat} (hring : Ring b t.w.ringB)
    (hroom : ZoResult.size.toNat ≤ (payloadCap b t.w.ringB.rb.geo).toNat)
    (hoff : off < ZoResult.size.toNat) (hfetched : Fetched b t.w.ringB job x N) :
    t.onB b (.read off) = Trip.resume
        { t with w.ringB := t.w.ringB.returnC (.byte (x.payload off)) } (.byte (x.payload off)) ∧
      Fetched b (t.w.ringB.returnC (.byte (x.payload off))) job x N ∧
      Threads.step b t.w.ringB (.read off) =
        some (t.w.ringB.returnC (.byte (x.payload off))) := by
  obtain ⟨hstep, hreply, hfetched'⟩ := hfetched.read hring (hoff.trans_le hroom)
  refine ⟨?_, hfetched', hstep⟩
  simp only [Trip.onB, hstep, Option.bind_some, hreply]

section Host

variable {q : Request} {w : State} {seqIn : UInt32} {completed : UInt64} {times : Times}
  {late : Bool}

theorem Ok.begin (hok : Ok b args.request N ⟨w, .begin, seqIn, completed, times⟩) :
    ∃ t', Trip.hostStep b args ⟨w, .begin, seqIn, completed, times⟩ late = some t' ∧
      Ok b args.request N t' := by
  obtain ⟨hlinked, hrequests, hcompleted, hfree, hN, hconsuming, hd, hseq, hserved⟩ := hok
  simp only [Trip.hostStep]
  split_ifs with hover
  · exact ⟨_, rfl, hlinked, hrequests, hcompleted, rfl, hN, hd, hserved⟩
  · refine ⟨_, rfl, hlinked, hrequests, hcompleted, ⟨w.ringA.p.sent, hN, hfree.acquiring _, rfl⟩,
      hconsuming, hd, ?_, hserved⟩
    rw [UInt32.ofNat_add]
    exact congrArg (· + 1) hseq

/-- `publish_payload` has made a step. -/
theorem Ok.sent {x : Sending} {s' : Sys} {y : Sending ⊕ Int} {before : List Sent}
    (hok : Ok b q N ⟨w, .send x, seqIn, completed, times⟩)
    (hpolicy : w.ringA.rb.oversizePolicy ≠ .drop) (hdrop : q.dropMode = false)
    (hN : before.length = N) (hsending : SendingOk b q before w.ringA x)
    (hmoved : MovedBy b true w.ringA s') (hsends : Sends b q before w.ringA s' y) :
    Ok b q N (Trip.sent ⟨w, .send x, seqIn, completed, times⟩ (s', y)) := by
  obtain ⟨hlinked, hrequests, hcompleted, -, hconsuming, hd, hseq, hserved⟩ := hok
  have hgeo : s'.rb.geo = w.ringA.rb.geo := hmoved.moved.geo
  have hlinked' := hlinked.send hmoved.sameConsumer
  -- what was published before carries the payload
  have hbefore : ∀ m ∈ before, q.Carried (payloadCap b s'.rb.geo) m := by
    intro m hm
    rw [hgeo]
    rcases sent_of_sending hsending with hsent | ⟨last, hsent, -⟩
    · exact hrequests m (by dsimp only; rwa [hsent])
    · exact hrequests m (by dsimp only; rw [hsent]; exact List.mem_append_left _ hm)
  have hone : ∀ {m : Sent}, s'.p.sent = before ++ [m] → q.Carried (payloadCap b s'.rb.geo) m →
      ∀ m' ∈ s'.p.sent, q.Carried (payloadCap b s'.rb.geo) m' := by
    intro m hsent hcarried m' hm'
    rw [hsent] at hm'
    rcases List.mem_append.mp hm' with hold | hnew
    · exact hbefore m' hold
    · exact List.mem_singleton.mp hnew ▸ hcarried
  cases hsends with
  | going x' hgoing =>
      refine ⟨hlinked', ?_, hcompleted, ⟨before, hN, hgoing⟩, hconsuming, hd, hseq, hserved⟩
      rcases sent_of_sending hgoing with hsent | ⟨m, hsent, hcarried⟩
      · exact fun m hm => hbefore m (hsent ▸ hm)
      · exact hone hsent hcarried
  | sent m hfree hsent hcarried =>
      refine ⟨hlinked', hone hsent hcarried, hcompleted, hfree, ?_, hconsuming, hd, hseq, hserved⟩
      dsimp only [Trip.sent]
      rw [hsent, List.length_append, hN]
      rfl
  | dropped hmode => exact absurd hmode (by rw [hdrop]; decide)
  | refused hover hrefuse => exact absurd hrefuse hpolicy

theorem Ok.consume (hok : Ok b q N ⟨w, .consume, seqIn, completed, times⟩)
    (hmode : b.mode ≠ .pointer) (hB : Ring b w.ringB)
    (hroom : ZoResult.size.toNat ≤ (payloadCap b w.ringB.rb.geo).toNat) :
    ∃ t', Trip.onB b ⟨w, .consume, seqIn, completed, times⟩ (w.ringB.callC .consume) = some t' ∧
      Ok b q N t' := by
  obtain ⟨hlinked, hrequests, hcompleted, hfree, hN, hconsuming, hd, hseq, hserved⟩ := hok
  obtain ⟨s', hstep, hcase⟩ := receive_step hB hmode hconsuming
  have hcall : (w.ringB.callC .consume).byProducer = false := Sys.callC_byProducer rfl
  have hframe := (step_consumerMove hcall hstep).frame
  have hlinked' := hlinked.receive hB hroom hcall hstep
  have hserved' : ∀ host, Served ⟨{ w with ringB := s' }, host, seqIn, completed, times⟩ N :=
    fun host => hserved.of_extends (by rw [hframe.side]) rfl
  simp only [Trip.onB, hstep, Option.bind_some]
  generalize reply w.ringB (w.ringB.callC .consume) s' = r at hcase
  cases hcase with
  | going hconsuming' hdelivered =>
      exact ⟨_, rfl, hlinked', hrequests, hcompleted, hfree, hN, hconsuming', hdelivered ▸ hd,
        hseq, hserved' _⟩
  | nothing err hconsuming' hdelivered hempty =>
      exact ⟨_, rfl, hlinked', hrequests, hcompleted, hfree, hN, hconsuming', hdelivered ▸ hd,
        hseq, hserved' _⟩
  | message job truncated x hfetched =>
      rw [hd] at hfetched
      exact ⟨_, rfl, hlinked', hrequests, hcompleted, hfree, hN, ⟨x, hfetched, Seen.start⟩,
        by decide, hseq, hserved' _⟩

theorem Ok.seq {idx len : UInt32} {seen : Memory} {todo : List Nat}
    (hok : Ok b args.request N ⟨w, .seq idx len seen todo, seqIn, completed, times⟩)
    (hB : Ring b w.ringB)
    (hroom : ZoResult.size.toNat ≤ (payloadCap b w.ringB.rb.geo).toNat) :
    ∃ t', Trip.hostStep b args ⟨w, .seq idx len seen todo, seqIn, completed, times⟩ late =
      some t' ∧ Ok b args.request N t' := by
  obtain ⟨hlinked, hrequests, hcompleted, hfree, hN, ⟨x, hfetched, hseen⟩, htodo, hseq,
    hserved⟩ := hok
  have hlen : len = ZoResult.size := len_of_fetched hlinked hroom hfetched
  have hlong : ¬ len < ZoResult.size := by
    rw [hlen]
    exact UInt32.lt_irrefl _
  cases todo with
  | nil =>
      -- the result carries the number of the request
      have hsame : (ZoResult.load seen).seq = seqIn := by
        obtain ⟨m, -, hfor⟩ := answer_of_fetched hlinked hfetched
        exact hseen.seq.trans (hfor.seq.trans hseq.symm)
      simp only [Trip.hostStep, if_neg hlong, if_pos hsame]
      exact ⟨_, rfl, hlinked, hrequests, hcompleted, hfree, hN, ⟨x, len, hfetched, Seen.start⟩,
        by decide, hseq, hserved⟩
  | cons off todo =>
      obtain ⟨hread, hfetched', hstep⟩ := onB_read
        (t := ⟨w, .seq idx len seen (off :: todo), seqIn, completed, times⟩) hB hroom
        (htodo off List.mem_cons_self) hfetched
      simp only [Trip.hostStep, if_neg hlong]
      exact ⟨_, hread, hlinked.receive hB hroom rfl hstep, hrequests, hcompleted, hfree, hN,
        ⟨x, hfetched', hseen.store8⟩, fun off' hmem => htodo off' (List.mem_cons_of_mem _ hmem),
        hseq, hserved⟩

theorem Ok.time {idx : UInt32} {seen : Memory} {todo : List Nat}
    (hok : Ok b args.request N ⟨w, .time idx seen todo, seqIn, completed, times⟩)
    (hB : Ring b w.ringB)
    (hroom : ZoResult.size.toNat ≤ (payloadCap b w.ringB.rb.geo).toNat) :
    ∃ t', Trip.hostStep b args ⟨w, .time idx seen todo, seqIn, completed, times⟩ late = some t' ∧
      Ok b args.request N t' := by
  obtain ⟨hlinked, hrequests, hcompleted, hfree, hN, ⟨x, len, hfetched, hseen⟩, htodo, hseq,
    served, hextends, hlength, htimes⟩ := hok
  cases todo with
  | nil =>
      refine ⟨_, rfl, hlinked, hrequests, hcompleted, hfree, hN, hfetched.held.releasing,
        hfetched.count, hseq, served ++ [x], ?_, ?_, ?_⟩
      · obtain ⟨rest, hrest⟩ := hextends
        have hget := hfetched.sent
        dsimp only at hrest hget
        rw [← hrest, ← hlength, List.getElem?_append_right le_rfl, Nat.sub_self] at hget
        cases rest with
        | nil => cases hget
        | cons y rest =>
            obtain rfl : y = x := Option.some.inj hget
            exact ⟨rest, by rw [← hrest, List.append_assoc]; rfl⟩
      · rw [List.length_append, hlength]
        rfl
      · rw [computeTimes, List.map_append, List.map_singleton, Times.of_concat, ← computeTimes,
          ← htimes, ← hseen.computeNs]
  | cons off todo =>
      obtain ⟨hread, hfetched', hstep⟩ := onB_read
        (t := ⟨w, .time idx seen (off :: todo), seqIn, completed, times⟩) hB hroom
        (htodo off List.mem_cons_self) hfetched
      simp only [Trip.hostStep]
      exact ⟨_, hread, hlinked.receive hB hroom rfl hstep, hrequests, hcompleted, hfree, hN,
        ⟨x, len, hfetched', hseen.store8⟩,
        fun off' hmem => htodo off' (List.mem_cons_of_mem _ hmem), hseq, served, hextends, hlength,
        htimes⟩

theorem Ok.release {idx : UInt32} (hok : Ok b q N ⟨w, .release idx true, seqIn, completed, times⟩)
    (hmode : b.mode ≠ .pointer) (hB : Ring b w.ringB)
    (hroom : ZoResult.size.toNat ≤ (payloadCap b w.ringB.rb.geo).toNat) :
    ∃ t', Trip.onB b ⟨w, .release idx true, seqIn, completed, times⟩
      (w.ringB.callC (.release idx)) = some t' ∧ ∃ N', Ok b q N' t' := by
  obtain ⟨hlinked, hrequests, hcompleted, hfree, hN, hreleasing, hd, hseq, hserved⟩ := hok
  obtain ⟨s', hstep⟩ := release_enabled (fun h => absurd h hmode) hreleasing
  have hcall : (w.ringB.callC (.release idx)).byProducer = false := Sys.callC_byProducer rfl
  have hframe := (step_consumerMove hcall hstep).frame
  have hlinked' := hlinked.receive hB hroom hcall hstep
  have hcase := release_step hB.live hreleasing hstep
  have hserved' : ∀ host n, Served ⟨{ w with ringB := s' }, host, seqIn, n, times⟩ (N + 1) :=
    fun host n => hserved.of_extends (by rw [hframe.side]) rfl
  simp only [Trip.onB, hstep, Option.bind_some]
  generalize reply w.ringB (w.ringB.callC (.release idx)) s' = r at hcase
  cases hcase with
  | going hreleasing' hdelivered =>
      exact ⟨_, rfl, N, hlinked', hrequests, hcompleted, hfree, hN, hreleasing', hdelivered ▸ hd,
        hseq, hserved' _ _⟩
  | done hpc hactive hdelivered =>
      refine ⟨_, rfl, N + 1, hlinked', hrequests, ?_, hfree, hN, ⟨Or.inl hpc, hactive⟩,
        hdelivered ▸ hd, hseq, hserved' _ _⟩
      rw [UInt64.ofNat_add]
      exact congrArg (· + 1) hcompleted

end Host

section Runs

variable (hmode : b.mode ≠ .pointer) (hA : Ring b t.w.ringA) (hB : Ring b t.w.ringB)
  (hroom : ZoResult.size.toNat ≤ (payloadCap b t.w.ringB.rb.geo).toNat)
  (hpolicy : t.w.ringA.rb.oversizePolicy ≠ .drop) (hdrop : args.request.dropMode = false)

include hmode hA hB hroom hpolicy hdrop

/-- The host can go on until `run_roundtrip` returns. -/
theorem Ok.hostStep (hok : Ok b args.request N t) (hreturned : ∀ code, t.host ≠ .returned code)
    (late : Bool) : ∃ t', t.hostStep b args late = some t' ∧ ∃ N', Ok b args.request N' t' := by
  obtain ⟨w, host, seqIn, completed, times⟩ := t
  cases host with
  | begin =>
      obtain ⟨t', hstep, hok'⟩ := hok.begin
      exact ⟨t', hstep, N, hok'⟩
  | send x =>
      obtain ⟨before, hN, hsending⟩ := hok.host.1
      obtain ⟨s', y, hstep, hsends⟩ := sending_step hA hsending
      refine ⟨_, congrArg (Option.map _) hstep, N, ?_⟩
      exact hok.sent hpolicy hdrop hN hsending (sending_moved (Or.inl hstep)) hsends
  | consume =>
      obtain ⟨t', hstep, hok'⟩ := hok.consume hmode hB hroom
      exact ⟨t', hstep, N, hok'⟩
  | seq idx len seen todo =>
      obtain ⟨t', hstep, hok'⟩ := hok.seq hB hroom
      exact ⟨t', hstep, N, hok'⟩
  | time idx seen todo =>
      obtain ⟨t', hstep, hok'⟩ := hok.time hB hroom
      exact ⟨t', hstep, N, hok'⟩
  | release idx good =>
      cases good with
      | true => exact hok.release hmode hB hroom
      | false => exact hok.host.elim
  | returned code => exact absurd rfl (hreturned code)

/-- Every move keeps host, stub and rings together. -/
theorem ok_step {m : Turn} (hok : Ok b args.request N t) (hstep : t.step b args m = some t') :
    ∃ N', Ok b args.request N' t' := by
  have hstub : ∀ {w' : State}, Linked b w' → MovedBy b false t.w.ringA w'.ringA →
      MovedBy b true t.w.ringB w'.ringB → Ok b args.request N { t with w := w' } := by
    intro w' hlinked hmovedA hmovedB
    have hgeo : w'.ringA.rb.geo = t.w.ringA.rb.geo := hmovedA.moved.geo
    refine ⟨hlinked, fun q hq => ?_, hok.completed, hok.host.of_stub hA hmovedA hmovedB⟩
    dsimp only
    rw [hgeo]
    exact hok.requests q (by rwa [← hmovedA.sameProducer.side])
  cases m with
  | host late =>
      by_cases hreturned : ∃ code, t.host = .returned code
      · obtain ⟨code, hcode⟩ := hreturned
        simp [Trip.step, Trip.hostStep, hcode] at hstep
      · obtain ⟨next, hnext, hok'⟩ := hok.hostStep hmode hA hB hroom hpolicy hdrop
          (fun code hcode => hreturned ⟨code, hcode⟩) late
        obtain rfl := Option.some.inj (hstep.symm.trans hnext)
        exact hok'
  | hostEventfdFails =>
      obtain ⟨w, host, seqIn, completed, times⟩ := t
      cases host with
      | send x =>
          obtain ⟨⟨s', y⟩, hsend, rfl⟩ := Option.map_eq_some_iff.mp hstep
          obtain ⟨before, hN, hsending⟩ := hok.host.1
          exact ⟨N, hok.sent hpolicy hdrop hN hsending (sending_moved (Or.inr hsend))
            (sending_eventfdFails hsending hsend)⟩
      | begin | consume | seq | time | release | returned => cases hstep
  | stub ns =>
      obtain ⟨w', hmove, rfl⟩ := Option.map_eq_some_iff.mp hstep
      obtain ⟨hmovedA, hmovedB⟩ := stubStep_moved hmove
      exact ⟨N, hstub (linked_step hok.linked hmode hA hB hroom hmove) hmovedA hmovedB⟩
  | stubEventfdFails =>
      obtain ⟨w', hmove, rfl⟩ := Option.map_eq_some_iff.mp hstep
      obtain ⟨hmovedA, hmovedB⟩ := stubEventfdFails_moved hmove
      exact ⟨N, hstub (linked_step hok.linked hmode hA hB hroom hmove) hmovedA hmovedB⟩

end Runs

theorem resume_w {r : Reply} (hresume : t.resume r = some t') : t'.w = t.w := by
  unfold Trip.resume at hresume
  split at hresume <;> cases hresume <;> rfl

theorem host_onB_moved {a : Act} (hstep : t.onB b a = some t') :
    Moved b t.w.ringA t'.w.ringA ∧ Moved b t.w.ringB t'.w.ringB := by
  refine moved_of_onB Trip.w hstep fun ringB hnext => ?_
  split at hnext
  · exact (congrArg Trip.w (Option.some.inj hnext)).symm
  · exact resume_w hnext

theorem hostStep_moved {late : Bool} (hstep : t.hostStep b args late = some t') :
    Moved b t.w.ringA t'.w.ringA ∧ Moved b t.w.ringB t'.w.ringB := by
  unfold Trip.hostStep at hstep
  split at hstep
  · split at hstep
    · exact moved_of_stay Trip.w hstep rfl
    · exact moved_of_stay Trip.w hstep rfl
  · exact moved_of_sending Trip.w (Or.inl hstep) fun _ _ => rfl
  · exact host_onB_moved hstep
  · split at hstep
    · exact moved_of_stay Trip.w hstep rfl
    · split at hstep
      · split at hstep
        · exact moved_of_stay Trip.w hstep rfl
        · exact moved_of_stay Trip.w hstep rfl
      · exact host_onB_moved hstep
  · split at hstep
    · exact moved_of_stay Trip.w hstep rfl
    · exact host_onB_moved hstep
  · exact host_onB_moved hstep
  · cases hstep

theorem turn_moved {m : Turn} (hstep : t.step b args m = some t') :
    Moved b t.w.ringA t'.w.ringA ∧ Moved b t.w.ringB t'.w.ringB := by
  cases m with
  | host late => exact hostStep_moved hstep
  | hostEventfdFails =>
      simp only [Trip.step] at hstep
      split at hstep
      · exact moved_of_sending Trip.w (Or.inr hstep) fun _ _ => rfl
      · cases hstep
  | stub ns => exact moved_of_stub Trip.w hstep fun _ => rfl
  | stubEventfdFails => exact moved_of_stub Trip.w hstep fun _ => rfl

theorem Ok.single {q : Request} (hok : Ok b q N t) :
    t.w.ringA.p.sent.length ≤ t.w.ringB.c.delivered.length + 1 := by
  have hhost := hok.host
  unfold HostOk at hhost
  split at hhost
  · omega
  · obtain ⟨⟨before, hN, hsending⟩, -, hd, -⟩ := hhost
    rcases sent_of_sending hsending with hsent | ⟨m, hsent, -⟩
    · rw [hsent]
      omega
    · rw [hsent, List.length_append, List.length_singleton]
      omega
  · omega
  · obtain ⟨-, hN, ⟨x, hfetched, -⟩, -⟩ := hhost
    have hcount := hfetched.count
    omega
  · obtain ⟨-, hN, ⟨x, len, hfetched, -⟩, -⟩ := hhost
    have hcount := hfetched.count
    omega
  · omega
  · exact hhost.elim
  · omega

theorem Ok.times {q : Request} (hok : Ok b q N t) :
    ∃ served, served <+: t.w.ringB.p.sent ∧ t.times = Times.of (computeTimes served) ∧
      (t.completed = UInt64.ofNat served.length ∨
        t.completed + 1 = UInt64.ofNat served.length) := by
  have hcompleted := hok.completed
  have hhost := hok.host
  have hthese : Served t N ∨ Served t (N + 1) := by
    unfold HostOk at hhost
    split at hhost
    · exact Or.inl hhost.2.2.2.2.2
    · exact Or.inl hhost.2.2.2.2
    · exact Or.inl hhost.2.2.2.2.2
    · exact Or.inl hhost.2.2.2.2.2
    · exact Or.inl hhost.2.2.2.2.2
    · exact Or.inr hhost.2.2.2.2.2
    · exact hhost.elim
    · exact Or.inl hhost.2.2.2
  rcases hthese with ⟨served, hextends, rfl, htimes⟩ | ⟨served, hextends, hlength, htimes⟩
  · exact ⟨served, hextends, htimes, Or.inl hcompleted⟩
  · refine ⟨served, hextends, htimes, Or.inr ?_⟩
    rw [hlength, UInt64.ofNat_add, hcompleted]
    rfl

/-- Host and stub when `run_roundtrip` is called. -/
def start (rbA rbB : Rb) : Trip := { w := Offload.start rbA rbB }

section Init

variable {base : BitVec b.sizeBits} {h : HostArgs} {beforeA beforeB : Store} {rbA rbB : Rb}
  {limit : Option UInt64}

theorem start_ok {q : Request} (hprepared : Prepared b rbA rbB) : Ok b q 0 (start rbA rbB) :=
  ⟨hprepared.linked, fun _ hm => absurd hm List.not_mem_nil, rfl, hprepared.freeA, rfl,
    hprepared.consumingB, rfl, rfl, [], List.nil_prefix, rfl, rfl⟩

end Init

/-- What `run_roundtrip` has returned. -/
def Host.code : Host → Option Int
  | .returned code => some code
  | .begin | .send _ | .consume | .seq _ _ _ _ | .time _ _ _ | .release _ _ => none

end Roundtrip

end RingBuff.Offload
