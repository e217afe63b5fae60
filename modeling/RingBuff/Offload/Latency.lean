import RingBuff.Offload.Stream

/-! # Latency

With `-L` the streaming host notes when it has sent a message, in a table of
`DUMP_TS_SLOTS` times, under the number it has counted for the message. When a result
comes back, it looks the time up under the number in the result, which the stub has
counted. The table has room for all messages that can be under way. A message that is
dropped is counted by the host but not by the stub, so after a drop the two numbers
differ, and each result is taken for the answer to an earlier message.
-/

namespace RingBuff.Offload.Stream

open Threads

variable {b : Build} {args : Args} {t t' : Run} {P : Nat}

/-- What there is to record: result `k` answers message `k`. -/
def measured (sentAt receivedAt : List UInt64) : List UInt64 :=
  (sentAt.zip receivedAt).flatMap fun times => sample times.1 times.2

section Measured

variable {sentAt receivedAt : List UInt64}

theorem measured_sent (hle : receivedAt.length ≤ sentAt.length) (now : UInt64) :
    measured (sentAt ++ [now]) receivedAt = measured sentAt receivedAt := by
  rw [measured, zip_concat_left hle]
  rfl

theorem measured_received {send : UInt64} (hsend : sentAt[receivedAt.length]? = some send)
    (ts : UInt64) :
    measured sentAt (receivedAt ++ [ts]) = measured sentAt receivedAt ++ sample send ts := by
  rw [measured, zip_concat_right hsend, List.flatMap_append, List.flatMap_singleton]
  rfl

end Measured

/-- Messages less than a table apart have their times in different places. -/
theorem tsSlots_ne {j k : Nat} (hlt : j < k) (hwindow : k < j + tsSlots.toNat) :
    UInt32.ofNat j % tsSlots ≠ UInt32.ofNat k % tsSlots := by
  intro heq
  have hsame := congrArg UInt32.toNat heq
  have hslots : tsSlots.toNat = 4096 := rfl
  rw [UInt32.toNat_mod, UInt32.toNat_mod, UInt32.toNat_ofNat', UInt32.toNat_ofNat', hslots]
    at hsame
  omega

/-! ## The invariant -/

/-- A result has been counted and not yet looked up. -/
def Host.reading : Host → Nat
  | .seq _ _ _ _ _ => 1
  | .begin | .consume _ | .note _ _ _ | .release _ _ | .count | .send _ _ | .stamp | .rest
  | .returned _ => 0

/-- All that the measuring rests on. -/
def Run.times (t : Run) :
    List UInt64 × List UInt64 × List UInt64 × (UInt32 → UInt64) × Int × Nat :=
  (t.samples, t.sentAt, t.receivedAt, t.sendNs, t.gotLive + t.got, t.host.reading)

/-- The samples so far are right, and the table has the time of every message whose
result has not been looked up. -/
structure Timed (t : Run) : Prop where
  samples : t.samples = measured t.sentAt t.receivedAt
  received : t.gotLive + t.got = (t.receivedAt.length + t.host.reading : Nat)
  behind : t.receivedAt.length + t.host.reading ≤ t.sentAt.length
  table : ∀ k send, t.receivedAt.length ≤ k → t.sentAt[k]? = some send →
    t.sendNs (UInt32.ofNat (k + 1) % tsSlots) = send

theorem Timed.of_times (htimed : Timed t) (htimes : t'.times = t.times) : Timed t' := by
  simp only [Run.times, Prod.mk.injEq] at htimes
  obtain ⟨hsamples, hsent, hreceived, htable, hgot, hreading⟩ := htimes
  constructor
  · rw [hsamples, hsent, hreceived]
    exact htimed.samples
  · rw [hgot, hreceived, hreading]
    exact htimed.received
  · rw [hreceived, hreading, hsent]
    exact htimed.behind
  · rw [hreceived, hsent, htable]
    exact htimed.table

/-! ## Steps that measure nothing -/

theorem resume_times {r : Reply} (hresume : t.resume r = some t') : t'.times = t.times := by
  unfold Run.resume at hresume
  split at hresume <;> cases hresume <;> simp only [Run.times, *] <;> rfl

theorem onB_times {a : Act} (hstep : t.onB b a = some t') : t'.times = t.times := by
  obtain ⟨s', -, hnext⟩ := Option.bind_eq_some_iff.mp hstep
  split at hnext
  · obtain rfl := Option.some.inj hnext
    rfl
  · exact (resume_times hnext).trans rfl

theorem sent_times {q : Request} {x : Sending} (hhost : t.host = .send q x)
    (next : Sys × (Sending ⊕ Int)) : (t.sent q next).times = t.times := by
  unfold Run.sent
  split
  · simp only [Run.times, hhost, Host.reading]
  · dsimp only
    split_ifs <;> simp only [Run.times, hhost, Host.reading]

/-! ## Steps that measure -/

section Counted

variable (t : Run) (final : Bool)

theorem counted_samples : (t.counted final).samples = t.samples := by
  cases final <;> rfl

theorem counted_receivedAt : (t.counted final).receivedAt = t.receivedAt := by
  cases final <;> rfl

theorem counted_sendNs : (t.counted final).sendNs = t.sendNs := by
  cases final <;> rfl

end Counted

section Host

variable {late : Bool} {now : UInt64}

/-- A result is counted when its message has been sent and its time noted. -/
theorem Timed.note {final : Bool} {idx len : UInt32} (htimed : Timed t) (hok : Ok b args P t)
    (hhost : t.host = .note final idx len) (hlatency : args.latency = true)
    (hstep : t.hostStep b args late now = some t') : Timed t' := by
  have hpos := hok.host
  have hstamped := hok.stamped
  have hreceived := htimed.received
  simp only [HostOk, hhost] at hpos
  rw [hhost] at hstamped hreceived
  obtain ⟨-, hP, x, n, hfetched, hn⟩ := hpos
  have hcount : n = t.receivedAt.length := Int.ofNat_inj.mp (hn.symm.trans hreceived)
  -- no result without a message, and the host notes the time before it drains again
  obtain ⟨m, hm, -⟩ := answer_of_fetched hok.linked hfetched
  have hsent : n < t.w.ringA.p.sent.length := (List.getElem?_eq_some_iff.mp hm).1
  simp only [Run.hostStep, hhost, hlatency, if_true] at hstep
  split at hstep
  · obtain rfl := Option.some.inj hstep
    refine htimed.of_times ?_
    simp only [Run.times, hhost, Host.reading]
  · obtain rfl := Option.some.inj hstep
    refine ⟨?_, ?_, ?_, ?_⟩
    · simp only [counted_samples, counted_sentAt, counted_receivedAt]
      exact htimed.samples
    · simp only [counted_got, counted_receivedAt, Host.reading]
      omega
    · simp only [counted_sentAt, counted_receivedAt, Host.reading]
      rw [← hcount, show t.sentAt.length = P from hstamped, ← hP]
      exact hsent
    · simp only [counted_sentAt, counted_receivedAt, counted_sendNs]
      exact htimed.table

/-- Without drops the number in a result is the one its message was sent under. -/
theorem Timed.seq {final : Bool} {idx : UInt32} {ts : UInt64} {seen : Memory} (htimed : Timed t)
    (hok : Ok b args P t) (hhost : t.host = .seq final idx ts seen [])
    (hstep : t.hostStep b args late now = some t') : Timed t' := by
  have hpos := hok.host
  have hreceived := htimed.received
  have hbehind := htimed.behind
  simp only [HostOk, hhost] at hpos
  rw [hhost] at hreceived hbehind
  obtain ⟨-, -, ⟨x, n, len, hfetched, hn, hseen⟩, -⟩ := hpos
  have hcount : n = t.receivedAt.length :=
    Nat.succ.inj (Int.ofNat_inj.mp (hn.symm.trans hreceived))
  obtain ⟨m, -, hfor⟩ := answer_of_fetched hok.linked hfetched
  -- the stub has counted as many results before this one as the host has looked up
  have hseq : (ZoResult.load seen).seq = UInt32.ofNat (t.receivedAt.length + 1) := by
    rw [hseen.seq, hfor.seq, hcount]
  have hsend : t.sentAt[t.receivedAt.length]? =
      some (t.sendNs ((ZoResult.load seen).seq % tsSlots)) := by
    have hget := List.getElem?_eq_getElem hbehind
    rw [hseq, htimed.table _ _ le_rfl hget]
    exact hget
  simp only [Run.hostStep, hhost] at hstep
  obtain rfl := Option.some.inj hstep
  refine ⟨?_, ?_, ?_, ?_⟩
  · dsimp only
    rw [measured_received hsend, htimed.samples]
  · dsimp only
    rw [List.length_append]
    exact hreceived
  · dsimp only
    rw [List.length_append]
    exact hbehind
  · intro k send hk
    rw [List.length_append] at hk
    exact htimed.table k send (Nat.le_of_succ_le hk)

/-- The new time replaces none that is still needed. -/
theorem Timed.stamp (htimed : Timed t) (hok : Ok b args P t) (hhost : t.host = .stamp)
    (hA : Counted t.w.ringA) (hB : Counted t.w.ringB)
    (hwindow : t.w.ringA.rb.limit.toNat + t.w.ringB.rb.limit.toNat ≤ tsSlots.toNat)
    (hwait : args.dropMode = false) (hlatency : args.latency = true)
    (hstep : t.hostStep b args late now = some t') : Timed t' := by
  have hpos := hok.host
  have hstamped := hok.stamped
  have hseq := hok.seqIn hwait
  have hreceived := htimed.received
  have hbehind := htimed.behind
  simp only [HostOk, hhost] at hpos
  rw [hhost] at hstamped hseq hreceived hbehind
  -- what is under way is in ring A, in the hands of the stub or in ring B
  have hapart : P ≤ t.receivedAt.length + tsSlots.toNat := by
    have hcount : t.w.ringB.c.delivered.length = t.receivedAt.length :=
      Int.ofNat_inj.mp (hpos.counted.symm.trans hreceived)
    have hsent := published_of_idle hA hpos.free.pc
    have hroomA := hA.published_le
    have hroomB := hB.published_le
    have hback := released_le_published hok.linked hA hB
    have hreleased := released_of_consuming hB hpos.consuming
    have hP := hpos.sent
    omega
  have hnumber : t.seqIn = UInt32.ofNat (t.sentAt.length + 1) := by
    rw [hseq, ← hstamped]
    rfl
  simp only [Run.hostStep, hhost, hlatency, if_true] at hstep
  obtain rfl := Option.some.inj hstep
  refine ⟨?_, ?_, ?_, ?_⟩
  · dsimp only
    rw [measured_sent hbehind, htimed.samples]
  · exact hreceived
  · rw [List.length_append]
    exact Nat.le_succ_of_le hbehind
  · intro k send hk hget
    dsimp only
    rw [hnumber]
    rcases getElem?_concat_eq_some.mp hget with hold | ⟨rfl, rfl⟩
    · have hlt : k < t.sentAt.length := (List.getElem?_eq_some_iff.mp hold).1
      rw [Function.update_of_ne (tsSlots_ne (by omega) ?_)]
      · exact htimed.table k send hk hold
      · have hstamped : t.sentAt.length + 1 = P := hstamped
        have hk : t.receivedAt.length ≤ k := hk
        omega
    · exact Function.update_self _ _ _

theorem Timed.hostStep (htimed : Timed t) (hok : Ok b args P t) (hA : Counted t.w.ringA)
    (hB : Counted t.w.ringB)
    (hwindow : t.w.ringA.rb.limit.toNat + t.w.ringB.rb.limit.toNat ≤ tsSlots.toNat)
    (hwait : args.dropMode = false) (hlatency : args.latency = true)
    (hstep : t.hostStep b args late now = some t') : Timed t' := by
  have hstay : ∀ {next : Run}, some next = some t' → next.times = t.times → Timed t' := by
    intro next hnext htimes
    obtain rfl := Option.some.inj hnext
    exact htimed.of_times htimes
  cases hhost : t.host with
  | note final idx len => exact htimed.note hok hhost hlatency hstep
  | stamp => exact htimed.stamp hok hhost hA hB hwindow hwait hlatency hstep
  | seq final idx ts seen todo =>
      cases todo with
      | nil => exact htimed.seq hok hhost hstep
      | cons off todo =>
          simp only [Run.hostStep, hhost] at hstep
          exact htimed.of_times (onB_times hstep)
  | begin =>
      simp only [Run.hostStep, hhost] at hstep
      split at hstep
      · exact hstay hstep (by simp only [Run.times, hhost, Host.reading])
      · exact hstay hstep (by simp only [Run.times, hhost, Host.reading])
  | consume final =>
      simp only [Run.hostStep, hhost] at hstep
      exact htimed.of_times (onB_times hstep)
  | release final idx =>
      simp only [Run.hostStep, hhost] at hstep
      exact htimed.of_times (onB_times hstep)
  | count =>
      simp only [Run.hostStep, hhost] at hstep
      obtain ⟨q, -, rfl⟩ := Option.map_eq_some_iff.mp hstep
      exact htimed.of_times (by simp only [Run.times, hhost, Host.reading])
  | send q x =>
      simp only [Run.hostStep, hhost] at hstep
      obtain ⟨next, -, rfl⟩ := Option.map_eq_some_iff.mp hstep
      exact htimed.of_times (sent_times hhost next)
  | rest =>
      simp only [Run.hostStep, hhost] at hstep
      split at hstep
      · exact hstay hstep (by simp only [Run.times, hhost, Host.reading])
      · exact hstay hstep (by simp only [Run.times, hhost, Host.reading])
  | returned code =>
      simp only [Run.hostStep, hhost] at hstep
      cases hstep

end Host

theorem timed_step {m : Turn} (htimed : Timed t) (hok : Ok b args P t) (hA : Counted t.w.ringA)
    (hB : Counted t.w.ringB)
    (hwindow : t.w.ringA.rb.limit.toNat + t.w.ringB.rb.limit.toNat ≤ tsSlots.toNat)
    (hwait : args.dropMode = false) (hlatency : args.latency = true)
    (hstep : t.step b args m = some t') : Timed t' := by
  cases m with
  | host late now => exact htimed.hostStep hok hA hB hwindow hwait hlatency hstep
  | hostEventfdFails =>
      simp only [Run.step] at hstep
      split at hstep
      next q x hhost =>
        obtain ⟨next, -, rfl⟩ := Option.map_eq_some_iff.mp hstep
        exact htimed.of_times (sent_times hhost next)
      next => cases hstep
  | stub ns =>
      obtain ⟨w', -, rfl⟩ := Option.map_eq_some_iff.mp hstep
      exact htimed.of_times rfl
  | stubEventfdFails =>
      obtain ⟨w', -, rfl⟩ := Option.map_eq_some_iff.mp hstep
      exact htimed.of_times rfl

/-! ## When the samples can be trusted -/

/-- The limits of the two rings leave room in the table. -/
theorem window_running {rbA rbB : Rb} {w : State} {Q : Prop} (hprepared : Prepared b rbA rbB)
    (hrunning : Running b rbA rbB w Q) :
    w.ringA.rb.limit.toNat + w.ringB.rb.limit.toNat ≤ tsSlots.toNat := by
  have hsettingsA := hrunning.settingsA
  have hsettingsB := hrunning.settingsB
  simp only [Rb.settings, Prod.mk.injEq] at hsettingsA hsettingsB
  have hlimitA := hprepared.limitA
  have hlimitB := hprepared.limitB
  have hslots : tsSlots.toNat = 4096 := rfl
  rw [hsettingsA.2.1, hsettingsB.2.1]
  omega

/-- With any accepted sizes, slots that have room for a result and messages that have room
for their number, which a demo does not need, the samples are the latencies of the results
looked up so far. -/
def LatencyExact (dropMode : Bool) : Prop :=
  ∀ (b : Build) (base : BitVec b.sizeBits) (h : HostArgs) (beforeA beforeB : Store) (rbA rbB : Rb)
    (total : Option UInt64) (t : Run), b.mode ≠ .pointer → b.Target → b.needAlign ≤ 64 →
    h.complete.accepted HostArgs.leastSlotSize = true →
    b.hdrSize.toNat + ZoResult.size.toNat ≤ h.complete.slotSize.toNat →
    initRings b base h.complete beforeA beforeB = some (rbA, rbB) →
    (Args.demo ⟨h.msgSize, dropMode, true, total⟩ = true ∨ 8 ≤ h.msgSize.toNat) →
    (system b ⟨h.msgSize, dropMode, true, total⟩).Reaches (start rbA rbB) t →
    WrapSafe rbA.geo.slots t.w.ringA.p.published → WrapSafe rbB.geo.slots t.w.ringB.p.published →
    t.samples = measured t.sentAt t.receivedAt

theorem reaches_timed {rbA rbB : Rb} (hmode : b.mode ≠ .pointer) (hprepared : Prepared b rbA rbB)
    (hsize : args.Sized) (hwait : args.dropMode = false) (hlatency : args.latency = true)
    (hreach : (system b args).Reaches (start rbA rbB) t) :
    Running b rbA rbB t.w ((∃ P, Ok b args P t) ∧ Timed t) := by
  refine hreach.invariant (fun t => Running b rbA rbB t.w ((∃ P, Ok b args P t) ∧ Timed t))
    (hprepared.running ⟨⟨0, start_ok hprepared⟩, rfl, rfl, le_rfl, nofun⟩) ?_
  rintro t m ⟨⟩ t' hrunning hmove
  obtain ⟨next, hstep, heq⟩ := Option.map_eq_some_iff.mp hmove
  obtain ⟨-, rfl⟩ := Prod.mk.inj heq
  obtain ⟨hmovedA, hmovedB⟩ := turn_moved hstep
  refine hrunning.step hmode hmovedA hmovedB fun hA hB ⟨⟨P, hok⟩, htimed⟩ => ⟨?_, ?_⟩
  · exact ok_step hmode hA hB (hrunning.geoB ▸ hprepared.room)
      (hprepared.policy_running hrunning) hsize hok hstep
  · exact timed_step htimed hok hA.counted hB.counted (window_running hprepared hrunning) hwait
      hlatency hstep

/-- In a ring of two slots the third message finds no room. The fourth is sent, and its
result has the number of the third. -/
def oneDrop : List Turn :=
  List.replicate 24 (Turn.host false 10) ++ List.replicate 27 (Turn.host false 20) ++
    List.replicate 8 (Turn.host false 30) ++ List.replicate 110 (Turn.stub 7) ++
    List.replicate 57 (Turn.host false 40) ++ List.replicate 60 (Turn.stub 7) ++
    List.replicate 12 (Turn.host false 50)

theorem oneDrop_samples :
    ∃ rbA rbB t, initRings { mode := .index } 4096#64 oneMessageArgs.complete blank blank =
        some (rbA, rbB) ∧
      (system { mode := .index } ⟨8, true, true, none⟩).Reaches (start rbA rbB) t ∧
      (Counter.isPow2 rbA.geo.slots, Counter.isPow2 rbB.geo.slots, t.samples,
        measured t.sentAt t.receivedAt) = (true, true, [30, 20], [30, 20, 10]) := by
  have hrun : ((initRings { mode := .index } 4096#64 oneMessageArgs.complete blank blank).bind
      fun rings => ((system { mode := .index } ⟨8, true, true, none⟩).run
        (start rings.1 rings.2) oneDrop).map fun r =>
          (Counter.isPow2 rings.1.geo.slots, Counter.isPow2 rings.2.geo.slots, r.2.samples,
            measured r.2.sentAt r.2.receivedAt)) = some (true, true, [30, 20], [30, 20, 10]) := by
    decide +kernel
  obtain ⟨⟨rbA, rbB⟩, hinit, hrun⟩ := Option.bind_eq_some_iff.mp hrun
  obtain ⟨⟨outs, t⟩, hrun, hseen⟩ := Option.map_eq_some_iff.mp hrun
  exact ⟨rbA, rbB, t, hinit, ⟨oneDrop, outs, hrun⟩, hseen⟩

/-- The latencies the host records are those of its messages exactly if it does not run in
drop mode. -/
theorem latency_exact_iff (dropMode : Bool) : LatencyExact dropMode ↔ dropMode = false := by
  constructor
  · intro hexact
    by_contra hdrop
    obtain rfl := Bool.not_eq_false _ ▸ hdrop
    obtain ⟨rbA, rbB, t, hinit, hreach, hseen⟩ := oneDrop_samples
    simp only [Prod.mk.injEq] at hseen
    obtain ⟨hslotsA, hslotsB, hsamples, hmeasured⟩ := hseen
    have hsame := hexact { mode := .index } 4096#64 oneMessageArgs blank blank rbA rbB none t
      (by decide) ⟨Or.inr rfl, 4, by decide, by decide, rfl⟩ (by decide) (by decide) (by decide)
      hinit (Or.inr (by decide)) hreach (Or.inl hslotsA) (Or.inl hslotsB)
    rw [hsamples, hmeasured] at hsame
    exact absurd hsame (by decide)
  · rintro rfl b base h beforeA beforeB rbA rbB total t hmode htarget halign haccepted hroom hinit
      hsize hreach hwrapA hwrapB
    have hprepared := prepared htarget halign haccepted hroom hinit
    have hnumber : Args.Sized ⟨h.msgSize, false, true, total⟩ := hsize.imp_right fun hsize => by
      rw [UInt32.lt_iff_toNat_lt]
      exact Nat.not_lt.mpr hsize
    have hrunning := reaches_timed hmode hprepared hnumber rfl rfl hreach
    obtain ⟨-, -, -, htimed⟩ := hrunning.aligned hwrapA hwrapB
    exact htimed.samples

end RingBuff.Offload.Stream
