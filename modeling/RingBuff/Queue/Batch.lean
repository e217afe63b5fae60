import RingBuff.Queue.Refinement

/-! # Batch calls on the queue

What `rb_flush` and `rb_drain` do to the queue, whatever their callbacks answer.
A client gives a result and leaves a queue behind if it does so from every ledger
that stands for the queue; the rules below follow the client call by call.
-/

namespace RingBuff

/-- The ledger stands for the queue. -/
structure Stands (L : Ledger) (Q : Queue) : Prop where
  ok : L.Ok
  short : L.cap.toNat < 2 ^ 31
  queue : L.queue = Q

theorem Stands.call {L : Ledger} {Q : Queue} (hstands : Stands L Q)
    (hwrap : WrapSafe Q.slots Q.published) (c : Call) :
    (L.call c).1.1 = (Q.call c).1 ∧ Stands (L.call c).2 (Q.call c).2 := by
  obtain ⟨hok, hshort, rfl⟩ := hstands
  obtain ⟨hreply, hqueue⟩ := Ledger.queue_call hok hwrap hshort c
  refine ⟨hreply, Ledger.call_ok hok c, ?_, hqueue⟩
  rw [Ledger.call_cap]
  exact hshort

/-- The client ends with the result and the second queue, from every ledger that
stands for the first. -/
def Gives {α : Type} (p : Session α) (Q : Queue) (result : α) (Q' : Queue) : Prop :=
  ∀ L, Stands L Q → ∃ e, ledger.exec p L = some e ∧ e.result = result ∧ Stands e.last Q'

namespace Gives

variable {α β : Type} {Q Q₁ Q₂ : Queue}

theorem pure (result : α) (Q : Queue) : Gives (Pure.pure result) Q result Q :=
  fun _ hstands => ⟨_, rfl, rfl, hstands⟩

theorem bind {p : Session α} {f : α → Session β} {first : α} {second : β}
    (hfirst : Gives p Q first Q₁) (hsecond : Gives (f first) Q₁ second Q₂) :
    Gives (p >>= f) Q second Q₂ := by
  intro L hstands
  obtain ⟨e, hexec, rfl, hmiddle⟩ := hfirst L hstands
  obtain ⟨e', hexec', hresult, hlast⟩ := hsecond e.last hmiddle
  exact ⟨_, ledger.exec_bind hexec hexec', hresult, hlast⟩

/-- One call. The queue knows the reply; the client may not depend on the callbacks
that were invoked. -/
theorem ask {c : Call} {f : Output → Session α} {result : α} {reply : Reply}
    (hwrap : WrapSafe Q.slots Q.published) (hcall : Q.call c = (reply, Q₁))
    (hnext : ∀ events, Gives (f (reply, events)) Q₁ result Q₂) :
    Gives (Client.ask c >>= f) Q result Q₂ := by
  intro L hstands
  obtain ⟨hreply, hmiddle⟩ := hstands.call hwrap c
  rw [hcall] at hreply hmiddle
  obtain rfl : (L.call c).1.1 = reply := hreply
  obtain ⟨e, hexec, hresult, hlast⟩ := hnext (L.call c).1.2 _ hmiddle
  exact ⟨_, ledger.exec_call_eq_some.mpr ⟨_, _, e, rfl, hexec, rfl⟩, hresult, hlast⟩

end Gives

/-! ## What the callbacks ask for -/

/-- The callback wants nothing to be published. -/
def Filled.refused (a : Filled) : Bool := !a.ok || (a.len == 0 && a.stop)

/-- The first answers of a callback, and its state after them. -/
def FlushFn.answers {σ : Type} (fn : FlushFn σ) (cap : UInt32) : Nat → σ → List Filled
  | 0, _ => []
  | n + 1, user => (fn cap user).1 :: answers fn cap n (fn cap user).2

def FlushFn.after {σ : Type} (fn : FlushFn σ) (cap : UInt32) : Nat → σ → σ
  | 0, user => user
  | n + 1, user => after fn cap n (fn cap user).2

/-- The answers up to the first that refuses or stops. -/
def asked : List Filled → List Filled
  | [] => []
  | a :: rest => if a.refused || a.stop then [a] else a :: asked rest

/-- Those of them that publish a message: only the last one can be refused. -/
def accepted (answers : List Filled) : List Filled := (asked answers).filter fun a => !a.refused

theorem accepted_length_le (answers : List Filled) :
    (accepted answers).length ≤ answers.length := by
  have hasked : (asked answers).length ≤ answers.length := by
    induction answers with
    | nil => exact le_rfl
    | cons a rest ih =>
        rw [asked]
        split_ifs
        · simp
        · simpa using ih
  exact (List.length_filter_le _ _).trans hasked

theorem FlushFn.answers_length {σ : Type} (fn : FlushFn σ) (cap : UInt32) (n : Nat) (user : σ) :
    (fn.answers cap n user).length = n := by
  induction n generalizing user with
  | zero => rfl
  | succ n ih => rw [answers, List.length_cons, ih]

theorem accepted_refused {a : Filled} {rest : List Filled} (ha : a.refused = true) :
    accepted (a :: rest) = [] := by
  simp [accepted, asked, ha]

theorem accepted_stop {a : Filled} {rest : List Filled} (ha : a.refused = false)
    (hstop : a.stop = true) : accepted (a :: rest) = [a] := by
  simp [accepted, asked, ha, hstop]

theorem accepted_go {a : Filled} {rest : List Filled} (ha : a.refused = false)
    (hstop : a.stop = false) : accepted (a :: rest) = a :: accepted rest := by
  simp [accepted, asked, ha, hstop]

/-- Bytes after some stores, of which those outside the payload are not made. -/
def overwrite (cap : Nat) (bytes : Nat → UInt8) : List (Nat × UInt8) → Nat → UInt8
  | [] => bytes
  | (offset, byte) :: rest =>
      overwrite cap (if offset < cap then Function.update bytes offset byte else bytes) rest

theorem overwrite_congr {cap : Nat} {bytes bytes' : Nat → UInt8}
    (hbytes : ∀ k < cap, bytes k = bytes' k) (stores : List (Nat × UInt8)) :
    ∀ k < cap, overwrite cap bytes stores k = overwrite cap bytes' stores k := by
  induction stores generalizing bytes bytes' with
  | nil => exact hbytes
  | cons s rest ih =>
      apply ih
      intro k hk
      split_ifs
      · by_cases heq : k = s.1
        · rw [heq, Function.update_self, Function.update_self]
        · rw [Function.update_of_ne heq, Function.update_of_ne heq, hbytes k hk]
      · exact hbytes k hk

/-- A message as the consumer gets it. -/
structure Parcel where
  slotIndex : UInt32
  len : UInt32
  truncated : Bool
  obj : List UInt8
  deriving DecidableEq, Repr

def Message.parcel (m : Message) : Parcel :=
  ⟨m.slotIndex, m.len, m.truncated, (List.range m.len.toNat).map m.payload⟩

/-- How many messages a callback of `rb_drain` takes before it answers false, and its
state then. -/
def DrainFn.handed {σ : Type} (fn : DrainFn σ) : List Parcel → σ → Nat × σ
  | [], user => (0, user)
  | m :: rest, user =>
      let (cont, user) := fn m.obj m.len m.truncated user
      if cont then
        let (n, user) := handed fn rest user
        (n + 1, user)
      else (1, user)

theorem DrainFn.handed_go {σ : Type} (fn : DrainFn σ) {m : Parcel} (rest : List Parcel) {user : σ}
    (hcont : (fn m.obj m.len m.truncated user).1 = true) :
    fn.handed (m :: rest) user =
      ((fn.handed rest (fn m.obj m.len m.truncated user).2).1 + 1,
        (fn.handed rest (fn m.obj m.len m.truncated user).2).2) := if_pos hcont

theorem DrainFn.handed_stop {σ : Type} (fn : DrainFn σ) {m : Parcel} (rest : List Parcel)
    {user : σ} (hcont : ¬ (fn m.obj m.len m.truncated user).1 = true) :
    fn.handed (m :: rest) user = (1, (fn m.obj m.len m.truncated user).2) := if_neg hcont

/-- The counter of a batch call, one message later. -/
theorem one_add_ofNat (n : UInt32) (k : Nat) :
    n + 1 + UInt32.ofNat k = n + UInt32.ofNat (k + 1) := by
  rw [Counter.ofNat_succ, UInt32.add_assoc, UInt32.add_comm 1]

/-! ## Flushing -/

namespace Queue

/-- The bytes of one slot, replaced. -/
def withBytes (Q : Queue) (slotIndex : UInt32) (bytes : Nat → UInt8) : Queue :=
  { Q with bytes := Function.update Q.bytes slotIndex bytes }

/-- The slot of the `k`-th message from now. -/
def slotAfter (Q : Queue) (k : Nat) : UInt32 := UInt32.ofNat ((Q.published + k) % Q.slots.toNat)

/-- The message an answer stands for, if it is the `k`-th from now. -/
def outgoing (Q : Queue) (k : Nat) (a : Filled) : Message where
  slotIndex := Q.slotAfter k
  len := UInt32.ofNat (min a.len.toNat Q.cap.toNat)
  truncated := a.truncated || Q.cap < a.len
  payload := overwrite Q.cap.toNat (Q.bytes (Q.slotAfter k)) a.stores

/-- The queue after an answer was published. -/
def sent (Q : Queue) (a : Filled) : Queue :=
  (Q.withBytes (Q.slotAfter 0) (Q.outgoing 0 a).payload).push (Q.outgoing 0 a)

@[simp] theorem sent_cap (Q : Queue) (a : Filled) : (Q.sent a).cap = Q.cap := rfl

/-- Messages of one round go to different slots. -/
theorem slotAfter_ne (Q : Queue) {k : Nat} (hk : k + 1 < Q.slots.toNat) :
    Q.slotAfter (k + 1) ≠ Q.slotAfter 0 := by
  intro heq
  have hlt := Q.slots.toNat_lt
  have hpos : 0 < Q.slots.toNat := by omega
  have hmod : ∀ n, (UInt32.ofNat (n % Q.slots.toNat)).toNat = n % Q.slots.toNat := fun n =>
    Counter.toNat_of_lt ((Nat.mod_lt n hpos).trans hlt)
  have hnat := congrArg UInt32.toNat heq
  rw [slotAfter, slotAfter, hmod, hmod] at hnat
  exact Counter.mod_ne_of_lt (by omega) (by omega) hnat.symm

/-- What is sent next does not depend on whether it was announced before or after. -/
theorem outgoing_sent (Q : Queue) (a a' : Filled) {k : Nat} (hk : k + 1 < Q.slots.toNat) :
    (Q.sent a).outgoing k a' = Q.outgoing (k + 1) a' := by
  have hslot : (Q.sent a).slotAfter k = Q.slotAfter (k + 1) := by
    change UInt32.ofNat ((Q.published + 1 + k) % _) = UInt32.ofNat ((Q.published + (k + 1)) % _)
    rw [Nat.add_right_comm, Nat.add_assoc]
    rfl
  have hbytes : (Q.sent a).bytes (Q.slotAfter (k + 1)) = Q.bytes (Q.slotAfter (k + 1)) :=
    Function.update_of_ne (Q.slotAfter_ne hk) _ _
  simp only [outgoing, hslot, hbytes]
  rfl

theorem mapIdx_outgoing_sent (Q : Queue) (a : Filled) {rest : List Filled}
    (hrest : rest.length < Q.slots.toNat) :
    rest.mapIdx (Q.sent a).outgoing = rest.mapIdx fun k a' => Q.outgoing (k + 1) a' := by
  apply List.mapIdx_eq_mapIdx_iff.mpr
  intro k hk
  exact Q.outgoing_sent a _ (by omega)

/-- A callback stores its bytes into the reserved slot. -/
theorem gives_writeBytes {Q : Queue} {slotIndex wantedLen : UInt32}
    (hpending : Q.pending = some (slotIndex, wantedLen)) (hwrap : WrapSafe Q.slots Q.published)
    (stores : List (Nat × UInt8)) :
    Gives (writeBytes stores) Q ()
      (Q.withBytes slotIndex (overwrite Q.cap.toNat (Q.bytes slotIndex) stores)) := by
  induction stores generalizing Q with
  | nil =>
      have hsame : Q.withBytes slotIndex (Q.bytes slotIndex) = Q := by
        rw [withBytes, Function.update_eq_self]
      have hgives := Gives.pure () Q
      rwa [overwrite, hsame]
  | cons s rest ih =>
      obtain ⟨offset, byte⟩ := s
      rw [writeBytes]
      by_cases hoffset : offset < Q.cap.toNat
      · have hcall : Q.call (.write offset byte) =
            (.code .ok, Q.setByte slotIndex offset byte) := by
          simp [call, write, hpending, hoffset]
        refine Gives.ask hwrap hcall fun _ => ?_
        have hrest := ih (Q := Q.setByte slotIndex offset byte) hpending hwrap
        have hbytes : (Q.setByte slotIndex offset byte).bytes slotIndex =
            Function.update (Q.bytes slotIndex) offset byte := Function.update_self _ _ _
        rw [hbytes] at hrest
        rw [overwrite, if_pos hoffset]
        simpa [withBytes, setByte] using hrest
      · have hcall : Q.call (.write offset byte) = (.code .inval, Q) := by
          simp [call, write, hpending, hoffset]
        refine Gives.ask hwrap hcall fun _ => ?_
        rw [overwrite, if_neg hoffset]
        exact ih hpending hwrap

section Flush

variable {σ : Type} (fn : FlushFn σ) (fuel : Nat) (n : UInt32) (user : σ) {Q : Queue}

/-- The queue while the callback fills the next slot. -/
def filling (Q : Queue) (a : Filled) : Queue :=
  (Q.withPending (some (Q.slotAfter 0, 0))).withBytes (Q.slotAfter 0) (Q.outgoing 0 a).payload

theorem gives_filling (hwrap : WrapSafe Q.slots Q.published) (a : Filled) :
    Gives (writeBytes a.stores) (Q.withPending (some (Q.slotAfter 0, 0))) () (Q.filling a) :=
  gives_writeBytes (Q := Q.withPending (some (Q.slotAfter 0, 0))) rfl hwrap a.stores

/-- The clamping of `rb_flush` and that of `rb_publish_ex` make the same message. -/
theorem filling_message (Q : Queue) (a : Filled) {len : UInt32} {truncated : Bool}
    (hclamp : (len, truncated) = if Q.cap < a.len then (Q.cap, true) else (a.len, a.truncated)) :
    (Q.filling a).message (Q.slotAfter 0) 0 len truncated = Q.outgoing 0 a := by
  have hzero : ¬ Q.cap < 0 := UInt32.not_lt.mpr UInt32.zero_le
  have hcap : (Q.filling a).cap = Q.cap := rfl
  have hbytes : (Q.filling a).bytes (Q.slotAfter 0) = (Q.outgoing 0 a).payload :=
    Function.update_self _ _ _
  rw [message, hbytes, hcap]
  split_ifs at hclamp with hover
  · obtain ⟨rfl, rfl⟩ := Prod.mk.inj hclamp
    have hmin : min a.len.toNat Q.cap.toNat = Q.cap.toNat :=
      Nat.min_eq_right (UInt32.lt_iff_toNat_lt.mp hover).le
    simp [outgoing, hmin, hover]
  · obtain ⟨rfl, rfl⟩ := Prod.mk.inj hclamp
    simp [outgoing, hover, hzero]

theorem publishEx_filling (Q : Queue) (a : Filled) {written : UInt32 × Bool}
    (hclamp : written = if Q.cap < a.len then (Q.cap, true) else (a.len, a.truncated)) :
    (Q.filling a).call (.publishEx (Q.slotAfter 0) written.1 written.2) =
      (.code .ok, Q.sent a) := by
  have hmessage := Q.filling_message a hclamp
  have hpush : (Q.filling a).call (.publishEx (Q.slotAfter 0) written.1 written.2) =
      (.code .ok, (Q.filling a).push
        ((Q.filling a).message (Q.slotAfter 0) 0 written.1 written.2)) :=
    if_neg fun hne => hne rfl
  rw [hpush, hmessage]
  rfl

theorem acquire_zero (hpending : Q.pending = none) (hroom : Q.messages.length < Q.limit.toNat) :
    Q.call (.acquire 0) =
      (.reserved (Q.slotAfter 0) Q.cap, Q.withPending (some (Q.slotAfter 0, 0))) := by
  have hzero : ¬ Q.cap < 0 := UInt32.not_lt.mpr UInt32.zero_le
  simp [call, acquire, hpending, hroom.ne, hzero, slotAfter, nextSlot]

variable (hpending : Q.pending = none) (hroom : Q.messages.length < Q.limit.toNat)
  (hwrap : WrapSafe Q.slots Q.published)

include hpending hroom hwrap

/-- A round of `rb_flush` that publishes nothing. -/
theorem gives_flush_refused (hrefused : (fn Q.cap user).1.refused = true) :
    Gives (flushLoop fn (fuel + 1) n user) Q (some (n, (fn Q.cap user).2))
      ((Q.filling (fn Q.cap user).1).withPending none) := by
  refine Gives.ask hwrap (acquire_zero hpending hroom) fun _ =>
    Gives.bind (gives_filling hwrap _) ?_
  have habort : Gives (do
      let _ ← Client.ask Call.abort
      Pure.pure (some (n, (fn Q.cap user).2))) (Q.filling (fn Q.cap user).1)
        (some (n, (fn Q.cap user).2)) ((Q.filling (fn Q.cap user).1).withPending none) :=
    Gives.ask hwrap rfl fun _ => Gives.pure _ _
  simp only [Filled.refused, Bool.or_eq_true, Bool.and_eq_true, beq_iff_eq] at hrefused
  dsimp only
  by_cases hok : (!(fn Q.cap user).1.ok) = true
  · rw [if_pos hok]
    exact habort
  · rw [if_neg hok, if_pos (hrefused.resolve_left hok)]
    exact habort

/-- A round that publishes a message; `hnext` is how the loop goes on. -/
theorem gives_flush_sent (hrefused : (fn Q.cap user).1.refused = false)
    {result : Option (UInt32 × σ)} {Q' : Queue}
    (hnext : Gives (if (fn Q.cap user).1.stop then Pure.pure (some (n + 1, (fn Q.cap user).2))
      else flushLoop fn fuel (n + 1) (fn Q.cap user).2) (Q.sent (fn Q.cap user).1) result Q') :
    Gives (flushLoop fn (fuel + 1) n user) Q result Q' := by
  refine Gives.ask hwrap (acquire_zero hpending hroom) fun _ =>
    Gives.bind (gives_filling hwrap _) ?_
  simp only [Filled.refused, Bool.or_eq_false_iff, Bool.and_eq_false_iff, beq_eq_false_iff_ne]
    at hrefused
  dsimp only
  rw [if_neg (by simp [hrefused.1]), if_neg (by rintro ⟨hlen, hstop⟩; simp_all)]
  exact Gives.ask hwrap (Q.publishEx_filling _ rfl) fun _ => hnext

end Flush

/-- What a flush leaves behind: the messages are in the queue and no reservation is
pending. -/
structure Flushed (Q : Queue) (sent : List Filled) (Q' : Queue) : Prop where
  slots : Q'.slots = Q.slots
  cap : Q'.cap = Q.cap
  messages : Q'.messages = Q.messages ++ sent.mapIdx Q.outgoing
  pending : Q'.pending = none
  published : Q'.published = Q.published + sent.length

theorem Flushed.cons {Q Q' : Queue} {a : Filled} {rest : List Filled}
    (hflushed : (Q.sent a).Flushed rest Q') (hrest : rest.length < Q.slots.toNat) :
    Q.Flushed (a :: rest) Q' where
  slots := hflushed.slots
  cap := hflushed.cap
  messages := by
    rw [hflushed.messages, mapIdx_outgoing_sent Q a hrest, List.mapIdx_cons]
    exact List.append_assoc Q.messages [_] _
  pending := hflushed.pending
  published := by
    rw [hflushed.published, List.length_cons, Nat.add_comm rest.length, ← Nat.add_assoc]
    rfl

/-- The loop of `rb_flush`, where the queue has room for `room` more messages. The
induction is on the room. -/
theorem gives_flushLoop {σ : Type} (fn : FlushFn σ) (room : Nat) {fuel : Nat}
    (hfuel : room < fuel) (n : UInt32) (user : σ) {Q : Queue} (hpending : Q.pending = none)
    (hroom : Q.messages.length + room = Q.limit.toNat) (hslots : Q.limit.toNat ≤ Q.slots.toNat)
    (hwrap : WrapSafe Q.slots
      (Q.published + (accepted (fn.answers Q.cap room user)).length)) :
    ∃ Q', Gives (flushLoop fn fuel n user) Q
        (some (n + UInt32.ofNat (accepted (fn.answers Q.cap room user)).length,
          fn.after Q.cap (asked (fn.answers Q.cap room user)).length user)) Q' ∧
      Q.Flushed (accepted (fn.answers Q.cap room user)) Q' := by
  have hnow : WrapSafe Q.slots Q.published := hwrap.mono (Nat.le_add_right _ _)
  obtain ⟨fuel, rfl⟩ : ∃ k, fuel = k + 1 := ⟨fuel - 1, by omega⟩
  induction room generalizing fuel n user Q with
  | zero =>
      have hcall : Q.call (.acquire 0) = (.code .full, Q) := by
        simp [call, acquire, hpending, show Q.messages.length = Q.limit.toNat from hroom]
      refine ⟨Q, Gives.ask hnow hcall fun _ => ?_, ⟨rfl, rfl,
        by simp [accepted, FlushFn.answers, asked], hpending, rfl⟩⟩
      simpa [FlushFn.answers, accepted, asked, FlushFn.after] using Gives.pure _ Q
  | succ room ih =>
      have hone : Q.messages.length < Q.limit.toNat := by omega
      rw [FlushFn.answers] at hwrap ⊢
      cases hrefused : (fn Q.cap user).1.refused with
      | true =>
          have hgives := gives_flush_refused fn fuel n user hpending hone hnow hrefused
          rw [accepted_refused hrefused]
          refine ⟨(Q.filling (fn Q.cap user).1).withPending none, ?_,
            ⟨rfl, rfl, (List.append_nil _).symm, rfl, rfl⟩⟩
          simpa [asked, hrefused, FlushFn.after] using hgives
      | false =>
          cases hstop : (fn Q.cap user).1.stop with
          | true =>
              rw [accepted_stop hrefused hstop]
              refine ⟨Q.sent (fn Q.cap user).1,
                gives_flush_sent fn _ n user hpending hone hnow hrefused ?_,
                ⟨rfl, rfl, rfl, rfl, rfl⟩⟩
              rw [if_pos hstop]
              simpa [asked, hstop, FlushFn.after] using Gives.pure _ _
          | false =>
              rw [accepted_go hrefused hstop] at hwrap ⊢
              obtain ⟨fuel, rfl⟩ : ∃ k, fuel = k + 1 := ⟨fuel - 1, by omega⟩
              have hlater : WrapSafe Q.slots (Q.published + 1 +
                  (accepted (fn.answers Q.cap room (fn Q.cap user).2)).length) := by
                rwa [List.length_cons, Nat.add_comm _ 1, ← Nat.add_assoc] at hwrap
              have hroom' : (Q.sent (fn Q.cap user).1).messages.length + room = Q.limit.toNat := by
                change (Q.messages ++ [_]).length + room = _
                rw [List.length_append, List.length_singleton]
                omega
              obtain ⟨Q', hgives, hflushed⟩ := ih (n + 1) (fn Q.cap user).2
                (Q := Q.sent (fn Q.cap user).1) rfl hroom' hslots hlater
                (hlater.mono (Nat.le_add_right _ _)) fuel (by omega)
              simp only [sent_cap] at hgives hflushed
              refine ⟨Q', gives_flush_sent fn _ n user hpending hone hnow hrefused ?_, ?_⟩
              · rw [if_neg (by simp [hstop])]
                rw [one_add_ofNat] at hgives
                simpa [asked, hrefused, hstop, FlushFn.after] using hgives
              · have hlength := accepted_length_le (fn.answers Q.cap room (fn Q.cap user).2)
                rw [fn.answers_length] at hlength
                exact hflushed.cons (by omega)

/-! ## Draining -/

/-- The queue without its first messages. -/
def dropped (Q : Queue) (k : Nat) : Queue := { Q with messages := Q.messages.drop k }

/-- A callback reads bytes of the message the consumer holds. -/
theorem gives_readBytes {Q : Queue} {front : Message} {rest : List Message} (hheld : Q.held = true)
    (hmessages : Q.messages = front :: rest) (hwrap : WrapSafe Q.slots Q.published)
    {offsets : List Nat} (hoffsets : ∀ k ∈ offsets, k < Q.cap.toNat) :
    Gives (readBytes offsets) Q (offsets.map front.payload) Q := by
  induction offsets with
  | nil => exact Gives.pure _ _
  | cons offset offsets ih =>
      obtain ⟨hoffset, hrest⟩ := List.forall_mem_cons.mp hoffsets
      have hcall : Q.call (.read offset) = (.byte (front.payload offset), Q) := by
        simp [call, read, hheld, hmessages, hoffset]
      exact Gives.ask hwrap hcall fun _ => Gives.bind (ih hrest) (Gives.pure _ _)

/-- No message is longer than its slot. -/
def Fits (Q : Queue) : Prop := ∀ m ∈ Q.messages, m.len.toNat ≤ Q.cap.toNat

theorem Fits.flushed {Q Q' : Queue} {sent : List Filled} (hfits : Q.Fits)
    (hflushed : Q.Flushed sent Q') : Q'.Fits := by
  intro m hm
  rw [hflushed.messages, List.mem_append] at hm
  rw [hflushed.cap]
  rcases hm with hold | hnew
  · exact hfits m hold
  · obtain ⟨k, hk, rfl⟩ := List.mem_mapIdx.mp hnew
    have hmin := Nat.min_le_right sent[k].len.toNat Q.cap.toNat
    have hlt := Q.cap.toNat_lt
    rw [outgoing, Counter.toNat_of_lt (by omega)]
    exact hmin

theorem Fits.dropped {Q : Queue} (hfits : Q.Fits) (k : Nat) : (Q.dropped k).Fits :=
  fun m hm => hfits m (List.mem_of_mem_drop hm)

/-- The loop of `rb_drain`. The induction is on the messages that wait. -/
theorem gives_drainLoop {σ : Type} (fn : DrainFn σ) {fuel : Nat} (n : UInt32) (user : σ)
    {Q : Queue} (hfuel : Q.messages.length < fuel) (hheld : Q.held = false)
    (hfits : Q.Fits) (hwrap : WrapSafe Q.slots Q.published) :
    Gives (drainLoop fn fuel n user) Q
      (some (n + UInt32.ofNat (fn.handed (Q.messages.map Message.parcel) user).1,
        (fn.handed (Q.messages.map Message.parcel) user).2))
      (Q.dropped (fn.handed (Q.messages.map Message.parcel) user).1) := by
  obtain ⟨fuel, rfl⟩ : ∃ k, fuel = k + 1 := ⟨fuel - 1, by omega⟩
  unfold Fits at hfits
  generalize hmessages : Q.messages = messages at hfuel hfits ⊢
  induction messages generalizing fuel n user Q with
  | nil =>
      have hcall : Q.call .consume = (.code .empty, Q) := by
        simp [call, consume, hheld, hmessages]
      have hsame : Q.dropped 0 = Q := by simp [dropped]
      refine Gives.ask hwrap hcall fun _ => ?_
      simpa [DrainFn.handed, hsame] using Gives.pure _ Q
  | cons front rest ih =>
      obtain ⟨hfront, hrest⟩ := List.forall_mem_cons.mp hfits
      have hconsume : Q.call .consume =
          (.message front.slotIndex front.len front.truncated, Q.hold) := by
        simp [call, consume, hheld, hmessages]
      have hread : Gives (readBytes (List.range front.len.toNat)) Q.hold front.parcel.obj Q.hold :=
        gives_readBytes (Q := Q.hold) rfl hmessages hwrap fun k hk =>
          (List.mem_range.mp hk).trans_le hfront
      have hrelease : Q.hold.call (.release front.slotIndex) = (.code .ok, Q.dropped 1) := by
        simp [call, release, hold, hmessages, withFront, dropped, hheld]
      refine Gives.ask hwrap hconsume fun _ => Gives.bind hread ?_
      refine Gives.ask hwrap hrelease fun _ => ?_
      have hlater : (Q.dropped 1).messages = rest := by simp [dropped, hmessages]
      rw [List.map_cons]
      split_ifs with hcont
      · obtain ⟨fuel, rfl⟩ : ∃ k, fuel = k + 1 := ⟨fuel - 1, by
          rw [List.length_cons] at hfuel
          omega⟩
        have hgives := ih (n + 1) (fn front.parcel.obj front.len front.truncated user).2
          (Q := Q.dropped 1) hheld hwrap fuel hlater (by simpa using hfuel) hrest
        have hdropped : ∀ k, (Q.dropped 1).dropped k = Q.dropped (k + 1) := by
          intro k
          simp [dropped]
        rw [hdropped, one_add_ofNat] at hgives
        rw [fn.handed_go (m := front.parcel) _ hcont]
        exact hgives
      · rw [fn.handed_stop (m := front.parcel) _ hcont]
        exact Gives.pure _ _

end Queue

end RingBuff
