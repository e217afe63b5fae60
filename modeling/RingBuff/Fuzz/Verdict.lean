import RingBuff.Fuzz.Harness

/-! # The verdict of the fuzz target

The count the target keeps is the number of messages in the queue, and a slot it holds is
the reservation that is pending. Every turn of the loop keeps this, except for one that drains
a message: the count stays as it was, and the check at the end of the turn fails. So the target
aborts exactly on the inputs that make it call `drain_one`, and returns on all others.
-/

namespace RingBuff

/-! ## Stores into the message in hand -/

/-- A message after a store into a slot. -/
def Message.touched (slotIndex : UInt32) (offset : Nat) (byte : UInt8) (m : Message) : Message :=
  { m with
    payload := if m.slotIndex = slotIndex then Function.update m.payload offset byte
      else m.payload }

/-- The queue after a store into a slot. -/
def Queue.touched (Q : Queue) (slotIndex : UInt32) (offset : Nat) (byte : UInt8) : Queue :=
  { Q.setByte slotIndex offset byte with
    messages := Q.messages.map (Message.touched slotIndex offset byte) }

/-- What a store leaves alone. -/
def Queue.shape (Q : Queue) : UInt32 × UInt32 × Nat × Bool × List UInt32 :=
  (Q.slots, Q.cap, Q.published, Q.held, Q.messages.map Message.slotIndex)

theorem Queue.shape_touched (Q : Queue) (slotIndex : UInt32) (offset : Nat) (byte : UInt8) :
    (Q.touched slotIndex offset byte).shape = Q.shape := by
  simp only [shape, touched, setByte, List.map_map]
  rfl

theorem Ledger.queue_touched (L : Ledger) (slotIndex : UInt32) (offset : Nat) (byte : UInt8) :
    (L.setByte slotIndex offset byte).queue = L.queue.touched slotIndex offset byte := by
  have hmessage : ∀ p, (L.setByte slotIndex offset byte).messageAt p =
      (L.messageAt p).touched slotIndex offset byte := by
    intro p
    refine congrArg (Message.mk _ _ _) ?_
    change Function.update L.payload slotIndex _ (L.slotFor p) =
      if L.slotFor p = slotIndex then _ else _
    split_ifs with heq
    · change _ = Function.update (L.payload (L.slotFor p)) offset byte
      rw [heq, Function.update_self]
    · exact Function.update_of_ne heq _ _
  have hmessages : (L.setByte slotIndex offset byte).queue.messages =
      L.queue.messages.map (Message.touched slotIndex offset byte) := by
    simp only [Ledger.queue, List.map_map]
    exact List.map_congr_left fun p _ => hmessage p
  exact congrArg (fun messages => { L.queue.setByte slotIndex offset byte with messages }) hmessages

namespace Fuzz

/-- The ledger under calls and stores into the message in hand. -/
def storedLedger : Automaton Ledger Action Output where
  step L
    | .call c => ledger.step L c
    | .store offset byte => L.held.bind fun slotIndex =>
        if offset < L.cap.toNat then
          some ((.code .ok, []), L.setByte slotIndex offset byte)
        else none

theorem storedLedger_slots {L L' : Ledger} {a : Action} {output : Output}
    (hstep : storedLedger.step L a = some (output, L')) : L'.slots = L.slots := by
  cases a with
  | call c =>
      obtain ⟨-, rfl⟩ := ledger_step_eq_some.mp hstep
      exact L.call_slots c
  | store offset byte =>
      obtain ⟨slotIndex, -, hstore⟩ := Option.bind_eq_some_iff.mp hstep
      split_ifs at hstore
      obtain ⟨-, rfl⟩ := Prod.mk.inj (Option.some.inj hstore)
      rfl

/-- Eight divides the range of the positions. -/
theorem wrapSafe {slots : UInt32} {published : Nat} (hslots : slots = 8) :
    WrapSafe slots published :=
  Or.inl (by rw [hslots]; decide)

section Ring

variable {b : Build} {geo : Geometry} {rb : Rb} {L : Ledger} (hgeo : geo.Sound b)
  (haddr : b.mode = .pointer → geo.Addressable b)

include hgeo haddr

/-- The ring does what the ledger does. -/
theorem tracks_stored (htracks : Tracks b geo rb L) (hwrap : WrapSafe L.slots L.head)
    {a : Action} {output : Output} {L' : Ledger}
    (hstep : storedLedger.step L a = some (output, L')) :
    ∃ rb', (storedRing b).step rb a = some (output, rb') ∧ Tracks b geo rb' L' := by
  cases a with
  | call c =>
      obtain ⟨rfl, rfl⟩ := ledger_step_eq_some.mp hstep
      exact htracks.call_exact hgeo haddr (fun _ => hwrap) c
  | store offset byte =>
      obtain ⟨slotIndex, hheld, hstore⟩ := Option.bind_eq_some_iff.mp hstep
      split_ifs at hstore with hoffset
      obtain ⟨rfl, rfl⟩ := Prod.mk.inj (Option.some.inj hstore)
      obtain ⟨rfl, hok, hrep⟩ := htracks
      have hactive : rb.consumerActive ≠ 0 := hrep.active_ne.mpr (by rw [hheld]; rfl)
      have hslot := hrep.held slotIndex hheld
      have hcap : offset < (payloadCap b rb.geo).toNat := hrep.cap ▸ hoffset
      have hlt : rb.consumerSlot.toNat < rb.geo.slots.toNat := by
        rw [hslot, (hok.held_slot slotIndex hheld).1]
        exact hrep.slotFor_lt hok _
      refine ⟨{ rb with store := rb.store.setPayload b rb.geo rb.consumerSlot offset byte },
        ?_, rfl, { hok with }, ?_⟩
      · change (storeHeld b rb offset byte).map _ = _
        rw [storeHeld, if_pos ⟨hactive, hcap⟩]
        rfl
      · rw [← hslot]
        exact hrep.setByte hok hgeo hlt hcap byte

/-- A program on eight slots gets from the ring what it gets from the ledger. -/
theorem exec_stored {α : Type} (htracks : Tracks b geo rb L) (hslots : L.slots = 8)
    {p : Program α} {e : Execution Action Output α Ledger}
    (hexec : storedLedger.exec p L = some e) :
    ∃ rb', (storedRing b).exec p rb = some ⟨e.trace, e.result, rb'⟩ := by
  have hrun := storedLedger.run_simulation (storedRing b) (fun _ => True)
    (fun L rb => L.slots = 8 ∧ Tracks b geo rb L) (fun _ _ => trivial) ?_
    (storedLedger.run_of_exec hexec) trivial ⟨hslots, htracks⟩
  · obtain ⟨rb', hrun, -⟩ := hrun
    exact ⟨rb', storedLedger.exec_replay (storedRing b) hexec hrun⟩
  · rintro L rb a output L' ⟨hslots, htracks⟩ - hstep
    obtain ⟨rb', hring, htracks'⟩ := tracks_stored hgeo haddr htracks (wrapSafe hslots) hstep
    exact ⟨rb', hring, (storedLedger_slots hstep).trans hslots, htracks'⟩

end Ring

/-- The program ends with the result and the second queue, from every ledger that stands for
the first, and whether it stores into a message on the way. -/
def Runs {α : Type} (p : Program α) (Q : Queue) (result : α) (Q' : Queue) (stores : Bool) : Prop :=
  ∀ L, Stands L Q → ∃ e, storedLedger.exec p L = some e ∧ e.result = result ∧
    Stands e.last Q' ∧ (e.trace.any fun x => x.1.isStore) = stores

namespace Runs

variable {α β : Type} {Q Q₁ Q₂ : Queue} {stores stores' : Bool}

theorem pure (result : α) (Q : Queue) : Runs (Pure.pure result) Q result Q false :=
  fun _ hstands => ⟨_, rfl, rfl, hstands, rfl⟩

theorem bind {p : Program α} {f : α → Program β} {first : α} {second : β}
    (hfirst : Runs p Q first Q₁ stores) (hsecond : Runs (f first) Q₁ second Q₂ stores') :
    Runs (p >>= f) Q second Q₂ (stores || stores') := by
  intro L hstands
  obtain ⟨e, hexec, rfl, hmiddle, rfl⟩ := hfirst L hstands
  obtain ⟨e', hexec', hresult, hlast, rfl⟩ := hsecond e.last hmiddle
  exact ⟨_, storedLedger.exec_bind hexec hexec', hresult, hlast, List.any_append⟩

/-- Calls store into no message. -/
theorem calls {p : Session α} {result : α} (hgives : Gives p Q result Q₁) :
    Runs (Fuzz.calls p) Q result Q₁ false := by
  intro L hstands
  obtain ⟨e, hexec, hresult, hlast⟩ := hgives L hstands
  refine ⟨_, ledger.exec_mapInput storedLedger (fun _ _ => rfl) hexec, hresult, hlast, ?_⟩
  simp [List.any_map, Action.isStore, Function.comp_def]

/-- One call. -/
theorem ask {c : Call} {f : Output → Program α} {result : α} {reply : Reply}
    (hwrap : WrapSafe Q.slots Q.published) (hcall : Q.call c = (reply, Q₁))
    (hnext : ∀ events, Runs (f (reply, events)) Q₁ result Q₂ stores) :
    Runs (Client.ask (.call c) >>= f) Q result Q₂ stores := by
  intro L hstands
  obtain ⟨hreply, hmiddle⟩ := hstands.call hwrap c
  rw [hcall] at hreply hmiddle
  obtain rfl : (L.call c).1.1 = reply := hreply
  obtain ⟨e, hexec, hresult, hlast, rfl⟩ := hnext (L.call c).1.2 _ hmiddle
  exact ⟨_, storedLedger.exec_call_eq_some.mpr ⟨_, _, e, rfl, hexec, rfl⟩, hresult, hlast, rfl⟩

/-- One store into the message in hand. -/
theorem store {front : Message} {rest : List Message} (hheld : Q.held = true)
    (hmessages : Q.messages = front :: rest) {offset : Nat} (hoffset : offset < Q.cap.toNat)
    (byte : UInt8) {f : Output → Program α} {result : α}
    (hnext : Runs (f (.code .ok, [])) (Q.touched front.slotIndex offset byte) result Q₁ stores) :
    Runs (Client.ask (.store offset byte) >>= f) Q result Q₁ true := by
  rintro L ⟨hok, hshort, rfl⟩
  obtain ⟨slotIndex, hslot⟩ := Option.isSome_iff_exists.mp hheld
  have hfront : slotIndex = front.slotIndex := by
    obtain ⟨hat, hlt⟩ := hok.held_slot slotIndex hslot
    have hhead := congrArg List.head? hmessages
    have hcount : L.count = L.count - 1 + 1 := by
      have hle := hok.cachedHead_le
      unfold Ledger.count
      omega
    rw [Ledger.queue, hcount, List.range'_succ] at hhead
    rw [hat, ← Option.some.inj hhead]
    rfl
  have hstep : storedLedger.step L (.store offset byte) =
      some ((.code .ok, []), L.setByte slotIndex offset byte) := by
    change L.held.bind _ = _
    rw [hslot, Option.bind_some]
    exact if_pos hoffset
  obtain ⟨e, hexec, hresult, hlast, -⟩ := hnext (L.setByte slotIndex offset byte)
    ⟨{ hok with }, hshort, by rw [L.queue_touched, hfront]⟩
  exact ⟨_, storedLedger.exec_call_eq_some.mpr ⟨_, _, e, hstep, hexec, rfl⟩, hresult, hlast, rfl⟩

end Runs

/-! ## The callback -/

theorem runs_storeBytes {Q : Queue} {stores : List (Nat × UInt8)} (hne : stores ≠ [])
    (hoffsets : ∀ x ∈ stores, x.1 < Q.cap.toNat) (hheld : Q.held = true) {front : Message}
    {rest : List Message} (hmessages : Q.messages = front :: rest) :
    ∃ Q', Runs (storeBytes stores) Q () Q' true ∧ Q'.shape = Q.shape := by
  induction stores generalizing Q front rest with
  | nil => exact absurd rfl hne
  | cons x later ih =>
      obtain ⟨offset, byte⟩ := x
      obtain ⟨hoffset, hlater⟩ := List.forall_mem_cons.mp hoffsets
      have htouched : (Q.touched front.slotIndex offset byte).messages =
          front.touched front.slotIndex offset byte ::
            rest.map (Message.touched front.slotIndex offset byte) := by
        rw [Queue.touched, hmessages]
        rfl
      have hshape := Q.shape_touched front.slotIndex offset byte
      cases later with
      | nil => exact ⟨_, Runs.store hheld hmessages hoffset byte (Runs.pure () _), hshape⟩
      | cons y later =>
          obtain ⟨Q', hruns, hsame⟩ := ih (Q := Q.touched front.slotIndex offset byte)
            (List.cons_ne_nil _ _) hlater hheld htouched
          exact ⟨Q', Runs.store hheld hmessages hoffset byte hruns, hsame.trans hshape⟩

/-- `drain_one` stores into the message, goes on and counts nothing. -/
theorem runs_drainOne {Q : Queue} (hcap : 4 ≤ Q.cap.toNat) (hheld : Q.held = true)
    {front : Message} {rest : List Message} (hmessages : Q.messages = front :: rest)
    (hwrap : WrapSafe Q.slots Q.published) (len : UInt32) (truncated : Bool) (drained : UInt32) :
    ∃ Q', Runs (drainOne len truncated drained) Q (true, drained) Q' true ∧
      Q'.shape = Q.shape := by
  have hbytes : Gives (readBytes (List.range 4)) Q ((List.range 4).map front.payload) Q :=
    Queue.gives_readBytes hheld hmessages hwrap fun k hk => (List.mem_range.mp hk).trans_le hcap
  have hoffsets : ∀ count : UInt32,
      ∀ x ∈ (List.range 4).map fun k => (k, Memory.wordByte count k), x.1 < Q.cap.toNat := by
    intro count x hx
    obtain ⟨k, hk, rfl⟩ := List.mem_map.mp hx
    exact (List.mem_range.mp hk).trans_le hcap
  obtain ⟨Q', hruns, hshape⟩ := runs_storeBytes (by simp) (hoffsets _) hheld hmessages
  exact ⟨Q', Runs.bind (Runs.calls hbytes) (Runs.bind hruns (Runs.pure _ _)), hshape⟩

/-- The slots of the messages that wait. -/
theorem messages_of_shape {Q : Queue} {slots cap : UInt32} {published : Nat} {held : Bool}
    {front : UInt32} {rest : List UInt32}
    (hshape : Q.shape = (slots, cap, published, held, front :: rest)) :
    ∃ m later, Q.messages = m :: later ∧ m.slotIndex = front ∧
      later.map Message.slotIndex = rest := by
  simp only [Queue.shape, Prod.mk.injEq] at hshape
  obtain ⟨m, later, hmessages, hfront, hlater⟩ := List.map_eq_cons_iff.mp hshape.2.2.2.2
  exact ⟨m, later, hmessages, hfront, hlater⟩

theorem call_consume_nil {Q : Queue} (hheld : Q.held = false) (hmessages : Q.messages = []) :
    Q.call .consume = (.code .empty, Q) := by
  simp [Queue.call, Queue.consume, hheld, hmessages]

theorem call_consume_cons {Q : Queue} (hheld : Q.held = false) {front : Message}
    {rest : List Message} (hmessages : Q.messages = front :: rest) :
    Q.call .consume = (.message front.slotIndex front.len front.truncated, Q.hold) := by
  simp [Queue.call, Queue.consume, hheld, hmessages]

/-- Nothing to drain. -/
theorem runs_drainLoop_nil {Q : Queue} (hslots : Q.slots = 8) (hheld : Q.held = false)
    (hmessages : Q.messages = []) {fuel : Nat} (hfuel : 0 < fuel) (n drained : UInt32) :
    Runs (drainLoop drainOne fuel n drained) Q (some (n, drained)) Q false := by
  obtain ⟨fuel, rfl⟩ : ∃ k, fuel = k + 1 := ⟨fuel - 1, (Nat.succ_pred_eq_of_pos hfuel).symm⟩
  exact Runs.ask (wrapSafe hslots) (call_consume_nil hheld hmessages) fun _ => Runs.pure _ _

/-- `rb_drain` with `drain_one` empties the ring and leaves the counter alone. The induction
is on the messages that wait. -/
theorem runs_drainLoop {cap : UInt32} (hcap : 4 ≤ cap.toNat) {published : Nat}
    (waiting : List UInt32) {fuel : Nat} (hfuel : waiting.length < fuel) (n drained : UInt32)
    {Q : Queue} (hshape : Q.shape = (8, cap, published, false, waiting)) :
    ∃ n' Q', Runs (drainLoop drainOne fuel n drained) Q (some (n', drained)) Q'
        (!waiting.isEmpty) ∧ Q'.shape = (8, cap, published, false, []) := by
  induction waiting generalizing fuel n Q with
  | nil =>
      have hsame := hshape
      simp only [Queue.shape, Prod.mk.injEq] at hsame
      obtain ⟨hslots, -, -, hheld, hwaiting⟩ := hsame
      have hmessages := List.map_eq_nil_iff.mp hwaiting
      exact ⟨n, Q, runs_drainLoop_nil hslots hheld hmessages hfuel n drained, hshape⟩
  | cons front rest ih =>
      rw [List.length_cons] at hfuel
      obtain ⟨fuel, rfl⟩ : ∃ k, fuel = k + 1 := ⟨fuel - 1, by omega⟩
      obtain ⟨m, later, hmessages, rfl, hlater⟩ := messages_of_shape hshape
      simp only [Queue.shape, Prod.mk.injEq] at hshape
      obtain ⟨hslots, rfl, rfl, hheld, hwaiting⟩ := hshape
      have hwrap : WrapSafe Q.slots Q.published := wrapSafe hslots
      have hconsume := call_consume_cons hheld hmessages
      obtain ⟨Q₁, hone, hshape₁⟩ := runs_drainOne (Q := Q.hold) hcap rfl hmessages hwrap
        m.len m.truncated drained
      have hheld₁ : Q₁.shape = (8, Q.cap, Q.published, true, m.slotIndex :: rest) := by
        rw [hshape₁, Queue.shape]
        exact congrArg₂ (fun slots waiting => (slots, Q.cap, Q.published, true, waiting))
          hslots hwaiting
      obtain ⟨m₁, later₁, hmessages₁, hfront₁, hlater₁⟩ := messages_of_shape hheld₁
      simp only [Queue.shape, Prod.mk.injEq] at hheld₁
      obtain ⟨hslots₁, hcap₁, hpublished₁, hheld₁, -⟩ := hheld₁
      have hrelease : Q₁.call (.release m.slotIndex) = (.code .ok, Q₁.withFront later₁) := by
        simp [Queue.call, Queue.release, hheld₁, hmessages₁, hfront₁]
      have hafter : (Q₁.withFront later₁).shape = (8, Q.cap, Q.published, false, rest) := by
        simp only [Queue.shape, Prod.mk.injEq]
        exact ⟨hslots₁, hcap₁, hpublished₁, rfl, hlater₁⟩
      have hwrap₁ : WrapSafe Q₁.slots Q₁.published := wrapSafe hslots₁
      obtain ⟨n', Q', hloop, hend⟩ := ih (by omega : rest.length < fuel) (n + 1) hafter
      refine ⟨n', Q', Runs.ask hwrap hconsume fun _ => ?_, hend⟩
      exact Runs.bind hone (Runs.ask hwrap₁ hrelease fun _ => hloop)

/-! ## The loop -/

/-- The slot the target holds. -/
inductive Holds (Q : Queue) (st : State) : Prop where
  | nothing (hheld : st.held = noneHeld) (hpending : Q.pending = none)
  | slot {wanted : UInt32} (hheld : st.held ≠ noneHeld)
      (hpending : Q.pending = some (st.held, wanted)) (hcap : st.cap = Q.cap)
      (hroom : Q.messages.length < 8)

/-- The variables of the target and the queue it uses. -/
structure Follows (Q : Queue) (st : State) : Prop where
  slots : Q.slots = 8
  limit : Q.limit = 8
  cap : 4 ≤ Q.cap.toNat
  free : Q.held = false
  room : Q.messages.length ≤ 8
  count : st.modelCount = UInt32.ofNat Q.messages.length
  holds : Holds Q st

variable {Q : Queue} {st : State}

namespace Follows

theorem count_toNat (hfollows : Follows Q st) : st.modelCount.toNat = Q.messages.length := by
  have hroom := hfollows.room
  rw [hfollows.count, Counter.toNat_of_lt (by omega)]

theorem not_capacity_lt (hfollows : Follows Q st) : ¬ (8 : UInt32) < st.modelCount := by
  rw [UInt32.lt_iff_toNat_lt, hfollows.count_toNat]
  exact Nat.not_lt.mpr hfollows.room

theorem gives_askCount (hslots : Q.slots = 8) :
    Gives askCount Q (UInt32.ofNat Q.messages.length) Q :=
  Gives.ask (wrapSafe hslots) rfl fun _ => Gives.pure _ _

/-- The check at the end of a turn. -/
theorem gives_agrees (hfollows : Follows Q st) : Gives (agrees 8 st.modelCount) Q true Q := by
  have hcount := gives_askCount hfollows.slots
  rw [← hfollows.count] at hcount
  refine Gives.bind hcount ?_
  rw [if_neg (not_not.mpr rfl)]
  refine Gives.bind hcount ?_
  simp only [hfollows.not_capacity_lt, decide_false, Bool.not_false]
  exact Gives.pure _ _

theorem moved (hfollows : Follows Q st) (pos : Nat) : Follows Q { st with pos } := by
  refine { hfollows with holds := ?_ }
  obtain ⟨hheld, hpending⟩ | ⟨hheld, hpending, hcap, hroom⟩ := hfollows.holds
  · exact .nothing hheld hpending
  · exact .slot hheld hpending hcap hroom

/-- The queue without a reservation. -/
theorem aborted (hfollows : Follows Q st) (pos : Nat) :
    Follows (Q.withPending none) { st with pos, held := noneHeld, cap := 0 } :=
  { hfollows with holds := .nothing rfl rfl }

theorem call_abort {slot wanted : UInt32} (hpending : Q.pending = some (slot, wanted)) :
    Q.call .abort = (.code .ok, Q.withPending none) := by
  simp [Queue.call, Queue.abort, hpending]

theorem call_publish {slot wanted : UInt32} (hpending : Q.pending = some (slot, wanted))
    (n : UInt32) : Q.call (.publish slot n) =
      (.code .ok, Q.push (Q.message slot wanted n false)) := by
  simp [Queue.call, Queue.publishEx, hpending]

/-- The target publishes what it has written into the slot it holds. -/
theorem published (hfollows : Follows Q st) (hroom : Q.messages.length < 8) (pos : Nat)
    (bytes : Nat → UInt8) (slot wanted n : UInt32) (t : Bool) :
    Follows ((Q.withBytes slot bytes).push ((Q.withBytes slot bytes).message slot wanted n t))
      { st with pos, held := noneHeld, cap := 0, modelCount := st.modelCount + 1 } where
  slots := hfollows.slots
  limit := hfollows.limit
  cap := hfollows.cap
  free := hfollows.free
  room := by
    change (Q.messages ++ [_]).length ≤ 8
    rw [List.length_append]
    exact hroom
  count := by
    change st.modelCount + 1 = UInt32.ofNat (Q.messages ++ [_]).length
    rw [List.length_append, hfollows.count]
    exact (Counter.ofNat_succ _).symm
  holds := .nothing rfl rfl

theorem publishOrAbort (hfollows : Follows Q st) {wanted : UInt32}
    (hpending : Q.pending = some (st.held, wanted)) (hroom : Q.messages.length < 8)
    (data : List UInt8) : ∃ st' Q', Gives (Fuzz.publishOrAbort data st) Q st' Q' ∧
      Follows Q' { st' with held := noneHeld, cap := 0 } ∧ st.pos ≤ st'.pos := by
  have hwrap : WrapSafe Q.slots Q.published := wrapSafe hfollows.slots
  unfold Fuzz.publishOrAbort
  generalize (byteAt data st.pos).toUInt32 % (st.cap + 1) = n
  dsimp only
  split_ifs
  · have hwrite := Queue.gives_writeBytes hpending hwrap
      ((List.range n.toNat).map fun k => (k, byteAt data 0))
    generalize overwrite _ _ _ = bytes at hwrite
    have hpublish := call_publish (Q := Q.withBytes st.held bytes) hpending n
    exact ⟨{ st with pos := st.pos + 1, modelCount := st.modelCount + 1 }, _,
      Gives.bind hwrite (Gives.ask hwrap hpublish fun _ => Gives.pure _ _),
      hfollows.published hroom _ _ _ _ _ _, Nat.le_succ _⟩
  · exact ⟨{ st with pos := st.pos + 1 }, _,
      Gives.ask hwrap (call_abort hpending) fun _ => Gives.pure _ _,
      hfollows.aborted _, Nat.le_succ _⟩

theorem settle (hfollows : Follows Q st) (hheld : st.held ≠ noneHeld) (data : List UInt8)
    (op : UInt8) : ∃ st' Q', Gives (Fuzz.settle data op st) Q st' Q' ∧ Follows Q' st' ∧
      st.pos ≤ st'.pos := by
  obtain ⟨hnone, -⟩ | ⟨-, hpending, hcap, hroom⟩ := hfollows.holds
  · exact absurd hnone hheld
  unfold Fuzz.settle
  split_ifs
  · obtain ⟨st', Q', hgives, hnext, hpos⟩ := hfollows.publishOrAbort hpending hroom data
    exact ⟨_, Q', Gives.bind hgives (Gives.pure _ _), hnext, hpos⟩
  · exact ⟨_, _, Gives.ask (wrapSafe hfollows.slots) (call_abort hpending) fun _ => Gives.pure _ _,
      hfollows.aborted _, le_rfl⟩

theorem call_acquire (hpending : Q.pending = none) (wanted : UInt32) :
    (∃ err, Q.call (.acquire wanted) = (.code err, Q)) ∨
      Q.messages.length ≠ Q.limit.toNat ∧ Q.call (.acquire wanted) =
        (.reserved Q.nextSlot Q.cap, Q.withPending (some (Q.nextSlot, wanted))) := by
  simp only [Queue.call, Queue.acquire, hpending, Option.isSome_none, Bool.false_eq_true, if_false]
  split_ifs with hfull hover
  · exact Or.inl ⟨_, rfl⟩
  · exact Or.inl ⟨_, rfl⟩
  · exact Or.inr ⟨hfull, rfl⟩

/-- No slot number is `UINT32_MAX`. -/
theorem nextSlot_ne (hslots : Q.slots = 8) : Q.nextSlot ≠ noneHeld := by
  intro heq
  have hnat := congrArg UInt32.toNat heq
  have hlt : Q.published % Q.slots.toNat < 8 := by
    rw [hslots]
    exact Nat.mod_lt _ (by decide)
  rw [Queue.nextSlot, Counter.toNat_of_lt (by omega)] at hnat
  exact absurd (hnat ▸ hlt) (by decide)

theorem acquire (hfollows : Follows Q st) (hheld : st.held = noneHeld) (data : List UInt8) :
    ∃ st' Q', Gives (Fuzz.acquire data st) Q st' Q' ∧ Follows Q' st' ∧ st.pos ≤ st'.pos := by
  obtain ⟨-, hpending⟩ | ⟨hslot, -⟩ := hfollows.holds
  · have hwrap : WrapSafe Q.slots Q.published := wrapSafe hfollows.slots
    unfold Fuzz.acquire
    generalize (byteAt data st.pos).toUInt32 % 96 = wanted
    obtain ⟨err, hcall⟩ | ⟨hroom, hcall⟩ := call_acquire hpending wanted
    · exact ⟨_, Q, Gives.ask hwrap hcall fun _ => Gives.pure _ _, hfollows.moved (st.pos + 1),
        Nat.le_succ _⟩
    · have hlt : Q.messages.length < 8 := by
        rw [hfollows.limit] at hroom
        exact lt_of_le_of_ne hfollows.room hroom
      exact ⟨{ st with pos := st.pos + 1, held := Q.nextSlot, cap := Q.cap }, _,
        Gives.ask hwrap hcall fun _ => Gives.pure _ _,
        { hfollows with holds := .slot (nextSlot_ne hfollows.slots) rfl rfl hlt }, Nat.le_succ _⟩
  · exact absurd hheld hslot

/-- A message less, in the queue and in the count. -/
theorem dropped (hfollows : Follows Q st) (hheld : st.held = noneHeld) {k : Nat}
    (hk : k ≤ Q.messages.length) :
    Follows (Q.dropped k) { st with modelCount := st.modelCount - UInt32.ofNat k } := by
  obtain ⟨-, hpending⟩ | ⟨hslot, -⟩ := hfollows.holds
  · have hroom := hfollows.room
    exact
      { hfollows with
        room := by
          change (Q.messages.drop k).length ≤ 8
          rw [List.length_drop]
          omega
        count := by
          change st.modelCount - _ = UInt32.ofNat (Q.messages.drop k).length
          rw [List.length_drop, hfollows.count]
          apply UInt32.toNat_inj.mp
          rw [Counter.toNat_sub hk (by omega), Counter.toNat_of_lt (by omega)]
        holds := .nothing hheld hpending }
  · exact absurd hheld hslot

theorem consume (hfollows : Follows Q st) (hheld : st.held = noneHeld) :
    ∃ st' Q', Gives (Fuzz.consume st) Q (.ok st') Q' ∧ Follows Q' st' ∧ st.pos ≤ st'.pos := by
  have hwrap : WrapSafe Q.slots Q.published := wrapSafe hfollows.slots
  have hfree := hfollows.free
  unfold Fuzz.consume
  cases hmessages : Q.messages with
  | nil =>
      exact ⟨st, Q, Gives.ask hwrap (call_consume_nil hfree hmessages) fun _ => Gives.pure _ _,
        hfollows, le_rfl⟩
  | cons front rest =>
      have hconsume := call_consume_cons hfree hmessages
      have hrelease : Q.hold.call (.release front.slotIndex) = (.code .ok, Q.dropped 1) := by
        simp [Queue.call, Queue.release, Queue.hold, hmessages, Queue.withFront, Queue.dropped,
          hfree]
      have hcount : st.modelCount ≠ 0 := by
        intro hzero
        have hlength := hfollows.count_toNat
        rw [hzero, hmessages] at hlength
        exact absurd hlength (by simp)
      refine ⟨_, _, Gives.ask hwrap hconsume fun _ => ?_, hfollows.dropped hheld (k := 1) ?_,
        le_rfl⟩
      · dsimp only
        rw [if_neg hcount]
        exact Gives.ask hwrap hrelease fun _ => Gives.pure _ _
      · simp [hmessages]

theorem query (hfollows : Follows Q st) : Gives (Fuzz.query 8 st) Q (.ok st) Q := by
  have hwrap : WrapSafe Q.slots Q.published := wrapSafe hfollows.slots
  have hcount := gives_askCount hfollows.slots
  rw [← hfollows.count] at hcount
  refine Gives.bind hcount (Gives.ask hwrap rfl fun _ => Gives.ask hwrap rfl fun _ => ?_)
  rw [if_neg (not_or.mpr ⟨not_not.mpr rfl, hfollows.not_capacity_lt⟩)]
  exact Gives.pure _ _

/-- The ring is empty and the target still counts messages. -/
structure Drained (Q : Queue) (st : State) : Prop where
  slots : Q.slots = 8
  messages : Q.messages = []
  count : st.modelCount ≠ 0

/-- The check at the end of the turn fails. -/
theorem Drained.gives_agrees (hdrained : Drained Q st) :
    Gives (agrees 8 st.modelCount) Q false Q := by
  have hcount := gives_askCount hdrained.slots
  rw [hdrained.messages] at hcount
  refine Gives.bind hcount ?_
  rw [if_pos fun heq => hdrained.count heq.symm]
  exact Gives.pure _ _

/-- How a part of the target ends: as it should and without a store into a message, or after
such a store with a count that is wrong. -/
def Ends (p : Program (Except Stop State)) (Q : Queue) (pos : Nat) : Prop :=
  (∃ st' Q', Runs p Q (.ok st') Q' false ∧ Follows Q' st' ∧ pos ≤ st'.pos) ∨
    ∃ st' Q', Runs p Q (.ok st') Q' true ∧ Drained Q' st'

/-- The target after `rb_drain`. -/
theorem drain_of_loop {Q' : Queue} {fuel : Nat} {n : UInt32} {stores : Bool} (st : State)
    (hloop : Runs (drainLoop drainOne fuel 0 0) Q (some (n, 0)) Q' stores) :
    Runs (Fuzz.drain fuel st) Q (.ok st) Q' stores := by
  have hsame : { st with modelCount := st.modelCount - 0 } = st := by rw [UInt32.sub_zero]
  rw [← Bool.or_false stores]
  refine Runs.bind hloop ?_
  dsimp only
  rw [if_neg (UInt32.not_lt.mpr UInt32.zero_le), hsame]
  exact Runs.pure _ _

theorem drain (hfollows : Follows Q st) {fuel : Nat} (hfuel : 8 < fuel) :
    Ends (Fuzz.drain fuel st) Q st.pos := by
  have hfree := hfollows.free
  have hlength := hfollows.count_toNat
  have hroom := hfollows.room
  cases hmessages : Q.messages with
  | nil =>
      have hloop := runs_drainLoop_nil hfollows.slots hfree hmessages (by omega : 0 < fuel) 0 0
      exact Or.inl ⟨st, Q, drain_of_loop st hloop, hfollows, le_rfl⟩
  | cons front rest =>
      have hshape : Q.shape =
          (8, Q.cap, Q.published, false, Q.messages.map Message.slotIndex) := by
        rw [Queue.shape, hfollows.slots, hfree]
      obtain ⟨n, Q', hloop, hend⟩ := runs_drainLoop hfollows.cap _
        (by rw [List.length_map]; omega : _ < fuel) 0 0 hshape
      simp only [Queue.shape, Prod.mk.injEq] at hend
      rw [hmessages] at hloop hlength
      refine Or.inr ⟨st, Q', drain_of_loop st hloop, hend.1,
        List.map_eq_nil_iff.mp hend.2.2.2.2, fun hzero => ?_⟩
      rw [hzero] at hlength
      exact absurd hlength (Nat.succ_ne_zero _).symm

section Loop

variable {fuel : Nat} (hfuel : 8 < fuel)

include hfuel

theorem operate (hfollows : Follows Q st) (hheld : st.held = noneHeld) (data : List UInt8)
    (op : UInt8) : Ends (Fuzz.operate 8 data fuel op st) Q st.pos := by
  unfold Fuzz.operate
  split_ifs
  · obtain ⟨st', Q', hgives, hnext⟩ := hfollows.acquire hheld data
    exact Or.inl ⟨st', Q', Runs.bind (Runs.calls hgives) (Runs.pure _ _), hnext⟩
  · obtain ⟨st', Q', hgives, hnext⟩ := hfollows.consume hheld
    exact Or.inl ⟨st', Q', Runs.calls hgives, hnext⟩
  · exact hfollows.drain hfuel
  · exact Or.inl ⟨st, Q, Runs.calls hfollows.query, hfollows, le_rfl⟩

/-- One turn of the loop. -/
theorem body (hfollows : Follows Q st) (data : List UInt8) :
    (∃ st' Q', Runs (Fuzz.body 8 data fuel st) Q (.ok st') Q' false ∧ Follows Q' st' ∧
      st.pos < st'.pos) ∨ ∃ Q', Runs (Fuzz.body 8 data fuel st) Q (.error .aborted) Q' true := by
  have hmoved := hfollows.moved (st.pos + 1)
  unfold Fuzz.body
  dsimp only
  split_ifs with hheld
  · obtain ⟨st', Q', hgives, hnext, hpos⟩ := hmoved.settle hheld data (byteAt data st.pos &&& 3)
    exact Or.inl ⟨st', Q', Runs.bind (Runs.calls hgives) (Runs.pure _ _), hnext, hpos⟩
  · obtain ⟨st', Q', hruns, hnext, hpos⟩ | ⟨st', Q', hruns, hdrained⟩ :=
      hmoved.operate hfuel (not_not.mp hheld) data (byteAt data st.pos &&& 3)
    · refine Or.inl ⟨st', Q', Runs.bind hruns (Runs.bind (Runs.calls hnext.gives_agrees) ?_),
        hnext, hpos⟩
      exact Runs.pure _ _
    · exact Or.inr ⟨Q', Runs.bind hruns
        (Runs.bind (Runs.calls hdrained.gives_agrees) (Runs.pure _ _))⟩

/-- The loop ends, since every turn uses a byte of the input. -/
theorem loop (hfollows : Follows Q st) (data : List UInt8) {n : Nat}
    (hn : data.length ≤ st.pos + n) :
    (∃ st' Q', Runs (Fuzz.loop 8 data fuel n st) Q (.ok st') Q' false ∧ Follows Q' st') ∨
      ∃ Q', Runs (Fuzz.loop 8 data fuel n st) Q (.error .aborted) Q' true := by
  induction n generalizing Q st with
  | zero =>
      have hdone : ¬ st.pos < data.length := Nat.not_lt.mpr hn
      rw [Fuzz.loop, if_neg hdone]
      exact Or.inl ⟨st, Q, Runs.pure _ _, hfollows⟩
  | succ n ih =>
      rw [Fuzz.loop]
      split_ifs
      · obtain ⟨st₁, Q₁, hbody, hnext, hpos⟩ | ⟨Q₁, hbody⟩ := hfollows.body hfuel data
        · obtain ⟨st₂, Q₂, hloop, hlast⟩ | ⟨Q₂, hloop⟩ := ih hnext (by omega)
          · exact Or.inl ⟨st₂, Q₂, Runs.bind hbody hloop, hlast⟩
          · exact Or.inr ⟨Q₂, Runs.bind hbody hloop⟩
        · exact Or.inr ⟨Q₁, Runs.bind hbody (Runs.pure _ _)⟩
      · exact Or.inl ⟨st, Q, Runs.pure _ _, hfollows⟩

omit hfuel in
theorem finish (hfollows : Follows Q st) : ∃ Q', Gives (Fuzz.finish 8 st) Q (.ok ()) Q' := by
  unfold Fuzz.finish
  obtain ⟨hheld, hpending⟩ | ⟨hheld, hpending, -, -⟩ := hfollows.holds
  · rw [if_neg (not_not.mpr hheld)]
    exact ⟨Q, Gives.bind hfollows.gives_agrees (Gives.pure _ _)⟩
  · rw [if_pos hheld]
    exact ⟨Q.withPending none, Gives.ask (wrapSafe hfollows.slots) (call_abort hpending) fun _ =>
      Gives.bind (hfollows.aborted 0).gives_agrees (Gives.pure _ _)⟩

theorem session (hfollows : Follows Q {}) (data : List UInt8) :
    ∃ Q' stores, Runs (Fuzz.session 8 data fuel) Q
      (if stores then .error .aborted else .ok ()) Q' stores := by
  unfold Fuzz.session
  obtain ⟨st, Q₁, hloop, hlast⟩ | ⟨Q₁, hloop⟩ := hfollows.loop hfuel data (Nat.zero_add _).ge
  · obtain ⟨Q₂, hfinish⟩ := hlast.finish
    exact ⟨Q₂, false, Runs.bind hloop (Runs.calls hfinish)⟩
  · exact ⟨Q₁, true, Runs.bind hloop (Runs.pure _ _)⟩

end Loop

end Follows

section Place

variable {b : Build} {addr scratch : BitVec b.sizeBits} {rb : Rb}

/-- Slots of 64 bytes are side by side under every alignment up to a cache line. -/
theorem stride_eq (htarget : b.Target) (halign : b.slotAlign ≤ 64) :
    roundUp 64 b.needAlign = 64 := by
  obtain ⟨-, k, hk, -, hslot⟩ := htarget
  have hneed : b.needAlign = 2 ^ k := by
    have hle := Nat.pow_le_pow_right (show 0 < 2 by decide) hk
    rw [Build.needAlign, hslot, if_neg (by omega)]
  have hlt : k < 7 := by
    by_contra hge
    have hle := Nat.pow_le_pow_right (show 0 < 2 by decide) (Nat.not_lt.mp hge)
    omega
  have hall : ∀ k < 7, roundUp 64 (2 ^ k) = 64 := by decide
  rw [hneed, hall k hlt]

/-- The scratchpad is found where it was put. -/
theorem scratchAddr_eq {scratchSize : BitVec b.sizeBits} {cfg : Config} {before : Store}
    (hacc : Accepted b addr cfg scratch scratchSize before rb) :
    scratchAddr b rb.geo = scratch.toNat := by
  rw [hacc.geo_eq]
  change (addr.toNat + (scratch - addr).toNat) % 2 ^ b.sizeBits = _
  rw [← BitVec.toNat_add, BitVec.add_comm, BitVec.sub_add_cancel]

/-- The ring the target sets up starts out empty. -/
theorem start_follows (bytes : UInt32 → Nat → UInt8) :
    Follows ((config b).ledger b bytes).queue {} where
  slots := rfl
  limit := rfl
  cap := by
    change 4 ≤ (64 - b.hdrSize).toNat
    unfold Build.hdrSize
    cases b.mode <;> decide
  free := rfl
  room := Nat.zero_le _
  count := rfl
  holds := .nothing rfl rfl

/-- Whatever the input and wherever the memory is, the fuzz target ends. It aborts if it has
called `drain_one`, which is where it stores into a message, and returns if it has not. -/
theorem fuzz_aborts_iff_drains (htarget : b.Target) (halign : b.slotAlign ≤ 64)
    (hplace : scratch.toNat + 512 ≤ 2 ^ b.sizeBits) (data : List UInt8) :
    ∃ actions, llvmFuzzerTestOneInput b 9 addr scratch data =
      some (if actions.any Action.isStore then .error .aborted else .ok (), actions) := by
  unfold llvmFuzzerTestOneInput
  split_ifs
  · exact ⟨[], rfl⟩
  split
  · exact ⟨[], rfl⟩
  next rb hinit =>
    obtain ⟨_, heq, hacc⟩ := rbInit_accepted hinit
    obtain rfl := Option.some.inj heq
    have hstride := stride_eq htarget halign
    have hbits : 512 < 2 ^ b.sizeBits := by
      rcases htarget.bits with hbits | hbits <;> rw [hbits] <;> decide
    have hfits := hacc.fits_of_sizesFit htarget ⟨hstride.trans_lt (by decide), Or.inl (by
      change 8 * roundUp 64 b.needAlign < _
      rwa [hstride])⟩
    have haddr : b.mode = .pointer → rb.geo.Addressable b := fun _ =>
      { stride_ne := fun hzero => by
          have hle := hfits.size_le
          rw [hzero, hacc.geo_eq] at hle
          exact absurd hle (by decide : ¬ 64 ≤ 0)
        no_wrap := by
          rw [scratchAddr_eq hacc, hacc.geo_eq]
          change _ + 512 % 2 ^ b.sizeBits ≤ _
          rwa [Nat.mod_eq_of_lt hbits] }
    have hcapacity : rb.geo.capacity = 8 := by
      rw [hacc.geo_eq]
      rfl
    have hshort : ((config b).ledger b (rb.store.payload b rb.geo)).cap.toNat < 2 ^ 31 := by
      change (64 - b.hdrSize).toNat < 2 ^ 31
      unfold Build.hdrSize
      cases b.mode <;> decide
    obtain ⟨Q', stores, hruns⟩ :=
      (start_follows (rb.store.payload b rb.geo)).session (by decide : 8 < 9) data
    obtain ⟨e, hexec, hresult, -, hstores⟩ := hruns _ ⟨hacc.tracks.ok, hshort, rfl⟩
    obtain ⟨rb', hring⟩ := exec_stored (hacc.sound hfits.toNonOverlapping) haddr hacc.tracks rfl
      hexec
    refine ⟨e.trace.map Prod.fst, ?_⟩
    rw [hcapacity, hring, Option.map_some, List.any_map]
    exact congrArg (fun result => some (result, _)) (hresult.trans (by rw [← hstores]; rfl))

end Place

/-- A message is reserved, published and drained. -/
def drained : List UInt8 := [0, 1, 0, 1, 2]

theorem drained_aborts :
    (llvmFuzzerTestOneInput { mode := .index } 9 64#64 4096#64 drained).map Prod.fst =
        some (.error .aborted) ∧
      ∃ actions, llvmFuzzerTestOneInput { mode := .index } 9 64#64 4096#64 drained =
        some (if actions.any Action.isStore then .error .aborted else .ok (), actions) :=
  ⟨by decide +kernel, fuzz_aborts_iff_drains ⟨Or.inr rfl, 4, by decide, by decide, rfl⟩
    (by decide) (by decide) drained⟩

/-- The same message is taken with `rb_consume`. -/
example : (llvmFuzzerTestOneInput { mode := .index } 9 64#64 4096#64 [0, 1, 0, 1, 1]).map
    Prod.fst = some (.ok ()) := by
  decide +kernel

end Fuzz

end RingBuff
