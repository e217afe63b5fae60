import RingBuff.Queue.Contents

/-! # The fuzz target

`fuzz/rb_state.c` turns its input into calls on a ring of eight slots, keeps a count of the
messages that should wait, and calls `abort()` when the ring disagrees. It is a client of the
ring: a loop that takes an operation from every byte.

It hands `drain_one` to `rb_drain` to count the messages drained. That callback takes the
counter as the first of five arguments, where `rb_drain` passes the payload: it counts in the
first word of the message, and the counter of the target stays zero. So besides calls the
target makes stores through the pointer `rb_consume` returned.
-/

namespace RingBuff.Fuzz

/-- `held` while nothing is reserved, `UINT32_MAX`. -/
def noneHeld : UInt32 := 0xFFFFFFFF

/-- What the target does with the ring: a call, or a store through the pointer that
`rb_consume` returned. -/
inductive Action where
  | call (c : Call)
  | store (offset : Nat) (byte : UInt8)
  deriving DecidableEq, Repr

def Action.isStore : Action → Bool
  | .call _ => false
  | .store _ _ => true

/-- A store into the payload of the message in hand. -/
def storeHeld (b : Build) (rb : Rb) (offset : Nat) (byte : UInt8) : Option Rb :=
  if rb.consumerActive ≠ 0 ∧ offset < (payloadCap b rb.geo).toNat then
    some { rb with store := rb.store.setPayload b rb.geo rb.consumerSlot offset byte }
  else none

/-- The ring under calls and such stores. -/
def storedRing (b : Build) : Automaton Rb Action Output where
  step rb
    | .call c => (ring b).step rb c
    | .store offset byte => (storeHeld b rb offset byte).map fun rb => ((.code .ok, []), rb)

/-- A program that uses the ring and the messages it is handed. -/
abbrev Program (α : Type) : Type := Client Action Output α

/-- A program that only makes calls. -/
def calls {α : Type} (p : Session α) : Program α := p.mapInput .call

/-! ## The callback -/

/-- The loop of `rb_drain` for a callback that is a program. -/
def drainLoop {σ : Type} (fn : UInt32 → Bool → σ → Program (Bool × σ)) :
    Nat → UInt32 → σ → Program (Option (UInt32 × σ))
  | 0, _, _ => return none
  | fuel + 1, n, user => do
      match (← Client.ask (.call .consume)).1 with
      | .message idx len truncated =>
          let (cont, user) ← fn len truncated user
          let _ ← Client.ask (.call (.release idx))
          if cont then drainLoop fn fuel (n + 1) user else return some (n + 1, user)
      | _ => return some (n, user)

/-- A callback that only looks at the payload. -/
def reading {σ : Type} (fn : DrainFn σ) (len : UInt32) (truncated : Bool) (user : σ) :
    Program (Bool × σ) := do
  let obj ← calls (readBytes (List.range len.toNat))
  return fn obj len truncated user

/-- For such callbacks the loop is the loop of `rbDrain`. -/
theorem drainLoop_reading {σ : Type} (fn : DrainFn σ) (fuel : Nat) (n : UInt32) (user : σ) :
    drainLoop (reading fn) fuel n user = calls (RingBuff.drainLoop fn fuel n user) := by
  induction fuel generalizing n user with
  | zero => rfl
  | succ fuel ih =>
      refine congrArg (Client.call (Action.call .consume)) (funext fun output => ?_)
      obtain ⟨reply, events⟩ := output
      cases reply with
      | message idx len truncated =>
          refine (Client.bind_assoc _ _ _).trans ?_
          refine Eq.trans ?_
            (Client.mapInput_bind Action.call (readBytes (List.range len.toNat)) _).symm
          refine congrArg (Client.bind _) (funext fun obj => ?_)
          refine congrArg (Client.call (Action.call (.release idx))) (funext fun _ => ?_)
          dsimp only
          split_ifs
          · exact ih (n + 1) _
          · rfl
      | code err | reserved i cap | byte value | number value | flag value => rfl

/-- Store bytes into the payload of the message in hand. -/
def storeBytes : List (Nat × UInt8) → Program Unit
  | [] => return ()
  | (offset, byte) :: rest => do
      let _ ← Client.ask (.store offset byte)
      storeBytes rest

/-- `drain_one` as `rb_drain` calls it: `*count` is the first word of the payload. -/
def drainOne (_len : UInt32) (_truncated : Bool) (drained : UInt32) :
    Program (Bool × UInt32) := do
  let bytes ← calls (readBytes (List.range 4))
  let count := Memory.load32 (fun k => bytes.getD k 0) 0 + 1
  storeBytes ((List.range 4).map fun k => (k, Memory.wordByte count k))
  return (true, drained)

/-! ## The target -/

/-- The variables of `LLVMFuzzerTestOneInput`. -/
structure State where
  pos : Nat := 0
  held : UInt32 := noneHeld
  cap : UInt32 := 0
  modelCount : UInt32 := 0
  deriving DecidableEq, Repr

/-- Why the target does not return: it calls `abort()`, or `rb_drain` or the loop does not
end. -/
inductive Stop where
  | aborted
  | outOfFuel
  deriving DecidableEq, Repr

/-- The configuration: the defaults, with eight slots of 64 bytes. -/
def config (b : Build) : Config :=
  { rbConfigInit b with capacity := 8, slots := 8, slotSize := 64 }

/-- `rb_count`. -/
def askCount : Session UInt32 := do
  match (← Client.ask .count).1 with
  | .number value => return value
  | _ => return 0

/-- The condition under which the target does not abort: `rb_count(rb) != model_count ||
rb_count(rb) > rb_capacity(rb)` is false. -/
def agrees (capacity modelCount : UInt32) : Session Bool := do
  if (← askCount) ≠ modelCount then return false
  else return !(capacity < (← askCount))

section Target

variable (capacity : UInt32) (data : List UInt8)

/-- `data[i % size]`. -/
def byteAt (i : Nat) : UInt8 := data.getD (i % data.length) 0

/-- A reservation is pending and the operation is 0. -/
def publishOrAbort (st : State) : Session State := do
  let n := (byteAt data st.pos).toUInt32 % (st.cap + 1)
  if n ≠ 0 then
    writeBytes ((List.range n.toNat).map fun k => (k, byteAt data 0))
    let published := (← Client.ask (.publish st.held n)).1
    return { st with
      pos := st.pos + 1
      modelCount := if published = .code .ok then st.modelCount + 1 else st.modelCount }
  else
    let _ ← Client.ask .abort
    return { st with pos := st.pos + 1 }

/-- A reservation is pending. -/
def settle (op : UInt8) (st : State) : Session State := do
  if op = 0 then
    return { ← publishOrAbort data st with held := noneHeld, cap := 0 }
  else
    let _ ← Client.ask .abort
    return { st with held := noneHeld, cap := 0 }

/-- Operation 0. The out-parameters are stored only on success. -/
def acquire (st : State) : Session State := do
  let wanted := (byteAt data st.pos).toUInt32 % 96
  match (← Client.ask (.acquire wanted)).1 with
  | .reserved slotIndex cap => return { st with pos := st.pos + 1, held := slotIndex, cap }
  | _ => return { st with pos := st.pos + 1 }

/-- Operation 1. -/
def consume (st : State) : Session (Except Stop State) := do
  match (← Client.ask .consume).1 with
  | .message slot _ _ =>
      if st.modelCount = 0 then return .error .aborted
      else
        let _ ← Client.ask (.release slot)
        return .ok { st with modelCount := st.modelCount - 1 }
  | _ => return .ok st

/-- Operation 2. -/
def drain (fuel : Nat) (st : State) : Program (Except Stop State) := do
  match ← drainLoop drainOne fuel 0 0 with
  | none => return .error .outOfFuel
  | some (_, drained) =>
      if st.modelCount < drained then return .error .aborted
      else return .ok { st with modelCount := st.modelCount - drained }

/-- Operation 3. -/
def query (st : State) : Session (Except Stop State) := do
  let count ← askCount
  let _ ← Client.ask .isEmpty
  let _ ← Client.ask .isFull
  if count ≠ st.modelCount ∨ capacity < count then return .error .aborted
  else return .ok st

/-- An operation while nothing is reserved. -/
def operate (fuel : Nat) (op : UInt8) (st : State) : Program (Except Stop State) :=
  if op = 0 then return .ok (← calls (acquire data st))
  else if op = 1 then calls (consume st)
  else if op = 2 then drain fuel st
  else calls (query capacity st)

/-- The body of the loop, with `continue` after a reservation was settled. -/
def body (fuel : Nat) (st : State) : Program (Except Stop State) :=
  let op := byteAt data st.pos &&& 3
  let st := { st with pos := st.pos + 1 }
  if st.held ≠ noneHeld then return .ok (← calls (settle data op st))
  else do
    match ← operate capacity data fuel op st with
    | .error stop => return .error stop
    | .ok st =>
        if ← calls (agrees capacity st.modelCount) then return .ok st
        else return .error .aborted

/-- The loop. Every turn uses at least one byte. -/
def loop (fuel : Nat) : Nat → State → Program (Except Stop State)
  | 0, st => return if st.pos < data.length then .error .outOfFuel else .ok st
  | n + 1, st =>
      if st.pos < data.length then do
        match ← body capacity data fuel st with
        | .error stop => return .error stop
        | .ok st => loop fuel n st
      else return .ok st

/-- The end of the target, after the loop. -/
def finish (st : State) : Session (Except Stop Unit) := do
  if st.held ≠ noneHeld then
    let _ ← Client.ask .abort
    if ← agrees capacity st.modelCount then return .ok () else return .error .aborted
  else if ← agrees capacity st.modelCount then return .ok () else return .error .aborted

/-- From the initialised ring to `rb_deinit`. -/
def session (fuel : Nat) : Program (Except Stop Unit) := do
  match ← loop capacity data fuel data.length {} with
  | .error stop => return .error stop
  | .ok st => calls (finish capacity st)

end Target

/-- `LLVMFuzzerTestOneInput`, given where `calloc` puts the control block and the scratchpad:
how it ends, and what it has done with the ring. -/
def llvmFuzzerTestOneInput (b : Build) (fuel : Nat) (rb scratch : BitVec b.sizeBits)
    (data : List UInt8) : Option (Except Stop Unit × List Action) :=
  if data = [] then some (.ok (), [])
  else
    match rbInit b rb (some (config b)) scratch (BitVec.ofNat _ 512) blank with
    | .error _ => some (.ok (), [])
    | .ok rb =>
        ((storedRing b).exec (session rb.geo.capacity data fuel) rb).map fun e =>
          (e.result, e.trace.map Prod.fst)

end RingBuff.Fuzz
