import RingBuff.Core.Calls
import RingBuff.Foundation.Client

/-! # Batch calls

`rb_drain` and `rb_flush` are loops that make the calls of the ring on behalf of
a callback. The callback has a state of its own and does not enter the ring. The
loops end with the ring; here they have fuel, and without fuel there is no
result.
-/

namespace RingBuff

/-- `rb_drain_fn`: from the payload, the length and the flag of a message, whether
to go on. -/
abbrev DrainFn (σ : Type) : Type := List UInt8 → UInt32 → Bool → σ → Bool × σ

/-- What `rb_flush_fn` returns, with its out-parameters and the bytes it stored
through the pointer it was given. -/
structure Filled where
  ok : Bool := true
  len : UInt32 := 0
  truncated : Bool := false
  stop : Bool := false
  stores : List (Nat × UInt8) := []
  deriving DecidableEq, Repr

/-- `rb_flush_fn`: from the payload capacity, what to publish. -/
abbrev FlushFn (σ : Type) : Type := UInt32 → σ → Filled × σ

/-- A program that uses the ring. -/
abbrev Session (α : Type) : Type := Client Call Output α

/-- A callback reads the payload bytes at these offsets. -/
def readBytes : List Nat → Session (List UInt8)
  | [] => return []
  | offset :: rest => do
      match (← Client.ask (.read offset)).1 with
      | .byte value => return value :: (← readBytes rest)
      | _ => readBytes rest

/-- A callback stores payload bytes. -/
def writeBytes : List (Nat × UInt8) → Session Unit
  | [] => return ()
  | (offset, byte) :: rest => do
      let _ ← Client.ask (.write offset byte)
      writeBytes rest

/-- The loop of `rb_drain`, after `n` messages. -/
def drainLoop {σ : Type} (fn : DrainFn σ) : Nat → UInt32 → σ → Session (Option (UInt32 × σ))
  | 0, _, _ => return none
  | fuel + 1, n, user => do
      match (← Client.ask .consume).1 with
      | .message idx len truncated =>
          let obj ← readBytes (List.range len.toNat)
          let (cont, user) := fn obj len truncated user
          let _ ← Client.ask (.release idx)
          if cont then drainLoop fn fuel (n + 1) user else return some (n + 1, user)
      | _ => return some (n, user)

/-- `rb_drain`. -/
def rbDrain {σ : Type} (fuel : Nat) (fn : DrainFn σ) (user : σ) : Session (Option (UInt32 × σ)) :=
  drainLoop fn fuel 0 user

/-- The loop of `rb_flush`, after `n` messages. -/
def flushLoop {σ : Type} (fn : FlushFn σ) : Nat → UInt32 → σ → Session (Option (UInt32 × σ))
  | 0, _, _ => return none
  | fuel + 1, n, user => do
      match (← Client.ask (.acquire 0)).1 with
      | .reserved idx cap =>
          let (filled, user) := fn cap user
          writeBytes filled.stores
          if !filled.ok then
            let _ ← Client.ask .abort
            return some (n, user)
          else if filled.len = 0 ∧ filled.stop then
            let _ ← Client.ask .abort
            return some (n, user)
          else
            let (len, truncated) :=
              if cap < filled.len then (cap, true) else (filled.len, filled.truncated)
            let _ ← Client.ask (.publishEx idx len truncated)
            if filled.stop then return some (n + 1, user)
            else flushLoop fn fuel (n + 1) user
      | _ => return some (n, user)

/-- `rb_flush`. -/
def rbFlush {σ : Type} (fuel : Nat) (fn : FlushFn σ) (user : σ) : Session (Option (UInt32 × σ)) :=
  flushLoop fn fuel 0 user

/-- A call or a batch call. -/
inductive Cmd (σ : Type) where
  | call (c : Call)
  | drain (fn : DrainFn σ)
  | flush (fn : FlushFn σ)

/-- What a command gives back: the output of a call, or how many messages a batch
call moved. -/
inductive Answer where
  | output (output : Output)
  | moved (n : UInt32)
  deriving DecidableEq, Repr

/-- Execute one command. -/
def Cmd.run {σ : Type} (fuel : Nat) (user : σ) : Cmd σ → Session (Option (Answer × σ))
  | .call c => return some (.output (← Client.ask c), user)
  | .drain fn => return (← rbDrain fuel fn user).map fun (n, user) => (.moved n, user)
  | .flush fn => return (← rbFlush fuel fn user).map fun (n, user) => (.moved n, user)

/-- Execute commands one after the other. -/
def runAll {σ : Type} (fuel : Nat) : σ → List (Cmd σ) → Session (Option (List Answer × σ))
  | user, [] => return some ([], user)
  | user, cmd :: rest => do
      match ← cmd.run fuel user with
      | none => return none
      | some (answer, user) =>
          return (← runAll fuel user rest).map fun (answers, user) => (answer :: answers, user)

end RingBuff
