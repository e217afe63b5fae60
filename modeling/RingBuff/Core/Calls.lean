import RingBuff.Core.Ops
import RingBuff.Foundation.Automaton

/-! # Call sequences

`ring b` is the automaton whose inputs are whole calls, with arbitrary arguments
and in any order, and whose outputs are the replies and the callbacks invoked.
The batch calls `rb_drain` and `rb_flush` are loops over these calls, so they are
written once for any automaton that answers them.
-/

namespace RingBuff

/-- A call on an initialised ring, or one payload access by the caller. -/
inductive Call where
  | acquire (wantedLen : UInt32)
  | write (offset : Nat) (byte : UInt8)
  | publish (slotIndex writtenLen : UInt32)
  | publishEx (slotIndex writtenLen : UInt32) (truncated : Bool)
  | abort
  | consume
  | read (offset : Nat)
  | release (slotIndex : UInt32)
  | count
  | isFull
  | isEmpty
  | setLimit (limit : UInt32)
  | setLowD (percent : UInt32)
  | setLowE (percent : UInt32)
  | setOversizePolicy (policy : OversizePolicy)
  | setCallbacks (cb : Option Callbacks)
  | setProducerStack (bytes : Nat)
  | setConsumerStack (bytes : Nat)
  deriving DecidableEq, Repr

/-- The calls that move messages, as opposed to queries and settings. -/
def Call.threaded : Call → Bool
  | .acquire _ | .write _ _ | .publish _ _ | .publishEx _ _ _ | .abort | .consume | .read _
  | .release _ => true
  | .count | .isFull | .isEmpty | .setLimit _ | .setLowD _ | .setLowE _ | .setOversizePolicy _
  | .setCallbacks _ | .setProducerStack _ | .setConsumerStack _ => false

/-- Execute one call as a whole. -/
def rbCall (b : Build) (rb : Rb) : Call → Option (Output × Rb)
  | .acquire wantedLen => some (quiet (rbAcquire b rb wantedLen))
  | .write offset byte => some (quiet (payloadWrite b rb offset byte))
  | .publish slotIndex writtenLen => some (rbPublish b rb slotIndex writtenLen)
  | .publishEx slotIndex writtenLen truncated =>
      some (rbPublishEx b rb slotIndex writtenLen truncated)
  | .abort => some (quiet (rbAbort rb))
  | .consume => (rbConsume b rb).map quiet
  | .read offset => some (quiet (payloadRead b rb offset, rb))
  | .release slotIndex => some (rbRelease b rb slotIndex)
  | .count => some (quiet (.number (rbCount rb), rb))
  | .isFull => some (quiet (.flag (rbIsFull rb), rb))
  | .isEmpty => some (quiet (.flag (rbIsEmpty rb), rb))
  | .setLimit limit => some (quiet (rbSetLimit rb limit))
  | .setLowD percent => some (quiet (rbSetLowD rb percent))
  | .setLowE percent => some (quiet (rbSetLowE rb percent))
  | .setOversizePolicy policy => some (quiet (rbSetOversizePolicy rb policy))
  | .setCallbacks cb => some (quiet (rbSetCallbacks rb cb))
  | .setProducerStack bytes => some (quiet (rbSetProducerStack b rb bytes))
  | .setConsumerStack bytes => some (quiet (rbSetConsumerStack b rb bytes))

/-- Whether a call with this output published a message. -/
def Call.published (c : Call) (output : Output) : Bool :=
  match c with
  | .publish _ _ | .publishEx _ _ _ => output.1 = .code .ok
  | _ => false

/-- The number of messages published along a run. -/
def publishes (calls : List Call) (outputs : List Output) : Nat :=
  (calls.zip outputs).countP fun (c, output) => c.published output

theorem publishes_cons (c : Call) (calls : List Call) (output : Output) (outputs : List Output) :
    publishes (c :: calls) (output :: outputs) =
      (c.published output).toNat + publishes calls outputs := by
  rw [publishes, List.zip_cons_cons, List.countP_cons, Nat.add_comm]
  cases hpub : c.published output <;> simp [hpub, publishes]

theorem publishes_le (calls : List Call) (outputs : List Output) :
    publishes calls outputs ≤ calls.length := by
  refine List.countP_le_length.trans ?_
  rw [List.length_zip]
  exact Nat.min_le_left _ _

/-- The ring under whole calls. -/
def ring (b : Build) : Automaton Rb Call Output where
  step := rbCall b

end RingBuff
