import RingBuff.Offload.Result
import RingBuff.Threads.Replies

/-! # The offload system

`examples/zynq_offload`: a host and a stub on two rings in shared memory. The host
is the producer of ring A and the consumer of ring B, the stub is the consumer of
ring A and the producer of ring B. All four sides run step by step, in any order.
The host may make any calls on its two sides; the stub follows `process_one`, which
its main loop calls again and again until it fails.

Left out are what the two do for people (printing, counting idle rounds, the
door bells) and the end of the main loop, after which the stub makes no call.
-/

namespace RingBuff.Offload

open Threads

/-- `idx` and `len` of `process_one`: the message it has in hand. -/
structure Job where
  idx : UInt32
  len : UInt32
  deriving DecidableEq, Repr

/-- The stub, before the named step of `process_one`. -/
inductive Stub where
  | consume
  | hash (job : Job) (i : Nat) (h : UInt32)
  | count (job : Job) (h : UInt32) (ns : UInt64)
  | acquire (job : Job) (r : ZoResult)
  | fill (job : Job) (r : ZoResult) (oidx : UInt32) (todo : List Nat)
  | publish (job : Job) (oidx : UInt32)
  | abort (job : Job)
  /-- `answered` tells the two `rb_release(in, idx)` apart: `return 1`, `return -1`. -/
  | release (job : Job) (answered : Bool)
  | stopped
  deriving DecidableEq, Repr

/-- How the stub goes on when a call returns. A load or a store outside of the
slot has no continuation. -/
def Stub.resume : Stub → Reply → Option Stub
  | .consume, .message idx len _ => some (.hash ⟨idx, len⟩ 0 hashBasis)
  | .consume, _ => some .consume
  | .hash job i h, .byte value => some (.hash job (i + 1) (hashByte h value))
  | .acquire job r, .reserved oidx _ => some (.fill job r oidx ZoResult.storeOrder)
  | .acquire job r, .code .full => some (.acquire job r)
  | .acquire job _, _ => some (.release job false)
  | .fill job r oidx (_ :: todo), .code .ok => some (.fill job r oidx todo)
  | .publish job _, .code .ok => some (.release job true)
  | .publish job _, _ => some (.abort job)
  | .abort job, _ => some (.release job false)
  | .release _ true, _ => some .consume
  | .release _ false, _ => some .stopped
  | _, _ => none

structure State where
  ringA : Sys
  ringB : Sys
  stub : Stub := .consume
  /-- `bell.seq_out`, which only the stub stores. -/
  seqOut : UInt32 := 0

/-- One move. What the clock says and whether a write to the eventfd fails is part
of it. -/
inductive Move where
  /-- The host, on ring A. -/
  | send (a : Act)
  /-- The host, on ring B. -/
  | receive (a : Act)
  | stub (ns : UInt64)
  | stubEventfdFails
  deriving DecidableEq, Repr

namespace State

variable (b : Build) (w : State)

/-- The stub moves on ring A. -/
def onA (a : Act) : Option State :=
  (Threads.step b w.ringA a).bind fun ringA =>
    match reply w.ringA a ringA with
    | none => some { w with ringA }
    | some r => (w.stub.resume r).map fun stub => { w with ringA, stub }

/-- The stub moves on ring B. -/
def onB (a : Act) : Option State :=
  (Threads.step b w.ringB a).bind fun ringB =>
    match reply w.ringB a ringB with
    | none => some { w with ringB }
    | some r => (w.stub.resume r).map fun stub => { w with ringB, stub }

/-- The next step of the stub. The time it measured ends with the hash. -/
def stubStep (ns : UInt64) : Option State :=
  match w.stub with
  | .consume => w.onA b (w.ringA.callC .consume)
  | .hash job i h =>
      if i < job.len.toNat then w.onA b (.read i)
      else some { w with stub := .count job h ns }
  | .count job h ns =>
      let seq := w.seqOut + 1
      some { w with seqOut := seq, stub := .acquire job ⟨seq, h, job.len, ns⟩ }
  | .acquire _ _ => w.onB b (w.ringB.callP (.acquire ZoResult.size))
  | .fill job r oidx todo =>
      match todo with
      | [] => some { w with stub := .publish job oidx }
      | off :: _ => w.onB b (.write off (r.byte off))
  | .publish _ oidx => w.onB b (w.ringB.callP (.publishEx oidx ZoResult.size false))
  | .abort _ => w.onB b .abort
  | .release job _ => w.onA b (w.ringA.callC (.release job.idx))
  | .stopped => none

end State

def step (b : Build) (w : State) : Move → Option State
  | .send a =>
      if a.byProducer then
        (Threads.step b w.ringA a).map fun ringA => { w with ringA }
      else none
  | .receive a =>
      if a.byProducer then none
      else (Threads.step b w.ringB a).map fun ringB => { w with ringB }
  | .stub ns => w.stubStep b ns
  | .stubEventfdFails =>
      match w.stub with
      | .publish _ _ => w.onB b .eventfdFails
      | _ => none

/-- Host and stub on their two rings. -/
def system (b : Build) : Automaton State Move Unit where
  step w m := (step b w m).map fun w' => ((), w')

/-- Both rings as `rb_init` left them. -/
def start (rbA rbB : Rb) : State := { ringA := Threads.start rbA, ringB := Threads.start rbB }

end RingBuff.Offload
