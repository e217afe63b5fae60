import RingBuff.Queue.Refinement

/-! # The bytes a producer wrote

Marks follow the calls of a run and their replies: which slot was reserved last, which
was delivered last, and which payload bytes the producer of a message has written since
it reserved the slot. A slot is busy from its reservation to its release, and what is
marked in a busy slot was stored for the message in it.
-/

namespace RingBuff

structure Marks where
  /-- The slot of the last reservation, and of the last message delivered. -/
  slot : UInt32 := 0
  held : UInt32 := 0
  /-- The offsets written in a slot since it was reserved. -/
  wrote : UInt32 → List Nat := fun _ => []

namespace Marks

def noteAcquire (m : Marks) : Reply → Marks
  | .reserved slotIndex _ =>
      { m with slot := slotIndex, wrote := Function.update m.wrote slotIndex [] }
  | .code _ | .message _ _ _ | .number _ | .flag _ | .byte _ => m

def noteWrite (m : Marks) (offset : Nat) (reply : Reply) : Marks :=
  if reply = .code .ok then
    { m with wrote := Function.update m.wrote m.slot (offset :: m.wrote m.slot) }
  else m

def noteConsume (m : Marks) : Reply → Marks
  | .message slotIndex _ _ => { m with held := slotIndex }
  | .code _ | .reserved _ _ | .number _ | .flag _ | .byte _ => m

/-- Take note of one call and its output. -/
def note (m : Marks) (c : Call) (output : Output) : Marks :=
  match c with
  | .acquire _ => m.noteAcquire output.1
  | .write offset _ => m.noteWrite offset output.1
  | .consume => m.noteConsume output.1
  | .publish _ _ | .publishEx _ _ _ | .abort | .read _ | .release _ | .count | .isFull | .isEmpty
  | .setLimit _ | .setLowD _ | .setLowE _ | .setOversizePolicy _ | .setCallbacks _
  | .setProducerStack _ | .setConsumerStack _ => m

theorem note_write (m : Marks) (offset : Nat) (byte : UInt8) (events : List Event) :
    m.note (.write offset byte) (.code .ok, events) =
      { m with wrote := Function.update m.wrote m.slot (offset :: m.wrote m.slot) } := by
  rw [note, noteWrite, if_pos rfl]

/-- What of an output does not depend on bytes nobody wrote: all of it, except that a
byte is shown only if the producer of the message wrote it. -/
def shown (m : Marks) (c : Call) (output : Output) : Output :=
  match c, output.1 with
  | .read offset, .byte value => (.byte (if offset ∈ m.wrote m.held then value else 0), output.2)
  | _, _ => output

/-- The marks after a trace. -/
def after (m : Marks) (trace : List (Call × Output)) : Marks :=
  trace.foldl (fun m (c, output) => m.note c output) m

/-- What a trace shows. -/
def shownAll (m : Marks) : List (Call × Output) → List Output
  | [] => []
  | (c, output) :: rest => m.shown c output :: (m.note c output).shownAll rest

end Marks

/-- What decides which slots are in use. -/
structure Usage where
  slots : UInt32
  head : Nat
  tail : Nat
  pending : Option Reservation
  held : Option UInt32

/-- The slot is reserved, or a message waits in it or is held. -/
def Usage.Busy (u : Usage) (s : UInt32) : Prop :=
  (∃ r, u.pending = some r ∧ r.slotIndex = s) ∨
    ∃ p, u.tail ≤ p ∧ p < u.head ∧ UInt32.ofNat (p % 2 ^ 32 % u.slots.toNat) = s

/-- The marks know which slot is reserved and which is held. -/
structure Usage.Marked (u : Usage) (m : Marks) : Prop where
  slot : ∀ r, u.pending = some r → r.slotIndex = m.slot
  held : ∀ s, u.held = some s → s = m.held

namespace Ledger

def usage (L : Ledger) : Usage := ⟨L.slots, L.head, L.tail, L.pending, L.held⟩

/-- What a call can do to the slots in use, and what the marks make of it. -/
inductive Turn (L : Ledger) : Call → Output → Ledger → Prop where
  | still {c : Call} {output : Output} {next : Ledger} (husage : next.usage = L.usage)
      (hnote : ∀ m : Marks, m.note c output = m) : Turn L c output next
  | reserved {w cap : UInt32} {r : Reservation} {next : Ledger}
      (husage : next.usage = { L.usage with pending := some r }) :
      Turn L (.acquire w) (.reserved r.slotIndex cap, []) next
  | stored {k : Nat} {v : UInt8} {r : Reservation} {next : Ledger} (hpending : L.pending = some r)
      (hk : k < L.cap.toNat) (husage : next.usage = L.usage) :
      Turn L (.write k v) (.code .ok, []) next
  | cleared {c : Call} {output : Output} {next : Ledger}
      (husage : next.usage = { L.usage with pending := none })
      (hnote : ∀ m : Marks, m.note c output = m) : Turn L c output next
  | posted {c : Call} {output : Output} {r : Reservation} {next : Ledger}
      (hpending : L.pending = some r)
      (husage : next.usage = { L.usage with head := L.head + 1, pending := none })
      (hnote : ∀ m : Marks, m.note c output = m) : Turn L c output next
  | taken {s len : UInt32} {t : Bool} {next : Ledger}
      (husage : next.usage = { L.usage with held := some s }) :
      Turn L .consume (.message s len t, []) next
  | released {c : Call} {output : Output} {next : Ledger}
      (husage : next.usage = { L.usage with tail := L.tail + 1, held := none })
      (hnote : ∀ m : Marks, m.note c output = m) : Turn L c output next

section Turns

variable (L : Ledger)

theorem turn_reserve {S : Ledger} (husage : S.usage = L.usage) (w : UInt32) :
    L.Turn (.acquire w) ((S.reserve w).1, []) (S.reserve w).2 := by
  unfold reserve
  split_ifs
  · exact .still husage fun _ => rfl
  · refine .reserved (r := ⟨S.slotFor S.head, w⟩) ?_
    rw [← husage]
    rfl

theorem turn_acquire (w : UInt32) :
    L.Turn (.acquire w) ((L.acquire w).1, []) (L.acquire w).2 := by
  unfold acquire
  split_ifs
  · exact .still rfl fun _ => rfl
  · exact .still rfl fun _ => rfl
  · exact L.turn_reserve (S := L.refreshTail) rfl w
  · exact L.turn_reserve rfl w

theorem turn_write (k : Nat) (v : UInt8) :
    L.Turn (.write k v) ((L.write k v).1, []) (L.write k v).2 := by
  unfold write
  split
  next => exact .still rfl fun _ => rfl
  next r hpending =>
    split_ifs with hk
    · exact .stored hpending hk rfl
    · exact .still rfl fun _ => rfl

theorem turn_publishEx {c : Call} (i n : UInt32) (t : Bool)
    (hnote : ∀ (m : Marks) (output : Output), m.note c output = m) :
    L.Turn c (L.publishEx i n t).1 (L.publishEx i n t).2 := by
  unfold publishEx
  split
  next => exact .still rfl fun m => hnote m _
  next r hpending =>
    unfold handOver
    dsimp only
    split_ifs
    · exact .still rfl fun m => hnote m _
    · exact .posted hpending rfl fun m => hnote m _
    · exact .posted hpending rfl fun m => hnote m _

theorem turn_consume : L.Turn .consume (L.consume.1, []) L.consume.2 := by
  unfold consume
  split_ifs
  · exact .still rfl fun _ => rfl
  · exact .still rfl fun _ => rfl
  · exact .taken rfl
  · exact .taken rfl

theorem turn_release (i : UInt32) : L.Turn (.release i) (L.release i).1 (L.release i).2 := by
  unfold release crossLowD crossLowE
  dsimp only
  split_ifs <;> first | exact .released rfl fun _ => rfl | exact .still rfl fun _ => rfl

theorem turn_call (c : Call) : L.Turn c (L.call c).1 (L.call c).2 := by
  cases c with
  | acquire w => exact L.turn_acquire w
  | write k v => exact L.turn_write k v
  | publish i n => exact L.turn_publishEx i n false fun _ _ => rfl
  | publishEx i n t => exact L.turn_publishEx i n t fun _ _ => rfl
  | abort =>
      simp only [call, quiet, abort]
      split_ifs
      · exact .cleared rfl fun _ => rfl
      · exact .still rfl fun _ => rfl
  | consume => exact L.turn_consume
  | release i => exact L.turn_release i
  | read | count | isFull | isEmpty => exact .still rfl fun _ => rfl
  | setLimit limit =>
      simp only [call, quiet, setLimit]
      split_ifs <;> exact .still rfl fun _ => rfl
  | setLowD percent =>
      simp only [call, quiet, setLowD]
      split_ifs <;> exact .still rfl fun _ => rfl
  | setLowE percent =>
      simp only [call, quiet, setLowE]
      split_ifs <;> exact .still rfl fun _ => rfl
  | setOversizePolicy policy => cases policy <;> exact .still rfl fun _ => rfl
  | setCallbacks cb => cases cb <;> exact .still rfl fun _ => rfl
  | setProducerStack | setConsumerStack => exact .still rfl fun _ => rfl

end Turns

variable {L next : Ledger} {m : Marks} {c : Call} {output : Output} {s : UInt32} {k : Nat}

/-- A byte that was stored for the message in its slot. -/
def Firm (L : Ledger) (m : Marks) (s : UInt32) (k : Nat) : Prop :=
  L.usage.Busy s ∧ k ∈ m.wrote s

namespace Turn

theorem marked (hturn : L.Turn c output next) (hmarked : L.usage.Marked m) :
    next.usage.Marked (m.note c output) := by
  cases hturn with
  | still husage hnote => rwa [husage, hnote]
  | reserved husage =>
      rw [husage]
      refine ⟨?_, hmarked.held⟩
      rintro r ⟨⟩
      rfl
  | stored hpending hk husage =>
      rw [husage, Marks.note_write]
      exact ⟨hmarked.slot, hmarked.held⟩
  | cleared husage hnote | posted hpending husage hnote =>
      rw [husage, hnote]
      exact ⟨(by rintro r ⟨⟩), hmarked.held⟩
  | taken husage =>
      rw [husage]
      refine ⟨hmarked.slot, ?_⟩
      rintro s ⟨⟩
      rfl
  | released husage hnote =>
      rw [husage, hnote]
      exact ⟨hmarked.slot, by rintro s ⟨⟩⟩

/-- A call makes a byte firm only by storing it. -/
theorem firm (hturn : L.Turn c output next) (hok : L.Ok) (hmarked : L.usage.Marked m)
    (hfirm : next.Firm (m.note c output) s k) :
    L.Firm m s k ∨ ∃ v r, c = .write k v ∧ L.pending = some r ∧ r.slotIndex = s ∧
      k < L.cap.toNat := by
  obtain ⟨hbusy, hwrote⟩ := hfirm
  cases hturn with
  | still husage hnote =>
      rw [husage] at hbusy
      rw [hnote] at hwrote
      exact Or.inl ⟨hbusy, hwrote⟩
  | @reserved w cap r next husage =>
      rw [husage] at hbusy
      rcases eq_or_ne s r.slotIndex with rfl | hne
      · simp [Marks.note, Marks.noteAcquire] at hwrote
      · have hold : k ∈ m.wrote s := by
          simpa [Marks.note, Marks.noteAcquire, Function.update_of_ne hne] using hwrote
        rcases hbusy with ⟨r', hr', rfl⟩ | hqueued
        · exact absurd (congrArg Reservation.slotIndex (Option.some.inj hr')).symm hne
        · exact Or.inl ⟨Or.inr hqueued, hold⟩
  | @stored k' v r next hpending hk husage =>
      rw [husage] at hbusy
      rw [Marks.note_write] at hwrote
      dsimp only at hwrote
      have hslot := hmarked.slot r hpending
      rcases eq_or_ne s m.slot with rfl | hne
      · rw [Function.update_self] at hwrote
        rcases List.mem_cons.mp hwrote with rfl | hold
        · exact Or.inr ⟨v, r, rfl, hpending, hslot, hk⟩
        · exact Or.inl ⟨hbusy, hold⟩
      · rw [Function.update_of_ne hne] at hwrote
        exact Or.inl ⟨hbusy, hwrote⟩
  | cleared husage hnote =>
      rw [husage] at hbusy
      rw [hnote] at hwrote
      rcases hbusy with ⟨r, ⟨⟩, -⟩ | hqueued
      exact Or.inl ⟨Or.inr hqueued, hwrote⟩
  | @posted c output r next hpending husage hnote =>
      rw [husage] at hbusy
      rw [hnote] at hwrote
      rcases hbusy with ⟨r, ⟨⟩, -⟩ | ⟨p, htail, hhead, rfl⟩
      -- the message just published is in the slot that was reserved
      rcases Nat.lt_succ_iff_lt_or_eq.mp hhead with hlt | rfl
      · exact Or.inl ⟨Or.inr ⟨p, htail, hlt, rfl⟩, hwrote⟩
      · exact Or.inl ⟨Or.inl ⟨r, hpending, (hok.pending_slot r hpending).1⟩, hwrote⟩
  | taken husage =>
      rw [husage] at hbusy
      exact Or.inl ⟨hbusy, hwrote⟩
  | released husage hnote =>
      rw [husage] at hbusy
      rw [hnote] at hwrote
      rcases hbusy with hreserved | ⟨p, htail, hhead, rfl⟩
      · exact Or.inl ⟨Or.inl hreserved, hwrote⟩
      · exact Or.inl ⟨Or.inr ⟨p, Nat.le_of_succ_le htail, hhead, rfl⟩, hwrote⟩

end Turn

end Ledger

end RingBuff
