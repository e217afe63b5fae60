import RingBuff.Threads.Counters

/-! # Changing the thresholds while the threads run

`rb_set_low_d` and `rb_set_low_e` may be called at any time by either side. Only
`rb_release` reads the two percentages, so a call that is not concurrent with a
release is one step. The counters do not depend on them.
-/

namespace RingBuff.Threads

variable {b : Build} {s s' : Sys}

/-- Inside `rb_release`. -/
def ConsumerPc.insideRelease : ConsumerPc → Bool
  | .relTail _ | .relStamp _ _ | .relStore _ | .relClear _ _ | .relLowD _ _ | .relClearUp _ _
  | .relLowE _ _ | .relFireE => true
  | .idle | .conTail | .conHead _ | .conEntry _ | .conStale _ _ | .conHeader _ | .waitCount _ _
  | .waitStart _ _ | .waitRaise _ | .waitCheck _ | .waitNow _ | .waitFutex _ | .waitAsleep _
  | .waitLate _ | .waitLower _ | .fdRead => false

/-- A move of one of the threads, or a new threshold. -/
inductive Move where
  | act (a : Act)
  | setLowD (percent : UInt32)
  | setLowE (percent : UInt32)
  deriving DecidableEq, Repr

def tunedStep (b : Build) (s : Sys) : Move → Option Sys
  | .act a => step b s a
  | .setLowD percent =>
      if s.c.pc.insideRelease then none else some { s with rb := (rbSetLowD s.rb percent).2 }
  | .setLowE percent =>
      if s.c.pc.insideRelease then none else some { s with rb := (rbSetLowE s.rb percent).2 }

/-- At most settings differ that no operation looks at while counting. -/
def Retuned (rb rb' : Rb) : Prop :=
  ∃ lowD lowE policy cb producerStackSize consumerStackSize,
    rb' = { rb with
      lowD, lowE, oversizePolicy := policy, cb, producerStackSize, consumerStackSize }

theorem Retuned.refl (rb : Rb) : Retuned rb rb := ⟨_, _, _, _, _, _, rfl⟩

theorem Counted.retune (hok : Counted s) {rb : Rb} (hretuned : Retuned s.rb rb) :
    Counted { s with rb } := by
  obtain ⟨_, _, _, _, _, _, rfl⟩ := hretuned
  obtain ⟨⟨hmask, hcap, hslots, hpos⟩, hp, hc⟩ := hok
  exact ⟨⟨hmask, hcap, hslots, hpos⟩,
    ⟨hp.head, hp.cachedTail, hp.knownTail_le, hp.knownTail_le_published, hp.room, hp.reserved,
      hp.locals, hp.sent_length, hp.sent_slot⟩,
    ⟨hc.tail, hc.cachedHead, hc.released_le, hc.knownHead_le, hc.active, hc.locals,
      hc.delivered_length⟩⟩

/-- What a new threshold changes. -/
theorem tunedStep_cases {m : Move} (hstep : tunedStep b s m = some s') :
    (∃ a, m = .act a ∧ step b s a = some s') ∨
      (∃ percent, m = .setLowD percent ∧ s.c.pc.insideRelease = false ∧
        (s' = { s with rb.lowD := percent } ∨ s' = s)) ∨
      (∃ percent, m = .setLowE percent ∧ s.c.pc.insideRelease = false ∧
        (s' = { s with rb.lowE := percent } ∨ s' = s)) := by
  cases m with
  | act a => exact Or.inl ⟨a, rfl, hstep⟩
  | setLowD percent =>
      simp only [tunedStep, Option.ite_none_left_eq_some, Bool.not_eq_true] at hstep
      refine Or.inr (Or.inl ⟨percent, rfl, hstep.1, ?_⟩)
      rw [← Option.some.inj hstep.2, rbSetLowD]
      dsimp only
      split_ifs
      · exact Or.inl rfl
      · exact Or.inr rfl
  | setLowE percent =>
      simp only [tunedStep, Option.ite_none_left_eq_some, Bool.not_eq_true] at hstep
      refine Or.inr (Or.inr ⟨percent, rfl, hstep.1, ?_⟩)
      rw [← Option.some.inj hstep.2, rbSetLowE]
      dsimp only
      split_ifs
      · exact Or.inl rfl
      · exact Or.inr rfl

theorem tunedStep_counted {m : Move} (hok : Counted s) (hstep : tunedStep b s m = some s') :
    Counted s' := by
  rcases tunedStep_cases hstep with ⟨a, -, hact⟩ | ⟨p, -, -, rfl | rfl⟩ | ⟨p, -, -, rfl | rfl⟩
  · exact step_counted hok hact
  · exact hok.retune ⟨_, _, _, _, _, _, rfl⟩
  · exact hok
  · exact hok.retune ⟨_, _, _, _, _, _, rfl⟩
  · exact hok

end RingBuff.Threads
