import RingBuff.Core.Batch
import RingBuff.Core.Layout
import RingBuff.Ledger.Refinement

/-! # Runs of the ring and runs of the ledger

A ring that `rb_init` has set up represents the empty ledger of its
configuration. From there a run of the ring is a run of the ledger with the same
outputs, and what every call keeps of the ledger holds after every run.
-/

namespace RingBuff

/-- The ledger of a freshly initialised ring, given what the payload bytes were. -/
def Config.ledger (b : Build) (cfg : Config) (bytes : UInt32 → Nat → UInt8) : Ledger where
  capacity := (cfg.dims b).capacity
  slots := (cfg.dims b).slots
  cap := (cfg.dims b).slotSize - b.hdrSize
  head := 0
  tail := 0
  cachedHead := 0
  cachedTail := 0
  pending := none
  held := none
  fullLatch := false
  limit := (cfg.dims b).limit
  lowD := cfg.lowD
  lowE := cfg.lowE
  oversizePolicy := cfg.oversizePolicy
  cb := cfg.cb
  stats := {}
  header := fun _ => 0
  payload := bytes

theorem Config.ledger_ok {b : Build} {cfg : Config} (hvalid : cfg.valid b = true)
    (bytes : UInt32 → Nat → UInt8) : (cfg.ledger b bytes).Ok where
  cachedTail_le := le_rfl
  tail_le := le_rfl
  cachedHead_le := le_rfl
  span := Nat.zero_le _
  room := Nat.zero_le _
  limit_pos := Nat.pos_of_ne_zero fun heq =>
    (Config.valid_iff.mp hvalid).2.2.2.2.1 (UInt32.toNat_inj.mp heq)
  limit_capacity := UInt32.le_iff_toNat_le.mp (cfg.limit_le b).1
  limit_slots := UInt32.le_iff_toNat_le.mp (cfg.limit_le b).2
  pending_slot := fun r hr => by cases hr
  held_slot := fun s hs => by cases hs

/-- Along a run, the head counts the messages published. -/
theorem Ledger.run_head {L M : Ledger} {calls : List Call} {outputs : List Output}
    (hrun : ledger.run L calls = some (outputs, M)) :
    M.head = L.head + publishes calls outputs ∧ M.slots = L.slots := by
  induction calls generalizing L outputs with
  | nil =>
      obtain ⟨rfl, rfl⟩ := Prod.mk.inj (Option.some.inj hrun)
      exact ⟨rfl, rfl⟩
  | cons c rest ih =>
      obtain ⟨output, next, tail, hstep, hrest, rfl⟩ := ledger.run_cons_eq_some.mp hrun
      obtain ⟨rfl, rfl⟩ := ledger_step_eq_some.mp hstep
      obtain ⟨hhead, hslots⟩ := ih hrest
      rw [(L.call_head c).1] at hhead
      rw [L.call_slots c] at hslots
      refine ⟨?_, hslots⟩
      rw [hhead, publishes_cons, Nat.add_assoc]

theorem ledger_total (L : Ledger) (c : Call) : ∃ answer, ledger.step L c = some answer :=
  ⟨L.call c, rfl⟩

namespace Accepted

variable {b : Build} {addr scratch scratchSize : BitVec b.sizeBits} {cfg : Config}
  {before : Store} {rb : Rb}

theorem represents (hacc : Accepted b addr cfg scratch scratchSize before rb)
    {bytes : UInt32 → Nat → UInt8}
    (hbytes : ∀ i, i.toNat < rb.geo.slots.toNat → ∀ k < (payloadCap b rb.geo).toNat,
      rb.store.payload b rb.geo i k = bytes i k) :
    Represents b rb (cfg.ledger b bytes) := by
  have hgeo := hacc.geo_eq
  have heq := hacc.eq
  exact
    { capacity := by rw [hgeo]; rfl
      slots := by rw [hgeo]; rfl
      cap := by rw [hgeo]; rfl
      head := by rw [heq]; rfl
      tail := by rw [heq]; rfl
      cachedHead := by rw [heq]; rfl
      cachedTail := by rw [heq]; rfl
      pending := by rw [heq]; rfl
      active := by rw [heq]; rfl
      held := fun s hs => by cases hs
      fullLatch := by rw [heq]; rfl
      limit := by rw [heq]; rfl
      lowD := by rw [heq]; rfl
      lowE := by rw [heq]; rfl
      policy := by rw [heq]; rfl
      cb := by rw [heq]; rfl
      stats := by rw [heq]; rfl
      header := fun p _ hp => absurd hp (Nat.not_lt_zero p)
      payload := hbytes
      entered := fun _ p _ hp => absurd hp (Nat.not_lt_zero p) }

end Accepted

/-- A ring with a fixed layout and the ledger it represents. -/
structure Tracks (b : Build) (geo : Geometry) (rb : Rb) (L : Ledger) : Prop where
  layout : rb.geo = geo
  ok : L.Ok
  rep : Represents b rb L

/-- The ring that `rb_init` returns tracks the ledger of its configuration. -/
theorem Accepted.tracks {b : Build} {addr scratch scratchSize : BitVec b.sizeBits}
    {cfg : Config} {before : Store} {rb : Rb}
    (hacc : Accepted b addr cfg scratch scratchSize before rb) :
    Tracks b rb.geo rb (cfg.ledger b (rb.store.payload b rb.geo)) :=
  ⟨rfl, Config.ledger_ok hacc.valid _, hacc.represents fun _ _ _ _ => rfl⟩

namespace Tracks

variable {b : Build} {geo : Geometry} (hgeo : geo.Sound b)
  (haddr : b.mode = .pointer → geo.Addressable b)

theorem rbCount_toNat {rb : Rb} {L : Ledger} (hgeo : geo.Sound b) (htracks : Tracks b geo rb L) :
    (rbCount rb).toNat = L.count := by
  rw [htracks.rep.rbCount_eq htracks.ok (htracks.layout ▸ hgeo)]
  exact Counter.toNat_of_lt htracks.ok.count_lt

include hgeo haddr

/-- One call, and the ring tracks again. -/
theorem call {rb : Rb} {L : Ledger} (htracks : Tracks b geo rb L) (c : Call) :
    ∃ output rb', rbCall b rb c = some (output, rb') ∧
      ((output = (L.call c).1 ∧ Tracks b geo rb' (L.call c).2) ∨
        Represents.Stale b L ∧ c = .consume ∧ output = (L.refreshHead.call c).1 ∧
          Tracks b geo rb' (L.refreshHead.call c).2) := by
  obtain ⟨rfl, hok, hrep⟩ := htracks
  obtain ⟨⟨output, rb'⟩, hanswer, hans⟩ := hrep.call hok hgeo haddr c
  have hkeeps := rbCall_keeps b c hanswer
  refine ⟨output, rb', hanswer, hans.imp ?_ ?_⟩
  · rintro ⟨heq, hrep'⟩
    exact ⟨heq, hkeeps.geo, Ledger.call_ok hok c, hrep'⟩
  · rintro ⟨hstale, rfl, heq, hrep'⟩
    exact ⟨hstale, rfl, heq, hkeeps.geo,
      Ledger.call_ok (Ledger.refreshHead_ok hok) .consume, hrep'⟩

/-- Where stamps cannot go stale, the call is the ledger's call. -/
theorem call_exact {rb : Rb} {L : Ledger} (htracks : Tracks b geo rb L)
    (hwrap : b.mode = .lap → WrapSafe L.slots L.head) (c : Call) :
    ∃ rb', rbCall b rb c = some ((L.call c).1, rb') ∧ Tracks b geo rb' (L.call c).2 := by
  obtain ⟨output, rb', hanswer, ⟨rfl, hnext⟩ | ⟨hstale, -⟩⟩ := htracks.call hgeo haddr c
  · exact ⟨rb', hanswer, hnext⟩
  · exact absurd (hwrap hstale.1) hstale.2

/-- What every call and every look at the head keeps holds after every run. -/
theorem run_invariant {rb rb' : Rb} {L : Ledger} (htracks : Tracks b geo rb L)
    {calls : List Call} {outputs : List Output}
    (hrun : (ring b).run rb calls = some (outputs, rb'))
    (inv : List Output → Ledger → Prop) (hinv : inv [] L)
    (hrefresh : ∀ {seen L}, L.Ok → inv seen L → inv seen L.refreshHead)
    (hcall : ∀ {seen L c}, c ∈ calls → L.Ok → inv seen L →
      inv (seen ++ [(L.call c).1]) (L.call c).2) :
    ∃ M, Tracks b geo rb' M ∧ inv outputs M := by
  refine (ring b).run_invariant
    (fun seen state => ∃ M, Tracks b geo state M ∧ inv seen M) hrun ?_ [] ⟨L, htracks, hinv⟩
  rintro seen state c output next hmem ⟨M, hM, hinvM⟩ hstep
  obtain ⟨output', next', hanswer, hnext⟩ := hM.call hgeo haddr c
  obtain ⟨rfl, rfl⟩ : output' = output ∧ next' = next := by
    simpa [ring, hanswer] using hstep
  rcases hnext with ⟨rfl, hnext⟩ | ⟨-, rfl, rfl, hnext⟩
  · exact ⟨_, hnext, hcall hmem hM.ok hinvM⟩
  · exact ⟨_, hnext, hcall hmem (Ledger.refreshHead_ok hM.ok) (hrefresh hM.ok hinvM)⟩

/-- As long as positions and slots stay aligned, a run of the ring is a run of the
ledger. -/
theorem run_ledger {rb rb' : Rb} {L : Ledger} (htracks : Tracks b geo rb L)
    {calls : List Call} {outputs : List Output}
    (hrun : (ring b).run rb calls = some (outputs, rb'))
    (hwrap : WrapSafe L.slots (L.head + publishes calls outputs)) :
    ∃ M, ledger.run L calls = some (outputs, M) ∧ Tracks b geo rb' M := by
  induction calls generalizing rb L outputs with
  | nil =>
      obtain ⟨rfl, rfl⟩ := Prod.mk.inj (Option.some.inj hrun)
      exact ⟨L, rfl, htracks⟩
  | cons c rest ih =>
      obtain ⟨output, next, tail, hstep, hrest, rfl⟩ := (ring b).run_cons_eq_some.mp hrun
      obtain ⟨next', hanswer, hnext⟩ := htracks.call_exact hgeo haddr
        (fun _ => hwrap.mono (Nat.le_add_right _ _)) c
      obtain ⟨rfl, rfl⟩ : (L.call c).1 = output ∧ next' = next := by
        simpa [ring, hanswer] using hstep
      rw [publishes_cons, ← Nat.add_assoc, ← (L.call_head c).1, ← L.call_slots c] at hwrap
      obtain ⟨M, hledger, hM⟩ := ih hnext hrest hwrap
      exact ⟨M, ledger.run_cons_eq_some.mpr ⟨_, _, _, rfl, hledger, rfl⟩, hM⟩

/-- A run of the ledger is a run of the ring with the same outputs. -/
theorem run_exact {rb : Rb} {L M : Ledger} (htracks : Tracks b geo rb L)
    {calls : List Call} {outputs : List Output}
    (hrun : ledger.run L calls = some (outputs, M))
    (hwrap : b.mode = .lap → WrapSafe M.slots M.head) :
    ∃ rb', (ring b).run rb calls = some (outputs, rb') ∧ Tracks b geo rb' M := by
  have hback : ∀ {L : Ledger} {c : Call} {output next}, ledger.step L c = some (output, next) →
      (b.mode = .lap → WrapSafe next.slots next.head) →
      b.mode = .lap → WrapSafe L.slots L.head := by
    intro L c output next hstep hnext hmode
    obtain ⟨rfl, rfl⟩ := ledger_step_eq_some.mp hstep
    have hnext := hnext hmode
    rw [L.call_slots] at hnext
    exact hnext.mono (L.head_le_call c)
  refine ledger.run_simulation (ring b) (fun L => b.mode = .lap → WrapSafe L.slots L.head)
    (fun L rb => Tracks b geo rb L) hback ?_ hrun hwrap htracks
  intro L rb c output next hL hnext hstep
  have hwrap := hback hstep hnext
  obtain ⟨rfl, rfl⟩ := ledger_step_eq_some.mp hstep
  exact hL.call_exact hgeo haddr hwrap c

/-- A client gets from the ring what it gets from the ledger. -/
theorem exec_exact {α : Type} {rb : Rb} {L : Ledger} (htracks : Tracks b geo rb L)
    {p : Session α} {e : Execution Call Output α Ledger} (hexec : ledger.exec p L = some e)
    (hwrap : b.mode = .lap → WrapSafe e.last.slots e.last.head) :
    ∃ rb', (ring b).exec p rb = some ⟨e.trace, e.result, rb'⟩ ∧ Tracks b geo rb' e.last := by
  obtain ⟨rb', hrun, htracks'⟩ :=
    htracks.run_exact hgeo haddr (ledger.run_of_exec hexec) hwrap
  exact ⟨rb', ledger.exec_replay (ring b) hexec hrun, htracks'⟩

end Tracks

end RingBuff
