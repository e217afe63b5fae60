import Mathlib.Data.List.Chain

/-! # The ring control of the programmable logic

`rb_spsc_ctrl` owns head and tail in registers; `rb_pl_producer` and
`rb_pl_consumer` are state machines that request a slot, hand it to a datapath
and report when it is done. The three are composed as the wiring diagrams of the
documentation show: all registers take their next values at one clock edge, from
the values before it.

A request takes one edge to reach the control and its grant one edge to come
back, but the state machines wait for it during a single cycle. So every grant
arrives when the machine has already gone back to retry, and no slot ever reaches
a datapath.
-/

namespace RingBuff.Hdl

/-- The registers of `rb_spsc_ctrl`. -/
structure Ctrl where
  head : UInt32 := 0
  tail : UInt32 := 0
  prodGrant : Bool := false
  consGrant : Bool := false
  prodIndex : UInt32 := 0
  consIndex : UInt32 := 0
  deriving DecidableEq, Repr

/-- `full_o`. The parameter `LIMIT` is compared as 32 bits. -/
def Ctrl.full (limit : UInt32) (ctrl : Ctrl) : Bool := limit ≤ ctrl.head - ctrl.tail

/-- `empty_o`. -/
def Ctrl.empty (ctrl : Ctrl) : Bool := ctrl.head = ctrl.tail

/-- One edge of `rb_spsc_ctrl`. -/
def rbSpscCtrl (limit : UInt32) (rstN prodReq prodDone consReq consDone : Bool) (ctrl : Ctrl) :
    Ctrl :=
  if !rstN then {}
  else
    { head := if prodDone then ctrl.head + 1 else ctrl.head
      tail := if consDone then ctrl.tail + 1 else ctrl.tail
      prodGrant := prodReq && !ctrl.full limit
      consGrant := consReq && !ctrl.empty
      prodIndex := if prodReq && !ctrl.full limit then ctrl.head else ctrl.prodIndex
      consIndex := if consReq && !ctrl.empty then ctrl.tail else ctrl.consIndex }

/-- The states of both machines; the last one is `S_PUB` or `S_REL`. -/
inductive PortState where
  | idle
  | wait
  | hold
  | finish
  deriving DecidableEq, Repr

/-- The registers of `rb_pl_producer` and of `rb_pl_consumer`. -/
structure Port where
  state : PortState := .idle
  req : Bool := false
  done : Bool := false
  valid : Bool := false
  slotIndex : UInt32 := 0
  deriving DecidableEq, Repr

/-- One edge of a machine: `ready` is the answer of the datapath. -/
def Port.step (rstN grant : Bool) (index : UInt32) (ready : Bool) (port : Port) : Port :=
  if !rstN then {}
  else
    let port := { port with req := false, done := false }
    match port.state with
    | .idle => { port with req := true, state := .wait }
    | .wait =>
        if grant then { port with slotIndex := index, valid := true, state := .hold }
        else { port with state := .idle }
    | .hold => if ready then { port with valid := false, state := .finish } else port
    | .finish => { port with done := true, state := .idle }

/-- One edge of `rb_pl_producer`: `valid` is `space_valid`. -/
def rbPlProducer (rstN prodGrant : Bool) (prodIndex : UInt32) (spaceDone : Bool) (port : Port) :
    Port :=
  port.step rstN prodGrant prodIndex spaceDone

/-- One edge of `rb_pl_consumer`: `valid` is `data_valid`. -/
def rbPlConsumer (rstN consGrant : Bool) (consIndex : UInt32) (dataReady : Bool) (port : Port) :
    Port :=
  port.step rstN consGrant consIndex dataReady

/-! ## The composition -/

structure Inputs where
  rstN : Bool := true
  spaceDone : Bool
  dataReady : Bool
  deriving DecidableEq, Repr

/-- All registers. The default values are those after a reset. -/
structure Pl where
  ctrl : Ctrl := {}
  producer : Port := {}
  consumer : Port := {}
  deriving DecidableEq, Repr

/-- One clock edge. -/
def Pl.step (limit : UInt32) (pl : Pl) (inputs : Inputs) : Pl where
  ctrl := rbSpscCtrl limit inputs.rstN pl.producer.req pl.producer.done pl.consumer.req
    pl.consumer.done pl.ctrl
  producer := rbPlProducer inputs.rstN pl.ctrl.prodGrant pl.ctrl.prodIndex inputs.spaceDone
    pl.producer
  consumer := rbPlConsumer inputs.rstN pl.ctrl.consGrant pl.ctrl.consIndex inputs.dataReady
    pl.consumer

/-- The registers after a sequence of edges. -/
def Pl.run (limit : UInt32) (pl : Pl) (inputs : List Inputs) : Pl := inputs.foldl (Pl.step limit) pl

@[simp] theorem Pl.run_nil (limit : UInt32) (pl : Pl) : pl.run limit [] = pl := rfl

@[simp] theorem Pl.run_cons (limit : UInt32) (pl : Pl) (input : Inputs) (rest : List Inputs) :
    pl.run limit (input :: rest) = (pl.step limit input).run limit rest := rfl

theorem Pl.step_reset (limit : UInt32) (pl : Pl) {input : Inputs} (hrst : input.rstN = false) :
    pl.step limit input = {} := by
  simp [Pl.step, rbSpscCtrl, rbPlProducer, rbPlConsumer, Port.step, hrst]

/-! ## What becomes of the grants -/

/-- A granted slot is taken at the next edge: the machine is waiting for it, and then
holds it for the datapath. -/
def Taken (grant : Bool) (index : UInt32) (port next : Port) : Prop :=
  grant = true →
    port.state = .wait ∧ next.state = .hold ∧ next.slotIndex = index ∧ next.valid = true

/-- Both machines take what is granted to them. -/
def Pl.Handed (limit : UInt32) (pl : Pl) : Prop :=
  ∀ spaceDone dataReady,
    let next := pl.step limit { spaceDone, dataReady }
    Taken pl.ctrl.prodGrant pl.ctrl.prodIndex pl.producer next.producer ∧
      Taken pl.ctrl.consGrant pl.ctrl.consIndex pl.consumer next.consumer

/-- A machine that waits takes what is granted. -/
theorem Port.taken_of_wait {grant ready : Bool} {index : UInt32} {port : Port}
    (hwait : grant = true → port.state = .wait) :
    Taken grant index port (port.step true grant index ready) := by
  intro hgrant
  simp [Port.step, hwait hgrant, hgrant]

theorem Pl.handed_iff (limit : UInt32) (pl : Pl) : pl.Handed limit ↔
    (pl.ctrl.prodGrant = true → pl.producer.state = .wait) ∧
      (pl.ctrl.consGrant = true → pl.consumer.state = .wait) := by
  constructor
  · intro hhanded
    obtain ⟨hprod, hcons⟩ := hhanded false false
    exact ⟨fun hgrant => (hprod hgrant).1, fun hgrant => (hcons hgrant).1⟩
  · rintro ⟨hprod, hcons⟩ spaceDone dataReady
    exact ⟨Port.taken_of_wait hprod, Port.taken_of_wait hcons⟩

/-- The machine is idle without a request, or waits for the answer to one that the
control has not seen yet. -/
def Port.Retries (grant : Bool) (port : Port) : Prop :=
  port.done = false ∧ port.valid = false ∧
    (port.state = .idle ∧ port.req = false ∨ port.state = .wait ∧ port.req = true ∧ grant = false)

/-- Nothing is ever published. -/
structure Pl.Stalled (pl : Pl) : Prop where
  head : pl.ctrl.head = 0
  tail : pl.ctrl.tail = 0
  producer : pl.producer.Retries pl.ctrl.prodGrant
  consumer : pl.consumer.Retries pl.ctrl.consGrant

/-- The machine misses its grant: when it arrives, the machine has gone back to
`idle`. -/
theorem Port.Retries.step {grant grant' : Bool} {port : Port} (hport : port.Retries grant)
    (hgrant : port.req = false → grant' = false) (index : UInt32) (ready : Bool) :
    (port.step true grant index ready).Retries grant' := by
  obtain ⟨hdone, hvalid, ⟨hstate, hreq⟩ | ⟨hstate, hreq, rfl⟩⟩ := hport
  · simp [Port.Retries, Port.step, hstate, hvalid, hgrant hreq]
  · simp [Port.Retries, Port.step, hstate, hvalid]

theorem Pl.Stalled.step {pl : Pl} (hpl : pl.Stalled) (limit : UInt32) (input : Inputs) :
    (pl.step limit input).Stalled := by
  cases hrst : input.rstN with
  | false =>
      rw [pl.step_reset limit hrst]
      exact ⟨rfl, rfl, ⟨rfl, rfl, Or.inl ⟨rfl, rfl⟩⟩, ⟨rfl, rfl, Or.inl ⟨rfl, rfl⟩⟩⟩
  | true =>
      have hp : pl.producer.done = false := hpl.producer.1
      have hc : pl.consumer.done = false := hpl.consumer.1
      refine ⟨?_, ?_, ?_, ?_⟩
      · simp [Pl.step, rbSpscCtrl, hrst, hp, hpl.head]
      · simp [Pl.step, rbSpscCtrl, hrst, hc, hpl.tail]
      · simp only [Pl.step, rbPlProducer, hrst]
        exact hpl.producer.step (fun hreq => by simp [rbSpscCtrl, hreq]) _ _
      · simp only [Pl.step, rbPlConsumer, hrst]
        exact hpl.consumer.step (fun hreq => by simp [rbSpscCtrl, hreq]) _ _

/-- From reset, whatever the datapaths answer and whenever the reset is repeated, no
slot is ever handed to a datapath and both counters stay at zero. -/
theorem run_stalled (limit : UInt32) (inputs : List Inputs) :
    (Pl.run limit {} inputs).Stalled := by
  have hrun : ∀ pl : Pl, pl.Stalled → (pl.run limit inputs).Stalled := by
    induction inputs with
    | nil => exact fun pl hpl => hpl
    | cons input rest ih => exact fun pl hpl => ih _ (hpl.step limit input)
  exact hrun {} ⟨rfl, rfl, ⟨rfl, rfl, Or.inl ⟨rfl, rfl⟩⟩, ⟨rfl, rfl, Or.inl ⟨rfl, rfl⟩⟩⟩

/-- After the first edge the requests are out and nothing is granted. -/
def Pl.first : Pl where
  producer := { state := .wait, req := true }
  consumer := { state := .wait, req := true }

theorem Pl.step_first (limit : UInt32) {input : Inputs} (hrst : input.rstN = true) :
    Pl.step limit {} input = Pl.first := by
  simp [Pl.step, Pl.first, rbSpscCtrl, rbPlProducer, rbPlConsumer, Port.step, hrst]

/-- After the second edge the producer is granted a slot and has stopped waiting. -/
theorem Pl.step_second {limit : UInt32} (hlimit : 0 < limit) {input : Inputs}
    (hrst : input.rstN = true) :
    (Pl.first.step limit input).ctrl.prodGrant = true ∧
      (Pl.first.step limit input).producer.state = .idle := by
  have hroom : ¬ limit ≤ 0 := UInt32.not_le.mpr hlimit
  simp [Pl.step, Pl.first, rbSpscCtrl, rbPlProducer, Port.step, Ctrl.full, hrst, hroom]

/-- The property along a run, from the state the run starts in. -/
def AllHanded (limit : UInt32) (pl : Pl) (inputs : List Inputs) : Prop :=
  ∀ seen, seen <+: inputs → (pl.run limit seen).Handed limit

theorem allHanded_cons {limit : UInt32} {pl : Pl} {input : Inputs} {rest : List Inputs} :
    AllHanded limit pl (input :: rest) ↔
      pl.Handed limit ∧ AllHanded limit (pl.step limit input) rest := by
  constructor
  · intro hall
    exact ⟨hall [] (List.nil_prefix), fun seen hseen =>
      hall (input :: seen) (List.cons_prefix_cons.mpr ⟨rfl, hseen⟩)⟩
  · rintro ⟨hnow, hrest⟩ seen hseen
    cases seen with
    | nil => exact hnow
    | cons first tail =>
        obtain ⟨rfl, htail⟩ := List.cons_prefix_cons.mp hseen
        exact hrest tail htail

theorem allHanded_nil {limit : UInt32} {pl : Pl} : AllHanded limit pl [] ↔ pl.Handed limit := by
  simp [AllHanded]

/-- No two edges in a row without a reset. -/
def Interrupted (inputs : List Inputs) : Prop :=
  inputs.IsChain fun first second => ¬ (first.rstN = true ∧ second.rstN = true)

theorem interrupted_cons {input : Inputs} {rest : List Inputs} :
    Interrupted (input :: rest) ↔
      (input.rstN = true → ∀ next ∈ rest.head?, next.rstN = false) ∧ Interrupted rest := by
  simp only [Interrupted, List.isChain_cons, not_and, Bool.not_eq_true]
  exact and_congr_left fun _ =>
    ⟨fun hall hrst next hnext => hall next hnext hrst,
      fun hall next hnext hrst => hall hrst next hnext⟩

/-- The two states a run alternates between until a grant is lost. -/
theorem allHanded_iff {limit : UInt32} (hlimit : 0 < limit) (inputs : List Inputs) :
    (AllHanded limit {} inputs ↔ Interrupted inputs) ∧
      (AllHanded limit Pl.first inputs ↔
        (∀ next ∈ inputs.head?, next.rstN = false) ∧ Interrupted inputs) := by
  have hreset : Pl.Handed limit {} := (Pl.handed_iff limit {}).mpr (by simp)
  have hfirst : Pl.Handed limit Pl.first :=
    (Pl.handed_iff limit Pl.first).mpr (by simp [Pl.first])
  induction inputs with
  | nil => simp [allHanded_nil, hreset, hfirst, Interrupted]
  | cons input rest ih =>
      obtain ⟨ihReset, ihFirst⟩ := ih
      rw [allHanded_cons, allHanded_cons, interrupted_cons]
      cases hrst : input.rstN with
      | false =>
          rw [Pl.step_reset limit _ hrst, Pl.step_reset limit _ hrst]
          simp [hreset, hfirst, ihReset, hrst]
      | true =>
          have hlost : ¬ AllHanded limit (Pl.first.step limit input) rest := by
            intro hall
            have hhanded := (Pl.handed_iff limit _).mp (hall [] List.nil_prefix)
            obtain ⟨hgrant, hidle⟩ := Pl.step_second hlimit hrst
            exact absurd ((hhanded.1 hgrant).symm.trans hidle) (by decide)
          simp [Pl.step_first limit hrst, hreset, ihFirst, hlost, hrst]

/-- For every positive `LIMIT`: every granted slot is handed to its datapath in all
states of a run from reset exactly if the run never makes two edges in a row without
a reset. -/
theorem grants_handed_iff {limit : UInt32} (hlimit : 0 < limit) (inputs : List Inputs) :
    (∀ seen, seen <+: inputs → (Pl.run limit {} seen).Handed limit) ↔ Interrupted inputs :=
  (allHanded_iff hlimit inputs).1

/-- A reset after every edge, with `LIMIT` at its default. -/
theorem interrupted_grants_handed :
    AllHanded 16 {} [⟨true, false, false⟩, ⟨false, true, false⟩, ⟨true, false, true⟩] :=
  (grants_handed_iff (by decide) _).mpr (by simp [Interrupted])

/-- Two edges out of reset: slot 0 is granted to a producer that is idle again, and
after the third edge the grant is gone. -/
theorem grant_dropped :
    let pl := Pl.run 16 {} [⟨true, false, false⟩, ⟨true, false, false⟩]
    (pl.ctrl.prodGrant, pl.ctrl.prodIndex, pl.producer.state) = (true, 0, .idle) ∧
      ¬ pl.Handed 16 ∧
      ((pl.step 16 ⟨true, false, false⟩).ctrl.prodGrant,
        (pl.step 16 ⟨true, false, false⟩).producer.valid) = (false, false) := by
  refine ⟨rfl, ?_, rfl⟩
  rw [Pl.handed_iff]
  decide

end RingBuff.Hdl
