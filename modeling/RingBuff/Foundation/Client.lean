import RingBuff.Foundation.Automaton

/-! # Programs that call an automaton

A client is a finite tree: it has a result, or it makes a call and goes on from
the answer. Executing a client on an automaton leaves a trace of its calls and
their answers. The trace is a run of the automaton, and a client that gets the
same answers from another automaton makes the same calls and has the same
result; so facts about runs carry over to clients.
-/

namespace RingBuff

universe u v w

/-- A program that makes calls and decides from the answers how to go on. -/
inductive Client (ι : Type u) (ω : Type v) (α : Type w) where
  | done (result : α)
  | call (input : ι) (next : ω → Client ι ω α)

/-- A finished execution: the calls with their answers, the result of the client
and the state it leaves behind. -/
structure Execution (ι ω α σ : Type*) where
  trace : List (ι × ω)
  result : α
  last : σ

namespace Client

variable {ι : Type u} {ω : Type v} {α β : Type w}

/-- Go on with the result of a client. -/
def bind : Client ι ω α → (α → Client ι ω β) → Client ι ω β
  | .done result, f => f result
  | .call input next, f => .call input fun output => (next output).bind f

instance : Monad (Client ι ω) where
  pure := .done
  bind := .bind

/-- A client that makes one call. -/
def ask (input : ι) : Client ι ω ω := .call input .done

/-- The same client with its calls under other names. -/
def mapInput {κ : Type*} (f : ι → κ) : Client ι ω α → Client κ ω α
  | .done result => .done result
  | .call input next => .call (f input) fun output => (next output).mapInput f

theorem bind_assoc {γ : Type w} (p : Client ι ω α) (f : α → Client ι ω β) (g : β → Client ι ω γ) :
    (p.bind f).bind g = p.bind fun a => (f a).bind g := by
  induction p with
  | done result => rfl
  | call input next ih => exact congrArg (Client.call input) (funext ih)

theorem mapInput_bind {κ : Type*} (f : ι → κ) (p : Client ι ω α) (g : α → Client ι ω β) :
    (p.bind g).mapInput f = (p.mapInput f).bind fun a => (g a).mapInput f := by
  induction p with
  | done result => rfl
  | call input next ih => exact congrArg (Client.call (f input)) (funext ih)

/-- After these calls with these answers the client goes on as another. -/
inductive Leads : Client ι ω α → List (ι × ω) → Client ι ω α → Prop
  | nil (p : Client ι ω α) : Leads p [] p
  | cons {input : ι} {output : ω} {next : ω → Client ι ω α} {trace : List (ι × ω)}
      {q : Client ι ω α} (hrest : Leads (next output) trace q) :
      Leads (.call input next) ((input, output) :: trace) q

theorem Leads.one (input : ι) (output : ω) (next : ω → Client ι ω α) :
    Leads (.call input next) [(input, output)] (next output) := .cons (.nil _)

theorem Leads.bind {p q : Client ι ω α} {trace : List (ι × ω)} (hleads : Leads p trace q)
    (f : α → Client ι ω β) : Leads (p.bind f) trace (q.bind f) := by
  induction hleads with
  | nil p => exact .nil _
  | cons _ ih => exact .cons ih

theorem Leads.append {p q r : Client ι ω α} {front rest : List (ι × ω)}
    (hfront : Leads p front q) (hrest : Leads q rest r) : Leads p (front ++ rest) r := by
  induction hfront with
  | nil p => exact hrest
  | cons _ ih => exact .cons (ih hrest)

/-- Every call the client may make satisfies a condition. -/
def All (P : ι → Prop) : Client ι ω α → Prop
  | .done _ => True
  | .call input next => P input ∧ ∀ output, (next output).All P

end Client

namespace Automaton

variable {ι : Type u} {ω : Type v} {α β : Type w} {σ τ : Type*}

/-- Execute a client. -/
def exec (M : Automaton σ ι ω) : Client ι ω α → σ → Option (Execution ι ω α σ)
  | .done result, state => some ⟨[], result, state⟩
  | .call input next, state =>
      match M.step state input with
      | none => none
      | some (output, state) =>
          (M.exec (next output) state).map fun e =>
            { e with trace := (input, output) :: e.trace }

variable (M : Automaton σ ι ω)

@[simp] theorem exec_done (result : α) (state : σ) :
    M.exec (.done result) state = some ⟨[], result, state⟩ := rfl

theorem exec_call_eq_some {input : ι} {next : ω → Client ι ω α} {state : σ}
    {e : Execution ι ω α σ} :
    M.exec (.call input next) state = some e ↔
      ∃ output middle rest, M.step state input = some (output, middle) ∧
        M.exec (next output) middle = some rest ∧
        e = { rest with trace := (input, output) :: rest.trace } := by
  rw [exec]
  cases hstep : M.step state input with
  | none => simp
  | some answer =>
      obtain ⟨output, middle⟩ := answer
      simp only [Option.map_eq_some_iff, Option.some.injEq, Prod.mk.injEq]
      constructor
      · rintro ⟨rest, hrest, rfl⟩
        exact ⟨output, middle, rest, ⟨rfl, rfl⟩, hrest, rfl⟩
      · rintro ⟨output', middle', rest, ⟨rfl, rfl⟩, hrest, rfl⟩
        exact ⟨rest, hrest, rfl⟩

/-- Executing one client after the other. -/
theorem exec_bind {p : Client ι ω α} {f : α → Client ι ω β} {state : σ}
    {e : Execution ι ω α σ} {e' : Execution ι ω β σ} (hfirst : M.exec p state = some e)
    (hsecond : M.exec (f e.result) e.last = some e') :
    M.exec (p.bind f) state = some { e' with trace := e.trace ++ e'.trace } := by
  induction p generalizing state e with
  | done result =>
      obtain rfl := Option.some.inj hfirst
      exact hsecond
  | call input next ih =>
      obtain ⟨output, middle, rest, hstep, hrest, rfl⟩ := M.exec_call_eq_some.mp hfirst
      exact M.exec_call_eq_some.mpr ⟨output, middle, _, hstep, ih output hrest hsecond, rfl⟩

/-- An execution of two clients one after the other consists of one of each. -/
theorem exists_exec_of_bind {p : Client ι ω α} {f : α → Client ι ω β} {state : σ}
    {e' : Execution ι ω β σ} (hexec : M.exec (p.bind f) state = some e') :
    ∃ e rest, M.exec p state = some e ∧ M.exec (f e.result) e.last = some rest ∧
      e' = { rest with trace := e.trace ++ rest.trace } := by
  induction p generalizing state e' with
  | done result => exact ⟨_, e', rfl, hexec, rfl⟩
  | call input next ih =>
      obtain ⟨output, middle, tail, hstep, htail, rfl⟩ := M.exec_call_eq_some.mp hexec
      obtain ⟨e, rest, hfirst, hsecond, rfl⟩ := ih output htail
      exact ⟨_, rest, M.exec_call_eq_some.mpr ⟨output, middle, e, hstep, hfirst, rfl⟩,
        hsecond, rfl⟩

/-- The trace of a client is a run. -/
theorem run_of_exec {p : Client ι ω α} {state : σ} {e : Execution ι ω α σ}
    (hexec : M.exec p state = some e) :
    M.run state (e.trace.map Prod.fst) = some (e.trace.map Prod.snd, e.last) := by
  induction p generalizing state e with
  | done result =>
      obtain rfl := Option.some.inj hexec
      rfl
  | call input next ih =>
      obtain ⟨output, middle, rest, hstep, hrest, rfl⟩ := M.exec_call_eq_some.mp hexec
      exact M.run_cons_eq_some.mpr ⟨output, middle, _, hstep, ih output hrest, rfl⟩

/-- An automaton that gives these answers executes the client to its end. -/
theorem exec_of_leads {p : Client ι ω α} {trace : List (ι × ω)} {result : α} {state last : σ}
    (hleads : p.Leads trace (.done result))
    (hrun : M.run state (trace.map Prod.fst) = some (trace.map Prod.snd, last)) :
    M.exec p state = some ⟨trace, result, last⟩ := by
  generalize hdone : Client.done result = q at hleads
  induction hleads generalizing state with
  | nil p =>
      subst hdone
      obtain ⟨-, rfl⟩ := Prod.mk.inj (Option.some.inj hrun)
      rfl
  | cons _ ih =>
      obtain ⟨output', next, tail, hstep, hrest, heq⟩ := M.run_cons_eq_some.mp hrun
      obtain ⟨rfl, rfl⟩ := List.cons.inj heq
      exact M.exec_call_eq_some.mpr ⟨_, next, _, hstep, ih hrest hdone, rfl⟩

theorem forall_trace_of_all {P : ι → Prop} {p : Client ι ω α} (hall : p.All P) {state : σ}
    {e : Execution ι ω α σ} (hexec : M.exec p state = some e) : ∀ x ∈ e.trace, P x.1 := by
  induction p generalizing state e with
  | done result =>
      obtain rfl := Option.some.inj hexec
      intro x hx
      cases hx
  | call input next ih =>
      obtain ⟨output, middle, rest, -, hrest, rfl⟩ := M.exec_call_eq_some.mp hexec
      obtain ⟨hinput, hnext⟩ := hall
      exact List.forall_mem_cons.mpr ⟨hinput, ih output (hnext output) hrest⟩

/-- An automaton that answers the calls of a trace in the same way executes the
client in the same way. -/
theorem exec_replay (N : Automaton τ ι ω) {p : Client ι ω α} {state : σ} {other last : τ}
    {e : Execution ι ω α σ} (hexec : M.exec p state = some e)
    (hrun : N.run other (e.trace.map Prod.fst) = some (e.trace.map Prod.snd, last)) :
    N.exec p other = some ⟨e.trace, e.result, last⟩ := by
  induction p generalizing state other e with
  | done result =>
      obtain rfl := Option.some.inj hexec
      obtain ⟨-, rfl⟩ := Prod.mk.inj (Option.some.inj hrun)
      rfl
  | call input next ih =>
      obtain ⟨output, middle, rest, hstep, hrest, rfl⟩ := M.exec_call_eq_some.mp hexec
      obtain ⟨output', middle', outputs, hstep', hrun', heq⟩ := N.run_cons_eq_some.mp hrun
      obtain ⟨rfl, rfl⟩ := List.cons.inj heq
      exact N.exec_call_eq_some.mpr ⟨_, middle', _, hstep', ih _ hrest hrun', rfl⟩

/-- An automaton that answers the renamed calls in the same way executes the renamed
client in the same way. -/
theorem exec_mapInput {κ : Type*} (N : Automaton σ κ ω) {f : ι → κ}
    (hstep : ∀ state input, N.step state (f input) = M.step state input) {p : Client ι ω α}
    {state : σ} {e : Execution ι ω α σ} (hexec : M.exec p state = some e) :
    N.exec (p.mapInput f) state = some ⟨e.trace.map (Prod.map f id), e.result, e.last⟩ := by
  induction p generalizing state e with
  | done result =>
      obtain rfl := Option.some.inj hexec
      rfl
  | call input next ih =>
      obtain ⟨output, middle, rest, hone, hrest, rfl⟩ := M.exec_call_eq_some.mp hexec
      exact N.exec_call_eq_some.mpr
        ⟨output, middle, _, (hstep state input).trans hone, ih output hrest, rfl⟩

/-- An automaton that accepts every call executes every client. -/
theorem exists_exec (htotal : ∀ state input, ∃ answer, M.step state input = some answer)
    (p : Client ι ω α) (state : σ) : ∃ e, M.exec p state = some e := by
  induction p generalizing state with
  | done result => exact ⟨_, rfl⟩
  | call input next ih =>
      obtain ⟨⟨output, middle⟩, hstep⟩ := htotal state input
      obtain ⟨rest, hrest⟩ := ih output middle
      exact ⟨_, M.exec_call_eq_some.mpr ⟨output, middle, rest, hstep, hrest, rfl⟩⟩

end Automaton

end RingBuff
