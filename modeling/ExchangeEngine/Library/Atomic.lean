import ExchangeEngine.Library.Transition
import Mathlib.Data.List.ReduceOption
import Mathlib.Logic.Function.Basic

/-!
Objects whose operations take effect at once. A client calls an operation, the object
acts on it at one moment of its own choice, and the client receives the answer; each
client has at most one operation open. A history of calls and returns is linearizable if
such moments can be found between each call and its return. A machine whose steps are
concurrent is shown to be linearizable by a simulation of its single steps.
-/

namespace ExchangeEngine.Atomic

open Transition

variable {π σ ι ο : Type*}

/-- What an observer of the clients sees. -/
inductive Action (π ι ο : Type*) where
  | call (client : π) (op : ι)
  | ret (client : π) (answer : ο)
  deriving DecidableEq

/-- Where a client stands with its operation. -/
inductive Status (ι ο : Type*) where
  | idle
  | called (op : ι)
  | answered (answer : ο)

structure State (π σ ι ο : Type*) where
  object : σ
  status : π → Status ι ο

/-- Before any call. -/
def State.init (π ι ο : Type*) (object : σ) : State π σ ι ο := ⟨object, fun _ => .idle⟩

variable [DecidableEq π] (acts : σ → ι → ο → σ → Prop)

/-- One step of the object and its clients. Only calls and returns are seen. -/
inductive Step : State π σ ι ο → Option (Action π ι ο) → State π σ ι ο → Prop
  | call {a : State π σ ι ο} {p : π} (op : ι) (idle : a.status p = .idle) :
      Step a (some (.call p op)) {a with status := Function.update a.status p (.called op)}
  | act {a : State π σ ι ο} {p : π} {op : ι} {answer : ο} {object : σ}
      (called : a.status p = .called op) (effect : acts a.object op answer object) :
      Step a none ⟨object, Function.update a.status p (.answered answer)⟩
  | ret {a : State π σ ι ο} {p : π} {answer : ο} (answered : a.status p = .answered answer) :
      Step a (some (.ret p answer)) {a with status := Function.update a.status p .idle}

/-- Some steps, with what is seen of them. -/
inductive Execution : State π σ ι ο → List (Action π ι ο) → State π σ ι ο → Prop
  | nil (a : State π σ ι ο) : Execution a [] a
  | cons {a a' a'' : State π σ ι ο} {seen : Option (Action π ι ο)} {history : List (Action π ι ο)}
      (step : Step acts a seen a') (rest : Execution a' history a'') :
      Execution a (seen.toList ++ history) a''

/-- The operations of a history can be thought to take effect one after another, each at a
moment between its call and its return. -/
def Linearizable (init : σ) (history : List (Action π ι ο)) : Prop :=
  ∃ a, Execution acts (State.init π ι ο init) history a

variable {acts} {a a' a'' : State π σ ι ο} {history history' : List (Action π ι ο)}

theorem Execution.append (h : Execution acts a history a')
    (h' : Execution acts a' history' a'') : Execution acts a (history ++ history') a'' := by
  induction h with
  | nil => exact h'
  | cons step _ ih =>
    rw [List.append_assoc]
    exact Execution.cons step (ih h')

theorem Execution.of_step {seen : Option (Action π ι ο)} (h : Step acts a seen a') :
    Execution acts a seen.toList a' := by
  have hexec := Execution.cons h (Execution.nil a')
  rwa [List.append_nil] at hexec

theorem Execution.call {p : π} (op : ι) (hidle : a.status p = .idle) :
    Execution acts a [.call p op] {a with status := Function.update a.status p (.called op)} :=
  .of_step (.call op hidle)

theorem Execution.act {p : π} {op : ι} {answer : ο} {object : σ} (hcalled : a.status p = .called op)
    (heffect : acts a.object op answer object) :
    Execution acts a [] ⟨object, Function.update a.status p (.answered answer)⟩ :=
  .of_step (.act hcalled heffect)

theorem Execution.ret {p : π} {answer : ο} (hanswered : a.status p = .answered answer) :
    Execution acts a [.ret p answer] {a with status := Function.update a.status p .idle} :=
  .of_step (.ret hanswered)

/-- The object acts at the moment of the return. -/
theorem Execution.act_ret {p : π} {op : ι} {answer : ο} {object : σ}
    (hcalled : a.status p = .called op) (heffect : acts a.object op answer object) :
    Execution acts a [.ret p answer] ⟨object, Function.update a.status p .idle⟩ := by
  have hacted := Execution.act hcalled heffect
  have hreturned := hacted.append (Execution.ret (Function.update_self p _ _))
  rwa [Function.update_idem] at hreturned

section Simulation

variable {τ κ : Type*} {step : τ → κ → Option (τ × Option (Action π ι ο))}
  {guard : τ → κ → Prop}

/-- A machine that reports calls and returns is simulated run by run if it is step by step. -/
theorem Execution.of_runs (R : τ → State π σ ι ο → Prop)
    (hstep : ∀ {s s' a i seen}, R s a → guard s i → step s i = some (s', seen) →
      ∃ a', Execution acts a seen.toList a' ∧ R s' a')
    {s s' : τ} {is : List κ} {os : List (Option (Action π ι ο))}
    (h : Runs step guard s is os s') (hR : R s a) :
    ∃ a', Execution acts a os.reduceOption a' ∧ R s' a' := by
  induction h generalizing a with
  | nil s => exact ⟨a, Execution.nil a, hR⟩
  | @cons _ _ _ _ seen _ os admitted accepted _ ih =>
    obtain ⟨a₁, hexec₁, hR₁⟩ := hstep hR admitted accepted
    obtain ⟨a₂, hexec₂, hR₂⟩ := ih hR₁
    refine ⟨a₂, ?_, hR₂⟩
    have hexec := hexec₁.append hexec₂
    cases seen <;> exact hexec

theorem Linearizable.of_runs {init : σ} (R : τ → State π σ ι ο → Prop)
    (hstep : ∀ {s s' a i seen}, R s a → guard s i → step s i = some (s', seen) →
      ∃ a', Execution acts a seen.toList a' ∧ R s' a')
    {s s' : τ} {is : List κ} {os : List (Option (Action π ι ο))}
    (h : Runs step guard s is os s') (hR : R s (State.init π ι ο init)) :
    Linearizable acts init os.reduceOption := by
  obtain ⟨a, hexec, -⟩ := Execution.of_runs R hstep h hR
  exact ⟨a, hexec⟩

end Simulation

end ExchangeEngine.Atomic
