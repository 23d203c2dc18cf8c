import ExchangeEngine.Library.Transition
import Mathlib.Logic.Function.Iterate

/-!
The producer thread of `benchmark/concurrent_queue/utils.hpp`, which counts up until a flag is
set, and how a benchmark stops it. The queue is a parameter there. Here each of its calls takes
effect at one moment, a push fails only if the queue is full and a pop only if it is empty.
The producer may be past its last look at the flag when the flag is set, so one more element
can come in, even after the benchmark has found the queue empty.
-/

namespace ExchangeEngine

open Transition

namespace ProducerThread

variable {T : Type}

/-- Where the loop of the producer is. It is about to load the flag at the head of the `for`
loop or of the `while` loop, or to push its value. -/
inductive Phase (T : Type) where
  | checking (value : T)
  | retrying (value : T)
  | enqueuing (value : T)
  | returned
  deriving DecidableEq, Repr

/-- Where the benchmark is, the last three inside `stop_producer`. -/
inductive Stage where
  | consuming
  | draining
  | joining
  | joined
  deriving DecidableEq, Repr

/-- The queue, the flag and the two threads, with what was taken out, how many elements were
pushed since the flag was set, and how many were drained. -/
structure State (T : Type) where
  queue : List T := []
  done : Bool := false
  producer : Phase T
  consumer : Stage := .consuming
  taken : List T := []
  late : Nat := 0
  drained : Nat := 0
  deriving DecidableEq, Repr

inductive Event where
  | producer
  | consume
  | stop
  | drain
  | join
  deriving DecidableEq, Repr

/-- A step of `spawn_single_producer`'s thread, as long as it runs. -/
def producerStep (N : Nat) (next : T → T) (s : State T) : Option (State T) :=
  match s.producer with
  | .checking value | .retrying value =>
    some {s with producer := if s.done then .returned else .enqueuing value}
  | .enqueuing value =>
    if s.queue.length < N then
      some {s with
        queue := s.queue ++ [value]
        producer := .checking (next value)
        late := if s.done then s.late + 1 else s.late}
    else some {s with producer := .retrying value}
  | .returned => none

/-- A pop of the benchmark, of one of `stop_producer`, and its other two steps. -/
def step (N : Nat) (next : T → T) (s : State T) : Event → Option (State T × Unit)
  | .producer => (producerStep N next s).map fun s => (s, ())
  | .consume =>
    if s.consumer = .consuming then
      match s.queue with
      | [] => some (s, ())
      | value :: rest => some ({s with queue := rest, taken := s.taken ++ [value]}, ())
    else none
  | .stop =>
    if s.consumer = .consuming then some ({s with done := true, consumer := .draining}, ())
    else none
  | .drain =>
    if s.consumer = .draining then
      match s.queue with
      | [] => some ({s with consumer := .joining}, ())
      | value :: rest =>
        some ({s with
          queue := rest, taken := s.taken ++ [value], drained := s.drained + 1}, ())
    else none
  | .join =>
    match s.consumer, s.producer with
    | .joining, .returned => some ({s with consumer := .joined}, ())
    | _, _ => none

/-- From an empty queue, with the producer at its first value. -/
def Reached (N : Nat) (next : T → T) (first : T) (s : State T) : Prop :=
  Reachable (step N next) (fun _ _ => True) {producer := .checking first} s

/-- The first values of the producer. -/
def values (next : T → T) (first : T) (n : Nat) : List T :=
  (List.range n).map fun i => next^[i] first

theorem values_succ (next : T → T) (first : T) (n : Nat) :
    values next first (n + 1) = values next first n ++ [next^[n] first] := by
  rw [values, List.range_succ, List.map_append]
  rfl

@[simp] theorem length_values (next : T → T) (first : T) (n : Nat) :
    (values next first n).length = n := by
  rw [values, List.length_map, List.length_range]

theorem values_prefix {next : T → T} {first : T} {n : Nat} {xs ys : List T}
    (h : xs ++ ys = values next first n) : xs = values next first xs.length := by
  have hlength := congrArg List.length h
  rw [List.length_append, length_values] at hlength
  have hle : xs.length ≤ n := by omega
  calc xs = (values next first n).take xs.length := by rw [← h, List.take_left]
    _ = (List.range (min xs.length n)).map fun i => next^[i] first := by
      rw [values, ← List.map_take, List.take_range]
    _ = values next first xs.length := by rw [Nat.min_eq_left hle, values]

/-- What the producer is about to push. -/
def Phase.Holds (x : T) : Phase T → Prop
  | .checking value | .retrying value | .enqueuing value => value = x
  | .returned => True

/-- A producer that may still push has not pushed since the flag was set. -/
def Phase.allowance : Phase T → Nat
  | .retrying _ | .enqueuing _ => 0
  | .checking _ | .returned => 1

/-- How many steps the producer has left when the flag is set. -/
def Phase.stepsLeft : Phase T → Nat
  | .enqueuing _ => 2
  | .checking _ | .retrying _ => 1
  | .returned => 0

structure Inv (N : Nat) (next : T → T) (first : T) (s : State T) (n : Nat) : Prop where
  sequence : s.taken ++ s.queue = values next first n
  value : s.producer.Holds (next^[n] first)
  room : s.queue.length ≤ N
  flag : s.done = true ↔ s.consumer ≠ .consuming
  late : s.late ≤ s.producer.allowance
  early : s.done = false → s.late = 0 ∧ s.drained = 0 ∧ s.producer ≠ .returned
  drains : s.done = true → s.drained + s.queue.length ≤ N + s.late
  left : s.consumer = .joining ∨ s.consumer = .joined → s.queue.length ≤ s.late
  joined : s.consumer = .joined → s.producer = .returned

def Sound (N : Nat) (next : T → T) (first : T) (s : State T) : Prop := ∃ n, Inv N next first s n

variable {N : Nat} {next : T → T} {first : T} {s s' : State T} {n : Nat}

namespace Inv

variable (h : Inv N next first s n)
include h

/-- The producer loads the flag. -/
theorem look {value : T} (hphase : s.producer = .checking value ∨ s.producer = .retrying value) :
    Inv N next first {s with producer := if s.done then .returned else .enqueuing value} n := by
  have hvalue : value = next^[n] first := by
    have hholds := h.value
    rcases hphase with hphase | hphase
    · rwa [hphase] at hholds
    · rwa [hphase] at hholds
  have hrunning : s.producer ≠ .returned := by
    rcases hphase with hphase | hphase
    · rw [hphase]
      nofun
    · rw [hphase]
      nofun
  cases hdone : s.done with
  | true =>
    have hle : s.late ≤ 1 := by
      have hlate := h.late
      rcases hphase with hphase | hphase
      · rw [hphase] at hlate
        exact hlate
      · rw [hphase] at hlate
        exact Nat.le_succ_of_le hlate
    exact {h with
      value := trivial, late := hle, joined := fun _ => rfl
      flag := hdone ▸ h.flag, drains := hdone ▸ h.drains
      early := fun hnot => absurd hnot (by simp)}
  | false =>
    obtain ⟨hlate, hdrained, -⟩ := h.early hdone
    exact {h with
      value := hvalue, late := Nat.le_of_eq hlate
      flag := hdone ▸ h.flag, drains := hdone ▸ h.drains
      early := fun _ => ⟨hlate, hdrained, by simp⟩
      joined := fun hjoined => absurd (h.joined hjoined) hrunning}

/-- A producer that is about to push is about to push the next value, and has not pushed since
the flag was set. -/
theorem enqueuing {value : T} (hphase : s.producer = .enqueuing value) :
    value = next^[n] first ∧ s.late = 0 ∧ s.consumer ≠ .joined := by
  have hvalue := h.value
  have hlate := h.late
  rw [hphase] at hvalue hlate
  refine ⟨hvalue, Nat.le_zero.mp hlate, ?_⟩
  intro hjoined
  have hreturned := h.joined hjoined
  rw [hphase] at hreturned
  cases hreturned

/-- The queue has room for the value. -/
theorem push {value : T} (hphase : s.producer = .enqueuing value) (hroom : s.queue.length < N) :
    Inv N next first {s with
      queue := s.queue ++ [value]
      producer := .checking (next value)
      late := if s.done then s.late + 1 else s.late} (n + 1) := by
  obtain ⟨rfl, hnone, hjoined⟩ := h.enqueuing hphase
  refine {h with
    sequence := ?_, value := ?_, room := ?_, late := ?_, early := ?_, drains := ?_,
    left := ?_, joined := fun hnot => absurd hnot hjoined}
  · rw [← List.append_assoc, h.sequence, values_succ]
  · exact (Function.iterate_succ_apply' next n first).symm
  · rw [List.length_append]
    exact hroom
  · dsimp only [Phase.allowance]
    split <;> omega
  · intro hdone
    dsimp only at hdone
    obtain ⟨-, hdrained, -⟩ := h.early hdone
    refine ⟨?_, hdrained, by simp⟩
    dsimp only
    rw [if_neg (by simp [hdone])]
    exact hnone
  · intro hdone
    dsimp only at hdone ⊢
    have hdrains := h.drains hdone
    rw [if_pos hdone, List.length_append, List.length_singleton]
    omega
  · intro hstage
    have hleft := h.left hstage
    have hdone : s.done = true := by
      apply h.flag.mpr
      rcases hstage with hstage | hstage
      · rw [show s.consumer = .joining from hstage]
        decide
      · rw [show s.consumer = .joined from hstage]
        decide
    dsimp only
    rw [if_pos hdone, List.length_append, List.length_singleton]
    omega

/-- The queue is full, and the value stays with the producer. -/
theorem retry {value : T} (hphase : s.producer = .enqueuing value) :
    Inv N next first {s with producer := .retrying value} n := by
  obtain ⟨hvalue, hnone, hjoined⟩ := h.enqueuing hphase
  exact {h with
    value := hvalue, late := Nat.le_of_eq hnone
    early := fun hdone => ⟨hnone, (h.early hdone).2.1, by simp⟩
    joined := fun hnot => absurd hnot hjoined}

theorem producerStep (hstep : producerStep N next s = some s') : Sound N next first s' := by
  unfold ProducerThread.producerStep at hstep
  split at hstep
  · rename_i value hphase
    obtain rfl := Option.some.inj hstep
    exact ⟨n, h.look (Or.inl hphase)⟩
  · rename_i value hphase
    obtain rfl := Option.some.inj hstep
    exact ⟨n, h.look (Or.inr hphase)⟩
  · rename_i value hphase
    split at hstep
    · rename_i hroom
      obtain rfl := Option.some.inj hstep
      exact ⟨n + 1, h.push hphase hroom⟩
    · obtain rfl := Option.some.inj hstep
      exact ⟨n, h.retry hphase⟩
  · cases hstep

/-- An element goes from the queue to the benchmark. -/
theorem sequence_pop {value : T} {rest : List T} (hqueue : s.queue = value :: rest) :
    s.taken ++ [value] ++ rest = values next first n ∧ rest.length + 1 = s.queue.length := by
  constructor
  · rw [List.append_assoc, List.singleton_append, ← hqueue, h.sequence]
  · rw [hqueue, List.length_cons]

theorem consume (hstage : s.consumer = .consuming)
    {value : T} {rest : List T} (hqueue : s.queue = value :: rest) :
    Inv N next first {s with queue := rest, taken := s.taken ++ [value]} n := by
  obtain ⟨hsequence, hlength⟩ := h.sequence_pop hqueue
  have hroom := h.room
  exact {h with
    sequence := hsequence
    room := by dsimp only; omega
    drains := fun hdone => by
      have hdrains := h.drains hdone
      dsimp only
      omega
    left := fun hnot => by
      rcases hnot with hnot | hnot
      · exact absurd (hstage.symm.trans hnot) (by decide)
      · exact absurd (hstage.symm.trans hnot) (by decide)}

theorem stop (hstage : s.consumer = .consuming) :
    Inv N next first {s with done := true, consumer := .draining} n := by
  have hdone : s.done = false := by
    apply Bool.eq_false_iff.mpr
    intro hdone
    exact h.flag.mp hdone hstage
  obtain ⟨-, hdrained, -⟩ := h.early hdone
  have hroom := h.room
  exact {h with
    flag := by simp
    early := fun hnot => absurd hnot (by simp)
    drains := fun _ => by
      dsimp only
      omega
    left := fun hnot => absurd hnot (by simp)
    joined := fun hnot => absurd hnot (by simp)}

theorem drain (hstage : s.consumer = .draining) {value : T} {rest : List T}
    (hqueue : s.queue = value :: rest) :
    Inv N next first
      {s with queue := rest, taken := s.taken ++ [value], drained := s.drained + 1} n := by
  obtain ⟨hsequence, hlength⟩ := h.sequence_pop hqueue
  have hdone : s.done = true := h.flag.mpr (by rw [hstage]; decide)
  have hroom := h.room
  have hdrains := h.drains hdone
  exact {h with
    sequence := hsequence
    room := by dsimp only; omega
    early := fun hnot => absurd (hdone.symm.trans hnot) (by decide)
    drains := fun _ => by
      dsimp only
      omega
    left := fun hnot => by
      rcases hnot with hnot | hnot
      · exact absurd (hstage.symm.trans hnot) (by decide)
      · exact absurd (hstage.symm.trans hnot) (by decide)}

/-- The benchmark finds the queue empty and waits for the producer. -/
theorem drainEmpty (hstage : s.consumer = .draining) (hqueue : s.queue = []) :
    Inv N next first {s with consumer := .joining} n := by
  have hdone : s.done = true := h.flag.mpr (by rw [hstage]; decide)
  exact {h with
    flag := by simp [hdone]
    left := fun _ => by
      dsimp only
      rw [hqueue]
      exact Nat.zero_le _
    joined := fun hnot => absurd hnot (by simp)}

theorem join (hstage : s.consumer = .joining) (hreturned : s.producer = .returned) :
    Inv N next first {s with consumer := .joined} n := by
  have hdone : s.done = true := h.flag.mpr (by rw [hstage]; decide)
  exact {h with
    flag := by simp [hdone]
    left := fun _ => h.left (Or.inl hstage)
    joined := fun _ => hreturned}

theorem step {event : Event} {o : Unit} (hstep : step N next s event = some (s', o)) :
    Sound N next first s' := by
  cases event with
  | producer =>
    obtain ⟨s₁, hproducer, heq⟩ := Option.map_eq_some_iff.mp hstep
    obtain ⟨rfl, -⟩ := Prod.mk.inj heq
    exact h.producerStep hproducer
  | consume =>
    obtain ⟨hstage, hstep⟩ := Option.ite_none_right_eq_some.mp hstep
    split at hstep
    · obtain ⟨rfl, -⟩ := Prod.mk.inj (Option.some.inj hstep)
      exact ⟨n, h⟩
    · rename_i value rest hqueue
      obtain ⟨rfl, -⟩ := Prod.mk.inj (Option.some.inj hstep)
      exact ⟨n, h.consume hstage hqueue⟩
  | stop =>
    obtain ⟨hstage, hstep⟩ := Option.ite_none_right_eq_some.mp hstep
    obtain ⟨rfl, -⟩ := Prod.mk.inj (Option.some.inj hstep)
    exact ⟨n, h.stop hstage⟩
  | drain =>
    obtain ⟨hstage, hstep⟩ := Option.ite_none_right_eq_some.mp hstep
    split at hstep
    · rename_i hqueue
      obtain ⟨rfl, -⟩ := Prod.mk.inj (Option.some.inj hstep)
      exact ⟨n, h.drainEmpty hstage hqueue⟩
    · rename_i value rest hqueue
      obtain ⟨rfl, -⟩ := Prod.mk.inj (Option.some.inj hstep)
      exact ⟨n, h.drain hstage hqueue⟩
  | join =>
    simp only [ProducerThread.step] at hstep
    split at hstep
    · rename_i hstage hreturned
      obtain ⟨rfl, -⟩ := Prod.mk.inj (Option.some.inj hstep)
      exact ⟨n, h.join hstage hreturned⟩
    · cases hstep

theorem allowance_le : s.late ≤ 1 := by
  apply Nat.le_trans h.late
  unfold Phase.allowance
  split <;> decide

end Inv

theorem init_inv (N : Nat) (next : T → T) (first : T) :
    Inv N next first {producer := .checking first} 0 where
  sequence := rfl
  value := rfl
  room := Nat.zero_le N
  flag := by simp
  late := Nat.zero_le _
  early _ := ⟨rfl, rfl, by simp⟩
  drains hdone := absurd hdone (by simp)
  left hnot := absurd hnot (by simp)
  joined hnot := absurd hnot (by simp)

theorem Sound.step (h : Sound N next first s) {event : Event} {o : Unit}
    (hstep : step N next s event = some (s', o)) : Sound N next first s' := by
  obtain ⟨n, h⟩ := h
  exact h.step hstep

theorem Reached.sound (h : Reached N next first s) : Sound N next first s := by
  apply Reachable.invariant _ h ⟨0, init_inv N next first⟩
  intro s s' event o hsound _ hstep
  exact hsound.step hstep

/-! ### Stopping -/

/-- Once the flag is set, it stays set, and each step of the producer is one of the few that
it has left. -/
theorem stepsLeft_step (hdone : s.done = true) {event : Event} {o : Unit}
    (hstep : step N next s event = some (s', o)) :
    s'.done = true ∧
      s'.producer.stepsLeft + (if event = .producer then 1 else 0) ≤ s.producer.stepsLeft := by
  cases event with
  | producer =>
    obtain ⟨s₁, hproducer, heq⟩ := Option.map_eq_some_iff.mp hstep
    obtain ⟨rfl, -⟩ := Prod.mk.inj heq
    unfold producerStep at hproducer
    rw [if_pos rfl]
    split at hproducer
    · rename_i hphase
      obtain rfl := Option.some.inj hproducer
      rw [hphase]
      exact ⟨hdone, by simp [hdone, Phase.stepsLeft]⟩
    · rename_i hphase
      obtain rfl := Option.some.inj hproducer
      rw [hphase]
      exact ⟨hdone, by simp [hdone, Phase.stepsLeft]⟩
    · rename_i hphase
      rw [hphase]
      split at hproducer
      · obtain rfl := Option.some.inj hproducer
        exact ⟨hdone, Nat.le_refl _⟩
      · obtain rfl := Option.some.inj hproducer
        exact ⟨hdone, Nat.le_refl _⟩
    · cases hproducer
  | consume =>
    obtain ⟨-, hstep⟩ := Option.ite_none_right_eq_some.mp hstep
    split at hstep
    all_goals
      obtain ⟨rfl, -⟩ := Prod.mk.inj (Option.some.inj hstep)
      exact ⟨hdone, Nat.le_refl _⟩
  | stop =>
    obtain ⟨-, hstep⟩ := Option.ite_none_right_eq_some.mp hstep
    obtain ⟨rfl, -⟩ := Prod.mk.inj (Option.some.inj hstep)
    exact ⟨rfl, Nat.le_refl _⟩
  | drain =>
    obtain ⟨-, hstep⟩ := Option.ite_none_right_eq_some.mp hstep
    split at hstep
    all_goals
      obtain ⟨rfl, -⟩ := Prod.mk.inj (Option.some.inj hstep)
      exact ⟨hdone, Nat.le_refl _⟩
  | join =>
    simp only [ProducerThread.step] at hstep
    split at hstep
    · obtain ⟨rfl, -⟩ := Prod.mk.inj (Option.some.inj hstep)
      exact ⟨hdone, Nat.le_refl _⟩
    · cases hstep

/-- The pops of `stop_producer`, of which the last one finds nothing, and the join. -/
def State.stopTurns (s : State T) : Nat :=
  match s.consumer with
  | .consuming | .draining => s.drained
  | .joining => s.drained + 1
  | .joined => s.drained + 2

theorem stopTurns_step {event : Event} {o : Unit} (hstep : step N next s event = some (s', o)) :
    s'.stopTurns = s.stopTurns + if event = .drain ∨ event = .join then 1 else 0 := by
  cases event with
  | producer =>
    obtain ⟨s₁, hproducer, heq⟩ := Option.map_eq_some_iff.mp hstep
    obtain ⟨rfl, -⟩ := Prod.mk.inj heq
    unfold producerStep at hproducer
    split at hproducer
    · obtain rfl := Option.some.inj hproducer
      rfl
    · obtain rfl := Option.some.inj hproducer
      rfl
    · split at hproducer
      all_goals
        obtain rfl := Option.some.inj hproducer
        rfl
    · cases hproducer
  | consume =>
    obtain ⟨-, hstep⟩ := Option.ite_none_right_eq_some.mp hstep
    split at hstep
    all_goals
      obtain ⟨rfl, -⟩ := Prod.mk.inj (Option.some.inj hstep)
      rfl
  | stop =>
    obtain ⟨hstage, hstep⟩ := Option.ite_none_right_eq_some.mp hstep
    obtain ⟨rfl, -⟩ := Prod.mk.inj (Option.some.inj hstep)
    simp [State.stopTurns, hstage]
  | drain =>
    obtain ⟨hstage, hstep⟩ := Option.ite_none_right_eq_some.mp hstep
    split at hstep
    all_goals
      obtain ⟨rfl, -⟩ := Prod.mk.inj (Option.some.inj hstep)
      simp [State.stopTurns, hstage]
  | join =>
    simp only [ProducerThread.step] at hstep
    split at hstep
    · rename_i hstage _
      obtain ⟨rfl, -⟩ := Prod.mk.inj (Option.some.inj hstep)
      simp [State.stopTurns, hstage]
    · cases hstep

theorem Inv.drained_le (h : Inv N next first s n) : s.drained ≤ N + 1 := by
  have hlate := h.allowance_le
  cases hdone : s.done with
  | true =>
    have hdrains := h.drains hdone
    omega
  | false =>
    have hnone := (h.early hdone).2.1
    omega

theorem Sound.stopTurns_le (h : Sound N next first s) : s.stopTurns ≤ N + 3 := by
  obtain ⟨n, h⟩ := h
  have hdrained := h.drained_le
  unfold State.stopTurns
  split <;> omega

/-- What is left to do once the flag is set. -/
def State.turnsLeft (N : Nat) (s : State T) : Nat := s.producer.stepsLeft + (N + 3 - s.stopTurns)

theorem turnsLeft_step (h : Sound N next first s) (hdone : s.done = true) {event : Event}
    {o : Unit} (hstep : step N next s event = some (s', o)) :
    s'.turnsLeft N + 1 ≤ s.turnsLeft N := by
  have hsteps := (stepsLeft_step hdone hstep).2
  have hturns := stopTurns_step hstep
  have hle := (h.step hstep).stopTurns_le
  have hstage : s.consumer ≠ .consuming := by
    obtain ⟨n, h⟩ := h
    exact h.flag.mp hdone
  unfold State.turnsLeft
  cases event with
  | consume => exact absurd (Option.ite_none_right_eq_some.mp hstep).1 hstage
  | stop => exact absurd (Option.ite_none_right_eq_some.mp hstep).1 hstage
  | producer =>
    simp only [reduceCtorEq, or_self, if_false, if_true] at hsteps hturns
    omega
  | drain =>
    simp only [reduceCtorEq, true_or, if_false, if_true] at hsteps hturns
    omega
  | join =>
    simp only [reduceCtorEq, or_true, if_false, if_true] at hsteps hturns
    omega

/-- Until the benchmark has joined, one of the threads can go on. -/
theorem exists_step (N : Nat) (next : T → T) (s : State T) (hjoined : s.consumer ≠ .joined) :
    ∃ event, (step N next s event).isSome := by
  cases hstage : s.consumer with
  | consuming => exact ⟨.stop, by simp [step, hstage]⟩
  | draining =>
    refine ⟨.drain, ?_⟩
    simp only [step, hstage, if_true]
    split <;> rfl
  | joining =>
    cases hphase : s.producer with
    | returned => exact ⟨.join, by simp [step, hstage, hphase]⟩
    | checking value => exact ⟨.producer, by simp [step, producerStep, hphase]⟩
    | retrying value => exact ⟨.producer, by simp [step, producerStep, hphase]⟩
    | enqueuing value =>
      refine ⟨.producer, ?_⟩
      simp only [step, producerStep, hphase]
      split <;> rfl
  | joined => exact absurd hstage hjoined

/-- The benchmark gets the values that the producer counts, in order and without a gap. Once
the flag is set at most one more comes in, both threads are through after a bounded number of
steps, and at most that one element is left in the queue. -/
structure Orderly (N : Nat) (next : T → T) (first : T) (s : State T) : Prop where
  received : s.taken = values next first s.taken.length
  lossless : s.taken ++ s.queue = values next first (s.taken.length + s.queue.length)
  late : s.late ≤ 1
  stops : s.done = true → ∀ events outs s', Runs (step N next) (fun _ _ => True) s events outs s' →
    events.length ≤ N + 5 ∧ (s'.consumer = .joined ∨ ∃ event, (step N next s' event).isSome)
  stopped : s.consumer = .joined → s.producer = .returned ∧ s.queue.length ≤ 1

theorem stops_orderly (hreached : Reached N next first s) : Orderly N next first s := by
  have hsound := hreached.sound
  obtain ⟨n, h⟩ := hsound
  have hn : s.taken.length + s.queue.length = n := by
    rw [← List.length_append, h.sequence, length_values]
  constructor
  · exact values_prefix h.sequence
  · rw [hn, h.sequence]
  · exact h.allowance_le
  · intro hdone events outs s' hruns
    constructor
    · have hcount := hruns.counting (I := fun s k =>
        (Sound N next first s ∧ s.done = true) ∧ s.turnsLeft N + k ≤ N + 5) (fun _ => true)
        (k := 0) (by
          rintro s s' event o k ⟨⟨hsound, hdone⟩, hbound⟩ - hstep
          have hturn := turnsLeft_step hsound hdone hstep
          refine ⟨⟨hsound.step hstep, (stepsLeft_step hdone hstep).1⟩, ?_⟩
          rw [if_pos rfl]
          omega) ⟨⟨⟨n, h⟩, hdone⟩, by
            have hsteps : s.producer.stepsLeft ≤ 2 := by
              unfold Phase.stepsLeft
              split <;> decide
            unfold State.turnsLeft
            omega⟩
      have hbound := hcount.2
      rw [List.countP_true] at hbound
      omega
    · by_cases hjoined : s'.consumer = .joined
      · exact Or.inl hjoined
      · exact Or.inr (exists_step N next s' hjoined)
  · intro hjoined
    exact ⟨h.joined hjoined, Nat.le_trans (h.left (Or.inr hjoined)) h.allowance_le⟩

/-- The producer has looked at the flag just before it is set: an element is left behind. -/
theorem stops_orderly_oneLeft : ∃ s : State Nat, s.consumer = .joined ∧ s.taken = [0] ∧
    s.queue = [1] ∧ Orderly 2 (· + 1) 0 s := by
  have hreached : ∃ s : State Nat, Reached 2 (· + 1) 0 s ∧ s.consumer = .joined ∧
      s.taken = [0] ∧ s.queue = [1] :=
    ⟨_, .of_run [.producer, .producer, .consume, .producer, .stop, .drain, .producer, .producer,
      .join] rfl, rfl, rfl, rfl⟩
  obtain ⟨s, hreached, hjoined, htaken, hqueue⟩ := hreached
  exact ⟨s, hjoined, htaken, hqueue, stops_orderly hreached⟩

end ProducerThread

end ExchangeEngine
