import Mathlib

/-!
Manual lifetimes. Objects live in numbered cells of raw storage; a program constructs an
object in a raw cell, visits live ones (moving from them counts) and destroys them. A
trace of accesses is replayed on the set of live cells and fails at the first access to
a cell in the wrong state. In a trace that replays, every cell is constructed as often
as it is destroyed, up to the objects that live before and after.
-/

namespace ExchangeEngine.Lifetime

inductive Access where
  | construct (cell : Nat)
  | visit (cell : Nat)
  | destroy (cell : Nat)
  deriving DecidableEq, Repr

/-- Which cells hold a live object. -/
abbrev Live := Nat → Bool

/-- The effect of an access that is in order. -/
def Access.effect (live : Live) : Access → Live
  | .construct i => Function.update live i true
  | .visit _ => live
  | .destroy i => Function.update live i false

/-- Construction needs a raw cell, everything else a live one. -/
def Access.allowed (live : Live) : Access → Bool
  | .construct i => !live i
  | .visit i | .destroy i => live i

def replay (live : Live) : List Access → Option Live
  | [] => some live
  | a :: trace => if a.allowed live then replay (a.effect live) trace else none

/-- The cells constructed in, one occurrence for each construction. -/
def constructed : List Access → List Nat
  | [] => []
  | .construct i :: trace => i :: constructed trace
  | _ :: trace => constructed trace

def destroyed : List Access → List Nat
  | [] => []
  | .destroy i :: trace => i :: destroyed trace
  | _ :: trace => destroyed trace

theorem replay_cons {live : Live} {a : Access} (h : a.allowed live = true) (trace : List Access) :
    replay live (a :: trace) = replay (a.effect live) trace := if_pos h

theorem replay_append {live live' : Live} {xs : List Access} (ys : List Access)
    (h : replay live xs = some live') : replay live (xs ++ ys) = replay live' ys := by
  induction xs generalizing live with
  | nil =>
      obtain rfl := Option.some.inj h
      rfl
  | cons a xs ih =>
      rw [replay] at h
      split at h
      · rename_i hallowed
        rw [List.cons_append, replay_cons hallowed, ih h]
      · cases h

theorem replay_visit_destroy (live : Live) (i : Nat) (trace : List Access) :
    replay live (.visit i :: .destroy i :: trace) = replay live (.destroy i :: trace) := by
  cases hlive : live i <;> simp [replay, Access.allowed, Access.effect, hlive]

/-- Replaying gives the effects of the accesses, one after another. -/
theorem replay_effects {live live' : Live} {trace : List Access}
    (h : replay live trace = some live') : trace.foldl Access.effect live = live' := by
  induction trace generalizing live with
  | nil => exact Option.some.inj h
  | cons a trace ih =>
      rw [replay] at h
      split at h
      · exact ih h
      · cases h

/-- Constructions and the objects that live before balance destructions and the objects
that live after, cell by cell. -/
theorem count_constructed {live live' : Live} {trace : List Access}
    (h : replay live trace = some live') (i : Nat) :
    (constructed trace).count i + (live i).toNat =
      (destroyed trace).count i + (live' i).toNat := by
  induction trace generalizing live with
  | nil =>
      obtain rfl := Option.some.inj h
      rfl
  | cons a trace ih =>
      rw [replay] at h
      split at h
      case isFalse => cases h
      rename_i hallowed
      have ih := ih h
      cases a with
      | visit j => exact ih
      | construct j =>
          simp only [constructed, destroyed, List.count_cons]
          by_cases hj : j = i
          · subst hj
            simp only [Access.allowed, Bool.not_eq_true'] at hallowed
            simp only [Access.effect, Function.update_self] at ih
            simp [hallowed] at ih ⊢
            omega
          · simp only [Access.effect, Function.update_of_ne (Ne.symm hj)] at ih
            simp [hj, ih]
      | destroy j =>
          simp only [constructed, destroyed, List.count_cons]
          by_cases hj : j = i
          · subst hj
            simp only [Access.allowed] at hallowed
            simp only [Access.effect, Function.update_self] at ih
            simp [hallowed] at ih ⊢
            omega
          · simp only [Access.effect, Function.update_of_ne (Ne.symm hj)] at ih
            simp [hj, ih]

/-- Between two moments at which nothing lives, each cell is destroyed as often as it is
constructed. -/
theorem constructed_perm_destroyed {trace : List Access}
    (h : replay (fun _ => false) trace = some fun _ => false) :
    (constructed trace).Perm (destroyed trace) := by
  rw [List.perm_iff_count]
  intro i
  simpa using count_constructed h i

end ExchangeEngine.Lifetime
