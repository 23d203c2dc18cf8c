import Mathlib

/-!
`src/engine/side.hpp` and `src/engine/order.hpp`. Prices and order ids are
unsigned 64-bit integers that are only ever compared, so they are `Nat` here.
Volumes are signed 64-bit integers and are `Int`; the one place where their
sums can leave the 64-bit range, the cached totals, goes through `wrap64`.
-/

namespace ExchangeEngine

inductive Side where
  | bid
  | ask
  deriving DecidableEq, Repr

instance {P : Side → Prop} [DecidablePred P] : Decidable (∀ s, P s) :=
  decidable_of_iff (P .bid ∧ P .ask)
    ⟨fun h s => by cases s with | bid => exact h.1 | ask => exact h.2, fun h => ⟨h .bid, h .ask⟩⟩

/-- The other side of the book. -/
def opposed : Side → Side
  | .bid => .ask
  | .ask => .bid

inductive OrderType where
  | goodTillCanceled
  | fillOrKill
  | immediateOrCancel
  deriving DecidableEq, Repr

structure Order where
  id : Nat
  side : Side
  price : Nat
  volume : Int
  type : OrderType := .goodTillCanceled
  deriving DecidableEq, Repr

structure Trade where
  aggressor : Nat
  resting : Nat
  price : Nat
  volume : Int
  deriving DecidableEq, Repr

/-- The largest `std::int64_t`. -/
def int64Max : Int := 2 ^ 63 - 1

/-- Two's complement result of a 64-bit signed operation. -/
def wrap64 (x : Int) : Int := Int.bmod x (2 ^ 64)

theorem wrap64_eq {x : Int} (hlow : -2 ^ 63 ≤ x) (hhigh : x ≤ int64Max) : wrap64 x = x := by
  unfold int64Max at hhigh
  unfold wrap64
  rw [Int.bmod_eq_of_le] <;> omega

@[simp] theorem wrap64_wrap64_add (x y : Int) : wrap64 (wrap64 x + y) = wrap64 (x + y) :=
  Int.bmod_add_bmod

@[simp] theorem wrap64_wrap64_sub (x y : Int) : wrap64 (wrap64 x - y) = wrap64 (x - y) :=
  Int.bmod_sub_bmod

@[simp] theorem wrap64_add_wrap64 (x y : Int) : wrap64 (x + wrap64 y) = wrap64 (x + y) :=
  Int.add_bmod_bmod

@[simp] theorem opposed_opposed (s : Side) : opposed (opposed s) = s := by cases s <;> rfl

theorem opposed_ne (s : Side) : opposed s ≠ s := by cases s <;> decide

theorem eq_opposed_of_ne {s t : Side} (h : s ≠ t) : s = opposed t := by
  cases s <;> cases t <;> first | rfl | exact absurd rfl h

/-- `p` is a better price than `q` on a side: bids descend, asks ascend. -/
def better : Side → Nat → Nat → Prop
  | .bid, p, q => q < p
  | .ask, p, q => p < q

instance (s : Side) : DecidableRel (better s) := fun p q => by
  cases s <;> exact inferInstanceAs (Decidable (_ < _))

instance (s : Side) : IsStrictTotalOrder Nat (better s) where
  irrefl p := by cases s <;> exact Nat.lt_irrefl p
  trans p q r hpq hqr := by
    cases s
    · exact Nat.lt_trans hqr hpq
    · exact Nat.lt_trans hpq hqr
  trichotomous p q hpq hqp := by
    cases s <;> simp only [better] at hpq hqp <;> omega

end ExchangeEngine
