import ExchangeEngine.Engine.Cancellation

/-!
Fill-or-kill. The decision is taken on the cached totals of the levels, before
anything is matched; matching then walks the orders themselves. Both come to the
same sum, so an order is either filled completely or has no effect at all.
-/

namespace ExchangeEngine

open Ladder Fifo Chain Transition

namespace OrderBook

/-- The volume that rests opposite a side at prices its limit crosses. -/
def crossingVolume (b : OrderBook) (s : Side) (price : Nat) : Int :=
  total ((b.resting (opposed s)).filter fun x => crosses s price x.1)

/-- An order that matching uses up completely leaves nothing to rest. -/
theorem placeOrder_of_match {b b' : OrderBook} {o : Order} {trades : List Trade}
    (hv : 0 < o.volume) (htype : o.type ≠ .fillOrKill)
    (hmatch : b.matchOrder o.id o.side o.price o.volume = some (b', 0, trades)) :
    b.placeOrder o = some (b', trades) := by
  simp [placeOrder, Int.not_le.mpr hv, htype, hmatch]

end OrderBook

namespace Represents

variable {b : OrderBook} {c : QueueBook} (h : Represents b c) (hwf : c.WellFormed)
include h hwf

theorem crossingVolume_eq (s : Side) (price : Nat) :
    b.crossingVolume s price = c.crossingVolume s price := by
  rw [OrderBook.crossingVolume, h.resting_eq hwf, QueueBook.crossingVolume, QueueBook.resting,
    crossing_eq_filter (hwf.ladder (opposed s))]

/-- The availability check decides whether enough volume crosses the limit. -/
theorem canFullyFill_iff {s : Side} {price : Nat} {v : Int} (hv : 0 < v)
    (hfits : b.crossingVolume s price ≤ int64Max) :
    OrderBook.canFullyFill s price v 0 (b.sideLevels (opposed s)) =
      decide (v ≤ b.crossingVolume s price) := by
  rw [h.crossingVolume_eq hwf] at hfits ⊢
  rw [h.levels, OrderBook.canFullyFill_eq]
  exact QueueBook.canFill_of_fits hwf hv hfits

/-- Matching takes as much as crosses the limit, up to the volume asked for, and leaves the
aggressor's side alone. -/
theorem matchOrder_takes (id : Nat) (s : Side) (price : Nat) {v : Int} (hv : 0 ≤ v) :
    ∃ b' trades, b.matchOrder id s price v =
        some (b', v - min v (b.crossingVolume s price), trades) ∧
      (trades.map Trade.volume).sum = min v (b.crossingVolume s price) ∧
      b'.sideLevels s = b.sideLevels s ∧ b'.resting s = b.resting s := by
  obtain ⟨b', hmatch, hrep⟩ := OrderBook.matchOrder_represents h hwf id s price v
  have hwf' := hwf.sweep s price v (c.side (opposed s))
  have hnonempty := (hwf.ladder (opposed s)).nonempty
  have hpositive := QueueBook.positive_of_mem_crossing hwf s price
  have hleft : QueueBook.sweepLeftover s price v (c.side (opposed s)) =
      v - min v (b.crossingVolume s price) := by
    rw [QueueBook.sweepLeftover_eq_max hwf s price hv, h.crossingVolume_eq hwf]
    omega
  rw [hleft] at hmatch
  refine ⟨b', _, hmatch, ?_, ?_, ?_⟩
  · rw [QueueBook.sum_sweepFills s price hnonempty, h.crossingVolume_eq hwf]
    exact taken_eq hv hpositive
  · rw [hrep.levels, QueueBook.side_sweep, h.levels]
  · rw [hrep.resting_eq hwf', h.resting_eq hwf, QueueBook.resting_sweep_own]

end Represents

namespace OrderBook

/-- A fill-or-kill order is filled completely, exactly as if it were good till canceled,
when enough volume crosses its limit, and changes nothing otherwise. It never rests. -/
theorem fillOrKill_all_or_nothing {capacity : Nat} {b : OrderBook} (h : Reached .orders capacity b)
    {o : Order} (htype : o.type = .fillOrKill) (hv : 0 < o.volume)
    (hfits : b.crossingVolume o.side o.price ≤ int64Max) :
    ∃ b' trades, b.placeOrder o = some (b', trades) ∧
      (o.volume ≤ b.crossingVolume o.side o.price →
        (trades.map Trade.volume).sum = o.volume ∧
          b.placeOrder {o with type := .goodTillCanceled} = some (b', trades)) ∧
      (b.crossingVolume o.side o.price < o.volume → trades = [] ∧ b' = b) ∧
      b'.sideLevels o.side = b.sideLevels o.side ∧ b'.resting o.side = b.resting o.side := by
  obtain ⟨c, hrep, hsound, _⟩ := h.represents
  have hwf := hsound.wellFormed
  have hcan := hrep.canFullyFill_iff hwf hv hfits
  rcases Int.lt_or_le (b.crossingVolume o.side o.price) o.volume with hshort | henough
  · refine ⟨b, [], ?_, fun henough => absurd henough (Int.not_le.mpr hshort),
      fun _ => ⟨rfl, rfl⟩, rfl, rfl⟩
    rw [decide_eq_false (Int.not_le.mpr hshort)] at hcan
    simp [placeOrder, htype, hcan]
  · obtain ⟨b', trades, hmatch, hsum, hlevels, hresting⟩ :=
      hrep.matchOrder_takes hwf o.id o.side o.price (Int.le_of_lt hv)
    rw [Int.min_eq_left henough, Int.sub_self] at hmatch
    rw [Int.min_eq_left henough] at hsum
    refine ⟨b', trades, ?_, fun _ => ⟨hsum, placeOrder_of_match hv (by simp) hmatch⟩,
      fun hshort => absurd henough (Int.not_le.mpr hshort), hlevels, hresting⟩
    rw [decide_eq_true henough] at hcan
    simp [placeOrder, Int.not_le.mpr hv, htype, hcan, hmatch]

/-- An order that the two levels it crosses fill exactly. -/
theorem fillOrKill_all_or_nothing_exact : ∃ b b' trades, Reached .orders 4 b ∧
    b.placeOrder ⟨9, .bid, 101, 8, .fillOrKill⟩ = some (b', trades) ∧
    (trades.map Trade.volume).sum = 8 ∧ b'.resting .bid = [] := by
  have hreached : Reached .orders 4 _ :=
    ⟨[.placeOrder ⟨1, .ask, 100, 5, .goodTillCanceled⟩, .addOrder .ask 101 3], _,
      Runs.cons trivial rfl (Runs.cons trivial rfl (Runs.nil _))⟩
  obtain ⟨b', trades, hplace, hfull, -, -, hresting⟩ := fillOrKill_all_or_nothing hreached
    (o := ⟨9, .bid, 101, 8, .fillOrKill⟩) rfl (by decide) (by decide)
  exact ⟨_, b', trades, hreached, hplace, (hfull (by decide)).1, hresting⟩

end OrderBook

end ExchangeEngine
