import ExchangeEngine.Library.Greedy
import ExchangeEngine.Engine.Command
import ExchangeEngine.Engine.PriorityOrder

/-!
What an order could have got. A selection takes some part of each order that rests on the
opposite side. None that the limit and the volume of a placed order allow trades more than
`place_order` does, and none that trades as much, at whatever prices, is better for the
party that placed the order.
-/

namespace ExchangeEngine

open Ladder Fifo Chain Transition

/-- What a unit bought or sold at a price costs: a seller receives the price. -/
def charge : Side → Nat → Int
  | .bid, p => p
  | .ask, p => -p

/-- What some trades cost the party that placed the order. -/
def costOf (s : Side) (trades : List Trade) : Int :=
  (trades.map fun trade => charge s trade.price * trade.volume).sum

def traded (trades : List Trade) : Int := (trades.map Trade.volume).sum

/-- The trades are the best that an order can get on a book. -/
structure BestExecution (b : OrderBook) (o : Order) (trades : List Trade) : Prop where
  /-- Within the limit and the volume no selection trades more, unless the order is killed. -/
  most : (o.type = .fillOrKill → trades ≠ []) → ∀ take : Nat × Entry → Int,
    Selection take (b.resting (opposed o.side)) →
    (∀ x ∈ b.resting (opposed o.side), take x ≠ 0 →
      OrderBook.crosses o.side o.price x.1 = true) →
    selected take (b.resting (opposed o.side)) ≤ max o.volume 0 →
    selected take (b.resting (opposed o.side)) ≤ traded trades
  /-- No selection that trades as much costs less. -/
  cheapest : ∀ take : Nat × Entry → Int, Selection take (b.resting (opposed o.side)) →
    selected take (b.resting (opposed o.side)) = traded trades →
    costOf o.side trades ≤ cost (fun x => charge o.side x.1) take (b.resting (opposed o.side))

/-- Better prices are cheaper for the other side. -/
theorem charge_le {s : Side} {p q : Nat} (h : better (opposed s) p q ∨ p = q) :
    charge s p ≤ charge s q := by
  cases s <;> simp only [better, opposed, charge] at * <;> omega

namespace QueueBook

/-- The trades are a draw of the volume of the order, or of nothing if it is killed. -/
theorem place_takes {c c' : QueueBook} {o : Order} {trades : List Trade} (hwf : c.WellFormed)
    (hplace : c.place o = some (c', trades)) :
    ∃ v, 0 ≤ v ∧ (v = max o.volume 0 ∨ (o.type = .fillOrKill ∧ trades = [])) ∧
      traded trades = taken v (crossing o.side o.price (c.resting (opposed o.side))) ∧
      costOf o.side trades = hitCost (fun x => charge o.side x.1)
        (fills v (crossing o.side o.price (c.resting (opposed o.side)))) := by
  have hdrawn : ∀ {v : Int} {line : List (Nat × Entry)},
      trades = ((fills v line).map hitOf).map (tradeOf o.id) →
      traded trades = taken v line ∧
        costOf o.side trades = hitCost (fun x => charge o.side x.1) (fills v line) := by
    rintro v line rfl
    rw [traded, costOf, List.map_map, List.map_map, List.map_map, List.map_map]
    exact ⟨rfl, rfl⟩
  obtain ⟨-, htrades⟩ := place_draws hwf hplace rfl
  refine ⟨_, ?_, ?_, hdrawn htrades⟩
  · split <;> omega
  · split
    · rename_i hrefused
      by_cases hvolume : o.volume ≤ 0
      · exact Or.inl (Int.max_eq_right hvolume).symm
      · have hkilled := hrefused.resolve_left hvolume
        rw [if_pos hrefused, fills_of_nonpos (Int.le_refl 0)] at htrades
        exact Or.inr ⟨hkilled.1, htrades⟩
    · exact Or.inl (by omega)

end QueueBook

namespace OrderBook

/-- Every placed order gets the best that the book has to offer. -/
theorem placeOrder_best {capacity : Nat} {b b' : OrderBook} {o : Order} {trades : List Trade}
    (hreached : Reached .orders capacity b) (hplace : b.placeOrder o = some (b', trades)) :
    BestExecution b o trades := by
  obtain ⟨c, hrep, hsound, -⟩ := hreached.represents
  have hwf := hsound.wellFormed
  obtain ⟨c', hcplace, -⟩ := placeOrder_some hrep hwf hplace
  obtain ⟨v, hv, hvolume, htraded, hcost⟩ := QueueBook.place_takes hwf hcplace
  have hline : b.resting (opposed o.side) = crossing o.side o.price (c.resting (opposed o.side)) ++
      beyond o.side o.price (c.resting (opposed o.side)) := by
    rw [crossing_append_beyond]
    exact hrep.resting_eq hwf _
  have hsorted : (b.resting (opposed o.side)).Pairwise fun x y =>
      charge o.side x.1 ≤ charge o.side y.1 := by
    rw [hrep.resting_eq hwf]
    exact (hwf.ladder (opposed o.side)).listing_sorted.imp charge_le
  have hpos := QueueBook.positive_of_mem_crossing hwf o.side o.price
  have hmissed : ∀ x ∈ beyond o.side o.price (c.resting (opposed o.side)),
      ¬ OrderBook.crosses o.side o.price x.1 = true := by
    intro x hx
    rw [QueueBook.resting, beyond_eq_filter (hwf.ladder (opposed o.side)), List.mem_filter] at hx
    simpa using hx.2
  constructor
  · intro hlive take htake hlimit hle
    rw [hline] at htake hlimit hle ⊢
    -- nothing is selected beyond the limit
    have hnone : selected take (beyond o.side o.price (c.resting (opposed o.side))) = 0 := by
      refine List.sum_eq_zero fun y hy => ?_
      obtain ⟨x, hx, rfl⟩ := List.mem_map.mp hy
      by_contra hsome
      exact hmissed x hx (hlimit x (List.mem_append_right _ hx) hsome)
    rw [selected_append, hnone, Int.add_zero] at hle ⊢
    rw [htraded]
    rcases hvolume with rfl | ⟨hkind, hkilled⟩
    · exact htake.left.selected_le_taken hv hpos hle
    · exact absurd hkilled (hlive hkind)
  · intro take htake hsame
    rw [hline] at htake hsame hsorted ⊢
    rw [hcost]
    exact htake.hitCost_le hsorted (hsame.trans htraded)

/-- A seller of eight lots at two prices. -/
theorem placeOrder_best_twoLevels : ∃ b : OrderBook,
    BestExecution b ⟨4, .ask, 99, 8, .goodTillCanceled⟩ [⟨4, 2, 101, 5⟩, ⟨4, 1, 100, 3⟩] := by
  have hreached : Reached .orders 8 _ :=
    ⟨[.placeOrder ⟨1, .bid, 100, 4, .goodTillCanceled⟩,
      .placeOrder ⟨2, .bid, 101, 5, .goodTillCanceled⟩,
      .placeOrder ⟨3, .bid, 98, 6, .goodTillCanceled⟩], _,
      Runs.cons trivial rfl (Runs.cons trivial rfl (Runs.cons trivial rfl (Runs.nil _)))⟩
  exact ⟨_, placeOrder_best hreached rfl⟩

end OrderBook

end ExchangeEngine
