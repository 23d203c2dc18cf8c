import ExchangeEngine.Engine.Command
import ExchangeEngine.Engine.PriorityOrder

/-!
The public queries against what rests. A level caches its total and the ladder is
searched by price; what is found there is, in every reached book, what the chains
of resting orders add up to.
-/

namespace ExchangeEngine

open Ladder Fifo Chain Transition

namespace OrderBook

/-- The volume that rests at a price of a side. -/
def volumeResting (b : OrderBook) (s : Side) (p : Nat) : Int :=
  total ((b.resting s).filter fun x => x.1 = p)

/-- Some order rests at the price and none at a better one. -/
def IsBest (b : OrderBook) (s : Side) (p : Nat) : Prop :=
  (∃ x ∈ b.resting s, x.1 = p) ∧ ∀ x ∈ b.resting s, ¬ better s x.1 p

/-- The ladders are in order, each level caches a chain, and the queries answer for
the orders that rest. -/
structure QueriesAgree (b : OrderBook) : Prop where
  bidsDescend : b.bidLevels.Pairwise fun l m => m.price < l.price
  asksAscend : b.askLevels.Pairwise fun l m => l.price < m.price
  nonempty : ∀ s, ∀ lvl ∈ b.sideLevels s, b.chain lvl ≠ []
  positive : ∀ s, ∀ x ∈ b.resting s, 0 < x.2.2.volume
  totals : ∀ s, ∀ lvl ∈ b.sideLevels s, lvl.totalVolume = total (b.chain lvl)
  volumes : ∀ s p, b.volumeAtPrice p s = some (b.volumeResting s p)
  bestBid : ∀ p, b.bestBid = some p ↔ b.IsBest .bid p
  bestAsk : ∀ p, b.bestAsk = some p ↔ b.IsBest .ask p
  noBid : b.bestBid = none ↔ b.resting .bid = []
  noAsk : b.bestAsk = none ↔ b.resting .ask = []

end OrderBook

/-- The first rung of a ladder carries the best price that rests. -/
theorem QueueBook.head_price_eq_some {c : QueueBook} (hwf : c.WellFormed) (s : Side) (p : Nat) :
    (c.side s).head?.map Prod.fst = some p ↔
      (∃ x ∈ c.resting s, x.1 = p) ∧ ∀ x ∈ c.resting s, ¬ better s x.1 p := by
  have hladder := hwf.ladder s
  unfold resting
  cases hside : c.side s with
  | nil => simp
  | cons q l =>
      rw [hside] at hladder
      obtain ⟨e, es, hes⟩ := List.exists_cons_of_ne_nil (hladder.nonempty q List.mem_cons_self)
      have hfront : (q.1, e) ∈ listing (q :: l) := by simp [hes]
      have hworse : ∀ x ∈ listing (q :: l), ¬ better s x.1 q.1 := by
        refine forall_listing (P := fun k => ¬ better s k q.1) fun r hr => ?_
        rcases List.mem_cons.mp hr with rfl | hr
        · exact irrefl_of (better s) r.1
        · exact asymm_of (better s) ((List.pairwise_cons.mp hladder.sorted).1 r hr)
      constructor
      · intro hp
        obtain rfl := Option.some.inj hp
        exact ⟨⟨_, hfront, rfl⟩, hworse⟩
      · rintro ⟨⟨x, hx, rfl⟩, hbest⟩
        have heq := (trichotomous_of (better s) q.1 x.1).resolve_left (hbest _ hfront)
        exact congrArg some (heq.resolve_right (hworse x hx))

theorem QueueBook.head_price_eq_none {c : QueueBook} (hwf : c.WellFormed) (s : Side) :
    (c.side s).head?.map Prod.fst = none ↔ c.resting s = [] := by
  have hladder := hwf.ladder s
  unfold resting
  cases hside : c.side s with
  | nil => simp
  | cons q l =>
      rw [hside] at hladder
      obtain ⟨e, es, hes⟩ := List.exists_cons_of_ne_nil (hladder.nonempty q List.mem_cons_self)
      simp [hes]

namespace Represents

variable {b : OrderBook} {c : QueueBook} (h : Represents b c) (hwf : c.WellFormed)
include h hwf

theorem volumeResting_eq (s : Side) (p : Nat) : b.volumeResting s p = total (c.queue s p) := by
  rw [OrderBook.volumeResting, h.resting_eq hwf]
  exact QueueBook.total_resting_filter hwf s p

/-- The cached total of a price is exact while it fits. -/
theorem cachedTotal_eq {s : Side} {p : Nat} (hfits : b.volumeResting s p ≤ int64Max) :
    QueueBook.cachedTotal (c.queue s p) = b.volumeResting s p := by
  have hlow : 0 ≤ total (c.queue s p) := total_nonneg (hwf.positive s p)
  rw [h.volumeResting_eq hwf] at hfits ⊢
  exact wrap64_eq (by omega) hfits

theorem agree (hfits : ∀ s p, b.volumeResting s p ≤ int64Max) : b.QueriesAgree := by
  have hbids : b.bidLevels = (c.side .bid).map levelOf := h.levels .bid
  have hasks : b.askLevels = (c.side .ask).map levelOf := h.levels .ask
  constructor
  · rw [hbids, List.pairwise_map]
    exact (hwf.ladder .bid).sorted
  · rw [hasks, List.pairwise_map]
    exact (hwf.ladder .ask).sorted
  · intro s lvl hlvl
    rw [h.levels s] at hlvl
    obtain ⟨q, hq, rfl⟩ := List.mem_map.mp hlvl
    rw [h.chain_levelOf hwf hq]
    exact (hwf.ladder s).nonempty q hq
  · intro s x hx
    rw [h.resting_eq hwf] at hx
    exact QueueBook.positive_of_mem_resting hwf x hx
  · intro s lvl hlvl
    rw [h.levels s] at hlvl
    obtain ⟨q, hq, rfl⟩ := List.mem_map.mp hlvl
    have hqueue : c.queue s q.1 = q.2 := (hwf.ladder s).lookup_of_mem hq
    have hcached := h.cachedTotal_eq hwf (hfits s q.1)
    rw [h.volumeResting_eq hwf, hqueue] at hcached
    rw [h.chain_levelOf hwf hq]
    exact hcached
  · intro s p
    rw [h.volumeAtPrice_eq hwf, h.cachedTotal_eq hwf (hfits s p)]
  · intro p
    rw [h.bestBid_eq, OrderBook.IsBest, h.resting_eq hwf]
    exact QueueBook.head_price_eq_some hwf .bid p
  · intro p
    rw [h.bestAsk_eq, OrderBook.IsBest, h.resting_eq hwf]
    exact QueueBook.head_price_eq_some hwf .ask p
  · rw [h.bestBid_eq, h.resting_eq hwf]
    exact QueueBook.head_price_eq_none hwf .bid
  · rw [h.bestAsk_eq, h.resting_eq hwf]
    exact QueueBook.head_price_eq_none hwf .ask

end Represents

namespace OrderBook

/-- Along either flow the queries agree with what rests, as long as the volume that
rests at each price fits in 64 bits. -/
theorem queries_agree {flow : Flow} {capacity : Nat} {b : OrderBook}
    (h : Reached flow capacity b) (hfits : ∀ s p, b.volumeResting s p ≤ int64Max) :
    b.QueriesAgree := by
  obtain ⟨c, hrep, hsound, _⟩ := h.represents
  exact hrep.agree hsound.wellFormed hfits

/-- A book built by level updates: two levels, one of them collapsed to an aggregate. -/
theorem queries_agree_twoLevels : ∃ b, Reached .levels 4 b ∧ b.QueriesAgree ∧
    b.bestBid = some 101 ∧ b.volumeAtPrice 100 .bid = some 7 := by
  have hreached : Reached .levels 4 _ :=
    ⟨[.addOrder .bid 100 5, .addOrder .bid 100 6, .setLevel .bid 100 7, .addOrder .bid 101 3], _,
      Runs.cons trivial rfl (Runs.cons trivial rfl (Runs.cons (show (7 : Int) ≤ int64Max by decide)
        rfl (Runs.cons trivial rfl (Runs.nil _))))⟩
  refine ⟨_, hreached, queries_agree hreached fun s p => ?_, rfl, rfl⟩
  cases s with
  | ask => exact (by decide : (0 : Int) ≤ int64Max)
  | bid =>
      refine Int.le_trans (total_filter_le ?_ _) (by decide)
      decide

end OrderBook

end ExchangeEngine
