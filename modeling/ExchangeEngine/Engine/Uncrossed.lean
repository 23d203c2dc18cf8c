import ExchangeEngine.Engine.Cancellation
import ExchangeEngine.Engine.Queries

/-!
Order entry never leaves a crossed book. An order only comes to rest once it has
used up everything its limit crosses, and every other call takes orders away, so
what holds of the two best prices before a call holds after it.
-/

namespace ExchangeEngine

open Ladder Fifo Chain Transition

/-- The calls of order entry that match what crosses, or take away what rests. -/
def Command.EntersOrders : Command → Prop
  | .placeOrder _ | .cancelOrder _ | .deleteOrder .. => True
  | _ => False

/-- Crossing does not depend on which of the two orders comes first. -/
theorem crosses_opposed (s : Side) (p q : Nat) :
    OrderBook.crosses (opposed s) p q = OrderBook.crosses s q p := by
  cases s <;> rfl

namespace OrderBook

/-- The levels, the chains, the index and the free list are in the state in which
the public calls leave them. -/
def WellFormed (b : OrderBook) : Prop := ∃ c, Represents b c ∧ c.WellFormed

/-- A side is empty, or the best bid is below the best ask. -/
def Uncrossed (b : OrderBook) : Prop :=
  b.bestBid = none ∨ b.bestAsk = none ∨ ∃ p q, b.bestBid = some p ∧ b.bestAsk = some q ∧ p < q

theorem empty_uncrossed (capacity : Nat) : (empty capacity).Uncrossed := Or.inl rfl

end OrderBook

namespace QueueBook

/-- No two orders of opposite sides cross. -/
def Uncrossed (c : QueueBook) : Prop :=
  ∀ s, ∀ x ∈ c.resting s, ∀ y ∈ c.resting (opposed s), OrderBook.crosses s x.1 y.1 = false

/-- The condition on the best prices is the condition on all pairs. -/
theorem uncrossed_iff {b : OrderBook} {c : QueueBook} (hrep : Represents b c)
    (hwf : c.WellFormed) : b.Uncrossed ↔ c.Uncrossed := by
  constructor
  · rintro hbest
    have hbids : ∀ x ∈ c.resting .bid, ∀ y ∈ c.resting .ask, x.1 < y.1 := by
      intro x hx y hy
      rcases hbest with hnone | hnone | ⟨p, q, hp, hq, hlt⟩
      · rw [hrep.bestBid_eq, head_price_eq_none hwf] at hnone
        rw [hnone] at hx
        cases hx
      · rw [hrep.bestAsk_eq, head_price_eq_none hwf] at hnone
        rw [hnone] at hy
        cases hy
      · rw [hrep.bestBid_eq, head_price_eq_some hwf] at hp
        rw [hrep.bestAsk_eq, head_price_eq_some hwf] at hq
        have hxp : ¬ p < x.1 := hp.2 x hx
        have hqy : ¬ y.1 < q := hq.2 y hy
        omega
    intro s x hx y hy
    cases s with
    | bid => exact decide_eq_false (Nat.not_le.mpr (hbids x hx y hy))
    | ask => exact decide_eq_false (Nat.not_le.mpr (hbids y hy x hx))
  · intro hpairs
    cases hp : b.bestBid with
    | none => exact Or.inl hp
    | some p =>
        cases hq : b.bestAsk with
        | none => exact Or.inr (Or.inl hq)
        | some q =>
            refine Or.inr (Or.inr ⟨p, q, hp, hq, ?_⟩)
            rw [hrep.bestBid_eq, head_price_eq_some hwf] at hp
            rw [hrep.bestAsk_eq, head_price_eq_some hwf] at hq
            obtain ⟨⟨x, hx, rfl⟩, -⟩ := hp
            obtain ⟨⟨y, hy, rfl⟩, -⟩ := hq
            exact Nat.not_le.mp (of_decide_eq_false (hpairs .bid x hx y hy))

namespace Uncrossed

variable {c c' : QueueBook} (h : c.Uncrossed)
include h

/-- Nothing crosses where no price is new. -/
theorem of_prices (hprices : ∀ s, ∀ x ∈ c'.resting s, ∃ y ∈ c.resting s, y.1 = x.1) :
    c'.Uncrossed := by
  intro s x hx y hy
  obtain ⟨x', hx', hxp⟩ := hprices s x hx
  obtain ⟨y', hy', hyp⟩ := hprices (opposed s) y hy
  rw [← hxp, ← hyp]
  exact h s x' hx' y' hy'

/-- An order may rest where it crosses nothing. -/
theorem push (hwf : c.WellFormed) (hwf' : c'.WellFormed) {s : Side} {p id : Nat} {v : Int}
    (hpush : c.push s p id v = some c')
    (hfree : ∀ y ∈ c.resting (opposed s), OrderBook.crosses s p y.1 = false) : c'.Uncrossed := by
  have hcases : ∀ t, ∀ x ∈ c'.resting t, x ∈ c.resting t ∨ (t = s ∧ x.1 = p) := by
    rintro t ⟨q, e⟩ hx
    rw [mem_resting hwf'.ladder] at hx
    rcases mem_push hwf hpush hx with hold | ⟨_, hside, hprice, _⟩
    · exact Or.inl ((mem_resting hwf.ladder).mpr hold)
    · exact Or.inr ⟨hside, hprice⟩
  intro t x hx y hy
  rcases hcases t x hx with hx | ⟨rfl, hxp⟩ <;> rcases hcases (opposed t) y hy with hy | ⟨ht, hyp⟩
  · exact h t x hx y hy
  · subst ht
    rw [hyp, ← crosses_opposed]
    exact hfree x (by rwa [opposed_opposed])
  · rw [hxp]
    exact hfree y hy
  · exact absurd ht (opposed_ne t)

end Uncrossed

theorem prices_drain {c : QueueBook} (hwf : c.WellFormed) (s : Side) (p : Nat) (v : Int) :
    ∀ t, ∀ x ∈ (c.drain s p v).resting t, ∃ y ∈ c.resting t, y.1 = x.1 := by
  rintro t ⟨q, e⟩ hx
  rw [mem_resting (hwf.drain s p v).ladder] at hx
  obtain ⟨e', he', _⟩ := mem_drain hwf hx
  exact ⟨(q, e'), (mem_resting hwf.ladder).mpr he', rfl⟩

theorem prices_sweep {c : QueueBook} (hwf : c.WellFormed) (s : Side) (price : Nat) (v : Int)
    (l : Rungs Nat Entry) :
    ∀ t, ∀ x ∈ (sweep s price c v l).resting t, ∃ y ∈ c.resting t, y.1 = x.1 := by
  rintro t ⟨q, e⟩ hx
  rw [mem_resting (hwf.sweep s price v l).ladder] at hx
  obtain ⟨e', he', _⟩ := mem_sweep hwf hx
  exact ⟨(q, e'), (mem_resting hwf.ladder).mpr he', rfl⟩

theorem prices_remove {c : QueueBook} (hwf : c.WellFormed) (id : Nat) :
    ∀ t, ∀ x ∈ (c.remove id).resting t, ∃ y ∈ c.resting t, y.1 = x.1 := by
  rintro t ⟨q, e⟩ hx
  rw [mem_resting (hwf.remove id).ladder] at hx
  exact ⟨(q, e), (mem_resting hwf.ladder).mpr (mem_remove hwf hx).1, rfl⟩

/-- A call of `place_order` rests its remainder in front of what it could not reach. -/
theorem Uncrossed.place {c c' : QueueBook} (h : c.Uncrossed) (hwf : c.WellFormed) {o : Order}
    {trades : List Trade} (hplace : c.place o = some (c', trades)) : c'.Uncrossed := by
  have hwf' := hwf.place hplace
  have hswept : (sweep o.side o.price c o.volume (c.side (opposed o.side))).Uncrossed :=
    h.of_prices (prices_sweep hwf _ _ _ _)
  rcases place_outcome hplace with ⟨-, rfl, -⟩ | ⟨-, -, rfl, -⟩ |
    ⟨-, -, -, ⟨hleft, -, hpush⟩ | ⟨-, rfl⟩⟩
  · exact h
  · exact h
  · have hwfs := hwf.sweep o.side o.price o.volume (c.side (opposed o.side))
    refine hswept.push hwfs hwf' hpush ?_
    rintro ⟨q, e⟩ hy
    rw [mem_resting hwfs.ladder] at hy
    simpa using not_crosses_of_leftover hwf hleft hy
  · exact hswept

theorem Uncrossed.exec {c c' : QueueBook} (h : c.Uncrossed) (hwf : c.WellFormed) {cmd : Command}
    (hcmd : cmd.EntersOrders) {trades : List Trade} (hexec : c.exec cmd = some (c', trades)) :
    c'.Uncrossed := by
  cases cmd with
  | placeOrder o => exact h.place hwf hexec
  | cancelOrder id =>
      cases hexec
      exact h.of_prices (prices_remove hwf id)
  | addOrder s p v => exact hcmd.elim
  | deleteOrder s p v =>
      cases hexec
      exact h.of_prices (prices_drain hwf s p v)
  | setLevel s p v => exact hcmd.elim

end QueueBook

namespace OrderBook

theorem empty_wellFormed (capacity : Nat) : (empty capacity).WellFormed :=
  ⟨_, empty_represents capacity, QueueBook.empty_wellFormed capacity⟩

/-- From any well-formed uncrossed book, the empty one among them, every run of order
entry leads to uncrossed books only. -/
theorem stays_uncrossed {b b' : OrderBook} (hwf : b.WellFormed) (h : b.Uncrossed)
    {cmds : List Command} {outs : List (List Trade)}
    (hruns : Runs exec (fun _ => Command.EntersOrders) b cmds outs b') : b'.Uncrossed := by
  obtain ⟨c, hrep, hwf⟩ := hwf
  have hinv : ∃ c, Represents b' c ∧ c.WellFormed ∧ c.Uncrossed := by
    refine hruns.invariant (I := fun b => ∃ c, Represents b c ∧ c.WellFormed ∧ c.Uncrossed) ?_
      ⟨c, hrep, hwf, (QueueBook.uncrossed_iff hrep hwf).mp h⟩
    rintro b b' cmd trades ⟨c, hrep, hwf, hpairs⟩ hcmd hexec
    have hallow : Flow.orders.Allows cmd := by
      cases cmd with
      | setLevel s p v => exact hcmd.elim
      | _ => trivial
    obtain ⟨c', hexec', hrep'⟩ := exec_some hrep hwf hallow hexec
    have hsound : Flow.orders.Sound c := ⟨hwf, by simp⟩
    exact ⟨c', hrep', (hsound.exec hallow hexec').wellFormed, hpairs.exec hwf hcmd hexec'⟩
  obtain ⟨c', hrep', hwf', hpairs'⟩ := hinv
  exact (QueueBook.uncrossed_iff hrep' hwf').mpr hpairs'

/-- A bid that takes the only ask and rests its remainder above it. -/
theorem stays_uncrossed_remainder : ∃ b, Runs exec (fun _ => Command.EntersOrders) (empty 4)
    [.placeOrder ⟨1, .ask, 100, 5, .goodTillCanceled⟩,
      .placeOrder ⟨2, .bid, 101, 8, .goodTillCanceled⟩] [[], [⟨2, 1, 100, 5⟩]] b ∧
      b.bestBid = some 101 ∧ b.Uncrossed := by
  have hruns : Runs exec (fun _ => Command.EntersOrders) (empty 4)
    [.placeOrder ⟨1, .ask, 100, 5, .goodTillCanceled⟩,
      .placeOrder ⟨2, .bid, 101, 8, .goodTillCanceled⟩] [[], [⟨2, 1, 100, 5⟩]] _ :=
    Runs.cons trivial rfl (Runs.cons trivial rfl (Runs.nil _))
  exact ⟨_, hruns, rfl, stays_uncrossed (empty_wellFormed 4) (empty_uncrossed 4) hruns⟩

end OrderBook

end ExchangeEngine
