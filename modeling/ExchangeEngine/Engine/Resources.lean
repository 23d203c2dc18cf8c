import ExchangeEngine.Engine.ChainInvariants
import ExchangeEngine.Engine.PriorityOrder

/-!
What a run costs. A call that trades with many resting orders uses all of them up but one,
so over a run the trades are paid for by the orders that were let in. The pool never grows
beyond the largest number of orders that rested at the same time.
-/

namespace ExchangeEngine

open Ladder Fifo Chain Transition

/-- The calls that can bring an order into the book. -/
def Command.enters : Command → Bool
  | .placeOrder order => 0 < order.volume
  | .addOrder _ _ volume => 0 < volume
  | .setLevel _ _ volume => 0 < volume
  | _ => false

/-- A draw uses up every element it hits but the last one. -/
theorem length_fills_le {α : Type*} [Portion α] (v : Int) (as : List α) :
    (fills v as).length ≤ (popped v as).length + 1 ∧
      (0 < leftover v as → (fills v as).length = (popped v as).length) := by
  induction as generalizing v with
  | nil => exact ⟨Nat.zero_le _, fun _ => rfl⟩
  | cons a as ih =>
      by_cases hv : 0 < v
      · by_cases ha : Portion.quantity a ≤ v
        · obtain ⟨hfills, -, hpopped, hleftover, -⟩ := draw_whole hv ha as
          obtain ⟨hle, heq⟩ := ih (v - Portion.quantity a)
          rw [hfills, hpopped, hleftover, List.length_cons, List.length_cons]
          exact ⟨Nat.succ_le_succ hle, fun hmore => congrArg Nat.succ (heq hmore)⟩
        · obtain ⟨hfills, -, hpopped, hleftover, -⟩ := draw_part hv (Int.not_le.mp ha) as
          rw [hfills, hpopped, hleftover]
          exact ⟨Nat.le_refl _, fun hmore => absurd hmore (Int.lt_irrefl 0)⟩
      · rw [fills_of_nonpos (Int.not_lt.mp hv), popped_of_nonpos (Int.not_lt.mp hv)]
        exact ⟨Nat.zero_le _, fun _ => rfl⟩

namespace QueueBook

variable {c c' : QueueBook}

/-- A push takes a free slot, or makes one when none is free. -/
theorem free_push {s : Side} {p id : Nat} {v : Int} (hpush : c.push s p id v = some c') :
    (c.free.length = c'.free.length + 1 ∧ c'.slots = c.slots) ∨
      (c.free.length = 0 ∧ c'.free.length = 0 ∧ c'.slots = c.slots + 1) := by
  obtain ⟨⟨node, free, slots⟩, hnext, rfl⟩ := Option.map_eq_some_iff.mp hpush
  rcases ObjectPool.nextSlot_cases hnext with ⟨hfree, hslots⟩ | ⟨hfree, hnone, -, -, hslots⟩
  · left
    rw [hfree]
    exact ⟨rfl, hslots⟩
  · right
    rw [hfree]
    exact ⟨rfl, by simp [hnone], hslots⟩

/-- A call that makes `trades` trades: they are paid for by the orders used up and at most
one unit of credit, and slots are only made when every one is taken. -/
structure Spends (c c' : QueueBook) (credit trades : Nat) : Prop where
  paid : trades + c'.restingCount ≤ c.restingCount + credit
  slots : c'.slots = max c.slots c'.restingCount

variable (hwf : c.WellFormed) (hwf' : c'.WellFormed)
include hwf hwf'

/-- Giving slots back pays for as many trades. -/
theorem Spends.of_freed {freed credit trades : Nat} (hslots : c'.slots = c.slots)
    (hfree : c'.free.length = freed + c.free.length) (htrades : trades ≤ freed + credit) :
    Spends c c' credit trades := by
  have hcount := hwf.restingCount_add_free
  have hcount' := hwf'.restingCount_add_free
  exact ⟨by omega, by omega⟩

theorem Spends.of_push {s : Side} {p id : Nat} {v : Int} (hpush : c.push s p id v = some c') :
    Spends c c' 1 0 := by
  have hcount := hwf.restingCount_add_free
  have hcount' := hwf'.restingCount_add_free
  rcases free_push hpush with ⟨hfree, hslots⟩ | ⟨hnone, hnone', hslots⟩
  · exact ⟨by omega, by omega⟩
  · exact ⟨by omega, by omega⟩

theorem Spends.place {o : Order} {trades : List Trade} (hplace : c.place o = some (c', trades)) :
    Spends c c' (if 0 < o.volume then 1 else 0) trades.length := by
  have hladder := hwf.ladder (opposed o.side)
  rcases place_outcome hplace with ⟨-, rfl, rfl⟩ | ⟨-, -, rfl, rfl⟩ | ⟨hvolume, -, rfl, hcases⟩
  · exact .of_freed hwf hwf rfl (Nat.zero_add _).symm (Nat.zero_le _)
  · exact .of_freed hwf hwf rfl (Nat.zero_add _).symm (Nat.zero_le _)
  obtain ⟨-, hfree, hslots⟩ := retired_sweep o.side o.price hladder.nonempty o.volume (c := c) rfl
  have hlength := congrArg List.length hfree
  rw [List.length_append, List.length_reverse, keys, List.length_map, List.length_map] at hlength
  obtain ⟨hle, heq⟩ :=
    length_fills_le o.volume (crossing o.side o.price (listing (c.side (opposed o.side))))
  rw [List.length_map, sweepFills_eq o.side o.price hladder.nonempty, List.length_map,
    if_pos hvolume]
  rcases hcases with ⟨hleft, -, hpush⟩ | ⟨-, rfl⟩
  · -- the order takes all that crosses, and what is left of it needs the credit
    rw [sweepLeftover_eq o.side o.price hladder.nonempty] at hleft
    have hswept := hwf.sweep o.side o.price o.volume (c.side (opposed o.side))
    have hsweep : Spends c (sweep o.side o.price c o.volume (c.side (opposed o.side))) 0 _ :=
      .of_freed hwf hswept hslots hlength (Nat.le_of_eq (heq hleft))
    have hrest := Spends.of_push hswept hwf' hpush
    exact ⟨by have := hsweep.paid; have := hrest.paid; omega,
      by have := hsweep.slots; have := hrest.slots; omega⟩
  · exact .of_freed hwf hwf' hslots hlength hle

theorem Spends.exec {cmd : Command} {trades : List Trade} (hexec : c.exec cmd = some (c', trades)) :
    Spends c c' (if cmd.enters then 1 else 0) trades.length := by
  have hsame : ∀ {credit : Nat}, c' = c → Spends c c' credit 0 := by
    rintro credit rfl
    exact .of_freed hwf hwf rfl (Nat.zero_add _).symm (Nat.zero_le _)
  cases cmd with
  | placeOrder o => simpa [Command.enters] using Spends.place hwf hwf' hexec
  | cancelOrder id =>
    cases hexec
    cases hloc : c.index id with
    | none => exact hsame (remove_of_not_indexed hloc)
    | some loc =>
      simp only [remove, hloc] at hwf' ⊢
      exact .of_freed hwf hwf' rfl (Nat.add_comm _ 1) (Nat.zero_le _)
  | addOrder s p v =>
    obtain ⟨hadd, rfl⟩ := exec_addOrder hexec
    rcases add_cases hadd with ⟨-, hnone⟩ | ⟨hv, hpush⟩
    · exact hsame hnone
    · simpa [Command.enters, hv] using Spends.of_push hwf hwf' hpush
  | deleteOrder s p v =>
    cases hexec
    exact .of_freed hwf hwf' rfl List.length_append (Nat.zero_le _)
  | setLevel s p v =>
    obtain ⟨hassign, rfl⟩ := exec_setLevel hexec
    rcases assign_cases hassign with ⟨-, rfl⟩ | ⟨hv, -, hpush⟩ | ⟨-, e, es, -, rfl⟩
    · exact .of_freed hwf hwf' rfl List.length_append (Nat.zero_le _)
    · simpa [Command.enters, hv] using Spends.of_push hwf hwf' hpush
    · exact .of_freed hwf hwf' rfl List.length_append (Nat.zero_le _)

end QueueBook

namespace OrderBook

/-- What a step of an order book spends, the book it represents kept along. -/
theorem spends {flow : Flow} {b b' : OrderBook} {cmd : Command} {trades : List Trade}
    (h : ∃ c, Represents b c ∧ flow.Sound c) (hallow : flow.Allows cmd)
    (hexec : b.exec cmd = some (b', trades)) :
    (∃ c, Represents b' c ∧ flow.Sound c) ∧
      trades.length + b'.restingCount ≤ b.restingCount + (if cmd.enters then 1 else 0) ∧
      b'.pool.nodes.length = max b.pool.nodes.length b'.restingCount := by
  obtain ⟨c, hrep, hsound⟩ := h
  obtain ⟨c', hexec', hrep'⟩ := exec_some hrep hsound.wellFormed hallow hexec
  have hsound' := hsound.exec hallow hexec'
  have hspends := QueueBook.Spends.exec hsound.wellFormed hsound'.wellFormed hexec'
  rw [hrep.restingCount_eq hsound.wellFormed, hrep'.restingCount_eq hsound'.wellFormed,
    hrep.length, hrep'.length]
  exact ⟨⟨c', hrep', hsound'⟩, hspends.paid, hspends.slots⟩

theorem empty_sound (flow : Flow) (capacity : Nat) :
    ∃ c, Represents (empty capacity) c ∧ flow.Sound c :=
  ⟨_, empty_represents capacity, QueueBook.empty_wellFormed capacity, fun _ _ => rfl⟩

/-- Each trade of a run is paid for by an order that was let in, and each resting order
by another. -/
theorem trades_amortized {flow : Flow} {capacity : Nat} {b : OrderBook} {cmds : List Command}
    {outs : List (List Trade)}
    (hruns : Runs exec (fun _ => flow.Allows) (empty capacity) cmds outs b) :
    (outs.map List.length).sum + b.restingCount ≤ cmds.countP Command.enters := by
  have hpaid := hruns.amortized restingCount List.length Command.enters
    (fun h hallow hexec => ⟨(spends h hallow hexec).1, (spends h hallow hexec).2.1⟩)
    (empty_sound flow capacity)
  rwa [show (empty capacity).restingCount = 0 from rfl, Nat.zero_add] at hpaid

/-- Three orders, two trades, and one order that still rests. -/
theorem trades_amortized_threeOrders : ∃ (b : OrderBook) (outs : List (List Trade)),
    outs.map List.length = [0, 0, 2] ∧ b.restingCount = 1 ∧
      (outs.map List.length).sum + b.restingCount ≤ 3 := by
  have hrun : ∃ b outs, outs.map List.length = [0, 0, 2] ∧ b.restingCount = 1 ∧
      Runs exec (fun _ => Flow.orders.Allows) (empty 8)
        [.placeOrder ⟨1, .ask, 100, 4, .goodTillCanceled⟩,
          .placeOrder ⟨2, .ask, 100, 6, .goodTillCanceled⟩,
          .placeOrder ⟨3, .bid, 100, 7, .goodTillCanceled⟩] outs b :=
    ⟨_, _, rfl, rfl,
      Runs.cons trivial rfl (Runs.cons trivial rfl (Runs.cons trivial rfl (Runs.nil _)))⟩
  obtain ⟨b, outs, hlengths, hcount, hruns⟩ := hrun
  exact ⟨b, outs, hlengths, hcount, trades_amortized hruns⟩

/-- The pool of a book is as large as the most orders that rested at one time. -/
theorem pool_high_water {flow : Flow} {capacity : Nat} {b : OrderBook} {cmds : List Command}
    {outs : List (List Trade)}
    (hruns : Runs exec (fun _ => flow.Allows) (empty capacity) cmds outs b) :
    b.pool.nodes.length = peak exec restingCount (empty capacity) cmds := by
  have hroom := hruns.high_water (fun b => b.pool.nodes.length) restingCount
    (fun h hallow hexec => ⟨(spends h hallow hexec).1, (spends h hallow hexec).2.2⟩)
    (empty_sound flow capacity) (Nat.le_refl 0)
  rwa [show (empty capacity).pool.nodes.length = 0 from rfl, Nat.zero_max] at hroom

/-- A canceled order keeps its slot in the pool. -/
theorem pool_high_water_canceled : ∃ b : OrderBook, b.restingCount = 1 ∧
    b.pool.nodes.length = peak exec restingCount (empty 8)
      [.placeOrder ⟨1, .ask, 100, 4, .goodTillCanceled⟩,
        .placeOrder ⟨2, .ask, 101, 6, .goodTillCanceled⟩, .cancelOrder 1] := by
  have hrun : ∃ b outs, b.restingCount = 1 ∧
      Runs exec (fun _ => Flow.orders.Allows) (empty 8)
        [.placeOrder ⟨1, .ask, 100, 4, .goodTillCanceled⟩,
          .placeOrder ⟨2, .ask, 101, 6, .goodTillCanceled⟩, .cancelOrder 1] outs b :=
    ⟨_, _, rfl,
      Runs.cons trivial rfl (Runs.cons trivial rfl (Runs.cons trivial rfl (Runs.nil _)))⟩
  obtain ⟨b, outs, hcount, hruns⟩ := hrun
  exact ⟨b, hcount, pool_high_water hruns⟩

end OrderBook

end ExchangeEngine
