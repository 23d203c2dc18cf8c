import ExchangeEngine.Engine.Command
import ExchangeEngine.Engine.PriorityOrder

/-!
Bids and asks are treated alike. The mirror exchanges the sides and turns prices
around; every operation of the queue book commutes with it, and so the order book
answers mirrored calls with mirrored results.
-/

namespace ExchangeEngine

open Ladder Fifo Chain Transition

/-! ### The mirror -/

/-- Turn the 64-bit prices around. -/
def mirrorPrice (p : Nat) : Nat := 2 ^ 64 - 1 - p

def Location.mirror (loc : Location) : Location :=
  {loc with side := opposed loc.side, price := mirrorPrice loc.price}

def Order.mirror (o : Order) : Order :=
  {o with side := opposed o.side, price := mirrorPrice o.price}

def Trade.mirror (t : Trade) : Trade := {t with price := mirrorPrice t.price}

def Command.mirror : Command → Command
  | .placeOrder order => .placeOrder order.mirror
  | .cancelOrder id => .cancelOrder id
  | .addOrder side price volume => .addOrder (opposed side) (mirrorPrice price) volume
  | .deleteOrder side price volume => .deleteOrder (opposed side) (mirrorPrice price) volume
  | .setLevel side price volume => .setLevel (opposed side) (mirrorPrice price) volume

/-- The price of a call is a 64-bit unsigned integer. -/
def Command.PriceInRange : Command → Prop
  | .placeOrder order => order.price < 2 ^ 64
  | .cancelOrder _ => True
  | .addOrder _ price _ | .deleteOrder _ price _ | .setLevel _ price _ => price < 2 ^ 64

section Prices

variable {p q : Nat} (hp : p < 2 ^ 64) (hq : q < 2 ^ 64)
include hp hq

theorem mirrorPrice_inj (h : mirrorPrice p = mirrorPrice q) : p = q := by
  unfold mirrorPrice at h
  omega

theorem better_mirror (s : Side) :
    better (opposed s) (mirrorPrice p) (mirrorPrice q) ↔ better s p q := by
  unfold mirrorPrice
  cases s <;> simp only [better, opposed] <;> omega

theorem crosses_mirror (s : Side) :
    OrderBook.crosses (opposed s) (mirrorPrice p) (mirrorPrice q) = OrderBook.crosses s p q := by
  unfold mirrorPrice
  cases s <;> simp only [OrderBook.crosses, opposed, decide_eq_decide] <;> omega

end Prices

namespace QueueBook

def mirror (c : QueueBook) : QueueBook :=
  {c with
    side := fun s => mapKeys mirrorPrice (c.side (opposed s))
    index := fun id => (c.index id).map Location.mirror}

/-- Every level has a 64-bit price. -/
def PricesInRange (c : QueueBook) : Prop := ∀ s, ∀ q ∈ c.side s, q.1 < 2 ^ 64

theorem side_mirror (c : QueueBook) (s : Side) :
    c.mirror.side (opposed s) = mapKeys mirrorPrice (c.side s) := by
  simp [mirror]

theorem PricesInRange.alterQueue {c : QueueBook} (h : c.PricesInRange) (s : Side) {p : Nat}
    (hp : p < 2 ^ 64) (f : List Entry → List Entry) : (c.alterQueue s p f).PricesInRange := by
  intro t
  by_cases ht : t = s
  · subst ht
    rw [side_alterQueue]
    exact forall_alter (better t) (P := fun p => p < 2 ^ 64) hp (h t)
  · rw [side_alterQueue_of_ne _ ht]
    exact h t

section Operations

variable {c : QueueBook} (h : c.PricesInRange) {p : Nat} (hp : p < 2 ^ 64)
include h hp

theorem queue_mirror (s : Side) : c.mirror.queue (opposed s) (mirrorPrice p) = c.queue s p := by
  rw [queue, side_mirror]
  exact lookup_mapKeys fun q hq heq => mirrorPrice_inj (h s q hq) hp heq

theorem alterQueue_mirror (s : Side) (f : List Entry → List Entry) :
    c.mirror.alterQueue (opposed s) (mirrorPrice p) f = (c.alterQueue s p f).mirror := by
  have halter : alter (better (opposed s)) (mirrorPrice p) f (c.mirror.side (opposed s)) =
      mapKeys mirrorPrice (alter (better s) p f (c.side s)) := by
    rw [side_mirror]
    exact alter_mapKeys (fun q hq heq => mirrorPrice_inj (h s q hq) hp heq)
      (fun q hq => better_mirror (h s q hq) hp s) f
  have hside : (c.mirror.alterQueue (opposed s) (mirrorPrice p) f).side =
      (c.alterQueue s p f).mirror.side := by
    funext t
    by_cases ht : t = opposed s
    · subst ht
      rw [side_alterQueue, halter, side_mirror, side_alterQueue]
    · have hts : opposed t ≠ s := fun heq => ht (by rw [← heq, opposed_opposed])
      rw [side_alterQueue_of_ne _ ht]
      exact congrArg (mapKeys mirrorPrice) (side_alterQueue_of_ne c hts p f).symm
  calc c.mirror.alterQueue (opposed s) (mirrorPrice p) f
      = {c.mirror with side := (c.mirror.alterQueue (opposed s) (mirrorPrice p) f).side} := rfl
    _ = (c.alterQueue s p f).mirror := by rw [hside]; rfl

end Operations

theorem dropIds_mirror (index : Nat → Option Location) (gone : List Entry) :
    dropIds (fun id => (index id).map Location.mirror) gone =
      fun id => (dropIds index gone id).map Location.mirror := by
  induction gone generalizing index with
  | nil => rfl
  | cons e gone ih =>
      have herase : (if e.2.id ≠ anonymous then
            OrderBook.eraseIndex (fun id => (index id).map Location.mirror) e.2.id
          else fun id => (index id).map Location.mirror) =
          fun id => ((if e.2.id ≠ anonymous then OrderBook.eraseIndex index e.2.id else index) id).map
            Location.mirror := by
        split
        · funext id
          by_cases hid : id = e.2.id
          · simp [OrderBook.eraseIndex, hid]
          · simp [OrderBook.eraseIndex, hid]
        · rfl
      simp only [dropIds, List.foldl_cons] at ih ⊢
      rw [herase, ih]

theorem retire_mirror (c : QueueBook) (gone : List Entry) :
    c.mirror.retire gone = (c.retire gone).mirror := by
  simp only [retire, mirror, dropIds_mirror]

section Mutators

variable {c : QueueBook} (h : c.PricesInRange) {p : Nat} (hp : p < 2 ^ 64)
include h hp

theorem drain_mirror (s : Side) (v : Int) :
    c.mirror.drain (opposed s) (mirrorPrice p) v = (c.drain s p v).mirror := by
  rw [drain, queue_mirror h hp, retire_mirror]
  exact alterQueue_mirror (c := c.retire (popped v (c.queue s p))) h hp s (remaining v)

theorem push_mirror (s : Side) (id : Nat) (v : Int) :
    c.mirror.push (opposed s) (mirrorPrice p) id v = (c.push s p id v).map mirror := by
  simp only [push, Option.map_map, alterQueue_mirror h hp]
  refine congrArg (fun f => Option.map f _) (funext fun next => ?_)
  obtain ⟨node, free, slots⟩ := next
  have hindex : (if id ≠ anonymous then Function.update c.mirror.index id
        (some ⟨opposed s, mirrorPrice p, node⟩) else c.mirror.index) =
      fun id' => ((if id ≠ anonymous then Function.update c.index id (some ⟨s, p, node⟩)
        else c.index) id').map Location.mirror := by
    split
    · funext id'
      by_cases hid : id' = id
      · simp [hid, Location.mirror]
      · simp [hid, mirror]
    · rfl
  simp only [hindex]
  rfl

theorem add_mirror (s : Side) (v : Int) :
    c.mirror.add (opposed s) (mirrorPrice p) v = (c.add s p v).map mirror := by
  unfold add
  split
  · rfl
  · exact push_mirror h hp s anonymous v

theorem assign_mirror (s : Side) (v : Int) :
    c.mirror.assign (opposed s) (mirrorPrice p) v = (c.assign s p v).map mirror := by
  unfold assign
  split
  · rw [queue_mirror h hp, retire_mirror]
    exact congrArg some (alterQueue_mirror (c := c.retire (c.queue s p)) h hp s fun _ => [])
  · rw [queue_mirror h hp]
    cases c.queue s p with
    | nil => exact push_mirror h hp s anonymous v
    | cons e es =>
        simp only [alterQueue_mirror h hp]
        rfl

end Mutators

/-- An index entry only knows prices that have a level. -/
theorem price_lt_of_index {c : QueueBook} (hwf : c.WellFormed) (h : c.PricesInRange) {id : Nat}
    {loc : Location} (hloc : c.index id = some loc) : loc.price < 2 ^ 64 := by
  obtain ⟨e, he, _⟩ := List.mem_map.mp (hwf.indexed id loc hloc).2
  exact h loc.side _ (mem_of_lookup_ne_nil (List.ne_nil_of_mem he))

theorem remove_mirror {c : QueueBook} (hwf : c.WellFormed) (h : c.PricesInRange) (id : Nat) :
    c.mirror.remove id = (c.remove id).mirror := by
  cases hloc : c.index id with
  | none =>
      have hnone : c.mirror.index id = none := by simp [mirror, hloc]
      rw [remove_of_not_indexed hloc, remove_of_not_indexed hnone]
  | some loc =>
      have hsome : c.mirror.index id = some loc.mirror := by simp [mirror, hloc]
      have hp := price_lt_of_index hwf h hloc
      have hindex : OrderBook.eraseIndex c.mirror.index id =
          fun id' => (OrderBook.eraseIndex c.index id id').map Location.mirror := by
        funext id'
        by_cases hid : id' = id
        · simp [OrderBook.eraseIndex, hid]
        · simp [OrderBook.eraseIndex, hid, mirror]
      simp only [remove, hloc, hsome, Location.mirror, alterQueue_mirror h hp, hindex]
      rfl

/-! ### Matching -/

section Matching

variable (s : Side) {price : Nat} (hprice : price < 2 ^ 64)
include hprice

theorem sweep_mirror {c : QueueBook} (h : c.PricesInRange) (v : Int) {l : Rungs Nat Entry}
    (hl : ∀ q ∈ l, q.1 < 2 ^ 64) :
    sweep (opposed s) (mirrorPrice price) c.mirror v (mapKeys mirrorPrice l) =
      (sweep s price c v l).mirror := by
  induction l generalizing c v with
  | nil => rfl
  | cons q l ih =>
      have hq := hl q List.mem_cons_self
      have hdrained : (c.drain (opposed s) q.1 v).PricesInRange :=
        PricesInRange.alterQueue (c := c.retire (popped v (c.queue (opposed s) q.1))) h _ hq _
      have ih := ih hdrained (leftover v q.2) fun r hr => hl r (List.mem_cons_of_mem q hr)
      simp only [mapKeys, List.map_cons, sweep, crosses_mirror hprice hq] at ih ⊢
      split
      · rw [drain_mirror h hq]
        exact ih
      · rfl

theorem sweepLeftover_mirror (v : Int) {l : Rungs Nat Entry} (hl : ∀ q ∈ l, q.1 < 2 ^ 64) :
    sweepLeftover (opposed s) (mirrorPrice price) v (mapKeys mirrorPrice l) =
      sweepLeftover s price v l := by
  induction l generalizing v with
  | nil => rfl
  | cons q l ih =>
      have hq := hl q List.mem_cons_self
      have ih := ih (leftover v q.2) fun r hr => hl r (List.mem_cons_of_mem q hr)
      simp only [mapKeys, List.map_cons, sweepLeftover, crosses_mirror hprice hq] at ih ⊢
      rw [ih]

theorem sweepFills_mirror (v : Int) {l : Rungs Nat Entry} (hl : ∀ q ∈ l, q.1 < 2 ^ 64) :
    sweepFills (opposed s) (mirrorPrice price) v (mapKeys mirrorPrice l) =
      (sweepFills s price v l).map fun fill => (mirrorPrice fill.1, fill.2) := by
  induction l generalizing v with
  | nil => rfl
  | cons q l ih =>
      have hq := hl q List.mem_cons_self
      have ih := ih (leftover v q.2) fun r hr => hl r (List.mem_cons_of_mem q hr)
      simp only [mapKeys, List.map_cons, sweepFills, crosses_mirror hprice hq] at ih ⊢
      split
      · rw [ih, List.map_append, List.map_map]
        rfl
      · rfl

theorem canFill_mirror (v available : Int) {l : Rungs Nat Entry} (hl : ∀ q ∈ l, q.1 < 2 ^ 64) :
    canFill (opposed s) (mirrorPrice price) v available (mapKeys mirrorPrice l) =
      canFill s price v available l := by
  induction l generalizing available with
  | nil => rfl
  | cons q l ih =>
      have hq := hl q List.mem_cons_self
      have ih := ih (wrap64 (available + cachedTotal q.2))
        fun r hr => hl r (List.mem_cons_of_mem q hr)
      simp only [mapKeys, List.map_cons, canFill, crosses_mirror hprice hq] at ih ⊢
      rw [ih]

end Matching

theorem PricesInRange.sweep {c : QueueBook} (h : c.PricesInRange) (s : Side) (price : Nat) (v : Int)
    {l : Rungs Nat Entry} (hl : ∀ q ∈ l, q.1 < 2 ^ 64) : (sweep s price c v l).PricesInRange := by
  induction l generalizing c v with
  | nil => exact h
  | cons q l ih =>
      rw [QueueBook.sweep]
      split
      · refine ih (PricesInRange.alterQueue (c := c.retire (popped v (c.queue (opposed s) q.1))) h _
          (hl q List.mem_cons_self) _) _ fun r hr => hl r (List.mem_cons_of_mem q hr)
      · exact h

theorem place_mirror {c : QueueBook} (h : c.PricesInRange) {o : Order} (hp : o.price < 2 ^ 64) :
    c.mirror.place o.mirror =
      (c.place o).map fun (c, trades) => (c.mirror, trades.map Trade.mirror) := by
  have hl := h (opposed o.side)
  have hside : c.mirror.side (opposed (opposed o.side)) =
      mapKeys mirrorPrice (c.side (opposed o.side)) := side_mirror c _
  have hswept := PricesInRange.sweep h o.side o.price o.volume hl
  have htrades : ((QueueBook.sweepFills o.side o.price o.volume (c.side (opposed o.side))).map
        fun fill => (mirrorPrice fill.1, fill.2)).map (tradeOf o.id) =
      ((QueueBook.sweepFills o.side o.price o.volume (c.side (opposed o.side))).map
        (tradeOf o.id)).map Trade.mirror := by
    rw [List.map_map, List.map_map]
    rfl
  simp only [place, Order.mirror, hside, canFill_mirror o.side hp _ _ hl,
    sweep_mirror o.side hp h _ hl, sweepLeftover_mirror o.side hp _ hl,
    sweepFills_mirror o.side hp _ hl, htrades, push_mirror hswept hp]
  split
  · rfl
  split
  · rfl
  split
  · rw [Option.map_map, Option.map_map]
    rfl
  · rfl

/-- Every operation commutes with the mirror. -/
theorem exec_mirror {c : QueueBook} (hwf : c.WellFormed) (h : c.PricesInRange) {cmd : Command}
    (hp : cmd.PriceInRange) :
    c.mirror.exec cmd.mirror =
      (c.exec cmd).map fun (c, trades) => (c.mirror, trades.map Trade.mirror) := by
  cases cmd with
  | placeOrder o => exact place_mirror h hp
  | cancelOrder id => exact congrArg (fun c => some (c, [])) (remove_mirror hwf h id)
  | addOrder s p v =>
      simp only [exec, Command.mirror, add_mirror h hp, Option.map_map]
      rfl
  | deleteOrder s p v => exact congrArg (fun c => some (c, [])) (drain_mirror h hp s v)
  | setLevel s p v =>
      simp only [exec, Command.mirror, assign_mirror h hp, Option.map_map]
      rfl

theorem PricesInRange.push {c c' : QueueBook} (h : c.PricesInRange) {s : Side} {p id : Nat}
    {v : Int}
    (hp : p < 2 ^ 64) (hpush : c.push s p id v = some c') : c'.PricesInRange := by
  obtain ⟨node, hside, _⟩ := alterQueue_side_push hpush
  intro t
  rw [hside]
  exact h.alterQueue s hp _ t

theorem PricesInRange.exec {c c' : QueueBook} (hwf : c.WellFormed) (h : c.PricesInRange)
    {cmd : Command} (hp : cmd.PriceInRange) {trades : List Trade}
    (hexec : c.exec cmd = some (c', trades)) : c'.PricesInRange := by
  cases cmd with
  | placeOrder o =>
      have hswept := h.sweep o.side o.price o.volume (h (opposed o.side))
      rcases place_outcome hexec with ⟨-, rfl, -⟩ | ⟨-, -, rfl, -⟩ |
        ⟨-, -, -, ⟨-, -, hpush⟩ | ⟨-, rfl⟩⟩
      · exact h
      · exact h
      · exact hswept.push hp hpush
      · exact hswept
  | cancelOrder id =>
      cases hexec
      cases hloc : c.index id with
      | none => rwa [remove_of_not_indexed hloc]
      | some loc =>
          unfold PricesInRange
          rw [side_remove hloc]
          exact h.alterQueue loc.side (price_lt_of_index hwf h hloc) _
  | addOrder s p v =>
      rcases add_cases (exec_addOrder hexec).1 with ⟨-, rfl⟩ | ⟨-, hpush⟩
      · exact h
      · exact h.push hp hpush
  | deleteOrder s p v =>
      cases hexec
      exact PricesInRange.alterQueue (c := c.retire (popped v (c.queue s p))) h s hp _
  | setLevel s p v =>
      rcases assign_cases (exec_setLevel hexec).1 with
        ⟨-, rfl⟩ | ⟨-, -, hpush⟩ | ⟨-, e, es, -, rfl⟩
      · exact PricesInRange.alterQueue (c := c.retire (c.queue s p)) h s hp _
      · exact h.push hp hpush
      · exact h.alterQueue s hp _

end QueueBook

theorem Flow.allows_mirror {flow : Flow} {cmd : Command} (h : flow.Allows cmd) :
    flow.Allows cmd.mirror := by
  cases flow <;> cases cmd <;> exact h

theorem Command.priceInRange_mirror {cmd : Command} (h : cmd.PriceInRange) :
    cmd.mirror.PriceInRange := by
  have hmirror : ∀ p, mirrorPrice p < 2 ^ 64 := fun p => by
    unfold mirrorPrice
    omega
  cases cmd with
  | cancelOrder id => exact h
  | _ => exact hmirror _

namespace OrderBook

/-- One book answers for the other side and the turned price what the other answers. -/
structure Mirrors (m b : OrderBook) : Prop where
  volumeAtPrice : ∀ s p, p < 2 ^ 64 →
    m.volumeAtPrice (mirrorPrice p) (opposed s) = b.volumeAtPrice p s
  bestBid : m.bestBid = b.bestAsk.map mirrorPrice
  bestAsk : m.bestAsk = b.bestBid.map mirrorPrice

theorem mirrors_of_represents {b m : OrderBook} {c : QueueBook} (hb : Represents b c)
    (hm : Represents m c.mirror) (hwf : c.WellFormed) (hwf' : c.mirror.WellFormed)
    (h : c.PricesInRange) : m.Mirrors b := by
  have hbest : ∀ s, (c.mirror.side (opposed s)).head?.map Prod.fst =
      ((c.side s).head?.map Prod.fst).map mirrorPrice := by
    intro s
    rw [QueueBook.side_mirror, mapKeys, List.head?_map, Option.map_map, Option.map_map]
    rfl
  constructor
  · intro s p hp
    rw [hm.volumeAtPrice_eq hwf', QueueBook.queue_mirror h hp, hb.volumeAtPrice_eq hwf]
  · rw [hm.bestBid_eq, hb.bestAsk_eq]
    exact hbest .ask
  · rw [hm.bestAsk_eq, hb.bestBid_eq]
    exact hbest .bid

/-- Every run has its mirror image: the mirrored calls return the mirrored trades, call
for call, and afterwards each query answers for the mirrored side and price what it
answered before. -/
theorem runs_mirror {flow : Flow} {capacity : Nat} {b : OrderBook} {cmds : List Command}
    {outs : List (List Trade)}
    (hruns : Runs exec (fun _ cmd => flow.Allows cmd ∧ cmd.PriceInRange) (empty capacity)
      cmds outs b) :
    ∃ m, Runs exec (fun _ cmd => flow.Allows cmd ∧ cmd.PriceInRange) (empty capacity)
        (cmds.map Command.mirror) (outs.map (List.map Trade.mirror)) m ∧ m.Mirrors b := by
  obtain ⟨m, hmirrored, c, hb, hm, hsound, hsound', h⟩ := hruns.translate exec
    (fun _ cmd => flow.Allows cmd ∧ cmd.PriceInRange) Command.mirror (List.map Trade.mirror)
    (fun b m => ∃ c, Represents b c ∧ Represents m c.mirror ∧ flow.Sound c ∧ flow.Sound c.mirror ∧
      c.PricesInRange)
    (by
      rintro b b' m cmd trades ⟨c, hb, hm, hsound, hsound', h⟩ ⟨hallow, hp⟩ hexec
      obtain ⟨c', hexec', hb'⟩ := exec_some hb hsound.wellFormed hallow hexec
      have hmirror : c.mirror.exec cmd.mirror = some (c'.mirror, trades.map Trade.mirror) := by
        rw [QueueBook.exec_mirror hsound.wellFormed h hp, hexec']
        rfl
      obtain ⟨m', hexec'', hm'⟩ :=
        exec_of_queue hm hsound'.wellFormed (Flow.allows_mirror hallow) hmirror
      exact ⟨m', ⟨Flow.allows_mirror hallow, Command.priceInRange_mirror hp⟩, hexec'', c', hb', hm',
        hsound.exec hallow hexec', hsound'.exec (Flow.allows_mirror hallow) hmirror,
        h.exec hsound.wellFormed hp hexec'⟩)
    ⟨_, empty_represents capacity, empty_represents capacity,
      ⟨QueueBook.empty_wellFormed capacity, fun _ _ => rfl⟩,
      ⟨QueueBook.empty_wellFormed capacity, fun _ _ => rfl⟩, fun _ _ hq => by cases hq⟩
  exact ⟨m, hmirrored, mirrors_of_represents hb hm hsound.wellFormed hsound'.wellFormed h⟩

/-- A bid at the highest price against an ask at the lowest one. -/
theorem runs_mirror_extremes : ∃ b m : OrderBook,
    Runs exec (fun _ cmd => Flow.orders.Allows cmd ∧ cmd.PriceInRange) (empty 4)
      [.placeOrder ⟨1, .ask, 0, 5, .goodTillCanceled⟩,
        .placeOrder ⟨2, .bid, 2 ^ 64 - 1, 8, .goodTillCanceled⟩] [[], [⟨2, 1, 0, 5⟩]] b ∧
      b.bestBid = some (2 ^ 64 - 1) ∧ m.Mirrors b ∧ m.bestAsk = some 0 := by
  have hruns : Runs exec (fun _ cmd => Flow.orders.Allows cmd ∧ cmd.PriceInRange) (empty 4)
      [.placeOrder ⟨1, .ask, 0, 5, .goodTillCanceled⟩,
        .placeOrder ⟨2, .bid, 2 ^ 64 - 1, 8, .goodTillCanceled⟩] [[], [⟨2, 1, 0, 5⟩]] _ :=
    Runs.cons ⟨trivial, show 0 < 2 ^ 64 by decide⟩ rfl
      (Runs.cons ⟨trivial, show 2 ^ 64 - 1 < 2 ^ 64 by decide⟩ rfl (Runs.nil _))
  obtain ⟨m, _, hmirrors⟩ := runs_mirror hruns
  exact ⟨_, m, hruns, rfl, hmirrors, hmirrors.bestAsk⟩

end OrderBook

end ExchangeEngine
