import ExchangeEngine.Library.Transition
import ExchangeEngine.Engine.Refinement

/-!
The order book as a machine that executes one public call after another, and the
same machine over queue books. A flow says which calls a client mixes on one
book: identified order entry, or the level updates of a diff feed. Along every
flow an order book represents a well-formed queue book, so whatever is read out
of its levels and its pool is read out of the queues.
-/

namespace ExchangeEngine

open Ladder Fifo Chain Transition

/-- One public call. -/
inductive Command where
  | placeOrder (order : Order)
  | cancelOrder (id : Nat)
  | addOrder (side : Side) (price : Nat) (volume : Int)
  | deleteOrder (side : Side) (price : Nat) (volume : Int)
  | setLevel (side : Side) (price : Nat) (volume : Int)
  deriving DecidableEq, Repr

/-- The two kinds of client. `set_level` must not be mixed with
`place_order` and `cancel_order` on the same book. -/
inductive Flow where
  | orders
  | levels
  deriving DecidableEq, Repr

/-- The calls of a flow, with the volume of `set_level` in the range of its type. -/
def Flow.Allows : Flow → Command → Prop
  | .orders, .setLevel .. => False
  | .orders, _ => True
  | .levels, .addOrder .. => True
  | .levels, .deleteOrder .. => True
  | .levels, .setLevel _ _ volume => volume ≤ int64Max
  | .levels, _ => False

instance (flow : Flow) : DecidablePred flow.Allows
  | .setLevel _ _ volume =>
    match flow with
    | .orders => .isFalse id
    | .levels => inferInstanceAs (Decidable (volume ≤ int64Max))
  | .placeOrder _ | .cancelOrder _ =>
    match flow with
    | .orders => .isTrue trivial
    | .levels => .isFalse id
  | .addOrder .. | .deleteOrder .. =>
    match flow with
    | .orders | .levels => .isTrue trivial

namespace OrderBook

def exec (b : OrderBook) : Command → Option (OrderBook × List Trade)
  | .placeOrder order => b.placeOrder order
  | .cancelOrder id => (b.cancelOrder id).map fun b => (b, [])
  | .addOrder side price volume => (b.addOrder side price volume).map fun b => (b, [])
  | .deleteOrder side price volume => (b.deleteOrder side price volume).map fun b => (b, [])
  | .setLevel side price volume => (b.setLevel side price volume).map fun b => (b, [])

/-- Reached from the empty book of a capacity by the calls of a flow. -/
abbrev Reached (flow : Flow) (capacity : Nat) (b : OrderBook) : Prop :=
  Reachable exec (fun _ => flow.Allows) (OrderBook.empty capacity) b

/-- The orders of a level, found by following `next` from its head. -/
def chain (b : OrderBook) (lvl : Level) : List Entry :=
  walk b.pool.get nullIndex b.pool.nodes.length lvl.head

/-- The orders resting at a price. -/
def chainAt (b : OrderBook) (s : Side) (p : Nat) : List Entry :=
  match (b.sideLevels s).find? (fun lvl => lvl.price = p) with
  | none => []
  | some lvl => b.chain lvl

/-- The resting orders of a side with their prices, best price first and oldest
first within a price. -/
def resting (b : OrderBook) (s : Side) : List (Nat × Entry) :=
  (b.sideLevels s).flatMap fun lvl => (b.chain lvl).map fun e => (lvl.price, e)

/-- The slots that occur in the chains of a side. -/
def chainSlots (b : OrderBook) (s : Side) : List Int :=
  (b.sideLevels s).flatMap fun lvl => keys (b.chain lvl)

def restingCount (b : OrderBook) : Nat := (b.resting .bid).length + (b.resting .ask).length

end OrderBook

namespace QueueBook

def exec (c : QueueBook) : Command → Option (QueueBook × List Trade)
  | .placeOrder order => c.place order
  | .cancelOrder id => some (c.remove id, [])
  | .addOrder side price volume => (c.add side price volume).map fun c => (c, [])
  | .deleteOrder side price volume => some (c.drain side price volume, [])
  | .setLevel side price volume => (c.assign side price volume).map fun c => (c, [])

section Cases

variable {c c' : QueueBook} {s : Side} {p : Nat} {v : Int} {trades : List Trade}

theorem exec_addOrder (hexec : c.exec (.addOrder s p v) = some (c', trades)) :
    c.add s p v = some c' ∧ trades = [] := by
  obtain ⟨c₁, hadd, heq⟩ := Option.map_eq_some_iff.mp hexec
  cases heq
  exact ⟨hadd, rfl⟩

theorem exec_setLevel (hexec : c.exec (.setLevel s p v) = some (c', trades)) :
    c.assign s p v = some c' ∧ trades = [] := by
  obtain ⟨c₁, hassign, heq⟩ := Option.map_eq_some_iff.mp hexec
  cases heq
  exact ⟨hassign, rfl⟩

end Cases

end QueueBook

/-- What a flow keeps true of a book; level updates never index an order. -/
structure Flow.Sound (flow : Flow) (c : QueueBook) : Prop where
  wellFormed : c.WellFormed
  unindexed : flow = .levels → ∀ id, c.index id = none

theorem QueueBook.index_push_anonymous {c c' : QueueBook} {s : Side} {p : Nat} {v : Int}
    (hpush : c.push s p anonymous v = some c') : c'.index = c.index := by
  obtain ⟨_, _, rfl⟩ := Option.map_eq_some_iff.mp hpush
  simp

theorem Flow.Sound.exec {flow : Flow} {c c' : QueueBook} {cmd : Command} {trades : List Trade}
    (h : flow.Sound c) (hallow : flow.Allows cmd) (hexec : c.exec cmd = some (c', trades)) :
    flow.Sound c' := by
  cases cmd with
  | placeOrder o =>
      cases flow with
      | orders => exact ⟨h.wellFormed.place hexec, by simp⟩
      | levels => exact hallow.elim
  | cancelOrder id =>
      cases flow with
      | orders =>
          cases hexec
          exact ⟨h.wellFormed.remove id, by simp⟩
      | levels => exact hallow.elim
  | addOrder s p v =>
      obtain ⟨hadd, -⟩ := QueueBook.exec_addOrder hexec
      refine ⟨h.wellFormed.add hadd, fun hflow id => ?_⟩
      rcases QueueBook.add_cases hadd with ⟨-, rfl⟩ | ⟨-, hpush⟩
      · exact h.unindexed hflow id
      · rw [QueueBook.index_push_anonymous hpush]
        exact h.unindexed hflow id
  | deleteOrder s p v =>
      cases hexec
      refine ⟨h.wellFormed.drain s p v, fun hflow id => ?_⟩
      exact QueueBook.dropIds_eq_none _ (h.unindexed hflow id)
  | setLevel s p v =>
      cases flow with
      | orders => exact hallow.elim
      | levels =>
          obtain ⟨hassign, -⟩ := QueueBook.exec_setLevel hexec
          have hempty := h.unindexed rfl
          refine ⟨h.wellFormed.assign hempty hassign, fun _ id => ?_⟩
          rcases QueueBook.assign_cases hassign with ⟨-, rfl⟩ | ⟨-, -, hpush⟩ | ⟨-, e, es, -, rfl⟩
          · exact QueueBook.dropIds_eq_none _ (hempty id)
          · rw [QueueBook.index_push_anonymous hpush]
            exact hempty id
          · exact hempty id

theorem QueueBook.capacity_push {c c' : QueueBook} {s : Side} {p id : Nat} {v : Int}
    (hpush : c.push s p id v = some c') : c'.capacity = c.capacity := by
  obtain ⟨_, _, rfl⟩ := Option.map_eq_some_iff.mp hpush
  rfl

theorem QueueBook.capacity_sweep (s : Side) (price : Nat) (c : QueueBook) (v : Int)
    (l : Rungs Nat Entry) : (QueueBook.sweep s price c v l).capacity = c.capacity := by
  induction l generalizing c v with
  | nil => rfl
  | cons q l ih =>
      simp only [QueueBook.sweep]
      split
      · exact ih _ _
      · rfl

theorem QueueBook.capacity_place {c c' : QueueBook} {o : Order} {trades : List Trade}
    (hplace : c.place o = some (c', trades)) : c'.capacity = c.capacity := by
  rcases QueueBook.place_outcome hplace with ⟨-, rfl, -⟩ | ⟨-, -, rfl, -⟩ |
    ⟨-, -, -, ⟨-, -, hpush⟩ | ⟨-, rfl⟩⟩
  · rfl
  · rfl
  · exact (QueueBook.capacity_push hpush).trans (QueueBook.capacity_sweep _ _ _ _ _)
  · exact QueueBook.capacity_sweep _ _ _ _ _

theorem QueueBook.capacity_exec {c c' : QueueBook} {cmd : Command} {trades : List Trade}
    (hexec : c.exec cmd = some (c', trades)) : c'.capacity = c.capacity := by
  cases cmd with
  | placeOrder o => exact QueueBook.capacity_place hexec
  | cancelOrder id =>
      cases hexec
      unfold QueueBook.remove
      split <;> rfl
  | addOrder s p v =>
      rcases QueueBook.add_cases (QueueBook.exec_addOrder hexec).1 with ⟨-, rfl⟩ | ⟨-, hpush⟩
      · rfl
      · exact QueueBook.capacity_push hpush
  | deleteOrder s p v =>
      cases hexec
      rfl
  | setLevel s p v =>
      rcases QueueBook.assign_cases (QueueBook.exec_setLevel hexec).1 with
        ⟨-, rfl⟩ | ⟨-, -, hpush⟩ | ⟨-, e, es, -, rfl⟩
      · rfl
      · exact QueueBook.capacity_push hpush
      · rfl

namespace OrderBook

/-- Every call of a flow does to the order book what it does to the queue book. -/
theorem exec_represents {b : OrderBook} {c : QueueBook} (h : Represents b c)
    (hwf : c.WellFormed) {flow : Flow} {cmd : Command} (hallow : flow.Allows cmd) :
    Option.Rel (fun x y => Represents x.1 y.1 ∧ x.2 = y.2) (b.exec cmd) (c.exec cmd) := by
  have hreport : ∀ {x : Option OrderBook} {y : Option QueueBook}, Option.Rel Represents x y →
      Option.Rel (fun x y => Represents x.1 y.1 ∧ x.2 = y.2) (x.map fun b => (b, ([] : List Trade)))
        (y.map fun c => (c, [])) :=
    fun hrel => rel_map _ _ (fun _ _ hrep => ⟨hrep, rfl⟩) hrel
  cases cmd with
  | placeOrder o => exact placeOrder_represents h hwf o
  | cancelOrder id =>
      obtain ⟨b', hcancel, hrep⟩ := cancelOrder_represents h hwf id
      exact hreport (hcancel ▸ Option.Rel.some hrep)
  | addOrder s p v => exact hreport (addOrder_represents h hwf s p v)
  | deleteOrder s p v =>
      obtain ⟨b', hdelete, hrep⟩ := deleteOrder_represents h hwf s p v
      exact hreport (hdelete ▸ Option.Rel.some hrep)
  | setLevel s p v =>
      cases flow with
      | orders => exact hallow.elim
      | levels => exact hreport (setLevel_represents h hwf s p hallow)

/-- A step of the order book, seen as a step of the queue book. -/
theorem exec_some {b b' : OrderBook} {c : QueueBook} (h : Represents b c) (hwf : c.WellFormed)
    {flow : Flow} {cmd : Command} (hallow : flow.Allows cmd) {trades : List Trade}
    (hexec : b.exec cmd = some (b', trades)) :
    ∃ c', c.exec cmd = some (c', trades) ∧ Represents b' c' := by
  have hrel := exec_represents h hwf hallow
  rw [hexec] at hrel
  obtain ⟨⟨c', _⟩, hc, hrep, rfl⟩ := rel_some_left hrel
  exact ⟨c', hc, hrep⟩

/-- A step of the queue book, made by the order book. -/
theorem exec_of_queue {b : OrderBook} {c c' : QueueBook} (h : Represents b c) (hwf : c.WellFormed)
    {flow : Flow} {cmd : Command} (hallow : flow.Allows cmd) {trades : List Trade}
    (hexec : c.exec cmd = some (c', trades)) :
    ∃ b', b.exec cmd = some (b', trades) ∧ Represents b' c' := by
  have hrel := exec_represents h hwf hallow
  rw [hexec] at hrel
  obtain ⟨⟨b', _⟩, hb, hrep, rfl⟩ := rel_some_right hrel
  exact ⟨b', hb, hrep⟩

/-- An order placed in the order book is placed in the queue book, and conversely. -/
theorem placeOrder_some {b b' : OrderBook} {c : QueueBook} (h : Represents b c) (hwf : c.WellFormed)
    {o : Order} {trades : List Trade} (hplace : b.placeOrder o = some (b', trades)) :
    ∃ c', c.place o = some (c', trades) ∧ Represents b' c' := by
  have hallow : Flow.orders.Allows (.placeOrder o) := trivial
  exact exec_some h hwf hallow hplace

theorem placeOrder_of_queue {b : OrderBook} {c c' : QueueBook} (h : Represents b c)
    (hwf : c.WellFormed) {o : Order} {trades : List Trade}
    (hplace : c.place o = some (c', trades)) :
    ∃ b', b.placeOrder o = some (b', trades) ∧ Represents b' c' := by
  have hallow : Flow.orders.Allows (.placeOrder o) := trivial
  exact exec_of_queue h hwf hallow hplace

/-- Every reached book represents a well-formed queue book. -/
theorem Reached.represents {flow : Flow} {capacity : Nat} {b : OrderBook}
    (h : Reached flow capacity b) :
    ∃ c, Represents b c ∧ flow.Sound c ∧ c.capacity = capacity := by
  refine Reachable.invariant (I := fun b => ∃ c, Represents b c ∧ flow.Sound c ∧
    c.capacity = capacity) ?_ h ?_
  · rintro b b' cmd trades ⟨c, hrep, hsound, hcap⟩ hallow hexec
    obtain ⟨c', hexec', hrep'⟩ := exec_some hrep hsound.wellFormed hallow hexec
    exact ⟨c', hrep', hsound.exec hallow hexec', (QueueBook.capacity_exec hexec').trans hcap⟩
  · exact ⟨_, empty_represents capacity, ⟨QueueBook.empty_wellFormed capacity, fun _ _ => rfl⟩,
      rfl⟩

end OrderBook

namespace Represents

variable {b : OrderBook} {c : QueueBook} (h : Represents b c) (hwf : c.WellFormed)
include h hwf

theorem chain_levelOf {s : Side} {q : Nat × List Entry} (hq : q ∈ c.side s) :
    b.chain (levelOf q) = q.2 := by
  have hqueue : c.queue s q.1 = q.2 := (hwf.ladder s).lookup_of_mem hq
  have hseg := h.linked s q.1
  have hnull := hwf.null_notMem s q.1
  have hlength := h.length ▸ hwf.queue_length_le s q.1
  rw [hqueue] at hseg hnull hlength
  exact hseg.walk_eq hnull hlength

/-- The levels of a side are the queues of its ladder. -/
theorem chains (s : Side) :
    (b.sideLevels s).map (fun lvl => (lvl.price, b.chain lvl)) = c.side s := by
  rw [h.levels s, List.map_map]
  have hid : ∀ q ∈ c.side s, ((fun lvl => (lvl.price, b.chain lvl)) ∘ levelOf) q = q := by
    intro q hq
    simp only [Function.comp_apply, h.chain_levelOf hwf hq, levelOf_price]
  rw [List.map_congr_left hid, List.map_id']

theorem chainAt_eq (s : Side) (p : Nat) : b.chainAt s p = c.queue s p := by
  have hfind : ∀ l : Rungs Nat Entry, (∀ q ∈ l, q ∈ c.side s) →
      (match (l.map levelOf).find? (fun lvl => lvl.price = p) with
        | none => []
        | some lvl => b.chain lvl) = lookup p l := by
    intro l hl
    induction l with
    | nil => rfl
    | cons q l ih =>
        have ih := ih fun r hr => hl r (List.mem_cons_of_mem _ hr)
        by_cases hp : q.1 = p
        · simp [lookup_cons, hp, h.chain_levelOf hwf (hl q List.mem_cons_self)]
        · simpa [lookup_cons, hp] using ih
  rw [OrderBook.chainAt, h.levels s]
  exact hfind _ fun _ hq => hq

theorem resting_eq (s : Side) : b.resting s = c.resting s := by
  rw [QueueBook.resting, ← h.chains hwf s, listing, List.flatMap_map]
  rfl

theorem chainSlots_eq (s : Side) : b.chainSlots s = keys (elements (c.side s)) := by
  rw [← h.chains hwf s, elements, List.flatMap_map, keys, List.map_flatMap]
  rfl

theorem volumeAtPrice_eq (p : Nat) (s : Side) :
    b.volumeAtPrice p s = some (QueueBook.cachedTotal (c.queue s p)) := by
  obtain ⟨xs, ys, hfind, hlevels, _, hys⟩ := h.locate hwf s p
  rw [hlevels] at hfind
  simp only [OrderBook.volumeAtPrice, hlevels, hfind, Option.bind_eq_bind, Option.bind_some]
  rw [List.getElem?_append_right (Nat.le_refl _), Nat.sub_self, ← List.head?_eq_getElem?]
  cases hqueue : c.queue s p with
  | cons e es => simp [levelsOf, levelOf]
  | nil =>
      have hzero : QueueBook.cachedTotal [] = 0 := by decide
      rw [levelsOf, List.nil_append, hzero]
      cases hhead : ys.head? with
      | none => rfl
      | some lvl => simp [hys lvl (by simp [hhead])]

omit hwf in
theorem bestBid_eq : b.bestBid = (c.side .bid).head?.map Prod.fst := by
  have hlevels : b.bidLevels = (c.side .bid).map levelOf := h.levels .bid
  rw [OrderBook.bestBid, hlevels, List.head?_map, Option.map_map]
  rfl

omit hwf in
theorem bestAsk_eq : b.bestAsk = (c.side .ask).head?.map Prod.fst := by
  have hlevels : b.askLevels = (c.side .ask).map levelOf := h.levels .ask
  rw [OrderBook.bestAsk, hlevels, List.head?_map, Option.map_map]
  rfl

end Represents

end ExchangeEngine
