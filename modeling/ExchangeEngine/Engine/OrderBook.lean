import ExchangeEngine.Memory.ObjectPool
import ExchangeEngine.Engine.Order
import ExchangeEngine.Engine.BranchlessBinarySearch
import Mathlib.Logic.Function.Basic

/-!
`src/engine/order_book.hpp` and `src/engine/order_book.cpp`. A level passed by
reference in the source is passed and returned by value here, and the caller
stores it back. `none` stands for an access the source leaves undefined, for a
failed assertion and for a loop that has not ended within its fuel. Every loop
over a chain gets one round more than the pool has slots, and the level loop of
`match` one round more than there are levels.
-/

namespace ExchangeEngine

structure RestingOrder where
  id : Nat
  volume : Int
  deriving DecidableEq, Repr, Inhabited

structure Level where
  price : Nat
  totalVolume : Int := 0
  head : Int := nullIndex
  tail : Int := nullIndex
  deriving DecidableEq, Repr

structure Location where
  side : Side
  price : Nat
  node : Int
  deriving DecidableEq, Repr

/-- `kAnonymous`: the id that is never tracked in the index. -/
def anonymous : Nat := 0

structure OrderBook where
  pool : ObjectPool RestingOrder
  bidLevels : List Level
  askLevels : List Level
  index : Nat → Option Location

namespace OrderBook

/-- `OrderBook(capacity)`. -/
def empty (capacity : Nat) : OrderBook := ⟨ObjectPool.empty capacity, [], [], fun _ => none⟩

def sideLevels (b : OrderBook) : Side → List Level
  | .bid => b.bidLevels
  | .ask => b.askLevels

/-- Store through the reference returned by `side_levels`. -/
def setSideLevels (b : OrderBook) (side : Side) (levels : List Level) : OrderBook :=
  match side with
  | .bid => {b with bidLevels := levels}
  | .ask => {b with askLevels := levels}

@[simp] theorem sideLevels_setSideLevels (b : OrderBook) (s : Side) (levels : List Level) :
    (b.setSideLevels s levels).sideLevels s = levels := by cases s <;> rfl

theorem sideLevels_setSideLevels_of_ne (b : OrderBook) {s t : Side} (h : t ≠ s)
    (levels : List Level) : (b.setSideLevels s levels).sideLevels t = b.sideLevels t := by
  cases s <;> cases t <;> first | rfl | exact absurd rfl h

@[simp] theorem pool_setSideLevels (b : OrderBook) (s : Side) (levels : List Level) :
    (b.setSideLevels s levels).pool = b.pool := by cases s <;> rfl

@[simp] theorem index_setSideLevels (b : OrderBook) (s : Side) (levels : List Level) :
    (b.setSideLevels s levels).index = b.index := by cases s <;> rfl

/-- Would an incoming `side` order at `price` trade against `bookPrice`? -/
def crosses (side : Side) (price bookPrice : Nat) : Bool :=
  match side with
  | .bid => bookPrice ≤ price
  | .ask => price ≤ bookPrice

/-- `find_level`, as a position in the side's level vector. -/
def findLevel (levels : List Level) (side : Side) (price : Nat) : Option Nat :=
  branchlessLowerBound levels price (fun p q => decide (better side p q)) Level.price

/-- `index_.erase(id)`. -/
def eraseIndex (index : Nat → Option Location) (id : Nat) : Nat → Option Location :=
  Function.update index id none

/-- `pop_front`: remove the head of a level and reclaim its slot. -/
def popFront (b : OrderBook) (lvl : Level) : Option (OrderBook × Level) := do
  let node := lvl.head
  let r ← b.pool.get node
  let index := if r.value.id ≠ anonymous then eraseIndex b.index r.value.id else b.index
  let head := r.next
  if head ≠ nullIndex then
    let newHead ← b.pool.get head
    let pool := b.pool.set head {newHead with prev := nullIndex}
    return ({b with pool := pool.deallocate node, index}, {lvl with head})
  else
    return ({b with pool := b.pool.deallocate node, index},
      {lvl with head, tail := nullIndex})

/-- `unlink`: splice a node out of a level without freeing it. -/
def unlink (p : ObjectPool RestingOrder) (lvl : Level) (node : Int) :
    Option (ObjectPool RestingOrder × Level) := do
  let r ← p.get node
  let (p, lvl) ←
    if r.prev ≠ nullIndex then do
      let left ← p.get r.prev
      pure (p.set r.prev {left with next := r.next}, lvl)
    else pure (p, {lvl with head := r.next})
  if r.next ≠ nullIndex then do
    let right ← p.get r.next
    pure (p.set r.next {right with prev := r.prev}, lvl)
  else pure (p, {lvl with tail := r.prev})

/-- The FIFO loop that `match` and `delete_order` share: take volume from the
head order, and pop it once nothing is left of it. `emit` is the trade list
recorded for an order and the volume taken from it. -/
def drainLevel (emit : RestingOrder → Int → List Trade) :
    Nat → OrderBook → Level → Int → List Trade →
      Option (OrderBook × Level × Int × List Trade)
  | 0, _, _, _, _ => none
  | fuel + 1, b, lvl, volume, trades =>
      if 0 < volume ∧ lvl.head ≠ nullIndex then do
        let node ← b.pool.get lvl.head
        let take := min volume node.value.volume
        let left := node.value.volume - take
        let pool := b.pool.set lvl.head {node with value := {node.value with volume := left}}
        let lvl := {lvl with totalVolume := wrap64 (lvl.totalVolume - take)}
        let trades := trades ++ emit node.value take
        if left = 0 then do
          let (b, lvl) ← {b with pool}.popFront lvl
          drainLevel emit fuel b lvl (volume - take) trades
        else drainLevel emit fuel {b with pool} lvl (volume - take) trades
      else some (b, lvl, volume, trades)

/-- The inner loop of `match`: one trade per order hit. -/
def matchLevel (id : Nat) (fuel : Nat) (b : OrderBook) (lvl : Level) (volume : Int)
    (trades : List Trade) : Option (OrderBook × Level × Int × List Trade) :=
  drainLevel (fun r fill => [⟨id, r.id, lvl.price, fill⟩]) fuel b lvl volume trades

/-- The outer loop of `match`, on the levels of the opposite side. -/
def matchLevels (id : Nat) (side : Side) (price : Nat) :
    Nat → OrderBook → Int → List Trade → Option (OrderBook × Int × List Trade)
  | 0, _, _, _ => none
  | fuel + 1, b, volume, trades =>
      match b.sideLevels (opposed side) with
      | [] => some (b, volume, trades)
      | lvl :: levels =>
          if 0 < volume ∧ crosses side price lvl.price then do
            let (b, lvl, volume, trades) ←
              matchLevel id (b.pool.nodes.length + 1) b lvl volume trades
            let levels := if lvl.head = nullIndex then levels else lvl :: levels
            matchLevels id side price fuel (b.setSideLevels (opposed side) levels) volume trades
          else some (b, volume, trades)

/-- `match`: cross `volume` against the opposite side, returning the book, the
unfilled remainder and the trades. -/
def matchOrder (b : OrderBook) (id : Nat) (side : Side) (price : Nat) (volume : Int) :
    Option (OrderBook × Int × List Trade) :=
  matchLevels id side price ((b.sideLevels (opposed side)).length + 1) b volume []

/-- `rest`: append a new order to its side's level, creating it if needed. -/
def rest (b : OrderBook) (id : Nat) (side : Side) (price : Nat) (volume : Int) :
    Option OrderBook := do
  let levels := b.sideLevels side
  let it ← findLevel levels side price
  let levels :=
    if (levels[it]?.map Level.price) = some price then levels
    else levels.insertIdx it {price}
  let (node, pool) ← b.pool.allocate ⟨id, volume⟩
  let lvl ← levels[it]?
  let (pool, lvl) ←
    if lvl.tail = nullIndex then pure (pool, {lvl with head := node, tail := node})
    else do
      let tail ← pool.get lvl.tail
      let pool := pool.set lvl.tail {tail with next := node}
      let fresh ← pool.get node
      pure (pool.set node {fresh with prev := lvl.tail}, {lvl with tail := node})
  let lvl := {lvl with totalVolume := wrap64 (lvl.totalVolume + volume)}
  let index :=
    if id ≠ anonymous then Function.update b.index id (some ⟨side, price, node⟩) else b.index
  return {b with pool, index}.setSideLevels side (levels.set it lvl)

/-- `can_fully_fill`, from the volume already found available. -/
def canFullyFill (side : Side) (price : Nat) (volume : Int) : Int → List Level → Bool
  | _, [] => false
  | available, lvl :: levels =>
      if crosses side price lvl.price then
        let available := wrap64 (available + lvl.totalVolume)
        if volume ≤ available then true else canFullyFill side price volume available levels
      else false

/-- `place_order`. -/
def placeOrder (b : OrderBook) (order : Order) : Option (OrderBook × List Trade) :=
  if order.volume ≤ 0 then some (b, [])
  else if order.type = .fillOrKill ∧
      canFullyFill order.side order.price order.volume 0
        (b.sideLevels (opposed order.side)) = false then some (b, [])
  else do
    let (b, newVolume, trades) ← b.matchOrder order.id order.side order.price order.volume
    if 0 < newVolume ∧ order.type ≠ .immediateOrCancel ∧ order.type ≠ .fillOrKill then do
      let b ← b.rest order.id order.side order.price newVolume
      return (b, trades)
    else return (b, trades)

/-- `cancel_order`. The inner `none` is the assertion on the looked-up level. -/
def cancelOrder (b : OrderBook) (id : Nat) : Option OrderBook :=
  match b.index id with
  | none => some b
  | some ⟨side, price, node⟩ => do
      let levels := b.sideLevels side
      let it ← findLevel levels side price
      let lvl ← levels[it]?
      if lvl.price ≠ price then none else
      let r ← b.pool.get node
      let (pool, lvl) ← unlink b.pool lvl node
      let lvl := {lvl with totalVolume := wrap64 (lvl.totalVolume - r.value.volume)}
      let levels := if lvl.head = nullIndex then levels.eraseIdx it else levels.set it lvl
      return {b with pool := pool.deallocate node, index := eraseIndex b.index id}.setSideLevels
        side levels

/-- `add_order`. -/
def addOrder (b : OrderBook) (side : Side) (price : Nat) (volume : Int) : Option OrderBook :=
  if volume ≤ 0 then some b else b.rest anonymous side price volume

/-- `delete_order`. -/
def deleteOrder (b : OrderBook) (side : Side) (price : Nat) (volume : Int) :
    Option OrderBook := do
  let levels := b.sideLevels side
  let it ← findLevel levels side price
  match levels[it]? with
  | none => return b
  | some lvl =>
      if lvl.price ≠ price then return b else
      let (b, lvl, _, _) ←
        drainLevel (fun _ _ => []) (b.pool.nodes.length + 1) b lvl volume []
      if lvl.head = nullIndex then return b.setSideLevels side (levels.eraseIdx it)
      else return b.setSideLevels side (levels.set it lvl)

/-- `while (it->head != kNull) pop_front(*it)` in `set_level`. -/
def popAll : Nat → OrderBook → Level → Option (OrderBook × Level)
  | 0, _, _ => none
  | fuel + 1, b, lvl =>
      if lvl.head ≠ nullIndex then do
        let (b, lvl) ← b.popFront lvl
        popAll fuel b lvl
      else some (b, lvl)

/-- The trailing-node drain of `set_level`, from node `n`. -/
def freeTrailing : Nat → ObjectPool RestingOrder → Int → Option (ObjectPool RestingOrder)
  | 0, _, _ => none
  | fuel + 1, p, n =>
      if n ≠ nullIndex then do
        let r ← p.get n
        freeTrailing fuel (p.deallocate n) r.next
      else some p

/-- `set_level`. -/
def setLevel (b : OrderBook) (side : Side) (price : Nat) (volume : Int) :
    Option OrderBook := do
  let levels := b.sideLevels side
  let it ← findLevel levels side price
  match levels[it]?.filter (fun lvl => lvl.price = price) with
  | none =>
      if volume ≤ 0 then return b else
      let (node, pool) ← b.pool.allocate ⟨anonymous, volume⟩
      return {b with pool}.setSideLevels side
        (levels.insertIdx it {price, totalVolume := volume, head := node, tail := node})
  | some lvl =>
      if volume ≤ 0 then
        let (b, _) ← popAll (b.pool.nodes.length + 1) b lvl
        return b.setSideLevels side (levels.eraseIdx it)
      else
        let head ← b.pool.get lvl.head
        let pool ← freeTrailing (b.pool.nodes.length + 1) b.pool head.next
        let head ← pool.get lvl.head
        let pool := pool.set lvl.head
          {head with next := nullIndex, value := {head.value with volume}}
        return {b with pool}.setSideLevels side
          (levels.set it {lvl with tail := lvl.head, totalVolume := volume})

/-- `volume_at_price`. -/
def volumeAtPrice (b : OrderBook) (price : Nat) (side : Side) : Option Int := do
  let levels := b.sideLevels side
  let it ← findLevel levels side price
  match levels[it]? with
  | none => return 0
  | some lvl => return if lvl.price = price then lvl.totalVolume else 0

/-- `best_bid`. -/
def bestBid (b : OrderBook) : Option Nat := b.bidLevels.head?.map Level.price

/-- `best_ask`. -/
def bestAsk (b : OrderBook) : Option Nat := b.askLevels.head?.map Level.price

end OrderBook

end ExchangeEngine
