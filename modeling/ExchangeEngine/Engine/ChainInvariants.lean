import ExchangeEngine.Engine.Command

/-!
Memory safety of the order book: in every reached state the chains of the levels
are well linked, each pool slot is in exactly one chain or on the free list, and
the loops over the chains end.
-/

namespace ExchangeEngine

open Ladder Fifo Chain Transition

namespace OrderBook

/-- The orders of a level form a doubly linked list between its two ends. -/
structure WellLinked (b : OrderBook) (lvl : Level) : Prop where
  nodup : (keys (b.chain lvl)).Nodup
  head_eq : (keys (b.chain lvl)).head? = some lvl.head
  tail_eq : (keys (b.chain lvl)).getLast? = some lvl.tail
  head_prev : (b.pool.get lvl.head).map Cell.prev = some nullIndex
  tail_next : (b.pool.get lvl.tail).map Cell.next = some nullIndex
  inverse : ∀ i ∈ keys (b.chain lvl), ∀ j ∈ keys (b.chain lvl),
    ((b.pool.get i).map Cell.next = some j ↔ (b.pool.get j).map Cell.prev = some i)

/-- The book in which a call asks the pool for a slot, if it does. -/
def allocatesIn (b : OrderBook) : Command → Option OrderBook
  | .placeOrder o =>
      if 0 < o.volume ∧ o.type ≠ .immediateOrCancel ∧ o.type ≠ .fillOrKill then do
        let (b, left, _) ← b.matchOrder o.id o.side o.price o.volume
        if 0 < left then some b else none
      else none
  | .cancelOrder _ => none
  | .addOrder _ _ volume => if 0 < volume then some b else none
  | .deleteOrder .. => none
  | .setLevel side price volume =>
      if 0 < volume ∧ b.chainAt side price = [] then some b else none

end OrderBook

def QueueBook.restingCount (c : QueueBook) : Nat :=
  (elements (c.side .bid)).length + (elements (c.side .ask)).length

theorem QueueBook.WellFormed.restingCount_add_free {c : QueueBook} (h : c.WellFormed) :
    c.restingCount + c.free.length = c.slots := by
  have hlength := h.perm.length_eq
  simpa [keys, QueueBook.restingCount, Nat.add_assoc] using hlength

/-- A slot can be had exactly while fewer orders rest than the capacity and the index
type of the pool allow. -/
theorem QueueBook.WellFormed.push_isSome_iff {c : QueueBook} (h : c.WellFormed) (s : Side)
    (p id : Nat) (v : Int) :
    (c.push s p id v).isSome ↔ c.restingCount < min c.capacity (2 ^ 31) := by
  have hcount := h.restingCount_add_free
  have hcap := h.slots_le
  have hint := h.slots_int
  rw [QueueBook.push, Option.isSome_map]
  cases hfree : c.free with
  | nil =>
      rw [hfree, List.length_nil] at hcount
      by_cases hroom : c.slots < c.capacity ∧ c.slots < 2 ^ 31
      · simp only [ObjectPool.nextSlot, if_pos hroom, Option.isSome_some, true_iff]
        omega
      · simp only [ObjectPool.nextSlot, if_neg hroom, Option.isSome_none, Bool.false_eq_true,
          false_iff]
        omega
  | cons i rest =>
      rw [hfree, List.length_cons] at hcount
      simp only [ObjectPool.nextSlot, Option.isSome_some, true_iff]
      omega

theorem QueueBook.WellFormed.push_isSome {c : QueueBook} (h : c.WellFormed)
    (hroom : c.restingCount < c.capacity) (hcap : c.capacity < 2 ^ 31) (s : Side) (p id : Nat)
    (v : Int) : (c.push s p id v).isSome :=
  (h.push_isSome_iff s p id v).mpr (by omega)

namespace Represents

variable {b : OrderBook} {c : QueueBook} (h : Represents b c) (hwf : c.WellFormed)
include h hwf

theorem restingCount_eq : b.restingCount = c.restingCount := by
  simp only [OrderBook.restingCount, h.resting_eq hwf, QueueBook.resting, length_listing,
    QueueBook.restingCount]

theorem wellLinked {s : Side} {lvl : Level} (hlvl : lvl ∈ b.sideLevels s) : b.WellLinked lvl := by
  rw [h.levels s] at hlvl
  obtain ⟨q, hq, rfl⟩ := List.mem_map.mp hlvl
  obtain ⟨p, es⟩ := q
  have hqueue : c.queue s p = es := (hwf.ladder s).lookup_of_mem hq
  have hnonempty : es ≠ [] := (hwf.ladder s).nonempty _ hq
  have hseg := hqueue ▸ h.linked s p
  have hnull := hqueue ▸ hwf.null_notMem s p
  have hchain : b.chain (levelOf (p, es)) = es := h.chain_levelOf hwf hq
  exact {
    nodup := by
      rw [hchain, ← hqueue]
      exact hwf.keys_nodup s p
    head_eq := by
      rw [hchain]
      exact head?_keys nullIndex hnonempty
    tail_eq := by
      rw [hchain]
      exact getLast?_keys nullIndex hnonempty
    head_prev := hseg.prev_first hnonempty
    tail_next := hseg.next_last hnonempty
    inverse := by
      rw [hchain]
      intro i hi j hj
      exact hseg.next_eq_iff_prev_eq hnull hi hj }

/-- Each created slot is in one chain or on the free list. -/
theorem slots_perm : (b.chainSlots .bid ++ b.chainSlots .ask ++ b.pool.freeList).Perm
    ((List.range b.pool.nodes.length).map Int.ofNat) := by
  rw [h.chainSlots_eq hwf, h.chainSlots_eq hwf, h.freeList, h.length]
  exact hwf.perm

theorem size_eq : b.pool.size = b.restingCount := by
  have hcount := hwf.restingCount_add_free
  rw [h.restingCount_eq hwf, ObjectPool.size, h.length, h.freeList]
  omega

/-- A remainder finds a slot in the pool as matching leaves it. -/
theorem place_isSome {o : Order} (hcap : c.capacity < 2 ^ 31)
    (hroom : ∀ b', b.allocatesIn (.placeOrder o) = some b' → b'.restingCount < c.capacity) :
    (c.place o).isSome := by
  obtain ⟨b₁, hmatch, hrep⟩ := OrderBook.matchLevels_represents o.id o.side o.price o.volume [] h
    hwf rfl (Nat.lt_succ_self (c.side (opposed o.side)).length)
  have hlength : (b.sideLevels (opposed o.side)).length = (c.side (opposed o.side)).length := by
    rw [h.levels, List.length_map]
  have hswept := hwf.sweep o.side o.price o.volume (c.side (opposed o.side))
  simp only [QueueBook.place]
  split
  · rfl
  rename_i hv
  split
  · rfl
  split
  · rename_i hrest
    have hcount := hroom b₁ (by
      simp only [OrderBook.allocatesIn, OrderBook.matchOrder, hlength, hmatch,
        Option.bind_eq_bind, Option.bind_some, if_pos hrest.1]
      exact if_pos ⟨Int.not_le.mp hv, hrest.2⟩)
    rw [hrep.restingCount_eq hswept, ← QueueBook.capacity_sweep o.side o.price c o.volume
      (c.side (opposed o.side))] at hcount
    rw [Option.isSome_map]
    exact hswept.push_isSome hcount (by rw [QueueBook.capacity_sweep]; exact hcap) _ _ _ _
  · rfl

/-- A call only fails when it asks a full pool for a slot. -/
theorem exec_isSome {flow : Flow} {cmd : Command} (hallow : flow.Allows cmd)
    (hcap : c.capacity < 2 ^ 31)
    (hroom : ∀ b', b.allocatesIn cmd = some b' → b'.restingCount < c.capacity) :
    (b.exec cmd).isSome := by
  have hpush : ∀ s p id v, b.restingCount < c.capacity → (c.push s p id v).isSome :=
    fun s p id v hcount => hwf.push_isSome (h.restingCount_eq hwf ▸ hcount) hcap s p id v
  have hsome : (c.exec cmd).isSome := by
    cases cmd with
    | placeOrder o => exact h.place_isSome hwf hcap hroom
    | cancelOrder id => rfl
    | addOrder s p v =>
        simp only [QueueBook.exec, QueueBook.add, Option.isSome_map]
        split
        · rfl
        · rename_i hv
          exact hpush s p anonymous v (hroom b (if_pos (Int.not_le.mp hv)))
    | deleteOrder s p v => rfl
    | setLevel s p v =>
        simp only [QueueBook.exec, QueueBook.assign, Option.isSome_map]
        split
        · rfl
        · rename_i hv
          cases hqueue : c.queue s p with
          | nil =>
              refine hpush s p anonymous v (hroom b (if_pos ⟨Int.not_le.mp hv, ?_⟩))
              rw [h.chainAt_eq hwf, hqueue]
          | cons e es => rfl
  obtain ⟨⟨c', trades⟩, hexec⟩ := Option.isSome_iff_exists.mp hsome
  obtain ⟨b', hexec', -⟩ := OrderBook.exec_of_queue h hwf hallow hexec
  rw [hexec']
  rfl

end Represents

namespace OrderBook

/-- No slot is leaked, freed twice or shared along either flow: the chains are
well linked, the chains and the free list partition the slots, the pool counts
the resting orders, and as long as no more than `capacity` orders are to rest at
once every call returns. -/
theorem slots_partitioned {flow : Flow} {capacity : Nat} (hcap : capacity ≤ 2 ^ 31 - 1)
    {b : OrderBook} (h : Reached flow capacity b) :
    (∀ s, ∀ lvl ∈ b.sideLevels s, b.WellLinked lvl) ∧
    (b.chainSlots .bid ++ b.chainSlots .ask ++ b.pool.freeList).Perm
      ((List.range b.pool.nodes.length).map Int.ofNat) ∧
    b.pool.size = b.restingCount ∧
    ∀ cmd, flow.Allows cmd →
      (∀ b', b.allocatesIn cmd = some b' → b'.restingCount < capacity) →
      (b.exec cmd).isSome := by
  obtain ⟨c, hrep, hsound, rfl⟩ := h.represents
  have hwf := hsound.wellFormed
  refine ⟨fun s lvl hlvl => hrep.wellLinked hwf hlvl, hrep.slots_perm hwf, hrep.size_eq hwf, ?_⟩
  intro cmd hallow hroom
  exact hrep.exec_isSome hwf hallow (by omega) hroom

theorem slots_partitioned_twoOrders :
    ∃ b, Reached .orders 4 b ∧ b.restingCount = 2 ∧ b.pool.size = b.restingCount := by
  have hreached : Reached .orders 4 _ :=
    ⟨[.addOrder .bid 100 5, .placeOrder ⟨7, .ask, 101, 3, .goodTillCanceled⟩], _,
      Runs.cons trivial rfl (Runs.cons trivial rfl (Runs.nil _))⟩
  exact ⟨_, hreached, rfl, (slots_partitioned (by decide) hreached).2.2.1⟩

end OrderBook

end ExchangeEngine
