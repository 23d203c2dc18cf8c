import ExchangeEngine.Library.Transition
import ExchangeEngine.Memory.ObjectPool

/-!
Runs of the pool. A client allocates and frees, frees only what it holds, and holds at
most as much as the pool was made for. Each slot ever created is then either held or on
the free list, and one is created only when all of them are held: the storage is as large
as the most that was held at once.
-/

namespace ExchangeEngine

open Transition

inductive PoolCall (α : Type) where
  | allocate (value : α)
  | deallocate (index : Int)
  deriving DecidableEq, Repr

/-- A pool with the indices its client holds and the most it held so far. -/
structure PoolUse (α : Type) where
  pool : ObjectPool α
  live : Finset Int
  peak : Nat

namespace PoolUse

variable {α : Type}

def init (capacity : Nat) : PoolUse α := ⟨.empty capacity, ∅, 0⟩

/-- A call, with the index it returns. -/
def exec [Inhabited α] (u : PoolUse α) : PoolCall α → Option (PoolUse α × Option Int)
  | .allocate value =>
      (u.pool.allocate value).map fun (index, pool) =>
        ({pool, live := insert index u.live, peak := max u.peak (insert index u.live).card},
          some index)
  | .deallocate index =>
      some ({u with pool := u.pool.deallocate index, live := u.live.erase index}, none)

/-- The client frees what it holds, and asks for no more than the capacity. -/
def Admits (capacity : Nat) (u : PoolUse α) : PoolCall α → Prop
  | .allocate _ => u.live.card < capacity
  | .deallocate index => index ∈ u.live

instance (capacity : Nat) (u : PoolUse α) : DecidablePred (Admits capacity u)
  | .allocate _ => inferInstanceAs (Decidable (u.live.card < capacity))
  | .deallocate index => inferInstanceAs (Decidable (index ∈ u.live))

abbrev Reached [Inhabited α] (capacity : Nat) (u : PoolUse α) : Prop :=
  Reachable exec (Admits capacity) (init capacity) u

/-- Each slot is held or free, once, and there are as many as were ever held at once. -/
structure Accounts (live : Finset Int) (free : List Int) (slots peak : Nat) : Prop where
  nodup : free.Nodup
  disjoint : ∀ i ∈ live, i ∉ free
  range : ∀ i, i ∈ live ∨ i ∈ free ↔ 0 ≤ i ∧ i < slots
  count : live.card + free.length = slots
  peak : slots = peak

structure Sound (capacity : Nat) (u : PoolUse α) : Prop where
  accounts : Accounts u.live u.pool.freeList u.pool.nodes.length u.peak
  peak_le : u.peak ≤ capacity
  capacity : u.pool.capacity = capacity

/-- What allocating does. The index was not held, and the other nodes stay. -/
structure Allocates [Inhabited α] (u : PoolUse α) (value : α) (index : Int)
    (pool : ObjectPool α) : Prop where
  accepted : u.pool.allocate value = some (index, pool)
  fresh : index ∉ u.live
  not_null : index ≠ nullIndex
  node : pool.get index = some (Node.unlinked value)
  others : ∀ j ∈ u.live, pool.get j = u.pool.get j

/-! ### Slots -/

theorem accounts_empty : Accounts ∅ [] 0 0 where
  nodup := List.nodup_nil
  disjoint i hi := absurd hi (Finset.notMem_empty i)
  range i := by
    simp only [Finset.notMem_empty, List.not_mem_nil, or_self, false_iff]
    omega
  count := rfl
  peak := rfl

namespace Accounts

variable {live : Finset Int} {free : List Int} {slots peak : Nat}
  (h : Accounts live free slots peak)
include h

/-- The slot freed last is handed out again. -/
theorem reuse {index : Int} {rest : List Int} (hfree : free = index :: rest) :
    index ∉ live ∧ Accounts (insert index live) rest slots (max peak (insert index live).card) := by
  subst hfree
  have hfresh : index ∉ live := fun hlive => h.disjoint index hlive List.mem_cons_self
  have hcard := Finset.card_insert_of_notMem hfresh
  have hcount := h.count
  have hpeak := h.peak
  rw [List.length_cons] at hcount
  refine ⟨hfresh, (List.nodup_cons.mp h.nodup).2, fun i hi => ?_, fun i => ?_, by omega, by omega⟩
  · rcases Finset.mem_insert.mp hi with rfl | hi
    · exact (List.nodup_cons.mp h.nodup).1
    · exact fun hmem => h.disjoint i hi (List.mem_cons_of_mem _ hmem)
  · rw [← h.range i, Finset.mem_insert, List.mem_cons, or_assoc, or_left_comm]

/-- When all slots are held, the storage grows to what is held now. -/
theorem grow (hfree : free = []) : (slots : Int) ∉ live ∧
    Accounts (insert (slots : Int) live) [] (slots + 1)
      (max peak (insert (slots : Int) live).card) := by
  subst hfree
  have hfresh : (slots : Int) ∉ live := by
    intro hlive
    have hbelow := ((h.range slots).mp (Or.inl hlive)).2
    omega
  have hcard := Finset.card_insert_of_notMem hfresh
  have hcount := h.count
  have hpeak := h.peak
  rw [List.length_nil, Nat.add_zero] at hcount
  refine ⟨hfresh, List.nodup_nil, fun _ _ => List.not_mem_nil, fun i => ?_, ?_, by omega⟩
  · have hrange := h.range i
    simp only [List.not_mem_nil, or_false, Finset.mem_insert] at hrange ⊢
    rw [hrange]
    omega
  · rw [List.length_nil]
    omega

theorem nextSlot {capacity : Nat} (hcap : capacity < 2 ^ 31)
    (hroom : live.card < capacity) :
    ∃ index free' slots', ObjectPool.nextSlot free slots capacity = some (index, free', slots') ∧
      index ∉ live ∧
      Accounts (insert index live) free' slots' (max peak (insert index live).card) := by
  cases hfree : free with
  | cons index rest => exact ⟨index, rest, slots, rfl, h.reuse hfree⟩
  | nil =>
      have hcount := h.count
      rw [hfree, List.length_nil] at hcount
      have hgrows : slots < capacity ∧ slots < 2 ^ 31 := by omega
      exact ⟨slots, [], slots + 1, if_pos hgrows, h.grow hfree⟩

theorem release {index : Int} (hlive : index ∈ live) :
    Accounts (live.erase index) (index :: free) slots peak := by
  have hcard := Finset.card_erase_add_one hlive
  have hcount := h.count
  refine ⟨List.nodup_cons.mpr ⟨h.disjoint index hlive, h.nodup⟩, fun i hi => ?_, fun i => ?_, ?_,
    h.peak⟩
  · obtain ⟨hne, hi⟩ := Finset.mem_erase.mp hi
    exact fun hmem => h.disjoint i hi ((List.mem_cons.mp hmem).resolve_left hne)
  · rw [← h.range i, Finset.mem_erase, List.mem_cons]
    by_cases hi : i = index
    · simp [hi, hlive]
    · simp [hi]
  · rw [List.length_cons]
    omega

end Accounts

/-! ### Calls -/

theorem init_sound (capacity : Nat) : (init capacity : PoolUse α).Sound capacity :=
  ⟨accounts_empty, Nat.zero_le _, rfl⟩

namespace Sound

variable {capacity : Nat} {u : PoolUse α} (h : u.Sound capacity)
include h

theorem get_isSome {i : Int} (hi : i ∈ u.live ∨ i ∈ u.pool.freeList) : (u.pool.get i).isSome :=
  (u.pool.get_isSome_iff i).mpr ((h.accounts.range i).mp hi)

/-- While the client holds less than the capacity there is a slot, and it is nobody's. -/
theorem allocates [Inhabited α] (hcap : capacity < 2 ^ 31) (hroom : u.live.card < capacity)
    (value : α) :
    ∃ index pool, u.Allocates value index pool ∧
      Sound capacity ⟨pool, insert index u.live, max u.peak (insert index u.live).card⟩ := by
  obtain ⟨index, free, slots, hslot, hfresh, haccounts⟩ :=
    h.accounts.nextSlot hcap hroom
  rw [← h.capacity] at hslot
  obtain ⟨pool, haccepted, hget, rfl, rfl, hcapacity⟩ :=
    ObjectPool.allocate_some value (fun i hi => h.get_isSome (Or.inr hi)) hslot
  have hlow := ((haccounts.range index).mp (Or.inl (Finset.mem_insert_self index u.live))).1
  refine ⟨index, pool, ⟨haccepted, hfresh, ?_, ?_, fun j hj => ?_⟩, haccounts, ?_, ?_⟩
  · unfold nullIndex
    omega
  · rw [hget, Function.update_self]
  · have hne : j ≠ index := fun heq => hfresh (heq ▸ hj)
    rw [hget, Function.update_of_ne hne]
  · rw [Finset.card_insert_of_notMem hfresh]
    exact Nat.max_le.mpr ⟨h.peak_le, hroom⟩
  · exact hcapacity.trans h.capacity

theorem deallocates {index : Int} (hlive : index ∈ u.live) :
    Sound capacity {u with pool := u.pool.deallocate index, live := u.live.erase index} :=
  ⟨h.accounts.release hlive, h.peak_le, h.capacity⟩

theorem exec [Inhabited α] {u' : PoolUse α} {call : PoolCall α} {index : Option Int}
    (hcap : capacity < 2 ^ 31) (hadmits : u.Admits capacity call)
    (hexec : u.exec call = some (u', index)) : u'.Sound capacity := by
  cases call with
  | allocate value =>
      obtain ⟨i, pool, hallocates, hsound⟩ := h.allocates hcap hadmits value
      simp only [PoolUse.exec, hallocates.accepted, Option.map_some, Option.some.injEq,
        Prod.mk.injEq] at hexec
      exact hexec.1 ▸ hsound
  | deallocate i =>
      cases hexec
      exact h.deallocates hadmits

end Sound

variable [Inhabited α]

theorem Reached.sound {capacity : Nat} (hcap : capacity < 2 ^ 31) {u : PoolUse α}
    (h : Reached capacity u) : u.Sound capacity :=
  Reachable.invariant (fun hsound hadmits hexec => hsound.exec hcap hadmits hexec) h
    (init_sound capacity)

/-- In every run the pool hands out a slot whenever the client may ask for one, and one that
nobody holds. No call changes a node that another index holds. The size is what is held
now, and the storage is as large as what was held at most, within the capacity. -/
theorem sound_allocator {capacity : Nat} (hcap : capacity ≤ 2 ^ 31 - 1) {u : PoolUse α}
    (h : Reached capacity u) :
    (∀ value, u.live.card < capacity → ∃ index pool, u.Allocates value index pool) ∧
      (∀ i ∈ u.live, ∀ j ∈ u.live, j ≠ i → (u.pool.deallocate i).get j = u.pool.get j) ∧
      (∀ i ∈ u.live, (u.pool.get i).isSome) ∧
      u.pool.size = u.live.card ∧ u.pool.nodes.length = u.peak ∧ u.peak ≤ capacity := by
  have hcap : capacity < 2 ^ 31 := by omega
  have hsound := Reached.sound hcap h
  have hcount := hsound.accounts.count
  refine ⟨fun value hroom => ?_, fun _ _ _ _ _ => rfl, fun i hi => hsound.get_isSome (Or.inl hi),
    ?_, hsound.accounts.peak, hsound.peak_le⟩
  · obtain ⟨index, pool, hallocates, -⟩ := hsound.allocates hcap hroom value
    exact ⟨index, pool, hallocates⟩
  · rw [ObjectPool.size]
    omega

/-- Two slots serve three allocations. -/
theorem sound_allocator_reuse : ∃ u : PoolUse Nat, Reached 2 u ∧ u.live = {0, 1} ∧
    u.pool.size = u.live.card ∧ u.pool.nodes.length = u.peak ∧ u.peak ≤ 2 := by
  have hrun : ∃ u : PoolUse Nat, Reached 2 u ∧ u.live = {0, 1} :=
    ⟨_, ⟨[.allocate 7, .allocate 8, .deallocate 0, .allocate 9], _,
      Runs.cons (by decide) rfl (Runs.cons (by decide) rfl (Runs.cons (by decide) rfl
        (Runs.cons (by decide) rfl (Runs.nil _))))⟩, by decide⟩
  obtain ⟨u, hreached, hlive⟩ := hrun
  exact ⟨u, hreached, hlive, (sound_allocator (by decide) hreached).2.2.2⟩

end PoolUse

end ExchangeEngine
