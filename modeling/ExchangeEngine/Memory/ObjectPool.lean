import Mathlib
import ExchangeEngine.Library.Chain

/-!
`src/memory/object_pool.hpp`: a pool of intrusive list nodes addressed by 32-bit
indices, with freed slots kept on a free list. The vector `nodes_` is a list;
`free_list_` is a list whose head is the back of the vector. Reading a slot that
does not exist is undefined in the source and gives `none` here, as does the
failed assertion "ObjectPool exhausted".
-/

namespace ExchangeEngine

/-- `ObjectPool::null_index`. The index type `std::int32_t` is `Int` here. -/
def nullIndex : Int := -1

/-- `Node<T>`: a value and its two links. -/
abbrev Node (α : Type) := Chain.Cell Int α

/-- A node that is linked to nothing. -/
def Node.unlinked {α : Type} (value : α) : Node α := ⟨value, nullIndex, nullIndex⟩

/-- `static_cast<std::int32_t>` of an unsigned size. -/
def toNodeIndex (n : Nat) : Int := Int.bmod n (2 ^ 32)

structure ObjectPool (α : Type) where
  nodes : List (Node α)
  freeList : List Int
  capacity : Nat
  deriving Repr

namespace ObjectPool

variable {α : Type}

/-- `ObjectPool(cap)`: reserve the storage, create no node. -/
def empty (cap : Nat) : ObjectPool α := ⟨[], [], cap⟩

/-- `ObjectPool::get`. A negative index becomes a huge unsigned one. -/
def get (p : ObjectPool α) (index : Int) : Option (Node α) :=
  if index < 0 then none else p.nodes[index.toNat]?

/-- Store a node through the reference returned by `get`. -/
def set (p : ObjectPool α) (index : Int) (node : Node α) : ObjectPool α :=
  {p with nodes := p.nodes.set index.toNat node}

/-- The common end of `ObjectPool::allocate`: construct the value in the chosen
slot and reset both links. -/
def construct (p : ObjectPool α) (index : Int) (value : α) :
    Option (Int × ObjectPool α) := do
  let _ ← p.get index
  return (index, p.set index (Node.unlinked value))

/-- `ObjectPool::allocate`. -/
def allocate [Inhabited α] (p : ObjectPool α) (value : α) :
    Option (Int × ObjectPool α) :=
  match p.freeList with
  | index :: rest => {p with freeList := rest}.construct index value
  | [] =>
      if p.nodes.length < p.capacity then
        let nodes := p.nodes ++ [Node.unlinked default]
        {p with nodes}.construct (toNodeIndex (nodes.length - 1)) value
      else none

/-- `ObjectPool::size`. -/
def size (p : ObjectPool α) : Nat := p.nodes.length - p.freeList.length

/-- `ObjectPool::deallocate`. -/
def deallocate (p : ObjectPool α) (index : Int) : ObjectPool α :=
  {p with freeList := index :: p.freeList}

@[simp] theorem get_nullIndex (p : ObjectPool α) : p.get nullIndex = none := rfl

@[simp] theorem get_deallocate (p : ObjectPool α) (index : Int) :
    (p.deallocate index).get = p.get := rfl

@[simp] theorem nodes_deallocate (p : ObjectPool α) (index : Int) :
    (p.deallocate index).nodes = p.nodes := rfl

@[simp] theorem freeList_deallocate (p : ObjectPool α) (index : Int) :
    (p.deallocate index).freeList = index :: p.freeList := rfl

@[simp] theorem capacity_deallocate (p : ObjectPool α) (index : Int) :
    (p.deallocate index).capacity = p.capacity := rfl

@[simp] theorem length_nodes_set (p : ObjectPool α) (index : Int) (node : Node α) :
    (p.set index node).nodes.length = p.nodes.length := by simp [set]

@[simp] theorem freeList_set (p : ObjectPool α) (index : Int) (node : Node α) :
    (p.set index node).freeList = p.freeList := rfl

@[simp] theorem capacity_set (p : ObjectPool α) (index : Int) (node : Node α) :
    (p.set index node).capacity = p.capacity := rfl

theorem get_isSome_iff (p : ObjectPool α) (index : Int) :
    (p.get index).isSome ↔ 0 ≤ index ∧ index < p.nodes.length := by
  unfold get
  split
  · simp
    omega
  · simp
    omega

/-- Storing into an existing slot changes that slot and no other. -/
theorem get_set {p : ObjectPool α} {index : Int} {old : Node α}
    (h : p.get index = some old) (node : Node α) :
    (p.set index node).get = Function.update p.get index (some node) := by
  have hrange := (p.get_isSome_iff index).mp (by simp [h])
  funext j
  by_cases hj : j = index
  · subst hj
    have hneg : ¬ j < 0 := by omega
    have hlt : j.toNat < p.nodes.length := by omega
    simp [get, set, hneg, hlt]
  · rw [Function.update_of_ne hj]
    by_cases hneg : j < 0
    · simp [get, hneg]
    · have hne : index.toNat ≠ j.toNat := by omega
      simp [get, set, hneg, hne]

/-- A new slot is handed out under its own position while positions fit in 31
bits; past that the narrowed index is negative. -/
theorem toNodeIndex_eq {n : Nat} (h : n < 2 ^ 31) : toNodeIndex n = n := by
  unfold toNodeIndex
  rw [Int.bmod_eq_of_le] <;> omega

theorem toNodeIndex_neg : toNodeIndex (2 ^ 31) < 0 := by decide

theorem construct_eq {p : ObjectPool α} {index : Int} {old : Node α} (value : α)
    (h : p.get index = some old) :
    p.construct index value = some (index, p.set index (Node.unlinked value)) := by
  simp [construct, h]

/-- The slot the next allocation takes, with the free list and the number of
slots it leaves: the most recently freed slot, else a new one while one is left. -/
def nextSlot (free : List Int) (slots capacity : Nat) : Option (Int × List Int × Nat) :=
  match free with
  | index :: rest => some (index, rest, slots)
  | [] => if slots < capacity ∧ slots < 2 ^ 31 then some (slots, [], slots + 1) else none

/-- A slot is taken from the free list, or else created. -/
theorem nextSlot_cases {free free' : List Int} {slots slots' capacity : Nat} {index : Int}
    (h : nextSlot free slots capacity = some (index, free', slots')) :
    (free = index :: free' ∧ slots' = slots) ∨
    (free = [] ∧ free' = [] ∧ (slots < capacity ∧ slots < 2 ^ 31) ∧ index = slots ∧
      slots' = slots + 1) := by
  cases free with
  | cons i rest =>
      simp only [nextSlot, Option.some.injEq, Prod.mk.injEq] at h
      obtain ⟨rfl, rfl, rfl⟩ := h
      exact Or.inl ⟨rfl, rfl⟩
  | nil =>
      simp only [nextSlot, Option.ite_none_right_eq_some, Option.some.injEq, Prod.mk.injEq] at h
      obtain ⟨hroom, rfl, rfl, rfl⟩ := h
      exact Or.inr ⟨rfl, rfl, hroom, rfl, rfl⟩

/-- `p'` is `p` with a fresh unlinked node at `index` and the given bookkeeping. -/
structure Allocated (p p' : ObjectPool α) (index : Int) (value : α)
    (free : List Int) (slots : Nat) : Prop where
  get_eq : p'.get = Function.update p.get index (some (Node.unlinked value))
  freeList_eq : p'.freeList = free
  length_eq : p'.nodes.length = slots
  capacity_eq : p'.capacity = p.capacity

theorem allocate_some [Inhabited α] {p : ObjectPool α} (value : α)
    (hfree : ∀ i ∈ p.freeList, (p.get i).isSome) {index : Int} {free : List Int} {slots : Nat}
    (h : nextSlot p.freeList p.nodes.length p.capacity = some (index, free, slots)) :
    ∃ p', p.allocate value = some (index, p') ∧ Allocated p p' index value free slots := by
  rcases nextSlot_cases h with ⟨hl, rfl⟩ | ⟨hl, rfl, hroom, rfl, rfl⟩
  · obtain ⟨old, hold⟩ := Option.isSome_iff_exists.mp (hfree index (by simp [hl]))
    have hold' : ({p with freeList := free} : ObjectPool α).get index = some old := hold
    refine ⟨_, by simp only [allocate, hl]; exact construct_eq value hold', ?_⟩
    exact ⟨get_set hold' _, rfl, by simp, rfl⟩
  · let grown : ObjectPool α := {p with nodes := p.nodes ++ [Node.unlinked default]}
    have hget : grown.get p.nodes.length = some (Node.unlinked default) := by
      simp [get, grown]
    have hindex : toNodeIndex (grown.nodes.length - 1) = p.nodes.length := by
      simpa [grown] using toNodeIndex_eq hroom.2
    have hallocate : p.allocate value =
        grown.construct (toNodeIndex (grown.nodes.length - 1)) value := by
      simp [allocate, hl, hroom.1, grown]
    refine ⟨grown.set p.nodes.length (Node.unlinked value), ?_, ?_, ?_, ?_, rfl⟩
    · rw [hallocate, hindex]
      exact construct_eq value hget
    · rw [get_set hget]
      funext j
      by_cases hj : j = p.nodes.length
      · simp [hj]
      · simp only [Function.update_of_ne hj, get, grown]
        by_cases hneg : j < 0
        · simp [hneg]
        · have hne : j.toNat ≠ p.nodes.length := by omega
          simp only [if_neg hneg]
          by_cases hlt : j.toNat < p.nodes.length
          · rw [List.getElem?_append_left hlt]
          · rw [List.getElem?_eq_none (by simp; omega), List.getElem?_eq_none (by omega)]
    · simpa using hl
    · simp [grown]

theorem allocate_none [Inhabited α] {p : ObjectPool α} (value : α)
    (hslots : p.nodes.length ≤ 2 ^ 31)
    (h : nextSlot p.freeList p.nodes.length p.capacity = none) :
    p.allocate value = none := by
  cases hl : p.freeList with
  | cons i rest => simp [nextSlot, hl] at h
  | nil =>
      simp only [nextSlot, hl] at h
      split at h
      case isTrue => cases h
      case isFalse hfull =>
        by_cases hcap : p.nodes.length < p.capacity
        · -- the position no longer fits the index type and wraps below zero
          have hlength : p.nodes.length = 2 ^ 31 := by omega
          have hneg : toNodeIndex p.nodes.length < 0 := hlength ▸ toNodeIndex_neg
          simp [allocate, hl, hcap, construct, get, hneg]
        · simp [allocate, hl, hcap]

end ObjectPool

end ExchangeEngine
