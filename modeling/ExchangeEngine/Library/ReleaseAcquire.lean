import Mathlib.Data.List.Basic
import Mathlib.Logic.Function.Basic

/-!
Two parties under release and acquire. Each party stores to one atomic variable, loads the
other's and accesses cells that both share. A load may return any store that is not older
than the one it returned before. A store passes on how many accesses its party has made, and
a load of it makes them known. An access races with one of the other party to the same cell
that is not known.
-/

namespace ExchangeEngine.ReleaseAcquire

variable {V : Type*}

/-- A store, with the number of accesses its party had made. -/
structure Message (V : Type*) where
  value : V
  clock : Nat

/-- What one party has done, and what it knows of the other. -/
structure Agent (V : Type*) where
  stores : List (Message V)
  clock : Nat := 0
  /-- At which of its accesses it came to a cell last. -/
  stamps : Nat → Nat := fun _ => 0
  /-- Which store of the other party it loaded last. -/
  seen : Nat := 0
  /-- How many accesses of the other party it knows of. -/
  known : Nat := 0

namespace Agent

/-- The variable has its first value before either party starts. -/
def fresh (v : V) : Agent V := {stores := [⟨v, 0⟩]}

def access (own : Agent V) (cell : Nat) : Agent V :=
  {own with clock := own.clock + 1, stamps := Function.update own.stamps cell (own.clock + 1)}

def Races (own other : Agent V) (cell : Nat) : Prop := own.known < other.stamps cell

instance (own other : Agent V) (cell : Nat) : Decidable (own.Races other cell) :=
  inferInstanceAs (Decidable (_ < _))

def release (own : Agent V) (v : V) : Agent V :=
  {own with stores := own.stores ++ [⟨v, own.clock⟩]}

/-- A load of store `i` of the other party. -/
def acquire (own other : Agent V) (i : Nat) : Option (V × Agent V) :=
  if own.seen ≤ i then
    other.stores[i]?.map fun m => (m.value, {own with seen := i, known := max own.known m.clock})
  else none

end Agent

/-! ### Positions -/

/-- The party stores positions that never decrease, and goes on to cells of the ring from
the last one stored on: what a store does not pass on happened at positions from its own on. -/
structure Tracks (n : Nat) (encode : Nat → V) (p : Agent V) (positions : List Nat)
    (latest reach : Nat) : Prop where
  values : p.stores.map Message.value = positions.map encode
  sorted : positions.Pairwise (· ≤ ·)
  le_latest : ∀ q ∈ positions, q ≤ latest
  bounded : ∀ cell, p.stamps cell ≤ p.clock
  covered : ∀ (i : Nat) m q, p.stores[i]? = some m → positions[i]? = some q →
    ∀ cell, m.clock < p.stamps cell → ∃ a, q ≤ a ∧ a < reach ∧ a % n = cell

/-- The party has loaded position `k` of the other. -/
def Knows (own other : Agent V) (positions : List Nat) (k : Nat) : Prop :=
  ∃ m, other.stores[own.seen]? = some m ∧ positions[own.seen]? = some k ∧ m.clock ≤ own.known

variable {n : Nat} {encode : Nat → V} {own own' other p : Agent V} {positions : List Nat}
  {latest reach k : Nat}

theorem Tracks.fresh (n : Nat) (encode : Nat → V) :
    Tracks n encode (.fresh (encode 0)) [0] 0 0 := by
  refine ⟨rfl, List.pairwise_singleton _ _, ?_, fun _ => Nat.le_refl _, ?_⟩
  · intro q hq
    exact Nat.le_of_eq (List.mem_singleton.mp hq)
  · intro i m q _ _ cell hlt
    exact absurd hlt (Nat.not_lt_zero _)

theorem Knows.fresh (v v' : V) : Knows (.fresh v) (.fresh v') [0] 0 :=
  ⟨⟨v', 0⟩, rfl, rfl, Nat.le_refl _⟩

theorem Tracks.length_eq (h : Tracks n encode p positions latest reach) :
    p.stores.length = positions.length := by
  simpa using congrArg List.length h.values

theorem Tracks.extend (h : Tracks n encode p positions latest reach) {reach' : Nat}
    (hreach : reach ≤ reach') : Tracks n encode p positions latest reach' := by
  refine ⟨h.values, h.sorted, h.le_latest, h.bounded, ?_⟩
  intro i m q hm hq cell hlt
  obtain ⟨a, hqa, hlta, hmod⟩ := h.covered i m q hm hq cell hlt
  exact ⟨a, hqa, Nat.lt_of_lt_of_le hlta hreach, hmod⟩

/-- An access behind the last stored position. -/
theorem Tracks.access (h : Tracks n encode p positions latest reach) {a reach' : Nat}
    (hlatest : latest ≤ a) (ha : a < reach') (hreach : reach ≤ reach') :
    Tracks n encode (p.access (a % n)) positions latest reach' := by
  refine ⟨h.values, h.sorted, h.le_latest, ?_, ?_⟩
  · intro cell
    have hbound := h.bounded cell
    by_cases hcell : cell = a % n
    · rw [hcell]
      simp [Agent.access]
    · simp only [Agent.access, Function.update_of_ne hcell]
      omega
  · intro i m q hm hq cell hlt
    by_cases hcell : cell = a % n
    · have hq' := h.le_latest q (List.mem_of_getElem? hq)
      exact ⟨a, by omega, ha, hcell.symm⟩
    · simp only [Agent.access, Function.update_of_ne hcell] at hlt
      obtain ⟨a', hqa, hlta, hmod⟩ := h.covered i m q hm hq cell hlt
      exact ⟨a', hqa, by omega, hmod⟩

/-- The store passes on everything so far. -/
theorem Tracks.release (h : Tracks n encode p positions latest reach) {q : Nat}
    (hq : latest ≤ q) :
    Tracks n encode (p.release (encode q)) (positions ++ [q]) q reach := by
  have hlength := h.length_eq
  refine ⟨?_, ?_, ?_, h.bounded, ?_⟩
  · rw [Agent.release, List.map_append, List.map_append, h.values]
    rfl
  · refine List.pairwise_append.mpr ⟨h.sorted, List.pairwise_singleton _ _, ?_⟩
    intro x hx y hy
    obtain rfl := List.mem_singleton.mp hy
    exact Nat.le_trans (h.le_latest x hx) hq
  · intro x hx
    rcases List.mem_append.mp hx with hx | hx
    · exact Nat.le_trans (h.le_latest x hx) hq
    · exact Nat.le_of_eq (List.mem_singleton.mp hx)
  · intro i m x hm hx cell hlt
    rcases Nat.lt_or_ge i positions.length with hi | hi
    · rw [Agent.release, List.getElem?_append_left (by omega)] at hm
      rw [List.getElem?_append_left hi] at hx
      exact h.covered i m x hm hx cell hlt
    · rw [Agent.release, List.getElem?_append_right (by omega)] at hm
      have hclock : m.clock = p.clock := by
        rw [List.mem_singleton.mp (List.mem_of_getElem? hm)]
      have hbound := h.bounded cell
      simp only [Agent.release] at hlt
      omega

/-- A load changes nothing that the other party could see. -/
theorem Tracks.acquire (h : Tracks n encode own positions latest reach) {i : Nat} {v : V}
    (hload : own.acquire other i = some (v, own')) :
    Tracks n encode own' positions latest reach := by
  obtain ⟨-, hload⟩ := Option.ite_none_right_eq_some.mp hload
  obtain ⟨m, -, heq⟩ := Option.map_eq_some_iff.mp hload
  obtain ⟨-, rfl⟩ := Prod.mk.inj heq
  exact ⟨h.values, h.sorted, h.le_latest, h.bounded, h.covered⟩

theorem Knows.of_acquire {i : Nat} {v : V} (h : Knows p own positions k)
    (hload : own.acquire other i = some (v, own')) : Knows p own' positions k := by
  obtain ⟨-, hload⟩ := Option.ite_none_right_eq_some.mp hload
  obtain ⟨m, -, heq⟩ := Option.map_eq_some_iff.mp hload
  obtain ⟨-, rfl⟩ := Prod.mk.inj heq
  exact h

theorem Knows.release (h : Knows own other positions k) (v : V) (q : Nat) :
    Knows own (other.release v) (positions ++ [q]) k := by
  obtain ⟨m, hm, hk, hclock⟩ := h
  exact ⟨m, List.getElem?_append_left (List.getElem?_eq_some_iff.mp hm).1 ▸ hm,
    List.getElem?_append_left (List.getElem?_eq_some_iff.mp hk).1 ▸ hk, hclock⟩

/-- Whatever store a load returns, it is one of a position not before the known one. -/
theorem Knows.acquire (h : Knows own other positions k)
    (ht : Tracks n encode other positions latest reach) {i : Nat} {v : V}
    (hload : own.acquire other i = some (v, own')) :
    ∃ k', v = encode k' ∧ k ≤ k' ∧ k' ≤ latest ∧ k' ∈ positions ∧
      Knows own' other positions k' := by
  obtain ⟨m, hm, hk, hclock⟩ := h
  obtain ⟨hseen, hload⟩ := Option.ite_none_right_eq_some.mp hload
  obtain ⟨m', hm', heq⟩ := Option.map_eq_some_iff.mp hload
  obtain ⟨rfl, rfl⟩ := Prod.mk.inj heq
  have hvalue : (positions[i]?).map encode = some m'.value := by
    rw [← List.getElem?_map, ← ht.values, List.getElem?_map, hm']
    rfl
  obtain ⟨k', hk', hencode⟩ := Option.map_eq_some_iff.mp hvalue
  have hmem := List.mem_of_getElem? hk'
  refine ⟨k', hencode.symm, ?_, ht.le_latest k' hmem, hmem, m', hm', hk', Nat.le_max_right _ _⟩
  rcases Nat.lt_or_eq_of_le hseen with hlt | heq
  · obtain ⟨hi, rfl⟩ := List.getElem?_eq_some_iff.mp hk
    obtain ⟨hi', rfl⟩ := List.getElem?_eq_some_iff.mp hk'
    exact List.pairwise_iff_getElem.mp ht.sorted _ _ hi hi' hlt
  · rw [heq, hk'] at hk
    exact Nat.le_of_eq (Option.some.inj hk).symm

/-- No race on a cell that the other party has left behind before the known position. -/
theorem Knows.not_races (h : Knows own other positions k)
    (ht : Tracks n encode other positions latest reach) {cell : Nat}
    (hcell : ∀ a, k ≤ a → a < reach → a % n ≠ cell) : ¬ own.Races other cell := by
  obtain ⟨m, hm, hk, hclock⟩ := h
  intro hraces
  obtain ⟨a, hka, hreach, hmod⟩ :=
    ht.covered _ m k hm hk cell (Nat.lt_of_le_of_lt hclock hraces)
  exact hcell a hka hreach hmod

end ExchangeEngine.ReleaseAcquire
