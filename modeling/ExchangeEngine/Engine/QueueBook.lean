import ExchangeEngine.Library.Ladder
import ExchangeEngine.Library.Fifo
import ExchangeEngine.Engine.OrderBook

/-!
What an order book is for, without its pointers: on each side a ladder from
prices to FIFO queues of resting orders. An entry of a queue still names the pool
slot its order lives in, because the cancellation index refers to slots and
because slot reuse is decided here. Links, level positions and cached totals are
gone. `Engine.Simulation` proves that the order book implements these operations.
-/

namespace ExchangeEngine

open Ladder Fifo Chain

/-- A resting order with the pool slot it occupies. -/
abbrev Entry := Int × RestingOrder

instance : Portion Entry where
  quantity e := e.2.volume
  reduce e x := (e.1, {e.2 with volume := e.2.volume - x})
  quantity_reduce _ _ := rfl

/-- What identifies an entry while its volume shrinks. -/
def tag (e : Entry) : Int × Nat := (e.1, e.2.id)

structure QueueBook where
  side : Side → Rungs Nat Entry
  index : Nat → Option Location
  free : List Int
  slots : Nat
  capacity : Nat

namespace QueueBook

def empty (capacity : Nat) : QueueBook := ⟨fun _ => [], fun _ => none, [], 0, capacity⟩

/-- The orders resting at a price, oldest first. -/
def queue (c : QueueBook) (s : Side) (p : Nat) : List Entry := lookup p (c.side s)

/-- The resting orders of a side with their prices, in priority order. -/
def resting (c : QueueBook) (s : Side) : List (Nat × Entry) := listing (c.side s)

def alterQueue (c : QueueBook) (s : Side) (p : Nat) (f : List Entry → List Entry) :
    QueueBook :=
  {c with side := Function.update c.side s (alter (better s) p f (c.side s))}

@[simp] theorem side_alterQueue (c : QueueBook) (s : Side) (p : Nat)
    (f : List Entry → List Entry) :
    (c.alterQueue s p f).side s = alter (better s) p f (c.side s) :=
  Function.update_self s _ c.side

theorem side_alterQueue_of_ne (c : QueueBook) {s t : Side} (h : t ≠ s) (p : Nat)
    (f : List Entry → List Entry) : (c.alterQueue s p f).side t = c.side t :=
  Function.update_of_ne h _ c.side

/-- The index once the ids of some departed orders are erased. -/
def dropIds (index : Nat → Option Location) (gone : List Entry) : Nat → Option Location :=
  gone.foldl (fun index e =>
    if e.2.id ≠ anonymous then OrderBook.eraseIndex index e.2.id else index) index

/-- Give the slots of departed orders back and forget their ids. -/
def retire (c : QueueBook) (gone : List Entry) : QueueBook :=
  {c with index := dropIds c.index gone, free := (keys gone).reverse ++ c.free}

/-- Take up to `v` from the orders at a price, oldest first. -/
def drain (c : QueueBook) (s : Side) (p : Nat) (v : Int) : QueueBook :=
  (c.retire (popped v (c.queue s p))).alterQueue s p (remaining v)

/-- Append an order to the queue of its price, if a slot can be had for it. -/
def push (c : QueueBook) (s : Side) (p : Nat) (id : Nat) (v : Int) : Option QueueBook :=
  (ObjectPool.nextSlot c.free c.slots c.capacity).map fun (node, free, slots) =>
    {c.alterQueue s p (· ++ [(node, ⟨id, v⟩)]) with
      index :=
        if id ≠ anonymous then Function.update c.index id (some ⟨s, p, node⟩) else c.index
      free
      slots}

/-- Remove the order the index knows under `id`. -/
def remove (c : QueueBook) (id : Nat) : QueueBook :=
  match c.index id with
  | none => c
  | some ⟨s, p, node⟩ =>
      {c.alterQueue s p (·.filter (·.1 ≠ node)) with
        index := OrderBook.eraseIndex c.index id
        free := node :: c.free}

/-- Cross `v` against the given rungs of a side, the best first. -/
def sweep (s : Side) (price : Nat) : QueueBook → Int → Rungs Nat Entry → QueueBook
  | c, _, [] => c
  | c, v, q :: l =>
      if 0 < v ∧ OrderBook.crosses s price q.1 then
        sweep s price (c.drain (opposed s) q.1 v) (leftover v q.2) l
      else c

/-- The fills of a sweep, each with the price it prints at. -/
def sweepFills (s : Side) (price : Nat) : Int → Rungs Nat Entry → List (Nat × Entry × Int)
  | _, [] => []
  | v, q :: l =>
      if 0 < v ∧ OrderBook.crosses s price q.1 then
        (fills v q.2).map (fun fill => (q.1, fill)) ++
          sweepFills s price (leftover v q.2) l
      else []

def sweepLeftover (s : Side) (price : Nat) : Int → Rungs Nat Entry → Int
  | v, [] => v
  | v, q :: l =>
      if 0 < v ∧ OrderBook.crosses s price q.1 then
        sweepLeftover s price (leftover v q.2) l
      else v

section NothingToTake

variable (s : Side) (price : Nat) {v : Int} (h : v ≤ 0) (l : Rungs Nat Entry)
include h

theorem sweep_of_nonpos (c : QueueBook) : sweep s price c v l = c := by
  cases l <;> simp [sweep, Int.not_lt.mpr h]

theorem sweepFills_of_nonpos : sweepFills s price v l = [] := by
  cases l <;> simp [sweepFills, Int.not_lt.mpr h]

theorem sweepLeftover_of_nonpos : sweepLeftover s price v l = v := by
  cases l <;> simp [sweepLeftover, Int.not_lt.mpr h]

end NothingToTake

def tradeOf (aggressor : Nat) (fill : Nat × Entry × Int) : Trade :=
  ⟨aggressor, fill.2.1.2.id, fill.1, fill.2.2⟩

/-- The cached total of a queue, as the order book computes it. -/
def cachedTotal (es : List Entry) : Int := wrap64 (total es)

/-- The 64-bit availability check of fill-or-kill on a ladder. -/
def canFill (s : Side) (price : Nat) (v : Int) : Int → Rungs Nat Entry → Bool
  | _, [] => false
  | available, q :: l =>
      if OrderBook.crosses s price q.1 then
        let available := wrap64 (available + cachedTotal q.2)
        if v ≤ available then true else canFill s price v available l
      else false

def place (c : QueueBook) (o : Order) : Option (QueueBook × List Trade) :=
  let opposite := c.side (opposed o.side)
  if o.volume ≤ 0 then some (c, [])
  else if o.type = .fillOrKill ∧ canFill o.side o.price o.volume 0 opposite = false then
    some (c, [])
  else
    let swept := sweep o.side o.price c o.volume opposite
    let left := sweepLeftover o.side o.price o.volume opposite
    let trades := (sweepFills o.side o.price o.volume opposite).map (tradeOf o.id)
    if 0 < left ∧ o.type ≠ .immediateOrCancel ∧ o.type ≠ .fillOrKill then
      (swept.push o.side o.price o.id left).map fun c => (c, trades)
    else some (swept, trades)

def add (c : QueueBook) (s : Side) (p : Nat) (v : Int) : Option QueueBook :=
  if v ≤ 0 then some c else c.push s p anonymous v

/-- Make the orders at a price a single aggregate, or none. The slots of the
trailing orders are freed without consulting the index. -/
def assign (c : QueueBook) (s : Side) (p : Nat) (v : Int) : Option QueueBook :=
  if v ≤ 0 then some ((c.retire (c.queue s p)).alterQueue s p fun _ => [])
  else
    match c.queue s p with
    | [] => c.push s p anonymous v
    | e :: es =>
        some {c.alterQueue s p (fun _ => [(e.1, {e.2 with volume := v})]) with
          free := (keys es).reverse ++ c.free}

section Remove

variable {c : QueueBook} {id : Nat}

theorem remove_of_not_indexed (hloc : c.index id = none) : c.remove id = c := by
  simp only [remove, hloc]

theorem side_remove {loc : Location} (hloc : c.index id = some loc) :
    (c.remove id).side = (c.alterQueue loc.side loc.price (·.filter (·.1 ≠ loc.node))).side := by
  simp only [remove, hloc]

end Remove

section Cases

variable {c c' : QueueBook} {s : Side} {p : Nat} {v : Int}

theorem add_cases (hadd : c.add s p v = some c') :
    (v ≤ 0 ∧ c' = c) ∨ (0 < v ∧ c.push s p anonymous v = some c') := by
  unfold add at hadd
  split at hadd
  · rename_i hv
    exact Or.inl ⟨hv, (Option.some.inj hadd).symm⟩
  · rename_i hv
    exact Or.inr ⟨Int.not_le.mp hv, hadd⟩

theorem assign_cases (hassign : c.assign s p v = some c') :
    (v ≤ 0 ∧ c' = (c.retire (c.queue s p)).alterQueue s p fun _ => []) ∨
    (0 < v ∧ c.queue s p = [] ∧ c.push s p anonymous v = some c') ∨
    (0 < v ∧ ∃ e es, c.queue s p = e :: es ∧
      c' = {c.alterQueue s p (fun _ => [(e.1, {e.2 with volume := v})]) with
        free := (keys es).reverse ++ c.free}) := by
  unfold assign at hassign
  split at hassign
  · rename_i hv
    exact Or.inl ⟨hv, (Option.some.inj hassign).symm⟩
  · rename_i hv
    have hpos := Int.not_le.mp hv
    cases hqueue : c.queue s p with
    | nil =>
        simp only [hqueue] at hassign
        exact Or.inr (Or.inl ⟨hpos, rfl, hassign⟩)
    | cons e es =>
        simp only [hqueue] at hassign
        exact Or.inr (Or.inr ⟨hpos, e, es, rfl, (Option.some.inj hassign).symm⟩)

/-- A call of `place_order` has nothing to match, is killed, or sweeps the opposite side; only
a good-till-canceled order then rests with what is left. -/
theorem place_outcome {o : Order} {trades : List Trade} (hplace : c.place o = some (c', trades)) :
    (o.volume ≤ 0 ∧ c' = c ∧ trades = []) ∨
    (0 < o.volume ∧ (o.type = .fillOrKill ∧
      canFill o.side o.price o.volume 0 (c.side (opposed o.side)) = false) ∧
      c' = c ∧ trades = []) ∨
    (0 < o.volume ∧ ¬ (o.type = .fillOrKill ∧
      canFill o.side o.price o.volume 0 (c.side (opposed o.side)) = false) ∧
      trades = (sweepFills o.side o.price o.volume (c.side (opposed o.side))).map (tradeOf o.id) ∧
      ((0 < sweepLeftover o.side o.price o.volume (c.side (opposed o.side)) ∧
          o.type = .goodTillCanceled ∧
          (sweep o.side o.price c o.volume (c.side (opposed o.side))).push o.side o.price o.id
            (sweepLeftover o.side o.price o.volume (c.side (opposed o.side))) = some c') ∨
        (¬ (0 < sweepLeftover o.side o.price o.volume (c.side (opposed o.side)) ∧
            o.type = .goodTillCanceled) ∧
          c' = sweep o.side o.price c o.volume (c.side (opposed o.side))))) := by
  simp only [place] at hplace
  split at hplace
  · rename_i hnone
    obtain ⟨rfl, rfl⟩ := Prod.mk.inj (Option.some.inj hplace)
    exact Or.inl ⟨hnone, rfl, rfl⟩
  rename_i hpos
  have hvolume := Int.not_le.mp hpos
  split at hplace
  · rename_i hkilled
    obtain ⟨rfl, rfl⟩ := Prod.mk.inj (Option.some.inj hplace)
    exact Or.inr (Or.inl ⟨hvolume, hkilled, rfl, rfl⟩)
  rename_i hlive
  have hgtc : o.type ≠ .immediateOrCancel ∧ o.type ≠ .fillOrKill ↔ o.type = .goodTillCanceled := by
    cases o.type <;> simp
  simp only [hgtc] at hplace
  split at hplace
  · rename_i hrests
    obtain ⟨c₁, hpush, heq⟩ := Option.map_eq_some_iff.mp hplace
    obtain ⟨rfl, rfl⟩ := Prod.mk.inj heq
    exact Or.inr (Or.inr ⟨hvolume, hlive, rfl, Or.inl ⟨hrests.1, hrests.2, hpush⟩⟩)
  · rename_i hstays
    obtain ⟨rfl, rfl⟩ := Prod.mk.inj (Option.some.inj hplace)
    exact Or.inr (Or.inr ⟨hvolume, hlive, rfl, Or.inr ⟨hstays, rfl⟩⟩)

end Cases

/-- How often a slot occurs in the queues of both sides. -/
def occurrences (c : QueueBook) (i : Int) : Nat :=
  (elements (c.side .bid)).countP (·.1 == i) + (elements (c.side .ask)).countP (·.1 == i)

/-- Each slot is used once, by one queue or by the free list; every resting
order has volume; every index entry finds an order of its id. -/
structure WellFormed (c : QueueBook) : Prop where
  ladder : ∀ s, Ladder.WellFormed (better s) (c.side s)
  positive : ∀ s p, ∀ e ∈ c.queue s p, 0 < e.2.volume
  partition : ∀ i, c.occurrences i + c.free.count i = if 0 ≤ i ∧ i < c.slots then 1 else 0
  indexed : ∀ id loc, c.index id = some loc → id ≠ anonymous ∧
    (loc.node, id) ∈ (c.queue loc.side loc.price).map tag
  slots_le : c.slots ≤ c.capacity
  slots_int : c.slots ≤ 2 ^ 31

theorem empty_wellFormed (capacity : Nat) : (empty capacity).WellFormed where
  ladder _ := Ladder.wellFormed_nil _
  positive _ _ e he := by cases he
  partition i := by
    have hrange : ¬ (0 ≤ i ∧ i < ((0 : Nat) : Int)) := by omega
    exact (if_neg hrange).symm
  indexed id loc h := by cases h
  slots_le := Nat.zero_le _
  slots_int := Nat.zero_le _

@[simp] theorem queue_retire (c : QueueBook) (gone : List Entry) (s : Side) (p : Nat) :
    (c.retire gone).queue s p = c.queue s p := rfl

@[simp] theorem occurrences_retire (c : QueueBook) (gone : List Entry) (i : Int) :
    (c.retire gone).occurrences i = c.occurrences i := rfl

theorem alter_head {s : Side} {p : Nat} {es : List Entry} {l : Rungs Nat Entry}
    (f : List Entry → List Entry) :
    alter (better s) p f ((p, es) :: l) = put p (f es) l := by
  have hirrefl : ¬ better s p p := irrefl_of (better s) p
  simp only [alter, if_neg hirrefl, if_true]

theorem countP_key (es : List Entry) (i : Int) :
    es.countP (·.1 == i) = (keys es).count i := by
  rw [List.count, List.countP_map]
  rfl

section Alter

variable {c : QueueBook} (hladder : ∀ s, Ladder.WellFormed (better s) (c.side s))
  (s : Side) (p : Nat) (f : List Entry → List Entry)
include hladder

theorem ladder_alterQueue (t : Side) :
    Ladder.WellFormed (better t) ((c.alterQueue s p f).side t) := by
  by_cases ht : t = s
  · subst ht
    simpa [alterQueue] using (hladder t).alter p f
  · simpa [alterQueue, ht] using hladder t

/-- Altering a queue changes that queue and no other, on either side. -/
theorem queue_alterQueue (t : Side) (q : Nat) :
    (c.alterQueue s p f).queue t q =
      if t = s ∧ q = p then f (c.queue s p) else c.queue t q := by
  by_cases ht : t = s
  · subst ht
    simpa [alterQueue, queue] using (hladder t).lookup_alter p q f
  · simp [alterQueue, queue, ht]

theorem queue_remove {id : Nat} {loc : Location} (hloc : c.index id = some loc) (t : Side)
    (q : Nat) :
    (c.remove id).queue t q =
      if t = loc.side ∧ q = loc.price then
        (c.queue loc.side loc.price).filter (·.1 ≠ loc.node)
      else c.queue t q := by
  rw [← queue_alterQueue hladder loc.side loc.price (·.filter (·.1 ≠ loc.node)), queue, queue,
    side_remove hloc]

theorem occurrences_alterQueue (i : Int) :
    (c.alterQueue s p f).occurrences i + (keys (c.queue s p)).count i =
      c.occurrences i + (keys (f (c.queue s p))).count i := by
  have hcount := (hladder s).countP_elements_alter p f (·.1 == i)
  rw [countP_key (lookup p _), countP_key (f _)] at hcount
  cases s <;> simp [alterQueue, occurrences, queue] at hcount ⊢ <;> omega

end Alter

theorem count_queue_le (c : QueueBook) (s : Side) (p : Nat) (i : Int) :
    (keys (c.queue s p)).count i ≤ c.occurrences i := by
  have hle := countP_lookup_le (c.side s) (fun e : Entry => e.1 == i)
    (by omega : p ≠ p + 1)
  rw [countP_key (lookup p _)] at hle
  cases s <;> simp only [occurrences, queue] at hle ⊢ <;> omega

namespace WellFormed

variable {c : QueueBook} (h : c.WellFormed)
include h

theorem occurrences_le_one (i : Int) : c.occurrences i + c.free.count i ≤ 1 := by
  rw [h.partition i]
  split <;> omega

theorem keys_nodup (s : Side) (p : Nat) : (keys (c.queue s p)).Nodup := by
  rw [List.nodup_iff_count_le_one]
  intro i
  have hqueue := c.count_queue_le s p i
  have hone := h.occurrences_le_one i
  omega

theorem range_of_mem {s : Side} {p : Nat} {i : Int} (hi : i ∈ keys (c.queue s p)) :
    0 ≤ i ∧ i < c.slots := by
  have hpos := List.count_pos_iff.mpr hi
  have hqueue := c.count_queue_le s p i
  have hpart := h.partition i
  by_contra hrange
  rw [if_neg hrange] at hpart
  omega

theorem null_notMem (s : Side) (p : Nat) : nullIndex ∉ keys (c.queue s p) := by
  intro hi
  have hrange := h.range_of_mem hi
  unfold nullIndex at hrange
  omega

/-- Two different queues share no slot. -/
theorem disjoint {s t : Side} {p q : Nat} (hne : ¬ (t = s ∧ q = p)) {i : Int}
    (hi : i ∈ keys (c.queue t q)) : i ∉ keys (c.queue s p) := by
  intro hj
  have hi := List.count_pos_iff.mpr hi
  have hj := List.count_pos_iff.mpr hj
  have hone := h.occurrences_le_one i
  by_cases hside : t = s
  · subst hside
    have hpq : p ≠ q := fun hpq => hne ⟨rfl, hpq.symm⟩
    have hle := countP_lookup_le (c.side t) (fun e : Entry => e.1 == i) hpq
    rw [countP_key (lookup p _), countP_key (lookup q _)] at hle
    cases t <;> simp only [occurrences, queue] at hone hi hj hle <;> omega
  · have hti := countP_lookup_le (c.side t) (fun e : Entry => e.1 == i) (by omega : q ≠ q + 1)
    have hsj := countP_lookup_le (c.side s) (fun e : Entry => e.1 == i) (by omega : p ≠ p + 1)
    rw [countP_key (lookup q _)] at hti
    rw [countP_key (lookup p _)] at hsj
    cases s <;> cases t <;>
      first
        | exact absurd rfl hside
        | (simp only [occurrences, queue] at hone hi hj hti hsj; omega)

theorem free_notMem {i : Int} (hi : i ∈ c.free) (s : Side) (p : Nat) :
    i ∉ keys (c.queue s p) := by
  intro hj
  have hi := List.count_pos_iff.mpr hi
  have hj := List.count_pos_iff.mpr hj
  have hqueue := c.count_queue_le s p i
  have hone := h.occurrences_le_one i
  omega

theorem range_of_mem_free {i : Int} (hi : i ∈ c.free) : 0 ≤ i ∧ i < c.slots := by
  have hi := List.count_pos_iff.mpr hi
  have hpart := h.partition i
  by_contra hrange
  rw [if_neg hrange] at hpart
  omega

end WellFormed

end QueueBook

end ExchangeEngine
