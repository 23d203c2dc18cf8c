import ExchangeEngine.Engine.Cancellation

/-!
Price-time priority over whole histories. The code only sees links; when an order
came to rest is known to nobody. Here a history keeps, next to the order book, a
clock that counts calls and a record of the call in which, and the price at
which, each slot now in use on a side was taken. The record is only written: it
is read off the book before and after a call and no call depends on it. Along
every run each queue is sorted by these times, so the order in which the links
are followed is the order of arrival.
-/

namespace ExchangeEngine

open Ladder Fifo Chain Transition

/-- When and where a resting order came to rest. -/
structure Birth where
  time : Nat
  price : Nat
  deriving DecidableEq, Repr

structure History where
  book : OrderBook
  clock : Nat
  born : Side → Int → Birth

namespace History

def empty (capacity : Nat) : History := ⟨OrderBook.empty capacity, 0, fun _ _ => ⟨0, 0⟩⟩

/-- The price at which a slot rests on a side, if it does. -/
def priceOf (b : OrderBook) (s : Side) (node : Int) : Option Nat :=
  ((b.resting s).find? fun x => x.2.1 = node).map Prod.fst

/-- The record after a call: slots that rested on the side before keep their
birth, those that rest there now are born in this call. -/
def record (h : History) (b' : OrderBook) (s : Side) (node : Int) : Birth :=
  match priceOf h.book s node, priceOf b' s node with
  | none, some p => ⟨h.clock, p⟩
  | _, _ => h.born s node

def exec (h : History) (cmd : Command) : Option (History × List Trade) :=
  (h.book.exec cmd).map fun (b', trades) => (⟨b', h.clock + 1, h.record b'⟩, trades)

/-- Reached from the empty book by order entry. -/
abbrev Reached (capacity : Nat) (h : History) : Prop :=
  Reachable exec (fun _ => Flow.orders.Allows) (History.empty capacity) h

end History

namespace QueueBook

/-- A call drops slots from the queues and appends at most one to one of them,
which no queue of that side held before. -/
def Ages (c c' : QueueBook) : Prop :=
  ∀ s p, ∃ kept fresh, keys (c'.queue s p) = kept ++ fresh ∧
    kept.Sublist (keys (c.queue s p)) ∧ fresh.length ≤ 1 ∧
    ∀ n ∈ fresh, ∀ q, n ∉ keys (c.queue s q)

theorem Ages.of_sublist {c c' : QueueBook}
    (h : ∀ s p, (keys (c'.queue s p)).Sublist (keys (c.queue s p))) : Ages c c' :=
  fun s p => ⟨_, [], (List.append_nil _).symm, h s p, by simp, by simp⟩

/-- What rests after the call rested before it at the same price, or is new on its side. -/
theorem Ages.mem {c c' : QueueBook} (h : Ages c c') {s : Side} {p : Nat} {n : Int}
    (hn : n ∈ keys (c'.queue s p)) : n ∈ keys (c.queue s p) ∨ ∀ q, n ∉ keys (c.queue s q) := by
  obtain ⟨kept, fresh, hsplit, hkept, _, hfresh⟩ := h s p
  rw [hsplit] at hn
  rcases List.mem_append.mp hn with hn | hn
  · exact Or.inl (hkept.subset hn)
  · exact Or.inr (hfresh n hn)

theorem keys_drain_sublist {c : QueueBook} (hwf : c.WellFormed) (s : Side) (p : Nat) (v : Int)
    (t : Side) (q : Nat) :
    (keys ((c.drain s p v).queue t q)).Sublist (keys (c.queue t q)) := by
  have hqueue := queue_alterQueue (c := c.retire (popped v (c.queue s p))) hwf.ladder s p
    (remaining v) t q
  rw [drain, hqueue]
  split
  · rename_i hhere
    rw [hhere.1, hhere.2, queue_retire, ← keys_popped_append_keys_remaining v (c.queue s p)]
    exact List.sublist_append_right _ _
  · exact List.Sublist.refl _

theorem keys_sweep_sublist {c : QueueBook} (hwf : c.WellFormed) (s : Side) (price : Nat) (v : Int)
    (l : Rungs Nat Entry) (t : Side) (q : Nat) :
    (keys ((sweep s price c v l).queue t q)).Sublist (keys (c.queue t q)) := by
  induction l generalizing c v with
  | nil => exact List.Sublist.refl _
  | cons r l ih =>
      rw [sweep]
      split
      · exact (ih (hwf.drain _ _ _) _).trans (keys_drain_sublist hwf _ _ _ t q)
      · exact List.Sublist.refl _

theorem keys_push {c c' : QueueBook} (hwf : c.WellFormed) {s : Side} {p id : Nat} {v : Int}
    (hpush : c.push s p id v = some c') : ∃ node, (∀ t q, node ∉ keys (c.queue t q)) ∧
      ∀ t q, keys (c'.queue t q) =
        keys (c.queue t q) ++ if t = s ∧ q = p then [node] else [] := by
  obtain ⟨⟨node, free, slots⟩, hslot, rfl⟩ := Option.map_eq_some_iff.mp hpush
  refine ⟨node, OrderBook.nextSlot_notMem hwf hslot, fun t q => ?_⟩
  have hqueue := queue_alterQueue hwf.ladder s p (· ++ [(node, ⟨id, v⟩)]) t q
  change keys ((c.alterQueue s p _).queue t q) = _
  rw [hqueue]
  split
  · rename_i hhere
    rw [hhere.1, hhere.2, keys, List.map_append]
    rfl
  · rw [List.append_nil]

theorem Ages.push {c c₁ c' : QueueBook} (hwf : c₁.WellFormed) {s : Side} {p id : Nat} {v : Int}
    (hkeys : ∀ t q, (keys (c₁.queue t q)).Sublist (keys (c.queue t q)))
    (hsame : ∀ q, c₁.queue s q = c.queue s q) (hpush : c₁.push s p id v = some c') :
    Ages c c' := by
  obtain ⟨node, hnew, hqueues⟩ := keys_push hwf hpush
  intro t q
  refine ⟨_, _, hqueues t q, hkeys t q, ?_, ?_⟩
  · split <;> simp
  · intro n hn q'
    split at hn
    · rename_i hhere
      rw [List.mem_singleton.mp hn, hhere.1, ← hsame q']
      exact hnew s q'
    · cases hn

theorem Ages.exec {c c' : QueueBook} {cmd : Command} {trades : List Trade} (hwf : c.WellFormed)
    (hallow : Flow.orders.Allows cmd) (hexec : c.exec cmd = some (c', trades)) : Ages c c' := by
  cases cmd with
  | placeOrder o =>
      have hswept := keys_sweep_sublist hwf o.side o.price o.volume (c.side (opposed o.side))
      rcases place_outcome hexec with ⟨-, rfl, -⟩ | ⟨-, -, rfl, -⟩ |
        ⟨-, -, -, ⟨-, -, hpush⟩ | ⟨-, rfl⟩⟩
      · exact Ages.of_sublist fun _ _ => List.Sublist.refl _
      · exact Ages.of_sublist fun _ _ => List.Sublist.refl _
      · refine Ages.push (hwf.sweep _ _ _ _) hswept (fun q => ?_) hpush
        rw [queue, side_sweep, queue]
      · exact Ages.of_sublist hswept
  | cancelOrder id =>
      cases hexec
      refine Ages.of_sublist fun t q => ?_
      cases hloc : c.index id with
      | none =>
          rw [remove_of_not_indexed hloc]
      | some loc =>
          rw [queue_remove hwf.ladder hloc]
          split
          · rename_i hhere
            rw [hhere.1, hhere.2]
            exact List.filter_sublist.map _
          · exact List.Sublist.refl _
  | addOrder s p v =>
      rcases add_cases (exec_addOrder hexec).1 with ⟨-, rfl⟩ | ⟨-, hpush⟩
      · exact Ages.of_sublist fun _ _ => List.Sublist.refl _
      · exact Ages.push hwf (fun _ _ => List.Sublist.refl _) (fun _ => rfl) hpush
  | deleteOrder s p v =>
      cases hexec
      exact Ages.of_sublist fun t q => keys_drain_sublist hwf s p v t q
  | setLevel s p v => exact hallow.elim

end QueueBook

namespace History

/-- Each queue is sorted by time of arrival and knows the price it rests at. -/
structure Sorted (h : History) (c : QueueBook) : Prop where
  priced : ∀ s p, ∀ n ∈ keys (c.queue s p), (h.born s n).price = p
  past : ∀ s p, ∀ n ∈ keys (c.queue s p), (h.born s n).time < h.clock
  inOrder : ∀ s p, (keys (c.queue s p)).Pairwise fun m n => (h.born s m).time < (h.born s n).time

theorem priceOf_eq {b : OrderBook} {c : QueueBook} (hrep : Represents b c) (hwf : c.WellFormed)
    {s : Side} {p : Nat} {n : Int} (hn : n ∈ keys (c.queue s p)) : priceOf b s n = some p := by
  obtain ⟨e, he, rfl⟩ := List.mem_map.mp hn
  have hmem : (p, e) ∈ b.resting s := by
    rw [hrep.resting_eq hwf]
    exact (QueueBook.mem_resting hwf.ladder).mpr he
  cases hfind : (b.resting s).find? fun x => decide (x.2.1 = e.1) with
  | none =>
      have hnone := List.find?_eq_none.mp hfind (p, e) hmem
      simp at hnone
  | some x =>
      have hnode : x.2.1 = e.1 := by simpa using List.find?_some hfind
      have hx := List.mem_of_find?_eq_some hfind
      rw [hrep.resting_eq hwf] at hx
      have hqueue := (QueueBook.mem_resting (p := x.1) (e := x.2) hwf.ladder).mp hx
      have hprice : x.1 = p := by
        by_contra hne
        exact hwf.disjoint (t := s) (q := x.1) (fun hhere => hne hhere.2)
          (List.mem_map_of_mem hqueue) (hnode ▸ hn)
      rw [priceOf, hfind, Option.map_some, hprice]

theorem priceOf_eq_none {b : OrderBook} {c : QueueBook} (hrep : Represents b c)
    (hwf : c.WellFormed) {s : Side} {n : Int} (hn : ∀ q, n ∉ keys (c.queue s q)) :
    priceOf b s n = none := by
  rw [priceOf, Option.map_eq_none_iff, List.find?_eq_none]
  rintro ⟨p, e⟩ hx
  rw [hrep.resting_eq hwf] at hx
  have hqueue := (QueueBook.mem_resting hwf.ladder).mp hx
  have hne : e.1 ≠ n := fun heq => hn p (heq ▸ List.mem_map_of_mem hqueue)
  simpa using hne

section Record

variable {h : History} {b' : OrderBook} {c c' : QueueBook} (hrep : Represents h.book c)
  (hwf : c.WellFormed)
include hrep hwf

/-- A slot that rested before the call keeps its birth. -/
theorem record_of_mem (b' : OrderBook) {s : Side} {p : Nat} {n : Int}
    (hn : n ∈ keys (c.queue s p)) : h.record b' s n = h.born s n := by
  rw [record, priceOf_eq hrep hwf hn]

/-- A slot that rests only after the call is born in it. -/
theorem record_of_new (hrep' : Represents b' c') (hwf' : c'.WellFormed) {s : Side} {p : Nat}
    {n : Int} (hn : n ∈ keys (c'.queue s p)) (hfresh : ∀ q, n ∉ keys (c.queue s q)) :
    h.record b' s n = ⟨h.clock, p⟩ := by
  rw [record, priceOf_eq_none hrep hwf hfresh, priceOf_eq hrep' hwf' hn]

end Record

theorem Sorted.exec {h : History} {b' : OrderBook} {c c' : QueueBook} (hsorted : h.Sorted c)
    (hrep : Represents h.book c) (hwf : c.WellFormed) (hrep' : Represents b' c')
    (hwf' : c'.WellFormed) (hages : QueueBook.Ages c c') :
    Sorted ⟨b', h.clock + 1, h.record b'⟩ c' := by
  have hold : ∀ s p, ∀ n ∈ keys (c.queue s p), h.record b' s n = h.born s n :=
    fun _ _ _ hn => record_of_mem hrep hwf b' hn
  have hnew : ∀ s p, ∀ n ∈ keys (c'.queue s p), (∀ q, n ∉ keys (c.queue s q)) →
      h.record b' s n = ⟨h.clock, p⟩ :=
    fun _ _ _ hn hfresh => record_of_new hrep hwf hrep' hwf' hn hfresh
  constructor
  · intro s p n hn
    rcases hages.mem hn with hin | hout
    · simp only [hold s p n hin]
      exact hsorted.priced s p n hin
    · simp only [hnew s p n hn hout]
  · intro s p n hn
    rcases hages.mem hn with hin | hout
    · simp only [hold s p n hin]
      exact Nat.lt_succ_of_lt (hsorted.past s p n hin)
    · simp only [hnew s p n hn hout]
      exact Nat.lt_succ_self _
  · intro s p
    obtain ⟨kept, fresh, hsplit, hkept, hone, hfresh⟩ := hages s p
    have hin : ∀ n ∈ kept, h.record b' s n = h.born s n := fun n hn =>
      hold s p n (hkept.subset hn)
    simp only [hsplit]
    refine List.pairwise_append.mpr ⟨?_, ?_, ?_⟩
    · refine ((hsorted.inOrder s p).sublist hkept).imp_of_mem fun {m n} hm hn hlt => ?_
      rw [hin m hm, hin n hn]
      exact hlt
    · match fresh, hone with
      | [], _ => exact List.Pairwise.nil
      | [n], _ => exact List.pairwise_singleton _ n
    · intro m hm n hn
      have hmem : n ∈ keys (c'.queue s p) := by
        rw [hsplit]
        exact List.mem_append_right _ hn
      rw [hin m hm, hnew s p n hmem (hfresh n hn)]
      exact hsorted.past s p m (hkept.subset hm)

/-- A call takes a history that keeps its queues in order of arrival to another one. -/
theorem Sorted.next {h h' : History} {c : QueueBook} (hsorted : h.Sorted c)
    (hrep : Represents h.book c) (hwf : c.WellFormed) {cmd : Command}
    (hallow : Flow.orders.Allows cmd) {trades : List Trade}
    (hexec : h.exec cmd = some (h', trades)) :
    ∃ c', c.exec cmd = some (c', trades) ∧ Represents h'.book c' ∧ c'.WellFormed ∧
      h'.Sorted c' ∧ QueueBook.Ages c c' := by
  obtain ⟨⟨b', ts⟩, hbook, heq⟩ := Option.map_eq_some_iff.mp hexec
  cases heq
  obtain ⟨c', hexec', hrep'⟩ := OrderBook.exec_some hrep hwf hallow hbook
  have hsound : Flow.orders.Sound c := ⟨hwf, by simp⟩
  have hwf' := (hsound.exec hallow hexec').wellFormed
  have hages := QueueBook.Ages.exec hwf hallow hexec'
  exact ⟨c', hexec', hrep', hwf', hsorted.exec hrep hwf hrep' hwf' hages, hages⟩

theorem empty_sorted (capacity : Nat) : ∃ c, Represents (empty capacity).book c ∧ c.WellFormed ∧
    (empty capacity).Sorted c :=
  ⟨_, OrderBook.empty_represents capacity, QueueBook.empty_wellFormed capacity,
    ⟨fun _ _ _ hn => (by cases hn), fun _ _ _ hn => (by cases hn), fun _ _ => List.Pairwise.nil⟩⟩

/-- Every reached history keeps its queues in order of arrival. -/
theorem Reached.sorted {capacity : Nat} {h : History} (hreached : Reached capacity h) :
    ∃ c, Represents h.book c ∧ c.WellFormed ∧ h.Sorted c := by
  refine Reachable.invariant
    (I := fun h => ∃ c, Represents h.book c ∧ c.WellFormed ∧ h.Sorted c) ?_ hreached
    (empty_sorted capacity)
  rintro h h' cmd trades ⟨c, hrep, hwf, hsorted⟩ hallow hexec
  obtain ⟨c', _, hrep', hwf', hsorted', _⟩ := hsorted.next hrep hwf hallow hexec
  exact ⟨c', hrep', hwf', hsorted'⟩

/-- The order in slot `m` has priority over the one in slot `n`: it rested at a
better price, or earlier at the same price. -/
def Before (h : History) (s : Side) (m n : Int) : Prop :=
  better s (h.born s m).price (h.born s n).price ∨
    ((h.born s m).price = (h.born s n).price ∧ (h.born s m).time < (h.born s n).time)

theorem Before.asymm {h : History} {s : Side} {m n : Int} (hmn : h.Before s m n) :
    ¬ h.Before s n m := by
  rintro (hnm | ⟨heq, hnm⟩) <;> rcases hmn with hmn | ⟨heq', hmn⟩
  · exact asymm_of (better s) hmn hnm
  · exact ne_of_better hnm heq'.symm
  · exact ne_of_better hmn heq.symm
  · omega

/-- `hits` lists the resting orders an incoming order trades with, each with the
price it prints at and the volume taken, in the order of the trades. -/
structure Respects (h : History) (o : Order) (b' : OrderBook) (hits : List (Nat × Entry × Int)) :
    Prop where
  resting : ∀ f ∈ hits, (f.1, f.2.1) ∈ h.book.resting (opposed o.side)
  volume : ∀ f ∈ hits, 0 < f.2.2 ∧ f.2.2 ≤ f.2.1.2.volume
  printed : ∀ f ∈ hits, f.1 = (h.born (opposed o.side) f.2.1.1).price
  withinLimit : ∀ f ∈ hits, OrderBook.crosses o.side o.price f.1 = true
  bestFirst : hits.Pairwise fun f g => better (opposed o.side) f.1 g.1 ∨ f.1 = g.1
  once : (hits.map fun f => f.2.1.1).Nodup
  priority : ∀ f ∈ hits, ∀ x ∈ h.book.resting (opposed o.side),
    h.Before (opposed o.side) x.2.1 f.2.1.1 → (x.1, x.2, x.2.2.volume) ∈ hits
  filled : ∀ f ∈ hits, f.2.2 = f.2.1.2.volume →
    ∀ x ∈ b'.resting (opposed o.side), x.2.1 ≠ f.2.1.1
  partlyFilled : ∀ f ∈ hits, f.2.2 < f.2.1.2.volume →
    (f.1, f.2.1.1, ⟨f.2.1.2.id, f.2.1.2.volume - f.2.2⟩) ∈ b'.resting (opposed o.side)
  untouched : ∀ x ∈ h.book.resting (opposed o.side), (∀ n, (x.1, x.2, n) ∉ hits) →
    x ∈ b'.resting (opposed o.side)

/-- A line sorted by priority. -/
theorem Sorted.line {h : History} {c : QueueBook} (hsorted : h.Sorted c) (hwf : c.WellFormed)
    (s : Side) : (c.resting s).Pairwise fun x y => h.Before s x.2.1 y.2.1 := by
  have hqueues : ∀ q ∈ c.side s,
      q.2.Pairwise fun e e' => (h.born s e.1).time < (h.born s e'.1).time := by
    intro q hq
    have hqueue : c.queue s q.1 = q.2 := (hwf.ladder s).lookup_of_mem hq
    rw [← hqueue]
    exact List.Pairwise.of_map Prod.fst (fun _ _ hlt => hlt) (hsorted.inOrder s q.1)
  have hpriced : ∀ x ∈ c.resting s, (h.born s x.2.1).price = x.1 := by
    rintro ⟨p, e⟩ hx
    exact hsorted.priced s p e.1 (List.mem_map_of_mem ((QueueBook.mem_resting hwf.ladder).mp hx))
  refine List.Pairwise.imp_of_mem (fun {x y} hx hy hxy => ?_) ((hwf.ladder s).listing_pairwise
    (R := fun _ e e' => (h.born s e.1).time < (h.born s e'.1).time) hqueues)
  rw [Before, hpriced x hx, hpriced y hy]
  exact hxy

theorem slots_nodup {c : QueueBook} (hwf : c.WellFormed) (s : Side) :
    ((c.resting s).map fun x => x.2.1).Nodup := by
  have hall : (keys (elements (c.side .bid)) ++ keys (elements (c.side .ask)) ++ c.free).Nodup :=
    hwf.perm.nodup_iff.mpr (List.nodup_range.map fun _ _ hab => Int.ofNat.inj hab)
  have hsides := List.nodup_append.mp (List.nodup_append.mp hall).1
  have hside : (keys (elements (c.side s))).Nodup := by
    cases s with
    | bid => exact hsides.1
    | ask => exact hsides.2.1
  rw [← map_snd_listing, keys, List.map_map] at hside
  exact hside

/-- A draw from the crossing part of the opposite line respects priority. -/
theorem respects_of_draw {h : History} {c : QueueBook} (hrep : Represents h.book c)
    (hwf : c.WellFormed) (hsorted : h.Sorted c) {o : Order} {b' : OrderBook} (v : Int)
    (hresting : b'.resting (opposed o.side) =
      remaining v (crossing o.side o.price (c.resting (opposed o.side))) ++
        beyond o.side o.price (c.resting (opposed o.side))) :
    h.Respects o b'
      ((fills v (crossing o.side o.price (c.resting (opposed o.side)))).map QueueBook.hitOf) := by
  have hladder := hwf.ladder (opposed o.side)
  let L := c.resting (opposed o.side)
  let X := crossing o.side o.price L
  have hsplit : X ++ beyond o.side o.price L = L := crossing_append_beyond _ _ _
  have hsub : X.Sublist L := List.takeWhile_sublist _
  have hbook : h.book.resting (opposed o.side) = L := hrep.resting_eq hwf _
  have hsortedLine := hsorted.line hwf (opposed o.side)
  have hfirst : ((fills v X).map Prod.fst).Sublist L := (map_fst_fills_sublist v X).trans hsub
  have hmem : ∀ {fill}, fill ∈ fills v X → fill.1 ∈ X := mem_of_mem_fills
  constructor
  · intro f hf
    obtain ⟨fill, hfill, rfl⟩ := List.mem_map.mp hf
    rw [hbook]
    exact hsub.subset (hmem hfill)
  · intro f hf
    obtain ⟨fill, hfill, rfl⟩ := List.mem_map.mp hf
    exact bounds_of_mem_fills (QueueBook.positive_of_mem_crossing hwf o.side o.price) hfill
  · intro f hf
    obtain ⟨⟨⟨p, e⟩, n⟩, hfill, rfl⟩ := List.mem_map.mp hf
    have hqueue := (QueueBook.mem_resting hwf.ladder).mp (hsub.subset (hmem hfill))
    exact (hsorted.priced _ p e.1 (List.mem_map_of_mem hqueue)).symm
  · intro f hf
    obtain ⟨fill, hfill, rfl⟩ := List.mem_map.mp hf
    have hcross := hmem hfill
    rw [show X = _ from crossing_eq_filter hladder o.price] at hcross
    exact (List.mem_filter.mp hcross).2
  · have hkeys := List.pairwise_map.mp (hladder.listing_sorted.sublist hfirst)
    exact List.pairwise_map.mpr hkeys
  · have hnodup := (slots_nodup hwf (opposed o.side)).sublist (hfirst.map fun x => x.2.1)
    rw [List.map_map] at hnodup ⊢
    exact hnodup
  · intro f hf x hx hbefore
    obtain ⟨fill, hfill, rfl⟩ := List.mem_map.mp hf
    rw [hbook] at hx
    have hxX : x ∈ X := by
      rw [← hsplit] at hx
      rcases List.mem_append.mp hx with hx | hx
      · exact hx
      · rw [show c.resting (opposed o.side) = X ++ _ from hsplit.symm] at hsortedLine
        have hafter := (List.pairwise_append.mp hsortedLine).2.2 _ (hmem hfill) x hx
        exact absurd hafter hbefore.asymm
    have hpopped := mem_popped_of_before (hsortedLine.sublist hsub)
      (fun _ _ hab => Before.asymm hab) hfill hxX hbefore
    exact List.mem_map.mpr ⟨_, whole_mem_fills hpopped, rfl⟩
  · intro f hf hwhole x hx
    obtain ⟨fill, hfill, rfl⟩ := List.mem_map.mp hf
    have hpopped : fill.1 ∈ popped v X := by
      rcases mem_fills_cases hfill with ⟨_, hpopped⟩ | ⟨_, hlt, _⟩
      · exact hpopped
      · have hpart : fill.2 < fill.1.2.2.volume := hlt
        exact absurd hwhole (Int.ne_of_lt hpart)
    have hnodup := slots_nodup hwf (opposed o.side)
    rw [show c.resting (opposed o.side) = X ++ _ from hsplit.symm, List.map_append,
      ← map_popped_append_map_remaining (fun x : Nat × Entry => x.2.1) (fun _ _ => rfl) v X,
      List.append_assoc, ← List.map_append] at hnodup
    rw [hresting] at hx
    exact ((List.nodup_append.mp hnodup).2.2 _ (List.mem_map_of_mem hpopped) _
      (List.mem_map_of_mem hx)).symm
  · intro f hf hlt
    obtain ⟨fill, hfill, rfl⟩ := List.mem_map.mp hf
    rw [hresting]
    refine List.mem_append_left _ ?_
    rcases mem_fills_cases hfill with ⟨hwhole, _⟩ | ⟨_, _, as', hrest⟩
    · exact absurd (congrArg Prod.snd hwhole) (Int.ne_of_lt hlt)
    · rw [show remaining v (crossing o.side o.price (c.resting (opposed o.side))) = _ from hrest]
      exact List.mem_cons_self
  · intro x hx hmiss
    rw [hbook, ← hsplit] at hx
    rw [hresting]
    rcases List.mem_append.mp hx with hx | hx
    · refine List.mem_append_left _ (mem_remaining_of_not_hit hx fun n hn => hmiss n ?_)
      exact List.mem_map.mpr ⟨_, hn, rfl⟩
    · exact List.mem_append_right _ hx

/-- Price-time priority over whole histories: whatever happened before, a call of
`place_order` trades with the resting orders in order of price and, within a price,
of the calls in which they came to rest; each trade prints at the price at which
the resting order came to rest, only the last order hit may be left with a part of
its volume, and as much is traded as crosses the limit, up to the order's volume. -/
theorem placeOrder_respects_priority {capacity : Nat} {h : History} (hreached : h.Reached capacity)
    {o : Order} (hfits : total (h.book.resting (opposed o.side)) ≤ int64Max) {b' : OrderBook}
    {trades : List Trade} (hplace : h.book.placeOrder o = some (b', trades)) :
    ∃ hits, trades = hits.map (QueueBook.tradeOf o.id) ∧ h.Respects o b' hits ∧
      (trades.map Trade.volume).sum =
        if o.type = .fillOrKill ∧ total ((h.book.resting (opposed o.side)).filter
            fun x => OrderBook.crosses o.side o.price x.1) < o.volume
        then 0
        else min (max o.volume 0) (total ((h.book.resting (opposed o.side)).filter
          fun x => OrderBook.crosses o.side o.price x.1)) := by
  obtain ⟨c, hrep, hwf, hsorted⟩ := hreached.sorted
  obtain ⟨c', hplace', hrep'⟩ := OrderBook.placeOrder_some hrep hwf hplace
  have hwf' : c'.WellFormed := hwf.place hplace'
  have hcrossing : ((h.book.resting (opposed o.side)).filter
      fun x => OrderBook.crosses o.side o.price x.1) =
      crossing o.side o.price (c.resting (opposed o.side)) := by
    rw [hrep.resting_eq hwf]
    exact (crossing_eq_filter (hwf.ladder (opposed o.side)) o.price).symm
  have hpositive := QueueBook.positive_of_mem_crossing hwf o.side o.price
  have htotal := total_nonneg hpositive
  rw [hrep.resting_eq hwf] at hfits
  obtain ⟨hresting, htrades⟩ := QueueBook.place_draws hwf hplace' rfl
  rw [← hrep'.resting_eq hwf'] at hresting
  refine ⟨_, htrades, respects_of_draw hrep hwf hsorted _ hresting, ?_⟩
  have hsum : ∀ v, ((((fills v (crossing o.side o.price (c.resting (opposed o.side)))).map
      QueueBook.hitOf).map (QueueBook.tradeOf o.id)).map Trade.volume).sum =
      taken v (crossing o.side o.price (c.resting (opposed o.side))) := by
    intro v
    rw [List.map_map, List.map_map, taken]
    rfl
  rw [htrades, hsum, hcrossing]
  by_cases hv : o.volume ≤ 0
  · rw [if_pos (Or.inl hv), taken_eq (Int.le_refl 0) hpositive]
    split <;> omega
  · have hv' : 0 < o.volume := Int.not_le.mp hv
    have hfits' := Int.le_trans (QueueBook.total_crossing_le hwf o.side o.price) hfits
    simp only [QueueBook.canFill_of_fits hwf hv' hfits', decide_eq_false_iff_not, Int.not_le, hv,
      false_or]
    split
    · rw [taken_eq (Int.le_refl 0) hpositive]
      omega
    · rw [taken_eq (Int.le_of_lt hv') hpositive]
      omega

/-- A sweep over two price levels in which the older of two equal prices fills first. -/
theorem placeOrder_respects_priority_twoLevels : ∃ (h : History) (b' : OrderBook)
    (trades : List Trade), h.Reached 8 ∧
      trades = [⟨9, 1, 100, 5⟩, ⟨9, 2, 100, 5⟩, ⟨9, 3, 101, 1⟩] ∧
      ∃ hits, trades = hits.map (QueueBook.tradeOf 9) ∧
        h.Respects ⟨9, .bid, 101, 11, .goodTillCanceled⟩ b' hits := by
  have hreached : Reached 8 _ :=
    ⟨[.placeOrder ⟨3, .ask, 101, 5, .goodTillCanceled⟩,
        .placeOrder ⟨1, .ask, 100, 5, .goodTillCanceled⟩,
        .placeOrder ⟨2, .ask, 100, 5, .goodTillCanceled⟩], _,
      Runs.cons trivial rfl (Runs.cons trivial rfl (Runs.cons trivial rfl (Runs.nil _)))⟩
  obtain ⟨hits, htrades, hrespects, _⟩ := placeOrder_respects_priority hreached
    (o := ⟨9, .bid, 101, 11, .goodTillCanceled⟩) (by decide +kernel) rfl
  exact ⟨_, _, _, hreached, by decide +kernel, hits, htrades, hrespects⟩

/-- A negative volume trades nothing, which is more than `min` of it and anything. -/
theorem placeOrder_sum_of_negative_volume_false :
    ¬ ∀ capacity (h : History), h.Reached capacity → ∀ (o : Order) (b' : OrderBook)
      (trades : List Trade), total (h.book.resting (opposed o.side)) ≤ int64Max →
      h.book.placeOrder o = some (b', trades) → o.type ≠ .fillOrKill →
      (trades.map Trade.volume).sum = min o.volume (total ((h.book.resting (opposed o.side)).filter
        fun x => OrderBook.crosses o.side o.price x.1)) := by
  intro hclaim
  have hsum := hclaim 4 (History.empty 4) (Reachable.init _) ⟨1, .bid, 100, -5, .goodTillCanceled⟩
    _ _ (by decide) rfl (by decide)
  revert hsum
  decide

end History

end ExchangeEngine
