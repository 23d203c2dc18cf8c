import ExchangeEngine.Engine.ChainInvariants
import ExchangeEngine.Engine.Cancellation
import Mathlib.Data.List.TakeWhile

/-!
The reference book: on each side one line of resting orders in priority order,
best price first and in order of arrival within a price. It has no slots, no
index and no cached totals, and its volumes are unbounded. Along every run in
which identifiers are not reused while they rest, the pool is large enough and
the totals the code computes fit in 64 bits, the order book answers every call as
the reference book does.
-/

namespace ExchangeEngine

open Ladder Fifo Chain Transition

/-- A resting order of the reference book. -/
structure BookedOrder where
  id : Nat
  price : Nat
  volume : Int
  deriving DecidableEq, Repr

instance : Portion BookedOrder where
  quantity x := x.volume
  reduce x v := {x with volume := x.volume - v}
  quantity_reduce _ _ := rfl

structure ReferenceBook where
  side : Side → List BookedOrder

namespace ReferenceBook

def empty : ReferenceBook := ⟨fun _ => []⟩

def setSide (r : ReferenceBook) (s : Side) (line : List BookedOrder) : ReferenceBook :=
  ⟨Function.update r.side s line⟩

@[simp] theorem side_setSide (r : ReferenceBook) (s : Side) (line : List BookedOrder) :
    (r.setSide s line).side s = line := Function.update_self s _ r.side

theorem side_setSide_of_ne (r : ReferenceBook) {s t : Side} (h : t ≠ s)
    (line : List BookedOrder) : (r.setSide s line).side t = r.side t :=
  Function.update_of_ne h _ r.side

/-- The orders at the front of the opposite line that a limit crosses. -/
def hit (r : ReferenceBook) (s : Side) (price : Nat) : List BookedOrder :=
  (r.side (opposed s)).takeWhile fun x => OrderBook.crosses s price x.price

def missed (r : ReferenceBook) (s : Side) (price : Nat) : List BookedOrder :=
  (r.side (opposed s)).dropWhile fun x => OrderBook.crosses s price x.price

/-- Line up behind every order of at least the same priority. -/
def rest (r : ReferenceBook) (s : Side) (x : BookedOrder) : ReferenceBook :=
  r.setSide s ((r.side s).takeWhile (fun y => ¬ better s x.price y.price) ++
    x :: (r.side s).dropWhile fun y => ¬ better s x.price y.price)

def place (r : ReferenceBook) (o : Order) : ReferenceBook × List Trade :=
  if o.volume ≤ 0 then (r, [])
  else if o.type = .fillOrKill ∧ total (r.hit o.side o.price) < o.volume then (r, [])
  else
    let hit := r.hit o.side o.price
    let trades := (fills o.volume hit).map fun fill => ⟨o.id, fill.1.id, fill.1.price, fill.2⟩
    let matched :=
      r.setSide (opposed o.side) (remaining o.volume hit ++ r.missed o.side o.price)
    let left := leftover o.volume hit
    if 0 < left ∧ o.type = .goodTillCanceled then
      (matched.rest o.side ⟨o.id, o.price, left⟩, trades)
    else (matched, trades)

/-- Remove the order with an identifier; anonymous orders have none. -/
def cancel (r : ReferenceBook) (id : Nat) : ReferenceBook :=
  if id = anonymous then r else ⟨fun s => (r.side s).filter fun x => x.id ≠ id⟩

def add (r : ReferenceBook) (s : Side) (p : Nat) (v : Int) : ReferenceBook :=
  if v ≤ 0 then r else r.rest s ⟨anonymous, p, v⟩

/-- Take volume from the orders at one price, oldest first. -/
def delete (r : ReferenceBook) (s : Side) (p : Nat) (v : Int) : ReferenceBook :=
  let tail := (r.side s).dropWhile fun x => x.price ≠ p
  r.setSide s ((r.side s).takeWhile (fun x => x.price ≠ p) ++
    remaining v (tail.takeWhile fun x => x.price = p) ++ tail.dropWhile fun x => x.price = p)

/-- The calls of order entry; the level updates of a feed have no meaning here. -/
def exec (r : ReferenceBook) : Command → Option (ReferenceBook × List Trade)
  | .placeOrder order => some (r.place order)
  | .cancelOrder id => some (r.cancel id, [])
  | .addOrder side price volume => some (r.add side price volume, [])
  | .deleteOrder side price volume => some (r.delete side price volume, [])
  | .setLevel .. => none

/-- The volume resting at the prices that satisfy `P`. -/
def volumeWhere (r : ReferenceBook) (s : Side) (P : Nat → Bool) : Int :=
  total ((r.side s).filter fun x => P x.price)

def volumeAt (r : ReferenceBook) (s : Side) (p : Nat) : Int := r.volumeWhere s (· = p)

def bestPrice (r : ReferenceBook) (s : Side) : Option Nat := (r.side s).head?.map BookedOrder.price

def count (r : ReferenceBook) : Nat := (r.side .bid).length + (r.side .ask).length

/-- The running total of the availability check is exact up to the level where it
first reaches the volume of the order. -/
def FillCheckFits (r : ReferenceBook) (o : Order) : Prop :=
  ∀ x ∈ r.side (opposed o.side), OrderBook.crosses o.side o.price x.price = true →
    r.volumeWhere (opposed o.side) (fun p => better (opposed o.side) p x.price) < o.volume →
    r.volumeWhere (opposed o.side) (fun p => ¬ better (opposed o.side) x.price p) ≤ int64Max

/-- The calls the order book is meant for: no identifier is placed while it rests,
at most `capacity` orders rest at once, and neither a level total nor the running
total of a fill-or-kill check leaves the 64-bit range. -/
structure Admits (capacity : Nat) (r : ReferenceBook) (cmd : Command) : Prop where
  fresh : ∀ o, cmd = .placeOrder o → o.id ≠ anonymous → ∀ s, ∀ x ∈ r.side s, x.id ≠ o.id
  fillCheck : ∀ o, cmd = .placeOrder o → o.type = .fillOrKill → r.FillCheckFits o
  room : ∀ r' trades, r.exec cmd = some (r', trades) → r'.count ≤ capacity
  totals : ∀ r' trades, r.exec cmd = some (r', trades) → ∀ s p, r'.volumeAt s p ≤ int64Max

/-- Only prices at which something rests have to be looked at. -/
theorem volumeAt_le_iff {r : ReferenceBook} {s : Side} {bound : Int} (hbound : 0 ≤ bound) :
    (∀ p, r.volumeAt s p ≤ bound) ↔ ∀ x ∈ r.side s, r.volumeAt s x.price ≤ bound := by
  refine ⟨fun h x _ => h x.price, fun h p => ?_⟩
  by_cases hp : ∃ x ∈ r.side s, x.price = p
  · obtain ⟨x, hx, rfl⟩ := hp
    exact h x hx
  · have hnone : ((r.side s).filter fun x => decide (x.price = p)) = [] :=
      List.filter_eq_nil_iff.mpr fun x hx hprice => hp ⟨x, hx, of_decide_eq_true hprice⟩
    rw [volumeAt, volumeWhere, hnone, total_nil]
    exact hbound

instance (r : ReferenceBook) (o : Order) : Decidable (r.FillCheckFits o) :=
  inferInstanceAs (Decidable (∀ x ∈ _, _))

/-- What `Admits` asks, looked up among the orders that rest. -/
def admits (capacity : Nat) (r : ReferenceBook) (cmd : Command) : Bool :=
  (match cmd with
    | .placeOrder o =>
      decide (o.id ≠ anonymous → ∀ s, ∀ x ∈ r.side s, x.id ≠ o.id) &&
        decide (o.type = .fillOrKill → r.FillCheckFits o)
    | _ => true) &&
  (r.exec cmd).all fun out => decide (out.1.count ≤ capacity) &&
    decide (∀ s, ∀ x ∈ out.1.side s, out.1.volumeAt s x.price ≤ int64Max)

theorem admits_iff {capacity : Nat} {r : ReferenceBook} {cmd : Command} :
    r.Admits capacity cmd ↔ r.admits capacity cmd = true := by
  have hlevels : ∀ r' : ReferenceBook, (∀ s p, r'.volumeAt s p ≤ int64Max) ↔
      ∀ s, ∀ x ∈ r'.side s, r'.volumeAt s x.price ≤ int64Max := fun _ =>
    forall_congr' fun _ => volumeAt_le_iff (by decide)
  have hafter : (∀ r' trades, r.exec cmd = some (r', trades) →
      r'.count ≤ capacity ∧ ∀ s p, r'.volumeAt s p ≤ int64Max) ↔
      ((r.exec cmd).all fun out => decide (out.1.count ≤ capacity) &&
        decide (∀ s, ∀ x ∈ out.1.side s, out.1.volumeAt s x.price ≤ int64Max)) = true := by
    cases hresult : r.exec cmd with
    | none => simp
    | some out =>
      rw [Option.all_some, Bool.and_eq_true, decide_eq_true_iff, decide_eq_true_iff, ← hlevels]
      refine ⟨fun h => h out.1 out.2 rfl, fun h r' trades heq => ?_⟩
      obtain rfl := Option.some.inj heq
      exact h
  cases cmd with
  | placeOrder o =>
    rw [admits, Bool.and_eq_true, ← hafter]
    simp only [Bool.and_eq_true, decide_eq_true_iff]
    constructor
    · intro h
      exact ⟨⟨h.fresh o rfl, h.fillCheck o rfl⟩,
        fun r' trades hexec => ⟨h.room r' trades hexec, h.totals r' trades hexec⟩⟩
    · rintro ⟨⟨hfresh, hfill⟩, hnext⟩
      exact {
        fresh := by
          rintro _ ⟨⟩
          exact hfresh
        fillCheck := by
          rintro _ ⟨⟩
          exact hfill
        room := fun r' trades hexec => (hnext r' trades hexec).1
        totals := fun r' trades hexec => (hnext r' trades hexec).2 }
  | _ =>
    simp only [admits, Bool.and_eq_true, ← hafter]
    refine ⟨fun h => ⟨trivial, fun r' trades hexec => ⟨h.room r' trades hexec,
      h.totals r' trades hexec⟩⟩, fun ⟨_, hnext⟩ => ?_⟩
    exact {
      fresh := by rintro _ ⟨⟩
      fillCheck := by rintro _ ⟨⟩
      room := fun r' trades hexec => (hnext r' trades hexec).1
      totals := fun r' trades hexec => (hnext r' trades hexec).2 }

instance (capacity : Nat) (r : ReferenceBook) (cmd : Command) :
    Decidable (r.Admits capacity cmd) := decidable_of_iff' _ admits_iff

theorem count_rest (r : ReferenceBook) (s : Side) (x : BookedOrder) :
    (r.rest s x).count = r.count + 1 := by
  have hlength : ((r.rest s x).side s).length = (r.side s).length + 1 := by
    rw [rest, side_setSide, List.length_append, List.length_cons, ← Nat.add_assoc,
      ← List.length_append, List.takeWhile_append_dropWhile]
  have hother : ∀ t, t ≠ s → (r.rest s x).side t = r.side t := fun t ht =>
    side_setSide_of_ne r ht _
  cases s with
  | bid =>
      rw [count, hlength, hother .ask (by decide), count]
      omega
  | ask =>
      rw [count, hlength, hother .bid (by decide), count]
      omega

end ReferenceBook

/-- What the reference book shows of a resting order. -/
def booked (x : Nat × Entry) : BookedOrder := ⟨x.2.2.id, x.1, x.2.2.volume⟩

/-- The orders an order book holds on a side, in priority order. -/
def OrderBook.bookedOrders (b : OrderBook) (s : Side) : List BookedOrder :=
  (b.resting s).map booked

/-- The reference book shows what rests in the queues. -/
def Shows (r : ReferenceBook) (c : QueueBook) : Prop := ∀ s, r.side s = (c.resting s).map booked

namespace Shows

variable {r : ReferenceBook} {c : QueueBook} (h : Shows r c)
include h

theorem hit_eq (s : Side) (price : Nat) :
    r.hit s price = (crossing s price (c.resting (opposed s))).map booked := by
  rw [ReferenceBook.hit, h, List.takeWhile_map]
  rfl

theorem missed_eq (s : Side) (price : Nat) :
    r.missed s price = (beyond s price (c.resting (opposed s))).map booked := by
  rw [ReferenceBook.missed, h, List.dropWhile_map]
  rfl

theorem count_eq : r.count = c.restingCount := by
  simp only [ReferenceBook.count, h .bid, h .ask, List.length_map, QueueBook.resting,
    length_listing, QueueBook.restingCount]

theorem volumeWhere_eq (s : Side) (P : Nat → Bool) :
    r.volumeWhere s P = total ((c.resting s).filter fun x => P x.1) := by
  rw [ReferenceBook.volumeWhere, h, List.filter_map, total, List.map_map]
  rfl

/-- Storing a line that a step of the queue book produces. -/
theorem setSide {c' : QueueBook} {s : Side} {line : List BookedOrder}
    (hline : line = (c'.resting s).map booked) (hother : ∀ t, t ≠ s → c'.resting t = c.resting t) :
    Shows (r.setSide s line) c' := by
  intro t
  by_cases ht : t = s
  · subst ht
    rw [ReferenceBook.side_setSide, hline]
  · rw [ReferenceBook.side_setSide_of_ne _ ht, h t, hother t ht]

theorem rest (hwf : c.WellFormed) {c' : QueueBook} {s : Side} {p id : Nat} {v : Int}
    (hpush : c.push s p id v = some c') : Shows (r.rest s ⟨id, p, v⟩) c' := by
  obtain ⟨node, hside, _⟩ := QueueBook.alterQueue_side_push hpush
  obtain ⟨xs, ys, hline, halter, hother, hxs, hys⟩ :=
    QueueBook.resting_alterQueue hwf.ladder s p
  have hresting : ∀ t, c'.resting t =
      (c.alterQueue s p (· ++ [(node, ⟨id, v⟩)])).resting t := fun t => by
    rw [QueueBook.resting, hside, QueueBook.resting]
  refine h.setSide ?_ fun t ht => (hresting t).trans (hother _ t ht)
  -- the orders of at least the same priority are the better rungs and the queue itself
  have hfront : ∀ y ∈ (xs ++ (c.queue s p).map (Prod.mk p)).map booked,
      decide (¬ better s p y.price) = true := by
    intro y hy
    obtain ⟨x, hx, rfl⟩ := List.mem_map.mp hy
    refine decide_eq_true ?_
    rcases List.mem_append.mp hx with hx | hx
    · exact asymm_of (better s) (hxs x hx)
    · obtain ⟨e, _, rfl⟩ := List.mem_map.mp hx
      exact irrefl_of (better s) p
  have hback : (ys.map booked).takeWhile (fun y => decide (¬ better s p y.price)) = [] ∧
      (ys.map booked).dropWhile (fun y => decide (¬ better s p y.price)) = ys.map booked := by
    cases ys with
    | nil => exact ⟨rfl, rfl⟩
    | cons y ys =>
        have hy : better s p (booked y).price := hys y (by simp)
        simp [hy]
  rw [h s, hline, ← List.append_assoc, List.map_append, List.takeWhile_append_of_pos hfront,
    List.dropWhile_append_of_pos hfront, hback.1, hback.2, hresting, halter]
  simp [booked]

theorem delete (hwf : c.WellFormed) (s : Side) (p : Nat) (v : Int) :
    Shows (r.delete s p v) (c.drain s p v) := by
  obtain ⟨xs, ys, hline, halter, hother, hxs, hys⟩ :=
    QueueBook.resting_alterQueue (c := c.retire (popped v (c.queue s p))) hwf.ladder s p
  refine h.setSide ?_ fun t ht => hother _ t ht
  have hblock : ∀ y ∈ ((c.queue s p).map (Prod.mk p)).map booked,
      decide (y.price = p) = true := by
    intro y hy
    simp only [List.mem_map] at hy
    obtain ⟨_, ⟨e, _, rfl⟩, rfl⟩ := hy
    simp [booked]
  have hfront : ∀ y ∈ xs.map booked, decide (y.price ≠ p) = true := by
    intro y hy
    obtain ⟨x, hx, rfl⟩ := List.mem_map.mp hy
    exact decide_eq_true (ne_of_better (hxs x hx))
  have hback : ∀ y ∈ ys.map booked, y.price ≠ p := by
    intro y hy
    obtain ⟨x, hx, rfl⟩ := List.mem_map.mp hy
    exact (ne_of_better (hys x hx)).symm
  have hdraw : remaining v (((c.queue s p).map (Prod.mk p)).map booked) =
      ((remaining v (c.queue s p)).map (Prod.mk p)).map booked := by
    rw [← remaining_at]
    exact remaining_map booked (fun _ => rfl) (fun _ _ => rfl) v _
  have hresting : (c.drain s p v).resting s =
      xs ++ ((remaining v (c.queue s p)).map (Prod.mk p) ++ ys) := halter (remaining v)
  have hline : r.side s = xs.map booked ++
      (((c.queue s p).map (Prod.mk p)).map booked ++ ys.map booked) := by
    rw [h s, ← List.map_append, ← List.map_append]
    exact congrArg (List.map booked) hline
  rw [hresting, hline, List.takeWhile_append_of_pos hfront, List.dropWhile_append_of_pos hfront,
    List.map_append, List.map_append, ← hdraw]
  cases hqueue : c.queue s p with
  | nil =>
      -- no order at this price: the two cuts fall together somewhere behind the better orders
      simp only [List.map_nil, List.nil_append, remaining]
      have hnone : (ys.map booked).takeWhile (fun y => decide (y.price ≠ p)) = ys.map booked ∧
          (ys.map booked).dropWhile (fun y => decide (y.price ≠ p)) = [] := by
        constructor
        · exact List.takeWhile_eq_self_iff.mpr fun y hy => decide_eq_true (hback y hy)
        · exact List.dropWhile_eq_nil_iff.mpr fun y hy => decide_eq_true (hback y hy)
      rw [hnone.1, hnone.2]
      simp [remaining]
  | cons e es =>
      rw [hqueue] at hblock
      have htail : ∀ zs : List BookedOrder,
          (((e :: es).map (Prod.mk p)).map booked ++ zs).takeWhile
            (fun y => decide (y.price ≠ p)) = [] ∧
          (((e :: es).map (Prod.mk p)).map booked ++ zs).dropWhile
            (fun y => decide (y.price ≠ p)) = ((e :: es).map (Prod.mk p)).map booked ++ zs := by
        intro zs
        simp [booked]
      have hcut : (ys.map booked).takeWhile (fun y => decide (y.price = p)) = [] ∧
          (ys.map booked).dropWhile (fun y => decide (y.price = p)) = ys.map booked := by
        cases hys_cons : ys.map booked with
        | nil => exact ⟨rfl, rfl⟩
        | cons y zs =>
            have hy := hback y (by simp [hys_cons])
            simp [hy]
      rw [(htail _).1, (htail _).2, List.takeWhile_append_of_pos hblock,
        List.dropWhile_append_of_pos hblock, hcut.1, hcut.2]
      simp

theorem cancel (hwf : c.WellFormed) (hcomplete : c.Complete) (id : Nat) :
    Shows (r.cancel id) (c.remove id) := by
  have hgone : ∀ loc, c.index id = some loc → ∀ e ∈ c.queue loc.side loc.price,
      (e.2.id ≠ id ↔ e.1 ≠ loc.node) := by
    intro loc hloc e he
    have hid := (hwf.indexed id loc hloc).1
    constructor
    · intro hne hnode
      obtain ⟨e', he', htag⟩ := List.mem_map.mp (hwf.indexed id loc hloc).2
      have hnode : e'.1 = e.1 := (congrArg Prod.fst htag).trans hnode.symm
      have hsame : e' = e := List.inj_on_of_nodup_map (hwf.keys_nodup _ _) he' he hnode
      exact hne (hsame ▸ congrArg Prod.snd htag)
    · rintro hne rfl
      have hfound := hcomplete _ _ e he hid
      rw [hloc] at hfound
      exact hne (congrArg Location.node (Option.some.inj hfound)).symm
  by_cases hid : id = anonymous
  · have hnone : c.index id = none := by
      cases hloc : c.index id with
      | none => rfl
      | some loc => exact absurd hid (hwf.indexed id loc hloc).1
    rw [ReferenceBook.cancel, if_pos hid, QueueBook.remove_of_not_indexed hnone]
    exact h
  intro t
  simp only [ReferenceBook.cancel, if_neg hid, h t, List.filter_map]
  cases hloc : c.index id with
  | none =>
      rw [QueueBook.remove_of_not_indexed hloc, List.filter_eq_self.mpr]
      rintro ⟨p, e⟩ hx
      refine decide_eq_true fun heid : e.2.id = id => ?_
      have hfound := hcomplete t p e ((QueueBook.mem_resting hwf.ladder).mp hx) (heid ▸ hid)
      rw [heid, hloc] at hfound
      cases hfound
  | some loc =>
      obtain ⟨xs, ys, hline, halter, hother, hxs, hys⟩ :=
        QueueBook.resting_alterQueue hwf.ladder loc.side loc.price
      have helsewhere : ∀ x ∈ c.resting t, ¬ (t = loc.side ∧ x.1 = loc.price) →
          (booked x).id ≠ id := by
        rintro ⟨p, e⟩ hx hne heid
        replace heid : e.2.id = id := heid
        have hfound := hcomplete t p e ((QueueBook.mem_resting hwf.ladder).mp hx) (heid ▸ hid)
        rw [heid, hloc] at hfound
        have hsame := Option.some.inj hfound
        exact hne ⟨(congrArg Location.side hsame).symm, (congrArg Location.price hsame).symm⟩
      have hremoved : (c.remove id).resting t =
          (c.alterQueue loc.side loc.price (·.filter (·.1 ≠ loc.node))).resting t := by
        rw [QueueBook.resting, QueueBook.resting, QueueBook.side_remove hloc]
      rw [hremoved]
      by_cases ht : t = loc.side
      · subst ht
        have hxs_keep : xs.filter ((fun x => decide (x.id ≠ id)) ∘ booked) = xs := by
          rw [List.filter_eq_self]
          intro x hx
          refine decide_eq_true (helsewhere x (by rw [hline]; exact List.mem_append_left _ hx) ?_)
          exact fun hhere => ne_of_better (hxs x hx) hhere.2
        have hys_keep : ys.filter ((fun x => decide (x.id ≠ id)) ∘ booked) = ys := by
          rw [List.filter_eq_self]
          intro y hy
          refine decide_eq_true (helsewhere y (by
            rw [hline]
            exact List.mem_append_right _ (List.mem_append_right _ hy)) ?_)
          exact fun hhere => ne_of_better (hys y hy) hhere.2.symm
        have hblock : ((c.queue loc.side loc.price).map (Prod.mk loc.price)).filter
            ((fun x => decide (x.id ≠ id)) ∘ booked) =
            ((c.queue loc.side loc.price).filter (·.1 ≠ loc.node)).map (Prod.mk loc.price) := by
          rw [List.filter_map]
          congr 1
          refine List.filter_congr fun e he => ?_
          exact decide_eq_decide.mpr (hgone loc hloc e he)
        rw [halter, hline, List.filter_append, List.filter_append, hxs_keep, hys_keep, hblock]
      · rw [hother _ t ht, List.filter_eq_self.mpr]
        exact fun x hx => decide_eq_true (helsewhere x hx fun hhere => ht hhere.1)

/-- Taking volume from the front of the opposite line. -/
theorem sweep (hwf : c.WellFormed) (s : Side) (price : Nat) (v : Int) :
    Shows (r.setSide (opposed s) (remaining v (r.hit s price) ++ r.missed s price))
      (QueueBook.sweep s price c v (c.side (opposed s))) := by
  refine h.setSide ?_ fun t ht => ?_
  · rw [QueueBook.resting_sweep s price (hwf.ladder (opposed s)).nonempty v rfl, List.map_append,
      h.hit_eq, h.missed_eq, remaining_map booked (fun _ => rfl) (fun _ _ => rfl)]
    rfl
  · have hts : t = s := by
      rw [eq_opposed_of_ne ht, opposed_opposed]
    rw [hts, QueueBook.resting, QueueBook.side_sweep, QueueBook.resting]

/-- The fill-or-kill decision, under the bound on its running total. -/
theorem canFill (hwf : c.WellFormed) {o : Order} (hv : 0 < o.volume) (hfits : r.FillCheckFits o) :
    QueueBook.canFill o.side o.price o.volume 0 (c.side (opposed o.side)) =
      decide (o.volume ≤ total (r.hit o.side o.price)) := by
  have hladder := hwf.ladder (opposed o.side)
  have htotal : total (r.hit o.side o.price) =
      0 + total (crossing o.side o.price (c.resting (opposed o.side))) := by
    rw [h.hit_eq, total, List.map_map, Int.zero_add]
    rfl
  rw [htotal, QueueBook.resting]
  refine QueueBook.canFill_eq _ _ hladder.nonempty ?_ (Int.le_refl 0) hv ?_
  · intro q hq e he
    exact hwf.positive (opposed o.side) q.1 e (by
      rw [QueueBook.queue, hladder.lookup_of_mem hq]
      exact he)
  · rintro xs ⟨p, es⟩ ys hsplit hcross hlt
    have hes : es ≠ [] := hladder.nonempty (p, es) (by rw [hsplit]; simp)
    obtain ⟨e, es', rfl⟩ := List.exists_cons_of_ne_nil hes
    have hsorted := List.pairwise_append.mp (hsplit ▸ hladder.sorted)
    have hxs : ∀ q ∈ xs, better (opposed o.side) q.1 p := fun q hq =>
      hsorted.2.2 q hq (p, e :: es') (by simp)
    have hys : ∀ q ∈ ys, better (opposed o.side) p q.1 := fun q hq =>
      (List.pairwise_cons.mp hsorted.2.1).1 q hq
    have hline : c.resting (opposed o.side) =
        listing xs ++ listing [(p, e :: es')] ++ listing ys := by
      rw [QueueBook.resting, hsplit, List.append_assoc, ← listing_append, ← listing_append]
      rfl
    have helements : ∀ zs : Rungs Nat Entry, total (listing zs) = total (elements zs) := by
      intro zs
      simp only [total, listing, elements, List.map_flatMap, List.map_map]
      rfl
    -- the volume ahead of this level, and the volume up to it
    have hhere : ∀ (P : Nat → Bool) {x}, P p = x → ∀ q ∈ [(p, e :: es')], P q.1 = x := by
      rintro P x hP q hq
      rw [List.mem_singleton.mp hq]
      exact hP
    have hahead : r.volumeWhere (opposed o.side) (fun q => better (opposed o.side) q p) =
        total (elements xs) := by
      let P : Nat → Bool := fun q => better (opposed o.side) q p
      have hkeep := filter_listing_of_all (P := P) fun q hq => decide_eq_true (hxs q hq)
      have hlevel := filter_listing_of_none (P := P) (l := [(p, e :: es')])
        (hhere P (decide_eq_false (irrefl_of _ p)))
      have hdrop := filter_listing_of_none (P := P) fun q hq =>
        decide_eq_false (asymm_of _ (hys q hq))
      rw [h.volumeWhere_eq, hline, List.filter_append, List.filter_append, hkeep, hlevel, hdrop,
        List.append_nil, List.append_nil, helements]
    have hupto : r.volumeWhere (opposed o.side) (fun q => ¬ better (opposed o.side) p q) =
        total (elements xs) + total (e :: es') := by
      let P : Nat → Bool := fun q => ¬ better (opposed o.side) p q
      have hkeep := filter_listing_of_all (P := P) fun q hq =>
        decide_eq_true (asymm_of _ (hxs q hq))
      have hlevel := filter_listing_of_all (P := P) (l := [(p, e :: es')])
        (hhere P (decide_eq_true (irrefl_of _ p)))
      have hdrop := filter_listing_of_none (P := P) fun q hq =>
        decide_eq_false (not_not.mpr (hys q hq))
      rw [h.volumeWhere_eq, hline, List.filter_append, List.filter_append, hkeep, hlevel, hdrop,
        List.append_nil, total_append, helements, helements, elements_cons, elements_nil,
        List.append_nil]
    have hbound := hfits (booked (p, e)) (by
      rw [h, hline]
      simp) hcross
    rw [show (booked (p, e)).price = p from rfl, hahead, hupto] at hbound
    simpa using hbound (by simpa using hlt)

/-- `place_order` does what the reference book does. -/
theorem place (hwf : c.WellFormed) {o : Order} (hfits : o.type = .fillOrKill → r.FillCheckFits o)
    {capacity : Nat} (hcap : capacity < 2 ^ 31) (hcapacity : c.capacity = capacity)
    (hroom : (r.place o).1.count ≤ capacity) :
    ∃ c', c.place o = some (c', (r.place o).2) ∧ Shows (r.place o).1 c' := by
  simp only [ReferenceBook.place, QueueBook.place] at hroom ⊢
  by_cases hv : o.volume ≤ 0
  · simp only [if_pos hv]
    exact ⟨c, rfl, h⟩
  have hv' : 0 < o.volume := Int.not_le.mp hv
  have hkill : (o.type = .fillOrKill ∧
      QueueBook.canFill o.side o.price o.volume 0 (c.side (opposed o.side)) = false) ↔
      (o.type = .fillOrKill ∧ total (r.hit o.side o.price) < o.volume) := by
    refine and_congr_right fun htype => ?_
    rw [h.canFill hwf hv' (hfits htype), decide_eq_false_iff_not, Int.not_le]
  have hrests : (o.type ≠ .immediateOrCancel ∧ o.type ≠ .fillOrKill) ↔
      o.type = .goodTillCanceled := by
    cases o.type <;> simp
  have hladder := hwf.ladder (opposed o.side)
  have hleft : QueueBook.sweepLeftover o.side o.price o.volume (c.side (opposed o.side)) =
      leftover o.volume (r.hit o.side o.price) := by
    rw [QueueBook.sweepLeftover_eq o.side o.price hladder.nonempty, h.hit_eq,
      leftover_map booked fun _ => rfl]
    rfl
  have htrades : (QueueBook.sweepFills o.side o.price o.volume (c.side (opposed o.side))).map
      (QueueBook.tradeOf o.id) = (fills o.volume (r.hit o.side o.price)).map
        fun fill => ⟨o.id, fill.1.id, fill.1.price, fill.2⟩ := by
    rw [QueueBook.sweepFills_eq o.side o.price hladder.nonempty, h.hit_eq,
      fills_map booked fun _ => rfl, List.map_map, List.map_map]
    rfl
  have hswept := h.sweep hwf o.side o.price o.volume
  simp only [if_neg hv, hkill, hleft, htrades, hrests] at hroom ⊢
  split
  · exact ⟨c, rfl, h⟩
  rename_i hlive
  rw [if_neg hlive] at hroom
  split
  · rename_i hrest
    rw [if_pos hrest] at hroom
    have hwf' := hwf.sweep o.side o.price o.volume (c.side (opposed o.side))
    have hsweptCapacity : (QueueBook.sweep o.side o.price c o.volume
        (c.side (opposed o.side))).capacity = capacity :=
      (QueueBook.capacity_sweep _ _ _ _ _).trans hcapacity
    rw [ReferenceBook.count_rest, hswept.count_eq] at hroom
    obtain ⟨c', hpush⟩ := Option.isSome_iff_exists.mp
      (hwf'.push_isSome (by omega) (by omega) o.side o.price o.id
        (leftover o.volume (r.hit o.side o.price)))
    exact ⟨c', by rw [hpush]; rfl, hswept.rest hwf' hpush⟩
  · exact ⟨_, rfl, hswept⟩

theorem add (hwf : c.WellFormed) (s : Side) (p : Nat) (v : Int)
    {capacity : Nat} (hcap : capacity < 2 ^ 31) (hcapacity : c.capacity = capacity)
    (hroom : (r.add s p v).count ≤ capacity) :
    ∃ c', c.add s p v = some c' ∧ Shows (r.add s p v) c' := by
  simp only [ReferenceBook.add, QueueBook.add] at hroom ⊢
  split
  · exact ⟨c, rfl, h⟩
  · rename_i hv
    rw [if_neg hv, ReferenceBook.count_rest, h.count_eq] at hroom
    obtain ⟨c', hpush⟩ := Option.isSome_iff_exists.mp
      (hwf.push_isSome (by omega) (by omega) s p anonymous v)
    exact ⟨c', hpush, h.rest hwf hpush⟩

theorem volumeAt_eq (hwf : c.WellFormed) (s : Side) (p : Nat) :
    r.volumeAt s p = total (c.queue s p) := by
  rw [ReferenceBook.volumeAt, h.volumeWhere_eq]
  exact QueueBook.total_resting_filter hwf s p

theorem bestPrice_eq (hwf : c.WellFormed) (s : Side) :
    r.bestPrice s = (c.side s).head?.map Prod.fst := by
  rw [ReferenceBook.bestPrice, h s, QueueBook.resting]
  cases hside : c.side s with
  | nil => rfl
  | cons q l =>
      obtain ⟨e, es, hes⟩ := List.exists_cons_of_ne_nil
        ((hwf.ladder s).nonempty q (by rw [hside]; simp))
      simp [hes, booked]

end Shows

/-- What holds between the reference book and the order book after every call. -/
structure ReferenceBook.Implements (capacity : Nat) (r : ReferenceBook) (b : OrderBook)
    (c : QueueBook) : Prop where
  represents : Represents b c
  wellFormed : c.WellFormed
  complete : c.Complete
  shows : Shows r c
  capacity : c.capacity = capacity
  totals : ∀ s p, r.volumeAt s p ≤ int64Max

namespace ReferenceBook.Implements

variable {capacity : Nat} {r : ReferenceBook} {b : OrderBook} {c : QueueBook}
  (h : ReferenceBook.Implements capacity r b c)
include h

theorem fresh {o : Order} (hfresh : o.id ≠ anonymous → ∀ s, ∀ x ∈ r.side s, x.id ≠ o.id) :
    b.ReplacesFilled (.placeOrder o) := by
  rintro hid _ _ _ s x hx heq
  rw [h.represents.resting_eq h.wellFormed] at hx
  refine absurd heq (hfresh hid s (booked x) ?_)
  rw [h.shows s]
  exact List.mem_map_of_mem hx

/-- One admitted call. -/
theorem exec (hcap : capacity < 2 ^ 31) {cmd : Command} {r' : ReferenceBook}
    {trades : List Trade} (hadmits : r.Admits capacity cmd)
    (hexec : r.exec cmd = some (r', trades)) :
    ∃ b' c', b.exec cmd = some (b', trades) ∧ Implements capacity r' b' c' := by
  have hallow : Flow.orders.Allows cmd := by
    cases cmd with
    | setLevel s p v => cases hexec
    | _ => trivial
  have hreplace : b.ReplacesFilled cmd := by
    cases cmd with
    | placeOrder o => exact h.fresh (hadmits.fresh o rfl)
    | _ => trivial
  have hroom := hadmits.room r' trades hexec
  have hstep : ∃ c', c.exec cmd = some (c', trades) ∧ Shows r' c' := by
    cases cmd with
    | placeOrder o =>
        obtain ⟨rfl, rfl⟩ := Prod.mk.inj (Option.some.inj hexec)
        exact h.shows.place h.wellFormed (hadmits.fillCheck o rfl) hcap h.capacity hroom
    | cancelOrder id =>
        cases hexec
        exact ⟨_, rfl, h.shows.cancel h.wellFormed h.complete id⟩
    | addOrder s p v =>
        cases hexec
        obtain ⟨c', hadd, hshows⟩ := h.shows.add h.wellFormed s p v hcap h.capacity hroom
        exact ⟨c', by rw [QueueBook.exec, hadd]; rfl, hshows⟩
    | deleteOrder s p v =>
        cases hexec
        exact ⟨_, rfl, h.shows.delete h.wellFormed s p v⟩
    | setLevel s p v => cases hexec
  obtain ⟨c', hexec', hshows⟩ := hstep
  obtain ⟨b', hb, hrep⟩ := OrderBook.exec_of_queue h.represents h.wellFormed hallow hexec'
  have hsound : Flow.orders.Sound c := ⟨h.wellFormed, by simp⟩
  exact ⟨b', c', hb, {
    represents := hrep
    wellFormed := (hsound.exec hallow hexec').wellFormed
    complete := h.complete.exec h.represents h.wellFormed hallow hreplace hexec'
    shows := hshows
    capacity := (QueueBook.capacity_exec hexec').trans h.capacity
    totals := hadmits.totals r' trades hexec }⟩

theorem bookedOrders_eq (s : Side) : b.bookedOrders s = r.side s := by
  rw [OrderBook.bookedOrders, h.represents.resting_eq h.wellFormed, h.shows s]

theorem volumeAtPrice_eq (s : Side) (p : Nat) : b.volumeAtPrice p s = some (r.volumeAt s p) := by
  have hvolume := h.shows.volumeAt_eq h.wellFormed s p
  have hlow : 0 ≤ total (c.queue s p) := total_nonneg (h.wellFormed.positive s p)
  rw [h.represents.volumeAtPrice_eq h.wellFormed, QueueBook.cachedTotal,
    wrap64_eq (by omega) (hvolume ▸ h.totals s p), hvolume]

theorem bestBid_eq : b.bestBid = r.bestPrice .bid := by
  rw [h.shows.bestPrice_eq h.wellFormed, h.represents.bestBid_eq]

theorem bestAsk_eq : b.bestAsk = r.bestPrice .ask := by
  rw [h.shows.bestPrice_eq h.wellFormed, h.represents.bestAsk_eq]

end ReferenceBook.Implements

/-- The order book refines the reference book: every admitted run of the reference
book is a run of the order book with the same trades call for call, after which
the same orders rest in the same order and every query gives the same answer. -/
theorem OrderBook.refines_referenceBook {capacity : Nat} (hcap : capacity ≤ 2 ^ 31 - 1)
    {cmds : List Command} {outs : List (List Trade)} {r : ReferenceBook}
    (hruns : Runs ReferenceBook.exec (ReferenceBook.Admits capacity) ReferenceBook.empty
      cmds outs r) :
    ∃ b, Runs OrderBook.exec (fun _ _ => True) (OrderBook.empty capacity) cmds outs b ∧
      (∀ s, b.bookedOrders s = r.side s) ∧
      (∀ s p, b.volumeAtPrice p s = some (r.volumeAt s p)) ∧
      b.bestBid = r.bestPrice .bid ∧ b.bestAsk = r.bestPrice .ask := by
  have hinit : ReferenceBook.Implements capacity ReferenceBook.empty (OrderBook.empty capacity)
      (QueueBook.empty capacity) := {
    represents := OrderBook.empty_represents capacity
    wellFormed := QueueBook.empty_wellFormed capacity
    complete := fun _ _ _ he => by cases he
    shows := fun _ => rfl
    capacity := rfl
    totals := fun s p => by
      have hzero : ReferenceBook.empty.volumeAt s p = 0 := rfl
      rw [hzero]
      decide }
  obtain ⟨b, hruns', c, h⟩ := hruns.simulate OrderBook.exec (fun _ _ => True)
    (fun r b => ∃ c, ReferenceBook.Implements capacity r b c)
    (fun ⟨_, h⟩ hadmits hexec => by
      obtain ⟨b', c', hexec', h'⟩ := h.exec (by omega) hadmits hexec
      exact ⟨b', trivial, hexec', c', h'⟩)
    ⟨_, hinit⟩
  exact ⟨b, hruns', h.bookedOrders_eq, h.volumeAtPrice_eq, h.bestBid_eq, h.bestAsk_eq⟩

/-- A partial fill that rests, a fill-or-kill order that fills and one that does not, a
partial deletion and a cancellation. -/
theorem OrderBook.refines_referenceBook_session :
    ∃ b, Runs OrderBook.exec (fun _ _ => True) (OrderBook.empty 4)
        [.placeOrder ⟨1, .ask, 101, 5, .goodTillCanceled⟩,
          .placeOrder ⟨2, .ask, 102, 4, .goodTillCanceled⟩,
          .placeOrder ⟨3, .bid, 101, 3, .goodTillCanceled⟩,
          .placeOrder ⟨4, .bid, 101, 4, .goodTillCanceled⟩, .addOrder .bid 99 6,
          .placeOrder ⟨5, .bid, 102, 3, .fillOrKill⟩, .placeOrder ⟨6, .bid, 102, 3, .fillOrKill⟩,
          .deleteOrder .bid 99 2, .cancelOrder 4]
        [[], [], [⟨3, 1, 101, 3⟩], [⟨4, 1, 101, 2⟩], [], [⟨5, 2, 102, 3⟩], [], [], []] b ∧
      b.bookedOrders .bid = [⟨anonymous, 99, 4⟩] ∧ b.bookedOrders .ask = [⟨2, 102, 1⟩] ∧
      b.volumeAtPrice 102 .ask = some 1 ∧ b.bestBid = some 99 ∧ b.bestAsk = some 102 := by
  have hend : (trace (guarded ReferenceBook.exec (ReferenceBook.Admits 4)) ReferenceBook.empty
      [.placeOrder ⟨1, .ask, 101, 5, .goodTillCanceled⟩,
        .placeOrder ⟨2, .ask, 102, 4, .goodTillCanceled⟩,
        .placeOrder ⟨3, .bid, 101, 3, .goodTillCanceled⟩,
        .placeOrder ⟨4, .bid, 101, 4, .goodTillCanceled⟩, .addOrder .bid 99 6,
        .placeOrder ⟨5, .bid, 102, 3, .fillOrKill⟩, .placeOrder ⟨6, .bid, 102, 3, .fillOrKill⟩,
        .deleteOrder .bid 99 2, .cancelOrder 4]).map
        (fun out => (out.2, out.1.side .bid, out.1.side .ask)) =
      some ([[], [], [⟨3, 1, 101, 3⟩], [⟨4, 1, 101, 2⟩], [], [⟨5, 2, 102, 3⟩], [], [], []],
        [⟨anonymous, 99, 4⟩], [⟨2, 102, 1⟩]) := by decide +kernel
  obtain ⟨⟨r, outs⟩, htrace, heq⟩ := Option.map_eq_some_iff.mp hend
  obtain ⟨rfl, hbids, hasks⟩ := by simpa only [Prod.mk.injEq] using heq
  obtain ⟨b, hruns, hsides, hvolumes, hbestBid, hbestAsk⟩ :=
    OrderBook.refines_referenceBook (by decide) (Runs.of_trace htrace)
  refine ⟨b, hruns, (hsides .bid).trans hbids, (hsides .ask).trans hasks, ?_, ?_, ?_⟩
  · rw [hvolumes, ReferenceBook.volumeAt, ReferenceBook.volumeWhere, hasks]
    rfl
  · rw [hbestBid, ReferenceBook.bestPrice, hbids]
    rfl
  · rw [hbestAsk, ReferenceBook.bestPrice, hasks]
    rfl

/-- The fill-or-kill check adds level totals in 64 bits: with 2^62 and then 2^63 - 1
resting at crossing prices, an order for 2^62 + 1 is killed although it can fill. -/
theorem OrderBook.refines_referenceBook_of_large_volumes_false :
    ¬ ∀ capacity cmds outs r, Runs ReferenceBook.exec
        (fun r cmd =>
          (∀ o, cmd = .placeOrder o → o.id ≠ anonymous → ∀ s, ∀ x ∈ r.side s, x.id ≠ o.id) ∧
          ∀ r' trades, r.exec cmd = some (r', trades) → r'.count ≤ capacity)
        ReferenceBook.empty cmds outs r →
      ∃ b, Runs OrderBook.exec (fun _ _ => True) (OrderBook.empty capacity) cmds outs b := by
  intro hclaim
  let order : Order := ⟨1, .bid, 101, 4611686018427387905, .fillOrKill⟩
  let cmds : List Command := [.addOrder .ask 100 4611686018427387904,
    .addOrder .ask 101 9223372036854775807, .placeOrder order]
  let r₁ := ReferenceBook.empty.add .ask 100 4611686018427387904
  let r₂ := r₁.add .ask 101 9223372036854775807
  have hreference : Runs ReferenceBook.exec
      (fun r cmd =>
        (∀ o, cmd = .placeOrder o → o.id ≠ anonymous → ∀ s, ∀ x ∈ r.side s, x.id ≠ o.id) ∧
        ∀ r' trades, r.exec cmd = some (r', trades) → r'.count ≤ 4)
      ReferenceBook.empty cmds
      [[], [], [⟨1, 0, 100, 4611686018427387904⟩, ⟨1, 0, 101, 1⟩]] (r₂.place order).1 := by
    refine Runs.cons ⟨?_, ?_⟩ rfl (Runs.cons ⟨?_, ?_⟩ rfl
      (Runs.cons ⟨?_, ?_⟩ (by rfl) (Runs.nil _)))
    · rintro o ⟨⟩
    · rintro r' trades ⟨⟩
      decide
    · rintro o ⟨⟩
    · rintro r' trades ⟨⟩
      decide
    · rintro o ⟨⟩ _ s
      cases s <;> decide
    · rintro r' trades ⟨⟩
      decide
  obtain ⟨b, hruns⟩ := hclaim 4 _ _ _ hreference
  have hkilled : Runs OrderBook.exec (fun _ _ => True) (OrderBook.empty 4) cmds [[], [], []] _ :=
    Runs.cons trivial rfl (Runs.cons trivial rfl (Runs.cons trivial rfl (Runs.nil _)))
  exact absurd (hruns.unique hkilled).1 (by decide)

end ExchangeEngine
