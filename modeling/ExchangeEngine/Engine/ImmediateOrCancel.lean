import ExchangeEngine.Engine.ChainInvariants
import ExchangeEngine.Engine.FillOrKill

/-!
An immediate-or-cancel order and a good-till-canceled order that is cancelled at once.
The second takes a pool slot for its remainder and gives it back, so at most it leaves
one more slot behind, created last and to be reused last. No later call can tell: the
book without that slot creates it exactly when the other one takes it from its free list.
-/

namespace ExchangeEngine

open Ladder Fifo Chain Transition

/-! ### A spare slot -/

namespace QueueBook

/-- The book with one slot more, at the far end of the free list. -/
def spare (c : QueueBook) : QueueBook :=
  {c with free := c.free ++ [(c.slots : Int)], slots := c.slots + 1}

/-- The second book may have a spare slot. -/
def SameButSpare (c₁ c₂ : QueueBook) : Prop := c₂ = c₁ ∨ c₂ = c₁.spare

namespace SameButSpare

variable {c₁ c₂ : QueueBook} (h : SameButSpare c₁ c₂)
include h

theorem side : c₂.side = c₁.side := by
  rcases h with rfl | rfl <;> rfl

theorem index : c₂.index = c₁.index := by
  rcases h with rfl | rfl <;> rfl

end SameButSpare

theorem drain_spare (c : QueueBook) (s : Side) (p : Nat) (v : Int) :
    c.spare.drain s p v = (c.drain s p v).spare := by
  simp only [drain, retire, spare, alterQueue, queue, List.append_assoc]

theorem sweep_spare (s : Side) (price : Nat) (c : QueueBook) (v : Int) (l : Rungs Nat Entry) :
    sweep s price c.spare v l = (sweep s price c v l).spare := by
  induction l generalizing c v with
  | nil => rfl
  | cons q l ih =>
      simp only [sweep]
      split
      · rw [drain_spare, ih]
      · rfl

theorem remove_spare (c : QueueBook) (id : Nat) : c.spare.remove id = (c.remove id).spare := by
  have hindex : c.spare.index = c.index := rfl
  unfold remove
  rw [hindex]
  split <;> rfl

/-- A push takes the spare slot where the other book would create it, and else leaves
it behind. -/
theorem push_spare {c : QueueBook} (hwf : c.spare.WellFormed) (s : Side) (p id : Nat) (v : Int) :
    Option.Rel SameButSpare (c.push s p id v) (c.spare.push s p id v) := by
  have hcap : c.slots + 1 ≤ c.capacity := hwf.slots_le
  have hint : c.slots + 1 ≤ 2 ^ 31 := hwf.slots_int
  cases hfree : c.free with
  | nil =>
      have hslot : ObjectPool.nextSlot c.free c.slots c.capacity =
          some ((c.slots : Int), [], c.slots + 1) := by
        rw [hfree, ObjectPool.nextSlot, if_pos (by omega)]
      have hspare : ObjectPool.nextSlot c.spare.free c.spare.slots c.spare.capacity =
          some ((c.slots : Int), [], c.slots + 1) := by
        simp only [spare, hfree, List.nil_append, ObjectPool.nextSlot]
      simp only [push, hslot, hspare, Option.map_some]
      exact Option.Rel.some (Or.inl rfl)
  | cons i rest =>
      have hslot : ObjectPool.nextSlot c.free c.slots c.capacity = some (i, rest, c.slots) := by
        rw [hfree, ObjectPool.nextSlot]
      have hspare : ObjectPool.nextSlot c.spare.free c.spare.slots c.spare.capacity =
          some (i, rest ++ [(c.slots : Int)], c.slots + 1) := by
        simp only [spare, hfree, List.cons_append, ObjectPool.nextSlot]
      simp only [push, hslot, hspare, Option.map_some]
      exact Option.Rel.some (Or.inr rfl)

/-- Both books answer every call of order entry alike. -/
theorem exec_spare {c : QueueBook} (hwf : c.spare.WellFormed) {cmd : Command}
    (hallow : Flow.orders.Allows cmd) :
    Option.Rel (fun x y => SameButSpare x.1 y.1 ∧ x.2 = y.2) (c.exec cmd) (c.spare.exec cmd) := by
  cases cmd with
  | placeOrder o =>
      have hside : c.spare.side = c.side := rfl
      have hswept := hwf.sweep o.side o.price o.volume (c.side (opposed o.side))
      rw [sweep_spare] at hswept
      simp only [exec, place, hside, sweep_spare]
      split
      · exact Option.Rel.some ⟨Or.inr rfl, rfl⟩
      split
      · exact Option.Rel.some ⟨Or.inr rfl, rfl⟩
      split
      · exact rel_map _ _ (fun _ _ hsame => ⟨hsame, rfl⟩) (push_spare hswept _ _ _ _)
      · exact Option.Rel.some ⟨Or.inr rfl, rfl⟩
  | cancelOrder id => exact Option.Rel.some ⟨Or.inr (remove_spare c id), rfl⟩
  | addOrder s p v =>
      refine rel_map _ _ (fun _ _ hsame => ⟨hsame, rfl⟩) ?_
      unfold add
      split
      · exact Option.Rel.some (Or.inr rfl)
      · exact push_spare hwf s p anonymous v
  | deleteOrder s p v => exact Option.Rel.some ⟨Or.inr (drain_spare c s p v), rfl⟩
  | setLevel s p v => exact hallow.elim

theorem SameButSpare.exec {c₁ c₂ : QueueBook} (h : SameButSpare c₁ c₂) (hwf : c₂.WellFormed)
    {cmd : Command} (hallow : Flow.orders.Allows cmd) :
    Option.Rel (fun x y => SameButSpare x.1 y.1 ∧ x.2 = y.2) (c₁.exec cmd) (c₂.exec cmd) := by
  rcases h with rfl | rfl
  · cases c₂.exec cmd with
    | none => exact Option.Rel.none
    | some x => exact Option.Rel.some ⟨Or.inl rfl, rfl⟩
  · exact exec_spare hwf hallow

/-! ### A remainder that rests and leaves -/

/-- Removing an order that was just appended undoes the push, but for the slot. -/
theorem remove_push {c c' : QueueBook} (hwf : c.WellFormed) {s : Side} {p id : Nat} {v : Int}
    (hv : 0 < v) (hid : id ≠ anonymous) (hnone : c.index id = none)
    (hpush : c.push s p id v = some c') : SameButSpare c (c'.remove id) := by
  have hwf' := hwf.push hv hpush
  obtain ⟨⟨node, free, slots⟩, hslot, rfl⟩ := Option.map_eq_some_iff.mp hpush
  have hfresh : node ∉ keys (c.queue s p) := by
    have hnodup := hwf'.keys_nodup s p
    change (keys ((c.alterQueue s p (· ++ [(node, ⟨id, v⟩)])).queue s p)).Nodup at hnodup
    rw [queue_alterQueue hwf.ladder, if_pos ⟨rfl, rfl⟩, keys, List.map_append] at hnodup
    intro hmem
    exact (List.nodup_append.mp hnodup).2.2 node hmem node (by simp) rfl
  have hqueue : (c.queue s p ++ [(node, (⟨id, v⟩ : RestingOrder))]).filter (·.1 ≠ node) =
      c.queue s p := by
    rw [List.filter_append, List.filter_cons_of_neg (by simp), List.filter_nil, List.append_nil,
      List.filter_eq_self]
    intro e he
    have hne : e.1 ≠ node := fun heq => hfresh (heq ▸ List.mem_map_of_mem he)
    simpa using hne
  have hside : ((c.alterQueue s p (· ++ [(node, ⟨id, v⟩)])).alterQueue s p
      (·.filter (·.1 ≠ node))).side = c.side := by
    funext t
    by_cases ht : t = s
    · subst ht
      rw [side_alterQueue, side_alterQueue, (hwf.ladder t).alter_alter]
      exact (hwf.ladder t).alter_eq_self hqueue
    · rw [side_alterQueue_of_ne _ ht, side_alterQueue_of_ne _ ht]
  have hindex : OrderBook.eraseIndex (Function.update c.index id (some ⟨s, p, node⟩)) id =
      c.index := by
    rw [OrderBook.eraseIndex, Function.update_idem, ← hnone, Function.update_eq_self]
  have hremoved : ({c.alterQueue s p (· ++ [(node, ⟨id, v⟩)]) with
        index := Function.update c.index id (some ⟨s, p, node⟩), free, slots} : QueueBook).remove id
      = {c with free := node :: free, slots} := by
    simp only [remove, Function.update_self, hindex]
    exact congrArg (fun side => ({c with side, free := node :: free, slots} : QueueBook)) hside
  simp only [if_pos hid, hremoved]
  rcases ObjectPool.nextSlot_cases hslot with ⟨hfree, rfl⟩ | ⟨hfree, rfl, -, rfl, rfl⟩
  · exact Or.inl (by rw [← hfree])
  · exact Or.inr (by rw [spare, hfree, List.nil_append])

section Place

variable (c : QueueBook) (id : Nat) (s : Side) (price : Nat) {v : Int} (hv : 0 < v)
include hv

theorem place_immediateOrCancel :
    c.place ⟨id, s, price, v, .immediateOrCancel⟩ =
      some (sweep s price c v (c.side (opposed s)),
        (sweepFills s price v (c.side (opposed s))).map (tradeOf id)) := by
  simp [place, Int.not_le.mpr hv]

theorem place_goodTillCanceled :
    c.place ⟨id, s, price, v, .goodTillCanceled⟩ =
      if 0 < sweepLeftover s price v (c.side (opposed s)) then
        ((sweep s price c v (c.side (opposed s))).push s price id
          (sweepLeftover s price v (c.side (opposed s)))).map fun c' =>
            (c', (sweepFills s price v (c.side (opposed s))).map (tradeOf id))
      else some (sweep s price c v (c.side (opposed s)),
        (sweepFills s price v (c.side (opposed s))).map (tradeOf id)) := by
  simp [place, Int.not_le.mpr hv]

end Place

section Draws

variable {c c' : QueueBook} (hwf : c.WellFormed) {v : Int} (hv : 0 < v) {type : OrderType}
  (htype : type ≠ .fillOrKill)
include hwf hv htype

/-- A call only fails when a remainder finds no slot once matching has freed its own. -/
theorem place_isSome_iff (id : Nat) (s : Side) (price : Nat) :
    (c.place ⟨id, s, price, v, type⟩).isSome ↔ type = .immediateOrCancel ∨
      v ≤ c.crossingVolume s price ∨
      (sweep s price c v (c.side (opposed s))).restingCount < min c.capacity (2 ^ 31) := by
  have hswept := hwf.sweep s price v (c.side (opposed s))
  cases type with
  | fillOrKill => exact absurd rfl htype
  | immediateOrCancel => simp [place_immediateOrCancel c id s price hv]
  | goodTillCanceled =>
      have hleft := sweepLeftover_pos hwf s price (Int.le_of_lt hv)
      rw [place_goodTillCanceled c id s price hv]
      split
      · rename_i hrest
        have hshort := Int.not_le.mpr (hleft.mp hrest)
        rw [Option.isSome_map, hswept.push_isSome_iff, capacity_sweep]
        simp [hshort]
      · rename_i hfilled
        have hcovered : v ≤ c.crossingVolume s price := Int.not_lt.mp (hleft.not.mp hfilled)
        simp [hcovered]

variable {id : Nat} {s : Side} {price : Nat} {trades : List Trade}
  (hplace : c.place ⟨id, s, price, v, type⟩ = some (c', trades))
include hplace

/-- A call that is not killed draws its whole volume. -/
theorem place_draws_all :
    c'.resting (opposed s) = remaining v (crossing s price (c.resting (opposed s))) ++
        beyond s price (c.resting (opposed s)) ∧
      trades = ((fills v (crossing s price (c.resting (opposed s)))).map hitOf).map (tradeOf id) :=
  place_draws hwf hplace (by simp [htype, Int.not_le.mpr hv])

/-- A call that is not killed sweeps the opposite side; what is left of a good-till-canceled
order is then pushed. -/
theorem place_cases :
    (type = .goodTillCanceled ∧ c.crossingVolume s price < v ∧
      (sweep s price c v (c.side (opposed s))).push s price id
        (v - c.crossingVolume s price) = some c') ∨
    (¬ (type = .goodTillCanceled ∧ c.crossingVolume s price < v) ∧
      c' = sweep s price c v (c.side (opposed s))) := by
  have hleft := sweepLeftover_eq_max hwf s price (Int.le_of_lt hv)
  cases type with
  | fillOrKill => exact absurd rfl htype
  | immediateOrCancel =>
      rw [place_immediateOrCancel c id s price hv] at hplace
      exact Or.inr ⟨by simp, (Prod.mk.inj (Option.some.inj hplace)).1.symm⟩
  | goodTillCanceled =>
      rw [place_goodTillCanceled c id s price hv, hleft] at hplace
      split at hplace
      · obtain ⟨c₁, hpush, heq⟩ := Option.map_eq_some_iff.mp hplace
        obtain ⟨rfl, _⟩ := Prod.mk.inj heq
        have hshort : c.crossingVolume s price < v := by omega
        rw [Int.max_eq_right (by omega)] at hpush
        exact Or.inl ⟨rfl, hshort, hpush⟩
      · exact Or.inr ⟨fun hrest => absurd hrest.2 (by omega),
          (Prod.mk.inj (Option.some.inj hplace)).1.symm⟩

end Draws

end QueueBook

/-! ### Books that cannot be told apart -/

namespace OrderBook

/-- The levels with their totals, the orders in their queues and the indexed ids are the same. -/
structure SameBook (b₁ b₂ : OrderBook) : Prop where
  levels : ∀ s, b₂.sideLevels s = b₁.sideLevels s
  resting : ∀ s, b₂.resting s = b₁.resting s
  index : b₂.index = b₁.index

/-- Calls of order entry, one after another. -/
abbrev Serves (b : OrderBook) (cmds : List Command) (outs : List (List Trade)) (b' : OrderBook) :
    Prop :=
  Runs exec (fun _ => Flow.orders.Allows) b cmds outs b'

/-- Whatever calls one book serves, the other one serves with the same trades, and leads
to the same book. -/
def BehavesAlike (b₁ b₂ : OrderBook) : Prop :=
  ∀ cmds outs,
    (∀ b₁', b₁.Serves cmds outs b₁' → ∃ b₂', b₂.Serves cmds outs b₂' ∧ SameBook b₁' b₂') ∧
    ∀ b₂', b₂.Serves cmds outs b₂' → ∃ b₁', b₁.Serves cmds outs b₁' ∧ SameBook b₁' b₂'

/-- The second book may have a spare slot in its pool. -/
def SpareSlot (b₁ b₂ : OrderBook) : Prop :=
  ∃ c₁ c₂, Represents b₁ c₁ ∧ Represents b₂ c₂ ∧ c₁.WellFormed ∧ c₂.WellFormed ∧
    c₁.SameButSpare c₂

namespace SpareSlot

variable {b₁ b₂ : OrderBook} (h : SpareSlot b₁ b₂)
include h

theorem sameBook : SameBook b₁ b₂ := by
  obtain ⟨c₁, c₂, hrep₁, hrep₂, hwf₁, hwf₂, hsame⟩ := h
  refine ⟨fun s => ?_, fun s => ?_, ?_⟩
  · rw [hrep₁.levels, hrep₂.levels, hsame.side]
  · rw [hrep₁.resting_eq hwf₁, hrep₂.resting_eq hwf₂, QueueBook.resting, QueueBook.resting,
      hsame.side]
  · rw [hrep₁.index, hrep₂.index, hsame.index]

/-- Both books accept the same commands, and the slot stays the only difference. -/
theorem exec_alike {cmd : Command} (hallow : Flow.orders.Allows cmd) :
    Option.Rel (fun x y => SpareSlot x.1 y.1 ∧ x.2 = y.2) (b₁.exec cmd) (b₂.exec cmd) := by
  obtain ⟨c₁, c₂, hrep₁, hrep₂, hwf₁, hwf₂, hsame⟩ := h
  have hsound₁ : Flow.orders.Sound c₁ := ⟨hwf₁, by simp⟩
  have hsound₂ : Flow.orders.Sound c₂ := ⟨hwf₂, by simp⟩
  have hbook₁ := exec_represents hrep₁ hwf₁ hallow
  have hbook₂ := exec_represents hrep₂ hwf₂ hallow
  have hrel := hsame.exec hwf₂ hallow
  cases hexec₁ : c₁.exec cmd with
  | none =>
      rw [hexec₁] at hbook₁ hrel
      cases hexec₂ : c₂.exec cmd with
      | none =>
          rw [hexec₂] at hbook₂
          rw [rel_none_right hbook₁, rel_none_right hbook₂]
          exact Option.Rel.none
      | some y => exact nomatch hexec₂ ▸ hrel
  | some x =>
      obtain ⟨c₁', trades⟩ := x
      rw [hexec₁] at hrel
      obtain ⟨⟨c₂', _⟩, hexec₂, hsame', rfl⟩ := rel_some_left hrel
      obtain ⟨b₁', hb₁, hrep₁'⟩ := exec_of_queue hrep₁ hwf₁ hallow hexec₁
      obtain ⟨b₂', hb₂, hrep₂'⟩ := exec_of_queue hrep₂ hwf₂ hallow hexec₂
      rw [hb₁, hb₂]
      exact Option.Rel.some ⟨⟨c₁', c₂', hrep₁', hrep₂', (hsound₁.exec hallow hexec₁).wellFormed,
        (hsound₂.exec hallow hexec₂).wellFormed, hsame'⟩, rfl⟩

/-- No sequence of calls finds the slot. -/
theorem behavesAlike : BehavesAlike b₁ b₂ := by
  refine fun cmds outs => ⟨fun b₁' hruns => ?_, fun b₂' hruns => ?_⟩
  · obtain ⟨b₂', hruns', h'⟩ := hruns.simulate exec (fun _ => Flow.orders.Allows) SpareSlot
      (fun hspare hallow hexec => by
        have hrel := hspare.exec_alike hallow
        rw [hexec] at hrel
        obtain ⟨⟨b', _⟩, hexec', hspare', rfl⟩ := rel_some_left hrel
        exact ⟨b', hallow, hexec', hspare'⟩) h
    exact ⟨b₂', hruns', h'.sameBook⟩
  · obtain ⟨b₁', hruns', h'⟩ := hruns.simulate exec (fun _ => Flow.orders.Allows)
      (fun b₂ b₁ => SpareSlot b₁ b₂)
      (fun hspare hallow hexec => by
        have hrel := hspare.exec_alike hallow
        rw [hexec] at hrel
        obtain ⟨⟨b', _⟩, hexec', hspare', rfl⟩ := rel_some_right hrel
        exact ⟨b', hallow, hexec', hspare'⟩) h
    exact ⟨b₁', hruns', h'.sameBook⟩

end SpareSlot

end OrderBook

namespace Represents

variable {b : OrderBook} {c : QueueBook} (h : Represents b c) (hwf : c.WellFormed)
include h hwf

/-- An id that no order bears is not indexed. -/
theorem index_eq_none {id : Nat} (hfresh : ∀ s, ∀ x ∈ b.resting s, x.2.2.id ≠ id) :
    c.index id = none := by
  rw [Option.eq_none_iff_forall_ne_some]
  intro loc hloc
  obtain ⟨e, he, htag⟩ := List.mem_map.mp (hwf.indexed id loc hloc).2
  refine hfresh loc.side (loc.price, e) ?_ (congrArg Prod.snd htag)
  rw [h.resting_eq hwf]
  exact (QueueBook.mem_resting hwf.ladder).mpr he

end Represents

namespace OrderBook

/-- An immediate-or-cancel order does what the same order as good-till-canceled does when
it is cancelled at once, provided that the second can rest at all: the trades are the
same, and the books cannot be told apart. -/
theorem immediateOrCancel_eq_cancelled {capacity : Nat} {b : OrderBook}
    (h : Reached .orders capacity b) (s : Side) (price id : Nat) {v : Int} (hv : 0 < v)
    (hid : id ≠ anonymous) (hfresh : ∀ s, ∀ x ∈ b.resting s, x.2.2.id ≠ id) :
    ∃ b₁ trades, b.placeOrder ⟨id, s, price, v, .immediateOrCancel⟩ = some (b₁, trades) ∧
      ((b.placeOrder ⟨id, s, price, v, .goodTillCanceled⟩).isSome ↔
        v ≤ b.crossingVolume s price ∨ b₁.restingCount < min capacity (2 ^ 31)) ∧
      ∀ b' trades', b.placeOrder ⟨id, s, price, v, .goodTillCanceled⟩ = some (b', trades') →
        trades' = trades ∧ ∃ b₂, b'.cancelOrder id = some b₂ ∧ SameBook b₁ b₂ ∧
          BehavesAlike b₁ b₂ := by
  obtain ⟨c, hrep, hsound, hcapacity⟩ := h.represents
  have hwf := hsound.wellFormed
  have hnone := hrep.index_eq_none hwf hfresh
  have himmediate := c.place_immediateOrCancel id s price hv
  have hindex : (QueueBook.sweep s price c v (c.side (opposed s))).index id = none := by
    rw [(QueueBook.retired_sweep s price (hwf.ladder (opposed s)).nonempty v rfl).1]
    exact QueueBook.dropIds_eq_none _ hnone
  have hswept := hwf.sweep s price v (c.side (opposed s))
  obtain ⟨b₁, hplace₁, hrep₁⟩ := placeOrder_of_queue hrep hwf himmediate
  refine ⟨b₁, _, hplace₁, ?_, fun b' trades' hplace => ?_⟩
  · have hreturns := QueueBook.place_isSome_iff hwf hv
      (by decide : OrderType.goodTillCanceled ≠ .fillOrKill) id s price
    rw [or_iff_right (by decide : OrderType.goodTillCanceled ≠ .immediateOrCancel)] at hreturns
    rw [rel_isSome (placeOrder_represents hrep hwf _), hreturns, hrep.crossingVolume_eq hwf,
      hrep₁.restingCount_eq hswept, hcapacity]
  · obtain ⟨c', hplace', hrep'⟩ := placeOrder_some hrep hwf hplace
    have hwf' : c'.WellFormed := hwf.place hplace'
    obtain ⟨b₂, hcancel, hrep₂⟩ := cancelOrder_represents hrep' hwf' id
    have htrades := (QueueBook.place_draws_all hwf hv (by decide) hplace').2.trans
      (QueueBook.place_draws_all hwf hv (by decide) himmediate).2.symm
    have hsame : (QueueBook.sweep s price c v (c.side (opposed s))).SameButSpare
        (c'.remove id) := by
      rcases QueueBook.place_cases hwf hv (by decide) hplace' with ⟨-, hshort, hpush⟩ | ⟨-, rfl⟩
      · exact QueueBook.remove_push hswept (by omega) hid hindex hpush
      · exact Or.inl (by simp only [QueueBook.remove, hindex])
    have hspare : SpareSlot b₁ b₂ :=
      ⟨_, c'.remove id, hrep₁, hrep₂, hswept, hwf'.remove id, hsame⟩
    exact ⟨htrades, b₂, hcancel, hspare.sameBook, hspare.behavesAlike⟩

/-- Three of five are filled; the other two rest in a new slot and leave it again. -/
theorem immediateOrCancel_eq_cancelled_partFilled : ∃ b b₁ b' b₂ : OrderBook,
    Reached .orders 4 b ∧
      b.placeOrder ⟨7, .bid, 101, 5, .immediateOrCancel⟩ = some (b₁, [⟨7, 1, 101, 3⟩]) ∧
      b.placeOrder ⟨7, .bid, 101, 5, .goodTillCanceled⟩ = some (b', [⟨7, 1, 101, 3⟩]) ∧
      b'.cancelOrder 7 = some b₂ ∧ SameBook b₁ b₂ ∧ BehavesAlike b₁ b₂ := by
  have hreached : Reached .orders 4 _ :=
    ⟨[.placeOrder ⟨1, .ask, 101, 3, .goodTillCanceled⟩], _, Runs.cons trivial rfl (Runs.nil _)⟩
  obtain ⟨b₁, trades, himmediate, -, hcancelled⟩ := immediateOrCancel_eq_cancelled hreached .bid
    101 7 (by decide : (0 : Int) < 5) (by decide)
    (fun s x hx => by cases s <;> revert x hx <;> decide)
  obtain ⟨rfl, b₂, hcancel, hsame, halike⟩ := hcancelled _ [⟨7, 1, 101, 3⟩] rfl
  exact ⟨_, b₁, _, b₂, hreached, himmediate, rfl, hcancel, hsame, halike⟩

/-- With its only slot taken, the pool has none for the remainder that is to be cancelled. -/
theorem immediateOrCancel_eq_cancelled_of_full_pool_false :
    ¬ ∀ capacity b, Reached .orders capacity b → (∀ s, total (b.resting s) ≤ int64Max) →
      ∀ (s : Side) (price id : Nat) (v : Int), 0 < v → id ≠ anonymous →
        (∀ s, ∀ x ∈ b.resting s, x.2.2.id ≠ id) →
        ∃ b₁ trades b' b₂, b.placeOrder ⟨id, s, price, v, .immediateOrCancel⟩ = some (b₁, trades) ∧
          b.placeOrder ⟨id, s, price, v, .goodTillCanceled⟩ = some (b', trades) ∧
          b'.cancelOrder id = some b₂ ∧ SameBook b₁ b₂ := by
  intro hclaim
  have hrun : ∃ b, Reached .orders 1 b ∧ (∀ s, total (b.resting s) ≤ int64Max) ∧
      (∀ s, ∀ x ∈ b.resting s, x.2.2.id ≠ 2) ∧
      b.placeOrder ⟨2, .bid, 90, 1, .goodTillCanceled⟩ = none :=
    ⟨_, ⟨[.placeOrder ⟨1, .bid, 100, 5, .goodTillCanceled⟩], _,
      Runs.cons trivial rfl (Runs.nil _)⟩, fun s => by cases s <;> decide,
      fun s x hx => by cases s <;> revert x hx <;> decide, rfl⟩
  obtain ⟨b, hreached, hfits, hfresh, hfull⟩ := hrun
  obtain ⟨_, _, _, _, -, hplace, -⟩ :=
    hclaim 1 b hreached hfits .bid 90 2 1 (by decide) (by decide) hfresh
  rw [hfull] at hplace
  cases hplace

end OrderBook

end ExchangeEngine
