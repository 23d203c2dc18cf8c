import ExchangeEngine.Engine.Command
import ExchangeEngine.Engine.PriorityOrder

/-!
Cancellation through the index. Soundness: an entry always finds an order of its
id, so a cancellation removes that order and nothing else. Completeness fails
once an id is placed while an order of that id stays on the book, because the
newer entry overwrites the older one; as long as that does not happen every
identified order can be cancelled.
-/

namespace ExchangeEngine

open Ladder Fifo Chain Transition

namespace OrderBook

/-- The index entry `loc` leads to a live order of the id. -/
structure Finds (b : OrderBook) (id : Nat) (loc : Location) : Prop where
  identified : id ≠ anonymous
  level : ∃ lvl ∈ b.sideLevels loc.side, lvl.price = loc.price ∧ loc.node ∈ keys (b.chain lvl)
  stored : (b.pool.get loc.node).map (·.value.id) = some id
  taken : loc.node ∉ b.pool.freeList

/-- `b'` is `b` without the order at `loc`: one slot is freed and one order leaves
one chain, the other orders of which keep their volumes and their order. -/
structure Removes (b : OrderBook) (id : Nat) (loc : Location) (b' : OrderBook) : Prop where
  index : b'.index = eraseIndex b.index id
  freed : b'.pool.freeList = loc.node :: b.pool.freeList
  chain : b'.chainAt loc.side loc.price =
    (b.chainAt loc.side loc.price).filter (·.1 ≠ loc.node)
  chains : ∀ s p, ¬ (s = loc.side ∧ p = loc.price) → b'.chainAt s p = b.chainAt s p
  levels : (b'.sideLevels loc.side).filter (fun lvl => lvl.price ≠ loc.price) =
    (b.sideLevels loc.side).filter (fun lvl => lvl.price ≠ loc.price)
  otherSide : b'.sideLevels (opposed loc.side) = b.sideLevels (opposed loc.side)

end OrderBook

namespace Represents

variable {b : OrderBook} {c : QueueBook} (h : Represents b c) (hwf : c.WellFormed)
include h hwf

theorem finds {id : Nat} {loc : Location} (hloc : b.index id = some loc) : b.Finds id loc := by
  rw [h.index] at hloc
  obtain ⟨xs, v, ys, hsplit, _⟩ := hwf.exists_split_of_index hloc
  have hmem : (loc.node, (⟨id, v⟩ : RestingOrder)) ∈ c.queue loc.side loc.price := by
    rw [hsplit]
    simp
  have hrung : (loc.price, c.queue loc.side loc.price) ∈ c.side loc.side :=
    mem_of_lookup_ne_nil (List.ne_nil_of_mem hmem)
  have hkey : loc.node ∈ keys (c.queue loc.side loc.price) := List.mem_map_of_mem hmem
  refine ⟨(hwf.indexed id loc hloc).1,
    ⟨levelOf (loc.price, c.queue loc.side loc.price), ?_, rfl, ?_⟩,
    ?_, ?_⟩
  · rw [h.levels]
    exact List.mem_map_of_mem hrung
  · rw [h.chain_levelOf hwf hrung]
    exact hkey
  · obtain ⟨cell, hcell, hvalue⟩ := (h.linked loc.side loc.price).lookup hmem
    simp [hcell, hvalue]
  · rw [h.freeList]
    exact fun hfree => hwf.free_notMem hfree _ _ hkey

theorem removes {id : Nat} {loc : Location} (hloc : b.index id = some loc) {b' : OrderBook}
    (hrep : Represents b' (c.remove id)) : b.Removes id loc b' := by
  have hwf' := hwf.remove id
  rw [h.index] at hloc
  have hside := QueueBook.side_remove hloc
  have hqueue := QueueBook.queue_remove hwf.ladder hloc
  have hfilter : ∀ l : Rungs Nat Entry,
      (l.map levelOf).filter (fun lvl => decide (lvl.price ≠ loc.price)) =
        (l.filter (fun q => decide (q.1 ≠ loc.price))).map levelOf := fun l => by
    rw [List.filter_map]
    rfl
  refine ⟨?_, ?_, ?_, ?_, ?_, ?_⟩
  · rw [hrep.index, h.index]
    simp only [QueueBook.remove, hloc]
  · rw [hrep.freeList, h.freeList]
    simp only [QueueBook.remove, hloc]
  · rw [hrep.chainAt_eq hwf', h.chainAt_eq hwf, hqueue, if_pos ⟨rfl, rfl⟩]
  · intro s p hne
    rw [hrep.chainAt_eq hwf', h.chainAt_eq hwf, hqueue, if_neg hne]
  · rw [hrep.levels, h.levels, hside, QueueBook.side_alterQueue, hfilter, hfilter,
      (hwf.ladder loc.side).filter_alter]
  · rw [hrep.levels, h.levels, hside, QueueBook.side_alterQueue_of_ne _ (opposed_ne _)]

end Represents

namespace OrderBook

/-- `cancel_order` never touches a dead or foreign order, whatever ids were
placed: every index entry finds a live order of its id, the looked-up level
exists, and only that order is removed. -/
theorem cancelOrder_sound {capacity : Nat} {b : OrderBook} (h : Reached .orders capacity b) :
    (∀ id loc, b.index id = some loc → b.Finds id loc) ∧
    (∀ id, b.index id = none → b.cancelOrder id = some b) ∧
    ∀ id loc, b.index id = some loc →
      ∃ b', b.cancelOrder id = some b' ∧ b.Removes id loc b' := by
  obtain ⟨c, hrep, hsound, _⟩ := h.represents
  have hwf := hsound.wellFormed
  refine ⟨fun id loc => hrep.finds hwf, fun id hnone => ?_, fun id loc hloc => ?_⟩
  · simp only [cancelOrder, hnone]
  · obtain ⟨b', hcancel, hrep'⟩ := cancelOrder_represents hrep hwf id
    exact ⟨b', hcancel, hrep.removes hwf hloc hrep'⟩

/-- `7` is placed twice; an order that fills the first of its price leaves its slot to a
third. The entry of `7` is that of the newer order, and only this one is cancelled. -/
theorem cancelOrder_sound_reuse : ∃ b, Reached .orders 5 b ∧
    b.chainAt .ask 101 = [(1, ⟨7, 3⟩), (2, ⟨7, 4⟩), (0, ⟨8, 6⟩)] ∧
    ∃ b', b.cancelOrder 7 = some b' ∧ b.Removes 7 ⟨.ask, 101, 2⟩ b' ∧
      b'.chainAt .ask 101 = [(1, ⟨7, 3⟩), (0, ⟨8, 6⟩)] := by
  have hrun : ∃ b, Reached .orders 5 b ∧
      b.chainAt .ask 101 = [(1, ⟨7, 3⟩), (2, ⟨7, 4⟩), (0, ⟨8, 6⟩)] ∧
      b.index 7 = some ⟨.ask, 101, 2⟩ :=
    ⟨_, ⟨[.addOrder .ask 101 2, .placeOrder ⟨7, .ask, 101, 3, .goodTillCanceled⟩,
        .placeOrder ⟨7, .ask, 101, 4, .goodTillCanceled⟩,
        .placeOrder ⟨9, .bid, 101, 2, .goodTillCanceled⟩,
        .placeOrder ⟨8, .ask, 101, 6, .goodTillCanceled⟩], _,
      Runs.cons trivial rfl (Runs.cons trivial rfl (Runs.cons trivial rfl
        (Runs.cons trivial rfl (Runs.cons trivial rfl (Runs.nil _)))))⟩,
      by decide +kernel, by decide +kernel⟩
  obtain ⟨b, hreached, hchain, hindex⟩ := hrun
  obtain ⟨b', hcancel, hremoves⟩ := (cancelOrder_sound hreached).2.2 7 _ hindex
  refine ⟨b, hreached, hchain, b', hcancel, hremoves, ?_⟩
  rw [hremoves.chain, hchain]
  decide

end OrderBook

namespace QueueBook

/-- Some resting order has the id. -/
def Rests (c : QueueBook) (id : Nat) : Prop := ∃ s p, ∃ e ∈ c.queue s p, e.2.id = id

/-- Every identified resting order is the one its index entry finds. -/
def Complete (c : QueueBook) : Prop :=
  ∀ s p, ∀ e ∈ c.queue s p, e.2.id ≠ anonymous → c.index e.2.id = some ⟨s, p, e.1⟩

theorem mem_push {c c' : QueueBook} (hwf : c.WellFormed) {s : Side} {p id : Nat} {v : Int}
    (hpush : c.push s p id v = some c') {t : Side} {q : Nat} {e : Entry}
    (he : e ∈ c'.queue t q) :
    e ∈ c.queue t q ∨ (e.2.id = id ∧ t = s ∧ q = p ∧
      (id ≠ anonymous → c'.index id = some ⟨s, p, e.1⟩)) := by
  obtain ⟨node, hside, hindex⟩ := alterQueue_side_push hpush
  have hqueue := queue_alterQueue hwf.ladder s p (· ++ [(node, ⟨id, v⟩)]) t q
  rw [queue, hside, ← queue, hqueue] at he
  split at he
  · rename_i hhere
    rcases List.mem_append.mp he with he | he
    · rw [hhere.1, hhere.2]
      exact Or.inl he
    · rw [List.mem_singleton.mp he]
      refine Or.inr ⟨rfl, hhere.1, hhere.2, fun hid => ?_⟩
      rw [hindex, if_pos hid, Function.update_self]
  · exact Or.inl he

theorem mem_drain {c : QueueBook} (hwf : c.WellFormed) {s : Side} {p : Nat} {v : Int}
    {t : Side} {q : Nat} {e : Entry} (he : e ∈ (c.drain s p v).queue t q) :
    ∃ e' ∈ c.queue t q, tag e' = tag e := by
  have hqueue := queue_alterQueue (c := c.retire (popped v (c.queue s p))) hwf.ladder s p
    (remaining v) t q
  rw [drain, hqueue] at he
  split at he
  · rename_i hhere
    have htag : tag e ∈ (c.queue s p).map tag := by
      rw [← tags_popped_append_tags_remaining v]
      exact List.mem_append_right _ (List.mem_map_of_mem he)
    rw [hhere.1, hhere.2]
    exact List.mem_map.mp htag
  · exact ⟨e, he, rfl⟩

theorem mem_sweep {c : QueueBook} (hwf : c.WellFormed) {s : Side} {price : Nat} {v : Int}
    {l : Rungs Nat Entry} {t : Side} {q : Nat} {e : Entry}
    (he : e ∈ (sweep s price c v l).queue t q) : ∃ e' ∈ c.queue t q, tag e' = tag e := by
  induction l generalizing c v with
  | nil => exact ⟨e, he, rfl⟩
  | cons r l ih =>
      rw [sweep] at he
      split at he
      · obtain ⟨e₁, he₁, htag₁⟩ := ih (hwf.drain _ _ _) he
        obtain ⟨e₂, he₂, htag₂⟩ := mem_drain hwf he₁
        exact ⟨e₂, he₂, htag₂.trans htag₁⟩
      · exact ⟨e, he, rfl⟩

theorem mem_remove {c : QueueBook} (hwf : c.WellFormed) {id : Nat} {t : Side} {q : Nat}
    {e : Entry} (he : e ∈ (c.remove id).queue t q) :
    e ∈ c.queue t q ∧ c.index id ≠ some ⟨t, q, e.1⟩ := by
  cases hloc : c.index id with
  | none => exact ⟨remove_of_not_indexed hloc ▸ he, by simp⟩
  | some loc =>
      rw [queue_remove hwf.ladder hloc] at he
      split at he
      · rename_i hhere
        rw [hhere.1, hhere.2]
        refine ⟨List.mem_of_mem_filter he, ?_⟩
        have hne : e.1 ≠ loc.node := by simpa using (List.mem_filter.mp he).2
        intro heq
        exact hne (congrArg Location.node (Option.some.inj heq)).symm
      · rename_i hne
        refine ⟨he, fun heq => hne ?_⟩
        have hsame := Option.some.inj heq
        exact ⟨(congrArg Location.side hsame).symm, (congrArg Location.price hsame).symm⟩

namespace Complete

variable {c : QueueBook} (h : c.Complete) (hwf : c.WellFormed)
include h hwf

theorem drain (s : Side) (p : Nat) (v : Int) : (c.drain s p v).Complete := by
  intro t q e he hid
  obtain ⟨e', he', htag⟩ := mem_drain hwf he
  obtain ⟨hnode, hid'⟩ := Prod.mk.inj htag
  have hindex := h t q e' he' (hid' ▸ hid)
  rw [hid', hnode] at hindex
  refine (dropIds_eq_some hid).mpr ⟨hindex, fun e₀ he₀ heq => ?_⟩
  -- a used-up order of the same id would be found by the same entry
  have hmem : e₀ ∈ c.queue s p := (popped_sublist v _).subset he₀
  have hindex₀ := h s p e₀ hmem (heq ▸ hid)
  rw [heq, hindex] at hindex₀
  obtain ⟨rfl, rfl, hsame⟩ := Location.mk.inj (Option.some.inj hindex₀)
  have hqueue := queue_alterQueue (c := c.retire (popped v (c.queue t q))) hwf.ladder t q
    (remaining v) t q
  rw [QueueBook.drain, hqueue, if_pos ⟨rfl, rfl⟩] at he
  have hnodup := hwf.keys_nodup t q
  rw [← keys_popped_append_keys_remaining v (c.queue t q)] at hnodup
  exact (List.nodup_append.mp hnodup).2.2 e₀.1 (List.mem_map_of_mem he₀) e.1
    (List.mem_map_of_mem he) hsame.symm

theorem sweep (s : Side) (price : Nat) (v : Int) (l : Rungs Nat Entry) :
    (QueueBook.sweep s price c v l).Complete := by
  induction l generalizing c v with
  | nil => exact h
  | cons q l ih =>
      rw [QueueBook.sweep]
      split
      · exact ih (h.drain hwf _ _ _) (hwf.drain _ _ _) _
      · exact h

/-- Resting an order keeps the index complete unless its id still rests. -/
theorem push {c' : QueueBook} {s : Side} {p id : Nat} {v : Int}
    (hpush : c.push s p id v = some c') (hfresh : id ≠ anonymous → ¬ c.Rests id) :
    c'.Complete := by
  intro t q e he hid
  rcases mem_push hwf hpush he with he | ⟨rfl, rfl, rfl, hindex⟩
  · obtain ⟨node, _, hindex⟩ := alterQueue_side_push hpush
    rw [hindex]
    split
    · rename_i hnew
      have hne : e.2.id ≠ id := fun heq => hfresh hnew ⟨t, q, e, he, heq⟩
      rw [Function.update_of_ne hne]
      exact h t q e he hid
    · exact h t q e he hid
  · exact hindex hid

theorem remove (id : Nat) : (c.remove id).Complete := by
  intro t q e he hid
  obtain ⟨he, hne⟩ := mem_remove hwf he
  have hindex := h t q e he hid
  have hother : e.2.id ≠ id := by
    rintro rfl
    exact hne hindex
  unfold QueueBook.remove
  split
  · exact hindex
  · simp only [OrderBook.eraseIndex, Function.update_of_ne hother]
    exact hindex

theorem not_rests_remove {id : Nat} (hid : id ≠ anonymous) : ¬ (c.remove id).Rests id := by
  rintro ⟨t, q, e, he, rfl⟩
  obtain ⟨he, hne⟩ := mem_remove hwf he
  exact hne (h t q e he hid)

end Complete

/-- After a sweep that leaves a remainder every order still on the opposite side is
beyond the limit. -/
theorem not_crosses_of_leftover {c : QueueBook} (hwf : c.WellFormed) {s : Side} {price : Nat}
    {v : Int} (hleft : 0 < sweepLeftover s price v (c.side (opposed s))) {p : Nat} {e : Entry}
    (he : e ∈ (sweep s price c v (c.side (opposed s))).queue (opposed s) p) :
    ¬ OrderBook.crosses s price p = true := by
  have hladder := hwf.ladder (opposed s)
  rw [sweepLeftover_eq s price hladder.nonempty] at hleft
  rw [← mem_resting (hwf.sweep s price v _).ladder, resting_sweep s price hladder.nonempty v rfl,
    remaining_eq_nil_of_leftover_pos hleft, List.nil_append, beyond_eq_filter hladder] at he
  simpa using (List.mem_filter.mp he).2

/-- The volume resting opposite at prices a limit crosses. -/
def crossingVolume (c : QueueBook) (s : Side) (price : Nat) : Int :=
  total (crossing s price (c.resting (opposed s)))

/-- What a sweep leaves of a volume. -/
theorem sweepLeftover_eq_max {c : QueueBook} (hwf : c.WellFormed) (s : Side) (price : Nat) {v : Int}
    (hv : 0 ≤ v) : sweepLeftover s price v (c.side (opposed s)) =
      max 0 (v - c.crossingVolume s price) := by
  rw [sweepLeftover_eq s price (hwf.ladder (opposed s)).nonempty, ← resting,
    leftover_eq hv (positive_of_mem_crossing hwf s price), crossingVolume]

theorem sweepLeftover_pos {c : QueueBook} (hwf : c.WellFormed) (s : Side) (price : Nat) {v : Int}
    (hv : 0 ≤ v) : 0 < sweepLeftover s price v (c.side (opposed s)) ↔
      c.crossingVolume s price < v := by
  rw [sweepLeftover_eq_max hwf s price hv]
  omega

end QueueBook

/-- An order placed under an identifier that still rests is only left to rest when
all orders of that identifier are among those it fills. -/
def OrderBook.ReplacesFilled (b : OrderBook) : Command → Prop
  | .placeOrder o =>
      o.id ≠ anonymous → o.type ≠ .immediateOrCancel → o.type ≠ .fillOrKill →
      total ((b.resting (opposed o.side)).filter
        fun x => OrderBook.crosses o.side o.price x.1) < o.volume →
      ∀ s, ∀ x ∈ b.resting s, x.2.2.id = o.id →
        s = opposed o.side ∧ OrderBook.crosses o.side o.price x.1 = true
  | _ => True

instance (b : OrderBook) : DecidablePred b.ReplacesFilled
  | .placeOrder _ => inferInstanceAs (Decidable (_ → _ → _ → _ → ∀ s, ∀ x ∈ b.resting s, _))
  | .cancelOrder _ | .addOrder .. | .deleteOrder .. | .setLevel .. => .isTrue trivial

def Command.places (id : Nat) : Command → Prop
  | .placeOrder o => o.id = id
  | _ => False

namespace QueueBook

theorem Complete.exec {b : OrderBook} {c c' : QueueBook} {cmd : Command} {trades : List Trade}
    (h : c.Complete) (hrep : Represents b c) (hwf : c.WellFormed)
    (hallow : Flow.orders.Allows cmd) (hreplace : b.ReplacesFilled cmd)
    (hexec : c.exec cmd = some (c', trades)) : c'.Complete := by
  cases cmd with
  | placeOrder o =>
      rcases place_outcome hexec with ⟨-, rfl, -⟩ | ⟨-, -, rfl, -⟩ |
        ⟨hv, -, -, ⟨hleft, hgtc, hpush⟩ | ⟨-, rfl⟩⟩
      · exact h
      · exact h
      · refine (h.sweep hwf _ _ _ _).push (hwf.sweep _ _ _ _) hpush fun hid => ?_
        rintro ⟨s, p, e, he, heid⟩
        obtain ⟨e', he', htag⟩ := mem_sweep hwf he
        have heid' : e'.2.id = o.id := (congrArg Prod.snd htag).trans heid
        have hvolume := (sweepLeftover_pos hwf _ _ (Int.le_of_lt hv)).mp hleft
        rw [crossingVolume, resting, crossing_eq_filter (hwf.ladder _), ← resting,
          ← hrep.resting_eq hwf] at hvolume
        have hmem : (p, e') ∈ b.resting s := by
          rw [hrep.resting_eq hwf]
          exact (mem_resting hwf.ladder).mpr he'
        obtain ⟨rfl, hcross⟩ := hreplace hid (by simp [hgtc]) (by simp [hgtc]) hvolume s (p, e') hmem
          heid'
        exact not_crosses_of_leftover hwf hleft he hcross
      · exact h.sweep hwf _ _ _ _
  | cancelOrder id =>
      cases hexec
      exact h.remove hwf id
  | addOrder s p v =>
      rcases add_cases (exec_addOrder hexec).1 with ⟨-, rfl⟩ | ⟨-, hpush⟩
      · exact h
      · exact h.push hwf hpush fun hid => absurd rfl hid
  | deleteOrder s p v =>
      cases hexec
      exact h.drain hwf s p v
  | setLevel s p v => exact hallow.elim

/-- An identifier only comes onto the book by being placed, and only trades while
it is there. -/
theorem rests_of_exec {c c' : QueueBook} {cmd : Command} {trades : List Trade} {id : Nat}
    (hwf : c.WellFormed) (hallow : Flow.orders.Allows cmd) (hid : id ≠ anonymous)
    (hplaces : ¬ cmd.places id) (hrests : ¬ c.Rests id) (hexec : c.exec cmd = some (c', trades)) :
    ¬ c'.Rests id ∧ ∀ t ∈ trades, t.resting ≠ id := by
  have hswept : ∀ s price v l, ¬ (sweep s price c v l).Rests id := by
    rintro s price v l ⟨t, q, e, he, heid⟩
    obtain ⟨e', he', htag⟩ := mem_sweep hwf he
    exact hrests ⟨t, q, e', he', (congrArg Prod.snd htag).trans heid⟩
  cases cmd with
  | placeOrder o =>
      have htrades : ∀ t ∈ (sweepFills o.side o.price o.volume (c.side (opposed o.side))).map
          (tradeOf o.id), t.resting ≠ id := by
        rw [sweepFills_eq o.side o.price (hwf.ladder (opposed o.side)).nonempty, List.map_map]
        intro t ht
        obtain ⟨x, hx, rfl⟩ := List.mem_map.mp ht
        have hx := (List.takeWhile_sublist _).subset (mem_of_mem_fills hx)
        rintro rfl
        exact hrests ⟨_, _, _, (mem_resting hwf.ladder).mp hx, rfl⟩
      rcases place_outcome hexec with ⟨-, rfl, rfl⟩ | ⟨-, -, rfl, rfl⟩ |
        ⟨-, -, rfl, ⟨-, -, hpush⟩ | ⟨-, rfl⟩⟩
      · exact ⟨hrests, by simp⟩
      · exact ⟨hrests, by simp⟩
      · refine ⟨?_, htrades⟩
        rintro ⟨t, q, e, he, heid⟩
        rcases mem_push (hwf.sweep _ _ _ _) hpush he with he | ⟨heq, _⟩
        · exact hswept _ _ _ _ ⟨t, q, e, he, heid⟩
        · exact hplaces (heq.symm.trans heid)
      · exact ⟨hswept _ _ _ _, htrades⟩
  | cancelOrder id' =>
      cases hexec
      refine ⟨?_, by simp⟩
      rintro ⟨t, q, e, he, heid⟩
      exact hrests ⟨t, q, e, (mem_remove hwf he).1, heid⟩
  | addOrder s p v =>
      obtain ⟨hadd, rfl⟩ := exec_addOrder hexec
      refine ⟨?_, by simp⟩
      rcases add_cases hadd with ⟨-, rfl⟩ | ⟨-, hpush⟩
      · exact hrests
      · rintro ⟨t, q, e, he, heid⟩
        rcases mem_push hwf hpush he with he | ⟨heq, _⟩
        · exact hrests ⟨t, q, e, he, heid⟩
        · exact hid (heid.symm.trans heq)
  | deleteOrder s p v =>
      cases hexec
      refine ⟨?_, by simp⟩
      rintro ⟨t, q, e, he, heid⟩
      obtain ⟨e', he', htag⟩ := mem_drain hwf he
      exact hrests ⟨t, q, e', he', (congrArg Prod.snd htag).trans heid⟩
  | setLevel s p v => exact hallow.elim

end QueueBook

namespace OrderBook

/-- Once no order of an identifier rests, none trades until it is placed again. -/
theorem no_trade_of_not_rests {b b' : OrderBook} {c : QueueBook} {id : Nat}
    (hrep : Represents b c) (hwf : c.WellFormed) (hid : id ≠ anonymous) (hrests : ¬ c.Rests id)
    {cmds : List Command} {outs : List (List Trade)}
    (hruns : Runs exec (fun _ cmd => Flow.orders.Allows cmd ∧ ¬ cmd.places id) b cmds outs b') :
    ∀ trades ∈ outs, ∀ t ∈ trades, t.resting ≠ id := by
  refine hruns.forall_outputs
    (I := fun b => ∃ c, Represents b c ∧ c.WellFormed ∧ ¬ c.Rests id) ?_ ⟨c, hrep, hwf, hrests⟩
  rintro b b' cmd trades ⟨c, hrep, hwf, hrests⟩ ⟨hallow, hplaces⟩ hexec
  obtain ⟨c', hexec', hrep'⟩ := exec_some hrep hwf hallow hexec
  obtain ⟨hrests', htrades⟩ :=
    QueueBook.rests_of_exec hwf hallow hid hplaces hrests hexec'
  have hsound : Flow.orders.Sound c := ⟨hwf, by simp⟩
  exact ⟨⟨c', hrep', (hsound.exec hallow hexec').wellFormed, hrests'⟩, htrades⟩

/-- Every identified resting order can be cancelled, in every state of every run
in which an identifier that still rests is only left to rest again by an order
that fills all its bearers: the index finds every identified order, and after a
cancellation no order of the identifier rests or trades until it is placed anew. -/
theorem cancelOrder_complete {capacity : Nat} {b : OrderBook}
    (h : Reachable exec (fun b cmd => Flow.orders.Allows cmd ∧ b.ReplacesFilled cmd)
      (OrderBook.empty capacity) b) :
    (∀ s, ∀ x ∈ b.resting s, x.2.2.id ≠ anonymous →
      b.index x.2.2.id = some ⟨s, x.1, x.2.1⟩) ∧
    ∀ id, id ≠ anonymous → ∃ b', b.cancelOrder id = some b' ∧
      (∀ s, ∀ x ∈ b'.resting s, x.2.2.id ≠ id) ∧
      ∀ cmds outs b'',
        Runs exec (fun _ cmd => Flow.orders.Allows cmd ∧ ¬ cmd.places id) b' cmds outs b'' →
        ∀ trades ∈ outs, ∀ t ∈ trades, t.resting ≠ id := by
  have hinv : ∃ c, Represents b c ∧ c.WellFormed ∧ c.Complete := by
    refine Reachable.invariant
      (I := fun b => ∃ c, Represents b c ∧ c.WellFormed ∧ c.Complete) ?_ h ?_
    · rintro b b' cmd trades ⟨c, hrep, hwf, hcomplete⟩ ⟨hallow, hreplace⟩ hexec
      obtain ⟨c', hexec', hrep'⟩ := exec_some hrep hwf hallow hexec
      have hsound : Flow.orders.Sound c := ⟨hwf, by simp⟩
      exact ⟨c', hrep', (hsound.exec hallow hexec').wellFormed,
        hcomplete.exec hrep hwf hallow hreplace hexec'⟩
    · exact ⟨_, empty_represents capacity, QueueBook.empty_wellFormed capacity,
        fun _ _ _ he => by cases he⟩
  obtain ⟨c, hrep, hwf, hcomplete⟩ := hinv
  refine ⟨?_, fun id hid => ?_⟩
  · rintro s ⟨p, e⟩ hx hid
    rw [hrep.resting_eq hwf] at hx
    rw [hrep.index]
    exact hcomplete s p e ((QueueBook.mem_resting hwf.ladder).mp hx) hid
  · obtain ⟨b', hcancel, hrep'⟩ := cancelOrder_represents hrep hwf id
    have hwf' := hwf.remove id
    have hgone := hcomplete.not_rests_remove hwf hid
    refine ⟨b', hcancel, ?_, fun cmds outs b'' hruns =>
      no_trade_of_not_rests hrep' hwf' hid hgone hruns⟩
    rintro s ⟨p, e⟩ hx heid
    rw [hrep'.resting_eq hwf'] at hx
    exact hgone ⟨s, p, e, (QueueBook.mem_resting hwf'.ladder).mp hx, heid⟩

/-- A buyer fills `7` and part of `8`; `7` is placed again, in a slot that was freed, and
canceled between its neighbours. -/
theorem cancelOrder_complete_refilled : ∃ b : OrderBook,
    b.chainAt .ask 101 = [(2, ⟨8, 3⟩), (1, ⟨7, 6⟩), (0, ⟨anonymous, 5⟩)] ∧
    ∃ b', b.cancelOrder 7 = some b' ∧
      b'.chainAt .ask 101 = [(2, ⟨8, 3⟩), (0, ⟨anonymous, 5⟩)] ∧
      ∀ s, ∀ x ∈ b'.resting s, x.2.2.id ≠ 7 := by
  have hend : (run (guarded exec fun b cmd => Flow.orders.Allows cmd ∧ b.ReplacesFilled cmd)
      (OrderBook.empty 5)
      [.addOrder .ask 101 2, .placeOrder ⟨7, .ask, 101, 3, .goodTillCanceled⟩,
        .placeOrder ⟨8, .ask, 101, 4, .goodTillCanceled⟩,
        .placeOrder ⟨9, .bid, 101, 6, .goodTillCanceled⟩,
        .placeOrder ⟨7, .ask, 101, 6, .goodTillCanceled⟩, .addOrder .ask 101 5]).map
        (fun b => (b.chainAt .ask 101, (b.cancelOrder 7).map fun b' => b'.chainAt .ask 101)) =
      some ([(2, ⟨8, 3⟩), (1, ⟨7, 6⟩), (0, ⟨anonymous, 5⟩)],
        some [(2, ⟨8, 3⟩), (0, ⟨anonymous, 5⟩)]) := by decide +kernel
  obtain ⟨b, hrun, hb⟩ := Option.map_eq_some_iff.mp hend
  obtain ⟨hchain, hremaining⟩ := Prod.mk.inj hb
  obtain ⟨b', hcancel, hgone, -⟩ :=
    (cancelOrder_complete (Reachable.of_guarded _ hrun)).2 7 (by decide)
  rw [hcancel] at hremaining
  exact ⟨b, hchain, b', hcancel, Option.some.inj hremaining, hgone⟩

/-- Placing an identifier again while it rests makes the older order uncancellable:
the entry of the older order is overwritten, and the cancellation removes the newer. -/
theorem cancelOrder_complete_of_reuse_false :
    ¬ ∀ capacity b, Reached .orders capacity b → ∀ id, id ≠ anonymous →
      ∀ b', b.cancelOrder id = some b' → ∀ s, ∀ x ∈ b'.resting s, x.2.2.id ≠ id := by
  intro hclaim
  obtain ⟨b, hreached, hcancelled⟩ : ∃ b, Reached .orders 4 b ∧
      (b.cancelOrder 1).map (fun b' => b'.resting .bid) = some [(100, 0, ⟨1, 5⟩)] :=
    ⟨_, ⟨[.placeOrder ⟨1, .bid, 100, 5, .goodTillCanceled⟩,
        .placeOrder ⟨1, .bid, 100, 5, .goodTillCanceled⟩], _,
      Runs.cons trivial rfl (Runs.cons trivial rfl (Runs.nil _))⟩, by decide +kernel⟩
  obtain ⟨b', hcancel, hresting⟩ := Option.map_eq_some_iff.mp hcancelled
  exact hclaim 4 b hreached 1 (by decide) b' hcancel .bid (100, 0, ⟨1, 5⟩) (by simp [hresting]) rfl

end OrderBook

end ExchangeEngine
