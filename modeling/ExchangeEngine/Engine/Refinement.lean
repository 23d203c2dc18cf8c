import ExchangeEngine.Engine.LevelSearch
import ExchangeEngine.Engine.Simulation

/-!
The order book implements the queue book: from a represented state every
operation runs to its end, without an undefined access or a failed assertion,
into a represented state with the same trades. The only way to fail is to ask the
pool for a slot it does not have, and the queue book fails in the same case.
-/

namespace ExchangeEngine

open Ladder Fifo Chain

/-- The level of a price whose queue may be empty. -/
def levelsOf (p : Nat) : List Entry → List Level
  | [] => []
  | e :: es => [levelOf (p, e :: es)]

theorem map_levelOf_put (p : Nat) (es : List Entry) (l : Rungs Nat Entry) :
    (put p es l).map levelOf = levelsOf p es ++ l.map levelOf := by
  cases es <;> rfl

theorem levelsOf_of_ne {p : Nat} {es : List Entry} (h : es ≠ []) :
    levelsOf p es = [levelOf (p, es)] := by
  cases es with
  | nil => exact absurd rfl h
  | cons e es => rfl

private theorem getElem?_append_length (xs ys : List Level) :
    (xs ++ ys)[xs.length]? = ys.head? := by
  rw [List.getElem?_append_right (Nat.le_refl _), Nat.sub_self, List.head?_eq_getElem?]

private theorem filter_head?_eq_none {ys : List Level} {p : Nat}
    (hys : ∀ lvl ∈ ys.head?, lvl.price ≠ p) :
    ys.head?.filter (fun lvl => lvl.price = p) = none := by
  cases hhead : ys.head? with
  | none => rfl
  | some lvl => simp [hys lvl (by simp [hhead])]

private theorem eraseIdx_append_cons (xs ys : List Level) (a : Level) :
    (xs ++ a :: ys).eraseIdx xs.length = xs ++ ys := by
  simp [List.eraseIdx_append_of_length_le]

private theorem set_append_cons (xs ys : List Level) (a a' : Level) :
    (xs ++ a :: ys).set xs.length a' = xs ++ a' :: ys := by simp

/-- The levels of a side once the one of the price has been made sure to exist. -/
private theorem ensureLevel_eq {p : Nat} {es : List Entry} {levels xs ys : List Level}
    (hlevels : levels = xs ++ (levelsOf p es ++ ys)) (hys : ∀ lvl ∈ ys.head?, lvl.price ≠ p) :
    (if levels[xs.length]?.map Level.price = some p then levels
      else levels.insertIdx xs.length {price := p}) = xs ++ levelOf (p, es) :: ys := by
  subst hlevels
  cases es with
  | nil =>
      simp only [levelsOf, List.nil_append, getElem?_append_length]
      have hmissing : ¬ ys.head?.map Level.price = some p := by
        cases hhead : ys.head? with
        | none => simp
        | some lvl => simpa using hys lvl (by simp [hhead])
      rw [if_neg hmissing, insertIdx_append]
      rfl
  | cons e es =>
      simp only [levelsOf, List.singleton_append, getElem?_append_length, List.head?_cons,
        Option.map_some, levelOf_price, if_true]

private theorem exists_position {s : Side} {l : Rungs Nat Entry}
    (h : Ladder.WellFormed (better s) l) (p : Nat) :
    ∃ xs ys, OrderBook.findLevel (l.map levelOf) s p = some xs.length ∧
      l.map levelOf = xs ++ (levelsOf p (lookup p l) ++ ys) ∧
      (∀ f, (alter (better s) p f l).map levelOf = xs ++ (levelsOf p (f (lookup p l)) ++ ys)) ∧
      ∀ lvl ∈ ys.head?, lvl.price ≠ p := by
  obtain ⟨xs, ys, hl, halter, hxs, hys⟩ := h.exists_split p
  have hlevels : l.map levelOf =
      xs.map levelOf ++ (levelsOf p (lookup p l) ++ ys.map levelOf) := by
    rw [← map_levelOf_put, ← List.map_append, ← hl]
  refine ⟨xs.map levelOf, ys.map levelOf, ?_, hlevels, ?_, ?_⟩
  · rw [hlevels]
    refine OrderBook.findLevel_append ?_ ?_
    · intro lvl hlvl
      obtain ⟨q, hq, rfl⟩ := List.mem_map.mp hlvl
      exact hxs q hq
    · intro lvl hlvl
      rcases List.mem_append.mp hlvl with hlvl | hlvl
      · cases hqueue : lookup p l with
        | nil => simp [hqueue, levelsOf] at hlvl
        | cons e es =>
            simp only [hqueue, levelsOf, List.mem_singleton] at hlvl
            subst hlvl
            exact irrefl_of (better s) p
      · obtain ⟨q, hq, rfl⟩ := List.mem_map.mp hlvl
        exact asymm_of (better s) (hys q hq)
  · intro f
    rw [halter f, List.map_append, map_levelOf_put]
  · intro lvl hlvl
    obtain ⟨q, hq, rfl⟩ := List.mem_map.mp (List.mem_of_mem_head? hlvl)
    exact (ne_of_better (hys q hq)).symm

/-- Storing the level of a shrunken queue back, or erasing it once it is empty. -/
theorem writeBack (xs ys : List Level) (old : Level) (p : Nat) {es : List Entry}
    (hnull : nullIndex ∉ keys es) :
    (if (levelOf (p, es)).head = nullIndex then (xs ++ old :: ys).eraseIdx xs.length
      else (xs ++ old :: ys).set xs.length (levelOf (p, es))) = xs ++ (levelsOf p es ++ ys) := by
  cases es with
  | nil => simp [levelOf, levelsOf, eraseIdx_append_cons]
  | cons e es =>
      have hne : e.1 ≠ nullIndex := fun heq => hnull (by simp [heq])
      simp [levelOf, levelsOf, hne]

namespace Represents

open OrderBook (sideLevels_setSideLevels_of_ne pool_setSideLevels index_setSideLevels)

variable {b : OrderBook} {c : QueueBook}

/-- One queue was rewritten, every other queue kept its cells, and the levels of
the side are stored back. -/
theorem store (h : Represents b c) (hwf : c.WellFormed) (b' : OrderBook)
    (s : Side) (p : Nat) (f : List Entry → List Entry)
    (hlevels : ∀ t, b'.sideLevels t = b.sideLevels t)
    (hlinked : Segment b'.pool.get nullIndex nullIndex (f (c.queue s p)))
    (hframe : ∀ t q, ¬ (t = s ∧ q = p) → ∀ i ∈ keys (c.queue t q), b'.pool.get i = b.pool.get i)
    (hcapacity : b'.pool.capacity = c.capacity) :
    Represents (b'.setSideLevels s ((alter (better s) p f (c.side s)).map levelOf))
      {c.alterQueue s p f with
        index := b'.index, free := b'.pool.freeList, slots := b'.pool.nodes.length} where
  levels t := by
    by_cases ht : t = s
    · subst ht
      simp [QueueBook.alterQueue]
    · rw [sideLevels_setSideLevels_of_ne _ ht, hlevels t, h.levels t]
      simp [QueueBook.alterQueue, ht]
  linked t q := by
    have hqueue := QueueBook.queue_alterQueue hwf.ladder s p f t q
    change Segment (b'.setSideLevels s _).pool.get nullIndex nullIndex
      ((c.alterQueue s p f).queue t q)
    rw [pool_setSideLevels, hqueue]
    split
    · exact hlinked
    · rename_i hne
      exact (h.linked t q).frame (hframe t q hne)
  index := index_setSideLevels _ _ _
  freeList := by rw [pool_setSideLevels]
  length := by rw [pool_setSideLevels]
  capacity := by rw [pool_setSideLevels, hcapacity]; rfl

/-- Cells outside one queue survive what is written to that queue. -/
theorem frame_of_touched (hwf : c.WellFormed) {b' : OrderBook} {s : Side} {p : Nat}
    (hframe : ∀ i, i ∉ keys (c.queue s p) → b'.pool.get i = b.pool.get i) :
    ∀ t q, ¬ (t = s ∧ q = p) → ∀ i ∈ keys (c.queue t q), b'.pool.get i = b.pool.get i :=
  fun _ _ hne i hi => hframe i (hwf.disjoint hne hi)

/-- Where `find_level` puts a price among the levels of a side: behind the better
prices, at its own level if it has one. -/
theorem locate (h : Represents b c) (hwf : c.WellFormed) (s : Side) (p : Nat) :
    ∃ xs ys, OrderBook.findLevel (b.sideLevels s) s p = some xs.length ∧
      b.sideLevels s = xs ++ (levelsOf p (c.queue s p) ++ ys) ∧
      (∀ f, (alter (better s) p f (c.side s)).map levelOf =
        xs ++ (levelsOf p (f (c.queue s p)) ++ ys)) ∧
      ∀ lvl ∈ ys.head?, lvl.price ≠ p := by
  rw [h.levels s]
  exact exists_position (hwf.ladder s) p

theorem fuel (h : Represents b c) (hwf : c.WellFormed) (s : Side) (p : Nat) :
    (c.queue s p).length < b.pool.nodes.length + 1 := by
  have hle := hwf.queue_length_le s p
  rw [h.length]
  omega

end Represents

theorem QueueBook.alterQueue_eq_self {c : QueueBook} (hwf : c.WellFormed) {s : Side} {p : Nat}
    {f : List Entry → List Entry} (hf : f (c.queue s p) = c.queue s p) :
    c.alterQueue s p f = c := by
  have hsame := (hwf.ladder s).alter_eq_self hf
  simp only [QueueBook.alterQueue, hsame, Function.update_eq_self]

theorem QueueBook.drain_of_nil {c : QueueBook} (hwf : c.WellFormed) {s : Side} {p : Nat} {v : Int}
    (hqueue : c.queue s p = []) : c.drain s p v = c := by
  unfold QueueBook.drain
  rw [hqueue]
  exact QueueBook.alterQueue_eq_self (c := c) hwf (by rw [hqueue]; rfl)

theorem QueueBook.cachedTotal_remaining (v : Int) (es : List Entry) :
    wrap64 (total es - taken v es) = QueueBook.cachedTotal (remaining v es) := by
  rw [QueueBook.cachedTotal, ← total_remaining_add_taken v es, Int.add_sub_cancel]

theorem null_notMem_remaining {es : List Entry} (hnull : nullIndex ∉ keys es) (v : Int) :
    nullIndex ∉ keys (remaining v es) := by
  rw [← QueueBook.keys_popped_append_keys_remaining v es] at hnull
  exact fun hmem => hnull (List.mem_append_right _ hmem)

namespace OrderBook

variable {b : OrderBook} {c : QueueBook}

/-- The drain loop on the level of a price, and the write-back of that level. -/
theorem drainLevel_represents (h : Represents b c) (hwf : c.WellFormed)
    (emit : RestingOrder → Int → List Trade) (s : Side) (p : Nat) (v : Int)
    (trades : List Trade) :
    ∃ b', drainLevel emit (b.pool.nodes.length + 1) b (levelOf (p, c.queue s p)) v trades =
        some (b', levelOf (p, remaining v (c.queue s p)), leftover v (c.queue s p),
          trades ++ (fills v (c.queue s p)).flatMap fun fill => emit fill.1.2 fill.2) ∧
      Represents (b'.setSideLevels s ((alter (better s) p (remaining v) (c.side s)).map levelOf))
        (c.drain s p v) := by
  obtain ⟨b', hloop, hseg, hstep⟩ := drainLevel_eq emit (levelOf (p, c.queue s p))
    (total (c.queue s p)) v trades (h.linked s p) (hwf.keys_nodup s p) (hwf.null_notMem s p) rfl rfl
    rfl (h.fuel hwf s p)
  refine ⟨b', ?_, ?_⟩
  · rw [hloop, QueueBook.cachedTotal_remaining]
    rfl
  · have hstore := h.store hwf b' s p (remaining v) hstep.levels hseg
      (Represents.frame_of_touched hwf hstep.frame) (hstep.capacity.trans h.capacity)
    rw [hstep.index, hstep.freeList, hstep.length, h.index, h.freeList, h.length] at hstore
    exact hstore

theorem deleteOrder_represents (h : Represents b c) (hwf : c.WellFormed)
    (s : Side) (p : Nat) (v : Int) :
    ∃ b', b.deleteOrder s p v = some b' ∧ Represents b' (c.drain s p v) := by
  obtain ⟨xs, ys, hfind, hlevels, halter, hys⟩ := h.locate hwf s p
  cases hqueue : c.queue s p with
  | nil =>
      refine ⟨b, ?_, (QueueBook.drain_of_nil hwf hqueue).symm ▸ h⟩
      rw [hqueue] at hlevels
      simp only [deleteOrder, hfind, Option.bind_eq_bind, Option.bind_some]
      simp only [hlevels, levelsOf, List.nil_append, getElem?_append_length]
      cases hhead : ys.head? with
      | none => rfl
      | some lvl => simp [hys lvl (by simp [hhead])]
  | cons e es =>
      have hne : c.queue s p ≠ [] := by simp [hqueue]
      rw [levelsOf_of_ne hne, List.singleton_append] at hlevels
      obtain ⟨b', hloop, hrep⟩ := drainLevel_represents h hwf (fun _ _ => []) s p v []
      have hback := writeBack xs ys (levelOf (p, c.queue s p)) p
        (null_notMem_remaining (hwf.null_notMem s p) v)
      rw [← halter (remaining v)] at hback
      refine ⟨_, ?_, hback.symm ▸ hrep⟩
      simp only [deleteOrder, hfind, Option.bind_eq_bind, Option.bind_some]
      simp only [hlevels, getElem?_append_length, List.head?_cons, levelOf_price, hloop,
        Option.bind_some, ne_eq, not_true_eq_false, if_false]
      split <;> rfl

theorem cancelOrder_represents (h : Represents b c) (hwf : c.WellFormed) (id : Nat) :
    ∃ b', b.cancelOrder id = some b' ∧ Represents b' (c.remove id) := by
  cases hloc : c.index id with
  | none =>
      refine ⟨b, ?_, ?_⟩
      · simp only [cancelOrder, h.index, hloc]
      · rwa [QueueBook.remove_of_not_indexed hloc]
  | some loc =>
      obtain ⟨s, p, node⟩ := loc
      obtain ⟨zs, v, ws, hsplit, hfilter⟩ := hwf.exists_split_of_index hloc
      simp only at hsplit hfilter
      obtain ⟨xs, ys, hfind, hlevels, halter, _⟩ := h.locate hwf s p
      have hne : c.queue s p ≠ [] := by simp [hsplit]
      rw [levelsOf_of_ne hne, List.singleton_append] at hlevels
      have hseg := h.linked s p
      have hnodup := hwf.keys_nodup s p
      have hnull := hwf.null_notMem s p
      rw [hsplit] at hseg hnodup hnull
      obtain ⟨pool, hunlink, hget, hfree, hlength, hcapacity⟩ :=
        unlink_eq (levelOf (p, c.queue s p)) hseg hnodup hnull
          (congrArg (first nullIndex) hsplit) (congrArg (last nullIndex) hsplit)
      have hcell : b.pool.get node = some ⟨⟨id, v⟩, first nullIndex ws, last nullIndex zs⟩ :=
        ((segment_append _ _ _ zs ((node, ⟨id, v⟩) :: ws)).mp hseg).2.1
      have hlvl : (⟨p, wrap64 (QueueBook.cachedTotal (c.queue s p) - v),
          first nullIndex (zs ++ ws), last nullIndex (zs ++ ws)⟩ : Level) =
          levelOf (p, zs ++ ws) := by
        have htotal : total (c.queue s p) - v = total (zs ++ ws) := by
          simp only [hsplit, total_append, total_cons, Portion.quantity]
          omega
        simp only [levelOf, QueueBook.cachedTotal, wrap64_wrap64_sub, htotal]
      have hkeys : ∀ i ∈ keys (zs ++ ws), i ∈ keys (c.queue s p) := by
        intro i hi
        simp only [hsplit, keys, List.map_append, List.map_cons, List.mem_append,
          List.mem_cons] at hi ⊢
        tauto
      have hback := writeBack xs ys (levelOf (p, c.queue s p)) p
        (fun hmem => hwf.null_notMem s p (hkeys _ hmem) : nullIndex ∉ keys (zs ++ ws))
      rw [← hfilter, ← halter (·.filter (·.1 ≠ node)), hfilter] at hback
      have hother : ∀ t q, ¬ (t = s ∧ q = p) → ∀ i ∈ keys (c.queue t q),
          splice b.pool.get nullIndex (last nullIndex zs) (first nullIndex ws) i =
            b.pool.get i := by
        intro t q hother i hi
        have hkeep : ∀ j, j = nullIndex ∨ j ∈ keys (c.queue s p) → i ≠ j := by
          rintro j (rfl | hj) rfl
          · exact hwf.null_notMem t q hi
          · exact hwf.disjoint hother hi hj
        refine splice_of_ne _ _ _ _ (hkeep _ ?_) (hkeep _ ?_)
        · refine (last_eq_or_mem _ _).imp_right fun hmem => hkeys _ ?_
          simpa using Or.inl (List.mem_map.mp hmem)
        · refine (first_eq_or_mem _ _).imp_right fun hmem => hkeys _ ?_
          simpa using Or.inr (List.mem_map.mp hmem)
      let b₁ : OrderBook :=
        {b with pool := pool.deallocate node, index := eraseIndex b.index id}
      have hstore := h.store hwf b₁ s p (·.filter (·.1 ≠ node))
        (fun t => by cases t <;> rfl)
        (by
          rw [hfilter]
          simpa [b₁, hget] using hseg.splice_out hnodup hnull)
        (by simpa [b₁, hget] using hother) (hcapacity.trans h.capacity)
      refine ⟨b₁.setSideLevels s
          ((alter (better s) p (·.filter (·.1 ≠ node)) (c.side s)).map levelOf), ?_, ?_⟩
      · simp only [cancelOrder, h.index, hloc, hfind, Option.bind_eq_bind, Option.bind_some]
        simp only [hlevels, getElem?_append_length, List.head?_cons, Option.bind_some,
          levelOf_price, ne_eq, not_true_eq_false, if_false, hcell, hunlink]
        rw [← hback]
        simp only [levelOf] at hlvl ⊢
        simp only [hlvl, b₁, h.index]
        rfl
      · have hremove : c.remove id = {c.alterQueue s p (·.filter (·.1 ≠ node)) with
            index := b₁.index
            free := b₁.pool.freeList
            slots := b₁.pool.nodes.length} := by
          simp only [QueueBook.remove, hloc, b₁, h.index, ObjectPool.freeList_deallocate, hfree,
            h.freeList, ObjectPool.nodes_deallocate, hlength, h.length]
          rfl
        rw [hremove]
        exact hstore

/-- The slot an allocation takes is in no queue. -/
theorem nextSlot_notMem (hwf : c.WellFormed) {node : Int} {free : List Int} {slots : Nat}
    (hslot : ObjectPool.nextSlot c.free c.slots c.capacity = some (node, free, slots))
    (s : Side) (p : Nat) : node ∉ keys (c.queue s p) := by
  rcases ObjectPool.nextSlot_cases hslot with ⟨hfree, -⟩ | ⟨-, -, -, rfl, -⟩
  · exact hwf.free_notMem (by simp [hfree]) s p
  · intro hmem
    have hrange := hwf.range_of_mem hmem
    omega

/-- The old tail of a queue is linked to a new node, and the node back to it. -/
private theorem linkBehind_eq {pool : ObjectPool RestingOrder} {init : List Entry} {i node : Int}
    {a new : RestingOrder} (hseg : Segment pool.get nullIndex nullIndex (init ++ [(i, a)]))
    (hnodup : (keys (init ++ [(i, a)])).Nodup) (hnode : pool.get node = some (Node.unlinked new))
    (hnew : node ∉ keys (init ++ [(i, a)])) :
    pool.get i = some ⟨a, nullIndex, last nullIndex init⟩ ∧
      (pool.set i ⟨a, node, last nullIndex init⟩).get node = some (Node.unlinked new) ∧
      Segment ((pool.set i ⟨a, node, last nullIndex init⟩).set node ⟨new, nullIndex, i⟩).get
        nullIndex nullIndex (init ++ [(i, a)] ++ [(node, new)]) ∧
      ∀ j, j ≠ i → j ≠ node →
        ((pool.set i ⟨a, node, last nullIndex init⟩).set node ⟨new, nullIndex, i⟩).get j =
          pool.get j := by
  have hinit : i ∉ keys init := by
    intro hmem
    simp only [keys, List.map_append, List.nodup_append] at hnodup
    exact hnodup.2.2 i hmem i (by simp) rfl
  have hne : i ≠ node := fun heq => hnew (by simp [heq])
  have hcell : pool.get i = some ⟨a, nullIndex, last nullIndex init⟩ :=
    ((segment_append _ _ _ init [(i, a)]).mp hseg).2.1
  have hlink := ObjectPool.get_set hcell ⟨a, node, last nullIndex init⟩
  have hfresh : (pool.set i ⟨a, node, last nullIndex init⟩).get node =
      some (Node.unlinked new) := by
    rw [hlink, Function.update_of_ne hne.symm, hnode]
  have hback := ObjectPool.get_set hfresh ⟨new, nullIndex, i⟩
  refine ⟨hcell, hfresh, ?_, fun j hj hj_node => ?_⟩
  · rw [hback, hlink]
    exact hseg.push_back hinit hnew
  · rw [hback, hlink, Function.update_of_ne hj_node, Function.update_of_ne hj]

private theorem rest_some (h : Represents b c) (hwf : c.WellFormed) {s : Side} {p id : Nat}
    {v : Int} {c' : QueueBook} (hpush : c.push s p id v = some c') :
    ∃ b', b.rest id s p v = some b' ∧ Represents b' c' := by
  obtain ⟨⟨node, free, slots⟩, hslot, rfl⟩ := Option.map_eq_some_iff.mp hpush
  have hnew := nextSlot_notMem hwf hslot
  rw [← h.freeList, ← h.length, ← h.capacity] at hslot
  obtain ⟨pool, hallocate, hpool⟩ := ObjectPool.allocate_some (p := b.pool) ⟨id, v⟩
    (fun i hi => (ObjectPool.get_isSome_iff _ _).mpr (by
      rw [h.length]
      exact hwf.range_of_mem_free (h.freeList ▸ hi))) hslot
  obtain ⟨xs, ys, hfind, hlevels, halter, hys⟩ := h.locate hwf s p
  have hinsert := ensureLevel_eq hlevels hys
  have hpushed : levelOf (p, c.queue s p ++ [(node, ⟨id, v⟩)]) =
      ⟨p, wrap64 (QueueBook.cachedTotal (c.queue s p) + v), first node (c.queue s p), node⟩ := by
    simp [levelOf, QueueBook.cachedTotal, first_append, Portion.quantity]
  let index :=
    if id ≠ anonymous then Function.update b.index id (some ⟨s, p, node⟩) else b.index
  have hbook : ∀ pool' : ObjectPool RestingOrder, pool'.freeList = free →
      pool'.nodes.length = slots → pool'.capacity = b.pool.capacity →
      Segment pool'.get nullIndex nullIndex (c.queue s p ++ [(node, ⟨id, v⟩)]) →
      (∀ i, i ∉ keys (c.queue s p) → i ≠ node → pool'.get i = b.pool.get i) →
      Represents ({b with pool := pool', index}.setSideLevels s
          (xs ++ levelOf (p, c.queue s p ++ [((node, ⟨id, v⟩) : Entry)]) :: ys))
        {c.alterQueue s p (· ++ [(node, ⟨id, v⟩)]) with
          index :=
            if id ≠ anonymous then Function.update c.index id (some ⟨s, p, node⟩) else c.index
          free
          slots} := by
    intro pool' hfree hlength hcapacity hlinked hframe
    have hstore := h.store hwf {b with pool := pool', index} s p
      (· ++ [(node, ⟨id, v⟩)]) (fun t => by cases t <;> rfl) hlinked
      (fun t q hother i hi => hframe i (hwf.disjoint hother hi)
        (fun heq => hnew t q (heq ▸ hi)))
      (hcapacity.trans h.capacity)
    rw [halter, levelsOf_of_ne (by simp), List.singleton_append] at hstore
    simpa only [index, h.index, hfree, hlength] using hstore
  rcases List.eq_nil_or_concat (c.queue s p) with hqueue | ⟨init, ⟨i, a⟩, hqueue⟩
  · refine ⟨_, ?_, hbook pool hpool.freeList_eq hpool.length_eq hpool.capacity_eq ?_ ?_⟩
    · simp only [rest, hfind, Option.bind_eq_bind, Option.bind_some, hinsert, hallocate,
        getElem?_append_length, List.head?_cons, set_append_cons, hpushed]
      simp [levelOf, index, hqueue]
    · rw [hqueue]
      simp [Segment, hpool.get_eq, Node.unlinked]
    · intro j _ hj
      simp [hpool.get_eq, hj]
  · rw [List.concat_eq_append] at hqueue
    have hseg := h.linked s p
    have hnodup := hwf.keys_nodup s p
    have hin : i ∈ keys (c.queue s p) := by simp [hqueue]
    have hin_null : i ≠ nullIndex := fun heq => hwf.null_notMem s p (heq ▸ hin)
    have hseg₁ : Segment pool.get nullIndex nullIndex (init ++ [(i, a)]) := by
      rw [← hqueue]
      refine hseg.frame fun j hj => ?_
      have hj_node : j ≠ node := fun heq => hnew s p (heq ▸ hj)
      rw [hpool.get_eq, Function.update_of_ne hj_node]
    have hunlinked : pool.get node = some (Node.unlinked ⟨id, v⟩) := by
      rw [hpool.get_eq, Function.update_self]
    obtain ⟨hcell, hfresh, hlinked, hframe⟩ :=
      linkBehind_eq hseg₁ (hqueue ▸ hnodup) hunlinked (hqueue ▸ hnew s p)
    refine ⟨_, ?_, hbook _ (by simpa using hpool.freeList_eq) (by simpa using hpool.length_eq)
      (by simpa using hpool.capacity_eq) (hqueue ▸ hlinked) ?_⟩
    · simp only [rest, hfind, Option.bind_eq_bind, Option.bind_some, hinsert, hallocate,
        getElem?_append_length, List.head?_cons, set_append_cons, hpushed]
      have htail : (levelOf (p, c.queue s p)).tail = i := by simp [levelOf, hqueue]
      have hfirst : (levelOf (p, c.queue s p)).head = first node (c.queue s p) := by
        simp [levelOf, hqueue, first_append]
      simp only [htail, if_neg hin_null, hcell, Option.bind_some, Option.pure_def, hfresh, hfirst]
      rfl
    · intro j hj hj_node
      have hji : j ≠ i := fun heq => hj (heq ▸ hin)
      rw [hframe j hji hj_node, hpool.get_eq, Function.update_of_ne hj_node]

private theorem rest_none (h : Represents b c) (hwf : c.WellFormed) {s : Side} {p id : Nat}
    {v : Int} (hpush : c.push s p id v = none) : b.rest id s p v = none := by
  obtain ⟨xs, _, hfind, _, _, _⟩ := h.locate hwf s p
  have hslot := Option.map_eq_none_iff.mp hpush
  rw [← h.freeList, ← h.length, ← h.capacity] at hslot
  have hallocate : b.pool.allocate ⟨id, v⟩ = none :=
    ObjectPool.allocate_none ⟨id, v⟩ (h.length ▸ hwf.slots_int) hslot
  simp only [rest, hfind, Option.bind_eq_bind, Option.bind_some, hallocate, Option.bind_none]

/-- `rest` appends to a queue; it fails exactly when there is no slot to be had. -/
theorem rest_represents (h : Represents b c) (hwf : c.WellFormed) (s : Side) (p id : Nat)
    (v : Int) : Option.Rel Represents (b.rest id s p v) (c.push s p id v) := by
  cases hpush : c.push s p id v with
  | none =>
      rw [rest_none h hwf hpush]
      exact Option.Rel.none
  | some c' =>
      obtain ⟨b', hrest, hrep⟩ := rest_some h hwf hpush
      rw [hrest]
      exact Option.Rel.some hrep

theorem addOrder_represents (h : Represents b c) (hwf : c.WellFormed) (s : Side) (p : Nat)
    (v : Int) : Option.Rel Represents (b.addOrder s p v) (c.add s p v) := by
  unfold addOrder QueueBook.add
  split
  · exact Option.Rel.some h
  · exact rest_represents h hwf s p anonymous v

/-- The outer loop of `match` sweeps the opposite ladder from its front. -/
theorem matchLevels_represents (id : Nat) (s : Side) (price : Nat) {fuel : Nat} (v : Int)
    (trades : List Trade) {l : Rungs Nat Entry} (h : Represents b c) (hwf : c.WellFormed)
    (hl : c.side (opposed s) = l) (hfuel : l.length < fuel) :
    ∃ b', matchLevels id s price fuel b v trades =
        some (b', QueueBook.sweepLeftover s price v l,
          trades ++ (QueueBook.sweepFills s price v l).map (QueueBook.tradeOf id)) ∧
      Represents b' (QueueBook.sweep s price c v l) := by
  induction l generalizing fuel b c v trades with
  | nil =>
      obtain ⟨fuel, rfl⟩ := Nat.exists_eq_succ_of_ne_zero (Nat.ne_of_gt hfuel)
      have hlevels := h.levels (opposed s)
      rw [hl, List.map_nil] at hlevels
      refine ⟨b, ?_, h⟩
      simp [matchLevels, hlevels, QueueBook.sweepLeftover, QueueBook.sweepFills]
  | cons q l ih =>
      obtain ⟨fuel, rfl⟩ := Nat.exists_eq_succ_of_ne_zero (Nat.ne_of_gt (Nat.zero_lt_of_lt hfuel))
      obtain ⟨p, es⟩ := q
      have hlevels := h.levels (opposed s)
      rw [hl, List.map_cons] at hlevels
      by_cases hgo : 0 < v ∧ crosses s price p = true
      · have hqueue : c.queue (opposed s) p = es := by
          rw [QueueBook.queue, hl]
          exact if_pos rfl
        obtain ⟨b₁, hloop, hrep⟩ := drainLevel_represents h hwf
          (fun r fill => [⟨id, r.id, p, fill⟩]) (opposed s) p v trades
        have hside : alter (better (opposed s)) p (remaining v) (c.side (opposed s)) =
            put p (remaining v es) l := by rw [hl, QueueBook.alter_head]
        have hside' : (c.drain (opposed s) p v).side (opposed s) = put p (remaining v es) l := by
          rw [← hside]
          exact Function.update_self _ _ _
        have hnull := null_notMem_remaining (hqueue ▸ hwf.null_notMem (opposed s) p) v
        rw [hqueue, ← List.map_eq_flatMap] at hloop
        rw [hside] at hrep
        have hback : (if (levelOf (p, remaining v es)).head = nullIndex then l.map levelOf
            else levelOf (p, remaining v es) :: l.map levelOf) =
            (put p (remaining v es) l).map levelOf := by
          cases hrest : remaining v es with
          | nil => rfl
          | cons e es' =>
              have hne : e.1 ≠ nullIndex := fun heq => hnull (by simp [hrest, heq])
              rw [if_neg (by simpa [levelOf] using hne)]
              rfl
        have hstep : matchLevels id s price (fuel + 1) b v trades =
            matchLevels id s price fuel
              (b₁.setSideLevels (opposed s) ((put p (remaining v es) l).map levelOf))
              (leftover v es)
              (trades ++ (fills v es).map fun fill => QueueBook.tradeOf id (p, fill)) := by
          simp only [matchLevels, hlevels, levelOf_price, if_pos hgo, matchLevel, hloop, hback,
            Option.bind_eq_bind, Option.bind_some, QueueBook.tradeOf]
        cases hrest : remaining v es with
        | nil =>
            rw [hrest, put_nil] at hside' hrep hstep
            obtain ⟨b₂, hrun, hrep₂⟩ := ih (leftover v es)
              (trades ++ (fills v es).map fun fill => QueueBook.tradeOf id (p, fill))
              hrep (hwf.drain (opposed s) p v) hside' (by simpa using hfuel)
            refine ⟨b₂, ?_, ?_⟩
            · rw [hstep, hrun]
              simp [QueueBook.sweepLeftover, QueueBook.sweepFills, hgo, Function.comp_def]
            · simpa only [QueueBook.sweep, if_pos hgo] using hrep₂
        | cons e es' =>
            -- something rests on at this level, so nothing is left to match
            have hdone : leftover v es ≤ 0 := leftover_nonpos_of_remaining hrest
            obtain ⟨fuel, rfl⟩ := Nat.exists_eq_succ_of_ne_zero
              (show fuel ≠ 0 by
              rintro rfl
              simp at hfuel)
            rw [hrest] at hrep hstep
            refine ⟨b₁.setSideLevels (opposed s) ((put p (e :: es') l).map levelOf), ?_, ?_⟩
            · rw [hstep]
              simp [matchLevels, put, Int.not_lt.mpr hdone, QueueBook.sweepLeftover,
                QueueBook.sweepFills, hgo, QueueBook.sweepLeftover_of_nonpos s price hdone,
                QueueBook.sweepFills_of_nonpos s price hdone, Function.comp_def]
            · simpa only [QueueBook.sweep, if_pos hgo,
                QueueBook.sweep_of_nonpos s price hdone] using hrep
      · refine ⟨b, ?_, ?_⟩
        · simp [matchLevels, hlevels, QueueBook.sweepLeftover, QueueBook.sweepFills, hgo]
        · simpa [QueueBook.sweep, hgo] using h

/-- The availability check reads the cached totals of the opposite ladder. -/
theorem canFullyFill_eq (s : Side) (price : Nat) (v available : Int) (l : Rungs Nat Entry) :
    canFullyFill s price v available (l.map levelOf) =
      QueueBook.canFill s price v available l := by
  induction l generalizing available with
  | nil => rfl
  | cons q l ih =>
      simp only [List.map_cons, canFullyFill, QueueBook.canFill, levelOf, ← ih]

/-- `match` sweeps the opposite ladder and always returns. -/
theorem matchOrder_represents (h : Represents b c) (hwf : c.WellFormed) (id : Nat) (s : Side)
    (price : Nat) (v : Int) :
    ∃ b', b.matchOrder id s price v =
        some (b', QueueBook.sweepLeftover s price v (c.side (opposed s)),
          (QueueBook.sweepFills s price v (c.side (opposed s))).map (QueueBook.tradeOf id)) ∧
      Represents b' (QueueBook.sweep s price c v (c.side (opposed s))) := by
  have hlength : (b.sideLevels (opposed s)).length = (c.side (opposed s)).length := by
    rw [h.levels, List.length_map]
  rw [matchOrder, hlength]
  exact matchLevels_represents id s price v [] h hwf rfl (Nat.lt_succ_self _)

theorem placeOrder_represents (h : Represents b c) (hwf : c.WellFormed) (o : Order) :
    Option.Rel (fun x y => Represents x.1 y.1 ∧ x.2 = y.2) (b.placeOrder o) (c.place o) := by
  have hcan := canFullyFill_eq o.side o.price o.volume 0 (c.side (opposed o.side))
  rw [← h.levels] at hcan
  obtain ⟨b₁, hmatch, hrep⟩ := matchOrder_represents h hwf o.id o.side o.price o.volume
  simp only [placeOrder, QueueBook.place, hcan]
  split
  · exact Option.Rel.some ⟨h, rfl⟩
  split
  · exact Option.Rel.some ⟨h, rfl⟩
  simp only [hmatch, Option.bind_eq_bind, Option.bind_some]
  split
  · have hrest := rest_represents hrep (hwf.sweep o.side o.price o.volume _) o.side o.price o.id
      (QueueBook.sweepLeftover o.side o.price o.volume (c.side (opposed o.side)))
    revert hrest
    generalize b₁.rest o.id o.side o.price _ = rested
    generalize QueueBook.push _ o.side o.price o.id _ = pushed
    rintro (hrested | _)
    · exact Option.Rel.some ⟨hrested, rfl⟩
    · exact Option.Rel.none
  · exact Option.Rel.some ⟨hrep, rfl⟩

/-- `set_level` with a positive volume on a price without a level. -/
private theorem setLevel_new (h : Represents b c) (hwf : c.WellFormed) {s : Side} {p : Nat}
    {v : Int} (hv : 0 < v) (hint : v ≤ int64Max) (hqueue : c.queue s p = []) :
    Option.Rel Represents (b.setLevel s p v) (c.push s p anonymous v) := by
  obtain ⟨xs, ys, hfind, hlevels, halter, hys⟩ := h.locate hwf s p
  rw [hqueue] at hlevels halter
  have hmissing : (b.sideLevels s)[xs.length]?.filter (fun lvl => lvl.price = p) = none := by
    rw [hlevels, levelsOf, List.nil_append, getElem?_append_length, filter_head?_eq_none hys]
  have hpos : ¬ v ≤ 0 := Int.not_le.mpr hv
  cases hslot : ObjectPool.nextSlot c.free c.slots c.capacity with
  | none =>
      have hnone : ObjectPool.nextSlot b.pool.freeList b.pool.nodes.length b.pool.capacity =
          none := by rw [h.freeList, h.length, h.capacity, hslot]
      have hallocate : b.pool.allocate ⟨anonymous, v⟩ = none :=
        ObjectPool.allocate_none _ (h.length ▸ hwf.slots_int) hnone
      simp only [setLevel, QueueBook.push, hfind, Option.bind_eq_bind, Option.bind_some, hmissing,
        if_neg hpos, hallocate, hslot]
      exact Option.Rel.none
  | some slot =>
      obtain ⟨node, free, slots⟩ := slot
      have hnew := nextSlot_notMem hwf hslot
      rw [← h.freeList, ← h.length, ← h.capacity] at hslot
      obtain ⟨pool, hallocate, hpool⟩ := ObjectPool.allocate_some (p := b.pool) ⟨anonymous, v⟩
        (fun i hi => (ObjectPool.get_isSome_iff _ _).mpr (by
          rw [h.length]
          exact hwf.range_of_mem_free (h.freeList ▸ hi))) hslot
      rw [h.freeList, h.length, h.capacity] at hslot
      have hstore := h.store hwf {b with pool} s p (· ++ [((node, ⟨anonymous, v⟩) : Entry)])
        (fun t => by cases t <;> rfl)
        (by
          rw [hqueue]
          simp [Segment, hpool.get_eq, Node.unlinked])
        (by
          intro t q _ i hi
          have hne : i ≠ node := fun heq => hnew t q (heq ▸ hi)
          simp [hpool.get_eq, hne])
        (hpool.capacity_eq.trans h.capacity)
      have hside : (b.sideLevels s).insertIdx xs.length
          {price := p, totalVolume := v, head := node, tail := node} =
          (alter (better s) p (· ++ [((node, ⟨anonymous, v⟩) : Entry)]) (c.side s)).map levelOf := by
        have hwrap : wrap64 v = v := wrap64_eq (by omega) hint
        rw [halter, hlevels]
        simp [levelsOf, levelOf, QueueBook.cachedTotal, Portion.quantity, hwrap, insertIdx_append]
      simp only [setLevel, QueueBook.push, hfind, Option.bind_eq_bind, Option.bind_some, hmissing,
        if_neg hpos, hallocate, hslot, Option.map_some, hside]
      refine Option.Rel.some ?_
      simpa only [hpool.freeList_eq, hpool.length_eq, h.index, ne_eq, not_true_eq_false,
        if_false] using hstore

/-- `set_level` leaves one aggregate order at a price, or none. -/
theorem setLevel_represents (h : Represents b c) (hwf : c.WellFormed) (s : Side) (p : Nat)
    {v : Int} (hint : v ≤ int64Max) :
    Option.Rel Represents (b.setLevel s p v) (c.assign s p v) := by
  obtain ⟨xs, ys, hfind, hlevels, halter, hys⟩ := h.locate hwf s p
  cases hqueue : c.queue s p with
  | nil =>
      by_cases hv : v ≤ 0
      · have hsame : c.assign s p v = some c := by
          rw [QueueBook.assign, if_pos hv, hqueue]
          exact congrArg some (QueueBook.alterQueue_eq_self hwf (by rw [hqueue]))
        have hmissing : (b.sideLevels s)[xs.length]?.filter (fun lvl => lvl.price = p) = none := by
          rw [hlevels, hqueue, levelsOf, List.nil_append, getElem?_append_length,
            filter_head?_eq_none hys]
        simp only [setLevel, hfind, Option.bind_eq_bind, Option.bind_some, hmissing, if_pos hv,
          hsame]
        exact Option.Rel.some h
      · have hassign : c.assign s p v = c.push s p anonymous v := by
          simp only [QueueBook.assign, if_neg hv, hqueue]
        rw [hassign]
        exact setLevel_new h hwf (Int.not_le.mp hv) hint hqueue
  | cons e es =>
      have hne : c.queue s p ≠ [] := by simp [hqueue]
      rw [levelsOf_of_ne hne, List.singleton_append] at hlevels
      have hhere : (b.sideLevels s)[xs.length]?.filter (fun lvl => lvl.price = p) =
          some (levelOf (p, c.queue s p)) := by
        simp [hlevels]
      have hseg := h.linked s p
      have hnodup := hwf.keys_nodup s p
      have hnull := hwf.null_notMem s p
      by_cases hv : v ≤ 0
      · obtain ⟨b₁, lvl, hpop, hstep⟩ := popAll_eq (levelOf (p, c.queue s p)) hseg hnodup
          hnull rfl rfl (h.fuel hwf s p)
        have hstore := h.store hwf b₁ s p (fun _ => []) hstep.levels trivial
          (Represents.frame_of_touched hwf hstep.frame) (hstep.capacity.trans h.capacity)
        rw [hstep.index, hstep.freeList, hstep.length, h.index, h.freeList, h.length] at hstore
        have hside : (b.sideLevels s).eraseIdx xs.length =
            (alter (better s) p (fun _ => []) (c.side s)).map levelOf := by
          rw [halter, hlevels, eraseIdx_append_cons]
          rfl
        simp only [setLevel, QueueBook.assign, hfind, Option.bind_eq_bind, Option.bind_some, hhere,
          if_pos hv, hpop, hside]
        exact Option.Rel.some hstore
      · rw [hqueue] at hseg hnodup hnull
        obtain ⟨node, r⟩ := e
        have hcell : b.pool.get node = some ⟨r, first nullIndex es, nullIndex⟩ := hseg.1
        let pool : ObjectPool RestingOrder :=
          {b.pool with freeList := (keys es).reverse ++ b.pool.freeList}
        have hfuel := h.fuel hwf s p
        rw [hqueue, List.length_cons] at hfuel
        have htrailing : freeTrailing (b.pool.nodes.length + 1) b.pool (first nullIndex es) =
            some pool := freeTrailing_eq hseg.2
          (fun hmem => hnull (List.mem_cons_of_mem _ hmem)) (by omega)
        have hkept : pool.get node = some ⟨r, first nullIndex es, nullIndex⟩ := hcell
        let pool₁ := pool.set node ⟨{r with volume := v}, nullIndex, nullIndex⟩
        have hpool₁ : pool₁.get = Function.update b.pool.get node
            (some ⟨{r with volume := v}, nullIndex, nullIndex⟩) := ObjectPool.get_set hkept _
        have hstore := h.store hwf {b with pool := pool₁} s p
          (fun _ => [((node, {r with volume := v}) : Entry)])
          (fun t => by cases t <;> rfl)
          (by simp [Segment, hpool₁])
          (Represents.frame_of_touched hwf fun i hi => by
            have hne : i ≠ node := fun heq => hi (by simp [hqueue, heq])
            simp [hpool₁, hne])
          h.capacity
        have hwrap : wrap64 v = v := wrap64_eq (by omega) hint
        have hside : (b.sideLevels s).set xs.length
            ⟨p, v, node, node⟩ =
            (alter (better s) p (fun _ => [((node, {r with volume := v}) : Entry)])
              (c.side s)).map levelOf := by
          rw [halter, hlevels, set_append_cons]
          simp [levelsOf, levelOf, QueueBook.cachedTotal, Portion.quantity, hwrap]
        have hhead : (levelOf (p, (node, r) :: es)).head = node := rfl
        simp only [setLevel, QueueBook.assign, hfind, Option.bind_eq_bind, Option.bind_some, hhere,
          if_neg hv, hqueue, hhead, levelOf_price, hcell, htrailing, hkept, hside]
        refine Option.Rel.some ?_
        have hlength : pool₁.nodes.length = c.slots := by
          simpa [pool₁, pool] using h.length
        have hfree : pool₁.freeList = (keys es).reverse ++ c.free := by
          simp [pool₁, pool, h.freeList]
        rw [hlength, hfree, h.index] at hstore
        rw [h.index]
        exact hstore

/-- An empty order book represents the empty queue book. -/
theorem empty_represents (capacity : Nat) :
    Represents (OrderBook.empty capacity) (QueueBook.empty capacity) where
  levels s := by cases s <;> rfl
  linked _ _ := trivial
  index := rfl
  freeList := rfl
  length := rfl
  capacity := rfl

end OrderBook

end ExchangeEngine
