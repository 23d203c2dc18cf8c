import ExchangeEngine.Engine.QueueInvariants

/-!
The order book represents a queue book: each level caches the price, the wrapped
total and the two ends of one queue, and the pool lays each queue out as a doubly
linked chain. The results here are one specification for each loop and helper of
`order_book.cpp`, stated for a single queue.
-/

namespace ExchangeEngine

open Ladder Fifo Chain

/-- The level that caches a queue. -/
def levelOf (q : Nat × List Entry) : Level :=
  ⟨q.1, QueueBook.cachedTotal q.2, first nullIndex q.2, last nullIndex q.2⟩

@[simp] theorem levelOf_price (q : Nat × List Entry) : (levelOf q).price = q.1 := rfl

structure Represents (b : OrderBook) (c : QueueBook) : Prop where
  levels : ∀ s, b.sideLevels s = (c.side s).map levelOf
  linked : ∀ s p, Segment b.pool.get nullIndex nullIndex (c.queue s p)
  index : b.index = c.index
  freeList : b.pool.freeList = c.free
  length : b.pool.nodes.length = c.slots
  capacity : b.pool.capacity = c.capacity

namespace OrderBook

/-- From `b` to `b'` the orders in `gone` left the pool and the index, only cells
in `touched` were written, and no level vector was stored to. -/
structure PoolStep (b b' : OrderBook) (touched : List Int) (gone : List Entry) : Prop where
  levels : ∀ s, b'.sideLevels s = b.sideLevels s
  index : b'.index = QueueBook.dropIds b.index gone
  freeList : b'.pool.freeList = (keys gone).reverse ++ b.pool.freeList
  length : b'.pool.nodes.length = b.pool.nodes.length
  capacity : b'.pool.capacity = b.pool.capacity
  frame : ∀ i, i ∉ touched → b'.pool.get i = b.pool.get i

theorem PoolStep.refl (b : OrderBook) (touched : List Int) : PoolStep b b touched [] :=
  ⟨fun _ => rfl, rfl, rfl, rfl, rfl, fun _ _ => rfl⟩

theorem PoolStep.trans {b b' b'' : OrderBook} {touched touched' : List Int}
    {gone gone' : List Entry} (h : PoolStep b b' touched gone)
    (h' : PoolStep b' b'' touched' gone') (hsub : touched' ⊆ touched) :
    PoolStep b b'' touched (gone ++ gone') where
  levels s := (h'.levels s).trans (h.levels s)
  index := by rw [h'.index, h.index, QueueBook.dropIds_append]
  freeList := by simp [h'.freeList, h.freeList]
  length := h'.length.trans h.length
  capacity := h'.capacity.trans h.capacity
  frame i hi := (h'.frame i fun hmem => hi (hsub hmem)).trans (h.frame i hi)

/-- `pop_front` on the level of a non-empty queue. -/
theorem popFront_eq {b : OrderBook} (lvl : Level) {e : Entry} {es : List Entry}
    (hseg : Segment b.pool.get nullIndex nullIndex (e :: es))
    (hnodup : (keys (e :: es)).Nodup) (hnull : nullIndex ∉ keys (e :: es))
    (hhead : lvl.head = e.1) (htail : lvl.tail = last nullIndex (e :: es)) :
    ∃ b', b.popFront lvl =
        some (b', {lvl with head := first nullIndex es, tail := last nullIndex es}) ∧
      Segment b'.pool.get nullIndex nullIndex es ∧ PoolStep b b' (keys es) [e] := by
  obtain ⟨node, r⟩ := e
  have hget : b.pool.get node = some ⟨r, first nullIndex es, nullIndex⟩ := hseg.1
  have hdrop : (if r.id ≠ anonymous then eraseIndex b.index r.id else b.index) =
      QueueBook.dropIds b.index [(node, r)] := rfl
  cases es with
  | nil =>
      refine ⟨{b with
        pool := b.pool.deallocate node
        index := QueueBook.dropIds b.index [(node, r)]}, ?_, trivial, ?_⟩
      · rw [← hdrop]
        simp [popFront, hhead, hget]
      · exact ⟨fun s => by cases s <;> rfl, rfl, rfl, rfl, rfl, fun _ _ => rfl⟩
  | cons d es =>
      obtain ⟨next, rnext⟩ := d
      have hnext : b.pool.get next = some ⟨rnext, first nullIndex es, node⟩ := hseg.2.1
      have hne : next ≠ nullIndex := fun heq => hnull (by simp [heq])
      have hfresh : next ∉ keys es := (List.nodup_cons.mp (List.nodup_cons.mp hnodup).2).1
      let pool := b.pool.set next ⟨rnext, first nullIndex es, nullIndex⟩
      have hpool : pool.get = Function.update b.pool.get next
          (some ⟨rnext, first nullIndex es, nullIndex⟩) := ObjectPool.get_set hnext _
      refine ⟨{b with
        pool := pool.deallocate node
        index := QueueBook.dropIds b.index [(node, r)]}, ?_, ?_, ?_⟩
      · rw [← hdrop]
        simp [popFront, hhead, hget, hnext, hne, htail, pool]
      · simpa [hpool] using hseg.2.set_first rnext nullIndex hfresh
      · refine ⟨fun s => by cases s <;> rfl, rfl, rfl, by simp [pool], rfl, ?_⟩
        intro i hi
        have hin : i ≠ next := fun heq => hi (by simp [heq])
        simp [hpool, hin]

/-- Writing a new volume to the head order changes its node only. -/
theorem writeHead_eq {b : OrderBook} {node : Int} {r : RestingOrder} {es : List Entry}
    (hseg : Segment b.pool.get nullIndex nullIndex ((node, r) :: es)) (hfresh : node ∉ keys es)
    (left : RestingOrder) {b' : OrderBook}
    (hwrite : b' = {b with pool := b.pool.set node ⟨left, first nullIndex es, nullIndex⟩}) :
    Segment b'.pool.get nullIndex nullIndex ((node, left) :: es) ∧
      PoolStep b b' (keys ((node, r) :: es)) [] := by
  subst hwrite
  have hpool := ObjectPool.get_set hseg.1 ⟨left, first nullIndex es, nullIndex⟩
  constructor
  · rw [hpool]
    exact hseg.set_first _ _ hfresh
  · refine ⟨fun s => by cases s <;> rfl, rfl, rfl, by simp, rfl, ?_⟩
    intro i hi
    have hin : i ≠ node := fun heq => hi (by simp [heq])
    simp [hpool, hin]

/-- The shared loop of `match` and `delete_order` takes `v` from a queue exactly
as a FIFO draw does, and one round more than the queue is long is enough. -/
theorem drainLevel_eq (emit : RestingOrder → Int → List Trade) {fuel : Nat} {b : OrderBook}
    (lvl : Level) {es : List Entry} (sum v : Int) (trades : List Trade)
    (hseg : Segment b.pool.get nullIndex nullIndex es)
    (hnodup : (keys es).Nodup) (hnull : nullIndex ∉ keys es)
    (hhead : lvl.head = first nullIndex es) (htail : lvl.tail = last nullIndex es)
    (htotal : lvl.totalVolume = wrap64 sum) (hfuel : es.length < fuel) :
    ∃ b', drainLevel emit fuel b lvl v trades =
        some (b', ⟨lvl.price, wrap64 (sum - taken v es), first nullIndex (remaining v es),
            last nullIndex (remaining v es)⟩, leftover v es,
          trades ++ (fills v es).flatMap fun fill => emit fill.1.2 fill.2) ∧
      Segment b'.pool.get nullIndex nullIndex (remaining v es) ∧
      PoolStep b b' (keys es) (popped v es) := by
  induction es generalizing fuel b lvl sum v trades with
  | nil =>
      obtain ⟨fuel, rfl⟩ := Nat.exists_eq_succ_of_ne_zero (Nat.ne_of_gt hfuel)
      have hstop : ¬ (0 < v ∧ lvl.head ≠ nullIndex) := by simp [hhead]
      refine ⟨b, ?_, trivial, PoolStep.refl b _⟩
      obtain ⟨price, total, head, tail⟩ := lvl
      simp_all [drainLevel, remaining, leftover, fills, taken]
  | cons e es ih =>
      obtain ⟨fuel, rfl⟩ := Nat.exists_eq_succ_of_ne_zero (Nat.ne_of_gt (Nat.zero_lt_of_lt hfuel))
      obtain ⟨node, r⟩ := e
      obtain ⟨price, total, head, tail⟩ := lvl
      have hne : node ≠ nullIndex := fun heq => hnull (by simp [heq])
      have hfresh : node ∉ keys es := (List.nodup_cons.mp hnodup).1
      simp only [first_cons] at hhead htail htotal
      replace hhead := hhead.symm
      subst hhead htail htotal
      by_cases hv : 0 < v
      · have hgo : 0 < v ∧ node ≠ nullIndex := ⟨hv, hne⟩
        have hget : b.pool.get node = some ⟨r, first nullIndex es, nullIndex⟩ := hseg.1
        -- the head order after its volume has been written back
        let left : RestingOrder := {r with volume := r.volume - min v r.volume}
        let b₁ : OrderBook := {b with pool := b.pool.set node ⟨left, first nullIndex es, nullIndex⟩}
        obtain ⟨hseg₁, hstep₁⟩ := writeHead_eq hseg hfresh left (rfl : b₁ = _)
        by_cases hr : r.volume ≤ v
        · -- used up: pop the head and go on with the rest of the queue
          have hmin : min v r.volume = r.volume := Int.min_eq_right hr
          obtain ⟨hfills, hrest, hpopped, hleftover, htaken⟩ :=
            draw_whole hv (a := (node, r)) hr es
          obtain ⟨b₂, hpop, hseg₂, hstep₂⟩ := popFront_eq
            ⟨price, wrap64 (sum - r.volume), node, last nullIndex ((node, left) :: es)⟩
            hseg₁ hnodup hnull rfl rfl
          obtain ⟨b₃, hloop, hseg₃, hstep₃⟩ := ih
            ⟨price, wrap64 (sum - r.volume), first nullIndex es, last nullIndex es⟩
            (sum - r.volume) (v - r.volume) (trades ++ emit r r.volume) hseg₂
            (List.nodup_cons.mp hnodup).2 (fun hmem => hnull (List.mem_cons_of_mem _ hmem))
            rfl rfl rfl (Nat.lt_of_succ_lt_succ hfuel)
          refine ⟨b₃, ?_, hrest ▸ hseg₃, ?_⟩
          · simp only [left, b₁, hmin, Int.sub_self, last_cons] at hpop
            simp only [drainLevel, if_pos hgo, hget, Option.bind_eq_bind, Option.bind_some,
              hmin, Int.sub_self, if_true, wrap64_wrap64_sub, last_cons, hpop, hloop, hrest,
              hleftover, htaken, hfills, Portion.quantity, List.flatMap_cons, List.append_assoc,
              Int.sub_sub]
          · have hstep₂ : PoolStep b₁ b₂ (keys es) [(node, r)] :=
              ⟨hstep₂.levels, hstep₂.index, hstep₂.freeList, hstep₂.length, hstep₂.capacity,
                hstep₂.frame⟩
            rw [hpopped]
            exact (hstep₁.trans hstep₂ (List.subset_cons_self _ _)).trans hstep₃
              (List.subset_cons_self _ _)
        · -- partly taken: the loop ends on the next test
          have hmin : min v r.volume = v := Int.min_eq_left (Int.le_of_lt (Int.not_le.mp hr))
          have hzero : ¬ r.volume - v = 0 := by omega
          obtain ⟨fuel, rfl⟩ := Nat.exists_eq_succ_of_ne_zero
            (show fuel ≠ 0 by
            rintro rfl
            simp at hfuel)
          obtain ⟨hfills, hreduced, hpopped, hleftover, htaken⟩ :=
            draw_part hv (a := (node, r)) (Int.not_le.mp hr) es
          have hrest : remaining v ((node, r) :: es) = (node, left) :: es := by
            rw [hreduced]
            simp only [Portion.reduce, left, hmin]
          refine ⟨b₁, ?_, hrest ▸ hseg₁, hpopped ▸ hstep₁⟩
          have hdone : ¬ (0 < (0 : Int) ∧ node ≠ nullIndex) := fun hgo => Int.lt_irrefl 0 hgo.1
          simp only [drainLevel, if_pos hgo, hget, Option.bind_eq_bind, Option.bind_some, hmin,
            if_neg hzero, Int.sub_self, if_neg hdone, wrap64_wrap64_sub, hrest, hleftover, htaken,
            hfills, List.flatMap_cons, List.flatMap_nil, List.append_nil, first_cons, last_cons, b₁,
            left]
      · have hstop : ¬ (0 < v ∧ node ≠ nullIndex) := fun hgo => hv hgo.1
        have hv : v ≤ 0 := Int.not_lt.mp hv
        rw [remaining_of_nonpos hv, popped_of_nonpos hv, leftover_of_nonpos hv]
        refine ⟨b, ?_, hseg, PoolStep.refl b _⟩
        simp [drainLevel, hstop, taken, fills_of_nonpos hv]

/-- The drain of `set_level` pops the whole queue. -/
theorem popAll_eq {fuel : Nat} {b : OrderBook} (lvl : Level) {es : List Entry}
    (hseg : Segment b.pool.get nullIndex nullIndex es)
    (hnodup : (keys es).Nodup) (hnull : nullIndex ∉ keys es)
    (hhead : lvl.head = first nullIndex es) (htail : lvl.tail = last nullIndex es)
    (hfuel : es.length < fuel) :
    ∃ b' lvl', popAll fuel b lvl = some (b', lvl') ∧ PoolStep b b' (keys es) es := by
  induction es generalizing fuel b lvl with
  | nil =>
      obtain ⟨fuel, rfl⟩ := Nat.exists_eq_succ_of_ne_zero (Nat.ne_of_gt hfuel)
      exact ⟨b, lvl, by simp [popAll, hhead], PoolStep.refl b _⟩
  | cons e es ih =>
      obtain ⟨fuel, rfl⟩ := Nat.exists_eq_succ_of_ne_zero (Nat.ne_of_gt (Nat.zero_lt_of_lt hfuel))
      have hgo : lvl.head ≠ nullIndex := fun heq => hnull (by rw [← heq, hhead]; simp)
      obtain ⟨b₁, hpop, hseg₁, hstep₁⟩ := popFront_eq lvl hseg hnodup hnull hhead htail
      obtain ⟨b₂, lvl₂, hloop, hstep₂⟩ := ih
        {lvl with head := first nullIndex es, tail := last nullIndex es}
        hseg₁ (List.nodup_cons.mp hnodup).2 (fun hmem => hnull (List.mem_cons_of_mem _ hmem))
        rfl rfl (by simpa using hfuel)
      have hstep₁ : PoolStep b b₁ (keys (e :: es)) [e] :=
        {hstep₁ with frame := fun i hi =>
          hstep₁.frame i fun hmem => hi (List.mem_cons_of_mem _ hmem)}
      refine ⟨b₂, lvl₂, ?_, hstep₁.trans hstep₂ (List.subset_cons_self _ _)⟩
      simp only [popAll, if_pos hgo, hpop, Option.bind_eq_bind, Option.bind_some, hloop]

/-- The trailing-node drain of `set_level` frees a chain without writing to it. -/
theorem freeTrailing_eq {fuel : Nat} {p : ObjectPool RestingOrder} {before : Int}
    {es : List Entry} (hseg : Segment p.get before nullIndex es)
    (hnull : nullIndex ∉ keys es) (hfuel : es.length < fuel) :
    freeTrailing fuel p (first nullIndex es) =
      some {p with freeList := (keys es).reverse ++ p.freeList} := by
  induction es generalizing fuel p before with
  | nil =>
      obtain ⟨fuel, rfl⟩ := Nat.exists_eq_succ_of_ne_zero (Nat.ne_of_gt hfuel)
      simp [freeTrailing]
  | cons e es ih =>
      obtain ⟨fuel, rfl⟩ := Nat.exists_eq_succ_of_ne_zero (Nat.ne_of_gt (Nat.zero_lt_of_lt hfuel))
      have hgo : e.1 ≠ nullIndex := fun heq => hnull (by simp [heq])
      have htail := ih (p := p.deallocate e.1) hseg.2
        (fun hmem => hnull (List.mem_cons_of_mem _ hmem)) (by simpa using hfuel)
      have hget : p.get e.1 = some ⟨e.2, first nullIndex es, before⟩ := hseg.1
      simp only [first_cons, freeTrailing, if_pos hgo, hget, Option.bind_eq_bind,
        Option.bind_some, htail]
      simp [ObjectPool.deallocate]

/-- `unlink` splices a node out of the middle of a queue and repairs the ends of
its level. -/
theorem unlink_eq {p : ObjectPool RestingOrder} (lvl : Level) {xs ys : List Entry}
    {n : Int} {r : RestingOrder}
    (hseg : Segment p.get nullIndex nullIndex (xs ++ (n, r) :: ys))
    (hnodup : (keys (xs ++ (n, r) :: ys)).Nodup)
    (hnull : nullIndex ∉ keys (xs ++ (n, r) :: ys))
    (hhead : lvl.head = first nullIndex (xs ++ (n, r) :: ys))
    (htail : lvl.tail = last nullIndex (xs ++ (n, r) :: ys)) :
    ∃ p', unlink p lvl n = some (p', {lvl with
          head := first nullIndex (xs ++ ys), tail := last nullIndex (xs ++ ys)}) ∧
      p'.get = splice p.get nullIndex (last nullIndex xs) (first nullIndex ys) ∧
      p'.freeList = p.freeList ∧ p'.nodes.length = p.nodes.length ∧
      p'.capacity = p.capacity := by
  obtain ⟨hleft, hcell, hright⟩ := (segment_append _ _ _ xs ((n, r) :: ys)).mp hseg
  obtain ⟨price, total, head, tail⟩ := lvl
  simp only at hhead htail
  subst hhead htail
  rcases List.eq_nil_or_concat xs with rfl | ⟨init, ⟨i, a⟩, hconcat⟩
  · cases ys with
    | nil => exact ⟨p, by simp_all [unlink], by simp [splice], rfl, rfl, rfl⟩
    | cons d ys =>
        have hd : d.1 ≠ nullIndex := fun heq => hnull (by simp [heq])
        have hget : p.get d.1 = some ⟨d.2, first nullIndex ys, n⟩ := hright.1
        refine ⟨p.set d.1 ⟨d.2, first nullIndex ys, nullIndex⟩, by simp_all [unlink], ?_,
          rfl, by simp, rfl⟩
        rw [ObjectPool.get_set hget]
        simp [splice, hd, hget]
  · rw [List.concat_eq_append] at hconcat
    subst hconcat
    have hi : i ≠ nullIndex := fun heq => hnull (by simp [heq])
    have hgeti : p.get i = some ⟨a, n, last nullIndex init⟩ :=
      ((segment_append _ _ _ init [(i, a)]).mp hleft).2.1
    have hcell : p.get n = some ⟨r, first nullIndex ys, i⟩ := by simpa using hcell
    have hfirst : ∀ zs : List Entry, first nullIndex (init ++ (i, a) :: zs) =
        first i init := fun zs => first_append _ _ _
    cases ys with
    | nil =>
        refine ⟨p.set i ⟨a, nullIndex, last nullIndex init⟩, ?_, ?_, rfl, by simp, rfl⟩
        · simp only [first_nil] at hcell
          simp [unlink, hcell, hi, hgeti, hfirst]
        · rw [ObjectPool.get_set hgeti]
          simp [splice, hi, hgeti]
    | cons d ys =>
        have hd : d.1 ≠ nullIndex := fun heq => hnull (by simp [heq])
        have hdi : d.1 ≠ i := by
          intro heq
          simp only [keys, List.map_append, List.map_cons, List.nodup_append] at hnodup
          exact hnodup.2.2 i (by simp) d.1 (by simp) heq.symm
        let p₁ := p.set i ⟨a, d.1, last nullIndex init⟩
        have hp₁ : p₁.get = Function.update p.get i (some ⟨a, d.1, last nullIndex init⟩) :=
          ObjectPool.get_set hgeti _
        have hgetd : p₁.get d.1 = some ⟨d.2, first nullIndex ys, n⟩ := by
          rw [hp₁, Function.update_of_ne hdi]
          exact hright.1
        refine ⟨p₁.set d.1 ⟨d.2, first nullIndex ys, i⟩, ?_, ?_, rfl, by simp [p₁], rfl⟩
        · simp only [first_cons] at hcell
          simp [unlink, hcell, hi, hd, hgeti, hgetd, hfirst, p₁]
        · rw [ObjectPool.get_set hgetd, hp₁]
          have hgetd' : p.get d.1 = some ⟨d.2, first nullIndex ys, n⟩ := hright.1
          simp [splice, hi, hd, hdi, hgeti, hgetd']

end OrderBook

end ExchangeEngine
