import ExchangeEngine.Engine.QueueInvariants

/-!
The operations of the queue book on the listings of its sides, where the orders
of all prices stand in one line in priority order. Matching draws from the part
of the opposite line that the limit crosses, as if it were a single FIFO queue.
-/

namespace ExchangeEngine

open Ladder Fifo Chain

instance : Portion (Nat × Entry) where
  quantity x := Portion.quantity x.2
  reduce x v := (x.1, Portion.reduce x.2 v)
  quantity_reduce _ _ := rfl

theorem leftover_at (p : Nat) (v : Int) (es : List Entry) :
    leftover v (es.map (Prod.mk p)) = leftover v es :=
  leftover_map (Prod.mk p) (fun _ => rfl) v es

theorem fills_at (p : Nat) (v : Int) (es : List Entry) :
    fills v (es.map (Prod.mk p)) = (fills v es).map (Prod.map (Prod.mk p) id) :=
  fills_map (Prod.mk p) (fun _ => rfl) v es

theorem popped_at (p : Nat) (v : Int) (es : List Entry) :
    popped v (es.map (Prod.mk p)) = (popped v es).map (Prod.mk p) :=
  popped_map (Prod.mk p) (fun _ => rfl) v es

theorem remaining_at (p : Nat) (v : Int) (es : List Entry) :
    remaining v (es.map (Prod.mk p)) = (remaining v es).map (Prod.mk p) :=
  remaining_map (Prod.mk p) (fun _ => rfl) (fun _ _ => rfl) v es

/-- The orders at the front of a line that a limit crosses. -/
def crossing (s : Side) (price : Nat) (line : List (Nat × Entry)) : List (Nat × Entry) :=
  line.takeWhile fun x => OrderBook.crosses s price x.1

/-- The rest of the line. -/
def beyond (s : Side) (price : Nat) (line : List (Nat × Entry)) : List (Nat × Entry) :=
  line.dropWhile fun x => OrderBook.crosses s price x.1

theorem crossing_append_beyond (s : Side) (price : Nat) (line : List (Nat × Entry)) :
    crossing s price line ++ beyond s price line = line := List.takeWhile_append_dropWhile

/-- Whatever is better than a crossed price is crossed. -/
theorem crosses_of_better {s : Side} {price p q : Nat} (hpq : better (opposed s) p q ∨ p = q)
    (hq : OrderBook.crosses s price q = true) : OrderBook.crosses s price p = true := by
  rcases hpq with hpq | rfl
  · cases s <;> simp only [OrderBook.crosses, opposed, better, decide_eq_true_eq] at * <;> omega
  · exact hq

private theorem takeWhile_eq_filter {α : Type} {R : α → α → Prop} {P : α → Bool} {l : List α}
    (hl : l.Pairwise R) (hP : ∀ x y, R x y → P y = true → P x = true) :
    l.takeWhile P = l.filter P ∧ l.dropWhile P = l.filter (fun x => !P x) := by
  induction l with
  | nil => exact ⟨rfl, rfl⟩
  | cons x l ih =>
      obtain ⟨hx, hl⟩ := List.pairwise_cons.mp hl
      obtain ⟨htake, hdrop⟩ := ih hl
      cases hPx : P x with
      | true => simp [hPx, htake, hdrop]
      | false =>
          have hnone : ∀ y ∈ l, P y = false := fun y hy => by
            by_contra hPy
            have := hP x y (hx y hy) (by simpa using hPy)
            simp [hPx] at this
          have hfilter : l.filter P = [] := by
            rw [List.filter_eq_nil_iff]
            exact fun y hy => by simp [hnone y hy]
          have hkeep : l.filter (fun x => !P x) = l := by
            rw [List.filter_eq_self]
            exact fun y hy => by simp [hnone y hy]
          simp [hPx, hfilter, hkeep]

section Sorted

variable {s : Side} {l : Rungs Nat Entry} (h : Ladder.WellFormed (better (opposed s)) l)
include h

theorem crossing_eq_filter (price : Nat) :
    crossing s price (listing l) =
      (listing l).filter fun x => OrderBook.crosses s price x.1 :=
  (takeWhile_eq_filter h.listing_sorted fun _ _ => crosses_of_better).1

theorem beyond_eq_filter (price : Nat) :
    beyond s price (listing l) =
      (listing l).filter fun x => !OrderBook.crosses s price x.1 :=
  (takeWhile_eq_filter h.listing_sorted fun _ _ => crosses_of_better).2

end Sorted

theorem crossing_listing_append {s : Side} {price : Nat} {xs : Rungs Nat Entry}
    (hxs : ∀ q ∈ xs, OrderBook.crosses s price q.1 = true) (line : List (Nat × Entry)) :
    crossing s price (listing xs ++ line) = listing xs ++ crossing s price line :=
  List.takeWhile_append_of_pos
    (forall_listing (P := fun k => OrderBook.crosses s price k = true) hxs)

section Rung

variable {s : Side} {price : Nat} {q : Nat × List Entry} (l : Rungs Nat Entry)

theorem crossing_listing_of_crosses (hq : OrderBook.crosses s price q.1 = true) :
    crossing s price (listing (q :: l)) =
      q.2.map (Prod.mk q.1) ++ crossing s price (listing l) := by
  rw [listing_cons, crossing, List.takeWhile_append_of_pos]
  · rfl
  · intro x hx
    obtain ⟨e, _, rfl⟩ := List.mem_map.mp hx
    exact hq

theorem beyond_listing_of_crosses (hq : OrderBook.crosses s price q.1 = true) :
    beyond s price (listing (q :: l)) = beyond s price (listing l) := by
  rw [listing_cons, beyond, List.dropWhile_append_of_pos]
  · rfl
  · intro x hx
    obtain ⟨e, _, rfl⟩ := List.mem_map.mp hx
    exact hq

theorem crossing_listing_of_not (hne : q.2 ≠ []) (hq : ¬ OrderBook.crosses s price q.1 = true) :
    crossing s price (listing (q :: l)) = [] := by
  obtain ⟨e, es, hes⟩ := List.exists_cons_of_ne_nil hne
  simp [crossing, hes, hq]

theorem beyond_listing_of_not (hne : q.2 ≠ []) (hq : ¬ OrderBook.crosses s price q.1 = true) :
    beyond s price (listing (q :: l)) = listing (q :: l) := by
  obtain ⟨e, es, hes⟩ := List.exists_cons_of_ne_nil hne
  simp [beyond, hes, hq]

end Rung

namespace QueueBook

section Sweep

variable (s : Side) (price : Nat) {l : Rungs Nat Entry} (hl : ∀ q ∈ l, q.2 ≠ [])
include hl

theorem sweepLeftover_eq (v : Int) :
    sweepLeftover s price v l = leftover v (crossing s price (listing l)) := by
  induction l generalizing v with
  | nil => rfl
  | cons q l ih =>
      have ih := ih fun r hr => hl r (List.mem_cons_of_mem _ hr)
      by_cases hq : OrderBook.crosses s price q.1 = true
      · rw [crossing_listing_of_crosses l hq, leftover_append, leftover_at]
        by_cases hv : 0 < v
        · rw [sweepLeftover, if_pos ⟨hv, hq⟩, ih]
        · rw [sweepLeftover_of_nonpos s price (Int.not_lt.mp hv),
            leftover_of_nonpos (Int.not_lt.mp hv), leftover_of_nonpos (Int.not_lt.mp hv)]
      · rw [crossing_listing_of_not l (hl q (by simp)) hq, sweepLeftover,
          if_neg fun hgo => hq hgo.2]
        rfl

theorem sweepFills_eq (v : Int) :
    sweepFills s price v l =
      (fills v (crossing s price (listing l))).map fun fill => (fill.1.1, fill.1.2, fill.2) := by
  induction l generalizing v with
  | nil => rfl
  | cons q l ih =>
      have ih := ih fun r hr => hl r (List.mem_cons_of_mem _ hr)
      by_cases hq : OrderBook.crosses s price q.1 = true
      · rw [crossing_listing_of_crosses l hq, fills_append, leftover_at,
          fills_at]
        by_cases hv : 0 < v
        · rw [sweepFills, if_pos ⟨hv, hq⟩, ih, List.map_append, List.map_map]
          rfl
        · rw [sweepFills_of_nonpos s price (Int.not_lt.mp hv),
            fills_of_nonpos (Int.not_lt.mp hv),
            leftover_of_nonpos (Int.not_lt.mp hv), fills_of_nonpos (Int.not_lt.mp hv)]
          rfl
      · rw [crossing_listing_of_not l (hl q (by simp)) hq, sweepFills,
          if_neg fun hgo => hq hgo.2]
        rfl

/-- What a sweep trades in all. -/
theorem sum_sweepFills (v : Int) (id : Nat) :
    (((sweepFills s price v l).map (tradeOf id)).map Trade.volume).sum =
      taken v (crossing s price (listing l)) := by
  rw [sweepFills_eq s price hl, List.map_map, List.map_map, taken]
  rfl

/-- A sweep draws from the crossing part of the line; what lies beyond stays. -/
theorem resting_sweep {c : QueueBook} (v : Int) (hside : c.side (opposed s) = l) :
    (sweep s price c v l).resting (opposed s) =
      remaining v (crossing s price (listing l)) ++ beyond s price (listing l) := by
  induction l generalizing c v with
  | nil => simp [sweep, resting, hside, crossing, beyond, remaining]
  | cons q l ih =>
      have ih := @ih fun r hr => hl r (List.mem_cons_of_mem _ hr)
      obtain ⟨p, es⟩ := q
      by_cases hq : OrderBook.crosses s price p = true
      · by_cases hv : 0 < v
        · have hdrain : (c.drain (opposed s) p v).side (opposed s) = put p (remaining v es) l := by
            rw [← alter_head, ← hside]
            exact Function.update_self _ _ _
          rw [sweep, if_pos ⟨hv, hq⟩, crossing_listing_of_crosses l hq, remaining_append,
            leftover_at, remaining_at, beyond_listing_of_crosses l hq]
          cases hrest : remaining v es with
          | nil =>
              rw [hrest, put_nil] at hdrain
              rw [ih (leftover v es) hdrain]
              rfl
          | cons e es' =>
              have hdone : leftover v es ≤ 0 := leftover_nonpos_of_remaining hrest
              rw [sweep_of_nonpos s price hdone, remaining_of_nonpos hdone, resting, hdrain, hrest,
                listing_put, List.append_assoc, crossing_append_beyond]
        · rw [sweep_of_nonpos s price (Int.not_lt.mp hv), remaining_of_nonpos (Int.not_lt.mp hv),
            crossing_append_beyond, resting, hside]
      · rw [sweep, if_neg fun hgo => hq hgo.2, crossing_listing_of_not l (hl _ (by simp)) hq,
          beyond_listing_of_not l (hl _ (by simp)) hq, resting, hside]
        rfl

/-- The orders a sweep uses up leave the index and the pool. -/
theorem retired_sweep {c : QueueBook} (v : Int) (hside : c.side (opposed s) = l) :
    (sweep s price c v l).index =
        dropIds c.index ((popped v (crossing s price (listing l))).map Prod.snd) ∧
      (sweep s price c v l).free =
        (keys ((popped v (crossing s price (listing l))).map Prod.snd)).reverse ++ c.free ∧
      (sweep s price c v l).slots = c.slots := by
  induction l generalizing c v with
  | nil => exact ⟨rfl, rfl, rfl⟩
  | cons q l ih =>
      have ih := @ih fun r hr => hl r (List.mem_cons_of_mem _ hr)
      obtain ⟨p, es⟩ := q
      have hnothing : ∀ v, v ≤ 0 → (sweep s price c v ((p, es) :: l)) = c ∧
          popped v (crossing s price (listing ((p, es) :: l))) = [] := fun v hv =>
        ⟨sweep_of_nonpos s price hv _ c, popped_of_nonpos hv _⟩
      by_cases hv : 0 < v
      case neg =>
        obtain ⟨hsame, hnone⟩ := hnothing v (Int.not_lt.mp hv)
        rw [hsame, hnone]
        exact ⟨rfl, rfl, rfl⟩
      by_cases hq : OrderBook.crosses s price p = true
      · have hqueue : c.queue (opposed s) p = es := by
          rw [queue, hside]
          exact if_pos rfl
        have hdrain : (c.drain (opposed s) p v).side (opposed s) = put p (remaining v es) l := by
          rw [← alter_head, ← hside]
          exact Function.update_self _ _ _
        have hindex : (c.drain (opposed s) p v).index = dropIds c.index (popped v es) := by
          rw [← hqueue]
          rfl
        have hfree : (c.drain (opposed s) p v).free = (keys (popped v es)).reverse ++ c.free := by
          rw [← hqueue]
          rfl
        rw [sweep, if_pos ⟨hv, hq⟩, crossing_listing_of_crosses l hq, popped_append, leftover_at,
          popped_at, List.map_append, List.map_map, dropIds_append]
        have hentries : (popped v es).map (Prod.snd ∘ Prod.mk p) = popped v es := List.map_id' _
        rw [hentries, ← hindex, keys, List.map_append, List.reverse_append, List.append_assoc,
          ← keys, ← hfree]
        cases hrest : remaining v es with
        | nil =>
            rw [hrest, put_nil] at hdrain
            exact ih (leftover v es) hdrain
        | cons e es' =>
            have hdone : leftover v es ≤ 0 := leftover_nonpos_of_remaining hrest
            rw [sweep_of_nonpos s price hdone, popped_of_nonpos hdone]
            exact ⟨rfl, rfl, rfl⟩
      · rw [sweep, if_neg fun hgo => hq hgo.2, crossing_listing_of_not l (hl _ (by simp)) hq]
        exact ⟨rfl, rfl, rfl⟩

end Sweep

theorem side_sweep (s : Side) (price : Nat) (c : QueueBook) (v : Int) (l : Rungs Nat Entry) :
    (sweep s price c v l).side s = c.side s := by
  induction l generalizing c v with
  | nil => rfl
  | cons q l ih =>
      rw [sweep]
      split
      · rw [ih]
        exact Function.update_of_ne (opposed_ne s).symm _ _
      · rfl

/-- A sweep leaves the line of the aggressor's side alone. -/
theorem resting_sweep_own (s : Side) (price : Nat) (c : QueueBook) (v : Int)
    (l : Rungs Nat Entry) : (sweep s price c v l).resting s = c.resting s := by
  rw [resting, side_sweep, resting]

/-- The 64-bit availability check agrees with the sum of the crossing volumes. -/
theorem canFill_eq (s : Side) (price : Nat) {v available : Int} {l : Rungs Nat Entry}
    (hl : ∀ q ∈ l, q.2 ≠ []) (hpos : ∀ q ∈ l, ∀ e ∈ q.2, 0 < e.2.volume)
    (hlow : 0 ≤ available) (hhigh : available < v)
    (hexact : ∀ xs q ys, l = xs ++ q :: ys → OrderBook.crosses s price q.1 = true →
      available + total (elements xs) < v →
      available + total (elements xs) + total q.2 ≤ int64Max) :
    canFill s price v available l =
      decide (v ≤ available + total (crossing s price (listing l))) := by
  induction l generalizing available with
  | nil =>
      have hshort : ¬ v ≤ available + total ([] : List (Nat × Entry)) := by
        rw [total_nil]
        omega
      exact (decide_eq_false hshort).symm
  | cons q l ih =>
      by_cases hq : OrderBook.crosses s price q.1 = true
      · have hfits := hexact [] q l rfl hq (by simpa using hhigh)
        simp only [elements_nil, total_nil, Int.add_zero] at hfits
        have htotal : 0 ≤ total q.2 := total_nonneg (hpos q (by simp))
        have hwrap : wrap64 (available + cachedTotal q.2) = available + total q.2 := by
          rw [cachedTotal, wrap64_add_wrap64, wrap64_eq (by omega) hfits]
        have hcrossing : total (crossing s price (listing (q :: l))) =
            total q.2 + total (crossing s price (listing l)) := by
          rw [crossing_listing_of_crosses l hq, total_append]
          simp only [total, List.map_map]
          rfl
        simp only [canFill, if_pos hq, hwrap, hcrossing]
        split
        · rename_i hreached
          have hrest : 0 ≤ total (crossing s price (listing l)) := by
            refine total_nonneg fun x hx => ?_
            obtain ⟨r, hr, hx⟩ := List.mem_flatMap.mp ((List.takeWhile_sublist _).subset hx)
            obtain ⟨e, he, rfl⟩ := List.mem_map.mp hx
            exact hpos r (List.mem_cons_of_mem _ hr) e he
          exact (decide_eq_true (by omega)).symm
        · rename_i hshort
          rw [ih (fun r hr => hl r (List.mem_cons_of_mem _ hr))
            (fun r hr => hpos r (List.mem_cons_of_mem _ hr)) (by omega) (by omega) ?_,
            Int.add_assoc]
          · intro xs r ys hsplit hr hlt
            have hfits := hexact (q :: xs) r ys (by rw [hsplit]; rfl) hr
              (by rw [elements_cons, total_append]; omega)
            rw [elements_cons, total_append] at hfits
            omega
      · rw [crossing_listing_of_not l (hl q (by simp)) hq, total_nil, canFill, if_neg hq]
        exact (decide_eq_false (by omega)).symm

section Line

variable {c : QueueBook} (hladder : ∀ s, Ladder.WellFormed (better s) (c.side s))
include hladder

theorem mem_resting {s : Side} {p : Nat} {e : Entry} :
    (p, e) ∈ c.resting s ↔ e ∈ c.queue s p := (hladder s).mem_listing

/-- The line of a side around one price, before and after its queue is altered;
the line of the other side stays. -/
theorem resting_alterQueue (s : Side) (p : Nat) :
    ∃ xs ys, c.resting s = xs ++ ((c.queue s p).map (Prod.mk p) ++ ys) ∧
      (∀ f, (c.alterQueue s p f).resting s = xs ++ ((f (c.queue s p)).map (Prod.mk p) ++ ys)) ∧
      (∀ f t, t ≠ s → (c.alterQueue s p f).resting t = c.resting t) ∧
      (∀ x ∈ xs, better s x.1 p) ∧ (∀ y ∈ ys, better s p y.1) := by
  obtain ⟨xs, ys, hline, halter, hxs, hys⟩ := (hladder s).listing_split p
  refine ⟨xs, ys, hline, fun f => ?_, fun f t ht => ?_, hxs, hys⟩
  · rw [resting, side_alterQueue, halter f]
    rfl
  · rw [resting, side_alterQueue_of_ne _ ht, resting]

end Line

theorem resting_filter_price {c : QueueBook} (hwf : c.WellFormed) (s : Side) (p : Nat) :
    (c.resting s).filter (fun x => x.1 = p) = (c.queue s p).map (Prod.mk p) :=
  (hwf.ladder s).listing_filter p

theorem total_resting_filter {c : QueueBook} (hwf : c.WellFormed) (s : Side) (p : Nat) :
    total ((c.resting s).filter fun x => x.1 = p) = total (c.queue s p) := by
  rw [resting_filter_price hwf s p, total, List.map_map]
  rfl

theorem alterQueue_side_push {c c' : QueueBook} {s : Side} {p id : Nat} {v : Int}
    (hpush : c.push s p id v = some c') :
    ∃ node, c'.side = (c.alterQueue s p (· ++ [(node, ⟨id, v⟩)])).side ∧
      c'.index = if id ≠ anonymous then Function.update c.index id (some ⟨s, p, node⟩)
        else c.index := by
  obtain ⟨⟨node, free, slots⟩, _, rfl⟩ := Option.map_eq_some_iff.mp hpush
  exact ⟨node, rfl, rfl⟩

/-- A push appends one order to one queue. -/
theorem queue_push {c c' : QueueBook} (hwf : c.WellFormed) {s : Side} {p id : Nat} {v : Int}
    (hpush : c.push s p id v = some c') :
    ∃ node, ∀ t q, c'.queue t q =
      if t = s ∧ q = p then c.queue s p ++ [(node, ⟨id, v⟩)] else c.queue t q := by
  obtain ⟨node, hside, _⟩ := alterQueue_side_push hpush
  refine ⟨node, fun t q => ?_⟩
  rw [queue, hside, ← queue, queue_alterQueue hwf.ladder]

theorem total_listing (l : Rungs Nat Entry) : total (listing l) = total (elements l) := by
  rw [← map_snd_listing, total, total, List.map_map]
  rfl

theorem positive_of_mem_side {c : QueueBook} (hwf : c.WellFormed) {s : Side}
    {q : Nat × List Entry} (hq : q ∈ c.side s) : ∀ e ∈ q.2, 0 < e.2.volume := by
  intro e he
  refine hwf.positive s q.1 e ?_
  rw [queue, (hwf.ladder s).lookup_of_mem hq]
  exact he

theorem positive_of_mem_resting {c : QueueBook} (hwf : c.WellFormed) {s : Side} :
    ∀ x ∈ c.resting s, 0 < Portion.quantity x := by
  rintro ⟨p, e⟩ hx
  exact hwf.positive s p e ((mem_resting hwf.ladder).mp hx)

theorem positive_of_mem_crossing {c : QueueBook} (hwf : c.WellFormed) (s : Side) (price : Nat) :
    ∀ x ∈ crossing s price (c.resting (opposed s)), 0 < Portion.quantity x :=
  fun x hx => positive_of_mem_resting hwf x ((List.takeWhile_sublist _).subset hx)

theorem total_crossing_le {c : QueueBook} (hwf : c.WellFormed) (s : Side) (price : Nat) :
    total (crossing s price (c.resting (opposed s))) ≤ total (c.resting (opposed s)) := by
  rw [resting, crossing_eq_filter (hwf.ladder (opposed s))]
  exact total_filter_le (positive_of_mem_resting hwf) _

/-- The availability check is exact when the crossing volume fits in 64 bits. -/
theorem canFill_of_fits {c : QueueBook} (hwf : c.WellFormed) {s : Side} {price : Nat} {v : Int}
    (hv : 0 < v) (hfits : total (crossing s price (c.resting (opposed s))) ≤ int64Max) :
    canFill s price v 0 (c.side (opposed s)) =
      decide (v ≤ total (crossing s price (c.resting (opposed s)))) := by
  have hladder := hwf.ladder (opposed s)
  have hexact := canFill_eq s price hladder.nonempty
    (fun q hq => positive_of_mem_side hwf hq) (Int.le_refl 0) hv (fun xs q ys hsplit hq _ => by
      have hsorted := hladder.sorted
      rw [hsplit] at hsorted
      have hfront : ∀ r ∈ xs ++ [q], OrderBook.crosses s price r.1 = true := by
        intro r hr
        rcases List.mem_append.mp hr with hr | hr
        · exact crosses_of_better
            (Or.inl ((List.pairwise_append.mp hsorted).2.2 r hr q List.mem_cons_self)) hq
        · rw [List.mem_singleton.mp hr]
          exact hq
      have hrest : 0 ≤ total (crossing s price (listing ys)) := by
        refine total_nonneg fun x hx => ?_
        refine positive_of_mem_resting hwf (s := opposed s) x ?_
        rw [resting, hsplit, listing_append, listing_cons]
        exact List.mem_append_right _ (List.mem_append_right _
          ((List.takeWhile_sublist _).subset hx))
      rw [resting, hsplit, List.append_cons, listing_append,
        crossing_listing_append hfront, total_append, total_listing, elements_append,
        total_append] at hfits
      simp only [elements_cons, elements_nil, List.append_nil] at hfits
      omega)
  rw [hexact, Int.zero_add]
  rfl

/-- The order hit by a fill, with the price it prints at. -/
def hitOf (fill : (Nat × Entry) × Int) : Nat × Entry × Int := (fill.1.1, fill.1.2, fill.2)

/-- A call of `place_order` draws from the crossing part of the opposite line: the
volume of the order, or nothing when it is refused or killed. -/
theorem place_draws {c c' : QueueBook} {o : Order} {trades : List Trade} (hwf : c.WellFormed)
    (hplace : c.place o = some (c', trades)) {v : Int}
    (hv : v = if o.volume ≤ 0 ∨ (o.type = .fillOrKill ∧
      canFill o.side o.price o.volume 0 (c.side (opposed o.side)) = false) then 0 else o.volume) :
    c'.resting (opposed o.side) =
        remaining v (crossing o.side o.price (c.resting (opposed o.side))) ++
          beyond o.side o.price (c.resting (opposed o.side)) ∧
      trades = ((fills v (crossing o.side o.price (c.resting (opposed o.side)))).map hitOf).map
        (tradeOf o.id) := by
  have hladder := hwf.ladder (opposed o.side)
  have hidle : v = 0 → c.resting (opposed o.side) =
        remaining v (crossing o.side o.price (c.resting (opposed o.side))) ++
          beyond o.side o.price (c.resting (opposed o.side)) ∧
      [] = ((fills v (crossing o.side o.price (c.resting (opposed o.side)))).map hitOf).map
        (tradeOf o.id) := by
    rintro rfl
    rw [fills_of_nonpos (Int.le_refl 0), remaining_of_nonpos (Int.le_refl 0),
      crossing_append_beyond]
    exact ⟨rfl, rfl⟩
  rcases place_outcome hplace with ⟨hnone, rfl, rfl⟩ | ⟨-, hkilled, rfl, rfl⟩ |
    ⟨hvolume, hlive, rfl, hcases⟩
  · exact hidle (by rw [hv, if_pos (Or.inl hnone)])
  · exact hidle (by rw [hv, if_pos (Or.inr hkilled)])
  rw [if_neg (not_or.mpr ⟨Int.not_le.mpr hvolume, hlive⟩)] at hv
  have hswept := resting_sweep o.side o.price hladder.nonempty v (c := c) rfl
  have hfills := sweepFills_eq o.side o.price hladder.nonempty v
  subst hv
  rcases hcases with ⟨-, -, hpush⟩ | ⟨-, rfl⟩
  · obtain ⟨node, hside, _⟩ := alterQueue_side_push hpush
    refine ⟨?_, by rw [hfills]; rfl⟩
    rw [resting, hside, side_alterQueue_of_ne _ (opposed_ne o.side), ← resting, hswept]
    rfl
  · exact ⟨hswept, by rw [hfills]; rfl⟩

end QueueBook

end ExchangeEngine
