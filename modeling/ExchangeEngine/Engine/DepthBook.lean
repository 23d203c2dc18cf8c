import ExchangeEngine.Library.Bundle
import ExchangeEngine.Engine.DepthReplay

/-!
The book as depth: on each side the prices with the volume that rests at them, best price
first, and no orders. Matching takes from prices instead of from orders. As long as
nothing is cancelled, the order book does to its depth what the depth book does, and what
it trades at each price is what the depth book trades there, however the volume at a
price is divided among orders.
-/

namespace ExchangeEngine

open Ladder Fifo Chain Transition

structure DepthBook where
  side : Side → List (Bundle Nat)

namespace DepthBook

/-- The prices at the front of the opposite side that a limit crosses. -/
def hit (d : DepthBook) (s : Side) (price : Nat) : List (Bundle Nat) :=
  (d.side (opposed s)).takeWhile fun b => OrderBook.crosses s price b.key

def missed (d : DepthBook) (s : Side) (price : Nat) : List (Bundle Nat) :=
  (d.side (opposed s)).dropWhile fun b => OrderBook.crosses s price b.key

def volumeAt (d : DepthBook) (s : Side) (p : Nat) : Int :=
  total ((d.side s).filter fun b => b.key = p)

/-- Replace the volume at one price. -/
def store (d : DepthBook) (s : Side) (p : Nat) (v : Int) : DepthBook :=
  ⟨Function.update d.side s
    ((d.side s).filter (fun b => better s b.key p) ++ (if v ≤ 0 then [] else [⟨p, v⟩]) ++
      (d.side s).filter fun b => better s p b.key)⟩

@[simp] theorem side_store (d : DepthBook) (s : Side) (p : Nat) (v : Int) :
    (d.store s p v).side s = (d.side s).filter (fun b => better s b.key p) ++
      (if v ≤ 0 then [] else [⟨p, v⟩]) ++ (d.side s).filter fun b => better s p b.key :=
  Function.update_self s _ d.side

theorem side_store_of_ne (d : DepthBook) {s t : Side} (ht : t ≠ s) (p : Nat) (v : Int) :
    (d.store s p v).side t = d.side t :=
  Function.update_of_ne ht _ d.side

/-- The 64-bit availability check of fill-or-kill. -/
def canFill (s : Side) (price : Nat) (v : Int) : Int → List (Bundle Nat) → Bool
  | _, [] => false
  | available, b :: bs =>
      if OrderBook.crosses s price b.key then
        let available := wrap64 (available + wrap64 b.volume)
        if v ≤ available then true else canFill s price v available bs
      else false

/-- What is traded is listed by price, in the order of the prices. -/
def place (d : DepthBook) (o : Order) : DepthBook × List (Bundle Nat) :=
  if o.volume ≤ 0 then (d, [])
  else if o.type = .fillOrKill ∧
      canFill o.side o.price o.volume 0 (d.side (opposed o.side)) = false then (d, [])
  else
    let hit := d.hit o.side o.price
    let matched : DepthBook := ⟨Function.update d.side (opposed o.side)
      (remaining o.volume hit ++ d.missed o.side o.price)⟩
    let left := leftover o.volume hit
    let tape := (fills o.volume hit).map Bundle.hit
    if 0 < left ∧ o.type = .goodTillCanceled then
      (matched.store o.side o.price (matched.volumeAt o.side o.price + left), tape)
    else (matched, tape)

/-- A cancellation has no meaning here: the volume of one order is not known. -/
def exec (d : DepthBook) : Command → Option (DepthBook × List (Bundle Nat))
  | .placeOrder order => some (d.place order)
  | .cancelOrder _ => none
  | .addOrder side price volume =>
    some (d.store side price (d.volumeAt side price + max volume 0), [])
  | .deleteOrder side price volume =>
    some (d.store side price
      (d.volumeAt side price - min (max volume 0) (d.volumeAt side price)), [])
  | .setLevel side price volume => some (d.store side price volume, [])

end DepthBook

/-- The volumes traded at each price, in the order of the trades. -/
def tape (trades : List Trade) : List (Bundle Nat) :=
  Bundle.ofList (trades.map fun trade => (trade.price, trade.volume))

/-- The levels of a book, with the volumes of their orders. -/
def OrderBook.depthBook (b : OrderBook) : DepthBook :=
  ⟨fun s => (b.sideLevels s).map fun lvl => ⟨lvl.price, total (b.chain lvl)⟩⟩

/-! ### The depth of a queue book -/

/-- The volumes at the prices of a ladder. -/
def levelTotals (l : Rungs Nat Entry) : List (Bundle Nat) := l.map fun q => ⟨q.1, total q.2⟩

/-- The depth book shows what rests at each price. -/
def Aggregates (d : DepthBook) (c : QueueBook) : Prop :=
  ∀ s, d.side s = Bundle.ofElements Prod.fst (c.resting s)

/-- Each rung of a ladder is a bundle. -/
theorem ofElements_listing {s : Side} {l : Rungs Nat Entry}
    (h : Ladder.WellFormed (better s) l) :
    Bundle.ofElements Prod.fst (listing l) = levelTotals l := by
  induction l with
  | nil => rfl
  | cons q l ih =>
    have hworse := (List.pairwise_cons.mp h.sorted).1
    have happart : ∀ x ∈ q.2.map (Prod.mk q.1), ∀ y ∈ listing l, x.1 ≠ y.1 := by
      intro x hx y hy
      obtain ⟨e, -, rfl⟩ := List.mem_map.mp hx
      exact ne_of_better (forall_listing (P := fun k => better s q.1 k) hworse y hy)
    have hone : ∀ x ∈ q.2.map (Prod.mk q.1), x.1 = q.1 := by
      intro x hx
      obtain ⟨e, -, rfl⟩ := List.mem_map.mp hx
      rfl
    have hne : q.2.map (Prod.mk q.1) ≠ [] := by
      rw [ne_eq, List.map_eq_nil_iff]
      exact h.nonempty q List.mem_cons_self
    rw [listing_cons, Bundle.ofElements_append happart, Bundle.ofElements_of_forall hone hne,
      ih h.tail, total, List.map_map]
    rfl

theorem levelTotals_split (p : Nat) (es : List Entry) (xs ys : Rungs Nat Entry) :
    levelTotals (xs ++ put p es ys) =
      levelTotals xs ++ (if es = [] then [] else [⟨p, total es⟩]) ++ levelTotals ys := by
  cases es <;> simp [levelTotals, put]

theorem filter_levelTotals_of_all {l : Rungs Nat Entry} {P : Nat → Bool}
    (h : ∀ q ∈ l, P q.1 = true) : (levelTotals l).filter (fun b => P b.key) = levelTotals l := by
  rw [List.filter_eq_self]
  intro b hb
  obtain ⟨q, hq, rfl⟩ := List.mem_map.mp hb
  exact h q hq

theorem filter_levelTotals_of_none {l : Rungs Nat Entry} {P : Nat → Bool}
    (h : ∀ q ∈ l, P q.1 = false) : (levelTotals l).filter (fun b => P b.key) = [] := by
  rw [List.filter_eq_nil_iff]
  intro b hb
  obtain ⟨q, hq, rfl⟩ := List.mem_map.mp hb
  exact Bool.eq_false_iff.mp (h q hq)

section Around

variable {s : Side} {p : Nat} {xs ys : Rungs Nat Entry} (hxs : ∀ q ∈ xs, better s q.1 p)
  (hys : ∀ q ∈ ys, better s p q.1) (es : List Entry)
include hxs hys

/-- The better prices, the price itself and the worse prices. -/
theorem filters_levelTotals :
    (levelTotals (xs ++ put p es ys)).filter (fun b => better s b.key p) = levelTotals xs ∧
    (levelTotals (xs ++ put p es ys)).filter (fun b => b.key = p) =
      (if es = [] then [] else [⟨p, total es⟩]) ∧
    (levelTotals (xs ++ put p es ys)).filter (fun b => better s p b.key) = levelTotals ys := by
  have hirrefl : ¬ better s p p := irrefl_of (better s) p
  rw [levelTotals_split]
  refine ⟨?_, ?_, ?_⟩
  · have hfront := filter_levelTotals_of_all (P := fun k => better s k p)
      fun q hq => decide_eq_true (hxs q hq)
    have hback := filter_levelTotals_of_none (P := fun k => better s k p)
      fun q hq => decide_eq_false (asymm_of (better s) (hys q hq))
    rw [List.filter_append, List.filter_append, hfront, hback]
    split <;> simp [hirrefl]
  · have hfront := filter_levelTotals_of_none (P := fun k => k = p)
      fun q hq => decide_eq_false (ne_of_better (hxs q hq))
    have hback := filter_levelTotals_of_none (P := fun k => k = p)
      fun q hq => decide_eq_false (ne_of_better (hys q hq)).symm
    rw [List.filter_append, List.filter_append, hfront, hback]
    split <;> simp
  · have hfront := filter_levelTotals_of_none (P := fun k => better s p k)
      fun q hq => decide_eq_false (asymm_of (better s) (hxs q hq))
    have hback := filter_levelTotals_of_all (P := fun k => better s p k)
      fun q hq => decide_eq_true (hys q hq)
    rw [List.filter_append, List.filter_append, hfront, hback]
    split <;> simp [hirrefl]

end Around

/-- The depth book of an order book. -/
theorem Represents.depthBook_aggregates {b : OrderBook} {c : QueueBook} (h : Represents b c)
    (hwf : c.WellFormed) : Aggregates b.depthBook c := by
  intro s
  rw [QueueBook.resting, ofElements_listing (hwf.ladder s), levelTotals, ← h.chains hwf s,
    List.map_map]
  rfl

namespace Aggregates

variable {d : DepthBook} {c c' : QueueBook} (h : Aggregates d c) (hwf : c.WellFormed)
include h hwf

theorem side_eq (s : Side) : d.side s = levelTotals (c.side s) := by
  rw [h s, QueueBook.resting, ofElements_listing (hwf.ladder s)]

/-- The volume at a price. -/
theorem volumeAt_eq (s : Side) (p : Nat) : d.volumeAt s p = total (c.queue s p) := by
  obtain ⟨xs, ys, hside, -, hxs, hys⟩ := (hwf.ladder s).exists_split p
  rw [DepthBook.volumeAt, h.side_eq hwf, hside, (filters_levelTotals hxs hys _).2.1, ← QueueBook.queue]
  split
  · rename_i hnil
    rw [hnil]
    rfl
  · simp

/-- A queue that changes is a volume that is replaced. -/
theorem store {s : Side} {p : Nat} {es : List Entry} (hwf' : c'.WellFormed)
    (hafter : ∀ t q, c'.queue t q = if t = s ∧ q = p then es else c.queue t q) :
    Aggregates (d.store s p (total es)) c' := by
  have hside' : ∀ t, c'.side t = (c.alterQueue s p fun _ => es).side t := by
    intro t
    apply (hwf'.ladder t).eq_of_lookup (QueueBook.ladder_alterQueue hwf.ladder s p _ t)
    intro q
    have halter := QueueBook.queue_alterQueue hwf.ladder s p (fun _ => es) t q
    exact (hafter t q).trans halter.symm
  have hempty : total es ≤ 0 ↔ es = [] := by
    have hpos : ∀ e ∈ es, 0 < e.2.volume := by
      intro e he
      apply hwf'.positive s p
      rwa [hafter, if_pos ⟨rfl, rfl⟩]
    constructor
    · intro hnone
      by_contra hne
      exact absurd (total_pos hpos hne) (Int.not_lt.mpr hnone)
    · rintro rfl
      exact Int.le_refl 0
  intro t
  rw [QueueBook.resting, ofElements_listing (hwf'.ladder t), hside' t]
  by_cases ht : t = s
  · subst ht
    obtain ⟨xs, ys, hside, halter, hxs, hys⟩ := (hwf.ladder t).exists_split p
    obtain ⟨hfront, -, hback⟩ := filters_levelTotals hxs hys (lookup p (c.side t))
    rw [← hside, ← h.side_eq hwf] at hfront hback
    rw [QueueBook.side_alterQueue, halter, levelTotals_split, DepthBook.side_store, hfront, hback]
    simp only [hempty]
  · rw [QueueBook.side_alterQueue_of_ne c ht, d.side_store_of_ne ht, h.side_eq hwf]

omit hwf in
theorem hit_eq (s : Side) (price : Nat) :
    d.hit s price = Bundle.ofElements Prod.fst (crossing s price (c.resting (opposed s))) := by
  rw [DepthBook.hit, h, Bundle.takeWhile_ofElements fun k => OrderBook.crosses s price k]
  rfl

omit hwf in
theorem missed_eq (s : Side) (price : Nat) :
    d.missed s price = Bundle.ofElements Prod.fst (beyond s price (c.resting (opposed s))) := by
  rw [DepthBook.missed, h, Bundle.dropWhile_ofElements fun k => OrderBook.crosses s price k]
  rfl

theorem canFill_eq (s : Side) (price : Nat) (v : Int) (t : Side) :
    DepthBook.canFill s price v 0 (d.side t) = QueueBook.canFill s price v 0 (c.side t) := by
  rw [h.side_eq hwf t]
  generalize (0 : Int) = available
  induction c.side t generalizing available with
  | nil => rfl
  | cons q l ih =>
    have ih := ih (wrap64 (available + wrap64 (total q.2)))
    simp only [levelTotals] at ih
    simp only [levelTotals, List.map_cons, DepthBook.canFill, QueueBook.canFill,
      QueueBook.cachedTotal, ih]
    rfl

/-- A sweep takes from prices what it takes from orders. -/
theorem sweep (s : Side) (price : Nat) (v : Int) :
    Aggregates ⟨Function.update d.side (opposed s)
      (remaining v (d.hit s price) ++ d.missed s price)⟩
      (QueueBook.sweep s price c v (c.side (opposed s))) := by
  have hladder := hwf.ladder (opposed s)
  have hpos := QueueBook.positive_of_mem_crossing hwf s price
  have hswept := QueueBook.resting_sweep s price hladder.nonempty v (c := c) rfl
  -- a price is crossed or missed, with everything that rests at it
  have happart : ∀ x ∈ remaining v (crossing s price (c.resting (opposed s))),
      ∀ y ∈ beyond s price (c.resting (opposed s)), x.1 ≠ y.1 := by
    intro x hx y hy
    have hkeys := map_popped_append_map_remaining Prod.fst (fun _ _ => rfl) v
      (crossing s price (c.resting (opposed s)))
    have hkey : x.1 ∈ (crossing s price (c.resting (opposed s))).map Prod.fst := by
      rw [← hkeys]
      exact List.mem_append_right _ (List.mem_map_of_mem hx)
    obtain ⟨z, hz, hsame⟩ := List.mem_map.mp hkey
    have hcrossed : OrderBook.crosses s price z.1 = true :=
      List.mem_takeWhile_imp (p := fun x : Nat × Entry => OrderBook.crosses s price x.1) hz
    rw [QueueBook.resting, beyond_eq_filter hladder, List.mem_filter] at hy
    intro heq
    rw [hsame, heq] at hcrossed
    simp [hcrossed] at hy
  intro t
  by_cases ht : t = opposed s
  · subst ht
    rw [hswept, ← QueueBook.resting, Bundle.ofElements_append happart,
      ← Bundle.remaining_ofElements hpos v (fun _ _ => rfl), ← h.hit_eq, ← h.missed_eq]
    exact Function.update_self _ _ _
  · have hown : t = s := by
      cases s <;> cases t <;> simp_all [opposed]
    subst hown
    rw [QueueBook.resting_sweep_own, ← h t]
    exact Function.update_of_ne ht _ _

/-- Placing an order trades the same volumes at the same prices and leaves the same depth,
however the volumes are divided among orders. -/
theorem place {o : Order} {trades : List Trade} (hplace : c.place o = some (c', trades)) :
    Aggregates (d.place o).1 c' ∧ tape trades = (d.place o).2 := by
  have hcheck := h.canFill_eq hwf o.side o.price o.volume (opposed o.side)
  have hladder := hwf.ladder (opposed o.side)
  have hpos := QueueBook.positive_of_mem_crossing hwf o.side o.price
  unfold DepthBook.place
  rw [hcheck]
  rcases QueueBook.place_outcome hplace with ⟨hnone, rfl, rfl⟩ | ⟨hvolume, hkilled, rfl, rfl⟩ |
    ⟨hvolume, hlive, rfl, hcases⟩
  · rw [if_pos hnone]
    exact ⟨h, rfl⟩
  · rw [if_neg (Int.not_le.mpr hvolume), if_pos hkilled]
    exact ⟨h, rfl⟩
  rw [if_neg (Int.not_le.mpr hvolume), if_neg hlive]
  have hleft : leftover o.volume (d.hit o.side o.price) =
      QueueBook.sweepLeftover o.side o.price o.volume (c.side (opposed o.side)) := by
    rw [QueueBook.sweepLeftover_eq o.side o.price hladder.nonempty, h.hit_eq,
      Bundle.leftover_ofElements hpos]
    rfl
  have htape : tape ((QueueBook.sweepFills o.side o.price o.volume (c.side (opposed o.side))).map
      (QueueBook.tradeOf o.id)) = (fills o.volume (d.hit o.side o.price)).map Bundle.hit := by
    rw [QueueBook.sweepFills_eq o.side o.price hladder.nonempty, h.hit_eq,
      Bundle.fills_ofElements hpos, tape, List.map_map, List.map_map]
    rfl
  have hwf₁ := hwf.sweep o.side o.price o.volume (c.side (opposed o.side))
  have hswept := h.sweep hwf o.side o.price o.volume
  dsimp only
  rw [hleft]
  rcases hcases with ⟨hrest, hkind, hpush⟩ | ⟨hdone, rfl⟩
  · rw [if_pos ⟨hrest, hkind⟩, hswept.volumeAt_eq hwf₁]
    refine ⟨?_, htape⟩
    obtain ⟨node, hafter⟩ := QueueBook.queue_push hwf₁ hpush
    have hstored := hswept.store hwf₁ (hwf₁.push hrest hpush) hafter
    rw [total_append] at hstored
    simpa [Portion.quantity] using hstored
  · rw [if_neg hdone]
    exact ⟨hswept, htape⟩

omit hwf in
theorem unique {d' : DepthBook} (h' : Aggregates d' c) : d = d' := by
  obtain ⟨side⟩ := d
  obtain ⟨side'⟩ := d'
  exact congrArg DepthBook.mk (funext fun s => (h s).trans (h' s).symm)

/-- What a call does to the queues it does to the depth, unless it cancels. -/
theorem exec {cmd : Command} {trades : List Trade} (hwf' : c'.WellFormed)
    (hkeeps : ∀ id, cmd ≠ .cancelOrder id) (hexec : c.exec cmd = some (c', trades)) :
    ∃ d', d.exec cmd = some (d', tape trades) ∧ Aggregates d' c' := by
  cases cmd with
  | placeOrder o =>
    obtain ⟨hplaced, htape⟩ := h.place hwf hexec
    exact ⟨_, by rw [DepthBook.exec, htape], hplaced⟩
  | cancelOrder id => exact absurd rfl (hkeeps id)
  | addOrder s p v =>
    obtain ⟨hadd, rfl⟩ := QueueBook.exec_addOrder hexec
    refine ⟨_, rfl, ?_⟩
    rw [h.volumeAt_eq hwf]
    rcases QueueBook.add_cases hadd with ⟨hv, rfl⟩ | ⟨hv, hpush⟩
    · rw [Int.max_eq_right hv, Int.add_zero]
      apply h.store hwf hwf
      intro t q
      split
      · rename_i hhere
        rw [hhere.1, hhere.2]
      · rfl
    · obtain ⟨node, hafter⟩ := QueueBook.queue_push hwf hpush
      have hstored := h.store hwf hwf' hafter
      rw [total_append] at hstored
      rw [Int.max_eq_left (Int.le_of_lt hv)]
      simpa [Portion.quantity] using hstored
  | deleteOrder s p v =>
    cases hexec
    refine ⟨_, rfl, ?_⟩
    rw [h.volumeAt_eq hwf, ← total_remaining (hwf.positive s p)]
    exact h.store hwf hwf' (QueueBook.queue_drain hwf s p v)
  | setLevel s p v =>
    obtain ⟨hassign, rfl⟩ := QueueBook.exec_setLevel hexec
    refine ⟨_, rfl, ?_⟩
    obtain ⟨es, hafter, ⟨hv, rfl⟩ | ⟨hv, node, id, rfl, -⟩⟩ := QueueBook.queue_assign hwf hassign
    · have hnone : d.store s p v = d.store s p (total ([] : List Entry)) := by
        simp [DepthBook.store, hv]
      rw [hnone]
      exact h.store hwf hwf' hafter
    · have hstored := h.store hwf hwf' hafter
      simpa [Portion.quantity] using hstored

end Aggregates

namespace OrderBook

/-- A call that is not a cancellation. -/
def Keeps (flow : Flow) (cmd : Command) : Prop := flow.Allows cmd ∧ ∀ id, cmd ≠ .cancelOrder id

/-- Along every run without cancellations the order book does to its depth what the depth
book does, and trades at each price what the depth book trades there. -/
theorem refines_depthBook {flow : Flow} {capacity : Nat} {b b' : OrderBook} {cmds : List Command}
    {outs : List (List Trade)} (hreached : Reached flow capacity b)
    (hruns : Runs exec (fun _ => Keeps flow) b cmds outs b') :
    Runs DepthBook.exec (fun _ _ => True) b.depthBook cmds (outs.map tape) b'.depthBook := by
  obtain ⟨c, hrep, hsound, -⟩ := hreached.represents
  have hstep : ∀ {b b' : OrderBook} {d : DepthBook} {cmd : Command} {trades : List Trade},
      (∃ c, Represents b c ∧ flow.Sound c ∧ Aggregates d c) → Keeps flow cmd →
      b.exec cmd = some (b', trades) → ∃ d', True ∧ d.exec cmd = some (d', tape trades) ∧
        ∃ c', Represents b' c' ∧ flow.Sound c' ∧ Aggregates d' c' := by
    rintro b b' d cmd trades ⟨c, hrep, hsound, hdepth⟩ ⟨hallow, hkeeps⟩ hexec
    obtain ⟨c', hexec', hrep'⟩ := exec_some hrep hsound.wellFormed hallow hexec
    have hsound' := hsound.exec hallow hexec'
    obtain ⟨d', hdexec, hdepth'⟩ :=
      hdepth.exec hsound.wellFormed hsound'.wellFormed hkeeps hexec'
    exact ⟨d', trivial, hdexec, c', hrep', hsound', hdepth'⟩
  obtain ⟨d', hdruns, c', hrep', hsound', hdepth'⟩ := hruns.translate DepthBook.exec
    (fun _ _ => True) id tape
    (fun b d => ∃ c, Represents b c ∧ flow.Sound c ∧ Aggregates d c) hstep
    ⟨c, hrep, hsound, hrep.depthBook_aggregates hsound.wellFormed⟩
  rw [List.map_id] at hdruns
  have hfinal := hrep'.depthBook_aggregates hsound'.wellFormed
  rwa [hdepth'.unique hfinal] at hdruns

/-- Ten lots in two orders: three trades are two entries of the tape. -/
theorem refines_depthBook_twoOrders : ∃ b b' : OrderBook,
    b.depthBook.side .ask = [⟨100, 10⟩] ∧
    Runs DepthBook.exec (fun _ _ => True) b.depthBook
      [.placeOrder ⟨3, .bid, 100, 7, .goodTillCanceled⟩,
        .placeOrder ⟨4, .bid, 101, 5, .goodTillCanceled⟩]
      [[⟨100, 7⟩], [⟨100, 3⟩]] b'.depthBook := by
  have hkeeps : ∀ o, Keeps .orders (.placeOrder o) :=
    fun o => ⟨trivial, fun id => Command.noConfusion⟩
  have hrun : ∃ b b' outs, Reached .orders 8 b ∧ b.depthBook.side .ask = [⟨100, 10⟩] ∧
      Runs exec (fun _ => Keeps .orders) b
        [.placeOrder ⟨3, .bid, 100, 7, .goodTillCanceled⟩,
          .placeOrder ⟨4, .bid, 101, 5, .goodTillCanceled⟩] outs b' ∧
      outs.map tape = [[⟨100, 7⟩], [⟨100, 3⟩]] :=
    ⟨_, _, _, ⟨[.placeOrder ⟨1, .ask, 100, 4, .goodTillCanceled⟩,
      .placeOrder ⟨2, .ask, 100, 6, .goodTillCanceled⟩], _,
      Runs.cons trivial rfl (Runs.cons trivial rfl (Runs.nil _))⟩, rfl,
      Runs.cons (hkeeps _) rfl (Runs.cons (hkeeps _) rfl (Runs.nil _)), rfl⟩
  obtain ⟨b, b', outs, hreached, hdepth, hruns, htape⟩ := hrun
  exact ⟨b, b', hdepth, htape ▸ refines_depthBook hreached hruns⟩

end OrderBook

end ExchangeEngine
