import ExchangeEngine.Benchmark.MarketReplay

/-!
Loading a snapshot into an empty book. The snapshot tool of `src/tools/snapshot_main.cpp`
adds an order for each level, the replay sets each level. At a price that is still empty the
two calls do the same, so the ways of loading and the order of the levels make no
difference, but for the slots the orders get.
-/

namespace ExchangeEngine

open Ladder Overwrite MarketReplay

namespace SnapshotLoad

/-- The loop of `main` over the levels of one side. -/
def addOrders (book : OrderBook) (side : Side) (levels : List PriceLevel) : Option OrderBook :=
  levels.foldlM (fun book level => book.addOrder side level.price level.volume) book

/-- The two loops of `main`. -/
def loadSnapshot (book : OrderBook) (snap : DepthSnapshot) : Option OrderBook := do
  let book ← addOrders book .bid snap.bids
  addOrders book .ask snap.asks

/-- The call that is made for each level. -/
inductive Way where
  | addOrder
  | setLevel
  deriving DecidableEq, Repr

def Way.call : Way → Side → Nat → Int → Command
  | .addOrder => .addOrder
  | .setLevel => .setLevel

def Way.put : Way → OrderBook → Side → Nat → Int → Option OrderBook
  | .addOrder => OrderBook.addOrder
  | .setLevel => OrderBook.setLevel

/-- Load some levels, one after another. -/
def load (way : Way) (book : OrderBook) (levels : List Listed) : Option OrderBook :=
  levels.foldlM (fun book x => way.put book x.1 x.2.price x.2.volume) book

theorem load_seedBook (book : OrderBook) (snap : DepthSnapshot) :
    load .setLevel book (listed snap.bids snap.asks) = seedBook book snap :=
  setListed_listed book snap.bids snap.asks

theorem load_loadSnapshot (book : OrderBook) (snap : DepthSnapshot) :
    load .addOrder book (listed snap.bids snap.asks) = loadSnapshot book snap := by
  unfold load listed
  rw [List.foldlM_append, List.foldlM_map]
  simp only [List.foldlM_map]
  rfl

/-! ### One call at an empty price -/

section Put

variable {m : Orders} {x : Listed} (hempty : m (place x) = []) (way : Way)

theorem exec_call (book : OrderBook) (s : Side) (p : Nat) (v : Int) :
    book.exec (way.call s p v) = (way.put book s p v).map fun book => (book, []) := by
  cases way <;> rfl

theorem allows_call {s : Side} {p : Nat} {v : Int} (hfits : v ≤ int64Max) :
    Flow.levels.Allows (way.call s p v) := by
  cases way with
  | addOrder => trivial
  | setLevel => exact hfits

include hempty

/-- Adding to nothing is setting. -/
theorem apply_call : m.apply (way.call x.1 x.2.price x.2.volume) =
    Function.update m (place x) (single x.2.volume) := by
  cases way with
  | addOrder =>
    have hnone : m (x.1, x.2.price) = [] := hempty
    rw [Way.call, Orders.apply, hnone, List.nil_append]
    rfl
  | setLevel => rfl

theorem grows_call : m.Grows (way.call x.1 x.2.price x.2.volume) ↔ 0 < x.2.volume := by
  cases way with
  | addOrder => exact Iff.rfl
  | setLevel => exact and_iff_left hempty

variable {capacity : Nat} {book book' : OrderBook} (h : book.Holds capacity m)
  (hfits : x.2.volume ≤ int64Max)
include h hfits

theorem put_isSome_iff : (way.put book x.1 x.2.price x.2.volume).isSome ↔
    (0 < x.2.volume → book.restingCount < min capacity (2 ^ 31)) := by
  rw [← grows_call hempty way, ← h.exec_isSome_iff (allows_call way hfits), exec_call,
    Option.isSome_map]

theorem put_holds (hput : way.put book x.1 x.2.price x.2.volume = some book') :
    book'.Holds capacity (Function.update m (place x) (single x.2.volume)) ∧
      book'.restingCount = book.restingCount + if 0 < x.2.volume then 1 else 0 := by
  have hallow := allows_call way hfits (s := x.1) (p := x.2.price)
  have hexec : book.exec (way.call x.1 x.2.price x.2.volume) = some (book', []) := by
    rw [exec_call, hput]
    rfl
  have h' := (h.exec hallow hexec).1
  rw [apply_call hempty] at h'
  refine ⟨h', ?_⟩
  by_cases hv : 0 < x.2.volume
  · rw [if_pos hv]
    exact h.restingCount_of_grows hallow ((grows_call hempty way).mpr hv) hexec
  · rw [single, if_pos (Int.not_lt.mp hv), ← hempty, Function.update_eq_self] at h'
    rw [if_neg hv, h'.restingCount_eq h]
    rfl

end Put

/-! ### All levels -/

/-- The number of levels with a positive volume. -/
def positives (levels : List Listed) : Nat := levels.countP fun x => 0 < x.2.volume

theorem positives_cons (x : Listed) (levels : List Listed) :
    positives (x :: levels) = (if 0 < x.2.volume then 1 else 0) + positives levels := by
  simp only [positives, List.countP_cons, decide_eq_true_eq, Nat.add_comm]

theorem load_cons (way : Way) (book : OrderBook) (x : Listed) (levels : List Listed) :
    load way book (x :: levels) =
      (way.put book x.1 x.2.price x.2.volume).bind fun book => load way book levels :=
  List.foldlM_cons

section Load

variable {capacity : Nat} {levels : List Listed} (way : Way)
  (hfits : ∀ x ∈ levels, x.2.volume ≤ int64Max) (hnodup : (levels.map place).Nodup)

theorem still_empty {m : Orders} {x : Listed} (hnodup : ((x :: levels).map place).Nodup)
    (hempty : ∀ y ∈ levels, m (place y) = []) (rs : List RestingOrder) :
    ∀ y ∈ levels, Function.update m (place x) rs (place y) = [] := by
  intro y hy
  have hne : place y ≠ place x := by
    intro heq
    exact (List.nodup_cons.mp hnodup).1 (heq ▸ List.mem_map_of_mem hy)
  rw [Function.update_of_ne hne]
  exact hempty y hy

include hfits hnodup

theorem load_holds {book book' : OrderBook} {m : Orders} (h : book.Holds capacity m)
    (hempty : ∀ x ∈ levels, m (place x) = []) (hload : load way book levels = some book') :
    book'.Holds capacity (overwrite m (levels.map written)) := by
  induction levels generalizing book m with
  | nil =>
    obtain rfl := Option.some.inj hload
    exact h
  | cons x levels ih =>
    obtain ⟨hx, hrest⟩ := List.forall_mem_cons.mp hfits
    obtain ⟨hhere, hlater⟩ := List.forall_mem_cons.mp hempty
    rw [load_cons] at hload
    obtain ⟨book₁, hput, hload⟩ := Option.bind_eq_some_iff.mp hload
    have h₁ := (put_holds hhere way h hx hput).1
    exact ih hrest (List.nodup_cons.mp hnodup).2 h₁ (still_empty hnodup hlater _) hload

/-- Each level of positive volume takes a slot. -/
theorem load_isSome_iff {book : OrderBook} {m : Orders} (h : book.Holds capacity m)
    (hempty : ∀ x ∈ levels, m (place x) = []) :
    (load way book levels).isSome ↔
      book.restingCount + positives levels ≤ min capacity (2 ^ 31) := by
  induction levels generalizing book m with
  | nil => exact ⟨fun _ => h.restingCount_le, fun _ => rfl⟩
  | cons x levels ih =>
    obtain ⟨hx, hrest⟩ := List.forall_mem_cons.mp hfits
    obtain ⟨hhere, hlater⟩ := List.forall_mem_cons.mp hempty
    have hsome := put_isSome_iff hhere way h hx
    rw [load_cons, positives_cons]
    cases hput : way.put book x.1 x.2.price x.2.volume with
    | none =>
      rw [hput] at hsome
      simp only [Option.isSome_none, Bool.false_eq_true, false_iff, Classical.not_imp] at hsome
      simp only [Option.bind_none, Option.isSome_none, Bool.false_eq_true, false_iff,
        if_pos hsome.1]
      omega
    | some book₁ =>
      obtain ⟨h₁, hcount⟩ := put_holds hhere way h hx hput
      rw [Option.bind_some,
        ih hrest (List.nodup_cons.mp hnodup).2 h₁ (still_empty hnodup hlater _), hcount,
        Nat.add_assoc]

end Load

/-! ### What is loaded -/

/-- The book has exactly the levels of positive volume, in order, and each is a single
anonymous order. -/
structure Shows (levels : List Listed) (book : OrderBook) : Prop where
  sorted : ∀ s, (book.sideLevels s).Pairwise fun l l' => better s l.price l'.price
  exactly : ∀ s p v, (p, v) ∈ book.view.levels s ↔ 0 < v ∧ (s, ⟨p, v⟩) ∈ levels
  orders : ∀ s, ∀ lvl ∈ book.sideLevels s,
    (book.chain lvl).map Prod.snd = [⟨anonymous, lvl.totalVolume⟩]
  volumes : ∀ s p v, (s, ⟨p, v⟩) ∈ levels → book.volumeAtPrice p s = some (max v 0)
  absent : ∀ s p, (s, p) ∉ levels.map place → book.volumeAtPrice p s = some 0

section Shows

variable {levels : List Listed} (hfits : ∀ x ∈ levels, x.2.volume ≤ int64Max)
  (hnodup : (levels.map place).Nodup)

theorem single_of_pos {v : Int} (hv : 0 < v) : single v = [⟨anonymous, v⟩] :=
  if_neg (Int.not_le.mpr hv)

theorem total_single (v : Int) : Fifo.total (single v) = max v 0 := by
  unfold single
  split
  · rename_i hv
    rw [Int.max_eq_right hv]
    rfl
  · rename_i hv
    rw [Int.max_eq_left (Int.le_of_lt (Int.not_le.mp hv))]
    simp [Fifo.Portion.quantity]

include hnodup in
theorem loaded_of_mem {x : Listed} (hx : x ∈ levels) :
    overwrite (fun _ => []) (levels.map written) (place x) = single x.2.volume := by
  apply overwrite_of_mem
  · rwa [List.map_map]
  · exact List.mem_map_of_mem hx

theorem loaded_of_notMem {k : Side × Nat} (hk : k ∉ levels.map place) :
    overwrite (fun _ => []) (levels.map written) k = [] := by
  apply overwrite_of_notMem
  rwa [List.map_map]

variable {c : QueueBook}
  (hloaded : c.orders = overwrite (fun _ => []) (levels.map written))
include hfits hnodup hloaded

/-- The queue of a listed level. -/
theorem queue_of_mem {s : Side} {p : Nat} {v : Int} (hx : (s, ⟨p, v⟩) ∈ levels) :
    (c.queue s p).map Prod.snd = single v ∧ QueueBook.cachedTotal (c.queue s p) = max v 0 := by
  have hfit : v ≤ int64Max := hfits _ hx
  have hqueue : (c.queue s p).map Prod.snd = single v :=
    (congrFun hloaded (s, p)).trans (loaded_of_mem hnodup hx)
  have htotal : Fifo.total (c.queue s p) = max v 0 := by
    rw [← total_map_snd, hqueue, total_single]
  refine ⟨hqueue, ?_⟩
  unfold int64Max at hfit
  rw [QueueBook.cachedTotal, htotal]
  apply wrap64_eq
  · omega
  · unfold int64Max
    omega

variable (hwf : c.WellFormed)
include hwf

/-- A rung is a listed level. -/
theorem mem_of_rung {s : Side} {q : Nat × List Entry} (hq : q ∈ c.side s) :
    ∃ v, 0 < v ∧ (s, ⟨q.1, v⟩) ∈ levels ∧ q.2.map Prod.snd = [⟨anonymous, v⟩] ∧
      QueueBook.cachedTotal q.2 = v := by
  have hqueue : c.queue s q.1 = q.2 := (hwf.ladder s).lookup_of_mem hq
  have hne := (hwf.ladder s).nonempty q hq
  have hplace : (s, q.1) ∈ levels.map place := by
    by_contra hnone
    have hempty := (congrFun hloaded (s, q.1)).trans (loaded_of_notMem hnone)
    rw [QueueBook.orders, hqueue] at hempty
    exact hne (List.map_eq_nil_iff.mp hempty)
  obtain ⟨⟨t, p, v⟩, hx, heq⟩ := List.mem_map.mp hplace
  obtain ⟨rfl, rfl⟩ := Prod.mk.inj heq
  obtain ⟨hsingle, htotal⟩ := queue_of_mem hfits hnodup hloaded hx
  rw [hqueue] at hsingle htotal
  have hv : 0 < v := by
    by_contra hnone
    rw [single, if_pos (Int.not_lt.mp hnone)] at hsingle
    exact hne (List.map_eq_nil_iff.mp hsingle)
  rw [Int.max_eq_left (Int.le_of_lt hv)] at htotal
  exact ⟨v, hv, hx, hsingle.trans (single_of_pos hv), htotal⟩

theorem shows_of_represents {book : OrderBook} (hrep : Represents book c) :
    Shows levels book := by
  constructor
  · intro s
    rw [hrep.levels s]
    exact List.pairwise_map.mpr (hwf.ladder s).sorted
  · intro s p v
    simp only [OrderBook.view, hrep.levels s, List.map_map, List.mem_map]
    constructor
    · rintro ⟨q, hq, heq⟩
      obtain ⟨rfl, htotal⟩ := Prod.mk.inj heq
      obtain ⟨v', hv, hx, -, hsame⟩ := mem_of_rung hfits hnodup hloaded hwf hq
      obtain rfl : v' = v := hsame.symm.trans htotal
      exact ⟨hv, hx⟩
    · rintro ⟨hv, hx⟩
      obtain ⟨hsingle, htotal⟩ := queue_of_mem hfits hnodup hloaded hx
      rw [Int.max_eq_left (Int.le_of_lt hv)] at htotal
      have hne : c.queue s p ≠ [] := by
        intro hnil
        rw [hnil, single_of_pos hv] at hsingle
        cases hsingle
      exact ⟨(p, c.queue s p), mem_of_lookup_ne_nil hne, Prod.ext rfl htotal⟩
  · intro s lvl hlvl
    rw [hrep.levels s] at hlvl
    obtain ⟨q, hq, rfl⟩ := List.mem_map.mp hlvl
    obtain ⟨v, -, -, horders, htotal⟩ := mem_of_rung hfits hnodup hloaded hwf hq
    rw [hrep.chain_levelOf hwf hq, horders]
    simp only [levelOf, htotal]
  · intro s p v hx
    rw [hrep.volumeAtPrice_eq hwf, (queue_of_mem hfits hnodup hloaded hx).2]
  · intro s p hnone
    have hempty := (congrFun hloaded (s, p)).trans (loaded_of_notMem hnone)
    have hqueue : c.queue s p = [] := List.map_eq_nil_iff.mp hempty
    rw [hrep.volumeAtPrice_eq hwf, hqueue]
    rfl

end Shows

theorem nodup_listed {bids asks : List PriceLevel} (hbids : (bids.map PriceLevel.price).Nodup)
    (hasks : (asks.map PriceLevel.price).Nodup) : ((listed bids asks).map place).Nodup := by
  have hside : ∀ (s : Side) {levels : List PriceLevel}, (levels.map PriceLevel.price).Nodup →
      ((levels.map (Prod.mk s)).map place).Nodup := by
    intro s levels hnodup
    rw [List.map_map]
    have hplaces := hnodup.map (Prod.mk_right_injective s)
    rwa [List.map_map] at hplaces
  rw [listed, List.map_append]
  refine List.nodup_append.mpr ⟨hside .bid hbids, hside .ask hasks, ?_⟩
  rintro k hbid _ hask rfl
  simp only [List.map_map, List.mem_map] at hbid hask
  obtain ⟨bid, -, rfl⟩ := hbid
  obtain ⟨ask, -, heq⟩ := hask
  cases (Prod.mk.inj heq).1

/-- The snapshot tool and the replay load the levels as they are listed, each in its way. Each
way of loading, in any order of the levels, returns exactly if the pool has a slot for each
level of positive volume. The book has these levels, and later level updates cannot tell it
from any other book the snapshot is loaded into. -/
theorem loads_alike {bids asks : List PriceLevel} (hbids : (bids.map PriceLevel.price).Nodup)
    (hasks : (asks.map PriceLevel.price).Nodup)
    (hfits : ∀ x ∈ listed bids asks, x.2.volume ≤ int64Max) {levels : List Listed}
    (hperm : levels.Perm (listed bids asks)) (way : Way) (capacity : Nat) :
    (loadSnapshot (OrderBook.empty capacity) ⟨bids, asks⟩ =
        load .addOrder (OrderBook.empty capacity) (listed bids asks) ∧
      seedBook (OrderBook.empty capacity) ⟨bids, asks⟩ =
        load .setLevel (OrderBook.empty capacity) (listed bids asks)) ∧
    ((load way (OrderBook.empty capacity) levels).isSome ↔
      positives (listed bids asks) ≤ min capacity (2 ^ 31)) ∧
    ∀ book, load way (OrderBook.empty capacity) levels = some book →
      Shows (listed bids asks) book ∧
      ∀ way' levels' book', levels'.Perm (listed bids asks) →
        load way' (OrderBook.empty capacity) levels' = some book' →
        book.view = book'.view ∧ book.FollowsAlike book' := by
  have hnodup := nodup_listed hbids hasks
  have hwritten : (((listed bids asks).map written).map Prod.fst).Nodup := by
    rwa [List.map_map]
  have hholds : ∀ {way levels book}, levels.Perm (listed bids asks) →
      load way (OrderBook.empty capacity) levels = some book →
      book.Holds capacity (overwrite (fun _ => []) ((listed bids asks).map written)) := by
    intro way levels book hperm hload
    have hloaded := load_holds way (fun x hx => hfits x (hperm.subset hx))
      ((hperm.map place).nodup_iff.mpr hnodup) (OrderBook.empty_holds capacity)
      (fun _ _ => rfl) hload
    rwa [overwrite_perm (hperm.symm.map written) hwritten]
  refine ⟨⟨(load_loadSnapshot _ ⟨bids, asks⟩).symm, (load_seedBook _ ⟨bids, asks⟩).symm⟩, ?_, ?_⟩
  · rw [load_isSome_iff way (fun x hx => hfits x (hperm.subset hx))
      ((hperm.map place).nodup_iff.mpr hnodup) (OrderBook.empty_holds capacity) fun _ _ => rfl]
    have hcount : positives levels = positives (listed bids asks) := hperm.countP_eq _
    have hnone : (OrderBook.empty capacity).restingCount = 0 := rfl
    rw [hcount, hnone, Nat.zero_add]
  · intro book hload
    have h := hholds hperm hload
    obtain ⟨c, hrep, hsound, -, horders, -⟩ := h
    refine ⟨shows_of_represents hfits hnodup horders hsound.wellFormed hrep, ?_⟩
    intro way' levels' book' hperm' hload'
    have h := hholds hperm hload
    have h' := hholds hperm' hload'
    exact ⟨h.view_eq h', h.followsAlike h'⟩

/-- Added in the order of the snapshot, and set in another. Two of the four levels are kept. -/
theorem loads_alike_reordered : ∃ book book',
    load .addOrder (OrderBook.empty 2)
      (listed [⟨100, 5⟩, ⟨99, 0⟩] [⟨103, -4⟩, ⟨101, 7⟩]) = some book ∧
    load .setLevel (OrderBook.empty 2)
      [(.ask, ⟨101, 7⟩), (.bid, ⟨99, 0⟩), (.ask, ⟨103, -4⟩), (.bid, ⟨100, 5⟩)] = some book' ∧
    book.view = book'.view ∧ book.FollowsAlike book' := by
  have hbids : ([⟨100, 5⟩, ⟨99, 0⟩].map PriceLevel.price).Nodup := by decide
  have hasks : ([⟨103, -4⟩, ⟨101, 7⟩].map PriceLevel.price).Nodup := by decide
  obtain ⟨-, -, hload⟩ := loads_alike hbids hasks (by decide) (List.Perm.refl _) .addOrder 2
  have hperm : [(Side.ask, (⟨101, 7⟩ : PriceLevel)), (.bid, ⟨99, 0⟩), (.ask, ⟨103, -4⟩),
      (.bid, ⟨100, 5⟩)].Perm (listed [⟨100, 5⟩, ⟨99, 0⟩] [⟨103, -4⟩, ⟨101, 7⟩]) := by decide
  exact ⟨_, _, rfl, rfl, (hload _ rfl).2 .setLevel _ _ hperm rfl⟩

/-- A pool with one slot holds only one of two levels. -/
theorem loads_alike_of_small_pool_false :
    ¬ ∀ capacity (bids asks : List PriceLevel), (bids.map PriceLevel.price).Nodup →
      (asks.map PriceLevel.price).Nodup →
      (∀ x ∈ listed bids asks, x.2.volume ≤ int64Max) →
      ∀ levels, levels.Perm (listed bids asks) → ∀ way, ∃ book,
        load way (OrderBook.empty capacity) levels = some book ∧
          Shows (listed bids asks) book := by
  intro hclaim
  have hfull : load .addOrder (OrderBook.empty 1) (listed [⟨100, 1⟩, ⟨99, 1⟩] []) = none := rfl
  obtain ⟨book, hload, -⟩ := hclaim 1 [⟨100, 1⟩, ⟨99, 1⟩] [] (by decide) (by decide) (by decide)
    _ (List.Perm.refl _) .addOrder
  rw [hfull] at hload
  cases hload

end SnapshotLoad

end ExchangeEngine
