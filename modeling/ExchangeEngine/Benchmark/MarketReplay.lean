import ExchangeEngine.Library.Overwrite
import ExchangeEngine.Engine.LevelOrders
import ExchangeEngine.Io.DepthLevels

/-!
The steady-state replay of `benchmark/market_replay.cpp`: a book is seeded with a snapshot
and takes the same feed of absolute sizes again and again. Each call writes one price, so a
pass over the feed leaves what it last wrote to each price, whatever the pass before left
there. A book that is only written to by `set_level` has one order at each level and never
needs more slots than there are prices in the snapshot and the feed.
-/

namespace ExchangeEngine

open Ladder Overwrite

namespace MarketReplay

/-- The loop over the levels of one side. -/
def setLevels (book : OrderBook) (side : Side) (levels : List PriceLevel) : Option OrderBook :=
  levels.foldlM (fun book level => book.setLevel side level.price level.volume) book

def seedBook (book : OrderBook) (snap : DepthSnapshot) : Option OrderBook := do
  let book ← setLevels book .bid snap.bids
  setLevels book .ask snap.asks

def apply (book : OrderBook) (u : DepthUpdate) : Option OrderBook := do
  let book ← setLevels book .bid u.bids
  setLevels book .ask u.asks

/-- `BM_MarketReplay_SteadyState`: the seeded book after some passes over the feed. -/
def steadyState (capacity : Nat) (snap : DepthSnapshot) (feed : List DepthUpdate) :
    Nat → Option OrderBook
  | 0 => seedBook (OrderBook.empty capacity) snap
  | passes + 1 => do
      let book ← steadyState capacity snap feed passes
      feed.foldlM apply book

/-! ### Call by call -/

/-- A level with its side: one call of `set_level`. -/
abbrev Listed := Side × PriceLevel

/-- All bids, then all asks. -/
def listed (bids asks : List PriceLevel) : List Listed :=
  bids.map (Prod.mk .bid) ++ asks.map (Prod.mk .ask)

def feedLevels (feed : List DepthUpdate) : List Listed := feed.flatMap fun u => listed u.bids u.asks

/-- The calls of the seeding and of some passes over the feed. -/
def played (snap : DepthSnapshot) (feed : List DepthUpdate) (passes : Nat) : List Listed :=
  listed snap.bids snap.asks ++ (List.replicate passes (feedLevels feed)).flatten

/-- The calls, one after another. -/
def setListed (book : OrderBook) (levels : List Listed) : Option OrderBook :=
  levels.foldlM (fun book x => book.setLevel x.1 x.2.price x.2.volume) book

/-- The side and price of a level. -/
def place (x : Listed) : Side × Nat := (x.1, x.2.price)

/-- The distinct sides and prices that occur in the snapshot and the feed. -/
def touched (snap : DepthSnapshot) (feed : List DepthUpdate) : Finset (Side × Nat) :=
  ((listed snap.bids snap.asks ++ feedLevels feed).map place).toFinset

theorem setListed_append (book : OrderBook) (levels more : List Listed) :
    setListed book (levels ++ more) =
      (setListed book levels).bind fun book => setListed book more :=
  List.foldlM_append

theorem setListed_side (book : OrderBook) (side : Side) (levels : List PriceLevel) :
    setListed book (levels.map (Prod.mk side)) = setLevels book side levels :=
  List.foldlM_map

theorem setListed_listed (book : OrderBook) (bids asks : List PriceLevel) :
    setListed book (listed bids asks) =
      (setLevels book .bid bids).bind fun book => setLevels book .ask asks := by
  rw [listed, setListed_append, setListed_side]
  simp only [setListed_side]

theorem foldlM_apply (book : OrderBook) (feed : List DepthUpdate) :
    feed.foldlM apply book = setListed book (feedLevels feed) := by
  induction feed generalizing book with
  | nil => rfl
  | cons u feed ih =>
    rw [feedLevels, List.flatMap_cons, setListed_append, setListed_listed, ← feedLevels]
    simp only [← ih]
    rfl

/-- The benchmark makes the calls in the order they are listed. -/
theorem steadyState_eq (capacity : Nat) (snap : DepthSnapshot) (feed : List DepthUpdate)
    (passes : Nat) :
    steadyState capacity snap feed passes =
      setListed (OrderBook.empty capacity) (played snap feed passes) := by
  induction passes with
  | zero =>
    rw [played, List.replicate_zero, List.flatten_nil, List.append_nil, setListed_listed]
    rfl
  | succ passes ih =>
    have hplayed : played snap feed (passes + 1) = played snap feed passes ++ feedLevels feed := by
      rw [played, played, List.replicate_succ', List.flatten_append, List.flatten_singleton,
        List.append_assoc]
    rw [hplayed, setListed_append, ← ih, steadyState]
    simp only [foldlM_apply]
    rfl

end MarketReplay

/-! ### One order at each level -/

namespace QueueBook

variable {c : QueueBook} (hwf : c.WellFormed) (hsingle : ∀ k, (c.orders k).length ≤ 1)
include hwf hsingle

theorem length_of_mem_side {s : Side} {q : Nat × List Entry} (hq : q ∈ c.side s) :
    q.2.length = 1 := by
  have hqueue : c.queue s q.1 = q.2 := (hwf.ladder s).lookup_of_mem hq
  have hlength := hsingle (s, q.1)
  have hpos := List.length_pos_iff.mpr ((hwf.ladder s).nonempty q hq)
  rw [orders, List.length_map, hqueue] at hlength
  omega

theorem restingCount_eq_levels :
    c.restingCount = (c.side .bid).length + (c.side .ask).length := by
  rw [restingCount, length_elements_of_forall fun q hq => length_of_mem_side hwf hsingle hq,
    length_elements_of_forall fun q hq => length_of_mem_side hwf hsingle hq]

/-- There are at most as many orders as prices at which one can rest. -/
theorem restingCount_le_card {T : Finset (Side × Nat)}
    (hsupport : ∀ k, c.orders k ≠ [] → k ∈ T) : c.restingCount ≤ T.card := by
  have hnodup : ∀ s, ((c.side s).map fun q => (s, q.1)).Nodup := by
    intro s
    apply List.pairwise_map.mpr
    refine (hwf.ladder s).sorted.imp ?_
    intro p q hbetter heq
    exact ne_of_better hbetter (Prod.mk.inj heq).2
  have hmem : ∀ s, ∀ k ∈ (c.side s).map fun q => (s, q.1), k.1 = s ∧ k ∈ T := by
    intro s k hk
    obtain ⟨q, hq, rfl⟩ := List.mem_map.mp hk
    have hqueue : c.queue s q.1 = q.2 := (hwf.ladder s).lookup_of_mem hq
    refine ⟨rfl, hsupport _ ?_⟩
    rw [orders, hqueue]
    exact mt List.map_eq_nil_iff.mp ((hwf.ladder s).nonempty q hq)
  have hall : (((c.side .bid).map fun q => (Side.bid, q.1)) ++
      (c.side .ask).map fun q => (Side.ask, q.1)).Nodup := by
    refine List.nodup_append.mpr ⟨hnodup .bid, hnodup .ask, ?_⟩
    rintro k hbid _ hask rfl
    have hside := (hmem .bid k hbid).1.symm.trans (hmem .ask k hask).1
    cases hside
  have hcard := List.toFinset_card_of_nodup hall
  rw [List.length_append, List.length_map, List.length_map] at hcard
  rw [restingCount_eq_levels hwf hsingle, ← hcard]
  apply Finset.card_le_card
  intro k hk
  rcases List.mem_append.mp (List.mem_toFinset.mp hk) with hk | hk
  · exact (hmem .bid k hk).2
  · exact (hmem .ask k hk).2

end QueueBook

namespace MarketReplay

/-- The book holds orders at some of the places only, no two at one place, and has not
created more slots than there are places. -/
structure Within (T : Finset (Side × Nat)) (capacity : Nat) (book : OrderBook) (m : Orders) :
    Prop where
  holds : book.Holds capacity m
  support : ∀ k, m k ≠ [] → k ∈ T
  atMostOne : ∀ k, (m k).length ≤ 1
  slots : book.pool.nodes.length ≤ T.card

theorem restingCount_of_holds {T : Finset (Side × Nat)} {capacity : Nat} {book : OrderBook}
    {m : Orders} (h : book.Holds capacity m) (hsupport : ∀ k, m k ≠ [] → k ∈ T)
    (hsingle : ∀ k, (m k).length ≤ 1) :
    book.pool.size = book.bidLevels.length + book.askLevels.length ∧
      book.restingCount ≤ T.card := by
  obtain ⟨c, hrep, hsound, -, rfl, -⟩ := h
  have hwf := hsound.wellFormed
  have hbids : book.bidLevels = (c.side .bid).map levelOf := hrep.levels .bid
  have hasks : book.askLevels = (c.side .ask).map levelOf := hrep.levels .ask
  rw [hrep.size_eq hwf, hrep.restingCount_eq hwf, hbids, hasks, List.length_map, List.length_map]
  exact ⟨QueueBook.restingCount_eq_levels hwf hsingle,
    QueueBook.restingCount_le_card hwf hsingle hsupport⟩

theorem length_single_le (v : Int) : (single v).length ≤ 1 := by
  unfold single
  split <;> simp

section Set

variable {T : Finset (Side × Nat)} {capacity : Nat} {book book' : OrderBook} {m : Orders}
  (h : Within T capacity book m) {x : Listed} (hfits : x.2.volume ≤ int64Max)
  (hplace : place x ∈ T)
include h hfits hplace

theorem Within.set (hset : book.setLevel x.1 x.2.price x.2.volume = some book') :
    Within T capacity book' (Function.update m (place x) (single x.2.volume)) := by
  have hallow : Flow.levels.Allows (.setLevel x.1 x.2.price x.2.volume) := hfits
  have hexec : book.exec (.setLevel x.1 x.2.price x.2.volume) = some (book', []) := by
    rw [OrderBook.exec, hset]
    rfl
  obtain ⟨hholds, -, hslots⟩ := h.holds.exec hallow hexec
  have hsupport : ∀ k, Function.update m (place x) (single x.2.volume) k ≠ [] → k ∈ T := by
    intro k hk
    by_cases heq : k = place x
    · exact heq ▸ hplace
    · rw [Function.update_of_ne heq] at hk
      exact h.support k hk
  have hsingle : ∀ k, (Function.update m (place x) (single x.2.volume) k).length ≤ 1 := by
    intro k
    by_cases heq : k = place x
    · rw [heq, Function.update_self]
      exact length_single_le _
    · rw [Function.update_of_ne heq]
      exact h.atMostOne k
  have hcount := (restingCount_of_holds hholds hsupport hsingle).2
  exact ⟨hholds, hsupport, hsingle, Nat.le_trans hslots (Nat.max_le.mpr ⟨h.slots, hcount⟩)⟩

/-- While the capacity is not below the number of places, a level can be set. -/
theorem Within.set_isSome (hroom : T.card ≤ min capacity (2 ^ 31)) :
    (book.setLevel x.1 x.2.price x.2.volume).isSome := by
  have hallow : Flow.levels.Allows (.setLevel x.1 x.2.price x.2.volume) := hfits
  have hsome : (book.exec (.setLevel x.1 x.2.price x.2.volume)).isSome := by
    rw [h.holds.exec_isSome_iff hallow]
    rintro ⟨-, hempty⟩
    -- the place itself is still free, so the orders that rest are at the other places
    have hother : ∀ k, m k ≠ [] → k ∈ T.erase (place x) := by
      intro k hk
      exact Finset.mem_erase.mpr ⟨fun heq => hk (heq ▸ hempty), h.support k hk⟩
    have hcount := (restingCount_of_holds h.holds hother h.atMostOne).2
    have hpos := Finset.card_pos.mpr ⟨place x, hplace⟩
    rw [Finset.card_erase_of_mem hplace] at hcount
    omega
  rwa [OrderBook.exec, Option.isSome_map] at hsome

end Set

/-- What a call writes. -/
def written (x : Listed) : (Side × Nat) × List RestingOrder := (place x, single x.2.volume)

section Play

variable {T : Finset (Side × Nat)} {capacity : Nat} {levels : List Listed}
  (hlevels : ∀ x ∈ levels, x.2.volume ≤ int64Max ∧ place x ∈ T)
include hlevels

theorem Within.play {book book' : OrderBook} {m : Orders} (h : Within T capacity book m)
    (hplay : setListed book levels = some book') :
    Within T capacity book' (overwrite m (levels.map written)) := by
  induction levels generalizing book m with
  | nil =>
    obtain rfl := Option.some.inj hplay
    exact h
  | cons x levels ih =>
    obtain ⟨⟨hfits, hplace⟩, hrest⟩ := List.forall_mem_cons.mp hlevels
    rw [setListed, List.foldlM_cons] at hplay
    obtain ⟨book₁, hset, hplay⟩ := Option.bind_eq_some_iff.mp hplay
    exact ih hrest (h.set hfits hplace hset) hplay

theorem Within.play_isSome {book : OrderBook} {m : Orders} (h : Within T capacity book m)
    (hroom : T.card ≤ min capacity (2 ^ 31)) : (setListed book levels).isSome := by
  induction levels generalizing book m with
  | nil => rfl
  | cons x levels ih =>
    obtain ⟨⟨hfits, hplace⟩, hrest⟩ := List.forall_mem_cons.mp hlevels
    obtain ⟨book₁, hset⟩ := Option.isSome_iff_exists.mp (h.set_isSome hfits hplace hroom)
    rw [setListed, List.foldlM_cons, hset]
    exact ih hrest (h.set hfits hplace hset)

end Play

theorem empty_within (T : Finset (Side × Nat)) (capacity : Nat) :
    Within T capacity (OrderBook.empty capacity) fun _ => [] :=
  ⟨OrderBook.empty_holds capacity, fun _ hk => absurd rfl hk, fun _ => Nat.zero_le 1,
    Nat.zero_le _⟩

/-! ### Pass after pass -/

/-- Replaying the feed again changes nothing and needs no further slots. A moment of the
replay is after some of its calls. -/
structure Settles (capacity : Nat) (snap : DepthSnapshot) (feed : List DepthUpdate) : Prop where
  moments : ∀ passes, steadyState capacity snap feed passes =
    setListed (OrderBook.empty capacity) (played snap feed passes)
  returns : (touched snap feed).card ≤ min capacity (2 ^ 31) →
    ∀ passes moment, moment <+: played snap feed passes →
      (setListed (OrderBook.empty capacity) moment).isSome
  again : ∀ passes book book', steadyState capacity snap feed 1 = some book →
    steadyState capacity snap feed (passes + 1) = some book' →
    book.view = book'.view ∧ book.FollowsAlike book'
  bounded : ∀ passes moment book, moment <+: played snap feed passes →
    setListed (OrderBook.empty capacity) moment = some book →
    book.pool.size = book.bidLevels.length + book.askLevels.length ∧
      book.pool.nodes.length ≤ (touched snap feed).card

theorem mem_of_mem_played {snap : DepthSnapshot} {feed : List DepthUpdate} {passes : Nat}
    {x : Listed} (hx : x ∈ played snap feed passes) :
    x ∈ listed snap.bids snap.asks ++ feedLevels feed := by
  rcases List.mem_append.mp hx with hseed | hpass
  · exact List.mem_append_left _ hseed
  · obtain ⟨pass, hpass, hx⟩ := List.mem_flatten.mp hpass
    rw [List.eq_of_mem_replicate hpass] at hx
    exact List.mem_append_right _ hx

/-- After the first pass each further one writes what is there already. -/
theorem overwrite_played (m : Orders) (snap : DepthSnapshot) (feed : List DepthUpdate)
    (passes : Nat) :
    overwrite m ((played snap feed (passes + 1)).map written) =
      overwrite m ((played snap feed 1).map written) := by
  simp only [played, List.map_append, List.map_flatten, List.map_replicate, overwrite_append,
    overwrite_replicate _ _ passes, overwrite_replicate _ _ 0]

theorem settles {capacity : Nat} {snap : DepthSnapshot} {feed : List DepthUpdate}
    (hfits : ∀ x ∈ listed snap.bids snap.asks ++ feedLevels feed, x.2.volume ≤ int64Max) :
    Settles capacity snap feed := by
  have hplayed : ∀ {passes}, ∀ x ∈ played snap feed passes,
      x.2.volume ≤ int64Max ∧ place x ∈ touched snap feed := by
    intro passes x hx
    have hmem := mem_of_mem_played hx
    exact ⟨hfits x hmem, List.mem_toFinset.mpr (List.mem_map_of_mem hmem)⟩
  have hmoment : ∀ {passes moment}, moment <+: played snap feed passes →
      ∀ x ∈ moment, x.2.volume ≤ int64Max ∧ place x ∈ touched snap feed :=
    fun hinitial x hx => hplayed x (hinitial.subset hx)
  have hempty := empty_within (touched snap feed) capacity
  constructor
  · exact steadyState_eq capacity snap feed
  · intro hroom passes moment hinitial
    exact hempty.play_isSome (hmoment hinitial) hroom
  · intro passes book book' hbook hbook'
    rw [steadyState_eq] at hbook hbook'
    have hholds := (hempty.play hplayed hbook).holds
    have hholds' := (hempty.play hplayed hbook').holds
    rw [overwrite_played] at hholds'
    exact ⟨hholds.view_eq hholds', hholds.followsAlike hholds'⟩
  · intro passes moment book hinitial hbook
    have hwithin := hempty.play (hmoment hinitial) hbook
    exact ⟨(restingCount_of_holds hwithin.holds hwithin.support hwithin.atMostOne).1,
      hwithin.slots⟩

/-- A price that the seed sets twice and the feed removes and sets again, in a pool that has
just the three slots needed. -/
theorem settles_threePlaces :
    (touched ⟨[⟨100, 5⟩, ⟨100, 7⟩], [⟨101, 3⟩]⟩ [⟨[⟨100, 0⟩, ⟨99, 4⟩, ⟨100, 2⟩], [⟨101, -1⟩]⟩]).card
        = 3 ∧
      Settles 3 ⟨[⟨100, 5⟩, ⟨100, 7⟩], [⟨101, 3⟩]⟩
        [⟨[⟨100, 0⟩, ⟨99, 4⟩, ⟨100, 2⟩], [⟨101, -1⟩]⟩] :=
  ⟨by decide, settles (by decide)⟩

end MarketReplay

end ExchangeEngine
