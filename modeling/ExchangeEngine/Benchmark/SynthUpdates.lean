import ExchangeEngine.Benchmark.ReplayData
import Mathlib.Order.Interval.Finset.Nat

/-!
The synthetic data of `benchmark/market_replay.cpp`, which is replayed where no files are
given. What the random distributions give is a parameter of which only the ranges are known.
Whatever it is, the reference price of a side stays within reach of where it began, so no
price wraps around, and the prices are few enough for the pool of the book.
-/

namespace ExchangeEngine

open DepthLevels DepthDocument

namespace MarketReplay

def kSynthMid : Nat := 15000

def kSynthDepth : Nat := 1000

def kSynthEvents : Nat := 5000

def kSynthTouchPerSide : Nat := 12

def kSynthWindow : Nat := 200

/-- `snapshot` with `OB_SNAPSHOT` unset. -/
def synthSnapshot : Snapshot where
  bids := (List.range kSynthDepth).map fun tick => ⟨toPrice ((kSynthMid : Int) - tick), 100⟩
  asks := (List.range kSynthDepth).map fun tick => ⟨toPrice ((kSynthMid : Int) + 1 + tick), 100⟩

/-- What is drawn for one level of each side. -/
structure Touch where
  bidOff : Nat
  bidQty : Int
  askOff : Nat
  askQty : Int
  deriving DecidableEq, Repr

/-- What is drawn for one event, and after it. -/
structure Draws where
  touches : List Touch
  bidDrift : Int
  askDrift : Int
  deriving DecidableEq, Repr

/-- A reference price after a drift. -/
def wander (ref : Nat) (drift : Int) : Nat := toPrice (wrap64 ref + drift)

def touchBid (ref : Nat) (t : Touch) : PriceLevel := ⟨toPrice ((ref : Int) - t.bidOff), t.bidQty⟩

def touchAsk (ref : Nat) (t : Touch) : PriceLevel := ⟨toPrice ((ref : Int) + t.askOff), t.askQty⟩

/-- The events that are left to make. -/
def synthEvents : List Draws → Nat → Nat → Nat → List Update
  | [], _, _, _ => []
  | d :: draws, bidRef, askRef, updateId =>
    let bids := d.touches.map (touchBid bidRef)
    let asks := d.touches.map (touchAsk askRef)
    let next := updateId + (bids.length + asks.length)
    {bids, asks, firstUpdateId := updateId, finalUpdateId := next - 1} ::
      synthEvents draws (wander bidRef d.bidDrift) (wander askRef d.askDrift) next

def bestBid (seed : Snapshot) : Nat := seed.bids.head?.elim kSynthMid PriceLevel.price

def bestAsk (seed : Snapshot) : Nat := seed.asks.head?.elim (kSynthMid + 1) PriceLevel.price

def synthUpdates (seed : Snapshot) (draws : List Draws) : List Update :=
  synthEvents draws (bestBid seed) (bestAsk seed) 1

/-- The ranges of the distributions. -/
structure Touch.InRange (t : Touch) : Prop where
  bidOff : t.bidOff ≤ kSynthWindow
  askOff : t.askOff ≤ kSynthWindow
  bidQty : 0 ≤ t.bidQty ∧ t.bidQty ≤ 200
  askQty : 0 ≤ t.askQty ∧ t.askQty ≤ 200

structure Draws.InRange (d : Draws) : Prop where
  length_touches : d.touches.length = kSynthTouchPerSide
  touches : ∀ t ∈ d.touches, t.InRange
  bidDrift : -2 ≤ d.bidDrift ∧ d.bidDrift ≤ 2
  askDrift : -2 ≤ d.askDrift ∧ d.askDrift ≤ 2

/-! ### The reference prices -/

theorem wander_eq {ref : Nat} {drift : Int} (href : ref ≤ int64Max) (hlow : 0 ≤ ref + drift)
    (hhigh : ref + drift ≤ int64Max) : (wander ref drift : Int) = ref + drift := by
  rw [wander, wrap64_eq (by omega) href, toPrice_eq hlow hhigh]

/-- The reference price at each event. -/
def walk : List Int → Nat → List Nat
  | [], _ => []
  | drift :: drifts, ref => ref :: walk drifts (wander ref drift)

/-- A walk of some steps keeps to a stretch of twice as many prices. -/
theorem exists_stretch {drifts : List Int} {ref : Nat}
    (hdrifts : ∀ drift ∈ drifts, -2 ≤ drift ∧ drift ≤ 2) (hlow : 2 * drifts.length ≤ ref)
    (hhigh : (ref + 2 * drifts.length : Int) ≤ int64Max) :
    ∃ lo, lo ≤ ref ∧ ref ≤ lo + 2 * drifts.length ∧
      ∀ r ∈ walk drifts ref, lo ≤ r ∧ r ≤ lo + 2 * drifts.length := by
  induction drifts generalizing ref with
  | nil => exact ⟨ref, Nat.le_refl _, Nat.le_refl _, nofun⟩
  | cons drift drifts ih =>
    obtain ⟨hdrift, hrest⟩ := List.forall_mem_cons.mp hdrifts
    rw [List.length_cons] at hlow hhigh ⊢
    have hnext : (wander ref drift : Int) = ref + drift :=
      wander_eq (by omega) (by omega) (by omega)
    obtain ⟨lo, hle, hge, hwalk⟩ := @ih (wander ref drift) hrest (by omega) (by omega)
    refine ⟨min lo ref, Nat.min_le_right _ _, by omega, ?_⟩
    intro r hr
    rcases List.mem_cons.mp hr with rfl | hr
    · omega
    · obtain ⟨hlo, hhi⟩ := hwalk r hr
      omega

theorem mem_synthEvents {draws : List Draws} {bidRef askRef updateId : Nat} {u : Update}
    (hu : u ∈ synthEvents draws bidRef askRef updateId) :
    ∃ d ∈ draws, ∃ b ∈ walk (draws.map Draws.bidDrift) bidRef,
      ∃ a ∈ walk (draws.map Draws.askDrift) askRef,
        u.bids = d.touches.map (touchBid b) ∧ u.asks = d.touches.map (touchAsk a) := by
  induction draws generalizing bidRef askRef updateId with
  | nil => cases hu
  | cons d draws ih =>
    rcases List.mem_cons.mp hu with rfl | hu
    · exact ⟨d, List.mem_cons_self, bidRef, List.mem_cons_self, askRef, List.mem_cons_self,
        rfl, rfl⟩
    · obtain ⟨e, he, b, hb, a, ha, hsides⟩ := ih hu
      exact ⟨e, List.mem_cons_of_mem _ he, b, List.mem_cons_of_mem _ hb, a,
        List.mem_cons_of_mem _ ha, hsides⟩

/-! ### The numbers of the events -/

theorem head_synthEvents {draws : List Draws} {bidRef askRef updateId : Nat} {u : Update}
    (hu : u ∈ (synthEvents draws bidRef askRef updateId).head?) : u.firstUpdateId = updateId := by
  cases draws with
  | nil => cases hu
  | cons d draws =>
    obtain rfl := Option.some.inj hu
    rfl

theorem numbered_synthEvents {draws : List Draws} {bidRef askRef updateId : Nat}
    (hdraws : ∀ d ∈ draws, d.InRange) :
    (synthEvents draws bidRef askRef updateId).IsChain fun u v =>
      u.finalUpdateId + 1 = v.firstUpdateId := by
  induction draws generalizing bidRef askRef updateId with
  | nil => exact List.isChain_nil
  | cons d draws ih =>
    obtain ⟨hd, hrest⟩ := List.forall_mem_cons.mp hdraws
    refine List.isChain_cons.mpr ⟨?_, ih hrest⟩
    intro v hv
    rw [head_synthEvents hv, List.length_map, List.length_map, hd.length_touches]
    rfl

/-! ### The prices of the events -/

/-- A level between two prices, of a size that is drawn. -/
def Between (lo hi : Nat) (level : PriceLevel) : Prop :=
  (lo ≤ level.price ∧ level.price ≤ hi) ∧ 0 ≤ level.volume ∧ level.volume ≤ 200

theorem touchBid_between {ref lo hi : Nat} {t : Touch} (ht : t.InRange) (hlo : lo ≤ ref)
    (hhi : ref ≤ hi) (hlow : kSynthWindow ≤ lo) (hhigh : hi ≤ int64Max) :
    Between (lo - kSynthWindow) hi (touchBid ref t) := by
  have hoff := ht.bidOff
  have hnonneg : (0 : Int) ≤ (ref : Int) - t.bidOff := by omega
  have hfits : (ref : Int) - t.bidOff ≤ int64Max := by omega
  have hprice : ((touchBid ref t).price : Int) = ref - t.bidOff := toPrice_eq hnonneg hfits
  refine ⟨⟨?_, ?_⟩, ht.bidQty⟩
  · omega
  · omega

theorem touchAsk_between {ref lo hi : Nat} {t : Touch} (ht : t.InRange) (hlo : lo ≤ ref)
    (hhi : ref ≤ hi) (hhigh : (hi + kSynthWindow : Int) ≤ int64Max) :
    Between lo (hi + kSynthWindow) (touchAsk ref t) := by
  have hoff := ht.askOff
  have hnonneg : (0 : Int) ≤ (ref : Int) + t.askOff := by omega
  have hfits : (ref : Int) + t.askOff ≤ int64Max := by omega
  have hprice : ((touchAsk ref t).price : Int) = ref + t.askOff := toPrice_eq hnonneg hfits
  refine ⟨⟨?_, ?_⟩, ht.askQty⟩
  · omega
  · omega

/-- Both sides stay on one stretch each, wherever it lies. -/
theorem exists_stretches {draws : List Draws} {bidRef askRef updateId : Nat}
    (hdraws : ∀ d ∈ draws, d.InRange)
    (hbid : 2 * draws.length + kSynthWindow ≤ bidRef)
    (hbidHigh : (bidRef + 2 * draws.length : Int) ≤ int64Max)
    (hask : 2 * draws.length ≤ askRef)
    (haskHigh : (askRef + 2 * draws.length + kSynthWindow : Int) ≤ int64Max) :
    ∃ b a, (b ≤ bidRef ∧ bidRef ≤ b + 2 * draws.length) ∧
      (a ≤ askRef ∧ askRef ≤ a + 2 * draws.length) ∧
      ∀ u ∈ synthEvents draws bidRef askRef updateId,
        (∀ level ∈ u.bids, Between (b - kSynthWindow) (b + 2 * draws.length) level) ∧
        ∀ level ∈ u.asks, Between a (a + 2 * draws.length + kSynthWindow) level := by
  have hdriftBid : ∀ drift ∈ draws.map Draws.bidDrift, -2 ≤ drift ∧ drift ≤ 2 := by
    intro drift hdrift
    obtain ⟨d, hd, rfl⟩ := List.mem_map.mp hdrift
    exact (hdraws d hd).bidDrift
  have hdriftAsk : ∀ drift ∈ draws.map Draws.askDrift, -2 ≤ drift ∧ drift ≤ 2 := by
    intro drift hdrift
    obtain ⟨d, hd, rfl⟩ := List.mem_map.mp hdrift
    exact (hdraws d hd).askDrift
  obtain ⟨b, hb, hbRef, hbids⟩ := @exists_stretch _ bidRef hdriftBid
    (by rw [List.length_map]; omega) (by rw [List.length_map]; omega)
  obtain ⟨a, ha, haRef, hasks⟩ := @exists_stretch _ askRef hdriftAsk
    (by rw [List.length_map]; omega) (by rw [List.length_map]; omega)
  rw [List.length_map] at hbRef haRef hbids hasks
  refine ⟨b, a, ⟨hb, hbRef⟩, ⟨ha, haRef⟩, ?_⟩
  intro u hu
  obtain ⟨d, hd, r, hr, q, hq, hubids, huasks⟩ := mem_synthEvents hu
  obtain ⟨hrlo, hrhi⟩ := hbids r hr
  obtain ⟨hqlo, hqhi⟩ := hasks q hq
  constructor
  · intro level hlevel
    rw [hubids] at hlevel
    obtain ⟨t, ht, rfl⟩ := List.mem_map.mp hlevel
    exact touchBid_between ((hdraws d hd).touches t ht) hrlo hrhi (by omega) (by omega)
  · intro level hlevel
    rw [huasks] at hlevel
    obtain ⟨t, ht, rfl⟩ := List.mem_map.mp hlevel
    exact touchAsk_between ((hdraws d hd).touches t ht) hqlo hqhi (by omega)

/-- The places of two stretches and a seed are not many. -/
theorem card_touched_le {snap : DepthSnapshot} {feed : List DepthUpdate} {b b' a a' : Nat}
    (hfeed : ∀ u ∈ feed, (∀ level ∈ u.bids, Between b b' level) ∧
      ∀ level ∈ u.asks, Between a a' level) :
    (touched snap feed).card ≤
      snap.bids.length + snap.asks.length + (b' + 1 - b) + (a' + 1 - a) := by
  have hsubset : touched snap feed ⊆
      ((listed snap.bids snap.asks).map place).toFinset ∪
          (Finset.Icc b b').image (Prod.mk Side.bid) ∪
        (Finset.Icc a a').image (Prod.mk Side.ask) := by
    intro k hk
    obtain ⟨x, hx, rfl⟩ := List.mem_map.mp (List.mem_toFinset.mp hk)
    rcases List.mem_append.mp hx with hx | hx
    · refine Finset.mem_union_left _ (Finset.mem_union_left _ ?_)
      exact List.mem_toFinset.mpr (List.mem_map_of_mem hx)
    · obtain ⟨u, hu, hx⟩ := List.mem_flatMap.mp hx
      obtain ⟨hbids, hasks⟩ := hfeed u hu
      rcases List.mem_append.mp hx with hx | hx
      · obtain ⟨level, hlevel, rfl⟩ := List.mem_map.mp hx
        refine Finset.mem_union_left _ (Finset.mem_union_right _ ?_)
        exact Finset.mem_image_of_mem _ (Finset.mem_Icc.mpr (hbids level hlevel).1)
      · obtain ⟨level, hlevel, rfl⟩ := List.mem_map.mp hx
        refine Finset.mem_union_right _ ?_
        exact Finset.mem_image_of_mem _ (Finset.mem_Icc.mpr (hasks level hlevel).1)
  have hseed := List.toFinset_card_le ((listed snap.bids snap.asks).map place)
  have hbids : ((Finset.Icc b b').image (Prod.mk Side.bid)).card ≤ b' + 1 - b :=
    Finset.card_image_le.trans (Nat.le_of_eq (Nat.card_Icc b b'))
  have hasks : ((Finset.Icc a a').image (Prod.mk Side.ask)).card ≤ a' + 1 - a :=
    Finset.card_image_le.trans (Nat.le_of_eq (Nat.card_Icc a a'))
  have hcard := Finset.card_le_card hsubset
  have hunion := Finset.card_union_le (((listed snap.bids snap.asks).map place).toFinset ∪
    (Finset.Icc b b').image (Prod.mk Side.bid)) ((Finset.Icc a a').image (Prod.mk Side.ask))
  have hunion' := Finset.card_union_le ((listed snap.bids snap.asks).map place).toFinset
    ((Finset.Icc b b').image (Prod.mk Side.bid))
  rw [List.length_map, listed, List.length_append, List.length_map, List.length_map] at hseed
  rw [listed] at hcard hunion hunion'
  omega

/-! ### The synthetic replay -/

/-- The feed, as `set_level` takes it. -/
def synthFeed (seed : Snapshot) (draws : List Draws) : List DepthUpdate :=
  (synthUpdates seed draws).map Update.toDepthUpdate

/-- Every price is where it is without wrapping around, the events are numbered without a
gap, and every replay comes to its end, with each size as it was listed last. -/
structure SynthReplays (capacity : Nat) (seed : Snapshot) (draws : List Draws) : Prop where
  bids : ∀ u ∈ synthUpdates seed draws, ∀ level ∈ u.bids, Between
    (bestBid seed - (2 * draws.length + kSynthWindow)) (bestBid seed + 2 * draws.length) level
  asks : ∀ u ∈ synthUpdates seed draws, ∀ level ∈ u.asks, Between
    (bestAsk seed - 2 * draws.length) (bestAsk seed + 2 * draws.length + kSynthWindow) level
  numbered : (synthUpdates seed draws).IsChain fun u v => u.finalUpdateId + 1 = v.firstUpdateId
  replays : ∀ passes, ∃ book, steadyState capacity seed.toDepthSnapshot (synthFeed seed draws)
      (passes + 1) = some book ∧
    ∀ s p, book.volumeAtPrice p s = some (lastSize
      (listed seed.bids seed.asks ++ feedLevels (synthFeed seed draws)) s p)

theorem Between.mono {lo hi lo' hi' : Nat} {level : PriceLevel} (h : Between lo hi level)
    (hlo : lo' ≤ lo) (hhi : hi ≤ hi') : Between lo' hi' level :=
  ⟨⟨Nat.le_trans hlo h.1.1, Nat.le_trans h.1.2 hhi⟩, h.2⟩

theorem synth_replays {capacity : Nat} {seed : Snapshot} {draws : List Draws}
    (hdraws : ∀ d ∈ draws, d.InRange)
    (hseed : ∀ level ∈ seed.bids ++ seed.asks, level.volume ≤ int64Max)
    (hbid : 2 * draws.length + kSynthWindow ≤ bestBid seed)
    (hbidHigh : (bestBid seed + 2 * draws.length : Int) ≤ int64Max)
    (hask : 2 * draws.length ≤ bestAsk seed)
    (haskHigh : (bestAsk seed + 2 * draws.length + kSynthWindow : Int) ≤ int64Max)
    (hroom : seed.bids.length + seed.asks.length + 2 * (2 * draws.length + kSynthWindow + 1) ≤
      min capacity (2 ^ 31)) : SynthReplays capacity seed draws := by
  obtain ⟨b, a, ⟨hb, hbRef⟩, ⟨ha, haRef⟩, hevents⟩ :=
    @exists_stretches _ _ _ 1 hdraws hbid hbidHigh hask haskHigh
  have hfeed : ∀ u ∈ synthFeed seed draws,
      (∀ level ∈ u.bids, Between (b - kSynthWindow) (b + 2 * draws.length) level) ∧
        ∀ level ∈ u.asks, Between a (a + 2 * draws.length + kSynthWindow) level := by
    intro u hu
    obtain ⟨v, hv, rfl⟩ := List.mem_map.mp hu
    exact hevents v hv
  constructor
  · intro u hu level hlevel
    exact ((hevents u hu).1 level hlevel).mono (by omega) (by omega)
  · intro u hu level hlevel
    exact ((hevents u hu).2 level hlevel).mono (by omega) (by omega)
  · exact numbered_synthEvents hdraws
  · apply steadyState_lastSize
    · intro x hx
      rcases List.mem_append.mp hx with hx | hx
      · rcases List.mem_append.mp hx with hx | hx
        · obtain ⟨level, hlevel, rfl⟩ := List.mem_map.mp hx
          exact hseed level (List.mem_append_left _ hlevel)
        · obtain ⟨level, hlevel, rfl⟩ := List.mem_map.mp hx
          exact hseed level (List.mem_append_right _ hlevel)
      · have hmax : (200 : Int) ≤ int64Max := by decide
        obtain ⟨u, hu, hx⟩ := List.mem_flatMap.mp hx
        obtain ⟨hbids, hasks⟩ := hfeed u hu
        rcases List.mem_append.mp hx with hx | hx
        · obtain ⟨level, hlevel, rfl⟩ := List.mem_map.mp hx
          exact Int.le_trans (hbids level hlevel).2.2 hmax
        · obtain ⟨level, hlevel, rfl⟩ := List.mem_map.mp hx
          exact Int.le_trans (hasks level hlevel).2.2 hmax
    · have hcard := @card_touched_le seed.toDepthSnapshot _ _ _ _ _ hfeed
      omega

theorem volume_synthSnapshot {level : PriceLevel}
    (hlevel : level ∈ synthSnapshot.bids ++ synthSnapshot.asks) : level.volume = 100 := by
  simp only [synthSnapshot, List.mem_append, List.mem_map] at hlevel
  rcases hlevel with ⟨tick, -, rfl⟩ | ⟨tick, -, rfl⟩
  · rfl
  · rfl

/-- Draws at the ends of the ranges. -/
def farthest : Draws := ⟨List.replicate kSynthTouchPerSide ⟨200, 0, 200, 200⟩, -2, 2⟩

theorem farthest_inRange : farthest.InRange := by
  refine ⟨List.length_replicate, ?_, by decide, by decide⟩
  intro t ht
  obtain rfl := List.eq_of_mem_replicate ht
  constructor <;> decide

/-- The data of the benchmark on a book of the default capacity, where everything drawn leads
as far away as it can. -/
theorem synth_replays_farthest :
    SynthReplays (2 ^ 15) synthSnapshot (List.replicate kSynthEvents farthest) := by
  apply synth_replays
  · intro d hd
    rw [List.eq_of_mem_replicate hd]
    exact farthest_inRange
  · intro level hlevel
    rw [volume_synthSnapshot hlevel]
    decide
  · rw [List.length_replicate]
    decide +kernel
  · rw [List.length_replicate]
    decide +kernel
  · rw [List.length_replicate]
    decide +kernel
  · rw [List.length_replicate]
    decide +kernel
  · rw [List.length_replicate]
    decide +kernel

end MarketReplay

end ExchangeEngine
