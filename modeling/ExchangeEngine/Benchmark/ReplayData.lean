import ExchangeEngine.Io.DepthDocument
import ExchangeEngine.Tools.DepthRecording
import ExchangeEngine.Tools.SnapshotLoad

/-!
The market replay from its files: the text of a saved snapshot and a recording of diff-depth
frames are parsed and played into a book. What the book holds in the end is read off the
decimal texts in the frames: at each price the size that was listed there last.
-/

namespace ExchangeEngine

open Fifo Text Overwrite DepthCapture DepthLevels DepthDocument DepthRecording

namespace MarketReplay

structure ReplayData where
  snap : Snapshot
  feed : List Update
  /-- The number of levels in the feed. -/
  levels : Nat
  deriving DecidableEq, Repr

/-- The loop of `load` that counts the levels of a feed. -/
def countLevels (feed : List Update) : Nat :=
  feed.foldl (fun levels u => levels + (u.bids.length + u.asks.length)) 0

section Load

variable {D : Type} (json : Simdjson D)

/-- With `OB_SNAPSHOT` set to a file of that text. The program aborts if there is no result. -/
def snapshot (text : List Char) (priceDecimals qtyDecimals : Int) : Option Snapshot :=
  match parseBinanceDepth json text priceDecimals qtyDecimals with
  | .error _ => none
  | .ok parsed => some parsed

/-- With `OB_REPLAY` set to a file of that text. -/
def updates (rounds : Nat) (text : List Char) (priceDecimals qtyDecimals : Int) :
    Option (List Update) :=
  match parseBinanceDepthUpdates (parseBinanceDepthUpdate json) rounds text priceDecimals
    qtyDecimals with
  | some (.returned (.ok parsed)) => some parsed
  | _ => none

def load (rounds : Nat) (snapshotText replayText : List Char)
    (priceDecimals qtyDecimals : Int) : Option ReplayData := do
  let snap ← snapshot json snapshotText priceDecimals qtyDecimals
  let feed ← updates json rounds replayText priceDecimals qtyDecimals
  some ⟨snap, feed, countLevels feed⟩

end Load

namespace ReplayData

def snapLevels (data : ReplayData) : DepthSnapshot := data.snap.toDepthSnapshot

def feedUpdates (data : ReplayData) : List DepthUpdate := data.feed.map Update.toDepthUpdate

end ReplayData

/-- `BM_MarketReplay_Cold`: the book of one iteration. -/
def cold (capacity : Nat) (data : ReplayData) : Option OrderBook := do
  let book ← seedBook (OrderBook.empty capacity) data.snapLevels
  data.feedUpdates.foldlM apply book

/-! ### What the texts say -/

/-- The level that a pair of decimal texts stands for. -/
def textLevel (priceDecimals qtyDecimals : Int) (raw : RawLevel) : PriceLevel :=
  ⟨(scaledDecimal raw.price priceDecimals).toNat, scaledDecimal raw.qty qtyDecimals⟩

def textCalls (priceDecimals qtyDecimals : Int) (rawBids rawAsks : List RawLevel) : List Listed :=
  listed (rawBids.map (textLevel priceDecimals qtyDecimals))
    (rawAsks.map (textLevel priceDecimals qtyDecimals))

/-- Two decimal numbers in range, the price not negative. -/
structure Readable (priceDecimals qtyDecimals : Int) (raw : RawLevel) : Prop where
  loadable : Loadable priceDecimals qtyDecimals raw
  price : scaledDecimal raw.price priceDecimals ≤ int64Max
  qty : |scaledDecimal raw.qty qtyDecimals| ≤ int64Max

/-- The size that is listed last for a price, or 0. -/
def lastSize (calls : List Listed) (s : Side) (p : Nat) : Int :=
  match (calls.filter fun x => place x = (s, p)).getLast? with
  | none => 0
  | some x => max x.2.volume 0

section Texts

variable {priceDecimals qtyDecimals : Int}

theorem scales_textLevel {raw : RawLevel} (h : Readable priceDecimals qtyDecimals raw) :
    Scales priceDecimals qtyDecimals raw (textLevel priceDecimals qtyDecimals raw) := by
  obtain ⟨⟨⟨price, hprice⟩, ⟨qty, hqty⟩⟩, hsign⟩ := h.loadable
  have hnonneg := scaledDecimal_nonneg hsign priceDecimals
  have hfits : |scaledDecimal raw.price priceDecimals| ≤ int64Max := by
    rw [abs_of_nonneg hnonneg]
    exact h.price
  obtain ⟨hvalue, -⟩ := value_eq hprice fun _ => hfits
  obtain ⟨hsize, -⟩ := value_eq hqty fun _ => h.qty
  subst hvalue hsize
  refine ⟨_, hprice, hqty, ?_⟩
  have hcast := toPrice_eq hnonneg h.price
  show (scaledDecimal raw.price priceDecimals).toNat = _
  omega

theorem forall₂_textLevel {raw : List RawLevel}
    (h : ∀ level ∈ raw, Readable priceDecimals qtyDecimals level) :
    List.Forall₂ (Scales priceDecimals qtyDecimals) raw
      (raw.map (textLevel priceDecimals qtyDecimals)) := by
  apply List.forall₂_map_right_iff.mpr
  apply List.forall₂_same.mpr
  intro level hlevel
  exact scales_textLevel (h level hlevel)

variable {D : Type} {json : Simdjson D} {rawBids rawAsks : List RawLevel}
  (hbids : ∀ level ∈ rawBids, Readable priceDecimals qtyDecimals level)
  (hasks : ∀ level ∈ rawAsks, Readable priceDecimals qtyDecimals level)
include hbids hasks

theorem exists_snapshot {text : List Char} (hreads : ReadsSnapshot json text rawBids rawAsks) :
    ∃ snap, parseBinanceDepth json text priceDecimals qtyDecimals = .ok snap ∧
      listed snap.bids snap.asks = textCalls priceDecimals qtyDecimals rawBids rawAsks := by
  have hok := snapshot_ok_iff.mpr
    ⟨rawBids, rawAsks, hreads, forall₂_textLevel hbids, forall₂_textLevel hasks⟩
  obtain ⟨snap, hsnap, hsides⟩ := map_ok_iff.mp hok
  refine ⟨snap, hsnap, ?_⟩
  rw [hsides]
  rfl

theorem exists_update {text : List Char} (hreads : ReadsUpdate json text rawBids rawAsks) :
    ∃ u, parseBinanceDepthUpdate json text priceDecimals qtyDecimals = .ok u ∧
      listed u.bids u.asks = textCalls priceDecimals qtyDecimals rawBids rawAsks := by
  have hok := update_ok_iff.mpr
    ⟨rawBids, rawAsks, hreads, forall₂_textLevel hbids, forall₂_textLevel hasks⟩
  obtain ⟨u, hu, hsides⟩ := map_ok_iff.mp hok
  refine ⟨u, hu, ?_⟩
  rw [hsides]
  rfl

end Texts

/-- The two lists of texts in a frame. -/
abbrev RawSides := List RawLevel × List RawLevel

section Frames

variable {D : Type} {json : Simdjson D} {priceDecimals qtyDecimals : Int}

theorem exists_updates {frames : List (List Char)} {lists : List RawSides}
    (hreads : List.Forall₂ (fun data raw => ReadsUpdate json data raw.1 raw.2) frames lists)
    (hreadable : ∀ raw ∈ lists, ∀ level ∈ raw.1 ++ raw.2,
      Readable priceDecimals qtyDecimals level) :
    ∃ feed : List Update, frames.map (parseBinanceDepthUpdate json · priceDecimals qtyDecimals) =
        feed.map .ok ∧
      feedLevels (feed.map Update.toDepthUpdate) =
        lists.flatMap fun raw => textCalls priceDecimals qtyDecimals raw.1 raw.2 := by
  induction hreads with
  | nil => exact ⟨[], rfl, rfl⟩
  | @cons data raw frames lists hdata _ ih =>
    obtain ⟨hraw, hlists⟩ := List.forall_mem_cons.mp hreadable
    obtain ⟨hbids, hasks⟩ := List.forall_mem_append.mp hraw
    obtain ⟨u, hu, hcalls⟩ := exists_update hbids hasks hdata
    obtain ⟨feed, hfeed, hfeedCalls⟩ := ih hlists
    refine ⟨u :: feed, ?_, ?_⟩
    · rw [List.map_cons, List.map_cons, hu, hfeed]
    · rw [List.map_cons, feedLevels, List.flatMap_cons, ← feedLevels, hfeedCalls, hcalls,
        List.flatMap_cons]

end Frames

theorem countLevels_eq (feed : List Update) :
    countLevels feed = (feedLevels (feed.map Update.toDepthUpdate)).length := by
  have hcount : ∀ n, feed.foldl (fun levels u => levels + (u.bids.length + u.asks.length)) n =
      n + (feedLevels (feed.map Update.toDepthUpdate)).length := by
    induction feed with
    | nil => exact fun n => rfl
    | cons u feed ih =>
      intro n
      have hcons : feedLevels ((u :: feed).map Update.toDepthUpdate) =
          listed u.bids u.asks ++ feedLevels (feed.map Update.toDepthUpdate) := rfl
      rw [List.foldl_cons, ih, hcons, List.length_append, listed, List.length_append,
        List.length_map, List.length_map]
      omega
  rw [countLevels, hcount, Nat.zero_add]

/-! ### What is played -/

/-- What the book holds at a price after some calls. -/
theorem total_overwrite (calls : List Listed) (s : Side) (p : Nat) :
    total (overwrite (fun _ => []) (calls.map written) (s, p)) = lastSize calls s p := by
  rw [overwrite_eq_getLast?, List.filter_map, lastSize, List.getLast?_map, Option.map_map]
  have hfilter : calls.filter ((fun w => decide (w.1 = (s, p))) ∘ written) =
      calls.filter fun x => place x = (s, p) := rfl
  rw [hfilter]
  cases (calls.filter fun x => place x = (s, p)).getLast? with
  | none => rfl
  | some x => exact SnapshotLoad.total_single x.2.volume

theorem lastSize_le {calls : List Listed} (hfits : ∀ x ∈ calls, x.2.volume ≤ int64Max) (s : Side)
    (p : Nat) : 0 ≤ lastSize calls s p ∧ lastSize calls s p ≤ int64Max := by
  rw [lastSize]
  split
  · decide
  · rename_i x hx
    have hmem := List.mem_filter.mp (List.mem_of_getLast? hx)
    have hle := hfits x hmem.1
    have hmax : 0 ≤ int64Max := by decide
    omega

/-- A replay of some passes leaves at each price the size that was listed there last. -/
theorem steadyState_lastSize {capacity : Nat} {snap : DepthSnapshot} {feed : List DepthUpdate}
    (hfits : ∀ x ∈ listed snap.bids snap.asks ++ feedLevels feed, x.2.volume ≤ int64Max)
    (hroom : (touched snap feed).card ≤ min capacity (2 ^ 31)) (passes : Nat) :
    ∃ book, steadyState capacity snap feed (passes + 1) = some book ∧ ∀ s p,
      book.volumeAtPrice p s =
        some (lastSize (listed snap.bids snap.asks ++ feedLevels feed) s p) := by
  have hplayed : ∀ x ∈ played snap feed (passes + 1),
      x.2.volume ≤ int64Max ∧ place x ∈ touched snap feed := by
    intro x hx
    have hmem := mem_of_mem_played hx
    exact ⟨hfits x hmem, List.mem_toFinset.mpr (List.mem_map_of_mem hmem)⟩
  have hempty := empty_within (touched snap feed) capacity
  obtain ⟨book, hbook⟩ := Option.isSome_iff_exists.mp (hempty.play_isSome hplayed hroom)
  have hholds := (hempty.play hplayed hbook).holds
  rw [overwrite_played] at hholds
  refine ⟨book, (steadyState_eq capacity snap feed (passes + 1)).trans hbook, ?_⟩
  intro s p
  have hone : played snap feed 1 = listed snap.bids snap.asks ++ feedLevels feed := by
    rw [played, List.replicate_one, List.flatten_singleton]
  obtain ⟨hlow, hhigh⟩ := lastSize_le hfits s p
  rw [hholds.volumeAtPrice_eq, hone, total_overwrite, wrap64_eq (by omega) hhigh]

theorem cold_eq (capacity : Nat) (data : ReplayData) :
    cold capacity data = steadyState capacity data.snapLevels data.feedUpdates 1 := rfl

section Recording

variable {D : Type} {json : Simdjson D} {priceDecimals qtyDecimals : Int} {capacity : Nat}
  {turns : List Round} {r : Recording} {result : Except String Unit}
  {snapshotText : List Char} {snapLists : RawSides} {feedLists : List RawSides}

/-- All calls of the first pass, as the texts list them. -/
def recordedCalls (priceDecimals qtyDecimals : Int) (snapLists : RawSides)
    (feedLists : List RawSides) : List Listed :=
  textCalls priceDecimals qtyDecimals snapLists.1 snapLists.2 ++
    feedLists.flatMap fun raw => textCalls priceDecimals qtyDecimals raw.1 raw.2

theorem mem_textCalls {rawBids rawAsks : List RawLevel} {x : Listed}
    (hx : x ∈ textCalls priceDecimals qtyDecimals rawBids rawAsks) :
    ∃ level ∈ rawBids ++ rawAsks, textLevel priceDecimals qtyDecimals level = x.2 := by
  rcases List.mem_append.mp hx with hx | hx
  · obtain ⟨_, hlevel, rfl⟩ := List.mem_map.mp hx
    obtain ⟨level, hmem, rfl⟩ := List.mem_map.mp hlevel
    exact ⟨level, List.mem_append_left _ hmem, rfl⟩
  · obtain ⟨_, hlevel, rfl⟩ := List.mem_map.mp hx
    obtain ⟨level, hmem, rfl⟩ := List.mem_map.mp hlevel
    exact ⟨level, List.mem_append_right _ hmem, rfl⟩

theorem mem_recordedCalls {x : Listed}
    (hx : x ∈ recordedCalls priceDecimals qtyDecimals snapLists feedLists) :
    ∃ raw ∈ snapLists :: feedLists, ∃ level ∈ raw.1 ++ raw.2,
      textLevel priceDecimals qtyDecimals level = x.2 := by
  rcases List.mem_append.mp hx with hx | hx
  · exact ⟨snapLists, List.mem_cons_self, mem_textCalls hx⟩
  · obtain ⟨raw, hraw, hx⟩ := List.mem_flatMap.mp hx
    exact ⟨raw, List.mem_cons_of_mem _ hraw, mem_textCalls hx⟩

/-- From the frames on the socket to the book: whichever way the recording ended, its replay
succeeds, and from the first pass on the book has at each price the last size that the
texts list for it. -/
theorem recording_replays (hcapture : capture turns {} = some (r, result))
    (hframes : ∀ data ∈ received turns, OneLine data)
    (hsnap : ReadsSnapshot json snapshotText snapLists.1 snapLists.2)
    (hfeed : List.Forall₂ (fun data raw => ReadsUpdate json data raw.1 raw.2) (received turns)
      feedLists)
    (hreadable : ∀ raw ∈ snapLists :: feedLists, ∀ level ∈ raw.1 ++ raw.2,
      Readable priceDecimals qtyDecimals level)
    (hroom : ((recordedCalls priceDecimals qtyDecimals snapLists feedLists).map place).toFinset.card
      ≤ min capacity (2 ^ 31)) :
    ∃ data, load json (r.out.length + 1) snapshotText r.out priceDecimals qtyDecimals =
        some data ∧ data.levels = (feedLevels data.feedUpdates).length ∧
      ∀ passes, ∃ book,
        steadyState capacity data.snapLevels data.feedUpdates (passes + 1) = some book ∧
        ∀ s p, book.volumeAtPrice p s =
          some (lastSize (recordedCalls priceDecimals qtyDecimals snapLists feedLists) s p) := by
  obtain ⟨hraw, hlists⟩ := List.forall_mem_cons.mp hreadable
  obtain ⟨hbids, hasks⟩ := List.forall_mem_append.mp hraw
  obtain ⟨snap, hparsed, hsnapCalls⟩ := exists_snapshot hbids hasks hsnap
  obtain ⟨feed, hupdates, hfeedCalls⟩ := exists_updates hfeed hlists
  have hout : r.out = recorded (received turns) := (capture_out hcapture).1
  have hreturns := returns_accepted hframes hupdates (r.out.length + 1)
    (by rw [← hout]; exact Nat.lt_succ_self _)
  rw [← hout] at hreturns
  have hload : load json (r.out.length + 1) snapshotText r.out priceDecimals qtyDecimals =
      some ⟨snap, feed, countLevels feed⟩ := by
    simp only [load, snapshot, hparsed, updates, hreturns]
    rfl
  refine ⟨_, hload, ?_⟩
  -- what the documents list is what is played
  have hcalls : listed snap.bids snap.asks ++ feedLevels (feed.map Update.toDepthUpdate) =
      recordedCalls priceDecimals qtyDecimals snapLists feedLists := by
    rw [hsnapCalls, hfeedCalls]
    rfl
  have hfits : ∀ x ∈ recordedCalls priceDecimals qtyDecimals snapLists feedLists,
      x.2.volume ≤ int64Max := by
    intro x hx
    obtain ⟨raw, hmem, level, hlevel, hx⟩ := mem_recordedCalls hx
    rw [← hx]
    exact (abs_le.mp (hreadable raw hmem level hlevel).qty).2
  rw [← hcalls] at hfits hroom ⊢
  exact ⟨countLevels_eq feed, steadyState_lastSize hfits hroom⟩

end Recording

/-- An array of levels, which is no number. -/
def levelsValue (raw : List RawLevel) : JsonValue :=
  ⟨.error "The JSON element does not have the requested type.", .ok (raw.map pair)⟩

def quotedBid : List Char := "\x7b\"bids\":[[\"1.5\",\"2\"]],\"asks\":[]\x7d".toList

def removedBid : List Char :=
  "\x7b\"b\":[[\"1.50\",\"0\"],[\"1.4\",\"3\"]],\"a\":[]\x7d".toList

/-- On the two texts, the fields by their names. -/
def quotedFields : Simdjson (List (String × JsonValue)) where
  iterate text :=
    if text = quotedBid then
      .ok [("bids", levelsValue [⟨"1.5".toList, "2".toList⟩]), ("asks", levelsValue [])]
    else if text = removedBid then
      .ok [("b", levelsValue [⟨"1.50".toList, "0".toList⟩, ⟨"1.4".toList, "3".toList⟩]),
        ("a", levelsValue [])]
    else .error "Empty: no JSON found"
  field doc key :=
    match doc.lookup key with
    | none => (.error "The JSON field referenced does not exist in this object.", doc)
    | some value => (.ok value, doc)

/-- The recorded frame takes the quoted bid away and lists another one. -/
theorem recording_replays_oneFrame : ∃ r data,
    capture [.frame removedBid, .closed] {} = some (r, .ok ()) ∧
    load quotedFields (r.out.length + 1) quotedBid r.out 2 0 = some data ∧
      ∀ passes, ∃ book, steadyState 3 data.snapLevels data.feedUpdates (passes + 1) = some book ∧
        book.volumeAtPrice 150 .bid = some 0 ∧ book.volumeAtPrice 140 .bid = some 3 := by
  have hframes : ∀ data ∈ received [.frame removedBid, .closed], OneLine data := by
    intro data hdata
    rw [List.mem_singleton.mp hdata]
    exact ⟨by decide, by decide, by decide⟩
  have hsnap : ReadsSnapshot quotedFields quotedBid [⟨"1.5".toList, "2".toList⟩] [] :=
    ⟨_, rfl, _, _, _, _, rfl, rfl, rfl, rfl⟩
  have hfeed : List.Forall₂ (fun data raw => ReadsUpdate quotedFields data raw.1 raw.2)
      (received [.frame removedBid, .closed])
      [([⟨"1.50".toList, "0".toList⟩, ⟨"1.4".toList, "3".toList⟩], [])] :=
    .cons ⟨_, rfl, _, _, _, _, rfl, rfl, rfl, rfl⟩ .nil
  have hreadable : ∀ raw ∈ ([([⟨"1.5".toList, "2".toList⟩], []),
        ([⟨"1.50".toList, "0".toList⟩, ⟨"1.4".toList, "3".toList⟩], [])] : List RawSides),
      ∀ level ∈ raw.1 ++ raw.2, Readable 2 0 level := by
    intro raw hraw level hlevel
    have hlevel : level = ⟨"1.5".toList, "2".toList⟩ ∨ level = ⟨"1.50".toList, "0".toList⟩ ∨
        level = ⟨"1.4".toList, "3".toList⟩ := by
      simp only [List.mem_cons, List.not_mem_nil, or_false] at hraw
      rcases hraw with rfl | rfl <;> simp at hlevel <;> tauto
    rcases hlevel with rfl | rfl | rfl
    all_goals
      refine ⟨⟨⟨⟨_, rfl⟩, ⟨_, rfl⟩⟩, decimal_nonneg (by decide)⟩, ?_, ?_⟩
      · decide +kernel
      · decide +kernel
  have hroom : ((recordedCalls 2 0 ([⟨"1.5".toList, "2".toList⟩], [])
      [([⟨"1.50".toList, "0".toList⟩, ⟨"1.4".toList, "3".toList⟩], [])]).map place).toFinset.card ≤
        min 3 (2 ^ 31) := by decide +kernel
  obtain ⟨data, hload, -, hreplay⟩ :=
    recording_replays rfl hframes hsnap hfeed hreadable hroom
  refine ⟨_, data, rfl, hload, ?_⟩
  intro passes
  obtain ⟨book, hbook, hvolume⟩ := hreplay passes
  refine ⟨book, hbook, ?_, ?_⟩
  · rw [hvolume]
    decide +kernel
  · rw [hvolume]
    decide +kernel

end MarketReplay

end ExchangeEngine
