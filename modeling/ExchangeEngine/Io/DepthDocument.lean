import ExchangeEngine.Io.DepthLevels

/-!
`parse_binance_depth` and `parse_binance_depth_update` of `src/io/binance_depth.cpp`: a
snapshot and an update are two scalars or three and two level lists, under different names.
simdjson is a parameter. A document is asked for one field after another, and what it answers
may depend on what it was asked before.
-/

namespace ExchangeEngine

/-- What simdjson delivers for a value, as a number or as an array. -/
structure JsonValue where
  uint64 : Except String Nat
  array : JsonArray

/-- `ondemand::parser::iterate` and `ondemand::document::operator[]`. -/
structure Simdjson (D : Type) where
  iterate : List Char → Except String D
  field : D → String → Except String JsonValue × D

namespace DepthDocument

open DepthLevels

/-- A snapshot, with the number of the last update in it. -/
structure Snapshot extends DepthSnapshot where
  lastUpdateId : Nat := 0
  deriving DecidableEq, Repr

/-- An update, with its time and the numbers of its first and last change. -/
structure Update extends DepthUpdate where
  eventTime : Nat := 0
  firstUpdateId : Nat := 0
  finalUpdateId : Nat := 0
  deriving DecidableEq, Repr

section Parse

variable {D : Type} (json : Simdjson D)

/-- A scalar that is absent or not a number is left 0. -/
def readScalar (doc : D) (key : String) : Nat × D :=
  match json.field doc key with
  | (.error _, doc) => (0, doc)
  | (.ok value, doc) =>
    match value.uint64 with
    | .error _ => (0, doc)
    | .ok n => (n, doc)

def parseSides (doc : D) (bidKey askKey : String) (priceDecimals qtyDecimals : Int) :
    Except String (List PriceLevel × List PriceLevel) :=
  match json.field doc bidKey with
  | (.error message, _) => .error (bidKey ++ ": " ++ message)
  | (.ok bidsValue, doc) =>
    match parseLevels bidsValue.array priceDecimals qtyDecimals with
    | .error message => .error message
    | .ok bids =>
      match json.field doc askKey with
      | (.error message, _) => .error (askKey ++ ": " ++ message)
      | (.ok asksValue, _) =>
        match parseLevels asksValue.array priceDecimals qtyDecimals with
        | .error message => .error message
        | .ok asks => .ok (bids, asks)

def parseBinanceDepth (text : List Char) (priceDecimals qtyDecimals : Int) :
    Except String Snapshot :=
  match json.iterate text with
  | .error message => .error message
  | .ok doc =>
    let (lastUpdateId, doc) := readScalar json doc "lastUpdateId"
    match parseSides json doc "bids" "asks" priceDecimals qtyDecimals with
    | .error message => .error message
    | .ok (bids, asks) => .ok {bids, asks, lastUpdateId}

def parseBinanceDepthUpdate (text : List Char) (priceDecimals qtyDecimals : Int) :
    Except String Update :=
  match json.iterate text with
  | .error message => .error message
  | .ok doc =>
    let (eventTime, doc) := readScalar json doc "E"
    let (firstUpdateId, doc) := readScalar json doc "U"
    let (finalUpdateId, doc) := readScalar json doc "u"
    match parseSides json doc "b" "a" priceDecimals qtyDecimals with
    | .error message => .error message
    | .ok (bids, asks) => .ok {bids, asks, eventTime, firstUpdateId, finalUpdateId}

end Parse

/-! ### Which documents are accepted -/

variable {D : Type} {json : Simdjson D} {priceDecimals qtyDecimals : Int}

/-- Asked for two fields, the document delivers two lists of pairs of texts. -/
def Lists (json : Simdjson D) (doc : D) (bidKey askKey : String) (rawBids rawAsks : List RawLevel) :
    Prop :=
  ∃ bidsValue rest asksValue rest', json.field doc bidKey = (.ok bidsValue, rest) ∧
    bidsValue.array = .ok (rawBids.map pair) ∧ json.field rest askKey = (.ok asksValue, rest') ∧
    asksValue.array = .ok (rawAsks.map pair)

theorem parseSides_ok_iff {doc : D} {bidKey askKey : String}
    {sides : List PriceLevel × List PriceLevel} :
    parseSides json doc bidKey askKey priceDecimals qtyDecimals = .ok sides ↔
      ∃ rawBids rawAsks, Lists json doc bidKey askKey rawBids rawAsks ∧
        List.Forall₂ (Scales priceDecimals qtyDecimals) rawBids sides.1 ∧
        List.Forall₂ (Scales priceDecimals qtyDecimals) rawAsks sides.2 := by
  constructor
  · intro h
    unfold parseSides at h
    split at h
    · cases h
    rename_i bidsValue rest hbids
    split at h
    · cases h
    rename_i bids hbidLevels
    split at h
    · cases h
    rename_i asksValue rest' hasks
    split at h
    · cases h
    rename_i asks haskLevels
    obtain rfl := Except.ok.inj h
    obtain ⟨rawBids, hbidArray, hbidScales⟩ := parseLevels_ok_iff.mp hbidLevels
    obtain ⟨rawAsks, haskArray, haskScales⟩ := parseLevels_ok_iff.mp haskLevels
    exact ⟨rawBids, rawAsks, ⟨bidsValue, rest, asksValue, rest', hbids, hbidArray, hasks,
      haskArray⟩, hbidScales, haskScales⟩
  · rintro ⟨rawBids, rawAsks, ⟨bidsValue, rest, asksValue, rest', hbids, hbidArray, hasks,
      haskArray⟩, hbidScales, haskScales⟩
    have hbidLevels := parseLevels_ok_iff.mpr ⟨rawBids, hbidArray, hbidScales⟩
    have haskLevels := parseLevels_ok_iff.mpr ⟨rawAsks, haskArray, haskScales⟩
    simp only [parseSides, hbids, hbidLevels, hasks, haskLevels]

/-- A document after it was asked for some fields. -/
def asked (json : Simdjson D) (doc : D) (keys : List String) : D :=
  keys.foldl (fun doc key => (json.field doc key).2) doc

/-- The text is a document with the two lists, which are asked for behind some scalars. -/
def Reads (json : Simdjson D) (scalars : List String) (bidKey askKey : String) (text : List Char)
    (rawBids rawAsks : List RawLevel) : Prop :=
  ∃ doc, json.iterate text = .ok doc ∧ Lists json (asked json doc scalars) bidKey askKey
    rawBids rawAsks

abbrev ReadsSnapshot (json : Simdjson D) : List Char → List RawLevel → List RawLevel → Prop :=
  Reads json ["lastUpdateId"] "bids" "asks"

abbrev ReadsUpdate (json : Simdjson D) : List Char → List RawLevel → List RawLevel → Prop :=
  Reads json ["E", "U", "u"] "b" "a"

/-- The scalars have no part in whether the lists are read. -/
theorem readScalar_snd (doc : D) (key : String) :
    (readScalar json doc key).2 = (json.field doc key).2 := by
  unfold readScalar
  split
  · rename_i hfield
    rw [hfield]
  · rename_i hfield
    rw [hfield]
    split <;> rfl

theorem parseBinanceDepth_eq {text : List Char} {doc : D} (hdoc : json.iterate text = .ok doc) :
    (parseBinanceDepth json text priceDecimals qtyDecimals).map Snapshot.toDepthSnapshot =
      (parseSides json (asked json doc ["lastUpdateId"]) "bids" "asks" priceDecimals
        qtyDecimals).map fun sides => ⟨sides.1, sides.2⟩ := by
  simp only [parseBinanceDepth, hdoc, asked, List.foldl, ← readScalar_snd]
  split <;> rename_i hsides <;> rw [hsides] <;> rfl

theorem parseBinanceDepthUpdate_eq {text : List Char} {doc : D}
    (hdoc : json.iterate text = .ok doc) :
    (parseBinanceDepthUpdate json text priceDecimals qtyDecimals).map Update.toDepthUpdate =
      (parseSides json (asked json doc ["E", "U", "u"]) "b" "a" priceDecimals
        qtyDecimals).map fun sides => ⟨sides.1, sides.2⟩ := by
  simp only [parseBinanceDepthUpdate, hdoc, asked, List.foldl, ← readScalar_snd]
  split <;> rename_i hsides <;> rw [hsides] <;> rfl

theorem map_ok_iff {ε α β : Type} {x : Except ε α} {f : α → β} {y : β} :
    x.map f = .ok y ↔ ∃ a, x = .ok a ∧ f a = y := by
  cases x with
  | error e => simp [Except.map]
  | ok a => simp [Except.map]

section Accepted

variable {text : List Char} {bids asks : List PriceLevel}

/-- Read as a list of fields, a text is accepted for its two lists. -/
theorem sides_ok_iff {D' : Type} {f : List PriceLevel × List PriceLevel → D'}
    {result : Except String D'} {scalars : List String} {bidKey askKey : String} (hf : Function.Injective f)
    (hdocument : ∀ doc, json.iterate text = .ok doc → result =
      (parseSides json (asked json doc scalars) bidKey askKey priceDecimals qtyDecimals).map f)
    (hnone : ∀ message, json.iterate text = .error message → result = .error message) :
    result = .ok (f (bids, asks)) ↔ ∃ rawBids rawAsks,
      Reads json scalars bidKey askKey text rawBids rawAsks ∧
        List.Forall₂ (Scales priceDecimals qtyDecimals) rawBids bids ∧
        List.Forall₂ (Scales priceDecimals qtyDecimals) rawAsks asks := by
  cases hiterate : json.iterate text with
  | error message =>
    rw [hnone message hiterate]
    constructor
    · intro h
      cases h
    · rintro ⟨rawBids, rawAsks, ⟨doc, hdoc, -⟩, -⟩
      rw [hiterate] at hdoc
      cases hdoc
  | ok doc =>
    rw [hdocument doc hiterate, map_ok_iff]
    constructor
    · rintro ⟨sides, hsides, heq⟩
      obtain rfl := hf heq
      obtain ⟨rawBids, rawAsks, hlists, hbids, hasks⟩ := parseSides_ok_iff.mp hsides
      exact ⟨rawBids, rawAsks, ⟨doc, hiterate, hlists⟩, hbids, hasks⟩
    · rintro ⟨rawBids, rawAsks, ⟨doc', hdoc, hlists⟩, hbids, hasks⟩
      obtain rfl := Except.ok.inj (hiterate.symm.trans hdoc)
      exact ⟨_, parseSides_ok_iff.mpr ⟨rawBids, rawAsks, hlists, hbids, hasks⟩, rfl⟩

theorem snapshot_ok_iff :
    (parseBinanceDepth json text priceDecimals qtyDecimals).map Snapshot.toDepthSnapshot =
        .ok ⟨bids, asks⟩ ↔
      ∃ rawBids rawAsks, ReadsSnapshot json text rawBids rawAsks ∧
        List.Forall₂ (Scales priceDecimals qtyDecimals) rawBids bids ∧
        List.Forall₂ (Scales priceDecimals qtyDecimals) rawAsks asks := by
  apply sides_ok_iff (f := fun sides => DepthSnapshot.mk sides.1 sides.2)
  · rintro ⟨_, _⟩ ⟨_, _⟩ heq
    cases heq
    rfl
  · exact fun doc hdoc => parseBinanceDepth_eq hdoc
  · intro message hmessage
    rw [parseBinanceDepth, hmessage]
    rfl

theorem update_ok_iff :
    (parseBinanceDepthUpdate json text priceDecimals qtyDecimals).map Update.toDepthUpdate =
        .ok ⟨bids, asks⟩ ↔
      ∃ rawBids rawAsks, ReadsUpdate json text rawBids rawAsks ∧
        List.Forall₂ (Scales priceDecimals qtyDecimals) rawBids bids ∧
        List.Forall₂ (Scales priceDecimals qtyDecimals) rawAsks asks := by
  apply sides_ok_iff (f := fun sides => DepthUpdate.mk sides.1 sides.2)
  · rintro ⟨_, _⟩ ⟨_, _⟩ heq
    cases heq
    rfl
  · exact fun doc hdoc => parseBinanceDepthUpdate_eq hdoc
  · intro message hmessage
    rw [parseBinanceDepthUpdate, hmessage]
    rfl

end Accepted

end DepthDocument

end ExchangeEngine
