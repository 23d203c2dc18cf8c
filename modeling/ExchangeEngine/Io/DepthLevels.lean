import ExchangeEngine.Io.DecimalText

/-!
`parse_levels` of `src/io/binance_depth.cpp`. simdjson hands over the array in document
order, with the message of an error in place of whatever it cannot deliver. A first pass
collects the texts of all pairs, a second one scales them.
-/

namespace ExchangeEngine

/-- What `get_string` delivers for a field. -/
abbrev JsonField := Except String (List Char)

/-- What `get_array` delivers for an element. -/
abbrev JsonElement := Except String (List JsonField)

/-- What `get_array` delivers for the value of the level list. -/
abbrev JsonArray := Except String (List JsonElement)

structure RawLevel where
  price : List Char := []
  qty : List Char := []
  deriving DecidableEq, Repr

structure PriceLevel where
  price : Nat
  volume : Int
  deriving DecidableEq, Repr

/-- The levels of a snapshot. -/
structure DepthSnapshot where
  bids : List PriceLevel
  asks : List PriceLevel
  deriving DecidableEq, Repr

/-- The levels of one diff-depth event. -/
structure DepthUpdate where
  bids : List PriceLevel
  asks : List PriceLevel
  deriving DecidableEq, Repr

namespace DepthLevels

/-- `fields[count] = sv`, for the two fields there are. -/
def setField (fields : RawLevel) (count : Nat) (sv : List Char) : RawLevel :=
  if count = 0 then {fields with price := sv}
  else if count = 1 then {fields with qty := sv}
  else fields

def readFields : List JsonField → RawLevel → Nat → Except String (RawLevel × Nat)
  | [], fields, count => .ok (fields, count)
  | .error message :: _, _, _ => .error message
  | .ok sv :: pair, fields, count => readFields pair (setField fields count sv) (count + 1)

def readElement : JsonElement → Except String RawLevel
  | .error message => .error message
  | .ok pair =>
    match readFields pair {} 0 with
    | .error message => .error message
    | .ok (fields, count) =>
      if count ≠ 2 then .error "level is not a [price, qty] pair" else .ok fields

/-- The first pass. -/
def collect : List JsonElement → List RawLevel → Except String (List RawLevel)
  | [], raw => .ok raw
  | element :: array, raw =>
    match readElement element with
    | .error message => .error message
    | .ok level => collect array (raw ++ [level])

/-- `static_cast<Price>`. -/
def toPrice (value : Int) : Nat := (value % 2 ^ 64).toNat

/-- The second pass. -/
def scale (priceDecimals qtyDecimals : Int) :
    List RawLevel → List PriceLevel → Except String (List PriceLevel)
  | [], levels => .ok levels
  | level :: raw, levels =>
    match (parseScaled level.price priceDecimals).2, (parseScaled level.qty qtyDecimals).2 with
    | .error message, _ => .error message
    | .ok _, .error message => .error message
    | .ok price, .ok qty => scale priceDecimals qtyDecimals raw (levels ++ [⟨toPrice price, qty⟩])

def parseLevels (arrayValue : JsonArray) (priceDecimals qtyDecimals : Int) :
    Except String (List PriceLevel) :=
  match arrayValue with
  | .error message => .error message
  | .ok array =>
    match collect array [] with
    | .error message => .error message
    | .ok raw => scale priceDecimals qtyDecimals raw []

/-! ### The two passes -/

/-- The element that holds the two texts of a level. -/
def pair (level : RawLevel) : JsonElement := .ok [.ok level.price, .ok level.qty]

theorem readFields_count {fields : List JsonField} {start raw : RawLevel} {count count' : Nat}
    (h : readFields fields start count = .ok (raw, count')) :
    count' = count + fields.length := by
  induction fields generalizing start count with
  | nil =>
    obtain ⟨-, rfl⟩ := Prod.mk.inj (Except.ok.inj h)
    rfl
  | cons field fields ih =>
    cases field with
    | error message => cases h
    | ok sv =>
      rw [ih h, List.length_cons]
      omega

/-- An element is read exactly if it is a pair of texts. -/
theorem readElement_ok_iff {element : JsonElement} {level : RawLevel} :
    readElement element = .ok level ↔ element = pair level := by
  constructor
  · intro h
    rcases element with message | fields
    · cases h
    simp only [readElement] at h
    split at h
    · cases h
    · rename_i raw count hread
      split at h
      · cases h
      · rename_i hcount
        obtain rfl := Except.ok.inj h
        have hlength := readFields_count hread
        rcases fields with _ | ⟨first, _ | ⟨second, _ | ⟨third, fields⟩⟩⟩
        · simp at hlength; omega
        · simp at hlength; omega
        · rcases first with _ | price
          · cases hread
          rcases second with _ | qty
          · cases hread
          obtain ⟨rfl, -⟩ := Prod.mk.inj (Except.ok.inj hread)
          rfl
        · simp at hlength; omega
  · rintro rfl
    rfl

theorem collect_ok_iff {array : List JsonElement} {raw result : List RawLevel} :
    collect array raw = .ok result ↔
      ∃ levels, array = levels.map pair ∧ result = raw ++ levels := by
  induction array generalizing raw with
  | nil =>
    constructor
    · intro h
      obtain rfl := Except.ok.inj h
      exact ⟨[], rfl, (List.append_nil _).symm⟩
    · rintro ⟨levels, hnil, rfl⟩
      rw [List.map_eq_nil_iff.mp hnil.symm, List.append_nil]
      rfl
  | cons element array ih =>
    constructor
    · intro h
      simp only [collect] at h
      split at h
      · cases h
      · rename_i level hlevel
        obtain ⟨levels, rfl, rfl⟩ := ih.mp h
        exact ⟨level :: levels, by rw [readElement_ok_iff.mp hlevel, List.map_cons],
          by rw [List.append_assoc, List.singleton_append]⟩
    · rintro ⟨levels, hmap, rfl⟩
      obtain ⟨level, levels, rfl, rfl, rfl⟩ := List.map_eq_cons_iff.mp hmap.symm
      simp only [collect, readElement_ok_iff.mpr rfl]
      exact ih.mpr ⟨levels, rfl, by rw [List.append_assoc, List.singleton_append]⟩

/-- The level that two accepted texts are scaled to. -/
def Scales (priceDecimals qtyDecimals : Int) (raw : RawLevel) (level : PriceLevel) : Prop :=
  ∃ price, (parseScaled raw.price priceDecimals).2 = .ok price ∧
    (parseScaled raw.qty qtyDecimals).2 = .ok level.volume ∧ level.price = toPrice price

theorem scale_ok_iff {priceDecimals qtyDecimals : Int} {raw : List RawLevel}
    {levels result : List PriceLevel} :
    scale priceDecimals qtyDecimals raw levels = .ok result ↔
      ∃ scaled, List.Forall₂ (Scales priceDecimals qtyDecimals) raw scaled ∧
        result = levels ++ scaled := by
  induction raw generalizing levels with
  | nil =>
    constructor
    · intro h
      obtain rfl := Except.ok.inj h
      exact ⟨[], .nil, (List.append_nil _).symm⟩
    · rintro ⟨scaled, hscaled, rfl⟩
      rw [List.forall₂_nil_left_iff.mp hscaled, List.append_nil]
      rfl
  | cons level raw ih =>
    constructor
    · intro h
      simp only [scale] at h
      split at h
      · cases h
      · cases h
      · rename_i price qty hprice hqty
        obtain ⟨scaled, hscaled, rfl⟩ := ih.mp h
        exact ⟨⟨toPrice price, qty⟩ :: scaled, .cons ⟨price, hprice, hqty, rfl⟩ hscaled,
          by rw [List.append_assoc, List.singleton_append]⟩
    · rintro ⟨scaled, hscaled, rfl⟩
      obtain ⟨⟨price, qty⟩, scaled, ⟨value, hprice, hqty, rfl⟩, hrest, rfl⟩ :=
        List.forall₂_cons_left_iff.mp hscaled
      simp only [scale, hprice, hqty]
      exact ih.mpr ⟨scaled, hrest, by rw [List.append_assoc, List.singleton_append]⟩

/-- A level list is read exactly if it lists pairs of texts that are accepted. -/
theorem parseLevels_ok_iff {arrayValue : JsonArray} {priceDecimals qtyDecimals : Int}
    {levels : List PriceLevel} :
    parseLevels arrayValue priceDecimals qtyDecimals = .ok levels ↔
      ∃ raw, arrayValue = .ok (raw.map pair) ∧
        List.Forall₂ (Scales priceDecimals qtyDecimals) raw levels := by
  constructor
  · intro h
    rcases arrayValue with message | array
    · cases h
    simp only [parseLevels] at h
    split at h
    · cases h
    · rename_i raw hcollect
      obtain ⟨_, rfl, rfl⟩ := collect_ok_iff.mp hcollect
      obtain ⟨_, hscaled, rfl⟩ := scale_ok_iff.mp h
      exact ⟨_, rfl, hscaled⟩
  · rintro ⟨raw, rfl, hscaled⟩
    have hcollect : collect (raw.map pair) [] = .ok raw := collect_ok_iff.mpr ⟨raw, rfl, rfl⟩
    simp only [parseLevels, hcollect]
    exact scale_ok_iff.mpr ⟨levels, hscaled, rfl⟩

/-! ### Faithful levels -/

/-- The scaled number of a text, truncated toward zero. -/
def scaledDecimal (text : List Char) (decimals : Int) : Int :=
  truncate (decimal text * 10 ^ decimals.toNat)

/-- A pair of texts that the parser accepts. -/
def Accepted (priceDecimals qtyDecimals : Int) (level : RawLevel) : Prop :=
  Accepts level.price priceDecimals ∧ Accepts level.qty qtyDecimals

/-- A price is not negative. -/
def Loadable (priceDecimals qtyDecimals : Int) (level : RawLevel) : Prop :=
  Accepted priceDecimals qtyDecimals level ∧ 0 ≤ decimal level.price

/-- The level has the numbers of the two texts. -/
def Denotes (priceDecimals qtyDecimals : Int) (raw : RawLevel) (level : PriceLevel) : Prop :=
  (level.price : Int) = scaledDecimal raw.price priceDecimals ∧
    level.volume = scaledDecimal raw.qty qtyDecimals

/-- Either one faithful level for each element is returned, in order, or some element is
not a pair of acceptable texts and an error is returned. -/
def Faithful (arrayValue : JsonArray) (priceDecimals qtyDecimals : Int) : Prop :=
  match parseLevels arrayValue priceDecimals qtyDecimals with
  | .ok levels => ∃ raw : List RawLevel, arrayValue = .ok (raw.map pair) ∧
      (∀ level ∈ raw, Loadable priceDecimals qtyDecimals level) ∧
      List.Forall₂ (Denotes priceDecimals qtyDecimals) raw levels
  | .error _ => ¬ ∃ raw : List RawLevel, arrayValue = .ok (raw.map pair) ∧
      ∀ level ∈ raw, Loadable priceDecimals qtyDecimals level

/-- The decimal texts in the list have scaled magnitudes that fit in 64 bits. -/
def InRange (arrayValue : JsonArray) (priceDecimals qtyDecimals : Int) : Prop :=
  ∀ raw : List RawLevel, arrayValue = .ok (raw.map pair) → ∀ level ∈ raw,
    (IsDecimal level.price → |scaledDecimal level.price priceDecimals| ≤ int64Max) ∧
      (IsDecimal level.qty → |scaledDecimal level.qty qtyDecimals| ≤ int64Max)

/-- In a list of acceptable pairs no price is negative. -/
def PricesNonneg (arrayValue : JsonArray) (priceDecimals qtyDecimals : Int) : Prop :=
  ∀ raw : List RawLevel, arrayValue = .ok (raw.map pair) →
    (∀ level ∈ raw, Accepted priceDecimals qtyDecimals level) →
      ∀ level ∈ raw, 0 ≤ decimal level.price

theorem pair_injective : Function.Injective pair := by
  intro x y h
  simp only [pair, Except.ok.injEq, List.cons.injEq] at h
  obtain ⟨hprice, hqty, -⟩ := h
  cases x
  cases y
  simp_all

theorem eq_of_pairs {levels raw : List RawLevel}
    (h : (.ok (levels.map pair) : JsonArray) = .ok (raw.map pair)) : raw = levels :=
  List.map_injective_iff.mpr pair_injective (Except.ok.inj h.symm)

theorem decimal_nonneg {text : List Char} (h : isNegative text = false) : 0 ≤ decimal text := by
  rw [decimal, h, if_neg (by decide), one_mul]
  positivity

theorem parseScaled_negative {text : List Char} {decimals : Int} (h : decimals < 0) :
    ¬ Accepts text decimals := by
  rintro ⟨v, hv⟩
  rw [parseScaled, if_pos h] at hv
  cases hv

theorem isDecimal_of_accepts {text : List Char} {decimals : Int} (h : Accepts text decimals) :
    IsDecimal text := by
  obtain ⟨d, rfl⟩ := Int.eq_ofNat_of_zero_le
    (Int.not_lt.mp fun hneg => parseScaled_negative hneg h)
  obtain ⟨hplain, hkept⟩ := accepts_iff.mp h
  exact isDecimal_iff.mpr ⟨hplain, (keptDigits_ne_nil_iff.mp hkept).1⟩

/-- A value in range is the scaled number. -/
theorem value_eq {text : List Char} {decimals v : Int}
    (hv : (parseScaled text decimals).2 = .ok v)
    (hfits : IsDecimal text → |scaledDecimal text decimals| ≤ int64Max) :
    v = scaledDecimal text decimals ∧ |v| ≤ int64Max := by
  have hfits := hfits (isDecimal_of_accepts ⟨v, hv⟩)
  obtain ⟨d, rfl⟩ := Int.eq_ofNat_of_zero_le
    (Int.not_lt.mp fun hneg => parseScaled_negative hneg ⟨v, hv⟩)
  have hvalue := value_of_accepts hv hfits
  exact ⟨hvalue, hvalue ▸ hfits⟩

theorem scaledDecimal_nonneg {text : List Char} (h : 0 ≤ decimal text) (decimals : Int) :
    0 ≤ scaledDecimal text decimals := by
  have hscaled : 0 ≤ decimal text * 10 ^ decimals.toNat := by positivity
  rw [scaledDecimal, truncate, if_pos hscaled]
  exact Int.floor_nonneg.mpr hscaled

/-- A nonnegative value is the price as it is. -/
theorem toPrice_eq {v : Int} (hlow : 0 ≤ v) (hhigh : v ≤ int64Max) : (toPrice v : Int) = v := by
  unfold toPrice int64Max at *
  omega

theorem accepted_of_scales {priceDecimals qtyDecimals : Int} {raw : List RawLevel}
    {levels : List PriceLevel} (h : List.Forall₂ (Scales priceDecimals qtyDecimals) raw levels) :
    ∀ level ∈ raw, Accepted priceDecimals qtyDecimals level := by
  induction h with
  | nil => simp
  | cons hscales _ ih =>
    obtain ⟨price, hprice, hqty, -⟩ := hscales
    exact List.forall_mem_cons.mpr ⟨⟨⟨price, hprice⟩, ⟨_, hqty⟩⟩, ih⟩

theorem exists_scales {priceDecimals qtyDecimals : Int} {raw : List RawLevel}
    (h : ∀ level ∈ raw, Accepted priceDecimals qtyDecimals level) :
    ∃ levels, List.Forall₂ (Scales priceDecimals qtyDecimals) raw levels := by
  induction raw with
  | nil => exact ⟨[], .nil⟩
  | cons level raw ih =>
    obtain ⟨⟨⟨price, hprice⟩, ⟨qty, hqty⟩⟩, hrest⟩ := List.forall_mem_cons.mp h
    obtain ⟨levels, hlevels⟩ := ih hrest
    exact ⟨⟨toPrice price, qty⟩ :: levels, .cons ⟨price, hprice, hqty, rfl⟩ hlevels⟩

/-- A level in range that is not negative is scaled as it should. -/
theorem denotes_of_scales {priceDecimals qtyDecimals : Int} {raw : List RawLevel}
    {levels : List PriceLevel} (h : List.Forall₂ (Scales priceDecimals qtyDecimals) raw levels)
    (hfits : ∀ level ∈ raw,
      (IsDecimal level.price → |scaledDecimal level.price priceDecimals| ≤ int64Max) ∧
        (IsDecimal level.qty → |scaledDecimal level.qty qtyDecimals| ≤ int64Max))
    (hnonneg : ∀ level ∈ raw, 0 ≤ decimal level.price) :
    List.Forall₂ (Denotes priceDecimals qtyDecimals) raw levels := by
  induction h with
  | nil => exact .nil
  | cons hscales _ ih =>
    obtain ⟨⟨hprice, hqty⟩, hfits⟩ := List.forall_mem_cons.mp hfits
    obtain ⟨hsign, hnonneg⟩ := List.forall_mem_cons.mp hnonneg
    obtain ⟨price, hparsed, hparsed', hcast⟩ := hscales
    obtain ⟨rfl, hbound⟩ := value_eq hparsed hprice
    have hcast' := toPrice_eq (scaledDecimal_nonneg hsign priceDecimals) (abs_le.mp hbound).2
    exact .cons ⟨hcast ▸ hcast', (value_eq hparsed' hqty).1⟩ (ih hfits hnonneg)

/-- A level list is loaded faithfully exactly if none of its prices is negative: the sign is
never looked at. -/
theorem parseLevels_faithful_iff {arrayValue : JsonArray} {priceDecimals qtyDecimals : Int}
    (hfits : InRange arrayValue priceDecimals qtyDecimals) :
    Faithful arrayValue priceDecimals qtyDecimals ↔
      PricesNonneg arrayValue priceDecimals qtyDecimals := by
  constructor
  · intro hfaithful raw harray haccepted
    obtain ⟨levels, hlevels⟩ := exists_scales haccepted
    have hok := parseLevels_ok_iff.mpr ⟨raw, harray, hlevels⟩
    simp only [Faithful, hok] at hfaithful
    obtain ⟨raw', harray', hload, -⟩ := hfaithful
    have hsame := Except.ok.inj (harray.symm.trans harray')
    obtain rfl := List.map_injective_iff.mpr pair_injective hsame
    exact fun level hlevel => (hload level hlevel).2
  · intro hnonneg
    unfold Faithful
    split
    · rename_i levels hok
      obtain ⟨raw, harray, hscales⟩ := parseLevels_ok_iff.mp hok
      have haccepted := accepted_of_scales hscales
      have hsigns := hnonneg raw harray haccepted
      exact ⟨raw, harray, fun level hlevel => ⟨haccepted level hlevel, hsigns level hlevel⟩,
        denotes_of_scales hscales (hfits raw harray) hsigns⟩
    · rename_i message herror
      rintro ⟨raw, harray, hload⟩
      obtain ⟨levels, hlevels⟩ := exists_scales fun level hlevel => (hload level hlevel).1
      rw [parseLevels_ok_iff.mpr ⟨raw, harray, hlevels⟩] at herror
      cases herror

/-- One text is padded, one is truncated and one is scaled exactly. -/
theorem parseLevels_faithful_iff_pairs :
    parseLevels (.ok [.ok [.ok "1.5".toList, .ok "2".toList],
        .ok [.ok "0.129".toList, .ok "30".toList], .ok [.ok "1.25".toList, .ok "0".toList]]) 2 0 =
      .ok [⟨150, 2⟩, ⟨12, 30⟩, ⟨125, 0⟩] ∧
    Faithful (.ok [.ok [.ok "1.5".toList, .ok "2".toList],
      .ok [.ok "0.129".toList, .ok "30".toList], .ok [.ok "1.25".toList, .ok "0".toList]]) 2 0 := by
  refine ⟨by decide, (parseLevels_faithful_iff fun raw harray => ?_).mpr fun raw harray _ => ?_⟩
  · have hraw : raw = [⟨"1.5".toList, "2".toList⟩, ⟨"0.129".toList, "30".toList⟩,
        ⟨"1.25".toList, "0".toList⟩] := eq_of_pairs harray
    rw [hraw]
    simp only [List.forall_mem_cons, scaledDecimal, abs_truncate_decimal]
    refine ⟨⟨?_, ?_⟩, ⟨?_, ?_⟩, ⟨?_, ?_⟩, by simp⟩ <;>
    · intro _
      decide +kernel
  · have hraw : raw = [⟨"1.5".toList, "2".toList⟩, ⟨"0.129".toList, "30".toList⟩,
        ⟨"1.25".toList, "0".toList⟩] := eq_of_pairs harray
    rw [hraw]
    simp only [List.forall_mem_cons]
    exact ⟨decimal_nonneg (by decide), decimal_nonneg (by decide), decimal_nonneg (by decide),
      by simp⟩

/-- A bid of one tick below zero becomes the highest price there is. -/
theorem parseLevels_faithful_false :
    InRange (.ok [.ok [.ok "-1".toList, .ok "2".toList]]) 0 0 ∧
      ¬ Faithful (.ok [.ok [.ok "-1".toList, .ok "2".toList]]) 0 0 := by
  constructor
  · intro raw harray
    have hraw : raw = [⟨"-1".toList, "2".toList⟩] := eq_of_pairs harray
    rw [hraw, List.forall_mem_singleton]
    constructor <;>
    · intro _
      rw [scaledDecimal, abs_truncate_decimal]
      decide +kernel
  · have hparsed : parseLevels (.ok [.ok [.ok "-1".toList, .ok "2".toList]]) 0 0 =
        .ok [⟨18446744073709551615, 2⟩] := by decide
    intro hfaithful
    simp only [Faithful, hparsed] at hfaithful
    obtain ⟨raw, harray, -, hdenotes⟩ := hfaithful
    have hraw : raw = [⟨"-1".toList, "2".toList⟩] := eq_of_pairs harray
    rw [hraw] at hdenotes
    obtain ⟨⟨hprice, -⟩, -⟩ := List.forall₂_cons.mp hdenotes
    rw [scaledDecimal, truncate_decimal] at hprice
    exact absurd hprice (by decide +kernel)

end DepthLevels

end ExchangeEngine
