import Mathlib
import ExchangeEngine.Engine.Order

/-!
`parse_scaled` of `src/io/binance_depth.cpp`. A text is the list of its bytes,
read as characters. The 64-bit accumulator is threaded through the loops
together with a flag that records whether an operation on it has left the range:
in the source that is undefined behaviour, here the value wraps and parsing goes
on, as it does on the compiled code.
-/

namespace ExchangeEngine

/-- simdjson's `is_digit`. -/
def isDigit (c : Char) : Bool := decide ('0' ≤ c) && decide (c ≤ '9')

/-- `text[i] - '0'`. -/
def digit (c : Char) : Nat := c.toNat - '0'.toNat

structure Acc where
  value : Int := 0
  overflow : Bool := false
  deriving DecidableEq, Repr

/-- A result is stored back into the accumulator, wrapped if it does not fit. -/
def Acc.store (acc : Acc) (x : Int) : Acc :=
  ⟨wrap64 x, acc.overflow || decide (x < -2 ^ 63 ∨ int64Max < x)⟩

def Acc.mul (acc : Acc) (x : Int) : Acc := acc.store (acc.value * x)

def Acc.add (acc : Acc) (x : Int) : Acc := acc.store (acc.value + x)

def Acc.neg (acc : Acc) : Acc := acc.store (-acc.value)

/-- `value = value * 10 + (text[i] - '0')`. -/
def Acc.push (acc : Acc) (c : Char) : Acc := (acc.mul 10).add (digit c)

/-- What a piece of the function leaves behind: the accumulator as it stands, and
the piece's result or the message the function returns early with. -/
abbrev Outcome (α : Type) := Acc × Except String α

def Outcome.andThen {α β : Type} (r : Outcome α) (next : Acc → α → Outcome β) : Outcome β :=
  match r with
  | (acc, .ok x) => next acc x
  | (acc, .error message) => (acc, .error message)

/-- The loop over the characters before the point. It stops at the point, which it
leaves in the text, and reports whether a digit was read. -/
def readInteger : List Char → Acc → Bool → Outcome (Bool × List Char)
  | [], acc, anyDigit => (acc, .ok (anyDigit, []))
  | c :: text, acc, anyDigit =>
    if c = '.' then (acc, .ok (anyDigit, c :: text))
    else if !isDigit c then (acc, .error "invalid digit in number")
    else readInteger text (acc.push c) true

/-- The loop over the fraction digits that are kept, at most `decimals` of them. -/
def readFraction (decimals : Int) : List Char → Int → Acc → Bool → Outcome (Int × Bool × List Char)
  | [], consumed, acc, anyDigit => (acc, .ok (consumed, anyDigit, []))
  | c :: text, consumed, acc, anyDigit =>
    if ¬ consumed < decimals then (acc, .ok (consumed, anyDigit, c :: text))
    else if !isDigit c then (acc, .error "invalid digit in number")
    else readFraction decimals text (consumed + 1) (acc.push c) true

/-- The loop over the fraction digits that are cut off. -/
def readTrailing (acc : Acc) : List Char → Outcome Unit
  | [] => (acc, .ok ())
  | c :: text => if !isDigit c then (acc, .error "invalid trailing char") else readTrailing acc text

/-- What follows the integer part. Without a point there is nothing to read. -/
def readPoint (decimals : Int) (acc : Acc) (anyDigit : Bool) : List Char → Outcome (Int × Bool)
  | '.' :: text =>
    (readFraction decimals text 0 acc anyDigit).andThen fun acc (consumed, anyDigit, rest) =>
      (readTrailing acc rest).andThen fun acc _ => (acc, .ok (consumed, anyDigit))
  | _ => (acc, .ok (0, anyDigit))

/-- `n` rounds of the zero padding. -/
def padZeros : Nat → Acc → Acc
  | 0, acc => acc
  | n + 1, acc => padZeros n (acc.mul 10)

/-- The text behind its sign. -/
def unsigned : List Char → List Char
  | [] => []
  | c :: text => if c = '+' ∨ c = '-' then text else c :: text

def isNegative (text : List Char) : Bool := text.head? = some '-'

def parseScaled (text : List Char) (decimals : Int) : Outcome Int :=
  if decimals < 0 then ({}, .error "negative decimals")
  else if text.isEmpty then ({}, .error "empty number")
  else
    (readInteger (unsigned text) {} false).andThen fun acc (anyDigit, rest) =>
      (readPoint decimals acc anyDigit rest).andThen fun acc (consumed, anyDigit) =>
        if !anyDigit then (acc, .error "no digits in number")
        else
          let acc := padZeros (decimals - consumed).toNat acc
          let acc := if isNegative text then acc.neg else acc
          (acc, .ok acc.value)

example : parseScaled "-12.5".toList 2 = (⟨-1250, false⟩, .ok (-1250)) := by decide

example : (parseScaled "1.2x".toList 1).2 = .error "invalid trailing char" := by decide

/-! ### The number a text denotes -/

/-- The number spelled by a list of digits. -/
def number (digits : List Char) : Nat := Nat.ofDigits 10 (digits.reverse.map digit)

/-- Digits, possibly a point and more digits; at least one digit in all. -/
inductive Numeral : List Char → List Char → List Char → Prop
  | whole (int : List Char) (hint : ∀ c ∈ int, isDigit c) (hany : int ≠ []) : Numeral int int []
  | pointed (int frac : List Char) (hint : ∀ c ∈ int, isDigit c) (hfrac : ∀ c ∈ frac, isDigit c)
      (hany : int ++ frac ≠ []) : Numeral (int ++ '.' :: frac) int frac

/-- `int.frac` times `10 ^ decimals`, cut off behind the point. -/
def scaledMagnitude (int frac : List Char) (decimals : Nat) : Nat :=
  number (int ++ frac) * 10 ^ decimals / 10 ^ frac.length

/-- The scaled number, truncated toward zero. -/
def scaledValue (text int frac : List Char) (decimals : Nat) : Int :=
  if isNegative text then -(scaledMagnitude int frac decimals) else scaledMagnitude int frac decimals

/-- The text denotes a number whose scaled value no 64-bit integer represents. -/
def OutOfRange (text : List Char) (decimals : Nat) : Prop :=
  ∃ int frac, Numeral (unsigned text) int frac ∧
    (scaledValue text int frac decimals < -2 ^ 63 ∨ int64Max < scaledValue text int frac decimals)

/-- The digits before the point. -/
def integerDigits (text : List Char) : List Char := (unsigned text).takeWhile isDigit

/-- The digits directly behind the point, if there is one. -/
def fractionDigits (text : List Char) : List Char :=
  match (unsigned text).dropWhile isDigit with
  | '.' :: rest => rest.takeWhile isDigit
  | _ => []

/-- Nothing but digits and at most one point. -/
def isPlain (text : List Char) : Bool :=
  match (unsigned text).dropWhile isDigit with
  | '.' :: rest => rest.all isDigit
  | [] => true
  | _ => false

/-- The leading digits of the text with its fraction digits cut off after
`decimals`; a text without any other characters is padded with zeros where
fraction digits are missing. -/
def keptMagnitude (text : List Char) (decimals : Nat) : Nat :=
  number (integerDigits text ++ (fractionDigits text).take decimals) *
    if isPlain text then 10 ^ (decimals - (fractionDigits text).length) else 1

private theorem digit_lt {c : Char} (hc : isDigit c) : digit c < 10 := by
  simp only [isDigit, Bool.and_eq_true, decide_eq_true_eq, Char.le_def] at hc
  have hhigh : c.toNat ≤ '9'.toNat := hc.2
  simp only [digit, show '9'.toNat = 57 from rfl, show '0'.toNat = 48 from rfl] at *
  omega

@[simp] private theorem not_isDigit_point : isDigit '.' = false := by decide

/-- The parts of a numeral are found by looking for the first character that is no digit. -/
theorem Numeral.parts {text int frac : List Char} (h : Numeral (unsigned text) int frac) :
    integerDigits text = int ∧ fractionDigits text = frac ∧ isPlain text = true ∧
      int ++ frac ≠ [] := by
  generalize hbody : unsigned text = body at h
  cases h with
  | whole _ hint hany =>
    have htake : int.takeWhile isDigit = int := List.takeWhile_eq_self_iff.mpr hint
    have hdrop : int.dropWhile isDigit = [] := List.dropWhile_eq_nil_iff.mpr hint
    simp [integerDigits, fractionDigits, isPlain, hbody, htake, hdrop, hany]
  | pointed _ _ hint hfrac hany =>
    have htake : (int ++ '.' :: frac).takeWhile isDigit = int := by
      rw [List.takeWhile_append_of_pos hint]
      simp
    have hdrop : (int ++ '.' :: frac).dropWhile isDigit = '.' :: frac := by
      rw [List.dropWhile_append_of_pos hint]
      simp
    have hfracTake : frac.takeWhile isDigit = frac := List.takeWhile_eq_self_iff.mpr hfrac
    have hall : frac.all isDigit := by simpa using hfrac
    simp only [integerDigits, fractionDigits, isPlain, hbody, htake, hdrop, hfracTake, hall]
    exact ⟨trivial, trivial, trivial, hany⟩

theorem Numeral.frac_digits {text int frac : List Char} (h : Numeral text int frac) :
    ∀ c ∈ frac, isDigit c := by
  cases h with
  | whole _ _ _ => simp
  | pointed _ _ _ hfrac _ => exact hfrac

@[simp] theorem number_nil : number [] = 0 := rfl

theorem number_concat (digits : List Char) (c : Char) :
    number (digits ++ [c]) = number digits * 10 + digit c := by
  simp [number, Nat.ofDigits_cons]
  omega

theorem number_append (digits more : List Char) :
    number (digits ++ more) = number digits * 10 ^ more.length + number more := by
  simp [number, Nat.ofDigits_append]
  ring

theorem number_lt {digits : List Char} (hdigits : ∀ c ∈ digits, isDigit c) :
    number digits < 10 ^ digits.length := by
  have := Nat.ofDigits_lt_base_pow_length (l := digits.reverse.map digit) (b := 10) (by decide)
    (by simpa using fun c hc => digit_lt (hdigits c hc))
  simpa [number] using this

/-- Cutting off fraction digits and appending zeros is scaling and truncating. -/
theorem scaledMagnitude_eq {frac : List Char} (int : List Char) (decimals : Nat)
    (hfrac : ∀ c ∈ frac, isDigit c) :
    scaledMagnitude int frac decimals =
      number (int ++ frac.take decimals) * 10 ^ (decimals - frac.length) := by
  rcases Nat.le_total frac.length decimals with hle | hle
  · have hpow : 10 ^ decimals = 10 ^ (decimals - frac.length) * 10 ^ frac.length := by
      rw [← pow_add]
      congr 1
      omega
    rw [scaledMagnitude, hpow, ← Nat.mul_assoc, Nat.mul_div_cancel _ (by positivity),
      List.take_of_length_le hle]
  · have hpow : 10 ^ frac.length = 10 ^ (frac.drop decimals).length * 10 ^ decimals := by
      rw [← pow_add]
      congr 1
      simp
      omega
    have hcut : number (frac.drop decimals) < 10 ^ (frac.drop decimals).length :=
      number_lt fun c hc => hfrac c (List.mem_of_mem_drop hc)
    have hsplit : number (int ++ frac) =
        number (int ++ frac.take decimals) * 10 ^ (frac.drop decimals).length +
          number (frac.drop decimals) := by
      rw [← number_append, List.append_assoc, List.take_append_drop]
    rw [scaledMagnitude, hpow, Nat.mul_div_mul_right _ _ (by positivity), hsplit, Nat.mul_comm,
      Nat.mul_add_div (by positivity), Nat.div_eq_of_lt hcut, Nat.sub_eq_zero_of_le hle]
    simp

/-! ### The accumulator -/

/-- The accumulator holds the exact magnitude, or this is too large and the flag is up. -/
def Acc.Tracks (acc : Acc) (m : Nat) : Prop :=
  if (m : Int) ≤ int64Max then acc = ⟨m, false⟩ else acc.overflow = true

theorem Acc.store_of_fits {acc : Acc} {x : Int} (hlow : -2 ^ 63 ≤ x) (hhigh : x ≤ int64Max) :
    acc.store x = ⟨x, acc.overflow⟩ := by
  simp [Acc.store, wrap64_eq hlow hhigh]
  omega

@[simp] theorem Acc.store_overflow_of_overflow {acc : Acc} (x : Int) (hacc : acc.overflow = true) :
    (acc.store x).overflow = true := by
  simp [Acc.store, hacc]

/-- One operation that computes the next magnitude from the last keeps track of it,
as long as magnitudes do not shrink. -/
private theorem Acc.Tracks.store {acc : Acc} {m m' : Nat} {x : Int} (h : acc.Tracks m)
    (hgrow : m ≤ m') (hx : acc.value = m → x = m') : (acc.store x).Tracks m' := by
  unfold Acc.Tracks at *
  by_cases hm : (m : Int) ≤ int64Max
  · rw [if_pos hm] at h
    subst h
    rw [hx rfl]
    split
    · rename_i hm'
      rw [Acc.store_of_fits (by omega) hm']
    · simp [Acc.store]
      omega
  · rw [if_neg hm] at h
    rw [if_neg (by omega)]
    exact Acc.store_overflow_of_overflow x h

theorem Acc.Tracks.mul {acc : Acc} {m : Nat} (h : acc.Tracks m) : (acc.mul 10).Tracks (m * 10) :=
  Tracks.store h (by omega) fun hvalue => by rw [hvalue]; norm_cast

theorem Acc.Tracks.push {acc : Acc} {m : Nat} (h : acc.Tracks m) (c : Char) :
    (acc.push c).Tracks (m * 10 + digit c) :=
  Tracks.store h.mul (by omega) fun hvalue => by rw [hvalue]; norm_cast

theorem Acc.Tracks.foldl_push (digits : List Char) :
    ((digits.foldl Acc.push {}).Tracks (number digits)) := by
  induction digits using List.reverseRecOn with
  | nil => simp [Acc.Tracks, int64Max]
  | append_singleton digits c ih =>
    rw [List.foldl_append, number_concat]
    exact ih.push c

theorem Acc.Tracks.padZeros {acc : Acc} {m : Nat} (h : acc.Tracks m) (n : Nat) :
    (padZeros n acc).Tracks (m * 10 ^ n) := by
  induction n generalizing acc m with
  | zero => simpa [ExchangeEngine.padZeros] using h
  | succ n ih =>
    rw [pow_succ', ← Nat.mul_assoc]
    exact ih h.mul

theorem Acc.Tracks.overflow_iff {acc : Acc} {m : Nat} (h : acc.Tracks m) :
    acc.overflow = false ↔ (m : Int) ≤ int64Max := by
  unfold Acc.Tracks at h
  split at h
  · simp_all
  · simp_all

/-- A magnitude in range can always be negated. -/
theorem Acc.Tracks.neg_overflow {acc : Acc} {m : Nat} (h : acc.Tracks m) :
    acc.neg.overflow = acc.overflow := by
  unfold Acc.Tracks at h
  split at h
  · rename_i hm
    subst h
    rw [Acc.neg, Acc.store_of_fits] <;> simp only [int64Max] at * <;> omega
  · rw [h, Acc.neg, Acc.store_overflow_of_overflow _ h]

/-! ### What the loops read -/

theorem readInteger_eq (text : List Char) (acc : Acc) (anyDigit : Bool) :
    readInteger text acc anyDigit =
      ((text.takeWhile isDigit).foldl Acc.push acc,
        match text.dropWhile isDigit with
        | [] => .ok (anyDigit || !(text.takeWhile isDigit).isEmpty, [])
        | c :: rest =>
          if c = '.' then .ok (anyDigit || !(text.takeWhile isDigit).isEmpty, c :: rest)
          else .error "invalid digit in number") := by
  induction text generalizing acc anyDigit with
  | nil => simp [readInteger]
  | cons c text ih =>
    by_cases hpoint : c = '.'
    · simp [readInteger, hpoint]
    · cases hc : isDigit c with
      | false => simp [readInteger, hpoint, hc]
      | true => simp [readInteger, hpoint, hc, ih]

theorem readFraction_eq (decimals : Int) (text : List Char) (consumed : Int) (acc : Acc)
    (anyDigit : Bool) {n : Nat} (hn : decimals = consumed + n) :
    readFraction decimals text consumed acc anyDigit =
      (((text.takeWhile isDigit).take n).foldl Acc.push acc,
        if ((text.takeWhile isDigit).take n).length < n ∧ ¬ text.all isDigit then
          .error "invalid digit in number"
        else
          .ok (consumed + ((text.takeWhile isDigit).take n).length,
            anyDigit || !((text.takeWhile isDigit).take n).isEmpty, text.drop n)) := by
  induction text generalizing consumed acc anyDigit n with
  | nil => simp [readFraction]
  | cons c text ih =>
    cases n with
    | zero => simp [readFraction, hn]
    | succ n =>
      have hlt : consumed < decimals := by omega
      cases hc : isDigit c with
      | false => simp [readFraction, hlt, hc]
      | true =>
        simp [readFraction, hlt, hc, ih (consumed + 1) (acc.push c) true (n := n) (by omega)]
        congr 2
        rw [Int.add_assoc, Int.add_comm 1]

theorem readTrailing_eq (acc : Acc) (text : List Char) :
    readTrailing acc text =
      (acc, if text.all isDigit then .ok () else .error "invalid trailing char") := by
  induction text with
  | nil => rfl
  | cons c text ih => cases hc : isDigit c <;> simp [readTrailing, hc, ih]

/-- If enough digits could be kept, only what follows them can be anything else. -/
private theorem all_drop_of_take {text : List Char} {n : Nat}
    (hkept : ¬ ((text.takeWhile isDigit).take n).length < n) :
    (text.drop n).all isDigit = text.all isDigit := by
  induction text generalizing n with
  | nil => simp
  | cons c text ih =>
    cases n with
    | zero => rfl
    | succ n =>
      cases hc : isDigit c with
      | false => simp [hc] at hkept
      | true =>
        rw [List.drop_succ_cons, List.all_cons, hc, Bool.true_and]
        exact ih (by simpa [hc] using hkept)

theorem readPoint_eq (decimals : Nat) (acc : Acc) (anyDigit : Bool) (text : List Char) :
    readPoint decimals acc anyDigit ('.' :: text) =
      (((text.takeWhile isDigit).take decimals).foldl Acc.push acc,
        if text.all isDigit then
          .ok ((((text.takeWhile isDigit).take decimals).length : Int),
            anyDigit || !((text.takeWhile isDigit).take decimals).isEmpty)
        else if ((text.takeWhile isDigit).take decimals).length < decimals then
          .error "invalid digit in number"
        else .error "invalid trailing char") := by
  rw [readPoint, readFraction_eq _ _ _ _ _ (n := decimals) (by omega)]
  generalize hkept : (text.takeWhile isDigit).take decimals = kept
  by_cases hall : text.all isDigit
  · have hrest : (text.drop decimals).all isDigit := by
      rw [List.all_eq_true] at *
      exact fun c hc => hall c (List.mem_of_mem_drop hc)
    simp only [hall, hrest, not_true, and_false, if_false, if_true, Outcome.andThen,
      readTrailing_eq, Int.zero_add]
  · by_cases hlt : kept.length < decimals
    · simp only [hlt, hall, if_true, Outcome.andThen]
      rfl
    · have hrest := all_drop_of_take (hkept ▸ hlt)
      simp only [hlt, hall, hrest, false_and, if_false, Outcome.andThen, readTrailing_eq]
      rfl

/-- Padding and negating at the end: the flag tells about the padded magnitude. -/
private theorem finish_overflow {acc : Acc} {m : Nat} (h : acc.Tracks m) (n : Nat) (neg : Bool) :
    (if neg then (padZeros n acc).neg else padZeros n acc).overflow = false ↔
      ((m * 10 ^ n : Nat) : Int) ≤ int64Max := by
  cases neg with
  | false => exact (h.padZeros n).overflow_iff
  | true =>
    rw [if_pos rfl, (h.padZeros n).neg_overflow]
    exact (h.padZeros n).overflow_iff

/-- Whatever the text, the flag is up in the end exactly if the kept magnitude is too large. -/
theorem parseScaled_overflow (text : List Char) (decimals : Nat) :
    (parseScaled text decimals).1.overflow = false ↔
      (keptMagnitude text decimals : Int) ≤ int64Max := by
  have hdecimals : ¬ (decimals : Int) < 0 := by omega
  cases htext : text.isEmpty with
  | true =>
    rw [List.isEmpty_iff.mp htext]
    simp [parseScaled, hdecimals, keptMagnitude, integerDigits, fractionDigits, unsigned, int64Max]
  | false =>
    rw [parseScaled, if_neg hdecimals, htext, if_neg (by decide), readInteger_eq]
    have htracks := Acc.Tracks.foldl_push ((unsigned text).takeWhile isDigit)
    have hint : integerDigits text = (unsigned text).takeWhile isDigit := rfl
    cases hrest : (unsigned text).dropWhile isDigit with
    | nil =>
      have hkept : keptMagnitude text decimals = number (integerDigits text) * 10 ^ decimals := by
        simp [keptMagnitude, fractionDigits, isPlain, hrest]
      rw [hkept, hint]
      generalize (unsigned text).takeWhile isDigit = digits at *
      cases digits with
      | nil => simp [Outcome.andThen, readPoint, int64Max]
      | cons c digits => exact finish_overflow htracks decimals _
    | cons c rest =>
      by_cases hpoint : c = '.'
      · subst hpoint
        have hkept : keptMagnitude text decimals =
            number (integerDigits text ++ (rest.takeWhile isDigit).take decimals) *
              if rest.all isDigit then 10 ^ (decimals - (rest.takeWhile isDigit).length) else 1 := by
          simp only [keptMagnitude, fractionDigits, isPlain, hrest]
        have hpad : decimals - (rest.takeWhile isDigit).length =
            decimals - ((rest.takeWhile isDigit).take decimals).length := by
          simp
          omega
        rw [hkept, hint, hpad]
        simp only [if_true, Outcome.andThen, readPoint_eq, ← List.foldl_append]
        generalize (unsigned text).takeWhile isDigit = digits at *
        generalize (rest.takeWhile isDigit).take decimals = frac at *
        replace htracks := Acc.Tracks.foldl_push (digits ++ frac)
        cases hall : rest.all isDigit with
        | true =>
          have hzeros : ((decimals : Int) - frac.length).toNat = decimals - frac.length := by omega
          rcases digits with _ | ⟨c, digits⟩
          · rcases frac with _ | ⟨c, frac⟩
            · simp [int64Max]
            · exact hzeros ▸ finish_overflow htracks _ _
          · exact hzeros ▸ finish_overflow htracks _ _
        | false =>
          -- a character that is not a digit ends the parse before the padding
          rw [if_neg Bool.false_ne_true, if_neg Bool.false_ne_true, Nat.mul_one]
          by_cases hlt : frac.length < decimals
          · rw [if_pos hlt]
            exact htracks.overflow_iff
          · rw [if_neg hlt]
            exact htracks.overflow_iff
      · have hkept : keptMagnitude text decimals = number (integerDigits text) := by
          simp [keptMagnitude, fractionDigits, isPlain, hrest, hpoint]
        rw [hkept, hint]
        simp only [hpoint, if_false, Outcome.andThen]
        exact htracks.overflow_iff

/-- On a numeral, what is kept is the scaled magnitude. -/
theorem keptMagnitude_eq {text int frac : List Char} (h : Numeral (unsigned text) int frac)
    (decimals : Nat) : keptMagnitude text decimals = scaledMagnitude int frac decimals := by
  obtain ⟨hint, hfrac, hplain, -⟩ := h.parts
  rw [scaledMagnitude_eq int decimals h.frac_digits, keptMagnitude, hint, hfrac, hplain, if_pos rfl]

/-- Numbers that no 64-bit integer represents are rejected and no operation on the
accumulator leaves the range, exactly if the kept digits stay within it. -/
theorem parseScaled_rejects_iff (text : List Char) (decimals : Nat) :
    ((OutOfRange text decimals → ∃ message, (parseScaled text decimals).2 = .error message) ∧
        (parseScaled text decimals).1.overflow = false) ↔
      (keptMagnitude text decimals : Int) ≤ int64Max := by
  rw [parseScaled_overflow]
  refine ⟨fun h => h.2, fun hfits => ⟨?_, hfits⟩⟩
  rintro ⟨int, frac, hnumeral, hout⟩
  exfalso
  rw [keptMagnitude_eq hnumeral] at hfits
  simp only [scaledValue] at hout
  simp only [int64Max] at hfits hout
  split at hout <;> omega

/-- A price just above the range is accepted, as the lowest one. -/
theorem parseScaled_rejects_false :
    ¬ (OutOfRange "9223372036854775808".toList 0 →
        ∃ message, (parseScaled "9223372036854775808".toList 0).2 = .error message) ∧
      (parseScaled "9223372036854775808".toList 0).1.overflow = true := by
  have hrun : parseScaled "9223372036854775808".toList 0 =
      (⟨-9223372036854775808, true⟩, .ok (-9223372036854775808)) := by decide +kernel
  have hout : OutOfRange "9223372036854775808".toList 0 :=
    ⟨_, _, .whole _ (List.all_eq_true.mp (by decide +kernel)) (by decide +kernel),
      .inr (by decide +kernel)⟩
  rw [hrun]
  refine ⟨fun hrejects => ?_, rfl⟩
  obtain ⟨message, herror⟩ := hrejects hout
  cases herror

end ExchangeEngine
