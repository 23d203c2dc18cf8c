import ExchangeEngine.Io.ParseScaled

/-!
The texts that `parse_scaled` accepts and the values it returns for them. A text is read
as a sign, the digits before the point and the digits behind it; what is returned is the
rational number these spell, scaled and truncated toward zero.
-/

namespace ExchangeEngine

/-! ### Grammar -/

/-- An optional sign, digits, and optionally a point and more digits; at least one digit
in all. -/
def IsDecimal (text : List Char) : Prop :=
  ∃ sign body int frac, text = sign ++ body ∧ sign ∈ [[], ['+'], ['-']] ∧ Numeral body int frac

theorem numeral_of_plain {text : List Char} (hplain : isPlain text = true)
    (hany : integerDigits text ++ fractionDigits text ≠ []) :
    Numeral (unsigned text) (integerDigits text) (fractionDigits text) := by
  have hint : ∀ c ∈ integerDigits text, isDigit c := fun c hc => List.mem_takeWhile_imp hc
  have hsplit : unsigned text = integerDigits text ++ (unsigned text).dropWhile isDigit :=
    List.takeWhile_append_dropWhile.symm
  unfold isPlain at hplain
  split at hplain
  · rename_i rest hrest
    have hfrac : fractionDigits text = rest := by
      simp only [fractionDigits, hrest]
      exact List.takeWhile_eq_self_iff.mpr (List.all_eq_true.mp hplain)
    rw [hrest] at hsplit
    rw [hsplit, hfrac]
    rw [hfrac] at hany
    exact .pointed _ _ hint (List.all_eq_true.mp hplain) hany
  · rename_i hrest
    have hfrac : fractionDigits text = [] := by simp only [fractionDigits, hrest]
    rw [hrest, List.append_nil] at hsplit
    rw [hfrac, List.append_nil] at hany
    rw [hsplit, hfrac]
    exact .whole _ hint hany
  · cases hplain

/-- A numeral has no sign. -/
theorem unsigned_append_numeral {sign body int frac : List Char}
    (hsign : sign ∈ [[], ['+'], ['-']]) (h : Numeral body int frac) :
    unsigned (sign ++ body) = body := by
  have hunsigned : unsigned body = body := by
    cases body with
    | nil => rfl
    | cons c rest =>
      have hc : c ≠ '+' ∧ c ≠ '-' := by
        have hfirst : isDigit c = true ∨ c = '.' := by
          generalize hbody : c :: rest = body at h
          cases h with
          | whole _ hint _ => exact Or.inl (hint c (hbody ▸ List.mem_cons_self))
          | pointed _ _ hint hfrac _ =>
            cases int with
            | nil => exact Or.inr (List.cons.inj hbody).1
            | cons d int =>
              obtain rfl := (List.cons.inj hbody).1
              exact Or.inl (hint c List.mem_cons_self)
        rcases hfirst with hdigit | rfl
        · constructor <;> (rintro rfl; cases hdigit)
        · decide
      exact if_neg (not_or.mpr hc)
  simp only [List.mem_cons, List.not_mem_nil, or_false] at hsign
  rcases hsign with rfl | rfl | rfl
  · exact hunsigned
  · rfl
  · rfl

theorem exists_sign (text : List Char) :
    ∃ sign ∈ [[], ['+'], ['-']], text = sign ++ unsigned text := by
  cases text with
  | nil => exact ⟨[], by simp, rfl⟩
  | cons c rest =>
    by_cases hc : c = '+' ∨ c = '-'
    · have hunsigned : unsigned (c :: rest) = rest := if_pos hc
      rw [hunsigned]
      rcases hc with rfl | rfl
      · exact ⟨['+'], by simp, rfl⟩
      · exact ⟨['-'], by simp, rfl⟩
    · have hunsigned : unsigned (c :: rest) = c :: rest := if_neg hc
      rw [hunsigned]
      exact ⟨[], by simp, rfl⟩

theorem isDecimal_iff {text : List Char} :
    IsDecimal text ↔
      isPlain text = true ∧ integerDigits text ++ fractionDigits text ≠ [] := by
  constructor
  · rintro ⟨sign, body, int, frac, rfl, hsign, hnumeral⟩
    rw [← unsigned_append_numeral hsign hnumeral] at hnumeral
    obtain ⟨hint, hfrac, hplain, hany⟩ := hnumeral.parts
    rw [hint, hfrac]
    exact ⟨hplain, hany⟩
  · rintro ⟨hplain, hany⟩
    obtain ⟨sign, hsign, htext⟩ := exists_sign text
    exact ⟨sign, unsigned text, _, _, htext, hsign, numeral_of_plain hplain hany⟩

/-! ### The accumulator modulo `2 ^ 64` -/

theorem wrap64_mul (x y : Int) : wrap64 (wrap64 x * y) = wrap64 (x * y) := Int.bmod_mul_bmod

theorem wrap64_neg (x : Int) : wrap64 (-wrap64 x) = wrap64 (-x) := by
  rw [← Int.zero_sub, ← Int.zero_sub, wrap64, wrap64, wrap64, Int.sub_bmod_bmod]

/-- Overflow or not, the accumulator is the magnitude modulo `2 ^ 64`. -/
theorem Acc.push_value {acc : Acc} {m : Nat} (h : acc.value = wrap64 m) (c : Char) :
    (acc.push c).value = wrap64 ((m * 10 + digit c : Nat) : Int) := by
  simp only [Acc.push, Acc.mul, Acc.add, Acc.store, h, wrap64_mul, wrap64_wrap64_add]
  norm_cast

theorem Acc.foldl_push_value (digits : List Char) :
    (digits.foldl Acc.push {}).value = wrap64 (number digits) := by
  induction digits using List.reverseRecOn with
  | nil => rfl
  | append_singleton digits c ih =>
    rw [List.foldl_append, number_concat]
    exact Acc.push_value ih c

theorem padZeros_value {acc : Acc} {m : Nat} (h : acc.value = wrap64 m) (n : Nat) :
    (padZeros n acc).value = wrap64 ((m * 10 ^ n : Nat) : Int) := by
  induction n generalizing acc m with
  | zero => simpa [padZeros] using h
  | succ n ih =>
    have hmul : (acc.mul 10).value = wrap64 ((m * 10 : Nat) : Int) := by
      simp only [Acc.mul, Acc.store, h, wrap64_mul]
      norm_cast
    rw [pow_succ', ← Nat.mul_assoc]
    exact ih hmul

/-- Padding and negating at the end. -/
theorem finish_value (digits : List Char) (n : Nat) (neg : Bool) :
    (if neg then (padZeros n (digits.foldl Acc.push {})).neg
      else padZeros n (digits.foldl Acc.push {})).value =
      wrap64 (if neg then -((number digits * 10 ^ n : Nat) : Int)
        else ((number digits * 10 ^ n : Nat) : Int)) := by
  have hpadded := padZeros_value (Acc.foldl_push_value digits) n
  cases neg with
  | false => exact hpadded
  | true =>
    simp only [if_true, Acc.neg, Acc.store, hpadded, wrap64_neg]

/-! ### What is returned -/

/-- The digits that the loops keep. -/
def keptDigits (text : List Char) (decimals : Nat) : List Char :=
  integerDigits text ++ (fractionDigits text).take decimals

theorem parseScaled_result (text : List Char) (decimals : Nat) :
    ∃ message, (parseScaled text decimals).2 =
      if isPlain text = true ∧ keptDigits text decimals ≠ [] then
        .ok (wrap64 (scaledValue text (integerDigits text) (fractionDigits text) decimals))
      else .error message := by
  have hdecimals : ¬ (decimals : Int) < 0 := by omega
  cases htext : text.isEmpty with
  | true =>
    rw [List.isEmpty_iff.mp htext]
    exact ⟨"empty number", by simp [parseScaled, hdecimals, keptDigits, integerDigits,
      fractionDigits, unsigned]⟩
  | false =>
    rw [parseScaled, if_neg hdecimals, htext, if_neg (by decide), readInteger_eq]
    have hint : integerDigits text = (unsigned text).takeWhile isDigit := rfl
    cases hrest : (unsigned text).dropWhile isDigit with
    | nil =>
      have hplain : isPlain text = true := by simp only [isPlain, hrest]
      have hfrac : fractionDigits text = [] := by simp only [fractionDigits, hrest]
      rw [keptDigits, hplain, hfrac, hint]
      generalize (unsigned text).takeWhile isDigit = digits
      cases digits with
      | nil => exact ⟨"no digits in number", by simp [Outcome.andThen, readPoint]⟩
      | cons c digits =>
        have hfinish := finish_value (c :: digits) decimals (isNegative text)
        have hscaled : scaledMagnitude (c :: digits) [] decimals = _ :=
          scaledMagnitude_eq (c :: digits) decimals (by simp)
        refine ⟨"", ?_⟩
        rw [List.take_nil, List.append_nil, List.length_nil, Nat.sub_zero] at hscaled
        rw [if_pos ⟨rfl, by simp⟩, scaledValue, hscaled, ← hfinish]
        rfl
    | cons c rest =>
      by_cases hpoint : c = '.'
      · subst hpoint
        have hplain : isPlain text = rest.all isDigit := by simp only [isPlain, hrest]
        have hfrac : fractionDigits text = rest.takeWhile isDigit := by
          simp only [fractionDigits, hrest]
        have hscaled : scaledMagnitude (integerDigits text) (rest.takeWhile isDigit) decimals = _ :=
          scaledMagnitude_eq (integerDigits text) decimals fun c hc => List.mem_takeWhile_imp hc
        have hpad : decimals - (rest.takeWhile isDigit).length =
            decimals - ((rest.takeWhile isDigit).take decimals).length := by
          simp
          omega
        rw [hpad] at hscaled
        rw [keptDigits, hplain, hfrac, scaledValue, hscaled, hint]
        simp only [if_true, Outcome.andThen, readPoint_eq, ← List.foldl_append]
        generalize (unsigned text).takeWhile isDigit = digits
        generalize (rest.takeWhile isDigit).take decimals = frac
        cases hall : rest.all isDigit with
        | false =>
          by_cases hlt : frac.length < decimals
          · exact ⟨"invalid digit in number", by simp [hlt]⟩
          · exact ⟨"invalid trailing char", by simp [hlt]⟩
        | true =>
          have hfinish := finish_value (digits ++ frac) (decimals - frac.length) (isNegative text)
          have hzeros : ((decimals : Int) - frac.length).toNat = decimals - frac.length := by omega
          by_cases hany : digits ++ frac = []
          · obtain ⟨rfl, rfl⟩ := List.append_eq_nil_iff.mp hany
            exact ⟨"no digits in number", by simp⟩
          · have hflag : (false || !digits.isEmpty || !frac.isEmpty) = true := by
              rcases digits with _ | ⟨c, digits⟩ <;> rcases frac with _ | ⟨d, frac⟩ <;> simp_all
            refine ⟨"", ?_⟩
            rw [if_pos rfl, if_pos ⟨rfl, hany⟩, ← hfinish]
            simp only [hflag, hzeros]
            rfl
      · have hplain : isPlain text = false := by simp [isPlain, hrest, hpoint]
        refine ⟨"invalid digit in number", ?_⟩
        simp [hplain, hpoint, Outcome.andThen]

theorem parseScaled_ok_iff {text : List Char} {decimals : Nat} {v : Int} :
    (parseScaled text decimals).2 = .ok v ↔
      isPlain text = true ∧ keptDigits text decimals ≠ [] ∧
        v = wrap64 (scaledValue text (integerDigits text) (fractionDigits text) decimals) := by
  obtain ⟨message, hresult⟩ := parseScaled_result text decimals
  rw [hresult]
  split
  · rename_i hkept
    rw [Except.ok.injEq]
    exact ⟨fun hv => ⟨hkept.1, hkept.2, hv.symm⟩, fun h => h.2.2.symm⟩
  · rename_i hkept
    exact ⟨nofun, fun h => absurd ⟨h.1, h.2.1⟩ hkept⟩

def Accepts (text : List Char) (decimals : Int) : Prop :=
  ∃ v, (parseScaled text decimals).2 = .ok v

theorem accepts_iff {text : List Char} {decimals : Nat} :
    Accepts text decimals ↔ isPlain text = true ∧ keptDigits text decimals ≠ [] := by
  constructor
  · rintro ⟨v, hv⟩
    exact ⟨(parseScaled_ok_iff.mp hv).1, (parseScaled_ok_iff.mp hv).2.1⟩
  · rintro ⟨hplain, hkept⟩
    exact ⟨_, parseScaled_ok_iff.mpr ⟨hplain, hkept, rfl⟩⟩

/-- Every decimal text has kept digits, unless no fraction digits are kept and there are no
others. -/
theorem keptDigits_ne_nil_iff {text : List Char} {decimals : Nat} :
    keptDigits text decimals ≠ [] ↔
      integerDigits text ++ fractionDigits text ≠ [] ∧
        (0 < decimals ∨ integerDigits text ≠ []) := by
  rw [keptDigits]
  rcases integerDigits text with _ | ⟨c, int⟩
  · rcases fractionDigits text with _ | ⟨d, frac⟩ <;> cases decimals <;> simp
  · simp

theorem scaledMagnitude_div (int frac : List Char) (decimals k : Nat) :
    scaledMagnitude int frac (decimals + k) / 10 ^ k = scaledMagnitude int frac decimals := by
  rw [scaledMagnitude, scaledMagnitude, Nat.div_div_eq_div_mul, pow_add, ← Nat.mul_assoc,
    Nat.mul_div_mul_right _ _ (by positivity)]

/-- One decimal less cuts a digit off. -/
theorem scaledValue_tdiv (text int frac : List Char) (decimals k : Nat) :
    (scaledValue text int frac (decimals + k)).tdiv (10 ^ k) =
      scaledValue text int frac decimals := by
  have hcut : ((scaledMagnitude int frac (decimals + k) : Int)).tdiv (10 ^ k) =
      scaledMagnitude int frac decimals := by
    rw [← scaledMagnitude_div int frac decimals k, Int.tdiv_eq_ediv_of_nonneg (Int.natCast_nonneg _)]
    norm_cast
  rw [scaledValue, scaledValue]
  split
  · rw [Int.neg_tdiv, hcut]
  · exact hcut

theorem scaledMagnitude_mono (int frac : List Char) {decimals higher : Nat}
    (hle : decimals ≤ higher) :
    scaledMagnitude int frac decimals ≤ scaledMagnitude int frac higher := by
  obtain ⟨k, rfl⟩ := Nat.exists_eq_add_of_le hle
  rw [← scaledMagnitude_div int frac decimals k]
  exact Nat.div_le_self _ _

/-! ### One grammar for every precision -/

/-- Decimal texts are accepted and no others, and fewer decimals only truncate the value. -/
def Uniform (text : List Char) (decimals : Nat) : Prop :=
  (¬ OutOfRange text decimals → (Accepts text decimals ↔ IsDecimal text)) ∧
    ∀ higher value, decimals ≤ higher → ¬ OutOfRange text higher →
      (parseScaled text higher).2 = .ok value →
        (parseScaled text decimals).2 = .ok (value.tdiv (10 ^ (higher - decimals)))

/-- More decimals make the value larger. -/
theorem OutOfRange.mono {text : List Char} {decimals higher : Nat} (h : OutOfRange text decimals)
    (hle : decimals ≤ higher) : OutOfRange text higher := by
  obtain ⟨int, frac, hnumeral, hout⟩ := h
  refine ⟨int, frac, hnumeral, ?_⟩
  have hmono := scaledMagnitude_mono int frac hle
  by_cases hneg : isNegative text = true
  · simp only [scaledValue, if_pos hneg, int64Max] at hout ⊢
    omega
  · simp only [scaledValue, if_neg hneg, int64Max] at hout ⊢
    omega

/-- A fraction alone is less than one. -/
theorem not_outOfRange_of_fraction {text : List Char} (hint : integerDigits text = []) :
    ¬ OutOfRange text 0 := by
  rintro ⟨int, frac, hnumeral, hout⟩
  obtain ⟨hint', -⟩ := hnumeral.parts
  have hzero : scaledMagnitude int frac 0 = 0 := by
    rw [← hint', hint, scaledMagnitude, List.nil_append, pow_zero, Nat.mul_one]
    exact Nat.div_eq_of_lt (number_lt hnumeral.frac_digits)
  simp only [scaledValue, hzero, int64Max] at hout
  split at hout <;> omega

theorem wrap_of_inRange {text : List Char} (hplain : isPlain text = true)
    (hany : integerDigits text ++ fractionDigits text ≠ []) {decimals : Nat}
    (h : ¬ OutOfRange text decimals) :
    wrap64 (scaledValue text (integerDigits text) (fractionDigits text) decimals) =
      scaledValue text (integerDigits text) (fractionDigits text) decimals := by
  have hin := mt (fun hout => ⟨_, _, numeral_of_plain hplain hany, hout⟩) h
  exact wrap64_eq (by omega) (by omega)

/-- The texts that go wrong are those without a digit in front of the point, and only if no
decimals are asked for: then the digits behind the point are read but not counted. -/
theorem parseScaled_uniform_iff (text : List Char) (decimals : Nat) :
    Uniform text decimals ↔
      0 < decimals ∨ integerDigits text ≠ [] ∨ ¬ IsDecimal text := by
  constructor
  · rintro ⟨haccepts, -⟩
    by_contra hcondition
    simp only [not_or, not_not, Nat.not_lt, Nat.le_zero] at hcondition
    obtain ⟨rfl, hint, hdecimal⟩ := hcondition
    obtain ⟨-, hkept⟩ :=
      accepts_iff.mp ((haccepts (not_outOfRange_of_fraction hint)).mpr hdecimal)
    obtain ⟨-, hpos | hne⟩ := keptDigits_ne_nil_iff.mp hkept
    · exact absurd hpos (Nat.lt_irrefl 0)
    · exact hne hint
  · intro hcondition
    refine ⟨fun _ => ?_, fun higher value hle hinRange hvalue => ?_⟩
    · rw [accepts_iff, isDecimal_iff, keptDigits_ne_nil_iff]
      rw [isDecimal_iff] at hcondition
      tauto
    · obtain ⟨hplain, hkept, rfl⟩ := parseScaled_ok_iff.mp hvalue
      obtain ⟨hany, hdigit⟩ := keptDigits_ne_nil_iff.mp hkept
      obtain ⟨k, rfl⟩ := Nat.exists_eq_add_of_le hle
      rw [Nat.add_sub_cancel_left, wrap_of_inRange hplain hany hinRange, scaledValue_tdiv]
      refine parseScaled_ok_iff.mpr ⟨hplain, ?_, ?_⟩
      · rw [keptDigits_ne_nil_iff]
        rw [isDecimal_iff] at hcondition
        tauto
      · exact (wrap_of_inRange hplain hany fun hout => hinRange (hout.mono hle)).symm

/-- `.5` is a decimal with a digit, but not if it is cut off to an integer. -/
theorem parseScaled_uniform_false : ¬ Uniform ".5".toList 0 := by
  rintro ⟨haccepts, -⟩
  have hdecimal : IsDecimal ".5".toList :=
    ⟨[], ".5".toList, [], ['5'], rfl, List.mem_cons_self,
      .pointed [] ['5'] (by simp) (List.all_eq_true.mp (by decide)) (by simp)⟩
  have hrejected : (parseScaled ".5".toList (0 : Nat)).2 = .error "no digits in number" := by
    decide
  obtain ⟨v, hv⟩ := (haccepts (not_outOfRange_of_fraction (by decide))).mpr hdecimal
  rw [hrejected] at hv
  cases hv

/-! ### The value -/

/-- The number that a text spells. -/
def decimal (text : List Char) : ℚ :=
  (if isNegative text then -1 else 1) *
    (number (integerDigits text ++ fractionDigits text) / 10 ^ (fractionDigits text).length)

/-- The integer next to a number on the way to zero. -/
def truncate (x : ℚ) : Int := if 0 ≤ x then ⌊x⌋ else ⌈x⌉

theorem truncate_neg (x : ℚ) : truncate (-x) = -truncate x := by
  unfold truncate
  rcases lt_trichotomy x 0 with hx | rfl | hx
  · rw [if_pos (by linarith), if_neg (not_le.mpr hx), Int.floor_neg]
  · simp
  · rw [if_neg (by linarith), if_pos hx.le, Int.ceil_neg]

theorem truncate_div (a b : Nat) : truncate ((a : ℚ) / b) = ((a / b : Nat) : Int) := by
  rw [truncate, if_pos (by positivity), Rat.floor_natCast_div_natCast]
  norm_cast

/-- The scaled number of a text, truncated toward zero. -/
theorem truncate_decimal (text : List Char) (decimals : Nat) :
    truncate (decimal text * 10 ^ decimals) =
      scaledValue text (integerDigits text) (fractionDigits text) decimals := by
  have hmagnitude : truncate ((number (integerDigits text ++ fractionDigits text) : ℚ) /
      10 ^ (fractionDigits text).length * 10 ^ decimals) =
      scaledMagnitude (integerDigits text) (fractionDigits text) decimals := by
    rw [scaledMagnitude, ← truncate_div]
    congr 1
    push_cast
    ring
  rw [decimal, scaledValue]
  split
  · rw [neg_one_mul, neg_mul, truncate_neg, hmagnitude]
  · rw [one_mul, hmagnitude]

theorem abs_truncate_decimal (text : List Char) (decimals : Nat) :
    |truncate (decimal text * 10 ^ decimals)| =
      scaledMagnitude (integerDigits text) (fractionDigits text) decimals := by
  rw [truncate_decimal, scaledValue]
  split
  · rw [abs_neg, Nat.abs_cast]
  · rw [Nat.abs_cast]

/-- A value in range is not wrapped. -/
theorem value_of_accepts {text : List Char} {decimals : Nat} {v : Int}
    (haccepts : (parseScaled text decimals).2 = .ok v)
    (hfits : |truncate (decimal text * 10 ^ decimals)| ≤ int64Max) :
    v = truncate (decimal text * 10 ^ decimals) := by
  obtain ⟨-, -, rfl⟩ := parseScaled_ok_iff.mp haccepts
  rw [truncate_decimal] at hfits ⊢
  have hbounds := abs_le.mp hfits
  exact wrap64_eq (by unfold int64Max at hbounds; omega) hbounds.2

/-- In range the value is exact and nothing overflows on the way; the value for fewer
decimals is the truncated quotient. -/
theorem parseScaled_exact {text : List Char} {decimals : Nat} {v : Int}
    (haccepts : (parseScaled text decimals).2 = .ok v)
    (hfits : |truncate (decimal text * 10 ^ decimals)| ≤ int64Max) :
    v = truncate (decimal text * 10 ^ decimals) ∧
      (parseScaled text decimals).1.overflow = false ∧
      ∀ fewer k v', fewer + k = decimals → (parseScaled text fewer).2 = .ok v' →
        v' = v.tdiv (10 ^ k) := by
  have hexact : ∀ d ≤ decimals, ∀ w, (parseScaled text d).2 = .ok w →
      w = truncate (decimal text * 10 ^ d) := by
    intro d hd w hw
    have hmono := scaledMagnitude_mono (integerDigits text) (fractionDigits text) hd
    refine value_of_accepts hw ?_
    rw [abs_truncate_decimal] at hfits ⊢
    omega
  refine ⟨hexact decimals (Nat.le_refl _) v haccepts, ?_, ?_⟩
  · obtain ⟨hplain, hkept, -⟩ := parseScaled_ok_iff.mp haccepts
    obtain ⟨hany, -⟩ := keptDigits_ne_nil_iff.mp hkept
    rw [parseScaled_overflow, keptMagnitude_eq (numeral_of_plain hplain hany),
      ← abs_truncate_decimal]
    exact hfits
  · rintro fewer k v' rfl hv'
    rw [hexact fewer (Nat.le_add_right _ _) v' hv', hexact _ (Nat.le_refl _) v haccepts,
      truncate_decimal, truncate_decimal, scaledValue_tdiv]

theorem parseScaled_exact_negative :
    (-1299 : Int) = truncate (decimal "-12.999".toList * 10 ^ 2) ∧
      (parseScaled "-12.999".toList (2 : Nat)).1.overflow = false ∧
      ∀ (fewer k : Nat) v', fewer + k = 2 → (parseScaled "-12.999".toList fewer).2 = .ok v' →
        v' = (-1299 : Int).tdiv (10 ^ k) := by
  have haccepts : (parseScaled "-12.999".toList (2 : Nat)).2 = .ok (-1299) := by decide
  refine parseScaled_exact haccepts ?_
  rw [abs_truncate_decimal]
  decide +kernel

end ExchangeEngine
