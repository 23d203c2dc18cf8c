import ExchangeEngine.Io.DepthCapture

/-!
What a failing capture is told. The call ends with an error as soon as a frame is rejected,
and the number in it is that of the first such line, blank and CRLF lines counted. The format
string has one place and is given two arguments, so the parser's own message is lost, and
captures that fail on one line for different causes cannot be told apart.
-/

namespace ExchangeEngine

open Text

namespace DepthCapture

variable {U : Type}

/-- The parser's message, if the line is not skipped and the frame on it is rejected. -/
def rejection (parse : FrameParser U) (priceDecimals qtyDecimals : Int) (line : List Char) :
    Option String :=
  if blank (chomp line) then none
  else
    match parse (chomp line) priceDecimals qtyDecimals with
    | .error cause => some cause
    | .ok _ => none

/-- Line `lineNo`, counted from one, is the first that is rejected. -/
def FailsFirst (parse : FrameParser U) (jsonl : List Char) (priceDecimals qtyDecimals : Int)
    (lineNo : Nat) (cause : String) : Prop :=
  ∃ before line after, lines jsonl = before ++ line :: after ∧ lineNo = before.length + 1 ∧
    rejection parse priceDecimals qtyDecimals line = some cause ∧
    ∀ earlier ∈ before, rejection parse priceDecimals qtyDecimals earlier = none

/-- The call ends with an error, which has the number of the first rejected line and the
cause the parser gave for it. -/
structure Reports (parse : FrameParser U) (jsonl : List Char)
    (priceDecimals qtyDecimals : Int) : Prop where
  fails : ∃ message, Returns parse jsonl priceDecimals qtyDecimals (.error message)
  identifies : ∀ lineNo cause, FailsFirst parse jsonl priceDecimals qtyDecimals lineNo cause →
    Returns parse jsonl priceDecimals qtyDecimals (.error s!"line {lineNo}: {cause}")

/-- Failing on the same line for different causes, the two captures end differently. -/
def ToldApart (parse : FrameParser U) (jsonl jsonl' : List Char)
    (priceDecimals qtyDecimals : Int) : Prop :=
  ∀ lineNo cause cause', FailsFirst parse jsonl priceDecimals qtyDecimals lineNo cause →
    FailsFirst parse jsonl' priceDecimals qtyDecimals lineNo cause' → cause ≠ cause' →
    ∀ result, Returns parse jsonl priceDecimals qtyDecimals result →
      ¬Returns parse jsonl' priceDecimals qtyDecimals result

/-! ### The first rejected line -/

variable {parse : FrameParser U} {jsonl jsonl' : List Char} {priceDecimals qtyDecimals : Int}
  {lineNo : Nat} {cause cause' : String}

theorem rejection_eq_some {line : List Char} :
    rejection parse priceDecimals qtyDecimals line = some cause ↔
      blank (chomp line) = false ∧
        parse (chomp line) priceDecimals qtyDecimals = .error cause := by
  rw [rejection]
  cases blank (chomp line) with
  | true => simp
  | false => cases parse (chomp line) priceDecimals qtyDecimals <;> simp

theorem readLine_rejected {updates : List U} {line : List Char}
    (h : rejection parse priceDecimals qtyDecimals line = some cause) :
    readLine parse priceDecimals qtyDecimals lineNo updates line =
      .error (lineError lineNo) := by
  obtain ⟨hblank, hparse⟩ := rejection_eq_some.mp h
  rw [readLine_frame hblank, hparse]

theorem readLine_accepted (updates : List U) {line : List Char}
    (h : rejection parse priceDecimals qtyDecimals line = none) :
    ∃ more, readLine parse priceDecimals qtyDecimals lineNo updates line = .ok more := by
  cases hblank : blank (chomp line) with
  | true => exact ⟨updates, readLine_blank hblank⟩
  | false =>
    rw [readLine_frame hblank]
    cases hparse : parse (chomp line) priceDecimals qtyDecimals with
    | error cause =>
      rw [rejection_eq_some.mpr ⟨hblank, hparse⟩] at h
      cases h
    | ok update => exact ⟨updates ++ [update], rfl⟩

/-- The lines before the first rejected one are read, whatever they hold, and counted. -/
theorem readLines_rejected {updates : List U} {before after : List (List Char)}
    {line : List Char} (h : rejection parse priceDecimals qtyDecimals line = some cause)
    (hbefore : ∀ earlier ∈ before, rejection parse priceDecimals qtyDecimals earlier = none) :
    readLines parse priceDecimals qtyDecimals updates lineNo (before ++ line :: after) =
      .error (lineError (lineNo + before.length + 1)) := by
  induction before generalizing updates lineNo with
  | nil =>
    rw [List.nil_append, readLines, readLine_rejected h]
    rfl
  | cons earlier before ih =>
    obtain ⟨hearlier, hrest⟩ := List.forall_mem_cons.mp hbefore
    obtain ⟨more, hread⟩ : ∃ more, readLine parse priceDecimals qtyDecimals (lineNo + 1)
        updates earlier = .ok more := readLine_accepted updates hearlier
    rw [List.cons_append, readLines, hread]
    dsimp only
    rw [ih hrest, List.length_cons, Nat.add_right_comm lineNo 1, Nat.add_assoc lineNo]

theorem FailsFirst.returns (h : FailsFirst parse jsonl priceDecimals qtyDecimals lineNo cause) :
    Returns parse jsonl priceDecimals qtyDecimals (.error (lineError lineNo)) := by
  obtain ⟨before, line, after, hlines, rfl, hline, hbefore⟩ := h
  have hreturns := returns_readLines parse jsonl priceDecimals qtyDecimals
  rwa [hlines, readLines_rejected hline hbefore, Nat.zero_add] at hreturns

/-- A call has one result. -/
theorem Returns.unique {result result' : Except String (List U)}
    (h : Returns parse jsonl priceDecimals qtyDecimals result)
    (h' : Returns parse jsonl priceDecimals qtyDecimals result') : result = result' := by
  have hsame := (h (jsonl.length + 1) (Nat.lt_succ_self _)).symm.trans
    (h' (jsonl.length + 1) (Nat.lt_succ_self _))
  exact Ending.returned.inj (Option.some.inj hsame)

theorem exists_failsFirst (h : ∃ line ∈ frames jsonl, ∃ cause,
      parse line priceDecimals qtyDecimals = .error cause) :
    ∃ lineNo cause, FailsFirst parse jsonl priceDecimals qtyDecimals lineNo cause := by
  obtain ⟨frame, hframe, cause, hcause⟩ := h
  obtain ⟨hmem, hblank⟩ := List.mem_filter.mp hframe
  obtain ⟨line, hline, rfl⟩ := List.mem_map.mp hmem
  have hrejected : rejection parse priceDecimals qtyDecimals line = some cause :=
    rejection_eq_some.mpr ⟨by simpa using hblank, hcause⟩
  have hsome : ((lines jsonl).findSome? (rejection parse priceDecimals qtyDecimals)).isSome :=
    List.findSome?_isSome_iff.mpr ⟨line, hline, by rw [hrejected]; rfl⟩
  obtain ⟨first, hfirst⟩ := Option.isSome_iff_exists.mp hsome
  obtain ⟨before, found, after, hlines, hfound, hbefore⟩ := List.findSome?_eq_some_iff.mp hfirst
  exact ⟨before.length + 1, first, before, found, after, hlines, rfl, hfound, hbefore⟩

/-- The message is right for no cause but the empty one. -/
theorem lineError_eq_iff : lineError lineNo = s!"line {lineNo}: {cause}" ↔ cause = "" := by
  have happend : s!"line {lineNo}: {cause}" = lineError lineNo ++ cause := rfl
  rw [happend]
  constructor
  · intro h
    have hchars := congrArg String.toList h
    rw [String.toList_append, List.self_eq_append_right] at hchars
    exact String.toList_eq_nil_iff.mp hchars
  · rintro rfl
    rw [String.append_empty]

theorem FailsFirst.cause_eq (h : FailsFirst parse jsonl priceDecimals qtyDecimals lineNo cause)
    (hreports : Reports parse jsonl priceDecimals qtyDecimals) : cause = "" := by
  have hsame := h.returns.unique (hreports.identifies lineNo cause h)
  exact lineError_eq_iff.mp (Except.error.inj hsame)

theorem ToldApart.cause_eq (h : ToldApart parse jsonl jsonl' priceDecimals qtyDecimals)
    (hfirst : FailsFirst parse jsonl priceDecimals qtyDecimals lineNo cause)
    (hfirst' : FailsFirst parse jsonl' priceDecimals qtyDecimals lineNo cause') :
    cause = cause' := by
  by_contra hne
  exact h lineNo cause cause' hfirst hfirst' hne _ hfirst.returns hfirst'.returns

/-- A failing capture is always told the number of its first rejected line. It is told the
cause when that is the empty message, and captures are told apart when they do not fail on
the same line for different causes. -/
theorem reports_iff (hrejected : ∃ line ∈ frames jsonl, ∃ cause,
      parse line priceDecimals qtyDecimals = .error cause) :
    (∃ lineNo cause, FailsFirst parse jsonl priceDecimals qtyDecimals lineNo cause ∧
      Returns parse jsonl priceDecimals qtyDecimals (.error (lineError lineNo))) ∧
    (Reports parse jsonl priceDecimals qtyDecimals ↔
      ∀ lineNo cause, FailsFirst parse jsonl priceDecimals qtyDecimals lineNo cause →
        cause = "") ∧
    ∀ jsonl', ToldApart parse jsonl jsonl' priceDecimals qtyDecimals ↔
      ∀ lineNo cause cause', FailsFirst parse jsonl priceDecimals qtyDecimals lineNo cause →
        FailsFirst parse jsonl' priceDecimals qtyDecimals lineNo cause' → cause = cause' := by
  obtain ⟨lineNo, cause, hfirst⟩ := exists_failsFirst hrejected
  refine ⟨⟨lineNo, cause, hfirst, hfirst.returns⟩, ⟨?_, ?_⟩, fun jsonl' => ⟨?_, ?_⟩⟩
  · intro hreports lineNo cause h
    exact h.cause_eq hreports
  · intro hempty
    refine ⟨⟨lineError lineNo, hfirst.returns⟩, ?_⟩
    intro lineNo cause h
    rw [← lineError_eq_iff.mpr (hempty lineNo cause h)]
    exact h.returns
  · intro hapart lineNo cause cause' h h'
    exact hapart.cause_eq h h'
  · intro hsame lineNo cause cause' h h' hne
    exact absurd (hsame lineNo cause cause' h h') hne

/-- A frame with a bid that has no price. -/
def unpriced : List Char := "\x7b\"b\":[[\"\",\"1\"]],\"a\":[]\x7d".toList

/-- A frame with a bid whose price is not a number. -/
def mispriced : List Char := "\x7b\"b\":[[\"x\",\"1\"]],\"a\":[]\x7d".toList

/-- On the two frames, the messages of `parse_scaled`. -/
def priceErrors : FrameParser Unit := fun line _ _ =>
  if line = unpriced then .error "empty number"
  else if line = mispriced then .error "invalid digit in number"
  else .ok ()

/-- The number on its own is reported for a parser that says nothing. Before line three are
a blank line and a line with a carriage return. -/
theorem reports_iff_silent :
    Reports (fun line _ _ => if line = mispriced then .error "" else .ok ())
      (" \n[]\r\n".toList ++ mispriced) 2 2 := by
  apply (reports_iff ⟨mispriced, by decide, "", if_pos rfl⟩).2.1.mpr
  rintro lineNo cause ⟨before, line, after, -, -, hline, -⟩
  obtain ⟨-, hparse⟩ := rejection_eq_some.mp hline
  split at hparse
  · exact (Except.error.inj hparse).symm
  · cases hparse

theorem reports_false :
    FailsFirst priceErrors unpriced 2 2 1 "empty number" ∧
      FailsFirst priceErrors mispriced 2 2 1 "invalid digit in number" ∧
      ¬Reports priceErrors unpriced 2 2 ∧ ¬ToldApart priceErrors unpriced mispriced 2 2 := by
  have hunpriced : FailsFirst priceErrors unpriced 2 2 1 "empty number" :=
    ⟨[], unpriced, [], by decide, rfl, by decide, by decide⟩
  have hmispriced : FailsFirst priceErrors mispriced 2 2 1 "invalid digit in number" :=
    ⟨[], mispriced, [], by decide, rfl, by decide, by decide⟩
  refine ⟨hunpriced, hmispriced, ?_, ?_⟩
  · intro hreports
    exact absurd (hunpriced.cause_eq hreports) (by decide)
  · intro hapart
    exact absurd (hapart.cause_eq hunpriced hmispriced) (by decide)

end DepthCapture

end ExchangeEngine
