import ExchangeEngine.Library.Text
import Mathlib.Data.Set.List

/-!
`parse_binance_depth_updates` of `src/io/binance_depth.cpp`. A text is the list of its bytes,
read as characters; the parser of a single frame is a parameter. Each round of the scanning
loop takes one from a supply of rounds, and a call that uses them up has no result.
-/

namespace ExchangeEngine

open Text

namespace DepthCapture

/-- `parse_binance_depth_update`, on one line and with the decimals of prices and quantities. -/
abbrev FrameParser (U : Type) := List Char → Int → Int → Except String U

/-- How a call ends. `substr` throws when it starts past the end. -/
inductive Ending (R : Type) where
  | returned (result : R)
  | outOfRange
  deriving DecidableEq, Repr

variable {U : Type}

/-- The format has no place for the frame's own message. -/
def lineError (lineNo : Nat) : String := s!"line {lineNo}: "

/-- What the loop does with the line it has cut off. -/
def readLine (parse : FrameParser U) (priceDecimals qtyDecimals : Int) (lineNo : Nat)
    (updates : List U) (line : List Char) : Except String (List U) :=
  let line := if !line.isEmpty && line.getLast? = some '\r' then line.dropLast else line
  match findFirstNotOf line [' ', '\t'] with
  | some _ =>
    match parse line priceDecimals qtyDecimals with
    | .error _ => .error (lineError lineNo)
    | .ok parsed => .ok (updates ++ [parsed])
  | none => .ok updates

def scanLines (parse : FrameParser U) (jsonl : List Char) (priceDecimals qtyDecimals : Int) :
    Nat → List U → Nat → Nat → Option (Ending (Except String (List U)))
  | 0, _, _, _ => none
  | rounds + 1, updates, lineNo, pos =>
    if pos ≤ jsonl.length then
      let nl := find jsonl '\n' pos
      let stop := nl.getD jsonl.length
      match substr jsonl pos (stop - pos) with
      | none => some .outOfRange
      | some line =>
        match readLine parse priceDecimals qtyDecimals (lineNo + 1) updates line with
        | .error message => some (.returned (.error message))
        | .ok updates =>
          match nl with
          | none => some (.returned (.ok updates))
          | some nl => scanLines parse jsonl priceDecimals qtyDecimals rounds updates (lineNo + 1)
              (nl + 1)
    else some (.returned (.ok updates))

def parseBinanceDepthUpdates (parse : FrameParser U) (rounds : Nat) (jsonl : List Char)
    (priceDecimals qtyDecimals : Int) : Option (Ending (Except String (List U))) :=
  scanLines parse jsonl priceDecimals qtyDecimals rounds [] 0 0

/-! ### What a capture decodes to -/

/-- Only spaces and tabs. -/
def blank (line : List Char) : Bool := line.all fun c => c = ' ' || c = '\t'

def frames (jsonl : List Char) : List (List Char) :=
  ((lines jsonl).map chomp).filter fun line => !blank line

/-- The call ends, within the bounds of the text, and returns the result. -/
def Returns (parse : FrameParser U) (jsonl : List Char) (priceDecimals qtyDecimals : Int)
    (result : Except String (List U)) : Prop :=
  ∀ rounds, jsonl.length < rounds →
    parseBinanceDepthUpdates parse rounds jsonl priceDecimals qtyDecimals =
      some (.returned result)

structure Decodes (parse : FrameParser U) (jsonl : List Char) (priceDecimals qtyDecimals : Int)
    (result : Except String (List U)) : Prop where
  returns : Returns parse jsonl priceDecimals qtyDecimals result
  succeeds : (∃ updates, result = .ok updates) ↔
    ∀ line ∈ frames jsonl, ∃ update, parse line priceDecimals qtyDecimals = .ok update
  inOrder : ∀ updates, result = .ok updates →
    (frames jsonl).map (parse · priceDecimals qtyDecimals) = updates.map .ok
  finalNewline : Returns parse (jsonl ++ ['\n']) priceDecimals qtyDecimals result
  lineEndings : '\r' ∉ jsonl → Returns parse (crlf jsonl) priceDecimals qtyDecimals result

/-! ### Line by line -/

/-- The loop, without positions. -/
def readLines (parse : FrameParser U) (priceDecimals qtyDecimals : Int) :
    List U → Nat → List (List Char) → Except String (List U)
  | updates, _, [] => .ok updates
  | updates, lineNo, line :: rest =>
    match readLine parse priceDecimals qtyDecimals (lineNo + 1) updates line with
    | .error message => .error message
    | .ok updates => readLines parse priceDecimals qtyDecimals updates (lineNo + 1) rest

variable {parse : FrameParser U} {priceDecimals qtyDecimals : Int} {updates : List U}
  {lineNo : Nat}

theorem trim_eq_chomp (line : List Char) :
    (if !line.isEmpty && line.getLast? = some '\r' then line.dropLast else line) = chomp line := by
  cases line <;> simp [chomp]

theorem findFirstNotOf_blank (line : List Char) :
    findFirstNotOf line [' ', '\t'] = none ↔ blank line = true := by
  simp [findFirstNotOf_eq_none, blank]

theorem readLine_blank {line : List Char} (h : blank (chomp line) = true) :
    readLine parse priceDecimals qtyDecimals lineNo updates line = .ok updates := by
  rw [readLine, trim_eq_chomp, (findFirstNotOf_blank _).mpr h]

theorem readLine_frame {line : List Char} (h : blank (chomp line) = false) :
    readLine parse priceDecimals qtyDecimals lineNo updates line =
      match parse (chomp line) priceDecimals qtyDecimals with
      | .error _ => .error (lineError lineNo)
      | .ok parsed => .ok (updates ++ [parsed]) := by
  obtain ⟨first, hfirst⟩ := Option.ne_none_iff_exists'.mp
    fun hnone => Bool.eq_false_iff.mp h ((findFirstNotOf_blank _).mp hnone)
  rw [readLine, trim_eq_chomp, hfirst]

/-- Only what is left of a line without its carriage return matters. -/
theorem readLine_congr {line line' : List Char} (h : chomp line = chomp line') :
    readLine parse priceDecimals qtyDecimals lineNo updates line =
      readLine parse priceDecimals qtyDecimals lineNo updates line' := by
  rw [readLine, readLine, trim_eq_chomp, trim_eq_chomp, h]

theorem readLines_congr {pieces pieces' : List (List Char)}
    (h : pieces.map chomp = pieces'.map chomp) :
    readLines parse priceDecimals qtyDecimals updates lineNo pieces =
      readLines parse priceDecimals qtyDecimals updates lineNo pieces' := by
  induction pieces generalizing pieces' updates lineNo with
  | nil =>
    obtain rfl := List.map_eq_nil_iff.mp h.symm
    rfl
  | cons line rest ih =>
    obtain ⟨line', rest', rfl, hline, hrest⟩ := List.map_eq_cons_iff.mp h.symm
    rw [readLines, readLines, readLine_congr hline]
    split
    · rfl
    · exact ih hrest.symm

/-- An empty last line adds nothing. -/
theorem readLines_empty_last (pieces : List (List Char)) :
    readLines parse priceDecimals qtyDecimals updates lineNo (pieces ++ [[]]) =
      readLines parse priceDecimals qtyDecimals updates lineNo pieces := by
  induction pieces generalizing updates lineNo with
  | nil =>
    have hblank : blank (chomp []) = true := rfl
    simp only [List.nil_append, readLines, readLine_blank hblank]
  | cons line rest ih =>
    rw [List.cons_append, readLines, readLines]
    split
    · rfl
    · exact ih

/-- Reading succeeds with the results of all lines that are not blank, in order. -/
theorem readLines_eq_ok {pieces : List (List Char)} {result : List U} :
    readLines parse priceDecimals qtyDecimals updates lineNo pieces = .ok result ↔
      ∃ more, result = updates ++ more ∧
        ((pieces.map chomp).filter fun line => !blank line).map
          (parse · priceDecimals qtyDecimals) = more.map .ok := by
  induction pieces generalizing updates lineNo with
  | nil =>
    constructor
    · intro h
      obtain rfl := Except.ok.inj h
      exact ⟨[], (List.append_nil _).symm, rfl⟩
    · rintro ⟨more, rfl, hmore⟩
      obtain rfl := List.map_eq_nil_iff.mp hmore.symm
      rw [List.append_nil]
      rfl
  | cons line rest ih =>
    rw [readLines, List.map_cons]
    cases hblank : blank (chomp line) with
    | true =>
      rw [readLine_blank hblank, List.filter_cons_of_neg (by simp [hblank])]
      exact ih
    | false =>
      rw [readLine_frame hblank, List.filter_cons_of_pos (by simp [hblank]), List.map_cons]
      cases hparse : parse (chomp line) priceDecimals qtyDecimals with
      | error message =>
        constructor
        · intro h
          cases h
        · rintro ⟨more, -, hmore⟩
          cases more <;> simp at hmore
      | ok update =>
        dsimp only
        rw [ih]
        constructor
        · rintro ⟨more, rfl, hmore⟩
          exact ⟨update :: more, List.append_assoc _ _ _, congrArg (.ok update :: ·) hmore⟩
        · rintro ⟨more, rfl, hmore⟩
          obtain ⟨first, more, rfl, hfirst, hrest⟩ := List.map_eq_cons_iff.mp hmore.symm
          obtain rfl := Except.ok.inj hfirst
          exact ⟨more, (List.append_cons _ _ _), hrest.symm⟩

/-- From any position on, the loop reads the pieces that are left. -/
theorem scanLines_eq {jsonl : List Char} {rounds pos : Nat} (hpos : pos ≤ jsonl.length)
    (hrounds : jsonl.length - pos < rounds) :
    scanLines parse jsonl priceDecimals qtyDecimals rounds updates lineNo pos =
      some (.returned
        (readLines parse priceDecimals qtyDecimals updates lineNo (lines (jsonl.drop pos)))) := by
  induction rounds generalizing updates lineNo pos with
  | zero => exact absurd hrounds (Nat.not_lt_zero _)
  | succ rounds ih =>
    rw [scanLines, if_pos hpos]
    cases hnl : find jsonl '\n' pos with
    | none =>
      have hline : substr jsonl pos (jsonl.length - pos) = some (jsonl.drop pos) := by
        rw [substr, if_pos hpos, ← List.length_drop, List.take_length]
      dsimp only [Option.getD]
      rw [hline, lines, splitOn_drop_none hnl, readLines]
      dsimp only
      split <;> rfl
    | some nl =>
      obtain ⟨hpieces, hle, hlt⟩ := splitOn_drop_some hnl
      dsimp only [Option.getD]
      rw [substr, if_pos hpos, lines, hpieces, readLines]
      dsimp only
      split
      · rfl
      · exact ih hlt (by omega)

theorem returns_readLines (parse : FrameParser U) (jsonl : List Char)
    (priceDecimals qtyDecimals : Int) :
    Returns parse jsonl priceDecimals qtyDecimals
      (readLines parse priceDecimals qtyDecimals [] 0 (lines jsonl)) := by
  intro rounds hrounds
  exact scanLines_eq (Nat.zero_le _) (by omega)

/-- A capture decodes to exactly its frames. -/
theorem decodes_frames (parse : FrameParser U) (jsonl : List Char)
    (priceDecimals qtyDecimals : Int) :
    ∃ result, Decodes parse jsonl priceDecimals qtyDecimals result := by
  refine ⟨readLines parse priceDecimals qtyDecimals [] 0 (lines jsonl), ?_, ?_, ?_, ?_, ?_⟩
  · exact returns_readLines parse jsonl priceDecimals qtyDecimals
  · constructor
    · rintro ⟨updates, hresult⟩ line hline
      obtain ⟨more, -, hmore⟩ := readLines_eq_ok.mp hresult
      have hmem : parse line priceDecimals qtyDecimals ∈ more.map Except.ok :=
        hmore ▸ List.mem_map_of_mem hline
      obtain ⟨update, -, heq⟩ := List.mem_map.mp hmem
      exact ⟨update, heq.symm⟩
    · intro hall
      have hrange : ∀ result ∈ (frames jsonl).map (parse · priceDecimals qtyDecimals),
          result ∈ Set.range Except.ok := by
        intro result hresult
        obtain ⟨line, hline, rfl⟩ := List.mem_map.mp hresult
        obtain ⟨update, heq⟩ := hall line hline
        exact ⟨update, heq.symm⟩
      obtain ⟨more, hmore⟩ : (frames jsonl).map (parse · priceDecimals qtyDecimals) ∈
          Set.range (List.map Except.ok) := by
        rw [Set.range_list_map]
        exact hrange
      exact ⟨more, readLines_eq_ok.mpr ⟨more, rfl, hmore.symm⟩⟩
  · intro updates hresult
    obtain ⟨more, rfl, hmore⟩ := readLines_eq_ok.mp hresult
    exact hmore
  · have hreturns := returns_readLines parse (jsonl ++ ['\n']) priceDecimals qtyDecimals
    rwa [lines_newline, readLines_empty_last] at hreturns
  · intro hcr
    rw [← readLines_congr (map_chomp_lines_crlf hcr)]
    exact returns_readLines parse (crlf jsonl) priceDecimals qtyDecimals

end DepthCapture

end ExchangeEngine
