import Mathlib.Data.List.Basic

/-!
Texts as lists of characters, read by position: the operations of a string view, with
`none` for the position that is past every other, and what a scan that cuts a text at
each separator finds between them. Lines end in a newline, or in a carriage return and a
newline.
-/

namespace ExchangeEngine.Text

variable {α : Type*} [DecidableEq α]

/-- The first position from `pos` on that holds `a`. -/
def find (s : List α) (a : α) (pos : Nat) : Option Nat :=
  ((s.drop pos).idxOf? a).map (pos + ·)

/-- At most `count` characters from `pos` on. There are none from past the end on, not even
no characters. -/
def substr (s : List α) (pos count : Nat) : Option (List α) :=
  if pos ≤ s.length then some ((s.drop pos).take count) else none

def findFirstNotOf (s set : List α) : Option Nat := s.findIdx? fun c => !set.contains c

variable {s : List α} {a : α} {pos nl : Nat}

theorem find_eq_none (h : find s a pos = none) : a ∉ s.drop pos := by
  rw [find, Option.map_eq_none_iff] at h
  exact List.idxOf?_eq_none_iff.mp h

theorem find_eq_some (h : find s a pos = some nl) :
    ∃ before after, s.drop pos = before ++ a :: after ∧ a ∉ before ∧
      nl = pos + before.length := by
  obtain ⟨k, hk, rfl⟩ := Option.map_eq_some_iff.mp h
  obtain ⟨hlt, hat, hfirst⟩ := List.idxOf?_eq_some_iff.mp hk
  refine ⟨(s.drop pos).take k, (s.drop pos).drop (k + 1), ?_, ?_, ?_⟩
  · rw [← hat, ← List.drop_eq_getElem_cons hlt, List.take_append_drop]
  · intro hmem
    obtain ⟨j, hj, heq⟩ := List.mem_take_iff_getElem.mp hmem
    exact hfirst j (Nat.lt_of_lt_of_le hj (Nat.min_le_left _ _)) heq
  · rw [List.length_take, Nat.min_eq_left (Nat.le_of_lt hlt)]

/-- A scan that finds no separator any more is at the last piece. -/
theorem splitOn_drop_none (h : find s a pos = none) :
    (s.drop pos).splitOn a = [s.drop pos] :=
  List.splitOn_eq_singleton (find_eq_none h)

/-- A scan that finds one cuts off the next piece and goes on behind it. -/
theorem splitOn_drop_some (h : find s a pos = some nl) :
    (s.drop pos).splitOn a = (s.drop pos).take (nl - pos) :: (s.drop (nl + 1)).splitOn a ∧
      pos ≤ nl ∧ nl < s.length := by
  obtain ⟨before, after, hdrop, hbefore, rfl⟩ := find_eq_some h
  have hlength := congrArg List.length hdrop
  rw [List.length_drop, List.length_append, List.length_cons] at hlength
  have hafter : s.drop (pos + before.length + 1) = after := by
    rw [Nat.add_assoc, ← List.drop_drop, hdrop]
    simp
  refine ⟨?_, Nat.le_add_right _ _, by omega⟩
  rw [hafter, hdrop, Nat.add_sub_cancel_left, List.take_left,
    List.splitOn_append_cons_self_of_not_mem hbefore]

theorem findFirstNotOf_eq_none {set : List α} :
    findFirstNotOf s set = none ↔ ∀ c ∈ s, c ∈ set := by
  simp [findFirstNotOf]

/-! ### Lines -/

def lines (text : List Char) : List (List Char) := text.splitOn '\n'

/-- Without the carriage return at its end, if there is one. -/
def chomp (line : List Char) : List Char :=
  if line.getLast? = some '\r' then line.dropLast else line

/-- Every newline preceded by a carriage return. -/
def crlf (text : List Char) : List Char :=
  text.flatMap fun c => if c = '\n' then ['\r', '\n'] else [c]

theorem lines_append_newline (text rest : List Char) :
    lines (text ++ '\n' :: rest) = lines text ++ lines rest :=
  List.splitOn_append_cons_self text rest

theorem lines_of_notMem {text : List Char} (h : '\n' ∉ text) : lines text = [text] :=
  List.splitOn_eq_singleton h

theorem lines_newline (text : List Char) : lines (text ++ ['\n']) = lines text ++ [[]] :=
  List.splitOn_append_cons_self text []

theorem lines_cons {c : Char} (text : List Char) (h : c ≠ '\n') :
    lines (c :: text) = (lines text).modifyHead (c :: ·) := by
  rw [lines, List.splitOn_cons_eq_if_modifyHead, if_neg (by simpa using h)]
  rfl

theorem lines_newline_cons (text : List Char) : lines ('\n' :: text) = [] :: lines text :=
  List.splitOn_append_cons_self [] text

theorem chomp_cons {c : Char} {line : List Char} (h : c ≠ '\r') :
    chomp (c :: line) = c :: chomp line := by
  cases line with
  | nil => simp [chomp, h]
  | cons d line =>
    rw [chomp, chomp, List.getLast?_cons_cons, List.dropLast_cons_cons]
    split <;> rfl

theorem map_chomp_modifyHead {c : Char} (h : c ≠ '\r') (pieces : List (List Char)) :
    (pieces.modifyHead (c :: ·)).map chomp = (pieces.map chomp).modifyHead (c :: ·) := by
  cases pieces with
  | nil => rfl
  | cons line pieces => simp [chomp_cons h]

/-- With its carriage returns taken off again, a text is what it was. -/
theorem map_chomp_lines_crlf {text : List Char} (h : '\r' ∉ text) :
    (lines (crlf text)).map chomp = (lines text).map chomp := by
  induction text with
  | nil => rfl
  | cons c text ih =>
    obtain ⟨hc, htext⟩ := List.ne_and_not_mem_of_not_mem_cons h
    have hrest := ih htext
    by_cases hnewline : c = '\n'
    · subst hnewline
      have hcrlf : crlf ('\n' :: text) = '\r' :: '\n' :: crlf text := rfl
      rw [hcrlf, lines_cons _ (by decide), lines_newline_cons, lines_newline_cons,
        List.modifyHead_cons, List.map_cons, List.map_cons, hrest]
      rfl
    · have hcrlf : crlf (c :: text) = c :: crlf text := by simp [crlf, hnewline]
      rw [hcrlf, lines_cons _ hnewline, lines_cons _ hnewline, map_chomp_modifyHead (Ne.symm hc),
        map_chomp_modifyHead (Ne.symm hc), hrest]

end ExchangeEngine.Text
