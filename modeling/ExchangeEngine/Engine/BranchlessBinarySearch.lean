import Mathlib.Data.List.Basic

/-!
`src/engine/branchless_binary_search.hpp`. The search keeps a start position and
a remaining length, reads one element per round and adds a bool-scaled stride.
Reading outside the range gives `none`, and so does running out of rounds, so a
`some` result says that the loop ended and stayed inside the range.
-/

namespace ExchangeEngine

variable {α β γ : Type}

/-- The loop of `branchless_lower_bound_fn::operator()`. -/
def branchlessLowerBoundLoop (range : List α) (value : γ) (comp : β → γ → Bool)
    (proj : α → β) : Nat → Nat → Nat → Option Nat
  | 0, first, length => if length = 0 then some first else none
  | rounds + 1, first, length =>
      if length = 0 then some first else do
        let half := length / 2
        let element ← range[first + half]?
        let take := (comp (proj element) value).toNat
        branchlessLowerBoundLoop range value comp proj rounds
          (first + take * (length - half)) half

/-- `branchless_lower_bound(range, value, comp, proj)` as a position. -/
def branchlessLowerBound (range : List α) (value : γ) (comp : β → γ → Bool)
    (proj : α → β) : Option Nat :=
  branchlessLowerBoundLoop range value comp proj range.length 0 range.length

/-- The loop invariant: the boundary between the elements that are ordered
before the value and the others stays inside the window that is left. -/
theorem branchlessLowerBoundLoop_eq {xs ys : List α} {value : γ} {comp : β → γ → Bool}
    {proj : α → β} (hxs : ∀ a ∈ xs, comp (proj a) value = true)
    (hys : ∀ a ∈ ys, comp (proj a) value = false)
    {rounds first length : Nat} (hrounds : length ≤ rounds)
    (hlow : first ≤ xs.length) (hhigh : xs.length ≤ first + length)
    (hrange : first + length ≤ (xs ++ ys).length) :
    branchlessLowerBoundLoop (xs ++ ys) value comp proj rounds first length =
      some xs.length := by
  induction rounds generalizing first length with
  | zero =>
      have hlength : length = 0 := by omega
      have hfirst : first = xs.length := by omega
      simp [branchlessLowerBoundLoop, hlength, hfirst]
  | succ rounds ih =>
      by_cases hlength : length = 0
      · have hfirst : first = xs.length := by omega
        simp [branchlessLowerBoundLoop, hlength, hfirst]
      · have hhalf : length / 2 < length := by omega
        simp only [branchlessLowerBoundLoop, if_neg hlength]
        by_cases hside : first + length / 2 < xs.length
        · have hget : (xs ++ ys)[first + length / 2]? = some xs[first + length / 2] := by
            rw [List.getElem?_append_left hside, List.getElem?_eq_getElem hside]
          have htake := hxs _ (List.getElem_mem hside)
          simp only [hget, Option.bind_eq_bind, Option.bind_some, htake, Bool.toNat_true,
            Nat.one_mul]
          exact ih (by omega) (by omega) (by omega) (by omega)
        · have hbound : first + length / 2 - xs.length < ys.length := by
            rw [List.length_append] at hrange
            omega
          have hget : (xs ++ ys)[first + length / 2]? =
              some ys[first + length / 2 - xs.length] := by
            rw [List.getElem?_append_right (by omega), List.getElem?_eq_getElem hbound]
          have hskip := hys _ (List.getElem_mem hbound)
          simp only [hget, Option.bind_eq_bind, Option.bind_some, hskip, Bool.toNat_false,
            Nat.zero_mul, Nat.add_zero]
          exact ih (by omega) hlow (by omega) (by omega)

/-- On a partitioned range the search ends at the partition point. -/
theorem branchlessLowerBound_append {xs ys : List α} {value : γ} {comp : β → γ → Bool}
    {proj : α → β} (hxs : ∀ a ∈ xs, comp (proj a) value = true)
    (hys : ∀ a ∈ ys, comp (proj a) value = false) :
    branchlessLowerBound (xs ++ ys) value comp proj = some xs.length :=
  branchlessLowerBoundLoop_eq hxs hys (Nat.le_refl _) (Nat.zero_le _)
    (by simp) (by simp)

/-! ### Partitioned ranges -/

/-- The elements that satisfy `p` precede those that do not. -/
def Partitioned (p : α → Bool) (range : List α) : Prop :=
  range.Pairwise fun x y => p y = true → p x = true

/-- `std::ranges::lower_bound`: the first element that is not ordered before the value. -/
def lowerBound (range : List α) (value : γ) (comp : β → γ → Bool) (proj : α → β) : Nat :=
  range.findIdx fun x => !comp (proj x) value

theorem Partitioned.filter_append {p : α → Bool} {range : List α} (h : Partitioned p range) :
    range.filter p ++ range.filter (fun x => !p x) = range := by
  induction range with
  | nil => rfl
  | cons x range ih =>
      obtain ⟨hx, hrange⟩ := List.pairwise_cons.mp h
      cases hp : p x with
      | true =>
          rw [List.filter_cons_of_pos hp, List.filter_cons_of_neg (by simp [hp]),
            List.cons_append, ih hrange]
      | false =>
          have hnone : ∀ y ∈ range, p y = false := fun y hy =>
            Bool.eq_false_iff.mpr fun hpy => by simp [hx y hy hpy] at hp
          rw [List.filter_cons_of_neg (by simp [hp]), List.filter_cons_of_pos (by simp [hp]),
            List.filter_eq_nil_iff.mpr (by simpa using hnone), List.nil_append,
            List.filter_eq_self.mpr (by simpa using hnone)]

/-- A partitioned range, split at its partition point. -/
theorem Partitioned.exists_split {p : α → Bool} {range : List α} (h : Partitioned p range) :
    ∃ xs ys, range = xs ++ ys ∧ (∀ x ∈ xs, p x = true) ∧ ∀ y ∈ ys, p y = false :=
  ⟨range.filter p, range.filter fun x => !p x, h.filter_append.symm,
    fun _ hx => (List.mem_filter.mp hx).2, fun _ hy => by simpa using (List.mem_filter.mp hy).2⟩

theorem countP_append_split {p : α → Bool} {xs ys : List α} (hxs : ∀ x ∈ xs, p x = true)
    (hys : ∀ y ∈ ys, p y = false) : (xs ++ ys).countP p = xs.length := by
  rw [List.countP_append, List.countP_eq_length.mpr hxs,
    List.countP_eq_zero.mpr (by simpa using hys), Nat.add_zero]

theorem lowerBound_append {xs ys : List α} {value : γ} {comp : β → γ → Bool} {proj : α → β}
    (hxs : ∀ a ∈ xs, comp (proj a) value = true) (hys : ∀ a ∈ ys, comp (proj a) value = false) :
    lowerBound (xs ++ ys) value comp proj = xs.length := by
  have hskip : xs.findIdx (fun x => !comp (proj x) value) = xs.length :=
    List.findIdx_eq_length_of_false (by simpa using hxs)
  rw [lowerBound, List.findIdx_append, hskip, if_neg (Nat.lt_irrefl _)]
  cases ys with
  | nil => simp
  | cons y ys => simp [List.findIdx_cons, hys y List.mem_cons_self]

end ExchangeEngine
