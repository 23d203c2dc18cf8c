import ExchangeEngine.Library.Fifo

/-!
A draw from a queue whose elements get no cheaper is the best choice. A selection takes
some part of each element. None that takes as much as the draw costs less, and none that
stays within what the draw may take takes more.
-/

namespace ExchangeEngine.Fifo

open Portion

variable {α : Type*} [Portion α]

/-- What a selection takes in all. -/
def selected (take : α → Int) (as : List α) : Int := (as.map take).sum

/-- What a selection costs at some prices. -/
def cost (price : α → Int) (take : α → Int) (as : List α) : Int :=
  (as.map fun a => price a * take a).sum

/-- What some hits cost. -/
def hitCost (price : α → Int) (hits : List (α × Int)) : Int :=
  (hits.map fun x => price x.1 * x.2).sum

/-- No more is taken of an element than there is. -/
def Selection (take : α → Int) (as : List α) : Prop := ∀ a ∈ as, 0 ≤ take a ∧ take a ≤ quantity a

variable {price take : α → Int} {as bs : List α}

omit [Portion α] in
@[simp] theorem selected_cons (a : α) (as : List α) :
    selected take (a :: as) = take a + selected take as := by simp [selected]

omit [Portion α] in
theorem selected_append (as bs : List α) :
    selected take (as ++ bs) = selected take as + selected take bs := by simp [selected]

omit [Portion α] in
@[simp] theorem cost_cons (a : α) (as : List α) :
    cost price take (a :: as) = price a * take a + cost price take as := by simp [cost]

omit [Portion α] in
@[simp] theorem hitCost_cons (x : α × Int) (hits : List (α × Int)) :
    hitCost price (x :: hits) = price x.1 * x.2 + hitCost price hits := by simp [hitCost]

theorem Selection.tail {a : α} (h : Selection take (a :: as)) : Selection take as :=
  fun b hb => h b (List.mem_cons_of_mem a hb)

theorem Selection.left (h : Selection take (as ++ bs)) : Selection take as :=
  fun a ha => h a (List.mem_append_left bs ha)

theorem Selection.right (h : Selection take (as ++ bs)) : Selection take bs :=
  fun b hb => h b (List.mem_append_right as hb)

theorem Selection.selected_nonneg (h : Selection take as) : 0 ≤ selected take as := by
  induction as with
  | nil => exact Int.le_refl 0
  | cons a as ih =>
    have ha := (h a List.mem_cons_self).1
    have has := ih h.tail
    rw [selected_cons]
    omega

theorem Selection.selected_le (h : Selection take as) : selected take as ≤ total as := by
  induction as with
  | nil => exact Int.le_refl 0
  | cons a as ih =>
    have ha := (h a List.mem_cons_self).2
    have has := ih h.tail
    rw [selected_cons, total_cons]
    omega

/-- What is not cheaper than `w` costs at least that. -/
theorem Selection.mul_selected_le {w : Int} (h : Selection take as) (hw : ∀ a ∈ as, w ≤ price a) :
    w * selected take as ≤ cost price take as := by
  induction as with
  | nil => simp [selected, cost]
  | cons a as ih =>
    have hrest := ih h.tail fun b hb => hw b (List.mem_cons_of_mem a hb)
    have hfirst : w * take a ≤ price a * take a :=
      Int.mul_le_mul_of_nonneg_right (hw a List.mem_cons_self) (h a List.mem_cons_self).1
    rw [selected_cons, cost_cons, Int.mul_add]
    exact Int.add_le_add hfirst hrest

/-- Whatever a selection takes beyond the draw costs at least the lowest price. -/
theorem Selection.hitCost_add_le {v w : Int} (h : Selection take (as ++ bs))
    (hsorted : (as ++ bs).Pairwise fun a b => price a ≤ price b)
    (hw : ∀ a ∈ as ++ bs, w ≤ price a) (hmore : taken v as ≤ selected take (as ++ bs)) :
    hitCost price (fills v as) + w * (selected take (as ++ bs) - taken v as) ≤
      cost price take (as ++ bs) := by
  induction as generalizing v w with
  | nil => simpa [taken, fills, hitCost] using h.mul_selected_le hw
  | cons a as ih =>
    rw [List.cons_append] at h hsorted hmore hw ⊢
    obtain ⟨hfirst, hrest⟩ := List.pairwise_cons.mp hsorted
    obtain ⟨hnonneg, hbound⟩ := h a List.mem_cons_self
    have hwa : w ≤ price a := hw a List.mem_cons_self
    have hnone := h.tail.selected_nonneg
    rw [selected_cons] at hmore
    rw [selected_cons, cost_cons]
    by_cases hv : 0 < v
    · by_cases hwhole : quantity a ≤ v
      · obtain ⟨hfills, -, -, -, htaken⟩ := draw_whole hv hwhole as
        have ih := ih (v := v - quantity a) h.tail hrest hfirst (by omega)
        have hslack : w * (take a + selected take (as ++ bs) - taken v (a :: as)) ≤
            price a * (take a + selected take (as ++ bs) - taken v (a :: as)) :=
          Int.mul_le_mul_of_nonneg_right hwa (by omega)
        rw [hfills, hitCost_cons]
        rw [htaken] at hslack ⊢
        linarith
      · obtain ⟨hfills, -, -, -, htaken⟩ := draw_part hv (Int.not_le.mp hwhole) as
        have hrest' := h.tail.mul_selected_le hfirst
        have hslack : w * (take a + selected take (as ++ bs) - taken v (a :: as)) ≤
            price a * (take a + selected take (as ++ bs) - taken v (a :: as)) :=
          Int.mul_le_mul_of_nonneg_right hwa (by omega)
        rw [hfills, hitCost_cons]
        rw [htaken] at hslack ⊢
        simp only [hitCost, List.map_nil, List.sum_nil]
        linarith
    · have hrest' := h.mul_selected_le hw
      have hnothing : taken v (a :: as) = 0 := by
        rw [taken, fills_of_nonpos (Int.not_lt.mp hv)]
        rfl
      rw [selected_cons, cost_cons] at hrest'
      rw [fills_of_nonpos (Int.not_lt.mp hv), hnothing, Int.sub_zero]
      simpa [hitCost] using hrest'

/-- No selection that takes as much is cheaper. -/
theorem Selection.hitCost_le {v : Int} (h : Selection take (as ++ bs))
    (hsorted : (as ++ bs).Pairwise fun a b => price a ≤ price b)
    (hsame : selected take (as ++ bs) = taken v as) :
    hitCost price (fills v as) ≤ cost price take (as ++ bs) := by
  obtain ⟨w, hw⟩ : ∃ w, ∀ a ∈ as ++ bs, w ≤ price a := by
    cases hall : as ++ bs with
    | nil => exact ⟨0, fun a ha => absurd ha List.not_mem_nil⟩
    | cons a rest =>
      rw [hall] at hsorted
      refine ⟨price a, fun b hb => ?_⟩
      rcases List.mem_cons.mp hb with rfl | hb
      · exact Int.le_refl _
      · exact (List.pairwise_cons.mp hsorted).1 b hb
  have hle := h.hitCost_add_le hsorted hw (Int.le_of_eq hsame.symm)
  rwa [hsame, Int.sub_self, Int.mul_zero, Int.add_zero] at hle

/-- No selection from the queue that stays within the quantity takes more. -/
theorem Selection.selected_le_taken {v : Int} (h : Selection take as) (hv : 0 ≤ v)
    (hpos : ∀ a ∈ as, 0 < quantity a) (hle : selected take as ≤ v) :
    selected take as ≤ taken v as := by
  rw [taken_eq hv hpos]
  exact Int.le_min.mpr ⟨hle, h.selected_le⟩

end ExchangeEngine.Fifo
