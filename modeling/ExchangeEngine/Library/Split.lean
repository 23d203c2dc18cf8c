import ExchangeEngine.Library.Fifo

/-!
A draw in two parts. Taking a quantity from the front of a queue and then another one
leaves what taking both at once leaves, and hits the same elements in the same order
for the same quantities; only the element at which the first part ends may be hit twice.
-/

namespace ExchangeEngine.Fifo

open Portion

/-! ### Hits -/

section Hits

variable {κ : Type*} [DecidableEq κ]

/-- The whole quantity that some hits take from the element with a label. -/
def takenFrom (hits : List (κ × Int)) (k : κ) : Int :=
  ((hits.filter fun x => x.1 = k).map Prod.snd).sum

/-- The elements that are hit, those hit again at once counted once. -/
def hitOrder (hits : List (κ × Int)) : List κ := (hits.map Prod.fst).destutter (· ≠ ·)

/-- The same elements are hit in the same order for the same quantities in all. -/
structure SameTakes (whole parts : List (κ × Int)) : Prop where
  taken : ∀ k, takenFrom parts k = takenFrom whole k
  order : hitOrder parts = hitOrder whole

/-- The parts are the whole, or one hit of the whole is cut in two. -/
def Cut (whole parts : List (κ × Int)) : Prop :=
  whole = parts ∨ ∃ xs k u w ys, whole = xs ++ (k, u + w) :: ys ∧
    parts = xs ++ (k, u) :: (k, w) :: ys

theorem takenFrom_append (xs ys : List (κ × Int)) (k : κ) :
    takenFrom (xs ++ ys) k = takenFrom xs k + takenFrom ys k := by
  simp [takenFrom]

theorem takenFrom_cons (x : κ × Int) (xs : List (κ × Int)) (k : κ) :
    takenFrom (x :: xs) k = (if x.1 = k then x.2 else 0) + takenFrom xs k := by
  by_cases hx : x.1 = k <;> simp [takenFrom, hx]

theorem destutter'_repeat (xs : List κ) (k : κ) (ys : List κ) (x : κ) :
    (xs ++ k :: k :: ys).destutter' (· ≠ ·) x = (xs ++ k :: ys).destutter' (· ≠ ·) x := by
  induction xs generalizing x with
  | nil => by_cases hx : x = k <;> simp [hx]
  | cons y xs ih => simp only [List.cons_append, List.destutter'_cons, ih]

theorem destutter_repeat (xs : List κ) (k : κ) (ys : List κ) :
    (xs ++ k :: k :: ys).destutter (· ≠ ·) = (xs ++ k :: ys).destutter (· ≠ ·) := by
  cases xs with
  | nil => simp [List.destutter_cons']
  | cons x xs =>
      rw [List.cons_append, List.cons_append, List.destutter_cons', List.destutter_cons',
        destutter'_repeat]

theorem Cut.sameTakes {whole parts : List (κ × Int)} (h : Cut whole parts) :
    SameTakes whole parts := by
  rcases h with rfl | ⟨xs, k, u, w, ys, rfl, rfl⟩
  · exact ⟨fun _ => rfl, rfl⟩
  · refine ⟨fun j => ?_, ?_⟩
    · simp only [takenFrom_append, takenFrom_cons]
      split <;> omega
    · simpa [hitOrder] using destutter_repeat (xs.map Prod.fst) k (ys.map Prod.fst)

end Hits

/-! ### Two draws -/

section Twice

variable {α κ : Type*} [Portion α]

/-- What a draw takes, under labels of the elements hit. -/
def labelled (f : α → κ) (v : Int) (as : List α) : List (κ × Int) :=
  (fills v as).map fun x => (f x.1, x.2)

theorem labelled_of_nonpos (f : α → κ) {v : Int} (h : v ≤ 0) (as : List α) :
    labelled f v as = [] := by
  rw [labelled, fills_of_nonpos h, List.map_nil]

variable {v w : Int} (hv : 0 < v) (hw : 0 < w)
include hv hw

theorem remaining_remaining (hreduce : ∀ (a : α) x y, reduce (reduce a x) y = reduce a (x + y))
    (as : List α) : remaining w (remaining v as) = remaining (v + w) as := by
  induction as generalizing v with
  | nil => rfl
  | cons a as ih =>
      rcases Int.lt_or_le v (quantity a) with hpart | hwhole
      · rw [(draw_part hv hpart as).2.1]
        rcases Int.lt_or_le w (quantity (reduce a v)) with hpart' | hwhole'
        · have hsum : v + w < quantity a := by
            rw [quantity_reduce] at hpart'
            omega
          rw [(draw_part hw hpart' as).2.1, (draw_part (by omega) hsum as).2.1, hreduce]
        · have hsum : quantity a ≤ v + w := by
            rw [quantity_reduce] at hwhole'
            omega
          rw [(draw_whole hw hwhole' as).2.1, (draw_whole (by omega) hsum as).2.1,
            quantity_reduce]
          congr 1
          omega
      · rw [(draw_whole hv hwhole as).2.1, (draw_whole (by omega) (by omega) as).2.1]
        rcases Int.lt_or_le 0 (v - quantity a) with hmore | hdone
        · rw [ih hmore]
          congr 1
          omega
        · rw [remaining_of_nonpos hdone]
          congr 1
          omega

variable (f : α → κ) (hf : ∀ a x, f (reduce a x) = f a)
include hf

theorem popped_remaining (as : List α) :
    (popped v as).map f ++ (popped w (remaining v as)).map f = (popped (v + w) as).map f := by
  induction as generalizing v with
  | nil => rfl
  | cons a as ih =>
      rcases Int.lt_or_le v (quantity a) with hpart | hwhole
      · rw [(draw_part hv hpart as).2.1, (draw_part hv hpart as).2.2.1]
        rcases Int.lt_or_le w (quantity (reduce a v)) with hpart' | hwhole'
        · have hsum : v + w < quantity a := by
            rw [quantity_reduce] at hpart'
            omega
          rw [(draw_part hw hpart' as).2.2.1, (draw_part (by omega) hsum as).2.2.1]
          rfl
        · have hsum : quantity a ≤ v + w := by
            rw [quantity_reduce] at hwhole'
            omega
          have hrest : w - quantity (reduce a v) = v + w - quantity a := by
            rw [quantity_reduce]
            omega
          rw [(draw_whole hw hwhole' as).2.2.1, (draw_whole (by omega) hsum as).2.2.1, hrest,
            List.map_cons, List.map_cons, hf]
          rfl
      · have hwhole' : quantity a ≤ v + w := by omega
        rw [(draw_whole hv hwhole as).2.1, (draw_whole hv hwhole as).2.2.1,
          (draw_whole (by omega) hwhole' as).2.2.1, List.map_cons, List.map_cons, List.cons_append]
        congr 1
        have hrest : v + w - quantity a = v - quantity a + w := by omega
        rcases Int.lt_or_le 0 (v - quantity a) with hmore | hdone
        · rw [hrest, ih hmore]
        · have hsame : v + w - quantity a = w := by omega
          rw [popped_of_nonpos hdone, remaining_of_nonpos hdone, hsame]
          rfl

/-- Drawing twice cuts at most one hit in two. -/
theorem labelled_remaining (as : List α) :
    Cut (labelled f (v + w) as) (labelled f v as ++ labelled f w (remaining v as)) := by
  induction as generalizing v with
  | nil => exact Or.inl rfl
  | cons a as ih =>
      rcases Int.lt_or_le v (quantity a) with hpart | hwhole
      · -- the first draw ends inside this element, which the second one hits again
        have hfirst : labelled f v (a :: as) = [(f a, v)] := by
          rw [labelled, (draw_part hv hpart as).1]
          rfl
        rw [hfirst, (draw_part hv hpart as).2.1]
        rcases Int.lt_or_le w (quantity (reduce a v)) with hpart' | hwhole'
        · have hsum : v + w < quantity a := by
            rw [quantity_reduce] at hpart'
            omega
          refine Or.inr ⟨[], f a, v, w, [], ?_, ?_⟩
          · rw [labelled, (draw_part (by omega) hsum as).1]
            rfl
          · rw [labelled, (draw_part hw hpart' as).1, List.map_cons, hf]
            rfl
        · have hsum : quantity a ≤ v + w := by
            rw [quantity_reduce] at hwhole'
            omega
          have hrest : w - quantity (reduce a v) = v + w - quantity a := by
            rw [quantity_reduce]
            omega
          refine Or.inr ⟨[], f a, v, quantity a - v, labelled f (v + w - quantity a) as, ?_, ?_⟩
          · have htaken : v + (quantity a - v) = quantity a := by omega
            rw [labelled, (draw_whole (by omega) hsum as).1, htaken]
            rfl
          · rw [labelled, (draw_whole hw hwhole' as).1, hrest, quantity_reduce, List.map_cons, hf]
            rfl
      · have hsum : quantity a ≤ v + w := by omega
        have hrest : v + w - quantity a = v - quantity a + w := by omega
        have hcons : ∀ u, 0 < u → quantity a ≤ u →
            labelled f u (a :: as) = (f a, quantity a) :: labelled f (u - quantity a) as := by
          intro u hu hle
          rw [labelled, (draw_whole hu hle as).1]
          rfl
        rw [hcons v hv hwhole, hcons (v + w) (by omega) hsum, (draw_whole hv hwhole as).2.1, hrest]
        rcases Int.lt_or_le 0 (v - quantity a) with hmore | hdone
        · rcases ih hmore with hsame | ⟨xs, k, u, u', ys, hcut, hparts⟩
          · exact Or.inl (by rw [hsame, List.cons_append])
          · exact Or.inr ⟨_ :: xs, k, u, u', ys, by rw [hcut]; rfl, by
              rw [List.cons_append, hparts]; rfl⟩
        · have hzero : v - quantity a + w = w := by omega
          rw [hzero, labelled_of_nonpos f hdone, remaining_of_nonpos hdone]
          exact Or.inl rfl

end Twice

end ExchangeEngine.Fifo
