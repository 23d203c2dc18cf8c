import Mathlib

/-!
Taking a quantity from the front of a queue. Whole elements are used up first
come, first served; the last one hit may be left with a part of its quantity.
The four results of a draw (what was taken from which element, what is left of
the queue, which elements were used up, and how much was left to take) are
separate functions with one composition law each.
-/

namespace ExchangeEngine.Fifo

/-- Elements that carry a quantity from which a part can be removed. -/
class Portion (α : Type*) where
  quantity : α → Int
  reduce : α → Int → α
  quantity_reduce : ∀ a x, quantity (reduce a x) = quantity a - x

open Portion

variable {α β : Type*} [Portion α] [Portion β]

/-- Every element hit, with the quantity taken from it. -/
def fills : Int → List α → List (α × Int)
  | _, [] => []
  | v, a :: as =>
      if 0 < v then
        (a, min v (quantity a)) :: (if quantity a ≤ v then fills (v - quantity a) as else [])
      else []

/-- The queue after the draw. -/
def remaining : Int → List α → List α
  | _, [] => []
  | v, a :: as =>
      if 0 < v then
        if quantity a ≤ v then remaining (v - quantity a) as else reduce a v :: as
      else a :: as

/-- The elements used up by the draw. -/
def popped : Int → List α → List α
  | _, [] => []
  | v, a :: as =>
      if 0 < v then
        if quantity a ≤ v then a :: popped (v - quantity a) as else []
      else []

/-- The quantity the queue could not supply. -/
def leftover : Int → List α → Int
  | v, [] => v
  | v, a :: as =>
      if 0 < v then
        if quantity a ≤ v then leftover (v - quantity a) as else 0
      else v

/-- The whole quantity of a queue. -/
def total (as : List α) : Int := (as.map quantity).sum

/-- The whole quantity a draw took. -/
def taken (v : Int) (as : List α) : Int := ((fills v as).map Prod.snd).sum

@[simp] theorem total_nil : total ([] : List α) = 0 := rfl

@[simp] theorem total_cons (a : α) (as : List α) : total (a :: as) = quantity a + total as := by
  simp [total]

@[simp] theorem total_append (as bs : List α) : total (as ++ bs) = total as + total bs := by
  simp [total]

theorem total_nonneg {as : List α} (h : ∀ a ∈ as, 0 < quantity a) : 0 ≤ total as := by
  induction as with
  | nil => simp
  | cons a as ih =>
      have ha := h a (by simp)
      have has := ih fun b hb => h b (by simp [hb])
      rw [total_cons]
      omega

theorem total_filter_le {as : List α} (h : ∀ a ∈ as, 0 < quantity a) (p : α → Bool) :
    total (as.filter p) ≤ total as := by
  induction as with
  | nil => simp
  | cons a as ih =>
      have ha := h a (by simp)
      have ih := ih fun b hb => h b (by simp [hb])
      rw [List.filter_cons]
      split
      · rw [total_cons, total_cons]
        omega
      · rw [total_cons]
        omega

theorem total_pos {as : List α} (h : ∀ a ∈ as, 0 < quantity a) (hne : as ≠ []) :
    0 < total as := by
  cases as with
  | nil => exact absurd rfl hne
  | cons a as =>
      have ha := h a (by simp)
      have has := total_nonneg fun b hb => h b (List.mem_cons_of_mem a hb)
      rw [total_cons]
      omega

section NothingToTake

variable {v : Int} (h : v ≤ 0) (as : List α)
include h

theorem fills_of_nonpos : fills v as = [] := by
  cases as <;> simp [fills, Int.not_lt.mpr h]

theorem remaining_of_nonpos : remaining v as = as := by
  cases as <;> simp [remaining, Int.not_lt.mpr h]

theorem popped_of_nonpos : popped v as = [] := by
  cases as <;> simp [popped, Int.not_lt.mpr h]

theorem leftover_of_nonpos : leftover v as = v := by
  cases as <;> simp [leftover, Int.not_lt.mpr h]

end NothingToTake

section Head

variable {v : Int} (hv : 0 < v) {a : α}
include hv

/-- A draw that uses up the first element goes on with the rest. -/
theorem draw_whole (ha : quantity a ≤ v) (as : List α) :
    fills v (a :: as) = (a, quantity a) :: fills (v - quantity a) as ∧
      remaining v (a :: as) = remaining (v - quantity a) as ∧
      popped v (a :: as) = a :: popped (v - quantity a) as ∧
      leftover v (a :: as) = leftover (v - quantity a) as ∧
      taken v (a :: as) = quantity a + taken (v - quantity a) as := by
  have hfills : fills v (a :: as) = (a, quantity a) :: fills (v - quantity a) as := by
    rw [fills, if_pos hv, if_pos ha, Int.min_eq_right ha]
  refine ⟨hfills, ?_, ?_, ?_, ?_⟩
  · rw [remaining, if_pos hv, if_pos ha]
  · rw [popped, if_pos hv, if_pos ha]
  · rw [leftover, if_pos hv, if_pos ha]
  · rw [taken, hfills, List.map_cons, List.sum_cons, taken]

/-- A draw that the first element covers ends there. -/
theorem draw_part (ha : v < quantity a) (as : List α) :
    fills v (a :: as) = [(a, v)] ∧ remaining v (a :: as) = reduce a v :: as ∧
      popped v (a :: as) = [] ∧ leftover v (a :: as) = 0 ∧ taken v (a :: as) = v := by
  have hmore : ¬ quantity a ≤ v := Int.not_le.mpr ha
  have hfills : fills v (a :: as) = [(a, v)] := by
    rw [fills, if_pos hv, if_neg hmore, Int.min_eq_left (Int.le_of_lt ha)]
  refine ⟨hfills, ?_, ?_, ?_, ?_⟩
  · rw [remaining, if_pos hv, if_neg hmore]
  · rw [popped, if_pos hv, if_neg hmore]
  · rw [leftover, if_pos hv, if_neg hmore]
  · rw [taken, hfills, List.map_cons, List.map_nil, List.sum_singleton]

end Head

theorem fills_append (v : Int) (as bs : List α) :
    fills v (as ++ bs) = fills v as ++ fills (leftover v as) bs := by
  induction as generalizing v with
  | nil => rfl
  | cons a as ih =>
      simp only [List.cons_append, fills, leftover]
      split
      · split
        · rw [ih, List.cons_append]
        · simp [fills_of_nonpos (Int.le_refl 0)]
      · rw [fills_of_nonpos (by omega), List.nil_append]

theorem remaining_append (v : Int) (as bs : List α) :
    remaining v (as ++ bs) = remaining v as ++ remaining (leftover v as) bs := by
  induction as generalizing v with
  | nil => rfl
  | cons a as ih =>
      simp only [List.cons_append, remaining, leftover]
      split
      · split
        · exact ih _
        · simp [remaining_of_nonpos (Int.le_refl 0)]
      · rw [remaining_of_nonpos (by omega), List.cons_append]

theorem popped_append (v : Int) (as bs : List α) :
    popped v (as ++ bs) = popped v as ++ popped (leftover v as) bs := by
  induction as generalizing v with
  | nil => rfl
  | cons a as ih =>
      simp only [List.cons_append, popped, leftover]
      split
      · split
        · rw [ih, List.cons_append]
        · simp [popped_of_nonpos (Int.le_refl 0)]
      · rw [popped_of_nonpos (by omega), List.nil_append]

theorem leftover_append (v : Int) (as bs : List α) :
    leftover v (as ++ bs) = leftover (leftover v as) bs := by
  induction as generalizing v with
  | nil => rfl
  | cons a as ih =>
      simp only [List.cons_append, leftover]
      split
      · split
        · exact ih _
        · rw [leftover_of_nonpos (Int.le_refl 0)]
      · rw [leftover_of_nonpos (by omega)]

/-- Only elements of the queue are hit. -/
theorem mem_of_mem_fills {v : Int} {as : List α} {x : α × Int} (h : x ∈ fills v as) :
    x.1 ∈ as := by
  induction as generalizing v with
  | nil => cases h
  | cons a as ih =>
      simp only [fills] at h
      split at h
      · rcases List.mem_cons.mp h with rfl | h
        · exact List.mem_cons_self
        · split at h
          · exact List.mem_cons_of_mem _ (ih h)
          · cases h
      · cases h

/-- What is taken and what is left over make up the quantity asked for. -/
theorem leftover_add_taken (v : Int) (as : List α) : leftover v as + taken v as = v := by
  induction as generalizing v with
  | nil => simp [leftover, taken, fills]
  | cons a as ih =>
      have ih := ih (v - quantity a)
      simp only [leftover, taken, fills] at ih ⊢
      split
      · split
        · simp only [List.map_cons, List.sum_cons]
          omega
        · simp only [List.map_cons, List.map_nil, List.sum_cons, List.sum_nil]
          omega
      · simp

/-- Of the elements of a kind, what is taken and what stays make up the whole. -/
theorem total_filter_remaining (p : α → Bool) (hp : ∀ a x, p (reduce a x) = p a) (v : Int)
    (as : List α) :
    total ((remaining v as).filter p) + (((fills v as).filter fun f => p f.1).map Prod.snd).sum =
      total (as.filter p) := by
  induction as generalizing v with
  | nil => simp [remaining, fills]
  | cons a as ih =>
      have ih := ih (v - quantity a)
      simp only [remaining, fills]
      split
      · split
        · cases hkind : p a with
          | true =>
              simp only [List.filter_cons, hkind, if_true, total_cons, List.map_cons, List.sum_cons]
              omega
          | false => simpa [List.filter_cons, hkind] using ih
        · have hreduced := hp a v
          cases hkind : p a with
          | true =>
              simp only [List.filter_cons, hreduced, hkind, if_true, total_cons, quantity_reduce,
                List.filter_nil, List.map_cons, List.map_nil, List.sum_cons, List.sum_nil]
              omega
          | false => simp [hreduced, hkind]
      · simp

/-- What is taken and what stays make up the queue. -/
theorem total_remaining_add_taken (v : Int) (as : List α) :
    total (remaining v as) + taken v as = total as := by
  simpa [taken] using total_filter_remaining (fun _ => true) (fun _ _ => rfl) v as

/-- The elements hit stand at the front of the queue, in the order of the fills. -/
theorem zip_fills {γ : Type*} (f : α × Int → γ) (v : Int) (as bs : List α) :
    (as ++ bs).zip ((fills v as).map f) = (fills v as).map fun x => (x.1, f x) := by
  induction as generalizing v with
  | nil => simp [fills]
  | cons a as ih =>
      have ih := ih (v - quantity a)
      simp only [fills]
      split
      · split
        · simp only [List.map_cons, List.cons_append, List.zip_cons_cons, ih]
        · simp
      · simp

/-- An element hit for its whole quantity. -/
def whole (a : α) : α × Int := (a, quantity a)

/-- A draw uses up a prefix of the queue; of the next element at most a proper
part is taken. -/
theorem exists_tail (v : Int) (as : List α) :
    ∃ tail, as = popped v as ++ tail ∧
      ((remaining v as = tail ∧ fills v as = (popped v as).map whole) ∨
        ∃ a x as', tail = a :: as' ∧ remaining v as = reduce a x :: as' ∧
          fills v as = (popped v as).map whole ++ [(a, x)] ∧ 0 < x ∧ x < quantity a) := by
  induction as generalizing v with
  | nil => exact ⟨[], rfl, Or.inl ⟨rfl, rfl⟩⟩
  | cons a as ih =>
      by_cases hv : 0 < v
      · by_cases ha : quantity a ≤ v
        · obtain ⟨tail, htail, hrest⟩ := ih (v - quantity a)
          have hmin : min v (quantity a) = quantity a := by omega
          refine ⟨tail, ?_, ?_⟩
          · simp only [popped, if_pos hv, if_pos ha, List.cons_append, ← htail]
          · simpa only [remaining, fills, popped, if_pos hv, if_pos ha, hmin, List.map_cons, whole,
              List.cons_append, List.cons.injEq, true_and] using hrest
        · have hmin : min v (quantity a) = v := by omega
          refine ⟨a :: as, by simp [popped, hv, ha],
            Or.inr ⟨a, v, as, rfl, ?_, ?_, hv, by omega⟩⟩
          · simp [remaining, hv, ha]
          · simp [fills, popped, hv, ha, hmin]
      · exact ⟨a :: as, by simp [popped, hv],
          Or.inl ⟨by simp [remaining, hv], by simp [fills, popped, hv]⟩⟩

/-- A label that reducing an element does not change runs through the used-up
elements and then through the rest. -/
theorem map_popped_append_map_remaining {γ : Type*} (f : α → γ) (hf : ∀ a x, f (reduce a x) = f a)
    (v : Int) (as : List α) :
    (popped v as).map f ++ (remaining v as).map f = as.map f := by
  obtain ⟨tail, htail, hrest⟩ := exists_tail v as
  have hmap : (remaining v as).map f = tail.map f := by
    rcases hrest with ⟨hrest, _⟩ | ⟨a, x, as', htail, hrest, _⟩
    · rw [hrest]
    · rw [hrest, htail, List.map_cons, List.map_cons, hf]
  rw [hmap, ← List.map_append, ← htail]

theorem popped_sublist (v : Int) (as : List α) : (popped v as).Sublist as := by
  obtain ⟨tail, htail, _⟩ := exists_tail v as
  have hprefix := List.sublist_append_left (popped v as) tail
  rwa [← htail] at hprefix

/-- The elements hit, in the order in which they are hit, are a part of the queue. -/
theorem map_fst_fills_sublist (v : Int) (as : List α) :
    ((fills v as).map Prod.fst).Sublist as := by
  have hwhole : ∀ bs : List α, (bs.map whole).map Prod.fst = bs := fun bs => by
    rw [List.map_map]
    exact List.map_id' bs
  obtain ⟨tail, htail, hcut⟩ := exists_tail v as
  have hpart : ((fills v as).map Prod.fst).Sublist (popped v as ++ tail) := by
    rcases hcut with ⟨_, hfills⟩ | ⟨a, x, as', rfl, _, hfills, _⟩
    · rw [hfills, hwhole]
      exact List.sublist_append_left _ _
    · rw [hfills, List.map_append, hwhole]
      exact List.Sublist.append_left (List.Sublist.cons_cons a (List.nil_sublist as')) _
  rwa [← htail] at hpart

/-- A hit is a whole used-up element, or the proper part taken from the element
that then heads the rest of the queue. -/
theorem mem_fills_cases {v : Int} {as : List α} {x : α × Int} (h : x ∈ fills v as) :
    (x = whole x.1 ∧ x.1 ∈ popped v as) ∨
      (0 < x.2 ∧ x.2 < quantity x.1 ∧ ∃ as', remaining v as = reduce x.1 x.2 :: as') := by
  obtain ⟨tail, _, hcut⟩ := exists_tail v as
  have hwhole : x ∈ (popped v as).map whole → x = whole x.1 ∧ x.1 ∈ popped v as := by
    intro hx
    obtain ⟨a, ha, rfl⟩ := List.mem_map.mp hx
    exact ⟨rfl, ha⟩
  rcases hcut with ⟨_, hfills⟩ | ⟨a, y, as', _, hrest, hfills, hy, hlt⟩
  · exact Or.inl (hwhole (hfills ▸ h))
  · rw [hfills] at h
    rcases List.mem_append.mp h with h | h
    · exact Or.inl (hwhole h)
    · obtain rfl := List.mem_singleton.mp h
      exact Or.inr ⟨hy, hlt, as', hrest⟩

/-- What is taken from an element is positive and at most its quantity. -/
theorem bounds_of_mem_fills {v : Int} {as : List α} (h : ∀ a ∈ as, 0 < quantity a) {x : α × Int}
    (hx : x ∈ fills v as) : 0 < x.2 ∧ x.2 ≤ quantity x.1 := by
  rcases mem_fills_cases hx with ⟨hwhole, _⟩ | ⟨hlow, hhigh, _⟩
  · have hvolume : x.2 = quantity x.1 := congrArg Prod.snd hwhole
    exact ⟨hvolume ▸ h _ (mem_of_mem_fills hx), Int.le_of_eq hvolume⟩
  · exact ⟨hlow, Int.le_of_lt hhigh⟩

theorem whole_mem_fills {v : Int} {as : List α} {a : α} (h : a ∈ popped v as) :
    whole a ∈ fills v as := by
  obtain ⟨tail, _, ⟨_, hfills⟩ | ⟨b, y, as', _, _, hfills, _⟩⟩ := exists_tail v as
  · rw [hfills]
    exact List.mem_map_of_mem h
  · rw [hfills]
    exact List.mem_append_left _ (List.mem_map_of_mem h)

/-- In a queue sorted by priority, whatever has priority over an element that is hit
is used up. -/
theorem mem_popped_of_before {v : Int} {as : List α} {R : α → α → Prop} (hsorted : as.Pairwise R)
    (hasymm : ∀ a b, R a b → ¬ R b a) {x : α × Int} (hx : x ∈ fills v as) {a : α} (ha : a ∈ as)
    (hbefore : R a x.1) : a ∈ popped v as := by
  obtain ⟨tail, htail, hcut⟩ := exists_tail v as
  rw [htail] at ha hsorted
  obtain ⟨_, hrest, hacross⟩ := List.pairwise_append.mp hsorted
  rcases List.mem_append.mp ha with ha | ha
  · exact ha
  have hpopped : x.1 ∉ popped v as := fun hmem => hasymm _ _ hbefore (hacross _ hmem _ ha)
  rcases hcut with ⟨_, hfills⟩ | ⟨b, y, as', rfl, _, hfills, _⟩
  · rw [hfills] at hx
    obtain ⟨b, hb, rfl⟩ := List.mem_map.mp hx
    exact absurd hb hpopped
  · rw [hfills] at hx
    rcases List.mem_append.mp hx with hx | hx
    · obtain ⟨b, hb, rfl⟩ := List.mem_map.mp hx
      exact absurd hb hpopped
    · obtain rfl := List.mem_singleton.mp hx
      rcases List.mem_cons.mp ha with rfl | ha
      · exact absurd hbefore (hasymm _ _ hbefore)
      · exact absurd ((List.pairwise_cons.mp hrest).1 a ha) (hasymm _ _ hbefore)

/-- An element that is not hit stays as it is. -/
theorem mem_remaining_of_not_hit {v : Int} {as : List α} {a : α} (ha : a ∈ as)
    (hmiss : ∀ n, (a, n) ∉ fills v as) : a ∈ remaining v as := by
  have hpopped : a ∉ popped v as := fun hmem => hmiss _ (whole_mem_fills hmem)
  obtain ⟨tail, htail, hcut⟩ := exists_tail v as
  rw [htail] at ha
  have ha := (List.mem_append.mp ha).resolve_left hpopped
  rcases hcut with ⟨hrest, _⟩ | ⟨b, y, as', rfl, hrest, hfills, _⟩
  · exact hrest ▸ ha
  · rw [hrest]
    rcases List.mem_cons.mp ha with rfl | ha
    · exact absurd (hfills ▸ List.mem_append_right _ (List.mem_singleton_self _)) (hmiss y)
    · exact List.mem_cons_of_mem _ ha

theorem remaining_pos {v : Int} {as : List α} (h : ∀ a ∈ as, 0 < quantity a) :
    ∀ a ∈ remaining v as, 0 < quantity a := by
  obtain ⟨tail, htail, hrest⟩ := exists_tail v as
  have htail_pos : ∀ a ∈ tail, 0 < quantity a := fun a ha =>
    h a (htail ▸ List.mem_append_right _ ha)
  intro b hb
  rcases hrest with ⟨hrest, _⟩ | ⟨a, x, as', rfl, hrest, _, _, hx⟩
  · exact htail_pos b (hrest ▸ hb)
  · rw [hrest] at hb
    rcases List.mem_cons.mp hb with rfl | hb
    · rw [quantity_reduce]
      omega
    · exact htail_pos b (List.mem_cons_of_mem _ hb)

/-- Something is left to take only when the queue is exhausted. -/
theorem remaining_eq_nil_of_leftover_pos {v : Int} {as : List α} (h : 0 < leftover v as) :
    remaining v as = [] := by
  induction as generalizing v with
  | nil => rfl
  | cons a as ih =>
      simp only [leftover] at h
      split at h
      · split at h
        · rename_i hv ha
          simpa only [remaining, if_pos hv, if_pos ha] using ih h
        · omega
      · omega

theorem leftover_nonpos_of_remaining {v : Int} {a : α} {as rest : List α}
    (h : remaining v as = a :: rest) : leftover v as ≤ 0 := by
  by_contra hpos
  have hnil := remaining_eq_nil_of_leftover_pos (Int.not_le.mp hpos)
  rw [h] at hnil
  cases hnil

theorem leftover_nonneg {v : Int} (h : 0 ≤ v) (as : List α) : 0 ≤ leftover v as := by
  induction as generalizing v with
  | nil => exact h
  | cons a as ih =>
      simp only [leftover]
      split
      · split
        · exact ih (by omega)
        · omega
      · exact h

/-- The draw in closed form. -/
theorem leftover_eq {v : Int} (hv : 0 ≤ v) {as : List α} (h : ∀ a ∈ as, 0 < quantity a) :
    leftover v as = max 0 (v - total as) := by
  have hrest : 0 ≤ total (remaining v as) := total_nonneg (remaining_pos h)
  have hleft := leftover_nonneg hv as
  have hasked := leftover_add_taken v as
  have hqueue := total_remaining_add_taken v as
  by_cases hpos : 0 < leftover v as
  · have hnil : total (remaining v as) = 0 := by
      rw [remaining_eq_nil_of_leftover_pos hpos]
      rfl
    omega
  · omega

theorem taken_eq {v : Int} (hv : 0 ≤ v) {as : List α} (h : ∀ a ∈ as, 0 < quantity a) :
    taken v as = min v (total as) := by
  have hleft := leftover_eq hv h
  have hasked := leftover_add_taken v as
  omega

theorem total_remaining {v : Int} {as : List α} (h : ∀ a ∈ as, 0 < quantity a) :
    total (remaining v as) = total as - min (max v 0) (total as) := by
  have hqueue := total_remaining_add_taken v as
  have hnonneg := total_nonneg h
  rcases Int.lt_or_le v 0 with hv | hv
  · rw [remaining_of_nonpos (Int.le_of_lt hv)]
    omega
  · have htaken := taken_eq hv h
    omega

section Map

/-! Relabelling the elements commutes with a draw. -/

variable (f : α → β) (hquantity : ∀ a, quantity (f a) = quantity a)
include hquantity

theorem leftover_map (v : Int) (as : List α) : leftover v (as.map f) = leftover v as := by
  induction as generalizing v with
  | nil => rfl
  | cons a as ih => simp only [List.map_cons, leftover, hquantity, ih]

theorem popped_map (v : Int) (as : List α) : popped v (as.map f) = (popped v as).map f := by
  induction as generalizing v with
  | nil => rfl
  | cons a as ih =>
      simp only [List.map_cons, popped, hquantity, ih]
      split
      · split <;> simp
      · rfl

theorem fills_map (v : Int) (as : List α) :
    fills v (as.map f) = (fills v as).map (Prod.map f id) := by
  induction as generalizing v with
  | nil => rfl
  | cons a as ih =>
      simp only [List.map_cons, fills, hquantity, ih]
      split
      · split <;> simp
      · rfl

theorem remaining_map (hreduce : ∀ a x, f (reduce a x) = reduce (f a) x) (v : Int) (as : List α) :
    remaining v (as.map f) = (remaining v as).map f := by
  induction as generalizing v with
  | nil => rfl
  | cons a as ih =>
      simp only [List.map_cons, remaining, hquantity, ih]
      split
      · split
        · rfl
        · simp [hreduce]
      · simp

end Map

end ExchangeEngine.Fifo
