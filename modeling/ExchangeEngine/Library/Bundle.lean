import ExchangeEngine.Library.Fifo

/-!
Neighbours in a queue that carry the same label, taken together. A bundle has the label
and the sum of the quantities. A draw from the bundled queue takes from each bundle what a
draw from the queue takes from its elements in all, and leaves the bundles of what the
draw from the queue leaves.
-/

namespace ExchangeEngine.Fifo

open Portion

structure Bundle (κ : Type*) where
  key : κ
  volume : Int
  deriving DecidableEq, Repr

namespace Bundle

variable {κ : Type*}

instance : Portion (Bundle κ) where
  quantity b := b.volume
  reduce b x := {b with volume := b.volume - x}
  quantity_reduce _ _ := rfl

@[simp] theorem quantity_eq (b : Bundle κ) : quantity b = b.volume := rfl

/-- What was taken from a bundle, under its label. -/
def hit (x : Bundle κ × Int) : Bundle κ := ⟨x.1.key, x.2⟩

variable [DecidableEq κ]

/-- Put a quantity in front, and into the first bundle if that has the label. -/
def gather (k : κ) (v : Int) : List (Bundle κ) → List (Bundle κ)
  | [] => [⟨k, v⟩]
  | b :: bs => if k = b.key then ⟨k, v + b.volume⟩ :: bs else ⟨k, v⟩ :: b :: bs

/-- Bundle the quantities of neighbours with the same label. -/
def ofList (line : List (κ × Int)) : List (Bundle κ) :=
  line.foldr (fun x bs => gather x.1 x.2 bs) []

@[simp] theorem ofList_nil : ofList ([] : List (κ × Int)) = [] := rfl

@[simp] theorem ofList_cons (x : κ × Int) (line : List (κ × Int)) :
    ofList (x :: line) = gather x.1 x.2 (ofList line) := rfl

/-! ### Which bundles there are -/

theorem gather_of_ne {k : κ} (v : Int) {bs : List (Bundle κ)} (h : ∀ b ∈ bs, k ≠ b.key) :
    gather k v bs = ⟨k, v⟩ :: bs := by
  cases bs with
  | nil => rfl
  | cons b bs => exact if_neg (h b List.mem_cons_self)

theorem mem_gather {k : κ} {v : Int} {bs : List (Bundle κ)} {b : Bundle κ}
    (h : b ∈ gather k v bs) : b.key = k ∨ b ∈ bs := by
  cases bs with
  | nil =>
    rw [gather, List.mem_singleton] at h
    exact Or.inl (h ▸ rfl)
  | cons c cs =>
    simp only [gather] at h
    split at h
    · rcases List.mem_cons.mp h with rfl | h
      · exact Or.inl rfl
      · exact Or.inr (List.mem_cons_of_mem c h)
    · rcases List.mem_cons.mp h with rfl | h
      · exact Or.inl rfl
      · exact Or.inr h

/-- Every label of a bundle is a label of the queue. -/
theorem key_mem {line : List (κ × Int)} {b : Bundle κ} (h : b ∈ ofList line) :
    b.key ∈ line.map Prod.fst := by
  induction line with
  | nil => cases h
  | cons x line ih =>
    rcases mem_gather h with hkey | h
    · rw [hkey]
      exact List.mem_cons_self
    · exact List.mem_cons_of_mem _ (ih h)

/-- Queues without a common label are bundled apart. -/
theorem ofList_append {xs ys : List (κ × Int)} (h : ∀ x ∈ xs, ∀ y ∈ ys, x.1 ≠ y.1) :
    ofList (xs ++ ys) = ofList xs ++ ofList ys := by
  induction xs with
  | nil => rfl
  | cons x xs ih =>
    have ih := ih fun z hz => h z (List.mem_cons_of_mem x hz)
    rw [List.cons_append, ofList_cons, ofList_cons, ih]
    cases hxs : ofList xs with
    | nil =>
      rw [List.nil_append, gather_of_ne]
      · rfl
      · intro b hb
        obtain ⟨y, hy, hkey⟩ := List.mem_map.mp (key_mem hb)
        rw [← hkey]
        exact h x List.mem_cons_self y hy
    | cons b bs =>
      simp only [List.cons_append, gather]
      split <;> rfl

/-- Quantities that all have one label make one bundle. -/
theorem ofList_of_forall {k : κ} {line : List (κ × Int)} (h : ∀ x ∈ line, x.1 = k)
    (hne : line ≠ []) : ofList line = [⟨k, (line.map Prod.snd).sum⟩] := by
  induction line with
  | nil => exact absurd rfl hne
  | cons x line ih =>
    obtain ⟨j, v⟩ := x
    obtain rfl : j = k := h (j, v) List.mem_cons_self
    cases line with
    | nil => simp [gather]
    | cons y line =>
      rw [ofList_cons, ih (fun z hz => h z (List.mem_cons_of_mem _ hz)) (List.cons_ne_nil _ _),
        List.map_cons, List.sum_cons]
      exact if_pos rfl

section Prefix

variable (p : κ → Bool)

theorem takeWhile_gather (k : κ) (v : Int) (bs : List (Bundle κ)) :
    (gather k v bs).takeWhile (fun b => p b.key) =
      if p k then gather k v (bs.takeWhile fun b => p b.key) else [] := by
  cases bs with
  | nil => by_cases hk : p k <;> simp [gather, hk]
  | cons b bs =>
    by_cases hkey : k = b.key
    · subst hkey
      by_cases hk : p b.key <;> simp [gather, hk]
    · by_cases hk : p k
      · by_cases hb : p b.key <;> simp [gather, hkey, hk, hb]
      · simp [gather, hkey, hk]

theorem dropWhile_gather (k : κ) (v : Int) (bs : List (Bundle κ)) :
    (gather k v bs).dropWhile (fun b => p b.key) =
      if p k then bs.dropWhile (fun b => p b.key) else gather k v bs := by
  cases bs with
  | nil => by_cases hk : p k <;> simp [gather, hk]
  | cons b bs =>
    by_cases hkey : k = b.key
    · subst hkey
      by_cases hk : p b.key <;> simp [gather, hk]
    · by_cases hk : p k
      · by_cases hb : p b.key <;> simp [gather, hkey, hk, hb]
      · simp [gather, hkey, hk]

theorem takeWhile_ofList (line : List (κ × Int)) :
    (ofList line).takeWhile (fun b => p b.key) = ofList (line.takeWhile fun x => p x.1) := by
  induction line with
  | nil => rfl
  | cons x line ih =>
    rw [ofList_cons, takeWhile_gather, List.takeWhile_cons]
    split
    · rw [ih, ofList_cons]
    · rfl

theorem dropWhile_ofList (line : List (κ × Int)) :
    (ofList line).dropWhile (fun b => p b.key) = ofList (line.dropWhile fun x => p x.1) := by
  induction line with
  | nil => rfl
  | cons x line ih =>
    rw [ofList_cons, dropWhile_gather, List.dropWhile_cons]
    split
    · exact ih
    · rfl

end Prefix

/-! ### Draws -/

theorem positive_gather {k : κ} {v : Int} {bs : List (Bundle κ)} (hv : 0 < v)
    (h : ∀ b ∈ bs, 0 < b.volume) : ∀ b ∈ gather k v bs, 0 < b.volume := by
  cases bs with
  | nil =>
    intro b hb
    rw [List.mem_singleton.mp hb]
    exact hv
  | cons c cs =>
    have hc := h c List.mem_cons_self
    intro b hb
    simp only [gather] at hb
    split at hb
    · rcases List.mem_cons.mp hb with rfl | hb
      · exact Int.add_pos hv hc
      · exact h b (List.mem_cons_of_mem c hb)
    · rcases List.mem_cons.mp hb with rfl | hb
      · exact hv
      · exact h b hb

theorem positive_ofList {line : List (κ × Int)} (h : ∀ x ∈ line, 0 < x.2) :
    ∀ b ∈ ofList line, 0 < b.volume := by
  induction line with
  | nil => simp
  | cons x line ih =>
    exact positive_gather (h x List.mem_cons_self) (ih fun y hy => h y (List.mem_cons_of_mem x hy))

section Gather

variable {k : κ} {q v : Int} {bs : List (Bundle κ)}

/-- A draw that uses up what was put in front. -/
theorem draw_gather_whole (hq : 0 < q) (hqv : q ≤ v) (hbs : ∀ b ∈ bs, 0 < b.volume) :
    (fills v (gather k q bs)).map hit = gather k q ((fills (v - q) bs).map hit) ∧
      remaining v (gather k q bs) = remaining (v - q) bs ∧
      leftover v (gather k q bs) = leftover (v - q) bs := by
  have hv : 0 < v := Int.lt_of_lt_of_le hq hqv
  have hfront : ∀ cs : List (Bundle κ), (fills v (⟨k, q⟩ :: cs)).map hit =
        ⟨k, q⟩ :: (fills (v - q) cs).map hit ∧
      remaining v (⟨k, q⟩ :: cs) = remaining (v - q) cs ∧
      leftover v (⟨k, q⟩ :: cs) = leftover (v - q) cs := by
    intro cs
    obtain ⟨hfills, hremaining, -, hleftover, -⟩ := draw_whole (a := (⟨k, q⟩ : Bundle κ)) hv hqv cs
    exact ⟨by rw [hfills]; rfl, hremaining, hleftover⟩
  cases bs with
  | nil => exact hfront []
  | cons b bs =>
    have hb := hbs b List.mem_cons_self
    by_cases hkey : k = b.key
    · subst hkey
      simp only [gather, if_true]
      rcases Int.lt_trichotomy q v with hlt | rfl | hgt
      · -- the draw goes on in the first bundle
        have hmore : 0 < v - q := Int.sub_pos_of_lt hlt
        by_cases hwhole : b.volume ≤ v - q
        · obtain ⟨hfills, hremaining, -, hleftover, -⟩ := draw_whole hmore hwhole bs
          have hboth : q + b.volume ≤ v := by omega
          obtain ⟨hfills', hremaining', -, hleftover', -⟩ :=
            draw_whole (a := (⟨b.key, q + b.volume⟩ : Bundle κ)) hv hboth bs
          have hrest : v - (q + b.volume) = v - q - b.volume := by omega
          simp only [quantity_eq, hrest] at hfills hremaining hleftover hfills' hremaining' hleftover'
          refine ⟨?_, hremaining'.trans hremaining.symm, hleftover'.trans hleftover.symm⟩
          rw [hfills, hfills', List.map_cons, List.map_cons]
          exact (if_pos rfl).symm
        · obtain ⟨hfills, hremaining, -, hleftover, -⟩ :=
            draw_part hmore (Int.not_le.mp hwhole) bs
          have hboth : v < q + b.volume := by omega
          obtain ⟨hfills', hremaining', -, hleftover', -⟩ :=
            draw_part (a := (⟨b.key, q + b.volume⟩ : Bundle κ)) hv hboth bs
          refine ⟨?_, ?_, hleftover'.trans hleftover.symm⟩
          · have hsum : q + (v - q) = v := by omega
            simp [hfills, hfills', hit, hsum]
          · have hleft : q + b.volume - v = b.volume - (v - q) := by omega
            rw [hremaining, hremaining']
            simp only [reduce, hleft]
      · -- the draw ends at the boundary
        have hboth : q < q + b.volume := by omega
        obtain ⟨hfills', hremaining', -, hleftover', -⟩ :=
          draw_part (a := (⟨b.key, q + b.volume⟩ : Bundle κ)) hv hboth bs
        have hnone : q - q ≤ 0 := by omega
        rw [fills_of_nonpos hnone, remaining_of_nonpos hnone, leftover_of_nonpos hnone]
        refine ⟨?_, ?_, by omega⟩
        · rw [hfills']
          rfl
        · have hleft : q + b.volume - q = b.volume := by omega
          rw [hremaining']
          simp only [reduce, hleft]
      · omega
    · simp only [gather, if_neg hkey]
      obtain ⟨hfills, hremaining, hleftover⟩ := hfront (b :: bs)
      refine ⟨?_, hremaining, hleftover⟩
      rw [hfills]
      by_cases hmore : 0 < v - q
      · rw [fills, if_pos hmore, List.map_cons]
        exact (if_neg hkey).symm
      · rw [fills_of_nonpos (Int.not_lt.mp hmore)]
        rfl

/-- A draw that what was put in front covers. -/
theorem draw_gather_part (hv : 0 < v) (hvq : v < q) (hbs : ∀ b ∈ bs, 0 < b.volume) :
    (fills v (gather k q bs)).map hit = [⟨k, v⟩] ∧
      remaining v (gather k q bs) = gather k (q - v) bs ∧ leftover v (gather k q bs) = 0 := by
  cases bs with
  | nil =>
    obtain ⟨hfills, hremaining, -, hleftover, -⟩ := draw_part (a := (⟨k, q⟩ : Bundle κ)) hv hvq []
    exact ⟨by rw [gather, hfills]; rfl, hremaining, hleftover⟩
  | cons b bs =>
    have hb := hbs b List.mem_cons_self
    by_cases hkey : k = b.key
    · have hboth : v < q + b.volume := by omega
      obtain ⟨hfills, hremaining, -, hleftover, -⟩ :=
        draw_part (a := (⟨k, q + b.volume⟩ : Bundle κ)) hv hboth bs
      have hleft : q + b.volume - v = q - v + b.volume := by omega
      simp only [gather, if_pos hkey]
      refine ⟨by rw [hfills]; rfl, ?_, hleftover⟩
      rw [hremaining]
      simp only [reduce, hleft]
    · obtain ⟨hfills, hremaining, -, hleftover, -⟩ :=
        draw_part (a := (⟨k, q⟩ : Bundle κ)) hv hvq (b :: bs)
      simp only [gather, if_neg hkey]
      exact ⟨by rw [hfills]; rfl, hremaining, hleftover⟩

end Gather

section Elements

variable {α : Type*} [Portion α]

/-- The bundles of a queue whose elements are labelled by `f`. -/
def ofElements (f : α → κ) (as : List α) : List (Bundle κ) :=
  ofList (as.map fun a => (f a, quantity a))

@[simp] theorem ofElements_cons (f : α → κ) (a : α) (as : List α) :
    ofElements f (a :: as) = gather (f a) (quantity a) (ofElements f as) := rfl

variable {f : α → κ} {as bs : List α}

theorem ofElements_append (h : ∀ a ∈ as, ∀ b ∈ bs, f a ≠ f b) :
    ofElements f (as ++ bs) = ofElements f as ++ ofElements f bs := by
  rw [ofElements, List.map_append]
  apply ofList_append
  intro x hx y hy
  obtain ⟨a, ha, rfl⟩ := List.mem_map.mp hx
  obtain ⟨b, hb, rfl⟩ := List.mem_map.mp hy
  exact h a ha b hb

theorem ofElements_of_forall {k : κ} (h : ∀ a ∈ as, f a = k) (hne : as ≠ []) :
    ofElements f as = [⟨k, total as⟩] := by
  rw [ofElements, ofList_of_forall (k := k), List.map_map]
  · rfl
  · intro x hx
    obtain ⟨a, ha, rfl⟩ := List.mem_map.mp hx
    exact h a ha
  · rwa [ne_eq, List.map_eq_nil_iff]

theorem takeWhile_ofElements (p : κ → Bool) :
    (ofElements f as).takeWhile (fun b => p b.key) =
      ofElements f (as.takeWhile fun a => p (f a)) := by
  rw [ofElements, takeWhile_ofList, List.takeWhile_map]
  rfl

theorem dropWhile_ofElements (p : κ → Bool) :
    (ofElements f as).dropWhile (fun b => p b.key) =
      ofElements f (as.dropWhile fun a => p (f a)) := by
  rw [ofElements, dropWhile_ofList, List.dropWhile_map]
  rfl

theorem positive_ofElements (h : ∀ a ∈ as, 0 < quantity a) :
    ∀ b ∈ ofElements f as, 0 < b.volume := by
  apply positive_ofList
  intro x hx
  obtain ⟨a, ha, rfl⟩ := List.mem_map.mp hx
  exact h a ha

variable (h : ∀ a ∈ as, 0 < quantity a) (v : Int)
include h

/-- The bundles are hit for what their elements are hit for. -/
theorem fills_ofElements : (fills v (ofElements f as)).map hit =
    ofList ((fills v as).map fun x => (f x.1, x.2)) := by
  induction as generalizing v with
  | nil => rfl
  | cons a as ih =>
    have ha := h a List.mem_cons_self
    have has : ∀ b ∈ as, 0 < quantity b := fun b hb => h b (List.mem_cons_of_mem a hb)
    by_cases hv : 0 < v
    · by_cases hwhole : quantity a ≤ v
      · rw [ofElements_cons, (draw_gather_whole ha hwhole (positive_ofElements has)).1,
          (draw_whole hv hwhole as).1, List.map_cons, ofList_cons, ih has]
      · rw [ofElements_cons,
          (draw_gather_part hv (Int.not_le.mp hwhole) (positive_ofElements has)).1,
          (draw_part hv (Int.not_le.mp hwhole) as).1]
        rfl
    · rw [fills_of_nonpos (Int.not_lt.mp hv), fills_of_nonpos (Int.not_lt.mp hv)]
      rfl

theorem leftover_ofElements : leftover v (ofElements f as) = leftover v as := by
  induction as generalizing v with
  | nil => rfl
  | cons a as ih =>
    have ha := h a List.mem_cons_self
    have has : ∀ b ∈ as, 0 < quantity b := fun b hb => h b (List.mem_cons_of_mem a hb)
    by_cases hv : 0 < v
    · by_cases hwhole : quantity a ≤ v
      · rw [ofElements_cons, (draw_gather_whole ha hwhole (positive_ofElements has)).2.2,
          (draw_whole hv hwhole as).2.2.2.1, ih has]
      · rw [ofElements_cons,
          (draw_gather_part hv (Int.not_le.mp hwhole) (positive_ofElements has)).2.2,
          (draw_part hv (Int.not_le.mp hwhole) as).2.2.2.1]
    · rw [leftover_of_nonpos (Int.not_lt.mp hv), leftover_of_nonpos (Int.not_lt.mp hv)]

/-- What is left of the bundles are the bundles of what is left. -/
theorem remaining_ofElements (hf : ∀ a x, f (reduce a x) = f a) :
    remaining v (ofElements f as) = ofElements f (remaining v as) := by
  induction as generalizing v with
  | nil => rfl
  | cons a as ih =>
    have ha := h a List.mem_cons_self
    have has : ∀ b ∈ as, 0 < quantity b := fun b hb => h b (List.mem_cons_of_mem a hb)
    by_cases hv : 0 < v
    · by_cases hwhole : quantity a ≤ v
      · rw [ofElements_cons, (draw_gather_whole ha hwhole (positive_ofElements has)).2.1,
          (draw_whole hv hwhole as).2.1, ih has]
      · rw [ofElements_cons,
          (draw_gather_part hv (Int.not_le.mp hwhole) (positive_ofElements has)).2.1,
          (draw_part hv (Int.not_le.mp hwhole) as).2.1, ofElements_cons, hf, quantity_reduce]
    · rw [remaining_of_nonpos (Int.not_lt.mp hv), remaining_of_nonpos (Int.not_lt.mp hv)]

end Elements

end Bundle

end ExchangeEngine.Fifo
