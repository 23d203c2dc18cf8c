import ExchangeEngine.Engine.OrderBook

/-!
What the branch-free search finds. On any partitioned range it ends at the partition
point, where `std::ranges::lower_bound` ends. The levels of a side are strictly sorted
by price, the better price first, and so `find_level` finds the level of a price, or
else the one position at which a level of that price may be inserted.
-/

namespace ExchangeEngine

open OrderBook

variable {levels xs ys : List Level} {side : Side} {price : Nat} {lvl : Level}

theorem insertIdx_append {α : Type*} (xs ys : List α) (a : α) :
    (xs ++ ys).insertIdx xs.length a = xs ++ a :: ys := by
  induction xs with
  | nil => simp
  | cons x xs ih => simpa using ih

/-- The order in which the search expects the levels of a side. -/
def LadderSorted (side : Side) (levels : List Level) : Prop :=
  levels.Pairwise fun x y => better side x.price y.price

/-- `find_level` finds the only level of the price, or the only position for a new one. -/
def FindsLevel (levels : List Level) (side : Side) (price : Nat) : Prop :=
  ∃ it, findLevel levels side price = some it ∧ it ≤ levels.length ∧
    (price ∈ levels.map Level.price →
      ∀ j, levels[j]?.map Level.price = some price ↔ j = it) ∧
    (price ∉ levels.map Level.price →
      ∀ lvl, lvl.price = price →
        ∀ i ≤ levels.length, LadderSorted side (levels.insertIdx i lvl) ↔ i = it)

namespace OrderBook

theorem findLevel_append (hxs : ∀ lvl ∈ xs, better side lvl.price price)
    (hys : ∀ lvl ∈ ys, ¬ better side lvl.price price) :
    findLevel (xs ++ ys) side price = some xs.length :=
  branchlessLowerBound_append (fun lvl hlvl => decide_eq_true (hxs lvl hlvl))
    (fun lvl hlvl => decide_eq_false (hys lvl hlvl))

end OrderBook

namespace LadderSorted

theorem partitioned (h : LadderSorted side levels) (price : Nat) :
    Partitioned (fun lvl => decide (better side lvl.price price)) levels :=
  h.imp fun hxy hy => decide_eq_true (trans_of (better side) hxy (of_decide_eq_true hy))

theorem exists_split (h : LadderSorted side levels) (price : Nat) :
    ∃ xs ys, levels = xs ++ ys ∧ (∀ lvl ∈ xs, better side lvl.price price) ∧
      ∀ lvl ∈ ys, ¬ better side lvl.price price := by
  obtain ⟨xs, ys, hlevels, hxs, hys⟩ := (h.partitioned price).exists_split
  exact ⟨xs, ys, hlevels, fun lvl hlvl => of_decide_eq_true (hxs lvl hlvl),
    fun lvl hlvl => of_decide_eq_false (hys lvl hlvl)⟩

theorem nodup (h : LadderSorted side levels) : (levels.map Level.price).Nodup := by
  rw [List.Nodup, List.pairwise_map]
  exact h.imp (ne_of_irrefl (r := better side))

/-- A level splits its ladder into the better prices and the worse ones. -/
theorem split_at (h : LadderSorted side (xs ++ lvl :: ys)) :
    (∀ x ∈ xs, better side x.price lvl.price) ∧ ∀ y ∈ ys, better side lvl.price y.price := by
  obtain ⟨-, hback, hacross⟩ := List.pairwise_append.mp h
  exact ⟨fun x hx => hacross x hx lvl List.mem_cons_self, (List.pairwise_cons.mp hback).1⟩

theorem insert (h : LadderSorted side (xs ++ ys)) (hxs : ∀ x ∈ xs, better side x.price lvl.price)
    (hys : ∀ y ∈ ys, better side lvl.price y.price) : LadderSorted side (xs ++ lvl :: ys) := by
  obtain ⟨hfront, hback, hacross⟩ := List.pairwise_append.mp h
  refine List.pairwise_append.mpr ⟨hfront, List.pairwise_cons.mpr ⟨hys, hback⟩, ?_⟩
  intro x hx y hy
  rcases List.mem_cons.mp hy with rfl | hy
  · exact hxs x hx
  · exact hacross x hx y hy

/-- Wherever a ladder has a level, or takes one, the search for its price ends. -/
theorem findLevel_eq (h : LadderSorted side (xs ++ lvl :: ys)) (zs : List Level)
    (hzs : ∀ z ∈ zs, z = lvl ∨ z ∈ ys) :
    findLevel (xs ++ zs) side lvl.price = some xs.length := by
  obtain ⟨hxs, hys⟩ := h.split_at
  refine findLevel_append hxs fun z hz => ?_
  rcases hzs z hz with rfl | hz
  · exact irrefl_of (better side) _
  · exact asymm_of (better side) (hys z hz)

theorem finds_present (h : LadderSorted side (xs ++ lvl :: ys)) (j : Nat) :
    (xs ++ lvl :: ys)[j]?.map Level.price = some lvl.price ↔ j = xs.length := by
  have hhere : ((xs ++ lvl :: ys).map Level.price)[xs.length]? = some lvl.price := by simp
  have hlt : xs.length < ((xs ++ lvl :: ys).map Level.price).length := by simp
  rw [← List.getElem?_map, ← hhere, eq_comm, List.getElem?_inj hlt h.nodup, eq_comm]

/-- Of a price without a level, a new one fits between the better prices and the rest. -/
theorem insertIdx_iff (h : LadderSorted side (xs ++ ys))
    (hxs : ∀ x ∈ xs, better side x.price lvl.price)
    (hys : ∀ y ∈ ys, ¬ better side y.price lvl.price)
    (hmissing : lvl.price ∉ (xs ++ ys).map Level.price) {i : Nat} (hi : i ≤ (xs ++ ys).length) :
    LadderSorted side ((xs ++ ys).insertIdx i lvl) ↔ i = xs.length := by
  constructor
  · -- the search on the ladder ends at every position that would do
    intro hsorted
    have hfront : ((xs ++ ys).take i).length = i := List.length_take_of_le hi
    have hinsert : (xs ++ ys).insertIdx i lvl =
        (xs ++ ys).take i ++ lvl :: (xs ++ ys).drop i := by
      rw [← insertIdx_append, hfront, List.take_append_drop]
    rw [hinsert] at hsorted
    have hfound := hsorted.findLevel_eq ((xs ++ ys).drop i) fun _ hy => .inr hy
    rw [List.take_append_drop, hfront, findLevel_append hxs hys] at hfound
    exact (Option.some.inj hfound).symm
  · rintro rfl
    rw [insertIdx_append]
    refine h.insert hxs fun y hy => ?_
    have hne : y.price ≠ lvl.price := fun heq =>
      hmissing (heq ▸ List.mem_map_of_mem (List.mem_append_right xs hy))
    rcases trichotomous_of (better side) lvl.price y.price with hbetter | heq | hworse
    · exact hbetter
    · exact absurd heq.symm hne
    · exact absurd hworse (hys y hy)

theorem findsLevel (h : LadderSorted side levels) (price : Nat) :
    FindsLevel levels side price := by
  by_cases hpresent : price ∈ levels.map Level.price
  · obtain ⟨lvl, hlvl, rfl⟩ := List.mem_map.mp hpresent
    obtain ⟨xs, ys, rfl⟩ := List.append_of_mem hlvl
    refine ⟨xs.length, h.findLevel_eq (lvl :: ys) fun _ hy => List.mem_cons.mp hy,
      by simp, fun _ => h.finds_present, fun hmissing => absurd hpresent hmissing⟩
  · obtain ⟨xs, ys, rfl, hxs, hys⟩ := h.exists_split price
    refine ⟨xs.length, findLevel_append hxs hys, by simp, fun hlvl => absurd hlvl hpresent, ?_⟩
    rintro - lvl rfl i hi
    exact h.insertIdx_iff hxs hys hpresent hi

end LadderSorted

/-- The search equals `std::ranges::lower_bound` on every partitioned range, and with it
`find_level` finds its place on every sorted ladder. -/
theorem branchlessLowerBound_and_findLevel :
    (∀ (α β γ : Type) (range : List α) (value : γ) (comp : β → γ → Bool) (proj : α → β),
      Partitioned (fun x => comp (proj x) value) range →
        ∃ pos, branchlessLowerBound range value comp proj = some pos ∧
          pos = lowerBound range value comp proj ∧
          pos = range.countP (fun x => comp (proj x) value) ∧ pos ≤ range.length ∧
          (∀ x ∈ range.take pos, comp (proj x) value = true) ∧
          ∀ x ∈ range.drop pos, comp (proj x) value = false) ∧
      ∀ (side : Side) (levels : List Level) (price : Nat), LadderSorted side levels →
        FindsLevel levels side price := by
  refine ⟨fun α β γ range value comp proj h => ?_, fun _ _ price h => h.findsLevel price⟩
  obtain ⟨xs, ys, rfl, hxs, hys⟩ := h.exists_split
  refine ⟨xs.length, branchlessLowerBound_append hxs hys, (lowerBound_append hxs hys).symm,
    (countP_append_split hxs hys).symm, by simp, ?_, ?_⟩
  · rwa [List.take_left]
  · rwa [List.drop_left]

theorem branchlessLowerBound_and_findLevel_descending :
    (∃ pos, branchlessLowerBound [105, 103, 100, 98] 103 (fun p q => decide (q < p)) id =
        some pos ∧
      pos = lowerBound [105, 103, 100, 98] 103 (fun p q => decide (q < p)) id ∧
      pos = [105, 103, 100, 98].countP (fun p => decide (103 < p)) ∧ pos ≤ 4 ∧
      (∀ p ∈ [105, 103, 100, 98].take pos, decide (103 < p) = true) ∧
      ∀ p ∈ [105, 103, 100, 98].drop pos, decide (103 < p) = false) ∧
      FindsLevel [{price := 105}, {price := 103}] .bid 104 :=
  ⟨branchlessLowerBound_and_findLevel.1 Nat Nat Nat [105, 103, 100, 98] 103
      (fun p q => decide (q < p)) id (by unfold Partitioned; decide),
    branchlessLowerBound_and_findLevel.2 .bid [{price := 105}, {price := 103}] 104
      (by unfold LadderSorted; decide)⟩

end ExchangeEngine
