import ExchangeEngine.Engine.QueueBook

/-!
Every operation of the queue book keeps it well formed: slots move between the
queues and the free list and are never lost or shared, resting volumes stay
positive, and an index entry always finds an order of its id, whatever ids are
used and however often.
-/

namespace ExchangeEngine.QueueBook

open Ladder Fifo Chain

/-- Erasing ids keeps exactly the entries of the other ids. -/
theorem dropIds_eq_some {index : Nat → Option Location} {gone : List Entry} {id : Nat}
    {loc : Location} (hid : id ≠ anonymous) :
    dropIds index gone id = some loc ↔
      index id = some loc ∧ ∀ e ∈ gone, e.2.id ≠ id := by
  induction gone generalizing index with
  | nil => simp [dropIds]
  | cons e gone ih =>
      have hstep : dropIds index (e :: gone) = dropIds
          (if e.2.id ≠ anonymous then OrderBook.eraseIndex index e.2.id else index) gone := rfl
      rw [hstep, ih]
      by_cases he : e.2.id = id
      · simp [he, hid, OrderBook.eraseIndex]
      · have hkeep : (if e.2.id ≠ anonymous then OrderBook.eraseIndex index e.2.id else index) id
            = index id := by
          split
          · exact Function.update_of_ne (Ne.symm he) _ _
          · rfl
        rw [hkeep]
        simp [he]

theorem dropIds_anonymous (index : Nat → Option Location) (gone : List Entry) :
    dropIds index gone anonymous = index anonymous := by
  induction gone generalizing index with
  | nil => rfl
  | cons e gone ih =>
      have hstep : dropIds index (e :: gone) = dropIds
          (if e.2.id ≠ anonymous then OrderBook.eraseIndex index e.2.id else index) gone := rfl
      rw [hstep, ih]
      split
      · rename_i he
        exact Function.update_of_ne (Ne.symm he) _ _
      · rfl

theorem dropIds_some {index : Nat → Option Location} {gone : List Entry} {id : Nat}
    {loc : Location} (h : dropIds index gone id = some loc) : index id = some loc := by
  by_cases hid : id = anonymous
  · subst hid
    rwa [dropIds_anonymous] at h
  · exact ((dropIds_eq_some hid).mp h).1

theorem dropIds_eq_none {index : Nat → Option Location} (gone : List Entry) {id : Nat}
    (h : index id = none) : dropIds index gone id = none := by
  cases hdrop : dropIds index gone id with
  | none => rfl
  | some loc =>
      rw [dropIds_some hdrop] at h
      cases h

theorem dropIds_append (index : Nat → Option Location) (gone more : List Entry) :
    dropIds index (gone ++ more) = dropIds (dropIds index gone) more :=
  List.foldl_append

theorem tags_popped_append_tags_remaining (v : Int) (es : List Entry) :
    (popped v es).map tag ++ (remaining v es).map tag = es.map tag :=
  map_popped_append_map_remaining tag (fun _ _ => rfl) v es

theorem keys_popped_append_keys_remaining (v : Int) (es : List Entry) :
    keys (popped v es) ++ keys (remaining v es) = keys es :=
  map_popped_append_map_remaining Prod.fst (fun _ _ => rfl) v es

/-- One if slot `i` has been created. -/
def created (slots : Nat) (i : Int) : Nat := if 0 ≤ i ∧ i < slots then 1 else 0

/-- The slot handed out leaves the free list or is newly created. -/
theorem count_nextSlot {free free' : List Int} {slots slots' capacity : Nat} {node : Int}
    (h : ObjectPool.nextSlot free slots capacity = some (node, free', slots')) (i : Int) :
    [node].count i + free'.count i + created slots i = free.count i + created slots' i := by
  rcases ObjectPool.nextSlot_cases h with ⟨rfl, rfl⟩ | ⟨rfl, rfl, -, rfl, rfl⟩
  · simp only [List.count_cons, List.count_nil]
    omega
  · simp only [List.count_cons, List.count_nil, created, beq_iff_eq]
    split <;> split <;> split <;> omega

theorem nextSlot_bounds {free free' : List Int} {slots slots' capacity : Nat} {node : Int}
    (h : ObjectPool.nextSlot free slots capacity = some (node, free', slots'))
    (hcap : slots ≤ capacity) (hint : slots ≤ 2 ^ 31) :
    slots' ≤ capacity ∧ slots' ≤ 2 ^ 31 := by
  rcases ObjectPool.nextSlot_cases h with ⟨-, rfl⟩ | ⟨-, -, hroom, -, rfl⟩
  · exact ⟨hcap, hint⟩
  · omega

theorem count_range (n : Nat) (i : Int) :
    ((List.range n).map Int.ofNat).count i = created n i := by
  unfold created
  split
  · rename_i hi
    obtain ⟨k, rfl⟩ := Int.eq_ofNat_of_zero_le hi.1
    have hnodup : ((List.range n).map Int.ofNat).Nodup :=
      List.nodup_range.map fun _ _ hab => Int.ofNat.inj hab
    exact List.count_eq_one_of_mem hnodup (List.mem_map_of_mem (List.mem_range.mpr (by omega)))
  · rename_i hi
    rw [List.count_eq_zero]
    intro hmem
    obtain ⟨k, hk, rfl⟩ := List.mem_map.mp hmem
    have hk := List.mem_range.mp hk
    exact hi ⟨Int.natCast_nonneg k, by simpa using hk⟩

namespace WellFormed

variable {c : QueueBook} (h : c.WellFormed)
include h

/-- Altering one queue keeps the book well formed when the slots it gains or
loses are accounted for and the new index is sound. -/
theorem update {c' : QueueBook} (s : Side) (p : Nat) (f : List Entry → List Entry)
    (hside : c'.side = (c.alterQueue s p f).side)
    (hpositive : ∀ e ∈ f (c.queue s p), 0 < e.2.volume)
    (hcount : ∀ i, (keys (f (c.queue s p))).count i + c'.free.count i + created c.slots i =
      (keys (c.queue s p)).count i + c.free.count i + created c'.slots i)
    (hindexed : ∀ id loc, c'.index id = some loc → id ≠ anonymous ∧
      (loc.node, id) ∈ (c'.queue loc.side loc.price).map tag)
    (hcap : c'.slots ≤ c'.capacity) (hint : c'.slots ≤ 2 ^ 31) : c'.WellFormed where
  ladder t := by
    rw [hside]
    exact ladder_alterQueue h.ladder s p f t
  positive t q e he := by
    have hqueue := queue_alterQueue h.ladder s p f t q
    rw [queue, hside, ← queue, hqueue] at he
    split at he
    · exact hpositive e he
    · exact h.positive t q e he
  partition i := by
    have hocc := occurrences_alterQueue h.ladder s p f i
    have hsame : c'.occurrences i = (c.alterQueue s p f).occurrences i := by
      simp only [occurrences, hside]
    have hbefore := h.partition i
    have hmove := hcount i
    simp only [created] at hmove
    omega
  indexed := hindexed
  slots_le := hcap
  slots_int := hint

/-- Every slot created so far is in exactly one place. -/
theorem perm : (keys (elements (c.side .bid)) ++ keys (elements (c.side .ask)) ++ c.free).Perm
    ((List.range c.slots).map Int.ofNat) := by
  rw [List.perm_iff_count]
  intro i
  have hpart := h.partition i
  simp only [occurrences, countP_key] at hpart
  simp only [List.count_append, count_range, created]
  omega

theorem queue_length_le (s : Side) (p : Nat) : (c.queue s p).length ≤ c.slots := by
  have hlength := h.perm.length_eq
  have hqueue := countP_lookup_le (c.side s) (fun _ => true) (by omega : p ≠ p + 1)
  simp only [List.countP_true] at hqueue
  simp only [keys, List.length_append, List.length_map, List.length_range] at hlength
  cases s <;> simp only [queue] at * <;> omega

theorem drain (s : Side) (p : Nat) (v : Int) : (c.drain s p v).WellFormed := by
  refine h.update s p (remaining v) rfl (remaining_pos (h.positive s p)) ?_ ?_ h.slots_le
    h.slots_int
  · intro i
    have hkeys := congrArg (List.count i) (keys_popped_append_keys_remaining v (c.queue s p))
    simp only [List.count_append] at hkeys
    simp only [QueueBook.drain, retire, alterQueue, List.count_append, List.count_reverse]
    omega
  · intro id loc hloc
    have hold := dropIds_some hloc
    obtain ⟨hid, htag⟩ := h.indexed id loc hold
    refine ⟨hid, ?_⟩
    have hqueue := queue_alterQueue (c := c.retire (popped v (c.queue s p))) h.ladder s p
      (remaining v) loc.side loc.price
    simp only [QueueBook.drain, hqueue, queue_retire]
    split
    · rename_i hhere
      rw [hhere.1, hhere.2, ← tags_popped_append_tags_remaining v, List.mem_append] at htag
      rcases htag with hgone | hrest
      · obtain ⟨e, he, htag⟩ := List.mem_map.mp hgone
        exact absurd (congrArg Prod.snd htag) (((dropIds_eq_some hid).mp hloc).2 e he)
      · exact hrest
    · exact htag

theorem sweep (s : Side) (price : Nat) (v : Int) (l : Rungs Nat Entry) :
    (QueueBook.sweep s price c v l).WellFormed := by
  induction l generalizing c v with
  | nil => exact h
  | cons q l ih =>
      simp only [QueueBook.sweep]
      split
      · exact ih (h.drain _ _ _) _
      · exact h

theorem push {c' : QueueBook} {s : Side} {p id : Nat} {v : Int} (hv : 0 < v)
    (hpush : c.push s p id v = some c') : c'.WellFormed := by
  obtain ⟨⟨node, free, slots⟩, hslot, rfl⟩ := Option.map_eq_some_iff.mp hpush
  have hbounds := nextSlot_bounds hslot h.slots_le h.slots_int
  refine h.update s p (· ++ [(node, ⟨id, v⟩)]) rfl ?_ ?_ ?_ hbounds.1 hbounds.2
  · intro e he
    rcases List.mem_append.mp he with he | he
    · exact h.positive s p e he
    · rw [List.mem_singleton.mp he]
      exact hv
  · intro i
    have hmove := count_nextSlot hslot i
    simp only [keys, List.map_append, List.map_cons, List.map_nil, List.count_append]
    omega
  · intro id' loc hloc
    have hqueue := queue_alterQueue h.ladder s p (· ++ [(node, ⟨id, v⟩)]) loc.side loc.price
    have hsub : (c.queue loc.side loc.price).map tag ⊆
        ((c.alterQueue s p (· ++ [(node, ⟨id, v⟩)])).queue loc.side loc.price).map tag := by
      rw [hqueue]
      split
      · rename_i hhere
        rw [hhere.1, hhere.2, List.map_append]
        exact List.subset_append_left _ _
      · exact List.Subset.refl _
    by_cases hnew : id ≠ anonymous ∧ id' = id
    · obtain ⟨hid, rfl⟩ := hnew
      simp only [if_pos hid, Function.update_self, Option.some.injEq] at hloc
      subst hloc
      refine ⟨hid, ?_⟩
      change _ ∈ ((c.alterQueue s p _).queue s p).map tag
      rw [hqueue, if_pos ⟨rfl, rfl⟩]
      simp [tag]
    · have hold : c.index id' = some loc := by
        by_cases hid : id ≠ anonymous
        · have hne : id' ≠ id := fun heq => hnew ⟨hid, heq⟩
          simpa [hid, hne] using hloc
        · simpa [hid] using hloc
      obtain ⟨hid', htag⟩ := h.indexed id' loc hold
      exact ⟨hid', hsub htag⟩

/-- The order an index entry points at splits its queue. -/
theorem exists_split_of_index {id : Nat} {loc : Location} (hloc : c.index id = some loc) :
    ∃ xs v ys, c.queue loc.side loc.price = xs ++ (loc.node, ⟨id, v⟩) :: ys ∧
      (c.queue loc.side loc.price).filter (·.1 ≠ loc.node) = xs ++ ys := by
  obtain ⟨e, he, htag⟩ := List.mem_map.mp (h.indexed id loc hloc).2
  obtain ⟨node, r⟩ := e
  obtain ⟨rfl, rfl⟩ := Prod.mk.inj htag
  obtain ⟨xs, ys, hsplit⟩ := List.append_of_mem he
  refine ⟨xs, r.volume, ys, hsplit, ?_⟩
  have hnodup := h.keys_nodup loc.side loc.price
  rw [hsplit] at hnodup ⊢
  simp only [keys, List.map_append, List.map_cons, List.nodup_append, List.nodup_cons] at hnodup
  have hxs : xs.filter (·.1 ≠ loc.node) = xs := by
    rw [List.filter_eq_self]
    intro e he
    simpa using hnodup.2.2 e.1 (List.mem_map_of_mem he) loc.node (by simp)
  have hys : ys.filter (·.1 ≠ loc.node) = ys := by
    rw [List.filter_eq_self]
    intro e he
    have hne : e.1 ≠ loc.node := fun heq => hnodup.2.1.1 (heq ▸ List.mem_map_of_mem he)
    simpa using hne
  rw [List.filter_append, List.filter_cons_of_neg (by simp), hxs, hys]

theorem remove (id : Nat) : (c.remove id).WellFormed := by
  unfold QueueBook.remove
  cases hloc : c.index id with
  | none => exact h
  | some loc =>
      obtain ⟨xs, v, ys, hsplit, hfilter⟩ := h.exists_split_of_index hloc
      refine h.update loc.side loc.price (·.filter (·.1 ≠ loc.node)) rfl ?_ ?_ ?_
        h.slots_le h.slots_int
      · intro e he
        exact h.positive loc.side loc.price e (List.mem_of_mem_filter he)
      · intro i
        simp only [hfilter]
        simp only [hsplit, alterQueue, keys, List.map_append, List.map_cons, List.count_append,
          List.count_cons]
        omega
      · intro id' loc' hloc'
        have hne : id' ≠ id := by
          rintro rfl
          simp [OrderBook.eraseIndex] at hloc'
        have hold : c.index id' = some loc' := by
          simpa [OrderBook.eraseIndex, hne] using hloc'
        obtain ⟨hid', htag⟩ := h.indexed id' loc' hold
        refine ⟨hid', ?_⟩
        have hqueue := queue_alterQueue h.ladder loc.side loc.price
          (·.filter (·.1 ≠ loc.node)) loc'.side loc'.price
        change _ ∈ ((c.alterQueue loc.side loc.price _).queue loc'.side loc'.price).map tag
        rw [hqueue]
        split
        · rename_i hhere
          rw [hfilter]
          rw [hhere.1, hhere.2, hsplit] at htag
          simp only [List.map_append, List.map_cons, List.mem_append, List.mem_cons] at htag ⊢
          rcases htag with hx | heq | hy
          · exact Or.inl hx
          · exact absurd (congrArg Prod.snd heq) hne
          · exact Or.inr hy
        · exact htag

/-- Making a price a single aggregate trusts that no trailing order is indexed;
it is only used on books whose index is empty. -/
theorem assign {c' : QueueBook} {s : Side} {p : Nat} {v : Int}
    (hempty : ∀ id, c.index id = none) (hassign : c.assign s p v = some c') :
    c'.WellFormed := by
  rcases assign_cases hassign with ⟨-, rfl⟩ | ⟨hv, -, hpush⟩ | ⟨hv, e, es, hqueue, rfl⟩
  · refine h.update s p (fun _ => []) rfl (by simp) ?_ ?_ h.slots_le h.slots_int
    · intro i
      simp only [retire, alterQueue, List.count_append, List.count_reverse, List.map_nil,
        List.count_nil]
      omega
    · intro id loc hloc
      have hold := dropIds_some hloc
      rw [hempty] at hold
      cases hold
  · exact h.push hv hpush
  · refine h.update s p (fun _ => [(e.1, {e.2 with volume := v})]) rfl ?_ ?_ ?_
      h.slots_le h.slots_int
    · intro e' he'
      rw [List.mem_singleton.mp he']
      exact hv
    · intro i
      simp only [hqueue, alterQueue, keys, List.map_cons, List.map_nil, List.count_append,
        List.count_reverse, List.count_cons, List.count_nil]
      omega
    · intro id loc hloc
      have hold : c.index id = some loc := hloc
      rw [hempty] at hold
      cases hold

theorem place {c' : QueueBook} {o : Order} {trades : List Trade}
    (hplace : c.place o = some (c', trades)) : c'.WellFormed := by
  rcases place_outcome hplace with ⟨-, rfl, -⟩ | ⟨-, -, rfl, -⟩ |
    ⟨-, -, -, ⟨hleft, -, hpush⟩ | ⟨-, rfl⟩⟩
  · exact h
  · exact h
  · exact (h.sweep _ _ _ _).push hleft hpush
  · exact h.sweep _ _ _ _

theorem add {c' : QueueBook} {s : Side} {p : Nat} {v : Int}
    (hadd : c.add s p v = some c') : c'.WellFormed := by
  rcases add_cases hadd with ⟨-, rfl⟩ | ⟨hv, hpush⟩
  · exact h
  · exact h.push hv hpush

end WellFormed

end ExchangeEngine.QueueBook
