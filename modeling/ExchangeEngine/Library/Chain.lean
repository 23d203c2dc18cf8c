import Mathlib.Data.List.Basic
import Mathlib.Data.List.Nodup

/-!
Doubly linked chains threaded through an indexed store. A store maps an index
to the cell it holds, if any; a cell carries a value and the indices of its two
neighbours, with one index reserved to mean "no neighbour". A segment says that
a list of (index, value) pairs is laid out in the store in that order, between
given outer neighbours. The lemmas describe what appending, popping the head and
splicing out a middle cell do to a segment, and that a segment only depends on
the cells it mentions.
-/

namespace ExchangeEngine.Chain

variable {ι α : Type*}

/-- One intrusive list cell. -/
structure Cell (ι α : Type*) where
  value : α
  next : ι
  prev : ι
  deriving DecidableEq, Repr

abbrev Store (ι α : Type*) := ι → Option (Cell ι α)

/-- Index of the first cell of a chain, or the outer neighbour when empty. -/
def first (after : ι) : List (ι × α) → ι
  | [] => after
  | (i, _) :: _ => i

/-- Index of the last cell of a chain, or the outer neighbour when empty. -/
def last (before : ι) : List (ι × α) → ι
  | [] => before
  | (i, _) :: rest => last i rest

/-- The chain `cells` lies in the store between `before` and `after`. -/
def Segment (σ : Store ι α) (before after : ι) : List (ι × α) → Prop
  | [] => True
  | (i, a) :: rest =>
      σ i = some ⟨a, first after rest, before⟩ ∧ Segment σ i after rest

/-- The indices a chain occupies. -/
abbrev keys (cells : List (ι × α)) : List ι := cells.map Prod.fst

@[simp] theorem first_nil (after : ι) : first after ([] : List (ι × α)) = after := rfl

@[simp] theorem first_cons (after : ι) (c : ι × α) (rest : List (ι × α)) :
    first after (c :: rest) = c.1 := rfl

@[simp] theorem last_nil (before : ι) : last before ([] : List (ι × α)) = before := rfl

@[simp] theorem last_cons (before : ι) (c : ι × α) (rest : List (ι × α)) :
    last before (c :: rest) = last c.1 rest := rfl

@[simp] theorem last_append (before : ι) (xs ys : List (ι × α)) :
    last before (xs ++ ys) = last (last before xs) ys := by
  induction xs generalizing before with
  | nil => rfl
  | cons c rest ih => exact ih c.1

theorem first_append (after : ι) (xs ys : List (ι × α)) :
    first after (xs ++ ys) = first (first after ys) xs := by
  cases xs <;> rfl

theorem last_mem_keys (before : ι) (c : ι × α) (rest : List (ι × α)) :
    last before (c :: rest) ∈ keys (c :: rest) := by
  induction rest generalizing before c with
  | nil => simp
  | cons d more ih =>
      rw [last_cons]
      exact List.mem_cons_of_mem _ (ih c.1 d)

theorem last_eq_or_mem (before : ι) (cells : List (ι × α)) :
    last before cells = before ∨ last before cells ∈ keys cells := by
  cases cells with
  | nil => exact Or.inl rfl
  | cons c rest => exact Or.inr (last_mem_keys before c rest)

theorem first_eq_or_mem (after : ι) (cells : List (ι × α)) :
    first after cells = after ∨ first after cells ∈ keys cells := by
  cases cells with
  | nil => exact Or.inl rfl
  | cons c rest => exact Or.inr List.mem_cons_self

theorem segment_append (σ : Store ι α) (before after : ι) (xs ys : List (ι × α)) :
    Segment σ before after (xs ++ ys) ↔
      Segment σ before (first after ys) xs ∧ Segment σ (last before xs) after ys := by
  induction xs generalizing before with
  | nil => simp [Segment]
  | cons c rest ih =>
      simp only [List.cons_append, Segment, first_append, last_cons, ih c.1, and_assoc]

/-- A segment depends only on the cells it lists. -/
theorem Segment.frame {σ σ' : Store ι α} {before after : ι} {cells : List (ι × α)}
    (h : Segment σ before after cells)
    (hframe : ∀ i ∈ keys cells, σ' i = σ i) : Segment σ' before after cells := by
  induction cells generalizing before with
  | nil => trivial
  | cons c rest ih =>
      refine ⟨(hframe c.1 (by simp)).trans h.1, ih h.2 ?_⟩
      intro i member
      exact hframe i (List.mem_cons_of_mem _ member)

/-- In a null-terminated chain `next` and `prev` undo each other. -/
theorem Segment.next_eq_iff_prev_eq {σ : Store ι α} {null : ι} {cells : List (ι × α)}
    (h : Segment σ null null cells) (hnull : null ∉ keys cells) {i j : ι}
    (hi : i ∈ keys cells) (hj : j ∈ keys cells) :
    (σ i).map Cell.next = some j ↔ (σ j).map Cell.prev = some i := by
  constructor
  · intro hnext
    obtain ⟨⟨_, a⟩, hmem, rfl⟩ := List.mem_map.mp hi
    obtain ⟨xs, ys, rfl⟩ := List.append_of_mem hmem
    obtain ⟨_, hcell, hrest⟩ := (segment_append σ null null xs _).mp h
    rw [hcell] at hnext
    cases ys with
    | nil =>
        have hend : null = j := by simpa using hnext
        exact absurd (hend ▸ hj) hnull
    | cons c zs =>
        have hstep : c.1 = j := by simpa using hnext
        rw [← hstep, hrest.1]
        rfl
  · intro hprev
    obtain ⟨⟨_, b⟩, hmem, rfl⟩ := List.mem_map.mp hj
    obtain ⟨xs, ys, rfl⟩ := List.append_of_mem hmem
    obtain ⟨hleft, hcell, _⟩ := (segment_append σ null null xs _).mp h
    rw [hcell] at hprev
    rcases List.eq_nil_or_concat xs with rfl | ⟨init, c, hconcat⟩
    · have hend : null = i := by simpa using hprev
      exact absurd (hend ▸ hi) hnull
    · rw [List.concat_eq_append] at hconcat
      subst hconcat
      have hstep : c.1 = i := by simpa using hprev
      rw [← hstep, ((segment_append σ null _ init [c]).mp hleft).2.1]
      rfl

theorem head?_keys (after : ι) {cells : List (ι × α)} (h : cells ≠ []) :
    (keys cells).head? = some (first after cells) := by
  cases cells with
  | nil => exact absurd rfl h
  | cons c rest => rfl

theorem getLast?_keys (before : ι) {cells : List (ι × α)} (h : cells ≠ []) :
    (keys cells).getLast? = some (last before cells) := by
  rcases List.eq_nil_or_concat cells with rfl | ⟨init, c, rfl⟩
  · exact absurd rfl h
  · simp [keys]

theorem Segment.prev_first {σ : Store ι α} {before after : ι} {cells : List (ι × α)}
    (h : Segment σ before after cells) (hne : cells ≠ []) :
    (σ (first after cells)).map Cell.prev = some before := by
  cases cells with
  | nil => exact absurd rfl hne
  | cons c rest => simp [h.1]

theorem Segment.next_last {σ : Store ι α} {before after : ι} {cells : List (ι × α)}
    (h : Segment σ before after cells) (hne : cells ≠ []) :
    (σ (last before cells)).map Cell.next = some after := by
  rcases List.eq_nil_or_concat cells with rfl | ⟨init, c, hconcat⟩
  · exact absurd rfl hne
  · rw [List.concat_eq_append] at hconcat
    subst hconcat
    have hcell := ((segment_append σ before after init [c]).mp h).2.1
    simp [hcell]

theorem Segment.lookup {σ : Store ι α} {before after : ι} {cells : List (ι × α)}
    (h : Segment σ before after cells) {i : ι} {a : α} (member : (i, a) ∈ cells) :
    ∃ cell, σ i = some cell ∧ cell.value = a := by
  induction cells generalizing before with
  | nil => cases member
  | cons c rest ih =>
      rcases List.mem_cons.mp member with rfl | later
      · exact ⟨_, h.1, rfl⟩
      · exact ih h.2 later

variable [DecidableEq ι]

/-- Overwriting the value of the first cell and the link in front of it. -/
theorem Segment.set_first {σ : Store ι α} {before after : ι} {i : ι} {a : α}
    {rest : List (ι × α)} (h : Segment σ before after ((i, a) :: rest)) (v : α) (before' : ι)
    (hfresh : i ∉ keys rest) :
    Segment (Function.update σ i (some ⟨v, first after rest, before'⟩))
      before' after ((i, v) :: rest) := by
  refine ⟨by simp, h.2.frame ?_⟩
  intro j member
  have hne : j ≠ i := fun heq => hfresh (heq ▸ member)
  simp [hne]

/-- Replacing only the link behind a non-empty chain. -/
theorem Segment.set_after {σ : Store ι α} {before after : ι} {i : ι} {a : α}
    {xs : List (ι × α)} (h : Segment σ before after (xs ++ [(i, a)])) (after' : ι)
    (hfresh : i ∉ keys xs) :
    Segment (Function.update σ i (some ⟨a, after', last before xs⟩))
      before after' (xs ++ [(i, a)]) := by
  rw [segment_append] at h ⊢
  refine ⟨h.1.frame ?_, by simp [Segment]⟩
  intro j member
  have hne : j ≠ i := fun heq => hfresh (heq ▸ member)
  simp [hne]

/-- Writing a detached cell and linking the old last cell to it appends it. -/
theorem Segment.push_back {σ : Store ι α} {before after null : ι} {i n : ι} {a v : α}
    {xs : List (ι × α)} (h : Segment σ before null (xs ++ [(i, a)]))
    (hfresh : i ∉ keys xs) (hnew : n ∉ keys (xs ++ [(i, a)])) :
    Segment (Function.update (Function.update σ i (some ⟨a, n, last before xs⟩))
        n (some ⟨v, after, i⟩)) before after (xs ++ [(i, a)] ++ [(n, v)]) := by
  rw [segment_append]
  constructor
  · refine (h.set_after n hfresh).frame ?_
    intro j member
    have hne : j ≠ n := fun heq => hnew (heq ▸ member)
    simp [hne]
  · simp [Segment]

/-- The store after linking the neighbours of a spliced-out cell to each other.
The neighbour on either side is left alone when it is the null index. -/
def splice (σ : Store ι α) (null before after : ι) : Store ι α :=
  let left := if before = null then σ else
    Function.update σ before ((σ before).map fun c => {c with next := after})
  if after = null then left else
    Function.update left after ((left after).map fun c => {c with prev := before})

theorem splice_of_ne (σ : Store ι α) (null before after : ι) {j : ι}
    (hb : j ≠ before) (ha : j ≠ after) : splice σ null before after j = σ j := by
  unfold splice
  split <;> split <;> simp [hb, ha]

theorem splice_before (σ : Store ι α) {null : ι} (before after : ι)
    (hnull : before ≠ null) (hne : before ≠ after) :
    splice σ null before after before =
      (σ before).map fun c => {c with next := after} := by
  unfold splice
  by_cases ha : after = null <;> simp [hnull, hne, ha]

theorem splice_after (σ : Store ι α) {null : ι} (before after : ι)
    (hnull : after ≠ null) (hne : after ≠ before) :
    splice σ null before after after =
      (σ after).map fun c => {c with prev := before} := by
  unfold splice
  by_cases hb : before = null <;> simp [hnull, hne, hb]

/-- Splicing a middle cell out leaves the remaining chain well linked. -/
theorem Segment.splice_out {σ : Store ι α} {null : ι} {xs ys : List (ι × α)}
    {n : ι} {v : α} (h : Segment σ null null (xs ++ (n, v) :: ys))
    (hnodup : (keys (xs ++ (n, v) :: ys)).Nodup)
    (hnull : null ∉ keys (xs ++ (n, v) :: ys)) :
    Segment (splice σ null (last null xs) (first null ys)) null null (xs ++ ys) := by
  obtain ⟨hleft, _, hright⟩ := (segment_append σ null null xs ((n, v) :: ys)).mp h
  simp only [keys, List.map_append, List.map_cons, List.nodup_append, List.nodup_cons,
    List.mem_append, List.mem_cons, not_or] at hnodup hnull
  obtain ⟨hxs, ⟨_, hys⟩, hdisj⟩ := hnodup
  have hleft_ne : ∀ j ∈ keys xs, j ≠ first null ys := by
    intro j member heq
    cases ys with
    | nil => exact hnull.1 (by simpa [heq] using member)
    | cons c rest => exact hdisj j member c.1 (by simp) heq
  have hright_ne : ∀ j ∈ keys ys, j ≠ last null xs := by
    intro j member heq
    cases xs with
    | nil => exact hnull.2.2 (by simpa [heq] using member)
    | cons c rest => exact hdisj j (heq ▸ last_mem_keys null c rest) j (Or.inr member) rfl
  rw [segment_append]
  constructor
  · -- the left part: only the link out of its last cell changes
    rcases List.eq_nil_or_concat xs with rfl | ⟨init, ⟨i, a⟩, hconcat⟩
    · trivial
    rw [List.concat_eq_append] at hconcat
    subst hconcat
    have hi : i ∉ keys init := by
      intro member
      simp only [List.map_append, List.nodup_append] at hxs
      exact hxs.2.2 i member i (by simp) rfl
    have hinull : i ≠ null := fun heq => hnull.1 (by simp [heq])
    have hcell : σ i = some ⟨a, n, last null init⟩ :=
      ((segment_append σ null n init [(i, a)]).mp hleft).2.1
    refine (hleft.set_after (first null ys) hi).frame ?_
    intro j member
    have hja := hleft_ne j member
    by_cases hji : j = i
    · subst hji
      have hb := splice_before σ j (first null ys) hinull hja
      simpa [hcell] using hb
    · rw [splice_of_ne _ _ _ _ (by simpa using hji) hja]
      simp [hji]
  · -- the right part: only the link into its first cell changes
    cases ys with
    | nil => trivial
    | cons c rest =>
        obtain ⟨i, a⟩ := c
        have hi : i ∉ keys rest := (List.nodup_cons.mp hys).1
        have hinull : i ≠ null := fun heq => hnull.2.2 (by simp [heq])
        have hcell : σ i = some ⟨a, first null rest, n⟩ := hright.1
        refine (hright.set_first a (last null xs) hi).frame ?_
        intro j member
        have hjl := hright_ne j member
        by_cases hji : j = i
        · subst hji
          have ha := splice_after σ (last null xs) j hinull hjl
          simpa [hcell] using ha
        · rw [first_cons, splice_of_ne _ _ _ _ hjl hji]
          simp [hji]

/-- Follow the `next` links from `i`, reading at most `fuel` cells. -/
def walk (σ : Store ι α) (null : ι) : Nat → ι → List (ι × α)
  | 0, _ => []
  | fuel + 1, i =>
      if i = null then [] else
        match σ i with
        | none => []
        | some cell => (i, cell.value) :: walk σ null fuel cell.next

/-- Following the links of a null-terminated chain lists exactly that chain. -/
theorem Segment.walk_eq {σ : Store ι α} {null before : ι} {cells : List (ι × α)}
    (h : Segment σ before null cells) (hnull : null ∉ keys cells)
    {fuel : Nat} (hfuel : cells.length ≤ fuel) :
    walk σ null fuel (first null cells) = cells := by
  induction cells generalizing before fuel with
  | nil => cases fuel <;> simp [walk]
  | cons c rest ih =>
      obtain ⟨i, a⟩ := c
      simp only [List.map_cons, List.mem_cons, not_or] at hnull
      cases fuel with
      | zero => simp at hfuel
      | succ fuel =>
          have htail := ih h.2 hnull.2 (by simpa using hfuel)
          simp only [first_cons, walk, h.1, if_neg (Ne.symm hnull.1), htail]

end ExchangeEngine.Chain
