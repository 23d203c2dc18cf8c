import Mathlib.Data.List.Basic
import Mathlib.Order.Defs.Unbundled

/-!
Ladders: finite maps from keys to non-empty queues, kept as a list sorted by a
strict total order, the better key first. One operation, `alter`, rewrites the
queue of a single key: it creates the key when a queue appears and removes it
when the queue becomes empty. Everything an update does to a ladder is said by
`lookup_alter` and by the split of the list around the altered key.
-/

namespace ExchangeEngine.Ladder

variable {κ α : Type*}

/-- The rungs of a ladder: each key with its queue. -/
abbrev Rungs (κ α : Type*) := List (κ × List α)

/-- Put a queue in front of a ladder, unless it is empty. -/
def put (k : κ) : List α → Rungs κ α → Rungs κ α
  | [], l => l
  | a :: as, l => (k, a :: as) :: l

@[simp] theorem put_nil (k : κ) (l : Rungs κ α) : put k [] l = l := rfl

theorem put_of_ne (k : κ) {as : List α} (h : as ≠ []) (l : Rungs κ α) :
    put k as l = (k, as) :: l := by
  cases as with
  | nil => exact absurd rfl h
  | cons a as => rfl

/-- All queued elements, the better key first. -/
def elements (l : Rungs κ α) : List α := l.flatMap Prod.snd

@[simp] theorem elements_nil : elements ([] : Rungs κ α) = [] := rfl

@[simp] theorem elements_cons (q : κ × List α) (l : Rungs κ α) :
    elements (q :: l) = q.2 ++ elements l := rfl

@[simp] theorem elements_append (xs ys : Rungs κ α) :
    elements (xs ++ ys) = elements xs ++ elements ys := by simp [elements]

@[simp] theorem elements_put (k : κ) (as : List α) (l : Rungs κ α) :
    elements (put k as l) = as ++ elements l := by cases as <;> simp [put]

theorem length_elements_of_forall {l : Rungs κ α} (h : ∀ q ∈ l, q.2.length = 1) :
    (elements l).length = l.length := by
  induction l with
  | nil => rfl
  | cons q l ih =>
      rw [elements_cons, List.length_append, h q List.mem_cons_self,
        ih fun r hr => h r (List.mem_cons_of_mem q hr), List.length_cons, Nat.add_comm]

/-- All queued elements with their keys, the better key first. -/
def listing (l : Rungs κ α) : List (κ × α) := l.flatMap fun q => q.2.map (Prod.mk q.1)

@[simp] theorem listing_nil : listing ([] : Rungs κ α) = [] := rfl

@[simp] theorem listing_cons (q : κ × List α) (l : Rungs κ α) :
    listing (q :: l) = q.2.map (Prod.mk q.1) ++ listing l := rfl

@[simp] theorem listing_append (xs ys : Rungs κ α) :
    listing (xs ++ ys) = listing xs ++ listing ys := by simp [listing]

@[simp] theorem listing_put (k : κ) (as : List α) (l : Rungs κ α) :
    listing (put k as l) = as.map (Prod.mk k) ++ listing l := by cases as <;> simp [put]

theorem length_listing (l : Rungs κ α) : (listing l).length = (elements l).length := by
  simp [listing, elements, List.length_flatMap]

theorem map_snd_listing (l : Rungs κ α) : (listing l).map Prod.snd = elements l := by
  simp only [listing, elements, List.map_flatMap, List.map_map]
  exact congrArg (fun f => l.flatMap f) (funext fun q => List.map_id' q.2)

theorem forall_listing {l : Rungs κ α} {P : κ → Prop} (h : ∀ q ∈ l, P q.1) :
    ∀ x ∈ listing l, P x.1 := by
  intro x hx
  obtain ⟨q, hq, hx⟩ := List.mem_flatMap.mp hx
  obtain ⟨a, _, rfl⟩ := List.mem_map.mp hx
  exact h q hq

theorem filter_listing_of_all {l : Rungs κ α} {P : κ → Bool} (h : ∀ q ∈ l, P q.1 = true) :
    (listing l).filter (fun x => P x.1) = listing l :=
  List.filter_eq_self.mpr (forall_listing (P := fun k => P k = true) h)

theorem filter_listing_of_none {l : Rungs κ α} {P : κ → Bool} (h : ∀ q ∈ l, P q.1 = false) :
    (listing l).filter (fun x => P x.1) = [] := by
  rw [List.filter_eq_nil_iff]
  intro x hx
  simp [forall_listing (P := fun k => P k = false) h x hx]

section Lookup

variable [DecidableEq κ]

/-- The queue of a key; a missing key has the empty queue. -/
def lookup (k : κ) : Rungs κ α → List α
  | [] => []
  | q :: l => if q.1 = k then q.2 else lookup k l

@[simp] theorem lookup_nil (k : κ) : lookup k ([] : Rungs κ α) = [] := rfl

theorem lookup_cons (k : κ) (q : κ × List α) (l : Rungs κ α) :
    lookup k (q :: l) = if q.1 = k then q.2 else lookup k l := rfl

theorem lookup_eq_nil_of_ne {k : κ} {l : Rungs κ α} (h : ∀ q ∈ l, q.1 ≠ k) :
    lookup k l = [] := by
  induction l with
  | nil => rfl
  | cons q l ih =>
      rw [lookup_cons, if_neg (h q (by simp))]
      exact ih fun r hr => h r (by simp [hr])

theorem mem_of_lookup_ne_nil {k : κ} {l : Rungs κ α} (h : lookup k l ≠ []) :
    (k, lookup k l) ∈ l := by
  induction l with
  | nil => exact absurd rfl h
  | cons q l ih =>
      by_cases hq : q.1 = k
      · have hqk : (k, q.2) = q := by rw [← hq]
        rw [lookup_cons, if_pos hq, hqk]
        exact List.mem_cons_self
      · rw [lookup_cons, if_neg hq] at h ⊢
        exact List.mem_cons_of_mem _ (ih h)

end Lookup

variable (better : κ → κ → Prop)

/-- Rewrite the queue of one key. -/
def alter [DecidableEq κ] [DecidableRel better] (k : κ) (f : List α → List α) : Rungs κ α → Rungs κ α
  | [] => put k (f []) []
  | q :: l =>
      if better q.1 k then q :: alter k f l
      else if q.1 = k then put k (f q.2) l
      else put k (f []) (q :: l)

theorem forall_alter [DecidableEq κ] [DecidableRel better] {k : κ} {f : List α → List α}
    {l : Rungs κ α} {P : κ → Prop} (hk : P k) (h : ∀ q ∈ l, P q.1) :
    ∀ q ∈ alter better k f l, P q.1 := by
  have hput : ∀ {as : List α} {l : Rungs κ α}, (∀ q ∈ l, P q.1) → ∀ q ∈ put k as l, P q.1 := by
    intro as l h q hq
    cases as with
    | nil => exact h q hq
    | cons a as =>
        rcases List.mem_cons.mp hq with rfl | hq
        · exact hk
        · exact h q hq
  induction l with
  | nil => exact hput h
  | cons r l ih =>
      have hl : ∀ q ∈ l, P q.1 := fun q hq => h q (List.mem_cons_of_mem r hq)
      simp only [alter]
      split
      · intro q hq
        rcases List.mem_cons.mp hq with rfl | hq
        · exact h q List.mem_cons_self
        · exact ih hl q hq
      split
      · exact hput hl
      · exact hput h

/-- Sorted, better keys first, with no empty queue. -/
structure WellFormed (l : Rungs κ α) : Prop where
  sorted : l.Pairwise fun p q => better p.1 q.1
  nonempty : ∀ q ∈ l, q.2 ≠ []

theorem wellFormed_nil : WellFormed better ([] : Rungs κ α) :=
  ⟨List.Pairwise.nil, by simp⟩

variable {better}

theorem WellFormed.tail {q : κ × List α} {l : Rungs κ α}
    (h : WellFormed better (q :: l)) : WellFormed better l :=
  ⟨(List.pairwise_cons.mp h.sorted).2, fun r hr => h.nonempty r (by simp [hr])⟩

/-- What orders each queue orders the listing, together with the order of the keys. -/
theorem WellFormed.listing_pairwise {l : Rungs κ α} (h : WellFormed better l)
    {R : κ → α → α → Prop} (hqueues : ∀ q ∈ l, q.2.Pairwise (R q.1)) :
    (listing l).Pairwise fun x y => better x.1 y.1 ∨ (x.1 = y.1 ∧ R x.1 x.2 y.2) := by
  induction l with
  | nil => exact List.Pairwise.nil
  | cons q l ih =>
      have hworse := (List.pairwise_cons.mp h.sorted).1
      rw [listing_cons]
      refine List.pairwise_append.mpr
        ⟨?_, ih h.tail fun r hr => hqueues r (List.mem_cons_of_mem q hr), ?_⟩
      · exact List.pairwise_map.mpr ((hqueues q List.mem_cons_self).imp fun hR => Or.inr ⟨rfl, hR⟩)
      · intro x hx y hy
        obtain ⟨a, _, rfl⟩ := List.mem_map.mp hx
        exact Or.inl (forall_listing (P := better q.1) hworse y hy)

/-- Along the listing keys never get better. -/
theorem WellFormed.listing_sorted {l : Rungs κ α} (h : WellFormed better l) :
    (listing l).Pairwise fun x y => better x.1 y.1 ∨ x.1 = y.1 := by
  have hall : ∀ q ∈ l, q.2.Pairwise fun _ _ => True := fun q _ =>
    List.pairwise_of_forall fun _ _ => trivial
  exact (h.listing_pairwise (R := fun _ _ _ => True) hall).imp fun hR =>
    hR.imp_right And.left

section Order

variable [IsStrictTotalOrder κ better]

theorem ne_of_better {p q : κ} (h : better p q) : p ≠ q := by
  rintro rfl
  exact irrefl_of better p h

variable [DecidableEq κ]

theorem lookup_split {k k' : κ} {xs ys : Rungs κ α} (as : List α)
    (hxs : ∀ q ∈ xs, better q.1 k) (hys : ∀ q ∈ ys, better k q.1) :
    lookup k' (xs ++ put k as ys) =
      if k' = k then as else lookup k' (xs ++ ys) := by
  induction xs with
  | nil =>
      by_cases hk : k' = k
      · subst hk
        cases as with
        | nil => simpa using lookup_eq_nil_of_ne fun q hq => (ne_of_better (hys q hq)).symm
        | cons a as => simp [put, lookup_cons]
      · cases as with
        | nil => simp [hk]
        | cons a as => simp [put, lookup_cons, hk, Ne.symm hk]
  | cons q xs ih =>
      have hq := ne_of_better (hxs q (by simp))
      have ih := ih fun r hr => hxs r (by simp [hr])
      by_cases hk : k' = k
      · subst hk
        simpa [lookup_cons, hq] using ih
      · simp only [List.cons_append, lookup_cons, ih, if_neg hk]

/-- A listed queue is the queue of its key. -/
theorem WellFormed.lookup_of_mem {l : Rungs κ α} (h : WellFormed better l)
    {q : κ × List α} (hq : q ∈ l) : lookup q.1 l = q.2 := by
  induction l with
  | nil => cases hq
  | cons r l ih =>
      rcases List.mem_cons.mp hq with rfl | hq
      · simp [lookup_cons]
      · have hb := (List.pairwise_cons.mp h.sorted).1 q hq
        rw [lookup_cons, if_neg (ne_of_better hb)]
        exact ih h.tail hq

theorem WellFormed.mem_iff_lookup {l : Rungs κ α} (h : WellFormed better l) {q : κ × List α} :
    q ∈ l ↔ q.2 ≠ [] ∧ lookup q.1 l = q.2 := by
  constructor
  · intro hq
    exact ⟨h.nonempty q hq, h.lookup_of_mem hq⟩
  · rintro ⟨hne, hlookup⟩
    have hmem := mem_of_lookup_ne_nil (hlookup ▸ hne)
    rwa [hlookup] at hmem

/-- A ladder is determined by the queues of its keys. -/
theorem WellFormed.eq_of_lookup {l l' : Rungs κ α} (h : WellFormed better l)
    (h' : WellFormed better l') (heq : ∀ k, lookup k l = lookup k l') : l = l' := by
  have hnodup : ∀ {m : Rungs κ α}, WellFormed better m → m.Nodup := by
    intro m hm
    refine hm.sorted.imp ?_
    rintro p q hb rfl
    exact irrefl_of better p.1 hb
  have hperm : l.Perm l' := by
    apply (List.perm_ext_iff_of_nodup (hnodup h) (hnodup h')).mpr
    intro q
    rw [h.mem_iff_lookup, h'.mem_iff_lookup, heq]
  refine List.Perm.eq_of_pairwise ?_ h.sorted h'.sorted hperm
  intro p q _ _ hpq hqp
  exact absurd hqp (asymm_of better hpq)

variable [DecidableRel better]

/-- Around any key a ladder splits into the better and the worse keys, and
altering the key only replaces what stands between the two parts. -/
theorem WellFormed.exists_split {l : Rungs κ α} (h : WellFormed better l) (k : κ) :
    ∃ xs ys, l = xs ++ put k (lookup k l) ys ∧
      (∀ f, alter better k f l = xs ++ put k (f (lookup k l)) ys) ∧
      (∀ q ∈ xs, better q.1 k) ∧ (∀ q ∈ ys, better k q.1) := by
  induction l with
  | nil => exact ⟨[], [], rfl, fun f => rfl, by simp, by simp⟩
  | cons q l ih =>
      have hworse : ∀ r ∈ l, better q.1 r.1 := (List.pairwise_cons.mp h.sorted).1
      by_cases hb : better q.1 k
      · obtain ⟨xs, ys, hl, halter, hxs, hys⟩ := ih h.tail
        have hlookup : lookup k (q :: l) = lookup k l :=
          if_neg (ne_of_better hb)
        refine ⟨q :: xs, ys, ?_, ?_, ?_, hys⟩
        · rw [hlookup, List.cons_append, ← hl]
        · intro f
          rw [hlookup, List.cons_append, ← halter f]
          exact if_pos hb
        · intro r hr
          rcases List.mem_cons.mp hr with rfl | hr
          · exact hb
          · exact hxs r hr
      · by_cases hk : q.1 = k
        · have hlookup : lookup k (q :: l) = q.2 := if_pos hk
          refine ⟨[], l, ?_, ?_, by simp, fun r hr => hk ▸ hworse r hr⟩
          · rw [hlookup, put_of_ne k (h.nonempty q (by simp)), ← hk]
            rfl
          · intro f
            rw [hlookup]
            simp only [alter, if_neg hb, if_pos hk, List.nil_append]
        · have hkq : better k q.1 :=
            (trichotomous_of better k q.1).resolve_right
              (fun h => h.elim (fun h => hk h.symm) hb)
          have hlookup : lookup k (q :: l) = [] := by
            apply lookup_eq_nil_of_ne
            intro r hr
            rcases List.mem_cons.mp hr with rfl | hr
            · exact hk
            · exact (ne_of_better (trans_of better hkq (hworse r hr))).symm
          refine ⟨[], q :: l, by rw [hlookup]; rfl, ?_, by simp, ?_⟩
          · intro f
            rw [hlookup]
            simp only [alter, if_neg hb, if_neg hk, List.nil_append]
          · intro r hr
            rcases List.mem_cons.mp hr with rfl | hr
            · exact hkq
            · exact trans_of better hkq (hworse r hr)

theorem WellFormed.alter_eq_self {l : Rungs κ α} (h : WellFormed better l) {k : κ}
    {f : List α → List α} (hf : f (lookup k l) = lookup k l) :
    Ladder.alter better k f l = l := by
  obtain ⟨xs, ys, hl, halter, _, _⟩ := h.exists_split k
  rw [halter f, hf, ← hl]

/-- Altering a key twice alters it once. -/
theorem WellFormed.alter_alter {l : Rungs κ α} (h : WellFormed better l) (k : κ)
    (f g : List α → List α) :
    Ladder.alter better k g (Ladder.alter better k f l) =
      Ladder.alter better k (fun as => g (f as)) l := by
  have hirrefl : ¬ better k k := irrefl_of better k
  -- a ladder of worse keys, before and after the key is put in front of it
  have hworse : ∀ ys : Rungs κ α, (∀ q ∈ ys, better k q.1) → ∀ as,
      Ladder.alter better k g (put k as ys) = put k (g as) ys := by
    intro ys hys as
    cases as with
    | cons a as => simp only [put, Ladder.alter, if_neg hirrefl, if_true]
    | nil =>
        cases ys with
        | nil => rfl
        | cons q ys =>
            have hq := hys q List.mem_cons_self
            simp only [put_nil, Ladder.alter, if_neg (asymm_of better hq),
              if_neg (ne_of_better hq).symm]
  obtain ⟨xs, ys, hl, halter, hxs, hys⟩ := h.exists_split k
  have hskip : ∀ zs : Rungs κ α,
      Ladder.alter better k g (xs ++ zs) = xs ++ Ladder.alter better k g zs := by
    intro zs
    clear hl halter
    induction xs with
    | nil => rfl
    | cons q xs ih =>
        rw [List.cons_append, Ladder.alter, if_pos (hxs q List.mem_cons_self),
          ih fun r hr => hxs r (List.mem_cons_of_mem q hr), List.cons_append]
  rw [halter f, hskip, hworse ys hys, ← halter fun as => g (f as)]

/-- Altering a key rewrites its queue and no other. -/
theorem WellFormed.lookup_alter {l : Rungs κ α} (h : WellFormed better l)
    (k k' : κ) (f : List α → List α) :
    lookup k' (alter better k f l) =
      if k' = k then f (lookup k l) else lookup k' l := by
  obtain ⟨xs, ys, hl, halter, hxs, hys⟩ := h.exists_split k
  rw [halter f, lookup_split _ hxs hys]
  by_cases hk : k' = k
  · simp [hk]
  · have hsame : lookup k' (xs ++ put k (lookup k l) ys) = _ := lookup_split (lookup k l) hxs hys
    rw [← hl, if_neg hk] at hsame
    simp [hk, hsame]

theorem WellFormed.alter {l : Rungs κ α} (h : WellFormed better l)
    (k : κ) (f : List α → List α) : WellFormed better (alter better k f l) := by
  obtain ⟨xs, ys, hl, halter, hxs, hys⟩ := h.exists_split k
  rw [halter f]
  have hsub : (xs ++ ys).Sublist l := by
    rw [hl]
    refine List.Sublist.append_left ?_ xs
    cases lookup k l with
    | nil => exact List.Sublist.refl _
    | cons a as => exact List.sublist_cons_self _ _
  have hparts := List.pairwise_append.mp (h.sorted.sublist hsub)
  have hnonempty : ∀ q ∈ xs ++ ys, q.2 ≠ [] := fun q hq => h.nonempty q (hsub.subset hq)
  cases hf : f (lookup k l) with
  | nil => exact ⟨h.sorted.sublist hsub, hnonempty⟩
  | cons a as =>
      constructor
      · refine List.pairwise_append.mpr ⟨hparts.1, List.pairwise_cons.mpr ⟨hys, hparts.2.1⟩, ?_⟩
        intro p hp q hq
        rcases List.mem_cons.mp hq with rfl | hq
        · exact hxs p hp
        · exact trans_of better (hxs p hp) (hys q hq)
      · intro q hq
        rcases List.mem_append.mp hq with hq | hq
        · exact hnonempty q (List.mem_append_left _ hq)
        · rcases List.mem_cons.mp hq with rfl | hq
          · exact List.cons_ne_nil _ _
          · exact hnonempty q (List.mem_append_right _ hq)

/-- The listing around one queue, before and after it is altered. -/
theorem WellFormed.listing_split {l : Rungs κ α} (h : WellFormed better l) (k : κ) :
    ∃ xs ys, listing l = xs ++ ((lookup k l).map (Prod.mk k) ++ ys) ∧
      (∀ f, listing (Ladder.alter better k f l) =
        xs ++ ((f (lookup k l)).map (Prod.mk k) ++ ys)) ∧
      (∀ x ∈ xs, better x.1 k) ∧ (∀ y ∈ ys, better k y.1) := by
  obtain ⟨xs, ys, hl, halter, hxs, hys⟩ := h.exists_split k
  refine ⟨listing xs, listing ys, ?_, fun f => ?_,
    forall_listing (P := fun j => better j k) hxs, forall_listing (P := better k) hys⟩
  · rw [← listing_put, ← listing_append, ← hl]
  · rw [halter f, listing_append, listing_put]

/-- The elements of one key, read off the listing. -/
theorem WellFormed.listing_filter {l : Rungs κ α} (h : WellFormed better l) (k : κ)
    [DecidablePred fun x : κ × α => x.1 = k] :
    (listing l).filter (fun x => x.1 = k) = (lookup k l).map (Prod.mk k) := by
  obtain ⟨xs, ys, hl, _, hxs, hys⟩ := h.listing_split k
  have hxs_none : xs.filter (fun x => x.1 = k) = [] := by
    rw [List.filter_eq_nil_iff]
    exact fun x hx => by simpa using ne_of_better (hxs x hx)
  have hys_none : ys.filter (fun x => x.1 = k) = [] := by
    rw [List.filter_eq_nil_iff]
    exact fun y hy => by simpa using (ne_of_better (hys y hy)).symm
  have hblock : ((lookup k l).map (Prod.mk k)).filter (fun x => x.1 = k) =
      (lookup k l).map (Prod.mk k) := by
    rw [List.filter_eq_self]
    intro x hx
    obtain ⟨a, _, rfl⟩ := List.mem_map.mp hx
    simp
  rw [hl, List.filter_append, List.filter_append, hxs_none, hys_none, hblock, List.nil_append,
    List.append_nil]

/-- A ladder is determined by its listing. -/
theorem WellFormed.eq_of_listing {l l' : Rungs κ α} (h : WellFormed better l)
    (h' : WellFormed better l') (heq : listing l = listing l') : l = l' := by
  apply h.eq_of_lookup h'
  intro k
  have hmap : (lookup k l).map (Prod.mk k) = (lookup k l').map (Prod.mk k) := by
    rw [← h.listing_filter k, ← h'.listing_filter k, heq]
  exact List.map_injective_iff.mpr (fun _ _ hab => (Prod.mk.inj hab).2) hmap

theorem WellFormed.mem_listing {l : Rungs κ α} (h : WellFormed better l) {k : κ} {a : α} :
    (k, a) ∈ listing l ↔ a ∈ lookup k l := by
  obtain ⟨xs, ys, hl, _, hxs, hys⟩ := h.listing_split k
  rw [hl]
  constructor
  · intro hmem
    rcases List.mem_append.mp hmem with hmem | hmem
    · exact absurd rfl (ne_of_better (hxs _ hmem))
    · rcases List.mem_append.mp hmem with hmem | hmem
      · simpa using hmem
      · exact absurd rfl (ne_of_better (hys _ hmem))
  · intro hmem
    exact List.mem_append_right _ (List.mem_append_left _ (List.mem_map_of_mem hmem))

/-- Altering a key leaves the rungs of the other keys alone. -/
theorem WellFormed.filter_alter {l : Rungs κ α} (h : WellFormed better l) (k : κ)
    (f : List α → List α) :
    (Ladder.alter better k f l).filter (fun q => q.1 ≠ k) = l.filter (fun q => q.1 ≠ k) := by
  obtain ⟨xs, ys, hl, halter, _, _⟩ := h.exists_split k
  have hput : ∀ as : List α, (put k as ys).filter (fun q => decide (q.1 ≠ k)) =
      ys.filter (fun q => decide (q.1 ≠ k)) := by
    intro as
    cases as <;> simp [put]
  have hsame := congrArg (List.filter fun q => decide (q.1 ≠ k)) hl
  rw [halter f, hsame, List.filter_append, List.filter_append, hput, hput]

/-- Counting elements before and after altering one queue. -/
theorem WellFormed.countP_elements_alter {l : Rungs κ α} (h : WellFormed better l)
    (k : κ) (f : List α → List α) (p : α → Bool) :
    (elements (Ladder.alter better k f l)).countP p + (lookup k l).countP p =
      (elements l).countP p + (f (lookup k l)).countP p := by
  obtain ⟨xs, ys, hl, halter, _, _⟩ := h.exists_split k
  have hbefore : (elements l).countP p = (elements (xs ++ put k (lookup k l) ys)).countP p :=
    congrArg (fun l => (elements l).countP p) hl
  rw [halter f, hbefore]
  simp only [elements_append, elements_put, List.countP_append]
  omega

end Order

section Relabel

/-! Relabelling the keys commutes with looking up and altering a queue, as long as the new
labels tell the keys apart and compare as the old ones do. -/

variable {κ' : Type*}

def mapKeys (f : κ → κ') (l : Rungs κ α) : Rungs κ' α := l.map fun q => (f q.1, q.2)

theorem mapKeys_put (f : κ → κ') (k : κ) (as : List α) (l : Rungs κ α) :
    mapKeys f (put k as l) = put (f k) as (mapKeys f l) := by
  cases as <;> rfl

variable [DecidableEq κ] [DecidableEq κ'] {f : κ → κ'} {k : κ} {l : Rungs κ α}

theorem lookup_mapKeys (hf : ∀ q ∈ l, f q.1 = f k → q.1 = k) :
    lookup (f k) (mapKeys f l) = lookup k l := by
  induction l with
  | nil => rfl
  | cons q l ih =>
      have ih := ih fun r hr => hf r (List.mem_cons_of_mem q hr)
      by_cases hq : q.1 = k
      · simp [mapKeys, lookup_cons, hq]
      · have hfq : f q.1 ≠ f k := fun heq => hq (hf q List.mem_cons_self heq)
        simpa [mapKeys, lookup_cons, hq, hfq] using ih

theorem alter_mapKeys {better : κ → κ → Prop} {better' : κ' → κ' → Prop} [DecidableRel better]
    [DecidableRel better'] (hf : ∀ q ∈ l, f q.1 = f k → q.1 = k)
    (hb : ∀ q ∈ l, better' (f q.1) (f k) ↔ better q.1 k) (g : List α → List α) :
    alter better' (f k) g (mapKeys f l) = mapKeys f (alter better k g l) := by
  induction l with
  | nil => exact (mapKeys_put f k _ []).symm
  | cons q l ih =>
      have ih := ih (fun r hr => hf r (List.mem_cons_of_mem q hr))
        fun r hr => hb r (List.mem_cons_of_mem q hr)
      have hbq := hb q List.mem_cons_self
      by_cases hbetter : better q.1 k
      · simpa [mapKeys, alter, hbq.mpr hbetter, hbetter] using ih
      · have hbetter' : ¬ better' (f q.1) (f k) := fun h => hbetter (hbq.mp h)
        by_cases hq : q.1 = k
        · simp only [mapKeys, alter, List.map_cons, if_neg hbetter, if_neg hbetter', if_pos hq,
            if_pos (congrArg f hq)]
          exact (mapKeys_put f k _ l).symm
        · have hfq : f q.1 ≠ f k := fun heq => hq (hf q List.mem_cons_self heq)
          simp only [mapKeys, alter, List.map_cons, if_neg hbetter, if_neg hbetter', if_neg hq,
            if_neg hfq]
          exact (mapKeys_put f k _ (q :: l)).symm

end Relabel

section MapQueues

/-! Mapping the queued elements keeps the keys and the lengths of their queues. -/

variable {β : Type*} (f : α → β)

def mapQueues (l : Rungs κ α) : Rungs κ β := l.map fun q => (q.1, q.2.map f)

theorem lookup_mapQueues [DecidableEq κ] (k : κ) (l : Rungs κ α) :
    lookup k (mapQueues f l) = (lookup k l).map f := by
  induction l with
  | nil => rfl
  | cons q l ih =>
      by_cases hq : q.1 = k
      · simp [mapQueues, lookup_cons, hq]
      · simpa [mapQueues, lookup_cons, hq] using ih

theorem elements_mapQueues (l : Rungs κ α) : elements (mapQueues f l) = (elements l).map f := by
  simp only [elements, mapQueues, List.flatMap_map, List.map_flatMap]

theorem listing_mapQueues (l : Rungs κ α) :
    listing (mapQueues f l) = (listing l).map fun x => (x.1, f x.2) := by
  simp only [listing, mapQueues, List.flatMap_map, List.map_flatMap, List.map_map,
    Function.comp_def]

theorem WellFormed.mapQueues {l : Rungs κ α} (h : WellFormed better l) :
    WellFormed better (Ladder.mapQueues f l) where
  sorted := List.pairwise_map.mpr h.sorted
  nonempty q hq := by
    obtain ⟨r, hr, rfl⟩ := List.mem_map.mp hq
    simpa using h.nonempty r hr

end MapQueues

/-- The queues of two different keys are disjoint parts of the ladder. -/
theorem countP_lookup_le [DecidableEq κ] (l : Rungs κ α) (p : α → Bool) {k k' : κ} (hk : k ≠ k') :
    (lookup k l).countP p + (lookup k' l).countP p ≤ (elements l).countP p := by
  induction l with
  | nil => simp
  | cons q l ih =>
      simp only [elements_cons, List.countP_append, lookup_cons]
      by_cases h1 : q.1 = k
      · have h2 : q.1 ≠ k' := fun h => hk (h1.symm.trans h)
        simp only [if_pos h1, if_neg h2]
        omega
      · by_cases h2 : q.1 = k'
        · simp only [if_pos h2, if_neg h1]
          omega
        · simp only [if_neg h1, if_neg h2]
          omega

end ExchangeEngine.Ladder
