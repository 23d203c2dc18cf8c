import ExchangeEngine.ConcurrentQueue.SpscFifo

/-!
Batches. A batch push should append its range and a batch pop should see the whole
queue; both fall short of that. The trivially copyable branch of `try_emplace_range`
starts both its copies behind the first chunk of the range, and `readable` looks at
the shared write cursor only once the cached one is spent. For every state between
two calls it is settled here on which ranges and requests this does not show. What a batch
pop does take is what as many single pops take.
-/

namespace ExchangeEngine.SpscQueue

variable {T : Type} {N : Capacity} {type : ElementType} {q : SpscQueue T} {r rc wc : Nat}
  {xs ys : List T}

/-! ### Pushing a range -/

/-- `try_emplace` on each element in turn. -/
def emplaceEach (N : Capacity) (q : SpscQueue T) : List T → Option (SpscQueue T)
  | [] => some q
  | x :: xs => do
    let (q, _) ← q.tryEmplace N x
    emplaceEach N q xs

/-- A batch push reads nothing outside its range and appends the range, as pushing its
elements in turn would, or rejects it and leaves the contents alone. -/
def EmplacesRange (N : Capacity) (type : ElementType) (q : SpscQueue T) (ys : List T) : Prop :=
  ∃ q' ok, q.tryEmplaceRange N type ys = some (q', ok) ∧
    (ok = true → q'.contents N = q.contents N ++ ys ∧
      (q.emplaceEach N ys).map (contents N) = some (q'.contents N)) ∧
    (ok = false → q'.contents N = q.contents N)

/-- The elements in front of the physical end of the ring are repeated by those that
follow them in the range. -/
def Repeats (N : Capacity) (q : SpscQueue T) (ys : List T) : Prop :=
  2 * firstChunk N q ys ≤ ys.length ∧
    ys.take (firstChunk N q ys) = (ys.drop (firstChunk N q ys)).take (firstChunk N q ys)

instance [DecidableEq T] : Decidable (Repeats N q ys) := inferInstanceAs (Decidable (_ ∧ _))

theorem shifted_eq_iff :
    shifted N q ys = ys ↔
      ys.take (firstChunk N q ys) = (ys.drop (firstChunk N q ys)).take (firstChunk N q ys) := by
  conv_lhs => rhs; rw [← List.take_append_drop (firstChunk N q ys) ys]
  rw [shifted, List.append_left_inj]
  exact eq_comm

theorem Shows.emplaceEach (h : Shows N q r rc wc xs) (hfits : xs.length + ys.length ≤ N.size) :
    (q.emplaceEach N ys).map (SpscQueue.contents N) = some (xs ++ ys) := by
  induction ys generalizing q rc xs with
  | nil => simp [SpscQueue.emplaceEach, h.contents]
  | cons y ys ih =>
    rw [List.length_cons] at hfits
    obtain ⟨q', rc', hcall, hpushed⟩ := h.tryEmplace y
    rw [if_pos (by omega)] at hpushed
    have := ih hpushed (by simp; omega)
    simpa [SpscQueue.emplaceEach, hcall] using this

/-- A batch push is right exactly if the type is copied element by element, or the range
does not fit, or the elements in front of the end of the ring are repeated. -/
theorem emplacesRange_iff (hreached : Reached N type q) (ys : List T) :
    EmplacesRange N type q ys ↔
      type.triviallyCopyable = false ∨ N.size < q.size.toNat + ys.length ∨ Repeats N q ys := by
  obtain ⟨r, rc, wc, xs, h⟩ := hreached.isFifo
  rw [h.size]
  rcases Nat.lt_or_ge N.size (xs.length + ys.length) with hfull | hfits
  · obtain ⟨q', rc', hcall, hq'⟩ := h.tryEmplaceRange_full type hfull
    refine ⟨fun _ => .inr (.inl hfull), fun _ => ⟨q', false, hcall, by simp, fun _ => ?_⟩⟩
    rw [hq'.contents, h.contents]
  · cases hcopy : type.triviallyCopyable with
    | false =>
      obtain ⟨q', rc', hcall, hq'⟩ := h.tryEmplaceRange_elementwise hfits hcopy
      refine ⟨fun _ => .inl rfl, fun _ => ⟨q', true, hcall, fun _ => ?_, by simp⟩⟩
      rw [hq'.contents, h.contents]
      exact ⟨rfl, h.emplaceEach hfits⟩
    | true =>
      have hrepeats : N.size < xs.length + ys.length ∨ Repeats N q ys ↔ Repeats N q ys :=
        or_iff_right (Nat.not_lt.mpr hfits)
      rw [hrepeats, or_iff_right (by simp)]
      rcases Nat.lt_or_ge ys.length (2 * firstChunk N q ys) with houtside | hinside
      · -- the copies run over the end of the range
        have hcall := h.tryEmplaceRange_overrun hfits hcopy houtside
        refine ⟨fun hright => ?_, fun hrepeated => absurd hrepeated.1 (by omega)⟩
        obtain ⟨_, _, hcall', -⟩ := hright
        rw [hcall] at hcall'
        cases hcall'
      · obtain ⟨q', rc', hcall, hq'⟩ := h.tryEmplaceRange_copy hfits hcopy hinside
        refine Iff.trans ?_ (and_iff_right hinside).symm
        rw [← shifted_eq_iff]
        constructor
        · rintro ⟨q₁, ok, hcall', hright, -⟩
          rw [hcall, Option.some.injEq, Prod.mk.injEq] at hcall'
          obtain ⟨rfl, rfl⟩ := hcall'
          have happended := (hright rfl).1
          rw [hq'.contents, h.contents] at happended
          exact List.append_cancel_left happended
        · intro hshifted
          refine ⟨q', true, hcall, fun _ => ?_, by simp⟩
          rw [hq'.contents, h.contents, hshifted]
          exact ⟨rfl, h.emplaceEach hfits⟩

/-- With one slot left in front of the end of the ring, the second of two equal elements
is copied twice, and that is right. -/
theorem emplacesRange_iff_twice :
    ∃ q : SpscQueue Nat, calculateIndex ⟨2, by decide⟩ q.writePositionLocal = 3 ∧
      Repeats ⟨2, by decide⟩ q [7, 7] ∧
      EmplacesRange ⟨2, by decide⟩ ⟨true, true, fun _ => rfl⟩ q [7, 7] := by
  have hrun : ∃ q : SpscQueue Nat, Reached ⟨2, by decide⟩ ⟨true, true, fun _ => rfl⟩ q ∧
      calculateIndex ⟨2, by decide⟩ q.writePositionLocal = 3 ∧
      Repeats ⟨2, by decide⟩ q [7, 7] :=
    ⟨_, .of_run [.tryEmplace 1, .tryDequeue, .tryEmplace 2, .tryDequeue, .tryEmplace 3,
      .tryDequeue] rfl, by decide +kernel, by decide +kernel⟩
  obtain ⟨q, hreached, hindex, hrepeats⟩ := hrun
  exact ⟨q, hindex, hrepeats, (emplacesRange_iff hreached [7, 7]).mpr (.inr (.inr hrepeats))⟩

/-- Pushing a range of two elements onto an empty queue of four slots reads the third
and the fourth element of the range. -/
theorem emplacesRange_of_fits_false :
    ¬ ∀ (N : Capacity) (type : ElementType) (q : SpscQueue Nat) (ys : List Nat),
      Reached N type q → EmplacesRange N type q ys := by
  intro hclaim
  obtain ⟨q', ok, hcall, -⟩ :=
    hclaim ⟨2, by decide⟩ ⟨true, true, fun _ => rfl⟩ {} [1, 2] (.init _)
  have hnone : (({} : SpscQueue Nat).tryEmplaceRange ⟨2, by decide⟩ ⟨true, true, fun _ => rfl⟩
      [1, 2]).isNone = true := by decide +kernel
  rw [hcall] at hnone
  cases hnone

/-! ### Popping batches -/

/-- `try_dequeue_range` hands out and removes as many elements as the buffer and the
queue have. -/
def DequeuesRange (N : Capacity) (type : ElementType) (q : SpscQueue T) (out : List T) : Prop :=
  ∃ q', q.tryDequeueRange N type out = some (q', min out.length q.size.toNat,
      (q.contents N).take (min out.length q.size.toNat) ++
        out.drop (min out.length q.size.toNat)) ∧
    q'.contents N = (q.contents N).drop (min out.length q.size.toNat)

/-- `consume_up_to` passes on and removes as many elements as the limit and the queue allow. -/
def ConsumesUpTo (N : Capacity) (q : SpscQueue T) (limit : Nat) : Prop :=
  ∃ q', q.consumeUpTo N limit = some (q', min limit q.size.toNat,
      (q.contents N).take (min limit q.size.toNat)) ∧
    q'.contents N = (q.contents N).drop (min limit q.size.toNat)

/-- `consume_all` passes on everything and leaves the queue empty. -/
def ConsumesAll (N : Capacity) (q : SpscQueue T) : Prop :=
  ∃ q', q.consumeAll N = some (q', q.size.toNat, q.contents N) ∧ q'.contents N = []

/-- The cached write cursor lets the consumer see `m` elements of the queue, or all of it. -/
def Sees (q : SpscQueue T) (m : Nat) : Prop :=
  q.writePositionCache = q.readPosition ∨ q.writePositionCache = q.writePosition ∨
    m ≤ (q.writePositionCache - q.readPosition).toNat

instance (m : Nat) : Decidable (Sees q m) := inferInstanceAs (Decidable (_ ∨ _ ∨ _))

theorem Shows.sees_iff (h : Shows N q r rc wc xs) (m : Nat) :
    Sees q m ↔ min (window r wc xs) m = min m xs.length := by
  have hfits := h.length_le
  have := N.size_le
  have hle := h.le_wc
  have hwc := h.wc_le
  have hspent : q.writePositionCache = q.readPosition ↔ r = wc := by
    rw [h.writePositionCache, h.readPosition, eq_comm]
    exact Cyclic.cursor_eq_iff hle (by omega)
  have hfresh : q.writePositionCache = q.writePosition ↔ wc = r + xs.length := by
    rw [h.writePositionCache, h.writePosition]
    exact Cyclic.cursor_eq_iff hwc (by omega)
  have hdistance : (q.writePositionCache - q.readPosition).toNat = wc - r := by
    rw [h.writePositionCache, h.readPosition]
    exact Cyclic.toNat_sub_cursor hle (by omega)
  rw [Sees, hspent, hfresh, hdistance]
  unfold window
  split <;> omega

/-- Batch pops see the whole queue exactly if the cached write cursor is spent, or up to
date, or reaches as far as they ask. -/
theorem batchPops_iff (hreached : Reached N type q) :
    (∀ out, DequeuesRange N type q out ↔ Sees q out.length) ∧
      (∀ limit, ConsumesUpTo N q limit ↔ Sees q limit) ∧
      (ConsumesAll N q ↔ Sees q q.size.toNat) := by
  obtain ⟨r, rc, wc, xs, h⟩ := hreached.isFifo
  refine ⟨fun out => ?_, fun limit => ?_, ?_⟩
  · obtain ⟨q', wc', hcall, hq'⟩ := h.tryDequeueRange type out
    rw [h.sees_iff, DequeuesRange, h.size, h.contents, hcall]
    constructor
    · rintro ⟨_, hsame, -⟩
      simp only [Option.some.injEq, Prod.mk.injEq] at hsame
      exact hsame.2.1
    · intro hseen
      rw [← hseen]
      exact ⟨q', rfl, hq'.contents⟩
  · obtain ⟨q', wc', hcall, hq'⟩ := h.consumeUpTo limit
    rw [h.sees_iff, ConsumesUpTo, h.size, h.contents, hcall, Nat.min_comm (window r wc xs)]
    constructor
    · rintro ⟨_, hsame, -⟩
      simp only [Option.some.injEq, Prod.mk.injEq] at hsame
      exact hsame.2.1
    · intro hseen
      rw [← hseen]
      exact ⟨q', rfl, hseen ▸ hq'.contents⟩
  · obtain ⟨q', wc', hcall, hq'⟩ := h.consumeAll
    have hwindow := h.readable.2.1
    rw [h.sees_iff, ConsumesAll, h.size, h.contents, hcall, Nat.min_eq_left hwindow, Nat.min_self]
    constructor
    · rintro ⟨_, hsame, -⟩
      simp only [Option.some.injEq, Prod.mk.injEq] at hsame
      exact hsame.2.1
    · intro hseen
      rw [hseen] at hq' ⊢
      exact ⟨q', by rw [List.take_length], by rw [hq'.contents, List.drop_length]⟩

/-- Two pushes, a pop and a push on, the cached write cursor lags behind by one: batches
of one are right, all of the queue is not. -/
theorem batchPops_iff_stale :
    ∃ q : SpscQueue Nat, q.contents ⟨2, by decide⟩ = [2, 3] ∧
      q.writePositionCache ≠ q.writePosition ∧
      DequeuesRange ⟨2, by decide⟩ ⟨false, false, by decide⟩ q [0] ∧
      ConsumesUpTo ⟨2, by decide⟩ q 1 ∧ ¬ ConsumesAll ⟨2, by decide⟩ q := by
  have hrun : ∃ q : SpscQueue Nat, Reached ⟨2, by decide⟩ ⟨false, false, by decide⟩ q ∧
      q.contents ⟨2, by decide⟩ = [2, 3] ∧ q.writePositionCache ≠ q.writePosition ∧
      Sees q 1 ∧ ¬ Sees q q.size.toNat :=
    ⟨_, .of_run [.tryEmplace 1, .tryEmplace 2, .tryDequeue, .tryEmplace 3] rfl,
      by decide +kernel, by decide +kernel, by decide +kernel, by decide +kernel⟩
  obtain ⟨q, hreached, hcontents, hstale, hone, hall⟩ := hrun
  obtain ⟨hrange, hupTo, hdrained⟩ := batchPops_iff hreached
  exact ⟨q, hcontents, hstale, (hrange [0]).mpr hone, (hupTo 1).mpr hone,
    fun hconsumes => hall (hdrained.mp hconsumes)⟩

/-- After two pushes, a pop and a third push two elements are queued; `consume_all` passes
on one of them. -/
theorem batchPops_of_cache_false :
    ¬ ∀ (N : Capacity) (type : ElementType) (q : SpscQueue Nat), Reached N type q →
      (∀ out, DequeuesRange N type q out) ∧ (∀ limit, ConsumesUpTo N q limit) ∧
        ConsumesAll N q := by
  intro hclaim
  have hrun : ∃ q : SpscQueue Nat, Reached ⟨2, by decide⟩ ⟨false, false, by decide⟩ q ∧
      q.size.toNat = 2 ∧
      (q.consumeAll ⟨2, by decide⟩).map (fun (_, count, _) => count) = some 1 :=
    ⟨_, .of_run [.tryEmplace 1, .tryEmplace 2, .tryDequeue, .tryEmplace 3] rfl,
      by decide +kernel, by decide +kernel⟩
  obtain ⟨q, hreached, hsize, hcount⟩ := hrun
  obtain ⟨-, -, q', hcall, -⟩ := hclaim _ _ q hreached
  rw [hcall, hsize] at hcount
  cases hcount

/-! ### A batch and its elements -/

/-- `count` calls of `try_dequeue`, with what each of them returned. -/
def dequeueEach (N : Capacity) : Nat → SpscQueue T → Option (SpscQueue T × List (Option T))
  | 0, q => some (q, [])
  | count + 1, q => do
    let (q, x) ← q.tryDequeue N
    let (q, popped) ← dequeueEach N count q
    some (q, x :: popped)

theorem Shows.dequeueEach (h : Shows N q r rc wc xs) (count : Nat) (hcount : count ≤ xs.length) :
    ∃ q', q.dequeueEach N count = some (q', (xs.take count).map some) ∧
      q'.contents N = xs.drop count := by
  induction count generalizing q r wc xs with
  | zero => exact ⟨q, rfl, h.contents⟩
  | succ count ih =>
    rcases xs with _ | ⟨x, xs⟩
    · simp at hcount
    · obtain ⟨q₁, wc₁, hcall, hpopped⟩ := h.tryDequeue
      obtain ⟨q', hrest, hcontents⟩ := ih hpopped (by simpa using hcount)
      refine ⟨q', ?_, hcontents⟩
      simp only [SpscQueue.dequeueEach, hcall, hrest, Option.bind_eq_bind, Option.bind_some,
        List.head?_cons, List.tail_cons, List.take_succ_cons, List.map_cons]

/-- Whatever the element type, a batch pop stays inside the ring and the buffer, fills the
front of the buffer with what as many single pops return, and leaves what they leave. -/
theorem tryDequeueRange_eq_each (hreached : Reached N type q) (out : List T) :
    ∃ q₁ count out' q₂ popped, q.tryDequeueRange N type out = some (q₁, count, out') ∧
      q.dequeueEach N count = some (q₂, popped) ∧ count ≤ out.length ∧
      out'.length = out.length ∧ (out'.take count).map some = popped ∧
      out'.drop count = out.drop count ∧ q₁.contents N = q₂.contents N := by
  obtain ⟨r, rc, wc, xs, h⟩ := hreached.isFifo
  obtain ⟨q₁, wc₁, hcall, hbatch⟩ := h.tryDequeueRange type out
  have hseen : window r wc xs ≤ xs.length := h.readable.2.1
  generalize hcount : min (window r wc xs) out.length = count at hcall hbatch
  obtain ⟨q₂, heach, hcontents⟩ := h.dequeueEach count (by omega)
  have hfront : (xs.take count).length = count := List.length_take_of_le (by omega)
  refine ⟨q₁, count, _, q₂, _, hcall, heach, by omega, ?_, ?_, ?_, ?_⟩
  · rw [List.length_append, hfront, List.length_drop]
    omega
  · rw [List.take_left' hfront]
  · rw [List.drop_left' hfront]
  · rw [hbatch.contents, hcontents]

/-- Two pops in, the queue of four slots wraps around the end of the ring. -/
theorem tryDequeueRange_eq_each_wrapped :
    ∃ q : SpscQueue Nat, q.contents ⟨2, by decide⟩ = [3, 4, 5] ∧
      ∃ q₁ count out' q₂ popped,
        q.tryDequeueRange ⟨2, by decide⟩ ⟨true, true, fun _ => rfl⟩ [0, 0, 0, 0] =
          some (q₁, count, out') ∧
        q.dequeueEach ⟨2, by decide⟩ count = some (q₂, popped) ∧ count ≤ 4 ∧
        out'.length = 4 ∧ (out'.take count).map some = popped ∧
        out'.drop count = [0, 0, 0, 0].drop count ∧
        q₁.contents ⟨2, by decide⟩ = q₂.contents ⟨2, by decide⟩ :=
  have hrun : ∃ q : SpscQueue Nat, Reached ⟨2, by decide⟩ ⟨true, true, fun _ => rfl⟩ q ∧
      q.contents ⟨2, by decide⟩ = [3, 4, 5] :=
    ⟨_, .of_run [.tryEmplace 1, .tryEmplace 2, .tryEmplace 3, .tryEmplace 4, .tryDequeue,
      .tryDequeue, .tryEmplace 5] rfl, by decide +kernel⟩
  hrun.imp fun _ hq => ⟨hq.2, tryDequeueRange_eq_each hq.1 [0, 0, 0, 0]⟩

end ExchangeEngine.SpscQueue
