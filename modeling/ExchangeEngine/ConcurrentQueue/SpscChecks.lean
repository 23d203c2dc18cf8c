import ExchangeEngine.ConcurrentQueue.SpscFifo

/-!
The fullness and emptiness checks. Each party tests its copy of the other's cursor
first and loads the cursor itself only if the copy says no. A copy that lags behind
is pessimistic, and a no is never given without a reload, so between two calls every
check answers as the cursors themselves would. The copies of a batch push may read on
behind the range; nothing is assumed of the memory there, and the answer does not
depend on it.
-/

namespace ExchangeEngine.SpscQueue

open Cyclic

variable {T : Type} {N : Capacity} {type : ElementType} {q q' : SpscQueue T} {r rc wc : Nat}
  {xs ys : List T}

/-! ### Memory behind a range -/

/-- `try_emplace_range` of a range that is followed by `behind` in memory: the copies of
the trivially copyable branch go on there. -/
def tryEmplaceRangeIn (N : Capacity) (type : ElementType) (q : SpscQueue T) (r : List T)
    (behind : Nat → T) : Option (SpscQueue T × Bool) :=
  let count := r.length
  let oldWrite := q.writePositionLocal
  let (q, room) := q.hasRoom N count
  if !room then some (q, false)
  else if type.triviallyCopyable then do
    let memory := r ++ (List.range count).map behind
    let writeIndex := calculateIndex N oldWrite
    let firstChunk := min count (N.size - writeIndex)
    let src := firstChunk
    let storage ← memcpyIn N q.storage writeIndex memory src firstChunk
    let storage ← if firstChunk < count then memcpyIn N storage 0 memory src (count - firstChunk)
      else some storage
    some ({q with storage}.publishWrite (oldWrite + BitVec.ofNat 64 count), true)
  else
    let q := {q with storage := constructRange N q.storage oldWrite r}
    some (q.publishWrite (oldWrite + BitVec.ofNat 64 count), true)

/-- One call, with what is in memory behind its range. -/
def execIn (N : Capacity) (type : ElementType) (q : SpscQueue T) :
    Call T × (Nat → T) → Option (SpscQueue T × Nat)
  | (.tryEmplaceRange r, behind) =>
    (q.tryEmplaceRangeIn N type r behind).map fun (q, ok) => (q, if ok then r.length else 0)
  | (call, _) => q.exec N type call

/-- Between two calls of some sequential run, in which batch pushes may have read on behind
their ranges. -/
def ReachedIn (N : Capacity) (type : ElementType) (q : SpscQueue T) : Prop :=
  Transition.Reachable (execIn N type) (fun _ _ => True) {} q

theorem memcpyIn_append {storage storage' : Nat → Option T} {index offset len : Nat}
    (hcopy : memcpyIn N storage index ys offset len = some storage') (zs : List T) :
    memcpyIn N storage index (ys ++ zs) offset len = some storage' := by
  unfold memcpyIn at hcopy ⊢
  obtain ⟨⟨hrange, hring⟩, hwritten⟩ := Option.ite_none_right_eq_some.mp hcopy
  rw [if_pos ⟨by rw [List.length_append]; omega, hring⟩, ← hwritten,
    List.drop_append_of_le_length (by omega), List.take_append_of_le_length (by simp; omega)]

/-- Memory that is not read does not matter. -/
theorem tryEmplaceRangeIn_eq {result : SpscQueue T × Bool}
    (hcall : q.tryEmplaceRange N type ys = some result) (behind : Nat → T) :
    q.tryEmplaceRangeIn N type ys behind = some result := by
  rw [tryEmplaceRange] at hcall
  rw [tryEmplaceRangeIn]
  dsimp only at hcall ⊢
  split at hcall
  · rename_i hfull
    rwa [if_pos hfull]
  rename_i hroom
  rw [if_neg hroom]
  split at hcall
  · rename_i hcopy
    obtain ⟨front, hfront, hback⟩ := Option.bind_eq_some_iff.mp hcall
    rw [if_pos hcopy, memcpyIn_append hfront, Option.bind_eq_bind, Option.bind_some]
    split at hback
    · rename_i hwraps
      obtain ⟨storage, hstored, hpushed⟩ := Option.bind_eq_some_iff.mp hback
      rw [if_pos hwraps, memcpyIn_append hstored, Option.bind_some]
      exact hpushed
    · rename_i hwhole
      rw [if_neg hwhole]
      exact hback
  · rename_i hcopy
    rwa [if_neg hcopy]

/-- The copies and the cursors follow each other within one turn of the ring, so that
the free slots are counted without underflow. -/
structure CursorsOrdered (N : Capacity) (q : SpscQueue T) : Prop where
  readPositionLocal : q.readPositionLocal = q.readPosition
  writePositionLocal : q.writePositionLocal = q.writePosition
  readPosition_le : (q.readPosition - q.readPositionCache).toNat ≤
    (q.writePositionCache - q.readPositionCache).toNat
  writePositionCache_le : (q.writePositionCache - q.readPositionCache).toNat ≤
    (q.writePosition - q.readPositionCache).toNat
  used_le : (q.writePositionLocal - q.readPositionCache).toNat ≤ N.word.toNat

/-- A refused call may have reloaded a copy; all else is as before. -/
structure Unchanged (N : Capacity) (q q' : SpscQueue T) : Prop where
  contents : q'.contents N = q.contents N
  storage : q'.storage = q.storage
  readPosition : q'.readPosition = q.readPosition
  readPositionLocal : q'.readPositionLocal = q.readPositionLocal
  writePosition : q'.writePosition = q.writePosition
  writePositionLocal : q'.writePositionLocal = q.writePositionLocal

/-- A call has a result, says yes exactly if `p`, and changes nothing if it says no. -/
def AnswersExactly (N : Capacity) (q : SpscQueue T) (result : Option (SpscQueue T × Bool))
    (p : Prop) : Prop :=
  ∃ q' ok, result = some (q', ok) ∧ (ok = true ↔ p) ∧ (ok = false → Unchanged N q q')

/-- The checks answer as the cursors themselves would, whatever follows a range in memory. -/
structure ChecksExactly (N : Capacity) (type : ElementType) (q : SpscQueue T) : Prop where
  cursors : CursorsOrdered N q
  hasRoom : ∀ count, (q.hasRoom N count).2 = true ↔ count ≤ N.size - q.size.toNat
  tryEmplace : ∀ x, AnswersExactly N q (q.tryEmplace N x) (q.size.toNat < N.size)
  tryEmplaceRange : ∀ ys behind, AnswersExactly N q (q.tryEmplaceRangeIn N type ys behind)
    (ys.length ≤ N.size - q.size.toNat)
  tryDequeue : AnswersExactly N q ((q.tryDequeue N).map fun (q, x) => (q, x.isSome))
    (0 < q.size.toNat)
  tryDequeueInto : ∀ out, ∃ q' ok out', q.tryDequeueInto N out = some (q', ok, out') ∧
    (ok = true ↔ 0 < q.size.toNat) ∧ (ok = false → Unchanged N q q' ∧ out' = out)

/-! ### The cursors -/

theorem Shows.cursorsOrdered (h : Shows N q r rc wc xs) : CursorsOrdered N q := by
  have hsize := N.size_le
  have hrc := h.rc_le
  have hroom := h.room
  have hle := h.le_wc
  have hwc := h.wc_le
  have hread : (q.readPosition - q.readPositionCache).toNat = r - rc := by
    rw [h.readPosition, h.readPositionCache, toNat_sub_cursor hrc (by omega)]
  have hcache : (q.writePositionCache - q.readPositionCache).toNat = wc - rc := by
    rw [h.writePositionCache, h.readPositionCache, toNat_sub_cursor (by omega) (by omega)]
  have hwrite : (q.writePosition - q.readPositionCache).toNat = r + xs.length - rc := by
    rw [h.writePosition, h.readPositionCache, toNat_sub_cursor (by omega) (by omega)]
  have hlocal : q.writePositionLocal = q.writePosition := by
    rw [h.writePositionLocal, h.writePosition]
  exact {
    readPositionLocal := by rw [h.readPositionLocal, h.readPosition]
    writePositionLocal := hlocal
    readPosition_le := by omega
    writePositionCache_le := by omega
    used_le := by
      rw [hlocal, hwrite, N.word_toNat]
      omega }

theorem Shows.hasRoom_iff (h : Shows N q r rc wc xs) (count : Nat) :
    (q.hasRoom N count).2 = true ↔ count ≤ N.size - q.size.toNat := by
  have hfits := h.length_le
  rw [(h.hasRoom count).1, decide_eq_true_iff, h.size]
  omega

/-! ### Refused calls -/

theorem hasRoom_unchanged (q : SpscQueue T) (count : Nat) :
    Unchanged N q (q.hasRoom N count).1 := by
  unfold SpscQueue.hasRoom
  split <;> exact ⟨rfl, rfl, rfl, rfl, rfl, rfl⟩

theorem readable_unchanged (q : SpscQueue T) : Unchanged N q q.readable.1 := by
  unfold readable
  split <;> exact ⟨rfl, rfl, rfl, rfl, rfl, rfl⟩

theorem tryEmplace_refused {x : T} (hcall : q.tryEmplace N x = some (q', false)) :
    Unchanged N q q' := by
  have hchecked : Unchanged N q (q.hasRoom N 1).1 := hasRoom_unchanged q 1
  cases hroom : (q.hasRoom N 1).2 with
  | false =>
    simp only [SpscQueue.tryEmplace, hroom, Bool.not_false, if_true, Option.some.injEq,
      Prod.mk.injEq, and_true] at hcall
    exact hcall ▸ hchecked
  | true =>
    simp only [SpscQueue.tryEmplace, hroom, Bool.not_true, Bool.false_eq_true, if_false] at hcall
    split at hcall <;> simp at hcall

theorem tryEmplaceRangeIn_refused {behind : Nat → T}
    (hcall : q.tryEmplaceRangeIn N type ys behind = some (q', false)) : Unchanged N q q' := by
  have hchecked : Unchanged N q (q.hasRoom N ys.length).1 := hasRoom_unchanged q ys.length
  cases hroom : (q.hasRoom N ys.length).2 with
  | false =>
    simp only [SpscQueue.tryEmplaceRangeIn, hroom, Bool.not_false, if_true, Option.some.injEq,
      Prod.mk.injEq, and_true] at hcall
    exact hcall ▸ hchecked
  | true =>
    simp only [SpscQueue.tryEmplaceRangeIn, hroom, Bool.not_true, Bool.false_eq_true,
      if_false] at hcall
    split at hcall
    · obtain ⟨_, -, hback⟩ := Option.bind_eq_some_iff.mp hcall
      split at hback
      · obtain ⟨_, -, hpushed⟩ := Option.bind_eq_some_iff.mp hback
        simp at hpushed
      · simp at hback
    · simp at hcall

theorem tryDequeue_refused (hcall : q.tryDequeue N = some (q', none)) : Unchanged N q q' := by
  have hchecked : Unchanged N q q.readable.1 := readable_unchanged q
  by_cases havailable : q.readable.2 = 0
  · simp only [SpscQueue.tryDequeue, havailable, if_true, Option.some.injEq, Prod.mk.injEq,
      and_true] at hcall
    exact hcall ▸ hchecked
  · simp only [SpscQueue.tryDequeue, havailable, if_false] at hcall
    split at hcall
    · cases hcall
    · obtain ⟨x, -, hpopped⟩ := Option.bind_eq_some_iff.mp hcall
      simp at hpopped

/-! ### Answers -/

theorem Shows.answers_tryEmplace (h : Shows N q r rc wc xs) (x : T) :
    AnswersExactly N q (q.tryEmplace N x) (q.size.toNat < N.size) := by
  obtain ⟨q', rc', hcall, -⟩ := h.tryEmplace x
  refine ⟨q', _, hcall, ?_, fun hfull => tryEmplace_refused (hfull ▸ hcall)⟩
  rw [decide_eq_true_iff, h.size]

/-- Something is popped exactly if something is queued. -/
theorem Shows.head?_isSome_iff (h : Shows N q r rc wc xs) :
    xs.head?.isSome = true ↔ 0 < q.size.toNat := by
  rw [h.size, List.isSome_head?, List.length_pos_iff]

theorem Shows.answers_tryDequeue (h : Shows N q r rc wc xs) :
    AnswersExactly N q ((q.tryDequeue N).map fun (q, x) => (q, x.isSome))
      (0 < q.size.toNat) := by
  obtain ⟨q', wc', hcall, -⟩ := h.tryDequeue
  refine ⟨q', xs.head?.isSome, by rw [hcall]; rfl, h.head?_isSome_iff, fun hempty => ?_⟩
  rw [Option.isSome_eq_false_iff, Option.isNone_iff_eq_none] at hempty
  exact tryDequeue_refused (hempty ▸ hcall)

theorem Shows.answers_tryDequeueInto (h : Shows N q r rc wc xs) (out : T) :
    ∃ q' ok out', q.tryDequeueInto N out = some (q', ok, out') ∧
      (ok = true ↔ 0 < q.size.toNat) ∧ (ok = false → Unchanged N q q' ∧ out' = out) := by
  obtain ⟨q', wc', hcall, -⟩ := h.tryDequeue
  refine ⟨q', xs.head?.isSome, xs.head?.getD out, by rw [SpscQueue.tryDequeueInto, hcall]; rfl,
    h.head?_isSome_iff, fun hempty => ?_⟩
  rw [Option.isSome_eq_false_iff, Option.isNone_iff_eq_none] at hempty
  rw [hempty]
  exact ⟨tryDequeue_refused (hempty ▸ hcall), rfl⟩

/-- A batch push returns, with some elements stored if the range fits. -/
theorem Shows.tryEmplaceRangeIn (h : Shows N q r rc wc xs) (type : ElementType) (ys : List T)
    (behind : Nat → T) :
    ∃ q' rc' zs, q.tryEmplaceRangeIn N type ys behind =
        some (q', decide (xs.length + ys.length ≤ N.size)) ∧ Shows N q' r rc' wc (xs ++ zs) := by
  rcases Nat.lt_or_ge N.size (xs.length + ys.length) with hfull | hfits
  · obtain ⟨q', rc', hcall, hq'⟩ := h.tryEmplaceRange_full type hfull
    rw [decide_eq_false (Nat.not_le.mpr hfull)]
    exact ⟨q', rc', [], tryEmplaceRangeIn_eq hcall behind, by rwa [List.append_nil]⟩
  rw [decide_eq_true hfits]
  cases hcopy : type.triviallyCopyable with
  | false =>
    obtain ⟨q', rc', hcall, hq'⟩ := h.tryEmplaceRange_elementwise hfits hcopy
    exact ⟨q', rc', ys, tryEmplaceRangeIn_eq hcall behind, hq'⟩
  | true =>
    -- behind the range there is as much memory again, and neither copy needs more
    obtain ⟨hanswer, -⟩ := h.hasRoom ys.length
    obtain ⟨q', rc', hcopied, hq'⟩ := h.copyIn (ys ++ (List.range ys.length).map behind) hfits
      rfl (by simp; omega) (by simp)
    refine ⟨q', rc', _, ?_, hq'⟩
    simpa only [SpscQueue.tryEmplaceRangeIn, hanswer, hfits, hcopy, decide_true, Bool.not_true,
      Bool.false_eq_true, if_false, if_true] using hcopied

theorem Shows.answers_tryEmplaceRangeIn (h : Shows N q r rc wc xs) (type : ElementType)
    (ys : List T) (behind : Nat → T) :
    AnswersExactly N q (q.tryEmplaceRangeIn N type ys behind)
      (ys.length ≤ N.size - q.size.toNat) := by
  have hlength := h.length_le
  obtain ⟨q', rc', zs, hcall, -⟩ := h.tryEmplaceRangeIn type ys behind
  refine ⟨q', _, hcall, ?_, fun hfull => tryEmplaceRangeIn_refused (hfull ▸ hcall)⟩
  rw [decide_eq_true_iff, h.size]
  omega

/-! ### Every state reached -/

theorem Shows.execIn (h : Shows N q r rc wc xs) {call : Call T × (Nat → T)} {count : Nat}
    (hexec : q.execIn N type call = some (q', count)) : IsFifo N q' := by
  obtain ⟨call, behind⟩ := call
  cases call with
  | tryEmplaceRange ys =>
    obtain ⟨_, _, _, hcall, hshows⟩ := h.tryEmplaceRangeIn type ys behind
    exact isFifo_of_map hcall hexec ⟨_, _, _, _, hshows⟩
  | _ =>
    simp only [SpscQueue.execIn] at hexec
    exact h.exec hexec

theorem ReachedIn.isFifo (h : ReachedIn N type q) : IsFifo N q := by
  refine Transition.Reachable.invariant ?_ h ⟨_, _, _, _, Shows.empty N⟩
  rintro _ _ _ _ ⟨_, _, _, _, hs⟩ - hexec
  exact hs.execIn hexec

/-- A run whose batch pushes stay inside their ranges is a run with any memory behind them. -/
theorem Reached.reachedIn (h : Reached N type q) (behind : Nat → T) : ReachedIn N type q := by
  refine Transition.Reachable.invariant ?_ h (Transition.Reachable.init _)
  intro q q' call count hreached _ hexec
  have hexecIn : q.execIn N type (call, behind) = some (q', count) := by
    cases call with
    | tryEmplaceRange ys =>
      obtain ⟨result, hcall, hreport⟩ := Option.map_eq_some_iff.mp hexec
      rw [SpscQueue.execIn, tryEmplaceRangeIn_eq hcall behind, Option.map_some]
      exact congrArg some hreport
    | _ => exact hexec
  exact hreached.next trivial hexecIn

/-- Between two calls every check is exact, whatever the cached cursors hold. -/
theorem checks_exact (hreached : ReachedIn N type q) : ChecksExactly N type q := by
  obtain ⟨r, rc, wc, xs, h⟩ := hreached.isFifo
  exact {
    cursors := h.cursorsOrdered
    hasRoom := h.hasRoom_iff
    tryEmplace := h.answers_tryEmplace
    tryEmplaceRange := h.answers_tryEmplaceRangeIn type
    tryDequeue := h.answers_tryDequeue
    tryDequeueInto := h.answers_tryDequeueInto }

/-- A batch push that read the two elements behind its range, a pop and a push later both
cached cursors lag behind. -/
theorem checks_exact_stale :
    ∃ q : SpscQueue Nat, q.contents ⟨2, by decide⟩ = [9, 3] ∧
      q.readPositionCache ≠ q.readPosition ∧ q.writePositionCache ≠ q.writePosition ∧
      ChecksExactly ⟨2, by decide⟩ ⟨true, true, fun _ => rfl⟩ q := by
  have hrun : ∃ q : SpscQueue Nat, ReachedIn ⟨2, by decide⟩ ⟨true, true, fun _ => rfl⟩ q ∧
      q.contents ⟨2, by decide⟩ = [9, 3] ∧ q.readPositionCache ≠ q.readPosition ∧
      q.writePositionCache ≠ q.writePosition :=
    ⟨_, .of_run [(.tryEmplaceRange [1, 2], (8 + ·)), (.tryDequeue, id), (.tryEmplace 3, id)] rfl,
      by decide +kernel, by decide +kernel, by decide +kernel⟩
  obtain ⟨q, hreached, hcontents, hread, hwrite⟩ := hrun
  exact ⟨q, hcontents, hread, hwrite, checks_exact hreached⟩

end ExchangeEngine.SpscQueue
