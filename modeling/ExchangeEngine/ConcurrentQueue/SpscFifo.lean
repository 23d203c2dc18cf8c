import ExchangeEngine.ConcurrentQueue.SpscQueue

/-!
Between two calls the queue is a list. The cursors stand for absolute counts of
everything ever popped and pushed, of which the code keeps the words; each party's
copy of the other's cursor is behind it, but never so far behind that the words
mislead. Every call is specified by what it does to this list.
-/

namespace ExchangeEngine

open Cyclic

namespace SpscQueue

variable {T : Type} {N : Capacity} {type : ElementType} {q : SpscQueue T} {r rc wc m : Nat}
  {xs ys : List T} {storage : Nat → Option T}

@[simp] theorem calculateIndex_cursor (p : Nat) : calculateIndex N (cursor p) = p % N.size :=
  N.mask_cursor p

/-- `r` elements were popped, `xs` are queued; the producer last saw `rc` pops, the
consumer last saw `wc` pushes. -/
structure Shows (N : Capacity) (q : SpscQueue T) (r rc wc : Nat) (xs : List T) : Prop where
  readPosition : q.readPosition = cursor r
  readPositionLocal : q.readPositionLocal = cursor r
  writePosition : q.writePosition = cursor (r + xs.length)
  writePositionLocal : q.writePositionLocal = cursor (r + xs.length)
  readPositionCache : q.readPositionCache = cursor rc
  writePositionCache : q.writePositionCache = cursor wc
  length_le : xs.length ≤ N.size
  rc_le : rc ≤ r
  room : r + xs.length ≤ rc + N.size
  le_wc : r ≤ wc
  wc_le : wc ≤ r + xs.length
  holds : Holds N.size q.storage r (xs.map some)

theorem Shows.empty (N : Capacity) : Shows N ({} : SpscQueue T) 0 0 0 [] :=
  ⟨rfl, rfl, rfl, rfl, rfl, rfl, Nat.zero_le _, Nat.le_refl _, Nat.zero_le _, Nat.le_refl _,
    Nat.le_refl _, rfl⟩

theorem reduceOption_map_some (xs : List T) : (xs.map some).reduceOption = xs := by
  induction xs with
  | nil => rfl
  | cons x xs ih => rw [List.map_cons, List.reduceOption_cons_of_some, ih]

/-- The window between the shared cursors, read off. -/
theorem contents_eq (hread : q.readPosition = cursor r)
    (hwrite : q.writePosition = cursor (r + xs.length)) (hlen : xs.length ≤ N.size)
    (hholds : Holds N.size q.storage r (xs.map some)) : q.contents N = xs := by
  have := N.size_le
  have hsize : q.size.toNat = xs.length := by
    rw [SpscQueue.size, hread, hwrite, toNat_sub_cursor] <;> omega
  have hdvd : N.size ∣ 2 ^ 64 := Nat.pow_dvd_pow 2 (Nat.le_of_lt N.fits)
  have hresidue : q.readPosition.toNat % N.size = r % N.size := by
    rw [hread, BitVec.toNat_ofNat, Nat.mod_mod_of_dvd r hdvd]
  have hget : get N.size q.storage r xs.length = xs.map some := by
    simpa [Holds] using hholds
  rw [SpscQueue.contents, hsize, get_congr hresidue, hget, reduceOption_map_some]

theorem Shows.size (h : Shows N q r rc wc xs) : q.size.toNat = xs.length := by
  have := N.size_le
  have := h.length_le
  rw [SpscQueue.size, h.readPosition, h.writePosition, toNat_sub_cursor] <;> omega

theorem Shows.contents (h : Shows N q r rc wc xs) : q.contents N = xs :=
  contents_eq h.readPosition h.writePosition h.length_le h.holds

/-! ### The producer -/

theorem Shows.freeSlots (h : Shows N q r rc wc xs) :
    (q.freeSlots N).toNat = rc + N.size - (r + xs.length) := by
  rw [SpscQueue.freeSlots, h.writePositionLocal, h.readPositionCache]
  exact N.free_cursor (Nat.le_trans h.rc_le (Nat.le_add_right r _)) h.room

/-- The answer does not depend on the cached cursor. -/
theorem Shows.hasRoom (h : Shows N q r rc wc xs) (count : Nat) :
    (q.hasRoom N count).2 = decide (xs.length + count ≤ N.size) ∧
      ∃ rc', Shows N (q.hasRoom N count).1 r rc' wc xs ∧ (q.hasRoom N count).1.storage = q.storage ∧
        (xs.length + count ≤ N.size → r + xs.length + count ≤ rc' + N.size) := by
  have hrc := h.rc_le
  have hroom := h.room
  have hfits := h.length_le
  have hfresh : Shows N {q with readPositionCache := q.readPosition} r r wc xs :=
    {h with readPositionCache := h.readPosition, rc_le := Nat.le_refl r, room := by omega}
  have hfree := hfresh.freeSlots
  by_cases hlt : (q.freeSlots N).toNat < count
  · rw [SpscQueue.hasRoom, if_pos hlt]
    refine ⟨?_, r, hfresh, rfl, by omega⟩
    rw [decide_eq_decide, hfree]
    omega
  · rw [SpscQueue.hasRoom, if_neg hlt]
    rw [h.freeSlots] at hlt
    refine ⟨?_, rc, h, rfl, by omega⟩
    simp
    omega

/-- Storing elements behind the queue and publishing them appends them. -/
theorem Shows.push (h : Shows N q r rc wc xs) (ys : List T) (hfits : xs.length + ys.length ≤ N.size)
    (hroom : r + xs.length + ys.length ≤ rc + N.size) :
    Shows N ({q with storage := put N.size q.storage (r + xs.length) (ys.map some)}.publishWrite
      (cursor (r + xs.length + ys.length))) r rc wc (xs ++ ys) where
  readPosition := h.readPosition
  readPositionLocal := h.readPositionLocal
  writePosition := by simp [publishWrite, Nat.add_assoc]
  writePositionLocal := by simp [publishWrite, Nat.add_assoc]
  readPositionCache := h.readPositionCache
  writePositionCache := h.writePositionCache
  length_le := by simpa using hfits
  rc_le := h.rc_le
  room := by simpa [Nat.add_assoc] using hroom
  le_wc := h.le_wc
  wc_le := by
    have := h.wc_le
    simp
    omega
  holds := by
    have := h.holds.append_put (ys.map some) (by simpa using hfits)
    simpa [publishWrite] using this

theorem constructRange_cursor (p : Nat) :
    constructRange N storage (cursor p) ys = put N.size storage p (ys.map some) := by
  induction ys generalizing storage p with
  | nil => rfl
  | cons y ys ih =>
    rw [constructRange, cursor_succ, ih, constructAt,
      calculateIndex_cursor]
    rfl

theorem Shows.isFull (h : Shows N q r rc wc xs) : q.isFull N = decide (xs.length = N.size) := by
  rw [SpscQueue.isFull, decide_eq_decide, ← BitVec.toNat_inj, h.size, N.word_toNat]

theorem Shows.tryEmplace (h : Shows N q r rc wc xs) (x : T) :
    ∃ q' rc', q.tryEmplace N x = some (q', decide (xs.length < N.size)) ∧
      Shows N q' r rc' wc (if xs.length < N.size then xs ++ [x] else xs) := by
  obtain ⟨hanswer, rc', hq, -, hroom⟩ := h.hasRoom 1
  replace hanswer : (q.hasRoom N 1).2 = decide (xs.length < N.size) := hanswer
  by_cases hfits : xs.length < N.size
  · have hfull : (q.hasRoom N 1).1.isFull N = false := by
      rw [hq.isFull]
      simp
      omega
    have hpushed := hq.push [x] hfits (hroom hfits)
    rw [if_pos hfits]
    refine ⟨_, rc', ?_, hpushed⟩
    simp only [SpscQueue.tryEmplace, hanswer, hfits, hfull, decide_true, Bool.not_true,
      Bool.false_eq_true, if_false, h.writePositionLocal, constructAt, calculateIndex_cursor,
      cursor_succ]
    rfl
  · rw [if_neg hfits]
    refine ⟨_, rc', ?_, hq⟩
    simp only [SpscQueue.tryEmplace, hanswer, hfits, decide_false, Bool.not_false, if_true]

/-- A range that does not fit is rejected. -/
theorem Shows.tryEmplaceRange_full (h : Shows N q r rc wc xs) (type : ElementType)
    (hfull : N.size < xs.length + ys.length) :
    ∃ q' rc', q.tryEmplaceRange N type ys = some (q', false) ∧ Shows N q' r rc' wc xs := by
  obtain ⟨hanswer, rc', hq, -⟩ := h.hasRoom ys.length
  have hfits : ¬ xs.length + ys.length ≤ N.size := by omega
  refine ⟨_, rc', ?_, hq⟩
  simp only [SpscQueue.tryEmplaceRange, hanswer, hfits, decide_false, Bool.not_false, if_true]

theorem Shows.tryEmplaceRange_elementwise (h : Shows N q r rc wc xs)
    (hfits : xs.length + ys.length ≤ N.size) (hcopy : type.triviallyCopyable = false) :
    ∃ q' rc', q.tryEmplaceRange N type ys = some (q', true) ∧ Shows N q' r rc' wc (xs ++ ys) := by
  obtain ⟨hanswer, rc', hq, -, hroom⟩ := h.hasRoom ys.length
  refine ⟨_, rc', ?_, hq.push ys hfits (hroom hfits)⟩
  simp only [SpscQueue.tryEmplaceRange, hanswer, hfits, hcopy, decide_true, Bool.not_true,
    Bool.false_eq_true, if_false, h.writePositionLocal, constructRange_cursor, cursor_add]

/-- How many elements fit in front of the physical end of the ring. -/
def firstChunk (N : Capacity) (q : SpscQueue T) (ys : List T) : Nat :=
  min ys.length (N.size - calculateIndex N q.writePosition)

/-- What the two copies of the trivially copyable branch copy: both start behind the
first chunk of the range. -/
def shifted (N : Capacity) (q : SpscQueue T) (ys : List T) : List T :=
  (ys.drop (firstChunk N q ys)).take (firstChunk N q ys) ++ ys.drop (firstChunk N q ys)

/-- Together the two copies store what lies behind the first chunk at consecutive positions. -/
theorem memcpyIn_chunks (storage : Nat → Option T) {pos count first : Nat} (hlen : count ≤ N.size)
    (hfirst : chunk N.size pos count = first) (hinside : 2 * first ≤ ys.length)
    (hwhole : count ≤ ys.length) :
    (do
      let storage ← memcpyIn N storage (pos % N.size) ys first first
      if first < count then memcpyIn N storage 0 ys first (count - first)
      else some storage) =
      some (put N.size storage pos
        (((ys.drop first).take first ++ (ys.drop first).take (count - first)).map some)) := by
  have hring := mod_add_chunk_le N.size_pos pos count
  have hle := chunk_le N.size pos count
  have hfront : ((ys.drop first).take first).length = first := by
    simp
    omega
  have hlength : (((ys.drop first).take first ++
      (ys.drop first).take (count - first)).map some).length = count := by
    simp
    omega
  have hput := write_chunks storage pos N.size_pos (hlength ▸ hlen)
  rw [hlength, hfirst, List.map_append, List.take_left' (by rw [List.length_map, hfront]),
    List.drop_left' (by rw [List.length_map, hfront])] at hput
  rw [List.map_append, ← hput, memcpyIn, if_pos ⟨by omega, by omega⟩]
  by_cases hlast : first < count
  · simp only [Option.bind_eq_bind, Option.bind_some, if_pos hlast]
    rw [memcpyIn, if_pos ⟨by omega, by omega⟩]
  · simp only [Option.bind_eq_bind, Option.bind_some, if_neg hlast]
    rw [Nat.sub_eq_zero_of_le (Nat.not_lt.mp hlast), List.take_zero]
    rfl

/-- The copies of `count` elements from `src` append what lies behind the first chunk there. -/
theorem Shows.copyIn (h : Shows N q r rc wc xs) (src : List T) {count first : Nat}
    (hfits : xs.length + count ≤ N.size)
    (hfirst : min count (N.size - calculateIndex N q.writePositionLocal) = first)
    (hinside : 2 * first ≤ src.length) (hwhole : count ≤ src.length) :
    ∃ q' rc', (do
        let storage ← memcpyIn N (q.hasRoom N count).1.storage
          (calculateIndex N q.writePositionLocal) src first first
        let storage ← if first < count then memcpyIn N storage 0 src first (count - first)
          else some storage
        some ({(q.hasRoom N count).1 with storage}.publishWrite
          (q.writePositionLocal + BitVec.ofNat 64 count), true)) = some (q', true) ∧
      Shows N q' r rc' wc
        (xs ++ ((src.drop first).take first ++ (src.drop first).take (count - first))) := by
  obtain ⟨-, rc', hq, -, hroom⟩ := h.hasRoom count
  rw [h.writePositionLocal, calculateIndex_cursor] at hfirst ⊢
  have hle : first ≤ count := by omega
  have hlen : ((src.drop first).take first ++ (src.drop first).take (count - first)).length =
      count := by
    simp
    omega
  have hpushed := hq.push ((src.drop first).take first ++ (src.drop first).take (count - first))
    (by rwa [hlen]) (by rw [hlen]; exact hroom hfits)
  have hcopied := memcpyIn_chunks (q.hasRoom N count).1.storage (by omega) hfirst hinside hwhole
  refine ⟨_, rc', ?_, hpushed⟩
  simp only [Option.bind_eq_bind, cursor_add, hlen] at hcopied ⊢
  obtain ⟨front, hfront, hback⟩ := Option.bind_eq_some_iff.mp hcopied
  rw [hfront, Option.bind_some]
  by_cases hwraps : first < count
  · rw [if_pos hwraps] at hback ⊢
    rw [hback]
    rfl
  · rw [if_neg hwraps] at hback ⊢
    rw [hback]
    rfl

theorem Shows.tryEmplaceRange_copy (h : Shows N q r rc wc xs)
    (hfits : xs.length + ys.length ≤ N.size) (hcopy : type.triviallyCopyable = true)
    (hinside : 2 * firstChunk N q ys ≤ ys.length) :
    ∃ q' rc', q.tryEmplaceRange N type ys = some (q', true) ∧
      Shows N q' r rc' wc (xs ++ shifted N q ys) := by
  obtain ⟨hanswer, -⟩ := h.hasRoom ys.length
  have hfirst : min ys.length (N.size - calculateIndex N q.writePositionLocal) =
      firstChunk N q ys := by
    rw [firstChunk, h.writePosition, h.writePositionLocal]
  obtain ⟨q', rc', hcopied, hpushed⟩ := h.copyIn ys hfits hfirst hinside (Nat.le_refl _)
  have hback : (ys.drop (firstChunk N q ys)).take (ys.length - firstChunk N q ys) =
      ys.drop (firstChunk N q ys) := List.take_of_length_le (by simp)
  refine ⟨q', rc', ?_, by rwa [hback] at hpushed⟩
  simpa only [SpscQueue.tryEmplaceRange, hanswer, hfits, hcopy, decide_true, Bool.not_true,
    Bool.false_eq_true, if_false, if_true, hfirst] using hcopied

theorem Shows.tryEmplaceRange_overrun (h : Shows N q r rc wc xs)
    (hfits : xs.length + ys.length ≤ N.size) (hcopy : type.triviallyCopyable = true)
    (houtside : ys.length < 2 * firstChunk N q ys) : q.tryEmplaceRange N type ys = none := by
  obtain ⟨hanswer, -⟩ := h.hasRoom ys.length
  have hchunk : min ys.length (N.size - calculateIndex N q.writePositionLocal) =
      firstChunk N q ys := by
    rw [firstChunk, h.writePosition, h.writePositionLocal]
  simp only [SpscQueue.tryEmplaceRange, hanswer, hfits, hcopy, decide_true, Bool.not_true,
    Bool.false_eq_true, if_false, if_true, hchunk]
  rw [memcpyIn, if_neg (by omega)]
  rfl

/-! ### The consumer -/

/-- What the consumer sees of `xs`: everything, if its copy of the write cursor is
spent, else what was pushed when the copy was taken. -/
def window (r wc : Nat) (xs : List T) : Nat := if r = wc then xs.length else wc - r

theorem Shows.readable (h : Shows N q r rc wc xs) :
    (q.readable).2.toNat = window r wc xs ∧ window r wc xs ≤ xs.length ∧
      Shows N (q.readable).1 r rc (r + window r wc xs) xs ∧
      (q.readable).1.storage = q.storage := by
  have := N.size_le
  have hfits := h.length_le
  have hle := h.le_wc
  have hwc := h.wc_le
  have hsame : q.readPositionLocal = q.writePositionCache ↔ r = wc := by
    rw [h.readPositionLocal, h.writePositionCache]
    exact cursor_eq_iff hle (by omega)
  by_cases hspent : r = wc
  · simp only [SpscQueue.readable, if_pos (hsame.mpr hspent), window, if_pos hspent]
    refine ⟨?_, Nat.le_refl _, {h with
      writePositionCache := h.writePosition, le_wc := by omega, wc_le := Nat.le_refl _}, trivial⟩
    rw [h.writePosition, h.readPositionLocal, toNat_sub_cursor (by omega) (by omega)]
    omega
  · simp only [SpscQueue.readable, if_neg (hsame.not.mpr hspent), window, if_neg hspent]
    rw [h.writePositionCache, h.readPositionLocal, toNat_sub_cursor hle (by omega),
      Nat.add_sub_cancel' hle]
    exact ⟨rfl, by omega, h, trivial⟩

/-- Nothing is seen only if nothing is there. -/
theorem Shows.available (h : Shows N q r rc wc xs) : q.readable.2 = 0 ↔ xs = [] := by
  have hle := h.le_wc
  have hwc := h.wc_le
  rw [← BitVec.toNat_inj, h.readable.1, ← List.length_eq_zero_iff]
  show window r wc xs = 0 ↔ xs.length = 0
  unfold window
  split <;> omega

/-- Moving the read cursor over the first elements removes them. -/
theorem Shows.pop (h : Shows N q r rc wc xs) (hm : m ≤ xs.length) (hseen : r + m ≤ wc)
    (hholds : Holds N.size storage (r + m) ((xs.drop m).map some)) :
    Shows N ({q with storage}.publishRead (cursor (r + m))) (r + m) rc wc (xs.drop m) where
  readPosition := rfl
  readPositionLocal := rfl
  writePosition := by
    have : r + m + (xs.length - m) = r + xs.length := by omega
    simp [publishRead, h.writePosition, this]
  writePositionLocal := by
    have : r + m + (xs.length - m) = r + xs.length := by omega
    simp [publishRead, h.writePositionLocal, this]
  readPositionCache := h.readPositionCache
  writePositionCache := h.writePositionCache
  length_le := by
    have := h.length_le
    simp
    omega
  rc_le := Nat.le_trans h.rc_le (Nat.le_add_right r m)
  room := by
    have := h.room
    simp
    omega
  le_wc := hseen
  wc_le := by
    have := h.wc_le
    simp
    omega
  holds := hholds

theorem Shows.holds_drop (h : Shows N q r rc wc xs) (hm : m ≤ xs.length) :
    Holds N.size q.storage (r + m) ((xs.drop m).map some) := by
  have hsplit := h.holds
  rw [← List.take_append_drop m xs, List.map_append, holds_append, List.length_map,
    List.length_take_of_le hm] at hsplit
  exact hsplit.2

/-- The draining loops hand out the first elements and leave the rest in place. -/
theorem drain_cursor (hholds : Holds N.size storage r (xs.map some)) (hfits : xs.length ≤ N.size)
    (hm : m ≤ xs.length) :
    ∃ storage', drain N m (cursor r) storage = some (xs.take m, storage') ∧
      Holds N.size storage' (r + m) ((xs.drop m).map some) := by
  induction m generalizing storage r xs with
  | zero => exact ⟨storage, rfl, by simpa using hholds⟩
  | succ m ih =>
    rcases xs with _ | ⟨x, xs⟩
    · simp at hm
    · rw [List.map_cons, holds_cons] at hholds
      rw [List.length_cons] at hfits hm
      have hrest := hholds.2.update_front (x := none) (by simp; omega)
      obtain ⟨storage', hdrain, hkept⟩ := ih hrest (by omega) (by omega)
      refine ⟨storage', ?_, by simpa [Nat.add_assoc, Nat.add_comm 1] using hkept⟩
      rw [drain, calculateIndex_cursor, hholds.1, destroyAt, calculateIndex_cursor,
        cursor_succ, hdrain]
      rfl

theorem Shows.drain (h : Shows N q r rc wc xs) (hm : m ≤ xs.length) (hseen : r + m ≤ wc) :
    ∃ storage, SpscQueue.drain N m (cursor r) q.storage = some (xs.take m, storage) ∧
      Shows N ({q with storage}.publishRead (cursor (r + m))) (r + m) rc wc (xs.drop m) := by
  obtain ⟨storage, hdrain, hkept⟩ := drain_cursor h.holds h.length_le hm
  exact ⟨storage, hdrain, h.pop hm hseen hkept⟩

theorem Shows.isEmpty (h : Shows N q r rc wc xs) : q.isEmpty = decide (xs = []) := by
  rw [SpscQueue.isEmpty, decide_eq_decide, ← BitVec.toNat_inj, h.size]
  simp

theorem Shows.tryDequeue (h : Shows N q r rc wc xs) :
    ∃ q' wc', q.tryDequeue N = some (q', xs.head?) ∧
      Shows N q' (r + min 1 xs.length) rc wc' xs.tail := by
  obtain ⟨havailable, -, hq, -⟩ := h.readable
  rcases xs with _ | ⟨x, xs⟩
  · refine ⟨q.readable.1, _, ?_, hq⟩
    simp only [SpscQueue.tryDequeue, if_pos (h.available.mpr rfl), List.head?_nil]
  · have hsome : q.readable.2 ≠ 0 := h.available.not.mpr (List.cons_ne_nil x xs)
    have hseen : 1 ≤ window r wc (x :: xs) := by
      rw [← havailable]
      exact Nat.pos_of_ne_zero fun hzero => hsome (BitVec.toNat_inj.mp hzero)
    have hempty : q.readable.1.isEmpty = false := by simp [hq.isEmpty]
    have hcell := (holds_cons.mp hq.holds).1
    obtain ⟨storage, hdrain, hpopped⟩ := hq.drain (m := 1) (by simp) (by omega)
    rw [SpscQueue.drain, calculateIndex_cursor, hcell] at hdrain
    obtain ⟨-, rfl⟩ := Prod.mk.inj (Option.some.inj hdrain)
    refine ⟨_, _, ?_, by simpa [Nat.min_eq_left] using hpopped⟩
    simp only [SpscQueue.tryDequeue, hsome, if_false, hempty, Bool.false_eq_true,
      h.readPositionLocal, calculateIndex_cursor, hcell, Option.bind_eq_bind, Option.bind_some,
      cursor_succ, List.head?_cons]

/-- Reading raw cells fails, reading live ones does not. -/
theorem mapM_map_some (xs : List T) : (xs.map some).mapM id = some xs := by
  induction xs with
  | nil => rfl
  | cons x xs ih => simp [List.mapM_cons, ih]

theorem memcpyOut_eq (dst : List T) (offset : Nat) {index len : Nat}
    (hread : read storage index len = ys.map some) (hdst : offset + len ≤ dst.length)
    (hring : index + len ≤ N.size) :
    memcpyOut N storage index dst offset len =
      some (dst.take offset ++ ys ++ dst.drop (offset + len)) := by
  rw [memcpyOut, if_pos ⟨hdst, hring⟩, hread, mapM_map_some]
  rfl

/-- The two copies of the trivially copyable branch hand out the first elements. -/
theorem Shows.memcpyOut (h : Shows N q r rc wc xs) {out : List T} {first : Nat}
    (hm : m ≤ xs.length) (hout : m ≤ out.length) (hfirst : chunk N.size r m = first) :
    (do
      let out ← SpscQueue.memcpyOut N q.storage (r % N.size) out 0 first
      if first ≠ m then SpscQueue.memcpyOut N q.storage 0 out first (m - first)
      else some out) = some (xs.take m ++ out.drop m) := by
  have hle := chunk_le N.size r m
  have hinside := mod_add_chunk_le N.size_pos r m
  have hread : read q.storage (r % N.size) first ++ read q.storage 0 (m - first) =
      (xs.take m).map some := by
    rw [List.map_take, ← hfirst]
    exact h.holds.read_chunks N.size_pos (by simpa using h.length_le) (by simpa)
  have hfits : m ≤ N.size := Nat.le_trans hm h.length_le
  have hlen : (xs.take m).length = m := List.length_take_of_le hm
  generalize xs.take m = ys at *
  rw [hfirst] at hle hinside
  rw [← List.take_append_drop first ys, List.map_append] at hread
  obtain ⟨hfront, hback⟩ := List.append_inj hread (by simp; omega)
  rw [memcpyOut_eq out 0 hfront (by omega) hinside]
  by_cases hwhole : first = m
  · simp [hwhole, List.take_of_length_le (Nat.le_of_eq hlen)]
  · simp only [ne_eq, hwhole, not_false_eq_true, if_true, Option.bind_eq_bind, Option.bind_some]
    rw [memcpyOut_eq _ _ hback (by simp; omega) (by omega)]
    have hc : (ys.take first).length = first := List.length_take_of_le (by omega)
    simp only [List.take_zero, List.nil_append, Nat.zero_add]
    rw [List.take_left' hc, List.take_append_drop, Nat.add_sub_cancel' hle, List.drop_append, hc,
      List.drop_eq_nil_of_le (by omega), List.drop_drop, Nat.add_sub_cancel' hle, List.nil_append]

theorem Shows.tryDequeueRange (h : Shows N q r rc wc xs) (type : ElementType) (out : List T) :
    ∃ q' wc', q.tryDequeueRange N type out =
        some (q', min (window r wc xs) out.length,
          xs.take (min (window r wc xs) out.length) ++
            out.drop (min (window r wc xs) out.length)) ∧
      Shows N q' (r + min (window r wc xs) out.length) rc wc'
        (xs.drop (min (window r wc xs) out.length)) := by
  obtain ⟨havailable, hseen, hq, -⟩ := h.readable
  rw [SpscQueue.tryDequeueRange]
  by_cases hempty : xs = []
  · have hnone := h.available.mpr hempty
    have hwindow : window r wc xs = 0 := by
      rw [← havailable, hnone]
      rfl
    simp only [if_pos hnone, hwindow, Nat.zero_min, List.take_zero, List.drop_zero,
      List.nil_append, Nat.add_zero]
    exact ⟨_, _, rfl, hq⟩
  · have hsome := h.available.not.mpr hempty
    simp only [if_neg hsome, havailable]
    generalize hm : min (window r wc xs) out.length = m
    have hmxs : m ≤ xs.length := by omega
    by_cases hcopy : type.triviallyCopyable
    · have hpopped := hq.pop hmxs (by omega) (hq.holds_drop hmxs)
      refine ⟨_, _, ?_, hpopped⟩
      have hcopied := hq.memcpyOut hmxs (by omega : m ≤ out.length)
        (rfl : _ = min m (N.size - r % N.size))
      simp only [hcopy, if_true, h.readPositionLocal, calculateIndex_cursor, cursor_add,
        Option.bind_eq_bind]
      obtain ⟨front, hfront, hwhole⟩ := Option.bind_eq_some_iff.mp hcopied
      rw [hfront, Option.bind_some]
      by_cases hwraps : min m (N.size - r % N.size) ≠ m
      · rw [if_pos hwraps] at hwhole ⊢
        rw [hwhole]
        rfl
      · rw [if_neg hwraps] at hwhole ⊢
        rw [hwhole]
        rfl
    · obtain ⟨storage, hdrain, hpopped⟩ := hq.drain hmxs (by omega)
      refine ⟨_, _, ?_, hpopped⟩
      simp only [hcopy, if_false, h.readPositionLocal, hdrain, cursor_add, Bool.false_eq_true,
        Option.bind_eq_bind, Option.bind_some]

theorem Shows.consumeAll (h : Shows N q r rc wc xs) :
    ∃ q' wc', q.consumeAll N =
        some (q', window r wc xs, xs.take (window r wc xs)) ∧
      Shows N q' (r + window r wc xs) rc wc' (xs.drop (window r wc xs)) := by
  obtain ⟨havailable, hseen, hq, -⟩ := h.readable
  obtain ⟨storage, hdrain, hpopped⟩ := hq.drain hseen (Nat.le_refl _)
  refine ⟨_, _, ?_, hpopped⟩
  simp only [SpscQueue.consumeAll, havailable, h.readPositionLocal, hdrain, cursor_add,
    Option.bind_eq_bind, Option.bind_some]

theorem Shows.consumeUpTo (h : Shows N q r rc wc xs) (limit : Nat) :
    ∃ q' wc', q.consumeUpTo N limit =
        some (q', min limit (window r wc xs), xs.take (min limit (window r wc xs))) ∧
      Shows N q' (r + min limit (window r wc xs)) rc wc'
        (xs.drop (min limit (window r wc xs))) := by
  obtain ⟨havailable, hseen, hq, -⟩ := h.readable
  by_cases hempty : xs = []
  · have hnone := h.available.mpr hempty
    have hwindow : window r wc xs = 0 := by
      rw [← havailable, hnone]
      rfl
    simp only [SpscQueue.consumeUpTo, if_pos hnone, hwindow, Nat.min_zero, List.take_zero,
      List.drop_zero, Nat.add_zero]
    exact ⟨_, _, rfl, hq⟩
  · have hsome := h.available.not.mpr hempty
    obtain ⟨storage, hdrain, hpopped⟩ :=
      hq.drain (m := min limit (window r wc xs)) (by omega) (by omega)
    refine ⟨_, _, ?_, hpopped⟩
    simp only [SpscQueue.consumeUpTo, if_neg hsome, havailable, h.readPositionLocal, hdrain,
      cursor_add, Option.bind_eq_bind, Option.bind_some]

theorem Shows.clear (h : Shows N q r rc wc xs) (type : ElementType) :
    ∃ q' wc', q.clear N type = some q' ∧ Shows N q' (r + xs.length) rc wc' [] := by
  have hfits := h.length_le
  have := N.size_le
  have hseen : Shows N {q with writePositionCache := q.writePosition} r rc (r + xs.length) xs :=
    {h with
      writePositionCache := h.writePosition, le_wc := by omega, wc_le := Nat.le_refl _}
  have hdistance : (cursor (r + xs.length) - cursor r).toNat = xs.length := by
    rw [toNat_sub_cursor (by omega) (by omega)]
    omega
  by_cases htrivial : type.triviallyDestructible
  · have hpopped := hseen.pop (Nat.le_refl _) (Nat.le_refl _) (hseen.holds_drop (Nat.le_refl _))
    rw [List.drop_length] at hpopped
    refine ⟨_, _, ?_, hpopped⟩
    simp only [SpscQueue.clear, destroyRange, htrivial, if_true, Option.bind_eq_bind,
      Option.bind_some, h.writePosition]
  · obtain ⟨storage, hdrain, hpopped⟩ := hseen.drain (Nat.le_refl _) (Nat.le_refl _)
    rw [List.drop_length] at hpopped
    refine ⟨_, _, ?_, hpopped⟩
    simp only [SpscQueue.clear, destroyRange, htrivial, if_false, hdistance, Option.bind_eq_bind,
      h.readPositionLocal, hdrain, Option.map_some, Option.bind_some, h.writePosition,
      Bool.false_eq_true]

/-! ### Runs -/

/-- The queue is some list. -/
def IsFifo (N : Capacity) (q : SpscQueue T) : Prop := ∃ r rc wc xs, Shows N q r rc wc xs

/-- The state that a call reports is the one its operation leaves. -/
theorem isFifo_of_map {α : Type} {result : Option α} {report : α → SpscQueue T × Nat} {a : α}
    {q' : SpscQueue T} {count : Nat} (hcall : result = some a)
    (hexec : result.map report = some (q', count)) (h : IsFifo N (report a).1) : IsFifo N q' := by
  subst hcall
  have heq : report a = (q', count) := Option.some.inj hexec
  rwa [heq] at h

/-- A call leaves a list behind, whatever the branches it takes. -/
theorem Shows.exec (h : Shows N q r rc wc xs) {call : Call T} {q' : SpscQueue T} {count : Nat}
    (hexec : q.exec N type call = some (q', count)) : IsFifo N q' := by
  cases call with
  | tryEmplace x =>
    obtain ⟨_, _, hcall, hshows⟩ := h.tryEmplace x
    exact isFifo_of_map hcall hexec ⟨_, _, _, _, hshows⟩
  | tryEmplaceRange ys =>
    rcases Nat.lt_or_ge N.size (xs.length + ys.length) with hfull | hfits
    · obtain ⟨_, _, hcall, hshows⟩ := h.tryEmplaceRange_full type hfull
      exact isFifo_of_map hcall hexec ⟨_, _, _, _, hshows⟩
    · cases hcopy : type.triviallyCopyable with
      | false =>
        obtain ⟨_, _, hcall, hshows⟩ := h.tryEmplaceRange_elementwise hfits hcopy
        exact isFifo_of_map hcall hexec ⟨_, _, _, _, hshows⟩
      | true =>
        rcases Nat.lt_or_ge ys.length (2 * firstChunk N q ys) with houtside | hinside
        · rw [SpscQueue.exec, h.tryEmplaceRange_overrun hfits hcopy houtside] at hexec
          cases hexec
        · obtain ⟨_, _, hcall, hshows⟩ := h.tryEmplaceRange_copy hfits hcopy hinside
          exact isFifo_of_map hcall hexec ⟨_, _, _, _, hshows⟩
  | tryDequeue =>
    obtain ⟨_, _, hcall, hshows⟩ := h.tryDequeue
    exact isFifo_of_map hcall hexec ⟨_, _, _, _, hshows⟩
  | tryDequeueInto out =>
    obtain ⟨_, _, hcall, hshows⟩ := h.tryDequeue
    rw [SpscQueue.exec, SpscQueue.tryDequeueInto, hcall] at hexec
    obtain ⟨rfl, -⟩ := Prod.mk.inj (Option.some.inj hexec)
    exact ⟨_, _, _, _, hshows⟩
  | tryDequeueRange out =>
    obtain ⟨_, _, hcall, hshows⟩ := h.tryDequeueRange type out
    exact isFifo_of_map hcall hexec ⟨_, _, _, _, hshows⟩
  | clear =>
    obtain ⟨_, _, hcall, hshows⟩ := h.clear type
    exact isFifo_of_map hcall hexec ⟨_, _, _, _, hshows⟩
  | consumeAll =>
    obtain ⟨_, _, hcall, hshows⟩ := h.consumeAll
    exact isFifo_of_map hcall hexec ⟨_, _, _, _, hshows⟩
  | consumeUpTo limit =>
    obtain ⟨_, _, hcall, hshows⟩ := h.consumeUpTo limit
    exact isFifo_of_map hcall hexec ⟨_, _, _, _, hshows⟩

theorem Reached.isFifo (h : Reached N type q) : IsFifo N q := by
  refine Transition.Reachable.invariant ?_ h ⟨_, _, _, _, Shows.empty N⟩
  rintro _ _ _ _ ⟨_, _, _, _, hs⟩ - hexec
  exact hs.exec hexec

end SpscQueue

end ExchangeEngine
