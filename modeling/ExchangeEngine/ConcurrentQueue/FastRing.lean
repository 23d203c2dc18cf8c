import ExchangeEngine.ConcurrentQueue.FastPush

/-!
The ring of bytes underneath `FastQueue`: how large it is made, and what its two copies do
to it. The constructor doubles a word until it reaches the request; past `2 ^ 63` doubling
leaves the word first, and then never ends. A ring that was made is an array of absolute
positions, of which the copies see the last turn.
-/

namespace ExchangeEngine

open Cyclic

namespace FastQueue

variable {N : Capacity} {q q' : FastQueue} {src : List Byte}

/-! ### Making a ring -/

/-- The loop ends, at the smallest power of two that is not below the request if a word
can hold one, and masking with the result less one gives a position in the ring. -/
structure RoundsUp (v : Word) : Prop where
  terminates : ∃ rounds p, roundUpLoop v rounds 1 = some p
  tight : ∀ k < 64, v.toNat ≤ 2 ^ k →
    ∃ p, roundUpPow2 v = some p ∧ IsLeast {n | v.toNat ≤ n ∧ ∃ j, n = 2 ^ j} p.toNat
  masks : ∀ q, create v = some q → q.mask = q.capacity - 1 ∧
    ∀ pos : Word, (pos &&& q.mask).toNat = pos.toNat % q.capacity.toNat

/-- Doubled past the word, the loop variable is zero, and zero stays below the request. -/
theorem roundUpLoop_zero {v : Word} (hv : 0 < v.toNat) (rounds : Nat) :
    roundUpLoop v rounds 0 = none := by
  induction rounds with
  | zero => rfl
  | succ rounds ih =>
    have hbelow : (0 : Word) < v := by
      rw [BitVec.lt_def]
      exact hv
    rw [roundUpLoop, if_pos hbelow]
    exact ih

/-- No power of two that a word holds reaches a request past `2 ^ 63`. -/
theorem roundUpLoop_none {v : Word} (hv : 2 ^ 63 < v.toNat) (rounds : Nat) {j : Nat}
    (hj : j ≤ 64) : roundUpLoop v rounds (cursor (2 ^ j)) = none := by
  induction rounds generalizing j with
  | zero => rfl
  | succ rounds ih =>
    rcases Nat.lt_or_eq_of_le hj with hj | rfl
    · have hbelow : cursor (2 ^ j) < v := by
        rw [BitVec.lt_def]
        have hword : (cursor (2 ^ j)).toNat = 2 ^ j := (⟨j, hj⟩ : Capacity).word_toNat
        have hsize : 2 ^ j ≤ 2 ^ 63 := (⟨j, hj⟩ : Capacity).size_le
        rw [hword]
        exact Nat.lt_of_le_of_lt hsize hv
      rw [roundUpLoop, if_pos hbelow, cursor_double]
      exact ih hj
    · exact roundUpLoop_zero (by omega) _

theorem not_roundsUp {v : Word} (hv : 2 ^ 63 < v.toNat) : ¬ RoundsUp v := by
  intro hrounds
  obtain ⟨rounds, p, hends⟩ := hrounds.terminates
  have hnone : roundUpLoop v rounds 1 = none := roundUpLoop_none hv rounds (Nat.zero_le 64)
  rw [hnone] at hends
  cases hends

/-- The rounding is right exactly for the requests up to `2 ^ 63`. For larger ones it never
returns. -/
theorem roundsUp_iff (v : Word) : RoundsUp v ↔ v.toNat ≤ 2 ^ 63 := by
  constructor
  · intro hrounds
    by_contra hlarge
    exact not_roundsUp (Nat.not_le.mp hlarge) hrounds
  · intro hv
    obtain ⟨N, hN, hreaches, hbelow⟩ := roundUpPow2_eq hv
    refine ⟨⟨65, N.word, hN⟩, fun _ _ _ => ⟨N.word, hN, ?_⟩, fun q hq => ?_⟩
    · rw [N.word_toNat]
      refine ⟨⟨hreaches, N.exponent, rfl⟩, ?_⟩
      rintro _ ⟨hle, j, rfl⟩
      apply Nat.pow_le_pow_right (by decide)
      by_contra hj
      exact absurd (hbelow j (Nat.not_le.mp hj)) (Nat.not_lt.mpr hle)
    · obtain rfl : _ = q := Option.some.inj ((congrArg _ hN).symm.trans hq)
      refine ⟨rfl, fun pos => ?_⟩
      have hmask := N.mask_cursor pos.toNat
      rw [cursor_toNat] at hmask
      rw [hmask, N.word_toNat]

/-- The loop for one byte more than the largest power of two. -/
theorem roundsUp_false : ¬ RoundsUp (cursor (2 ^ 63 + 1)) := not_roundsUp (by decide)

/-! ### Copies -/

/-- The cell of a position. Wrapping with the word does not move it, as the size of a ring
divides the number of words. -/
theorem cell_position (N : Capacity) (pos : Word) (k : Nat) :
    (pos + cursor k).toNat % N.size = (pos.toNat + k) % N.size := by
  have hdvd : N.size ∣ 2 ^ 64 := Nat.pow_dvd_pow 2 (Nat.le_of_lt N.fits)
  rw [BitVec.toNat_add, BitVec.toNat_ofNat, Nat.add_mod_mod, Nat.mod_mod_of_dvd _ hdvd]

/-- A copy of at most the whole ring reads consecutive positions. -/
theorem Sized.copyOut (h : Sized N q) (p : Nat) {len : Nat} (hlen : len ≤ N.size) :
    q.copyOut (cursor p) len = some (get N.size q.buffer p len) := by
  have hchunk : min len (N.size - p % N.size) = chunk N.size p len := rfl
  have hinside := mod_add_chunk_le N.size_pos p len
  have hread : Cyclic.read q.buffer (p % N.size) (chunk N.size p len) ++
      Cyclic.read q.buffer 0 (len - chunk N.size p len) = get N.size q.buffer p len :=
    read_chunks N.size_pos hlen
  have hlt := Nat.mod_lt p N.size_pos
  simp only [FastQueue.copyOut, memcpyOut, h.capacity, h.mask, N.mask_cursor, N.word_toNat, hchunk,
    Option.bind_eq_bind, if_pos hinside, Option.bind_some]
  split
  · rw [if_pos (by omega), Option.map_some, hread]
  · rename_i hwhole
    rw [Nat.sub_eq_zero_of_le (Nat.not_lt.mp hwhole)] at hread
    rw [← hread]
    simp [Cyclic.read]

/-- A ring is an array of absolute positions. Copies of at most the whole ring stay inside
the buffer, a copy out after a copy in at the same position returns what was copied in,
and a copy in leaves alone every other byte, and so every disjoint range that lies with
its own in one turn of the ring. -/
theorem copies_address_positions (h : Sized N q) (pos : Word) (hlen : src.length ≤ N.size) :
    (∀ p len, len ≤ N.size → (q.copyOut p len).isSome) ∧
      ∃ q', q.copyIn pos src = some q' ∧ q'.copyOut pos src.length = some src ∧
        (∀ i, (∀ k < src.length, i ≠ (pos + cursor k).toNat % N.size) →
          q'.buffer i = q.buffer i) ∧
        ∀ (base : Word) (a b len : Nat), pos = base + cursor a → a + src.length ≤ N.size →
          b + len ≤ N.size → (a + src.length ≤ b ∨ b + len ≤ a) →
            q'.copyOut (base + cursor b) len = q.copyOut (base + cursor b) len := by
  have hcopied := h.copyIn pos.toNat hlen
  rw [cursor_toNat] at hcopied
  generalize hq' : ({q with buffer := put N.size q.buffer pos.toNat src} : FastQueue) = q'
    at hcopied
  have hsized : Sized N q' := hq' ▸ ⟨h.capacity, h.mask⟩
  have hbuffer : q'.buffer = put N.size q.buffer pos.toNat src := hq' ▸ rfl
  refine ⟨fun p len hlen => ?_, q', hcopied, ?_, fun i hi => ?_, ?_⟩
  · rw [← cursor_toNat p, h.copyOut p.toNat hlen]
    rfl
  · have hholds : Holds N.size (put N.size q.buffer pos.toNat src) pos.toNat src := holds_put hlen
    rw [Holds, ← hbuffer] at hholds
    have hout := hsized.copyOut pos.toNat hlen
    rw [cursor_toNat, hholds] at hout
    exact hout
  · rw [hbuffer]
    apply put_of_ne
    intro k hk
    rw [← cell_position]
    exact hi k hk
  · rintro base a b len rfl ha hb hdisjoint
    have hpos : (base + cursor a).toNat % N.size = (base.toNat + a) % N.size :=
      cell_position N base a
    have hother : base + cursor b = cursor (base.toNat + b) := by
      rw [← cursor_add, cursor_toNat]
    rw [hother, hsized.copyOut _ (by omega), h.copyOut _ (by omega), hbuffer, put_congr hpos,
      get_put_of_disjoint ha hb hdisjoint]

/-- Three bytes in a ring of four, across the end of the ring and of the word. -/
theorem copies_address_positions_wrapped : ∃ q q' : FastQueue, Sized ⟨2, by decide⟩ q ∧
    q.copyIn (cursor (2 ^ 64 - 2)) [1, 2, 3] = some q' ∧
    q'.copyOut (cursor (2 ^ 64 - 2)) 3 = some [1, 2, 3] ∧ q'.buffer 1 = 0 := by
  have hsized : Sized ⟨2, by decide⟩ {capacity := 4, mask := 3, buffer := fun _ => 0} :=
    ⟨rfl, rfl⟩
  obtain ⟨-, q', hcopied, hback, hothers, -⟩ :=
    copies_address_positions hsized (cursor (2 ^ 64 - 2))
      (by decide : [(1 : Byte), 2, 3].length ≤ 2 ^ 2)
  exact ⟨_, q', hsized, hcopied, hback, hothers 1 (by decide)⟩

end FastQueue

end ExchangeEngine
