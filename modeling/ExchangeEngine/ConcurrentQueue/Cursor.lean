import ExchangeEngine.Library.Cyclic

/-!
What the two queues of `src/concurrent_queue` share: cursors that count everything
ever pushed or popped in 64-bit words, and capacities that are powers of two, so that
masking a cursor gives its slot.
-/

namespace ExchangeEngine

/-- `size_t` and `std::uint64_t`. -/
abbrev Word := BitVec 64

/-- The word that a count of pushes or pops is kept as. -/
abbrev cursor (n : Nat) : Word := BitVec.ofNat 64 n

@[simp] theorem cursor_toNat (pos : Word) : cursor pos.toNat = pos := by
  rw [cursor, BitVec.ofNat_toNat, BitVec.setWidth_eq]

theorem cursor_add (a b : Nat) : cursor a + cursor b = cursor (a + b) := (BitVec.ofNat_add a b).symm

theorem cursor_succ (a : Nat) : cursor a + 1 = cursor (a + 1) := cursor_add a 1

/-- A power of two that fits a word. -/
structure Capacity where
  exponent : Nat
  fits : exponent < 64

namespace Capacity

def size (N : Capacity) : Nat := 2 ^ N.exponent

def word (N : Capacity) : Word := BitVec.ofNat 64 N.size

theorem size_pos (N : Capacity) : 0 < N.size := Nat.two_pow_pos _

theorem size_le (N : Capacity) : N.size ≤ 2 ^ 63 :=
  Nat.pow_le_pow_right (by decide) (Nat.le_of_lt_succ N.fits)

theorem word_toNat (N : Capacity) : N.word.toNat = N.size := by
  have := N.size_le
  rw [word, BitVec.toNat_ofNat, Nat.mod_eq_of_lt (by omega)]

theorem mask_cursor (N : Capacity) (p : Nat) : (cursor p &&& (N.word - 1)).toNat = p % N.size :=
  Cyclic.toNat_and_mask (Nat.le_of_lt N.fits) p

/-- What a producer that knows of `rc` pops takes for free after `w` pushes. -/
theorem free_cursor (N : Capacity) {rc w : Nat} (hle : rc ≤ w) (hroom : w ≤ rc + N.size) :
    (N.word - (cursor w - cursor rc)).toNat = rc + N.size - w := by
  have := N.size_le
  have hused : cursor w - cursor rc = cursor (w - rc) := by
    rw [← BitVec.toNat_inj, Cyclic.toNat_sub_cursor hle (by omega), BitVec.toNat_ofNat,
      Nat.mod_eq_of_lt (by omega)]
  rw [hused, word, Cyclic.toNat_sub_cursor (by omega) (by omega)]
  omega

end Capacity

end ExchangeEngine
