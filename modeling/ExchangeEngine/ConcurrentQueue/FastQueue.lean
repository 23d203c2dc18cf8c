import ExchangeEngine.ConcurrentQueue.Cursor

/-!
`src/concurrent_queue/fast_queue.hpp`, one call at a time: a ring of bytes in which each
message is stored as a frame, four little-endian bytes of length and the payload. A copy
that leaves the buffer and a failed assertion have no result.
-/

namespace ExchangeEngine

abbrev Byte := BitVec 8

structure FastQueue where
  capacity : Word
  mask : Word
  buffer : Nat → Byte
  read : Word := 0
  write : Word := 0

namespace FastQueue

/-- `sizeof(std::uint32_t)`. -/
def kHeader : Nat := 4

/-- The loop of `round_up_pow2`, for at most the given number of rounds. -/
def roundUpLoop (v : Word) : Nat → Word → Option Word
  | 0, _ => none
  | fuel + 1, p => if p < v then roundUpLoop v fuel (p <<< 1) else some p

/-- After 64 doublings `p` is zero and stays zero: a loop that is not done by then never is. -/
def roundUpPow2 (v : Word) : Option Word := roundUpLoop v 65 1

/-- `kHeader + size`. -/
def need (size : BitVec 32) : Word := cursor kHeader + size.setWidth 64

/-- The constructor. -/
def create (capacityBytes : Word) : Option FastQueue :=
  (roundUpPow2 capacityBytes).map fun capacity =>
    { capacity := capacity, mask := capacity - 1, buffer := fun _ => 0 }

/-- The byte of the buffer that byte `i` of a copy of `len` bytes at `pos` goes to or comes
from: `copy_in` and `copy_out` copy up to the end of the buffer and go on at its start. -/
def cell (q : FastQueue) (pos : Word) (len i : Nat) : Nat :=
  let offset := (pos &&& q.mask).toNat
  let first := min len (q.capacity.toNat - offset)
  if i < first then offset + i else i - first

/-- The bytes of a length, least significant first. -/
def header (size : BitVec 32) : List Byte :=
  [size.setWidth 8, (size >>> 8).setWidth 8, (size >>> 16).setWidth 8, (size >>> 24).setWidth 8]

/-- The length that four bytes are. -/
def headerSize : List Byte → BitVec 32
  | [b₀, b₁, b₂, b₃] => b₃ ++ b₂ ++ b₁ ++ b₀
  | _ => 0

/-- `memcpy` of `src` to the byte `start` of the buffer. -/
def memcpyIn (q : FastQueue) (start : Nat) (src : List Byte) : Option FastQueue :=
  if start + src.length ≤ q.capacity.toNat then
    some {q with buffer := Cyclic.write q.buffer start src}
  else none

/-- `memcpy` of `len` bytes from the byte `start` of the buffer. -/
def memcpyOut (q : FastQueue) (start len : Nat) : Option (List Byte) :=
  if start + len ≤ q.capacity.toNat then some (Cyclic.read q.buffer start len) else none

def copyIn (q : FastQueue) (pos : Word) (src : List Byte) : Option FastQueue := do
  let offset := (pos &&& q.mask).toNat
  let first := min src.length (q.capacity.toNat - offset)
  let q ← q.memcpyIn offset (src.take first)
  if first < src.length then q.memcpyIn 0 (src.drop first) else some q

def copyOut (q : FastQueue) (pos : Word) (len : Nat) : Option (List Byte) := do
  let offset := (pos &&& q.mask).toNat
  let first := min len (q.capacity.toNat - offset)
  let dst ← q.memcpyOut offset first
  if first < len then (q.memcpyOut 0 (len - first)).map (dst ++ ·) else some dst

def tryPush (q : FastQueue) (data : List Byte) : Option (FastQueue × Bool) :=
  let size := BitVec.ofNat 32 data.length
  let write := q.write
  let read := q.read
  if q.capacity - (write - read) < need size then some (q, false)
  else do
    let q ← q.copyIn write (header size)
    let q ← q.copyIn (write + cursor kHeader) data
    some ({q with write := write + need size}, true)

/-- The payload that is copied to a destination of `out` bytes. -/
def tryPop (q : FastQueue) (out : Nat) : Option (FastQueue × Option (List Byte)) :=
  let read := q.read
  let write := q.write
  if read = write then some (q, none)
  else do
    let size := headerSize (← q.copyOut read kHeader)
    if write - read < need size then none
    else if out < size.toNat then none
    else
      let payload ← q.copyOut (read + cursor kHeader) size.toNat
      some ({q with read := read + need size}, some payload)

/-- What a message is stored as. -/
def frame (data : List Byte) : List Byte := header (BitVec.ofNat 32 data.length) ++ data

@[simp] theorem length_header (size : BitVec 32) : (header size).length = kHeader := rfl

@[simp] theorem length_frame (data : List Byte) : (frame data).length = kHeader + data.length := by
  simp [frame]

theorem need_eq {n : Nat} (hn : n < 2 ^ 32) : need (BitVec.ofNat 32 n) = cursor (kHeader + n) := by
  have hsize : (BitVec.ofNat 32 n).setWidth 64 = cursor n := by
    rw [← BitVec.toNat_inj, BitVec.toNat_setWidth, BitVec.toNat_ofNat, BitVec.toNat_ofNat,
      Nat.mod_eq_of_lt hn]
  rw [need, hsize, cursor_add]

theorem headerSize_header (size : BitVec 32) : headerSize (header size) = size := by
  apply BitVec.eq_of_getLsbD_eq
  intro i hi
  simp only [header, headerSize, BitVec.getLsbD_append, BitVec.getLsbD_setWidth,
    BitVec.getLsbD_ushiftRight]
  grind

/-- A power of two that is doubled stays one, or leaves the word. -/
theorem cursor_double {j : Nat} : cursor (2 ^ j) <<< 1 = cursor (2 ^ (j + 1)) := by
  rw [← BitVec.toNat_inj, BitVec.toNat_shiftLeft, Nat.shiftLeft_eq, BitVec.toNat_ofNat,
    BitVec.toNat_ofNat, Nat.pow_one, Nat.mod_mul_mod, ← Nat.pow_succ]

/-- Doubling reaches a requested capacity before it leaves the word, and stops there. -/
theorem roundUpLoop_eq {v : Word} (hv : v.toNat ≤ 2 ^ 63) {j k : Nat} (hjk : j + k = 63)
    (hbelow : ∀ i < j, 2 ^ i < v.toNat) :
    ∃ N : Capacity, roundUpLoop v (k + 2) (cursor (2 ^ j)) = some N.word ∧
      v.toNat ≤ N.size ∧ ∀ i < N.exponent, 2 ^ i < v.toNat := by
  induction k generalizing j with
  | zero =>
    obtain rfl : j = 63 := hjk
    have hdone : ¬ cursor (2 ^ 63) < v := by
      rw [BitVec.lt_def]
      exact Nat.not_lt.mpr hv
    exact ⟨⟨63, by decide⟩, by rw [roundUpLoop, if_neg hdone]; rfl, hv, hbelow⟩
  | succ k ih =>
    have hword : (cursor (2 ^ j)).toNat = 2 ^ j := (⟨j, by omega⟩ : Capacity).word_toNat
    rw [roundUpLoop]
    split
    · rename_i hshort
      rw [BitVec.lt_def, hword] at hshort
      rw [cursor_double]
      apply ih (by omega)
      intro i hi
      rcases Nat.lt_succ_iff_lt_or_eq.mp hi with hi | rfl
      · exact hbelow i hi
      · exact hshort
    · rename_i hdone
      rw [BitVec.lt_def, hword] at hdone
      exact ⟨⟨j, by omega⟩, rfl, Nat.not_lt.mp hdone, hbelow⟩

/-- The smallest power of two that is not below the request. -/
theorem roundUpPow2_eq {v : Word} (hv : v.toNat ≤ 2 ^ 63) :
    ∃ N : Capacity, roundUpPow2 v = some N.word ∧ v.toNat ≤ N.size ∧
      ∀ i < N.exponent, 2 ^ i < v.toNat :=
  roundUpLoop_eq hv (Nat.zero_add 63) fun i hi => absurd hi (Nat.not_lt_zero i)

theorem create_eq {capacityBytes : Word} (h : capacityBytes.toNat ≤ 2 ^ 63) :
    ∃ N : Capacity, create capacityBytes =
      some { capacity := N.word, mask := N.word - 1, buffer := fun _ => 0 } := by
  obtain ⟨N, hN, -⟩ := roundUpPow2_eq h
  exact ⟨N, by rw [create, hN]; rfl⟩

/-- Copies go through consecutive positions of the ring. -/
theorem cell_eq {N : Capacity} {q : FastQueue} (hcapacity : q.capacity = N.word)
    (hmask : q.mask = N.word - 1) {p len i : Nat} (hi : i < len) (hlen : len ≤ N.size) :
    q.cell (cursor p) len i = (p + i) % N.size := by
  have hlt := Nat.mod_lt p N.size_pos
  rw [cell, hcapacity, hmask, N.mask_cursor, N.word_toNat, ← Nat.mod_add_mod]
  generalize p % N.size = offset at *
  split
  · rw [Nat.mod_eq_of_lt (by omega)]
  · rw [Nat.mod_eq_sub_mod (by omega), Nat.mod_eq_of_lt (by omega)]
    omega

end FastQueue

end ExchangeEngine
