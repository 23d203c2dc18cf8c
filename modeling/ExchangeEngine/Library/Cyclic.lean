import Mathlib

/-!
Rings addressed by absolute positions. A cursor is a machine word that counts
modulo `2 ^ w`; as long as two cursors are less than a full turn of the word
apart, their difference is their distance. A ring of `n` cells stores position
`p` in cell `p % n`, so a window of at most `n` consecutive positions is stored
without overlap, and it can be copied in and out in two contiguous pieces.
-/

namespace ExchangeEngine.Cyclic

/-! ### Cursors -/

section Cursors

variable {w : Nat}

theorem toNat_sub_cursor {r t : Nat} (hle : r ≤ t) (hlt : t - r < 2 ^ w) :
    (BitVec.ofNat w t - BitVec.ofNat w r).toNat = t - r := by
  obtain ⟨d, rfl⟩ := Nat.exists_eq_add_of_le hle
  rw [Nat.add_sub_cancel_left] at *
  rw [BitVec.ofNat_add, BitVec.add_comm, BitVec.add_sub_cancel, BitVec.toNat_ofNat,
    Nat.mod_eq_of_lt hlt]

theorem cursor_eq_iff {r t : Nat} (hle : r ≤ t) (hlt : t - r < 2 ^ w) :
    BitVec.ofNat w r = BitVec.ofNat w t ↔ r = t := by
  refine ⟨fun heq => ?_, fun heq => heq ▸ rfl⟩
  have hdistance := toNat_sub_cursor hle hlt
  rw [heq, BitVec.sub_self] at hdistance
  simp at hdistance
  omega

/-- Masking a cursor takes its position modulo a power of two. -/
theorem toNat_and_mask {k : Nat} (hk : k ≤ w) (t : Nat) :
    (BitVec.ofNat w t &&& (BitVec.ofNat w (2 ^ k) - 1)).toNat = t % 2 ^ k := by
  have hmask : (BitVec.ofNat w (2 ^ k) - 1).toNat = 2 ^ k - 1 := by
    have hpos : 1 ≤ 2 ^ k := Nat.one_le_two_pow
    have hle : 2 ^ k ≤ 2 ^ w := Nat.pow_le_pow_right (by decide) hk
    exact toNat_sub_cursor (w := w) hpos (by omega : 2 ^ k - 1 < 2 ^ w)
  rw [BitVec.toNat_and, hmask, Nat.and_two_pow_sub_one_eq_mod, BitVec.toNat_ofNat,
    Nat.mod_mod_of_dvd _ (Nat.pow_dvd_pow 2 hk)]

end Cursors

/-! ### Cells -/

variable {α : Type*}

/-- Store a list in consecutive cells. -/
def write (cells : Nat → α) (start : Nat) : List α → Nat → α
  | [] => cells
  | x :: xs => write (Function.update cells start x) (start + 1) xs

/-- The contents of consecutive cells. -/
def read (cells : Nat → α) (start : Nat) : Nat → List α
  | 0 => []
  | len + 1 => cells start :: read cells (start + 1) len

/-- Store a list at consecutive positions of a ring of `n` cells. -/
def put (n : Nat) (cells : Nat → α) (pos : Nat) : List α → Nat → α
  | [] => cells
  | x :: xs => put n (Function.update cells (pos % n) x) (pos + 1) xs

/-- The contents of consecutive positions of a ring of `n` cells. -/
def get (n : Nat) (cells : Nat → α) (pos : Nat) : Nat → List α
  | 0 => []
  | len + 1 => cells (pos % n) :: get n cells (pos + 1) len

/-- The ring holds the list at the positions from `pos` on. -/
def Holds (n : Nat) (cells : Nat → α) (pos : Nat) (xs : List α) : Prop :=
  get n cells pos xs.length = xs

variable {n : Nat} {cells : Nat → α} {pos p : Nat} {xs ys : List α} {x : α}

@[simp] theorem length_read (start len : Nat) : (read cells start len).length = len := by
  induction len generalizing start with
  | zero => rfl
  | succ len ih => simp [read, ih]

theorem write_concat (start : Nat) :
    write cells start (xs ++ [x]) = Function.update (write cells start xs) (start + xs.length) x := by
  induction xs generalizing cells start with
  | nil => rfl
  | cons y ys ih =>
    rw [List.cons_append, write, ih, write, List.length_cons, Nat.add_right_comm, Nat.add_assoc]

@[simp] theorem length_get (pos len : Nat) : (get n cells pos len).length = len := by
  induction len generalizing pos with
  | zero => rfl
  | succ len ih => simp [get, ih]

theorem put_append :
    put n cells pos (xs ++ ys) = put n (put n cells pos xs) (pos + xs.length) ys := by
  induction xs generalizing cells pos with
  | nil => rfl
  | cons x xs ih => simp [put, ih, Nat.add_assoc, Nat.add_comm 1]

theorem get_add (len more : Nat) :
    get n cells pos (len + more) = get n cells pos len ++ get n cells (pos + len) more := by
  induction len generalizing pos with
  | zero => simp [get]
  | succ len ih => simp [Nat.succ_add, get, ih, Nat.add_assoc]

/-- Only the residue of a position counts. -/
theorem put_congr {pos' : Nat} (h : pos % n = pos' % n) :
    put n cells pos xs = put n cells pos' xs := by
  induction xs generalizing cells pos pos' with
  | nil => rfl
  | cons x xs ih => rw [put, put, h, ih (Nat.ModEq.add_right 1 h)]

theorem get_congr {pos' : Nat} (h : pos % n = pos' % n) (len : Nat) :
    get n cells pos len = get n cells pos' len := by
  induction len generalizing pos pos' with
  | zero => rfl
  | succ len ih => rw [get, get, h, ih (Nat.ModEq.add_right 1 h)]

/-- Without crossing the end of the ring, positions are cells. -/
theorem put_eq_write (h : pos + xs.length ≤ n) : put n cells pos xs = write cells pos xs := by
  induction xs generalizing cells pos with
  | nil => rfl
  | cons x xs ih =>
    rw [List.length_cons] at h
    rw [put, write, Nat.mod_eq_of_lt (by omega), ih (by omega)]

theorem get_eq_read {len : Nat} (h : pos + len ≤ n) : get n cells pos len = read cells pos len := by
  induction len generalizing pos with
  | zero => rfl
  | succ len ih => rw [get, read, Nat.mod_eq_of_lt (by omega), ih (by omega)]

/-- The length of the piece in front of the physical end of the ring. -/
def chunk (n pos len : Nat) : Nat := min len (n - pos % n)

theorem chunk_le (n pos len : Nat) : chunk n pos len ≤ len := Nat.min_le_left _ _

theorem mod_add_chunk_le (hn : 0 < n) (pos len : Nat) : pos % n + chunk n pos len ≤ n := by
  have := Nat.mod_lt pos hn
  unfold chunk
  omega

/-- What does not fit in front of the end of the ring starts at its first cell. -/
private theorem add_chunk_mod {len : Nat} (hn : 0 < n) (h : chunk n pos len < len) :
    (pos + chunk n pos len) % n = 0 % n := by
  have hlt := Nat.mod_lt pos hn
  have hchunk : chunk n pos len = n - pos % n := by
    unfold chunk at *
    omega
  have hround : pos + chunk n pos len = n * (pos / n) + n := by
    have := Nat.div_add_mod pos n
    omega
  rw [hround, Nat.add_mod_right, Nat.mul_mod_right, Nat.zero_mod]

/-- Two contiguous copies store a list at consecutive positions. -/
theorem write_chunks (cells : Nat → α) (pos : Nat) (hn : 0 < n) (hlen : xs.length ≤ n) :
    write (write cells (pos % n) (xs.take (chunk n pos xs.length))) 0
      (xs.drop (chunk n pos xs.length)) = put n cells pos xs := by
  have hfirst : put n cells pos (xs.take (chunk n pos xs.length)) =
      write cells (pos % n) (xs.take (chunk n pos xs.length)) := by
    rw [← put_congr (Nat.mod_mod pos n), put_eq_write]
    rw [List.length_take_of_le (chunk_le _ _ _)]
    exact mod_add_chunk_le hn _ _
  conv_rhs => rw [← List.take_append_drop (chunk n pos xs.length) xs, put_append, hfirst,
    List.length_take_of_le (chunk_le _ _ _)]
  rcases Nat.lt_or_ge (chunk n pos xs.length) xs.length with hlt | hge
  · rw [put_congr (add_chunk_mod hn hlt), put_eq_write]
    simp
    omega
  · rw [List.drop_eq_nil_of_le hge]
    rfl

/-- Two contiguous copies read a list from consecutive positions. -/
theorem read_chunks {len : Nat} (hn : 0 < n) (hlen : len ≤ n) :
    read cells (pos % n) (chunk n pos len) ++ read cells 0 (len - chunk n pos len) =
      get n cells pos len := by
  have hle := chunk_le n pos len
  conv_rhs => rw [← Nat.add_sub_cancel' hle, get_add]
  congr 1
  · rw [← get_congr (Nat.mod_mod pos n), get_eq_read (mod_add_chunk_le hn pos len)]
  · rcases Nat.lt_or_ge (chunk n pos len) len with hlt | hge
    · rw [get_congr (add_chunk_mod hn hlt), get_eq_read]
      omega
    · rw [Nat.sub_eq_zero_of_le hge]
      rfl

/-! ### Windows -/

@[simp] theorem holds_nil : Holds n cells pos [] := rfl

theorem holds_get (n : Nat) (cells : Nat → α) (pos len : Nat) :
    Holds n cells pos (get n cells pos len) := by
  rw [Holds, length_get]

@[simp] theorem holds_cons :
    Holds n cells pos (x :: xs) ↔ cells (pos % n) = x ∧ Holds n cells (pos + 1) xs := by
  simp [Holds, get]

theorem holds_append :
    Holds n cells pos (xs ++ ys) ↔ Holds n cells pos xs ∧ Holds n cells (pos + xs.length) ys := by
  induction xs generalizing pos with
  | nil => simp
  | cons x xs ih => simp [ih, and_assoc, Nat.add_assoc, Nat.add_comm 1]

/-- A window cell by cell. -/
theorem Holds.cell {i : Nat} (h : Holds n cells pos xs) (hx : xs[i]? = some x) :
    cells ((pos + i) % n) = x := by
  induction xs generalizing pos i with
  | nil => simp at hx
  | cons y ys ih =>
    rw [holds_cons] at h
    cases i with
    | zero =>
      obtain rfl := Option.some.inj hx
      exact h.1
    | succ i =>
      rw [List.getElem?_cons_succ] at hx
      rw [← ih h.2 hx, Nat.add_right_comm, Nat.add_assoc]

/-- Positions less than a turn of the ring apart have different cells. -/
theorem mod_ne {a b : Nat} (hlt : a < b) (hturn : b < a + n) : a % n ≠ b % n := by
  intro heq
  have hdvd : n ∣ b - a := (Nat.modEq_iff_dvd' (by omega)).mp heq
  exact absurd (Nat.le_of_dvd (by omega) hdvd) (by omega)

/-- Storing at a position behind the window, within the turn that starts with it,
leaves the window alone. -/
theorem Holds.update (h : Holds n cells pos xs) (hbehind : pos + xs.length ≤ p)
    (hturn : p < pos + n) : Holds n (Function.update cells (p % n) x) pos xs := by
  induction xs generalizing pos with
  | nil => simp
  | cons y ys ih =>
    rw [holds_cons] at *
    rw [List.length_cons] at hbehind
    refine ⟨?_, ih h.2 (by omega) (by omega)⟩
    rw [Function.update_of_ne (mod_ne (by omega) hturn)]
    exact h.1

/-- What is stored behind a window extends it. -/
theorem Holds.append_put (h : Holds n cells pos xs) (ys : List α)
    (hfits : xs.length + ys.length ≤ n) :
    Holds n (Cyclic.put n cells (pos + xs.length) ys) pos (xs ++ ys) := by
  induction ys generalizing cells xs with
  | nil => simpa [Cyclic.put] using h
  | cons y ys ih =>
    rw [List.length_cons] at hfits
    have hgrown : Holds n (Function.update cells ((pos + xs.length) % n) y) pos (xs ++ [y]) := by
      rw [holds_append]
      exact ⟨h.update (Nat.le_refl _) (by omega), by simp⟩
    have := ih hgrown (by simp; omega)
    simpa [Cyclic.put, Nat.add_assoc] using this

/-- Storing at the position just in front of the window is storing a turn behind it. -/
theorem Holds.update_front (h : Holds n cells (pos + 1) xs) (hfits : xs.length < n) :
    Holds n (Function.update cells (pos % n) x) (pos + 1) xs := by
  rw [← Nat.add_mod_right pos n]
  exact h.update (by omega) (by omega)

theorem Holds.read_chunks {m : Nat} (h : Holds n cells pos xs) (hn : 0 < n) (hfits : xs.length ≤ n)
    (hm : m ≤ xs.length) :
    read cells (pos % n) (chunk n pos m) ++ read cells 0 (m - chunk n pos m) = xs.take m := by
  have hsplit := holds_append.mp ((List.take_append_drop m xs).symm ▸ h)
  have htake : get n cells pos m = xs.take m := by
    have := hsplit.1
    rwa [Holds, List.length_take_of_le hm] at this
  rw [Cyclic.read_chunks hn (by omega), htake]

/-- What was stored is there. -/
theorem holds_put (hfits : xs.length ≤ n) : Holds n (put n cells pos xs) pos xs := by
  have hempty : Holds n cells pos [] := holds_nil
  simpa using hempty.append_put xs (by simpa using hfits)

/-- Storing touches the cells of its positions only. -/
theorem put_of_ne {cell : Nat} (h : ∀ k < xs.length, cell ≠ (pos + k) % n) :
    put n cells pos xs cell = cells cell := by
  induction xs generalizing cells pos with
  | nil => rfl
  | cons x xs ih =>
    have hhere : cell ≠ pos % n := h 0 (Nat.succ_pos _)
    rw [put, ih, Function.update_of_ne hhere]
    intro k hk
    rw [Nat.add_right_comm, Nat.add_assoc]
    exact h (k + 1) (Nat.succ_lt_succ hk)

theorem get_congr_cells {cells' : Nat → α} {len : Nat}
    (h : ∀ k < len, cells ((pos + k) % n) = cells' ((pos + k) % n)) :
    get n cells pos len = get n cells' pos len := by
  induction len generalizing pos with
  | zero => rfl
  | succ len ih =>
    have hhere : cells (pos % n) = cells' (pos % n) := h 0 (Nat.succ_pos _)
    rw [get, get, hhere, ih]
    intro k hk
    rw [Nat.add_right_comm, Nat.add_assoc]
    exact h (k + 1) (Nat.succ_lt_succ hk)

/-- Storing in one part of a turn of the ring leaves a disjoint part of it alone. -/
theorem get_put_of_disjoint {base a b len : Nat} (ha : a + xs.length ≤ n) (hb : b + len ≤ n)
    (hdisjoint : a + xs.length ≤ b ∨ b + len ≤ a) :
    get n (put n cells (base + a) xs) (base + b) len = get n cells (base + b) len := by
  apply get_congr_cells
  intro i hi
  apply put_of_ne
  intro k hk
  rcases hdisjoint with hbefore | hbehind
  · exact (mod_ne (by omega) (by omega)).symm
  · exact mod_ne (by omega) (by omega)

/-! ### Occupied cells -/

/-- The cells of the `len` positions from `pos` on. -/
def occupied (n pos len : Nat) (cell : Nat) : Bool := decide (∃ k < len, (pos + k) % n = cell)

variable {len : Nat}

@[simp] theorem occupied_zero : occupied n pos 0 = fun _ => false := by
  funext cell
  simp [occupied]

/-- Within a turn of the ring the position behind the window is in a cell of its own. -/
theorem not_occupied_behind (hfits : len < n) : occupied n pos len ((pos + len) % n) = false := by
  rw [occupied, decide_eq_false_iff_not]
  rintro ⟨k, hk, hsame⟩
  exact mod_ne (by omega) (by omega) hsame

theorem occupied_behind :
    Function.update (occupied n pos len) ((pos + len) % n) true = occupied n pos (len + 1) := by
  funext cell
  by_cases hcell : cell = (pos + len) % n
  · subst hcell
    rw [Function.update_self, occupied]
    exact (decide_eq_true ⟨len, by omega, rfl⟩).symm
  · rw [Function.update_of_ne hcell, occupied, occupied, decide_eq_decide]
    constructor
    · rintro ⟨k, hk, hsame⟩
      exact ⟨k, by omega, hsame⟩
    · rintro ⟨k, hk, hsame⟩
      have hne : k ≠ len := fun heq => hcell (heq ▸ hsame.symm)
      exact ⟨k, by omega, hsame⟩

theorem occupied_front : occupied n pos (len + 1) (pos % n) = true :=
  decide_eq_true ⟨0, by omega, rfl⟩

/-- Without its first position a window of at most a turn loses its first cell. -/
theorem occupied_front_update (hfits : len < n) :
    Function.update (occupied n pos (len + 1)) (pos % n) false = occupied n (pos + 1) len := by
  funext cell
  by_cases hcell : cell = pos % n
  · subst hcell
    rw [Function.update_self, occupied]
    refine (decide_eq_false ?_).symm
    rintro ⟨k, hk, hsame⟩
    exact mod_ne (by omega) (by omega) hsame.symm
  · rw [Function.update_of_ne hcell, occupied, occupied, decide_eq_decide]
    constructor
    · rintro ⟨k, hk, hsame⟩
      rcases Nat.eq_zero_or_pos k with rfl | hpos
      · exact absurd hsame.symm hcell
      · refine ⟨k - 1, by omega, ?_⟩
        rw [← hsame]
        congr 1
        omega
    · rintro ⟨k, hk, hsame⟩
      refine ⟨k + 1, by omega, ?_⟩
      rw [← hsame]
      congr 1
      omega

end ExchangeEngine.Cyclic
