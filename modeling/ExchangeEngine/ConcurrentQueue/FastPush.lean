import ExchangeEngine.ConcurrentQueue.FastInterleaving

/-!
`try_push` as one call. A push stores the frame of its payload behind the queued bytes,
except that it takes the length of the payload modulo `2 ^ 32`: for the bytes it asks
for, for the bytes it publishes and for the header, but not for the bytes it copies.
-/

namespace ExchangeEngine

open Cyclic

namespace FastQueue

open Interleaving (frames)

/-! ### Copies -/

/-- A ring of `N` bytes. -/
structure Sized (N : Capacity) (q : FastQueue) : Prop where
  capacity : q.capacity = N.word
  mask : q.mask = N.word - 1

variable {N : Capacity} {q q' : FastQueue} {src data : List Byte} {pos : Word}

theorem memcpyIn_some {start : Nat} (h : q.memcpyIn start src = some q') :
    q' = {q with buffer := Cyclic.write q.buffer start src} :=
  (Option.some.inj (Option.ite_none_right_eq_some.mp h).2).symm

/-- A copy into the ring writes two pieces and leaves the cursors alone. -/
theorem copyIn_some {offset first : Nat} (hoffset : (pos &&& q.mask).toNat = offset)
    (hfirst : min src.length (q.capacity.toNat - offset) = first)
    (h : q.copyIn pos src = some q') :
    q' = {q with
      buffer := Cyclic.write (Cyclic.write q.buffer offset (src.take first)) 0
        (src.drop first)} := by
  simp only [copyIn, hoffset, hfirst, Option.bind_eq_bind, Option.bind_eq_some_iff] at h
  obtain ⟨q₁, hpiece, hrest⟩ := h
  obtain rfl := memcpyIn_some hpiece
  split at hrest
  · exact memcpyIn_some hrest
  · rename_i hwhole
    obtain rfl := Option.some.inj hrest
    rw [List.drop_eq_nil_of_le (Nat.not_lt.mp hwhole)]
    rfl

/-- A copy of at most the whole ring stays inside the buffer and goes through consecutive
positions. -/
theorem Sized.copyIn (h : Sized N q) (p : Nat) (hlen : src.length ≤ N.size) :
    q.copyIn (cursor p) src = some {q with buffer := put N.size q.buffer p src} := by
  have hlt := Nat.mod_lt p N.size_pos
  have hchunk : min src.length (N.size - p % N.size) = chunk N.size p src.length := rfl
  have hwrite := write_chunks q.buffer p N.size_pos hlen
  have hinside := mod_add_chunk_le N.size_pos p src.length
  have hfits : p % N.size + (src.take (chunk N.size p src.length)).length ≤ N.size := by
    rw [List.length_take_of_le (chunk_le _ _ _)]
    exact hinside
  simp only [FastQueue.copyIn, memcpyIn, h.capacity, h.mask, N.mask_cursor, N.word_toNat, hchunk,
    Option.bind_eq_bind, if_pos hfits, Option.bind_some]
  split
  · rw [if_pos (by rw [List.length_drop]; omega), hwrite]
  · rename_i hwhole
    rw [List.drop_eq_nil_of_le (Nat.not_lt.mp hwhole)] at hwrite
    rw [← hwrite]
    rfl

/-! ### Queued bytes -/

def used (q : FastQueue) : Nat := (q.write - q.read).toNat

def free (q : FastQueue) : Nat := q.capacity.toNat - q.used

/-- The bytes between the cursors. -/
def queued (q : FastQueue) : List Byte := get q.capacity.toNat q.buffer q.read.toNat q.used

/-- The queued bytes are the frames of these messages. -/
def Queues (q : FastQueue) (messages : List (List Byte)) : Prop :=
  q.queued = frames messages ∧ ∀ m ∈ messages, m.length < 2 ^ 32

/-- No more bytes are in use than there are. -/
def WellFormed (q : FastQueue) : Prop := ∃ N, Sized N q ∧ q.used ≤ N.size

theorem Sized.free (h : Sized N q) : q.free = N.size - q.used := by
  rw [FastQueue.free, h.capacity, N.word_toNat]

/-- The cursors as counts of bytes. -/
theorem write_eq (q : FastQueue) : q.write = cursor (q.read.toNat + q.used) := by
  rw [← cursor_add, used, cursor_toNat, cursor_toNat, BitVec.add_comm, BitVec.sub_add_cancel]

theorem read_eq (q : FastQueue) : q.read = cursor q.read.toNat := (cursor_toNat q.read).symm

/-- What the code takes for free is what is free. -/
theorem Sized.toNat_free (h : Sized N q) (hused : q.used ≤ N.size) :
    (q.capacity - (q.write - q.read)).toNat = q.free := by
  have hfree := N.free_cursor (Nat.le_add_right q.read.toNat q.used) (by omega)
  rw [← write_eq, ← read_eq] at hfree
  rw [h.free, h.capacity, hfree]
  omega

theorem toNat_need (size : BitVec 32) : (need size).toNat = kHeader + size.toNat := by
  have := size.isLt
  rw [need, BitVec.toNat_add, BitVec.toNat_ofNat, BitVec.toNat_setWidth]
  unfold kHeader
  omega

/-- The space check looks at the payload's length modulo `2 ^ 32`. -/
theorem Sized.rejects_iff (h : Sized N q) (hused : q.used ≤ N.size) (data : List Byte) :
    q.capacity - (q.write - q.read) < need (BitVec.ofNat 32 data.length) ↔
      q.free < kHeader + data.length % 2 ^ 32 := by
  rw [BitVec.lt_def, h.toNat_free hused, toNat_need, BitVec.toNat_ofNat]

theorem Sized.queued (h : Sized N q) :
    q.queued = get N.size q.buffer q.read.toNat q.used := by
  rw [FastQueue.queued, h.capacity, N.word_toNat]

/-! ### One push -/

/-- The queue after `bytes` are stored behind the queued ones and published. -/
def enqueue (N : Capacity) (q : FastQueue) (bytes : List Byte) : FastQueue :=
  {q with
    buffer := put N.size q.buffer (q.read.toNat + q.used) bytes
    write := cursor (q.read.toNat + q.used + bytes.length)}

theorem used_enqueue {bytes : List Byte} (hroom : q.used + bytes.length ≤ N.size) :
    (q.enqueue N bytes).used = q.used + bytes.length := by
  have := N.size_le
  have hread : (q.enqueue N bytes).read = cursor q.read.toNat := q.read_eq
  rw [used, hread]
  exact (toNat_sub_cursor (by omega) (by omega)).trans (by omega)

theorem sized_enqueue (h : Sized N q) (bytes : List Byte) : Sized N (q.enqueue N bytes) :=
  ⟨h.capacity, h.mask⟩

/-- Queued bytes stay as they are. -/
theorem Sized.queued_enqueue (h : Sized N q) {bytes : List Byte}
    (hroom : q.used + bytes.length ≤ N.size) :
    (q.enqueue N bytes).queued = q.queued ++ bytes := by
  have hholds := (holds_get N.size q.buffer q.read.toNat q.used).append_put bytes
    (by rwa [length_get])
  rw [Holds, List.length_append, length_get] at hholds
  rw [(sized_enqueue h bytes).queued, used_enqueue hroom, h.queued]
  exact hholds

theorem queues_enqueue {messages : List (List Byte)} (h : Sized N q) (hqueues : q.Queues messages)
    (hlen : data.length < 2 ^ 32) (hroom : q.used + (kHeader + data.length) ≤ N.size) :
    (q.enqueue N (frame data)).Queues (messages ++ [data]) := by
  refine ⟨?_, fun m hm => ?_⟩
  · rw [h.queued_enqueue (by rwa [length_frame]), hqueues.1, Interleaving.frames_append,
      Interleaving.frames_singleton]
  · rcases List.mem_append.mp hm with hm | hm
    · exact hqueues.2 m hm
    · exact List.mem_singleton.mp hm ▸ hlen

/-- A payload whose length fits 32 bits is stored as its frame if it fits. -/
theorem Sized.tryPush (h : Sized N q) (hused : q.used ≤ N.size) (hlen : data.length < 2 ^ 32) :
    q.tryPush data =
      if q.free < kHeader + data.length then some (q, false)
      else some (q.enqueue N (frame data), true) := by
  have hrejects := h.rejects_iff hused data
  rw [Nat.mod_eq_of_lt hlen] at hrejects
  have hfree := h.free
  simp only [FastQueue.tryPush, hrejects]
  split
  · rfl
  · rename_i hfits
    let head := header (BitVec.ofNat 32 data.length)
    let p := q.read.toNat + q.used
    have hhead : head.length ≤ N.size := by
      rw [length_header]
      omega
    have hsized : Sized N {q with buffer := put N.size q.buffer p head} := ⟨h.capacity, h.mask⟩
    have hput : put N.size q.buffer p (frame data) =
        put N.size (put N.size q.buffer p head) (p + kHeader) data := put_append
    rw [need_eq hlen, q.write_eq, h.copyIn p hhead, Option.bind_eq_bind, Option.bind_some,
      cursor_add, hsized.copyIn (p + kHeader) (by omega), Option.bind_some, cursor_add, enqueue,
      length_frame, hput]

/-- A longer payload is rejected if the rest of its length modulo `2 ^ 32` does not fit.
Otherwise as many bytes are published, if the call comes to its end. -/
theorem Sized.tryPush_long (h : Sized N q) (hused : q.used ≤ N.size) {ok : Bool}
    (hpush : q.tryPush data = some (q', ok)) :
    if q.free < kHeader + data.length % 2 ^ 32 then ok = false ∧ q' = q
    else ok = true ∧ q' = {q with
      buffer := q'.buffer, write := q.write + need (BitVec.ofNat 32 data.length)} := by
  have hrejects := h.rejects_iff hused data
  simp only [FastQueue.tryPush, hrejects] at hpush
  split at hpush
  · rename_i hfull
    obtain ⟨rfl, rfl⟩ := Prod.mk.inj (Option.some.inj hpush)
    rw [if_pos hfull]
    exact ⟨rfl, rfl⟩
  · rename_i hfits
    simp only [Option.bind_eq_bind, Option.bind_eq_some_iff] at hpush
    obtain ⟨q₁, hheader, q₂, hpayload, hdone⟩ := hpush
    obtain ⟨rfl, rfl⟩ := Prod.mk.inj (Option.some.inj hdone)
    rw [if_neg hfits, copyIn_some rfl rfl hpayload, copyIn_some rfl rfl hheader]
    exact ⟨rfl, rfl⟩

/-! ### The steps of a push -/

/-- The first `k` bytes of a copy, byte by byte. -/
def copyCells (q : FastQueue) (pos : Word) (src : List Byte) : Nat → Nat → Byte
  | 0 => q.buffer
  | k + 1 =>
    match src[k]? with
    | some byte => Function.update (q.copyCells pos src k) (q.cell pos src.length k) byte
    | none => q.copyCells pos src k

/-- Byte by byte the same bytes are written as by the two pieces of a copy. -/
theorem copyCells_eq_write {offset first k : Nat} (hoffset : (pos &&& q.mask).toNat = offset)
    (hfirst : min src.length (q.capacity.toNat - offset) = first) (hk : k ≤ src.length) :
    q.copyCells pos src k =
      Cyclic.write (Cyclic.write q.buffer offset ((src.take k).take first)) 0
        ((src.take k).drop first) := by
  induction k with
  | zero => simp [copyCells, Cyclic.write]
  | succ k ih =>
    have hbyte : src[k]? = some src[k] := List.getElem?_eq_getElem hk
    have htake : (src.take k).length = k := List.length_take_of_le (Nat.le_of_succ_le hk)
    have hstep : q.copyCells pos src (k + 1) =
        Function.update (q.copyCells pos src k) (q.cell pos src.length k) src[k] := by
      rw [copyCells, hbyte]
    rw [hstep, ih (Nat.le_of_succ_le hk), List.take_add_one, hbyte, Option.toList_some,
      List.take_append, List.drop_append, htake]
    simp only [cell, hoffset, hfirst]
    rcases Nat.lt_or_ge k first with hlt | hge
    · have hone : [src[k]].length ≤ first - k := Nat.le_sub_of_add_le' hlt
      rw [if_pos hlt, List.take_of_length_le (by omega : (src.take k).length ≤ first),
        List.drop_eq_nil_of_le (by omega : (src.take k).length ≤ first),
        List.take_of_length_le hone, List.drop_eq_nil_of_le hone, write_concat, htake]
      rfl
    · rw [if_neg (Nat.not_lt.mpr hge), Nat.sub_eq_zero_of_le hge, List.take_zero, List.append_nil,
        List.drop_zero, write_concat, List.length_drop, htake, Nat.zero_add]

theorem copyIn_eq_copyCells (h : q.copyIn pos src = some q') :
    q' = {q with buffer := q.copyCells pos src src.length} := by
  have hcells : q.copyCells pos src src.length = _ := copyCells_eq_write rfl rfl (Nat.le_refl _)
  rw [List.take_length] at hcells
  rw [hcells]
  exact copyIn_some rfl rfl h

namespace Interleaving

variable {s : Interleaving}

/-- The producer alone copies a header in as many steps. -/
theorem producer_copiesHeader (s : Interleaving) (data : List Byte) (w : Word) {k : Nat}
    (hk : k ≤ kHeader) :
    producerStep^[k] {s with producer := .copyingHeader data w 0} = {s with
      queue := {s.queue with
        buffer := s.queue.copyCells w (header (BitVec.ofNat 32 data.length)) k}
      producer := .copyingHeader data w k} := by
  induction k with
  | zero => rfl
  | succ k ih =>
    have hbyte := List.getElem?_eq_getElem (l := header (BitVec.ofNat 32 data.length)) hk
    rw [Function.iterate_succ_apply', ih (Nat.le_of_succ_le hk)]
    simp only [producerStep, copyCells, hbyte]
    rfl

theorem producer_copiesPayload (s : Interleaving) (data : List Byte) (w : Word) {k : Nat}
    (hk : k ≤ data.length) :
    producerStep^[k] {s with producer := .copyingPayload data w 0} = {s with
      queue := {s.queue with buffer := s.queue.copyCells (w + cursor kHeader) data k}
      producer := .copyingPayload data w k} := by
  induction k with
  | zero => rfl
  | succ k ih =>
    have hbyte := List.getElem?_eq_getElem hk
    rw [Function.iterate_succ_apply', ih (Nat.le_of_succ_le hk)]
    simp only [producerStep, copyCells, hbyte]
    rfl

theorem iterate_trans {f : Interleaving → Interleaving} {s t u : Interleaving} {m n : Nat}
    (h : f^[m] s = t) (h' : f^[n] t = u) : f^[n + m] s = u := by
  rw [Function.iterate_add_apply, h, h']

/-- Left alone, the steps of the producer are the call. -/
theorem producer_alone (hidle : s.producer = .idle) {q' : FastQueue} {ok : Bool}
    (hpush : s.queue.tryPush data = some (q', ok)) :
    ∃ n, producerStep^[n] {s with producer := .loadingWrite data} =
      {s with queue := q', pushed := if ok then s.pushed ++ [data] else s.pushed} := by
  let q := s.queue
  have hloads : producerStep^[2] {s with producer := .loadingWrite data} =
      {s with producer := .deciding data q.write q.read} := rfl
  simp only [FastQueue.tryPush] at hpush
  split at hpush
  · rename_i hfull
    obtain ⟨rfl, rfl⟩ := Prod.mk.inj (Option.some.inj hpush)
    refine ⟨_, iterate_trans (n := 1) hloads ?_⟩
    rw [Function.iterate_one, producerStep]
    dsimp only
    rw [if_pos hfull, ← hidle]
    rfl
  · rename_i hfits
    simp only [Option.bind_eq_bind, Option.bind_eq_some_iff] at hpush
    obtain ⟨q₁, hheader, q₂, hpayload, hdone⟩ := hpush
    obtain ⟨rfl, rfl⟩ := Prod.mk.inj (Option.some.inj hdone)
    obtain rfl := copyIn_eq_copyCells hheader
    obtain rfl := copyIn_eq_copyCells hpayload
    have hdecides : producerStep^[1] {s with producer := .deciding data q.write q.read} =
        {s with producer := .copyingHeader data q.write 0} := by
      rw [Function.iterate_one, producerStep]
      exact if_neg hfits
    have hcopied := producer_copiesHeader s data q.write (Nat.le_refl kHeader)
    let q₁ : FastQueue := {q with
      buffer := q.copyCells q.write (header (BitVec.ofNat 32 data.length)) kHeader}
    let q₂ : FastQueue := {q₁ with
      buffer := q₁.copyCells (q.write + cursor kHeader) data data.length}
    have hturns :
        producerStep^[1] {s with queue := q₁, producer := .copyingHeader data q.write kHeader} =
          {s with queue := q₁, producer := .copyingPayload data q.write 0} := rfl
    have hcopied' := producer_copiesPayload {s with queue := q₁} data q.write
      (Nat.le_refl data.length)
    have hends : producerStep^[2] {s with
        queue := q₂, producer := .copyingPayload data q.write data.length} =
        {s with
          queue := {q₂ with write := q.write + need (BitVec.ofNat 32 data.length)}
          pushed := s.pushed ++ [data]} := by
      have hdone : data[data.length]? = none := List.getElem?_eq_none (Nat.le_refl _)
      rw [Function.iterate_succ_apply, Function.iterate_one]
      simp only [producerStep, hdone, hidle]
    exact ⟨_, iterate_trans hloads (iterate_trans hdecides (iterate_trans hcopied
      (iterate_trans hturns (iterate_trans hcopied' hends))))⟩

end Interleaving

/-! ### Runs -/

theorem WellFormed.tryPush (h : q.WellFormed) {ok : Bool}
    (hpush : q.tryPush data = some (q', ok)) : q'.WellFormed := by
  obtain ⟨N, hsized, hused⟩ := h
  have htaken := hsized.tryPush_long hused hpush
  have hfree := hsized.free
  have hsize := N.size_le
  split at htaken
  · obtain ⟨-, rfl⟩ := htaken
    exact ⟨N, hsized, hused⟩
  · rename_i hfits
    obtain ⟨-, hq'⟩ := htaken
    refine ⟨N, ?_, ?_⟩
    · rw [hq']
      exact ⟨hsized.capacity, hsized.mask⟩
    · have hpublished : q'.used =
          ((q.write - q.read) + need (BitVec.ofNat 32 data.length)).toNat := by
        rw [hq', used, BitVec.sub_eq_add_neg, BitVec.sub_eq_add_neg, BitVec.add_assoc,
          BitVec.add_assoc, BitVec.add_comm (need _)]
      have hneed := toNat_need (BitVec.ofNat 32 data.length)
      rw [BitVec.toNat_ofNat] at hneed
      rw [hpublished, BitVec.toNat_add, ← used, hneed, Nat.mod_eq_of_lt (by omega)]
      omega

theorem WellFormed.tryPop (h : q.WellFormed) {out : Nat} {payload : Option (List Byte)}
    (hpop : q.tryPop out = some (q', payload)) : q'.WellFormed := by
  obtain ⟨N, hsized, hused⟩ := h
  unfold FastQueue.tryPop at hpop
  dsimp only at hpop
  split at hpop
  · obtain ⟨rfl, -⟩ := Prod.mk.inj (Option.some.inj hpop)
    exact ⟨N, hsized, hused⟩
  · simp only [Option.bind_eq_bind, Option.bind_eq_some_iff] at hpop
    obtain ⟨head, -, hpop⟩ := hpop
    split at hpop
    · cases hpop
    · rename_i hframed
      split at hpop
      · cases hpop
      · simp only [Option.bind_eq_some_iff] at hpop
        obtain ⟨bytes, -, hdone⟩ := hpop
        obtain ⟨rfl, -⟩ := Prod.mk.inj (Option.some.inj hdone)
        refine ⟨N, ⟨hsized.capacity, hsized.mask⟩, ?_⟩
        have hreleased : q.write - (q.read + need (headerSize head)) =
            (q.write - q.read) - need (headerSize head) := by
          rw [BitVec.sub_eq_add_neg, BitVec.sub_eq_add_neg, BitVec.sub_eq_add_neg, BitVec.neg_add,
            BitVec.sub_eq_add_neg, BitVec.add_assoc]
        rw [used, hreleased, BitVec.toNat_sub_of_le (BitVec.not_lt.mp hframed), ← used]
        omega

/-- A call on the queue. -/
inductive Call where
  | tryPush (data : List Byte)
  | tryPop (out : Nat)

/-- One call, reporting whether a message was pushed or popped. -/
def exec (q : FastQueue) : Call → Option (FastQueue × Bool)
  | .tryPush data => q.tryPush data
  | .tryPop out => (q.tryPop out).map fun (q, payload) => (q, payload.isSome)

/-- Between two calls of some sequential run on a constructed queue. -/
def Reached (q : FastQueue) : Prop :=
  ∃ capacityBytes q₀, capacityBytes.toNat ≤ 2 ^ 63 ∧ create capacityBytes = some q₀ ∧
    Transition.Reachable exec (fun _ _ => True) q₀ q

theorem Reached.wellFormed (h : Reached q) : q.WellFormed := by
  obtain ⟨capacityBytes, q₀, hrequested, hcreate, hrun⟩ := h
  refine Transition.Reachable.invariant ?_ hrun ?_
  · intro q q' call ok hq _ hexec
    cases call with
    | tryPush data => exact hq.tryPush hexec
    | tryPop out =>
      obtain ⟨popped, hpop, hq'⟩ := Option.map_eq_some_iff.mp hexec
      obtain ⟨rfl, -⟩ := Prod.mk.inj hq'
      exact hq.tryPop hpop
  · obtain ⟨N, hN⟩ := create_eq hrequested
    obtain rfl := Option.some.inj (hcreate.symm.trans hN)
    exact ⟨N, ⟨rfl, rfl⟩, by simp [used]⟩

/-! ### What a push owes -/

/-- A payload is pushed exactly if its frame fits. Then it is one more message behind the
queued ones, which are left alone, and otherwise nothing changes. -/
def Delivers (q : FastQueue) (data : List Byte) : Prop :=
  ∃ q' ok, q.tryPush data = some (q', ok) ∧ (ok = true ↔ kHeader + data.length ≤ q.free) ∧
    (ok = false → q' = q) ∧
    (ok = true →
      q' = {q with buffer := q'.buffer, write := q.write + cursor (kHeader + data.length)} ∧
      (∃ head, head.length = kHeader ∧ (headerSize head).toNat = data.length ∧
        q'.queued = q.queued ++ head ++ data) ∧
      ∀ messages, q.Queues messages → q'.Queues (messages ++ [data]))

theorem Sized.delivers (h : Sized N q) (hused : q.used ≤ N.size) (hlen : data.length < 2 ^ 32) :
    Delivers q data := by
  have hpush := h.tryPush hused hlen
  split at hpush
  · rename_i hfull
    exact ⟨q, false, hpush, by simp; omega, fun _ => rfl, nofun⟩
  · rename_i hfits
    have hfree := h.free
    have hroom : q.used + (frame data).length ≤ N.size := by
      rw [length_frame]
      unfold kHeader at *
      omega
    refine ⟨_, true, hpush, by simp; omega, nofun, fun _ => ⟨?_, ?_, ?_⟩⟩
    · rw [q.write_eq, cursor_add, enqueue, length_frame]
    · refine ⟨header (BitVec.ofNat 32 data.length), rfl, ?_, ?_⟩
      · rw [headerSize_header, BitVec.toNat_ofNat, Nat.mod_eq_of_lt hlen]
      · rw [h.queued_enqueue hroom, frame, List.append_assoc]
    · intro messages hqueues
      exact queues_enqueue h hqueues hlen (by rwa [length_frame] at hroom)

/-- A push of any length keeps its word exactly if the length fits the four bytes of the
header, or if the frame of the length modulo `2 ^ 32` does not fit either. -/
theorem tryPush_delivers_iff (h : q.WellFormed) (data : List Byte) :
    Delivers q data ↔
      data.length < 2 ^ 32 ∨ q.free < kHeader + data.length % 2 ^ 32 := by
  obtain ⟨N, hsized, hused⟩ := h
  have hmod := Nat.mod_le data.length (2 ^ 32)
  constructor
  · rintro ⟨q', ok, hpush, hok, -, hstored⟩
    by_contra hneither
    obtain ⟨hlong, hfits⟩ := not_or.mp hneither
    have htaken := hsized.tryPush_long hused hpush
    rw [if_neg hfits] at htaken
    obtain ⟨rfl, hq'⟩ := htaken
    obtain ⟨hq'', -⟩ := hstored rfl
    have hroom := hok.mp rfl
    have hwrite := (congrArg write hq').symm.trans (congrArg write hq'')
    have hbytes := congrArg BitVec.toNat ((BitVec.add_right_inj _).mp hwrite)
    have := hsized.free
    have := N.size_le
    rw [toNat_need, BitVec.toNat_ofNat, BitVec.toNat_ofNat,
      Nat.mod_eq_of_lt (by omega : kHeader + data.length < 2 ^ 64)] at hbytes
    omega
  · rintro (hshort | hfull)
    · exact hsized.delivers hused hshort
    · have hpush : q.tryPush data = some (q, false) := by
        rw [FastQueue.tryPush, if_pos ((hsized.rejects_iff hused data).mpr hfull)]
      exact ⟨q, false, hpush, by simp; omega, fun _ => rfl, nofun⟩

/-- Two messages in and one out, the next frame of seven bytes fits and crosses the end of
the ring. -/
theorem tryPush_delivers_iff_across : ∃ q : FastQueue,
    ((tryPush {capacity := 16, mask := 15, buffer := fun _ => 0} [1, 2]).bind fun pushed =>
      (pushed.1.tryPush [3, 4, 5]).bind fun pushed => pushed.1.tryPop 2) =
        some (q, some [1, 2]) ∧
    q.write = 13 ∧ q.free = 9 ∧ Delivers q [6, 7, 8] := by
  have hend : ((tryPush {capacity := 16, mask := 15, buffer := fun _ => 0} [1, 2]).bind
      fun pushed => (pushed.1.tryPush [3, 4, 5]).bind fun pushed => pushed.1.tryPop 2).map
        (fun out => ([out.1.capacity, out.1.mask, out.1.read, out.1.write], out.2)) =
      some ([16, 15, 6, 13], some [1, 2]) := by decide +kernel
  obtain ⟨⟨q, payload⟩, hcalls, hq⟩ := Option.map_eq_some_iff.mp hend
  simp only [Prod.mk.injEq, List.cons.injEq, and_true] at hq
  obtain ⟨⟨hcapacity, hmask, hread, hwrite⟩, rfl⟩ := hq
  have hused : q.used = 7 := by
    rw [used, hread, hwrite]
    rfl
  have hfree : q.free = 9 := by
    rw [free, hcapacity, hused]
    rfl
  have hsized : Sized ⟨4, by decide⟩ q := ⟨hcapacity, hmask⟩
  have hwell : q.WellFormed := ⟨_, hsized, by rw [hused]; decide⟩
  exact ⟨q, hcalls, hwrite, hfree, (tryPush_delivers_iff hwell _).mpr (.inl (by decide))⟩

/-- `2 ^ 32` bytes are taken for none: they pass the check on a ring of sixteen bytes. -/
theorem tryPush_delivers_false :
    ¬ Delivers {capacity := 16, mask := 15, buffer := fun _ => 0} (List.replicate (2 ^ 32) 0) := by
  have hlen : (List.replicate (2 ^ 32) (0 : Byte)).length = 2 ^ 32 := List.length_replicate
  revert hlen
  generalize List.replicate (2 ^ 32) (0 : Byte) = data
  rintro hlen ⟨q', ok, hpush, hok, -⟩
  have hsized : Sized ⟨4, by decide⟩ {capacity := 16, mask := 15, buffer := fun _ => 0} :=
    ⟨rfl, rfl⟩
  have htaken := hsized.tryPush_long (by decide) hpush
  rw [hlen, if_neg (by decide)] at htaken
  have hroom := hok.mp htaken.1
  rw [hlen] at hroom
  exact absurd hroom (by decide)

end FastQueue

end ExchangeEngine
