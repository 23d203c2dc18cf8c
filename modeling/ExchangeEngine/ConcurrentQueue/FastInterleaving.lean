import ExchangeEngine.ConcurrentQueue.FastQueue
import ExchangeEngine.Library.Transition

/-!
One producer and one consumer on a `FastQueue`, step by step. A step is one load or
store of a shared cursor or the copy of one byte of a header or a payload; the steps of
the two parties interleave in any order. The accepted and the returned payloads are
recorded on the side, and failed assertions are states of their own.
-/

namespace ExchangeEngine

open Cyclic

namespace FastQueue

/-! ### The parties -/

/-- Where the producer stands in `try_push`. -/
inductive ProducerPhase where
  | idle
  | loadingWrite (data : List Byte)
  | loadingRead (data : List Byte) (write : Word)
  | deciding (data : List Byte) (write read : Word)
  | copyingHeader (data : List Byte) (write : Word) (copied : Nat)
  | copyingPayload (data : List Byte) (write : Word) (copied : Nat)
  | storing (data : List Byte) (newWrite : Word)
  deriving DecidableEq, Repr

/-- Where the consumer stands in `try_pop` with a destination of `out` bytes. -/
inductive ConsumerPhase where
  | idle
  | loadingRead (out : Nat)
  | loadingWrite (out : Nat) (read : Word)
  | deciding (out : Nat) (read write : Word)
  | copyingHeader (out : Nat) (read write : Word) (copied : List Byte)
  | asserting (out : Nat) (read write : Word) (size : BitVec 32)
  | copyingPayload (read : Word) (size : BitVec 32) (copied : List Byte)
  | storing (newRead : Word) (payload : List Byte)
  | corrupted
  | tooSmall (out : Nat)
  deriving DecidableEq, Repr

structure Interleaving where
  queue : FastQueue
  producer : ProducerPhase := .idle
  consumer : ConsumerPhase := .idle
  pushed : List (List Byte) := []
  popped : List (List Byte) := []

namespace Interleaving

/-- The next step of the producer inside its call. -/
def producerStep (s : Interleaving) : Interleaving :=
  let q := s.queue
  match s.producer with
  | .idle => s
  | .loadingWrite data => {s with producer := .loadingRead data q.write}
  | .loadingRead data write => {s with producer := .deciding data write q.read}
  | .deciding data write read =>
    if q.capacity - (write - read) < need (BitVec.ofNat 32 data.length) then {s with producer := .idle}
    else {s with producer := .copyingHeader data write 0}
  | .copyingHeader data write copied =>
    match (header (BitVec.ofNat 32 data.length))[copied]? with
    | some byte =>
      {s with
        queue := {q with buffer := Function.update q.buffer (q.cell write kHeader copied) byte}
        producer := .copyingHeader data write (copied + 1)}
    | none => {s with producer := .copyingPayload data write 0}
  | .copyingPayload data write copied =>
    match data[copied]? with
    | some byte =>
      let cell := q.cell (write + cursor kHeader) data.length copied
      {s with
        queue := {q with buffer := Function.update q.buffer cell byte}
        producer := .copyingPayload data write (copied + 1)}
    | none => {s with producer := .storing data (write + need (BitVec.ofNat 32 data.length))}
  | .storing data newWrite =>
    {s with queue := {q with write := newWrite}, producer := .idle, pushed := s.pushed ++ [data]}

/-- The next step of the consumer inside its call. -/
def consumerStep (s : Interleaving) : Interleaving :=
  let q := s.queue
  match s.consumer with
  | .idle => s
  | .loadingRead out => {s with consumer := .loadingWrite out q.read}
  | .loadingWrite out read => {s with consumer := .deciding out read q.write}
  | .deciding out read write =>
    if read = write then {s with consumer := .idle}
    else {s with consumer := .copyingHeader out read write []}
  | .copyingHeader out read write copied =>
    if copied.length < kHeader then
      let byte := q.buffer (q.cell read kHeader copied.length)
      {s with consumer := .copyingHeader out read write (copied ++ [byte])}
    else {s with consumer := .asserting out read write (headerSize copied)}
  | .asserting out read write size =>
    if write - read < need size then {s with consumer := .corrupted}
    else if out < size.toNat then {s with consumer := .tooSmall out}
    else {s with consumer := .copyingPayload read size []}
  | .copyingPayload read size copied =>
    if copied.length < size.toNat then
      let byte := q.buffer (q.cell (read + cursor kHeader) size.toNat copied.length)
      {s with consumer := .copyingPayload read size (copied ++ [byte])}
    else {s with consumer := .storing (read + need size) copied}
  | .storing newRead payload =>
    {s with
      queue := {q with read := newRead}, consumer := .idle, popped := s.popped ++ [payload]}
  | .corrupted => s
  | .tooSmall _ => s

/-- Which party moves. An idle party can start a call. -/
inductive Event where
  | push (data : List Byte)
  | producer
  | pop (out : Nat)
  | consumer

def step (s : Interleaving) : Event → Option (Interleaving × Unit)
  | .push data =>
    match s.producer with
    | .idle => some ({s with producer := .loadingWrite data}, ())
    | _ => none
  | .producer => some (s.producerStep, ())
  | .pop out =>
    match s.consumer with
    | .idle => some ({s with consumer := .loadingRead out}, ())
    | _ => none
  | .consumer => some (s.consumerStep, ())

/-- Payloads are shorter than `2 ^ 32` bytes. -/
def Admits : Event → Prop
  | .push data => data.length < 2 ^ 32
  | _ => True

instance : DecidablePred Admits
  | .push data => inferInstanceAs (Decidable (data.length < 2 ^ 32))
  | .producer | .pop _ | .consumer => .isTrue trivial

/-- Reached by some interleaving on a fresh queue. -/
def Reached (q : FastQueue) (s : Interleaving) : Prop :=
  Transition.Reachable step (fun _ => Admits) {queue := q} s

/-! ### What holds between any two steps -/

/-- What the messages are stored as, one behind the other. -/
def frames (messages : List (List Byte)) : List Byte := messages.flatMap frame

/-- How many bytes the messages take. -/
def span (messages : List (List Byte)) : Nat := (frames messages).length

/-- What the producer knows in each phase. Frames of `w` bytes are pushed, `r` bytes are
released and the bytes `staged` are copied behind the pushed ones. -/
def ProducerOk (N : Capacity) (w r : Nat) (staged : List Byte) : ProducerPhase → Prop
  | .idle => staged = []
  | .loadingWrite data => staged = [] ∧ data.length < 2 ^ 32
  | .loadingRead data write => staged = [] ∧ data.length < 2 ^ 32 ∧ write = cursor w
  | .deciding data write read =>
    staged = [] ∧ data.length < 2 ^ 32 ∧ write = cursor w ∧
      ∃ p, read = cursor p ∧ p ≤ r ∧ w ≤ p + N.size
  | .copyingHeader data write copied =>
    staged = (header (BitVec.ofNat 32 data.length)).take copied ∧ copied ≤ kHeader ∧
      data.length < 2 ^ 32 ∧ write = cursor w ∧ w + (kHeader + data.length) ≤ r + N.size
  | .copyingPayload data write copied =>
    staged = header (BitVec.ofNat 32 data.length) ++ data.take copied ∧ copied ≤ data.length ∧
      data.length < 2 ^ 32 ∧ write = cursor w ∧ w + (kHeader + data.length) ≤ r + N.size
  | .storing data newWrite =>
    staged = frame data ∧ data.length < 2 ^ 32 ∧ newWrite = cursor (w + (kHeader + data.length))

/-- The front message, and that the write cursor was loaded behind its frame. -/
def Front (r w : Nat) (unread : List (List Byte)) (write : Word) (m : List Byte) : Prop :=
  unread.head? = some m ∧ ∃ p, write = cursor p ∧ r + (kHeader + m.length) ≤ p ∧ p ≤ w

/-- What the consumer knows in each phase. Bytes up to `r` are released, frames of `w`
bytes are pushed and the messages `unread` are in between. -/
def ConsumerOk (r w : Nat) (unread : List (List Byte)) : ConsumerPhase → Prop
  | .idle | .loadingRead _ => True
  | .loadingWrite _ read => read = cursor r
  | .deciding _ read write =>
    read = cursor r ∧ ∃ seen, seen <+: unread ∧ write = cursor (r + span seen)
  | .copyingHeader _ read write copied =>
    read = cursor r ∧ copied.length ≤ kHeader ∧ ∃ m, Front r w unread write m ∧
      copied = (header (BitVec.ofNat 32 m.length)).take copied.length
  | .asserting _ read write size =>
    read = cursor r ∧ ∃ m, Front r w unread write m ∧ size = BitVec.ofNat 32 m.length
  | .copyingPayload read size copied =>
    read = cursor r ∧ ∃ m, unread.head? = some m ∧ size = BitVec.ofNat 32 m.length ∧
      copied.length ≤ m.length ∧ copied = m.take copied.length
  | .storing newRead payload =>
    unread.head? = some payload ∧ newRead = cursor (r + (kHeader + payload.length))
  | .corrupted => False
  | .tooSmall out => ∃ m, unread.head? = some m ∧ out < m.length

/-- The returned payloads are a prefix of the accepted ones, and behind the read cursor the
ring holds the frames of the others and what is copied of the next. -/
structure Inv (N : Capacity) (s : Interleaving) (unread : List (List Byte)) (staged : List Byte) :
    Prop where
  capacity : s.queue.capacity = N.word
  mask : s.queue.mask = N.word - 1
  log : s.pushed = s.popped ++ unread
  short : ∀ m ∈ unread, m.length < 2 ^ 32
  read : s.queue.read = cursor (span s.popped)
  write : s.queue.write = cursor (span s.pushed)
  room : span s.pushed + staged.length ≤ span s.popped + N.size
  holds : Holds N.size s.queue.buffer (span s.popped) (frames unread ++ staged)
  producer : ProducerOk N (span s.pushed) (span s.popped) staged s.producer
  consumer : ConsumerOk (span s.popped) (span s.pushed) unread s.consumer

/-- A state in which the invariant holds. -/
def Sound (N : Capacity) (s : Interleaving) : Prop := ∃ unread staged, Inv N s unread staged

theorem frames_append (ms ms' : List (List Byte)) :
    frames (ms ++ ms') = frames ms ++ frames ms' := List.flatMap_append

theorem span_append (ms ms' : List (List Byte)) : span (ms ++ ms') = span ms + span ms' := by
  rw [span, frames_append, List.length_append, span, span]

@[simp] theorem frames_singleton (m : List Byte) : frames [m] = frame m := by simp [frames]

@[simp] theorem span_singleton (m : List Byte) : span [m] = kHeader + m.length := by simp [span]

theorem sound_init (N : Capacity) (buffer : Nat → Byte) :
    Sound N {queue := { capacity := N.word, mask := N.word - 1, buffer := buffer }} :=
  ⟨[], [], rfl, rfl, rfl, by simp, rfl, rfl, Nat.zero_le _, rfl, rfl, trivial⟩

variable {N : Capacity} {s : Interleaving} {unread : List (List Byte)} {staged : List Byte}

theorem Inv.span_pushed (h : Inv N s unread staged) :
    span s.pushed = span s.popped + span unread := by
  rw [h.log, span_append]

theorem Inv.setProducer (h : Inv N s unread staged) {phase : ProducerPhase}
    (hok : ProducerOk N (span s.pushed) (span s.popped) staged phase) :
    Sound N {s with producer := phase} :=
  ⟨unread, staged, {h with producer := hok}⟩

theorem Inv.setConsumer (h : Inv N s unread staged) {phase : ConsumerPhase}
    (hok : ConsumerOk (span s.popped) (span s.pushed) unread phase) :
    Sound N {s with consumer := phase} :=
  ⟨unread, staged, {h with consumer := hok}⟩

/-- The producer only relies on how many bytes are released at least. -/
theorem ProducerOk.mono {w r r' : Nat} {phase : ProducerPhase} (h : ProducerOk N w r staged phase)
    (hle : r ≤ r') : ProducerOk N w r' staged phase := by
  cases phase with
  | deciding data write read =>
    obtain ⟨hstaged, hlen, hwrite, p, hread, hpr, hwp⟩ := h
    exact ⟨hstaged, hlen, hwrite, p, hread, Nat.le_trans hpr hle, hwp⟩
  | copyingHeader data write copied =>
    obtain ⟨hstaged, hcopied, hlen, hwrite, hroom⟩ := h
    exact ⟨hstaged, hcopied, hlen, hwrite, Nat.le_trans hroom (Nat.add_le_add_right hle _)⟩
  | copyingPayload data write copied =>
    obtain ⟨hstaged, hcopied, hlen, hwrite, hroom⟩ := h
    exact ⟨hstaged, hcopied, hlen, hwrite, Nat.le_trans hroom (Nat.add_le_add_right hle _)⟩
  | _ => exact h

private theorem head_append {m data : List Byte} (h : unread.head? = some m) :
    (unread ++ [data]).head? = some m := by
  rw [List.head?_append, h, Option.some_or]

theorem Front.mono {r w w' : Nat} {write : Word} {m data : List Byte} (h : Front r w unread write m)
    (hle : w ≤ w') : Front r w' (unread ++ [data]) write m := by
  obtain ⟨hhead, p, hwrite, hframe, hpw⟩ := h
  exact ⟨head_append hhead, p, hwrite, hframe, Nat.le_trans hpw hle⟩

/-- What the consumer knows stays true when another message is pushed. -/
theorem ConsumerOk.mono {r w w' : Nat} {phase : ConsumerPhase} (h : ConsumerOk r w unread phase)
    (hle : w ≤ w') (data : List Byte) : ConsumerOk r w' (unread ++ [data]) phase := by
  cases phase with
  | deciding out read write =>
    obtain ⟨hread, seen, hseen, hwrite⟩ := h
    exact ⟨hread, seen, hseen.trans (List.prefix_append _ _), hwrite⟩
  | copyingHeader out read write copied =>
    obtain ⟨hread, hcopied, m, hfront, hbytes⟩ := h
    exact ⟨hread, hcopied, m, hfront.mono hle, hbytes⟩
  | asserting out read write size =>
    obtain ⟨hread, m, hfront, hsize⟩ := h
    exact ⟨hread, m, hfront.mono hle, hsize⟩
  | copyingPayload read size copied =>
    obtain ⟨hread, m, hhead, hsize, hcopied, hbytes⟩ := h
    exact ⟨hread, m, head_append hhead, hsize, hcopied, hbytes⟩
  | storing newRead payload => exact ⟨head_append h.1, h.2⟩
  | tooSmall out =>
    obtain ⟨m, hhead, hout⟩ := h
    exact ⟨m, head_append hhead, hout⟩
  | _ => exact h

/-- The next byte of the frame is copied behind the staged ones. -/
theorem Inv.stage (h : Inv N s unread staged) (byte : Byte) (phase : ProducerPhase)
    (hroom : span s.pushed + staged.length < span s.popped + N.size)
    (hok : ProducerOk N (span s.pushed) (span s.popped) (staged ++ [byte]) phase) :
    Sound N {s with
      queue := {s.queue with
        buffer := Function.update s.queue.buffer ((span s.pushed + staged.length) % N.size) byte}
      producer := phase} := by
  have hpos : span s.pushed + staged.length =
      span s.popped + (frames unread ++ staged).length := by
    rw [h.span_pushed, List.length_append, span, span, Nat.add_assoc]
  have hgrown := h.holds.append_put [byte] (by
    rw [List.length_singleton]
    omega)
  rw [← hpos, List.append_assoc] at hgrown
  exact ⟨unread, staged ++ [byte], {h with
    room := by
      rw [List.length_append, List.length_singleton]
      exact hroom
    holds := hgrown
    producer := hok}⟩

theorem Inv.producerStep (h : Inv N s unread staged) : Sound N s.producerStep := by
  have hsize := N.size_le
  have hok := h.producer
  have hroom := h.room
  have hspan := h.span_pushed
  unfold Interleaving.producerStep
  cases hphase : s.producer with
  | idle => exact ⟨unread, staged, h⟩
  | loadingWrite data =>
    rw [hphase] at hok
    obtain ⟨rfl, hlen⟩ := hok
    exact h.setProducer ⟨rfl, hlen, h.write⟩
  | loadingRead data write =>
    rw [hphase] at hok
    obtain ⟨rfl, hlen, hwrite⟩ := hok
    exact h.setProducer ⟨rfl, hlen, hwrite, _, h.read, Nat.le_refl _, hroom⟩
  | deciding data write read =>
    rw [hphase] at hok
    obtain ⟨rfl, hlen, rfl, p, rfl, hpr, hwp⟩ := hok
    have hfree := N.free_cursor (by omega : p ≤ span s.pushed) hwp
    dsimp only
    split
    · exact h.setProducer rfl
    · rename_i hfits
      refine h.setProducer ⟨rfl, Nat.zero_le _, hlen, rfl, ?_⟩
      rw [BitVec.lt_def, h.capacity, hfree, need_eq hlen, BitVec.toNat_ofNat,
        Nat.mod_eq_of_lt (by unfold kHeader; omega)] at hfits
      omega
  | copyingHeader data write copied =>
    rw [hphase] at hok
    obtain ⟨rfl, hcopied, hlen, rfl, hfits⟩ := hok
    have hstaged : ((header (BitVec.ofNat 32 data.length)).take copied).length = copied :=
      List.length_take_of_le hcopied
    dsimp only
    cases hbyte : (header (BitVec.ofNat 32 data.length))[copied]? with
    | none =>
      have hdone : kHeader ≤ copied := List.getElem?_eq_none_iff.mp hbyte
      refine h.setProducer ⟨?_, Nat.zero_le _, hlen, rfl, hfits⟩
      rw [List.take_of_length_le hdone, List.take_zero, List.append_nil]
    | some byte =>
      have hmore : copied < kHeader := (List.getElem?_eq_some_iff.mp hbyte).1
      have hstep := h.stage byte (.copyingHeader data _ (copied + 1))
        (by omega) ⟨by rw [List.take_add_one, hbyte, Option.toList_some], hmore, hlen, rfl, hfits⟩
      rwa [hstaged, ← cell_eq h.capacity h.mask hmore (by omega)] at hstep
  | copyingPayload data write copied =>
    rw [hphase] at hok
    obtain ⟨rfl, hcopied, hlen, rfl, hfits⟩ := hok
    have hstaged : (header (BitVec.ofNat 32 data.length) ++ data.take copied).length =
        kHeader + copied := by
      rw [List.length_append, length_header, List.length_take_of_le hcopied]
    dsimp only
    cases hbyte : data[copied]? with
    | none =>
      have hdone : data.length ≤ copied := List.getElem?_eq_none_iff.mp hbyte
      refine h.setProducer ⟨?_, hlen, by rw [need_eq hlen, cursor_add]⟩
      rw [List.take_of_length_le hdone, frame]
    | some byte =>
      have hmore : copied < data.length := (List.getElem?_eq_some_iff.mp hbyte).1
      have hstep := h.stage byte (.copyingPayload data _ (copied + 1))
        (by omega)
        ⟨by rw [List.take_add_one, hbyte, Option.toList_some, List.append_assoc], hmore, hlen, rfl,
          hfits⟩
      rwa [hstaged, ← Nat.add_assoc, ← cell_eq h.capacity h.mask hmore (by omega),
        ← cursor_add] at hstep
  | storing data newWrite =>
    rw [hphase] at hok
    obtain ⟨rfl, hlen, rfl⟩ := hok
    rw [length_frame] at hroom
    dsimp only
    exact ⟨unread ++ [data], [], {h with
      log := by rw [h.log, List.append_assoc]
      short := by
        intro m hm
        rcases List.mem_append.mp hm with hm | hm
        · exact h.short m hm
        · exact List.mem_singleton.mp hm ▸ hlen
      write := by rw [span_append, span_singleton]
      room := by
        rw [span_append, span_singleton]
        exact hroom
      holds := by
        rw [frames_append, frames_singleton, List.append_nil]
        exact h.holds
      producer := rfl
      consumer := by
        rw [span_append]
        exact h.consumer.mono (Nat.le_add_right _ _) data}⟩

/-- The front message starts where the read cursor stands. -/
theorem Inv.front (h : Inv N s unread staged) {m : List Byte} (hhead : unread.head? = some m) :
    ∃ rest, unread = m :: rest ∧ m.length < 2 ^ 32 ∧
      span s.pushed = span s.popped + (kHeader + m.length) + span rest ∧
      Holds N.size s.queue.buffer (span s.popped) (header (BitVec.ofNat 32 m.length)) ∧
      Holds N.size s.queue.buffer (span s.popped + kHeader) m ∧
      Holds N.size s.queue.buffer (span s.popped + (kHeader + m.length))
        (frames rest ++ staged) := by
  obtain ⟨rest, rfl⟩ := List.head?_eq_some_iff.mp hhead
  have hspan := h.span_pushed
  have hholds := h.holds
  rw [← List.singleton_append, span_append, span_singleton, ← Nat.add_assoc] at hspan
  rw [← List.singleton_append, frames_append, frames_singleton, List.append_assoc, holds_append,
    length_frame, frame, holds_append, length_header] at hholds
  exact ⟨rest, rfl, h.short m List.mem_cons_self, hspan, hholds.1.1, hholds.1.2, hholds.2⟩

/-- What is copied so far stays an initial part when the next byte is copied. -/
private theorem take_next {bytes copied : List Byte} {byte : Byte}
    (h : copied = bytes.take copied.length) (hbyte : bytes[copied.length]? = some byte) :
    copied ++ [byte] = bytes.take (copied ++ [byte]).length := by
  rw [List.length_append, List.length_singleton, List.take_add_one, hbyte, Option.toList_some, ← h]

theorem Inv.consumerStep (h : Inv N s unread staged) : Sound N s.consumerStep := by
  have hsize := N.size_le
  have hok := h.consumer
  have hroom := h.room
  unfold Interleaving.consumerStep
  cases hphase : s.consumer with
  | idle => exact ⟨unread, staged, h⟩
  | loadingRead out => exact h.setConsumer h.read
  | loadingWrite out read =>
    rw [hphase] at hok
    refine h.setConsumer ⟨hok, unread, List.prefix_refl _, ?_⟩
    rw [h.write, h.span_pushed]
  | deciding out read write =>
    rw [hphase] at hok
    obtain ⟨rfl, seen, ⟨later, rfl⟩, rfl⟩ := hok
    have hspan := h.span_pushed
    rw [span_append] at hspan
    dsimp only
    split
    · exact h.setConsumer trivial
    · rename_i hdiffers
      cases seen with
      | nil => exact absurd rfl hdiffers
      | cons m rest =>
        rw [← List.singleton_append, span_append, span_singleton] at hspan ⊢
        exact h.setConsumer ⟨rfl, Nat.zero_le _, m, ⟨rfl, _, rfl, by omega, by omega⟩, rfl⟩
  | copyingHeader out read write copied =>
    rw [hphase] at hok
    obtain ⟨rfl, hcopied, m, hfront, hbytes⟩ := hok
    obtain ⟨rest, rfl, hlen, hspan, hheader, -, -⟩ := h.front hfront.1
    dsimp only
    split
    · rename_i hmore
      obtain ⟨byte, hbyte⟩ :
          ∃ byte, (header (BitVec.ofNat 32 m.length))[copied.length]? = some byte :=
        ⟨_, List.getElem?_eq_getElem hmore⟩
      rw [cell_eq h.capacity h.mask hmore (by omega), hheader.cell hbyte]
      refine h.setConsumer ⟨rfl, ?_, m, hfront, take_next hbytes hbyte⟩
      rw [List.length_append, List.length_singleton]
      exact hmore
    · rename_i hdone
      refine h.setConsumer ⟨rfl, m, hfront, ?_⟩
      rw [hbytes, List.take_of_length_le (by rw [length_header]; omega), headerSize_header]
  | asserting out read write size =>
    rw [hphase] at hok
    obtain ⟨rfl, m, ⟨hhead, p, rfl, hframe, hpw⟩, rfl⟩ := hok
    obtain ⟨rest, rfl, hlen, hspan, -⟩ := h.front hhead
    have htoNat : (BitVec.ofNat 32 m.length).toNat = m.length := by
      rw [BitVec.toNat_ofNat, Nat.mod_eq_of_lt hlen]
    dsimp only
    split
    · -- the write cursor was loaded behind the whole frame
      rename_i hshort
      exfalso
      rw [BitVec.lt_def, toNat_sub_cursor (by omega) (by omega), need_eq hlen,
        BitVec.toNat_ofNat, Nat.mod_eq_of_lt (by unfold kHeader; omega)] at hshort
      omega
    · split
      · rename_i hout
        exact h.setConsumer ⟨m, hhead, htoNat ▸ hout⟩
      · exact h.setConsumer ⟨rfl, m, hhead, rfl, Nat.zero_le _, rfl⟩
  | copyingPayload read size copied =>
    rw [hphase] at hok
    obtain ⟨rfl, m, hhead, rfl, hcopied, hbytes⟩ := hok
    obtain ⟨rest, rfl, hlen, hspan, -, hpayload, -⟩ := h.front hhead
    have htoNat : (BitVec.ofNat 32 m.length).toNat = m.length := by
      rw [BitVec.toNat_ofNat, Nat.mod_eq_of_lt hlen]
    dsimp only
    rw [htoNat]
    split
    · rename_i hmore
      obtain ⟨byte, hbyte⟩ : ∃ byte, m[copied.length]? = some byte :=
        ⟨_, List.getElem?_eq_getElem hmore⟩
      rw [cursor_add, cell_eq h.capacity h.mask hmore (by omega), hpayload.cell hbyte]
      refine h.setConsumer ⟨rfl, m, hhead, rfl, ?_, take_next hbytes hbyte⟩
      rw [List.length_append, List.length_singleton]
      exact hmore
    · rename_i hdone
      have hwhole : copied = m := by rw [hbytes, List.take_of_length_le (by omega)]
      refine h.setConsumer ⟨hwhole ▸ hhead, ?_⟩
      rw [need_eq hlen, cursor_add, hwhole]
  | storing newRead payload =>
    rw [hphase] at hok
    obtain ⟨hhead, rfl⟩ := hok
    obtain ⟨rest, rfl, hlen, hspan, -, -, hrest⟩ := h.front hhead
    have hpopped : span (s.popped ++ [payload]) = span s.popped + (kHeader + payload.length) := by
      rw [span_append, span_singleton]
    have hgrows : span s.popped ≤ span (s.popped ++ [payload]) := hpopped ▸ Nat.le_add_right _ _
    dsimp only
    exact ⟨rest, staged, {h with
      log := by rw [h.log, List.append_assoc, List.singleton_append]
      short := fun m hm => h.short m (List.mem_cons_of_mem _ hm)
      read := by rw [hpopped]
      room := Nat.le_trans hroom (Nat.add_le_add_right hgrows _)
      holds := by
        rw [hpopped]
        exact hrest
      producer := h.producer.mono hgrows
      consumer := trivial}⟩
  | corrupted =>
    rw [hphase] at hok
    exact hok.elim
  | tooSmall out => exact ⟨unread, staged, h⟩

theorem Inv.step (h : Inv N s unread staged) {event : Event} {s' : Interleaving} {o : Unit}
    (hadmits : Admits event) (hstep : s.step event = some (s', o)) : Sound N s' := by
  have hproducer := h.producer
  cases event with
  | push data =>
    cases hphase : s.producer <;> simp only [Interleaving.step, hphase, reduceCtorEq] at hstep
    obtain ⟨rfl, -⟩ := Prod.mk.inj (Option.some.inj hstep)
    rw [hphase] at hproducer
    exact h.setProducer ⟨hproducer, hadmits⟩
  | producer =>
    obtain ⟨rfl, -⟩ := Prod.mk.inj (Option.some.inj hstep)
    exact h.producerStep
  | pop out =>
    cases hphase : s.consumer <;> simp only [Interleaving.step, hphase, reduceCtorEq] at hstep
    obtain ⟨rfl, -⟩ := Prod.mk.inj (Option.some.inj hstep)
    exact h.setConsumer trivial
  | consumer =>
    obtain ⟨rfl, -⟩ := Prod.mk.inj (Option.some.inj hstep)
    exact h.consumerStep

theorem Reached.sound {buffer : Nat → Byte}
    (h : Reached { capacity := N.word, mask := N.word - 1, buffer := buffer } s) : Sound N s := by
  refine Transition.Reachable.invariant ?_ h (sound_init N buffer)
  rintro _ _ _ _ ⟨_, _, hs⟩ hadmits hstep
  exact hs.step hadmits hstep

/-! ### Delivery -/

/-- The byte that the next step of the producer writes. -/
def target (s : Interleaving) : Option Nat :=
  match s.producer with
  | .copyingHeader _ write copied =>
    if copied < kHeader then some (s.queue.cell write kHeader copied) else none
  | .copyingPayload data write copied =>
    if copied < data.length then some (s.queue.cell (write + cursor kHeader) data.length copied)
    else none
  | _ => none

structure Intact (s : Interleaving) : Prop where
  /-- Payloads are returned as they were accepted, in order, none left out and none twice. -/
  ordered : s.popped <+: s.pushed
  bounded : (s.queue.write - s.queue.read).toNat ≤ s.queue.capacity.toNat
  /-- The assertion that the queue is not corrupted never fails. -/
  framed : s.consumer ≠ .corrupted
  /-- The assertion on the destination only fails if the front message is larger. -/
  fits : ∀ out, s.consumer = .tooSmall out →
    ∃ m, s.pushed[s.popped.length]? = some m ∧ out < m.length
  /-- The producer writes inside the buffer and only bytes that the consumer released. -/
  kept : ∀ cell, s.target = some cell → cell < s.queue.capacity.toNat ∧
    ∀ i < (s.queue.write - s.queue.read).toNat,
      cell ≠ ((s.queue.read + cursor i) &&& s.queue.mask).toNat

theorem Inv.size (h : Inv N s unread staged) :
    (s.queue.write - s.queue.read).toNat = span s.pushed - span s.popped := by
  have := N.size_le
  have := h.room
  have := h.span_pushed
  rw [h.read, h.write, toNat_sub_cursor (by omega) (by omega)]

/-- The producer writes behind everything that is pushed, less than a turn of the ring
behind what is released. -/
theorem Inv.target (h : Inv N s unread staged) {cell : Nat} (htarget : s.target = some cell) :
    ∃ p, cell = p % N.size ∧ span s.pushed ≤ p ∧ p < span s.popped + N.size := by
  have hok := h.producer
  have hspan := h.span_pushed
  unfold Interleaving.target at htarget
  split at htarget
  · rename_i data write copied hphase
    rw [hphase] at hok
    obtain ⟨-, -, -, rfl, hfits⟩ := hok
    split at htarget
    · rename_i hmore
      rw [cell_eq h.capacity h.mask hmore (by omega)] at htarget
      exact ⟨_, (Option.some.inj htarget).symm, by omega, by omega⟩
    · cases htarget
  · rename_i data write copied hphase
    rw [hphase] at hok
    obtain ⟨-, -, -, rfl, hfits⟩ := hok
    split at htarget
    · rename_i hmore
      rw [cursor_add, cell_eq h.capacity h.mask hmore (by omega)] at htarget
      exact ⟨_, (Option.some.inj htarget).symm, by omega, by omega⟩
    · cases htarget
  · cases htarget

theorem Inv.intact (h : Inv N s unread staged) : Intact s := by
  have hspan := h.span_pushed
  have hroom := h.room
  constructor
  · exact ⟨unread, h.log.symm⟩
  · rw [h.size, h.capacity, N.word_toNat]
    omega
  · intro hphase
    have hok := h.consumer
    rw [hphase] at hok
    exact hok
  · intro out hphase
    have hok := h.consumer
    rw [hphase] at hok
    obtain ⟨m, hhead, hout⟩ := hok
    refine ⟨m, ?_, hout⟩
    rw [h.log, List.getElem?_append_right (Nat.le_refl _), Nat.sub_self, ← List.head?_eq_getElem?,
      hhead]
  · intro cell htarget
    obtain ⟨p, rfl, hbehind, hturn⟩ := h.target htarget
    rw [h.size, h.capacity, N.word_toNat, h.read, h.mask]
    refine ⟨Nat.mod_lt _ N.size_pos, fun i hi => ?_⟩
    rw [cursor_add, N.mask_cursor]
    exact (mod_ne (by omega) (by omega)).symm

/-- Every requested capacity up to `2 ^ 63` yields a queue, and between any two steps of any
interleaving of a producer and a consumer on it the messages are intact. -/
theorem delivers_intact {capacityBytes : Word} (hrequested : capacityBytes.toNat ≤ 2 ^ 63) :
    ∃ q, create capacityBytes = some q ∧ ∀ s, Reached q s → Intact s := by
  obtain ⟨N, hN⟩ := create_eq hrequested
  refine ⟨_, hN, fun s hreached => ?_⟩
  obtain ⟨unread, staged, h⟩ := hreached.sound
  exact h.intact

/-- Pushes overlap pops, the third frame crosses the end of the ring and a fourth is being
copied behind it. -/
theorem delivers_intact_across : ∃ q s, create 12 = some q ∧ Reached q s ∧
    s.pushed = [[1, 2, 3, 4], [5, 6], [7, 8]] ∧ s.popped = [[1, 2, 3, 4], [5, 6], [7, 8]] ∧
    s.queue.write.toNat = 20 ∧ s.producer = .copyingPayload [9] 20 1 ∧ Intact s := by
  obtain ⟨q, hq, hintact⟩ := @delivers_intact 12 (by decide)
  have hfresh : create 12 = some {capacity := 16, mask := 15, buffer := fun _ => 0} := rfl
  obtain rfl := Option.some.inj (hq.symm.trans hfresh)
  have hend : (Transition.run (Transition.guarded step fun _ => Admits)
      {queue := {capacity := 16, mask := 15, buffer := fun _ => 0}}
      (.push [1, 2, 3, 4] :: List.replicate 14 .producer ++
        .pop 4 :: .push [5, 6] :: (List.replicate 15 [.producer, .consumer]).flatten ++
        .pop 2 :: .push [7, 8] :: (List.replicate 13 [.consumer, .producer]).flatten ++
        .pop 2 :: .push [9] :: (List.replicate 9 [.consumer, .producer]).flatten ++
        List.replicate 4 .consumer)).map
        (fun s => (s.pushed, s.popped, s.queue.write.toNat, s.producer)) =
      some ([[1, 2, 3, 4], [5, 6], [7, 8]], [[1, 2, 3, 4], [5, 6], [7, 8]], 20,
        .copyingPayload [9] 20 1) := by decide +kernel
  obtain ⟨s, hrun, hs⟩ := Option.map_eq_some_iff.mp hend
  simp only [Prod.mk.injEq] at hs
  obtain ⟨hpushed, hpopped, hwrite, hproducer⟩ := hs
  have hreached : Reached {capacity := 16, mask := 15, buffer := fun _ => 0} s :=
    .of_guarded _ hrun
  exact ⟨_, s, hq, hreached, hpushed, hpopped, hwrite, hproducer, hintact s hreached⟩

end Interleaving

end FastQueue

end ExchangeEngine
