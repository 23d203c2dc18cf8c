import ExchangeEngine.ConcurrentQueue.SpscFifo

/-!
One producer and one consumer on an `spsc_queue`, step by step. A step is one load
or store of a shared cursor, one access to a slot, or one update of a party's own
cursor or of its copy of the other's; the steps of the two parties interleave in
any order. What was pushed and what was taken is recorded on the side. A read from
raw storage and a failed assertion are states of their own.

Ranges are constructed and read slot by slot, as in the branches for types that are not
trivially copyable. The branches that copy move the cursors alike but put other elements
into the slots, so for those types only what is said of the cursors carries over.
-/

namespace ExchangeEngine

open Cyclic

/-- An element type whose ranges are pushed and popped slot by slot. -/
structure ElementWise extends ElementType where
  elementWise : triviallyCopyable = false

namespace SpscQueue

variable {T : Type}

/-! ### The parties -/

/-- Where the producer stands in a push of a range. `try_emplace` pushes a range of one
element and, in debug builds, asserts that a slot is free. -/
inductive ProducerPhase (T : Type) where
  | idle
  | checking (single : Bool) (range : List T)
  | loading (single : Bool) (range : List T)
  | caching (single : Bool) (range : List T) (loaded : Word)
  | rechecking (single : Bool) (range : List T)
  | assertingWrite (range : List T)
  | assertingRead (range : List T) (loaded : Word)
  | constructing (range : List T) (pos : Word) (rest : List T)
  | publishing (range : List T) (newWrite : Word)
  | storing (range : List T) (newWrite : Word)
  | failed

/-- A call of the consumer. Both overloads of `try_dequeue` access the queue alike, and
batches are popped element by element. -/
inductive Pop where
  | tryDequeue
  | tryDequeueRange (size : Nat)
  | consumeUpTo (limit : Nat)
  | consumeAll
  deriving DecidableEq, Repr

inductive ConsumerPhase where
  | idle
  | checking (call : Pop)
  | loading (call : Pop)
  | caching (call : Pop) (loaded : Word)
  | deciding (call : Pop)
  | assertingWrite
  | assertingRead (loaded : Word)
  | reading (pos : Word) (count : Nat)
  | destroying (pos : Word) (count : Nat)
  | loadingEnd
  | discarding (pos writeEnd : Word)
  | cachingEnd (writeEnd : Word)
  | publishing (newRead : Word)
  | storing (newRead : Word)
  | failed
  deriving DecidableEq, Repr

structure Interleaving (T : Type) where
  queue : SpscQueue T := {}
  producer : ProducerPhase T := .idle
  consumer : ConsumerPhase := .idle
  pushed : List T := []
  taken : List T := []

namespace Interleaving

/-- What follows a successful check for room. -/
def enter (debug : Bool) (q : SpscQueue T) (single : Bool) (range : List T) : ProducerPhase T :=
  if single && debug then .assertingWrite range
  else .constructing range q.writePositionLocal range

/-- The next step of the producer inside its call. -/
def producerStep (N : Capacity) (debug : Bool) (s : Interleaving T) : Interleaving T :=
  let q := s.queue
  match s.producer with
  | .idle => s
  | .checking single range =>
    if (q.freeSlots N).toNat < range.length then {s with producer := .loading single range}
    else {s with producer := enter debug q single range}
  | .loading single range => {s with producer := .caching single range q.readPosition}
  | .caching single range loaded =>
    {s with queue := {q with readPositionCache := loaded}, producer := .rechecking single range}
  | .rechecking single range =>
    if range.length ≤ (q.freeSlots N).toNat then {s with producer := enter debug q single range}
    else {s with producer := .idle}
  | .assertingWrite range => {s with producer := .assertingRead range q.writePosition}
  | .assertingRead range loaded =>
    if loaded - q.readPosition = N.word then {s with producer := .failed}
    else {s with producer := .constructing range q.writePositionLocal range}
  | .constructing range pos (x :: rest) =>
    {s with
      queue := {q with storage := constructAt N q.storage pos x}
      producer := .constructing range (pos + 1) rest}
  | .constructing range _ [] =>
    {s with producer := .publishing range (q.writePositionLocal + cursor range.length)}
  | .publishing range newWrite =>
    {s with
      queue := {q with writePositionLocal := newWrite}
      producer := .storing range newWrite}
  | .storing range newWrite =>
    {s with
      queue := {q with writePosition := newWrite}
      producer := .idle
      pushed := s.pushed ++ range}
  | .failed => s

/-- What a call does once it knows how many elements are available. -/
def afterReadable (debug : Bool) (oldRead available : Word) : Pop → ConsumerPhase
  | .tryDequeue =>
    if available = 0 then .idle else if debug then .assertingWrite else .reading oldRead 1
  | .tryDequeueRange size =>
    if available = 0 then .idle else .reading oldRead (min available.toNat size)
  | .consumeUpTo limit =>
    if available = 0 then .idle else .reading oldRead (min limit available.toNat)
  | .consumeAll => .reading oldRead available.toNat

/-- The next step of the consumer inside its call. The loop of `destroy_range` is empty for
a trivially destructible type; its steps then only record what is discarded. -/
def consumerStep (N : Capacity) (type : ElementType) (debug : Bool) (s : Interleaving T) :
    Interleaving T :=
  let q := s.queue
  match s.consumer with
  | .idle => s
  | .checking call =>
    if q.readPositionLocal = q.writePositionCache then {s with consumer := .loading call}
    else {s with consumer := .deciding call}
  | .loading call => {s with consumer := .caching call q.writePosition}
  | .caching call loaded =>
    {s with queue := {q with writePositionCache := loaded}, consumer := .deciding call}
  | .deciding call =>
    {s with
      consumer :=
        afterReadable debug q.readPositionLocal (q.writePositionCache - q.readPositionLocal) call}
  | .assertingWrite => {s with consumer := .assertingRead q.writePosition}
  | .assertingRead loaded =>
    if loaded - q.readPosition = 0 then {s with consumer := .failed}
    else {s with consumer := .reading q.readPositionLocal 1}
  | .reading pos 0 => {s with consumer := .publishing pos}
  | .reading pos (count + 1) =>
    match q.storage (calculateIndex N pos) with
    | none => {s with consumer := .failed}
    | some x => {s with consumer := .destroying pos count, taken := s.taken ++ [x]}
  | .destroying pos count =>
    {s with
      queue := {q with storage := destroyAt N q.storage pos}
      consumer := .reading (pos + 1) count}
  | .loadingEnd => {s with consumer := .discarding q.readPositionLocal q.writePosition}
  | .discarding pos writeEnd =>
    if pos = writeEnd then {s with consumer := .cachingEnd writeEnd}
    else
      match q.storage (calculateIndex N pos) with
      | none => {s with consumer := .failed}
      | some x =>
        let storage := if type.triviallyDestructible then q.storage else destroyAt N q.storage pos
        {s with
          queue := {q with storage}
          consumer := .discarding (pos + 1) writeEnd
          taken := s.taken ++ [x]}
  | .cachingEnd writeEnd =>
    {s with queue := {q with writePositionCache := writeEnd}, consumer := .publishing writeEnd}
  | .publishing newRead =>
    {s with queue := {q with readPositionLocal := newRead}, consumer := .storing newRead}
  | .storing newRead => {s with queue := {q with readPosition := newRead}, consumer := .idle}
  | .failed => s

/-- Which party moves. An idle party can start a call. -/
inductive Event (T : Type) where
  | tryEmplace (x : T)
  | tryEmplaceRange (range : List T)
  | producer
  | pop (call : Pop)
  | clear
  | consumer

def step (N : Capacity) (type : ElementType) (debug : Bool) (s : Interleaving T) :
    Event T → Option (Interleaving T × Unit)
  | .tryEmplace x =>
    match s.producer with
    | .idle => some ({s with producer := .checking true [x]}, ())
    | _ => none
  | .tryEmplaceRange range =>
    match s.producer with
    | .idle => some ({s with producer := .checking false range}, ())
    | _ => none
  | .producer => some (s.producerStep N debug, ())
  | .pop call =>
    match s.consumer with
    | .idle => some ({s with consumer := .checking call}, ())
    | _ => none
  | .clear =>
    match s.consumer with
    | .idle => some ({s with consumer := .loadingEnd}, ())
    | _ => none
  | .consumer => some (s.consumerStep N type debug, ())

/-- Reached by some interleaving, from an empty queue. -/
def Reached (N : Capacity) (type : ElementType) (debug : Bool) (s : Interleaving T) : Prop :=
  Transition.Reachable (step N type debug) (fun _ _ => True) {} s

/-! ### What holds between any two steps -/

/-- What the producer knows in each phase. `w` elements are pushed, `rp` slots are
released, the cached read cursor stands for `rc`, and the elements `staged` are
constructed behind the pushed ones. -/
def ProducerOk (N : Capacity) (writeLocal : Word) (w rp rc : Nat) (staged : List T) :
    ProducerPhase T → Prop
  | .idle => staged = [] ∧ writeLocal = cursor w
  | .checking single range | .loading single range | .rechecking single range =>
    staged = [] ∧ writeLocal = cursor w ∧ (single = true → range ≠ [])
  | .caching single range loaded =>
    staged = [] ∧ writeLocal = cursor w ∧ (single = true → range ≠ []) ∧
      ∃ p, loaded = cursor p ∧ rc ≤ p ∧ p ≤ rp
  | .assertingWrite range =>
    staged = [] ∧ writeLocal = cursor w ∧ range ≠ [] ∧ w + range.length ≤ rc + N.size
  | .assertingRead range loaded =>
    staged = [] ∧ writeLocal = cursor w ∧ range ≠ [] ∧ w + range.length ≤ rc + N.size ∧
      loaded = cursor w
  | .constructing range pos rest =>
    range = staged ++ rest ∧ writeLocal = cursor w ∧ pos = cursor (w + staged.length) ∧
      w + range.length ≤ rc + N.size
  | .publishing range newWrite =>
    range = staged ∧ writeLocal = cursor w ∧ newWrite = cursor (w + range.length)
  | .storing range newWrite =>
    range = staged ∧ writeLocal = cursor (w + range.length) ∧ newWrite = cursor (w + range.length)
  | .failed => False

/-- What the consumer knows in each phase. `t` elements are taken, `rp` slots are
released, `w` elements are pushed and the cached write cursor stands for `wc`. -/
def ConsumerOk (readLocal : Word) (t rp w wc : Nat) : ConsumerPhase → Prop
  | .idle | .checking _ | .loading _ | .deciding _ | .loadingEnd =>
    readLocal = cursor t ∧ rp = t ∧ t ≤ wc
  | .caching _ loaded =>
    readLocal = cursor t ∧ rp = t ∧ t ≤ wc ∧ ∃ p, loaded = cursor p ∧ wc ≤ p ∧ p ≤ w
  | .assertingWrite => readLocal = cursor t ∧ rp = t ∧ t < wc
  | .assertingRead loaded =>
    readLocal = cursor t ∧ rp = t ∧ t < wc ∧ ∃ p, loaded = cursor p ∧ wc ≤ p ∧ p ≤ w
  | .reading pos count => readLocal = cursor rp ∧ pos = cursor t ∧ t + count ≤ wc
  | .destroying pos count =>
    readLocal = cursor rp ∧ t + count ≤ wc ∧ ∃ p, pos = cursor p ∧ t = p + 1 ∧ rp ≤ p
  | .discarding pos writeEnd =>
    readLocal = cursor rp ∧ pos = cursor t ∧ ∃ p, writeEnd = cursor p ∧ t ≤ p ∧ wc ≤ p ∧ p ≤ w
  | .cachingEnd writeEnd => readLocal = cursor rp ∧ writeEnd = cursor t ∧ wc ≤ t
  | .publishing newRead => readLocal = cursor rp ∧ newRead = cursor t ∧ t ≤ wc
  | .storing newRead => readLocal = cursor t ∧ newRead = cursor t ∧ t ≤ wc
  | .failed => False

/-- The taken elements are a prefix of the pushed ones, and behind it the ring holds those
that are not taken yet and those that are not pushed yet. -/
structure Inv (N : Capacity) (s : Interleaving T) (rp rc wc : Nat) (unread staged : List T) :
    Prop where
  log : s.pushed = s.taken ++ unread
  readPosition : s.queue.readPosition = cursor rp
  writePosition : s.queue.writePosition = cursor s.pushed.length
  readPositionCache : s.queue.readPositionCache = cursor rc
  writePositionCache : s.queue.writePositionCache = cursor wc
  rc_le : rc ≤ rp
  rp_le : rp ≤ s.taken.length
  wc_le : wc ≤ s.pushed.length
  room : s.pushed.length + staged.length ≤ rc + N.size
  holds : Holds N.size s.queue.storage s.taken.length ((unread ++ staged).map some)
  producer : ProducerOk N s.queue.writePositionLocal s.pushed.length rp rc staged s.producer
  consumer : ConsumerOk s.queue.readPositionLocal s.taken.length rp s.pushed.length wc s.consumer

/-- A state in which the invariant holds for some counts. -/
def Sound (N : Capacity) (s : Interleaving T) : Prop :=
  ∃ rp rc wc unread staged, Inv N s rp rc wc unread staged

theorem sound_init (N : Capacity) : Sound N ({} : Interleaving T) :=
  ⟨0, 0, 0, [], [], rfl, rfl, rfl, rfl, rfl, Nat.le_refl _, Nat.le_refl _, Nat.le_refl _,
    Nat.zero_le _, rfl, ⟨rfl, rfl⟩, rfl, rfl, Nat.le_refl _⟩

variable {N : Capacity} {type : ElementType} {debug : Bool} {s : Interleaving T}
  {rp rc wc : Nat} {unread staged : List T}

theorem Inv.length_pushed (h : Inv N s rp rc wc unread staged) :
    s.pushed.length = s.taken.length + unread.length := by
  rw [h.log, List.length_append]

theorem Inv.setProducer (h : Inv N s rp rc wc unread staged) {phase : ProducerPhase T}
    (hok : ProducerOk N s.queue.writePositionLocal s.pushed.length rp rc staged phase) :
    Sound N {s with producer := phase} :=
  ⟨rp, rc, wc, unread, staged, {h with producer := hok}⟩

theorem Inv.setConsumer (h : Inv N s rp rc wc unread staged) {phase : ConsumerPhase}
    (hok : ConsumerOk s.queue.readPositionLocal s.taken.length rp s.pushed.length wc phase) :
    Sound N {s with consumer := phase} :=
  ⟨rp, rc, wc, unread, staged, {h with consumer := hok}⟩

/-- With nothing staged, the free slots the producer sees are those of its cached cursor. -/
theorem Inv.freeSlots (h : Inv N s rp rc wc unread [])
    (hlocal : s.queue.writePositionLocal = cursor s.pushed.length) :
    (s.queue.freeSlots N).toNat = rc + N.size - s.pushed.length := by
  have hrp := h.rp_le
  have hrc := h.rc_le
  have hlen := h.length_pushed
  rw [SpscQueue.freeSlots, hlocal, h.readPositionCache]
  exact N.free_cursor (by omega) h.room

/-- Once there is room, the producer goes on to construct its range. -/
theorem enter_ok {q : SpscQueue T} {single : Bool} {range : List T} {w : Nat}
    (hlocal : q.writePositionLocal = cursor w) (hsingle : single = true → range ≠ [])
    (hroom : w + range.length ≤ rc + N.size) :
    ProducerOk N q.writePositionLocal w rp rc [] (enter debug q single range) := by
  unfold enter
  split
  · rename_i hassert
    exact ⟨rfl, hlocal, hsingle (Bool.and_elim_left hassert), hroom⟩
  · exact ⟨rfl, hlocal, hlocal, hroom⟩

/-- The consumer only relies on how many elements are pushed at least. -/
theorem ConsumerOk.mono {readLocal : Word} {t w w' : Nat} {phase : ConsumerPhase}
    (h : ConsumerOk readLocal t rp w wc phase) (hle : w ≤ w') :
    ConsumerOk readLocal t rp w' wc phase := by
  cases phase with
  | caching call loaded =>
    obtain ⟨hlocal, hrp, hwc, p, hloaded, hcp, hpw⟩ := h
    exact ⟨hlocal, hrp, hwc, p, hloaded, hcp, Nat.le_trans hpw hle⟩
  | assertingRead loaded =>
    obtain ⟨hlocal, hrp, hwc, p, hloaded, hcp, hpw⟩ := h
    exact ⟨hlocal, hrp, hwc, p, hloaded, hcp, Nat.le_trans hpw hle⟩
  | discarding pos writeEnd =>
    obtain ⟨hlocal, hpos, p, hend, htp, hcp, hpw⟩ := h
    exact ⟨hlocal, hpos, p, hend, htp, hcp, Nat.le_trans hpw hle⟩
  | _ => exact h

/-- The producer only relies on how many slots are released at least. -/
theorem ProducerOk.mono {writeLocal : Word} {w rp' : Nat} {phase : ProducerPhase T}
    (h : ProducerOk N writeLocal w rp rc staged phase) (hle : rp ≤ rp') :
    ProducerOk N writeLocal w rp' rc staged phase := by
  cases phase with
  | caching single range loaded =>
    obtain ⟨hstaged, hlocal, hsingle, p, hloaded, hcp, hpr⟩ := h
    exact ⟨hstaged, hlocal, hsingle, p, hloaded, hcp, Nat.le_trans hpr hle⟩
  | _ => exact h

theorem Inv.producerStep (h : Inv N s rp rc wc unread staged) :
    Sound N (s.producerStep N debug) := by
  have hsize := N.size_le
  have hok := h.producer
  have hroom := h.room
  have hrc := h.rc_le
  have hrp := h.rp_le
  have hlen := h.length_pushed
  unfold Interleaving.producerStep
  cases hphase : s.producer with
  | idle => exact ⟨rp, rc, wc, unread, staged, h⟩
  | checking single range =>
    rw [hphase] at hok
    obtain ⟨rfl, hlocal, hsingle⟩ := hok
    have hfree := h.freeSlots hlocal
    dsimp only
    split
    · exact h.setProducer ⟨rfl, hlocal, hsingle⟩
    · exact h.setProducer (enter_ok hlocal hsingle (by omega))
  | loading single range =>
    rw [hphase] at hok
    obtain ⟨rfl, hlocal, hsingle⟩ := hok
    exact h.setProducer ⟨rfl, hlocal, hsingle, rp, h.readPosition, hrc, Nat.le_refl _⟩
  | caching single range loaded =>
    rw [hphase] at hok
    obtain ⟨rfl, hlocal, hsingle, p, rfl, hcp, hpr⟩ := hok
    exact ⟨rp, p, wc, unread, [], {h with
      readPositionCache := rfl, rc_le := hpr,
      room := Nat.le_trans hroom (Nat.add_le_add_right hcp _),
      producer := ⟨rfl, hlocal, hsingle⟩}⟩
  | rechecking single range =>
    rw [hphase] at hok
    obtain ⟨rfl, hlocal, hsingle⟩ := hok
    have hfree := h.freeSlots hlocal
    dsimp only
    split
    · exact h.setProducer (enter_ok hlocal hsingle (by simp at hroom; omega))
    · exact h.setProducer ⟨rfl, hlocal⟩
  | assertingWrite range =>
    rw [hphase] at hok
    obtain ⟨rfl, hlocal, hrange, hfits⟩ := hok
    exact h.setProducer ⟨rfl, hlocal, hrange, hfits, h.writePosition⟩
  | assertingRead range loaded =>
    rw [hphase] at hok
    obtain ⟨rfl, hlocal, hrange, hfits, rfl⟩ := hok
    dsimp only
    split
    · -- the queue would be full although there is room for the range
      rename_i hfull
      exfalso
      have hpos := List.length_pos_iff.mpr hrange
      rw [h.readPosition, ← BitVec.toNat_inj, toNat_sub_cursor (by omega) (by omega),
        N.word_toNat] at hfull
      omega
    · exact h.setProducer ⟨rfl, hlocal, hlocal, hfits⟩
  | constructing range pos rest =>
    rw [hphase] at hok
    obtain ⟨rfl, hlocal, rfl, hfits⟩ := hok
    cases rest with
    | nil =>
      refine h.setProducer ⟨by simp, hlocal, ?_⟩
      rw [hlocal, cursor_add]
    | cons x rest =>
      rw [List.length_append, List.length_cons] at hfits
      have hpos : s.pushed.length + staged.length =
          s.taken.length + ((unread ++ staged).map some).length := by
        simp
        omega
      have hgrown := h.holds.append_put [some x] (by simp; omega)
      rw [← hpos] at hgrown
      refine ⟨rp, rc, wc, unread, staged ++ [x], {h with
        room := by simp; omega, holds := ?_, producer := ?_}⟩
      · simpa [constructAt, Cyclic.put] using hgrown
      · refine ⟨by simp, hlocal, ?_, by simpa using hfits⟩
        rw [cursor_succ, List.length_append, List.length_singleton, Nat.add_assoc]
  | publishing range newWrite =>
    rw [hphase] at hok
    obtain ⟨rfl, hlocal, rfl⟩ := hok
    exact ⟨rp, rc, wc, unread, range, {h with producer := ⟨rfl, rfl, rfl⟩}⟩
  | storing range newWrite =>
    rw [hphase] at hok
    obtain ⟨rfl, hlocal, rfl⟩ := hok
    have hlength : (s.pushed ++ range).length = s.pushed.length + range.length :=
      List.length_append
    exact ⟨rp, rc, wc, unread ++ range, [], {h with
      log := by simp [h.log]
      writePosition := by rw [hlength]
      wc_le := by
        have := h.wc_le
        simp
        omega
      room := by simpa using hroom
      holds := by simpa using h.holds
      producer := ⟨rfl, by rw [hlength]; exact hlocal⟩
      consumer := h.consumer.mono (by simp)}⟩
  | failed =>
    rw [hphase] at hok
    exact hok.elim

/-- The slot at the taken count holds the next element, as long as something is unread. -/
theorem Inv.next_unread (h : Inv N s rp rc wc unread staged)
    (hlt : s.taken.length < s.pushed.length) :
    ∃ x rest, unread = x :: rest ∧
      s.queue.storage (calculateIndex N (cursor s.taken.length)) = some x ∧
      Holds N.size s.queue.storage (s.taken.length + 1) ((rest ++ staged).map some) := by
  have hlen := h.length_pushed
  have hholds := h.holds
  rcases unread with _ | ⟨x, rest⟩
  · simp at hlen
    omega
  · rw [List.cons_append, List.map_cons, holds_cons] at hholds
    exact ⟨x, rest, rfl, by rw [calculateIndex_cursor, hholds.1], hholds.2⟩

theorem afterReadable_ok {oldRead available : Word} {t w : Nat} (call : Pop)
    (hread : oldRead = cursor t)
    (havailable : available.toNat = wc - t) (hle : t ≤ wc) :
    ConsumerOk oldRead t t w wc (afterReadable debug oldRead available call) := by
  have hsome : available ≠ 0 → t < wc := by
    intro hne
    have : available.toNat ≠ 0 := fun hzero => hne (BitVec.toNat_inj.mp hzero)
    omega
  cases call with
  | tryDequeue =>
    dsimp only [afterReadable]
    split
    · exact ⟨hread, rfl, hle⟩
    · rename_i hne
      split
      · exact ⟨hread, rfl, hsome hne⟩
      · exact ⟨hread, hread, hsome hne⟩
  | tryDequeueRange size =>
    dsimp only [afterReadable]
    split
    · exact ⟨hread, rfl, hle⟩
    · exact ⟨hread, hread, by omega⟩
  | consumeUpTo limit =>
    dsimp only [afterReadable]
    split
    · exact ⟨hread, rfl, hle⟩
    · exact ⟨hread, hread, by omega⟩
  | consumeAll => exact ⟨hread, hread, by omega⟩

theorem Inv.consumerStep (h : Inv N s rp rc wc unread staged) :
    Sound N (s.consumerStep N type debug) := by
  have hsize := N.size_le
  have hok := h.consumer
  have hroom := h.room
  have hrc := h.rc_le
  have hrp := h.rp_le
  have hwc := h.wc_le
  have hlen := h.length_pushed
  unfold Interleaving.consumerStep
  cases hphase : s.consumer with
  | idle => exact ⟨rp, rc, wc, unread, staged, h⟩
  | checking call =>
    rw [hphase] at hok
    dsimp only
    split
    · exact h.setConsumer hok
    · exact h.setConsumer hok
  | loading call =>
    rw [hphase] at hok
    obtain ⟨hlocal, rfl, hle⟩ := hok
    exact h.setConsumer ⟨hlocal, rfl, hle, _, h.writePosition, hwc, Nat.le_refl _⟩
  | caching call loaded =>
    rw [hphase] at hok
    obtain ⟨hlocal, rfl, hle, p, rfl, hcp, hpw⟩ := hok
    exact ⟨_, rc, p, unread, staged, {h with
      writePositionCache := rfl, wc_le := hpw,
      consumer := ⟨hlocal, rfl, Nat.le_trans hle hcp⟩}⟩
  | deciding call =>
    rw [hphase] at hok
    obtain ⟨hlocal, rfl, hle⟩ := hok
    refine h.setConsumer (afterReadable_ok call hlocal ?_ hle)
    rw [hlocal, h.writePositionCache, toNat_sub_cursor hle (by omega)]
  | assertingWrite =>
    rw [hphase] at hok
    obtain ⟨hlocal, rfl, hlt⟩ := hok
    exact h.setConsumer ⟨hlocal, rfl, hlt, _, h.writePosition, hwc, Nat.le_refl _⟩
  | assertingRead loaded =>
    rw [hphase] at hok
    obtain ⟨hlocal, rfl, hlt, p, rfl, hcp, hpw⟩ := hok
    dsimp only
    split
    · -- the queue would be empty although an element was seen
      rename_i hempty
      exfalso
      rw [h.readPosition, ← BitVec.toNat_inj, toNat_sub_cursor (by omega) (by omega)] at hempty
      exact absurd hempty (by show p - s.taken.length ≠ 0; omega)
    · exact h.setConsumer ⟨hlocal, hlocal, hlt⟩
  | reading pos count =>
    rw [hphase] at hok
    obtain ⟨hlocal, rfl, hseen⟩ := hok
    cases count with
    | zero => exact h.setConsumer ⟨hlocal, rfl, hseen⟩
    | succ count =>
      obtain ⟨x, rest, rfl, hcell, hrest⟩ := h.next_unread (by omega)
      dsimp only
      rw [hcell]
      exact ⟨rp, rc, wc, rest, staged, {h with
        log := by simp [h.log]
        rp_le := by simp; omega
        holds := by simpa using hrest
        consumer := ⟨hlocal, by simp; omega, _, rfl, by simp, hrp⟩}⟩
  | destroying pos count =>
    rw [hphase] at hok
    obtain ⟨hlocal, hseen, p, rfl, htaken, hrpp⟩ := hok
    have hholds := h.holds
    rw [htaken] at hholds
    refine ⟨rp, rc, wc, unread, staged, {h with
      holds := ?_, consumer := ⟨hlocal, by rw [cursor_succ, htaken], hseen⟩}⟩
    dsimp only
    rw [htaken, destroyAt, calculateIndex_cursor]
    exact hholds.update_front (by simp; omega)
  | loadingEnd =>
    rw [hphase] at hok
    obtain ⟨hlocal, rfl, hle⟩ := hok
    exact h.setConsumer ⟨hlocal, hlocal, _, h.writePosition, by omega, hwc, Nat.le_refl _⟩
  | discarding pos writeEnd =>
    rw [hphase] at hok
    obtain ⟨hlocal, rfl, p, rfl, htp, hcp, hpw⟩ := hok
    dsimp only
    split
    · rename_i hdone
      obtain rfl := (cursor_eq_iff htp (by omega)).mp hdone
      exact h.setConsumer ⟨hlocal, rfl, hcp⟩
    · rename_i hmore
      have hlt : s.taken.length < p := Nat.lt_of_le_of_ne htp fun heq => hmore (heq ▸ rfl)
      obtain ⟨x, rest, rfl, hcell, hrest⟩ := h.next_unread (by omega)
      rw [hcell]
      refine ⟨rp, rc, wc, rest, staged, {h with
        log := by simp [h.log]
        rp_le := by simp; omega
        holds := ?_
        consumer := ⟨hlocal, by rw [cursor_succ, List.length_append, List.length_singleton], p, rfl,
          by simp; omega, hcp, hpw⟩}⟩
      rw [List.length_append, List.length_singleton]
      dsimp only
      split
      · exact hrest
      · rw [destroyAt, calculateIndex_cursor]
        exact hrest.update_front (by simp at hlen ⊢; omega)
  | cachingEnd writeEnd =>
    rw [hphase] at hok
    obtain ⟨hlocal, rfl, hle⟩ := hok
    exact ⟨rp, rc, _, unread, staged, {h with
      writePositionCache := rfl, wc_le := by simp [h.log],
      consumer := ⟨hlocal, rfl, Nat.le_refl _⟩}⟩
  | publishing newRead =>
    rw [hphase] at hok
    obtain ⟨hlocal, rfl, hle⟩ := hok
    exact ⟨rp, rc, wc, unread, staged, {h with consumer := ⟨rfl, rfl, hle⟩}⟩
  | storing newRead =>
    rw [hphase] at hok
    obtain ⟨hlocal, rfl, hle⟩ := hok
    exact ⟨s.taken.length, rc, wc, unread, staged, {h with
      readPosition := rfl, rc_le := Nat.le_trans hrc hrp, rp_le := Nat.le_refl _,
      producer := h.producer.mono hrp, consumer := ⟨hlocal, rfl, hle⟩}⟩
  | failed =>
    rw [hphase] at hok
    exact hok.elim

theorem Inv.step (h : Inv N s rp rc wc unread staged) {event : Event T} {s' : Interleaving T}
    {o : Unit} (hstep : s.step N type debug event = some (s', o)) : Sound N s' := by
  have hproducer := h.producer
  have hconsumer := h.consumer
  cases event with
  | tryEmplace x =>
    cases hphase : s.producer <;> simp only [Interleaving.step, hphase, reduceCtorEq] at hstep
    obtain ⟨rfl, -⟩ := Prod.mk.inj (Option.some.inj hstep)
    rw [hphase] at hproducer
    exact h.setProducer ⟨hproducer.1, hproducer.2, fun _ => List.cons_ne_nil _ _⟩
  | tryEmplaceRange range =>
    cases hphase : s.producer <;> simp only [Interleaving.step, hphase, reduceCtorEq] at hstep
    obtain ⟨rfl, -⟩ := Prod.mk.inj (Option.some.inj hstep)
    rw [hphase] at hproducer
    exact h.setProducer ⟨hproducer.1, hproducer.2, by simp⟩
  | producer =>
    obtain ⟨rfl, -⟩ := Prod.mk.inj (Option.some.inj hstep)
    exact h.producerStep
  | pop call =>
    cases hphase : s.consumer <;> simp only [Interleaving.step, hphase, reduceCtorEq] at hstep
    obtain ⟨rfl, -⟩ := Prod.mk.inj (Option.some.inj hstep)
    rw [hphase] at hconsumer
    exact h.setConsumer hconsumer
  | clear =>
    cases hphase : s.consumer <;> simp only [Interleaving.step, hphase, reduceCtorEq] at hstep
    obtain ⟨rfl, -⟩ := Prod.mk.inj (Option.some.inj hstep)
    rw [hphase] at hconsumer
    exact h.setConsumer hconsumer
  | consumer =>
    obtain ⟨rfl, -⟩ := Prod.mk.inj (Option.some.inj hstep)
    exact h.consumerStep

theorem Reached.sound (h : Reached N type debug s) : Sound N s := by
  refine Transition.Reachable.invariant ?_ h (sound_init N)
  rintro _ _ _ _ ⟨_, _, _, _, _, hs⟩ - hstep
  exact hs.step hstep

/-! ### Losslessness -/

/-- The producer is about to construct an element in a slot between the shared cursors. -/
def Overwrites (N : Capacity) (s : Interleaving T) : Prop :=
  ∃ range pos x rest i, s.producer = .constructing range pos (x :: rest) ∧
    i < s.queue.size.toNat ∧
    calculateIndex N pos = calculateIndex N (s.queue.readPosition + cursor i)

structure Lossless (N : Capacity) (s : Interleaving T) : Prop where
  /-- Elements are taken in the order they were pushed in, none left out and none twice. -/
  ordered : s.taken <+: s.pushed
  /-- No assertion of the producer fails. -/
  producer : s.producer ≠ .failed
  /-- No assertion of the consumer fails, and it never reads raw storage. -/
  consumer : s.consumer ≠ .failed
  bounded : s.queue.size.toNat ≤ N.size
  kept : ¬ Overwrites N s
  /-- What was not taken is still there. -/
  contents : s.consumer = .idle → s.queue.contents N = s.pushed.drop s.taken.length

theorem Inv.size (h : Inv N s rp rc wc unread staged) :
    s.queue.size.toNat = s.pushed.length - rp := by
  have := N.size_le
  have := h.room
  have := h.rc_le
  have := h.rp_le
  have := h.length_pushed
  rw [SpscQueue.size, h.readPosition, h.writePosition, toNat_sub_cursor (by omega) (by omega)]

/-- The producer constructs behind everything that is not released yet, less than a turn
of the ring behind. -/
theorem Inv.not_overwrites (h : Inv N s rp rc wc unread staged) : ¬ Overwrites N s := by
  rintro ⟨range, pos, x, rest, i, hphase, hi, hsame⟩
  have hroom := h.room
  have hrc := h.rc_le
  have hok := h.producer
  rw [hphase] at hok
  obtain ⟨rfl, hlocal, rfl, hfits⟩ := hok
  rw [List.length_append, List.length_cons] at hfits
  rw [h.size] at hi
  rw [h.readPosition, cursor_add, calculateIndex_cursor, calculateIndex_cursor] at hsame
  exact mod_ne (by omega) (by omega) hsame.symm

/-- Between any two steps of any interleaving of a producer and a consumer the queue has
lost, duplicated, reordered and overwritten nothing. -/
theorem lossless (hreached : Reached N type debug s) : Lossless N s := by
  obtain ⟨rp, rc, wc, unread, staged, h⟩ := hreached.sound
  have hlen := h.length_pushed
  have hroom := h.room
  have hrc := h.rc_le
  have hrp := h.rp_le
  constructor
  · exact ⟨unread, h.log.symm⟩
  · intro hphase
    have hok := h.producer
    rw [hphase] at hok
    exact hok
  · intro hphase
    have hok := h.consumer
    rw [hphase] at hok
    exact hok
  · rw [h.size]
    omega
  · exact h.not_overwrites
  · intro hphase
    have hok := h.consumer
    rw [hphase] at hok
    obtain ⟨-, rfl, -⟩ := hok
    have hholds := h.holds
    rw [List.map_append, holds_append] at hholds
    rw [h.log, List.drop_left]
    exact contents_eq h.readPosition (hlen ▸ h.writePosition) (by omega) hholds.1

/-- A push and a pop whose steps alternate. -/
theorem lossless_alternating :
    ∃ s : Interleaving Nat, s.taken = [7] ∧ Lossless ⟨0, by decide⟩ s := by
  have hrun : ∃ s : Interleaving Nat,
      Reached ⟨0, by decide⟩ ⟨false, false, by decide⟩ true s ∧ s.taken = [7] :=
    ⟨_, .of_run [.tryEmplace 7, .producer, .producer, .producer, .producer, .producer, .producer,
      .pop .tryDequeue, .consumer, .producer, .consumer, .consumer, .consumer, .consumer,
      .consumer, .consumer] rfl, rfl⟩
  obtain ⟨s, hreached, htaken⟩ := hrun
  exact ⟨s, htaken, lossless hreached⟩

end Interleaving

end SpscQueue

end ExchangeEngine
