import ExchangeEngine.ConcurrentQueue.FastInterleaving
import ExchangeEngine.Library.ReleaseAcquire

/-!
The `FastQueue` with no more order than its loads and stores ask for. `try_push` and
`try_pop` load their own cursor relaxed, which gives what they stored last, and the other
one with acquire, which may give an older store. The bytes of the buffer are plain memory.
-/

namespace ExchangeEngine

open Cyclic ReleaseAcquire

namespace FastQueue

/-- The cursors of `base` hold what was stored last. -/
structure Weak where
  base : Interleaving
  producer : Agent Word := .fresh (cursor 0)
  consumer : Agent Word := .fresh (cursor 0)
  raced : Bool := false

namespace Weak

open Interleaving

/-- The byte that the next step of the consumer reads. -/
def source (s : Interleaving) : Option Nat :=
  match s.consumer with
  | .copyingHeader _ read _ copied =>
    if copied.length < kHeader then some (s.queue.cell read kHeader copied.length) else none
  | .copyingPayload read size copied =>
    if copied.length < size.toNat then
      some (s.queue.cell (read + cursor kHeader) size.toNat copied.length)
    else none
  | _ => none

def producerStep (s : Weak) (message : Nat) : Option Weak :=
  match s.base.producer with
  | .loadingRead data write => do
    let (position, own) ← s.producer.acquire s.consumer message
    some {s with
      base := {s.base with producer := .deciding data write position}, producer := own}
  | .storing _ newWrite =>
    some {s with base := s.base.producerStep, producer := s.producer.release newWrite}
  | _ =>
    match s.base.target with
    | some cell =>
      some {s with
        base := s.base.producerStep
        producer := s.producer.access cell
        raced := s.raced || decide (s.producer.Races s.consumer cell)}
    | none => some {s with base := s.base.producerStep}

def consumerStep (s : Weak) (message : Nat) : Option Weak :=
  match s.base.consumer with
  | .loadingWrite out read => do
    let (position, own) ← s.consumer.acquire s.producer message
    some {s with
      base := {s.base with consumer := .deciding out read position}, consumer := own}
  | .storing newRead _ =>
    some {s with base := s.base.consumerStep, consumer := s.consumer.release newRead}
  | _ =>
    match source s.base with
    | some cell =>
      some {s with
        base := s.base.consumerStep
        consumer := s.consumer.access cell
        raced := s.raced || decide (s.consumer.Races s.producer cell)}
    | none => some {s with base := s.base.consumerStep}

/-- Which party moves, and which store of the other it gets if it loads one. -/
def step (s : Weak) : Event × Nat → Option (Weak × Unit)
  | (.producer, message) => (s.producerStep message).map (·, ())
  | (.consumer, message) => (s.consumerStep message).map (·, ())
  | (call, _) => (s.base.step call).map fun next => ({s with base := next.1}, ())

/-- Reached by some execution on a fresh queue. -/
def Reached (q : FastQueue) (s : Weak) : Prop :=
  Transition.Reachable step (fun _ event => Admits event.1) {base := {queue := q}} s

/-! ### What holds between any two steps -/

/-- How far the producer has come with its frame. -/
def stagedLength : ProducerPhase → Nat
  | .copyingHeader _ _ copied => copied
  | .copyingPayload _ _ copied => kHeader + copied
  | .storing data _ => kHeader + data.length
  | _ => 0

/-- How far the consumer has come with the front frame. -/
def copiedLength : ConsumerPhase → Nat
  | .copyingHeader _ _ _ copied => copied.length
  | .asserting .. | .corrupted | .tooSmall _ => kHeader
  | .copyingPayload _ _ copied => kHeader + copied.length
  | .storing _ payload => kHeader + payload.length
  | _ => 0

/-- What the producer relies on, where it knows of `sr` released bytes. -/
def ProducerSees (N : Capacity) (w sr : Nat) : ProducerPhase → Prop
  | .deciding _ _ read => ∃ p, read = cursor p ∧ p ≤ sr ∧ w ≤ p + N.size
  | .copyingHeader data _ _ | .copyingPayload data _ _ | .storing data _ =>
    w + (kHeader + data.length) ≤ sr + N.size
  | _ => w ≤ sr + N.size

/-- What the consumer relies on, where it knows of `sw` pushed bytes. -/
def ConsumerSees (r sw : Nat) : ConsumerPhase → Prop
  | .deciding _ _ write | .copyingHeader _ _ write _ | .asserting _ _ write _ =>
    ∃ p, write = cursor p ∧ r ≤ p ∧ p ≤ sw
  | .copyingPayload _ size _ => r + (kHeader + size.toNat) ≤ sw
  | .storing _ payload => r + (kHeader + payload.length) ≤ sw
  | _ => r ≤ sw

structure Inv (N : Capacity) (s : Weak) (sr sw : Nat) (reads writes : List Nat) : Prop where
  base : Interleaving.Sound N s.base
  sr_le : sr ≤ span s.base.popped
  sw_le : sw ≤ span s.base.pushed
  producerSees : ProducerSees N (span s.base.pushed) sr s.base.producer
  consumerSees : ConsumerSees (span s.base.popped) sw s.base.consumer
  stored : Tracks N.size cursor s.producer writes (span s.base.pushed)
    (span s.base.pushed + stagedLength s.base.producer)
  released : Tracks N.size cursor s.consumer reads (span s.base.popped)
    (span s.base.popped + copiedLength s.base.consumer)
  producerKnows : Knows s.producer s.consumer reads sr
  consumerKnows : Knows s.consumer s.producer writes sw
  /-- What the producer stores is where a frame ends. -/
  boundaries : ∀ q ∈ writes, ∃ messages, messages <+: s.base.pushed ∧ q = span messages
  quiet : s.raced = false

def Sound (N : Capacity) (s : Weak) : Prop := ∃ sr sw reads writes, Inv N s sr sw reads writes

theorem sound_init (N : Capacity) (buffer : Nat → Byte) :
    Sound N {base := {queue := { capacity := N.word, mask := N.word - 1, buffer := buffer }}} :=
  ⟨0, 0, [0], [0], Interleaving.sound_init N buffer, Nat.le_refl _, Nat.le_refl _, Nat.zero_le _,
    Nat.le_refl _, .fresh _ _, .fresh _ _, .fresh _ _, .fresh _ _,
    fun _ hq => ⟨[], List.nil_prefix, List.mem_singleton.mp hq⟩, rfl⟩

variable {N : Capacity} {s : Weak} {sr sw : Nat} {reads writes : List Nat} {cell : Nat}

/-- The producer comes to the byte behind what it has staged, within a turn of what it
knows to be released. -/
theorem target_eq {unread : List (List Byte)} {staged : List Byte}
    (h : Interleaving.Inv N s.base unread staged)
    (hsees : ProducerSees N (span s.base.pushed) sr s.base.producer)
    (htarget : s.base.target = some cell) :
    cell = (span s.base.pushed + stagedLength s.base.producer) % N.size ∧
      span s.base.pushed + stagedLength s.base.producer < sr + N.size := by
  have hok := h.producer
  have hspan := h.span_pushed
  have hroom := h.room
  unfold Interleaving.target at htarget
  split at htarget
  · rename_i data write copied hphase
    rw [hphase] at hok hsees ⊢
    obtain ⟨-, -, -, rfl, hfits⟩ := hok
    split at htarget
    · rename_i hmore
      rw [cell_eq h.capacity h.mask hmore (by omega)] at htarget
      refine ⟨(Option.some.inj htarget).symm, Nat.lt_of_lt_of_le ?_ hsees⟩
      show _ + copied < _
      omega
    · cases htarget
  · rename_i data write copied hphase
    rw [hphase] at hok hsees ⊢
    obtain ⟨-, -, -, rfl, hfits⟩ := hok
    split at htarget
    · rename_i hmore
      rw [cursor_add, cell_eq h.capacity h.mask hmore (by omega), Nat.add_assoc] at htarget
      refine ⟨(Option.some.inj htarget).symm, Nat.lt_of_lt_of_le ?_ hsees⟩
      show _ + (kHeader + copied) < _
      omega
    · cases htarget
  · cases htarget

/-- Positions in one turn are told apart by their words. -/
theorem position_eq (N : Capacity) (lo : Nat) {a b : Nat} (ha : lo ≤ a) (hb : lo ≤ b)
    (ha' : a ≤ lo + N.size) (hb' : b ≤ lo + N.size) (heq : cursor a = cursor b) : a = b := by
  have hsize := N.size_le
  rcases Nat.le_total a b with hle | hle
  · exact (cursor_eq_iff hle (by omega)).mp heq
  · exact ((cursor_eq_iff hle (by omega)).mp heq.symm).symm

/-- The consumer comes to the byte behind what it has copied, which was pushed before the
store it loaded. -/
theorem source_eq {unread : List (List Byte)} {staged : List Byte}
    (h : Interleaving.Inv N s.base unread staged)
    (hsees : ConsumerSees (span s.base.popped) sw s.base.consumer)
    (hsw : sw ≤ span s.base.pushed) (hsource : source s.base = some cell) :
    cell = (span s.base.popped + copiedLength s.base.consumer) % N.size ∧
      span s.base.popped + copiedLength s.base.consumer < sw := by
  have hok := h.consumer
  have hroom := h.room
  unfold source at hsource
  split at hsource
  · rename_i out write copied hphase
    rw [hphase] at hok hsees ⊢
    obtain ⟨rfl, -, m, ⟨hhead, p, hp, hframe, hpw⟩, -⟩ := hok
    obtain ⟨k, hk, hrk, hks⟩ := hsees
    obtain ⟨rest, rfl, -, hspan, -⟩ := h.front hhead
    split at hsource
    · rename_i hmore
      rw [cell_eq h.capacity h.mask hmore (by omega)] at hsource
      refine ⟨(Option.some.inj hsource).symm, ?_⟩
      obtain rfl : p = k := position_eq N (span s.base.popped) (by omega) hrk (by omega)
        (by omega) (hp.symm.trans hk)
      show span s.base.popped + copied.length < sw
      omega
    · cases hsource
  · rename_i size copied hphase
    rw [hphase] at hok hsees ⊢
    obtain ⟨rfl, m, hhead, rfl, -⟩ := hok
    obtain ⟨rest, rfl, hlen, hspan, -⟩ := h.front hhead
    have htoNat : (BitVec.ofNat 32 m.length).toNat = m.length := by
      rw [BitVec.toNat_ofNat, Nat.mod_eq_of_lt hlen]
    rw [ConsumerSees, htoNat] at hsees
    rw [htoNat] at hsource
    split at hsource
    · rename_i hmore
      rw [cursor_add, cell_eq h.capacity h.mask hmore (by omega), Nat.add_assoc] at hsource
      refine ⟨(Option.some.inj hsource).symm, ?_⟩
      show span s.base.popped + (kHeader + copied.length) < sw
      omega
    · cases hsource
  · cases hsource

/-- The consumer does not come to what is not pushed yet. -/
theorem copied_le {unread : List (List Byte)} {staged : List Byte}
    (h : Interleaving.Inv N s.base unread staged) :
    span s.base.popped + copiedLength s.base.consumer ≤ span s.base.pushed := by
  have hok := h.consumer
  have hspan := h.span_pushed
  cases hphase : s.base.consumer with
  | copyingHeader out read write copied =>
    rw [hphase] at hok
    obtain ⟨-, hcopied, m, ⟨-, p, -, hframe, hpw⟩, -⟩ := hok
    show _ + copied.length ≤ _
    omega
  | asserting out read write size =>
    rw [hphase] at hok
    obtain ⟨-, m, ⟨-, p, -, hframe, hpw⟩, -⟩ := hok
    show _ + kHeader ≤ _
    omega
  | copyingPayload read size copied =>
    rw [hphase] at hok
    obtain ⟨-, m, hhead, -, hcopied, -⟩ := hok
    obtain ⟨rest, rfl, -, hfront, -⟩ := h.front hhead
    show _ + (kHeader + copied.length) ≤ _
    omega
  | storing newRead payload =>
    rw [hphase] at hok
    obtain ⟨rest, rfl, -, hfront, -⟩ := h.front hok.1
    show _ + (kHeader + payload.length) ≤ _
    omega
  | corrupted =>
    rw [hphase] at hok
    exact hok.elim
  | tooSmall out =>
    rw [hphase] at hok
    obtain ⟨m, hhead, -⟩ := hok
    obtain ⟨rest, rfl, -, hfront, -⟩ := h.front hhead
    show _ + kHeader ≤ _
    omega
  | _ =>
    show _ + 0 ≤ _
    omega

/-- The producer stays within a turn of what it knows to be released. -/
theorem staged_le {unread : List (List Byte)} {staged : List Byte}
    (h : Interleaving.Inv N s.base unread staged)
    (hsees : ProducerSees N (span s.base.pushed) sr s.base.producer) :
    span s.base.pushed + stagedLength s.base.producer ≤ sr + N.size := by
  have hok := h.producer
  cases hphase : s.base.producer with
  | deciding data write read =>
    rw [hphase] at hsees
    obtain ⟨p, -, hps, hwp⟩ := hsees
    show _ + 0 ≤ _
    omega
  | copyingHeader data write copied =>
    rw [hphase] at hok hsees
    have hcopied := hok.2.1
    show _ + copied ≤ _
    exact Nat.le_trans (by omega) hsees
  | copyingPayload data write copied =>
    rw [hphase] at hok hsees
    have hcopied := hok.2.1
    show _ + (kHeader + copied) ≤ _
    exact Nat.le_trans (by omega) hsees
  | _ =>
    rw [hphase] at hsees
    exact hsees

theorem Inv.producer_quiet (h : Inv N s sr sw reads writes)
    (htarget : s.base.target = some cell) :
    (s.raced || decide (s.producer.Races s.consumer cell)) = false ∧
      cell = (span s.base.pushed + stagedLength s.base.producer) % N.size := by
  obtain ⟨unread, staged, hbase⟩ := h.base
  have hcopied := copied_le hbase
  obtain ⟨rfl, hturn⟩ := target_eq hbase h.producerSees htarget
  have hraces : ¬ s.producer.Races s.consumer
      ((span s.base.pushed + stagedLength s.base.producer) % N.size) := by
    refine h.producerKnows.not_races h.released ?_
    intro q hknown hreach
    exact mod_ne (by omega) (by omega)
  rw [h.quiet, decide_eq_false hraces]
  exact ⟨rfl, rfl⟩

theorem Inv.consumer_quiet (h : Inv N s sr sw reads writes)
    (hsource : source s.base = some cell) :
    (s.raced || decide (s.consumer.Races s.producer cell)) = false ∧
      cell = (span s.base.popped + copiedLength s.base.consumer) % N.size := by
  obtain ⟨unread, staged, hbase⟩ := h.base
  have hstaged := staged_le hbase h.producerSees
  have hsr := h.sr_le
  obtain ⟨rfl, hseen⟩ := source_eq hbase h.consumerSees h.sw_le hsource
  have hraces : ¬ s.consumer.Races s.producer
      ((span s.base.popped + copiedLength s.base.consumer) % N.size) := by
    refine h.consumerKnows.not_races h.stored ?_
    intro q hknown hreach hmod
    exact mod_ne (by omega) (by omega) hmod.symm
  rw [h.quiet, decide_eq_false hraces]
  exact ⟨rfl, rfl⟩

/-- Without a shared access the producer goes on, and sees what it saw. -/
theorem Inv.setProducer (h : Inv N s sr sw reads writes) {phase : ProducerPhase}
    (hbase : Interleaving.Sound N {s.base with producer := phase})
    (hsees : ProducerSees N (span s.base.pushed) sr phase)
    (hstaged : stagedLength s.base.producer ≤ stagedLength phase) :
    Sound N {s with base := {s.base with producer := phase}} :=
  ⟨sr, sw, reads, writes, {h with
    base := hbase
    producerSees := hsees
    stored := h.stored.extend (Nat.add_le_add_left hstaged _)}⟩

theorem Inv.setConsumer (h : Inv N s sr sw reads writes) {phase : ConsumerPhase}
    (hbase : Interleaving.Sound N {s.base with consumer := phase})
    (hsees : ConsumerSees (span s.base.popped) sw phase)
    (hcopied : copiedLength s.base.consumer ≤ copiedLength phase) :
    Sound N {s with base := {s.base with consumer := phase}} :=
  ⟨sr, sw, reads, writes, {h with
    base := hbase
    consumerSees := hsees
    released := h.released.extend (Nat.add_le_add_left hcopied _)}⟩

/-- A byte of the frame is copied in behind those that are staged. -/
theorem Inv.copyIn (h : Inv N s sr sw reads writes) {queue : FastQueue} {phase : ProducerPhase}
    (htarget : s.base.target = some cell)
    (hbase : Interleaving.Sound N {s.base with queue, producer := phase})
    (hsees : ProducerSees N (span s.base.pushed) sr phase)
    (hstaged : stagedLength phase = stagedLength s.base.producer + 1) :
    Sound N {s with
      base := {s.base with queue, producer := phase}
      producer := s.producer.access cell
      raced := s.raced || decide (s.producer.Races s.consumer cell)} := by
  obtain ⟨hquiet, hcell⟩ := h.producer_quiet htarget
  refine ⟨sr, sw, reads, writes, {h with
    base := hbase
    producerSees := hsees
    stored := ?_
    quiet := hquiet}⟩
  rw [hcell, hstaged]
  exact h.stored.access (Nat.le_add_right _ _) (Nat.lt_succ_self _) (Nat.le_succ _)

/-- A load of the read cursor brings the producer forward. -/
theorem Inv.loadRead (h : Inv N s sr sw reads writes) {data : List Byte} {write : Word}
    (hphase : s.base.producer = .loadingRead data write) {message : Nat} {s' : Weak}
    (hstep : s.producerStep message = some s') : Sound N s' := by
  obtain ⟨unread, staged, hbase⟩ := h.base
  have hok := hbase.producer
  have hsees := h.producerSees
  rw [hphase] at hok hsees
  obtain ⟨rfl, hlen, hwrite⟩ := hok
  simp only [Weak.producerStep, hphase] at hstep
  obtain ⟨⟨position, own⟩, hload, heq⟩ := Option.bind_eq_some_iff.mp hstep
  obtain rfl := Option.some.inj heq
  obtain ⟨k, hk, hle, hlatest, -, hknows⟩ := h.producerKnows.acquire h.released hload
  have hturn : span s.base.pushed ≤ k + N.size :=
    Nat.le_trans hsees (Nat.add_le_add_right hle _)
  have hstored := h.stored.acquire hload
  rw [hphase] at hstored
  exact ⟨k, sw, reads, writes, {h with
    base := hbase.setProducer ⟨rfl, hlen, hwrite, k, hk, hlatest, hturn⟩
    sr_le := hlatest
    producerSees := ⟨k, hk, Nat.le_refl _, hturn⟩
    stored := hstored
    producerKnows := hknows
    consumerKnows := h.consumerKnows.of_acquire hload}⟩

/-- A frame that fits behind a stale read cursor fits. -/
theorem Inv.decidePush (h : Inv N s sr sw reads writes) {data : List Byte} {write read : Word}
    (hphase : s.base.producer = .deciding data write read) :
    Sound N {s with base := s.base.producerStep} := by
  obtain ⟨unread, staged, hbase⟩ := h.base
  have hnext := hbase.producerStep
  have hok := hbase.producer
  have hsees := h.producerSees
  rw [hphase] at hok hsees
  obtain ⟨rfl, hlen, rfl, -⟩ := hok
  obtain ⟨p, rfl, hps, hwp⟩ := hsees
  have hsize := N.size_le
  have hspan := hbase.span_pushed
  have hsr := h.sr_le
  have hfree := N.free_cursor (by omega : p ≤ span s.base.pushed) hwp
  simp only [Interleaving.producerStep, hphase] at hnext
  simp only [Interleaving.producerStep, hphase]
  split
  · rename_i hfull
    rw [if_pos hfull] at hnext
    refine h.setProducer hnext (show _ ≤ sr + N.size by omega) ?_
    rw [hphase]
    exact Nat.le_refl _
  · rename_i hfits
    rw [if_neg hfits] at hnext
    rw [BitVec.lt_def, hbase.capacity, hfree, need_eq hlen, BitVec.toNat_ofNat,
      Nat.mod_eq_of_lt (by unfold kHeader; omega)] at hfits
    refine h.setProducer hnext
      (show _ + (kHeader + data.length) ≤ sr + N.size by omega) ?_
    rw [hphase]
    exact Nat.le_refl _

/-- The write cursor is stored, which makes the frame known to who loads it. -/
theorem Inv.publish (h : Inv N s sr sw reads writes) {data : List Byte} {newWrite : Word}
    (hphase : s.base.producer = .storing data newWrite) :
    Sound N {s with
      base := s.base.producerStep, producer := s.producer.release newWrite} := by
  obtain ⟨unread, staged, hbase⟩ := h.base
  have hnext := hbase.producerStep
  have hok := hbase.producer
  have hsees := h.producerSees
  rw [hphase] at hok hsees
  obtain ⟨rfl, hlen, rfl⟩ := hok
  have hstored := h.stored.release (Nat.le_add_right _ (kHeader + data.length))
  rw [hphase] at hstored
  have hpushed : span (s.base.pushed ++ [data]) =
      span s.base.pushed + (kHeader + data.length) := by rw [span_append, span_singleton]
  simp only [Interleaving.producerStep, hphase] at hnext
  simp only [Interleaving.producerStep, hphase]
  refine ⟨sr, sw, reads, writes ++ [span s.base.pushed + (kHeader + data.length)], {h with
    base := hnext
    sw_le := by rw [hpushed]; exact Nat.le_trans h.sw_le (Nat.le_add_right _ _)
    producerSees := by rw [hpushed]; exact hsees
    stored := by rw [hpushed]; exact hstored
    consumerKnows := h.consumerKnows.release _ _
    boundaries := ?_}⟩
  intro q hq
  rcases List.mem_append.mp hq with hq | hq
  · obtain ⟨messages, hmessages, rfl⟩ := h.boundaries q hq
    exact ⟨messages, hmessages.trans (List.prefix_append _ _), rfl⟩
  · exact ⟨_, List.prefix_refl _, (List.mem_singleton.mp hq).trans hpushed.symm⟩

theorem Inv.producerStep (h : Inv N s sr sw reads writes) {message : Nat} {s' : Weak}
    (hstep : s.producerStep message = some s') : Sound N s' := by
  obtain ⟨unread, staged, hbase⟩ := h.base
  have hnext := hbase.producerStep
  have hok := hbase.producer
  have hsees := h.producerSees
  cases hphase : s.base.producer with
  | idle =>
    simp only [Weak.producerStep, Interleaving.target, Interleaving.producerStep, hphase,
      Option.some.injEq] at hstep
    exact hstep ▸ ⟨sr, sw, reads, writes, h⟩
  | loadingWrite data =>
    simp only [Interleaving.producerStep, hphase] at hnext
    rw [hphase] at hsees
    simp only [Weak.producerStep, Interleaving.target, Interleaving.producerStep, hphase,
      Option.some.injEq] at hstep
    subst hstep
    refine h.setProducer hnext hsees ?_
    rw [hphase]
    exact Nat.le_refl _
  | loadingRead data write => exact h.loadRead hphase hstep
  | deciding data write read =>
    simp only [Weak.producerStep, Interleaving.target, hphase, Option.some.injEq] at hstep
    exact hstep ▸ h.decidePush hphase
  | copyingHeader data write copied =>
    rw [hphase] at hok hsees
    by_cases hmore : copied < kHeader
    · obtain ⟨byte, hbyte⟩ : ∃ byte, (header (BitVec.ofNat 32 data.length))[copied]? = some byte :=
        ⟨_, List.getElem?_eq_getElem hmore⟩
      have htarget : s.base.target = some (s.base.queue.cell write kHeader copied) := by
        simp only [Interleaving.target, hphase, if_pos hmore]
      simp only [Interleaving.producerStep, hphase, hbyte] at hnext
      simp only [Weak.producerStep, Interleaving.producerStep, hphase, htarget, hbyte,
        Option.some.injEq] at hstep
      subst hstep
      refine h.copyIn htarget hnext hsees ?_
      rw [hphase]
      rfl
    · have hbyte : (header (BitVec.ofNat 32 data.length))[copied]? = none :=
        List.getElem?_eq_none_iff.mpr (Nat.not_lt.mp hmore)
      simp only [Interleaving.producerStep, hphase, hbyte] at hnext
      simp only [Weak.producerStep, Interleaving.target, Interleaving.producerStep, hphase, hbyte,
        if_neg hmore, Option.some.injEq] at hstep
      subst hstep
      refine h.setProducer hnext hsees ?_
      rw [hphase]
      exact hok.2.1
  | copyingPayload data write copied =>
    rw [hphase] at hok hsees
    by_cases hmore : copied < data.length
    · obtain ⟨byte, hbyte⟩ : ∃ byte, data[copied]? = some byte :=
        ⟨_, List.getElem?_eq_getElem hmore⟩
      have htarget : s.base.target =
          some (s.base.queue.cell (write + cursor kHeader) data.length copied) := by
        simp only [Interleaving.target, hphase, if_pos hmore]
      simp only [Interleaving.producerStep, hphase, hbyte] at hnext
      simp only [Weak.producerStep, Interleaving.producerStep, hphase, htarget, hbyte,
        Option.some.injEq] at hstep
      subst hstep
      refine h.copyIn htarget hnext hsees ?_
      rw [hphase]
      rfl
    · have hbyte : data[copied]? = none :=
        List.getElem?_eq_none_iff.mpr (Nat.not_lt.mp hmore)
      simp only [Interleaving.producerStep, hphase, hbyte] at hnext
      simp only [Weak.producerStep, Interleaving.target, Interleaving.producerStep, hphase, hbyte,
        if_neg hmore, Option.some.injEq] at hstep
      subst hstep
      refine h.setProducer hnext hsees ?_
      rw [hphase]
      exact Nat.add_le_add_left hok.2.1 _
  | storing data newWrite =>
    simp only [Weak.producerStep, hphase, Option.some.injEq] at hstep
    exact hstep ▸ h.publish hphase

/-- Where a frame ends behind the read cursor, some of the unread messages end. -/
theorem Inv.boundary {unread : List (List Byte)} {staged : List Byte}
    (h : Inv N s sr sw reads writes) (hbase : Interleaving.Inv N s.base unread staged) {k : Nat}
    (hk : k ∈ writes) (hle : span s.base.popped ≤ k) :
    ∃ seen, seen <+: unread ∧ k = span s.base.popped + span seen := by
  obtain ⟨messages, hmessages, rfl⟩ := h.boundaries k hk
  have hpopped : s.base.popped <+: s.base.pushed := ⟨unread, hbase.log.symm⟩
  rcases List.prefix_or_prefix_of_prefix hpopped hmessages with hprefix | hprefix
  · obtain ⟨seen, rfl⟩ := hprefix
    rw [hbase.log, List.prefix_append_right_inj] at hmessages
    exact ⟨seen, hmessages, span_append _ _⟩
  · obtain ⟨rest, hrest⟩ := hprefix
    have hspan : span s.base.popped = span messages + span rest := by
      rw [← hrest, span_append]
    exact ⟨[], List.nil_prefix, by rw [show span [] = 0 from rfl]; omega⟩

/-- A byte of the front frame is copied out behind those that were. -/
theorem Inv.copyOut (h : Inv N s sr sw reads writes) {phase : ConsumerPhase}
    (hsource : source s.base = some cell)
    (hbase : Interleaving.Sound N {s.base with consumer := phase})
    (hsees : ConsumerSees (span s.base.popped) sw phase)
    (hcopied : copiedLength phase = copiedLength s.base.consumer + 1) :
    Sound N {s with
      base := {s.base with consumer := phase}
      consumer := s.consumer.access cell
      raced := s.raced || decide (s.consumer.Races s.producer cell)} := by
  obtain ⟨hquiet, hcell⟩ := h.consumer_quiet hsource
  refine ⟨sr, sw, reads, writes, {h with
    base := hbase
    consumerSees := hsees
    released := ?_
    quiet := hquiet}⟩
  rw [hcell, hcopied]
  exact h.released.access (Nat.le_add_right _ _) (Nat.lt_succ_self _) (Nat.le_succ _)

/-- A load of the write cursor brings the consumer forward, to where a frame ends. -/
theorem Inv.loadWrite (h : Inv N s sr sw reads writes) {out : Nat} {read : Word}
    (hphase : s.base.consumer = .loadingWrite out read) {message : Nat} {s' : Weak}
    (hstep : s.consumerStep message = some s') : Sound N s' := by
  obtain ⟨unread, staged, hbase⟩ := h.base
  have hok := hbase.consumer
  have hsees := h.consumerSees
  have hreleased := h.released
  rw [hphase] at hok hsees hreleased
  simp only [Weak.consumerStep, hphase] at hstep
  obtain ⟨⟨position, own⟩, hload, heq⟩ := Option.bind_eq_some_iff.mp hstep
  obtain rfl := Option.some.inj heq
  obtain ⟨k, hk, hle, hlatest, hmem, hknows⟩ := h.consumerKnows.acquire h.stored hload
  have hrk : span s.base.popped ≤ k := Nat.le_trans hsees hle
  obtain ⟨seen, hseen, hspan⟩ := h.boundary hbase hmem hrk
  exact ⟨sr, k, reads, writes, {h with
    base := hbase.setConsumer ⟨hok, seen, hseen, hk.trans (congrArg cursor hspan)⟩
    sw_le := hlatest
    consumerSees := ⟨k, hk, hrk, Nat.le_refl _⟩
    released := hreleased.acquire hload
    producerKnows := h.producerKnows.of_acquire hload
    consumerKnows := hknows}⟩

/-- The front frame is whole behind the write cursor that was loaded. -/
theorem Inv.assertFrame (h : Inv N s sr sw reads writes) {out : Nat} {read write : Word}
    {size : BitVec 32} (hphase : s.base.consumer = .asserting out read write size) :
    Sound N {s with base := s.base.consumerStep} := by
  obtain ⟨unread, staged, hbase⟩ := h.base
  have hnext := hbase.consumerStep
  have hok := hbase.consumer
  have hsees := h.consumerSees
  have hroom := hbase.room
  have hsw := h.sw_le
  rw [hphase] at hok hsees
  obtain ⟨rfl, m, ⟨hhead, p, hp, hframe, hpw⟩, rfl⟩ := hok
  obtain ⟨k, hk, hrk, hks⟩ := hsees
  obtain ⟨rest, rfl, hlen, hspan, -⟩ := hbase.front hhead
  obtain rfl : p = k := position_eq N (span s.base.popped) (by omega) hrk (by omega)
    (by omega) (hp.symm.trans hk)
  simp only [Interleaving.consumerStep, hphase] at hnext
  simp only [Interleaving.consumerStep, hphase]
  have hsize : (BitVec.ofNat 32 m.length).toNat = m.length := by
    rw [BitVec.toNat_ofNat, Nat.mod_eq_of_lt hlen]
  split
  · rename_i hshort
    rw [if_pos hshort] at hnext
    refine h.setConsumer hnext (Nat.le_trans hrk hks) ?_
    rw [hphase]
    exact Nat.le_refl _
  · rename_i hwhole
    rw [if_neg hwhole] at hnext
    split
    · rename_i hout
      rw [if_pos hout] at hnext
      refine h.setConsumer hnext (Nat.le_trans hrk hks) ?_
      rw [hphase]
      exact Nat.le_refl _
    · rename_i hfits
      rw [if_neg hfits] at hnext
      refine h.setConsumer hnext ?_ ?_
      · rw [ConsumerSees, hsize]
        exact Nat.le_trans hframe hks
      · rw [hphase]
        exact Nat.le_refl _

/-- The read cursor is stored, which makes the bytes known to be free. -/
theorem Inv.retire (h : Inv N s sr sw reads writes) {newRead : Word} {payload : List Byte}
    (hphase : s.base.consumer = .storing newRead payload) :
    Sound N {s with
      base := s.base.consumerStep, consumer := s.consumer.release newRead} := by
  obtain ⟨unread, staged, hbase⟩ := h.base
  have hnext := hbase.consumerStep
  have hok := hbase.consumer
  have hsees := h.consumerSees
  have hreleased := h.released
  rw [hphase] at hok hsees hreleased
  obtain ⟨hhead, rfl⟩ := hok
  have hpopped : span (s.base.popped ++ [payload]) =
      span s.base.popped + (kHeader + payload.length) := by rw [span_append, span_singleton]
  simp only [Interleaving.consumerStep, hphase] at hnext
  simp only [Interleaving.consumerStep, hphase]
  exact ⟨sr, sw, reads ++ [span s.base.popped + (kHeader + payload.length)], writes, {h with
    base := hnext
    sr_le := by rw [hpopped]; exact Nat.le_trans h.sr_le (Nat.le_add_right _ _)
    consumerSees := by
      show span (s.base.popped ++ [payload]) ≤ sw
      rw [hpopped]
      exact hsees
    released := by
      rw [hpopped]
      exact hreleased.release (Nat.le_add_right _ _)
    producerKnows := h.producerKnows.release _ _}⟩

theorem Inv.consumerStep (h : Inv N s sr sw reads writes) {message : Nat} {s' : Weak}
    (hstep : s.consumerStep message = some s') : Sound N s' := by
  obtain ⟨unread, staged, hbase⟩ := h.base
  have hnext := hbase.consumerStep
  have hok := hbase.consumer
  have hsees := h.consumerSees
  cases hphase : s.base.consumer with
  | idle =>
    simp only [Weak.consumerStep, source, Interleaving.consumerStep, hphase,
      Option.some.injEq] at hstep
    exact hstep ▸ ⟨sr, sw, reads, writes, h⟩
  | loadingRead out =>
    rw [hphase] at hsees
    simp only [Interleaving.consumerStep, hphase] at hnext
    simp only [Weak.consumerStep, source, Interleaving.consumerStep, hphase,
      Option.some.injEq] at hstep
    subst hstep
    refine h.setConsumer hnext hsees ?_
    rw [hphase]
    exact Nat.le_refl _
  | loadingWrite out read => exact h.loadWrite hphase hstep
  | deciding out read write =>
    rw [hphase] at hsees
    simp only [Interleaving.consumerStep, hphase] at hnext
    simp only [Weak.consumerStep, source, Interleaving.consumerStep, hphase,
      Option.some.injEq] at hstep
    subst hstep
    split
    · rename_i hempty
      rw [if_pos hempty] at hnext
      obtain ⟨k, -, hrk, hks⟩ := hsees
      refine h.setConsumer hnext (Nat.le_trans hrk hks) ?_
      rw [hphase]
      exact Nat.le_refl _
    · rename_i hdiffers
      rw [if_neg hdiffers] at hnext
      refine h.setConsumer hnext hsees ?_
      rw [hphase]
      exact Nat.le_refl _
  | copyingHeader out read write copied =>
    rw [hphase] at hok hsees
    by_cases hmore : copied.length < kHeader
    · have hsource : source s.base = some (s.base.queue.cell read kHeader copied.length) := by
        simp only [source, hphase, if_pos hmore]
      simp only [Interleaving.consumerStep, hphase, if_pos hmore] at hnext
      simp only [Weak.consumerStep, Interleaving.consumerStep, hphase, hsource, if_pos hmore,
        Option.some.injEq] at hstep
      subst hstep
      refine h.copyOut hsource hnext hsees ?_
      rw [hphase]
      simp [copiedLength]
    · simp only [Interleaving.consumerStep, hphase, if_neg hmore] at hnext
      simp only [Weak.consumerStep, source, Interleaving.consumerStep, hphase, if_neg hmore,
        Option.some.injEq] at hstep
      subst hstep
      refine h.setConsumer hnext hsees ?_
      rw [hphase]
      exact hok.2.1
  | asserting out read write size =>
    simp only [Weak.consumerStep, source, hphase, Option.some.injEq] at hstep
    exact hstep ▸ h.assertFrame hphase
  | copyingPayload read size copied =>
    rw [hphase] at hok hsees
    by_cases hmore : copied.length < size.toNat
    · have hsource : source s.base =
          some (s.base.queue.cell (read + cursor kHeader) size.toNat copied.length) := by
        simp only [source, hphase, if_pos hmore]
      simp only [Interleaving.consumerStep, hphase, if_pos hmore] at hnext
      simp only [Weak.consumerStep, Interleaving.consumerStep, hphase, hsource, if_pos hmore,
        Option.some.injEq] at hstep
      subst hstep
      refine h.copyOut hsource hnext hsees ?_
      rw [hphase]
      simp [copiedLength, Nat.add_assoc]
    · obtain ⟨-, m, hhead, rfl, hcopied, -⟩ := hok
      obtain ⟨rest, rfl, hlen, hspan, -⟩ := hbase.front hhead
      have hsize : (BitVec.ofNat 32 m.length).toNat = m.length := by
        rw [BitVec.toNat_ofNat, Nat.mod_eq_of_lt hlen]
      simp only [Interleaving.consumerStep, hphase, if_neg hmore] at hnext
      simp only [Weak.consumerStep, source, Interleaving.consumerStep, hphase, if_neg hmore,
        Option.some.injEq] at hstep
      subst hstep
      rw [ConsumerSees, hsize] at hsees
      refine h.setConsumer hnext ?_ ?_
      · show _ + (kHeader + copied.length) ≤ sw
        omega
      · rw [hphase]
        exact Nat.le_refl _
  | storing newRead payload =>
    simp only [Weak.consumerStep, hphase, Option.some.injEq] at hstep
    exact hstep ▸ h.retire hphase
  | corrupted =>
    rw [hphase] at hok
    exact hok.elim
  | tooSmall out =>
    simp only [Weak.consumerStep, source, Interleaving.consumerStep, hphase,
      Option.some.injEq] at hstep
    exact hstep ▸ ⟨sr, sw, reads, writes, h⟩

theorem Inv.step (h : Inv N s sr sw reads writes) {event : Event × Nat} {s' : Weak} {o : Unit}
    (hadmits : Admits event.1) (hstep : s.step event = some (s', o)) : Sound N s' := by
  obtain ⟨unread, staged, hbase⟩ := h.base
  have hproducer := h.producerSees
  have hconsumer := h.consumerSees
  obtain ⟨event, message⟩ := event
  cases event with
  | push data =>
    cases hphase : s.base.producer <;>
      simp only [Weak.step, Interleaving.step, hphase, Option.map, reduceCtorEq] at hstep
    obtain ⟨rfl, -⟩ := Prod.mk.inj (Option.some.inj hstep)
    have hcall : s.base.step (.push data) =
        some ({s.base with producer := .loadingWrite data}, ()) := by
      simp only [Interleaving.step, hphase]
    have hnext := hbase.step hadmits hcall
    rw [hphase] at hproducer
    refine h.setProducer hnext hproducer ?_
    rw [hphase]
    exact Nat.le_refl _
  | producer =>
    obtain ⟨next, hnext, heq⟩ := Option.map_eq_some_iff.mp hstep
    obtain ⟨rfl, -⟩ := Prod.mk.inj heq
    exact h.producerStep hnext
  | pop out =>
    cases hphase : s.base.consumer <;>
      simp only [Weak.step, Interleaving.step, hphase, Option.map, reduceCtorEq] at hstep
    obtain ⟨rfl, -⟩ := Prod.mk.inj (Option.some.inj hstep)
    have hcall : s.base.step (.pop out) =
        some ({s.base with consumer := .loadingRead out}, ()) := by
      simp only [Interleaving.step, hphase]
    have hnext := hbase.step hadmits hcall
    rw [hphase] at hconsumer
    refine h.setConsumer hnext hconsumer ?_
    rw [hphase]
    exact Nat.le_refl _
  | consumer =>
    obtain ⟨next, hnext, heq⟩ := Option.map_eq_some_iff.mp hstep
    obtain ⟨rfl, -⟩ := Prod.mk.inj heq
    exact h.consumerStep hnext

theorem Reached.sound {buffer : Nat → Byte}
    (h : Reached { capacity := N.word, mask := N.word - 1, buffer := buffer } s) : Sound N s := by
  refine Transition.Reachable.invariant ?_ h (sound_init N buffer)
  rintro _ _ _ _ ⟨_, _, _, _, hs⟩ hadmits hstep
  exact hs.step hadmits hstep

/-- Every requested capacity up to `2 ^ 63` yields a queue on which, however stale the
cursors are that the two parties load, no byte is accessed in a data race and all messages
stay intact, as long as payloads are shorter than `2 ^ 32` bytes. -/
theorem messages_race_free {capacityBytes : Word} (hrequested : capacityBytes.toNat ≤ 2 ^ 63) :
    ∃ q, create capacityBytes = some q ∧
      ∀ s, Reached q s → s.raced = false ∧ Intact s.base := by
  obtain ⟨N, hN⟩ := create_eq hrequested
  refine ⟨_, hN, fun s hreached => ?_⟩
  obtain ⟨sr, sw, reads, writes, h⟩ := hreached.sound
  obtain ⟨unread, staged, hbase⟩ := h.base
  exact ⟨h.quiet, hbase.intact⟩

/-- The consumer first misses a push that was stored, the producer pushes the second message
without having seen the first pop, and the third frame crosses the end of the ring. -/
theorem messages_race_free_stale : ∃ q s, create 12 = some q ∧ Reached q s ∧
    s.base.pushed = [[1, 2, 3, 4], [5, 6], [7, 8]] ∧
    s.base.popped = [[1, 2, 3, 4], [5, 6], [7, 8]] ∧ s.base.queue.write.toNat = 20 ∧
    s.raced = false ∧ Intact s.base := by
  obtain ⟨q, hq, hsafe⟩ := @messages_race_free 12 (by decide)
  have hfresh : create 12 = some {capacity := 16, mask := 15, buffer := fun _ => 0} := rfl
  obtain rfl := Option.some.inj (hq.symm.trans hfresh)
  have hend : (Transition.run (Transition.guarded step fun _ event => Admits event.1)
      {base := {queue := {capacity := 16, mask := 15, buffer := fun _ => 0}}}
      ((.push [1, 2, 3, 4], 0) :: List.replicate 14 (.producer, 0) ++
        (.pop 4, 0) :: List.replicate 3 (.consumer, 0) ++
        (.pop 4, 0) :: List.replicate 15 (.consumer, 1) ++
        (.push [5, 6], 0) :: List.replicate 12 (.producer, 0) ++
        (.pop 2, 0) :: (.push [7, 8], 0) ::
          (List.replicate 13 [(.consumer, 2), (.producer, 1)]).flatten ++
        (.pop 2, 0) :: List.replicate 13 (.consumer, 3))).map
        (fun s => (s.base.pushed, s.base.popped, s.base.queue.write.toNat)) =
      some ([[1, 2, 3, 4], [5, 6], [7, 8]], [[1, 2, 3, 4], [5, 6], [7, 8]], 20) := by
    decide +kernel
  obtain ⟨s, hrun, hs⟩ := Option.map_eq_some_iff.mp hend
  simp only [Prod.mk.injEq] at hs
  obtain ⟨hpushed, hpopped, hwrite⟩ := hs
  have hreached : Reached {capacity := 16, mask := 15, buffer := fun _ => 0} s :=
    .of_guarded _ hrun
  exact ⟨_, s, hq, hreached, hpushed, hpopped, hwrite, hsafe s hreached⟩

end Weak

end FastQueue

end ExchangeEngine
