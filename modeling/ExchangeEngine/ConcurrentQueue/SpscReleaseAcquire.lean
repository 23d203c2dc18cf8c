import ExchangeEngine.ConcurrentQueue.SpscInterleaving
import ExchangeEngine.Library.ReleaseAcquire

/-!
The `spsc_queue` with no more order than its loads and stores ask for. A party that loads
the other's cursor may get any store that is not older than the one it got before, and only
what happened before that store is known to it. The slots are plain memory: an access to
one that the other party has come to, without it being known, is a data race.
-/

namespace ExchangeEngine

open Cyclic ReleaseAcquire

namespace SpscQueue

variable {T : Type}

/-- The shared cursors of `base` hold what was stored last. -/
structure Weak (T : Type) where
  base : Interleaving T := {}
  producer : Agent Word := .fresh (cursor 0)
  consumer : Agent Word := .fresh (cursor 0)
  raced : Bool := false

namespace Weak

open Interleaving

def producerStep (N : Capacity) (debug : Bool) (s : Weak T) (message : Nat) : Option (Weak T) :=
  match s.base.producer with
  | .loading single range => do
    let (loaded, own) ← s.producer.acquire s.consumer message
    some {s with base := {s.base with producer := .caching single range loaded}, producer := own}
  | .assertingRead range loaded => do
    let (position, own) ← s.producer.acquire s.consumer message
    let phase := if loaded - position = N.word then .failed
      else .constructing range s.base.queue.writePositionLocal range
    some {s with base := {s.base with producer := phase}, producer := own}
  | .constructing _ pos (_ :: _) =>
    let cell := calculateIndex N pos
    some {s with
      base := s.base.producerStep N debug
      producer := s.producer.access cell
      raced := s.raced || decide (s.producer.Races s.consumer cell)}
  | .storing _ newWrite =>
    some {s with base := s.base.producerStep N debug, producer := s.producer.release newWrite}
  | _ => some {s with base := s.base.producerStep N debug}

/-- The consumer comes to a slot. -/
def access (N : Capacity) (type : ElementType) (debug : Bool) (s : Weak T) (pos : Word) : Weak T :=
  let cell := calculateIndex N pos
  {s with
    base := s.base.consumerStep N type debug
    consumer := s.consumer.access cell
    raced := s.raced || decide (s.consumer.Races s.producer cell)}

/-- Discarding an element of a trivially destructible type does not access its slot. -/
def consumerStep (N : Capacity) (type : ElementType) (debug : Bool) (s : Weak T)
    (message : Nat) : Option (Weak T) :=
  match s.base.consumer with
  | .loading call => do
    let (loaded, own) ← s.consumer.acquire s.producer message
    some {s with base := {s.base with consumer := .caching call loaded}, consumer := own}
  | .assertingWrite => do
    let (loaded, own) ← s.consumer.acquire s.producer message
    some {s with base := {s.base with consumer := .assertingRead loaded}, consumer := own}
  | .loadingEnd => do
    let (loaded, own) ← s.consumer.acquire s.producer message
    let phase := .discarding s.base.queue.readPositionLocal loaded
    some {s with base := {s.base with consumer := phase}, consumer := own}
  | .reading pos (_ + 1) => some (s.access N type debug pos)
  | .destroying pos _ => some (s.access N type debug pos)
  | .discarding pos writeEnd =>
    if pos = writeEnd || type.triviallyDestructible then
      some {s with base := s.base.consumerStep N type debug}
    else some (s.access N type debug pos)
  | .storing newRead =>
    some {s with base := s.base.consumerStep N type debug, consumer := s.consumer.release newRead}
  | _ => some {s with base := s.base.consumerStep N type debug}

/-- Which party moves, and which store of the other it gets if it loads one. -/
def step (N : Capacity) (type : ElementType) (debug : Bool) (s : Weak T) :
    Event T × Nat → Option (Weak T × Unit)
  | (.producer, message) => (s.producerStep N debug message).map (·, ())
  | (.consumer, message) => (s.consumerStep N type debug message).map (·, ())
  | (call, _) => (s.base.step N type debug call).map fun next => ({s with base := next.1}, ())

/-- Reached by some execution, from an empty queue. -/
def Reached (N : Capacity) (type : ElementType) (debug : Bool) (s : Weak T) : Prop :=
  Transition.Reachable (step N type debug) (fun _ _ => True) {} s

/-! ### What holds between any two steps -/

/-- The invariant of the interleavings, where the producer knows of `sr` released slots and
the consumer of `sw` pushed elements, and both rely on no more. -/
structure Inv (N : Capacity) (s : Weak T) (rp rc wc sr sw : Nat) (unread staged : List T)
    (reads writes : List Nat) : Prop where
  base : Interleaving.Inv N s.base rp rc wc unread staged
  rc_le : rc ≤ sr
  sr_le : sr ≤ rp
  wc_le : wc ≤ sw
  sw_le : sw ≤ s.base.pushed.length
  taken_le : s.base.taken.length ≤ sw
  producerOk : ProducerOk N s.base.queue.writePositionLocal s.base.pushed.length sr rc staged
    s.base.producer
  consumerOk : ConsumerOk s.base.queue.readPositionLocal s.base.taken.length rp sw wc
    s.base.consumer
  stored : Tracks N.size cursor s.producer writes s.base.pushed.length
    (s.base.pushed.length + staged.length)
  released : Tracks N.size cursor s.consumer reads rp s.base.taken.length
  producerKnows : Knows s.producer s.consumer reads sr
  consumerKnows : Knows s.consumer s.producer writes sw
  quiet : s.raced = false

def Sound (N : Capacity) (s : Weak T) : Prop :=
  ∃ rp rc wc sr sw unread staged reads writes, Inv N s rp rc wc sr sw unread staged reads writes

theorem sound_init (N : Capacity) : Sound N ({} : Weak T) :=
  ⟨0, 0, 0, 0, 0, [], [], [0], [0],
    ⟨rfl, rfl, rfl, rfl, rfl, Nat.le_refl _, Nat.le_refl _, Nat.le_refl _, Nat.zero_le _, rfl,
      ⟨rfl, rfl⟩, rfl, rfl, Nat.le_refl _⟩,
    Nat.le_refl _, Nat.le_refl _, Nat.le_refl _, Nat.le_refl _, Nat.le_refl _, ⟨rfl, rfl⟩,
    ⟨rfl, rfl, Nat.le_refl _⟩, .fresh _ _, .fresh _ _, .fresh _ _, .fresh _ _, rfl⟩

variable {N : Capacity} {type : ElementType} {debug : Bool} {s : Weak T}
  {rp rc wc sr sw : Nat} {unread staged : List T} {reads writes : List Nat}

theorem Inv.setProducer (h : Inv N s rp rc wc sr sw unread staged reads writes)
    {phase : ProducerPhase T}
    (hok : ProducerOk N s.base.queue.writePositionLocal s.base.pushed.length sr rc staged phase) :
    Sound N {s with base := {s.base with producer := phase}} :=
  ⟨rp, rc, wc, sr, sw, unread, staged, reads, writes,
    {h with base := {h.base with producer := hok.mono h.sr_le}, producerOk := hok}⟩

theorem Inv.setConsumer (h : Inv N s rp rc wc sr sw unread staged reads writes)
    {phase : ConsumerPhase}
    (hok : ConsumerOk s.base.queue.readPositionLocal s.base.taken.length rp sw wc phase) :
    Sound N {s with base := {s.base with consumer := phase}} :=
  ⟨rp, rc, wc, sr, sw, unread, staged, reads, writes,
    {h with base := {h.base with consumer := hok.mono h.sw_le}, consumerOk := hok}⟩

/-- A load of the read cursor brings the producer forward. -/
theorem Inv.producerLoads (h : Inv N s rp rc wc sr sw unread staged reads writes) {message : Nat}
    {loaded : Word} {own : Agent Word}
    (hload : s.producer.acquire s.consumer message = some (loaded, own))
    {phase : ProducerPhase T}
    (hok : ∀ k, loaded = cursor k → sr ≤ k → k ≤ rp →
      ProducerOk N s.base.queue.writePositionLocal s.base.pushed.length k rc staged phase) :
    Sound N {s with base := {s.base with producer := phase}, producer := own} := by
  obtain ⟨k, hloaded, hle, hlatest, -, hknows⟩ := h.producerKnows.acquire h.released hload
  have hphase := hok k hloaded hle hlatest
  exact ⟨rp, rc, wc, k, sw, unread, staged, reads, writes, {h with
    base := {h.base with producer := hphase.mono hlatest}
    rc_le := Nat.le_trans h.rc_le hle
    sr_le := hlatest
    producerOk := hphase
    stored := h.stored.acquire hload
    producerKnows := hknows
    consumerKnows := h.consumerKnows.of_acquire hload}⟩

/-- A load of the write cursor brings the consumer forward. -/
theorem Inv.consumerLoads (h : Inv N s rp rc wc sr sw unread staged reads writes) {message : Nat}
    {loaded : Word} {own : Agent Word}
    (hload : s.consumer.acquire s.producer message = some (loaded, own))
    {phase : ConsumerPhase}
    (hok : ∀ k, loaded = cursor k → sw ≤ k → k ≤ s.base.pushed.length →
      ConsumerOk s.base.queue.readPositionLocal s.base.taken.length rp k wc phase) :
    Sound N {s with base := {s.base with consumer := phase}, consumer := own} := by
  obtain ⟨k, hloaded, hle, hlatest, -, hknows⟩ := h.consumerKnows.acquire h.stored hload
  have hphase := hok k hloaded hle hlatest
  exact ⟨rp, rc, wc, sr, k, unread, staged, reads, writes, {h with
    base := {h.base with consumer := hphase.mono hlatest}
    wc_le := Nat.le_trans h.wc_le hle
    sw_le := hlatest
    taken_le := Nat.le_trans h.taken_le hle
    consumerOk := hphase
    released := h.released.acquire hload
    producerKnows := h.producerKnows.of_acquire hload
    consumerKnows := hknows}⟩

/-! ### Accesses -/

/-- Nothing that the consumer did to the slot is unknown to the producer. -/
theorem Inv.producer_quiet (h : Inv N s rp rc wc sr sw unread staged reads writes) {a : Nat}
    (hpushed : s.base.pushed.length ≤ a) (hroom : a < rc + N.size) :
    (s.raced || decide (s.producer.Races s.consumer (calculateIndex N (cursor a)))) = false := by
  have hrc := h.rc_le
  have hlen := h.base.length_pushed
  have hraces : ¬ s.producer.Races s.consumer (calculateIndex N (cursor a)) := by
    rw [calculateIndex_cursor]
    refine h.producerKnows.not_races h.released ?_
    intro q hknown hreach
    exact mod_ne (by omega) (by omega)
  rw [h.quiet, decide_eq_false hraces]
  rfl

theorem Inv.consumer_quiet (h : Inv N s rp rc wc sr sw unread staged reads writes) {a : Nat}
    (hreleased : rp ≤ a) (hseen : a < sw) :
    (s.raced || decide (s.consumer.Races s.producer (calculateIndex N (cursor a)))) = false := by
  have hrc := h.base.rc_le
  have hroom := h.base.room
  have hraces : ¬ s.consumer.Races s.producer (calculateIndex N (cursor a)) := by
    rw [calculateIndex_cursor]
    refine h.consumerKnows.not_races h.stored ?_
    intro q hknown hreach hmod
    exact mod_ne (by omega) (by omega) hmod.symm
  rw [h.quiet, decide_eq_false hraces]
  rfl

/-- An element is constructed in the slot after the last staged one. -/
theorem Inv.construct (h : Inv N s rp rc wc sr sw unread staged reads writes) {range : List T}
    {pos : Word} {x : T} {rest : List T}
    (hphase : s.base.producer = .constructing range pos (x :: rest)) :
    Sound N {s with
      base := s.base.producerStep N debug
      producer := s.producer.access (calculateIndex N pos)
      raced := s.raced || decide (s.producer.Races s.consumer (calculateIndex N pos))} := by
  have hok := h.producerOk
  have hrc := h.rc_le
  have hrp := h.base.rp_le
  have hlen := h.base.length_pushed
  rw [hphase] at hok
  obtain ⟨rfl, hlocal, rfl, hfits⟩ := hok
  rw [List.length_append, List.length_cons] at hfits
  simp only [Interleaving.producerStep, hphase]
  have hquiet := h.producer_quiet (Nat.le_add_right _ staged.length) (by omega)
  have hpos : s.base.pushed.length + staged.length =
      s.base.taken.length + ((unread ++ staged).map some).length := by
    simp
    omega
  have hsr := h.sr_le
  have hgrown := h.base.holds.append_put [some x] (by simp; omega)
  rw [← hpos] at hgrown
  have hnext : ProducerOk N s.base.queue.writePositionLocal s.base.pushed.length sr rc
      (staged ++ [x]) (.constructing (staged ++ x :: rest)
        (cursor (s.base.pushed.length + staged.length) + 1) rest) := by
    refine ⟨by simp, hlocal, ?_, by simpa using hfits⟩
    rw [cursor_succ, List.length_append, List.length_singleton, Nat.add_assoc]
  refine ⟨rp, rc, wc, sr, sw, unread, staged ++ [x], reads, writes, {h with
    base := {h.base with
      room := by simp; omega
      holds := by simpa [constructAt, Cyclic.put] using hgrown
      producer := hnext.mono hsr}
    producerOk := hnext
    stored := ?_
    quiet := hquiet}⟩
  rw [calculateIndex_cursor]
  exact h.stored.access (Nat.le_add_right _ _) (by simp) (by simp)

/-- The staged elements are handed to the consumer. -/
theorem Inv.store (h : Inv N s rp rc wc sr sw unread staged reads writes) {range : List T}
    {newWrite : Word} (hphase : s.base.producer = .storing range newWrite) :
    Sound N {s with
      base := s.base.producerStep N debug, producer := s.producer.release newWrite} := by
  have hok := h.producerOk
  have hroom := h.base.room
  have hwc := h.base.wc_le
  have hsw := h.sw_le
  rw [hphase] at hok
  obtain ⟨rfl, hlocal, rfl⟩ := hok
  simp only [Interleaving.producerStep, hphase]
  have hlength : (s.base.pushed ++ range).length = s.base.pushed.length + range.length :=
    List.length_append
  have hidle : ProducerOk N s.base.queue.writePositionLocal (s.base.pushed ++ range).length
      sr rc ([] : List T) .idle := ⟨rfl, by rw [hlength]; exact hlocal⟩
  refine ⟨rp, rc, wc, sr, sw, unread ++ range, [], reads,
    writes ++ [s.base.pushed.length + range.length], {h with
      base := {h.base with
        log := by simp [h.base.log]
        writePosition := by rw [hlength]
        wc_le := by simp; omega
        room := by simpa using hroom
        holds := by simpa using h.base.holds
        producer := hidle.mono h.sr_le
        consumer := h.base.consumer.mono (by simp)}
      sw_le := by simp; omega
      producerOk := hidle
      stored := ?_
      consumerKnows := h.consumerKnows.release _ _}⟩
  simpa using h.stored.release (Nat.le_add_right _ range.length)

theorem Inv.producerStep (h : Inv N s rp rc wc sr sw unread staged reads writes) {message : Nat}
    {s' : Weak T} (hstep : s.producerStep N debug message = some s') : Sound N s' := by
  have hsize := N.size_le
  have hok := h.producerOk
  have hroom := h.base.room
  have hrc := h.rc_le
  have hsr := h.sr_le
  have hrp := h.base.rp_le
  have hlen := h.base.length_pushed
  cases hphase : s.base.producer with
  | idle =>
    simp only [Weak.producerStep, Interleaving.producerStep, hphase, Option.some.injEq] at hstep
    exact hstep ▸ ⟨rp, rc, wc, sr, sw, unread, staged, reads, writes, h⟩
  | checking single range =>
    rw [hphase] at hok
    obtain ⟨rfl, hlocal, hsingle⟩ := hok
    have hfree := h.base.freeSlots hlocal
    simp only [Weak.producerStep, Interleaving.producerStep, hphase, Option.some.injEq] at hstep
    subst hstep
    split
    · exact h.setProducer ⟨rfl, hlocal, hsingle⟩
    · exact h.setProducer (enter_ok hlocal hsingle (by omega))
  | loading single range =>
    rw [hphase] at hok
    obtain ⟨rfl, hlocal, hsingle⟩ := hok
    simp only [Weak.producerStep, hphase] at hstep
    obtain ⟨⟨loaded, own⟩, hload, hnext⟩ := Option.bind_eq_some_iff.mp hstep
    obtain rfl := Option.some.inj hnext
    exact h.producerLoads hload fun k hloaded hle _ =>
      ⟨rfl, hlocal, hsingle, k, hloaded, Nat.le_trans hrc hle, Nat.le_refl _⟩
  | caching single range loaded =>
    rw [hphase] at hok
    obtain ⟨rfl, hlocal, hsingle, p, rfl, hcp, hps⟩ := hok
    simp only [Weak.producerStep, Interleaving.producerStep, hphase, Option.some.injEq] at hstep
    subst hstep
    exact ⟨rp, p, wc, sr, sw, unread, [], reads, writes, {h with
      base := {h.base with
        readPositionCache := rfl, rc_le := Nat.le_trans hps hsr,
        room := Nat.le_trans hroom (Nat.add_le_add_right hcp _),
        producer := ⟨rfl, hlocal, hsingle⟩}
      rc_le := hps
      producerOk := ⟨rfl, hlocal, hsingle⟩}⟩
  | rechecking single range =>
    rw [hphase] at hok
    obtain ⟨rfl, hlocal, hsingle⟩ := hok
    have hfree := h.base.freeSlots hlocal
    simp only [Weak.producerStep, Interleaving.producerStep, hphase, Option.some.injEq] at hstep
    subst hstep
    split
    · exact h.setProducer (enter_ok hlocal hsingle (by simp at hroom; omega))
    · exact h.setProducer ⟨rfl, hlocal⟩
  | assertingWrite range =>
    rw [hphase] at hok
    obtain ⟨rfl, hlocal, hrange, hfits⟩ := hok
    simp only [Weak.producerStep, Interleaving.producerStep, hphase, Option.some.injEq] at hstep
    subst hstep
    exact h.setProducer ⟨rfl, hlocal, hrange, hfits, h.base.writePosition⟩
  | assertingRead range loaded =>
    rw [hphase] at hok
    obtain ⟨rfl, hlocal, hrange, hfits, rfl⟩ := hok
    simp only [Weak.producerStep, hphase] at hstep
    obtain ⟨⟨position, own⟩, hload, hnext⟩ := Option.bind_eq_some_iff.mp hstep
    obtain rfl := Option.some.inj hnext
    refine h.producerLoads hload fun k hposition hle hk => ?_
    obtain rfl : position = cursor k := hposition
    split
    · -- even a stale read cursor leaves room for the range
      rename_i hfull
      exfalso
      have hpos := List.length_pos_iff.mpr hrange
      rw [← BitVec.toNat_inj, toNat_sub_cursor (by omega) (by omega), N.word_toNat] at hfull
      omega
    · exact ⟨rfl, hlocal, hlocal, hfits⟩
  | constructing range pos rest =>
    cases rest with
    | nil =>
      rw [hphase] at hok
      obtain ⟨rfl, hlocal, rfl, hfits⟩ := hok
      simp only [Weak.producerStep, Interleaving.producerStep, hphase, Option.some.injEq] at hstep
      subst hstep
      refine h.setProducer ⟨by simp, hlocal, ?_⟩
      rw [hlocal, cursor_add]
    | cons x rest =>
      simp only [Weak.producerStep, hphase, Option.some.injEq] at hstep
      exact hstep ▸ h.construct hphase
  | publishing range newWrite =>
    rw [hphase] at hok
    obtain ⟨rfl, hlocal, rfl⟩ := hok
    simp only [Weak.producerStep, Interleaving.producerStep, hphase, Option.some.injEq] at hstep
    subst hstep
    exact ⟨rp, rc, wc, sr, sw, unread, range, reads, writes, {h with
      base := {h.base with producer := ⟨rfl, rfl, rfl⟩}
      producerOk := ⟨rfl, rfl, rfl⟩}⟩
  | storing range newWrite =>
    simp only [Weak.producerStep, hphase, Option.some.injEq] at hstep
    exact hstep ▸ h.store hphase
  | failed =>
    rw [hphase] at hok
    exact hok.elim

/-- The first unread element is taken from its slot. -/
theorem Inv.read (h : Inv N s rp rc wc sr sw unread staged reads writes) {pos : Word}
    {count : Nat} (hphase : s.base.consumer = .reading pos (count + 1)) :
    Sound N (s.access N type debug pos) := by
  have hok := h.consumerOk
  have hrp := h.base.rp_le
  have hwc := h.wc_le
  have hsw := h.sw_le
  rw [hphase] at hok
  obtain ⟨hlocal, rfl, hseen⟩ := hok
  obtain ⟨x, rest, rfl, hcell, hrest⟩ := h.base.next_unread (by omega)
  have hquiet := h.consumer_quiet hrp (by omega)
  have hnext : ConsumerOk s.base.queue.readPositionLocal (s.base.taken ++ [x]).length rp sw wc
      (.destroying (cursor s.base.taken.length) count) :=
    ⟨hlocal, by simp; omega, _, rfl, by simp, hrp⟩
  simp only [Weak.access, Interleaving.consumerStep, hphase, hcell]
  refine ⟨rp, rc, wc, sr, sw, rest, staged, reads, writes, {h with
    base := {h.base with
      log := by simp [h.base.log]
      rp_le := by simp; omega
      holds := by simpa using hrest
      consumer := hnext.mono hsw}
    taken_le := by simp; omega
    consumerOk := hnext
    released := ?_
    quiet := hquiet}⟩
  rw [calculateIndex_cursor]
  exact h.released.access hrp (by simp) (by simp)

/-- What is left of the element that was taken last is destroyed. -/
theorem Inv.destroy (h : Inv N s rp rc wc sr sw unread staged reads writes) {pos : Word}
    {count : Nat} (hphase : s.base.consumer = .destroying pos count) :
    Sound N (s.access N type debug pos) := by
  have hok := h.consumerOk
  have hroom := h.base.room
  have hrc := h.base.rc_le
  have hwc := h.wc_le
  have hlen := h.base.length_pushed
  rw [hphase] at hok
  obtain ⟨hlocal, hseen, p, rfl, htaken, hrpp⟩ := hok
  have hquiet := h.consumer_quiet hrpp (by omega)
  have hholds := h.base.holds
  rw [htaken] at hholds
  have hnext : ConsumerOk s.base.queue.readPositionLocal s.base.taken.length rp sw wc
      (.reading (cursor p + 1) count) := ⟨hlocal, by rw [cursor_succ, htaken], hseen⟩
  simp only [Weak.access, Interleaving.consumerStep, hphase]
  refine ⟨rp, rc, wc, sr, sw, unread, staged, reads, writes, {h with
    base := {h.base with holds := ?_, consumer := hnext.mono h.sw_le}
    consumerOk := hnext
    released := ?_
    quiet := hquiet}⟩
  · dsimp only
    rw [htaken, destroyAt, calculateIndex_cursor]
    exact hholds.update_front (by simp; omega)
  · rw [calculateIndex_cursor]
    exact h.released.access hrpp (htaken ▸ Nat.lt_succ_self _) (Nat.le_refl _)

/-- What the discarding loop of `clear` knows before its end. -/
theorem Inv.next_discarded (h : Inv N s rp rc wc sr sw unread staged reads writes)
    {pos writeEnd : Word} (hphase : s.base.consumer = .discarding pos writeEnd)
    (hdone : pos ≠ writeEnd) :
    pos = cursor s.base.taken.length ∧ s.base.taken.length < sw ∧ ∃ x rest, unread = x :: rest ∧
      s.base.queue.storage (calculateIndex N (cursor s.base.taken.length)) = some x ∧
      Holds N.size s.base.queue.storage (s.base.taken.length + 1) ((rest ++ staged).map some) ∧
      ConsumerOk s.base.queue.readPositionLocal (s.base.taken ++ [x]).length rp sw wc
        (.discarding (cursor s.base.taken.length + 1) writeEnd) := by
  have hok := h.consumerOk
  have hsw := h.sw_le
  rw [hphase] at hok
  obtain ⟨hlocal, rfl, p, rfl, htp, hcp, hps⟩ := hok
  have hlt : s.base.taken.length < p := Nat.lt_of_le_of_ne htp fun heq => hdone (heq ▸ rfl)
  obtain ⟨x, rest, hunread, hcell, hrest⟩ := h.base.next_unread (by omega)
  refine ⟨rfl, Nat.lt_of_lt_of_le hlt hps, x, rest, hunread, hcell, hrest, hlocal, ?_, p, rfl,
    by simp; omega, hcp, hps⟩
  rw [cursor_succ, List.length_append, List.length_singleton]

/-- An element that needs no destructor is discarded without its slot being accessed. -/
theorem Inv.discard (h : Inv N s rp rc wc sr sw unread staged reads writes)
    {pos writeEnd : Word} (hphase : s.base.consumer = .discarding pos writeEnd)
    (hdone : pos ≠ writeEnd) (htype : type.triviallyDestructible = true) :
    Sound N {s with base := s.base.consumerStep N type debug} := by
  obtain ⟨rfl, hlt, x, rest, rfl, hcell, hrest, hnext⟩ := h.next_discarded hphase hdone
  have hreach : s.base.taken.length ≤ (s.base.taken ++ [x]).length := by simp
  simp only [Interleaving.consumerStep, hphase, hdone, hcell, htype, if_true, if_false]
  exact ⟨rp, rc, wc, sr, sw, rest, staged, reads, writes, {h with
    base := {h.base with
      log := by simp [h.base.log]
      rp_le := Nat.le_trans h.base.rp_le hreach
      holds := by simpa using hrest
      consumer := hnext.mono h.sw_le}
    taken_le := by simp; omega
    consumerOk := hnext
    released := h.released.extend hreach}⟩

/-- An element is discarded by its destructor. -/
theorem Inv.discardDestroy (h : Inv N s rp rc wc sr sw unread staged reads writes)
    {pos writeEnd : Word} (hphase : s.base.consumer = .discarding pos writeEnd)
    (hdone : pos ≠ writeEnd) (htype : type.triviallyDestructible = false) :
    Sound N (s.access N type debug pos) := by
  obtain ⟨rfl, hlt, x, rest, rfl, hcell, hrest, hnext⟩ := h.next_discarded hphase hdone
  have hroom := h.base.room
  have hrc := h.base.rc_le
  have hrp := h.base.rp_le
  have hlen := h.base.length_pushed
  have hquiet := h.consumer_quiet hrp hlt
  have hreach : s.base.taken.length ≤ (s.base.taken ++ [x]).length := by simp
  simp only [Weak.access, Interleaving.consumerStep, hphase, hdone, hcell, htype, if_false,
    Bool.false_eq_true]
  refine ⟨rp, rc, wc, sr, sw, rest, staged, reads, writes, {h with
    base := {h.base with
      log := by simp [h.base.log]
      rp_le := Nat.le_trans hrp hreach
      holds := ?_
      consumer := hnext.mono h.sw_le}
    taken_le := by simp; omega
    consumerOk := hnext
    released := ?_
    quiet := hquiet}⟩
  · rw [List.length_append, List.length_singleton, destroyAt, calculateIndex_cursor]
    exact hrest.update_front (by simp at hlen ⊢; omega)
  · rw [calculateIndex_cursor]
    exact h.released.access hrp (by simp) hreach

theorem Inv.consumerStep (h : Inv N s rp rc wc sr sw unread staged reads writes) {message : Nat}
    {s' : Weak T} (hstep : s.consumerStep N type debug message = some s') : Sound N s' := by
  have hsize := N.size_le
  have hok := h.consumerOk
  have hroom := h.base.room
  have hrc := h.base.rc_le
  have hrp := h.base.rp_le
  have hwc := h.wc_le
  have hsw := h.sw_le
  cases hphase : s.base.consumer with
  | idle =>
    simp only [Weak.consumerStep, Interleaving.consumerStep, hphase, Option.some.injEq] at hstep
    exact hstep ▸ ⟨rp, rc, wc, sr, sw, unread, staged, reads, writes, h⟩
  | checking call =>
    rw [hphase] at hok
    simp only [Weak.consumerStep, Interleaving.consumerStep, hphase, Option.some.injEq] at hstep
    subst hstep
    split
    · exact h.setConsumer hok
    · exact h.setConsumer hok
  | loading call =>
    rw [hphase] at hok
    obtain ⟨hlocal, rfl, hle⟩ := hok
    simp only [Weak.consumerStep, hphase] at hstep
    obtain ⟨⟨loaded, own⟩, hload, hnext⟩ := Option.bind_eq_some_iff.mp hstep
    obtain rfl := Option.some.inj hnext
    exact h.consumerLoads hload fun k hloaded hk _ =>
      ⟨hlocal, rfl, hle, k, hloaded, Nat.le_trans hwc hk, Nat.le_refl _⟩
  | caching call loaded =>
    rw [hphase] at hok
    obtain ⟨hlocal, rfl, hle, p, rfl, hcp, hps⟩ := hok
    simp only [Weak.consumerStep, Interleaving.consumerStep, hphase, Option.some.injEq] at hstep
    subst hstep
    exact ⟨_, rc, p, sr, sw, unread, staged, reads, writes, {h with
      base := {h.base with
        writePositionCache := rfl, wc_le := Nat.le_trans hps hsw,
        consumer := ⟨hlocal, rfl, Nat.le_trans hle hcp⟩}
      wc_le := hps
      consumerOk := ⟨hlocal, rfl, Nat.le_trans hle hcp⟩}⟩
  | deciding call =>
    rw [hphase] at hok
    obtain ⟨hlocal, rfl, hle⟩ := hok
    simp only [Weak.consumerStep, Interleaving.consumerStep, hphase, Option.some.injEq] at hstep
    subst hstep
    refine h.setConsumer (afterReadable_ok call hlocal ?_ hle)
    rw [hlocal, h.base.writePositionCache, toNat_sub_cursor hle (by omega)]
  | assertingWrite =>
    rw [hphase] at hok
    obtain ⟨hlocal, rfl, hlt⟩ := hok
    simp only [Weak.consumerStep, hphase] at hstep
    obtain ⟨⟨loaded, own⟩, hload, hnext⟩ := Option.bind_eq_some_iff.mp hstep
    obtain rfl := Option.some.inj hnext
    exact h.consumerLoads hload fun k hloaded hk _ =>
      ⟨hlocal, rfl, hlt, k, hloaded, Nat.le_trans hwc hk, Nat.le_refl _⟩
  | assertingRead loaded =>
    rw [hphase] at hok
    obtain ⟨hlocal, rfl, hlt, p, rfl, hcp, hps⟩ := hok
    simp only [Weak.consumerStep, Interleaving.consumerStep, hphase, Option.some.injEq] at hstep
    subst hstep
    split
    · -- even a stale write cursor is behind an element
      rename_i hempty
      exfalso
      rw [h.base.readPosition, ← BitVec.toNat_inj, toNat_sub_cursor (by omega) (by omega)]
        at hempty
      exact absurd hempty (by show p - s.base.taken.length ≠ 0; omega)
    · exact h.setConsumer ⟨hlocal, hlocal, hlt⟩
  | reading pos count =>
    cases count with
    | zero =>
      rw [hphase] at hok
      obtain ⟨hlocal, rfl, hseen⟩ := hok
      simp only [Weak.consumerStep, Interleaving.consumerStep, hphase, Option.some.injEq] at hstep
      subst hstep
      exact h.setConsumer ⟨hlocal, rfl, hseen⟩
    | succ count =>
      simp only [Weak.consumerStep, hphase, Option.some.injEq] at hstep
      exact hstep ▸ h.read hphase
  | destroying pos count =>
    simp only [Weak.consumerStep, hphase, Option.some.injEq] at hstep
    exact hstep ▸ h.destroy hphase
  | loadingEnd =>
    rw [hphase] at hok
    obtain ⟨hlocal, rfl, hle⟩ := hok
    simp only [Weak.consumerStep, hphase] at hstep
    obtain ⟨⟨loaded, own⟩, hload, hnext⟩ := Option.bind_eq_some_iff.mp hstep
    obtain rfl := Option.some.inj hnext
    exact h.consumerLoads hload fun k hloaded hk _ =>
      ⟨hlocal, hlocal, k, hloaded, by omega, Nat.le_trans hwc hk, Nat.le_refl _⟩
  | discarding pos writeEnd =>
    by_cases hdone : pos = writeEnd
    · rw [hphase] at hok
      obtain ⟨hlocal, rfl, p, rfl, htp, hcp, hps⟩ := hok
      obtain rfl := (cursor_eq_iff htp (by omega)).mp hdone
      simp only [Weak.consumerStep, Interleaving.consumerStep, hphase, if_true, decide_true,
        Bool.true_or, Option.some.injEq] at hstep
      subst hstep
      exact h.setConsumer ⟨hlocal, rfl, hcp⟩
    · simp only [Weak.consumerStep, hphase, hdone, decide_false, Bool.false_or] at hstep
      cases htype : type.triviallyDestructible with
      | true =>
        rw [if_pos htype] at hstep
        exact Option.some.inj hstep ▸ h.discard hphase hdone htype
      | false =>
        rw [if_neg (htype ▸ Bool.false_ne_true)] at hstep
        exact Option.some.inj hstep ▸ h.discardDestroy hphase hdone htype
  | cachingEnd writeEnd =>
    rw [hphase] at hok
    obtain ⟨hlocal, rfl, hle⟩ := hok
    simp only [Weak.consumerStep, Interleaving.consumerStep, hphase, Option.some.injEq] at hstep
    subst hstep
    exact ⟨rp, rc, s.base.taken.length, sr, sw, unread, staged, reads, writes, {h with
      base := {h.base with
        writePositionCache := rfl, wc_le := by simp [h.base.log],
        consumer := ⟨hlocal, rfl, Nat.le_refl _⟩}
      wc_le := h.taken_le
      consumerOk := ⟨hlocal, rfl, Nat.le_refl _⟩}⟩
  | publishing newRead =>
    rw [hphase] at hok
    obtain ⟨hlocal, rfl, hle⟩ := hok
    simp only [Weak.consumerStep, Interleaving.consumerStep, hphase, Option.some.injEq] at hstep
    subst hstep
    exact ⟨rp, rc, wc, sr, sw, unread, staged, reads, writes, {h with
      base := {h.base with consumer := ⟨rfl, rfl, hle⟩}
      consumerOk := ⟨rfl, rfl, hle⟩}⟩
  | storing newRead =>
    rw [hphase] at hok
    obtain ⟨hlocal, rfl, hle⟩ := hok
    simp only [Weak.consumerStep, Interleaving.consumerStep, hphase, Option.some.injEq] at hstep
    subst hstep
    exact ⟨s.base.taken.length, rc, wc, sr, sw, unread, staged,
      reads ++ [s.base.taken.length], writes, {h with
        base := {h.base with
          readPosition := rfl, rc_le := Nat.le_trans hrc hrp, rp_le := Nat.le_refl _,
          producer := h.base.producer.mono hrp, consumer := ⟨hlocal, rfl, hle⟩}
        sr_le := Nat.le_trans h.sr_le hrp
        consumerOk := ⟨hlocal, rfl, hle⟩
        released := h.released.release hrp
        producerKnows := h.producerKnows.release _ _}⟩
  | failed =>
    rw [hphase] at hok
    exact hok.elim

theorem Inv.step (h : Inv N s rp rc wc sr sw unread staged reads writes) {event : Event T × Nat}
    {s' : Weak T} {o : Unit} (hstep : s.step N type debug event = some (s', o)) : Sound N s' := by
  have hproducer := h.producerOk
  have hconsumer := h.consumerOk
  obtain ⟨event, message⟩ := event
  cases event with
  | tryEmplace x =>
    cases hphase : s.base.producer <;>
      simp only [Weak.step, Interleaving.step, hphase, Option.map, reduceCtorEq] at hstep
    obtain ⟨rfl, -⟩ := Prod.mk.inj (Option.some.inj hstep)
    rw [hphase] at hproducer
    exact h.setProducer ⟨hproducer.1, hproducer.2, fun _ => List.cons_ne_nil _ _⟩
  | tryEmplaceRange range =>
    cases hphase : s.base.producer <;>
      simp only [Weak.step, Interleaving.step, hphase, Option.map, reduceCtorEq] at hstep
    obtain ⟨rfl, -⟩ := Prod.mk.inj (Option.some.inj hstep)
    rw [hphase] at hproducer
    exact h.setProducer ⟨hproducer.1, hproducer.2, by simp⟩
  | producer =>
    obtain ⟨next, hnext, heq⟩ := Option.map_eq_some_iff.mp hstep
    obtain ⟨rfl, -⟩ := Prod.mk.inj heq
    exact h.producerStep hnext
  | pop call =>
    cases hphase : s.base.consumer <;>
      simp only [Weak.step, Interleaving.step, hphase, Option.map, reduceCtorEq] at hstep
    obtain ⟨rfl, -⟩ := Prod.mk.inj (Option.some.inj hstep)
    rw [hphase] at hconsumer
    exact h.setConsumer hconsumer
  | clear =>
    cases hphase : s.base.consumer <;>
      simp only [Weak.step, Interleaving.step, hphase, Option.map, reduceCtorEq] at hstep
    obtain ⟨rfl, -⟩ := Prod.mk.inj (Option.some.inj hstep)
    rw [hphase] at hconsumer
    exact h.setConsumer hconsumer
  | consumer =>
    obtain ⟨next, hnext, heq⟩ := Option.map_eq_some_iff.mp hstep
    obtain ⟨rfl, -⟩ := Prod.mk.inj heq
    exact h.consumerStep hnext

theorem Reached.sound (h : Reached N type debug s) : Sound N s := by
  refine Transition.Reachable.invariant ?_ h (sound_init N)
  rintro _ _ _ _ ⟨_, _, _, _, _, _, _, _, _, hs⟩ - hstep
  exact hs.step hstep

/-! ### No data race -/

structure RaceFree (N : Capacity) (s : Weak T) : Prop where
  /-- No slot was accessed without knowing of all that the other party did to it. -/
  quiet : s.raced = false
  ordered : s.base.taken <+: s.base.pushed
  /-- No assertion fails, and raw storage is never read. -/
  producer : s.base.producer ≠ .failed
  consumer : s.base.consumer ≠ .failed
  /-- What was not taken is still there. -/
  contents : s.base.consumer = .idle →
    s.base.queue.contents N = s.base.pushed.drop s.base.taken.length

/-- However stale the cursors are that the two parties load, there is no data race, and
nothing is lost, duplicated or reordered. -/
theorem race_free (hreached : Reached N type debug s) : RaceFree N s := by
  obtain ⟨rp, rc, wc, sr, sw, unread, staged, reads, writes, h⟩ := hreached.sound
  have hbase := h.base
  have hlen := hbase.length_pushed
  have hroom := hbase.room
  have hrc := hbase.rc_le
  have hrp := hbase.rp_le
  refine ⟨h.quiet, ⟨unread, hbase.log.symm⟩, ?_, ?_, ?_⟩
  · intro hphase
    have hok := hbase.producer
    rw [hphase] at hok
    exact hok
  · intro hphase
    have hok := hbase.consumer
    rw [hphase] at hok
    exact hok
  · intro hphase
    have hok := hbase.consumer
    rw [hphase] at hok
    obtain ⟨-, rfl, -⟩ := hok
    have hholds := hbase.holds
    rw [List.map_append, holds_append] at hholds
    rw [hbase.log, List.drop_left]
    exact contents_eq hbase.readPosition (hlen ▸ hbase.writePosition) (by omega) hholds.1

/-- The consumer first misses a push that was stored, then loads it. -/
theorem race_free_stale : ∃ s : Weak Nat,
    s.base.pushed = [7] ∧ s.base.taken = [7] ∧ RaceFree ⟨0, by decide⟩ s := by
  have hrun : ∃ s : Weak Nat,
      Reached ⟨0, by decide⟩ ⟨false, false, by decide⟩ true s ∧
        s.base.pushed = [7] ∧ s.base.taken = [7] :=
    ⟨_, .of_run ((.tryEmplace 7, 0) :: List.replicate 7 (.producer, 0) ++
      (.pop .tryDequeue, 0) :: List.replicate 4 (.consumer, 0) ++
      (.pop .tryDequeue, 0) :: List.replicate 9 (.consumer, 1)) rfl, rfl, rfl⟩
  obtain ⟨s, hreached, hpushed, htaken⟩ := hrun
  exact ⟨s, hpushed, htaken, race_free hreached⟩

end Weak

end SpscQueue

end ExchangeEngine
