import ExchangeEngine.ConcurrentQueue.SpscObservers
import ExchangeEngine.Library.Atomic

/-!
The `spsc_queue` of a type that is not trivially copyable as an atomic object. Seen from
its two parties, who only know when they call and what the call returns, an interleaving of
the steps of their calls is one in which each call takes effect at once: a push when it
stores the write cursor, a rejected push when it loads the read cursor, a pop when it stores
the read cursor, and a pop that finds nothing when it loads the write cursor. The object is
looser than a queue: a batch pop may leave elements behind that it has room for, and a
`clear` may leave any.
-/

namespace ExchangeEngine

open Cyclic Transition Atomic

namespace SpscQueue

variable {T : Type}

/-! ### A bounded queue with atomic operations, batches and clearing left loose -/

inductive Request (T : Type) where
  | push (range : List T)
  | pop (call : Pop)
  | clear

/-- Whether a range was enqueued, or the elements that were delivered or discarded. -/
inductive Answer (T : Type) where
  | pushed (ok : Bool)
  | popped (xs : List T)

/-- How many elements a call that finds some may take: one, or for a batch any number within
its limit, since the consumer may know of some of the elements only. -/
def Pop.Takes : Pop → Nat → Prop
  | .tryDequeue, k => k = 1
  | .tryDequeueRange limit, k | .consumeUpTo limit, k => k ≤ limit ∧ (k = 0 → limit = 0)
  | .consumeAll, k => 0 < k

/-- What the operations do to a queue of at most `n` elements. Pushes and `try_dequeue` are
those of a bounded queue; a batch pop takes any front part of it that it may take, and a
`clear` any front part at all. -/
inductive LooseFifo (n : Nat) : List T → Request T → Answer T → List T → Prop
  | accepted {xs range : List T} (fits : xs.length + range.length ≤ n) :
      LooseFifo n xs (.push range) (.pushed true) (xs ++ range)
  | rejected {xs range : List T} (full : n < xs.length + range.length) :
      LooseFifo n xs (.push range) (.pushed false) xs
  | popped {call : Pop} {xs rest : List T} (takes : call.Takes xs.length) :
      LooseFifo n (xs ++ rest) (.pop call) (.popped xs) rest
  | nothing {call : Pop} : LooseFifo n [] (.pop call) (.popped []) []
  | cleared {xs rest : List T} : LooseFifo n (xs ++ rest) .clear (.popped xs) rest

namespace Interleaving

/-! ### What the parties see of an interleaving -/

/-- The call or the return that a step from `s` to `s'` is. `base` elements were taken
before the open call of the consumer. -/
def report (s s' : Interleaving T) (base : Nat) :
    Event T → Option (Action Party (Request T) (Answer T))
  | .tryEmplace x => some (.call .producer (.push [x]))
  | .tryEmplaceRange range => some (.call .producer (.push range))
  | .pop call => some (.call .consumer (.pop call))
  | .clear => some (.call .consumer .clear)
  | .producer =>
    match s.producer with
    | .rechecking _ _ =>
      if s'.idle .producer then some (.ret .producer (.pushed false)) else none
    | .storing _ _ => some (.ret .producer (.pushed true))
    | _ => none
  | .consumer =>
    if s.consumer ≠ .idle ∧ s'.consumer = .idle then
      some (.ret .consumer (.popped (s'.taken.drop base)))
    else none

/-- How many elements were taken before the open call of the consumer. -/
def baseAfter (s : Interleaving T) (base : Nat) (event : Event T) : Nat :=
  if event.caller = some .consumer then s.taken.length else base

/-- The interleaving with its calls and returns. -/
def reported (N : Capacity) (type : ElementType) (debug : Bool) (w : Interleaving T × Nat)
    (event : Event T) :
    Option ((Interleaving T × Nat) × Option (Action Party (Request T) (Answer T))) :=
  (w.1.step N type debug event).map fun (s', _) =>
    ((s', baseAfter w.1 w.2 event), report w.1 s' w.2 event)

/-- The history of an interleaving from an empty queue. -/
def IsHistory (N : Capacity) (type : ElementType) (debug : Bool)
    (history : List (Action Party (Request T) (Answer T))) : Prop :=
  ∃ events outs w, Runs (reported N type debug) (fun _ _ => True) (({} : Interleaving T), 0) events
    outs w ∧ outs.reduceOption = history

/-! ### The atomic queue behind an interleaving -/

/-- What is pushed and not released yet. -/
def held (s : Interleaving T) : List T := s.pushed.drop (s.pushed.length - s.queue.size.toNat)

/-- The status of the producer's operation. A push is rejected once the loaded read cursor
leaves too little room. -/
def ProducerStands (N : Capacity) (s : Interleaving T) :
    ProducerPhase T → Status (Request T) (Answer T) → Prop
  | .idle, status => status = .idle
  | .caching _ range loaded, status =>
    status = if (N.word - (s.queue.writePositionLocal - loaded)).toNat < range.length then
      .answered (.pushed false) else .called (.push range)
  | .rechecking _ range, status =>
    status = if (s.queue.freeSlots N).toNat < range.length then .answered (.pushed false)
      else .called (.push range)
  | .checking _ range, status | .loading _ range, status | .assertingWrite range, status
  | .assertingRead range _, status | .constructing range _ _, status
  | .publishing range _, status | .storing range _, status => status = .called (.push range)
  | .failed, _ => False

/-- The consumer will have taken `k` elements when it returns. -/
def Finishing (k : Nat) (status : Status (Request T) (Answer T)) : Prop :=
  (∃ call : Pop, status = .called (.pop call) ∧ call.Takes k) ∨
    (status = .answered (.popped []) ∧ k = 0)

/-- The status of the consumer's operation. A pop has found nothing once the write cursor
it knows of is its own. -/
def ConsumerStands (s : Interleaving T) (base : Nat) :
    ConsumerPhase → Status (Request T) (Answer T) → Prop
  | .idle, status => status = .idle
  | .checking call, status | .loading call, status => status = .called (.pop call)
  | .caching call loaded, status =>
    status = if s.queue.readPositionLocal = loaded then .answered (.popped [])
      else .called (.pop call)
  | .deciding call, status =>
    status = if s.queue.readPositionLocal = s.queue.writePositionCache then .answered (.popped [])
      else .called (.pop call)
  | .assertingWrite, status | .assertingRead _, status => status = .called (.pop .tryDequeue)
  | .reading _ count, status | .destroying _ count, status =>
    Finishing (s.taken.length - base + count) status
  | .loadingEnd, status | .discarding _ _, status | .cachingEnd _, status =>
    status = .called .clear
  | .publishing _, status | .storing _, status =>
    status = .called .clear ∨ Finishing (s.taken.length - base) status
  | .failed, _ => False

/-- The atomic queue that an interleaving with `base` taken elements stands for. -/
structure Stands (N : Capacity) (w : Interleaving T × Nat)
    (a : Atomic.State Party (List T) (Request T) (Answer T)) : Prop where
  sound : Sound N w.1
  base : w.1.consumer ≠ .idle → w.2 = w.1.pushed.length - w.1.queue.size.toNat
  object : a.object = held w.1
  producer : ProducerStands N w.1 w.1.producer (a.status .producer)
  consumer : ConsumerStands w.1 w.2 w.1.consumer (a.status .consumer)

variable {N : Capacity} {type : ElementType} {debug : Bool} {s s' : Interleaving T} {base : Nat}
  {a a' : Atomic.State Party (List T) (Request T) (Answer T)} {rp rc wc rp' rc' wc' : Nat}
  {unread staged unread' staged' : List T} {status : Status (Request T) (Answer T)}

theorem Inv.released (h : Inv N s rp rc wc unread staged) :
    s.pushed.length - s.queue.size.toNat = rp := by
  have := h.length_pushed
  have := h.rp_le
  rw [h.size]
  omega

theorem Inv.held (h : Inv N s rp rc wc unread staged) : held s = s.pushed.drop rp := by
  rw [Interleaving.held, h.released]

theorem Inv.length_held (h : Inv N s rp rc wc unread staged) :
    (Interleaving.held s).length = s.pushed.length - rp := by
  rw [h.held, List.length_drop]

/-- The count of released slots is read off the read cursor. -/
theorem Inv.released_unique (h : Inv N s rp rc wc unread staged)
    (h' : Inv N s' rp' rc' wc' unread' staged')
    (hread : s'.queue.readPosition = s.queue.readPosition)
    (hle : s.taken.length ≤ s'.taken.length) (hnext : s'.taken.length ≤ s.taken.length + 1) :
    rp' = rp := by
  have := N.size_le
  have := h.room
  have := h'.room
  have := h.rc_le
  have := h'.rc_le
  have := h.rp_le
  have := h'.rp_le
  have := h.length_pushed
  have := h'.length_pushed
  rw [h.readPosition, h'.readPosition] at hread
  rcases Nat.le_total rp rp' with hle | hle
  · exact ((cursor_eq_iff hle (by omega)).mp hread.symm).symm
  · exact (cursor_eq_iff hle (by omega)).mp hread

theorem held_of_eq (hpushed : s'.pushed = s.pushed)
    (hread : s'.queue.readPosition = s.queue.readPosition)
    (hwrite : s'.queue.writePosition = s.queue.writePosition) : held s' = held s := by
  rw [held, held, SpscQueue.size, SpscQueue.size, hpushed, hread, hwrite]

theorem ProducerStands.keep (h : ProducerStands N s s.producer status)
    (hkeeps : KeepsProducer s s') : ProducerStands N s' s'.producer status := by
  rw [hkeeps.producer]
  cases hphase : s.producer <;> rw [hphase] at h <;>
    simp only [ProducerStands, SpscQueue.freeSlots, hkeeps.writePositionLocal,
      hkeeps.readPositionCache] at h ⊢ <;> exact h

theorem ConsumerStands.keep (h : ConsumerStands s base s.consumer status)
    (hkeeps : KeepsConsumer s s') : ConsumerStands s' base s'.consumer status := by
  rw [hkeeps.consumer]
  cases hphase : s.consumer <;> rw [hphase] at h <;>
    simp only [ConsumerStands, hkeeps.taken, hkeeps.readPositionLocal,
      hkeeps.writePositionCache] at h ⊢ <;> exact h

/-! ### The producer's steps -/

/-- A step of the producer that publishes nothing. -/
theorem Stands.producer_quiet (h : Stands N (s, base) a) (hsound : Sound N s')
    (hkeeps : KeepsConsumer s s') (hpushed : s'.pushed = s.pushed)
    (hwrite : s'.queue.writePosition = s.queue.writePosition) (hobject : a'.object = a.object)
    (hconsumer : a'.status .consumer = a.status .consumer)
    (hproducer : ProducerStands N s' s'.producer (a'.status .producer)) :
    Stands N (s', base) a' where
  sound := hsound
  base := by
    intro hbusy
    have hsize : s'.queue.size = s.queue.size := by
      rw [SpscQueue.size, SpscQueue.size, hkeeps.readPosition, hwrite]
    rw [hpushed, hsize]
    exact h.base (hkeeps.consumer ▸ hbusy)
  object := by rw [hobject, h.object, held_of_eq hpushed hkeeps.readPosition hwrite]
  producer := hproducer
  consumer := hconsumer ▸ h.consumer.keep hkeeps

/-- What a step of the producer has to show that is neither a load of the read cursor nor
a return. -/
theorem Stands.producer_silent (h : Stands N (s, base) a)
    (hpushed : (s.producerStep N debug).pushed = s.pushed)
    (hwrite : (s.producerStep N debug).queue.writePosition = s.queue.writePosition)
    (hproducer : ProducerStands N (s.producerStep N debug) (s.producerStep N debug).producer
      (a.status .producer))
    (hreport : report s (s.producerStep N debug) base .producer = none) :
    ∃ a', Execution (LooseFifo N.size) a
        (report s (s.producerStep N debug) base .producer).toList a' ∧
      Stands N (s.producerStep N debug, base) a' := by
  obtain ⟨rp, rc, wc, unread, staged, hinv⟩ := h.sound
  rw [hreport]
  exact ⟨a, Execution.nil a,
    h.producer_quiet hinv.producerStep hinv.keepsConsumer hpushed hwrite rfl rfl hproducer⟩

theorem producerStands_enter {q : SpscQueue T} {single : Bool} {range : List T}
    (hstatus : status = .called (.push range)) :
    ProducerStands N s (enter debug q single range) status := by
  unfold enter
  split <;> exact hstatus

theorem idle_enter (q : SpscQueue T) (single : Bool) (range : List T) :
    ({s with producer := enter debug q single range} : Interleaving T).idle .producer = false := by
  unfold enter
  split <;> rfl

/-- The producer loads the read cursor, which it may then find too far behind. -/
theorem Stands.loadRead (h : Stands N (s, base) a) {single : Bool} {range : List T}
    (hphase : s.producer = .loading single range) :
    ∃ a', Execution (LooseFifo N.size) a
        (report s (s.producerStep N debug) base .producer).toList a' ∧
      Stands N (s.producerStep N debug, base) a' := by
  obtain ⟨rp, rc, wc, unread, staged, hinv⟩ : Sound N s := h.sound
  have hsound : Sound N (s.producerStep N debug) := hinv.producerStep
  have hkeeps : KeepsConsumer s (s.producerStep N debug) := hinv.keepsConsumer
  have hstands := h.producer
  have hok := hinv.producer
  have hroom := hinv.room
  have hrc := hinv.rc_le
  have hrp := hinv.rp_le
  have hlen := hinv.length_pushed
  have hheld := hinv.length_held
  rw [hphase] at hstands hok
  obtain ⟨rfl, hlocal, -⟩ := hok
  have hstep : s.producerStep N debug =
      {s with producer := .caching single range s.queue.readPosition} := by
    simp only [Interleaving.producerStep, hphase]
  have hfree : (N.word - (s.queue.writePositionLocal - s.queue.readPosition)).toNat =
      rp + N.size - s.pushed.length := by
    rw [hlocal, hinv.readPosition]
    exact N.free_cursor (by omega) (by simp at hroom; omega)
  by_cases hfull : (N.word - (s.queue.writePositionLocal - s.queue.readPosition)).toNat <
      range.length
  · -- the loaded cursor is exact, so the queue is too full at this moment
    refine ⟨⟨a.object, Function.update a.status .producer (.answered (.pushed false))⟩, ?_, ?_⟩
    · simp only [report, hphase]
      refine Execution.act hstands (.rejected ?_)
      rw [h.object, hheld]
      omega
    · rw [hstep] at hsound hkeeps ⊢
      refine h.producer_quiet hsound hkeeps rfl rfl rfl rfl ?_
      simp only [ProducerStands, Function.update_self, if_pos hfull]
  · refine h.producer_silent ?_ ?_ ?_ (by simp only [report, hphase])
    · rw [hstep]
    · rw [hstep]
    · rw [hstep]
      exact hstands.trans (if_neg hfull).symm

/-- The producer enters the queue, or returns what the loaded read cursor has settled. -/
theorem Stands.recheck (h : Stands N (s, base) a) {single : Bool} {range : List T}
    (hphase : s.producer = .rechecking single range) :
    ∃ a', Execution (LooseFifo N.size) a
        (report s (s.producerStep N debug) base .producer).toList a' ∧
      Stands N (s.producerStep N debug, base) a' := by
  obtain ⟨rp, rc, wc, unread, staged, hinv⟩ : Sound N s := h.sound
  have hsound : Sound N (s.producerStep N debug) := hinv.producerStep
  have hkeeps : KeepsConsumer s (s.producerStep N debug) := hinv.keepsConsumer
  have hstands := h.producer
  rw [hphase] at hstands
  by_cases hfits : range.length ≤ (s.queue.freeSlots N).toNat
  · have hstep : s.producerStep N debug =
        {s with producer := enter debug s.queue single range} := by
      simp only [Interleaving.producerStep, hphase, if_pos hfits]
    refine h.producer_silent (by rw [hstep]) (by rw [hstep]) ?_ ?_
    · rw [hstep]
      exact producerStands_enter (hstands.trans (if_neg (Nat.not_lt.mpr hfits)))
    · simp only [report, hphase, hstep, idle_enter]
      rfl
  · have hstep : s.producerStep N debug = {s with producer := .idle} := by
      simp only [Interleaving.producerStep, hphase, if_neg hfits]
    have hanswered : a.status .producer = .answered (.pushed false) :=
      hstands.trans (if_pos (Nat.not_le.mp hfits))
    refine ⟨{a with status := Function.update a.status .producer .idle}, ?_, ?_⟩
    · simp only [report, hphase, hstep]
      exact Execution.ret hanswered
    · rw [hstep] at hsound hkeeps ⊢
      refine h.producer_quiet hsound hkeeps rfl rfl rfl rfl ?_
      simp only [ProducerStands, Function.update_self]

/-- The write cursor is stored: the elements are pushed, and the call returns. -/
theorem Stands.publish (h : Stands N (s, base) a) {range : List T} {newWrite : Word}
    (hphase : s.producer = .storing range newWrite) :
    ∃ a', Execution (LooseFifo N.size) a
        (report s (s.producerStep N debug) base .producer).toList a' ∧
      Stands N (s.producerStep N debug, base) a' := by
  obtain ⟨rp, rc, wc, unread, staged, hinv⟩ : Sound N s := h.sound
  have hsound : Sound N (s.producerStep N debug) := hinv.producerStep
  have hkeeps : KeepsConsumer s (s.producerStep N debug) := hinv.keepsConsumer
  have hstands := h.producer
  have hok := hinv.producer
  have hroom := hinv.room
  have hrc := hinv.rc_le
  have hrp := hinv.rp_le
  have hlen := hinv.length_pushed
  have hheld := hinv.length_held
  rw [hphase] at hstands hok
  obtain ⟨rfl, -, -⟩ := hok
  have hstep : s.producerStep N debug = {s with
      queue := {s.queue with writePosition := newWrite}
      producer := .idle
      pushed := s.pushed ++ range} := by
    simp only [Interleaving.producerStep, hphase]
  obtain ⟨rp', _, _, _, _, hinv'⟩ := hsound
  have hsame : rp' = rp := by
    refine hinv.released_unique hinv' hkeeps.readPosition ?_ ?_ <;> rw [hkeeps.taken]
    omega
  subst hsame
  have hheld' : held (s.producerStep N debug) = a.object ++ range := by
    rw [hinv'.held, h.object, hinv.held, hstep, List.drop_append_of_le_length (by omega)]
  refine ⟨⟨a.object ++ range, Function.update a.status .producer .idle⟩, ?_, ?_⟩
  · simp only [report, hphase]
    refine Execution.act_ret hstands (.accepted ?_)
    rw [h.object, hheld]
    omega
  · constructor
    · exact ⟨_, _, _, _, _, hinv'⟩
    · intro hbusy
      rw [hkeeps.consumer] at hbusy
      rw [hinv'.released, ← hinv.released]
      exact h.base hbusy
    · exact hheld'.symm
    · rw [hstep]
      simp only [ProducerStands, Function.update_self]
    · exact h.consumer.keep hkeeps

theorem Stands.producerStep (h : Stands N (s, base) a) :
    ∃ a', Execution (LooseFifo N.size) a
        (report s (s.producerStep N debug) base .producer).toList a' ∧
      Stands N (s.producerStep N debug, base) a' := by
  obtain ⟨rp, rc, wc, unread, staged, hinv⟩ : Sound N s := h.sound
  have hsound : Sound N (s.producerStep N debug) := hinv.producerStep
  have hstands := h.producer
  have hok := hinv.producer
  cases hphase : s.producer with
  | idle =>
    have hstep : s.producerStep N debug = s := producerStep_of_idle hphase
    rw [hphase] at hstands
    refine h.producer_silent (by rw [hstep]) (by rw [hstep]) ?_ ?_
    · rw [hstep, hphase]
      exact hstands
    · simp only [report, hphase]
  | checking single range =>
    rw [hphase] at hstands
    refine h.producer_silent ?_ ?_ ?_ (by simp only [report, hphase]) <;>
      simp only [Interleaving.producerStep, hphase] <;> split
    · rfl
    · rfl
    · rfl
    · rfl
    · exact hstands
    · exact producerStands_enter hstands
  | loading single range => exact h.loadRead hphase
  | caching single range loaded =>
    rw [hphase] at hstands
    refine h.producer_silent ?_ ?_ ?_ (by simp only [report, hphase]) <;>
      simp only [Interleaving.producerStep, hphase]
    exact hstands
  | rechecking single range => exact h.recheck hphase
  | assertingWrite range =>
    rw [hphase] at hstands
    refine h.producer_silent ?_ ?_ ?_ (by simp only [report, hphase]) <;>
      simp only [Interleaving.producerStep, hphase]
    exact hstands
  | assertingRead range loaded =>
    rw [hphase] at hstands
    have hstep : s.producerStep N debug =
        {s with producer := .constructing range s.queue.writePositionLocal range} := by
      have hnot := hsound.not_failed.1
      simp only [Interleaving.producerStep, hphase] at hnot ⊢
      split at hnot
      · exact absurd rfl hnot
      · rename_i hroomy
        rw [if_neg hroomy]
    refine h.producer_silent (by rw [hstep]) (by rw [hstep]) ?_ (by simp only [report, hphase])
    rw [hstep]
    exact hstands
  | constructing range pos rest =>
    rw [hphase] at hstands
    cases rest with
    | nil =>
      refine h.producer_silent ?_ ?_ ?_ (by simp only [report, hphase]) <;>
        simp only [Interleaving.producerStep, hphase]
      exact hstands
    | cons x rest =>
      refine h.producer_silent ?_ ?_ ?_ (by simp only [report, hphase]) <;>
        simp only [Interleaving.producerStep, hphase]
      exact hstands
  | publishing range newWrite =>
    rw [hphase] at hstands
    refine h.producer_silent ?_ ?_ ?_ (by simp only [report, hphase]) <;>
      simp only [Interleaving.producerStep, hphase]
    exact hstands
  | storing range newWrite => exact h.publish hphase
  | failed =>
    rw [hphase] at hok
    exact hok.elim

/-! ### The consumer's steps -/

/-- A step of the consumer that releases nothing. -/
theorem Stands.consumer_quiet (h : Stands N (s, base) a) (hsound : Sound N s')
    (hkeeps : KeepsProducer s s') (hread : s'.queue.readPosition = s.queue.readPosition)
    (hbusy : s'.consumer ≠ .idle → s.consumer ≠ .idle) (hobject : a'.object = a.object)
    (hproducer : a'.status .producer = a.status .producer)
    (hconsumer : ConsumerStands s' base s'.consumer (a'.status .consumer)) :
    Stands N (s', base) a' where
  sound := hsound
  base := by
    intro hbusy'
    have hsize : s'.queue.size = s.queue.size := by
      rw [SpscQueue.size, SpscQueue.size, hkeeps.writePosition, hread]
    rw [hkeeps.pushed, hsize]
    exact h.base (hbusy hbusy')
  object := by rw [hobject, h.object, held_of_eq hkeeps.pushed hread hkeeps.writePosition]
  producer := hproducer ▸ h.producer.keep hkeeps
  consumer := hconsumer

/-- What a step inside a call of the consumer has to show that neither loads the write
cursor nor stores the read cursor. -/
theorem Stands.consumer_silent (h : Stands N (s, base) a) (hbusy : s.consumer ≠ .idle)
    (hmore : (s.consumerStep N type debug).consumer ≠ .idle)
    (hread : (s.consumerStep N type debug).queue.readPosition = s.queue.readPosition)
    (hconsumer : ConsumerStands (s.consumerStep N type debug) base
      (s.consumerStep N type debug).consumer (a.status .consumer)) :
    ∃ a', Execution (LooseFifo N.size) a
        (report s (s.consumerStep N type debug) base .consumer).toList a' ∧
      Stands N (s.consumerStep N type debug, base) a' := by
  obtain ⟨rp, rc, wc, unread, staged, hinv⟩ : Sound N s := h.sound
  refine ⟨a, ?_, h.consumer_quiet hinv.consumerStep hinv.keepsProducer hread (fun _ => hbusy)
    rfl rfl hconsumer⟩
  simp only [report, hmore, and_false, if_false]
  exact Execution.nil a

/-- A call that finds elements goes on to take as many as it may. -/
theorem consumerStands_afterReadable {oldRead available : Word} (call : Pop)
    (hsome : available ≠ 0) (hbase : base = s.taken.length) :
    ConsumerStands s base (afterReadable debug oldRead available call) (.called (.pop call)) := by
  have hpos : 0 < available.toNat :=
    Nat.pos_of_ne_zero fun hzero => hsome (BitVec.toNat_inj.mp hzero)
  have hzero (k : Nat) : s.taken.length - base + k = k := by omega
  cases call with
  | tryDequeue =>
    simp only [afterReadable, if_neg hsome]
    split
    · exact rfl
    · exact Or.inl ⟨.tryDequeue, rfl, hzero 1⟩
  | tryDequeueRange limit =>
    simp only [afterReadable, if_neg hsome]
    refine Or.inl ⟨.tryDequeueRange limit, rfl, ?_⟩
    rw [hzero]
    exact ⟨Nat.min_le_right _ _, by omega⟩
  | consumeUpTo limit =>
    simp only [afterReadable, if_neg hsome]
    refine Or.inl ⟨.consumeUpTo limit, rfl, ?_⟩
    rw [hzero]
    exact ⟨Nat.min_le_left _ _, by omega⟩
  | consumeAll =>
    refine Or.inl ⟨.consumeAll, rfl, ?_⟩
    rw [hzero]
    exact hpos

theorem afterReadable_ne_idle {oldRead available : Word} (call : Pop) (hsome : available ≠ 0) :
    afterReadable debug oldRead available call ≠ .idle := by
  cases call <;> simp only [afterReadable, if_neg hsome] <;> try split
  all_goals exact ConsumerPhase.noConfusion

theorem afterReadable_zero (debug : Bool) (oldRead : Word) (call : Pop) :
    afterReadable debug oldRead 0 call = .idle ∨
      afterReadable debug oldRead 0 call = .reading oldRead 0 := by
  cases call
  · exact Or.inl rfl
  · exact Or.inl rfl
  · exact Or.inl rfl
  · exact Or.inr rfl

/-- The read cursor is stored: the taken elements are released, and the call returns. -/
theorem Stands.release {newRead : Word} (h : Stands N (s, base) a)
    (hphase : s.consumer = .storing newRead) (type : ElementType) (debug : Bool) :
    ∃ a', Execution (LooseFifo N.size) a
        [.ret .consumer (.popped (s.taken.drop base))] a' ∧
      Stands N (s.consumerStep N type debug, base) a' := by
  obtain ⟨rp, rc, wc, unread, staged, hinv⟩ : Sound N s := h.sound
  have hsound : Sound N (s.consumerStep N type debug) := hinv.consumerStep
  have hkeeps : KeepsProducer s (s.consumerStep N type debug) := hinv.keepsProducer
  have hstands := h.consumer
  have hbase : base = rp := (h.base (by simp [hphase])).trans hinv.released
  have hrp := hinv.rp_le
  have hlen := hinv.length_pushed
  have hstep : s.consumerStep N type debug =
      {s with queue := {s.queue with readPosition := newRead}, consumer := .idle} := by
    simp only [Interleaving.consumerStep, hphase]
  obtain ⟨rp', rc', wc', unread', staged', hinv'⟩ := hsound
  have hnew : rp' = s.taken.length := by
    have hok := hinv'.consumer
    rw [hstep] at hok
    exact hok.2.1
  have hheld : a.object = s.taken.drop base ++ held (s.consumerStep N type debug) := by
    rw [h.object, hinv.held, hinv'.held, hkeeps.pushed, hnew, hinv.log, List.drop_left, hbase,
      List.drop_append_of_le_length hrp]
  have hreturned (status : Party → Status (Request T) (Answer T))
      (hproducer : status .producer = a.status .producer) :
      Stands N (s.consumerStep N type debug, base)
        ⟨held (s.consumerStep N type debug), Function.update status .consumer .idle⟩ := by
    refine ⟨⟨_, _, _, _, _, hinv'⟩, ?_, rfl, ?_, ?_⟩
    · rw [hstep]
      exact fun hbusy => absurd rfl hbusy
    · have hkept := h.producer.keep hkeeps
      rw [← hproducer] at hkept
      exact hkept
    · rw [hstep]
      simp only [ConsumerStands, Function.update_self]
  have htook : (s.taken.drop base).length = s.taken.length - base := List.length_drop
  rw [hphase] at hstands
  rcases hstands with hclear | ⟨call, hpop, htakes⟩ | ⟨hanswered, hnone⟩
  · refine ⟨_, Execution.act_ret hclear ?_, hreturned a.status rfl⟩
    rw [hheld]
    exact .cleared
  · refine ⟨_, Execution.act_ret hpop ?_, hreturned a.status rfl⟩
    rw [hheld]
    exact .popped (htook ▸ htakes)
  · have hnil : s.taken.drop base = [] := List.length_eq_zero_iff.mp (htook.trans hnone)
    rw [hnil] at hheld ⊢
    rw [List.nil_append] at hheld
    refine ⟨⟨held (s.consumerStep N type debug), Function.update a.status .consumer .idle⟩, ?_,
      hreturned a.status rfl⟩
    rw [← hheld]
    exact Execution.ret hanswered

/-- The consumer loads the write cursor, which it may then find empty-handed. -/
theorem Stands.loadWrite (h : Stands N (s, base) a) {call : Pop}
    (hphase : s.consumer = .loading call) :
    ∃ a', Execution (LooseFifo N.size) a
        (report s (s.consumerStep N type debug) base .consumer).toList a' ∧
      Stands N (s.consumerStep N type debug, base) a' := by
  obtain ⟨rp, rc, wc, unread, staged, hinv⟩ : Sound N s := h.sound
  have hsound : Sound N (s.consumerStep N type debug) := hinv.consumerStep
  have hkeeps : KeepsProducer s (s.consumerStep N type debug) := hinv.keepsProducer
  have hstands := h.consumer
  have hok := hinv.consumer
  have hroom := hinv.room
  have hrc := hinv.rc_le
  have hrp := hinv.rp_le
  have hlen := hinv.length_pushed
  have hsize := N.size_le
  rw [hphase] at hstands hok
  obtain ⟨hlocal, rfl, -⟩ := hok
  have hstep : s.consumerStep N type debug =
      {s with consumer := .caching call s.queue.writePosition} := by
    simp only [Interleaving.consumerStep, hphase]
  by_cases hempty : s.queue.readPositionLocal = s.queue.writePosition
  · -- the loaded cursor is exact, so the queue is empty at this moment
    have hnil : a.object = [] := by
      rw [hlocal, hinv.writePosition, cursor_eq_iff (by omega) (by omega)] at hempty
      rw [h.object, ← List.length_eq_zero_iff, hinv.length_held]
      omega
    refine ⟨⟨[], Function.update a.status .consumer (.answered (.popped []))⟩, ?_, ?_⟩
    · simp only [report, hstep, reduceCtorEq, and_false, if_false]
      refine Execution.act hstands ?_
      rw [hnil]
      exact .nothing
    · rw [hstep] at hsound hkeeps ⊢
      refine h.consumer_quiet hsound hkeeps rfl ?_ hnil.symm rfl ?_
      · simp [hphase]
      · simp only [ConsumerStands, Function.update_self, if_pos hempty]
  · refine h.consumer_silent (by simp [hphase]) ?_ ?_ ?_ <;> rw [hstep]
    · simp
    · exact hstands.trans (if_neg hempty).symm

/-- The call goes on to take elements, or returns none. -/
theorem Stands.decide (h : Stands N (s, base) a) {call : Pop}
    (hphase : s.consumer = .deciding call) :
    ∃ a', Execution (LooseFifo N.size) a
        (report s (s.consumerStep N type debug) base .consumer).toList a' ∧
      Stands N (s.consumerStep N type debug, base) a' := by
  obtain ⟨rp, rc, wc, unread, staged, hinv⟩ : Sound N s := h.sound
  have hsound : Sound N (s.consumerStep N type debug) := hinv.consumerStep
  have hkeeps : KeepsProducer s (s.consumerStep N type debug) := hinv.keepsProducer
  have hstands := h.consumer
  have hok := hinv.consumer
  have hbase : base = rp := (h.base (by simp [hphase])).trans hinv.released
  rw [hphase] at hstands hok
  obtain ⟨hlocal, rfl, -⟩ := hok
  have hstep : s.consumerStep N type debug = {s with
      consumer := afterReadable debug s.queue.readPositionLocal
        (s.queue.writePositionCache - s.queue.readPositionLocal) call} := by
    simp only [Interleaving.consumerStep, hphase]
  by_cases hempty : s.queue.readPositionLocal = s.queue.writePositionCache
  · have hanswered : a.status .consumer = .answered (.popped []) :=
      hstands.trans (if_pos hempty)
    rw [hempty, sub_self] at hstep
    rcases afterReadable_zero debug s.queue.writePositionCache call with hidle | hreading
    · rw [hidle] at hstep
      refine ⟨{a with status := Function.update a.status .consumer .idle}, ?_, ?_⟩
      · simp only [report, hstep, hphase, hbase, ne_eq, reduceCtorEq, not_false_eq_true, and_true,
          if_true, List.drop_length]
        exact Execution.ret hanswered
      · rw [hstep] at hsound hkeeps ⊢
        refine h.consumer_quiet hsound hkeeps rfl (fun hbusy => absurd rfl hbusy) rfl rfl ?_
        simp only [ConsumerStands, Function.update_self]
    · rw [hreading] at hstep
      refine h.consumer_silent (by simp [hphase]) ?_ ?_ ?_ <;> rw [hstep]
      · simp
      · exact Or.inr ⟨hanswered, by rw [hbase, Nat.sub_self]⟩
  · have hsome : s.queue.writePositionCache - s.queue.readPositionLocal ≠ 0 :=
      sub_ne_zero.mpr (Ne.symm hempty)
    have hcalled : a.status .consumer = .called (.pop call) := hstands.trans (if_neg hempty)
    refine h.consumer_silent (by simp [hphase]) ?_ ?_ ?_ <;> rw [hstep]
    · exact afterReadable_ne_idle call hsome
    · rw [hcalled]
      exact consumerStands_afterReadable call hsome hbase

/-- An element is taken, which leaves the elements that the call takes as they are. -/
theorem Stands.take (h : Stands N (s, base) a) {pos : Word} {count : Nat}
    (hphase : s.consumer = .reading pos (count + 1)) :
    ∃ a', Execution (LooseFifo N.size) a
        (report s (s.consumerStep N type debug) base .consumer).toList a' ∧
      Stands N (s.consumerStep N type debug, base) a' := by
  obtain ⟨rp, rc, wc, unread, staged, hinv⟩ : Sound N s := h.sound
  have hsound : Sound N (s.consumerStep N type debug) := hinv.consumerStep
  have hsafe := hsound.not_failed.2
  have hstands := h.consumer
  have hbase : base = rp := (h.base (by simp [hphase])).trans hinv.released
  have hrp := hinv.rp_le
  rw [hphase] at hstands
  obtain ⟨x, hstep⟩ : ∃ x, s.consumerStep N type debug =
      {s with consumer := .destroying pos count, taken := s.taken ++ [x]} := by
    simp only [Interleaving.consumerStep, hphase] at hsafe ⊢
    split at hsafe
    · exact absurd rfl hsafe
    · exact ⟨_, rfl⟩
  have hcount : (s.taken ++ [x]).length - base + count = s.taken.length - base + (count + 1) := by
    rw [List.length_append, List.length_singleton]
    omega
  refine h.consumer_silent (by simp [hphase]) ?_ ?_ ?_ <;> rw [hstep]
  · simp
  · simp only [ConsumerStands, hcount]
    exact hstands

theorem Stands.consumerStep (h : Stands N (s, base) a) :
    ∃ a', Execution (LooseFifo N.size) a
        (report s (s.consumerStep N type debug) base .consumer).toList a' ∧
      Stands N (s.consumerStep N type debug, base) a' := by
  obtain ⟨rp, rc, wc, unread, staged, hinv⟩ : Sound N s := h.sound
  have hsound : Sound N (s.consumerStep N type debug) := hinv.consumerStep
  have hsafe := hsound.not_failed.2
  have hstands := h.consumer
  have hok := hinv.consumer
  have hbase : s.consumer ≠ .idle → base = rp := fun hbusy => (h.base hbusy).trans hinv.released
  cases hphase : s.consumer with
  | idle =>
    have hstep : s.consumerStep N type debug = s := consumerStep_of_idle hphase
    rw [hstep]
    refine ⟨a, ?_, h⟩
    simp only [report, hphase, ne_eq, not_true_eq_false, false_and, if_false]
    exact Execution.nil a
  | checking call =>
    rw [hphase] at hstands
    refine h.consumer_silent (by simp [hphase]) ?_ ?_ ?_ <;>
      simp only [Interleaving.consumerStep, hphase] <;> split
    · simp
    · simp
    · rfl
    · rfl
    · exact hstands
    · rename_i hseen
      exact hstands.trans (if_neg hseen).symm
  | loading call => exact h.loadWrite hphase
  | caching call loaded =>
    rw [hphase] at hstands
    refine h.consumer_silent (by simp [hphase]) ?_ ?_ ?_ <;>
      simp only [Interleaving.consumerStep, hphase]
    · simp
    · exact hstands
  | deciding call => exact h.decide hphase
  | assertingWrite =>
    rw [hphase] at hstands
    refine h.consumer_silent (by simp [hphase]) ?_ ?_ ?_ <;>
      simp only [Interleaving.consumerStep, hphase]
    · simp
    · exact hstands
  | assertingRead loaded =>
    rw [hphase] at hstands hok
    obtain ⟨-, rfl, -⟩ := hok
    have hbase := hbase (by simp [hphase])
    have hstep : s.consumerStep N type debug =
        {s with consumer := .reading s.queue.readPositionLocal 1} := by
      simp only [Interleaving.consumerStep, hphase] at hsafe ⊢
      split at hsafe
      · exact absurd rfl hsafe
      · rename_i hsome
        rw [if_neg hsome]
    refine h.consumer_silent (by simp [hphase]) ?_ ?_ ?_ <;> rw [hstep]
    · simp
    · refine Or.inl ⟨.tryDequeue, hstands, ?_⟩
      show s.taken.length - base + 1 = 1
      omega
  | reading pos count =>
    rw [hphase] at hstands
    cases count with
    | zero =>
      refine h.consumer_silent (by simp [hphase]) ?_ ?_ ?_ <;>
        simp only [Interleaving.consumerStep, hphase]
      · simp
      · exact Or.inr hstands
    | succ count => exact h.take hphase
  | destroying pos count =>
    rw [hphase] at hstands
    refine h.consumer_silent (by simp [hphase]) ?_ ?_ ?_ <;>
      simp only [Interleaving.consumerStep, hphase]
    · simp
    · exact hstands
  | loadingEnd =>
    rw [hphase] at hstands
    refine h.consumer_silent (by simp [hphase]) ?_ ?_ ?_ <;>
      simp only [Interleaving.consumerStep, hphase]
    · simp
    · exact hstands
  | discarding pos writeEnd =>
    rw [hphase] at hstands
    by_cases hdone : pos = writeEnd
    · have hstep : s.consumerStep N type debug = {s with consumer := .cachingEnd writeEnd} := by
        simp only [Interleaving.consumerStep, hphase, if_pos hdone]
      refine h.consumer_silent (by simp [hphase]) ?_ ?_ ?_ <;> rw [hstep]
      · simp
      · exact hstands
    · obtain ⟨x, storage, hstep⟩ : ∃ x storage, s.consumerStep N type debug = {s with
          queue := {s.queue with storage}
          consumer := .discarding (pos + 1) writeEnd
          taken := s.taken ++ [x]} := by
        simp only [Interleaving.consumerStep, hphase, if_neg hdone] at hsafe ⊢
        split at hsafe
        · exact absurd rfl hsafe
        · exact ⟨_, _, rfl⟩
      refine h.consumer_silent (by simp [hphase]) ?_ ?_ ?_ <;> rw [hstep]
      · simp
      · exact hstands
  | cachingEnd writeEnd =>
    rw [hphase] at hstands
    refine h.consumer_silent (by simp [hphase]) ?_ ?_ ?_ <;>
      simp only [Interleaving.consumerStep, hphase]
    · simp
    · exact Or.inl hstands
  | publishing newRead =>
    rw [hphase] at hstands
    refine h.consumer_silent (by simp [hphase]) ?_ ?_ ?_ <;>
      simp only [Interleaving.consumerStep, hphase]
    · simp
    · exact hstands
  | storing newRead =>
    have hstep : s.consumerStep N type debug =
        {s with queue := {s.queue with readPosition := newRead}, consumer := .idle} := by
      simp only [Interleaving.consumerStep, hphase]
    obtain ⟨a', hexec, hstands'⟩ := h.release hphase type debug
    refine ⟨a', ?_, hstands'⟩
    simp only [report, hstep, hphase, ne_eq, reduceCtorEq, not_false_eq_true, and_true, if_true]
    exact hexec
  | failed =>
    rw [hphase] at hok
    exact hok.elim

/-! ### Any interleaving -/

/-- A call of the producer starts. -/
theorem Stands.call_producer {phase : ProducerPhase T} {request : Request T}
    (h : Stands N (s, base) a) (hidle : s.producer = .idle)
    (hsound : Sound N {s with producer := phase})
    (hphase : ProducerStands N {s with producer := phase} phase (.called request)) :
    ∃ a', Execution (LooseFifo N.size) a [.call .producer request] a' ∧
      Stands N ({s with producer := phase}, base) a' := by
  have hstands := h.producer
  rw [hidle] at hstands
  refine ⟨_, Execution.call request hstands,
    h.producer_quiet hsound (.of_queue rfl rfl rfl rfl) rfl rfl rfl rfl ?_⟩
  simp only [Function.update_self]
  exact hphase

/-- A call of the consumer starts. What is taken from here on is its answer. -/
theorem Stands.call_consumer {phase : ConsumerPhase} {request : Request T}
    (h : Stands N (s, base) a) (hidle : s.consumer = .idle)
    (hsound : Sound N {s with consumer := phase})
    (hphase : ConsumerStands {s with consumer := phase} s.taken.length phase (.called request)) :
    ∃ a', Execution (LooseFifo N.size) a [.call .consumer request] a' ∧
      Stands N ({s with consumer := phase}, s.taken.length) a' := by
  obtain ⟨rp, rc, wc, unread, staged, hinv⟩ : Sound N s := h.sound
  have hstands := h.consumer
  have hok := hinv.consumer
  rw [hidle] at hstands hok
  obtain ⟨-, rfl, -⟩ := hok
  refine ⟨_, Execution.call request hstands, hsound, fun _ => hinv.released.symm, h.object, ?_, ?_⟩
  · exact h.producer
  · simp only [Function.update_self]
    exact hphase

/-- What one step of an interleaving shows is what some steps of the atomic queue show. -/
theorem Stands.step {w w' : Interleaving T × Nat} {event : Event T}
    {seen : Option (Action Party (Request T) (Answer T))} (h : Stands N w a)
    (hstep : reported N type debug w event = some (w', seen)) :
    ∃ a', Execution (LooseFifo N.size) a seen.toList a' ∧ Stands N w' a' := by
  obtain ⟨s, base⟩ := w
  obtain ⟨⟨s', u⟩, haccepted, hreported⟩ := Option.map_eq_some_iff.mp hstep
  obtain ⟨rfl, rfl⟩ := Prod.mk.inj hreported
  obtain ⟨rp, rc, wc, unread, staged, hinv⟩ : Sound N s := h.sound
  have hsound : Sound N s' := hinv.step haccepted
  cases event with
  | tryEmplace x =>
    cases hphase : s.producer <;>
      simp only [Interleaving.step, hphase, reduceCtorEq] at haccepted
    obtain ⟨rfl, -⟩ := Prod.mk.inj (Option.some.inj haccepted)
    exact h.call_producer hphase hsound rfl
  | tryEmplaceRange range =>
    cases hphase : s.producer <;>
      simp only [Interleaving.step, hphase, reduceCtorEq] at haccepted
    obtain ⟨rfl, -⟩ := Prod.mk.inj (Option.some.inj haccepted)
    exact h.call_producer hphase hsound rfl
  | producer =>
    obtain ⟨rfl, -⟩ := Prod.mk.inj (Option.some.inj haccepted)
    exact h.producerStep
  | pop call =>
    cases hphase : s.consumer <;>
      simp only [Interleaving.step, hphase, reduceCtorEq] at haccepted
    obtain ⟨rfl, -⟩ := Prod.mk.inj (Option.some.inj haccepted)
    exact h.call_consumer hphase hsound rfl
  | clear =>
    cases hphase : s.consumer <;>
      simp only [Interleaving.step, hphase, reduceCtorEq] at haccepted
    obtain ⟨rfl, -⟩ := Prod.mk.inj (Option.some.inj haccepted)
    exact h.call_consumer hphase hsound rfl
  | consumer =>
    obtain ⟨rfl, -⟩ := Prod.mk.inj (Option.some.inj haccepted)
    exact h.consumerStep

theorem stands_init : Stands N (({} : Interleaving T), 0) (State.init Party _ _ []) where
  sound := sound_init N
  base := fun hbusy => absurd rfl hbusy
  object := List.drop_nil.symm
  producer := rfl
  consumer := rfl

/-- Whatever the interleaving of their steps, the calls of the producer and the consumer
return what they may return if each takes effect at once, at some moment between its call
and its return, on a bounded queue with loose batch pops. -/
theorem linearizable {type : ElementWise} {history : List (Action Party (Request T) (Answer T))}
    (h : IsHistory N type.toElementType debug history) :
    Linearizable (LooseFifo N.size) [] history := by
  obtain ⟨events, outs, w, hruns, rfl⟩ := h
  exact Linearizable.of_runs (Stands N) (fun hstands _ => hstands.step) hruns stands_init

/-- A pop that overlaps two pushes delivers the first. -/
theorem linearizable_overlap : Linearizable (LooseFifo (Capacity.size ⟨1, by decide⟩)) []
    ([.call .producer (.push [7]), .call .consumer (.pop .tryDequeue),
      .ret .producer (.pushed true), .call .producer (.push [8]), .ret .consumer (.popped [7]),
      .ret .producer (.pushed true)] : List (Action Party (Request Nat) (Answer Nat))) :=
  have hhistory : IsHistory ⟨1, by decide⟩
      (⟨⟨false, false, by decide⟩, rfl⟩ : ElementWise).toElementType false
      ([.call .producer (.push [7]), .call .consumer (.pop .tryDequeue),
        .ret .producer (.pushed true), .call .producer (.push [8]), .ret .consumer (.popped [7]),
        .ret .producer (.pushed true)] : List (Action Party (Request Nat) (Answer Nat))) :=
    ⟨[.tryEmplace 7, .producer, .producer, .pop .tryDequeue, .producer, .producer, .producer,
      .consumer, .consumer, .tryEmplace 8, .consumer, .producer, .consumer, .consumer, .consumer,
      .consumer, .consumer, .consumer, .producer, .producer, .producer, .producer], _, _,
      .of_trace rfl, rfl⟩
  linearizable hhistory

end Interleaving

end SpscQueue

end ExchangeEngine
