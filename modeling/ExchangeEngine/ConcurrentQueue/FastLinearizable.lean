import ExchangeEngine.ConcurrentQueue.FastInterleaving
import ExchangeEngine.Library.Atomic

/-!
The `FastQueue` as an atomic object. Its operations take effect on a list of messages when
a push stores the write cursor, when a rejected push loads the read cursor, when a pop
stores the read cursor and when a pop that finds nothing loads the write cursor.
-/

namespace ExchangeEngine

open Cyclic Transition Atomic

namespace FastQueue

inductive Party where
  | producer
  | consumer
  deriving DecidableEq, Repr

/-- A pop has a destination of `out` bytes. -/
inductive Request where
  | push (data : List Byte)
  | pop (out : Nat)
  deriving DecidableEq, Repr

inductive Answer where
  | pushed (ok : Bool)
  | popped (payload : Option (List Byte))
  deriving DecidableEq, Repr

namespace Interleaving

/-- What the operations do to a queue of messages whose frames take at most `n` bytes. A pop
of a message that is larger than the destination does not return. -/
inductive MessageFifo (n : Nat) : List (List Byte) → Request → Answer → List (List Byte) → Prop
  | accepted {ms : List (List Byte)} {data : List Byte}
      (fits : span ms + (kHeader + data.length) ≤ n) :
      MessageFifo n ms (.push data) (.pushed true) (ms ++ [data])
  | rejected {ms : List (List Byte)} {data : List Byte}
      (full : n < span ms + (kHeader + data.length)) :
      MessageFifo n ms (.push data) (.pushed false) ms
  | popped {m : List Byte} {ms : List (List Byte)} {out : Nat} (fits : m.length ≤ out) :
      MessageFifo n (m :: ms) (.pop out) (.popped (some m)) ms
  | nothing {out : Nat} : MessageFifo n [] (.pop out) (.popped none) []

/-- The call or the return that a step from `s` to `s'` is. -/
def report (s s' : Interleaving) : Event → Option (Action Party Request Answer)
  | .push data => some (.call .producer (.push data))
  | .pop out => some (.call .consumer (.pop out))
  | .producer =>
    match s.producer with
    | .deciding _ _ _ =>
      if s'.producer = .idle then some (.ret .producer (.pushed false)) else none
    | .storing _ _ => some (.ret .producer (.pushed true))
    | _ => none
  | .consumer =>
    match s.consumer with
    | .deciding _ _ _ =>
      if s'.consumer = .idle then some (.ret .consumer (.popped none)) else none
    | .storing _ payload => some (.ret .consumer (.popped (some payload)))
    | _ => none

/-- The interleaving with its calls and returns. -/
def reported (s : Interleaving) (event : Event) :
    Option (Interleaving × Option (Action Party Request Answer)) :=
  (s.step event).map fun (s', _) => (s', report s s' event)

/-- The history of an interleaving on a fresh queue. -/
def IsHistory (q : FastQueue) (history : List (Action Party Request Answer)) : Prop :=
  ∃ events outs s, Runs reported (fun _ => Admits) {queue := q} events outs s ∧
    outs.reduceOption = history

/-! ### The atomic queue behind an interleaving -/

/-- What is pushed and not popped yet. -/
def held (s : Interleaving) : List (List Byte) := s.pushed.drop s.popped.length

/-- The status of the producer's operation. A push is rejected once the loaded read cursor
leaves too little room. -/
def ProducerStands (N : Capacity) : ProducerPhase → Status Request Answer → Prop
  | .idle, status => status = .idle
  | .deciding data write read, status =>
    status = if N.word - (write - read) < need (BitVec.ofNat 32 data.length) then
      .answered (.pushed false) else .called (.push data)
  | .loadingWrite data, status | .loadingRead data _, status | .copyingHeader data _ _, status
  | .copyingPayload data _ _, status | .storing data _, status => status = .called (.push data)

/-- The status of the consumer's operation. A pop has found nothing once the loaded write
cursor is its own. -/
def ConsumerStands : ConsumerPhase → Status Request Answer → Prop
  | .idle, status => status = .idle
  | .deciding out read write, status =>
    status = if read = write then .answered (.popped none) else .called (.pop out)
  | .loadingRead out, status | .loadingWrite out _, status | .copyingHeader out _ _ _, status
  | .asserting out _ _ _, status | .tooSmall out, status => status = .called (.pop out)
  | .copyingPayload _ size _, status => ∃ out, status = .called (.pop out) ∧ size.toNat ≤ out
  | .storing _ payload, status => ∃ out, status = .called (.pop out) ∧ payload.length ≤ out
  | .corrupted, _ => False

/-- The atomic queue that an interleaving stands for. -/
structure Stands (N : Capacity) (s : Interleaving)
    (a : Atomic.State Party (List (List Byte)) Request Answer) : Prop where
  sound : Sound N s
  object : a.object = held s
  producer : ProducerStands N s.producer (a.status .producer)
  consumer : ConsumerStands s.consumer (a.status .consumer)

variable {N : Capacity} {s s' : Interleaving} {unread : List (List Byte)} {staged : List Byte}
  {a a' : Atomic.State Party (List (List Byte)) Request Answer}

theorem Inv.held (h : Inv N s unread staged) : held s = unread := by
  rw [Interleaving.held, h.log, List.drop_left]

theorem producerStep_frame (s : Interleaving) :
    s.producerStep.consumer = s.consumer ∧ s.producerStep.popped = s.popped := by
  unfold producerStep
  dsimp only
  repeat' split
  all_goals exact ⟨rfl, rfl⟩

theorem consumerStep_frame (s : Interleaving) :
    s.consumerStep.producer = s.producer ∧ s.consumerStep.pushed = s.pushed := by
  unfold consumerStep
  dsimp only
  repeat' split
  all_goals exact ⟨rfl, rfl⟩

/-! ### The producer's steps -/

/-- A step of the producer that publishes nothing. -/
theorem Stands.producer_quiet (h : Stands N s a) (hpushed : s.producerStep.pushed = s.pushed)
    (hobject : a'.object = a.object) (hconsumer : a'.status .consumer = a.status .consumer)
    (hproducer : ProducerStands N s.producerStep.producer (a'.status .producer)) :
    Stands N s.producerStep a' := by
  obtain ⟨unread, staged, hinv⟩ := h.sound
  obtain ⟨hphase, hpopped⟩ := producerStep_frame s
  refine ⟨hinv.producerStep, ?_, hproducer, ?_⟩
  · rw [hobject, h.object, held, held, hpushed, hpopped]
  · rw [hphase, hconsumer]
    exact h.consumer

/-- What a step of the producer has to show that neither loads the read cursor nor returns. -/
theorem Stands.producer_silent (h : Stands N s a) (hpushed : s.producerStep.pushed = s.pushed)
    (hproducer : ProducerStands N s.producerStep.producer (a.status .producer))
    (hreport : report s s.producerStep .producer = none) :
    ∃ a', Execution (MessageFifo N.size) a (report s s.producerStep .producer).toList a' ∧
      Stands N s.producerStep a' := by
  rw [hreport]
  exact ⟨a, Execution.nil a, h.producer_quiet hpushed rfl rfl hproducer⟩

/-- What the check finds when the read cursor is loaded at this moment. -/
theorem Inv.full_iff (h : Inv N s unread []) {data : List Byte} (hlen : data.length < 2 ^ 32) :
    N.word - (cursor (span s.pushed) - s.queue.read) < need (BitVec.ofNat 32 data.length) ↔
      N.size < span unread + (kHeader + data.length) := by
  have hspan := h.span_pushed
  have hroom : span s.pushed ≤ span s.popped + N.size := h.room
  rw [BitVec.lt_def, h.read, N.free_cursor (by omega) hroom, need_eq hlen, BitVec.toNat_ofNat,
    Nat.mod_eq_of_lt (by unfold kHeader; omega)]
  omega

/-- The producer loads the read cursor, which settles whether the frame fits. -/
theorem Stands.loadRead (h : Stands N s a) {data : List Byte} {write : Word}
    (hphase : s.producer = .loadingRead data write) :
    ∃ a', Execution (MessageFifo N.size) a (report s s.producerStep .producer).toList a' ∧
      Stands N s.producerStep a' := by
  obtain ⟨unread, staged, hinv⟩ := h.sound
  have hstands := h.producer
  have hok := hinv.producer
  rw [hphase] at hstands hok
  obtain ⟨rfl, hlen, rfl⟩ := hok
  have hstep : s.producerStep =
      {s with producer := .deciding data (cursor (span s.pushed)) s.queue.read} := by
    simp only [Interleaving.producerStep, hphase]
  by_cases hfull : N.word - (cursor (span s.pushed) - s.queue.read) <
      need (BitVec.ofNat 32 data.length)
  · -- the loaded cursor is exact, so the frame does not fit at this moment
    refine ⟨⟨a.object, Function.update a.status .producer (.answered (.pushed false))⟩, ?_, ?_⟩
    · simp only [report, hphase]
      refine Execution.act hstands (.rejected ?_)
      rw [h.object, hinv.held]
      exact (hinv.full_iff hlen).mp hfull
    · refine h.producer_quiet (by rw [hstep]) rfl rfl ?_
      rw [hstep]
      simp only [ProducerStands, Function.update_self, if_pos hfull]
  · refine h.producer_silent (by rw [hstep]) ?_ (by simp only [report, hphase])
    rw [hstep]
    exact hstands.trans (if_neg hfull).symm

/-- The producer begins to copy, or returns what the loaded read cursor has settled. -/
theorem Stands.decidePush (h : Stands N s a) {data : List Byte} {write read : Word}
    (hphase : s.producer = .deciding data write read) :
    ∃ a', Execution (MessageFifo N.size) a (report s s.producerStep .producer).toList a' ∧
      Stands N s.producerStep a' := by
  obtain ⟨unread, staged, hinv⟩ := h.sound
  have hstands := h.producer
  rw [hphase] at hstands
  by_cases hfull : N.word - (write - read) < need (BitVec.ofNat 32 data.length)
  · have hstep : s.producerStep = {s with producer := .idle} := by
      simp only [Interleaving.producerStep, hphase, hinv.capacity, if_pos hfull]
    have hanswered : a.status .producer = .answered (.pushed false) :=
      hstands.trans (if_pos hfull)
    refine ⟨{a with status := Function.update a.status .producer .idle}, ?_, ?_⟩
    · simp only [report, hphase, hstep, if_true]
      exact Execution.ret hanswered
    · refine h.producer_quiet (by rw [hstep]) rfl rfl ?_
      rw [hstep]
      simp only [ProducerStands, Function.update_self]
  · have hstep : s.producerStep = {s with producer := .copyingHeader data write 0} := by
      simp only [Interleaving.producerStep, hphase, hinv.capacity, if_neg hfull]
    refine h.producer_silent (by rw [hstep]) ?_ ?_
    · rw [hstep]
      exact hstands.trans (if_neg hfull)
    · simp only [report, hphase, hstep, reduceCtorEq, if_false]

/-- The write cursor is stored: the message is pushed, and the call returns. -/
theorem Stands.publish (h : Stands N s a) {data : List Byte} {newWrite : Word}
    (hphase : s.producer = .storing data newWrite) :
    ∃ a', Execution (MessageFifo N.size) a (report s s.producerStep .producer).toList a' ∧
      Stands N s.producerStep a' := by
  obtain ⟨unread, staged, hinv⟩ := h.sound
  have hstands := h.producer
  have hok := hinv.producer
  rw [hphase] at hstands hok
  obtain ⟨rfl, -, -⟩ := hok
  have hroom := hinv.room
  have hspan := hinv.span_pushed
  rw [length_frame] at hroom
  have hstep : s.producerStep = {s with
      queue := {s.queue with write := newWrite}
      producer := .idle
      pushed := s.pushed ++ [data]} := by
    simp only [Interleaving.producerStep, hphase]
  have hheld : held s.producerStep = a.object ++ [data] := by
    rw [h.object, hinv.held, held, hstep, hinv.log, List.append_assoc, List.drop_left]
  refine ⟨⟨a.object ++ [data], Function.update a.status .producer .idle⟩, ?_, ?_⟩
  · simp only [report, hphase]
    refine Execution.act_ret hstands (.accepted ?_)
    rw [h.object, hinv.held]
    omega
  · refine ⟨hinv.producerStep, hheld.symm, ?_, ?_⟩
    · rw [hstep]
      simp only [ProducerStands, Function.update_self]
    · rw [hstep]
      exact h.consumer

theorem Stands.producerStep (h : Stands N s a) :
    ∃ a', Execution (MessageFifo N.size) a (report s s.producerStep .producer).toList a' ∧
      Stands N s.producerStep a' := by
  have hstands := h.producer
  cases hphase : s.producer with
  | idle =>
    have hstep : s.producerStep = s := by simp only [Interleaving.producerStep, hphase]
    refine h.producer_silent (by rw [hstep]) ?_ (by simp only [report, hphase])
    rw [hstep]
    exact hstands
  | loadingWrite data =>
    rw [hphase] at hstands
    refine h.producer_silent ?_ ?_ (by simp only [report, hphase]) <;>
      simp only [Interleaving.producerStep, hphase]
    exact hstands
  | loadingRead data write => exact h.loadRead hphase
  | deciding data write read => exact h.decidePush hphase
  | copyingHeader data write copied =>
    rw [hphase] at hstands
    refine h.producer_silent ?_ ?_ (by simp only [report, hphase]) <;>
      simp only [Interleaving.producerStep, hphase] <;> split
    · rfl
    · rfl
    · exact hstands
    · exact hstands
  | copyingPayload data write copied =>
    rw [hphase] at hstands
    refine h.producer_silent ?_ ?_ (by simp only [report, hphase]) <;>
      simp only [Interleaving.producerStep, hphase] <;> split
    · rfl
    · rfl
    · exact hstands
    · exact hstands
  | storing data newWrite => exact h.publish hphase

/-! ### The consumer's steps -/

/-- A step of the consumer that releases nothing. -/
theorem Stands.consumer_quiet (h : Stands N s a) (hpopped : s.consumerStep.popped = s.popped)
    (hobject : a'.object = a.object) (hproducer : a'.status .producer = a.status .producer)
    (hconsumer : ConsumerStands s.consumerStep.consumer (a'.status .consumer)) :
    Stands N s.consumerStep a' := by
  obtain ⟨unread, staged, hinv⟩ := h.sound
  obtain ⟨hphase, hpushed⟩ := consumerStep_frame s
  refine ⟨hinv.consumerStep, ?_, ?_, hconsumer⟩
  · rw [hobject, h.object, held, held, hpushed, hpopped]
  · rw [hphase, hproducer]
    exact h.producer

/-- What a step of the consumer has to show that neither loads the write cursor nor returns. -/
theorem Stands.consumer_silent (h : Stands N s a) (hpopped : s.consumerStep.popped = s.popped)
    (hconsumer : ConsumerStands s.consumerStep.consumer (a.status .consumer))
    (hreport : report s s.consumerStep .consumer = none) :
    ∃ a', Execution (MessageFifo N.size) a (report s s.consumerStep .consumer).toList a' ∧
      Stands N s.consumerStep a' := by
  rw [hreport]
  exact ⟨a, Execution.nil a, h.consumer_quiet hpopped rfl rfl hconsumer⟩

/-- Every frame takes some bytes. -/
theorem eq_nil_of_span {ms : List (List Byte)} (h : span ms = 0) : ms = [] := by
  cases ms with
  | nil => rfl
  | cons m ms =>
    rw [← List.singleton_append, span_append, span_singleton] at h
    unfold kHeader at h
    omega

/-- The consumer loads the write cursor, which settles whether there is a message. -/
theorem Stands.loadWrite (h : Stands N s a) {out : Nat} {read : Word}
    (hphase : s.consumer = .loadingWrite out read) :
    ∃ a', Execution (MessageFifo N.size) a (report s s.consumerStep .consumer).toList a' ∧
      Stands N s.consumerStep a' := by
  obtain ⟨unread, staged, hinv⟩ := h.sound
  have hstands := h.consumer
  have hok := hinv.consumer
  rw [hphase] at hstands hok
  have hstep : s.consumerStep = {s with consumer := .deciding out read s.queue.write} := by
    simp only [Interleaving.consumerStep, hphase]
  by_cases hempty : read = s.queue.write
  · -- the loaded cursor is exact, so the queue is empty at this moment
    have hnil : a.object = [] := by
      have hread : read = cursor (span s.popped) := hok
      have hsize := N.size_le
      have hroom := hinv.room
      have hspan := hinv.span_pushed
      rw [hread, hinv.write, cursor_eq_iff (by omega) (by omega)] at hempty
      rw [h.object, hinv.held]
      exact eq_nil_of_span (by omega)
    refine ⟨⟨[], Function.update a.status .consumer (.answered (.popped none))⟩, ?_, ?_⟩
    · simp only [report, hphase]
      refine Execution.act hstands ?_
      rw [hnil]
      exact .nothing
    · refine h.consumer_quiet (by rw [hstep]) hnil.symm rfl ?_
      rw [hstep]
      simp only [ConsumerStands, Function.update_self, if_pos hempty]
  · refine h.consumer_silent (by rw [hstep]) ?_ (by simp only [report, hphase])
    rw [hstep]
    exact hstands.trans (if_neg hempty).symm

/-- The consumer begins to copy, or returns that there is no message. -/
theorem Stands.decidePop (h : Stands N s a) {out : Nat} {read write : Word}
    (hphase : s.consumer = .deciding out read write) :
    ∃ a', Execution (MessageFifo N.size) a (report s s.consumerStep .consumer).toList a' ∧
      Stands N s.consumerStep a' := by
  obtain ⟨unread, staged, hinv⟩ := h.sound
  have hstands := h.consumer
  rw [hphase] at hstands
  by_cases hempty : read = write
  · have hstep : s.consumerStep = {s with consumer := .idle} := by
      simp only [Interleaving.consumerStep, hphase, if_pos hempty]
    have hanswered : a.status .consumer = .answered (.popped none) :=
      hstands.trans (if_pos hempty)
    refine ⟨{a with status := Function.update a.status .consumer .idle}, ?_, ?_⟩
    · simp only [report, hphase, hstep, if_true]
      exact Execution.ret hanswered
    · refine h.consumer_quiet (by rw [hstep]) rfl rfl ?_
      rw [hstep]
      simp only [ConsumerStands, Function.update_self]
  · have hstep : s.consumerStep = {s with consumer := .copyingHeader out read write []} := by
      simp only [Interleaving.consumerStep, hphase, if_neg hempty]
    refine h.consumer_silent (by rw [hstep]) ?_ ?_
    · rw [hstep]
      exact hstands.trans (if_neg hempty)
    · simp only [report, hphase, hstep, reduceCtorEq, if_false]

/-- The read cursor is stored: the message is popped, and the call returns. -/
theorem Stands.retire (h : Stands N s a) {newRead : Word} {payload : List Byte}
    (hphase : s.consumer = .storing newRead payload) :
    ∃ a', Execution (MessageFifo N.size) a (report s s.consumerStep .consumer).toList a' ∧
      Stands N s.consumerStep a' := by
  obtain ⟨unread, staged, hinv⟩ := h.sound
  have hstands := h.consumer
  have hok := hinv.consumer
  rw [hphase] at hstands hok
  obtain ⟨out, hcalled, hout⟩ := hstands
  obtain ⟨rest, rfl⟩ := List.head?_eq_some_iff.mp hok.1
  have hstep : s.consumerStep = {s with
      queue := {s.queue with read := newRead}
      consumer := .idle
      popped := s.popped ++ [payload]} := by
    simp only [Interleaving.consumerStep, hphase]
  have hheld : held s.consumerStep = rest := by
    rw [held, hstep, hinv.log, ← List.singleton_append, ← List.append_assoc, List.drop_left]
  refine ⟨⟨rest, Function.update a.status .consumer .idle⟩, ?_, ?_⟩
  · simp only [report, hphase]
    refine Execution.act_ret hcalled ?_
    rw [h.object, hinv.held]
    exact .popped hout
  · refine ⟨hinv.consumerStep, hheld.symm, ?_, ?_⟩
    · rw [hstep]
      exact h.producer
    · rw [hstep]
      simp only [ConsumerStands, Function.update_self]

theorem Stands.consumerStep (h : Stands N s a) :
    ∃ a', Execution (MessageFifo N.size) a (report s s.consumerStep .consumer).toList a' ∧
      Stands N s.consumerStep a' := by
  obtain ⟨unread, staged, hinv⟩ := h.sound
  have hstands := h.consumer
  have hok := hinv.consumer
  have hsafe : Sound N s.consumerStep := hinv.consumerStep
  cases hphase : s.consumer with
  | idle =>
    have hstep : s.consumerStep = s := by simp only [Interleaving.consumerStep, hphase]
    refine h.consumer_silent (by rw [hstep]) ?_ (by simp only [report, hphase])
    rw [hstep]
    exact hstands
  | loadingRead out =>
    rw [hphase] at hstands
    refine h.consumer_silent ?_ ?_ (by simp only [report, hphase]) <;>
      simp only [Interleaving.consumerStep, hphase]
    exact hstands
  | loadingWrite out read => exact h.loadWrite hphase
  | deciding out read write => exact h.decidePop hphase
  | copyingHeader out read write copied =>
    rw [hphase] at hstands
    refine h.consumer_silent ?_ ?_ (by simp only [report, hphase]) <;>
      simp only [Interleaving.consumerStep, hphase] <;> split
    · rfl
    · rfl
    · exact hstands
    · exact hstands
  | asserting out read write size =>
    rw [hphase] at hstands
    have hframed : ¬ write - read < need size := by
      obtain ⟨_, _, hinv'⟩ := hsafe
      intro hshort
      have hcorrupted := hinv'.consumer
      simp only [Interleaving.consumerStep, hphase, if_pos hshort] at hcorrupted
      exact hcorrupted
    refine h.consumer_silent ?_ ?_ (by simp only [report, hphase]) <;>
      simp only [Interleaving.consumerStep, hphase, if_neg hframed] <;> split
    · rfl
    · rfl
    · exact hstands
    · rename_i hfits
      exact ⟨out, hstands, Nat.not_lt.mp hfits⟩
  | copyingPayload read size copied =>
    rw [hphase] at hstands hok
    obtain ⟨-, m, hhead, rfl, hcopied, -⟩ := hok
    have hlen : m.length < 2 ^ 32 := (hinv.front hhead).choose_spec.2.1
    have hsize : (BitVec.ofNat 32 m.length).toNat = m.length := by
      rw [BitVec.toNat_ofNat, Nat.mod_eq_of_lt hlen]
    obtain ⟨out, hcalled, hout⟩ := hstands
    refine h.consumer_silent ?_ ?_ (by simp only [report, hphase]) <;>
      simp only [Interleaving.consumerStep, hphase] <;> split
    · rfl
    · rfl
    · exact ⟨out, hcalled, hout⟩
    · exact ⟨out, hcalled, by omega⟩
  | storing newRead payload => exact h.retire hphase
  | corrupted =>
    rw [hphase] at hok
    exact hok.elim
  | tooSmall out =>
    have hstep : s.consumerStep = s := by simp only [Interleaving.consumerStep, hphase]
    refine h.consumer_silent (by rw [hstep]) ?_ (by simp only [report, hphase])
    rw [hstep]
    exact hstands

/-! ### Any interleaving -/

/-- What one step of an interleaving shows is what some steps of the atomic queue show. -/
theorem Stands.step {event : Event} {seen : Option (Action Party Request Answer)}
    (h : Stands N s a) (hadmits : Admits event) (hstep : reported s event = some (s', seen)) :
    ∃ a', Execution (MessageFifo N.size) a seen.toList a' ∧ Stands N s' a' := by
  obtain ⟨⟨t, u⟩, haccepted, hreported⟩ := Option.map_eq_some_iff.mp hstep
  obtain ⟨rfl, rfl⟩ := Prod.mk.inj hreported
  obtain ⟨unread, staged, hinv⟩ := h.sound
  have hsound := hinv.step hadmits haccepted
  cases event with
  | push data =>
    cases hphase : s.producer <;> simp only [Interleaving.step, hphase, reduceCtorEq] at haccepted
    obtain ⟨rfl, -⟩ := Prod.mk.inj (Option.some.inj haccepted)
    have hidle := h.producer
    rw [hphase] at hidle
    refine ⟨{a with status := Function.update a.status .producer (.called (.push data))},
      Execution.call (.push data) hidle, hsound, h.object, ?_, h.consumer⟩
    simp only [ProducerStands, Function.update_self]
  | producer =>
    obtain ⟨rfl, -⟩ := Prod.mk.inj (Option.some.inj haccepted)
    exact h.producerStep
  | pop out =>
    cases hphase : s.consumer <;> simp only [Interleaving.step, hphase, reduceCtorEq] at haccepted
    obtain ⟨rfl, -⟩ := Prod.mk.inj (Option.some.inj haccepted)
    have hidle := h.consumer
    rw [hphase] at hidle
    refine ⟨{a with status := Function.update a.status .consumer (.called (.pop out))},
      Execution.call (.pop out) hidle, hsound, h.object, h.producer, ?_⟩
    simp only [ConsumerStands, Function.update_self]
  | consumer =>
    obtain ⟨rfl, -⟩ := Prod.mk.inj (Option.some.inj haccepted)
    exact h.consumerStep

theorem stands_init (N : Capacity) (buffer : Nat → Byte) :
    Stands N {queue := { capacity := N.word, mask := N.word - 1, buffer := buffer }}
      (State.init Party _ _ []) where
  sound := sound_init N buffer
  object := rfl
  producer := rfl
  consumer := rfl

/-- Whatever the interleaving of their steps, `try_push` and `try_pop` return what they would
return if each took effect at once on a queue that holds messages up to its capacity, as long
as payloads are shorter than `2 ^ 32` bytes. A push is rejected only if its frame did not fit
at some moment during the call, and a pop finds nothing only if the queue was empty at some
moment during the call. -/
theorem messages_linearizable {capacityBytes : Word} (hrequested : capacityBytes.toNat ≤ 2 ^ 63) :
    ∃ q, create capacityBytes = some q ∧ ∀ history, IsHistory q history →
      Linearizable (MessageFifo q.capacity.toNat) [] history := by
  obtain ⟨N, hN⟩ := create_eq hrequested
  refine ⟨_, hN, ?_⟩
  rintro history ⟨events, outs, s, hruns, rfl⟩
  show Linearizable (MessageFifo N.word.toNat) [] outs.reduceOption
  rw [N.word_toNat]
  exact Linearizable.of_runs (Stands N) (fun hstands hadmits => hstands.step hadmits) hruns
    (stands_init N _)

/-- A push is rejected while the first message is being popped, the second, whose frame
crosses the end of the ring, is popped while it is pushed, and then the queue is empty. -/
theorem messages_linearizable_across :
    ∃ (q : FastQueue) (history : List (Action Party Request Answer)), create 12 = some q ∧
      history = [.call .producer (.push [1, 2, 3, 4]), .ret .producer (.pushed true),
        .call .consumer (.pop 4), .call .producer (.push [5, 6, 7, 8, 9]),
        .ret .producer (.pushed false), .ret .consumer (.popped (some [1, 2, 3, 4])),
        .call .producer (.push [5, 6, 7, 8, 9]), .call .consumer (.pop 5),
        .ret .producer (.pushed true), .ret .consumer (.popped (some [5, 6, 7, 8, 9])),
        .call .consumer (.pop 9), .ret .consumer (.popped none)] ∧
      IsHistory q history ∧ Linearizable (MessageFifo q.capacity.toNat) [] history := by
  obtain ⟨q, hq, hatomic⟩ := @messages_linearizable 12 (by decide)
  have hfresh : create 12 = some {capacity := 16, mask := 15, buffer := fun _ => 0} := rfl
  obtain rfl := Option.some.inj (hq.symm.trans hfresh)
  have hend : (trace (guarded reported fun _ => Admits)
      {queue := {capacity := 16, mask := 15, buffer := fun _ => 0}}
      (.push [1, 2, 3, 4] :: List.replicate 14 .producer ++
        .pop 4 :: .push [5, 6, 7, 8, 9] :: (List.replicate 15 [.producer, .consumer]).flatten ++
        .push [5, 6, 7, 8, 9] :: List.replicate 14 .producer ++
        .pop 5 :: .consumer :: .producer :: List.replicate 15 .consumer ++
        .pop 9 :: List.replicate 3 .consumer)).map (fun out => out.2.reduceOption) =
      some [.call .producer (.push [1, 2, 3, 4]), .ret .producer (.pushed true),
        .call .consumer (.pop 4), .call .producer (.push [5, 6, 7, 8, 9]),
        .ret .producer (.pushed false), .ret .consumer (.popped (some [1, 2, 3, 4])),
        .call .producer (.push [5, 6, 7, 8, 9]), .call .consumer (.pop 5),
        .ret .producer (.pushed true), .ret .consumer (.popped (some [5, 6, 7, 8, 9])),
        .call .consumer (.pop 9), .ret .consumer (.popped none)] := by decide +kernel
  obtain ⟨⟨s, outs⟩, htrace, hhistory⟩ := Option.map_eq_some_iff.mp hend
  have hof : IsHistory {capacity := 16, mask := 15, buffer := fun _ => 0} outs.reduceOption :=
    ⟨_, outs, s, .of_trace htrace, rfl⟩
  exact ⟨_, _, hq, hhistory, hof, hatomic _ hof⟩

end Interleaving

end FastQueue

end ExchangeEngine
