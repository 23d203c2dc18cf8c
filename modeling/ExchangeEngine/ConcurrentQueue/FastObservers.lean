import ExchangeEngine.ConcurrentQueue.FastLinearizable

/-!
The observer `empty` of the `FastQueue`, called between the other calls of a party. It loads
both cursors in either order, which the language leaves open, and the other party may make any
steps between the two loads. The answer is what was true at the load of the other party's cursor.
-/

namespace ExchangeEngine

open Cyclic Transition

namespace FastQueue

/-- How far a party is with its last call of `empty`. Beside the answer is kept whether the
queue was empty when the read cursor was loaded and when the write cursor was. -/
inductive Sight where
  | away
  | readLoaded (read : Word) (atRead : Bool)
  | writeLoaded (write : Word) (atWrite : Bool)
  | seen (answer atRead atWrite : Bool)
  deriving DecidableEq, Repr

def Sight.loading : Sight → Bool
  | .readLoaded _ _ | .writeLoaded _ _ => true
  | .away | .seen _ _ _ => false

structure Observed where
  state : Interleaving
  sight : Party → Sight := fun _ => .away

/-- A step of the interleaving, or a load of an observer, which may begin with either cursor. -/
inductive Move where
  | act (event : Interleaving.Event)
  | observe (party : Party) (writeFirst : Bool)

/-- The party that makes a step. -/
def Interleaving.Event.party : Interleaving.Event → Party
  | .push _ | .producer => .producer
  | .pop _ | .consumer => .consumer

def Move.Admits : Move → Prop
  | .act event => Interleaving.Admits event
  | .observe _ _ => True

instance : DecidablePred Move.Admits
  | .act event => inferInstanceAs (Decidable (Interleaving.Admits event))
  | .observe _ _ => .isTrue trivial

namespace Interleaving

/-- Between two calls of a party. -/
def idle (s : Interleaving) : Party → Bool
  | .producer => s.producer = .idle
  | .consumer => s.consumer = .idle

/-- One load of `empty`. -/
def look (s : Interleaving) (writeFirst : Bool) : Sight → Sight
  | .readLoaded read atRead => .seen (decide (read = s.queue.write)) atRead (held s).isEmpty
  | .writeLoaded write atWrite => .seen (decide (s.queue.read = write)) (held s).isEmpty atWrite
  | .away | .seen _ _ _ =>
    if writeFirst then .writeLoaded s.queue.write (held s).isEmpty
    else .readLoaded s.queue.read (held s).isEmpty

end Interleaving

namespace Observed

/-- A party makes one call at a time. It keeps what it has seen until its next call returns. -/
def step (o : Observed) : Move → Option (Observed × Unit)
  | .observe party writeFirst =>
    if o.state.idle party then
      let sight := o.state.look writeFirst (o.sight party)
      some ({o with sight := Function.update o.sight party sight}, ())
    else none
  | .act event =>
    if (o.sight event.party).loading then none
    else (o.state.step event).map fun next =>
      let returns := !o.state.idle event.party && next.1.idle event.party
      ({state := next.1
        sight := if returns then Function.update o.sight event.party .away else o.sight}, ())

def Reached (q : FastQueue) (o : Observed) : Prop :=
  Reachable step (fun _ => Move.Admits) {state := {queue := q}} o

end Observed

/-! ### What a party can tell -/

namespace Interleaving

variable {N : Capacity} {s s' : Interleaving} {unread : List (List Byte)} {staged : List Byte}

/-- What the producer makes of its sight. What it finds empty stays empty. -/
def ProducerSees (N : Capacity) (s : Interleaving) : Sight → Prop
  | .away => True
  | .readLoaded read atRead => ∃ r, read = cursor r ∧ r ≤ span s.popped ∧
      span s.pushed ≤ r + N.size ∧ (atRead = true ↔ r = span s.pushed)
  | .writeLoaded write _ => write = cursor (span s.pushed)
  | .seen answer atRead _ => answer = atRead ∧ (answer = true → held s = [])

/-- What the consumer makes of its sight. Where it finds a message it will find it. -/
def ConsumerSees (N : Capacity) (s : Interleaving) : Sight → Prop
  | .away => True
  | .readLoaded read _ => s.consumer = .idle ∧ read = cursor (span s.popped)
  | .writeLoaded write atWrite => s.consumer = .idle ∧ ∃ w, write = cursor w ∧
      span s.popped ≤ w ∧ w ≤ span s.pushed ∧ w ≤ span s.popped + N.size ∧
      (atWrite = true ↔ span s.popped = w)
  | .seen answer _ atWrite => answer = atWrite ∧ (answer = false → held s ≠ [] ∧
      ∀ out read write, s.consumer = .deciding out read write → read ≠ write)

/-- The bytes tell whether there is a message. -/
theorem Inv.span_eq_iff (h : Inv N s unread staged) :
    span s.popped = span s.pushed ↔ Interleaving.held s = [] := by
  have hspan := h.span_pushed
  rw [h.held]
  constructor
  · intro heq
    exact eq_nil_of_span (by omega)
  · rintro rfl
    rw [hspan]
    rfl

theorem Inv.cursors_eq_iff (h : Inv N s unread staged) {r : Nat} (hle : r ≤ span s.pushed)
    (hturn : span s.pushed ≤ r + N.size) : cursor r = s.queue.write ↔ r = span s.pushed := by
  have hsize := N.size_le
  rw [h.write]
  exact cursor_eq_iff hle (by omega)

theorem isEmpty_held (s : Interleaving) : (held s).isEmpty = true ↔ held s = [] :=
  List.isEmpty_iff

/-! ### Steps of the other party, and own steps -/

theorem span_mono {ms ms' : List (List Byte)} (h : ms <+: ms') : span ms ≤ span ms' := by
  obtain ⟨rest, rfl⟩ := h
  rw [span_append]
  exact Nat.le_add_right _ _

/-- The producer's steps publish only as a call returns. -/
theorem producer_step {event : Event} {o : Unit} (hparty : event.party = .producer)
    (hstep : s.step event = some (s', o)) :
    s'.consumer = s.consumer ∧ s'.popped = s.popped ∧ s.pushed <+: s'.pushed ∧
      (s'.pushed = s.pushed ∨ s.producer ≠ .idle ∧ s'.producer = .idle) := by
  cases event with
  | push data =>
    simp only [Interleaving.step] at hstep
    split at hstep
    · obtain ⟨rfl, -⟩ := Prod.mk.inj (Option.some.inj hstep)
      exact ⟨rfl, rfl, List.prefix_refl _, Or.inl rfl⟩
    · cases hstep
  | producer =>
    obtain ⟨rfl, -⟩ := Prod.mk.inj (Option.some.inj hstep)
    obtain ⟨hconsumer, hpopped⟩ := producerStep_frame s
    refine ⟨hconsumer, hpopped, ?_⟩
    cases hphase : s.producer with
    | storing data newWrite =>
      simp only [Interleaving.producerStep, hphase]
      exact ⟨List.prefix_append _ _, Or.inr ⟨by simp, trivial⟩⟩
    | deciding | copyingHeader | copyingPayload =>
      simp only [Interleaving.producerStep, hphase]
      split
      · exact ⟨List.prefix_refl _, Or.inl rfl⟩
      · exact ⟨List.prefix_refl _, Or.inl rfl⟩
    | idle | loadingWrite | loadingRead =>
      simp only [Interleaving.producerStep, hphase]
      exact ⟨List.prefix_refl _, Or.inl trivial⟩
  | pop out => cases hparty
  | consumer => cases hparty

/-- The consumer's steps release only as a call returns, and compare with the write cursor
that was just loaded. -/
theorem consumer_step {event : Event} {o : Unit} (hparty : event.party = .consumer)
    (hstep : s.step event = some (s', o)) :
    s'.producer = s.producer ∧ s'.pushed = s.pushed ∧ s.popped <+: s'.popped ∧
      (s'.popped = s.popped ∨ s.consumer ≠ .idle ∧ s'.consumer = .idle) ∧
      ∀ out read write, s'.consumer = .deciding out read write →
        s.consumer = .loadingWrite out read ∧ write = s.queue.write := by
  cases event with
  | push data => cases hparty
  | producer => cases hparty
  | pop out =>
    simp only [Interleaving.step] at hstep
    split at hstep
    · obtain ⟨rfl, -⟩ := Prod.mk.inj (Option.some.inj hstep)
      exact ⟨rfl, rfl, List.prefix_refl _, Or.inl rfl, by simp⟩
    · cases hstep
  | consumer =>
    obtain ⟨rfl, -⟩ := Prod.mk.inj (Option.some.inj hstep)
    obtain ⟨hproducer, hpushed⟩ := consumerStep_frame s
    refine ⟨hproducer, hpushed, ?_⟩
    cases hphase : s.consumer with
    | storing newRead payload =>
      simp only [Interleaving.consumerStep, hphase]
      exact ⟨List.prefix_append _ _, Or.inr ⟨by simp, trivial⟩, by simp⟩
    | loadingWrite out read =>
      simp only [Interleaving.consumerStep, hphase]
      refine ⟨List.prefix_refl _, Or.inl trivial, ?_⟩
      intro out' read' write' heq
      cases heq
      exact ⟨rfl, rfl⟩
    | asserting =>
      simp only [Interleaving.consumerStep, hphase]
      split
      · exact ⟨List.prefix_refl _, Or.inl rfl, by simp⟩
      · split
        · exact ⟨List.prefix_refl _, Or.inl rfl, by simp⟩
        · exact ⟨List.prefix_refl _, Or.inl rfl, by simp⟩
    | deciding | copyingHeader | copyingPayload =>
      simp only [Interleaving.consumerStep, hphase]
      split
      · exact ⟨List.prefix_refl _, Or.inl rfl, by simp⟩
      · exact ⟨List.prefix_refl _, Or.inl rfl, by simp⟩
    | idle | loadingRead | corrupted | tooSmall =>
      simp only [Interleaving.consumerStep, hphase]
      exact ⟨List.prefix_refl _, Or.inl trivial, by simp⟩

theorem held_eq_nil_iff (s : Interleaving) : held s = [] ↔ s.pushed.length ≤ s.popped.length :=
  List.drop_eq_nil_iff

variable {sight : Sight}

/-- While the consumer moves, what the producer sees stays true. -/
theorem ProducerSees.keep (h : ProducerSees N s sight) (hpushed : s'.pushed = s.pushed)
    (hpopped : s.popped <+: s'.popped) : ProducerSees N s' sight := by
  cases sight with
  | away => trivial
  | readLoaded read atRead =>
    obtain ⟨r, hread, hle, hturn, hempty⟩ := h
    refine ⟨r, hread, Nat.le_trans hle (span_mono hpopped), ?_⟩
    rw [hpushed]
    exact ⟨hturn, hempty⟩
  | writeLoaded write atWrite =>
    show write = cursor (span s'.pushed)
    rw [hpushed]
    exact h
  | seen answer atRead atWrite =>
    refine ⟨h.1, ?_⟩
    intro hanswer
    have hlength := (held_eq_nil_iff s).mp (h.2 hanswer)
    rw [held_eq_nil_iff, hpushed]
    exact Nat.le_trans hlength hpopped.length_le

/-- While the producer moves, what the consumer sees stays true. -/
theorem ConsumerSees.keep (h : ConsumerSees N s sight) (hconsumer : s'.consumer = s.consumer)
    (hpopped : s'.popped = s.popped) (hpushed : s.pushed <+: s'.pushed) :
    ConsumerSees N s' sight := by
  cases sight with
  | away => trivial
  | readLoaded read atRead =>
    obtain ⟨hidle, hread⟩ := h
    exact ⟨hconsumer.trans hidle, by rw [hread, hpopped]⟩
  | writeLoaded write atWrite =>
    obtain ⟨hidle, w, hwrite, hle, hpublished, hturn, hempty⟩ := h
    refine ⟨hconsumer.trans hidle, w, hwrite, ?_⟩
    rw [hpopped]
    exact ⟨hle, Nat.le_trans hpublished (span_mono hpushed), hturn, hempty⟩
  | seen answer atRead atWrite =>
    refine ⟨h.1, ?_⟩
    intro hanswer
    obtain ⟨hsome, hdiffer⟩ := h.2 hanswer
    constructor
    · rw [ne_eq, held_eq_nil_iff] at hsome ⊢
      have hlength := hpushed.length_le
      rw [hpopped]
      omega
    · rw [hconsumer]
      exact hdiffer

theorem ProducerSees.own (h : ProducerSees N s sight) (hloading : sight.loading = false)
    (hheld : held s' = held s) : ProducerSees N s' sight := by
  cases sight with
  | away => trivial
  | readLoaded read atRead => cases hloading
  | writeLoaded write atWrite => cases hloading
  | seen answer atRead atWrite => exact ⟨h.1, fun hanswer => hheld.trans (h.2 hanswer)⟩

theorem ConsumerSees.own (h : ConsumerSees N s sight) (hloading : sight.loading = false)
    (hinv : Inv N s unread staged) (hheld : held s' = held s)
    (hdeciding : ∀ out read write, s'.consumer = .deciding out read write →
      s.consumer = .loadingWrite out read ∧ write = s.queue.write) : ConsumerSees N s' sight := by
  cases sight with
  | away => trivial
  | readLoaded read atRead => cases hloading
  | writeLoaded write atWrite => cases hloading
  | seen answer atRead atWrite =>
    refine ⟨h.1, ?_⟩
    intro hanswer
    have hsome := (h.2 hanswer).1
    refine ⟨hheld ▸ hsome, ?_⟩
    rintro out read write hphase heq
    obtain ⟨hloads, rfl⟩ := hdeciding out read write hphase
    have hread := hinv.consumer
    rw [hloads] at hread
    have hspan := hinv.span_pushed
    have hroom := hinv.room
    rw [show read = cursor (span s.popped) from hread,
      hinv.cursors_eq_iff (by omega) (by omega)] at heq
    exact hsome (hinv.span_eq_iff.mp heq)

/-- The cursors tell whether there is a message. -/
theorem Inv.queue_eq_iff (h : Inv N s unread staged) :
    s.queue.read = s.queue.write ↔ Interleaving.held s = [] := by
  have hspan := h.span_pushed
  have hroom := h.room
  rw [h.read, h.cursors_eq_iff (by omega) (by omega), h.span_eq_iff]

theorem ProducerSees.look (h : ProducerSees N s sight) (hinv : Inv N s unread staged)
    (writeFirst : Bool) : ProducerSees N s (s.look writeFirst sight) := by
  have hspan := hinv.span_pushed
  have hroom := hinv.room
  have hbegins : ProducerSees N s (s.look writeFirst .away) := by
    cases writeFirst with
    | true => exact hinv.write
    | false =>
      exact ⟨span s.popped, hinv.read, Nat.le_refl _, by omega,
        (isEmpty_held s).trans hinv.span_eq_iff.symm⟩
  cases sight with
  | away => exact hbegins
  | seen answer atRead atWrite => exact hbegins
  | readLoaded read atRead =>
    obtain ⟨r, rfl, hle, hturn, hempty⟩ := h
    have hcursors := hinv.cursors_eq_iff (by omega) hturn
    constructor
    · rw [Bool.eq_iff_iff, decide_eq_true_iff, hcursors, hempty]
    · intro hanswer
      rw [decide_eq_true_iff, hcursors] at hanswer
      exact hinv.span_eq_iff.mp (by omega)
  | writeLoaded write atWrite =>
    obtain rfl : write = s.queue.write := h.trans hinv.write.symm
    constructor
    · rw [Bool.eq_iff_iff, decide_eq_true_iff, hinv.queue_eq_iff, isEmpty_held]
    · intro hanswer
      exact hinv.queue_eq_iff.mp (of_decide_eq_true hanswer)

theorem ConsumerSees.look (h : ConsumerSees N s sight) (hinv : Inv N s unread staged)
    (hidle : s.consumer = .idle) (writeFirst : Bool) :
    ConsumerSees N s (s.look writeFirst sight) := by
  have hspan := hinv.span_pushed
  have hroom := hinv.room
  have hsize := N.size_le
  have hbegins : ConsumerSees N s (s.look writeFirst .away) := by
    cases writeFirst with
    | true =>
      exact ⟨hidle, span s.pushed, hinv.write, by omega, Nat.le_refl _, by omega,
        (isEmpty_held s).trans hinv.span_eq_iff.symm⟩
    | false => exact ⟨hidle, hinv.read⟩
  have hdeciding : ∀ out read write, s.consumer = .deciding out read write → read ≠ write := by
    intro out read write hphase
    rw [hidle] at hphase
    cases hphase
  cases sight with
  | away => exact hbegins
  | seen answer atRead atWrite => exact hbegins
  | readLoaded read atRead =>
    obtain rfl : read = s.queue.read := h.2.trans hinv.read.symm
    constructor
    · rw [Bool.eq_iff_iff, decide_eq_true_iff, hinv.queue_eq_iff, isEmpty_held]
    · intro hanswer
      exact ⟨mt hinv.queue_eq_iff.mpr (of_decide_eq_false hanswer), hdeciding⟩
  | writeLoaded write atWrite =>
    obtain ⟨-, w, rfl, hle, hpublished, hturn, hempty⟩ := h
    have hcursors : s.queue.read = cursor w ↔ span s.popped = w := by
      rw [hinv.read]
      exact cursor_eq_iff hle (by omega)
    constructor
    · rw [Bool.eq_iff_iff, decide_eq_true_iff, hcursors, hempty]
    · intro hanswer
      have hdiffer := mt hcursors.mpr (of_decide_eq_false hanswer)
      refine ⟨?_, hdeciding⟩
      intro hnone
      have hspans := hinv.span_eq_iff.mpr hnone
      exact hdiffer (by omega)

end Interleaving

/-! ### Any interleaving with its observers -/

namespace Observed

open Interleaving

structure Sound (N : Capacity) (o : Observed) : Prop where
  state : Interleaving.Sound N o.state
  producer : ProducerSees N o.state (o.sight .producer)
  consumer : ConsumerSees N o.state (o.sight .consumer)

variable {N : Capacity} {o o' : Observed}

theorem Sound.step (h : o.Sound N) {move : Move} {u : Unit} (hadmits : move.Admits)
    (hstep : o.step move = some (o', u)) : o'.Sound N := by
  obtain ⟨unread, staged, hinv⟩ := h.state
  cases move with
  | observe party writeFirst =>
    obtain ⟨hidle, hnext⟩ := Option.ite_none_right_eq_some.mp hstep
    obtain ⟨rfl, -⟩ := Prod.mk.inj (Option.some.inj hnext)
    cases party with
    | producer =>
      refine ⟨h.state, ?_, ?_⟩
      · dsimp only
        rw [Function.update_self]
        exact h.producer.look hinv writeFirst
      · dsimp only
        rw [Function.update_of_ne (by decide)]
        exact h.consumer
    | consumer =>
      refine ⟨h.state, ?_, ?_⟩
      · dsimp only
        rw [Function.update_of_ne (by decide)]
        exact h.producer
      · dsimp only
        rw [Function.update_self]
        exact h.consumer.look hinv (of_decide_eq_true hidle) writeFirst
  | act event =>
    obtain ⟨hloading, hnext⟩ := Option.ite_none_left_eq_some.mp hstep
    obtain ⟨⟨s', v⟩, hevent, heq⟩ := Option.map_eq_some_iff.mp hnext
    obtain ⟨rfl, -⟩ := Prod.mk.inj heq
    have hsound := hinv.step hadmits hevent
    rw [Bool.not_eq_true] at hloading
    cases hparty : event.party with
    | producer =>
      obtain ⟨hconsumer, hpopped, hpushed, hquiet⟩ := producer_step hparty hevent
      rw [hparty] at hloading
      refine ⟨hsound, ?_, ?_⟩
      · dsimp only
        split
        · rw [Function.update_self]
          trivial
        · rename_i hgoes
          refine h.producer.own hloading ?_
          rcases hquiet with hsame | ⟨hbusy, hidle⟩
          · rw [held, held, hsame, hpopped]
          · exact absurd (by simp [Interleaving.idle, hbusy, hidle]) hgoes
      · have hkept := h.consumer.keep hconsumer hpopped hpushed
        dsimp only
        split
        · rw [Function.update_of_ne (by decide)]
          exact hkept
        · exact hkept
    | consumer =>
      obtain ⟨hproducer, hpushed, hpopped, hquiet, hdeciding⟩ := consumer_step hparty hevent
      rw [hparty] at hloading
      refine ⟨hsound, ?_, ?_⟩
      · have hkept := h.producer.keep hpushed hpopped
        dsimp only
        split
        · rw [Function.update_of_ne (by decide)]
          exact hkept
        · exact hkept
      · dsimp only
        split
        · rw [Function.update_self]
          trivial
        · rename_i hgoes
          refine h.consumer.own hloading hinv ?_ hdeciding
          rcases hquiet with hsame | ⟨hbusy, hidle⟩
          · rw [held, held, hsame, hpushed]
          · exact absurd (by simp [Interleaving.idle, hbusy, hidle]) hgoes

/-- The producer is told whether the queue was empty when the read cursor was loaded, and an
empty queue stays empty for it. The consumer is told whether it was empty when the write cursor
was loaded, and where it was not, the pop that follows finds a message. -/
structure EmptyExact (o : Observed) : Prop where
  producer : ∀ answer atRead atWrite, o.sight .producer = .seen answer atRead atWrite →
    answer = atRead ∧ (answer = true → held o.state = [])
  consumer : ∀ answer atRead atWrite, o.sight .consumer = .seen answer atRead atWrite →
    answer = atWrite ∧ (answer = false → held o.state ≠ [] ∧
      ∀ out read write, o.state.consumer = .deciding out read write → read ≠ write)

theorem empty_exact {capacityBytes : Word} (hrequested : capacityBytes.toNat ≤ 2 ^ 63) :
    ∃ q, create capacityBytes = some q ∧ ∀ o, Reached q o → EmptyExact o := by
  obtain ⟨N, hN⟩ := create_eq hrequested
  refine ⟨_, hN, ?_⟩
  intro o hreached
  have hsound : o.Sound N := by
    refine Reachable.invariant ?_ hreached ⟨sound_init N _, trivial, trivial⟩
    intro o o' move u h hadmits hstep
    exact h.step hadmits hstep
  constructor
  · intro answer atRead atWrite hsight
    have hsees := hsound.producer
    rw [hsight] at hsees
    exact hsees
  · intro answer atRead atWrite hsight
    have hsees := hsound.consumer
    rw [hsight] at hsees
    exact hsees

/-- The producer loads the write cursor, a message is popped, and it loads the read cursor;
later the consumer loads the read cursor, a frame across the end of the ring is pushed, and
it loads the write cursor. -/
theorem empty_exact_apart : ∃ q o₁ o₂, create 5 = some q ∧ Reached q o₁ ∧ Reached q o₂ ∧
    o₁.sight .producer = .seen true true false ∧ EmptyExact o₁ ∧
    o₂.sight .consumer = .seen false true false ∧ EmptyExact o₂ := by
  obtain ⟨q, hq, hexact⟩ := @empty_exact 5 (by decide)
  have hfresh : create 5 = some {capacity := 8, mask := 7, buffer := fun _ => 0} := rfl
  obtain rfl := Option.some.inj (hq.symm.trans hfresh)
  have hpopped : (run (guarded step fun _ => Move.Admits)
      {state := {queue := {capacity := 8, mask := 7, buffer := fun _ => 0}}}
      (.act (.push [1, 2]) :: List.replicate 12 (.act .producer) ++
        .observe .producer true :: .act (.pop 2) :: List.replicate 13 (.act .consumer) ++
        [.observe .producer true])).map (fun o => o.sight .producer) =
      some (.seen true true false) := by decide +kernel
  have hpushed : (run (guarded step fun _ => Move.Admits)
      {state := {queue := {capacity := 8, mask := 7, buffer := fun _ => 0}}}
      (.act (.push [1, 2]) :: List.replicate 12 (.act .producer) ++
        .act (.pop 2) :: List.replicate 13 (.act .consumer) ++
        .act (.push [3]) :: .observe .consumer false :: List.replicate 11 (.act .producer) ++
        [.observe .consumer false])).map (fun o => o.sight .consumer) =
      some (.seen false true false) := by decide +kernel
  obtain ⟨o₁, hrun₁, hsight₁⟩ := Option.map_eq_some_iff.mp hpopped
  obtain ⟨o₂, hrun₂, hsight₂⟩ := Option.map_eq_some_iff.mp hpushed
  have hreached₁ : Reached {capacity := 8, mask := 7, buffer := fun _ => 0} o₁ :=
    .of_guarded _ hrun₁
  have hreached₂ : Reached {capacity := 8, mask := 7, buffer := fun _ => 0} o₂ :=
    .of_guarded _ hrun₂
  exact ⟨_, o₁, o₂, hq, hreached₁, hreached₂, hsight₁, hexact o₁ hreached₁, hsight₂,
    hexact o₂ hreached₂⟩

end Observed

end FastQueue

end ExchangeEngine
