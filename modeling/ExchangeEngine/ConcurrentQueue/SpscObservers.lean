import ExchangeEngine.ConcurrentQueue.SpscInterleaving

/-!
The observers `size`, `is_empty` and `is_full`, called between the other calls of a
party. An observation loads the write cursor and then the read cursor, and the other
party may make any steps between the two loads and afterwards. What a party has seen
is kept until it starts its next call. The own cursor of an observer stands still and
the other one only moves its way, so what it acts on is still true when it acts.
-/

namespace ExchangeEngine

open Cyclic Transition

namespace SpscQueue

variable {T : Type}

inductive Party where
  | producer
  | consumer
  deriving DecidableEq, Repr

/-- How far a party is with its last call of `size`. -/
inductive Sight where
  | away
  | loaded (write : Word)
  | seen (size : Word)
  deriving DecidableEq, Repr

structure Observed (T : Type) where
  state : Interleaving T := {}
  sight : Party → Sight := fun _ => .away

/-- A step of the interleaving, or a load of an observer. -/
inductive Move (T : Type) where
  | act (event : Interleaving.Event T)
  | observe (party : Party)

/-- The party that starts a call with a move. -/
def Interleaving.Event.caller : Interleaving.Event T → Option Party
  | .tryEmplace _ | .tryEmplaceRange _ => some .producer
  | .pop _ | .clear => some .consumer
  | .producer | .consumer => none

def Move.caller : Move T → Option Party
  | .act event => event.caller
  | .observe party => some party

/-- The next step of a party inside its call. -/
def Move.continues : Party → Move T → Bool
  | .producer, .act .producer => true
  | .consumer, .act .consumer => true
  | _, _ => false

namespace Interleaving

/-- Between two calls of a party. -/
def idle (s : Interleaving T) : Party → Bool
  | .producer => match s.producer with
    | .idle => true
    | _ => false
  | .consumer => s.consumer = .idle

theorem idle_producer {s : Interleaving T} : s.idle .producer = true ↔ s.producer = .idle := by
  unfold idle
  cases s.producer <;> simp

theorem idle_consumer {s : Interleaving T} : s.idle .consumer = true ↔ s.consumer = .idle := by
  simp [idle]

end Interleaving

namespace Observed

/-- One load of `size`. -/
def look (q : SpscQueue T) : Sight → Sight
  | .loaded write => .seen (write - q.readPosition)
  | _ => .loaded q.writePosition

/-- A party makes one call at a time, and forgets what it has seen when it starts one. -/
def step (N : Capacity) (type : ElementType) (debug : Bool) (o : Observed T) :
    Move T → Option (Observed T × Unit)
  | .observe party =>
    if o.state.idle party then
      some ({o with sight := Function.update o.sight party (look o.state.queue (o.sight party))}, ())
    else none
  | .act event =>
    match event.caller with
    | none => (o.state.step N type debug event).map fun (s, _) => ({o with state := s}, ())
    | some party =>
      match o.sight party with
      | .loaded _ => none
      | _ => (o.state.step N type debug event).map fun (s, _) =>
          ({o with state := s, sight := Function.update o.sight party .away}, ())

def Reached (N : Capacity) (type : ElementType) (debug : Bool) (o : Observed T) : Prop :=
  Reachable (step N type debug) (fun _ _ => True) {} o

end Observed

/-! ### One party leaves the other alone -/

namespace Interleaving

variable {N : Capacity} {type : ElementType} {debug : Bool} {s : Interleaving T}
  {rp rc wc : Nat} {unread staged : List T}

theorem producerStep_of_idle (h : s.producer = .idle) : s.producerStep N debug = s := by
  simp [producerStep, h]

theorem consumerStep_of_idle (h : s.consumer = .idle) : s.consumerStep N type debug = s := by
  simp [consumerStep, h]

/-- What the producer does not touch. -/
theorem producerStep_frame (N : Capacity) (debug : Bool) (s : Interleaving T) :
    (s.producerStep N debug).consumer = s.consumer ∧
    (s.producerStep N debug).taken = s.taken ∧
    (s.producerStep N debug).queue.readPosition = s.queue.readPosition ∧
    (s.producerStep N debug).queue.readPositionLocal = s.queue.readPositionLocal ∧
    (s.producerStep N debug).queue.writePositionCache = s.queue.writePositionCache := by
  unfold producerStep
  dsimp only
  repeat' split
  all_goals exact ⟨rfl, rfl, rfl, rfl, rfl⟩

/-- What the consumer does not touch. -/
theorem consumerStep_frame (N : Capacity) (type : ElementType) (debug : Bool)
    (s : Interleaving T) : (s.consumerStep N type debug).producer = s.producer ∧
    (s.consumerStep N type debug).pushed = s.pushed ∧
    (s.consumerStep N type debug).queue.writePosition = s.queue.writePosition ∧
    (s.consumerStep N type debug).queue.writePositionLocal = s.queue.writePositionLocal ∧
    (s.consumerStep N type debug).queue.readPositionCache = s.queue.readPositionCache := by
  unfold consumerStep
  dsimp only
  repeat' split
  all_goals exact ⟨rfl, rfl, rfl, rfl, rfl⟩

/-- A step of the producer never makes the queue shorter. -/
theorem Inv.size_producerStep (h : Inv N s rp rc wc unread staged) (debug : Bool) :
    s.queue.size.toNat ≤ (s.producerStep N debug).queue.size.toNat ∧
      s.pushed.length ≤ (s.producerStep N debug).pushed.length := by
  have hok := h.producer
  have hroom := h.room
  have hsize := h.size
  have := N.size_le
  have := h.rc_le
  have := h.rp_le
  have := h.length_pushed
  unfold Interleaving.producerStep
  cases hphase : s.producer with
  | storing range newWrite =>
    rw [hphase] at hok
    obtain ⟨rfl, -, rfl⟩ := hok
    refine ⟨?_, by simp⟩
    rw [hsize, SpscQueue.size, h.readPosition, toNat_sub_cursor (by omega) (by omega)]
    omega
  | constructing range pos rest => cases rest <;> exact ⟨Nat.le_refl _, Nat.le_refl _⟩
  | checking | rechecking | assertingRead =>
    dsimp only
    split <;> exact ⟨Nat.le_refl _, Nat.le_refl _⟩
  | _ => exact ⟨Nat.le_refl _, Nat.le_refl _⟩

/-- A step of the consumer never makes the queue longer. -/
theorem Inv.size_consumerStep (h : Inv N s rp rc wc unread staged) :
    (s.consumerStep N type debug).queue.size.toNat ≤ s.queue.size.toNat := by
  have hok := h.consumer
  have hroom := h.room
  have hsize := h.size
  have := N.size_le
  have := h.rc_le
  have := h.rp_le
  have := h.length_pushed
  unfold Interleaving.consumerStep
  cases hphase : s.consumer with
  | storing newRead =>
    rw [hphase] at hok
    obtain ⟨-, rfl, -⟩ := hok
    rw [hsize, SpscQueue.size, h.writePosition, toNat_sub_cursor (by omega) (by omega)]
    omega
  | reading pos count =>
    cases count with
    | zero => exact Nat.le_refl _
    | succ count =>
      dsimp only
      split <;> exact Nat.le_refl _
  | discarding pos writeEnd =>
    dsimp only
    split
    · exact Nat.le_refl _
    · split <;> exact Nat.le_refl _
  | checking | assertingRead =>
    dsimp only
    split <;> exact Nat.le_refl _
  | _ => exact Nat.le_refl _

/-- Nothing the producer relies on has changed, and the queue has not grown. -/
structure KeepsProducer (s s' : Interleaving T) : Prop where
  producer : s'.producer = s.producer
  pushed : s'.pushed = s.pushed
  writePosition : s'.queue.writePosition = s.queue.writePosition
  writePositionLocal : s'.queue.writePositionLocal = s.queue.writePositionLocal
  readPositionCache : s'.queue.readPositionCache = s.queue.readPositionCache
  size_le : s'.queue.size.toNat ≤ s.queue.size.toNat

/-- Nothing the consumer relies on has changed, and the queue has not shrunk. -/
structure KeepsConsumer (s s' : Interleaving T) : Prop where
  consumer : s'.consumer = s.consumer
  taken : s'.taken = s.taken
  readPosition : s'.queue.readPosition = s.queue.readPosition
  readPositionLocal : s'.queue.readPositionLocal = s.queue.readPositionLocal
  writePositionCache : s'.queue.writePositionCache = s.queue.writePositionCache
  le_size : s.queue.size.toNat ≤ s'.queue.size.toNat
  le_pushed : s.pushed.length ≤ s'.pushed.length

theorem KeepsProducer.of_queue {s' : Interleaving T} (hqueue : s'.queue = s.queue)
    (hproducer : s'.producer = s.producer) (hpushed : s'.pushed = s.pushed) :
    KeepsProducer s s' := by
  constructor <;> simp [hqueue, hproducer, hpushed]

theorem KeepsConsumer.of_queue {s' : Interleaving T} (hqueue : s'.queue = s.queue)
    (hconsumer : s'.consumer = s.consumer) (htaken : s'.taken = s.taken)
    (hpushed : s'.pushed = s.pushed) : KeepsConsumer s s' := by
  constructor <;> simp [hqueue, hconsumer, htaken, hpushed]

theorem Inv.keepsConsumer (h : Inv N s rp rc wc unread staged) :
    KeepsConsumer s (s.producerStep N debug) := by
  obtain ⟨hconsumer, htaken, hread, hlocal, hcache⟩ := producerStep_frame N debug s
  obtain ⟨hsize, hpushed⟩ := h.size_producerStep debug
  exact ⟨hconsumer, htaken, hread, hlocal, hcache, hsize, hpushed⟩

theorem Inv.keepsProducer (h : Inv N s rp rc wc unread staged) :
    KeepsProducer s (s.consumerStep N type debug) := by
  obtain ⟨hproducer, hpushed, hwrite, hlocal, hcache⟩ := consumerStep_frame N type debug s
  exact ⟨hproducer, hpushed, hwrite, hlocal, hcache, h.size_consumerStep⟩

/-- A move is a call of the producer, a step of its call, or leaves it alone. -/
theorem Inv.producer_cases (h : Inv N s rp rc wc unread staged) {event : Event T}
    {s' : Interleaving T} {u : Unit} (hstep : s.step N type debug event = some (s', u)) :
    event.caller = some .producer ∨ (event = .producer ∧ s' = s.producerStep N debug) ∨
      ((Move.act event).continues .producer = false ∧ KeepsProducer s s') := by
  cases event with
  | tryEmplace x => exact Or.inl rfl
  | tryEmplaceRange range => exact Or.inl rfl
  | producer =>
    obtain ⟨rfl, -⟩ := Prod.mk.inj (Option.some.inj hstep)
    exact Or.inr (Or.inl ⟨rfl, rfl⟩)
  | pop call =>
    cases hphase : s.consumer <;> simp only [Interleaving.step, hphase, reduceCtorEq] at hstep
    obtain ⟨rfl, -⟩ := Prod.mk.inj (Option.some.inj hstep)
    exact Or.inr (Or.inr ⟨rfl, .of_queue rfl rfl rfl⟩)
  | clear =>
    cases hphase : s.consumer <;> simp only [Interleaving.step, hphase, reduceCtorEq] at hstep
    obtain ⟨rfl, -⟩ := Prod.mk.inj (Option.some.inj hstep)
    exact Or.inr (Or.inr ⟨rfl, .of_queue rfl rfl rfl⟩)
  | consumer =>
    obtain ⟨rfl, -⟩ := Prod.mk.inj (Option.some.inj hstep)
    exact Or.inr (Or.inr ⟨rfl, h.keepsProducer⟩)

theorem Inv.consumer_cases (h : Inv N s rp rc wc unread staged) {event : Event T}
    {s' : Interleaving T} {u : Unit} (hstep : s.step N type debug event = some (s', u)) :
    event.caller = some .consumer ∨ (event = .consumer ∧ s' = s.consumerStep N type debug) ∨
      ((Move.act event).continues .consumer = false ∧ KeepsConsumer s s') := by
  cases event with
  | tryEmplace x =>
    cases hphase : s.producer <;> simp only [Interleaving.step, hphase, reduceCtorEq] at hstep
    obtain ⟨rfl, -⟩ := Prod.mk.inj (Option.some.inj hstep)
    exact Or.inr (Or.inr ⟨rfl, .of_queue rfl rfl rfl rfl⟩)
  | tryEmplaceRange range =>
    cases hphase : s.producer <;> simp only [Interleaving.step, hphase, reduceCtorEq] at hstep
    obtain ⟨rfl, -⟩ := Prod.mk.inj (Option.some.inj hstep)
    exact Or.inr (Or.inr ⟨rfl, .of_queue rfl rfl rfl rfl⟩)
  | producer =>
    obtain ⟨rfl, -⟩ := Prod.mk.inj (Option.some.inj hstep)
    exact Or.inr (Or.inr ⟨rfl, h.keepsConsumer⟩)
  | pop call => exact Or.inl rfl
  | clear => exact Or.inl rfl
  | consumer =>
    obtain ⟨rfl, -⟩ := Prod.mk.inj (Option.some.inj hstep)
    exact Or.inr (Or.inl ⟨rfl, rfl⟩)

end Interleaving

/-! ### What a party sees -/

namespace Interleaving

/-- What the producer may rely on once it has looked. -/
def ProducerSees (N : Capacity) (s : Interleaving T) : Sight → Prop
  | .away => True
  | .loaded write => s.producer = .idle ∧ write = s.queue.writePosition
  | .seen size => s.producer = .idle ∧ s.queue.size.toNat ≤ size.toNat ∧ size.toNat ≤ N.size

/-- What the consumer may rely on once it has looked. -/
def ConsumerSees (s : Interleaving T) : Sight → Prop
  | .away => True
  | .loaded write => s.consumer = .idle ∧
    ∃ p, write = cursor p ∧ s.taken.length ≤ p ∧ p ≤ s.pushed.length
  | .seen size => s.consumer = .idle ∧ size.toNat ≤ s.queue.size.toNat

variable {N : Capacity} {s s' : Interleaving T} {sight : Sight} {rp rc wc : Nat}
  {unread staged : List T}

theorem ProducerSees.keep (h : ProducerSees N s sight) (hkeeps : KeepsProducer s s') :
    ProducerSees N s' sight := by
  cases sight with
  | away => trivial
  | loaded write =>
    obtain ⟨hidle, rfl⟩ := h
    exact ⟨hkeeps.producer.trans hidle, hkeeps.writePosition.symm⟩
  | seen size =>
    obtain ⟨hidle, hle, hfits⟩ := h
    exact ⟨hkeeps.producer.trans hidle, Nat.le_trans hkeeps.size_le hle, hfits⟩

theorem ConsumerSees.keep (h : ConsumerSees s sight) (hkeeps : KeepsConsumer s s') :
    ConsumerSees s' sight := by
  cases sight with
  | away => trivial
  | loaded write =>
    obtain ⟨hidle, p, hwrite, htaken, hpushed⟩ := h
    exact ⟨hkeeps.consumer.trans hidle, p, hwrite, hkeeps.taken.symm ▸ htaken,
      Nat.le_trans hpushed hkeeps.le_pushed⟩
  | seen size =>
    obtain ⟨hidle, hle⟩ := h
    exact ⟨hkeeps.consumer.trans hidle, Nat.le_trans hle hkeeps.le_size⟩

theorem Inv.size_le (h : Inv N s rp rc wc unread staged) : s.queue.size.toNat ≤ N.size := by
  have := h.room
  have := h.rc_le
  rw [h.size]
  omega

theorem ProducerSees.look (h : ProducerSees N s sight) (hinv : Inv N s rp rc wc unread staged)
    (hidle : s.producer = .idle) : ProducerSees N s (Observed.look s.queue sight) := by
  cases sight with
  | away => exact ⟨hidle, rfl⟩
  | seen size => exact ⟨hidle, rfl⟩
  | loaded write =>
    obtain ⟨-, rfl⟩ := h
    exact ⟨hidle, Nat.le_refl _, hinv.size_le⟩

theorem ConsumerSees.look (h : ConsumerSees s sight) (hinv : Inv N s rp rc wc unread staged)
    (hidle : s.consumer = .idle) : ConsumerSees s (Observed.look s.queue sight) := by
  have hlen := hinv.length_pushed
  have hfresh : ConsumerSees s (.loaded s.queue.writePosition) :=
    ⟨hidle, _, hinv.writePosition, by omega, Nat.le_refl _⟩
  cases sight with
  | away => exact hfresh
  | seen size => exact hfresh
  | loaded write =>
    obtain ⟨-, p, rfl, htaken, hpushed⟩ := h
    have hok := hinv.consumer
    rw [hidle] at hok
    obtain ⟨-, rfl, -⟩ := hok
    have := N.size_le
    have := hinv.size_le
    have hsize := hinv.size
    refine ⟨hidle, ?_⟩
    rw [hinv.readPosition, toNat_sub_cursor htaken (by omega), hsize]
    omega

end Interleaving

/-! ### A call that a party knows will succeed -/

/-- How many steps the producer's call takes at most until it returns. -/
def ProducerPhase.stepsLeft : ProducerPhase T → Nat
  | .idle | .failed => 0
  | .checking _ range => range.length + 9
  | .loading _ range => range.length + 8
  | .caching _ range _ => range.length + 7
  | .rechecking _ range => range.length + 6
  | .assertingWrite range => range.length + 5
  | .assertingRead range _ => range.length + 4
  | .constructing _ _ rest => rest.length + 3
  | .publishing .. => 2
  | .storing .. => 1

/-- How many steps a `try_dequeue` takes at most until it returns. -/
def ConsumerPhase.stepsLeft : ConsumerPhase → Nat
  | .checking _ => 11
  | .loading _ => 10
  | .caching .. => 9
  | .deciding _ => 8
  | .assertingWrite => 7
  | .assertingRead _ => 6
  | .reading _ count => 2 * count + 3
  | .destroying _ count => 2 * count + 4
  | .publishing _ => 2
  | .storing _ => 1
  | _ => 0

namespace Interleaving

variable {N : Capacity} {type : ElementType} {debug : Bool} {s s' : Interleaving T} {x : T}
  {base : List T} {rp rc wc : Nat} {unread staged : List T}

/-- The producer is pushing `x` and will find room for it. -/
def Accepting (N : Capacity) (s : Interleaving T) (x : T) : ProducerPhase T → Prop
  | .checking _ range | .loading _ range => range = [x] ∧ s.queue.size.toNat < N.size
  | .caching _ range loaded =>
    range = [x] ∧ 1 ≤ (N.word - (s.queue.writePositionLocal - loaded)).toNat
  | .rechecking _ range => range = [x] ∧ 1 ≤ (s.queue.freeSlots N).toNat
  | .assertingWrite range | .assertingRead range _ | .constructing range _ _
  | .publishing range _ | .storing range _ => range = [x]
  | .idle | .failed => False

/-- The consumer is popping one element and will find it, or has already taken it. -/
def Delivering (s : Interleaving T) (base : List T) : ConsumerPhase → Prop
  | .checking call | .loading call =>
    call = .tryDequeue ∧ s.taken = base ∧ 0 < s.queue.size.toNat
  | .caching call loaded =>
    call = .tryDequeue ∧ s.taken = base ∧ loaded ≠ s.queue.readPositionLocal
  | .deciding call =>
    call = .tryDequeue ∧ s.taken = base ∧ s.queue.writePositionCache ≠ s.queue.readPositionLocal
  | .assertingWrite | .assertingRead _ => s.taken = base
  | .reading _ count => (count = 1 ∧ s.taken = base) ∨ (count = 0 ∧ ∃ y, s.taken = base ++ [y])
  | .destroying _ count => count = 0 ∧ ∃ y, s.taken = base ++ [y]
  | .publishing _ | .storing _ => ∃ y, s.taken = base ++ [y]
  | _ => False

theorem Accepting.keep (h : Accepting N s x s.producer) (hkeeps : KeepsProducer s s') :
    Accepting N s' x s'.producer := by
  rw [hkeeps.producer]
  cases hphase : s.producer with
  | checking single range | loading single range =>
    rw [hphase] at h
    exact ⟨h.1, Nat.lt_of_le_of_lt hkeeps.size_le h.2⟩
  | caching single range loaded =>
    rw [hphase] at h
    exact ⟨h.1, hkeeps.writePositionLocal.symm ▸ h.2⟩
  | rechecking single range =>
    rw [hphase] at h
    refine ⟨h.1, ?_⟩
    rw [SpscQueue.freeSlots, hkeeps.writePositionLocal, hkeeps.readPositionCache]
    exact h.2
  | _ =>
    rw [hphase] at h
    exact h

theorem Delivering.keep (h : Delivering s base s.consumer) (hkeeps : KeepsConsumer s s') :
    Delivering s' base s'.consumer := by
  rw [hkeeps.consumer]
  cases hphase : s.consumer <;> rw [hphase] at h <;>
    simp only [Delivering, hkeeps.taken, hkeeps.readPositionLocal, hkeeps.writePositionCache] at h ⊢
  case checking | loading => exact ⟨h.1, h.2.1, Nat.lt_of_lt_of_le h.2.2 hkeeps.le_size⟩
  all_goals exact h

/-- Every step of a call of the producer brings it closer to its end. -/
theorem stepsLeft_producerStep (N : Capacity) (debug : Bool) (s : Interleaving T) :
    (s.producerStep N debug).producer.stepsLeft ≤ s.producer.stepsLeft - 1 := by
  unfold producerStep
  cases hphase : s.producer with
  | constructing range pos rest => cases rest <;> simp [ProducerPhase.stepsLeft]
  | checking single range | rechecking single range =>
    dsimp only [enter]
    repeat' split
    all_goals simp [ProducerPhase.stepsLeft]
  | assertingRead range loaded =>
    dsimp only
    split <;> simp [ProducerPhase.stepsLeft]
  | _ => simp [ProducerPhase.stepsLeft, hphase]

theorem accepting_enter (s : Interleaving T) (q : SpscQueue T) (single : Bool) :
    Accepting N s x (enter debug q single [x]) := by
  unfold enter
  split <;> rfl

theorem Sound.not_failed (h : Sound N s) : s.producer ≠ .failed ∧ s.consumer ≠ .failed := by
  obtain ⟨rp, rc, wc, unread, staged, hinv⟩ := h
  have hproducer := hinv.producer
  have hconsumer := hinv.consumer
  exact ⟨fun hphase => by rwa [hphase] at hproducer, fun hphase => by rwa [hphase] at hconsumer⟩

theorem stepsLeft_of_accepting {phase : ProducerPhase T} (h : Accepting N s x phase) :
    0 < phase.stepsLeft := by
  cases phase with
  | idle | failed => exact h.elim
  | _ => simp [ProducerPhase.stepsLeft]

theorem stepsLeft_of_delivering {phase : ConsumerPhase} (h : Delivering s base phase) :
    0 < phase.stepsLeft := by
  cases phase with
  | idle | failed | loadingEnd | discarding | cachingEnd => exact h.elim
  | _ => simp [ConsumerPhase.stepsLeft]

/-- With room for its element the producer goes on to publish it. -/
theorem Inv.accepting_step (hinv : Inv N s rp rc wc unread staged)
    (h : Accepting N s x s.producer) (debug : Bool) :
    (Accepting N (s.producerStep N debug) x (s.producerStep N debug).producer ∧
      (s.producerStep N debug).pushed = s.pushed) ∨
    ((s.producerStep N debug).producer = .idle ∧
      (s.producerStep N debug).pushed = s.pushed ++ [x]) := by
  have hok := hinv.producer
  have hsize := hinv.size
  have hfit := hinv.size_le
  have hlen := hinv.length_pushed
  have hrp := hinv.rp_le
  have hsafe : (s.producerStep N debug).producer ≠ .failed := hinv.producerStep.not_failed.1
  unfold Interleaving.producerStep at hsafe ⊢
  cases hphase : s.producer with
  | idle | failed =>
    rw [hphase] at h
    exact h.elim
  | checking single range =>
    rw [hphase] at h
    obtain ⟨rfl, hroom⟩ := h
    refine Or.inl ?_
    dsimp only
    split
    · exact ⟨⟨rfl, hroom⟩, rfl⟩
    · exact ⟨accepting_enter _ _ _, rfl⟩
  | loading single range =>
    rw [hphase] at h hok
    obtain ⟨rfl, hroom⟩ := h
    obtain ⟨rfl, hlocal, -⟩ := hok
    refine Or.inl ⟨⟨rfl, ?_⟩, rfl⟩
    dsimp only
    rw [hlocal, hinv.readPosition, N.free_cursor (by omega) (by omega)]
    omega
  | caching single range loaded =>
    rw [hphase] at h
    exact Or.inl ⟨h, rfl⟩
  | rechecking single range =>
    rw [hphase] at h
    obtain ⟨rfl, hroom⟩ := h
    refine Or.inl ?_
    dsimp only
    rw [if_pos (by simpa using hroom)]
    exact ⟨accepting_enter _ _ _, rfl⟩
  | assertingWrite range =>
    rw [hphase] at h
    exact Or.inl ⟨h, rfl⟩
  | assertingRead range loaded =>
    rw [hphase] at h
    rw [hphase] at hsafe
    dsimp only at hsafe ⊢
    split
    · rename_i hfull
      simp [hfull] at hsafe
    · exact Or.inl ⟨h, rfl⟩
  | constructing range pos rest =>
    rw [hphase] at h
    cases rest <;> exact Or.inl ⟨h, rfl⟩
  | publishing range newWrite =>
    rw [hphase] at h
    exact Or.inl ⟨h, rfl⟩
  | storing range newWrite =>
    rw [hphase] at h
    obtain rfl := h
    exact Or.inr ⟨rfl, rfl⟩

/-- Each of its steps brings a `try_dequeue` that finds an element closer to its end. -/
theorem Inv.delivering_step (hinv : Inv N s rp rc wc unread staged)
    (h : Delivering s base s.consumer) (type : ElementType) (debug : Bool) :
    (Delivering (s.consumerStep N type debug) base (s.consumerStep N type debug).consumer ∧
      (s.consumerStep N type debug).consumer.stepsLeft < s.consumer.stepsLeft) ∨
    ((s.consumerStep N type debug).consumer = .idle ∧
      ∃ y, (s.consumerStep N type debug).taken = base ++ [y]) := by
  have hok := hinv.consumer
  have hsize := hinv.size
  have hsafe : (s.consumerStep N type debug).consumer ≠ .failed := hinv.consumerStep.not_failed.2
  unfold Interleaving.consumerStep at hsafe ⊢
  cases hphase : s.consumer with
  | idle | failed | loadingEnd | discarding | cachingEnd =>
    rw [hphase] at h
    exact h.elim
  | checking call =>
    rw [hphase] at h
    obtain ⟨rfl, htaken, hsome⟩ := h
    refine Or.inl ?_
    dsimp only
    split
    · exact ⟨⟨rfl, htaken, hsome⟩, by simp [ConsumerPhase.stepsLeft]⟩
    · rename_i hseen
      exact ⟨⟨rfl, htaken, Ne.symm hseen⟩, by simp [ConsumerPhase.stepsLeft]⟩
  | loading call =>
    rw [hphase] at h hok
    obtain ⟨rfl, htaken, hsome⟩ := h
    obtain ⟨hlocal, rfl, hle⟩ := hok
    refine Or.inl ⟨⟨rfl, htaken, fun heq => ?_⟩, by simp [ConsumerPhase.stepsLeft]⟩
    have hempty : s.queue.writePosition = s.queue.readPositionLocal := heq
    rw [SpscQueue.size, hempty, hlocal, hinv.readPosition, BitVec.sub_self] at hsome
    exact absurd hsome (by decide)
  | caching call loaded =>
    rw [hphase] at h
    exact Or.inl ⟨h, by simp [ConsumerPhase.stepsLeft]⟩
  | deciding call =>
    rw [hphase] at h
    obtain ⟨rfl, htaken, hsome⟩ := h
    refine Or.inl ?_
    have hne : s.queue.writePositionCache - s.queue.readPositionLocal ≠ 0 :=
      sub_ne_zero.mpr hsome
    dsimp only [afterReadable]
    rw [if_neg hne]
    split
    · exact ⟨htaken, by simp [ConsumerPhase.stepsLeft]⟩
    · exact ⟨Or.inl ⟨rfl, htaken⟩, by simp [ConsumerPhase.stepsLeft]⟩
  | assertingWrite =>
    rw [hphase] at h
    exact Or.inl ⟨h, by simp [ConsumerPhase.stepsLeft]⟩
  | assertingRead loaded =>
    rw [hphase] at h hsafe
    dsimp only at hsafe ⊢
    split
    · rename_i hempty
      simp [hempty] at hsafe
    · exact Or.inl ⟨Or.inl ⟨rfl, h⟩, by simp [ConsumerPhase.stepsLeft]⟩
  | reading pos count =>
    rw [hphase] at h hsafe
    rcases h with ⟨rfl, htaken⟩ | ⟨rfl, htaken⟩
    · dsimp only at hsafe ⊢
      split
      · rename_i hraw
        simp [hraw] at hsafe
      · rename_i y hcell
        exact Or.inl ⟨⟨rfl, y, by rw [htaken]⟩, by simp [ConsumerPhase.stepsLeft]⟩
    · exact Or.inl ⟨htaken, by simp [ConsumerPhase.stepsLeft]⟩
  | destroying pos count =>
    rw [hphase] at h
    obtain ⟨rfl, htaken⟩ := h
    exact Or.inl ⟨Or.inr ⟨rfl, htaken⟩, by simp [ConsumerPhase.stepsLeft]⟩
  | publishing newRead =>
    rw [hphase] at h
    exact Or.inl ⟨h, by simp [ConsumerPhase.stepsLeft]⟩
  | storing newRead =>
    rw [hphase] at h
    exact Or.inr ⟨rfl, h⟩

end Interleaving

namespace Observed

open Interleaving

variable {N : Capacity} {type : ElementType} {debug : Bool} {o o' : Observed T} {u : Unit}

/-- A step of the interleaving makes its caller, if it starts a call, forget what it saw. -/
theorem step_act {event : Event T} (hstep : o.step N type debug (.act event) = some (o', u)) :
    o.state.step N type debug event = some (o'.state, ()) ∧
      ∀ party, o'.sight party = if event.caller = some party then .away else o.sight party := by
  simp only [step] at hstep
  cases hcaller : event.caller with
  | none =>
    simp only [hcaller] at hstep
    obtain ⟨⟨s, _⟩, hstate, heq⟩ := Option.map_eq_some_iff.mp hstep
    obtain ⟨rfl, -⟩ := Prod.mk.inj heq
    exact ⟨hstate, fun party => rfl⟩
  | some party =>
    simp only [hcaller] at hstep
    have hmap : (o.state.step N type debug event).map (fun x =>
        ({o with state := x.1, sight := Function.update o.sight party .away}, ())) =
        some (o', u) := by
      cases hsight : o.sight party <;> simp only [hsight, reduceCtorEq] at hstep
      · exact hstep
      · exact hstep
    obtain ⟨⟨s, _⟩, hstate, heq⟩ := Option.map_eq_some_iff.mp hmap
    obtain ⟨rfl, -⟩ := Prod.mk.inj heq
    refine ⟨hstate, fun party' => ?_⟩
    by_cases hparty : party' = party
    · subst hparty
      simp
    · have hother : some party ≠ some party' := fun heq => hparty (Option.some.inj heq).symm
      simp only [Function.update_of_ne hparty, if_neg hother]

/-- A load changes nothing but what its party sees. -/
theorem step_observe {party : Party}
    (hstep : o.step N type debug (.observe party) = some (o', u)) :
    o.state.idle party = true ∧ o'.state = o.state ∧
      o'.sight = Function.update o.sight party (look o.state.queue (o.sight party)) := by
  simp only [step] at hstep
  split at hstep
  · rename_i hidle
    obtain ⟨rfl, -⟩ := Prod.mk.inj (Option.some.inj hstep)
    exact ⟨hidle, rfl, rfl⟩
  · cases hstep

/-- In a sound state each party may rely on what it sees. -/
structure Sound (N : Capacity) (o : Observed T) : Prop where
  state : Interleaving.Sound N o.state
  producer : ProducerSees N o.state (o.sight .producer)
  consumer : ConsumerSees o.state (o.sight .consumer)

theorem producer_cases (h : o.Sound N) {move : Move T}
    (hstep : o.step N type debug move = some (o', u)) : move.caller = some .producer ∨
      (move.continues .producer = true ∧ o'.state = o.state.producerStep N debug ∧
        o'.sight .producer = o.sight .producer) ∨
      (move.continues .producer = false ∧ KeepsProducer o.state o'.state ∧
        o'.sight .producer = o.sight .producer) := by
  obtain ⟨rp, rc, wc, unread, staged, hinv⟩ := h.state
  cases move with
  | observe party =>
    obtain ⟨-, hstate, hsight⟩ := step_observe hstep
    cases party with
    | producer => exact Or.inl rfl
    | consumer =>
      refine Or.inr (Or.inr ⟨rfl, ?_, by simp [hsight]⟩)
      rw [hstate]
      exact .of_queue rfl rfl rfl
  | act event =>
    obtain ⟨hstate, hsight⟩ := step_act hstep
    rcases hinv.producer_cases hstate with hcall | ⟨rfl, hnext⟩ | ⟨hother, hkeeps⟩
    · exact Or.inl hcall
    · exact Or.inr (Or.inl ⟨rfl, hnext, hsight .producer⟩)
    · by_cases hcall : event.caller = some .producer
      · exact Or.inl hcall
      · exact Or.inr (Or.inr ⟨hother, hkeeps, (hsight .producer).trans (if_neg hcall)⟩)

theorem consumer_cases (h : o.Sound N) {move : Move T}
    (hstep : o.step N type debug move = some (o', u)) : move.caller = some .consumer ∨
      (move.continues .consumer = true ∧ o'.state = o.state.consumerStep N type debug ∧
        o'.sight .consumer = o.sight .consumer) ∨
      (move.continues .consumer = false ∧ KeepsConsumer o.state o'.state ∧
        o'.sight .consumer = o.sight .consumer) := by
  obtain ⟨rp, rc, wc, unread, staged, hinv⟩ := h.state
  cases move with
  | observe party =>
    obtain ⟨-, hstate, hsight⟩ := step_observe hstep
    cases party with
    | consumer => exact Or.inl rfl
    | producer =>
      refine Or.inr (Or.inr ⟨rfl, ?_, by simp [hsight]⟩)
      rw [hstate]
      exact .of_queue rfl rfl rfl rfl
  | act event =>
    obtain ⟨hstate, hsight⟩ := step_act hstep
    rcases hinv.consumer_cases hstate with hcall | ⟨rfl, hnext⟩ | ⟨hother, hkeeps⟩
    · exact Or.inl hcall
    · exact Or.inr (Or.inl ⟨rfl, hnext, hsight .consumer⟩)
    · by_cases hcall : event.caller = some .consumer
      · exact Or.inl hcall
      · exact Or.inr (Or.inr ⟨hother, hkeeps, (hsight .consumer).trans (if_neg hcall)⟩)

theorem Sound.step (h : o.Sound N) {move : Move T}
    (hstep : o.step N type debug move = some (o', u)) : o'.Sound N := by
  obtain ⟨rp, rc, wc, unread, staged, hinv⟩ := h.state
  constructor
  · cases move with
    | observe party =>
      obtain ⟨-, hstate, -⟩ := step_observe hstep
      rw [hstate]
      exact h.state
    | act event => exact hinv.step (step_act hstep).1
  · rcases producer_cases h hstep with hcall | ⟨-, hnext, hsight⟩ | ⟨-, hkeeps, hsight⟩
    · cases move with
      | observe party =>
        obtain rfl := Option.some.inj hcall
        obtain ⟨hidle, hstate, hsight⟩ := step_observe hstep
        rw [hstate, hsight, Function.update_self]
        exact h.producer.look hinv (idle_producer.mp hidle)
      | act event =>
        have hcaller : event.caller = some .producer := hcall
        rw [(step_act hstep).2, if_pos hcaller]
        trivial
    · rw [hnext, hsight]
      have hsees := h.producer
      cases hs : o.sight .producer with
      | away => trivial
      | loaded write =>
        rw [hs] at hsees
        rwa [producerStep_of_idle hsees.1]
      | seen size =>
        rw [hs] at hsees
        rwa [producerStep_of_idle hsees.1]
    · rw [hsight]
      exact h.producer.keep hkeeps
  · rcases consumer_cases h hstep with hcall | ⟨-, hnext, hsight⟩ | ⟨-, hkeeps, hsight⟩
    · cases move with
      | observe party =>
        obtain rfl := Option.some.inj hcall
        obtain ⟨hidle, hstate, hsight⟩ := step_observe hstep
        rw [hstate, hsight, Function.update_self]
        exact h.consumer.look hinv (idle_consumer.mp hidle)
      | act event =>
        have hcaller : event.caller = some .consumer := hcall
        rw [(step_act hstep).2, if_pos hcaller]
        trivial
    · rw [hnext, hsight]
      have hsees := h.consumer
      cases hs : o.sight .consumer with
      | away => trivial
      | loaded write =>
        rw [hs] at hsees
        rwa [consumerStep_of_idle hsees.1]
      | seen size =>
        rw [hs] at hsees
        rwa [consumerStep_of_idle hsees.1]
    · rw [hsight]
      exact h.consumer.keep hkeeps

theorem Reached.sound (h : Reached N type debug o) : o.Sound N :=
  Reachable.invariant (fun h _ hstep => Sound.step h hstep) h ⟨sound_init N, trivial, trivial⟩

/-- A run in which a party starts no call. -/
abbrev Meanwhile (N : Capacity) (type : ElementType) (debug : Bool) (party : Party)
    (o : Observed T) (moves : List (Move T)) (o' : Observed T) : Prop :=
  ∃ outs, Runs (step N type debug) (fun _ move => move.caller ≠ some party) o moves outs o'

/-- Whatever the consumer does meanwhile, the next `try_emplace` pushes its element, in at
most ten steps. -/
def PushSucceeds (N : Capacity) (type : ElementType) (debug : Bool) (o : Observed T) : Prop :=
  ∀ before o₁, o.Meanwhile N type debug .producer before o₁ → ∀ x, ∃ o₂,
    o₁.step N type debug (.act (.tryEmplace x)) = some (o₂, ()) ∧
    ∀ after o₃, o₂.Meanwhile N type debug .producer after o₃ →
      (o₃.state.producer = .idle → o₃.state.pushed = o.state.pushed ++ [x]) ∧
      (10 ≤ after.countP (Move.continues .producer) → o₃.state.producer = .idle)

/-- Whatever the producer does meanwhile, the next `try_dequeue` takes an element, in at
most eleven steps. -/
def PopSucceeds (N : Capacity) (type : ElementType) (debug : Bool) (o : Observed T) : Prop :=
  ∀ before o₁, o.Meanwhile N type debug .consumer before o₁ → ∃ o₂,
    o₁.step N type debug (.act (.pop .tryDequeue)) = some (o₂, ()) ∧
    ∀ after o₃, o₂.Meanwhile N type debug .consumer after o₃ →
      (o₃.state.consumer = .idle → ∃ y, o₃.state.taken = o.state.taken ++ [y]) ∧
      (11 ≤ after.countP (Move.continues .consumer) → o₃.state.consumer = .idle)

/-- Until its next call the producer keeps what it has seen, and has pushed nothing. -/
theorem Meanwhile.producer_waits {n : Word} {moves : List (Move T)} (h : o.Sound N)
    (hsight : o.sight .producer = .seen n)
    (hmeanwhile : o.Meanwhile N type debug .producer moves o') :
    o'.Sound N ∧ o'.sight .producer = .seen n ∧ o'.state.pushed = o.state.pushed := by
  obtain ⟨_, hruns⟩ := hmeanwhile
  refine hruns.invariant (I := fun o₁ => o₁.Sound N ∧ o₁.sight .producer = .seen n ∧
    o₁.state.pushed = o.state.pushed) ?_ ⟨h, hsight, rfl⟩
  rintro o₁ o₂ move u ⟨hsound, hsees, hpushed⟩ hguard hstep
  refine ⟨hsound.step hstep, ?_⟩
  have hidle : o₁.state.producer = .idle := by
    have hproducer := hsound.producer
    rw [hsees] at hproducer
    exact hproducer.1
  rcases producer_cases hsound hstep with hcall | ⟨-, hnext, hsame⟩ | ⟨-, hkeeps, hsame⟩
  · exact absurd hcall hguard
  · rw [hsame, hnext, producerStep_of_idle hidle]
    exact ⟨hsees, hpushed⟩
  · exact ⟨hsame.trans hsees, hkeeps.pushed.trans hpushed⟩

theorem Meanwhile.consumer_waits {n : Word} {moves : List (Move T)} (h : o.Sound N)
    (hsight : o.sight .consumer = .seen n)
    (hmeanwhile : o.Meanwhile N type debug .consumer moves o') :
    o'.Sound N ∧ o'.sight .consumer = .seen n ∧ o'.state.taken = o.state.taken := by
  obtain ⟨_, hruns⟩ := hmeanwhile
  refine hruns.invariant (I := fun o₁ => o₁.Sound N ∧ o₁.sight .consumer = .seen n ∧
    o₁.state.taken = o.state.taken) ?_ ⟨h, hsight, rfl⟩
  rintro o₁ o₂ move u ⟨hsound, hsees, htaken⟩ hguard hstep
  refine ⟨hsound.step hstep, ?_⟩
  have hidle : o₁.state.consumer = .idle := by
    have hconsumer := hsound.consumer
    rw [hsees] at hconsumer
    exact hconsumer.1
  rcases consumer_cases hsound hstep with hcall | ⟨-, hnext, hsame⟩ | ⟨-, hkeeps, hsame⟩
  · exact absurd hcall hguard
  · rw [hsame, hnext, consumerStep_of_idle hidle]
    exact ⟨hsees, htaken⟩
  · exact ⟨hsame.trans hsees, hkeeps.taken.trans htaken⟩

/-- A push that will find room is still on its way, or has pushed its element. -/
def Pushing (N : Capacity) (x : T) (base : List T) (o : Observed T) (steps : Nat) : Prop :=
  (Accepting N o.state x o.state.producer ∧ o.state.pushed = base ∧
      o.state.producer.stepsLeft + steps ≤ 10) ∨
    (o.state.producer = .idle ∧ o.state.pushed = base ++ [x])

/-- A pop that will find an element is still on its way, or has taken it. -/
def Popping (base : List T) (o : Observed T) (steps : Nat) : Prop :=
  (Delivering o.state base o.state.consumer ∧ o.state.consumer.stepsLeft + steps ≤ 11) ∨
    (o.state.consumer = .idle ∧ ∃ y, o.state.taken = base ++ [y])

theorem Pushing.step {x : T} {base : List T} {steps : Nat} (hpushing : o.Pushing N x base steps)
    (h : o.Sound N) {move : Move T} (hguard : move.caller ≠ some .producer)
    (hstep : o.step N type debug move = some (o', u)) :
    o'.Pushing N x base (steps + if move.continues .producer then 1 else 0) := by
  obtain ⟨rp, rc, wc, unread, staged, hinv⟩ := h.state
  rcases producer_cases h hstep with hcall | ⟨hcontinues, hnext, -⟩ | ⟨hother, hkeeps, -⟩
  · exact absurd hcall hguard
  · rw [hcontinues, Pushing, hnext]
    rcases hpushing with ⟨haccepting, hpushed, hsteps⟩ | ⟨hidle, hpushed⟩
    · rcases hinv.accepting_step haccepting debug with ⟨hstill, hsame⟩ | ⟨hidle, hnew⟩
      · have hcloser := stepsLeft_producerStep N debug o.state
        have hpositive := stepsLeft_of_accepting haccepting
        exact Or.inl ⟨hstill, hsame.trans hpushed, by simp only [if_true]; omega⟩
      · exact Or.inr ⟨hidle, hpushed ▸ hnew⟩
    · rw [producerStep_of_idle hidle]
      exact Or.inr ⟨hidle, hpushed⟩
  · rw [hother]
    rcases hpushing with ⟨haccepting, hpushed, hsteps⟩ | ⟨hidle, hpushed⟩
    · exact Or.inl ⟨haccepting.keep hkeeps, hkeeps.pushed.trans hpushed,
        by rw [hkeeps.producer]; exact hsteps⟩
    · exact Or.inr ⟨hkeeps.producer.trans hidle, hkeeps.pushed.trans hpushed⟩

theorem Popping.step {base : List T} {steps : Nat} (hpopping : o.Popping base steps)
    (h : o.Sound N) {move : Move T} (hguard : move.caller ≠ some .consumer)
    (hstep : o.step N type debug move = some (o', u)) :
    o'.Popping base (steps + if move.continues .consumer then 1 else 0) := by
  obtain ⟨rp, rc, wc, unread, staged, hinv⟩ := h.state
  rcases consumer_cases h hstep with hcall | ⟨hcontinues, hnext, -⟩ | ⟨hother, hkeeps, -⟩
  · exact absurd hcall hguard
  · rw [hcontinues, Popping, hnext]
    rcases hpopping with ⟨hdelivering, hsteps⟩ | ⟨hidle, htaken⟩
    · rcases hinv.delivering_step hdelivering type debug with ⟨hstill, hcloser⟩ | hdone
      · exact Or.inl ⟨hstill, by simp only [if_true]; omega⟩
      · exact Or.inr hdone
    · rw [consumerStep_of_idle hidle]
      exact Or.inr ⟨hidle, htaken⟩
  · rw [hother]
    rcases hpopping with ⟨hdelivering, hsteps⟩ | ⟨hidle, htaken⟩
    · exact Or.inl ⟨hdelivering.keep hkeeps, by rw [hkeeps.consumer]; exact hsteps⟩
    · exact Or.inr ⟨hkeeps.consumer.trans hidle, hkeeps.taken.symm ▸ htaken⟩

/-- A producer that saw a free slot pushes. -/
theorem Sound.pushSucceeds (h : o.Sound N) {n : Word} (hsight : o.sight .producer = .seen n)
    (hroom : n ≠ N.word) : o.PushSucceeds N type debug := by
  intro before o₁ hbefore x
  obtain ⟨hsound, hsees, hpushed⟩ := hbefore.producer_waits h hsight
  have hproducer := hsound.producer
  rw [hsees] at hproducer
  obtain ⟨hidle, hle, hfit⟩ := hproducer
  have hne : n.toNat ≠ N.size := fun heq =>
    hroom (BitVec.toNat_inj.mp (heq.trans N.word_toNat.symm))
  have hcall : o₁.step N type debug (.act (.tryEmplace x)) =
      some (⟨{o₁.state with producer := .checking true [x]},
        Function.update o₁.sight .producer .away⟩, ()) := by
    simp [Observed.step, Event.caller, hsees, Interleaving.step, hidle]
  refine ⟨_, hcall, ?_⟩
  rintro after o₃ ⟨_, hafter⟩
  have hstart : Accepting N {o₁.state with producer := .checking true [x]} x
      (.checking true [x]) := ⟨rfl, by simp only; omega⟩
  obtain ⟨-, hpushing⟩ := hafter.counting
    (I := fun o k => o.Sound N ∧ o.Pushing N x o₁.state.pushed k) (Move.continues .producer)
    (fun hI hguard hstep => ⟨hI.1.step hstep, hI.2.step hI.1 hguard hstep⟩)
    (k := 0) ⟨hsound.step hcall, Or.inl ⟨hstart, rfl, Nat.le_refl _⟩⟩
  rw [hpushed] at hpushing
  rcases hpushing with ⟨haccepting, -, hsteps⟩ | ⟨hidle', hdone⟩
  · have hpositive := stepsLeft_of_accepting haccepting
    refine ⟨fun hidle' => ?_, fun hcount => by omega⟩
    rw [hidle'] at hpositive
    exact absurd hpositive (by simp [ProducerPhase.stepsLeft])
  · exact ⟨fun _ => hdone, fun _ => hidle'⟩

/-- A consumer that saw an element pops. -/
theorem Sound.popSucceeds (h : o.Sound N) {n : Word} (hsight : o.sight .consumer = .seen n)
    (hsome : n ≠ 0) : o.PopSucceeds N type debug := by
  intro before o₁ hbefore
  obtain ⟨hsound, hsees, htaken⟩ := hbefore.consumer_waits h hsight
  have hconsumer := hsound.consumer
  rw [hsees] at hconsumer
  obtain ⟨hidle, hle⟩ := hconsumer
  have hne : n.toNat ≠ 0 := fun heq => hsome (BitVec.toNat_inj.mp heq)
  have hcall : o₁.step N type debug (.act (.pop .tryDequeue)) =
      some (⟨{o₁.state with consumer := .checking .tryDequeue},
        Function.update o₁.sight .consumer .away⟩, ()) := by
    simp [Observed.step, Event.caller, hsees, Interleaving.step, hidle]
  refine ⟨_, hcall, ?_⟩
  rintro after o₃ ⟨_, hafter⟩
  have hstart : Delivering {o₁.state with consumer := .checking .tryDequeue} o₁.state.taken
      (.checking .tryDequeue) := ⟨rfl, rfl, by simp only; omega⟩
  obtain ⟨-, hpopping⟩ := hafter.counting
    (I := fun o k => o.Sound N ∧ o.Popping o₁.state.taken k) (Move.continues .consumer)
    (fun hI hguard hstep => ⟨hI.1.step hstep, hI.2.step hI.1 hguard hstep⟩)
    (k := 0) ⟨hsound.step hcall, Or.inl ⟨hstart, Nat.le_refl _⟩⟩
  rw [htaken] at hpopping
  rcases hpopping with ⟨hdelivering, hsteps⟩ | ⟨hidle', hdone⟩
  · have hpositive := stepsLeft_of_delivering hdelivering
    refine ⟨fun hidle' => ?_, fun hcount => by omega⟩
    rw [hidle'] at hpositive
    exact absurd hpositive (by simp [ConsumerPhase.stepsLeft])
  · exact ⟨fun _ => hdone, fun _ => hidle'⟩

/-- What an observer returns is a size the queue can have, and safe to act on: the next
`try_emplace` of a producer that saw a free slot succeeds and the next `try_dequeue` of a
consumer that saw an element delivers one, whatever the other party does meanwhile. No
assertion fails. -/
theorem observers_safe (hreached : Reached N type debug o) :
    (∀ party n, o.sight party = .seen n → n.toNat ≤ N.size) ∧
    (∀ n, o.sight .producer = .seen n → n ≠ N.word → o.PushSucceeds N type debug) ∧
    (∀ n, o.sight .consumer = .seen n → n ≠ 0 → o.PopSucceeds N type debug) ∧
    o.state.producer ≠ .failed ∧ o.state.consumer ≠ .failed := by
  have hsound := hreached.sound
  obtain ⟨rp, rc, wc, unread, staged, hinv⟩ := hsound.state
  refine ⟨fun party n hsight => ?_, fun _ => hsound.pushSucceeds, fun _ => hsound.popSucceeds,
    hsound.state.not_failed⟩
  cases party with
  | producer =>
    have hsees := hsound.producer
    rw [hsight] at hsees
    exact hsees.2.2
  | consumer =>
    have hsees := hsound.consumer
    rw [hsight] at hsees
    exact Nat.le_trans hsees.2 hinv.size_le

/-- A producer that looks while the consumer is about to pop. -/
theorem observers_safe_twoLoads : ∃ o : Observed Nat, o.sight .producer = .seen 1 ∧
    o.PushSucceeds ⟨1, by decide⟩ ⟨false, false, by decide⟩ true := by
  have hrun : ∃ o : Observed Nat,
      Reached ⟨1, by decide⟩ ⟨false, false, by decide⟩ true o ∧ o.sight .producer = .seen 1 :=
    ⟨_, .of_run [.act (.tryEmplace 7), .act .producer, .act .producer, .act .producer,
      .act .producer, .act .producer, .act .producer, .act .producer, .observe .producer,
      .act (.pop .tryDequeue), .act .consumer, .act .consumer, .observe .producer] rfl, rfl⟩
  obtain ⟨o, hreached, hsight⟩ := hrun
  exact ⟨o, hsight, (observers_safe hreached).2.1 1 hsight (by decide)⟩

end Observed

end SpscQueue

end ExchangeEngine
