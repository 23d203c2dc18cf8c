import ExchangeEngine.ConcurrentQueue.SpscObservers

/-!
One producer and one consumer on an `spsc_queue` of trivially copyable elements, where the
consumer pops in batches and the library has no `std::start_lifetime_as_array`. `ring_data`
then moves the whole ring onto itself: it reads every slot and writes every one back, those
of the producer too. Nothing is lost as long as the producer constructs nothing in a slot
between the two; the last theorem is a run in which it does.
-/

namespace ExchangeEngine

open Cyclic

namespace SpscQueue

variable {T : Type}

/-- Where the consumer stands with a `memcpy` of `len` elements from slot `index` on: the
view of the ring is prepared first, from what its slots are `seen` to hold. -/
inductive View (T : Type) where
  | none
  | loading (index len : Nat) (seen : List (Option T))
  | restoring (index len : Nat) (seen : List (Option T)) (next : Nat)
  | copying (index len : Nat)

/-- While the consumer of `run` reads its batch, the `view` says how far it is. -/
structure Viewing (T : Type) where
  run : Interleaving T := {}
  view : View T := .none

namespace Viewing

/-- `is_trivially_copyable_v<T>` -/
def copyable : ElementType := ⟨true, true, fun _ => rfl⟩

/-- The next step of the consumer inside its call. -/
def consumerStep (N : Capacity) (debug : Bool) (s : Viewing T) : Viewing T :=
  let run := s.run
  let q := run.queue
  match run.consumer with
  | .reading pos count =>
    match s.view with
    | .none =>
      let readIndex := calculateIndex N pos
      {s with view := .loading readIndex (min count (N.size - readIndex)) []}
    | .loading index len seen =>
      if seen.length < N.size then
        {s with view := .loading index len (seen ++ [q.storage seen.length])}
      else {s with view := .restoring index len seen 0}
    | .restoring index len seen next =>
      match seen[next]? with
      | some cell =>
        {run := {run with queue := {q with storage := Function.update q.storage next cell}}
         view := .restoring index len seen (next + 1)}
      | none => {s with view := .copying index len}
    | .copying index (len + 1) =>
      match q.storage index with
      | none => {run := {run with consumer := .failed}, view := .none}
      | some x =>
        {run := {run with consumer := .reading (pos + 1) (count - 1), taken := run.taken ++ [x]}
         view := .copying (index + 1) len}
    | .copying _ 0 =>
      -- what is left of the batch starts at slot 0, and takes a view of its own
      if count ≠ 0 then {s with view := .loading 0 count []}
      else {run := {run with consumer := .publishing pos}, view := .none}
  | _ => {s with run := run.consumerStep N copyable debug}

inductive Event (T : Type) where
  | tryEmplace (x : T)
  | producer
  | tryDequeueRange (size : Nat)
  | consumer

def step (N : Capacity) (debug : Bool) (s : Viewing T) : Event T → Option (Viewing T × Unit)
  | .tryEmplace x =>
    (s.run.step N copyable debug (.tryEmplace x)).map fun (run, _) => ({s with run}, ())
  | .producer => (s.run.step N copyable debug .producer).map fun (run, _) => ({s with run}, ())
  | .tryDequeueRange size =>
    (s.run.step N copyable debug (.pop (.tryDequeueRange size))).map fun (run, _) =>
      ({s with run}, ())
  | .consumer => some (s.consumerStep N debug, ())

end Viewing

/-- What slot `i` was read to hold, while it is still to be written back. -/
def View.pending (i : Nat) : View T → Option (Option T)
  | .loading _ _ seen => seen[i]?
  | .restoring _ _ seen next => if next ≤ i then seen[i]? else Option.none
  | _ => Option.none

namespace Viewing

/-- The producer constructs nothing in a slot between its read and its write-back, unless it
is what the slot holds already. -/
def Undisturbed (N : Capacity) (s : Viewing T) : Event T → Prop
  | .producer =>
    match s.run.producer with
    | .constructing _ pos (x :: _) => ∀ cell ∈ s.view.pending (calculateIndex N pos), cell = some x
    | _ => True
  | _ => True

instance [DecidableEq T] (N : Capacity) (s : Viewing T) (event : Event T) :
    Decidable (Undisturbed N s event) := by
  unfold Undisturbed
  split
  · split <;> infer_instance
  · infer_instance

/-- Reached by some interleaving whose steps the guard admits. -/
def Reached (N : Capacity) (debug : Bool) (guard : Viewing T → Event T → Prop) (s : Viewing T) :
    Prop :=
  Transition.Reachable (step N debug) guard {} s

structure Delivers (N : Capacity) (debug : Bool) (s : Viewing T) : Prop where
  delivered : ∀ (k : Nat) (x : T), s.run.taken[k]? = some x → s.run.pushed[k]? = some x
  /-- No indeterminate bytes are delivered. -/
  valid : s.run.consumer ≠ .failed
  /-- The consumer changes no slot, its own or the producer's. -/
  unchanged : (s.consumerStep N debug).run.queue.storage = s.run.queue.storage

/-! ### What holds between any two steps -/

/-- The chunk that is copied next, in a batch of which `count` elements are left, behind `t`
taken ones. -/
structure ChunkOk (N : Capacity) (t count index len : Nat) : Prop where
  len_le : len ≤ count
  fits : index + len ≤ N.size
  index_eq : len ≠ 0 → index = t % N.size
  turn : len < count → (t + len) % N.size = 0

/-- Which views go with which phase. -/
def ViewOk (N : Capacity) (t : Nat) : ConsumerPhase → View T → Prop
  | .idle, .none | .publishing _, .none | .storing _, .none => True
  | .checking call, .none | .loading call, .none | .caching call _, .none | .deciding call, .none =>
    ∃ size, call = .tryDequeueRange size
  | .reading _ _, .none => True
  | .reading _ count, .loading index len _ | .reading _ count, .restoring index len _ _
  | .reading _ count, .copying index len => ChunkOk N t count index len
  | _, _ => False

/-- What the view is to write back is what the slots hold. -/
structure Sound (N : Capacity) (s : Viewing T) : Prop where
  run : s.run.Sound N
  view : ViewOk N s.run.taken.length s.run.consumer s.view
  pending : ∀ i, ∀ cell ∈ s.view.pending i, s.run.queue.storage i = cell

variable {N : Capacity} {debug : Bool} {guard : Viewing T → Event T → Prop} {s s' : Viewing T}
  {t count index len : Nat}

/-! ### The chunks of a batch -/

theorem ChunkOk.first (pos : Word) (hpos : pos = cursor t) (count : Nat) :
    ChunkOk N t count (calculateIndex N pos) (min count (N.size - calculateIndex N pos)) := by
  have hlt := Nat.mod_lt t N.size_pos
  subst hpos
  rw [calculateIndex_cursor]
  constructor
  · exact Nat.min_le_left _ _
  · omega
  · intro _
    rfl
  · intro hshort
    have hlen : min count (N.size - t % N.size) = N.size - t % N.size := by omega
    rw [hlen, ← Nat.mod_add_mod, Nat.add_sub_cancel' (Nat.le_of_lt hlt), Nat.mod_self]

theorem ChunkOk.next (h : ChunkOk N t (count + 1) index (len + 1)) :
    ChunkOk N (t + 1) count (index + 1) len := by
  obtain ⟨hle, hfits, hindex, hturn⟩ := h
  constructor
  · omega
  · omega
  · intro hmore
    rw [hindex (Nat.succ_ne_zero _)] at hfits ⊢
    have hlt : t % N.size + 1 < N.size := by omega
    rw [← Nat.mod_add_mod t N.size 1, Nat.mod_eq_of_lt hlt]
  · intro hshort
    rw [Nat.add_assoc, Nat.add_comm 1]
    exact hturn (by omega)

/-- A batch that is not copied yet goes on at slot 0. -/
theorem ChunkOk.second (h : ChunkOk N t count index 0) (hmore : count ≠ 0)
    (hfits : count ≤ N.size) : ChunkOk N t count 0 count := by
  constructor
  · exact Nat.le_refl _
  · omega
  · intro _
    exact (h.turn (Nat.pos_of_ne_zero hmore)).symm
  · intro hshort
    exact absurd hshort (Nat.lt_irrefl _)

/-! ### The steps -/

/-- A step of the producer changes no slot but the one it constructs an element in. -/
theorem storage_producerStep (N : Capacity) (debug : Bool) (run : Interleaving T) (i : Nat) :
    (run.producerStep N debug).queue.storage i = run.queue.storage i ∨
      ∃ range pos x rest, run.producer = .constructing range pos (x :: rest) ∧
        i = calculateIndex N pos ∧ (run.producerStep N debug).queue.storage i = some x := by
  unfold Interleaving.producerStep
  cases hphase : run.producer with
  | constructing range pos rest =>
    cases rest with
    | nil => exact .inl rfl
    | cons x rest =>
      dsimp only
      by_cases hi : i = calculateIndex N pos
      · exact .inr ⟨range, pos, x, rest, rfl, hi, by rw [hi, constructAt, Function.update_self]⟩
      · exact .inl (by rw [constructAt, Function.update_of_ne hi])
  | checking | rechecking | assertingRead =>
    dsimp only
    split <;> exact .inl rfl
  | _ => exact .inl rfl

theorem ViewOk.of_idle {view : View T} (h : ViewOk N t .idle view) : view = .none := by
  cases view with
  | none => rfl
  | _ => exact h.elim

theorem Sound.tryEmplace (h : s.Sound N) {x : T} {u : Unit}
    (hstep : s.step N debug (.tryEmplace x) = some (s', u)) : s'.Sound N := by
  obtain ⟨⟨run, _⟩, hrun, heq⟩ := Option.map_eq_some_iff.mp hstep
  obtain ⟨rfl, -⟩ := Prod.mk.inj heq
  obtain ⟨_, _, _, _, _, hinv⟩ := h.run
  have hsound := hinv.step hrun
  cases hphase : s.run.producer <;>
    simp only [Interleaving.step, hphase, reduceCtorEq] at hrun
  obtain ⟨rfl, -⟩ := Prod.mk.inj (Option.some.inj hrun)
  exact ⟨hsound, h.view, h.pending⟩

theorem Sound.tryDequeueRange (h : s.Sound N) {size : Nat} {u : Unit}
    (hstep : s.step N debug (.tryDequeueRange size) = some (s', u)) : s'.Sound N := by
  obtain ⟨⟨run, _⟩, hrun, heq⟩ := Option.map_eq_some_iff.mp hstep
  obtain ⟨rfl, -⟩ := Prod.mk.inj heq
  obtain ⟨_, _, _, _, _, hinv⟩ := h.run
  have hsound := hinv.step hrun
  have hview := h.view
  cases hphase : s.run.consumer <;>
    simp only [Interleaving.step, hphase, reduceCtorEq] at hrun
  obtain ⟨rfl, -⟩ := Prod.mk.inj (Option.some.inj hrun)
  rw [hphase] at hview
  refine ⟨hsound, ?_, h.pending⟩
  rw [hview.of_idle]
  exact ⟨size, rfl⟩

theorem Sound.producer (h : s.Sound N) (hguard : Undisturbed N s .producer) {u : Unit}
    (hstep : s.step N debug .producer = some (s', u)) : s'.Sound N := by
  obtain ⟨rfl, -⟩ := Prod.mk.inj (Option.some.inj hstep)
  obtain ⟨_, _, _, _, _, hinv⟩ := h.run
  obtain ⟨hconsumer, htaken, -⟩ := Interleaving.producerStep_frame N debug s.run
  refine ⟨hinv.producerStep, ?_, ?_⟩
  · dsimp only
    rw [hconsumer, htaken]
    exact h.view
  · intro i cell hpending
    rcases storage_producerStep N debug s.run i with
      hsame | ⟨range, pos, x, rest, hphase, rfl, hnew⟩
    · exact hsame.trans (h.pending i cell hpending)
    · unfold Undisturbed at hguard
      rw [hphase] at hguard
      exact hnew.trans (hguard cell hpending).symm

/-- Outside of the copy, the consumer takes the steps of any other call. -/
theorem consumerStep_outside (hphase : ∀ pos count, s.run.consumer ≠ .reading pos count) :
    s.consumerStep N debug = {s with run := s.run.consumerStep N copyable debug} := by
  unfold Viewing.consumerStep
  dsimp only
  split
  · rename_i pos count heq
    exact absurd heq (hphase pos count)
  · rfl

/-- Outside of the copy nothing of the batch is under way, and no slot is touched. -/
theorem viewOk_outside (debug : Bool) {run : Interleaving T} {view : View T}
    (hphase : ∀ pos count, run.consumer ≠ .reading pos count)
    (h : ViewOk N run.taken.length run.consumer view) :
    view = .none ∧ (run.consumerStep N copyable debug).queue.storage = run.queue.storage ∧
      ViewOk N (run.consumerStep N copyable debug).taken.length
        (run.consumerStep N copyable debug).consumer (.none : View T) := by
  obtain ⟨q, producer, consumer, pushed, taken⟩ := run
  cases view with
  | none =>
    refine ⟨rfl, ?_⟩
    cases consumer with
    | reading pos count => exact absurd rfl (hphase pos count)
    | checking call =>
      dsimp only [Interleaving.consumerStep]
      split <;> exact ⟨rfl, h⟩
    | deciding call =>
      obtain ⟨size, rfl⟩ := h
      dsimp only [Interleaving.consumerStep, Interleaving.afterReadable]
      split <;> exact ⟨rfl, trivial⟩
    | idle | loading _ | caching _ _ | publishing _ | storing _ => exact ⟨rfl, h⟩
    | _ => exact h.elim
  | _ =>
    cases consumer with
    | reading pos count => exact absurd rfl (hphase pos count)
    | _ => exact h.elim

theorem Sound.consumer_outside (h : s.Sound N)
    (hphase : ∀ pos count, s.run.consumer ≠ .reading pos count) :
    Sound N (s.consumerStep N debug) ∧
      (s.consumerStep N debug).run.queue.storage = s.run.queue.storage := by
  obtain ⟨_, _, _, _, _, hinv⟩ := h.run
  obtain ⟨hview, hsame, hok⟩ := viewOk_outside debug hphase h.view
  rw [consumerStep_outside hphase, hview]
  exact ⟨⟨hinv.consumerStep, hok, fun i cell hpending => by cases hpending⟩, hsame⟩

theorem pending_read {cells : List (Option T)} {i : Nat} {new cell : Option T}
    (h : (cells ++ [new])[i]? = some cell) :
    cells[i]? = some cell ∨ i = cells.length ∧ new = cell := by
  rcases Nat.lt_trichotomy i cells.length with hlt | rfl | hgt
  · rw [List.getElem?_append_left hlt] at h
    exact .inl h
  · rw [List.getElem?_concat_length] at h
    exact .inr ⟨rfl, Option.some.inj h⟩
  · rw [List.getElem?_eq_none (by simpa using hgt)] at h
    cases h

theorem pending_restoring {seen : List (Option T)} {i next : Nat} {cell : Option T}
    (h : (View.restoring index len seen next).pending i = some cell) :
    next ≤ i ∧ seen[i]? = some cell := by
  exact Option.ite_none_right_eq_some.mp h

section Reading

variable {run : Interleaving T} (h : run.Sound N) {pos : Word}
include h

/-- A batch is never longer than the ring. -/
theorem count_le (hphase : run.consumer = .reading pos count) : count ≤ N.size := by
  obtain ⟨rp, rc, wc, unread, staged, hinv⟩ := h
  have hok := hinv.consumer
  rw [hphase] at hok
  obtain ⟨-, -, hseen⟩ := hok
  have := hinv.wc_le
  have := hinv.room
  have := hinv.rc_le
  have := hinv.rp_le
  omega

/-- Copying takes the next element and leaves its slot as it is. -/
theorem copy_next (hphase : run.consumer = .reading pos (count + 1)) :
    ∃ x, run.queue.storage (run.taken.length % N.size) = some x ∧
      Interleaving.Sound N
        {run with consumer := .reading (pos + 1) count, taken := run.taken ++ [x]} := by
  obtain ⟨rp, rc, wc, unread, staged, hinv⟩ := h
  have hok := hinv.consumer
  rw [hphase] at hok
  obtain ⟨hlocal, hpos, hseen⟩ := hok
  have hwc := hinv.wc_le
  have hrp := hinv.rp_le
  obtain ⟨x, rest, rfl, hcell, hrest⟩ := hinv.next_unread (by omega)
  rw [calculateIndex_cursor] at hcell
  have hlength : (run.taken ++ [x]).length = run.taken.length + 1 := List.length_append
  refine ⟨x, hcell, rp, rc, wc, rest, staged, {hinv with
    log := by rw [hinv.log, List.append_assoc, List.singleton_append]
    rp_le := by rw [hlength]; omega
    holds := by rw [hlength]; exact hrest
    consumer := ⟨hlocal, ?_, ?_⟩}⟩
  · rw [hlength, hpos, cursor_succ]
  · rw [hlength]
    omega

theorem finish_reading (hphase : run.consumer = .reading pos count) :
    Interleaving.Sound N {run with consumer := .publishing pos} := by
  obtain ⟨rp, rc, wc, unread, staged, hinv⟩ := h
  have hok := hinv.consumer
  rw [hphase] at hok
  obtain ⟨hlocal, hpos, hseen⟩ := hok
  exact hinv.setConsumer ⟨hlocal, hpos, Nat.le_of_add_right_le hseen⟩

end Reading

/-- A step of the view or of a `memcpy`, in the middle of a batch. -/
theorem Sound.consumer_reading (h : s.Sound N) {pos : Word} {count : Nat}
    (hphase : s.run.consumer = .reading pos count) :
    Sound N (s.consumerStep N debug) ∧
      (s.consumerStep N debug).run.queue.storage = s.run.queue.storage := by
  obtain ⟨⟨q, producer, _, pushed, taken⟩, view⟩ := s
  obtain rfl := hphase
  have hview := h.view
  have hpending := h.pending
  dsimp only at hview hpending
  cases view with
  | none =>
    obtain ⟨_, _, _, _, _, hinv⟩ := h.run
    exact ⟨⟨h.run, ChunkOk.first pos hinv.consumer.2.1 count, fun i cell hread => by cases hread⟩,
      rfl⟩
  | loading index len seen =>
    dsimp only [Viewing.consumerStep]
    split
    · refine ⟨⟨h.run, hview, fun i cell hread => ?_⟩, rfl⟩
      rcases pending_read hread with hseen | ⟨rfl, heq⟩
      · exact hpending i cell hseen
      · exact heq
    · exact ⟨⟨h.run, hview, fun i cell hread => hpending i cell (pending_restoring hread).2⟩, rfl⟩
  | restoring index len seen next =>
    dsimp only [Viewing.consumerStep]
    split
    · rename_i cell hcell
      have hsame : Function.update q.storage next cell = q.storage := by
        have hread : (View.restoring index len seen next).pending next = some cell := by
          rw [View.pending, if_pos (Nat.le_refl next), hcell]
        rw [← hpending next cell hread, Function.update_eq_self]
      rw [hsame]
      refine ⟨⟨h.run, hview, fun i cell hread => hpending i cell ?_⟩, rfl⟩
      obtain ⟨hle, hcell⟩ := pending_restoring hread
      rw [View.pending, if_pos (Nat.le_of_succ_le hle)]
      exact hcell
    · exact ⟨⟨h.run, hview, fun i cell hread => by cases hread⟩, rfl⟩
  | copying index len =>
    cases len with
    | zero =>
      dsimp only [Viewing.consumerStep]
      split
      · rename_i hmore
        exact ⟨⟨h.run, ChunkOk.second hview hmore (count_le h.run rfl),
          fun i cell hread => by cases hread⟩, rfl⟩
      · exact ⟨⟨finish_reading h.run rfl, trivial, fun i cell hread => by cases hread⟩, rfl⟩
    | succ len =>
      have hle := hview.len_le
      obtain ⟨count, rfl⟩ := Nat.exists_eq_succ_of_ne_zero (by omega : count ≠ 0)
      obtain ⟨x, hcell, hrun⟩ := copy_next h.run rfl
      rw [← hview.index_eq (Nat.succ_ne_zero _)] at hcell
      dsimp only at hcell
      dsimp only [Viewing.consumerStep]
      rw [hcell]
      refine ⟨⟨hrun, ?_, fun i cell hread => by cases hread⟩, rfl⟩
      dsimp only
      rw [List.length_append, List.length_singleton]
      exact hview.next

/-- A restored slot gets what it holds, so no step of the consumer changes a slot. -/
theorem Sound.consumer (h : s.Sound N) :
    Sound N (s.consumerStep N debug) ∧
      (s.consumerStep N debug).run.queue.storage = s.run.queue.storage := by
  by_cases hreading : ∃ pos count, s.run.consumer = .reading pos count
  · obtain ⟨pos, count, hphase⟩ := hreading
    exact h.consumer_reading hphase
  · exact h.consumer_outside fun pos count hphase => hreading ⟨pos, count, hphase⟩

theorem Sound.step (h : s.Sound N) {event : Event T} (hguard : Undisturbed N s event) {u : Unit}
    (hstep : s.step N debug event = some (s', u)) : s'.Sound N := by
  cases event with
  | tryEmplace x => exact h.tryEmplace hstep
  | producer => exact h.producer hguard hstep
  | tryDequeueRange size => exact h.tryDequeueRange hstep
  | consumer =>
    obtain ⟨rfl, -⟩ := Prod.mk.inj (Option.some.inj hstep)
    exact h.consumer.1

theorem sound_init (N : Capacity) : Sound N ({} : Viewing T) :=
  ⟨Interleaving.sound_init N, trivial, fun _ _ hpending => by cases hpending⟩

/-- As long as the producer stays out of the slots that the consumer is about to write back,
the batches deliver what was pushed, in order. -/
theorem delivers_pushed (hreached : Reached N debug (Undisturbed N) s) : Delivers N debug s := by
  have hsound : s.Sound N :=
    hreached.invariant (fun h hguard hstep => h.step hguard hstep) (sound_init N)
  obtain ⟨_, _, _, unread, _, hinv⟩ := hsound.run
  constructor
  · intro k x htaken
    rw [hinv.log]
    exact List.getElem?_append_left (List.getElem?_eq_some_iff.mp htaken).1 ▸ htaken
  · intro hphase
    have hok := hinv.consumer
    rw [hphase] at hok
    exact hok
  · exact hsound.consumer.2

/-- Two elements are pushed and popped, a third one is pushed, and `cut` events into the pop
of that one the producer pushes a fourth, which is popped last. -/
def pushInside (cut : Nat) : List (Event Nat) :=
  let push (x : Nat) : List (Event Nat) := .tryEmplace x :: List.replicate 8 .producer
  let pop : List (Event Nat) := .tryDequeueRange 2 :: List.replicate 16 .consumer
  push 1 ++ push 2 ++ pop ++ push 3 ++ pop.take cut ++ push 4 ++ pop.drop cut ++ pop

/-- The fourth element is constructed just before the view reads its slot. -/
theorem delivers_pushed_inTime : ∃ s : Viewing Nat, s.run.pushed = [1, 2, 3, 4] ∧
    s.run.taken = [1, 2, 3, 4] ∧ Delivers ⟨1, by decide⟩ false s := by
  let N : Capacity := ⟨1, by decide⟩
  have hrun : (Transition.run (Transition.guarded (step N false) (Undisturbed (T := Nat) N)) {}
      (pushInside 7)).map (fun s => (s.run.pushed, s.run.taken)) =
        some ([1, 2, 3, 4], [1, 2, 3, 4]) := by
    decide +kernel
  obtain ⟨s, hs, heq⟩ := Option.map_eq_some_iff.mp hrun
  obtain ⟨hpushed, htaken⟩ := Prod.mk.inj heq
  exact ⟨s, hpushed, htaken, delivers_pushed (.of_guarded _ hs)⟩

/-- One step later, the popped 2 is written back over it. -/
theorem loses_concurrent_push : ∃ s : Viewing Nat,
    Reached ⟨1, by decide⟩ false (fun _ _ => True) s ∧
      s.run.pushed = [1, 2, 3, 4] ∧ s.run.taken = [1, 2, 3, 2] := by
  have hrun : (Transition.run (step ⟨1, by decide⟩ false) {} (pushInside 8)).map
      (fun s => (s.run.pushed, s.run.taken)) = some ([1, 2, 3, 4], [1, 2, 3, 2]) := by
    decide +kernel
  obtain ⟨s, hs, heq⟩ := Option.map_eq_some_iff.mp hrun
  obtain ⟨hpushed, htaken⟩ := Prod.mk.inj heq
  exact ⟨s, .of_run _ hs, hpushed, htaken⟩

end Viewing

end SpscQueue

end ExchangeEngine
