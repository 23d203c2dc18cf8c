import ExchangeEngine.Library.Lifetime
import ExchangeEngine.ConcurrentQueue.SpscFifo

/-!
The lifetimes of the elements in the ring, for an element type with a destructor of its
own. Each call comes with the accesses it makes to the slots, in order; batches of such
elements are pushed and popped one by one. Read from the cursors alone, the live slots
are those of the window between them, and they are the slots whose storage is not raw.
-/

namespace ExchangeEngine

open Cyclic Lifetime Transition

namespace SpscQueue

variable {T : Type} (N : Capacity)

/-! ### The accesses of a call -/

/-- `construct_at` in `count` slots from a position on. -/
def constructAccesses : Nat → Word → List Access
  | 0, _ => []
  | count + 1, pos => .construct (calculateIndex N pos) :: constructAccesses count (pos + 1)

/-- Move out of a slot, or hand it to the callback, then `destroy_at`. -/
def drainAccesses : Nat → Word → List Access
  | 0, _ => []
  | count + 1, pos =>
    .visit (calculateIndex N pos) :: .destroy (calculateIndex N pos) ::
      drainAccesses count (pos + 1)

/-- The loop of `destroy_range`. -/
def destroyAccesses : Nat → Word → List Access
  | 0, _ => []
  | count + 1, pos => .destroy (calculateIndex N pos) :: destroyAccesses count (pos + 1)

def accesses (q : SpscQueue T) : Call T → List Access
  | .tryEmplace _ =>
    if (q.hasRoom N 1).2 then constructAccesses N 1 q.writePositionLocal else []
  | .tryEmplaceRange r =>
    if (q.hasRoom N r.length).2 then constructAccesses N r.length q.writePositionLocal else []
  | .tryDequeue | .tryDequeueInto _ =>
    if q.readable.2 = 0 then [] else drainAccesses N 1 q.readPositionLocal
  | .tryDequeueRange out =>
    if q.readable.2 = 0 then []
    else drainAccesses N (min q.readable.2.toNat out.length) q.readPositionLocal
  | .clear => destroyAccesses N (q.writePosition - q.readPositionLocal).toNat q.readPositionLocal
  | .consumeAll => drainAccesses N q.readable.2.toNat q.readPositionLocal
  | .consumeUpTo limit =>
    if q.readable.2 = 0 then []
    else drainAccesses N (min limit q.readable.2.toNat) q.readPositionLocal

/-- A call, reporting its accesses. -/
def trace (type : ElementType) (q : SpscQueue T) (call : Call T) :
    Option (SpscQueue T × List Access) :=
  (q.exec N type call).map fun (q', _) => (q', q.accesses N call)

/-- `~spsc_queue`, as the storage it leaves behind. -/
def destruct (type : ElementType) (q : SpscQueue T) : Option (Nat → Option T) :=
  destroyRange N type q.storage q.readPosition q.writePosition

def destructAccesses (q : SpscQueue T) : List Access :=
  destroyAccesses N (q.writePosition - q.readPosition).toNat q.readPosition

/-- The slots that are not raw. -/
def live (storage : Nat → Option T) : Live := fun i => (storage i).isSome

variable {N} {type : ElementType} {q q' : SpscQueue T} {r rc wc : Nat} {xs : List T}
  {storage storage' : Nat → Option T}

/-! ### The accesses are those of the operations -/

theorem live_constructAt (storage : Nat → Option T) (pos : Word) (x : T) :
    live (constructAt N storage pos x) =
      Access.effect (live storage) (.construct (calculateIndex N pos)) := by
  funext i
  by_cases hi : i = calculateIndex N pos
  · subst hi
    simp [live, constructAt, Access.effect]
  · simp [live, constructAt, Access.effect, hi]

theorem live_destroyAt (storage : Nat → Option T) (pos : Word) :
    live (destroyAt N storage pos) =
      Access.effect (live storage) (.destroy (calculateIndex N pos)) := by
  funext i
  by_cases hi : i = calculateIndex N pos
  · subst hi
    simp [live, destroyAt, Access.effect]
  · simp [live, destroyAt, Access.effect, hi]

theorem live_constructRange (storage : Nat → Option T) (pos : Word) (ys : List T) :
    live (constructRange N storage pos ys) =
      (constructAccesses N ys.length pos).foldl Access.effect (live storage) := by
  induction ys generalizing storage pos with
  | nil => rfl
  | cons y ys ih =>
    rw [constructRange, ih, live_constructAt]
    rfl

theorem live_drain {count : Nat} {pos : Word} {ys : List T}
    (h : drain N count pos storage = some (ys, storage')) :
    live storage' = (drainAccesses N count pos).foldl Access.effect (live storage) ∧
      live storage' = (destroyAccesses N count pos).foldl Access.effect (live storage) := by
  induction count generalizing pos storage ys with
  | zero =>
    obtain ⟨-, rfl⟩ := Prod.mk.inj (Option.some.inj h)
    exact ⟨rfl, rfl⟩
  | succ count ih =>
    simp only [drain, Option.bind_eq_bind, Option.bind_eq_some_iff] at h
    obtain ⟨x, -, ⟨zs, storage₁⟩, hrest, heq⟩ := h
    obtain ⟨-, rfl⟩ := Prod.mk.inj (Option.some.inj heq)
    obtain ⟨hdrain, hdestroy⟩ := ih hrest
    rw [live_destroyAt] at hdrain hdestroy
    exact ⟨hdrain, hdestroy⟩

theorem live_destroyRange (htype : type.triviallyDestructible = false) {start stop : Word}
    (h : destroyRange N type storage start stop = some storage') :
    live storage' =
      (destroyAccesses N (stop - start).toNat start).foldl Access.effect (live storage) := by
  rw [destroyRange, htype, if_neg Bool.false_ne_true] at h
  obtain ⟨⟨ys, storage₁⟩, hdrain, rfl⟩ := Option.map_eq_some_iff.mp h
  exact (live_drain hdrain).2

theorem hasRoom_storage (count : Nat) : (q.hasRoom N count).1.storage = q.storage := by
  unfold hasRoom
  split <;> rfl

theorem readable_storage : q.readable.1.storage = q.storage := by
  unfold readable
  dsimp only
  split <;> rfl

section Calls

variable {count : Nat} {ok : Bool} {ys : List T}

theorem live_tryEmplace {x : T} (h : q.tryEmplace N x = some (q', ok)) :
    live q'.storage = (q.accesses N (.tryEmplace x)).foldl Access.effect (live q.storage) := by
  rw [accesses]
  cases hroom : (q.hasRoom N 1).2 with
  | false =>
    simp only [tryEmplace, hroom, Bool.not_false, if_true, Option.some.injEq, Prod.mk.injEq] at h
    rw [← h.1, hasRoom_storage]
    rfl
  | true =>
    simp only [tryEmplace, hroom, Bool.not_true, Bool.false_eq_true, if_false] at h
    split at h
    · cases h
    · simp only [Option.some.injEq, Prod.mk.injEq] at h
      rw [← h.1, if_pos rfl]
      simp only [publishWrite, live_constructAt, hasRoom_storage]
      rfl

theorem live_tryEmplaceRange (hcopy : type.triviallyCopyable = false)
    (h : q.tryEmplaceRange N type ys = some (q', ok)) : live q'.storage =
      (q.accesses N (.tryEmplaceRange ys)).foldl Access.effect (live q.storage) := by
  rw [accesses]
  cases hroom : (q.hasRoom N ys.length).2 with
  | false =>
    simp only [tryEmplaceRange, hroom, Bool.not_false, if_true, Option.some.injEq,
      Prod.mk.injEq] at h
    rw [← h.1, hasRoom_storage]
    rfl
  | true =>
    simp only [tryEmplaceRange, hroom, hcopy, Bool.not_true, Bool.false_eq_true, if_false,
      Option.some.injEq, Prod.mk.injEq] at h
    rw [← h.1, if_pos rfl]
    simp only [publishWrite, live_constructRange, hasRoom_storage]

theorem live_tryDequeue {x : Option T} (h : q.tryDequeue N = some (q', x)) :
    live q'.storage = (q.accesses N .tryDequeue).foldl Access.effect (live q.storage) := by
  rw [accesses]
  by_cases hnone : q.readable.2 = 0
  · simp only [tryDequeue, if_pos hnone, Option.some.injEq, Prod.mk.injEq] at h
    rw [← h.1, readable_storage, if_pos hnone]
    rfl
  · simp only [tryDequeue, if_neg hnone] at h
    split at h
    · cases h
    · simp only [Option.bind_eq_bind, Option.bind_eq_some_iff, Option.some.injEq,
        Prod.mk.injEq] at h
      obtain ⟨y, -, rfl, -⟩ := h
      rw [if_neg hnone]
      simp only [publishRead, live_destroyAt, readable_storage]
      rfl

theorem live_tryDequeueRange {out out' : List T} (hcopy : type.triviallyCopyable = false)
    (h : q.tryDequeueRange N type out = some (q', count, out')) : live q'.storage =
      (q.accesses N (.tryDequeueRange out)).foldl Access.effect (live q.storage) := by
  rw [accesses]
  by_cases hnone : q.readable.2 = 0
  · simp only [tryDequeueRange, if_pos hnone, Option.some.injEq, Prod.mk.injEq] at h
    rw [← h.1, readable_storage, if_pos hnone]
    rfl
  · simp only [tryDequeueRange, if_neg hnone, hcopy, Bool.false_eq_true, if_false,
      Option.bind_eq_bind, Option.bind_eq_some_iff, Option.some.injEq, Prod.mk.injEq] at h
    obtain ⟨⟨zs, storage⟩, hdrain, rfl, -⟩ := h
    rw [readable_storage] at hdrain
    rw [if_neg hnone]
    exact (live_drain hdrain).1

theorem live_clear (htype : type.triviallyDestructible = false)
    (h : q.clear N type = some q') :
    live q'.storage = (q.accesses N .clear).foldl Access.effect (live q.storage) := by
  simp only [clear, Option.bind_eq_bind, Option.bind_eq_some_iff, Option.some.injEq] at h
  obtain ⟨storage, hdestroy, rfl⟩ := h
  exact live_destroyRange htype hdestroy

theorem live_consumeAll (h : q.consumeAll N = some (q', count, ys)) :
    live q'.storage = (q.accesses N .consumeAll).foldl Access.effect (live q.storage) := by
  simp only [consumeAll, Option.bind_eq_bind, Option.bind_eq_some_iff, Option.some.injEq,
    Prod.mk.injEq] at h
  obtain ⟨⟨zs, storage⟩, hdrain, rfl, -⟩ := h
  rw [readable_storage] at hdrain
  exact (live_drain hdrain).1

theorem live_consumeUpTo {limit : Nat} (h : q.consumeUpTo N limit = some (q', count, ys)) :
    live q'.storage = (q.accesses N (.consumeUpTo limit)).foldl Access.effect (live q.storage) := by
  rw [accesses]
  by_cases hnone : q.readable.2 = 0
  · simp only [consumeUpTo, if_pos hnone, Option.some.injEq, Prod.mk.injEq] at h
    rw [← h.1, readable_storage, if_pos hnone]
    rfl
  · simp only [consumeUpTo, if_neg hnone, Option.bind_eq_bind, Option.bind_eq_some_iff,
      Option.some.injEq, Prod.mk.injEq] at h
    obtain ⟨⟨zs, storage⟩, hdrain, rfl, -⟩ := h
    rw [readable_storage] at hdrain
    rw [if_neg hnone]
    exact (live_drain hdrain).1

end Calls

theorem triviallyCopyable_of_destructor (htype : type.triviallyDestructible = false) :
    type.triviallyCopyable = false := by
  cases hcopy : type.triviallyCopyable with
  | false => rfl
  | true => exact absurd (type.destructible_of_copyable hcopy) (by simp [htype])

/-! ### A rejected push -/

theorem accesses_tryEmplace_rejected {x : T} (h : q.tryEmplace N x = some (q', false)) :
    q.accesses N (.tryEmplace x) = [] := by
  cases hroom : (q.hasRoom N 1).2 with
  | false => simp only [accesses, hroom, Bool.false_eq_true, if_false]
  | true =>
    simp only [tryEmplace, hroom, Bool.not_true, Bool.false_eq_true, if_false] at h
    split at h <;> simp at h

theorem accesses_tryEmplaceRange_rejected (hcopy : type.triviallyCopyable = false) {ys : List T}
    (h : q.tryEmplaceRange N type ys = some (q', false)) :
    q.accesses N (.tryEmplaceRange ys) = [] := by
  cases hroom : (q.hasRoom N ys.length).2 with
  | false => simp only [accesses, hroom, Bool.false_eq_true, if_false]
  | true =>
    simp [tryEmplaceRange, hroom, hcopy] at h

/-! ### A call and its accesses -/

/-- A call changes the live slots by its accesses. -/
theorem live_exec (htype : type.triviallyDestructible = false) {call : Call T} {count : Nat}
    (hexec : q.exec N type call = some (q', count)) :
    live q'.storage = (q.accesses N call).foldl Access.effect (live q.storage) := by
  have hcopy := triviallyCopyable_of_destructor htype
  cases call with
  | tryEmplace x =>
    obtain ⟨⟨_, _⟩, hcall, heq⟩ := Option.map_eq_some_iff.mp hexec
    obtain ⟨rfl, -⟩ := Prod.mk.inj heq
    exact live_tryEmplace hcall
  | tryEmplaceRange ys =>
    obtain ⟨⟨_, _⟩, hcall, heq⟩ := Option.map_eq_some_iff.mp hexec
    obtain ⟨rfl, -⟩ := Prod.mk.inj heq
    exact live_tryEmplaceRange hcopy hcall
  | tryDequeue =>
    obtain ⟨⟨_, _⟩, hcall, heq⟩ := Option.map_eq_some_iff.mp hexec
    obtain ⟨rfl, -⟩ := Prod.mk.inj heq
    exact live_tryDequeue hcall
  | tryDequeueInto out =>
    obtain ⟨⟨_, _, _⟩, hinto, heq⟩ := Option.map_eq_some_iff.mp hexec
    obtain ⟨⟨_, _⟩, hcall, hresult⟩ := Option.map_eq_some_iff.mp hinto
    obtain ⟨rfl, -⟩ := Prod.mk.inj heq
    obtain ⟨rfl, -⟩ := Prod.mk.inj hresult
    exact live_tryDequeue hcall
  | tryDequeueRange out =>
    obtain ⟨⟨_, _, _⟩, hcall, heq⟩ := Option.map_eq_some_iff.mp hexec
    obtain ⟨rfl, -⟩ := Prod.mk.inj heq
    exact live_tryDequeueRange hcopy hcall
  | clear =>
    obtain ⟨_, hcall, heq⟩ := Option.map_eq_some_iff.mp hexec
    obtain ⟨rfl, -⟩ := Prod.mk.inj heq
    exact live_clear htype hcall
  | consumeAll =>
    obtain ⟨⟨_, _, _⟩, hcall, heq⟩ := Option.map_eq_some_iff.mp hexec
    obtain ⟨rfl, -⟩ := Prod.mk.inj heq
    exact live_consumeAll hcall
  | consumeUpTo limit =>
    obtain ⟨⟨_, _, _⟩, hcall, heq⟩ := Option.map_eq_some_iff.mp hexec
    obtain ⟨rfl, -⟩ := Prod.mk.inj heq
    exact live_consumeUpTo hcall

/-! ### Every access is in order -/

section Replay

variable {p len count : Nat}

theorem replay_constructAccesses (hfits : len + count ≤ N.size) :
    replay (occupied N.size p len) (constructAccesses N count (cursor (p + len))) =
      some (occupied N.size p (len + count)) := by
  induction count generalizing len with
  | zero => rfl
  | succ count ih =>
    have hraw : occupied N.size p len ((p + len) % N.size) = false :=
      not_occupied_behind (by omega)
    have hallowed : (Access.construct ((p + len) % N.size)).allowed (occupied N.size p len) =
        true := by simp [Access.allowed, hraw]
    rw [constructAccesses, calculateIndex_cursor, cursor_succ, replay_cons hallowed, Access.effect,
      occupied_behind, Nat.add_assoc p, ih (by omega)]
    congr 2
    omega

theorem replay_destroyAccesses (hle : count ≤ len) (hfits : len ≤ N.size) :
    replay (occupied N.size p len) (destroyAccesses N count (cursor p)) =
      some (occupied N.size (p + count) (len - count)) := by
  induction count generalizing p len with
  | zero => rfl
  | succ count ih =>
    obtain ⟨len, rfl⟩ := Nat.exists_eq_succ_of_ne_zero (by omega : len ≠ 0)
    have hdestroy : (Access.destroy (p % N.size)).allowed (occupied N.size p (len + 1)) = true :=
      occupied_front
    rw [destroyAccesses, calculateIndex_cursor, cursor_succ, replay_cons hdestroy, Access.effect,
      occupied_front_update (by omega), ih (by omega) (by omega)]
    congr 2 <;> omega

/-- Visiting an element right before it is destroyed makes no difference. -/
theorem replay_drainAccesses (live : Live) (count : Nat) (pos : Word) :
    replay live (drainAccesses N count pos) = replay live (destroyAccesses N count pos) := by
  induction count generalizing live pos with
  | zero => rfl
  | succ count ih =>
    rw [drainAccesses, destroyAccesses, replay_visit_destroy, replay, replay, ih]

end Replay

/-- The call has a result that shows a list again, and its accesses lead from the window of
the old list to the window of the new one. -/
def Keeps (N : Capacity) (type : ElementType) (q : SpscQueue T) (r : Nat) (xs : List T)
    (call : Call T) : Prop :=
  ∃ q' count r' rc' wc' xs', q.exec N type call = some (q', count) ∧ Shows N q' r' rc' wc' xs' ∧
    replay (occupied N.size r xs.length) (q.accesses N call) =
      some (occupied N.size r' xs'.length)

namespace Shows

variable (h : Shows N q r rc wc xs)
include h

theorem replay_push (count : Nat) : replay (occupied N.size r xs.length)
      (if (q.hasRoom N count).2 then constructAccesses N count q.writePositionLocal else []) =
    some (occupied N.size r
      (if xs.length + count ≤ N.size then xs.length + count else xs.length)) := by
  rw [(h.hasRoom count).1, h.writePositionLocal]
  by_cases hfits : xs.length + count ≤ N.size
  · rw [decide_eq_true hfits, if_pos rfl, if_pos hfits]
    exact replay_constructAccesses hfits
  · rw [decide_eq_false hfits, if_neg hfits]
    rfl

/-- A call that drains as many of the readable elements as `limit` allows. -/
theorem replay_pop (limit : Nat → Nat) (hlimit : ∀ n, limit n ≤ n) :
    replay (occupied N.size r xs.length)
      (if q.readable.2 = 0 then []
        else drainAccesses N (limit q.readable.2.toNat) q.readPositionLocal) =
    some (occupied N.size (r + limit (window r wc xs)) (xs.length - limit (window r wc xs))) := by
  obtain ⟨havailable, hseen, -⟩ := h.readable
  have hle := hlimit (window r wc xs)
  by_cases hnone : q.readable.2 = 0
  · have hwindow : window r wc xs = 0 := by
      rw [← havailable, hnone]
      rfl
    rw [hwindow] at hle ⊢
    rw [if_pos hnone, Nat.le_zero.mp hle]
    rfl
  · rw [if_neg hnone, havailable, h.readPositionLocal]
    rw [replay_drainAccesses]
    exact replay_destroyAccesses (by omega) h.length_le

theorem keeps_tryEmplace (type : ElementType) (x : T) : Keeps N type q r xs (.tryEmplace x) := by
  obtain ⟨q', rc', hcall, hq⟩ := h.tryEmplace x
  refine ⟨_, _, _, _, _, _, by rw [SpscQueue.exec, hcall]; rfl, hq, ?_⟩
  rw [accesses, h.replay_push 1]
  by_cases hfits : xs.length < N.size
  · rw [if_pos (by omega), if_pos hfits, List.length_append, List.length_singleton]
  · rw [if_neg (by omega), if_neg hfits]

theorem keeps_tryEmplaceRange (hcopy : type.triviallyCopyable = false) (ys : List T) :
    Keeps N type q r xs (.tryEmplaceRange ys) := by
  have hreplay := h.replay_push ys.length
  rcases Nat.lt_or_ge N.size (xs.length + ys.length) with hfull | hfits
  · obtain ⟨q', rc', hcall, hq⟩ := h.tryEmplaceRange_full type hfull
    rw [if_neg (Nat.not_le.mpr hfull)] at hreplay
    exact ⟨_, _, _, _, _, _, by rw [SpscQueue.exec, hcall]; rfl, hq, hreplay⟩
  · obtain ⟨q', rc', hcall, hq⟩ := h.tryEmplaceRange_elementwise hfits hcopy
    rw [if_pos hfits, ← List.length_append] at hreplay
    exact ⟨_, _, _, _, _, _, by rw [SpscQueue.exec, hcall]; rfl, hq, hreplay⟩

theorem replay_tryDequeue : replay (occupied N.size r xs.length) (q.accesses N .tryDequeue) =
    some (occupied N.size (r + min 1 xs.length) xs.tail.length) := by
  rw [accesses]
  by_cases hnone : q.readable.2 = 0
  · obtain rfl := h.available.mp hnone
    rw [if_pos hnone]
    rfl
  · have hsome : xs ≠ [] := h.available.not.mp hnone
    have hpos := List.length_pos_iff.mpr hsome
    rw [if_neg hnone, h.readPositionLocal, Nat.min_eq_left hpos, List.length_tail]
    rw [replay_drainAccesses]
    exact replay_destroyAccesses hpos h.length_le

theorem keeps_tryDequeue (type : ElementType) : Keeps N type q r xs .tryDequeue := by
  obtain ⟨q', wc', hcall, hq⟩ := h.tryDequeue
  exact ⟨_, _, _, _, _, _, by rw [SpscQueue.exec, hcall]; rfl, hq, h.replay_tryDequeue⟩

theorem keeps_tryDequeueInto (type : ElementType) (out : T) :
    Keeps N type q r xs (.tryDequeueInto out) := by
  obtain ⟨q', wc', hcall, hq⟩ := h.tryDequeue
  exact ⟨_, _, _, _, _, _, by rw [SpscQueue.exec, SpscQueue.tryDequeueInto, hcall]; rfl, hq,
    h.replay_tryDequeue⟩

theorem keeps_tryDequeueRange (type : ElementType) (out : List T) :
    Keeps N type q r xs (.tryDequeueRange out) := by
  obtain ⟨q', wc', hcall, hq⟩ := h.tryDequeueRange type out
  refine ⟨_, _, _, _, _, _, by rw [SpscQueue.exec, hcall]; rfl, hq, ?_⟩
  rw [accesses, h.replay_pop (fun n => min n out.length) fun n => Nat.min_le_left n _,
    List.length_drop]

theorem keeps_consumeUpTo (type : ElementType) (limit : Nat) :
    Keeps N type q r xs (.consumeUpTo limit) := by
  obtain ⟨q', wc', hcall, hq⟩ := h.consumeUpTo limit
  refine ⟨_, _, _, _, _, _, by rw [SpscQueue.exec, hcall]; rfl, hq, ?_⟩
  rw [accesses, h.replay_pop (fun n => min limit n) fun n => Nat.min_le_right limit n,
    List.length_drop]

theorem keeps_consumeAll (type : ElementType) : Keeps N type q r xs .consumeAll := by
  obtain ⟨havailable, hseen, -⟩ := h.readable
  obtain ⟨q', wc', hcall, hq⟩ := h.consumeAll
  refine ⟨_, _, _, _, _, _, by rw [SpscQueue.exec, hcall]; rfl, hq, ?_⟩
  rw [accesses, havailable, h.readPositionLocal, List.length_drop]
  rw [replay_drainAccesses]
  exact replay_destroyAccesses hseen h.length_le

/-- Destroying what lies between the shared cursors. -/
theorem replay_destroy : replay (occupied N.size r xs.length)
      (destroyAccesses N (q.writePosition - cursor r).toNat (cursor r)) =
    some (fun _ => false) := by
  have hsize := h.size
  rw [SpscQueue.size, h.readPosition] at hsize
  rw [hsize, replay_destroyAccesses (Nat.le_refl _) h.length_le, Nat.sub_self, occupied_zero]

theorem keeps_clear (type : ElementType) : Keeps N type q r xs .clear := by
  obtain ⟨q', wc', hcall, hq⟩ := h.clear type
  refine ⟨_, _, _, _, _, _, by rw [SpscQueue.exec, hcall]; rfl, hq, ?_⟩
  rw [accesses, h.readPositionLocal, h.replay_destroy, List.length_nil, occupied_zero]

theorem keeps (htype : type.triviallyDestructible = false) (call : Call T) :
    Keeps N type q r xs call := by
  cases call with
  | tryEmplace x => exact h.keeps_tryEmplace type x
  | tryEmplaceRange ys => exact h.keeps_tryEmplaceRange (triviallyCopyable_of_destructor htype) ys
  | tryDequeue => exact h.keeps_tryDequeue type
  | tryDequeueInto out => exact h.keeps_tryDequeueInto type out
  | tryDequeueRange out => exact h.keeps_tryDequeueRange type out
  | clear => exact h.keeps_clear type
  | consumeAll => exact h.keeps_consumeAll type
  | consumeUpTo limit => exact h.keeps_consumeUpTo type limit

end Shows

/-! ### Runs -/

/-- The accesses of a run replay from the window of its first list to the window of its
last one, whose slots are the live ones. -/
theorem replay_runs (htype : type.triviallyDestructible = false) {calls : List (Call T)}
    {outs : List (List Access)} (hruns : Runs (trace N type) (fun _ _ => True) q calls outs q')
    (h : Shows N q r rc wc xs) (hlive : live q.storage = occupied N.size r xs.length) :
    ∃ r' rc' wc' xs', Shows N q' r' rc' wc' xs' ∧
      live q'.storage = occupied N.size r' xs'.length ∧
      replay (occupied N.size r xs.length) outs.flatten = some (occupied N.size r' xs'.length) := by
  induction hruns generalizing r rc wc xs with
  | nil q => exact ⟨r, rc, wc, xs, h, hlive, rfl⟩
  | @cons q q₁ q₂ call out calls outs _ accepted _ ih =>
    obtain ⟨q₁, count, r₁, rc₁, wc₁, xs₁, hexec, h₁, hreplay⟩ := h.keeps htype call
    rw [trace, hexec] at accepted
    obtain ⟨rfl, rfl⟩ := Prod.mk.inj (Option.some.inj accepted)
    have hlive₁ := live_exec htype hexec
    rw [hlive, replay_effects hreplay] at hlive₁
    obtain ⟨r₂, rc₂, wc₂, xs₂, h₂, hlive₂, hrest⟩ := ih h₁ hlive₁
    refine ⟨r₂, rc₂, wc₂, xs₂, h₂, hlive₂, ?_⟩
    rw [List.flatten_cons, replay_append _ hreplay, hrest]

/-- What holds of the lifetimes between two calls, after a run with the given accesses. -/
structure Lifetimes (N : Capacity) (type : ElementType) (q : SpscQueue T) (past : List Access) :
    Prop where
  /-- No object was constructed over another one, and none was visited or destroyed in a
  raw slot. -/
  inOrder : replay (fun _ => false) past = some (live q.storage)
  window : ∀ i, live q.storage i = true ↔
    ∃ k < q.size.toNat, i = calculateIndex N (q.readPosition + cursor k)
  answers : ∀ call, (q.exec N type call).isSome = true
  rejected : ∀ x q', q.tryEmplace N x = some (q', false) → q.accesses N (.tryEmplace x) = []
  rangeRejected : ∀ r q', q.tryEmplaceRange N type r = some (q', false) →
    q.accesses N (.tryEmplaceRange r) = []
  /-- The destructor destroys what is left, and nothing else. -/
  destructed : ∃ storage, q.destruct N type = some storage ∧ (∀ i, storage i = none) ∧
    replay (live q.storage) (q.destructAccesses N) = some (live storage)
  balanced : (constructed (past ++ q.destructAccesses N)).Perm
    (destroyed (past ++ q.destructAccesses N))

theorem Shows.destruct (h : Shows N q r rc wc xs) (htype : type.triviallyDestructible = false)
    (hlive : live q.storage = occupied N.size r xs.length) :
    ∃ storage, q.destruct N type = some storage ∧ (∀ i, storage i = none) ∧
      replay (live q.storage) (q.destructAccesses N) = some (fun _ => false) := by
  have hsize := h.size
  have hreplay := h.replay_destroy
  rw [← hlive, ← h.readPosition] at hreplay
  obtain ⟨storage, hdrain, -⟩ := drain_cursor h.holds h.length_le (Nat.le_refl _)
  have hdestruct : q.destruct N type = some storage := by
    have hdistance : (q.writePosition - cursor r).toNat = xs.length := by
      rw [← h.readPosition]
      exact hsize
    simp only [SpscQueue.destruct, destroyRange, htype, Bool.false_eq_true, if_false,
      h.readPosition, hdistance, hdrain, Option.map_some]
  have hraw := live_destroyRange htype hdestruct
  rw [replay_effects hreplay] at hraw
  exact ⟨storage, hdestruct, fun i => Option.isNone_iff_eq_none.mp (by
    simpa [live] using congrFun hraw i), hreplay⟩

/-- Every element is constructed once and destroyed once: whatever was called, the live slots
are those between the cursors, every access found its slot in the right state, and the
destructor leaves nothing behind. -/
theorem lifetimes_exact (htype : type.triviallyDestructible = false) {calls : List (Call T)}
    {outs : List (List Access)}
    (hruns : Runs (trace N type) (fun _ _ => True) {} calls outs q) :
    Lifetimes N type q outs.flatten := by
  have hnew : live ({} : SpscQueue T).storage = occupied N.size 0 ([] : List T).length :=
    occupied_zero.symm
  obtain ⟨r, rc, wc, xs, h, hlive, hreplay⟩ := replay_runs htype hruns (Shows.empty N) hnew
  rw [List.length_nil, occupied_zero] at hreplay
  obtain ⟨storage, hdestruct, hraw, hdestroyed⟩ := h.destruct htype hlive
  constructor
  · rw [hreplay, hlive]
  · intro i
    rw [hlive, occupied, decide_eq_true_eq, h.size]
    simp only [h.readPosition, cursor_add, calculateIndex_cursor, eq_comm]
  · intro call
    obtain ⟨_, _, _, _, _, _, hexec, _⟩ := h.keeps htype call
    rw [hexec]
    rfl
  · intro x q' hcall
    exact accesses_tryEmplace_rejected hcall
  · intro ys q' hcall
    exact accesses_tryEmplaceRange_rejected (triviallyCopyable_of_destructor htype) hcall
  · refine ⟨storage, hdestruct, hraw, ?_⟩
    have hnone : live storage = fun _ => false := by
      funext i
      simp only [live, hraw, Option.isSome_none]
    rw [hdestroyed, hnone]
  · refine constructed_perm_destroyed ?_
    rw [replay_append _ hreplay, ← hlive, hdestroyed]

/-- Two slots and three pushes, the last one rejected, with one element popped and one left to
the destructor. -/
theorem lifetimes_exact_threePushes :
    ∃ q : SpscQueue Nat, Lifetimes ⟨1, by decide⟩ ⟨false, false, by decide⟩ q
      [.construct 0, .construct 1, .visit 0, .destroy 0] := by
  have hruns : ∃ q, Runs (trace ⟨1, by decide⟩ ⟨false, false, by decide⟩) (fun _ _ => True)
      ({} : SpscQueue Nat) [.tryEmplace 7, .tryEmplace 8, .tryEmplace 9, .tryDequeue]
      [[.construct 0], [.construct 1], [], [.visit 0, .destroy 0]] q :=
    ⟨_, .cons trivial rfl (.cons trivial rfl (.cons trivial rfl (.cons trivial rfl (.nil _))))⟩
  obtain ⟨q, hruns⟩ := hruns
  exact ⟨q, lifetimes_exact rfl hruns⟩

end SpscQueue

end ExchangeEngine
