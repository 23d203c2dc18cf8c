import ExchangeEngine.ConcurrentQueue.Cursor
import ExchangeEngine.Library.Transition

/-!
`src/concurrent_queue/spsc_queue.hpp`, one call at a time. The capacities are those
that the static assertion lets through. A slot is either raw storage or holds a live
element; a copy that reads raw storage, or leaves the array it copies from or to, and
a failed assertion have no result. `ring_data` rewrites the storage with itself, which
between calls changes nothing.
-/

namespace ExchangeEngine

/-- What the templates ask about the element type. -/
structure ElementType where
  triviallyCopyable : Bool
  triviallyDestructible : Bool
  destructible_of_copyable : triviallyCopyable = true → triviallyDestructible = true

structure SpscQueue (T : Type) where
  storage : Nat → Option T := fun _ => none
  readPosition : Word := 0
  readPositionLocal : Word := 0
  writePositionCache : Word := 0
  writePosition : Word := 0
  writePositionLocal : Word := 0
  readPositionCache : Word := 0

namespace SpscQueue

variable {T : Type} (N : Capacity)

def calculateIndex (pos : Word) : Nat := (pos &&& (N.word - 1)).toNat

/-! ### Cursors -/

def size (q : SpscQueue T) : Word := q.writePosition - q.readPosition

def isEmpty (q : SpscQueue T) : Bool := q.size = 0

def isFull (q : SpscQueue T) : Bool := q.size = N.word

def freeSlots (q : SpscQueue T) : Word := N.word - (q.writePositionLocal - q.readPositionCache)

/-- A range of `count` elements is compared as a number: its size always fits a word. -/
def hasRoom (q : SpscQueue T) (count : Nat) : SpscQueue T × Bool :=
  if (q.freeSlots N).toNat < count then
    let q := {q with readPositionCache := q.readPosition}
    (q, decide (count ≤ (q.freeSlots N).toNat))
  else (q, true)

def publishWrite (q : SpscQueue T) (newWrite : Word) : SpscQueue T :=
  {q with writePositionLocal := newWrite, writePosition := newWrite}

def readable (q : SpscQueue T) : SpscQueue T × Word :=
  let q := if q.readPositionLocal = q.writePositionCache then
    {q with writePositionCache := q.writePosition} else q
  (q, q.writePositionCache - q.readPositionLocal)

def publishRead (q : SpscQueue T) (newRead : Word) : SpscQueue T :=
  {q with readPositionLocal := newRead, readPosition := newRead}

/-! ### Slots -/

def constructAt (storage : Nat → Option T) (pos : Word) (x : T) : Nat → Option T :=
  Function.update storage (calculateIndex N pos) (some x)

def destroyAt (storage : Nat → Option T) (pos : Word) : Nat → Option T :=
  Function.update storage (calculateIndex N pos) none

/-- The element-wise branch of `try_emplace_range`. -/
def constructRange (storage : Nat → Option T) (pos : Word) : List T → Nat → Option T
  | [] => storage
  | x :: r => constructRange (constructAt N storage pos x) (pos + 1) r

/-- The loops that hand out an element and destroy it, `count` times. -/
def drain : Nat → Word → (Nat → Option T) → Option (List T × (Nat → Option T))
  | 0, _, storage => some ([], storage)
  | count + 1, pos, storage => do
    let x ← storage (calculateIndex N pos)
    let (xs, storage) ← drain count (pos + 1) (destroyAt N storage pos)
    some (x :: xs, storage)

def destroyRange (type : ElementType) (storage : Nat → Option T) (start stop : Word) :
    Option (Nat → Option T) :=
  if type.triviallyDestructible then some storage
  else (drain N (stop - start).toNat start storage).map Prod.snd

/-- `memcpy` from `src + offset` into the ring. -/
def memcpyIn (storage : Nat → Option T) (index : Nat) (src : List T) (offset len : Nat) :
    Option (Nat → Option T) :=
  if offset + len ≤ src.length ∧ index + len ≤ N.size then
    some (Cyclic.write storage index (((src.drop offset).take len).map some))
  else none

/-- `memcpy` from the ring to `dst + offset`. -/
def memcpyOut (storage : Nat → Option T) (index : Nat) (dst : List T) (offset len : Nat) :
    Option (List T) :=
  if offset + len ≤ dst.length ∧ index + len ≤ N.size then do
    let xs ← (Cyclic.read storage index len).mapM id
    some (dst.take offset ++ xs ++ dst.drop (offset + len))
  else none

/-! ### The producer -/

def tryEmplace (q : SpscQueue T) (x : T) : Option (SpscQueue T × Bool) :=
  let oldWrite := q.writePositionLocal
  let (q, room) := q.hasRoom N 1
  if !room then some (q, false)
  else if q.isFull N then none
  else
    let q := {q with storage := constructAt N q.storage oldWrite x}
    some (q.publishWrite (oldWrite + 1), true)

def tryEmplaceRange (type : ElementType) (q : SpscQueue T) (r : List T) :
    Option (SpscQueue T × Bool) :=
  let count := r.length
  let oldWrite := q.writePositionLocal
  let (q, room) := q.hasRoom N count
  if !room then some (q, false)
  else if type.triviallyCopyable then do
    let writeIndex := calculateIndex N oldWrite
    let firstChunk := min count (N.size - writeIndex)
    let src := firstChunk
    let storage ← memcpyIn N q.storage writeIndex r src firstChunk
    let storage ← if firstChunk < count then memcpyIn N storage 0 r src (count - firstChunk)
      else some storage
    some ({q with storage}.publishWrite (oldWrite + BitVec.ofNat 64 count), true)
  else
    let q := {q with storage := constructRange N q.storage oldWrite r}
    some (q.publishWrite (oldWrite + BitVec.ofNat 64 count), true)

/-! ### The consumer -/

def tryDequeue (q : SpscQueue T) : Option (SpscQueue T × Option T) :=
  let oldRead := q.readPositionLocal
  let (q, available) := q.readable
  if available = 0 then some (q, none)
  else if q.isEmpty then none
  else do
    let x ← q.storage (calculateIndex N oldRead)
    let q := {q with storage := destroyAt N q.storage oldRead}
    some (q.publishRead (oldRead + 1), some x)

/-- The overload that assigns the element to `out`. -/
def tryDequeueInto (q : SpscQueue T) (out : T) : Option (SpscQueue T × Bool × T) :=
  (q.tryDequeue N).map fun (q, x) => (q, x.isSome, x.getD out)

def tryDequeueRange (type : ElementType) (q : SpscQueue T) (out : List T) :
    Option (SpscQueue T × Nat × List T) :=
  let oldRead := q.readPositionLocal
  let (q, available) := q.readable
  if available = 0 then some (q, 0, out)
  else
    let count := min available.toNat out.length
    if type.triviallyCopyable then do
      let readIndex := calculateIndex N oldRead
      let first := min count (N.size - readIndex)
      let out ← memcpyOut N q.storage readIndex out 0 first
      let out ← if first ≠ count then memcpyOut N q.storage 0 out first (count - first)
        else some out
      some (q.publishRead (oldRead + BitVec.ofNat 64 count), count, out)
    else do
      let (xs, storage) ← drain N count oldRead q.storage
      some ({q with storage}.publishRead (oldRead + BitVec.ofNat 64 count), count,
        xs ++ out.drop count)

def clear (type : ElementType) (q : SpscQueue T) : Option (SpscQueue T) := do
  let writeEnd := q.writePosition
  let storage ← destroyRange N type q.storage q.readPositionLocal writeEnd
  some ({q with storage, writePositionCache := writeEnd}.publishRead writeEnd)

/-- Returns, behind the count, the elements that `fn` was invoked on. -/
def consumeAll (q : SpscQueue T) : Option (SpscQueue T × Nat × List T) := do
  let oldRead := q.readPositionLocal
  let (q, available) := q.readable
  let count := available.toNat
  let (xs, storage) ← drain N count oldRead q.storage
  some ({q with storage}.publishRead (oldRead + BitVec.ofNat 64 count), count, xs)

def consumeUpTo (q : SpscQueue T) (limit : Nat) : Option (SpscQueue T × Nat × List T) :=
  let oldRead := q.readPositionLocal
  let (q, available) := q.readable
  if available = 0 then some (q, 0, [])
  else do
    let count := min limit available.toNat
    let (xs, storage) ← drain N count oldRead q.storage
    some ({q with storage}.publishRead (oldRead + BitVec.ofNat 64 count), count, xs)

/-! ### Runs -/

/-- A call on the queue. -/
inductive Call (T : Type) where
  | tryEmplace (x : T)
  | tryEmplaceRange (r : List T)
  | tryDequeue
  | tryDequeueInto (out : T)
  | tryDequeueRange (out : List T)
  | clear
  | consumeAll
  | consumeUpTo (limit : Nat)

/-- One call, reporting how many elements it pushed or popped, if it says so. -/
def exec (type : ElementType) (q : SpscQueue T) : Call T → Option (SpscQueue T × Nat)
  | .tryEmplace x => (q.tryEmplace N x).map fun (q, ok) => (q, ok.toNat)
  | .tryEmplaceRange r =>
    (q.tryEmplaceRange N type r).map fun (q, ok) => (q, if ok then r.length else 0)
  | .tryDequeue => (q.tryDequeue N).map fun (q, x) => (q, x.isSome.toNat)
  | .tryDequeueInto out => (q.tryDequeueInto N out).map fun (q, ok, _) => (q, ok.toNat)
  | .tryDequeueRange out => (q.tryDequeueRange N type out).map fun (q, count, _) => (q, count)
  | .clear => (q.clear N type).map fun q => (q, 0)
  | .consumeAll => (q.consumeAll N).map fun (q, count, _) => (q, count)
  | .consumeUpTo limit => (q.consumeUpTo N limit).map fun (q, count, _) => (q, count)

/-- Between two calls of some sequential run. -/
def Reached (type : ElementType) (q : SpscQueue T) : Prop :=
  Transition.Reachable (exec N type) (fun _ _ => True) {} q

/-- The elements of the queue, front first. -/
def contents (q : SpscQueue T) : List T :=
  (Cyclic.get N.size q.storage q.readPosition.toNat q.size.toNat).reduceOption

end SpscQueue

end ExchangeEngine
