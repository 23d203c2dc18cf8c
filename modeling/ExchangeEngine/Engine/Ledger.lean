import ExchangeEngine.Engine.Queries
import ExchangeEngine.Engine.TimePriority

/-!
Where the volume of an order goes. A ledger keeps, next to a history, one account for
every call made so far. The trades of a call are charged to the resting orders in the
order in which they stand, and cancellations and deletions to the orders they take
volume from; like the record of births, the accounts are only written. An order is
known by the call that accepted it, so the accounts of two orders are never confused,
even when they share an id or rest in the same slot one after the other.
-/

namespace ExchangeEngine

open Ladder Fifo Chain Transition

/-- A volume of the order in a slot. -/
structure Parcel where
  side : Side
  slot : Int
  volume : Int
  deriving DecidableEq, Repr

/-- The volume of the parcels in slots of a kind. -/
def volumeIn (kind : Side → Int → Bool) (xs : List Parcel) : Int :=
  ((xs.filter fun x => kind x.side x.slot).map Parcel.volume).sum

def entryParcel (s : Side) (e : Entry) : Parcel := ⟨s, e.1, e.2.volume⟩

/-- What a draw takes from an entry. -/
def fillParcel (s : Side) (f : Entry × Int) : Parcel := ⟨s, f.1.1, f.2⟩

/-- The volume a call asks the book to accept. -/
def Command.accepts : Command → Int
  | .placeOrder o => max o.volume 0
  | .addOrder _ _ v => max v 0
  | _ => 0

namespace OrderBook

/-- What rests on the two sides. -/
def parcels (b : OrderBook) : List Parcel :=
  (b.resting .bid).map (fun x => entryParcel .bid x.2) ++
    (b.resting .ask).map fun x => entryParcel .ask x.2

/-- What a call takes from the orders that rest before it. The trades of a placed
order name the orders of the opposite side as they stand in line. -/
def takes (b : OrderBook) (trades : List Trade) : Command → List Parcel
  | .placeOrder o =>
      ((b.resting (opposed o.side)).zip trades).map fun x =>
        ⟨opposed o.side, x.1.2.1, x.2.volume⟩
  | .cancelOrder id =>
      match b.index id with
      | none => []
      | some loc =>
          ((b.chainAt loc.side loc.price).filter (·.1 = loc.node)).map (entryParcel loc.side)
  | .deleteOrder s p v => (fills v (b.chainAt s p)).map (fillParcel s)
  | _ => []

/-- The part of a placed order that neither trades nor rests, because the order is
immediate-or-cancel or fill-or-kill. -/
def dropped (b : OrderBook) : Command → Int
  | .placeOrder o =>
      if o.volume ≤ 0 ∨ o.type = .goodTillCanceled then 0
      else if o.type = .fillOrKill ∧
          canFullyFill o.side o.price o.volume 0 (b.sideLevels (opposed o.side)) = false then
        o.volume
      else
        match b.matchOrder o.id o.side o.price o.volume with
        | some (_, left, _) => left
        | none => 0
  | _ => 0

end OrderBook

/-- The trades of a placed order are with the orders at the front of the opposite line, one
trade each. -/
structure OrderBook.Attributes (b : OrderBook) (o : Order) (trades : List Trade) : Prop where
  enough : trades.length ≤ (b.resting (opposed o.side)).length
  matched : ∀ x ∈ (b.resting (opposed o.side)).zip trades,
    x.2.aggressor = o.id ∧ x.2.resting = x.1.2.2.id ∧ x.2.price = x.1.1
  bounded : ∀ x ∈ (b.resting (opposed o.side)).zip trades,
    0 < x.2.volume ∧ x.2.volume ≤ x.1.2.2.volume

/-- What became of the volume of one order. -/
structure Account where
  accepted : Int := 0
  aggressor : Int := 0
  passive : Int := 0
  removed : Int := 0
  dropped : Int := 0
  deriving DecidableEq, Repr

/-- Charge a volume taken from a resting order to its account. -/
def Account.charge (a : Account) (v : Int) : Command → Account
  | .placeOrder _ => {a with passive := a.passive + v}
  | _ => {a with removed := a.removed + v}

namespace History

/-- The slots whose orders came to rest in a call. -/
def bornIn (h : History) (call : Nat) (s : Side) (n : Int) : Bool := (h.born s n).time = call

/-- The volume that the order accepted in a call still rests with. -/
def restingOf (h : History) (call : Nat) : Int := volumeIn (h.bornIn call) h.book.parcels

def totalResting (h : History) : Int := (h.book.parcels.map Parcel.volume).sum

/-- The order accepted in a call rests somewhere. -/
def Rests (h : History) (call : Nat) : Prop :=
  ∃ s, ∃ x ∈ h.book.resting s, h.bornIn call s x.2.1 = true

end History

structure Ledger where
  history : History
  account : Nat → Account

namespace Ledger

def empty (capacity : Nat) : Ledger := ⟨History.empty capacity, fun _ => {}⟩

/-- The volume a call takes from the order accepted in an earlier one. -/
def takenFrom (L : Ledger) (trades : List Trade) (cmd : Command) (call : Nat) : Int :=
  volumeIn (L.history.bornIn call) (L.history.book.takes trades cmd)

def exec (L : Ledger) (cmd : Command) : Option (Ledger × List Trade) :=
  (L.history.exec cmd).map fun (h, trades) =>
    let opening : Account :=
      {accepted := cmd.accepts
       aggressor := (trades.map Trade.volume).sum
       dropped := L.history.book.dropped cmd}
    (⟨h, fun call =>
      if call = L.history.clock then opening
      else (L.account call).charge (L.takenFrom trades cmd call) cmd⟩, trades)

end Ledger

section Parcels

variable {kind : Side → Int → Bool}

@[simp] theorem volumeIn_nil : volumeIn kind [] = 0 := rfl

@[simp] theorem volumeIn_append (xs ys : List Parcel) :
    volumeIn kind (xs ++ ys) = volumeIn kind xs + volumeIn kind ys := by
  simp [volumeIn]

theorem volumeIn_true (xs : List Parcel) :
    volumeIn (fun _ _ => true) xs = (xs.map Parcel.volume).sum := by
  simp [volumeIn]

theorem volumeIn_congr {kind' : Side → Int → Bool} {xs : List Parcel}
    (h : ∀ x ∈ xs, kind x.side x.slot = kind' x.side x.slot) :
    volumeIn kind xs = volumeIn kind' xs := by
  rw [volumeIn, volumeIn, List.filter_congr h]

theorem volumeIn_of_none {xs : List Parcel} (h : ∀ x ∈ xs, kind x.side x.slot = false) :
    volumeIn kind xs = 0 := by
  have hnone : xs.filter (fun x => kind x.side x.slot) = [] := by
    rw [List.filter_eq_nil_iff]
    exact fun x hx => by simp [h x hx]
  rw [volumeIn, hnone]
  rfl

theorem volumeIn_of_all {xs : List Parcel} (h : ∀ x ∈ xs, kind x.side x.slot = true) :
    volumeIn kind xs = (xs.map Parcel.volume).sum := by
  rw [volumeIn, List.filter_eq_self.mpr h]

theorem volumeIn_map {α : Type} (f : α → Parcel) (as : List α) :
    volumeIn kind (as.map f) =
      ((as.filter fun a => kind (f a).side (f a).slot).map fun a => (f a).volume).sum := by
  rw [volumeIn, List.filter_map, List.map_map]
  rfl

/-- The parcels that satisfy a condition, and those that do not. -/
theorem volumeIn_filter {α : Type} (f : α → Parcel) (p : α → Prop) [DecidablePred p]
    (as : List α) :
    volumeIn kind ((as.filter p).map f) + volumeIn kind ((as.filter (¬ p ·)).map f) =
      volumeIn kind (as.map f) := by
  have hperm := ((List.filter_append_perm (p ·) as).map f).filter fun x => kind x.side x.slot
  have hsum := (hperm.map Parcel.volume).sum_eq
  rw [← volumeIn_append, ← List.map_append, volumeIn, volumeIn, ← hsum]
  simp only [decide_not]

/-- A draw splits the parcels of a queue into those taken and those that stay. -/
theorem volumeIn_draw (kind : Side → Int → Bool) (s : Side) (v : Int) (es : List Entry) :
    volumeIn kind ((remaining v es).map (entryParcel s)) +
        volumeIn kind ((fills v es).map (fillParcel s)) =
      volumeIn kind (es.map (entryParcel s)) := by
  have hsplit := total_filter_remaining (fun e : Entry => kind s e.1) (fun _ _ => rfl) v es
  rw [volumeIn_map, volumeIn_map, volumeIn_map]
  exact hsplit

/-- The same for a line of entries with their prices. -/
theorem volumeIn_draw_line (kind : Side → Int → Bool) (s : Side) (v : Int)
    (line : List (Nat × Entry)) :
    volumeIn kind ((remaining v line).map fun x => entryParcel s x.2) +
        volumeIn kind ((fills v line).map fun f => fillParcel s (f.1.2, f.2)) =
      volumeIn kind (line.map fun x => entryParcel s x.2) := by
  have hsplit :=
    total_filter_remaining (fun x : Nat × Entry => kind s x.2.1) (fun _ _ => rfl) v line
  rw [volumeIn_map, volumeIn_map, volumeIn_map]
  exact hsplit

end Parcels

namespace QueueBook

/-- What rests on the two sides. -/
def parcels (c : QueueBook) : List Parcel :=
  (c.resting .bid).map (fun x => entryParcel .bid x.2) ++
    (c.resting .ask).map fun x => entryParcel .ask x.2

theorem volumeIn_parcels (c : QueueBook) (kind : Side → Int → Bool) (s : Side) :
    volumeIn kind c.parcels =
      volumeIn kind ((c.resting s).map fun x => entryParcel s x.2) +
        volumeIn kind ((c.resting (opposed s)).map fun x => entryParcel (opposed s) x.2) := by
  rw [parcels, volumeIn_append]
  cases s with
  | bid => rfl
  | ask => exact Int.add_comm _ _

theorem exists_of_mem_parcels {c : QueueBook} (hwf : c.WellFormed) {x : Parcel}
    (hx : x ∈ c.parcels) : ∃ p, x.slot ∈ keys (c.queue x.side p) := by
  rcases List.mem_append.mp hx with hx | hx
  all_goals
    obtain ⟨⟨p, e⟩, he, rfl⟩ := List.mem_map.mp hx
    exact ⟨p, List.mem_map_of_mem ((mem_resting hwf.ladder).mp he)⟩

theorem volumeIn_alterQueue {c : QueueBook} (hwf : c.WellFormed) (kind : Side → Int → Bool)
    (s : Side) (p : Nat) (f : List Entry → List Entry) :
    volumeIn kind (c.alterQueue s p f).parcels +
        volumeIn kind ((c.queue s p).map (entryParcel s)) =
      volumeIn kind c.parcels + volumeIn kind ((f (c.queue s p)).map (entryParcel s)) := by
  obtain ⟨xs, ys, hline, halter, hother, _, _⟩ := resting_alterQueue hwf.ladder s p
  rw [volumeIn_parcels _ kind s, volumeIn_parcels c kind s, halter, hother f _ (opposed_ne s),
    hline]
  have hblock : ∀ es : List Entry, (es.map (Prod.mk p)).map (fun x => entryParcel s x.2) =
      es.map (entryParcel s) := fun es => List.map_map
  simp only [List.map_append, hblock, volumeIn_append]
  omega

/-- A call takes parcels from resting orders and puts new ones in slots that its side
did not use. -/
structure Moves (c c' : QueueBook) (taken fresh : List Parcel) : Prop where
  balance : ∀ kind, volumeIn kind c'.parcels + volumeIn kind taken =
    volumeIn kind c.parcels + volumeIn kind fresh
  known : ∀ x ∈ taken, ∃ p, x.slot ∈ keys (c.queue x.side p)
  new : ∀ x ∈ fresh, (∀ q, x.slot ∉ keys (c.queue x.side q)) ∧
    ∃ p, x.slot ∈ keys (c'.queue x.side p)

namespace Moves

theorem refl (c : QueueBook) : Moves c c [] [] := ⟨fun _ => rfl, by simp, by simp⟩

/-- Taking first, then filling slots of a side that was left alone. -/
theorem trans {c c₁ c' : QueueBook} {taken fresh : List Parcel} (h : Moves c c₁ taken [])
    (h' : Moves c₁ c' [] fresh) (hsame : ∀ x ∈ fresh, ∀ q, c₁.queue x.side q = c.queue x.side q) :
    Moves c c' taken fresh := by
  refine ⟨fun kind => ?_, h.known, fun x hx => ?_⟩
  · have htaken := h.balance kind
    have hfilled := h'.balance kind
    rw [volumeIn_nil] at htaken hfilled
    omega
  · obtain ⟨hunused, hrests⟩ := h'.new x hx
    exact ⟨fun q => hsame x hx q ▸ hunused q, hrests⟩

variable {c c' : QueueBook} (hwf : c.WellFormed)
include hwf

theorem push {s : Side} {p id : Nat} {v : Int} (hpush : c.push s p id v = some c') :
    ∃ node, Moves c c' [] [⟨s, node, v⟩] := by
  obtain ⟨⟨node, free, slots⟩, hslot, rfl⟩ := Option.map_eq_some_iff.mp hpush
  have hqueue := queue_alterQueue hwf.ladder s p (· ++ [(node, ⟨id, v⟩)]) s p
  refine ⟨node, fun kind => ?_, by simp, fun x hx => ?_⟩
  · have halter := volumeIn_alterQueue hwf kind s p (· ++ [(node, ⟨id, v⟩)])
    simp only [List.map_append, volumeIn_append] at halter
    change volumeIn kind (c.alterQueue s p _).parcels + _ = _
    simp only [List.map_cons, List.map_nil, entryParcel, volumeIn_nil] at halter ⊢
    omega
  · obtain rfl := List.mem_singleton.mp hx
    refine ⟨fun q => OrderBook.nextSlot_notMem hwf hslot s q, p, ?_⟩
    change node ∈ keys ((c.alterQueue s p _).queue s p)
    rw [hqueue, if_pos ⟨rfl, rfl⟩]
    simp

theorem drain (s : Side) (p : Nat) (v : Int) :
    Moves c (c.drain s p v) ((fills v (c.queue s p)).map (fillParcel s)) [] := by
  refine ⟨fun kind => ?_, fun x hx => ?_, by simp⟩
  · have halter := volumeIn_alterQueue hwf kind s p (remaining v)
    have hdraw := volumeIn_draw kind s v (c.queue s p)
    change volumeIn kind (c.alterQueue s p (remaining v)).parcels + _ = _
    rw [volumeIn_nil]
    omega
  · obtain ⟨f, hf, rfl⟩ := List.mem_map.mp hx
    exact ⟨p, List.mem_map_of_mem (mem_of_mem_fills hf)⟩

theorem remove {id : Nat} {loc : Location} (hloc : c.index id = some loc) :
    Moves c (c.remove id) (((c.queue loc.side loc.price).filter (·.1 = loc.node)).map
      (entryParcel loc.side)) [] := by
  refine ⟨fun kind => ?_, fun x hx => ?_, by simp⟩
  · have halter := volumeIn_alterQueue hwf kind loc.side loc.price (·.filter (·.1 ≠ loc.node))
    have hsplit : _ + volumeIn kind (((c.queue loc.side loc.price).filter
        (·.1 ≠ loc.node)).map (entryParcel loc.side)) = _ :=
      volumeIn_filter (entryParcel loc.side) (·.1 = loc.node) (c.queue loc.side loc.price)
    have hafter : (c.remove id).parcels =
        (c.alterQueue loc.side loc.price (·.filter (·.1 ≠ loc.node))).parcels := by
      unfold QueueBook.remove
      rw [hloc]
      rfl
    rw [hafter, volumeIn_nil]
    omega
  · obtain ⟨e, he, rfl⟩ := List.mem_map.mp hx
    exact ⟨loc.price, List.mem_map_of_mem (List.mem_filter.mp he).1⟩

theorem sweep (s : Side) (price : Nat) (v : Int) :
    Moves c (sweep s price c v (c.side (opposed s)))
      ((fills v (crossing s price (c.resting (opposed s)))).map fun f =>
        fillParcel (opposed s) (f.1.2, f.2)) [] := by
  have hswept := resting_sweep s price (hwf.ladder (opposed s)).nonempty v (c := c) rfl
  refine ⟨fun kind => ?_, fun x hx => ?_, by simp⟩
  · have hdraw := volumeIn_draw_line kind (opposed s) v
      (crossing s price (c.resting (opposed s)))
    have hown : (QueueBook.sweep s price c v (c.side (opposed s))).resting s = c.resting s := by
      rw [resting, side_sweep, resting]
    have hline : volumeIn kind ((c.resting (opposed s)).map fun x => entryParcel (opposed s) x.2) =
        volumeIn kind ((crossing s price (c.resting (opposed s))).map
          fun x => entryParcel (opposed s) x.2) +
        volumeIn kind ((beyond s price (c.resting (opposed s))).map
          fun x => entryParcel (opposed s) x.2) := by
      rw [← volumeIn_append, ← List.map_append, crossing_append_beyond]
    rw [← resting] at hswept
    rw [volumeIn_parcels _ kind s, volumeIn_parcels c kind s, hown, hswept, List.map_append,
      volumeIn_append, volumeIn_nil]
    omega
  · obtain ⟨f, hf, rfl⟩ := List.mem_map.mp hx
    have hline := (List.takeWhile_sublist _).subset (mem_of_mem_fills hf)
    exact ⟨f.1.1, List.mem_map_of_mem ((mem_resting hwf.ladder).mp hline)⟩

end Moves

/-- The part of a placed order that neither trades nor rests. -/
def dropped (c : QueueBook) (o : Order) : Int :=
  if o.volume ≤ 0 ∨ o.type = .goodTillCanceled then 0
  else if o.type = .fillOrKill ∧
      canFill o.side o.price o.volume 0 (c.side (opposed o.side)) = false then o.volume
  else sweepLeftover o.side o.price o.volume (c.side (opposed o.side))

end QueueBook

namespace Represents

variable {b : OrderBook} {c : QueueBook} (h : Represents b c) (hwf : c.WellFormed)
include h hwf

theorem parcels_eq : b.parcels = c.parcels := by
  rw [OrderBook.parcels, h.resting_eq hwf, h.resting_eq hwf, QueueBook.parcels]

theorem dropped_eq (o : Order) : b.dropped (.placeOrder o) = c.dropped o := by
  obtain ⟨b', hmatch, _⟩ := OrderBook.matchOrder_represents h hwf o.id o.side o.price o.volume
  simp only [OrderBook.dropped, QueueBook.dropped, hmatch, h.levels, OrderBook.canFullyFill_eq]

end Represents

namespace QueueBook

/-- What a placed order trades, rests with and drops makes up its volume. -/
theorem Moves.place {c c' : QueueBook} {o : Order} {trades : List Trade} (hwf : c.WellFormed)
    (hplace : c.place o = some (c', trades)) :
    ∃ fresh, Moves c c' (((c.resting (opposed o.side)).zip trades).map fun x =>
        ⟨opposed o.side, x.1.2.1, x.2.volume⟩) fresh ∧
      (trades.map Trade.volume).sum + (fresh.map Parcel.volume).sum + c.dropped o =
        max o.volume 0 := by
  let X := crossing o.side o.price (c.resting (opposed o.side))
  let opposite := c.side (opposed o.side)
  let left := sweepLeftover o.side o.price o.volume opposite
  have hnonempty := (hwf.ladder (opposed o.side)).nonempty
  have htraded : (((sweepFills o.side o.price o.volume opposite).map (tradeOf o.id)).map
      Trade.volume).sum + left = o.volume := by
    have hsum := leftover_add_taken o.volume X
    have hleft : left = leftover o.volume X := sweepLeftover_eq o.side o.price hnonempty o.volume
    rw [sum_sweepFills o.side o.price hnonempty, hleft, Int.add_comm]
    exact hsum
  have hzip : (((c.resting (opposed o.side)).zip ((sweepFills o.side o.price o.volume
      opposite).map (tradeOf o.id))).map fun x =>
        (⟨opposed o.side, x.1.2.1, x.2.volume⟩ : Parcel)) =
      (fills o.volume X).map fun f => fillParcel (opposed o.side) (f.1.2, f.2) := by
    have hline := crossing_append_beyond o.side o.price (c.resting (opposed o.side))
    nth_rewrite 1 [← hline]
    rw [sweepFills_eq o.side o.price hnonempty, List.map_map, ← resting, zip_fills, List.map_map]
    rfl
  have hsweep := Moves.sweep hwf o.side o.price o.volume
  rcases place_outcome hplace with ⟨hnone, rfl, rfl⟩ | ⟨hvolume, hkilled, rfl, rfl⟩ |
    ⟨hvolume, hlive, rfl, hcases⟩
  · refine ⟨[], by simpa using Moves.refl c', ?_⟩
    rw [dropped, if_pos (Or.inl hnone), Int.max_eq_right hnone]
    rfl
  · have hpos := Int.not_le.mpr hvolume
    rw [Int.max_eq_left (Int.le_of_lt hvolume)]
    refine ⟨[], by simpa using Moves.refl c', ?_⟩
    rw [dropped, if_neg (by simp [hpos, hkilled.1]), if_pos hkilled]
    simp
  have hpos := Int.not_le.mpr hvolume
  rw [Int.max_eq_left (Int.le_of_lt hvolume)]
  have hdropped : c.dropped o = if o.type = .goodTillCanceled then 0 else left := by
    simp [dropped, hpos, hlive, left, opposite]
  have hleft : 0 ≤ left := by
    rw [show left = _ from sweepLeftover_eq o.side o.price hnonempty o.volume]
    exact leftover_nonneg (Int.le_of_lt hvolume) _
  rcases hcases with ⟨-, hgtc, hpush⟩ | ⟨hstays, rfl⟩
  · obtain ⟨node, hfresh⟩ := Moves.push (hwf.sweep _ _ _ _) hpush
    have hmoves := hsweep.trans hfresh fun x hx q => by
      rw [List.mem_singleton.mp hx, queue, side_sweep, queue]
    refine ⟨_, hzip ▸ hmoves, ?_⟩
    rw [hdropped, if_pos hgtc]
    simpa using htraded
  · refine ⟨[], hzip ▸ hsweep, ?_⟩
    have hrest : c.dropped o = left := by
      rw [hdropped]
      split
      · rename_i hgtc
        have hnone : ¬ 0 < left := fun hlt => hstays ⟨hlt, hgtc⟩
        omega
      · rfl
    rw [hrest, List.map_nil, List.sum_nil, Int.add_zero]
    exact htraded

/-- What a call takes comes from resting orders, and what it accepts is traded, rests or
is dropped. -/
theorem Moves.exec {b : OrderBook} {c c' : QueueBook} {cmd : Command} {trades : List Trade}
    (hrep : Represents b c) (hwf : c.WellFormed) (hallow : Flow.orders.Allows cmd)
    (hexec : c.exec cmd = some (c', trades)) :
    ∃ fresh, Moves c c' (b.takes trades cmd) fresh ∧
      (trades.map Trade.volume).sum + (fresh.map Parcel.volume).sum + b.dropped cmd =
        cmd.accepts := by
  cases cmd with
  | placeOrder o =>
      rw [hrep.dropped_eq hwf, OrderBook.takes, hrep.resting_eq hwf]
      exact Moves.place hwf hexec
  | cancelOrder id =>
      cases hexec
      refine ⟨[], ?_, rfl⟩
      rw [OrderBook.takes, hrep.index]
      cases hloc : c.index id with
      | none =>
          rw [QueueBook.remove_of_not_indexed hloc]
          exact Moves.refl c
      | some loc =>
          simp only [hrep.chainAt_eq hwf]
          exact Moves.remove hwf hloc
  | addOrder s p v =>
      obtain ⟨hadd, rfl⟩ := QueueBook.exec_addOrder hexec
      rcases QueueBook.add_cases hadd with ⟨hv, rfl⟩ | ⟨hv, hpush⟩
      · refine ⟨[], Moves.refl _, ?_⟩
        rw [Command.accepts, Int.max_eq_right hv]
        rfl
      · obtain ⟨node, hmoves⟩ := Moves.push hwf hpush
        refine ⟨_, hmoves, ?_⟩
        rw [Command.accepts, Int.max_eq_left (Int.le_of_lt hv)]
        simp [OrderBook.dropped]
  | deleteOrder s p v =>
      cases hexec
      refine ⟨[], ?_, rfl⟩
      rw [OrderBook.takes, hrep.chainAt_eq hwf]
      exact Moves.drain hwf s p v
  | setLevel s p v => exact hallow.elim

end QueueBook

namespace History

section Step

variable {h h' : History} {c : QueueBook} (hrep : Represents h.book c) (hwf : c.WellFormed)
  (hsorted : h.Sorted c) {cmd : Command} (hallow : Flow.orders.Allows cmd) {trades : List Trade}
  (hexec : h.exec cmd = some (h', trades))
include hrep hwf

theorem rests_iff (call : Nat) :
    h.Rests call ↔ ∃ s p, ∃ n ∈ keys (c.queue s p), h.bornIn call s n = true := by
  constructor
  · rintro ⟨s, ⟨p, e⟩, hx, hborn⟩
    rw [hrep.resting_eq hwf] at hx
    exact ⟨s, p, e.1, List.mem_map_of_mem ((QueueBook.mem_resting hwf.ladder).mp hx), hborn⟩
  · rintro ⟨s, p, n, hn, hborn⟩
    obtain ⟨e, he, rfl⟩ := List.mem_map.mp hn
    refine ⟨s, (p, e), ?_, hborn⟩
    rw [hrep.resting_eq hwf]
    exact (QueueBook.mem_resting hwf.ladder).mpr he

include hsorted hallow hexec

/-- A call leaves the births of the orders that rest and records itself as the birth of a
new one. -/
theorem exec_bornIn : ∃ c', c.exec cmd = some (c', trades) ∧ Represents h'.book c' ∧
    c'.WellFormed ∧ h'.Sorted c' ∧ QueueBook.Ages c c' ∧
    (∀ call s p, ∀ n ∈ keys (c.queue s p), h'.bornIn call s n = h.bornIn call s n) ∧
    ∀ call s p, ∀ n ∈ keys (c'.queue s p), (∀ q, n ∉ keys (c.queue s q)) →
      h'.bornIn call s n = decide (h.clock = call) := by
  obtain ⟨c', hexec', hrep', hwf', hsorted', hages⟩ := hsorted.next hrep hwf hallow hexec
  obtain ⟨⟨b', ts⟩, _, heq⟩ := Option.map_eq_some_iff.mp hexec
  cases heq
  refine ⟨c', hexec', hrep', hwf', hsorted', hages, ?_, ?_⟩
  · intro call s p n hn
    simp only [bornIn, record_of_mem hrep hwf b' hn]
  · intro call s p n hn hunused
    simp only [bornIn, record_of_new hrep hwf hrep' hwf' hn hunused]

/-- Where the volume of a call goes: every earlier order keeps what is not taken from it, and
the call's own order rests with what it neither trades nor drops. -/
theorem exec_resting :
    (∀ call, call ≠ h.clock →
      h'.restingOf call + volumeIn (h.bornIn call) (h.book.takes trades cmd) = h.restingOf call) ∧
    (trades.map Trade.volume).sum + h'.restingOf h.clock + h.book.dropped cmd = cmd.accepts ∧
    h'.totalResting + ((h.book.takes trades cmd).map Parcel.volume).sum =
      h.totalResting + h'.restingOf h.clock := by
  obtain ⟨c', hexec', hrep', hwf', _, _, hold, hnew⟩ :=
    exec_bornIn hrep hwf hsorted hallow hexec
  obtain ⟨fresh, hmoves, hvolume⟩ := QueueBook.Moves.exec hrep hwf hallow hexec'
  have hparcels : ∀ x ∈ h.book.parcels, ∃ p, x.slot ∈ keys (c.queue x.side p) := by
    rw [hrep.parcels_eq hwf]
    exact fun x hx => QueueBook.exists_of_mem_parcels hwf hx
  have hafter : ∀ call, h'.restingOf call +
      volumeIn (h.bornIn call) (h.book.takes trades cmd) = h.restingOf call +
        volumeIn (h'.bornIn call) fresh := by
    intro call
    have hkept : ∀ xs : List Parcel, (∀ x ∈ xs, ∃ p, x.slot ∈ keys (c.queue x.side p)) →
        volumeIn (h'.bornIn call) xs = volumeIn (h.bornIn call) xs := by
      intro xs hxs
      refine volumeIn_congr fun x hx => ?_
      obtain ⟨p, hp⟩ := hxs x hx
      exact hold call _ p _ hp
    have hbalance := hmoves.balance (h'.bornIn call)
    rw [hkept _ hmoves.known, ← hrep.parcels_eq hwf, hkept _ hparcels,
      ← hrep'.parcels_eq hwf'] at hbalance
    exact hbalance
  have hfresh : ∀ call, ∀ x ∈ fresh, h'.bornIn call x.side x.slot = decide (h.clock = call) := by
    intro call x hx
    obtain ⟨hunused, p, hrests⟩ := hmoves.new x hx
    exact hnew call _ p _ hrests hunused
  have hown : h'.restingOf h.clock = (fresh.map Parcel.volume).sum := by
    have hnothing : ∀ xs : List Parcel, (∀ x ∈ xs, ∃ p, x.slot ∈ keys (c.queue x.side p)) →
        volumeIn (h.bornIn h.clock) xs = 0 := by
      intro xs hxs
      refine volumeIn_of_none fun x hx => ?_
      obtain ⟨p, hp⟩ := hxs x hx
      simpa [bornIn] using Nat.ne_of_lt (hsorted.past _ p _ hp)
    have hall : volumeIn (h'.bornIn h.clock) fresh = (fresh.map Parcel.volume).sum :=
      volumeIn_of_all fun x hx => (hfresh h.clock x hx).trans (decide_eq_true rfl)
    have hbalance := hafter h.clock
    rw [hnothing _ hmoves.known, restingOf, restingOf, hnothing _ hparcels, hall] at hbalance
    rw [restingOf]
    omega
  refine ⟨fun call hcall => ?_, ?_, ?_⟩
  · have hnone : volumeIn (h'.bornIn call) fresh = 0 :=
      volumeIn_of_none fun x hx => (hfresh call x hx).trans (decide_eq_false (Ne.symm hcall))
    have hbalance := hafter call
    rw [hnone] at hbalance
    omega
  · rw [hown]
    exact hvolume
  · have hbalance := hmoves.balance fun _ _ => true
    simp only [volumeIn_true] at hbalance
    rw [totalResting, totalResting, hown, hrep.parcels_eq hwf, hrep'.parcels_eq hwf']
    exact hbalance

/-- An order that has left the book is neither taken from nor comes back. -/
theorem exec_gone {call : Nat} (hcall : call ≠ h.clock) (hgone : ¬ h.Rests call) :
    ¬ h'.Rests call ∧ volumeIn (h.bornIn call) (h.book.takes trades cmd) = 0 := by
  obtain ⟨c', hexec', hrep', hwf', _, hages, hold, hnew⟩ :=
    exec_bornIn hrep hwf hsorted hallow hexec
  obtain ⟨fresh, hmoves, _⟩ := QueueBook.Moves.exec hrep hwf hallow hexec'
  rw [rests_iff hrep hwf] at hgone
  rw [rests_iff hrep' hwf']
  constructor
  · rintro ⟨s, p, n, hn, hborn⟩
    rcases hages.mem hn with hin | hout
    · exact hgone ⟨s, p, n, hin, (hold call s p n hin).symm.trans hborn⟩
    · rw [hnew call s p n hn hout] at hborn
      exact hcall (of_decide_eq_true hborn).symm
  · refine volumeIn_of_none fun x hx => ?_
    obtain ⟨p, hp⟩ := hmoves.known x hx
    exact Bool.eq_false_iff.mpr fun hborn => hgone ⟨x.side, p, x.slot, hp, hborn⟩

end Step

end History

theorem OrderBook.attributes_of_place {b : OrderBook} {c c' : QueueBook} {o : Order}
    {trades : List Trade} (hrep : Represents b c) (hwf : c.WellFormed)
    (hplace : c.place o = some (c', trades)) : b.Attributes o trades := by
  obtain ⟨_, htrades⟩ := QueueBook.place_draws hwf hplace rfl
  have hline := crossing_append_beyond o.side o.price (c.resting (opposed o.side))
  have hpositive := QueueBook.positive_of_mem_crossing hwf o.side o.price
  rw [List.map_map] at htrades
  have hzip := congrArg ((b.resting (opposed o.side)).zip ·) htrades
  simp only [hrep.resting_eq hwf] at hzip
  nth_rewrite 2 [← hline] at hzip
  rw [zip_fills] at hzip
  constructor
  · rw [htrades, List.length_map, hrep.resting_eq hwf, ← List.length_map Prod.fst]
    exact ((map_fst_fills_sublist _ _).trans (List.takeWhile_sublist _)).length_le
  · intro x hx
    rw [hrep.resting_eq hwf, hzip] at hx
    obtain ⟨f, _, rfl⟩ := List.mem_map.mp hx
    exact ⟨rfl, rfl, rfl⟩
  · intro x hx
    rw [hrep.resting_eq hwf, hzip] at hx
    obtain ⟨f, hf, rfl⟩ := List.mem_map.mp hx
    exact bounds_of_mem_fills hpositive hf

/-- What a placed order takes adds up to its trades. -/
theorem OrderBook.Attributes.sum_takes {b : OrderBook} {o : Order} {trades : List Trade}
    (h : b.Attributes o trades) :
    ((b.takes trades (.placeOrder o)).map Parcel.volume).sum = (trades.map Trade.volume).sum := by
  have htrades := congrArg (List.map Trade.volume) (List.map_snd_zip h.enough)
  rw [List.map_map] at htrades
  rw [← htrades, takes, List.map_map]
  rfl

namespace Ledger

/-- Every volume accepted is accounted for. -/
def Balanced (L : Ledger) : Prop := ∀ call,
  (L.account call).accepted = (L.account call).aggressor + (L.account call).passive +
    L.history.restingOf call + (L.account call).removed + (L.account call).dropped

/-- A ledger whose book and births are in order. -/
def Sound (L : Ledger) : Prop :=
  ∃ c, Represents L.history.book c ∧ c.WellFormed ∧ L.history.Sorted c

section Step

variable {L L' : Ledger} {cmd : Command} {trades : List Trade}

theorem history_exec (hexec : L.exec cmd = some (L', trades)) :
    L.history.exec cmd = some (L'.history, trades) := by
  obtain ⟨⟨h, ts⟩, hhistory, heq⟩ := Option.map_eq_some_iff.mp hexec
  cases heq
  exact hhistory

/-- The accounts after a call: a new one is opened and the others are charged. -/
theorem account_exec (hexec : L.exec cmd = some (L', trades)) (call : Nat) :
    L'.account call = if call = L.history.clock then
        {accepted := cmd.accepts
         aggressor := (trades.map Trade.volume).sum
         dropped := L.history.book.dropped cmd}
      else (L.account call).charge (L.takenFrom trades cmd call) cmd := by
  obtain ⟨⟨h, ts⟩, _, heq⟩ := Option.map_eq_some_iff.mp hexec
  cases heq
  rfl

theorem clock_exec (hexec : L.exec cmd = some (L', trades)) :
    L'.history.clock = L.history.clock + 1 := by
  obtain ⟨_, _, heq⟩ := Option.map_eq_some_iff.mp (history_exec hexec)
  exact (congrArg (fun x => x.1.clock) heq).symm

theorem Sound.exec (h : L.Sound) (hallow : Flow.orders.Allows cmd)
    (hexec : L.exec cmd = some (L', trades)) : L'.Sound := by
  obtain ⟨c, hrep, hwf, hsorted⟩ := h
  obtain ⟨c', _, hrep', hwf', hsorted', _⟩ :=
    hsorted.next hrep hwf hallow (history_exec hexec)
  exact ⟨c', hrep', hwf', hsorted'⟩

theorem Balanced.exec (hbalanced : L.Balanced) (h : L.Sound) (hallow : Flow.orders.Allows cmd)
    (hexec : L.exec cmd = some (L', trades)) : L'.Balanced := by
  obtain ⟨c, hrep, hwf, hsorted⟩ := h
  obtain ⟨hearlier, hown, _⟩ :=
    History.exec_resting hrep hwf hsorted hallow (history_exec hexec)
  intro call
  rw [account_exec hexec]
  split
  · rename_i hcall
    subst hcall
    simp only
    omega
  · rename_i hcall
    have hbefore := hbalanced call
    have hkept := hearlier call hcall
    cases cmd <;> simp only [Account.charge, takenFrom] <;> omega

end Step

theorem empty_sound (capacity : Nat) : (empty capacity).Sound := History.empty_sorted capacity

theorem empty_balanced (capacity : Nat) : (empty capacity).Balanced := fun _ => rfl

/-- A run opens one account for each of its calls and leaves what earlier orders traded
on arrival. -/
theorem runs_accounts {L L' : Ledger} {guard : Ledger → Command → Prop} {cmds : List Command}
    {outs : List (List Trade)} (hruns : Runs exec guard L cmds outs L') :
    L'.history.clock = L.history.clock + cmds.length ∧
      (∀ call < L.history.clock, (L'.account call).accepted = (L.account call).accepted ∧
        (L'.account call).aggressor = (L.account call).aggressor) ∧
      ∀ k cmd trades, cmds[k]? = some cmd → outs[k]? = some trades →
        (L'.account (L.history.clock + k)).accepted = cmd.accepts ∧
          (L'.account (L.history.clock + k)).aggressor = (trades.map Trade.volume).sum := by
  induction hruns with
  | nil L => exact ⟨rfl, fun _ _ => ⟨rfl, rfl⟩, by simp⟩
  | @cons L L₁ L₂ cmd trades cmds outs _ accepted _ ih =>
      obtain ⟨hclock, hearlier, hown⟩ := ih
      have hfirst := account_exec accepted
      rw [clock_exec accepted] at hclock hearlier hown
      refine ⟨?_, fun call hcall => ?_, fun k cmd' trades' hcmd htrades => ?_⟩
      · rw [hclock, List.length_cons]
        omega
      · obtain ⟨haccepted, haggressor⟩ := hearlier call (by omega)
        rw [haccepted, haggressor, hfirst, if_neg (Nat.ne_of_lt hcall)]
        cases cmd <;> exact ⟨rfl, rfl⟩
      · cases k with
        | zero =>
            obtain ⟨haccepted, haggressor⟩ := hearlier L.history.clock (by omega)
            obtain rfl := Option.some.inj hcmd
            obtain rfl := Option.some.inj htrades
            rw [Nat.add_zero, haccepted, haggressor, hfirst, if_pos rfl]
            exact ⟨rfl, rfl⟩
        | succ k =>
            have hlater := hown k cmd' trades' hcmd htrades
            rwa [Nat.add_assoc, Nat.add_comm 1 k] at hlater

section Totals

variable {L L' : Ledger} (h : L.Sound) {trades : List Trade}
include h

theorem placeOrder_total {o : Order} (hexec : L.exec (.placeOrder o) = some (L', trades)) :
    L.history.book.Attributes o trades ∧
      L'.history.totalResting = L.history.totalResting +
        (L'.history.restingOf L.history.clock - (trades.map Trade.volume).sum) := by
  obtain ⟨c, hrep, hwf, hsorted⟩ := h
  have hallow : Flow.orders.Allows (.placeOrder o) := trivial
  have hhistory := history_exec hexec
  obtain ⟨c', hexec', _⟩ := hsorted.next hrep hwf hallow hhistory
  have hattributes := OrderBook.attributes_of_place hrep hwf hexec'
  obtain ⟨_, _, htotal⟩ := History.exec_resting hrep hwf hsorted hallow hhistory
  rw [hattributes.sum_takes] at htotal
  exact ⟨hattributes, by omega⟩

theorem deleteOrder_total {s : Side} {p : Nat} {v level : Int}
    (hexec : L.exec (.deleteOrder s p v) = some (L', trades))
    (hfits : L.history.book.volumeResting s p ≤ int64Max)
    (hlevel : L.history.book.volumeAtPrice p s = some level) :
    L'.history.totalResting = L.history.totalResting - min (max v 0) level := by
  obtain ⟨c, hrep, hwf, hsorted⟩ := h
  have hallow : Flow.orders.Allows (.deleteOrder s p v) := trivial
  have hhistory := history_exec hexec
  obtain ⟨c', hexec', _⟩ := hsorted.next hrep hwf hallow hhistory
  obtain rfl : [] = trades := congrArg Prod.snd (Option.some.inj hexec')
  obtain ⟨_, hown, htotal⟩ := History.exec_resting hrep hwf hsorted hallow hhistory
  have hnone : L'.history.restingOf L.history.clock = 0 := by
    simpa [OrderBook.dropped, Command.accepts] using hown
  have htaken : ((L.history.book.takes [] (.deleteOrder s p v)).map Parcel.volume).sum =
      taken v (c.queue s p) := by
    rw [OrderBook.takes, hrep.chainAt_eq hwf, List.map_map]
    rfl
  have htotalQueue : level = total (c.queue s p) := by
    rw [hrep.volumeAtPrice_eq hwf, hrep.cachedTotal_eq hwf hfits] at hlevel
    rw [← hrep.volumeResting_eq hwf]
    exact (Option.some.inj hlevel).symm
  have hremaining := total_remaining (v := v) (hwf.positive s p)
  have hsplit := total_remaining_add_taken v (c.queue s p)
  have hquantity : total (c.queue s p) - min (max v 0) (total (c.queue s p)) +
      taken v (c.queue s p) = total (c.queue s p) := hremaining ▸ hsplit
  rw [htaken, hnone] at htotal
  rw [htotalQueue]
  omega

theorem gone_of_runs {call : Nat} (hcall : call < L.history.clock) (hgone : ¬ L.history.Rests call)
    {cmds : List Command} {outs : List (List Trade)}
    (hruns : Runs exec (fun _ => Flow.orders.Allows) L cmds outs L') :
    L'.account call = L.account call ∧ ¬ L'.history.Rests call := by
  refine (hruns.invariant (I := fun L₁ => L₁.Sound ∧ call < L₁.history.clock ∧
    L₁.account call = L.account call ∧ ¬ L₁.history.Rests call) ?_ ⟨h, hcall, rfl, hgone⟩).2.2
  rintro L₁ L₂ cmd trades ⟨hsound, hearlier, hsame, hgone⟩ hallow hexec
  obtain ⟨c, hrep, hwf, hsorted⟩ := id hsound
  obtain ⟨hgone', hnothing⟩ := History.exec_gone hrep hwf hsorted hallow (history_exec hexec)
    (Nat.ne_of_lt hearlier) hgone
  refine ⟨hsound.exec hallow hexec, ?_, ?_, hgone'⟩
  · rw [clock_exec hexec]
    omega
  · rw [account_exec hexec, if_neg (Nat.ne_of_lt hearlier), takenFrom, hnothing, hsame]
    cases cmd <;> simp [Account.charge]

end Totals

/-- Volume is conserved. At every point of every run, what a call accepted is what its order
traded on arrival, traded while resting, still rests with, lost to cancellations and deletions,
and dropped. Each placed order changes what rests by the remainder that rests less the volume
traded, with orders that rest; each deletion by as much as its level holds, up to the volume
asked for; and an order that has left the book is never charged again. -/
theorem conserves_volume {capacity : Nat} {L : Ledger} {cmds : List Command}
    {outs : List (List Trade)}
    (hruns : Runs exec (fun _ => Flow.orders.Allows) (empty capacity) cmds outs L) :
    (∀ call cmd trades, cmds[call]? = some cmd → outs[call]? = some trades →
      cmd.accepts = (trades.map Trade.volume).sum + (L.account call).passive +
        L.history.restingOf call + (L.account call).removed + (L.account call).dropped) ∧
    (∀ o L' trades, L.exec (.placeOrder o) = some (L', trades) →
      L.history.book.Attributes o trades ∧
        L'.history.totalResting = L.history.totalResting +
          (L'.history.restingOf cmds.length - (trades.map Trade.volume).sum)) ∧
    (∀ s p v L' trades level, L.exec (.deleteOrder s p v) = some (L', trades) →
      L.history.book.volumeResting s p ≤ int64Max →
      L.history.book.volumeAtPrice p s = some level →
      L'.history.totalResting = L.history.totalResting - min (max v 0) level) ∧
    ∀ call < cmds.length, ¬ L.history.Rests call → ∀ cmds' outs' L',
      Runs exec (fun _ => Flow.orders.Allows) L cmds' outs' L' →
      L'.account call = L.account call ∧ ¬ L'.history.Rests call := by
  obtain ⟨hsound, hbalanced⟩ := hruns.invariant (I := fun L => L.Sound ∧ L.Balanced)
    (fun h hallow hexec => ⟨h.1.exec hallow hexec, h.2.exec h.1 hallow hexec⟩)
    ⟨empty_sound capacity, empty_balanced capacity⟩
  obtain ⟨hclock, _, haccounts⟩ := runs_accounts hruns
  simp only [empty, History.empty, Nat.zero_add] at hclock haccounts
  rw [← hclock]
  refine ⟨fun call cmd trades hcmd htrades => ?_, fun _ _ _ => placeOrder_total hsound,
    fun _ _ _ _ _ _ => deleteOrder_total hsound,
    fun _ hcall hgone _ _ _ => gone_of_runs hsound hcall hgone⟩
  obtain ⟨haccepted, haggressor⟩ := haccounts call cmd trades hcmd htrades
  have hbalance := hbalanced call
  rw [haccepted, haggressor] at hbalance
  exact hbalance

/-- An order of volume 5 that trades 3 while it rests and is then canceled. -/
theorem conserves_volume_canceled : ∃ L, Runs exec (fun _ => Flow.orders.Allows) (empty 4)
      [.placeOrder ⟨1, .ask, 100, 5, .goodTillCanceled⟩,
        .placeOrder ⟨2, .bid, 100, 3, .goodTillCanceled⟩, .cancelOrder 1]
      [[], [⟨2, 1, 100, 3⟩], []] L ∧
    (5 : Int) = 0 + (L.account 0).passive + L.history.restingOf 0 + (L.account 0).removed +
      (L.account 0).dropped ∧ (L.account 0).passive = 3 ∧ (L.account 0).removed = 2 := by
  have hruns : Runs exec (fun _ => Flow.orders.Allows) (empty 4)
      [.placeOrder ⟨1, .ask, 100, 5, .goodTillCanceled⟩,
        .placeOrder ⟨2, .bid, 100, 3, .goodTillCanceled⟩, .cancelOrder 1]
      [[], [⟨2, 1, 100, 3⟩], []] _ :=
    Runs.cons trivial rfl (Runs.cons trivial rfl (Runs.cons trivial rfl (Runs.nil _)))
  exact ⟨_, hruns, (conserves_volume hruns).1 0 _ _ rfl rfl, by decide +kernel, by decide +kernel⟩

end Ledger

end ExchangeEngine
