import ExchangeEngine.Engine.ImmediateOrCancel
import ExchangeEngine.Library.Split

/-!
One order in two parts. Placing `v` and then `w` at a price takes from the opposite side
what placing `v + w` takes, wherever the first part ends: matching draws from the crossing
part of the line, and a draw can be continued. On the aggressor's own side the remainders
add up at their price. The parts may need one pool slot more than the whole.
-/

namespace ExchangeEngine

open Ladder Fifo Chain Transition

/-- The slot, the id and the price of a resting order. -/
def hitLabel (x : Nat × Entry) : Int × Nat × Nat := (x.2.1, x.2.2.id, x.1)

theorem reduce_reduce (x : Nat × Entry) (v w : Int) :
    Portion.reduce (Portion.reduce x v) w = Portion.reduce x (v + w) := by
  have hvolume : x.2.2.volume - v - w = x.2.2.volume - (v + w) := by omega
  simp only [Portion.reduce, hvolume]

/-- The crossing part of a line that was drawn from is what is left of it. -/
theorem crossing_drawn (s : Side) (price : Nat) (v : Int) (line : List (Nat × Entry)) :
    crossing s price (remaining v (crossing s price line) ++ beyond s price line) =
        remaining v (crossing s price line) ∧
      beyond s price (remaining v (crossing s price line) ++ beyond s price line) =
        beyond s price line := by
  have hfront : ∀ x ∈ remaining v (crossing s price line),
      OrderBook.crosses s price x.1 = true := by
    intro x hx
    have hprices := map_popped_append_map_remaining Prod.fst (fun _ _ => rfl) v
      (crossing s price line)
    have hprice : x.1 ∈ (crossing s price line).map Prod.fst := by
      rw [← hprices]
      exact List.mem_append_right _ (List.mem_map_of_mem hx)
    obtain ⟨y, hy, hxy⟩ := List.mem_map.mp hprice
    rw [crossing] at hy
    have hcross := List.mem_takeWhile_imp hy
    rwa [hxy] at hcross
  have hback : crossing s price (beyond s price line) = [] ∧
      beyond s price (beyond s price line) = beyond s price line := by
    cases hline : beyond s price line with
    | nil => exact ⟨rfl, rfl⟩
    | cons y ys =>
        have hstop : ¬ OrderBook.crosses s price y.1 = true := by
          have hhead := List.head?_dropWhile_not (fun x => OrderBook.crosses s price x.1) line
          rw [← beyond, hline] at hhead
          simpa using hhead
        exact ⟨List.takeWhile_cons_of_neg hstop, List.dropWhile_cons_of_neg hstop⟩
  constructor
  · rw [crossing, List.takeWhile_append_of_pos hfront, ← crossing, hback.1, List.append_nil]
  · rw [beyond, List.dropWhile_append_of_pos hfront, ← beyond, hback.2]

namespace QueueBook

theorem restingCount_eq_lines (c : QueueBook) (s : Side) :
    c.restingCount = (c.resting s).length + (c.resting (opposed s)).length := by
  cases s <;> simp only [restingCount, resting, length_listing, opposed, Nat.add_comm]

/-- What rests once a volume has been swept. -/
theorem restingCount_sweep {c : QueueBook} (hwf : c.WellFormed) (s : Side) (price : Nat) (v : Int) :
    (sweep s price c v (c.side (opposed s))).restingCount = (c.resting s).length +
      (remaining v (crossing s price (c.resting (opposed s)))).length +
        (beyond s price (c.resting (opposed s))).length := by
  rw [restingCount_eq_lines _ s, resting_sweep_own,
    resting_sweep s price (hwf.ladder (opposed s)).nonempty v rfl, List.length_append,
    ← Nat.add_assoc, ← resting]

theorem length_resting_push {c c' : QueueBook} (hwf : c.WellFormed) {s : Side} {p id : Nat}
    {v : Int} (hpush : c.push s p id v = some c') :
    (c'.resting s).length = (c.resting s).length + 1 := by
  obtain ⟨node, hside, _⟩ := alterQueue_side_push hpush
  obtain ⟨xs, ys, hline, halter, _⟩ := resting_alterQueue hwf.ladder s p
  rw [resting, hside, ← resting, halter, hline]
  simp only [List.length_append, List.length_map, List.length_cons, List.length_nil]
  omega

section Draws

variable {c c' : QueueBook} (hwf : c.WellFormed) {id : Nat} {s : Side} {price : Nat} {v : Int}
  {type : OrderType} {trades : List Trade} (hv : 0 < v) (htype : type ≠ .fillOrKill)
  (hplace : c.place ⟨id, s, price, v, type⟩ = some (c', trades))
include hwf hv htype hplace

/-- Of the opposite side exactly the used-up orders leave the index. -/
theorem place_index (hown : ∀ loc, c.index id = some loc → loc.side ≠ opposed s) (i : Nat)
    (loc : Location) (hloc : loc.side = opposed s) :
    c'.index i = some loc ↔ c.index i = some loc ∧
      ∀ x ∈ popped v (crossing s price (c.resting (opposed s))), x.2.2.id ≠ i := by
  have hswept : (sweep s price c v (c.side (opposed s))).index i = some loc ↔
      c.index i = some loc ∧
        ∀ x ∈ popped v (crossing s price (c.resting (opposed s))), x.2.2.id ≠ i := by
    rw [(retired_sweep s price (hwf.ladder (opposed s)).nonempty v rfl).1, resting]
    by_cases hi : i = anonymous
    · subst hi
      have hnone : c.index anonymous ≠ some loc := fun h => (hwf.indexed _ _ h).1 rfl
      rw [dropIds_anonymous]
      exact ⟨fun h => absurd h hnone, fun h => absurd h.1 hnone⟩
    · rw [dropIds_eq_some hi]
      simp only [List.forall_mem_map]
  rcases place_cases hwf hv htype hplace with ⟨_, _, hpush⟩ | ⟨_, rfl⟩
  · obtain ⟨node, _, hindex⟩ := alterQueue_side_push hpush
    rw [hindex, ← hswept]
    split
    · by_cases hi : i = id
      · subst hi
        rw [Function.update_self, hswept]
        refine ⟨fun h => ?_, fun h => absurd hloc (hown loc h.1)⟩
        rw [← Option.some.inj h] at hloc
        exact absurd hloc.symm (opposed_ne s)
      · rw [Function.update_of_ne hi]
    · rfl
  · exact hswept

/-- The volume at a price of the own side grows by the remainder that rests there. -/
theorem total_queue_place (p : Nat) :
    total (c'.queue s p) = total (c.queue s p) +
      if type = .goodTillCanceled ∧ p = price then max 0 (v - c.crossingVolume s price) else 0 := by
  have hqueue : ∀ p, (sweep s price c v (c.side (opposed s))).queue s p = c.queue s p := by
    intro p
    rw [queue, side_sweep, ← queue]
  rcases place_cases hwf hv htype hplace with ⟨rfl, hshort, hpush⟩ | ⟨hdone, rfl⟩
  · obtain ⟨node, hpushed⟩ := queue_push (hwf.sweep s price v _) hpush
    rw [hpushed, hqueue, hqueue]
    simp only [true_and]
    split
    · rename_i hp
      rw [hp, total_append, total_cons, total_nil, Int.max_eq_right (by omega), Int.add_zero]
      rfl
    · exact (Int.add_zero _).symm
  · rw [hqueue]
    split
    · rename_i hrest
      have hcovered : ¬ c.crossingVolume s price < v := fun hshort => hdone ⟨hrest.1, hshort⟩
      omega
    · exact (Int.add_zero _).symm

/-- One order more rests on the own side when a remainder rests. -/
theorem length_resting_place :
    (c'.resting s).length = (c.resting s).length +
      if type = .goodTillCanceled ∧ c.crossingVolume s price < v then 1 else 0 := by
  rcases place_cases hwf hv htype hplace with ⟨hrest, hshort, hpush⟩ | ⟨hdone, rfl⟩
  · rw [length_resting_push (hwf.sweep s price v _) hpush, resting_sweep_own,
      if_pos ⟨hrest, hshort⟩]
  · rw [resting_sweep_own, if_neg hdone, Nat.add_zero]

end Draws

/-- A volume that exceeds what crosses uses all of it up. -/
theorem remaining_crossing_eq_nil {c : QueueBook} (hwf : c.WellFormed) (s : Side) (price : Nat)
    {v : Int} (hv : 0 < v) (hshort : c.crossingVolume s price < v) :
    remaining v (crossing s price (c.resting (opposed s))) = [] := by
  apply remaining_eq_nil_of_leftover_pos
  rw [leftover_eq (Int.le_of_lt hv) (positive_of_mem_crossing hwf s price), ← crossingVolume]
  omega

/-! ### The second part -/

section Twice

variable {c c₁ c₂ c' : QueueBook} (hwf : c.WellFormed) {id id₁ id₂ : Nat} {s : Side} {price : Nat}
  {v w : Int} {type : OrderType} {trades trades₁ trades₂ : List Trade} (hv : 0 < v) (hw : 0 < w)
  (htype : type ≠ .fillOrKill)
  (hfirst : c.place ⟨id₁, s, price, v, type⟩ = some (c₁, trades₁))
include hwf hv htype hfirst

/-- The second part finds what the first one left of the crossing orders. -/
theorem crossing_place :
    crossing s price (c₁.resting (opposed s)) =
        remaining v (crossing s price (c.resting (opposed s))) ∧
      beyond s price (c₁.resting (opposed s)) = beyond s price (c.resting (opposed s)) := by
  rw [(place_draws_all hwf hv htype hfirst).1]
  exact crossing_drawn s price v (c.resting (opposed s))

theorem crossingVolume_place :
    c₁.crossingVolume s price = max 0 (c.crossingVolume s price - v) := by
  have hpositive := positive_of_mem_crossing hwf s price
  have hnonneg := total_nonneg hpositive
  rw [crossingVolume, (crossing_place hwf hv htype hfirst).1, total_remaining hpositive,
    ← crossingVolume]
  rw [← crossingVolume] at hnonneg
  omega

include hw

section Both

variable (hsecond : c₁.place ⟨id₂, s, price, w, type⟩ = some (c₂, trades₂))
  (hwhole : c.place ⟨id, s, price, v + w, type⟩ = some (c', trades))
include hsecond hwhole

/-- The second part leaves on the opposite side what the whole leaves there. -/
theorem side_place_twice : c₂.side (opposed s) = c'.side (opposed s) := by
  have hwf₁ : c₁.WellFormed := hwf.place hfirst
  have hwf₂ : c₂.WellFormed := hwf₁.place hsecond
  have hwf' : c'.WellFormed := hwf.place hwhole
  obtain ⟨hcrossing, hbeyond⟩ := crossing_place hwf hv htype hfirst
  refine (hwf₂.ladder _).eq_of_listing (hwf'.ladder _) ?_
  rw [← resting, ← resting, (place_draws_all hwf₁ hw htype hsecond).1, hcrossing, hbeyond,
    (place_draws_all hwf (by omega) htype hwhole).1, remaining_remaining hv hw reduce_reduce]

theorem index_place_twice (hnone : c.index id = none) (hnone₁ : c.index id₁ = none)
    (hnone₂ : c.index id₂ = none) (i : Nat) {loc : Location} (hloc : loc.side = opposed s) :
    c₂.index i = some loc ↔ c'.index i = some loc := by
  have hunknown : ∀ {j}, c.index j = none → ∀ loc, c.index j = some loc →
      loc.side ≠ opposed s := by
    intro j hj loc hindex
    rw [hj] at hindex
    cases hindex
  have hone := fun j loc' => place_index hwf hv htype hfirst (hunknown hnone₁) j loc'
  have hown : ∀ loc, c₁.index id₂ = some loc → loc.side ≠ opposed s := by
    intro loc hindex hside
    exact hunknown hnone₂ loc ((hone id₂ loc hside).mp hindex).1 hside
  have hpopped := popped_remaining hv hw (fun x : Nat × Entry => x.2.2.id) (fun _ _ => rfl)
    (crossing s price (c.resting (opposed s)))
  have hgone : (∀ x ∈ popped (v + w) (crossing s price (c.resting (opposed s))), x.2.2.id ≠ i) ↔
      (∀ x ∈ popped v (crossing s price (c.resting (opposed s))), x.2.2.id ≠ i) ∧
        ∀ x ∈ popped w (remaining v (crossing s price (c.resting (opposed s)))),
          x.2.2.id ≠ i := by
    rw [← List.forall_mem_map (P := (· ≠ i)), ← hpopped]
    simp only [List.forall_mem_append, List.forall_mem_map]
  rw [place_index (hwf.place hfirst) hw htype hsecond hown i loc hloc, hone i loc hloc,
    (crossing_place hwf hv htype hfirst).1,
    place_index hwf (by omega) htype hwhole (hunknown hnone) i loc hloc, hgone, and_assoc]

/-- The remainders of the parts add up to the remainder of the whole. -/
theorem total_queue_place_twice (p : Nat) : total (c₂.queue s p) = total (c'.queue s p) := by
  have hnonneg := total_nonneg (positive_of_mem_crossing hwf s price)
  rw [← crossingVolume] at hnonneg
  rw [total_queue_place (hwf.place hfirst) hw htype hsecond, total_queue_place hwf hv htype hfirst,
    total_queue_place hwf (by omega) htype hwhole, crossingVolume_place hwf hv htype hfirst]
  split <;> omega

end Both

/-- The second part finds a slot when the whole leaves one free next to the remainder of
the first part. -/
theorem place_second_isSome_iff (id₂ : Nat) :
    (c₁.place ⟨id₂, s, price, w, type⟩).isSome ↔ type = .immediateOrCancel ∨
      v + w ≤ c.crossingVolume s price ∨
      (sweep s price c (v + w) (c.side (opposed s))).restingCount +
        (if c.crossingVolume s price < v then 1 else 0) < min c.capacity (2 ^ 31) := by
  have hwf₁ : c₁.WellFormed := hwf.place hfirst
  have hcap : c₁.capacity = c.capacity := capacity_place hfirst
  have hline := length_resting_place hwf hv htype hfirst
  have hvolume := crossingVolume_place hwf hv htype hfirst
  obtain ⟨hcrossing, hbeyond⟩ := crossing_place hwf hv htype hfirst
  rw [place_isSome_iff hwf₁ hw htype id₂ s price, restingCount_sweep hwf₁, hcrossing, hbeyond,
    remaining_remaining hv hw reduce_reduce, restingCount_sweep hwf, hcap, hvolume, hline]
  cases type with
  | fillOrKill => exact absurd rfl htype
  | immediateOrCancel => simp
  | goodTillCanceled =>
      simp only [reduceCtorEq, false_or, true_and]
      split <;> omega

end Twice

/-- Both parts return when the whole leaves a slot free for each remainder. -/
theorem place_twice_isSome_iff {c : QueueBook} (hwf : c.WellFormed) (id₁ id₂ : Nat) (s : Side)
    (price : Nat) {v w : Int} {type : OrderType} (hv : 0 < v) (hw : 0 < w)
    (htype : type ≠ .fillOrKill) :
    ((c.place ⟨id₁, s, price, v, type⟩).bind fun x =>
        x.1.place ⟨id₂, s, price, w, type⟩).isSome ↔ type = .immediateOrCancel ∨
      v + w ≤ c.crossingVolume s price ∨
      (sweep s price c (v + w) (c.side (opposed s))).restingCount +
        (if c.crossingVolume s price < v then 1 else 0) < min c.capacity (2 ^ 31) := by
  cases hfirst : c.place ⟨id₁, s, price, v, type⟩ with
  | some x => exact place_second_isSome_iff hwf hv hw htype hfirst id₂
  | none =>
      have hfail := (place_isSome_iff hwf hv htype id₁ s price).not.mp
        (by rw [hfirst]; exact Bool.false_ne_true)
      obtain ⟨himmediate, hfail⟩ := not_or.mp hfail
      obtain ⟨hshort, hfull⟩ := not_or.mp hfail
      have hshort := Int.not_le.mp hshort
      have hsum : 0 < v + w := Int.add_pos hv hw
      rw [restingCount_sweep hwf, remaining_crossing_eq_nil hwf s price hv hshort] at hfull
      rw [restingCount_sweep hwf, remaining_crossing_eq_nil hwf s price hsum (by omega),
        if_pos hshort]
      simp only [Option.bind_none, Option.isSome_none, Bool.false_eq_true, false_iff, himmediate,
        false_or]
      omega

end QueueBook

/-! ### What the parts take -/

namespace OrderBook

/-- What a call of `place_order` on a side hits. Its trades take from the front of the
opposite line, one order after another; an order hit is known by its slot, its id and
the price of the trade. -/
def hits (b : OrderBook) (s : Side) (trades : List Trade) : List ((Int × Nat × Nat) × Int) :=
  ((b.resting (opposed s)).zip trades).map fun x =>
    ((x.1.2.1, x.2.resting, x.2.price), x.2.volume)

/-- The trades name the orders at the front of the opposite line, at their prices. -/
def HitsFront (b : OrderBook) (s : Side) (trades : List Trade) : Prop :=
  trades.length ≤ (b.resting (opposed s)).length ∧
    ∀ x ∈ (b.resting (opposed s)).zip trades, x.2.resting = x.1.2.2.id ∧ x.2.price = x.1.1

/-- From `b` the trades `first` lead to `b₁` and `second` from there to `b₂`; the trades
`whole` lead from `b` to `b'`. They take the same from the opposite side, in the same
order, and leave the same there; on the own side the same volumes rest. -/
structure TakesAlike (b b₁ b₂ b' : OrderBook) (s : Side) (first second whole : List Trade) :
    Prop where
  front : b.HitsFront s first ∧ b₁.HitsFront s second ∧ b.HitsFront s whole
  takes : SameTakes (b.hits s whole) (b.hits s first ++ b₁.hits s second)
  levels : b₂.sideLevels (opposed s) = b'.sideLevels (opposed s)
  resting : b₂.resting (opposed s) = b'.resting (opposed s)
  index : ∀ id loc, loc.side = opposed s → (b₂.index id = some loc ↔ b'.index id = some loc)
  volume : ∀ p, b₂.volumeAtPrice p s = b'.volumeAtPrice p s

end OrderBook

namespace Represents

theorem place_twice_isSome {b : OrderBook} {c : QueueBook} (h : Represents b c) (hwf : c.WellFormed)
    (o₁ o₂ : Order) :
    ((b.placeOrder o₁).bind fun x => x.1.placeOrder o₂).isSome =
      ((c.place o₁).bind fun x => x.1.place o₂).isSome := by
  have hrel := OrderBook.placeOrder_represents h hwf o₁
  cases hfirst : c.place o₁ with
  | none =>
      rw [hfirst] at hrel
      cases hb : b.placeOrder o₁ with
      | none => rfl
      | some x =>
          rw [hb] at hrel
          cases hrel
  | some x =>
      rw [hfirst] at hrel
      obtain ⟨⟨b₁, _⟩, hb, hrep, rfl⟩ := rel_some_right hrel
      rw [hb]
      exact rel_isSome (OrderBook.placeOrder_represents hrep (hwf.place hfirst) o₂)

section Call

variable {b : OrderBook} {c c' : QueueBook} (h : Represents b c) (hwf : c.WellFormed) {id : Nat}
  {s : Side} {price : Nat} {v : Int} {type : OrderType} {trades : List Trade} (hv : 0 < v)
  (htype : type ≠ .fillOrKill) (hplace : c.place ⟨id, s, price, v, type⟩ = some (c', trades))
include h hwf hv htype hplace

theorem zip_trades : (b.resting (opposed s)).zip trades =
    (fills v (crossing s price (c.resting (opposed s)))).map fun x =>
      (x.1, QueueBook.tradeOf id (QueueBook.hitOf x)) := by
  rw [h.resting_eq hwf, (QueueBook.place_draws_all hwf hv htype hplace).2, List.map_map,
    ← zip_fills _ v _ (beyond s price (c.resting (opposed s))), crossing_append_beyond]
  rfl

/-- The hits of a call are its draw from the crossing orders. -/
theorem hits_eq :
    b.hits s trades = labelled hitLabel v (crossing s price (c.resting (opposed s))) := by
  rw [OrderBook.hits, h.zip_trades hwf hv htype hplace, List.map_map]
  rfl

theorem hitsFront : b.HitsFront s trades := by
  refine ⟨?_, fun x hx => ?_⟩
  · have hfills := (map_fst_fills_sublist v (crossing s price (c.resting (opposed s)))).length_le
    have hcrossing := (List.takeWhile_sublist (l := c.resting (opposed s))
      fun x => OrderBook.crosses s price x.1).length_le
    rw [(QueueBook.place_draws_all hwf hv htype hplace).2, h.resting_eq hwf, List.length_map,
      List.length_map]
    rw [List.length_map] at hfills
    exact Nat.le_trans hfills hcrossing
  · rw [h.zip_trades hwf hv htype hplace] at hx
    obtain ⟨y, _, rfl⟩ := List.mem_map.mp hx
    exact ⟨rfl, rfl⟩

end Call

/-- Two parts and the whole, with the queue books they lead to. -/
theorem takesAlike {b b₁ b₂ b' : OrderBook} {c c₁ c₂ c' : QueueBook} (h : Represents b c)
    (h₁ : Represents b₁ c₁) (h₂ : Represents b₂ c₂) (h' : Represents b' c') (hwf : c.WellFormed)
    {id id₁ id₂ : Nat} {s : Side} {price : Nat} {v w : Int} {type : OrderType}
    {first second whole : List Trade} (hv : 0 < v) (hw : 0 < w) (htype : type ≠ .fillOrKill)
    (hfirst : c.place ⟨id₁, s, price, v, type⟩ = some (c₁, first))
    (hsecond : c₁.place ⟨id₂, s, price, w, type⟩ = some (c₂, second))
    (hwhole : c.place ⟨id, s, price, v + w, type⟩ = some (c', whole))
    (hnone : c.index id = none) (hnone₁ : c.index id₁ = none) (hnone₂ : c.index id₂ = none) :
    OrderBook.TakesAlike b b₁ b₂ b' s first second whole := by
  have hwf₁ : c₁.WellFormed := hwf.place hfirst
  have hwf₂ : c₂.WellFormed := hwf₁.place hsecond
  have hwf' : c'.WellFormed := hwf.place hwhole
  have hsum : 0 < v + w := Int.add_pos hv hw
  have hside := QueueBook.side_place_twice hwf hv hw htype hfirst hsecond hwhole
  exact {
    front := ⟨h.hitsFront hwf hv htype hfirst, h₁.hitsFront hwf₁ hw htype hsecond,
      h.hitsFront hwf hsum htype hwhole⟩
    takes := by
      rw [h.hits_eq hwf hsum htype hwhole, h.hits_eq hwf hv htype hfirst,
        h₁.hits_eq hwf₁ hw htype hsecond, (QueueBook.crossing_place hwf hv htype hfirst).1]
      exact (labelled_remaining hv hw hitLabel (fun _ _ => rfl) _).sameTakes
    levels := by rw [h₂.levels, h'.levels, hside]
    resting := by rw [h₂.resting_eq hwf₂, h'.resting_eq hwf', QueueBook.resting, hside,
      QueueBook.resting]
    index := fun i loc hloc => by
      rw [h₂.index, h'.index]
      exact QueueBook.index_place_twice hwf hv hw htype hfirst hsecond hwhole hnone hnone₁
        hnone₂ i hloc
    volume := fun p => by
      rw [h₂.volumeAtPrice_eq hwf₂, h'.volumeAtPrice_eq hwf', QueueBook.cachedTotal,
        QueueBook.cachedTotal,
        QueueBook.total_queue_place_twice hwf hv hw htype hfirst hsecond hwhole] }

end Represents

namespace OrderBook

/-- Splitting an order does not change what it takes: whenever both parts can be placed,
so can the whole, and they agree on the opposite side and in the volumes on the own side.
They can be placed unless a remainder finds the pool full. -/
theorem split_takesAlike {capacity : Nat} {b : OrderBook} (h : Reached .orders capacity b)
    (s : Side) (price idv idw id : Nat) {v w : Int} (hv : 0 < v) (hw : 0 < w) {type : OrderType}
    (htype : type ≠ .fillOrKill)
    (hfresh : ∀ s, ∀ x ∈ b.resting s, x.2.2.id ≠ idv ∧ x.2.2.id ≠ idw ∧ x.2.2.id ≠ id) :
    (∃ b₀ trades, b.placeOrder ⟨id, s, price, v + w, .immediateOrCancel⟩ = some (b₀, trades) ∧
      (((b.placeOrder ⟨idv, s, price, v, type⟩).bind fun x =>
          x.1.placeOrder ⟨idw, s, price, w, type⟩).isSome ↔
        type = .immediateOrCancel ∨ v + w ≤ b.crossingVolume s price ∨
          b₀.restingCount + (if b.crossingVolume s price < v then 1 else 0) <
            min capacity (2 ^ 31))) ∧
    ∀ b₁ first b₂ second, b.placeOrder ⟨idv, s, price, v, type⟩ = some (b₁, first) →
      b₁.placeOrder ⟨idw, s, price, w, type⟩ = some (b₂, second) →
      ∃ b' whole, b.placeOrder ⟨id, s, price, v + w, type⟩ = some (b', whole) ∧
        TakesAlike b b₁ b₂ b' s first second whole := by
  obtain ⟨c, hrep, hsound, hcapacity⟩ := h.represents
  have hwf := hsound.wellFormed
  have hsum : 0 < v + w := Int.add_pos hv hw
  have hreturns := QueueBook.place_twice_isSome_iff hwf idv idw s price hv hw htype
  obtain ⟨b₀, himmediate, hrep₀⟩ := placeOrder_of_queue hrep hwf
    (c.place_immediateOrCancel id s price hsum)
  refine ⟨⟨b₀, _, himmediate, ?_⟩, fun b₁ first b₂ second hfirst hsecond => ?_⟩
  · rw [hrep.place_twice_isSome hwf, hreturns, hrep.crossingVolume_eq hwf,
      hrep₀.restingCount_eq (hwf.sweep s price (v + w) _), hcapacity]
  · obtain ⟨c₁, hfirst', hrep₁⟩ := placeOrder_some hrep hwf hfirst
    have hwf₁ : c₁.WellFormed := hwf.place hfirst'
    obtain ⟨c₂, hsecond', hrep₂⟩ := placeOrder_some hrep₁ hwf₁ hsecond
    have hsome : (c.place ⟨id, s, price, v + w, type⟩).isSome := by
      have hroom := (QueueBook.place_second_isSome_iff hwf hv hw htype hfirst' idw).mp
        (Option.isSome_iff_exists.mpr ⟨_, hsecond'⟩)
      rw [QueueBook.place_isSome_iff hwf hsum htype id s price]
      exact hroom.imp_right fun hroom => hroom.imp_right fun hroom => by omega
    obtain ⟨⟨c', whole⟩, hwhole⟩ := Option.isSome_iff_exists.mp hsome
    obtain ⟨b', hplace, hrep'⟩ := placeOrder_of_queue hrep hwf hwhole
    exact ⟨b', whole, hplace, hrep.takesAlike hrep₁ hrep₂ hrep' hwf hv hw htype hfirst' hsecond'
      hwhole (hrep.index_eq_none hwf fun t x hx => (hfresh t x hx).2.2)
      (hrep.index_eq_none hwf fun t x hx => (hfresh t x hx).1)
      (hrep.index_eq_none hwf fun t x hx => (hfresh t x hx).2.1)⟩

/-- The first part ends inside the second of three resting orders, and the second part,
which starts there, leaves a remainder. -/
theorem split_takesAlike_inside : ∃ b b₁ b₂ b' : OrderBook, Reached .orders 8 b ∧
    TakesAlike b b₁ b₂ b' .bid [⟨7, 1, 101, 3⟩, ⟨7, 2, 101, 1⟩] [⟨8, 2, 101, 3⟩, ⟨8, 3, 102, 2⟩]
      [⟨9, 1, 101, 3⟩, ⟨9, 2, 101, 4⟩, ⟨9, 3, 102, 2⟩] := by
  have hreached : Reached .orders 8 _ :=
    ⟨[.placeOrder ⟨1, .ask, 101, 3, .goodTillCanceled⟩,
      .placeOrder ⟨2, .ask, 101, 4, .goodTillCanceled⟩,
      .placeOrder ⟨3, .ask, 102, 2, .goodTillCanceled⟩], _,
      Runs.cons trivial rfl (Runs.cons trivial rfl (Runs.cons trivial rfl (Runs.nil _)))⟩
  obtain ⟨b', whole, hwhole, halike⟩ := (split_takesAlike hreached .bid 102 7 8 9
    (by decide : (0 : Int) < 4) (by decide : (0 : Int) < 6)
    (by decide : OrderType.goodTillCanceled ≠ .fillOrKill)
    (fun s x hx => by cases s <;> revert x hx <;> decide)).2 _ _ _ _ rfl rfl
  cases hwhole
  exact ⟨_, _, _, _, hreached, halike⟩

/-- With one slot the remainder of the first part leaves none for that of the second. -/
theorem split_takesAlike_of_full_pool_false :
    ¬ ∀ capacity b, Reached .orders capacity b → (∀ s, total (b.resting s) ≤ int64Max) →
      ∀ (s : Side) (price idv idw id : Nat) (v w : Int) (type : OrderType), 0 < v → 0 < w →
        v + w ≤ int64Max → type ≠ .fillOrKill → idv ≠ anonymous → idw ≠ anonymous →
        id ≠ anonymous → idv ≠ idw → idv ≠ id → idw ≠ id →
        (∀ s, ∀ x ∈ b.resting s, x.2.2.id ≠ idv ∧ x.2.2.id ≠ idw ∧ x.2.2.id ≠ id) →
        ∃ b₁ first b₂ second b' whole, b.placeOrder ⟨idv, s, price, v, type⟩ = some (b₁, first) ∧
          b₁.placeOrder ⟨idw, s, price, w, type⟩ = some (b₂, second) ∧
          b.placeOrder ⟨id, s, price, v + w, type⟩ = some (b', whole) ∧
          TakesAlike b b₁ b₂ b' s first second whole := by
  intro hclaim
  obtain ⟨b₁, first, b₂, second, _, _, hfirst, hsecond, -⟩ :=
    hclaim 1 (empty 1) ⟨[], [], Runs.nil _⟩ (fun s => by cases s <;> decide) .bid 100 1 2 3 1 1
      .goodTillCanceled (by decide) (by decide) (by decide) (by decide) (by decide) (by decide)
      (by decide) (by decide) (by decide) (by decide)
      (fun s x hx => by cases s <;> revert x hx <;> decide)
  cases hfirst
  cases hsecond

end OrderBook

end ExchangeEngine
