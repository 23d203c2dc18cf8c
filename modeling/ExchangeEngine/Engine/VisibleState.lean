import ExchangeEngine.Engine.ReferenceBook
import ExchangeEngine.Engine.DepthBook

/-!
What a book shows decides all it does. The reference book, given the limits of the code (a
number of slots, and a fill-or-kill check in 64 bits), answers every call as the order book
does, the calls that fail included. So the slots the orders lie in, the free list, the index
and the calls that brought the orders there make no difference to any later call.
-/

namespace ExchangeEngine

open Ladder Fifo Transition

namespace ReferenceBook

/-- The volumes at the prices, with the orders left out. -/
def depth (r : ReferenceBook) : DepthBook :=
  ⟨fun s => Bundle.ofElements BookedOrder.price (r.side s)⟩

/-- Slots are numbered by non-negative 32-bit integers. -/
def restWithin (capacity : Nat) (r : ReferenceBook) (s : Side) (x : BookedOrder) :
    Option ReferenceBook :=
  if r.count < min capacity (2 ^ 31) then some (r.rest s x) else none

def placeWithin (capacity : Nat) (r : ReferenceBook) (o : Order) :
    Option (ReferenceBook × List Trade) :=
  if o.volume ≤ 0 then some (r, [])
  else if o.type = .fillOrKill ∧ DepthBook.canFill o.side o.price o.volume 0
      (r.depth.side (opposed o.side)) = false then some (r, [])
  else
    let hit := r.hit o.side o.price
    let trades := (fills o.volume hit).map fun fill => ⟨o.id, fill.1.id, fill.1.price, fill.2⟩
    let matched :=
      r.setSide (opposed o.side) (remaining o.volume hit ++ r.missed o.side o.price)
    let left := leftover o.volume hit
    if 0 < left ∧ o.type = .goodTillCanceled then
      (matched.restWithin capacity o.side ⟨o.id, o.price, left⟩).map fun r => (r, trades)
    else some (matched, trades)

def addWithin (capacity : Nat) (r : ReferenceBook) (s : Side) (p : Nat) (v : Int) :
    Option ReferenceBook :=
  if v ≤ 0 then some r else r.restWithin capacity s ⟨anonymous, p, v⟩

/-- The calls of order entry under the limits of the code. -/
def execWithin (capacity : Nat) (r : ReferenceBook) :
    Command → Option (ReferenceBook × List Trade)
  | .placeOrder order => r.placeWithin capacity order
  | .cancelOrder id => some (r.cancel id, [])
  | .addOrder side price volume => (r.addWithin capacity side price volume).map fun r => (r, [])
  | .deleteOrder side price volume => some (r.delete side price volume, [])
  | .setLevel .. => none

/-- An identifier that still rests is only placed again when its orders are all filled. -/
def ReplacesFilled (r : ReferenceBook) : Command → Prop
  | .placeOrder o =>
      o.id ≠ anonymous → o.type ≠ .immediateOrCancel → o.type ≠ .fillOrKill →
      total ((r.side (opposed o.side)).filter
        fun x => OrderBook.crosses o.side o.price x.price) < o.volume →
      ∀ s, ∀ x ∈ r.side s, x.id = o.id →
        s = opposed o.side ∧ OrderBook.crosses o.side o.price x.price = true
  | _ => True

end ReferenceBook

namespace Shows

variable {r : ReferenceBook} {c : QueueBook} (h : Shows r c)
include h

theorem depth_aggregates : Aggregates r.depth c := by
  intro s
  calc r.depth.side s
      _ = Bundle.ofElements BookedOrder.price ((c.resting s).map booked) := by
        rw [← h s]
        rfl
      _ = Bundle.ofElements Prod.fst (c.resting s) := by
        rw [Bundle.ofElements, List.map_map]
        rfl

theorem leftover_eq (hwf : c.WellFormed) (s : Side) (price : Nat) (v : Int) :
    leftover v (r.hit s price) =
      QueueBook.sweepLeftover s price v (c.side (opposed s)) := by
  have hladder := hwf.ladder (opposed s)
  rw [QueueBook.sweepLeftover_eq s price hladder.nonempty, h.hit_eq,
    leftover_map booked fun _ => rfl]
  rfl

theorem trades_eq (hwf : c.WellFormed) (id : Nat) (s : Side) (price : Nat) (v : Int) :
    (fills v (r.hit s price)).map (fun fill => ⟨id, fill.1.id, fill.1.price, fill.2⟩) =
      (QueueBook.sweepFills s price v (c.side (opposed s))).map (QueueBook.tradeOf id) := by
  have hladder := hwf.ladder (opposed s)
  rw [QueueBook.sweepFills_eq s price hladder.nonempty, h.hit_eq, fills_map booked fun _ => rfl,
    List.map_map, List.map_map]
  rfl

/-- Both books run out of slots at the same time. -/
theorem restWithin (hwf : c.WellFormed) (s : Side) (p id : Nat) (v : Int) :
    Option.Rel Shows (r.restWithin c.capacity s ⟨id, p, v⟩) (c.push s p id v) := by
  have hroom := hwf.push_isSome_iff s p id v
  rw [← h.count_eq] at hroom
  rw [ReferenceBook.restWithin]
  cases hpush : c.push s p id v with
  | none =>
    rw [hpush] at hroom
    rw [if_neg (hroom.not.mp (by simp))]
    exact Option.Rel.none
  | some c' =>
    rw [hpush] at hroom
    rw [if_pos (hroom.mp rfl)]
    exact Option.Rel.some (h.rest hwf hpush)

theorem placeWithin (hwf : c.WellFormed) (o : Order) :
    Option.Rel (fun x y => Shows x.1 y.1 ∧ x.2 = y.2) (r.placeWithin c.capacity o) (c.place o) := by
  have hcheck := h.depth_aggregates.canFill_eq hwf o.side o.price o.volume (opposed o.side)
  have hkind : o.type = .goodTillCanceled ↔
      o.type ≠ .immediateOrCancel ∧ o.type ≠ .fillOrKill := by
    cases o.type <;> simp
  simp only [ReferenceBook.placeWithin, QueueBook.place, hcheck, h.leftover_eq hwf, hkind,
    h.trades_eq hwf]
  split
  · exact Option.Rel.some ⟨h, rfl⟩
  split
  · exact Option.Rel.some ⟨h, rfl⟩
  have hswept := h.sweep hwf o.side o.price o.volume
  split
  · have hwf' := hwf.sweep o.side o.price o.volume (c.side (opposed o.side))
    have hrest := hswept.restWithin hwf' o.side o.price o.id
      (QueueBook.sweepLeftover o.side o.price o.volume (c.side (opposed o.side)))
    rw [QueueBook.capacity_sweep] at hrest
    apply rel_map _ _ _ hrest
    intro r' c' hshows
    exact ⟨hshows, rfl⟩
  · exact Option.Rel.some ⟨hswept, rfl⟩

/-- One call, whether it fails or not. -/
theorem execWithin (hwf : c.WellFormed) (hcomplete : c.Complete) {cmd : Command}
    (hallow : Flow.orders.Allows cmd) :
    Option.Rel (fun x y => Shows x.1 y.1 ∧ x.2 = y.2) (r.execWithin c.capacity cmd)
      (c.exec cmd) := by
  cases cmd with
  | placeOrder o => exact h.placeWithin hwf o
  | cancelOrder id => exact Option.Rel.some ⟨h.cancel hwf hcomplete id, rfl⟩
  | addOrder s p v =>
    have hadd : Option.Rel Shows (r.addWithin c.capacity s p v) (c.add s p v) := by
      unfold ReferenceBook.addWithin QueueBook.add
      split
      · exact Option.Rel.some h
      · exact h.restWithin hwf s p anonymous v
    apply rel_map _ _ _ hadd
    intro r' c' hshows
    exact ⟨hshows, rfl⟩
  | deleteOrder s p v => exact Option.Rel.some ⟨h.delete hwf s p v, rfl⟩
  | setLevel s p v => exact hallow.elim

end Shows

/-- The order book, read as a reference book. -/
def OrderBook.shown (b : OrderBook) : ReferenceBook := ⟨b.bookedOrders⟩

/-- The calls of order entry, with identifiers only reused for filled orders. -/
def OrderBook.Enters (b : OrderBook) (cmd : Command) : Prop :=
  Flow.orders.Allows cmd ∧ b.ReplacesFilled cmd

theorem OrderBook.replacesFilled_shown (b : OrderBook) (cmd : Command) :
    b.shown.ReplacesFilled cmd ↔ b.ReplacesFilled cmd := by
  cases cmd with
  | placeOrder o =>
    have hvolume : total ((b.shown.side (opposed o.side)).filter
        fun x => OrderBook.crosses o.side o.price x.price) =
          total ((b.resting (opposed o.side)).filter
            fun x => OrderBook.crosses o.side o.price x.1) := by
      have hside : b.shown.side (opposed o.side) = (b.resting (opposed o.side)).map booked := rfl
      rw [hside, List.filter_map, total, List.map_map]
      rfl
    have hreused : (∀ s, ∀ x ∈ b.shown.side s, x.id = o.id →
        s = opposed o.side ∧ OrderBook.crosses o.side o.price x.price = true) ↔
          ∀ s, ∀ x ∈ b.resting s, x.2.2.id = o.id →
            s = opposed o.side ∧ OrderBook.crosses o.side o.price x.1 = true := by
      apply forall_congr'
      intro s
      exact List.forall_mem_map
    rw [ReferenceBook.ReplacesFilled, OrderBook.ReplacesFilled, hvolume, hreused]
  | _ => rfl

/-- What holds between an order book and what it shows. -/
structure OrderBook.Exposes (capacity : Nat) (b : OrderBook) (r : ReferenceBook)
    (c : QueueBook) : Prop where
  represents : Represents b c
  wellFormed : c.WellFormed
  complete : c.Complete
  capacity : c.capacity = capacity
  shows : Shows r c

namespace OrderBook.Exposes

variable {capacity : Nat} {b : OrderBook} {r : ReferenceBook} {c : QueueBook}
  (h : Exposes capacity b r c)
include h

theorem shown_eq : b.shown = r := by
  apply congrArg ReferenceBook.mk
  funext s
  rw [OrderBook.bookedOrders, h.represents.resting_eq h.wellFormed]
  exact (h.shows s).symm

theorem volumeAtPrice_eq (s : Side) (p : Nat) :
    b.volumeAtPrice p s = some (wrap64 (r.volumeAt s p)) := by
  rw [h.represents.volumeAtPrice_eq h.wellFormed, h.shows.volumeAt_eq h.wellFormed]
  rfl

theorem bestBid_eq : b.bestBid = r.bestPrice .bid :=
  h.represents.bestBid_eq.trans (h.shows.bestPrice_eq h.wellFormed .bid).symm

theorem bestAsk_eq : b.bestAsk = r.bestPrice .ask :=
  h.represents.bestAsk_eq.trans (h.shows.bestPrice_eq h.wellFormed .ask).symm

/-- Both books take the call to books that show the same, or both refuse it. -/
theorem step {cmd : Command} (hadmits : b.Enters cmd) :
    Option.Rel (fun x y => (∃ c', Exposes capacity x.1 y.1 c') ∧ x.2 = y.2) (b.exec cmd)
      (r.execWithin capacity cmd) := by
  obtain ⟨hallow, hreplace⟩ := hadmits
  have hsound : Flow.orders.Sound c := ⟨h.wellFormed, by simp⟩
  have hshown := h.shows.execWithin h.wellFormed h.complete hallow
  rw [h.capacity] at hshown
  cases hexec : b.exec cmd with
  | none =>
    have hrel := exec_represents h.represents h.wellFormed hallow
    rw [hexec] at hrel
    cases hqueue : c.exec cmd with
    | none =>
      rw [hqueue] at hshown
      rw [rel_none_right hshown]
      exact Option.Rel.none
    | some y =>
      rw [hqueue] at hrel
      cases hrel
  | some x =>
    obtain ⟨b', trades⟩ := x
    obtain ⟨c', hqueue, hrep⟩ := exec_some h.represents h.wellFormed hallow hexec
    rw [hqueue] at hshown
    obtain ⟨⟨r', trades'⟩, hr, hshows, rfl⟩ := rel_some_right hshown
    rw [hr]
    refine Option.Rel.some ⟨⟨c', ?_⟩, rfl⟩
    exact {
      represents := hrep
      wellFormed := (hsound.exec hallow hqueue).wellFormed
      complete := h.complete.exec h.represents h.wellFormed hallow hreplace hqueue
      capacity := (QueueBook.capacity_exec hqueue).trans h.capacity
      shows := hshows }

end OrderBook.Exposes

namespace OrderBook

/-- Reached by calls of order entry that reuse no resting identifier. -/
abbrev Entered (capacity : Nat) (b : OrderBook) : Prop :=
  Reachable exec Enters (empty capacity) b

variable {capacity : Nat} {b : OrderBook}

theorem Entered.exposes (h : Entered capacity b) : ∃ c, Exposes capacity b b.shown c := by
  have hinit : ∃ r c, Exposes capacity (empty capacity) r c := ⟨ReferenceBook.empty, _, {
    represents := empty_represents capacity
    wellFormed := QueueBook.empty_wellFormed capacity
    complete := fun _ _ _ he => by cases he
    capacity := rfl
    shows := fun _ => rfl }⟩
  obtain ⟨r, c, hexposes⟩ := h.invariant (I := fun b => ∃ r c, Exposes capacity b r c) (by
    rintro b b' cmd trades ⟨r, c, h⟩ hadmits hexec
    have hrel := h.step hadmits
    rw [hexec] at hrel
    obtain ⟨y, -, hnext, -⟩ := rel_some_left hrel
    exact ⟨_, hnext⟩) hinit
  exact ⟨c, hexposes.shown_eq ▸ hexposes⟩

/-- A run of the order book is a run of what it shows. -/
theorem Exposes.run {r : ReferenceBook} {b' : OrderBook} {cmds : List Command}
    {outs : List (List Trade)} (h : ∃ c, Exposes capacity b r c)
    (hruns : Runs exec Enters b cmds outs b') :
    ∃ r', Runs (ReferenceBook.execWithin capacity) ReferenceBook.ReplacesFilled r cmds outs r' ∧
      ∃ c, Exposes capacity b' r' c := by
  apply hruns.simulate _ _ (fun b r => ∃ c, Exposes capacity b r c) _ h
  rintro b b' r cmd trades ⟨c, h⟩ hadmits hexec
  have hrel := h.step hadmits
  rw [hexec] at hrel
  obtain ⟨⟨r', _⟩, hr, hnext, rfl⟩ := rel_some_left hrel
  refine ⟨r', ?_, hr, hnext⟩
  rw [← h.shown_eq, replacesFilled_shown]
  exact hadmits.2

/-- What the shown book can do, the order book does. -/
theorem Exposes.follow {r r' : ReferenceBook} {cmds : List Command}
    {outs : List (List Trade)} (h : ∃ c, Exposes capacity b r c)
    (hruns : Runs (ReferenceBook.execWithin capacity) ReferenceBook.ReplacesFilled r cmds outs r') :
    ∃ b', Runs exec Enters b cmds outs b' ∧ ∃ c, Exposes capacity b' r' c := by
  apply hruns.simulate _ _ (fun r b => ∃ c, Exposes capacity b r c) _ h
  rintro r r' b cmd trades ⟨c, h⟩ hadmits hexec
  have hadmits : b.Enters cmd := by
    constructor
    · cases cmd with
      | setLevel s p v => cases hexec
      | _ => trivial
    · rwa [← replacesFilled_shown, h.shown_eq]
  have hrel := h.step hadmits
  rw [hexec] at hrel
  obtain ⟨⟨b', _⟩, hb, hnext, rfl⟩ := rel_some_right hrel
  exact ⟨b', hadmits, hb, hnext⟩

/-- What a book shows answers every query, and says exactly which later calls succeed, what
they trade and what is shown after them. -/
theorem shown_exact (hentered : Entered capacity b) :
    (∀ s p, b.volumeAtPrice p s = some (wrap64 (b.shown.volumeAt s p))) ∧
    b.bestBid = b.shown.bestPrice .bid ∧ b.bestAsk = b.shown.bestPrice .ask ∧
    ∀ cmds outs r, (∃ b', Runs exec Enters b cmds outs b' ∧ b'.shown = r) ↔
      Runs (ReferenceBook.execWithin capacity) ReferenceBook.ReplacesFilled b.shown
        cmds outs r := by
  obtain ⟨c, h⟩ := hentered.exposes
  refine ⟨h.volumeAtPrice_eq, h.bestBid_eq, h.bestAsk_eq, ?_⟩
  intro cmds outs r
  constructor
  · rintro ⟨b', hruns, rfl⟩
    obtain ⟨r', hshown, c', h'⟩ := Exposes.run ⟨c, h⟩ hruns
    rwa [h'.shown_eq]
  · intro hshown
    obtain ⟨b', hruns, c', h'⟩ := Exposes.follow ⟨c, h⟩ hshown
    exact ⟨b', hruns, h'.shown_eq⟩

/-- The only slot is taken: the book shows that the next order cannot rest. -/
theorem shown_exact_full : ∃ b : OrderBook, b.bestAsk = some 101 ∧
    ¬ ∃ b' outs, Runs exec Enters b [.placeOrder ⟨8, .bid, 100, 2, .goodTillCanceled⟩] outs b' := by
  have hentered : ∃ b, Entered 1 b ∧ b.shown.bestPrice .ask = some 101 ∧
      b.shown.execWithin 1 (.placeOrder ⟨8, .bid, 100, 2, .goodTillCanceled⟩) = none :=
    ⟨_, ⟨[.placeOrder ⟨7, .ask, 101, 3, .goodTillCanceled⟩], _,
      Runs.cons ⟨trivial, fun _ _ _ _ s x hx => by cases s <;> cases hx⟩ rfl (Runs.nil _)⟩,
      by decide +kernel, by decide +kernel⟩
  obtain ⟨b, hentered, hask, hfull⟩ := hentered
  obtain ⟨-, -, hbest, hexact⟩ := shown_exact hentered
  refine ⟨b, hbest.trans hask, ?_⟩
  rintro ⟨b', outs, hruns⟩
  have hshown := (hexact _ _ _).mp ⟨b', hruns, rfl⟩
  cases hshown with
  | cons _ accepted _ =>
    rw [hfull] at accepted
    cases accepted

/-- Two books that show the same go on showing the same: whatever one of them can do, the
other can do with the same trades. -/
theorem no_hidden_state {b₁ b₂ b₁' : OrderBook} (hentered₁ : Entered capacity b₁)
    (hentered₂ : Entered capacity b₂) (hsame : ∀ s, b₁.bookedOrders s = b₂.bookedOrders s)
    {cmds : List Command} {outs : List (List Trade)} (hruns : Runs exec Enters b₁ cmds outs b₁') :
    ∃ b₂', Runs exec Enters b₂ cmds outs b₂' ∧ (∀ s, b₂'.bookedOrders s = b₁'.bookedOrders s) ∧
      (∀ s p, b₂'.volumeAtPrice p s = b₁'.volumeAtPrice p s) ∧
      b₂'.bestBid = b₁'.bestBid ∧ b₂'.bestAsk = b₁'.bestAsk := by
  have hshown : b₁.shown = b₂.shown := congrArg ReferenceBook.mk (funext hsame)
  obtain ⟨r, hvisible, c₁, h₁⟩ := Exposes.run hentered₁.exposes hruns
  rw [hshown] at hvisible
  obtain ⟨b₂', hruns₂, c₂, h₂⟩ := Exposes.follow hentered₂.exposes hvisible
  have hend : b₂'.shown = b₁'.shown := h₂.shown_eq.trans h₁.shown_eq.symm
  refine ⟨b₂', hruns₂, ?_, ?_, ?_, ?_⟩
  · intro s
    exact congrFun (congrArg ReferenceBook.side hend) s
  · intro s p
    rw [h₂.volumeAtPrice_eq, h₁.volumeAtPrice_eq]
  · exact h₂.bestBid_eq.trans h₁.bestBid_eq.symm
  · exact h₂.bestAsk_eq.trans h₁.bestAsk_eq.symm

/-- One book has seen an order that was canceled, and keeps the other in its second slot. -/
theorem no_hidden_state_canceled : ∃ b₁ b₂ : OrderBook,
    b₁.pool.nodes.length = 2 ∧ b₂.pool.nodes.length = 1 ∧
    ∀ b₁' outs, Runs exec Enters b₁ [.placeOrder ⟨9, .bid, 102, 2, .goodTillCanceled⟩] outs b₁' →
      ∃ b₂', Runs exec Enters b₂ [.placeOrder ⟨9, .bid, 102, 2, .goodTillCanceled⟩] outs b₂' ∧
        b₂'.bestAsk = b₁'.bestAsk := by
  have hentered : ∃ b₁ b₂, Entered 4 b₁ ∧ Entered 4 b₂ ∧
      (∀ s, b₁.bookedOrders s = b₂.bookedOrders s) ∧
      b₁.pool.nodes.length = 2 ∧ b₂.pool.nodes.length = 1 :=
    ⟨_, _, ⟨[.placeOrder ⟨7, .ask, 101, 3, .goodTillCanceled⟩,
        .placeOrder ⟨8, .ask, 101, 5, .goodTillCanceled⟩, .cancelOrder 7], _,
      Runs.cons ⟨trivial, fun _ _ _ _ s x hx => by cases s <;> cases hx⟩ rfl (Runs.cons
        ⟨trivial, fun _ _ _ _ s x hx => by cases s <;> revert x hx <;> decide⟩ rfl
        (Runs.cons ⟨trivial, trivial⟩ rfl (Runs.nil _)))⟩,
      ⟨[.placeOrder ⟨8, .ask, 101, 5, .goodTillCanceled⟩], _,
        Runs.cons ⟨trivial, fun _ _ _ _ s x hx => by cases s <;> cases hx⟩ rfl (Runs.nil _)⟩,
      fun s => by cases s <;> decide +kernel, by decide +kernel, by decide +kernel⟩
  obtain ⟨b₁, b₂, hentered₁, hentered₂, hsame, hslots₁, hslots₂⟩ := hentered
  refine ⟨b₁, b₂, hslots₁, hslots₂, ?_⟩
  intro b₁' outs hruns
  obtain ⟨b₂', hruns₂, -, -, -, hask⟩ := no_hidden_state hentered₁ hentered₂ hsame hruns
  exact ⟨b₂', hruns₂, hask⟩

end OrderBook

end ExchangeEngine
