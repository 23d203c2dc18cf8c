import ExchangeEngine.Engine.ChainInvariants
import ExchangeEngine.Engine.DepthReplay

/-!
A book that only takes level updates, without its slots. What it shows and how it goes on
depends on the orders at each price alone: which slot an order lives in is never seen, and
whether a slot can be had depends on how many orders rest.
-/

namespace ExchangeEngine

open Ladder Fifo Chain Transition

instance : Portion RestingOrder where
  quantity r := r.volume
  reduce r x := {r with volume := r.volume - x}
  quantity_reduce _ _ := rfl

/-- The orders at each price of each side, oldest first. -/
abbrev Orders := Side × Nat → List RestingOrder

/-- What a volume is kept as: one anonymous order, or none. -/
def single (v : Int) : List RestingOrder := if v ≤ 0 then [] else [⟨anonymous, v⟩]

namespace Orders

/-- What a level update does to the orders, if none of them has an id. -/
def apply (m : Orders) : Command → Orders
  | .setLevel s p v => Function.update m (s, p) (single v)
  | .addOrder s p v => Function.update m (s, p) (m (s, p) ++ single v)
  | .deleteOrder s p v => Function.update m (s, p) (remaining v (m (s, p)))
  | _ => m

/-- The call makes an order, and needs a slot for it. -/
def Grows (m : Orders) : Command → Prop
  | .setLevel s p v => 0 < v ∧ m (s, p) = []
  | .addOrder _ _ v => 0 < v
  | _ => False

def Anonymous (m : Orders) : Prop := ∀ k, ∀ r ∈ m k, r.id = anonymous

theorem anonymous_single (v : Int) : ∀ r ∈ single v, r.id = anonymous := by
  intro r hr
  unfold single at hr
  split at hr
  · cases hr
  · rw [List.mem_singleton.mp hr]

theorem Anonymous.update {m : Orders} (h : m.Anonymous) (k : Side × Nat)
    {rs : List RestingOrder} (hrs : ∀ r ∈ rs, r.id = anonymous) :
    Anonymous (Function.update m k rs) := by
  intro j
  by_cases hj : j = k
  · subst hj
    rw [Function.update_self]
    exact hrs
  · rw [Function.update_of_ne hj]
    exact h j

theorem Anonymous.apply {m : Orders} (h : m.Anonymous) (cmd : Command) :
    (m.apply cmd).Anonymous := by
  cases cmd with
  | placeOrder o => exact h
  | cancelOrder id => exact h
  | setLevel s p v => exact h.update (s, p) (anonymous_single v)
  | addOrder s p v =>
    apply h.update (s, p)
    intro r hr
    rcases List.mem_append.mp hr with hr | hr
    · exact h (s, p) r hr
    · exact anonymous_single v r hr
  | deleteOrder s p v =>
    apply h.update (s, p)
    intro r hr
    have hids := map_popped_append_map_remaining RestingOrder.id (fun _ _ => rfl) v (m (s, p))
    have hid : r.id ∈ (m (s, p)).map RestingOrder.id := by
      rw [← hids]
      exact List.mem_append_right _ (List.mem_map_of_mem hr)
    obtain ⟨old, hold, hsame⟩ := List.mem_map.mp hid
    rw [← hsame]
    exact h (s, p) old hold

end Orders

namespace QueueBook

/-- The orders of a book, without their slots. -/
def orders (c : QueueBook) : Orders := fun k => (c.queue k.1 k.2).map Prod.snd

section Exec

variable {c c' : QueueBook} {trades : List Trade} {s : Side} {p : Nat} {v : Int}

theorem orders_update {es : List Entry}
    (h : ∀ t q, c'.queue t q = if t = s ∧ q = p then es else c.queue t q) :
    c'.orders = Function.update c.orders (s, p) (es.map Prod.snd) := by
  funext k
  by_cases hk : k = (s, p)
  · subst hk
    rw [Function.update_self, orders, h, if_pos ⟨rfl, rfl⟩]
  · have hother : ¬ (k.1 = s ∧ k.2 = p) := fun heq => hk (Prod.ext heq.1 heq.2)
    rw [Function.update_of_ne hk, orders, h, if_neg hother]
    rfl

/-- The book does to its orders what the update says. -/
theorem orders_exec (hwf : c.WellFormed) (hanonymous : c.orders.Anonymous) {cmd : Command}
    (hallow : Flow.levels.Allows cmd) (hexec : c.exec cmd = some (c', trades)) :
    c'.orders = c.orders.apply cmd := by
  cases cmd with
  | placeOrder o => exact hallow.elim
  | cancelOrder id => exact hallow.elim
  | addOrder s p v =>
    rcases add_cases (exec_addOrder hexec).1 with ⟨hv, rfl⟩ | ⟨hv, hpush⟩
    · rw [Orders.apply, single, if_pos hv, List.append_nil, Function.update_eq_self]
    · obtain ⟨node, hafter⟩ := queue_push hwf hpush
      rw [orders_update hafter, List.map_append, Orders.apply, single, if_neg (Int.not_le.mpr hv)]
      rfl
  | deleteOrder s p v =>
    cases hexec
    rw [orders_update (queue_drain hwf s p v), Orders.apply, orders,
      remaining_map Prod.snd (fun _ => rfl) (fun _ _ => rfl)]
  | setLevel s p v =>
    obtain ⟨es, hafter, ⟨hv, rfl⟩ | ⟨hv, node, id, rfl, hid⟩⟩ :=
      queue_assign hwf (exec_setLevel hexec).1
    · rw [orders_update hafter, Orders.apply, single, if_pos hv]
      rfl
    · have hanon : id = anonymous := by
        rcases hid with hid | ⟨e, he, rfl⟩
        · exact hid
        · exact hanonymous (s, p) e.2 (List.mem_map_of_mem he)
      rw [orders_update hafter, Orders.apply, single, if_neg (Int.not_le.mpr hv), hanon]
      rfl

theorem grows_orders_iff (c : QueueBook) (cmd : Command) : c.orders.Grows cmd ↔ c.Grows cmd := by
  cases cmd with
  | setLevel s p v => exact and_congr Iff.rfl List.map_eq_nil_iff
  | _ => exact Iff.rfl

theorem nextSlot_of_push {id : Nat} (hpush : c.push s p id v = some c') :
    ∃ node, ObjectPool.nextSlot c.free c.slots c.capacity = some (node, c'.free, c'.slots) := by
  obtain ⟨⟨node, free, slots⟩, hslot, rfl⟩ := Option.map_eq_some_iff.mp hpush
  exact ⟨node, hslot⟩

/-- A slot is only created when every slot there is holds an order. -/
theorem slots_push (hwf' : c'.WellFormed) {id : Nat} (hpush : c.push s p id v = some c') :
    c'.slots ≤ max c.slots c'.restingCount := by
  have hcount := hwf'.restingCount_add_free
  obtain ⟨node, hslot⟩ := nextSlot_of_push hpush
  rcases ObjectPool.nextSlot_cases hslot with ⟨-, hslots⟩ | ⟨-, hfree, -⟩
  · omega
  · rw [hfree, List.length_nil] at hcount
    omega

theorem restingCount_push (hwf : c.WellFormed) (hwf' : c'.WellFormed) {id : Nat}
    (hpush : c.push s p id v = some c') : c'.restingCount = c.restingCount + 1 := by
  have hcount := hwf.restingCount_add_free
  have hcount' := hwf'.restingCount_add_free
  obtain ⟨node, hslot⟩ := nextSlot_of_push hpush
  rcases ObjectPool.nextSlot_cases hslot with ⟨hfree, hslots⟩ | ⟨hfree, hfree', -, -, hslots⟩
  · rw [hfree, List.length_cons] at hcount
    omega
  · rw [hfree, List.length_nil] at hcount
    rw [hfree', List.length_nil] at hcount'
    omega

theorem restingCount_of_grows (hwf : c.WellFormed) (hwf' : c'.WellFormed) {cmd : Command}
    (hgrows : c.orders.Grows cmd) (hexec : c.exec cmd = some (c', trades)) :
    c'.restingCount = c.restingCount + 1 := by
  cases cmd with
  | placeOrder o => exact hgrows.elim
  | cancelOrder id => exact hgrows.elim
  | deleteOrder s p v => exact hgrows.elim
  | addOrder s p v =>
    rcases add_cases (exec_addOrder hexec).1 with ⟨hv, -⟩ | ⟨-, hpush⟩
    · exact absurd hgrows (Int.not_lt.mpr hv)
    · exact restingCount_push hwf hwf' hpush
  | setLevel s p v =>
    have hqueue : c.queue s p = [] := List.map_eq_nil_iff.mp hgrows.2
    rcases assign_cases (exec_setLevel hexec).1 with
      ⟨hv, -⟩ | ⟨-, -, hpush⟩ | ⟨-, e, es, hsome, -⟩
    · exact absurd hgrows.1 (Int.not_lt.mpr hv)
    · exact restingCount_push hwf hwf' hpush
    · rw [hqueue] at hsome
      cases hsome

theorem slots_exec (hwf' : c'.WellFormed) {cmd : Command} (hallow : Flow.levels.Allows cmd)
    (hexec : c.exec cmd = some (c', trades)) : c'.slots ≤ max c.slots c'.restingCount := by
  cases cmd with
  | placeOrder o => exact hallow.elim
  | cancelOrder id => exact hallow.elim
  | addOrder s p v =>
    rcases add_cases (exec_addOrder hexec).1 with ⟨-, rfl⟩ | ⟨-, hpush⟩
    · exact Nat.le_max_left _ _
    · exact slots_push hwf' hpush
  | deleteOrder s p v =>
    cases hexec
    exact Nat.le_max_left _ _
  | setLevel s p v =>
    rcases assign_cases (exec_setLevel hexec).1 with
      ⟨-, rfl⟩ | ⟨-, -, hpush⟩ | ⟨-, e, es, -, rfl⟩
    · exact Nat.le_max_left _ _
    · exact slots_push hwf' hpush
    · exact Nat.le_max_left _ _

end Exec

section SameOrders

variable {c₁ c₂ : QueueBook} (hwf₁ : c₁.WellFormed) (hwf₂ : c₂.WellFormed)
  (h : c₁.orders = c₂.orders)
include hwf₁ hwf₂ h

/-- The orders at each price determine the ladders, but for the slots. -/
theorem mapQueues_eq (s : Side) :
    mapQueues Prod.snd (c₁.side s) = mapQueues Prod.snd (c₂.side s) := by
  apply ((hwf₁.ladder s).mapQueues Prod.snd).eq_of_lookup ((hwf₂.ladder s).mapQueues Prod.snd)
  intro p
  rw [lookup_mapQueues, lookup_mapQueues]
  exact congrFun h (s, p)

theorem restingCount_eq : c₁.restingCount = c₂.restingCount := by
  have hlength : ∀ s, (elements (c₁.side s)).length = (elements (c₂.side s)).length := by
    intro s
    have hsame := congrArg (fun l => (elements l).length) (mapQueues_eq hwf₁ hwf₂ h s)
    simpa only [elements_mapQueues, List.length_map] using hsame
  rw [restingCount, restingCount, hlength, hlength]

end SameOrders

/-- Level updates trade nothing. -/
theorem trades_exec {c c' : QueueBook} {trades : List Trade} {cmd : Command}
    (hallow : Flow.levels.Allows cmd) (hexec : c.exec cmd = some (c', trades)) : trades = [] := by
  cases cmd with
  | placeOrder o => exact hallow.elim
  | cancelOrder id => exact hallow.elim
  | addOrder s p v => exact (exec_addOrder hexec).2
  | deleteOrder s p v => exact (Prod.mk.inj (Option.some.inj hexec)).2.symm
  | setLevel s p v => exact (exec_setLevel hexec).2

end QueueBook

theorem total_map_snd (es : List Entry) : total (es.map Prod.snd) = total es := by
  rw [total, total, List.map_map]
  rfl

/-! ### Books that hold the same orders -/

/-- What can be seen of a book: the levels with their totals, the orders with their prices,
best price first and oldest first within a price, and the answers to the queries. -/
@[ext]
structure View where
  levels : Side → List (Nat × Int)
  orders : Side → List (Nat × RestingOrder)
  bestBid : Option Nat
  bestAsk : Option Nat
  volumeAtPrice : Nat → Side → Option Int

/-- What a book with some ladders of orders looks like. -/
def View.ofLadders (ladder : Side → Rungs Nat RestingOrder) : View where
  levels s := (ladder s).map fun q => (q.1, wrap64 (total q.2))
  orders s := listing (ladder s)
  bestBid := (ladder .bid).head?.map Prod.fst
  bestAsk := (ladder .ask).head?.map Prod.fst
  volumeAtPrice p s := some (wrap64 (total (lookup p (ladder s))))

namespace OrderBook

def view (b : OrderBook) : View where
  levels s := (b.sideLevels s).map fun lvl => (lvl.price, lvl.totalVolume)
  orders s := (b.resting s).map fun x => (x.1, x.2.2)
  bestBid := b.bestBid
  bestAsk := b.bestAsk
  volumeAtPrice := b.volumeAtPrice

/-- The book takes level updates and holds the orders, none of which has an id. -/
def Holds (b : OrderBook) (capacity : Nat) (m : Orders) : Prop :=
  ∃ c, Represents b c ∧ Flow.levels.Sound c ∧ c.capacity = capacity ∧ c.orders = m ∧ m.Anonymous

/-- Level updates, one after another. -/
abbrev Follows (b : OrderBook) (cmds : List Command) (outs : List (List Trade)) (b' : OrderBook) :
    Prop :=
  Runs exec (fun _ => Flow.levels.Allows) b cmds outs b'

/-- Whatever level updates one book takes, the other one takes, and then they look alike. -/
def FollowsAlike (b₁ b₂ : OrderBook) : Prop :=
  ∀ cmds outs,
    (∀ b₁', b₁.Follows cmds outs b₁' → ∃ b₂', b₂.Follows cmds outs b₂' ∧ b₁'.view = b₂'.view) ∧
    ∀ b₂', b₂.Follows cmds outs b₂' → ∃ b₁', b₁.Follows cmds outs b₁' ∧ b₁'.view = b₂'.view

theorem empty_holds (capacity : Nat) : (empty capacity).Holds capacity fun _ => [] :=
  ⟨_, empty_represents capacity, ⟨QueueBook.empty_wellFormed capacity, fun _ _ => rfl⟩, rfl, rfl,
    fun _ _ hr => absurd hr List.not_mem_nil⟩

end OrderBook

/-- What is seen of a book is read off its orders. -/
theorem Represents.view_eq {b : OrderBook} {c : QueueBook} (h : Represents b c)
    (hwf : c.WellFormed) :
    b.view = View.ofLadders fun s => mapQueues Prod.snd (c.side s) := by
  unfold OrderBook.view View.ofLadders
  apply View.ext
  · funext s
    simp only [h.levels s, List.map_map, mapQueues, Function.comp_def, total_map_snd]
    rfl
  · funext s
    simp only [h.resting_eq hwf, listing_mapQueues]
    rfl
  · simp only [h.bestBid_eq, mapQueues, List.head?_map, Option.map_map]
    rfl
  · simp only [h.bestAsk_eq, mapQueues, List.head?_map, Option.map_map]
    rfl
  · funext p s
    simp only [h.volumeAtPrice_eq hwf, lookup_mapQueues, total_map_snd]
    rfl

namespace OrderBook.Holds

theorem restingCount_le {b : OrderBook} {capacity : Nat} {m : Orders} (h : b.Holds capacity m) :
    b.restingCount ≤ min capacity (2 ^ 31) := by
  obtain ⟨c, hrep, hsound, rfl, -, -⟩ := h
  have hwf := hsound.wellFormed
  have hcount := hwf.restingCount_add_free
  have hcap := hwf.slots_le
  have hint := hwf.slots_int
  rw [hrep.restingCount_eq hwf]
  omega

theorem volumeAtPrice_eq {b : OrderBook} {capacity : Nat} {m : Orders} (h : b.Holds capacity m)
    (s : Side) (p : Nat) : b.volumeAtPrice p s = some (wrap64 (total (m (s, p)))) := by
  obtain ⟨c, hrep, hsound, -, rfl, -⟩ := h
  rw [hrep.volumeAtPrice_eq hsound.wellFormed, QueueBook.orders, total_map_snd]
  rfl

section Exec

variable {b b' : OrderBook} {capacity : Nat} {m : Orders} (h : b.Holds capacity m)
  {cmd : Command} (hallow : Flow.levels.Allows cmd)
include h hallow

theorem exec {trades : List Trade} (hexec : b.exec cmd = some (b', trades)) :
    b'.Holds capacity (m.apply cmd) ∧ trades = [] ∧
      b'.pool.nodes.length ≤ max b.pool.nodes.length b'.restingCount := by
  obtain ⟨c, hrep, hsound, rfl, rfl, hanonymous⟩ := h
  obtain ⟨c', hexec', hrep'⟩ := exec_some hrep hsound.wellFormed hallow hexec
  have hsound' := hsound.exec hallow hexec'
  refine ⟨⟨c', hrep', hsound', QueueBook.capacity_exec hexec',
    QueueBook.orders_exec hsound.wellFormed hanonymous hallow hexec', hanonymous.apply cmd⟩,
    QueueBook.trades_exec hallow hexec', ?_⟩
  rw [hrep'.length, hrep.length, hrep'.restingCount_eq hsound'.wellFormed]
  exact QueueBook.slots_exec hsound'.wellFormed hallow hexec'

theorem exec_isSome_iff :
    (b.exec cmd).isSome ↔ (m.Grows cmd → b.restingCount < min capacity (2 ^ 31)) := by
  obtain ⟨c, hrep, hsound, rfl, rfl, hanonymous⟩ := h
  rw [rel_isSome (exec_represents hrep hsound.wellFormed hallow),
    QueueBook.exec_isSome_iff hsound.wellFormed hallow, QueueBook.grows_orders_iff,
    hrep.restingCount_eq hsound.wellFormed]

theorem restingCount_of_grows (hgrows : m.Grows cmd) {trades : List Trade}
    (hexec : b.exec cmd = some (b', trades)) : b'.restingCount = b.restingCount + 1 := by
  obtain ⟨c, hrep, hsound, rfl, rfl, hanonymous⟩ := h
  obtain ⟨c', hexec', hrep'⟩ := exec_some hrep hsound.wellFormed hallow hexec
  have hwf' := (hsound.exec hallow hexec').wellFormed
  rw [hrep'.restingCount_eq hwf', hrep.restingCount_eq hsound.wellFormed]
  exact QueueBook.restingCount_of_grows hsound.wellFormed hwf' hgrows hexec'

end Exec

section Alike

variable {b₁ b₂ : OrderBook} {capacity : Nat} {m : Orders} (h₁ : b₁.Holds capacity m)
  (h₂ : b₂.Holds capacity m)
include h₁ h₂

theorem restingCount_eq : b₁.restingCount = b₂.restingCount := by
  obtain ⟨c₁, hrep₁, hsound₁, -, horders₁, -⟩ := h₁
  obtain ⟨c₂, hrep₂, hsound₂, -, horders₂, -⟩ := h₂
  rw [hrep₁.restingCount_eq hsound₁.wellFormed, hrep₂.restingCount_eq hsound₂.wellFormed]
  exact QueueBook.restingCount_eq hsound₁.wellFormed hsound₂.wellFormed
    (horders₁.trans horders₂.symm)

theorem view_eq : b₁.view = b₂.view := by
  obtain ⟨c₁, hrep₁, hsound₁, -, horders₁, -⟩ := h₁
  obtain ⟨c₂, hrep₂, hsound₂, -, horders₂, -⟩ := h₂
  rw [hrep₁.view_eq hsound₁.wellFormed, hrep₂.view_eq hsound₂.wellFormed]
  apply congrArg View.ofLadders
  funext s
  exact QueueBook.mapQueues_eq hsound₁.wellFormed hsound₂.wellFormed
    (horders₁.trans horders₂.symm) s

/-- A step of the one book is a step of the other. -/
theorem exec_of_exec {cmd : Command} (hallow : Flow.levels.Allows cmd) {b₁' : OrderBook}
    {trades : List Trade} (hexec : b₁.exec cmd = some (b₁', trades)) :
    ∃ b₂', b₂.exec cmd = some (b₂', trades) ∧ b₁'.Holds capacity (m.apply cmd) ∧
      b₂'.Holds capacity (m.apply cmd) := by
  obtain ⟨h₁', rfl, -⟩ := h₁.exec hallow hexec
  have hsome : (b₂.exec cmd).isSome := by
    rw [h₂.exec_isSome_iff hallow, ← restingCount_eq h₁ h₂, ← h₁.exec_isSome_iff hallow, hexec]
    rfl
  obtain ⟨⟨b₂', trades⟩, hexec₂⟩ := Option.isSome_iff_exists.mp hsome
  obtain ⟨h₂', rfl, -⟩ := h₂.exec hallow hexec₂
  exact ⟨b₂', hexec₂, h₁', h₂'⟩

theorem follows {cmds : List Command} {outs : List (List Trade)} {b₁' : OrderBook}
    (hruns : b₁.Follows cmds outs b₁') :
    ∃ b₂', b₂.Follows cmds outs b₂' ∧ b₁'.view = b₂'.view := by
  obtain ⟨b₂', hruns', m', h₁', h₂'⟩ := hruns.simulate OrderBook.exec
    (fun _ => Flow.levels.Allows)
    (fun b₁ b₂ => ∃ m, b₁.Holds capacity m ∧ b₂.Holds capacity m)
    (by
      rintro b₁ b₁' b₂ cmd trades ⟨m, h₁, h₂⟩ hallow hexec
      obtain ⟨b₂', hexec₂, h₁', h₂'⟩ := exec_of_exec h₁ h₂ hallow hexec
      exact ⟨b₂', hallow, hexec₂, _, h₁', h₂'⟩) ⟨m, h₁, h₂⟩
  exact ⟨b₂', hruns', view_eq h₁' h₂'⟩

/-- Books that hold the same orders cannot be told apart by level updates. -/
theorem followsAlike : FollowsAlike b₁ b₂ := by
  refine fun cmds outs => ⟨fun b₁' hruns => follows h₁ h₂ hruns, fun b₂' hruns => ?_⟩
  obtain ⟨b₁', hruns', hview⟩ := follows h₂ h₁ hruns
  exact ⟨b₁', hruns', hview.symm⟩

end Alike

end OrderBook.Holds

end ExchangeEngine
