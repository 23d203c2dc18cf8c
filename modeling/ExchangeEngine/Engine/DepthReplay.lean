import ExchangeEngine.Engine.ChainInvariants
import ExchangeEngine.Engine.Queries

/-!
Level-2 replay. Seen through the queries, a book that only takes level updates is a
map from prices to sizes on each side, whatever orders its levels are made of.
-/

namespace ExchangeEngine

open Ladder Fifo Chain Transition

/-- The size at each price of each side, zero where there is no level. -/
abbrev Depth := Side → ℕ →₀ ℤ

namespace Depth

/-- Replace the size at one price. -/
noncomputable def store (d : Depth) (s : Side) (p : Nat) (size : Int) : Depth :=
  Function.update d s ((d s).update p size)

/-- What a level update does to the sizes. -/
noncomputable def apply (d : Depth) : Command → Depth
  | .setLevel s p v => if 0 < v then d.store s p v else d.store s p 0
  | .addOrder s p v => if 0 < v then d.store s p (d s p + v) else d
  | .deleteOrder s p v => d.store s p (d s p - min (max v 0) (d s p))
  | _ => d

/-- The update adds an order to its price instead of reusing one. -/
def Grows (d : Depth) : Command → Prop
  | .setLevel s p v => 0 < v ∧ d s p = 0
  | .addOrder _ _ v => 0 < v
  | _ => False

/-- The sizes after some updates of an empty book. -/
noncomputable def replay (cmds : List Command) : Depth := cmds.foldl apply 0

/-- The queries of a book answer with the sizes. -/
structure Shows (d : Depth) (b : OrderBook) : Prop where
  positive : ∀ s p, 0 ≤ d s p
  volumes : ∀ s p, b.volumeAtPrice p s = some (d s p)
  bestBid : ∀ p, b.bestBid = some p ↔ IsGreatest {q | 0 < d .bid q} p
  bestAsk : ∀ p, b.bestAsk = some p ↔ IsLeast {q | 0 < d .ask q} p
  noBid : b.bestBid = none ↔ d .bid = 0
  noAsk : b.bestAsk = none ↔ d .ask = 0

theorem store_eq (d : Depth) (s : Side) (p : Nat) (size : Int) (t : Side) (q : Nat) :
    d.store s p size t q = if t = s ∧ q = p then size else d t q := by
  by_cases ht : t = s
  · subst ht
    by_cases hq : q = p <;> simp [store, hq]
  · simp [store, ht]

end Depth

/-- The side and price that a call is addressed to. -/
def Command.Targets (s : Side) (p : Nat) : Command → Prop
  | .setLevel s' p' _ | .addOrder s' p' _ | .deleteOrder s' p' _ => s = s' ∧ p = p'
  | _ => False

namespace QueueBook

/-- The sizes of a queue book. -/
def Sizes (c : QueueBook) (d : Depth) : Prop := ∀ s p, total (c.queue s p) = d s p

section Exec

variable {c c' : QueueBook} {trades : List Trade} {s : Side} {p : Nat} {v : Int}

theorem queue_drain (hwf : c.WellFormed) (s : Side) (p : Nat) (v : Int) (t : Side) (q : Nat) :
    (c.drain s p v).queue t q =
      if t = s ∧ q = p then remaining v (c.queue s p) else c.queue t q :=
  queue_alterQueue (c := c.retire (popped v (c.queue s p))) hwf.ladder s p (remaining v) t q

/-- What an aggregate update leaves at its price. Its order keeps the id of the order whose
slot it takes over. -/
theorem queue_assign (hwf : c.WellFormed) (hassign : c.assign s p v = some c') :
    ∃ es, (∀ t q, c'.queue t q = if t = s ∧ q = p then es else c.queue t q) ∧
      ((v ≤ 0 ∧ es = []) ∨
        (0 < v ∧ ∃ node id, es = [(node, ⟨id, v⟩)] ∧
          (id = anonymous ∨ ∃ e ∈ c.queue s p, e.2.id = id))) := by
  rcases assign_cases hassign with ⟨hv, rfl⟩ | ⟨hv, hqueue, hpush⟩ | ⟨hv, e, es, hqueue, rfl⟩
  · exact ⟨[], queue_alterQueue (c := c.retire (c.queue s p)) hwf.ladder s p fun _ => [],
      Or.inl ⟨hv, rfl⟩⟩
  · obtain ⟨node, hafter⟩ := queue_push hwf hpush
    rw [hqueue] at hafter
    exact ⟨[(node, ⟨anonymous, v⟩)], hafter, Or.inr ⟨hv, node, anonymous, rfl, Or.inl rfl⟩⟩
  · rw [hqueue]
    exact ⟨[(e.1, {e.2 with volume := v})],
      queue_alterQueue hwf.ladder s p fun _ => [(e.1, {e.2 with volume := v})],
      Or.inr ⟨hv, e.1, e.2.id, rfl, Or.inr ⟨e, List.mem_cons_self, rfl⟩⟩⟩

/-- A level update changes the size at its price as it changes the map. -/
theorem Sizes.exec {d : Depth} (hsizes : c.Sizes d) (hwf : c.WellFormed) {cmd : Command}
    (hallow : Flow.levels.Allows cmd) (hexec : c.exec cmd = some (c', trades)) :
    c'.Sizes (d.apply cmd) := by
  intro t q
  have hold := hsizes t q
  cases cmd with
  | placeOrder o => exact hallow.elim
  | cancelOrder id => exact hallow.elim
  | addOrder s p v =>
      have hhere := hsizes s p
      rcases add_cases (exec_addOrder hexec).1 with ⟨hv, rfl⟩ | ⟨hv, hpush⟩
      · rw [Depth.apply, if_neg (Int.not_lt.mpr hv), hold]
      · obtain ⟨node, hafter⟩ := queue_push hwf hpush
        rw [Depth.apply, if_pos hv, Depth.store_eq, hafter]
        split
        · rw [total_append, hhere]
          simp [Portion.quantity]
        · exact hold
  | deleteOrder s p v =>
      have hhere := hsizes s p
      cases hexec
      rw [Depth.apply, Depth.store_eq, queue_drain hwf]
      split
      · rw [total_remaining (hwf.positive s p), hhere]
      · exact hold
  | setLevel s p v =>
      obtain ⟨es, hafter, ⟨hv, rfl⟩ | ⟨hv, node, id, rfl, -⟩⟩ :=
        queue_assign hwf (exec_setLevel hexec).1
      · rw [hafter, Depth.apply, if_neg (Int.not_lt.mpr hv), Depth.store_eq]
        split
        · exact total_nil
        · exact hold
      · rw [hafter, Depth.apply, if_pos hv, Depth.store_eq]
        split
        · simp [Portion.quantity]
        · exact hold

/-- The call makes an order, and needs a slot for it. -/
def Grows (c : QueueBook) : Command → Prop
  | .setLevel s p v => 0 < v ∧ c.queue s p = []
  | .addOrder _ _ v => 0 < v
  | _ => False

/-- A call fails only if it needs a slot and as many orders rest as the pool can hold. -/
theorem exec_isSome_iff (hwf : c.WellFormed) {cmd : Command} (hallow : Flow.levels.Allows cmd) :
    (c.exec cmd).isSome ↔ (c.Grows cmd → c.restingCount < min c.capacity (2 ^ 31)) := by
  cases cmd with
  | placeOrder o => exact hallow.elim
  | cancelOrder id => exact hallow.elim
  | addOrder s p v =>
    rw [exec, Option.isSome_map, add, Grows]
    split
    · rename_i hv
      simp [Int.not_lt.mpr hv]
    · rename_i hv
      rw [hwf.push_isSome_iff]
      simp [Int.not_le.mp hv]
  | deleteOrder s p v => simp [exec, Grows]
  | setLevel s p v =>
    rw [exec, Option.isSome_map, assign, Grows]
    split
    · rename_i hv
      simp [Int.not_lt.mpr hv]
    · rename_i hv
      cases hqueue : c.queue s p with
      | nil =>
        rw [hwf.push_isSome_iff]
        simp [Int.not_le.mp hv]
      | cons e es => simp

/-- An update of the sizes needs a slot exactly if it needs one in the book. -/
theorem Sizes.grows_iff {d : Depth} (hsizes : c.Sizes d) (hwf : c.WellFormed) (cmd : Command) :
    d.Grows cmd ↔ c.Grows cmd := by
  cases cmd with
  | setLevel s p v =>
    refine and_congr Iff.rfl ?_
    rw [← hsizes s p]
    constructor
    · intro hzero
      by_contra hne
      exact absurd (total_pos (hwf.positive s p) hne) (hzero ▸ Int.lt_irrefl 0)
    · intro hnil
      rw [hnil, total_nil]
  | _ => exact Iff.rfl

/-- A level update leaves every other price alone. -/
theorem queue_exec_of_not_targets (hwf : c.WellFormed) {cmd : Command}
    (hallow : Flow.levels.Allows cmd) (hexec : c.exec cmd = some (c', trades)) {t : Side} {q : Nat}
    (hother : ¬ cmd.Targets t q) : c'.queue t q = c.queue t q := by
  cases cmd with
  | placeOrder o => exact hallow.elim
  | cancelOrder id => exact hallow.elim
  | addOrder s p v =>
      rcases add_cases (exec_addOrder hexec).1 with ⟨-, rfl⟩ | ⟨-, hpush⟩
      · rfl
      · obtain ⟨node, hafter⟩ := queue_push hwf hpush
        exact (hafter t q).trans (if_neg hother)
  | deleteOrder s p v =>
      cases hexec
      exact (queue_drain hwf s p v t q).trans (if_neg hother)
  | setLevel s p v =>
      obtain ⟨es, hafter, -⟩ := queue_assign hwf (exec_setLevel hexec).1
      exact (hafter t q).trans (if_neg hother)

end Exec

/-- A price rests on a side exactly if its size is positive. -/
theorem Sizes.rests_iff {c : QueueBook} {d : Depth} (hsizes : c.Sizes d) (hwf : c.WellFormed)
    (s : Side) (p : Nat) : (∃ x ∈ c.resting s, x.1 = p) ↔ 0 < d s p := by
  rw [← hsizes s p]
  constructor
  · rintro ⟨⟨q, e⟩, hx, rfl⟩
    have he := (mem_resting hwf.ladder).mp hx
    exact total_pos (hwf.positive s q) (List.ne_nil_of_mem he)
  · intro hpos
    cases hqueue : c.queue s p with
    | nil =>
        rw [hqueue, total_nil] at hpos
        exact absurd hpos (Int.lt_irrefl 0)
    | cons e es =>
        exact ⟨(p, e), (mem_resting hwf.ladder).mpr (by rw [hqueue]; exact List.mem_cons_self), rfl⟩

theorem Sizes.resting_eq_nil_iff {c : QueueBook} {d : Depth} (hsizes : c.Sizes d)
    (hwf : c.WellFormed) (s : Side) : c.resting s = [] ↔ d s = 0 := by
  constructor
  · intro hnone
    ext p
    have hrests := hsizes.rests_iff hwf s p
    have hlow : 0 ≤ d s p := hsizes s p ▸ total_nonneg (hwf.positive s p)
    rw [hnone] at hrests
    simp only [List.not_mem_nil, false_and, exists_false, false_iff, Int.not_lt] at hrests
    exact Int.le_antisymm hrests hlow
  · intro hzero
    refine List.eq_nil_iff_forall_not_mem.mpr fun x hx => ?_
    have hpos := (hsizes.rests_iff hwf s x.1).mp ⟨x, hx, rfl⟩
    rw [hzero] at hpos
    exact Int.lt_irrefl 0 hpos

end QueueBook

/-- A represented book whose sizes fit in 64 bits shows them. -/
theorem Depth.shows_of_sizes {b : OrderBook} {c : QueueBook} {d : Depth} (hrep : Represents b c)
    (hwf : c.WellFormed) (hsizes : c.Sizes d) (hfits : ∀ s p, d s p ≤ int64Max) : d.Shows b := by
  have hpositive : ∀ s p, 0 ≤ d s p := fun s p => hsizes s p ▸ total_nonneg (hwf.positive s p)
  constructor
  · exact hpositive
  · intro s p
    have hlow := hpositive s p
    rw [hrep.volumeAtPrice_eq hwf, QueueBook.cachedTotal, hsizes s p,
      wrap64_eq (by omega) (hfits s p)]
  · intro p
    rw [hrep.bestBid_eq, QueueBook.head_price_eq_some hwf, hsizes.rests_iff hwf]
    refine and_congr Iff.rfl ⟨fun hbest q hq => ?_, fun hbest x hx => ?_⟩
    · obtain ⟨x, hx, rfl⟩ := (hsizes.rests_iff hwf .bid q).mpr hq
      exact Nat.not_lt.mp (hbest x hx)
    · exact Nat.not_lt.mpr (hbest ((hsizes.rests_iff hwf .bid x.1).mp ⟨x, hx, rfl⟩))
  · intro p
    rw [hrep.bestAsk_eq, QueueBook.head_price_eq_some hwf, hsizes.rests_iff hwf]
    refine and_congr Iff.rfl ⟨fun hbest q hq => ?_, fun hbest x hx => ?_⟩
    · obtain ⟨x, hx, rfl⟩ := (hsizes.rests_iff hwf .ask q).mpr hq
      exact Nat.not_lt.mp (hbest x hx)
    · exact Nat.not_lt.mpr (hbest ((hsizes.rests_iff hwf .ask x.1).mp ⟨x, hx, rfl⟩))
  · rw [hrep.bestBid_eq, QueueBook.head_price_eq_none hwf, hsizes.resting_eq_nil_iff hwf]
  · rw [hrep.bestAsk_eq, QueueBook.head_price_eq_none hwf, hsizes.resting_eq_nil_iff hwf]

namespace OrderBook

/-- The book after some level updates, seen as sizes. -/
theorem sizes_of_runs {capacity : Nat} {b : OrderBook} {cmds : List Command}
    {outs : List (List Trade)}
    (hruns : Runs exec (fun _ => Flow.levels.Allows) (empty capacity) cmds outs b) :
    ∃ c, Represents b c ∧ Flow.levels.Sound c ∧ c.Sizes (Depth.replay cmds) ∧
      c.capacity = capacity := by
  refine hruns.foldl Depth.apply (R := fun b d =>
    ∃ c, Represents b c ∧ Flow.levels.Sound c ∧ c.Sizes d ∧ c.capacity = capacity) ?_
    ⟨_, empty_represents capacity, ⟨QueueBook.empty_wellFormed capacity, fun _ _ => rfl⟩,
      fun _ _ => rfl, rfl⟩
  rintro b b' d cmd trades ⟨c, hrep, hsound, hsizes, rfl⟩ hallow hexec
  obtain ⟨c', hexec', hrep'⟩ := exec_some hrep hsound.wellFormed hallow hexec
  exact ⟨c', hrep', hsound.exec hallow hexec', hsizes.exec hsound.wellFormed hallow hexec',
    QueueBook.capacity_exec hexec'⟩

/-- Replaying level updates refines a map from prices to sizes. A call returns unless it
needs a slot and none is free. After every call the queries answer with the map, only the
addressed price changes, and a price that is set to a positive size is a single order. -/
theorem replays_depth {capacity : Nat} {b : OrderBook} {cmds : List Command}
    {outs : List (List Trade)} {cmd : Command}
    (hruns : Runs exec (fun _ => Flow.levels.Allows) (empty capacity) cmds outs b)
    (hallow : Flow.levels.Allows cmd)
    (hfits : ∀ s p, Depth.replay (cmds ++ [cmd]) s p ≤ int64Max) :
    ((b.exec cmd).isSome ↔
        ((Depth.replay cmds).Grows cmd → b.restingCount < min capacity (2 ^ 31))) ∧
      Depth.replay (cmds ++ [cmd]) = (Depth.replay cmds).apply cmd ∧
      ∀ b' trades, b.exec cmd = some (b', trades) →
        (Depth.replay (cmds ++ [cmd])).Shows b' ∧
        (∀ s p, ¬ cmd.Targets s p →
          b'.volumeAtPrice p s = b.volumeAtPrice p s ∧ b'.chainAt s p = b.chainAt s p) ∧
        ∀ s p v, cmd = .setLevel s p v → 0 < v → (b'.chainAt s p).length = 1 := by
  obtain ⟨c, hrep, hsound, hsizes, hcapacity⟩ := sizes_of_runs hruns
  have hwf := hsound.wellFormed
  have hreplay : Depth.replay (cmds ++ [cmd]) = (Depth.replay cmds).apply cmd :=
    List.foldl_append
  refine ⟨?_, hreplay, ?_⟩
  · rw [rel_isSome (exec_represents hrep hwf hallow), QueueBook.exec_isSome_iff hwf hallow,
      hsizes.grows_iff hwf, hrep.restingCount_eq hwf, hcapacity]
  intro b' trades hexec
  obtain ⟨c', hexec', hrep'⟩ := exec_some hrep hwf hallow hexec
  have hwf' := (hsound.exec hallow hexec').wellFormed
  have hsizes' := hsizes.exec hwf hallow hexec'
  rw [hreplay] at hfits ⊢
  refine ⟨Depth.shows_of_sizes hrep' hwf' hsizes' hfits, fun s p hother => ?_, ?_⟩
  · have hqueue := QueueBook.queue_exec_of_not_targets hwf hallow hexec' hother
    rw [hrep'.volumeAtPrice_eq hwf', hrep.volumeAtPrice_eq hwf, hrep'.chainAt_eq hwf',
      hrep.chainAt_eq hwf, hqueue]
    exact ⟨rfl, rfl⟩
  · rintro s p v rfl hv
    obtain ⟨es, hafter, ⟨hnone, -⟩ | ⟨-, node, id, rfl, -⟩⟩ :=
      QueueBook.queue_assign hwf (QueueBook.exec_setLevel hexec').1
    · exact absurd hv (Int.not_lt.mpr hnone)
    · rw [hrep'.chainAt_eq hwf', hafter, if_pos ⟨rfl, rfl⟩]
      rfl

/-- Two orders at one price are collapsed to an aggregate, and deleting more than that
drains the price. -/
theorem replays_depth_collapse : ∃ b₁ b₂ b₃,
    Runs exec (fun _ => Flow.levels.Allows) (empty 4)
      [.addOrder .bid 100 5, .addOrder .bid 100 6, .addOrder .bid 99 3] [[], [], []] b₁ ∧
    b₁.exec (.setLevel .bid 100 7) = some (b₂, []) ∧
    (b₁.chainAt .bid 100).length = 2 ∧ (b₂.chainAt .bid 100).length = 1 ∧
    b₂.exec (.deleteOrder .bid 100 9) = some (b₃, []) ∧ b₂.volumeAtPrice 100 .bid = some 7 ∧
    b₃.volumeAtPrice 100 .bid = some 0 ∧ b₃.volumeAtPrice 99 .bid = some 3 := by
  have hbefore : ∀ s p, Depth.replay
      ([.addOrder .bid 100 5, .addOrder .bid 100 6, .addOrder .bid 99 3] ++
        [.setLevel .bid 100 7]) s p =
      if s = .bid ∧ p = 100 then 7 else if s = .bid ∧ p = 99 then 3 else 0 := by
    intro s p
    simp [Depth.replay, Depth.apply, Depth.store_eq]
    grind
  have hafter : ∀ s p, Depth.replay
      ([.addOrder .bid 100 5, .addOrder .bid 100 6, .addOrder .bid 99 3, .setLevel .bid 100 7] ++
        [.deleteOrder .bid 100 9]) s p = if s = .bid ∧ p = 99 then 3 else 0 := by
    intro s p
    simp [Depth.replay, Depth.apply, Depth.store_eq]
    grind
  have hruns : Runs exec (fun _ => Flow.levels.Allows) (empty 4)
      [.addOrder .bid 100 5, .addOrder .bid 100 6, .addOrder .bid 99 3] [[], [], []] _ :=
    Runs.cons trivial rfl (Runs.cons trivial rfl (Runs.cons trivial rfl (Runs.nil _)))
  have hset : Flow.levels.Allows (.setLevel .bid 100 7) := show (7 : Int) ≤ int64Max by decide
  have hruns' : Runs exec (fun _ => Flow.levels.Allows) (empty 4)
      [.addOrder .bid 100 5, .addOrder .bid 100 6, .addOrder .bid 99 3, .setLevel .bid 100 7]
      [[], [], [], []] _ := hruns.append (Runs.cons hset rfl (Runs.nil _))
  obtain ⟨-, -, hcollapse⟩ := replays_depth hruns hset fun s p => by
    rw [hbefore]
    split
    · decide
    · split <;> decide
  obtain ⟨hreturns, -, hdrained⟩ := replays_depth hruns'
    (show Flow.levels.Allows (.deleteOrder .bid 100 9) from trivial) fun s p => by
      rw [hafter]
      split <;> decide
  obtain ⟨⟨b₃, trades⟩, hdelete⟩ := Option.isSome_iff_exists.mp (hreturns.mpr (by intro h; cases h))
  obtain ⟨hshown, -, hsingle⟩ := hcollapse _ _ rfl
  obtain ⟨hshows, -, -⟩ := hdrained _ _ hdelete
  have hnone : trades = [] := by cases hdelete; rfl
  refine ⟨_, _, b₃, hruns, rfl, rfl, hsingle .bid 100 7 rfl (by decide), hnone ▸ hdelete,
    ?_, ?_, ?_⟩
  · rw [hshown.volumes, hbefore, if_pos ⟨rfl, rfl⟩]
  · rw [hshows.volumes, hafter, if_neg (by decide)]
  · rw [hshows.volumes, hafter, if_pos ⟨rfl, rfl⟩]

end OrderBook

end ExchangeEngine
