import ExchangeEngine.Library.Overwrite
import ExchangeEngine.Engine.LevelOrders
import ExchangeEngine.Engine.Resources

/-!
Level updates work on one price of one side each, and leave the other prices alone. So a
stream of them can be taken apart by price and put together again in any way that keeps the
order at each price: the book takes it, and ends up the same.
-/

namespace ExchangeEngine

open Fifo Overwrite Transition

/-- The side and price a level update works on. -/
def Command.level : Command → Option (Side × Nat)
  | .setLevel s p _ => some (s, p)
  | .addOrder s p _ => some (s, p)
  | .deleteOrder s p _ => some (s, p)
  | _ => none

namespace Orders

/-- What a level update makes of the orders at its price. -/
def act : Command → List RestingOrder → List RestingOrder
  | .setLevel _ _ v, _ => single v
  | .addOrder _ _ v, rs => rs ++ single v
  | .deleteOrder _ _ v, rs => remaining v rs
  | _, rs => rs

theorem apply_eq_operate (m : Orders) (cmd : Command) :
    m.apply cmd = operate Command.level act m [cmd] := by
  cases cmd <;> rfl

theorem operate_cons (m : Orders) (cmd : Command) (cmds : List Command) :
    operate Command.level act m (cmd :: cmds) = operate Command.level act (m.apply cmd) cmds := by
  rw [apply_eq_operate]
  rfl

end Orders

namespace OrderBook

variable {capacity : Nat} {b b' : OrderBook} {m : Orders} {cmds : List Command}
  {outs : List (List Trade)}

theorem Reached.holds (h : Reached .levels capacity b) : ∃ m, b.Holds capacity m := by
  apply h.invariant (I := fun b => ∃ m, b.Holds capacity m)
  · rintro b b' cmd trades ⟨m, hholds⟩ hallow hexec
    exact ⟨m.apply cmd, (hholds.exec hallow hexec).1⟩
  · exact ⟨_, empty_holds capacity⟩

/-- After a run each price has what the updates at that price make of it. -/
theorem Holds.run (h : b.Holds capacity m) (hruns : b.Follows cmds outs b') :
    b'.Holds capacity (operate Command.level Orders.act m cmds) := by
  induction hruns generalizing m with
  | nil => exact h
  | cons hallow hexec _ ih =>
    rw [Orders.operate_cons]
    exact ih (h.exec hallow hexec).1

theorem Holds.sound (h : b.Holds capacity m) : ∃ c, Represents b c ∧ Flow.levels.Sound c := by
  obtain ⟨c, hrep, hsound, -⟩ := h
  exact ⟨c, hrep, hsound⟩

/-- With a slot for every order that comes in, all updates are taken. -/
theorem Holds.exists_run (h : b.Holds capacity m) (hallow : ∀ cmd ∈ cmds, Flow.levels.Allows cmd)
    (hroom : b.restingCount + cmds.countP Command.enters ≤ min capacity (2 ^ 31)) :
    ∃ outs b', b.Follows cmds outs b' := by
  induction cmds generalizing b m with
  | nil => exact ⟨[], b, Runs.nil b⟩
  | cons cmd cmds ih =>
    obtain ⟨hcmd, hrest⟩ := List.forall_mem_cons.mp hallow
    rw [List.countP_cons] at hroom
    have henters : m.Grows cmd → cmd.enters = true := by
      cases cmd with
      | setLevel s p v => exact fun hgrows => decide_eq_true hgrows.1
      | addOrder s p v => exact fun hgrows => decide_eq_true hgrows
      | _ => exact False.elim
    have hsome : (b.exec cmd).isSome := by
      apply (h.exec_isSome_iff hcmd).mpr
      intro hgrows
      rw [henters hgrows, if_pos rfl] at hroom
      omega
    obtain ⟨⟨b₁, trades⟩, hexec⟩ := Option.isSome_iff_exists.mp hsome
    obtain ⟨-, hpaid, -⟩ := spends h.sound hcmd hexec
    obtain ⟨outs, b', hruns⟩ := ih (h.exec hcmd hexec).1 hrest (by omega)
    exact ⟨trades :: outs, b', Runs.cons hcmd hexec hruns⟩

theorem level_ne_none {cmd : Command} (hallow : Flow.levels.Allows cmd) : cmd.level ≠ none := by
  cases cmd with
  | placeOrder o => exact hallow.elim
  | cancelOrder id => exact hallow.elim
  | _ => exact Option.some_ne_none _

theorem forall_allows (hruns : b.Follows cmds outs b') : ∀ cmd ∈ cmds, Flow.levels.Allows cmd := by
  induction hruns with
  | nil => simp
  | cons hallow _ _ ih => exact List.forall_mem_cons.mpr ⟨hallow, ih⟩

/-- A stream of level updates that has the same updates in the same order at each price is
taken as well, and leads to a book that cannot be told apart. -/
theorem shards_agree (hreached : Reached .levels capacity b) (hruns : b.Follows cmds outs b')
    {cmds' : List Command} (hallow : ∀ cmd ∈ cmds', Flow.levels.Allows cmd)
    (hsame : ∀ k, (cmds.filter fun cmd => cmd.level = some k) =
      cmds'.filter fun cmd => cmd.level = some k)
    (hroom : b.restingCount + cmds.countP Command.enters ≤ min capacity (2 ^ 31)) :
    ∃ outs' b'', b.Follows cmds' outs' b'' ∧ b'.view = b''.view ∧ FollowsAlike b' b'' := by
  obtain ⟨m, h⟩ := hreached.holds
  have hperm : cmds.Perm cmds' := by
    apply perm_of_filter _ _ hsame
    · exact fun cmd hcmd => level_ne_none (forall_allows hruns cmd hcmd)
    · exact fun cmd hcmd => level_ne_none (hallow cmd hcmd)
  rw [hperm.countP_eq] at hroom
  obtain ⟨outs', b'', hruns'⟩ := h.exists_run hallow hroom
  have h' := h.run hruns
  have h'' := h.run hruns'
  rw [← operate_congr Orders.act m hsame] at h''
  exact ⟨outs', b'', hruns', h'.view_eq h'', h'.followsAlike h''⟩

/-- Two prices of one side, first mixed and then one after the other. -/
theorem shards_agree_twoPrices : ∃ b' b'' : OrderBook, ∃ outs outs',
    (empty 4).Follows [.addOrder .bid 100 5, .setLevel .bid 99 3, .deleteOrder .bid 100 2,
      .addOrder .bid 99 1] outs b' ∧
    (empty 4).Follows [.setLevel .bid 99 3, .addOrder .bid 99 1, .addOrder .bid 100 5,
      .deleteOrder .bid 100 2] outs' b'' ∧ b'.view = b''.view := by
  have hruns : ∃ outs b', (empty 4).Follows [.addOrder .bid 100 5, .setLevel .bid 99 3,
      .deleteOrder .bid 100 2, .addOrder .bid 99 1] outs b' :=
    ⟨_, _, Runs.cons trivial rfl (Runs.cons (by decide : (3 : Int) ≤ int64Max) rfl
      (Runs.cons trivial rfl (Runs.cons trivial rfl (Runs.nil _))))⟩
  obtain ⟨outs, b', hruns⟩ := hruns
  have hsame : ∀ k, ([.addOrder .bid 100 5, .setLevel .bid 99 3, .deleteOrder .bid 100 2,
        .addOrder .bid 99 1] : List Command).filter (fun cmd => cmd.level = some k) =
      ([.setLevel .bid 99 3, .addOrder .bid 99 1, .addOrder .bid 100 5,
        .deleteOrder .bid 100 2] : List Command).filter (fun cmd => cmd.level = some k) := by
    intro k
    by_cases h100 : ((.bid, 100) : Side × Nat) = k
    · subst h100
      decide
    · by_cases h99 : ((.bid, 99) : Side × Nat) = k
      · subst h99
        decide
      · simp [Command.level, h100, h99]
  obtain ⟨outs', b'', hruns', hview, -⟩ := shards_agree (Reachable.init _) hruns
    (by
      intro cmd hcmd
      simp only [List.mem_cons, List.not_mem_nil, or_false] at hcmd
      rcases hcmd with rfl | rfl | rfl | rfl
      · exact (by decide : (3 : Int) ≤ int64Max)
      all_goals trivial) hsame (by decide)
  exact ⟨b', b'', outs, outs', hruns, hruns', hview⟩

end OrderBook

end ExchangeEngine
