import ExchangeEngine.ConcurrentQueue.SpscObservers

/-!
How far a call on an `spsc_queue` is from its return, for types that are not trivially
copyable. No step of the other party puts the return off, so a call ends after a number of
its own steps that only depends on the capacity. A `clear` then has discarded everything
that was in the queue when it was called.
-/

namespace ExchangeEngine

open Cyclic Transition

namespace SpscQueue

variable {T : Type}

/-- How many steps a call of the producer takes at most. A range that no queue of the
capacity holds is rejected without being constructed. -/
def ProducerPhase.turnsLeft (N : Capacity) : ProducerPhase T → Nat
  | .idle | .failed => 0
  | .checking _ range => min range.length N.size + 9
  | .loading _ range => min range.length N.size + 8
  | .caching _ range _ => min range.length N.size + 7
  | .rechecking _ range => min range.length N.size + 6
  | .assertingWrite range => range.length + 5
  | .assertingRead range _ => range.length + 4
  | .constructing _ _ rest => rest.length + 3
  | .publishing .. => 2
  | .storing .. => 1

/-- How many steps a call of the consumer takes at most. -/
def ConsumerPhase.turnsLeft (N : Capacity) : ConsumerPhase → Nat
  | .idle | .failed => 0
  | .checking _ => 2 * N.size + 11
  | .loading _ => 2 * N.size + 10
  | .caching .. => 2 * N.size + 9
  | .deciding _ => 2 * N.size + 8
  | .assertingWrite => 7
  | .assertingRead _ => 6
  | .reading _ count => 2 * count + 3
  | .destroying _ count => 2 * count + 4
  | .loadingEnd => N.size + 5
  | .discarding pos writeEnd => (writeEnd - pos).toNat + 4
  | .cachingEnd _ => 3
  | .publishing _ => 2
  | .storing _ => 1

namespace Interleaving

variable {N : Capacity} {type : ElementType} {debug : Bool} {s s' : Interleaving T}
  {rp rc wc : Nat} {unread staged : List T}

/-- The same for either party. -/
def turnsLeft (N : Capacity) (s : Interleaving T) : Party → Nat
  | .producer => s.producer.turnsLeft N
  | .consumer => s.consumer.turnsLeft N

theorem Inv.turnsLeft_le (h : Inv N s rp rc wc unread staged) (party : Party) :
    s.turnsLeft N party ≤ 2 * N.size + 11 := by
  have hproducer := h.producer
  have hconsumer := h.consumer
  have := N.size_pos
  have := N.size_le
  have := h.room
  have := h.rc_le
  have := h.rp_le
  have := h.wc_le
  have := h.length_pushed
  cases party with
  | producer =>
    cases hphase : s.producer <;>
      simp only [turnsLeft, hphase, ProducerPhase.turnsLeft, ProducerOk] at hproducer ⊢
    case constructing range pos rest =>
      obtain ⟨rfl, -, -, hfits⟩ := hproducer
      rw [List.length_append] at hfits
      omega
    all_goals omega
  | consumer =>
    cases hphase : s.consumer <;>
      simp only [turnsLeft, hphase, ConsumerPhase.turnsLeft, ConsumerOk] at hconsumer ⊢
    case discarding pos writeEnd =>
      obtain ⟨-, rfl, p, rfl, htp, -, hpw⟩ := hconsumer
      rw [toNat_sub_cursor htp (by omega)]
      omega
    all_goals omega

theorem turnsLeft_enter (N : Capacity) (debug : Bool) (q : SpscQueue T) (single : Bool)
    (range : List T) : (enter debug q single range).turnsLeft N ≤ range.length + 5 := by
  unfold enter
  split <;> simp [ProducerPhase.turnsLeft]

/-- Each of its steps brings a call of the producer closer to its return. -/
theorem Inv.turnsLeft_producerStep (h : Inv N s rp rc wc unread staged) (debug : Bool) :
    (s.producerStep N debug).turnsLeft N .producer ≤ s.turnsLeft N .producer - 1 := by
  have hok := h.producer
  have hrc := h.rc_le
  have hrp := h.rp_le
  have hlen := h.length_pushed
  have hfree (hlocal : s.queue.writePositionLocal = cursor s.pushed.length)
      (hstaged : staged = []) : (s.queue.freeSlots N).toNat ≤ N.size := by
    subst hstaged
    rw [h.freeSlots hlocal]
    omega
  unfold Interleaving.producerStep turnsLeft
  cases hphase : s.producer with
  | checking single range =>
    rw [hphase] at hok
    obtain ⟨hstaged, hlocal, -⟩ := hok
    have hfree := hfree hlocal hstaged
    have hentered := turnsLeft_enter N debug s.queue single range
    dsimp only
    split
    · simp [ProducerPhase.turnsLeft]
    · refine Nat.le_trans hentered ?_
      simp only [ProducerPhase.turnsLeft]
      omega
  | rechecking single range =>
    rw [hphase] at hok
    obtain ⟨hstaged, hlocal, -⟩ := hok
    have hfree := hfree hlocal hstaged
    have hentered := turnsLeft_enter N debug s.queue single range
    dsimp only
    split
    · refine Nat.le_trans hentered ?_
      simp only [ProducerPhase.turnsLeft]
      omega
    · simp [ProducerPhase.turnsLeft]
  | assertingRead range loaded =>
    dsimp only
    split <;> simp [ProducerPhase.turnsLeft]
  | constructing range pos rest => cases rest <;> simp [ProducerPhase.turnsLeft]
  | _ => simp [ProducerPhase.turnsLeft, hphase]

theorem turnsLeft_afterReadable {oldRead available : Word} (call : Pop)
    (hle : available.toNat ≤ N.size) :
    (afterReadable debug oldRead available call).turnsLeft N ≤ 2 * N.size + 7 := by
  have := N.size_pos
  cases call <;> simp only [afterReadable] <;> repeat' split
  all_goals simp only [ConsumerPhase.turnsLeft]
  all_goals omega

theorem Inv.turnsLeft_consumerStep (h : Inv N s rp rc wc unread staged) (type : ElementType)
    (debug : Bool) :
    (s.consumerStep N type debug).turnsLeft N .consumer ≤ s.turnsLeft N .consumer - 1 := by
  have hok := h.consumer
  have hsize := N.size_le
  have hroom := h.room
  have hrc := h.rc_le
  have hrp := h.rp_le
  have hwc := h.wc_le
  have hlen := h.length_pushed
  unfold Interleaving.consumerStep turnsLeft
  cases hphase : s.consumer with
  | checking call =>
    dsimp only
    split <;> simp [ConsumerPhase.turnsLeft]
  | deciding call =>
    rw [hphase] at hok
    obtain ⟨hlocal, rfl, hle⟩ := hok
    refine turnsLeft_afterReadable call ?_
    rw [hlocal, h.writePositionCache, toNat_sub_cursor hle (by omega)]
    omega
  | assertingRead loaded =>
    dsimp only
    split <;> simp [ConsumerPhase.turnsLeft]
  | reading pos count =>
    cases count with
    | zero => simp [ConsumerPhase.turnsLeft]
    | succ count =>
      dsimp only
      split
      · simp [ConsumerPhase.turnsLeft]
      · simp only [ConsumerPhase.turnsLeft]
        omega
  | destroying pos count =>
    simp only [ConsumerPhase.turnsLeft]
    omega
  | loadingEnd =>
    rw [hphase] at hok
    obtain ⟨hlocal, rfl, hle⟩ := hok
    simp only [ConsumerPhase.turnsLeft]
    rw [hlocal, h.writePosition, toNat_sub_cursor (by omega) (by omega)]
    omega
  | discarding pos writeEnd =>
    rw [hphase] at hok
    obtain ⟨hlocal, rfl, p, rfl, htp, hcp, hpw⟩ := hok
    dsimp only
    split
    · simp [ConsumerPhase.turnsLeft]
    · rename_i hmore
      have hlt : s.taken.length < p := Nat.lt_of_le_of_ne htp fun heq => hmore (heq ▸ rfl)
      split
      · exact Nat.zero_le _
      · simp only [ConsumerPhase.turnsLeft]
        rw [cursor_succ, toNat_sub_cursor (by omega) (by omega), toNat_sub_cursor htp (by omega)]
        omega
  | _ => simp [ConsumerPhase.turnsLeft, hphase]

theorem Sound.idle_of_turnsLeft (h : Sound N s) {party : Party} (hzero : s.turnsLeft N party = 0) :
    s.idle party = true := by
  obtain ⟨hproducer, hconsumer⟩ := h.not_failed
  cases party with
  | producer =>
    cases hphase : s.producer <;>
      simp [turnsLeft, hphase, ProducerPhase.turnsLeft, idle] at hzero hproducer ⊢
  | consumer =>
    cases hphase : s.consumer <;>
      simp [turnsLeft, hphase, ConsumerPhase.turnsLeft, idle] at hzero hconsumer ⊢

/-- A step that starts no call of a party brings it closer to its return if it is its own,
and else leaves it where it is. -/
theorem Inv.turnsLeft_step (h : Inv N s rp rc wc unread staged) {party : Party} {event : Event T}
    {u : Unit} (hother : event.caller ≠ some party)
    (hstep : s.step N type debug event = some (s', u)) :
    s'.turnsLeft N party ≤
      s.turnsLeft N party - if (Move.act event).continues party then 1 else 0 := by
  cases party with
  | producer =>
    rcases h.producer_cases hstep with hcall | ⟨rfl, rfl⟩ | ⟨hown, hkeeps⟩
    · exact absurd hcall hother
    · exact h.turnsLeft_producerStep debug
    · rw [hown, turnsLeft, hkeeps.producer]
      exact Nat.le_refl _
  | consumer =>
    rcases h.consumer_cases hstep with hcall | ⟨rfl, rfl⟩ | ⟨hown, hkeeps⟩
    · exact absurd hcall hother
    · exact h.turnsLeft_consumerStep type debug
    · rw [hown, turnsLeft, hkeeps.consumer]
      exact Nat.le_refl _

/-- Whatever the other party does meanwhile, a call returns within a number of its own
steps that is bounded by the capacity. -/
theorem wait_free {type : ElementWise} {party : Party} {events : List (Event T)}
    {outs : List Unit} (hreached : Reached N type.toElementType debug s)
    (hruns : Runs (step N type.toElementType debug)
      (fun _ event => event.caller ≠ some party) s events outs s')
    (hturns : 2 * N.size + 11 ≤ events.countP fun event => (Move.act event).continues party) :
    s'.idle party = true := by
  have hstep : ∀ {s s' : Interleaving T} {event : Event T} {u : Unit}, Sound N s →
      event.caller ≠ some party → s.step N type.toElementType debug event = some (s', u) →
        Sound N s' ∧ s'.turnsLeft N party ≤
          s.turnsLeft N party - if (Move.act event).continues party then 1 else 0 := by
    rintro s s' event u ⟨_, _, _, _, _, hinv⟩ hother hstep
    exact ⟨hinv.step hstep, hinv.turnsLeft_step hother hstep⟩
  have hsound := hreached.sound
  have hsound' : Sound N s' :=
    hruns.invariant (fun hs hother hs' => (hstep hs hother hs').1) hsound
  have hrank := hruns.ranking (fun s => s.turnsLeft N party)
    (fun event => (Move.act event).continues party) hstep hsound
  obtain ⟨_, _, _, _, _, hinv⟩ := hsound
  have hle := hinv.turnsLeft_le party
  exact hsound'.idle_of_turnsLeft (by omega)

/-- A pop of an empty queue, with a push meanwhile. -/
theorem wait_free_pop : ∃ s : Interleaving Nat,
    Runs (step ⟨0, by decide⟩ ⟨false, false, by decide⟩ false)
      (fun _ event => event.caller ≠ some .consumer) {consumer := .checking .tryDequeue}
      (.tryEmplace 7 :: List.replicate 13 .consumer) (List.replicate 14 ()) s ∧
    s.idle .consumer = true := by
  let type : ElementWise := ⟨⟨false, false, by decide⟩, rfl⟩
  have hrun : ∃ s : Interleaving Nat, Runs (step ⟨0, by decide⟩ type.toElementType false)
      (fun _ event => event.caller ≠ some .consumer) {consumer := .checking .tryDequeue}
      (.tryEmplace 7 :: List.replicate 13 .consumer) (List.replicate 14 ()) s :=
    ⟨_, .of_trace rfl⟩
  obtain ⟨s, hrun⟩ := hrun
  have hreached : Reached ⟨0, by decide⟩ type.toElementType false
      ({consumer := .checking .tryDequeue} : Interleaving Nat) := .of_run [.pop .tryDequeue] rfl
  exact ⟨s, hrun, wait_free hreached hrun (by decide)⟩

/-! ### What a clear discards -/

/-- The consumer is clearing the queue and will have taken `n` elements at least. -/
def Clearing (n : Nat) (s : Interleaving T) : ConsumerPhase → Prop
  | .loadingEnd => n ≤ s.pushed.length
  | .discarding _ writeEnd =>
    ∃ p, writeEnd = cursor p ∧ n ≤ p ∧ s.taken.length ≤ p ∧ p ≤ s.pushed.length
  | .idle | .cachingEnd _ | .publishing _ | .storing _ => n ≤ s.taken.length
  | _ => False

theorem Clearing.keep {n : Nat} (h : Clearing n s s.consumer) (hkeeps : KeepsConsumer s s') :
    Clearing n s' s'.consumer := by
  have hle := hkeeps.le_pushed
  have htaken := hkeeps.taken
  rw [hkeeps.consumer]
  cases hphase : s.consumer with
  | loadingEnd =>
    rw [hphase] at h
    exact Nat.le_trans h hle
  | discarding pos writeEnd =>
    rw [hphase] at h
    obtain ⟨p, hend, hnp, htp, hpw⟩ := h
    exact ⟨p, hend, hnp, htaken ▸ htp, Nat.le_trans hpw hle⟩
  | idle | cachingEnd | publishing | storing =>
    rw [hphase] at h
    show n ≤ s'.taken.length
    rw [htaken]
    exact h
  | _ =>
    rw [hphase] at h
    exact h.elim

/-- Pushed elements are never withdrawn. -/
theorem pushed_grows {event : Event T} {u : Unit}
    (hstep : s.step N type debug event = some (s', u)) : s.pushed <+: s'.pushed := by
  cases event with
  | tryEmplace | tryEmplaceRange =>
    cases hphase : s.producer <;> simp only [Interleaving.step, hphase, reduceCtorEq] at hstep
    obtain ⟨rfl, -⟩ := Prod.mk.inj (Option.some.inj hstep)
    exact List.prefix_refl _
  | pop | clear =>
    cases hphase : s.consumer <;> simp only [Interleaving.step, hphase, reduceCtorEq] at hstep
    obtain ⟨rfl, -⟩ := Prod.mk.inj (Option.some.inj hstep)
    exact List.prefix_refl _
  | producer =>
    obtain ⟨rfl, -⟩ := Prod.mk.inj (Option.some.inj hstep)
    unfold Interleaving.producerStep
    dsimp only
    repeat' split
    case h_11 => exact List.prefix_append _ _
    all_goals exact List.prefix_refl _
  | consumer =>
    obtain ⟨rfl, -⟩ := Prod.mk.inj (Option.some.inj hstep)
    rw [(consumerStep_frame N type debug s).2.1]

theorem Inv.clearing_step {n : Nat} (hinv : Inv N s rp rc wc unread staged)
    (h : Clearing n s s.consumer) (type : ElementType) (debug : Bool) :
    Clearing n (s.consumerStep N type debug) (s.consumerStep N type debug).consumer := by
  have hok := hinv.consumer
  have hsize := N.size_le
  have hroom := hinv.room
  have hrc := hinv.rc_le
  have hrp := hinv.rp_le
  have hlen := hinv.length_pushed
  unfold Interleaving.consumerStep
  cases hphase : s.consumer with
  | idle =>
    rw [hphase] at h
    simp only [hphase]
    exact h
  | loadingEnd =>
    rw [hphase] at h hok
    obtain ⟨-, rfl, -⟩ := hok
    have hle : s.taken.length ≤ s.pushed.length := by omega
    exact ⟨s.pushed.length, hinv.writePosition, h, hle, Nat.le_refl _⟩
  | discarding pos writeEnd =>
    rw [hphase] at h hok
    obtain ⟨-, rfl, -⟩ := hok
    obtain ⟨p, rfl, hnp, htp, hpw⟩ := h
    dsimp only
    split
    · rename_i hdone
      obtain rfl := (cursor_eq_iff htp (by omega)).mp hdone
      exact hnp
    · rename_i hmore
      have hlt : s.taken.length < p := Nat.lt_of_le_of_ne htp fun heq => hmore (heq ▸ rfl)
      obtain ⟨x, rest, -, hcell, -⟩ := hinv.next_unread (by omega)
      rw [hcell]
      exact ⟨p, rfl, hnp, by simpa using hlt, hpw⟩
  | cachingEnd | publishing | storing =>
    rw [hphase] at h
    exact h
  | _ =>
    rw [hphase] at h
    exact h.elim

theorem Inv.clearing {n : Nat} {event : Event T} {u : Unit}
    (hinv : Inv N s rp rc wc unread staged) (h : Clearing n s s.consumer)
    (hother : event.caller ≠ some .consumer) (hstep : s.step N type debug event = some (s', u)) :
    Clearing n s' s'.consumer := by
  rcases hinv.consumer_cases hstep with hcall | ⟨-, rfl⟩ | ⟨-, hkeeps⟩
  · exact absurd hcall hother
  · exact hinv.clearing_step h type debug
  · exact h.keep hkeeps

/-- When a `clear` returns, everything that was in the queue when it was called has been
taken out, whatever the producer has pushed meanwhile, and nothing that was not pushed. -/
theorem clear_discards {type : ElementWise} {s₁ s₂ : Interleaving T} {u : Unit}
    {events : List (Event T)} {outs : List Unit} (hreached : Reached N type.toElementType debug s)
    (hcall : s.step N type.toElementType debug .clear = some (s₁, u))
    (hruns : Runs (step N type.toElementType debug)
      (fun _ event => event.caller ≠ some .consumer) s₁ events outs s₂)
    (hreturned : s₂.idle .consumer = true) : s.pushed <+: s₂.taken ∧ s₂.taken <+: s₂.pushed := by
  have hsound₁ : Sound N s₁ := by
    obtain ⟨_, _, _, _, _, hinv⟩ := hreached.sound
    exact hinv.step hcall
  have hclearing : Clearing s.pushed.length s₁ s₁.consumer := by
    cases hphase : s.consumer <;> simp only [Interleaving.step, hphase, reduceCtorEq] at hcall
    obtain ⟨rfl, -⟩ := Prod.mk.inj (Option.some.inj hcall)
    exact Nat.le_refl _
  have hstep : ∀ {s' s'' : Interleaving T} {event : Event T} {u : Unit},
      (Sound N s' ∧ s.pushed <+: s'.pushed ∧ Clearing s.pushed.length s' s'.consumer) →
      event.caller ≠ some .consumer → s'.step N type.toElementType debug event = some (s'', u) →
      Sound N s'' ∧ s.pushed <+: s''.pushed ∧ Clearing s.pushed.length s'' s''.consumer := by
    rintro s' s'' event u ⟨⟨_, _, _, _, _, hinv⟩, hprefix, hclearing⟩ hother hstep
    exact ⟨hinv.step hstep, hprefix.trans (pushed_grows hstep),
      hinv.clearing hclearing hother hstep⟩
  obtain ⟨⟨_, _, _, _, _, hinv₂⟩, hprefix, hcleared⟩ :=
    hruns.invariant hstep ⟨hsound₁, pushed_grows hcall, hclearing⟩
  rw [idle_consumer.mp hreturned] at hcleared
  have htaken : s₂.taken <+: s₂.pushed := ⟨_, hinv₂.log.symm⟩
  exact ⟨List.prefix_of_prefix_length_le hprefix htaken hcleared, htaken⟩

/-- A push of `8` while `7` is discarded. -/
theorem clear_discards_overlap :
    ∃ s₂ : Interleaving Nat, s₂.pushed = [7, 8] ∧ [7] <+: s₂.taken := by
  let type : ElementWise := ⟨⟨false, false, by decide⟩, rfl⟩
  have hreached : ∃ s : Interleaving Nat, Reached ⟨1, by decide⟩ type.toElementType false s ∧
      s.pushed = [7] ∧ ∃ s₁ s₂ outs,
        s.step ⟨1, by decide⟩ type.toElementType false .clear = some (s₁, ()) ∧
        Runs (step ⟨1, by decide⟩ type.toElementType false)
          (fun _ event => event.caller ≠ some .consumer) s₁
          (.consumer :: .tryEmplace 8 :: List.replicate 5 .producer ++ List.replicate 5 .consumer)
          outs s₂ ∧
        s₂.idle .consumer = true ∧ s₂.pushed = [7, 8] :=
    ⟨_, .of_run (.tryEmplace 7 :: List.replicate 5 .producer) rfl, rfl, _, _, _, rfl, .of_trace rfl,
      by decide +kernel, by decide +kernel⟩
  obtain ⟨s, hreached, hpushed, s₁, s₂, outs, hcall, hruns, hidle, hpushed₂⟩ := hreached
  exact ⟨s₂, hpushed₂, hpushed ▸ (clear_discards hreached hcall hruns hidle).1⟩

end Interleaving

end SpscQueue

end ExchangeEngine
