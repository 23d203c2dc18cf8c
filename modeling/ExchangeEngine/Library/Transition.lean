import Mathlib.Algebra.Ring.Nat
import Mathlib.Data.List.Basic

/-!
Runs of a partial deterministic machine. A step consumes an input and either
fails or returns the next state with an output; a guard says which inputs a
client may submit in a state. An invariant is proved once for a step and holds
along every run, and a step-by-step simulation carries a whole run, with its
outputs, from one machine to another.
-/

namespace ExchangeEngine.Transition

variable {σ τ ι ο : Type*}

/-- `Runs step guard s inputs outputs s'`: from `s` the inputs are all admitted
and accepted, yield the outputs and lead to `s'`. -/
inductive Runs (step : σ → ι → Option (σ × ο)) (guard : σ → ι → Prop) :
    σ → List ι → List ο → σ → Prop
  | nil (s : σ) : Runs step guard s [] [] s
  | cons {s s' s'' : σ} {i : ι} {o : ο} {is : List ι} {os : List ο} (admitted : guard s i)
      (accepted : step s i = some (s', o)) (rest : Runs step guard s' is os s'') :
      Runs step guard s (i :: is) (o :: os) s''

/-- Reached from `init` by some run. -/
def Reachable (step : σ → ι → Option (σ × ο)) (guard : σ → ι → Prop) (init s : σ) : Prop :=
  ∃ is os, Runs step guard init is os s

variable {step : σ → ι → Option (σ × ο)} {guard : σ → ι → Prop}

theorem Runs.append {s s' s'' : σ} {is js : List ι} {os ps : List ο}
    (h : Runs step guard s is os s') (h' : Runs step guard s' js ps s'') :
    Runs step guard s (is ++ js) (os ++ ps) s'' := by
  induction h with
  | nil => exact h'
  | cons admitted accepted _ ih => exact Runs.cons admitted accepted (ih h')

/-- The inputs of a run determine its outputs and its end. -/
theorem Runs.unique {guard' : σ → ι → Prop} {s t t' : σ} {is : List ι} {os ps : List ο}
    (h : Runs step guard s is os t) (h' : Runs step guard' s is ps t') : os = ps ∧ t = t' := by
  induction h generalizing ps with
  | nil =>
      cases h'
      exact ⟨rfl, rfl⟩
  | cons _ accepted _ ih =>
      cases h' with
      | cons _ accepted' rest' =>
          rw [accepted] at accepted'
          obtain ⟨rfl, rfl⟩ := Prod.mk.inj (Option.some.inj accepted')
          obtain ⟨rfl, rfl⟩ := ih rest'
          exact ⟨rfl, rfl⟩

/-- What one step preserves, a run preserves. -/
theorem Runs.invariant {I : σ → Prop}
    (hstep : ∀ {s s' i o}, I s → guard s i → step s i = some (s', o) → I s')
    {s s' : σ} {is : List ι} {os : List ο} (h : Runs step guard s is os s') (hs : I s) :
    I s' := by
  induction h with
  | nil => exact hs
  | cons admitted accepted _ ih => exact ih (hstep hs admitted accepted)

/-- What each step does to an abstract state, a run does by folding over its inputs. -/
theorem Runs.foldl (f : τ → ι → τ) {R : σ → τ → Prop}
    (hstep : ∀ {s s' t i o}, R s t → guard s i → step s i = some (s', o) → R s' (f t i))
    {s s' : σ} {t : τ} {is : List ι} {os : List ο} (h : Runs step guard s is os s')
    (hR : R s t) : R s' (is.foldl f t) := by
  induction h generalizing t with
  | nil => exact hR
  | cons admitted accepted _ ih => exact ih (hstep hR admitted accepted)

/-- An invariant that depends on how many inputs of a kind were consumed. -/
theorem Runs.counting {I : σ → Nat → Prop} (counts : ι → Bool)
    (hstep : ∀ {s s' i o k}, I s k → guard s i → step s i = some (s', o) →
      I s' (k + if counts i then 1 else 0))
    {s s' : σ} {is : List ι} {os : List ο} (h : Runs step guard s is os s') {k : Nat}
    (hs : I s k) : I s' (k + is.countP counts) := by
  induction h generalizing k with
  | nil => exact hs
  | @cons _ _ _ i _ is _ admitted accepted _ ih =>
      have hrest := ih (hstep hs admitted accepted)
      rwa [Nat.add_assoc, Nat.add_comm _ (is.countP counts), ← List.countP_cons] at hrest

/-- A rank that an input of a kind brings down, and that no other raises. -/
theorem Runs.ranking {I : σ → Prop} (rank : σ → Nat) (counts : ι → Bool)
    (hstep : ∀ {s s' i o}, I s → guard s i → step s i = some (s', o) →
      I s' ∧ rank s' ≤ rank s - if counts i then 1 else 0)
    {s s' : σ} {is : List ι} {os : List ο} (h : Runs step guard s is os s') (hs : I s) :
    rank s' ≤ rank s - is.countP counts := by
  induction h with
  | nil => exact Nat.le_refl _
  | @cons _ _ _ i _ is _ admitted accepted _ ih =>
      obtain ⟨hinv, hrank⟩ := hstep hs admitted accepted
      have hrest := ih hinv
      rw [List.countP_cons]
      omega

/-- What the steps cost is paid for by the inputs of a kind, one unit each, and by the
potential of the state in which the run starts. -/
theorem Runs.amortized {I : σ → Prop} (potential : σ → Nat) (cost : ο → Nat) (pays : ι → Bool)
    (hstep : ∀ {s s' i o}, I s → guard s i → step s i = some (s', o) →
      I s' ∧ cost o + potential s' ≤ potential s + if pays i then 1 else 0)
    {s s' : σ} {is : List ι} {os : List ο} (h : Runs step guard s is os s') (hs : I s) :
    (os.map cost).sum + potential s' ≤ potential s + is.countP pays := by
  induction h with
  | nil => simp
  | @cons _ _ _ i _ is _ admitted accepted _ ih =>
      obtain ⟨hinv, hpaid⟩ := hstep hs admitted accepted
      have hrest := ih hinv
      rw [List.map_cons, List.sum_cons, List.countP_cons]
      omega

/-- The largest size of a state on the way. -/
def peak (step : σ → ι → Option (σ × ο)) (size : σ → Nat) (s : σ) : List ι → Nat
  | [] => size s
  | i :: is =>
    match step s i with
    | some (s', _) => max (size s) (peak step size s' is)
    | none => size s

theorem le_peak (step : σ → ι → Option (σ × ο)) (size : σ → Nat) (s : σ) (is : List ι) :
    size s ≤ peak step size s is := by
  cases is with
  | nil => exact Nat.le_refl _
  | cons i is =>
      rw [peak]
      split
      · exact Nat.le_max_left _ _
      · exact Nat.le_refl _

/-- What each step raises to the size, a run raises to the peak. -/
theorem Runs.high_water {I : σ → Prop} (room size : σ → Nat)
    (hstep : ∀ {s s' i o}, I s → guard s i → step s i = some (s', o) →
      I s' ∧ room s' = max (room s) (size s'))
    {s s' : σ} {is : List ι} {os : List ο} (h : Runs step guard s is os s') (hs : I s)
    (hsize : size s ≤ room s) : room s' = max (room s) (peak step size s is) := by
  induction h with
  | nil => exact (Nat.max_eq_left hsize).symm
  | @cons s s₁ _ i o is _ admitted accepted _ ih =>
      obtain ⟨hinv, hroom⟩ := hstep hs admitted accepted
      have hrest := ih hinv (hroom ▸ Nat.le_max_right _ _)
      have hle := le_peak step size s₁ is
      rw [hrest, hroom, peak, accepted]
      dsimp only
      omega

/-- What holds of the output of every step from an invariant state holds of all
outputs of a run. -/
theorem Runs.forall_outputs {I : σ → Prop} {good : ο → Prop}
    (hstep : ∀ {s s' i o}, I s → guard s i → step s i = some (s', o) → I s' ∧ good o)
    {s s' : σ} {is : List ι} {os : List ο} (h : Runs step guard s is os s') (hs : I s) :
    ∀ o ∈ os, good o := by
  induction h with
  | nil => simp
  | cons admitted accepted _ ih =>
      obtain ⟨hinv, hgood⟩ := hstep hs admitted accepted
      intro o ho
      rcases List.mem_cons.mp ho with rfl | ho
      · exact hgood
      · exact ih hinv o ho

/-- A simulation of single steps simulates runs, with the inputs and outputs translated. -/
theorem Runs.translate {ι' ο' : Type*} (step' : τ → ι' → Option (τ × ο')) (guard' : τ → ι' → Prop)
    (f : ι → ι') (g : ο → ο') (R : σ → τ → Prop)
    (hstep : ∀ {s s' t i o}, R s t → guard s i → step s i = some (s', o) →
      ∃ t', guard' t (f i) ∧ step' t (f i) = some (t', g o) ∧ R s' t')
    {s s' : σ} {t : τ} {is : List ι} {os : List ο} (h : Runs step guard s is os s')
    (hR : R s t) : ∃ t', Runs step' guard' t (is.map f) (os.map g) t' ∧ R s' t' := by
  induction h generalizing t with
  | nil s => exact ⟨t, Runs.nil t, hR⟩
  | cons admitted accepted _ ih =>
      obtain ⟨t₁, hadmitted, haccepted, hR₁⟩ := hstep hR admitted accepted
      obtain ⟨t₂, hruns, hR₂⟩ := ih hR₁
      exact ⟨t₂, Runs.cons hadmitted haccepted hruns, hR₂⟩

/-- The same with the inputs and outputs unchanged. -/
theorem Runs.simulate (step' : τ → ι → Option (τ × ο)) (guard' : τ → ι → Prop)
    (R : σ → τ → Prop)
    (hstep : ∀ {s s' t i o}, R s t → guard s i → step s i = some (s', o) →
      ∃ t', guard' t i ∧ step' t i = some (t', o) ∧ R s' t')
    {s s' : σ} {t : τ} {is : List ι} {os : List ο} (h : Runs step guard s is os s')
    (hR : R s t) : ∃ t', Runs step' guard' t is os t' ∧ R s' t' := by
  have htranslated := h.translate step' guard' id id R hstep hR
  rwa [List.map_id, List.map_id] at htranslated

/-! ### Results that correspond -/

section Results

variable {α β γ δ : Type*} {ρ : α → β → Prop}

theorem rel_map {τ : γ → δ → Prop} {x : Option α} {y : Option β} (f : α → γ) (g : β → δ)
    (hf : ∀ a b, ρ a b → τ (f a) (g b)) (h : Option.Rel ρ x y) :
    Option.Rel τ (x.map f) (y.map g) := by
  cases h with
  | some hab => exact Option.Rel.some (hf _ _ hab)
  | none => exact Option.Rel.none

theorem rel_some_left {x : α} {y : Option β} (h : Option.Rel ρ (some x) y) :
    ∃ y', y = some y' ∧ ρ x y' := by
  cases h with
  | some hxy => exact ⟨_, rfl, hxy⟩

theorem rel_some_right {x : Option α} {y : β} (h : Option.Rel ρ x (some y)) :
    ∃ x', x = some x' ∧ ρ x' y := by
  cases h with
  | some hxy => exact ⟨_, rfl, hxy⟩

theorem rel_none_right {x : Option α} (h : Option.Rel ρ x (none : Option β)) : x = none := by
  cases h with
  | none => rfl

theorem rel_isSome {x : Option α} {y : Option β} (h : Option.Rel ρ x y) :
    x.isSome = y.isSome := by
  cases h <;> rfl

end Results

theorem Reachable.init (init : σ) : Reachable step guard init init :=
  ⟨[], [], Runs.nil init⟩

theorem Reachable.next {init s s' : σ} {i : ι} {o : ο} (h : Reachable step guard init s)
    (admitted : guard s i) (accepted : step s i = some (s', o)) :
    Reachable step guard init s' := by
  obtain ⟨is, os, hruns⟩ := h
  exact ⟨_, _, hruns.append (Runs.cons admitted accepted (Runs.nil s'))⟩

/-- Where a list of inputs leads, if all are accepted. -/
def run (step : σ → ι → Option (σ × ο)) (s : σ) : List ι → Option σ
  | [] => some s
  | i :: is => (step s i).bind fun (s', _) => run step s' is

/-- A step that is taken only if the guard admits it. -/
def guarded (step : σ → ι → Option (σ × ο)) (guard : σ → ι → Prop)
    [∀ s i, Decidable (guard s i)] (s : σ) (i : ι) : Option (σ × ο) :=
  if guard s i then step s i else none

theorem Reachable.of_guarded [∀ s i, Decidable (guard s i)] {s s' : σ} (is : List ι)
    (h : run (guarded step guard) s is = some s') : Reachable step guard s s' := by
  induction is generalizing s with
  | nil =>
      obtain rfl := Option.some.inj h
      exact Reachable.init s
  | cons i is ih =>
      obtain ⟨⟨s₁, o⟩, haccepted, hrest⟩ := Option.bind_eq_some_iff.mp h
      obtain ⟨hadmitted, haccepted⟩ := Option.ite_none_right_eq_some.mp haccepted
      obtain ⟨js, os, hruns⟩ := ih hrest
      exact ⟨i :: js, o :: os, Runs.cons hadmitted haccepted hruns⟩

theorem Reachable.of_run {s s' : σ} (is : List ι) (h : run step s is = some s') :
    Reachable step (fun _ _ => True) s s' := by
  have hstep : guarded step (fun _ _ => True) = step := by
    funext s i
    exact if_pos trivial
  exact of_guarded is (hstep.symm ▸ h)

/-- The same with the outputs. -/
def trace (step : σ → ι → Option (σ × ο)) (s : σ) : List ι → Option (σ × List ο)
  | [] => some (s, [])
  | i :: is =>
    (step s i).bind fun (s', o) => (trace step s' is).map fun (s'', os) => (s'', o :: os)

theorem Runs.of_trace [∀ s i, Decidable (guard s i)] {s s' : σ} {is : List ι} {os : List ο}
    (h : trace (guarded step guard) s is = some (s', os)) : Runs step guard s is os s' := by
  induction is generalizing s os with
  | nil =>
      obtain ⟨rfl, rfl⟩ := Prod.mk.inj (Option.some.inj h)
      exact Runs.nil s
  | cons i is ih =>
      obtain ⟨⟨s₁, o⟩, haccepted, hrest⟩ := Option.bind_eq_some_iff.mp h
      obtain ⟨⟨s₂, os⟩, htrace, heq⟩ := Option.map_eq_some_iff.mp hrest
      obtain ⟨rfl, rfl⟩ := Prod.mk.inj heq
      obtain ⟨hadmitted, haccepted⟩ := Option.ite_none_right_eq_some.mp haccepted
      exact Runs.cons hadmitted haccepted (ih htrace)

theorem Reachable.invariant {I : σ → Prop}
    (hstep : ∀ {s s' i o}, I s → guard s i → step s i = some (s', o) → I s')
    {init s : σ} (h : Reachable step guard init s) (hinit : I init) : I s := by
  obtain ⟨_, _, hruns⟩ := h
  exact hruns.invariant hstep hinit

end ExchangeEngine.Transition
