import ExchangeEngine.Engine.FillOrKill
import ExchangeEngine.Engine.Queries

/-!
The availability check of fill-or-kill in 64-bit arithmetic. Before each addition the
running total is below the requested volume, so it fits; the addition itself overflows
when a level is large enough, and the check then no longer compares the sum.
-/

namespace ExchangeEngine

open Ladder Fifo Chain Transition

namespace OrderBook

/-- No addition of `can_fully_fill` leaves the range of `std::int64_t`. -/
def NeverOverflows (side : Side) (price : Nat) (volume : Int) : Int → List Level → Prop
  | _, [] => True
  | available, lvl :: levels =>
      crosses side price lvl.price = true →
        -2 ^ 63 ≤ available + lvl.totalVolume ∧ available + lvl.totalVolume ≤ int64Max ∧
          (available + lvl.totalVolume < volume →
            NeverOverflows side price volume (available + lvl.totalVolume) levels)

/-- The check neither overflows nor errs. -/
structure ChecksExactly (b : OrderBook) (s : Side) (price : Nat) (v : Int) : Prop where
  fits : NeverOverflows s price v 0 (b.sideLevels (opposed s))
  exact_iff : canFullyFill s price v 0 (b.sideLevels (opposed s)) = true ↔
    v ≤ b.crossingVolume s price

/-- The volume that rests at better prices of a side. -/
def volumeAhead (b : OrderBook) (s : Side) (p : Nat) : Int :=
  total ((b.resting s).filter fun x => better s x.1 p)

/-- Up to the price at which it reaches the requested volume, the volume that rests at the
crossed prices fits in 64 bits. -/
def LiquidityFits (b : OrderBook) (s : Side) (price : Nat) (v : Int) : Prop :=
  ∀ p, crosses s price p = true → b.volumeAhead (opposed s) p < v →
    b.volumeAhead (opposed s) p + b.volumeResting (opposed s) p ≤ int64Max

end OrderBook

namespace QueueBook

/-- The volume of the rungs in front of a price. -/
def ahead (t : Side) (p : Nat) (l : Rungs Nat Entry) : Int :=
  total ((listing l).filter fun x => better t x.1 p)

section Ahead

variable {t : Side} {p : Nat} {q : Nat × List Entry} {l : Rungs Nat Entry}

theorem ahead_nonneg (hpos : ∀ q ∈ l, ∀ e ∈ q.2, 0 < e.2.volume) : 0 ≤ ahead t p l := by
  refine total_nonneg fun x hx => ?_
  obtain ⟨r, hr, hx⟩ := List.mem_flatMap.mp (List.mem_filter.mp hx).1
  obtain ⟨e, he, rfl⟩ := List.mem_map.mp hx
  exact hpos r hr e he

theorem ahead_cons_of_better (hq : better t q.1 p) :
    ahead t p (q :: l) = total q.2 + ahead t p l := by
  have hfront : (q.2.map (Prod.mk q.1)).filter (fun x => decide (better t x.1 p)) =
      q.2.map (Prod.mk q.1) := by
    rw [List.filter_eq_self]
    intro x hx
    obtain ⟨e, _, rfl⟩ := List.mem_map.mp hx
    exact decide_eq_true hq
  rw [ahead, listing_cons, List.filter_append, hfront, total_append, total, List.map_map]
  rfl

theorem ahead_eq_zero (h : ∀ r ∈ l, ¬ better t r.1 p) : ahead t p l = 0 := by
  have hnone := filter_listing_of_none (P := fun k => decide (better t k p))
    fun r hr => decide_eq_false (h r hr)
  rw [ahead, hnone, total_nil]

/-- At the best price or in front of it nothing else rests. -/
theorem nothing_ahead (hl : Ladder.WellFormed (better t) (q :: l))
    (hp : p = q.1 ∨ better t p q.1) :
    ahead t p (q :: l) = 0 ∧ ahead t p l = 0 ∧ lookup p l = [] := by
  have hsorted := (List.pairwise_cons.mp hl.sorted).1
  have hbetter : ∀ r ∈ l, better t p r.1 := by
    intro r hr
    rcases hp with rfl | hp
    · exact hsorted r hr
    · exact trans_of (better t) hp (hsorted r hr)
  have hnot : ∀ r ∈ l, ¬ better t r.1 p := fun r hr => asymm_of (better t) (hbetter r hr)
  refine ⟨ahead_eq_zero fun r hr => ?_, ahead_eq_zero hnot,
    lookup_eq_nil_of_ne fun r hr => (ne_of_better (hbetter r hr)).symm⟩
  rcases List.mem_cons.mp hr with rfl | hr
  · rcases hp with rfl | hp
    · exact irrefl_of (better t) _
    · exact asymm_of (better t) hp
  · exact hnot r hr

end Ahead

/-- The check overflows nowhere exactly if the volume it adds up fits. -/
theorem neverOverflows_iff {s : Side} (price : Nat) {v available : Int} {l : Rungs Nat Entry}
    (hl : Ladder.WellFormed (better (opposed s)) l)
    (hpos : ∀ q ∈ l, ∀ e ∈ q.2, 0 < e.2.volume) (hfits : ∀ q ∈ l, total q.2 ≤ int64Max)
    (hlow : 0 ≤ available) (hhigh : available < v) (hv : v ≤ int64Max) :
    OrderBook.NeverOverflows s price v available (l.map levelOf) ↔
      ∀ p, OrderBook.crosses s price p = true → available + ahead (opposed s) p l < v →
        available + ahead (opposed s) p l + total (lookup p l) ≤ int64Max := by
  induction l generalizing available with
  | nil =>
    refine ⟨fun _ p _ hshort => ?_, fun _ => trivial⟩
    rw [lookup_nil, total_nil]
    omega
  | cons q l ih =>
    have hsorted := (List.pairwise_cons.mp hl.sorted).1
    have hrest : ∀ r ∈ l, ∀ e ∈ r.2, 0 < e.2.volume := fun r hr =>
      hpos r (List.mem_cons_of_mem _ hr)
    have htotal : 0 ≤ total q.2 := total_nonneg (hpos q List.mem_cons_self)
    have hcached : (levelOf q).totalVolume = total q.2 :=
      wrap64_eq (by omega) (hfits q List.mem_cons_self)
    have hfirst : available + ahead (opposed s) q.1 (q :: l) + total (lookup q.1 (q :: l)) =
        available + total q.2 := by
      rw [(nothing_ahead hl (Or.inl rfl)).1, lookup_cons, if_pos rfl, Int.add_zero]
    have hworse : ∀ p, better (opposed s) q.1 p →
        ahead (opposed s) p (q :: l) = total q.2 + ahead (opposed s) p l ∧
          lookup p (q :: l) = lookup p l := by
      intro p hp
      exact ⟨ahead_cons_of_better hp, by rw [lookup_cons, if_neg (ne_of_better hp)]⟩
    rw [List.map_cons, OrderBook.NeverOverflows, levelOf_price, hcached]
    constructor
    · intro hnever p hp hshort
      rcases trichotomous_of (better (opposed s)) p q.1 with hbetter | rfl | hbetter
      · obtain ⟨hahead, -, hnone⟩ := nothing_ahead hl (Or.inr hbetter)
        rw [hahead, lookup_cons, if_neg (ne_of_better hbetter).symm, hnone, total_nil]
        omega
      · rw [hfirst]
        exact (hnever hp).2.1
      · obtain ⟨hahead, hlookup⟩ := hworse p hbetter
        obtain ⟨-, -, hgoes⟩ := hnever (crosses_of_better (Or.inl hbetter) hp)
        have hnonneg := ahead_nonneg (t := opposed s) (p := p) hrest
        rw [hahead, ← Int.add_assoc] at hshort ⊢
        rw [hlookup]
        exact (ih hl.tail hrest (fun r hr => hfits r (List.mem_cons_of_mem _ hr)) (by omega)
          (by omega)).mp (hgoes (by omega)) p hp hshort
    · intro hsums hq
      have hsum := hsums q.1 hq (by
        rw [(nothing_ahead hl (Or.inl rfl)).1]
        omega)
      rw [hfirst] at hsum
      refine ⟨by omega, hsum, fun hmore => ?_⟩
      refine (ih hl.tail hrest (fun r hr => hfits r (List.mem_cons_of_mem _ hr)) (by omega)
        hmore).mpr fun p hp hshort => ?_
      by_cases hbetter : better (opposed s) q.1 p
      case neg =>
        have hfront : p = q.1 ∨ better (opposed s) p q.1 := by
          rcases trichotomous_of (better (opposed s)) p q.1 with hp | hp | hp
          · exact Or.inr hp
          · exact Or.inl hp
          · exact absurd hp hbetter
        obtain ⟨-, hahead, hnone⟩ := nothing_ahead hl hfront
        rw [hahead, hnone, total_nil]
        omega
      case pos =>
        obtain ⟨hahead, hlookup⟩ := hworse p hbetter
        have hsum' := hsums p hp (by rw [hahead]; omega)
        rw [hahead, hlookup] at hsum'
        omega

/-- Without overflow the check compares the crossing volume. -/
theorem canFill_of_fitting {c : QueueBook} (hwf : c.WellFormed) {s : Side} {price : Nat} {v : Int}
    (hv : 0 < v)
    (hsums : ∀ p, OrderBook.crosses s price p = true →
      ahead (opposed s) p (c.side (opposed s)) < v →
        ahead (opposed s) p (c.side (opposed s)) + total (c.queue (opposed s) p) ≤ int64Max) :
    canFill s price v 0 (c.side (opposed s)) =
      decide (v ≤ total (crossing s price (c.resting (opposed s)))) := by
  have hladder := hwf.ladder (opposed s)
  rw [canFill_eq s price hladder.nonempty (fun q hq => positive_of_mem_side hwf hq) (Int.le_refl 0)
    hv, Int.zero_add]
  · rfl
  intro xs q ys hsplit hq hshort
  have hsorted := hladder.sorted
  rw [hsplit] at hsorted
  obtain ⟨-, hqys, hxs⟩ := List.pairwise_append.mp hsorted
  have hbehind : ∀ r ∈ q :: ys, decide (better (opposed s) r.1 q.1) = false := by
    intro r hr
    rw [decide_eq_false_iff_not]
    rcases List.mem_cons.mp hr with rfl | hr
    · exact irrefl_of (better (opposed s)) _
    · exact asymm_of (better (opposed s)) ((List.pairwise_cons.mp hqys).1 r hr)
  have hahead : ahead (opposed s) q.1 (c.side (opposed s)) = total (elements xs) := by
    have hall := filter_listing_of_all (P := fun k => decide (better (opposed s) k q.1))
      fun r hr => decide_eq_true (hxs r hr q List.mem_cons_self)
    have hnone := filter_listing_of_none (P := fun k => decide (better (opposed s) k q.1)) hbehind
    rw [ahead, hsplit, listing_append, List.filter_append, hall, hnone, List.append_nil,
      total_listing]
  have hqueue : c.queue (opposed s) q.1 = q.2 :=
    hladder.lookup_of_mem (by rw [hsplit]; exact List.mem_append_right _ List.mem_cons_self)
  have hsum := hsums q.1 hq
  rw [hahead, hqueue] at hsum
  rw [Int.zero_add] at hshort ⊢
  exact hsum hshort

end QueueBook

namespace OrderBook

/-- The availability check is exact in 64 bits exactly if the volume that it adds up
fits. -/
theorem canFullyFill_exact_iff {flow : Flow} {capacity : Nat} {b : OrderBook}
    (h : Reached flow capacity b) {s : Side} {price : Nat} {v : Int} (hv : 0 < v)
    (hmax : v ≤ int64Max) (hfits : ∀ p, b.volumeResting (opposed s) p ≤ int64Max) :
    ChecksExactly b s price v ↔ b.LiquidityFits s price v := by
  obtain ⟨c, hrep, hsound, _⟩ := h.represents
  have hwf := hsound.wellFormed
  have hladder := hwf.ladder (opposed s)
  have hahead : ∀ p, b.volumeAhead (opposed s) p =
      QueueBook.ahead (opposed s) p (c.side (opposed s)) := by
    intro p
    rw [volumeAhead, hrep.resting_eq hwf]
    rfl
  have htotals : ∀ q ∈ c.side (opposed s), total q.2 ≤ int64Max := by
    intro q hq
    have hqueue : c.queue (opposed s) q.1 = q.2 := hladder.lookup_of_mem hq
    rw [← hqueue, ← hrep.volumeResting_eq hwf]
    exact hfits q.1
  have hnever := QueueBook.neverOverflows_iff price hladder
    (fun q hq => QueueBook.positive_of_mem_side hwf hq) htotals (Int.le_refl 0) hv hmax
  simp only [Int.zero_add] at hnever
  have hliquid : b.LiquidityFits s price v ↔
      NeverOverflows s price v 0 (b.sideLevels (opposed s)) := by
    rw [hrep.levels, hnever]
    simp only [LiquidityFits, hahead, hrep.volumeResting_eq hwf, QueueBook.queue]
  refine ⟨fun hexact => hliquid.mpr hexact.fits, fun hsums => ⟨hliquid.mp hsums, ?_⟩⟩
  simp only [LiquidityFits, hahead, hrep.volumeResting_eq hwf] at hsums
  rw [hrep.levels, canFullyFill_eq, QueueBook.canFill_of_fitting hwf hv hsums,
    hrep.crossingVolume_eq hwf, QueueBook.crossingVolume, decide_eq_true_iff]

/-- Two levels whose volumes together are the largest value of the type. -/
theorem canFullyFill_exact_iff_twoLevels : ∃ b, Reached .orders 4 b ∧
    ChecksExactly b .bid 101 int64Max := by
  obtain ⟨b, hreached, hresting⟩ : ∃ b, Reached .orders 4 b ∧
      b.resting .ask = [(100, 0, ⟨0, 4611686018427387904⟩), (101, 1, ⟨0, 4611686018427387903⟩)] :=
    ⟨_, ⟨[.addOrder .ask 100 4611686018427387904, .addOrder .ask 101 4611686018427387903], _,
      Runs.cons trivial rfl (Runs.cons trivial rfl (Runs.nil _))⟩, by decide⟩
  refine ⟨b, hreached, (canFullyFill_exact_iff hreached (by decide) (Int.le_refl _)
    fun p => ?_).mpr fun p hcrosses _ => ?_⟩
  · rw [volumeResting, opposed, hresting]
    exact Int.le_trans (total_filter_le (by decide) _) (by decide)
  · change b.volumeAhead .ask p + b.volumeResting .ask p ≤ int64Max
    rw [volumeAhead, volumeResting, hresting]
    have hle : p ≤ 101 := of_decide_eq_true hcrosses
    rcases (by omega : p < 100 ∨ p = 100 ∨ p = 101) with hp | rfl | rfl
    · have h100 : ¬ 100 < p ∧ ¬ 100 = p := by omega
      have h101 : ¬ 101 < p ∧ ¬ 101 = p := by omega
      simp [better, h100, h101, int64Max]
    · decide
    · decide

/-- Once `2 ^ 62` is found, another `2 ^ 63 - 1` turns the running total negative. -/
theorem canFullyFill_exact_false : ∃ b, Reached .orders 4 b ∧
    (∀ p, b.volumeResting .ask p ≤ int64Max) ∧ ¬ ChecksExactly b .bid 101 4611686018427387905 := by
  obtain ⟨b, hreached, hresting, hkilled⟩ : ∃ b, Reached .orders 4 b ∧
      b.resting .ask = [(100, 0, ⟨0, 4611686018427387904⟩), (101, 1, ⟨0, 9223372036854775807⟩)] ∧
      canFullyFill .bid 101 4611686018427387905 0 (b.sideLevels .ask) = false :=
    ⟨_, ⟨[.addOrder .ask 100 4611686018427387904, .addOrder .ask 101 9223372036854775807], _,
      Runs.cons trivial rfl (Runs.cons trivial rfl (Runs.nil _))⟩, by decide, by decide⟩
  refine ⟨b, hreached, fun p => ?_, fun hexact => ?_⟩
  · rw [volumeResting, hresting]
    simp only [List.filter_cons, List.filter_nil, decide_eq_true_eq]
    split_ifs <;> first | decide | omega
  · have henough : (4611686018427387905 : Int) ≤ b.crossingVolume .bid 101 := by
      rw [crossingVolume, opposed, hresting]
      decide
    have hfills := hexact.exact_iff.mpr henough
    rw [opposed, hkilled] at hfills
    cases hfills

end OrderBook

end ExchangeEngine
