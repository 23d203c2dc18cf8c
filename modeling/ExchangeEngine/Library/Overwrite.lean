import Mathlib.Data.List.Basic
import Mathlib.Logic.Function.Basic

/-!
Maps that are written one key at a time. Of several writes to a key the last one counts, so
the same writes done again change nothing, and writes to different keys can be done in any
order. Operations on single keys leave at each key what those on that key make of it.
-/

namespace ExchangeEngine.Overwrite

variable {κ β : Type*} [DecidableEq κ]

/-- The map after some writes. -/
def overwrite (f : κ → β) (writes : List (κ × β)) : κ → β :=
  writes.foldl (fun f w => Function.update f w.1 w.2) f

variable (f g : κ → β) (writes : List (κ × β)) {k : κ} {v : β}

@[simp] theorem overwrite_nil : overwrite f [] = f := rfl

@[simp] theorem overwrite_cons (w : κ × β) :
    overwrite f (w :: writes) = overwrite (Function.update f w.1 w.2) writes := rfl

theorem overwrite_append (more : List (κ × β)) :
    overwrite f (writes ++ more) = overwrite (overwrite f writes) more :=
  List.foldl_append

variable {f g writes}

/-- A key that is not written keeps its value. -/
theorem overwrite_of_notMem (h : k ∉ writes.map Prod.fst) : overwrite f writes k = f k := by
  induction writes generalizing f with
  | nil => rfl
  | cons w writes ih =>
    obtain ⟨hne, hrest⟩ := List.ne_and_not_mem_of_not_mem_cons h
    rw [overwrite_cons, ih hrest, Function.update_of_ne hne]

/-- What a written key holds does not depend on the map before. -/
theorem overwrite_congr (h : k ∈ writes.map Prod.fst) :
    overwrite f writes k = overwrite g writes k := by
  induction writes generalizing f g with
  | nil => cases h
  | cons w writes ih =>
    rw [overwrite_cons, overwrite_cons]
    by_cases hrest : k ∈ writes.map Prod.fst
    · exact ih hrest
    · obtain rfl := (List.mem_cons.mp h).resolve_right hrest
      rw [overwrite_of_notMem hrest, overwrite_of_notMem hrest, Function.update_self,
        Function.update_self]

/-- The last write to a key is the one that counts. -/
theorem overwrite_eq_getLast? (f : κ → β) (writes : List (κ × β)) (k : κ) :
    overwrite f writes k =
      ((writes.filter fun w => w.1 = k).getLast?.map Prod.snd).getD (f k) := by
  induction writes generalizing f with
  | nil => rfl
  | cons w writes ih =>
    rw [overwrite_cons, ih]
    by_cases hw : w.1 = k
    · subst hw
      rw [List.filter_cons_of_pos (by simp), List.getLast?_cons, Function.update_self]
      cases (writes.filter fun x => x.1 = w.1).getLast? <;> rfl
    · rw [List.filter_cons_of_neg (by simp [hw]), Function.update_of_ne (Ne.symm hw)]

theorem overwrite_overwrite : overwrite (overwrite f writes) writes = overwrite f writes := by
  funext k
  by_cases h : k ∈ writes.map Prod.fst
  · exact overwrite_congr h
  · exact overwrite_of_notMem h

/-- Done once or more often, the writes lead to the same map. -/
theorem overwrite_replicate (f : κ → β) (writes : List (κ × β)) (n : Nat) :
    overwrite f (List.replicate (n + 1) writes).flatten = overwrite f writes := by
  induction n with
  | zero => rw [List.replicate_one, List.flatten_singleton]
  | succ n ih =>
    rw [List.replicate_succ', List.flatten_append, List.flatten_singleton, overwrite_append, ih,
      overwrite_overwrite]

/-- If every key is written at most once, the written values are found. -/
theorem overwrite_of_mem (hnodup : (writes.map Prod.fst).Nodup) (h : (k, v) ∈ writes) :
    overwrite f writes k = v := by
  induction writes generalizing f with
  | nil => cases h
  | cons w writes ih =>
    obtain ⟨hfresh, hrest⟩ := List.nodup_cons.mp hnodup
    obtain rfl | hlater := List.mem_cons.mp h
    · rw [overwrite_cons, overwrite_of_notMem hfresh, Function.update_self]
    · exact ih hrest hlater

/-- Then their order does not matter. -/
theorem overwrite_perm {writes' : List (κ × β)} (hperm : writes.Perm writes')
    (hnodup : (writes.map Prod.fst).Nodup) : overwrite f writes = overwrite f writes' := by
  have hkeys := hperm.map Prod.fst
  funext k
  by_cases h : k ∈ writes.map Prod.fst
  · obtain ⟨w, hw, rfl⟩ := List.mem_map.mp h
    rw [overwrite_of_mem hnodup hw,
      overwrite_of_mem (hkeys.nodup_iff.mp hnodup) (hperm.mem_iff.mp hw)]
  · rw [overwrite_of_notMem h, overwrite_of_notMem (mt hkeys.mem_iff.mpr h)]

/-! ### Operations on single keys -/

section Operate

variable {ι : Type*} (key : ι → Option κ) (act : ι → β → β)

/-- The map after some operations, each on one key or on none. -/
def operate (f : κ → β) (ops : List ι) : κ → β :=
  ops.foldl (fun f op =>
    match key op with
    | none => f
    | some k => Function.update f k (act op (f k))) f

theorem operate_apply (f : κ → β) (ops : List ι) (k : κ) :
    operate key act f ops k =
      (ops.filter fun op => key op = some k).foldl (fun v op => act op v) (f k) := by
  induction ops generalizing f with
  | nil => rfl
  | cons op ops ih =>
    rw [operate, List.foldl_cons, ← operate, ih]
    cases hkey : key op with
    | none => rw [List.filter_cons_of_neg (by simp [hkey])]
    | some j =>
      by_cases hj : j = k
      · subst hj
        rw [List.filter_cons_of_pos (by simp [hkey]), List.foldl_cons]
        dsimp only
        rw [Function.update_self]
      · rw [List.filter_cons_of_neg (by simp [hkey, hj])]
        dsimp only
        rw [Function.update_of_ne (Ne.symm hj)]

variable {key}

/-- Only the order of the operations on the same key matters. -/
theorem operate_congr (f : κ → β) {ops ops' : List ι}
    (h : ∀ k, (ops.filter fun op => key op = some k) = ops'.filter fun op => key op = some k) :
    operate key act f ops = operate key act f ops' := by
  funext k
  rw [operate_apply, operate_apply, h]

/-- Then they are the same operations. -/
theorem perm_of_filter [DecidableEq ι] {ops ops' : List ι} (hkeyed : ∀ op ∈ ops, key op ≠ none)
    (hkeyed' : ∀ op ∈ ops', key op ≠ none)
    (h : ∀ k, (ops.filter fun op => key op = some k) = ops'.filter fun op => key op = some k) :
    ops.Perm ops' := by
  apply List.perm_iff_count.mpr
  intro op
  cases hkey : key op with
  | none =>
    have hnone : ∀ {l : List ι}, (∀ op ∈ l, key op ≠ none) → l.count op = 0 :=
      fun hl => List.count_eq_zero.mpr fun hmem => hl op hmem hkey
    rw [hnone hkeyed, hnone hkeyed']
  | some k =>
    have hcount := congrArg (List.count op) (h k)
    rwa [List.count_filter (by simpa using hkey), List.count_filter (by simpa using hkey)]
      at hcount

end Operate

end ExchangeEngine.Overwrite
