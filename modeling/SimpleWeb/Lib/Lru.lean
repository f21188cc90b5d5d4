import Mathlib

/-!
# Lib.Lru

A reference LRU cache: a list of entries, the most recently used first, of at most `n` entries.

* `get` / `set`  — the two operations; a `get` of a key that is not held changes nothing.
* `uses n ops`   — the distinct keys that were used, the most recently used first.
* `latest ops k` — the value of the last `set` of a key.
* `find_run`     — what is held after any operations: exactly the `n` most recently used keys,
  each with its latest value.
-/

namespace Lru

variable {κ ν : Type} [DecidableEq κ]

def find (c : List (κ × ν)) (k : κ) : Option ν := (c.find? fun e => e.1 = k).map Prod.snd

def touch (c : List (κ × ν)) (k : κ) (v : ν) : List (κ × ν) :=
  (k, v) :: c.filter fun e => e.1 ≠ k

def get (c : List (κ × ν)) (k : κ) : List (κ × ν) :=
  match find c k with
  | some v => touch c k v
  | none => c

def set (n : Nat) (c : List (κ × ν)) (k : κ) (v : ν) : List (κ × ν) := (touch c k v).take n

inductive Op (κ ν : Type) where
  | get (k : κ)
  | set (k : κ) (v : ν)

def step (n : Nat) (c : List (κ × ν)) : Op κ ν → List (κ × ν)
  | .get k => get c k
  | .set k v => set n c k v

def run (n : Nat) (ops : List (Op κ ν)) : List (κ × ν) := ops.foldl (step n) []

def moveToFront (k : κ) (u : List κ) : List κ := k :: u.filter (· ≠ k)

def useStep (n : Nat) (u : List κ) : Op κ ν → List κ
  | .get k => if k ∈ u.take n then moveToFront k u else u
  | .set k _ => moveToFront k u

def uses (n : Nat) (ops : List (Op κ ν)) : List κ := ops.foldl (useStep n) []

def latestStep (m : κ → Option ν) : Op κ ν → κ → Option ν
  | .get _ => m
  | .set k v => Function.update m k (some v)

def latest (ops : List (Op κ ν)) : κ → Option ν := ops.foldl latestStep fun _ => none

theorem run_concat (n : Nat) (ops : List (Op κ ν)) (op : Op κ ν) :
    run n (ops ++ [op]) = step n (run n ops) op := by
  simp [run]

theorem uses_concat (n : Nat) (ops : List (Op κ ν)) (op : Op κ ν) :
    uses n (ops ++ [op]) = useStep n (uses n ops) op := by
  simp [uses]

theorem latest_concat (ops : List (Op κ ν)) (op : Op κ ν) :
    latest (ops ++ [op]) = latestStep (latest ops) op := by
  simp [latest]

/-! ## Moving to the front -/

theorem moveToFront_nodup {u : List κ} (h : u.Nodup) (k : κ) : (moveToFront k u).Nodup := by
  refine List.nodup_cons.mpr ⟨?_, h.filter _⟩
  simp

/-- Without its duplicates a list loses at most one element to a filter on one value. -/
theorem length_filter_ne {u : List κ} (h : u.Nodup) (k : κ) :
    u.length ≤ (u.filter (· ≠ k)).length + 1 := by
  have hfilter : u.filter (· ≠ k) = u.erase k := by
    rw [h.erase_eq_filter]
    exact List.filter_congr fun a _ => by rw [Bool.eq_iff_iff]; simp
  rw [hfilter, List.length_erase]
  split <;> omega

/-- Only the first `n` places decide what the first `n` places are after a move. -/
theorem take_moveToFront {u : List κ} (h : u.Nodup) (n : Nat) (k : κ) :
    (moveToFront k u).take n = (moveToFront k (u.take n)).take n := by
  cases n with
  | zero => rfl
  | succ m =>
    have hsplit : u.filter (· ≠ k) =
        (u.take (m + 1)).filter (· ≠ k) ++ (u.drop (m + 1)).filter (· ≠ k) := by
      rw [← List.filter_append, List.take_append_drop]
    have hlen := length_filter_ne (h.sublist (List.take_sublist (m + 1) u)) k
    rw [List.length_take] at hlen
    simp only [moveToFront, List.take_succ_cons]
    rw [hsplit]
    by_cases hu : m + 1 ≤ u.length
    · rw [List.take_append_of_le_length (by omega)]
    · rw [List.drop_eq_nil_of_le (by omega), List.filter_nil, List.append_nil]

theorem take_moveToFront_of_mem {u : List κ} (h : u.Nodup) {n : Nat} {k : κ} (hk : k ∈ u.take n) :
    (moveToFront k u).take n = moveToFront k (u.take n) := by
  rw [take_moveToFront h]
  refine List.take_of_length_le ?_
  have hlt : ((u.take n).filter (· ≠ k)).length < (u.take n).length :=
    List.length_filter_lt_length_iff_exists.mpr ⟨k, hk, by simp⟩
  rw [List.length_take] at hlt
  simp only [moveToFront, List.length_cons]
  omega

/-! ## What a cache holds -/

theorem map_fst_touch (c : List (κ × ν)) (k : κ) (v : ν) :
    (touch c k v).map Prod.fst = moveToFront k (c.map Prod.fst) := by
  rw [touch, moveToFront, List.map_cons, List.filter_map]
  rfl

theorem find_eq_some {c : List (κ × ν)} {k : κ} {v : ν} (h : find c k = some v) : (k, v) ∈ c := by
  obtain ⟨⟨k', v'⟩, he, rfl⟩ := Option.map_eq_some_iff.mp h
  have hk : k' = k := by simpa using List.find?_some he
  exact hk ▸ List.mem_of_find?_eq_some he

theorem find_eq_none {c : List (κ × ν)} {k : κ} : find c k = none ↔ k ∉ c.map Prod.fst := by
  rw [find, Option.map_eq_none_iff, List.find?_eq_none]
  constructor
  · intro h hk
    obtain ⟨e, he, rfl⟩ := List.mem_map.mp hk
    exact h e he (by simp)
  · intro h e he hk
    have hk' : e.1 = k := by simpa using hk
    exact h (hk' ▸ List.mem_map_of_mem (f := Prod.fst) he)

theorem find_of_mem {c : List (κ × ν)} (hc : (c.map Prod.fst).Nodup) {k : κ} {v : ν}
    (h : (k, v) ∈ c) : find c k = some v := by
  cases hf : find c k with
  | some v' =>
    have heq := List.inj_on_of_nodup_map hc (find_eq_some hf) h rfl
    cases heq
    rfl
  | none => exact absurd (List.mem_map_of_mem (f := Prod.fst) h) (find_eq_none.mp hf)

theorem find_concat_of_ne {c : List (κ × ν)} {k k' : κ} {v : ν} (h : k ≠ k') :
    find (c ++ [(k, v)]) k' = find c k' := by
  simp [find, List.find?_append, h]

theorem touch_of_find_none {c : List (κ × ν)} {k : κ} (h : find c k = none) (v : ν) :
    touch c k v = (k, v) :: c := by
  rw [touch, List.filter_eq_self.mpr]
  intro e he
  have hk : e.1 ≠ k := fun hk => find_eq_none.mp h (hk ▸ List.mem_map_of_mem (f := Prod.fst) he)
  simpa using hk

theorem length_touch {c : List (κ × ν)} {k : κ} {v : ν} (h : find c k = some v) (w : ν) :
    (touch c k w).length ≤ c.length := by
  have hlt : (c.filter fun e => e.1 ≠ k).length < c.length :=
    List.length_filter_lt_length_iff_exists.mpr ⟨(k, v), find_eq_some h, by simp⟩
  simp only [touch, List.length_cons]
  omega

theorem find_touch (c : List (κ × ν)) (k : κ) (v : ν) (k' : κ) :
    find (touch c k v) k' = if k = k' then some v else find c k' := by
  by_cases hk : k = k'
  · subst hk
    simp [find, touch]
  · have hfilter : (c.filter fun e => e.1 ≠ k).find? (fun e => e.1 = k') =
        c.find? fun e => e.1 = k' := by
      rw [List.find?_filter]
      congr 1
      funext e
      by_cases he : e.1 = k'
      · simp [he, Ne.symm hk]
      · simp [he]
    rw [find, touch, List.find?_cons_of_neg (by simpa using hk), hfilter, if_neg hk, find]

structure Inv (n : Nat) (ops : List (Op κ ν)) : Prop where
  nodup : (uses n ops).Nodup
  keys : (run n ops).map Prod.fst = (uses n ops).take n
  values : ∀ e ∈ run n ops, latest ops e.1 = some e.2

theorem inv_get {n : Nat} {ops : List (Op κ ν)} (h : Inv n ops) (k : κ) :
    Inv n (ops ++ [.get k]) := by
  obtain ⟨hnodup, hkeys, hvalues⟩ := h
  cases hf : find (run n ops) k with
  | some v =>
    have hmem := find_eq_some hf
    have hk : k ∈ (uses n ops).take n := hkeys ▸ List.mem_map_of_mem (f := Prod.fst) hmem
    refine ⟨?_, ?_, ?_⟩
    · simpa [uses_concat, useStep, hk] using moveToFront_nodup hnodup k
    · simp only [run_concat, uses_concat, step, useStep, get, hf, if_pos hk]
      rw [map_fst_touch, hkeys, take_moveToFront_of_mem hnodup hk]
    · intro e he
      simp only [run_concat, step, get, hf, touch] at he
      rw [latest_concat]
      rcases List.mem_cons.mp he with rfl | he
      · exact hvalues _ hmem
      · exact hvalues e (List.mem_of_mem_filter he)
  | none =>
    have hk : k ∉ (uses n ops).take n := hkeys ▸ find_eq_none.mp hf
    refine ⟨?_, ?_, ?_⟩
    · simpa [uses_concat, useStep, hk] using hnodup
    · simpa [run_concat, uses_concat, step, useStep, get, hf, hk] using hkeys
    · simpa [run_concat, latest_concat, step, latestStep, get, hf] using hvalues

theorem inv_set {n : Nat} {ops : List (Op κ ν)} (h : Inv n ops) (k : κ) (v : ν) :
    Inv n (ops ++ [.set k v]) := by
  obtain ⟨hnodup, hkeys, hvalues⟩ := h
  refine ⟨?_, ?_, ?_⟩
  · simpa [uses_concat, useStep] using moveToFront_nodup hnodup k
  · simp only [run_concat, uses_concat, step, useStep, set]
    rw [List.map_take, map_fst_touch, hkeys, take_moveToFront hnodup]
  · intro e he
    simp only [run_concat, step, set, touch] at he
    rw [latest_concat, latestStep]
    rcases List.mem_cons.mp (List.mem_of_mem_take he) with rfl | he
    · simp
    · have hne : e.1 ≠ k := by simpa using (List.mem_filter.mp he).2
      rw [Function.update_of_ne hne]
      exact hvalues e (List.mem_of_mem_filter he)

theorem inv_run (n : Nat) (ops : List (Op κ ν)) : Inv n ops := by
  induction ops using List.reverseRecOn with
  | nil => exact ⟨List.nodup_nil, by simp [run, uses], by simp [run]⟩
  | append_singleton ops op ih =>
    cases op with
    | get k => exact inv_get ih k
    | set k v => exact inv_set ih k v

/-- A cache holds exactly the `n` most recently used keys, each with its latest value. -/
theorem find_run (n : Nat) (ops : List (Op κ ν)) (k : κ) :
    find (run n ops) k = if k ∈ (uses n ops).take n then latest ops k else none := by
  obtain ⟨-, hkeys, hvalues⟩ := inv_run n ops
  rw [← hkeys]
  cases hf : find (run n ops) k with
  | some v =>
    have hmem := find_eq_some hf
    rw [if_pos (List.mem_map_of_mem (f := Prod.fst) hmem)]
    exact (hvalues _ hmem).symm
  | none => rw [if_neg (find_eq_none.mp hf)]

theorem length_run (n : Nat) (ops : List (Op κ ν)) : (run n ops).length ≤ n := by
  have hkeys := congrArg List.length (inv_run n ops).keys
  rw [List.length_map, List.length_take] at hkeys
  omega

end Lru
