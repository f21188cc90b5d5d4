import Mathlib

/-!
# Lib.CArray

Fixed-length C arrays of characters, as lists: the length of the list is the size of the array
and its first content is whatever the memory held (`store` never reads it).

* `store b i c` — `b[i] = c`; an index outside the array has no result.
* `cstr b`      — the string a NUL-terminated array holds.
* `fill b t`    — the array after the characters of `t` were stored from index 0 on.
* `Holds b i t` — the array starts with the `i` characters of `t`; what lies behind them is
  left open.
* `overwrite b i t` — `memcpy` of `t` to the index `i`; `copy b d s n` — of `n` elements inside
  the array, which must not overlap (`Overlap`).
* `slice b i n` — the `n` elements from `i` on, and what an `overwrite` leaves of them.
* `SameText a b i` — two arrays whose first `i` characters agree, or which agree up to a NUL:
  storing the same characters from `i` on keeps it so, whatever the rest of the arrays holds.
* `SameString a b` — two arrays which agree up to a NUL, so that `cstr` cannot tell them apart.
-/

namespace CArray

variable {α : Type}

def store (b : List α) (i : Nat) (c : α) : Option (List α) :=
  if i < b.length then some (b.set i c) else none

def fill (b t : List α) : List α := t ++ b.drop t.length

@[simp] theorem fill_nil (b : List α) : fill b [] = b := rfl

theorem length_fill {b t : List α} (h : t.length ≤ b.length) : (fill b t).length = b.length := by
  simp [fill]; omega

theorem store_fill {b t : List α} (h : t.length < b.length) (c : α) :
    store (fill b t) t.length c = some (fill b (t ++ [c])) := by
  have hd : b.drop t.length = b[t.length] :: b.drop (t.length + 1) := List.drop_eq_getElem_cons h
  simp only [store, length_fill (Nat.le_of_lt h), if_pos h, Option.some.injEq]
  rw [fill, hd, List.set_append_right _ _ (Nat.le_refl _), Nat.sub_self, List.set_cons_zero]
  simp [fill]

theorem store_length {b b' : List α} {i : Nat} {c : α} (h : store b i c = some b') :
    b'.length = b.length := by
  unfold store at h
  split at h
  · cases h; simp
  · cases h

theorem lt_of_store {b b' : List α} {i : Nat} {c : α} (h : store b i c = some b') :
    i < b.length := by
  unfold store at h
  split at h
  · assumption
  · cases h

theorem store_none_iff {b : List α} {i : Nat} {c : α} : store b i c = none ↔ b.length ≤ i := by
  simp [store]

def overwrite (b : List α) (i : Nat) (t : List α) : List α := b.take i ++ t ++ b.drop (i + t.length)

def copy (b : List α) (dst src n : Nat) : List α := overwrite b dst ((b.drop src).take n)

theorem length_overwrite {b t : List α} {i : Nat} (h : i + t.length ≤ b.length) :
    (overwrite b i t).length = b.length := by
  simp only [overwrite, List.length_append, List.length_take, List.length_drop]
  omega

theorem length_copy {b : List α} {dst src n : Nat} (hd : dst + n ≤ b.length) :
    (copy b dst src n).length = b.length := by
  refine length_overwrite ?_
  simp only [List.length_take, List.length_drop]
  omega

@[simp] theorem overwrite_nil (b : List α) (i : Nat) : overwrite b i [] = b := by
  simp [overwrite]

theorem overwrite_zero (b t : List α) : overwrite b 0 t = fill b t := by
  simp [overwrite, fill]

/-- Characters stored one by one, from `i` on. -/
theorem store_overwrite {b t : List α} {i : Nat} (h : i + t.length < b.length) (c : α) :
    store (overwrite b i t) (i + t.length) c = some (overwrite b i (t ++ [c])) := by
  have hlt : i + t.length < (overwrite b i t).length := by
    rw [length_overwrite (by omega)]
    exact h
  have hlen : (b.take i ++ t).length = i + t.length := by simp; omega
  have hd : b.drop (i + t.length) = b[i + t.length] :: b.drop (i + (t.length + 1)) :=
    List.drop_eq_getElem_cons h
  rw [store, if_pos hlt, overwrite, ← hlen, List.set_append_right _ _ (Nat.le_refl _), hlen, hd,
    Nat.sub_self, List.set_cons_zero]
  simp [overwrite]

theorem take_drop_overwrite {b t : List α} {i : Nat} (h : i ≤ b.length) :
    ((overwrite b i t).drop i).take t.length = t := by
  have hlen : (b.take i).length = i := by simp; omega
  rw [overwrite, List.append_assoc, List.drop_left' hlen, List.take_left' rfl]

structure Holds (b : List α) (i : Nat) (t : List α) : Prop where
  len : i = t.length
  pre : t <+: b

theorem Holds.nil (b : List α) : Holds b 0 [] := ⟨rfl, List.nil_prefix⟩

theorem Holds.length_le {b t : List α} {i : Nat} (hh : Holds b i t) : t.length ≤ b.length :=
  hh.pre.length_le

theorem Holds.store {b b' t : List α} {i : Nat} {c : α} (hh : Holds b i t)
    (h : store b i c = some b') : Holds b' (i + 1) (t ++ [c]) := by
  obtain ⟨rfl, d, rfl⟩ := hh
  unfold CArray.store at h
  split at h
  · rename_i hlt
    cases h
    cases d with
    | nil => simp at hlt
    | cons x d =>
      refine ⟨by simp, ⟨d, ?_⟩⟩
      simp
  · cases h

/-! ## Ranges of an array -/

def slice (b : List α) (i n : Nat) : List α := (b.drop i).take n

/-- Two ranges of `n` elements have an element in common. -/
def Overlap (i j n : Nat) : Prop := i < j + n ∧ j < i + n

theorem length_slice {b : List α} {i n : Nat} (h : i + n ≤ b.length) :
    (slice b i n).length = n := by
  simp only [slice, List.length_take, List.length_drop]
  omega

theorem slice_add (b : List α) (i m n : Nat) :
    slice b i (m + n) = slice b i m ++ slice b (i + m) n := by
  simp only [slice, List.take_add, List.drop_drop]

/-- The end of a range. -/
theorem slice_suffix {b : List α} {i m n : Nat} (h : m ≤ n) :
    slice b (i + n - m) m <:+ slice b i n := by
  have hsplit := slice_add b i (n - m) m
  rw [Nat.sub_add_cancel h] at hsplit
  rw [hsplit, Nat.add_sub_assoc h]
  exact List.suffix_append _ _

theorem getElem?_slice {b : List α} {i n k : Nat} (h : k < n) :
    (slice b i n)[k]? = b[i + k]? := by
  rw [slice, List.getElem?_take_of_lt h, List.getElem?_drop]

theorem slice_overwrite {b t : List α} {i : Nat} (h : i ≤ b.length) :
    slice (overwrite b i t) i t.length = t := take_drop_overwrite h

theorem slice_overwrite_front {b t : List α} {i j n : Nat} (h : j + n ≤ i) (hi : i ≤ b.length) :
    slice (overwrite b i t) j n = slice b j n := by
  have hlen : (b.take i).length = i := List.length_take_of_le hi
  rw [slice, slice, overwrite, List.append_assoc, List.drop_append_of_le_length (by omega),
    List.take_append_of_le_length (by rw [List.length_drop]; omega), List.drop_take,
    List.take_take, Nat.min_eq_left (by omega)]

theorem slice_overwrite_behind {b t : List α} {i j n : Nat} (h : i + t.length ≤ j)
    (hi : i + t.length ≤ b.length) : slice (overwrite b i t) j n = slice b j n := by
  have hlen : (b.take i ++ t).length = i + t.length := by
    rw [List.length_append, List.length_take_of_le (by omega)]
  obtain ⟨k, rfl⟩ := Nat.exists_eq_add_of_le h
  rw [slice, slice, overwrite, ← List.drop_drop, List.drop_left' hlen, List.drop_drop]

/-! ## Arrays of different content behind what was stored -/

variable [Zero α]

structure SameText (a b : List α) (i : Nat) : Prop where
  len : a.length = b.length
  pre : ∃ t, t <+: a ∧ t <+: b ∧ (i ≤ t.length ∨ 0 ∈ t)

structure SameString (a b : List α) : Prop where
  len : a.length = b.length
  pre : ∃ t, t <+: a ∧ t <+: b ∧ 0 ∈ t

theorem SameText.start {a b : List α} (h : a.length = b.length) : SameText a b 0 :=
  ⟨h, [], List.nil_prefix, List.nil_prefix, .inl (Nat.le_refl _)⟩

theorem SameString.text {a b : List α} (h : SameString a b) (i : Nat) : SameText a b i := by
  obtain ⟨t, ha, hb, h0⟩ := h.pre
  exact ⟨h.len, t, ha, hb, .inr h0⟩

/-- Storing the same character in both arrays: the text they share reaches behind it, or already
had its NUL in front of it. -/
theorem SameText.set {a b : List α} {i : Nat} (h : SameText a b i) (hi : i < a.length) (c : α) :
    ∃ t, t <+: a.set i c ∧ t <+: b.set i c ∧ (0 ∈ t ∨ i + 1 ≤ t.length ∧ c ∈ t) := by
  obtain ⟨hlen, t, ⟨r, rfl⟩, ⟨r', rfl⟩, ht⟩ := h
  rcases Nat.lt_trichotomy i t.length with hlt | rfl | hgt
  · refine ⟨t.set i c, ⟨r, ?_⟩, ⟨r', ?_⟩, .inr ⟨by simpa using hlt, List.mem_set hlt c⟩⟩
    · rw [List.set_append_left _ _ hlt]
    · rw [List.set_append_left _ _ hlt]
  · cases r with
    | nil => simp at hi
    | cons x r =>
      cases r' with
      | nil => simp at hlen
      | cons x' r' =>
        refine ⟨t ++ [c], ⟨r, ?_⟩, ⟨r', ?_⟩, .inr ⟨by simp, by simp⟩⟩
        · simp
        · simp
  · have h0 : 0 ∈ t := by
      rcases ht with hle | h0
      · omega
      · exact h0
    refine ⟨t, ⟨r.set (i - t.length) c, ?_⟩, ⟨r'.set (i - t.length) c, ?_⟩, .inl h0⟩
    · rw [List.set_append_right _ _ (by omega)]
    · rw [List.set_append_right _ _ (by omega)]

/-- Both stores fault, or both succeed and keep the text. -/
theorem SameText.store {a b : List α} {i : Nat} (h : SameText a b i) (c : α) :
    (CArray.store a i c = none ∧ CArray.store b i c = none) ∨
      ∃ a' b', CArray.store a i c = some a' ∧ CArray.store b i c = some b' ∧
        SameText a' b' (i + 1) := by
  by_cases hi : i < a.length
  · obtain ⟨t, hta, htb, ht⟩ := h.set hi c
    refine .inr ⟨a.set i c, b.set i c, if_pos hi, if_pos (h.len ▸ hi), by simpa using h.len,
      t, hta, htb, ?_⟩
    rcases ht with h0 | ⟨hle, -⟩
    · exact .inr h0
    · exact .inl hle
  · exact .inl ⟨if_neg hi, if_neg (h.len ▸ hi)⟩

theorem SameText.terminate {a b : List α} {i : Nat} (h : SameText a b i) :
    (CArray.store a i 0 = none ∧ CArray.store b i 0 = none) ∨
      ∃ a' b', CArray.store a i 0 = some a' ∧ CArray.store b i 0 = some b' ∧
        SameString a' b' := by
  by_cases hi : i < a.length
  · obtain ⟨t, hta, htb, ht⟩ := h.set hi 0
    refine .inr ⟨a.set i 0, b.set i 0, if_pos hi, if_pos (h.len ▸ hi), by simpa using h.len,
      t, hta, htb, ?_⟩
    rcases ht with h0 | ⟨-, h0⟩
    · exact h0
    · exact h0
  · exact .inl ⟨if_neg hi, if_neg (h.len ▸ hi)⟩

/-! ## Strings -/

variable [DecidableEq α]

/-- The characters before the first NUL. -/
def cstr (b : List α) : List α := b.takeWhile (· ≠ 0)

theorem cstr_terminated {t : List α} (h0 : (0 : α) ∉ t) (r : List α) :
    cstr (t ++ 0 :: r) = t := by
  have ht : ∀ a ∈ t, decide (a ≠ 0) = true := fun a ha =>
    decide_eq_true fun h => h0 (h ▸ ha)
  rw [cstr, List.takeWhile_append_of_pos ht]
  simp

theorem cstr_fill {b t : List α} (h0 : (0 : α) ∉ t) : cstr (fill b (t ++ [0])) = t := by
  rw [fill, List.append_assoc]
  exact cstr_terminated h0 _

/-- Storing a NUL behind a token makes the array hold that token as a string. -/
theorem Holds.cstr {b b' t : List α} {i : Nat} (hh : Holds b i t)
    (h : CArray.store b i 0 = some b') (h0 : (0 : α) ∉ t) : cstr b' = t := by
  obtain ⟨r, hr⟩ := (hh.store h).pre
  rw [← hr, List.append_assoc]
  exact cstr_terminated h0 r

theorem cstr_append {t : List α} (h0 : (0 : α) ∈ t) (r : List α) : cstr (t ++ r) = cstr t := by
  obtain ⟨u, v, rfl, hu⟩ := List.eq_append_cons_of_mem h0
  rw [List.append_assoc, List.cons_append, cstr_terminated hu, cstr_terminated hu]

theorem cstr_append_of_notMem {t : List α} (h0 : (0 : α) ∉ t) (r : List α) :
    cstr (t ++ r) = t ++ cstr r := by
  have ht : ∀ a ∈ t, decide (a ≠ 0) = true := fun a ha => decide_eq_true fun h => h0 (h ▸ ha)
  exact List.takeWhile_append_of_pos ht

theorem cstr_length_lt {t : List α} (h0 : (0 : α) ∈ t) : (cstr t).length < t.length := by
  obtain ⟨u, v, rfl, hu⟩ := List.eq_append_cons_of_mem h0
  rw [cstr_terminated hu]
  simp

/-- A string stored behind the NUL of another is not seen; else it continues what is in front
of it. -/
theorem cstr_overwrite {b t : List α} {i : Nat} (h0 : (0 : α) ∉ t) (hi : i ≤ b.length) :
    cstr (overwrite b i (t ++ [0])) =
      if (cstr b).length < i then cstr b else (cstr b).take i ++ t := by
  have hsplit : cstr b = cstr (b.take i ++ b.drop i) := by rw [List.take_append_drop]
  have hover : overwrite b i (t ++ [0]) =
      b.take i ++ (t ++ 0 :: b.drop (i + (t ++ [0]).length)) := by simp [overwrite]
  have hlen : (b.take i).length = i := by simp [hi]
  by_cases hmem : (0 : α) ∈ b.take i
  · rw [cstr_append hmem] at hsplit
    have hlt : (cstr b).length < i := by
      rw [hsplit]
      exact (cstr_length_lt hmem).trans_eq hlen
    rw [hover, cstr_append hmem, if_pos hlt, hsplit]
  · rw [cstr_append_of_notMem hmem] at hsplit
    have hge : ¬ (cstr b).length < i := by
      rw [hsplit, List.length_append, hlen]; omega
    have htake : (cstr b).take i = b.take i := by rw [hsplit, List.take_left' hlen]
    rw [hover, ← List.append_assoc, cstr_terminated (by simp [h0, hmem]), if_neg hge, htake]

theorem SameString.cstr {a b : List α} (h : SameString a b) : cstr a = cstr b := by
  obtain ⟨t, ⟨r, rfl⟩, ⟨r', rfl⟩, h0⟩ := h.pre
  rw [cstr_append h0, cstr_append h0]

end CArray
