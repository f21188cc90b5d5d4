import Mathlib

/-!
# Http.FileBody

`file_body::write` (`http/file_body.cpp`): the loop that hands a mapped file to the stream
buffer, against any sequence of results of `sputn`.

The requested length is doubled after a short write, and never cut down to what is left. So a
write that does not take a whole file at once asks for bytes behind its end, and all calls stay
inside the file exactly when there is only one, or none that asks for anything
(`write_inside_iff`).
-/

namespace SimpleWeb
namespace Http
namespace FileBody

/-- The conversion to `int`, modulo `2^32` -/
def toInt32 (x : Int) : Int := (x + 2147483648) % 4294967296 - 2147483648

/-- What one call of `sputn` returns, and whether it left `EFAULT` in `errno`. -/
structure SputnResult where
  res : Int
  efault : Bool

/-- The locals of `write`, and the positions of the mapping the stream buffer has accepted, in
order. -/
structure WriteVars where
  nums : Int
  totalwrited : Nat
  accepted : List Nat
  deriving DecidableEq

inductive WriteState where
  | calling (s : WriteVars)
  | returned (s : WriteVars)

/-- `while(totalwrited < f.size())` -/
def whileTest (size : Nat) (s : WriteVars) : WriteState :=
  if s.totalwrited < size then .calling s else .returned s

/-- The body of the loop, with the result of its call. -/
def writeBody (size : Nat) (r : SputnResult) (s : WriteVars) : WriteState :=
  let res := toInt32 r.res
  if res < 0 then
    if r.efault then .returned s
    else whileTest size { s with nums := if s.nums > 4096 then s.nums / 2 else s.nums }
  else
    whileTest size
      { nums := toInt32 (s.nums * 2)
        totalwrited := s.totalwrited + res.toNat
        accepted := s.accepted ++ List.range' s.totalwrited res.toNat }

/-- The loop in front of its call number `k`, or returned before it. -/
def write (size : Nat) (results : Nat → SputnResult) : Nat → WriteState
  | 0 => whileTest size ⟨toInt32 size, 0, []⟩
  | k + 1 =>
    match write size results k with
    | .calling s => writeBody size (results k) s
    | .returned s => .returned s

/-- Every result is one a stream buffer can give that accepts a part of what it is offered. -/
def Partial (size : Nat) (results : Nat → SputnResult) : Prop :=
  ∀ k s, write size results k = .calling s → 0 ≤ s.nums →
    0 ≤ (results k).res ∧ (results k).res ≤ s.nums

/-- Every call offers a range of the file, and what has been accepted on return is the file. -/
structure Inside (size : Nat) (results : Nat → SputnResult) : Prop where
  range : ∀ k s, write size results k = .calling s → 0 ≤ s.nums ∧ s.totalwrited + s.nums ≤ size
  all : ∀ k s, write size results k = .returned s → s.accepted = List.range size

section Runs

variable {size : Nat} {results : Nat → SputnResult} {k : Nat} {s : WriteVars}

theorem toInt32_bounds (x : Int) : -2147483648 ≤ toInt32 x ∧ toInt32 x < 2147483648 := by
  unfold toInt32
  omega

theorem toInt32_eq {x : Int} (h : -2147483648 ≤ x ∧ x < 2147483648) : toInt32 x = x := by
  unfold toInt32
  omega

theorem whileTest_calling {t : WriteVars} (h : whileTest size t = .calling s) :
    s = t ∧ s.totalwrited < size := by
  unfold whileTest at h
  split at h
  · cases h
    exact ⟨rfl, by assumption⟩
  · cases h

theorem whileTest_returned {t : WriteVars} (h : whileTest size t = .returned s) :
    s = t ∧ size ≤ s.totalwrited := by
  unfold whileTest at h
  split at h
  · cases h
  · cases h
    exact ⟨rfl, by omega⟩

/-- `nums` is an `int` in every state. -/
theorem write_nums (h : write size results k = .calling s) :
    -2147483648 ≤ s.nums ∧ s.nums < 2147483648 := by
  induction k generalizing s with
  | zero =>
    obtain ⟨rfl, -⟩ := whileTest_calling h
    exact toInt32_bounds _
  | succ k ih =>
    rw [write] at h
    split at h
    · rename_i t ht
      have hnums := ih ht
      unfold writeBody at h
      simp only at h
      split at h
      · split at h
        · cases h
        · obtain ⟨rfl, -⟩ := whileTest_calling h
          simp only
          split
          · omega
          · exact hnums
      · obtain ⟨rfl, -⟩ := whileTest_calling h
        exact toInt32_bounds _
    · cases h

/-- A call that accepts `res` bytes. -/
theorem write_succ (h : write size results k = .calling s) {res : Nat}
    (hres : (results k).res = res) (hle : res ≤ s.nums) :
    write size results (k + 1) =
      whileTest size ⟨toInt32 (s.nums * 2), s.totalwrited + res,
        s.accepted ++ List.range' s.totalwrited res⟩ := by
  have hnums := write_nums h
  have hconv : toInt32 (results k).res = res := by
    rw [hres]
    exact toInt32_eq (by omega)
  have hneg : ¬ (res : Int) < 0 := by omega
  rw [write, h]
  simp only [writeBody, hconv, if_neg hneg, Int.toNat_natCast]

theorem write_zero (size : Nat) (results : Nat → SputnResult) :
    write size results 0 = whileTest size ⟨toInt32 size, 0, []⟩ := rfl

theorem write_first (hpos : 0 < size) (results : Nat → SputnResult) :
    write size results 0 = .calling ⟨toInt32 size, 0, []⟩ := by
  rw [write_zero, whileTest, if_pos hpos]

theorem write_returned (h : write size results k = .returned s) (j : Nat) :
    write size results (k + j) = .returned s := by
  induction j with
  | zero => exact h
  | succ j ih => rw [← Nat.add_assoc, write, ih]

/-- A length of zero stays zero, and nothing is ever accepted. -/
theorem write_stuck (hp : Partial size results) (hsize : toInt32 size = 0) (hpos : 0 < size)
    (k : Nat) : write size results k = .calling ⟨0, 0, []⟩ := by
  induction k with
  | zero => rw [write_first hpos, hsize]
  | succ k ih =>
    have hres : (results k).res = (0 : Nat) := by
      have hr := hp k _ ih (Int.le_refl 0)
      simp only at hr
      omega
    rw [write_succ ih hres (by simp)]
    simp only [List.range'_zero, List.append_nil, Nat.add_zero]
    rw [whileTest, if_pos hpos]
    rfl

/-- An empty file is returned before any call. -/
theorem write_empty (results : Nat → SputnResult) (k : Nat) :
    write 0 results k = .returned ⟨0, 0, []⟩ := by
  rw [← Nat.zero_add k]
  exact write_returned rfl k

theorem inside_empty (results : Nat → SputnResult) : Inside 0 results := by
  constructor
  · intro k s hs
    rw [write_empty] at hs
    cases hs
  · intro k s hs
    rw [write_empty] at hs
    cases hs
    rfl

/-- One call that accepts the whole file. -/
theorem write_once (hpos : 0 < size) (hlt : size < 2147483648) (hall : (results 0).res = size)
    (k : Nat) : write size results (k + 1) =
      .returned ⟨toInt32 (size * 2), size, List.range size⟩ := by
  have hsize : toInt32 (size : Int) = size := toInt32_eq (by omega)
  have hfirst : write size results 0 = .calling ⟨size, 0, []⟩ := by
    rw [write_first hpos, hsize]
  have hnext : write size results 1 = .returned ⟨toInt32 (size * 2), size, List.range size⟩ := by
    rw [write_succ hfirst hall (Int.le_refl _), whileTest, if_neg (by simp), List.range_eq_range']
    simp
  rw [Nat.add_comm]
  exact write_returned hnext k

/-- While the calls stay inside the file, each one asks for twice as much as the one before. -/
theorem write_doubles (hp : Partial size results) (hin : Inside size results)
    (hbig : 4294967296 ≤ size) (hpos : 0 < toInt32 size) (k : Nat) :
    ∃ s, write size results k = .calling s ∧ s.nums = toInt32 size * 2 ^ k ∧
      s.totalwrited + toInt32 size ≤ toInt32 size * 2 ^ k := by
  induction k with
  | zero =>
    refine ⟨⟨toInt32 size, 0, []⟩, ?_, by simp, by simp⟩
    exact write_first (by omega) results
  | succ k ih =>
    obtain ⟨s, hs, hnums, htotal⟩ := ih
    obtain ⟨hnonneg, -⟩ := hin.range k s hs
    obtain ⟨hres, hle⟩ := hp k s hs hnonneg
    obtain ⟨r, hr⟩ := Int.eq_ofNat_of_zero_le hres
    have hlt := (write_nums hs).2
    have hdouble : toInt32 size * 2 ^ (k + 1) = s.nums * 2 := by rw [hnums, pow_succ, Int.mul_assoc]
    have hnext := write_succ hs hr (by omega)
    rw [← hnums] at htotal
    rw [whileTest, if_pos (by simp only; omega)] at hnext
    have hdoubled : toInt32 (s.nums * 2) = s.nums * 2 := by
      have hrange := (hin.range (k + 1) _ hnext).1
      simp only [toInt32] at hrange ⊢
      omega
    refine ⟨_, hnext, ?_, ?_⟩
    · rw [hdouble]
      exact hdoubled
    · rw [hdouble]
      simp only [Nat.cast_add]
      omega

/-- Calls that stay inside a file of `2^32` bytes or more would go on until `nums` overflows. -/
theorem write_not_inside (hp : Partial size results) (hbig : 4294967296 ≤ size)
    (hpos : 0 < toInt32 size) : ¬ Inside size results := by
  intro hin
  obtain ⟨s, hs, hnums, -⟩ := write_doubles hp hin hbig hpos 31
  have hlt := (write_nums hs).2
  omega

theorem toInt32_eq_zero : toInt32 size = 0 ↔ size % 4294967296 = 0 := by
  unfold toInt32
  omega

/-- Calls that ask for nothing stay inside any file. -/
theorem inside_stuck (hp : Partial size results) (hsize : toInt32 size = 0) :
    Inside size results := by
  rcases Nat.eq_zero_or_pos size with rfl | hpos
  · exact inside_empty results
  · constructor
    · intro k s hs
      rw [write_stuck hp hsize hpos k] at hs
      cases hs
      simp
    · intro k s hs
      rw [write_stuck hp hsize hpos k] at hs
      cases hs

/-- A first call that takes the whole file is the only one. -/
theorem inside_once (hlt : size < 2147483648) (hall : (results 0).res = size) :
    Inside size results := by
  rcases Nat.eq_zero_or_pos size with rfl | hpos
  · exact inside_empty results
  · constructor
    · intro k s hs
      cases k with
      | zero =>
        obtain ⟨rfl, -⟩ := whileTest_calling hs
        have hsize : toInt32 (size : Int) = size := toInt32_eq (by omega)
        simp [hsize]
      | succ k =>
        rw [write_once hpos hlt hall k] at hs
        cases hs
    · intro k s hs
      cases k with
      | zero =>
        obtain ⟨rfl, hle⟩ := whileTest_returned hs
        simp at hle
        omega
      | succ k =>
        rw [write_once hpos hlt hall k] at hs
        injection hs with hs
        rw [← hs]

/-- A size that is no `int` is a negative length, or goes on to an overflow. -/
theorem lt_of_inside (hp : Partial size results) (hin : Inside size results)
    (hne : toInt32 size ≠ 0) : size < 2147483648 := by
  have hpos : 0 < size := by
    rcases Nat.eq_zero_or_pos size with rfl | hpos
    · exact absurd rfl hne
    · exact hpos
  have hnonneg : 0 ≤ toInt32 size := (hin.range 0 _ (write_first hpos results)).1
  by_contra hge
  have hbig : 4294967296 ≤ size := by
    unfold toInt32 at hnonneg
    omega
  exact write_not_inside hp hbig (by omega) hin

/-- A first call that leaves something is followed by one that asks for too much. -/
theorem first_of_inside (hp : Partial size results) (hin : Inside size results) (hpos : 0 < size)
    (hlt : size < 2147483648) : (results 0).res = size := by
  have hfirst := write_first hpos results
  have hsize : toInt32 (size : Int) = size := toInt32_eq (by omega)
  obtain ⟨hres, hle⟩ := hp 0 _ hfirst (by simp only [hsize]; omega)
  simp only [hsize] at hle
  by_contra hshort
  obtain ⟨r, hr⟩ := Int.eq_ofNat_of_zero_le hres
  have hnext := write_succ hfirst hr (by simp only [hsize]; omega)
  rw [whileTest, if_pos (by simp only; omega)] at hnext
  obtain ⟨hrange, hend⟩ := hin.range 1 _ hnext
  simp only [toInt32, Nat.cast_add] at hrange hend
  omega

end Runs

/-- For any partial writes, the calls stay inside the file and hand it over exactly, exactly when
the conversion of its size leaves nothing to ask for, or the size is an `int` and the first call
takes the whole file. -/
theorem write_inside_iff (size : Nat) (results : Nat → SputnResult) (hp : Partial size results) :
    Inside size results ↔
      size % 4294967296 = 0 ∨ (size < 2147483648 ∧ (results 0).res = size) := by
  constructor
  · intro hin
    by_cases hzero : size % 4294967296 = 0
    · exact .inl hzero
    · have hlt := lt_of_inside hp hin (mt toInt32_eq_zero.mp hzero)
      exact .inr ⟨hlt, first_of_inside hp hin (by omega) hlt⟩
  · rintro (hzero | ⟨hlt, hall⟩)
    · exact inside_stuck hp (toInt32_eq_zero.mpr hzero)
    · exact inside_once hlt hall

def whole : Nat → SputnResult := fun _ => ⟨5, false⟩

theorem write_inside_iff_whole : Inside 5 whole := by
  have hp : Partial 5 whole := by
    intro k s hs _
    cases k with
    | zero => cases hs; decide
    | succ k =>
      rw [write_once (by decide) (by decide) rfl k] at hs
      cases hs
  exact (write_inside_iff 5 whole hp).mpr (.inr ⟨by decide, rfl⟩)

/-- A stream buffer that accepts four bytes a time. -/
def four : Nat → SputnResult := fun _ => ⟨4, false⟩

/-- Ten bytes, four accepted: the next call offers twenty from position four on, and two bytes
behind the file are sent. -/
theorem write_four :
    Partial 10 four ∧ write 10 four 1 = .calling ⟨20, 4, [0, 1, 2, 3]⟩ ∧
      write 10 four 3 = .returned ⟨80, 12, List.range 12⟩ ∧ ¬ Inside 10 four := by
  have hret : write 10 four 3 = .returned ⟨80, 12, List.range 12⟩ := rfl
  refine ⟨?_, rfl, hret, ?_⟩
  · intro k s hs _
    match k with
    | 0 => cases hs; decide
    | 1 => cases hs; decide
    | 2 => cases hs; decide
    | k + 3 =>
      rw [Nat.add_comm, write_returned hret] at hs
      cases hs
  · intro hin
    exact absurd (hin.all 3 _ hret) (by decide)

end FileBody
end Http
end SimpleWeb
