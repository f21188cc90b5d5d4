import SimpleWeb.Lib.FloorWalk
import SimpleWeb.Http.WriteLoop

/-!
# Http.WriteLengths

The lengths `file_body::write` asks for, and when its integers hold them.

A length is doubled behind a result that is not negative, and halved behind any other while it is
above 4096. So its binary logarithm walks up and down over a floor (`asked_walk`): 11, or 12 for a
length that comes down to 4096 itself. It stays below 31 exactly when the results that are not
negative never outnumber the others by too much, from the first call on or from any later one
(`write_exact_iff`).
-/

namespace SimpleWeb
namespace Http
namespace FileBody

open FloorWalk

/-- The length that call `k` asks for, without a conversion. -/
def asked (size : Nat) (results : Nat → SputnResult) : Nat → Nat
  | 0 => size
  | k + 1 =>
    if (results k).res < 0 then
      if asked size results k > 4096 then asked size results k / 2 else asked size results k
    else asked size results k * 2

/-- No result is more than what its call has asked for. -/
def Within (size : Nat) (results : Nat → SputnResult) : Prop :=
  ∀ k s, write size results k = .calling s → 0 ≤ s.nums → (results k).res ≤ s.nums

/-- In front of a call that `s` makes: the conversions so far have changed nothing, the length is
positive, and `res` takes the result. -/
structure ExactCall (nums : Nat) (r : SputnResult) (s : WriteVars) : Prop where
  nums : s.nums = nums
  pos : 0 < s.nums
  res : toInt32 r.res = r.res

/-- The conversions are exact in every pass of the loop. -/
def Exact (size : Nat) (results : Nat → SputnResult) : Prop :=
  ∀ k s, write size results k = .calling s → ExactCall (asked size results k) (results k) s

/-- Which results are not negative -/
def oks (results : Nat → SputnResult) (i : Nat) : Bool := 0 ≤ (results i).res

/-- The first 13 binary digits -/
def head13 (n : Nat) : Nat := n * 4096 / 2 ^ Nat.log 2 n

/-- A size that begins like 4097 has been halved down to 2048, and doubled again. -/
def Dropped (size : Nat) (results : Nat → SputnResult) (j : Nat) : Prop :=
  head13 size = 4097 ∧
    ∃ i < j, Nat.log 2 size + gain (oks results) 0 i ≤ 11 ∧ oks results i = true

instance (size : Nat) (results : Nat → SputnResult) (j : Nat) :
    Decidable (Dropped size results j) :=
  inferInstanceAs (Decidable (_ ∧ _))

/-- The logarithm of the lengths that are not halved any more -/
def restLog (size : Nat) (results : Nat → SputnResult) (j : Nat) : Nat :=
  if head13 size = 4096 ∨ Dropped size results j then 12 else 11

def floorLog (size : Nat) (results : Nat → SputnResult) (j : Nat) : Int :=
  min (restLog size results j : Int) (Nat.log 2 size + rises (oks results) j)

/-- The results in front of call `k` leave the length below `2^31`, and its own is not below the
least `int`. -/
structure Room (size : Nat) (results : Nat → SputnResult) (k : Nat) : Prop where
  start : Nat.log 2 size + gain (oks results) 0 k ≤ 30
  floor : ∀ j ≤ k, floorLog size results j + gain (oks results) j k ≤ 30
  res : -2147483648 ≤ (results k).res

/-! ## The first digits -/

section Digits

variable {n : Nat}

theorem log_double (hpos : 0 < n) : Nat.log 2 (n * 2) = Nat.log 2 n + 1 :=
  Nat.log_mul_base Nat.one_lt_two hpos.ne'

theorem head13_double (hpos : 0 < n) : head13 (n * 2) = head13 n := by
  rw [head13, head13, log_double hpos, pow_succ, Nat.mul_right_comm,
    Nat.mul_div_mul_right _ _ Nat.two_pos]

theorem head13_shift (h : 12 ≤ Nat.log 2 n) : head13 n = n / 2 ^ (Nat.log 2 n - 12) := by
  obtain ⟨m, hm⟩ := Nat.exists_eq_add_of_le h
  rw [head13, hm, pow_add, Nat.add_sub_cancel_left, ← Nat.div_div_eq_div_mul]
  norm_num

theorem head13_half (h : 13 ≤ Nat.log 2 n) : head13 (n / 2) = head13 n := by
  have hlog : Nat.log 2 (n / 2) = Nat.log 2 n - 1 := Nat.log_div_base 2 n
  obtain ⟨m, hm⟩ := Nat.exists_eq_add_of_le h
  have hlarge : 12 ≤ Nat.log 2 (n / 2) := by omega
  rw [head13_shift hlarge, head13_shift (by omega), hlog, hm, Nat.div_div_eq_div_mul, ← pow_succ']
  congr 2
  omega

theorem head13_twelve (h : Nat.log 2 n = 12) : head13 n = n := by
  rw [head13_shift h.ge, h]
  simp

theorem head13_eleven (h : Nat.log 2 n = 11) : head13 n = n * 2 := by
  rw [head13, h]
  omega

/-- The first digits of a short length end in 0. -/
theorem head13_short (h : Nat.log 2 n ≤ 11) : head13 n ≠ 4097 := by
  obtain ⟨m, hm⟩ := Nat.exists_eq_add_of_le h
  have hpow : 4096 = 2 ^ m * 2 * 2 ^ Nat.log 2 n := by
    rw [← pow_succ, ← pow_add]
    have hsum : m + 1 + Nat.log 2 n = 12 := by omega
    rw [hsum]
    norm_num
  have hhead : head13 n = n * 2 ^ m * 2 := by
    rw [head13, hpow, ← Nat.mul_assoc, ← Nat.mul_assoc,
      Nat.mul_div_cancel _ (Nat.two_pow_pos _)]
  omega

theorem head13_ge (hpos : 0 < n) : 4096 ≤ head13 n := by
  rw [head13, Nat.le_div_iff_mul_le (Nat.two_pow_pos _), Nat.mul_comm]
  exact Nat.mul_le_mul_right 4096 (Nat.pow_log_le_self 2 hpos.ne')

/-- The lengths that are not halved: up to 12 digits, and 4096. -/
theorem le_rest_iff (hpos : 0 < n) :
    n ≤ 4096 ↔ Nat.log 2 n ≤ 11 ∨ (Nat.log 2 n = 12 ∧ head13 n = 4096) := by
  have hlt := Nat.lt_pow_succ_log_self Nat.one_lt_two n
  have hge := Nat.pow_log_le_self 2 hpos.ne'
  rcases Nat.lt_trichotomy (Nat.log 2 n) 12 with h | h | h
  · have hpow : 2 ^ (Nat.log 2 n).succ ≤ 2 ^ 12 := Nat.pow_le_pow_right Nat.two_pos h
    refine iff_of_true ?_ (.inl (by omega))
    omega
  · rw [head13_twelve h]
    rw [h] at hge
    omega
  · have hpow : 2 ^ 13 ≤ 2 ^ Nat.log 2 n := Nat.pow_le_pow_right Nat.two_pos h
    refine iff_of_false ?_ ?_
    · omega
    · omega

end Digits

/-! ## The walk of the lengths -/

section Walk

variable {size k : Nat} {results : Nat → SputnResult}

theorem res_nonneg (h : oks results k = true) : ¬ (results k).res < 0 :=
  Int.not_lt.mpr (of_decide_eq_true h)

theorem res_neg (h : oks results k = false) : (results k).res < 0 :=
  Int.not_le.mp (of_decide_eq_false h)

theorem asked_ok (h : oks results k = true) :
    asked size results (k + 1) = asked size results k * 2 := by
  rw [asked, if_neg (res_nonneg h)]

theorem asked_half (h : oks results k = false) (hlarge : 4096 < asked size results k) :
    asked size results (k + 1) = asked size results k / 2 := by
  rw [asked, if_pos (res_neg h), if_pos hlarge]

theorem asked_kept (h : oks results k = false) (hsmall : asked size results k ≤ 4096) :
    asked size results (k + 1) = asked size results k := by
  rw [asked, if_pos (res_neg h), if_neg (Nat.not_lt.mpr hsmall)]

theorem asked_pos (results : Nat → SputnResult) (hpos : 0 < size) (k : Nat) :
    0 < asked size results k := by
  induction k with
  | zero => exact hpos
  | succ k ih =>
    rw [asked]
    split
    · split
      · omega
      · exact ih
    · omega

theorem dropped_succ : Dropped size results (k + 1) ↔ Dropped size results k ∨
    (head13 size = 4097 ∧ Nat.log 2 size + gain (oks results) 0 k ≤ 11 ∧ oks results k = true) := by
  simp only [Dropped, Nat.exists_lt_succ_right, and_or_left]

theorem dropped_down (h : oks results k = false) :
    Dropped size results (k + 1) ↔ Dropped size results k := by
  simp [dropped_succ, h]

theorem restLog_le (size : Nat) (results : Nat → SputnResult) (k : Nat) :
    restLog size results (k + 1) ≤ restLog size results k + 1 := by
  unfold restLog
  split <;> split <;> omega

theorem restLog_down (h : oks results k = false) :
    restLog size results (k + 1) = restLog size results k := by
  simp only [restLog, dropped_down h]

/-- The first digits of the length for call `k`: those of the size, unless they have been lost. -/
structure Digits (size : Nat) (results : Nat → SputnResult) (k : Nat) : Prop where
  low : head13 size = 4096 ∨ Dropped size results k → head13 (asked size results k) = 4096
  high : 4098 ≤ head13 size → 4098 ≤ head13 (asked size results k)
  mid : head13 size = 4097 → ¬ Dropped size results k →
    (11 < Nat.log 2 size + gain (oks results) 0 k ∧
      Nat.log 2 (asked size results k) = Nat.log 2 size + gain (oks results) 0 k ∧
      head13 (asked size results k) = 4097) ∨
    (Nat.log 2 size + gain (oks results) 0 k ≤ 11 ∧ asked size results k = 2048)

theorem digits_zero : Digits size results 0 where
  low h := by
    rcases h with h | ⟨-, i, hi, -⟩
    · exact h
    · omega
  high h := h
  mid h _ := by
    have hlog : ¬ Nat.log 2 size ≤ 11 := fun hle => head13_short hle h
    refine .inl ⟨?_, ?_, h⟩
    · rw [gain_self]
      omega
    · rw [gain_self, add_zero]
      rfl

theorem digits_up (hpos : 0 < size) (h : Digits size results k) (hok : oks results k = true) :
    Digits size results (k + 1) := by
  have hask := asked_pos results hpos k
  have hhead : head13 (asked size results (k + 1)) = head13 (asked size results k) := by
    rw [asked_ok hok, head13_double hask]
  constructor
  · intro hlow
    rw [dropped_succ, ← or_assoc] at hlow
    rcases hlow with hlow | ⟨hmid, hgain, -⟩
    · rw [hhead, h.low hlow]
    · by_cases hdrop : Dropped size results k
      · rw [hhead, h.low (.inr hdrop)]
      · rcases h.mid hmid hdrop with ⟨hlt, -⟩ | ⟨-, heq⟩
        · omega
        · rw [asked_ok hok, heq]
          decide +kernel
  · intro hhigh
    rw [hhead]
    exact h.high hhigh
  · intro hmid hno
    rw [dropped_succ, not_or] at hno
    obtain ⟨hno, hgain⟩ := hno
    rcases h.mid hmid hno with ⟨hlt, hlog, hdigits⟩ | ⟨hle, -⟩
    · refine .inl ⟨?_, ?_, hhead.trans hdigits⟩
      · rw [gain_up (Nat.zero_le k) hok]
        omega
      · rw [gain_up (Nat.zero_le k) hok, asked_ok hok, log_double hask]
        omega
    · exact absurd ⟨hmid, hle, hok⟩ hgain

/-- 13 digits are left when the length is halved. -/
theorem digits_half (h : Digits size results k) (hok : oks results k = false)
    (hlarge : 4096 < asked size results k) (hlong : 12 < Nat.log 2 (asked size results k)) :
    Digits size results (k + 1) := by
  have hhead := head13_half hlong
  have hlog : Nat.log 2 (asked size results k / 2) = Nat.log 2 (asked size results k) - 1 :=
    Nat.log_div_base 2 _
  have hgain := gain_down (Nat.zero_le k) hok
  rw [← asked_half hok hlarge] at hhead hlog
  constructor
  · rw [dropped_down hok, hhead]
    exact h.low
  · rw [hhead]
    exact h.high
  · intro hmid hno
    rcases h.mid hmid ((dropped_down hok).not.mp hno) with ⟨hlt, hlog', hdigits⟩ | ⟨-, heq⟩
    · exact .inl ⟨by omega, by omega, hhead.trans hdigits⟩
    · omega

/-- 13 digits are halved to 12, and the last one may be lost. -/
theorem digits_lost (h : Digits size results k) (hok : oks results k = false)
    (hlarge : 4096 < asked size results k) (htwelve : Nat.log 2 (asked size results k) = 12) :
    Digits size results (k + 1) := by
  have hhead := head13_twelve htwelve
  have hlog : Nat.log 2 (asked size results k / 2) = Nat.log 2 (asked size results k) - 1 :=
    Nat.log_div_base 2 _
  have heleven : head13 (asked size results k / 2) = asked size results k / 2 * 2 :=
    head13_eleven (by omega)
  have hhalf := asked_half hok hlarge
  have hgain := gain_down (Nat.zero_le k) hok
  rw [← hhalf] at heleven
  constructor
  · intro hlow
    have hlow' := h.low (by rwa [dropped_down hok] at hlow)
    omega
  · intro hhigh
    have hhigh' := h.high hhigh
    omega
  · intro hmid hno
    rcases h.mid hmid ((dropped_down hok).not.mp hno) with ⟨hlt, hlog', hdigits⟩ | ⟨-, heq⟩
    · exact .inr ⟨by omega, by omega⟩
    · omega

theorem digits_kept (hpos : 0 < size) (h : Digits size results k) (hok : oks results k = false)
    (hsmall : asked size results k ≤ 4096) : Digits size results (k + 1) := by
  have hkept := asked_kept hok hsmall
  have hgain := gain_down (Nat.zero_le k) hok
  constructor
  · rw [dropped_down hok, hkept]
    exact h.low
  · rw [hkept]
    exact h.high
  · intro hmid hno
    rcases h.mid hmid ((dropped_down hok).not.mp hno) with ⟨hlt, hlog, hdigits⟩ | ⟨hle, heq⟩
    · have hrest := (le_rest_iff (asked_pos results hpos k)).mp hsmall
      omega
    · exact .inr ⟨by omega, hkept.trans heq⟩

theorem digits_down (hpos : 0 < size) (h : Digits size results k) (hok : oks results k = false) :
    Digits size results (k + 1) := by
  rcases Nat.lt_or_ge 4096 (asked size results k) with hlarge | hsmall
  · have hnot := (le_rest_iff (asked_pos results hpos k)).not.mp (Nat.not_le.mpr hlarge)
    have hlong : 12 ≤ Nat.log 2 (asked size results k) := by omega
    rcases Nat.lt_or_eq_of_le hlong with hlong | htwelve
    · exact digits_half h hok hlarge hlong
    · exact digits_lost h hok hlarge htwelve.symm
  · exact digits_kept hpos h hok hsmall

theorem digits (results : Nat → SputnResult) (hpos : 0 < size) (k : Nat) :
    Digits size results k := by
  induction k with
  | zero => exact digits_zero
  | succ k ih =>
    cases hok : oks results k with
    | true => exact digits_up hpos ih hok
    | false => exact digits_down hpos ih hok

/-- A length is at rest exactly when its logarithm is. -/
theorem asked_rest_iff (results : Nat → SputnResult) (hpos : 0 < size) (k : Nat) :
    asked size results k ≤ 4096 ↔
      Nat.log 2 (asked size results k) ≤ restLog size results k := by
  have hd := digits results hpos k
  have hask := asked_pos results hpos k
  have hsize := head13_ge hpos
  rw [le_rest_iff hask, restLog]
  split
  · rename_i hlow
    have hhead := hd.low hlow
    omega
  · rename_i hlow
    rw [not_or] at hlow
    obtain ⟨hne, hdrop⟩ := hlow
    have hlong : Nat.log 2 (asked size results k) = 12 →
        head13 (asked size results k) ≠ 4096 := by
      intro hlog
      by_cases hmid : head13 size = 4097
      · rcases hd.mid hmid hdrop with ⟨-, -, hdigits⟩ | ⟨-, heq⟩
        · omega
        · rw [head13_twelve hlog, heq]
          decide
      · have hhigh := hd.high (by omega)
        omega
    omega

theorem log_le_rises (results : Nat → SputnResult) (hpos : 0 < size) (k : Nat) :
    Nat.log 2 (asked size results k) ≤ Nat.log 2 size + rises (oks results) k := by
  induction k with
  | zero => exact Nat.le_add_right _ _
  | succ k ih =>
    cases hok : oks results k with
    | true =>
      rw [asked_ok hok, log_double (asked_pos results hpos k), rises_up hok]
      omega
    | false =>
      rw [rises_down hok]
      rcases Nat.lt_or_ge 4096 (asked size results k) with hlarge | hsmall
      · rw [asked_half hok hlarge, Nat.log_div_base]
        omega
      · rwa [asked_kept hok hsmall]

theorem floorLog_le (hpos : 0 < size) (k : Nat) :
    floorLog size results k ≤ Nat.log 2 (asked size results k) := by
  unfold floorLog
  induction k with
  | zero =>
    show min _ ((Nat.log 2 size : Int) + (rises (oks results) 0 : Nat)) ≤ (Nat.log 2 size : Int)
    simp [rises]
  | succ k ih =>
    cases hok : oks results k with
    | true =>
      have hrest := restLog_le size results k
      rw [asked_ok hok, log_double (asked_pos results hpos k), rises_up hok]
      omega
    | false =>
      rw [rises_down hok, restLog_down hok]
      rcases Nat.lt_or_ge 4096 (asked size results k) with hlarge | hsmall
      · have hrest := (asked_rest_iff results hpos k).not.mp (Nat.not_le.mpr hlarge)
        rw [asked_half hok hlarge, Nat.log_div_base]
        omega
      · rwa [asked_kept hok hsmall]

/-- The logarithms of the lengths walk over their floor. -/
theorem asked_walk (results : Nat → SputnResult) (hpos : 0 < size) :
    Walk (oks results) (floorLog size results) fun k => Nat.log 2 (asked size results k) where
  above := floorLog_le hpos
  rise k hok := by
    rw [asked_ok hok, log_double (asked_pos results hpos k)]
    rfl
  fall k hok hlt := by
    have hlarge : 4096 < asked size results k := by
      by_contra hsmall
      have hrest := (asked_rest_iff results hpos k).mp (Nat.not_lt.mp hsmall)
      have hrises := log_le_rises results hpos k
      unfold floorLog at hlt
      omega
    have hlog : Nat.log 2 (asked size results k / 2) = Nat.log 2 (asked size results k) - 1 :=
      Nat.log_div_base 2 _
    have hnot := (le_rest_iff (asked_pos results hpos k)).not.mp
      (Nat.not_le.mpr hlarge)
    rw [asked_half hok hlarge, hlog]
    omega
  rest k hok hle := by
    have hsmall : asked size results k ≤ 4096 := by
      rw [asked_rest_iff results hpos]
      unfold floorLog at hle
      omega
    rw [asked_kept hok hsmall]
  still k hok := by rw [floorLog, floorLog, restLog_down hok, rises_down hok]

/-- The length for call `k` is below `2^31` exactly when there is room for it. -/
theorem asked_lt_iff (results : Nat → SputnResult) (hpos : 0 < size) (k : Nat) :
    asked size results k < 2147483648 ↔ Nat.log 2 size + gain (oks results) 0 k ≤ 30 ∧
      ∀ j ≤ k, floorLog size results j + gain (oks results) j k ≤ 30 := by
  have hpow : 2147483648 = 2 ^ 31 := by norm_num
  rw [hpow, ← Nat.log_lt_iff_lt_pow Nat.one_lt_two (asked_pos results hpos k).ne']
  refine Iff.trans ?_ ((asked_walk results hpos).le_iff (b := 30) k)
  show _ ↔ (Nat.log 2 (asked size results k) : Int) ≤ 30
  omega

end Walk

/-! ## The conversions -/

section Ints

variable {size k : Nat} {results : Nat → SputnResult} {s : WriteVars}

theorem asked_succ (size : Nat) (results : Nat → SputnResult) (k : Nat) :
    (asked size results (k + 1) : Int) = nextLength (results k).res (asked size results k) := by
  unfold nextLength
  rw [asked]
  split_ifs <;> omega

theorem toInt32_natCast_iff {n : Nat} : toInt32 n = n ↔ n < 2147483648 := by
  unfold toInt32
  omega

/-- Behind exact calls the length is the converted one. -/
theorem nums_eq_asked (hbefore : ∀ j < k, ∀ s, write size results j = .calling s →
      ExactCall (asked size results j) (results j) s)
    (h : write size results k = .calling s) : s.nums = toInt32 (asked size results k) := by
  cases k with
  | zero =>
    obtain ⟨rfl, -⟩ := whileTest_calling h
    rfl
  | succ k =>
    obtain ⟨s', hs', hno⟩ := write_pred h
    obtain ⟨hnums, -, hres⟩ := hbefore k (Nat.lt_succ_self k) s' hs'
    obtain ⟨t, ht, -, hnext⟩ := write_next hs' hno
    rw [ht] at h
    obtain ⟨rfl, -⟩ := whileTest_calling h
    rw [hres, hnums, ← asked_succ] at hnext
    rw [hnext]
    split
    · rename_i hneg
      -- a length that is not doubled is an `int` as it was
      have hmax := (write_nums hs').2
      have hask : asked size results (k + 1) ≤ asked size results k := by
        rw [asked, if_pos hneg]
        split <;> omega
      exact (toInt32_natCast_iff.mpr (by omega)).symm
    · rfl

/-- Behind exact calls, the next one is exact when its length and its result are no more than an
`int` holds. -/
theorem exactCall_iff (hw : Within size results) (hpos : 0 < size)
    (hbefore : ∀ j < k, ∀ s, write size results j = .calling s →
      ExactCall (asked size results j) (results j) s)
    (h : write size results k = .calling s) :
    ExactCall (asked size results k) (results k) s ↔ Room size results k := by
  have hnums := nums_eq_asked hbefore h
  have hask := asked_pos results hpos k
  have hlt := asked_lt_iff results hpos k
  constructor
  · rintro ⟨hexact, -, hres⟩
    rw [hnums, toInt32_natCast_iff, hlt] at hexact
    have hbounds := toInt32_bounds (results k).res
    exact ⟨hexact.1, hexact.2, by omega⟩
  · rintro ⟨hstart, hfloor, hres⟩
    have hexact : s.nums = asked size results k := by
      rw [hnums, toInt32_natCast_iff, hlt]
      exact ⟨hstart, hfloor⟩
    have hlength : 0 < s.nums := by omega
    have hle := hw k s h hlength.le
    have hmax := (write_nums h).2
    exact ⟨hexact, hlength, toInt32_eq (by omega)⟩

end Ints

/-- For every size and all results of which none is more than its call has asked for: both
conversions are exact in every pass exactly when the size and the results leave room for each call
that the results let the loop make. -/
theorem write_exact_iff (size : Nat) (results : Nat → SputnResult) (hw : Within size results) :
    Exact size results ↔ ∀ k, Called size results k → Room size results k := by
  have hsize : ∀ k, Called size results k → 0 < size := fun k h => by
    have hlt := h.1
    omega
  constructor
  · intro hexact k hcalled
    obtain ⟨s, hs⟩ := calling_of_called hcalled
    exact (exactCall_iff hw (hsize k hcalled) (fun j _ => hexact j) hs).mp (hexact k s hs)
  · intro hroom k
    induction k using Nat.strong_induction_on with
    | _ k ih =>
      intro s hs
      have hcalled := (called_of_calling hs).1
      exact (exactCall_iff hw (hsize k hcalled) ih hs).mpr (hroom k hcalled)

theorem refused_within : Within 5 refused := by
  intro k s _ hnums
  have hneg : (-1 : Int) ≤ s.nums := by omega
  exact hneg

theorem refused_room (k : Nat) : Room 5 refused k := by
  have hdown : ∀ i, oks refused i = false := fun _ => rfl
  have hgain : ∀ j, gain (oks refused) j k ≤ 0 := by
    intro j
    refine Finset.sum_nonpos ?_
    intro i _
    rw [hdown]
    decide
  have hrises : ∀ j, rises (oks refused) j = 0 := fun j => by simp [rises, hdown]
  have hlog : Nat.log 2 5 = 2 := by decide +kernel
  refine ⟨?_, ?_, ?_⟩
  · have h := hgain 0
    rw [hlog]
    omega
  · intro j _
    have h := hgain j
    rw [floorLog, hrises, hlog]
    omega
  · show (-2147483648 : Int) ≤ -1
    decide

/-- The calls on a connection that has been reset ask for the five bytes, every time. -/
theorem write_exact_refused : Exact 5 refused :=
  (write_exact_iff 5 refused refused_within).mpr fun k _ => refused_room k

/-- A stream buffer that takes one byte of the first call, and then nothing. -/
def oneByte : Nat → SputnResult
  | 0 => ⟨1, false⟩
  | _ + 1 => ⟨-1, false⟩

theorem oneByte_within : Within 1073741824 oneByte := by
  intro k s hs hnums
  cases k with
  | zero =>
    rw [write_first (by decide)] at hs
    cases hs
    decide
  | succ k =>
    have hneg : (-1 : Int) ≤ s.nums := by omega
    exact hneg

/-- A file of `2^30` bytes, of which the first call accepts one: the doubled length is `-2^31`. -/
theorem write_exact_doubled : ¬ ∀ (size : Nat) (results : Nat → SputnResult),
    Within size results → Exact size results := by
  intro hall
  have hexact := hall 1073741824 oneByte oneByte_within
  have hfirst : write 1073741824 oneByte 1 = .calling ⟨-2147483648, 1, [0]⟩ := rfl
  exact absurd (hexact 1 _ hfirst).pos (by decide)

end FileBody
end Http
end SimpleWeb
