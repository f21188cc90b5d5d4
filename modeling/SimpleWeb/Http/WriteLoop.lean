import SimpleWeb.Http.FileBody

/-!
# Http.WriteLoop

Which calls the loop of `file_body::write` makes, from the results of `sputn` alone, and what
follows for its end.

* `write_calling_iff` — a call is made when the results in front of it accept fewer bytes than the
  file has, and none of them is an `EFAULT`.
* `write_returns_iff` — so any other error goes round the loop, and a connection that is dead goes
  round it for ever.
-/

namespace SimpleWeb
namespace Http
namespace FileBody

/-- The results that make the loop `break`. -/
def SputnResult.Breaks (r : SputnResult) : Prop := toInt32 r.res < 0 ∧ r.efault = true

/-- The bytes that the results in front of call `k` accept. -/
def acceptedBefore (results : Nat → SputnResult) : Nat → Nat
  | 0 => 0
  | k + 1 => acceptedBefore results k + (toInt32 (results k).res).toNat

/-- The results in front of call `k` neither accept the file nor end the loop. -/
def Called (size : Nat) (results : Nat → SputnResult) (k : Nat) : Prop :=
  acceptedBefore results k < size ∧ ∀ i < k, ¬ (results i).Breaks

def Returns (size : Nat) (results : Nat → SputnResult) : Prop :=
  ∃ k s, write size results k = .returned s

/-- From some call on every one fails. -/
def Dead (results : Nat → SputnResult) : Prop := ∃ n, ∀ k, n ≤ k → (results k).res < 0

/-- The length for the next call, in front of the conversion that goes with the doubling. -/
def nextLength (res nums : Int) : Int :=
  if res < 0 then if nums > 4096 then nums / 2 else nums else nums * 2

section Loop

variable {size k : Nat} {results : Nat → SputnResult} {r : SputnResult} {s t : WriteVars}

/-! ## One pass -/

theorem writeBody_breaks (h : r.Breaks) : writeBody size r s = .returned s := by
  obtain ⟨hneg, hefault⟩ := h
  simp only [writeBody, if_pos hneg, hefault, if_true]

/-- Any other result: the length is doubled or halved and the bytes are added. -/
theorem writeBody_next (h : ¬ r.Breaks) : ∃ t, writeBody size r s = whileTest size t ∧
    t.totalwrited = s.totalwrited + (toInt32 r.res).toNat ∧
    t.nums = if toInt32 r.res < 0 then nextLength (toInt32 r.res) s.nums
      else toInt32 (nextLength (toInt32 r.res) s.nums) := by
  by_cases hneg : toInt32 r.res < 0
  · have hefault : ¬ r.efault = true := fun he => h ⟨hneg, he⟩
    have hzero : (toInt32 r.res).toNat = 0 := by omega
    refine ⟨{ s with nums := if s.nums > 4096 then s.nums / 2 else s.nums }, ?_, ?_, ?_⟩
    · simp only [writeBody, if_pos hneg, if_neg hefault]
    · rw [hzero, Nat.add_zero]
    · simp only [nextLength, if_pos hneg]
  · refine ⟨⟨toInt32 (s.nums * 2), s.totalwrited + (toInt32 r.res).toNat,
      s.accepted ++ List.range' s.totalwrited (toInt32 r.res).toNat⟩, ?_, rfl, ?_⟩
    · simp only [writeBody, if_neg hneg]
    · simp only [nextLength, if_neg hneg]

theorem write_breaks (hs : write size results k = .calling s) (h : (results k).Breaks) :
    write size results (k + 1) = .returned s := by
  rw [write, hs]
  exact writeBody_breaks h

theorem write_next (hs : write size results k = .calling s) (h : ¬ (results k).Breaks) :
    ∃ t, write size results (k + 1) = whileTest size t ∧
      t.totalwrited = s.totalwrited + (toInt32 (results k).res).toNat ∧
      t.nums = if toInt32 (results k).res < 0 then nextLength (toInt32 (results k).res) s.nums
        else toInt32 (nextLength (toInt32 (results k).res) s.nums) := by
  rw [write, hs]
  exact writeBody_next h

/-- The pass in front of one that calls. -/
theorem write_pred (h : write size results (k + 1) = .calling t) :
    ∃ s, write size results k = .calling s ∧ ¬ (results k).Breaks := by
  cases hs : write size results k with
  | returned s =>
    rw [write_returned hs 1] at h
    cases h
  | calling s =>
    refine ⟨s, rfl, ?_⟩
    intro hb
    rw [write_breaks hs hb] at h
    cases h

/-! ## The calls that are made -/

theorem Called.pred (h : Called size results (k + 1)) :
    Called size results k ∧ ¬ (results k).Breaks := by
  obtain ⟨hlt, hno⟩ := h
  rw [acceptedBefore] at hlt
  exact ⟨⟨by omega, fun i hi => hno i (by omega)⟩, hno k (Nat.lt_succ_self k)⟩

theorem called_of_calling (h : write size results k = .calling s) :
    Called size results k ∧ s.totalwrited = acceptedBefore results k := by
  induction k generalizing s with
  | zero =>
    obtain ⟨rfl, hlt⟩ := whileTest_calling h
    refine ⟨⟨hlt, ?_⟩, rfl⟩
    intro i hi
    exact absurd hi (Nat.not_lt_zero i)
  | succ k ih =>
    obtain ⟨s', hs', hno⟩ := write_pred h
    obtain ⟨⟨-, hbefore⟩, htotal⟩ := ih hs'
    obtain ⟨t, ht, hsum, -⟩ := write_next hs' hno
    rw [ht] at h
    obtain ⟨rfl, hlt⟩ := whileTest_calling h
    have haccepted : s.totalwrited = acceptedBefore results (k + 1) := by
      rw [hsum, htotal, acceptedBefore]
    refine ⟨⟨haccepted ▸ hlt, ?_⟩, haccepted⟩
    intro i hi
    rcases Nat.lt_succ_iff_lt_or_eq.mp hi with hi | rfl
    · exact hbefore i hi
    · exact hno

theorem calling_of_called (h : Called size results k) :
    ∃ s, write size results k = .calling s := by
  induction k with
  | zero => exact ⟨_, write_first h.1 results⟩
  | succ k ih =>
    obtain ⟨hpred, hno⟩ := h.pred
    obtain ⟨s, hs⟩ := ih hpred
    obtain ⟨t, ht, hsum, -⟩ := write_next hs hno
    refine ⟨t, ?_⟩
    rw [ht, whileTest, if_pos]
    rw [hsum, (called_of_calling hs).2]
    exact h.1

/-- The calls of the loop, from the results alone. -/
theorem write_calling_iff : (∃ s, write size results k = .calling s) ↔ Called size results k := by
  constructor
  · rintro ⟨s, hs⟩
    exact (called_of_calling hs).1
  · exact calling_of_called

end Loop

/-! ## The end of the loop -/

/-- For every size and all results: the loop ends exactly when the results accept as many bytes as
the file has, or one of them is negative and leaves `EFAULT`. -/
theorem write_returns_iff (size : Nat) (results : Nat → SputnResult) :
    Returns size results ↔
      ∃ k, size ≤ acceptedBefore results k ∨ (results k).Breaks := by
  constructor
  · rintro ⟨k, s, hs⟩
    by_contra hno
    rw [not_exists] at hno
    have hcalled : Called size results k := by
      refine ⟨?_, ?_⟩
      · exact Nat.lt_of_not_le fun hle => hno k (.inl hle)
      · intro i _ hb
        exact hno i (.inr hb)
    obtain ⟨t, ht⟩ := calling_of_called hcalled
    rw [hs] at ht
    cases ht
  · rintro ⟨k, h⟩
    cases hs : write size results (k + 1) with
    | returned s => exact ⟨k + 1, s, hs⟩
    | calling s =>
      obtain ⟨hpred, hno⟩ := (called_of_calling hs).1.pred
      rcases h with hle | hb
      · exact absurd hpred.1 (by omega)
      · exact absurd hb hno

/-- A connection that has been reset. -/
def refused : Nat → SputnResult := fun _ => ⟨-1, false⟩

theorem refused_called (k : Nat) : Called 5 refused k := by
  have hnone : ∀ j, acceptedBefore refused j = 0 := by
    intro j
    induction j with
    | zero => rfl
    | succ j ih =>
      rw [acceptedBefore, ih]
      rfl
  refine ⟨by rw [hnone]; decide, ?_⟩
  rintro i - ⟨-, hefault⟩
  cases hefault

/-- Every call fails with another `errno`, and the next one is made. -/
theorem write_dead : ¬ ∀ (size : Nat) (results : Nat → SputnResult),
    Dead results → Returns size results := by
  intro hall
  have hdead : Dead refused := by
    refine ⟨0, ?_⟩
    intro k _
    have hneg : (-1 : Int) < 0 := by decide
    exact hneg
  obtain ⟨k, s, hs⟩ := hall 5 refused hdead
  obtain ⟨t, ht⟩ := calling_of_called (refused_called k)
  rw [hs] at ht
  cases ht

end FileBody
end Http
end SimpleWeb
