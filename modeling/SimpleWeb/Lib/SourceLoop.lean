import SimpleWeb.Lib.ScanLoop

/-!
# Lib.SourceLoop

The loops of `ScanLoop` over a source that gives its symbols one by one instead of a list. A
source gives a list when its `get` takes that list apart and then stays at the end (`Gives`), and
a loop over a source that gives `cs` ends as the loop over `cs` does (`loopFrom_sim`). A source
that fails where it gives nothing has failed behind a loop exactly when that starved
(`loopFrom_alive`).
-/

namespace ScanLoop

variable {α ε σ ι : Type}

inductive SourceExit (ι ε σ : Type) where
  | done (s : σ) (rest : ι)
  | ret (e : ε) (s : σ) (rest : ι)
  | fault

/-- The loop over a source that has less than `fuel` symbols to give. -/
def loopFrom (get : ι → Option α × ι) (guard : σ → Bool) (body : α → σ → Pass ε σ) :
    Nat → σ → ι → SourceExit ι ε σ
  | 0, _, _ => .fault
  | fuel + 1, s, i =>
    if guard s then
      match get i with
      | (none, i') => .done s i'
      | (some c, i') =>
        match body c s with
        | .next s' => loopFrom get guard body fuel s' i'
        | .ret e s' => .ret e s' i'
        | .fault => .fault
    else .done s i

/-- A relation under which sources give lists. -/
structure Gives (get : ι → Option α × ι) (R : ι → List α → Prop) : Prop where
  cons : ∀ {i c cs}, R i (c :: cs) → ∃ i', get i = (some c, i') ∧ R i' cs
  nil : ∀ {i}, R i [] → ∃ i', get i = (none, i') ∧ R i' []

inductive SourceExit.Sim (R : ι → List α → Prop) : SourceExit ι ε σ → Exit α ε σ → Prop where
  | done {s : σ} {i : ι} {rest : List α} : R i rest → SourceExit.Sim R (.done s i) (.done s rest)
  | ret {e : ε} {s : σ} {i : ι} {rest : List α} :
      R i rest → SourceExit.Sim R (.ret e s i) (.ret e s rest)
  | fault : SourceExit.Sim R .fault .fault

theorem loopFrom_sim {get : ι → Option α × ι} {R : ι → List α → Prop} (hR : Gives get R)
    (guard : σ → Bool) (body : α → σ → Pass ε σ) (cs : List α) :
    ∀ (s : σ) {fuel : Nat} {i : ι}, cs.length < fuel → R i cs →
      SourceExit.Sim R (loopFrom get guard body fuel s i) (loop guard body s cs) := by
  induction cs with
  | nil =>
    intro s fuel i hfuel hi
    cases fuel with
    | zero => omega
    | succ fuel =>
      obtain ⟨i', hget, hi'⟩ := hR.nil hi
      by_cases hg : guard s = true
      · simp only [loopFrom, hg, if_true, hget, loop_nil]
        exact .done hi'
      · simp only [loopFrom, hg, loop_nil]
        exact .done hi
  | cons c cs ih =>
    intro s fuel i hfuel hi
    cases fuel with
    | zero => omega
    | succ fuel =>
      obtain ⟨i', hget, hi'⟩ := hR.cons hi
      by_cases hg : guard s = true
      · simp only [loopFrom, loop, hg, if_true, hget]
        cases hb : body c s with
        | next s' => exact ih s' (by simpa using hfuel) hi'
        | ret e s' => exact .ret hi'
        | fault => exact .fault
      · simp only [loopFrom, loop, hg]
        exact .done hi

/-! ## What is left of the source -/

def SourceExit.starved (guard : σ → Bool) : SourceExit ι ε σ → Bool
  | .done s _ => guard s
  | .ret _ _ _ => false
  | .fault => false

def SourceExit.source : SourceExit ι ε σ → Option ι
  | .done _ i => some i
  | .ret _ _ i => some i
  | .fault => none

theorem SourceExit.Sim.starved_eq {R : ι → List α → Prop} {x : SourceExit ι ε σ}
    {y : Exit α ε σ} (h : SourceExit.Sim R x y) (guard : σ → Bool) :
    x.starved guard = y.starved guard := by
  cases h <;> rfl

/-- Where the source gives nothing and the loop wants something, it is left as it is. -/
theorem loopFrom_none {get : ι → Option α × ι} {guard : σ → Bool} {body : α → σ → Pass ε σ}
    {s : σ} {i i' : ι} (hg : guard s = true) (h : get i = (none, i')) (fuel : Nat) :
    loopFrom get guard body (fuel + 1) s i = .done s i' := by
  simp only [loopFrom, hg, if_true, h]

theorem loopFrom_alive {get : ι → Option α × ι} {alive : ι → Bool}
    (hsome : ∀ {i c i'}, alive i = true → get i = (some c, i') → alive i' = true)
    (hnone : ∀ {i i'}, get i = (none, i') → alive i' = false) (guard : σ → Bool)
    (body : α → σ → Pass ε σ) (fuel : Nat) :
    ∀ {s : σ} {i : ι}, alive i = true → ∀ i' ∈ (loopFrom get guard body fuel s i).source,
      alive i' = !(loopFrom get guard body fuel s i).starved guard := by
  induction fuel with
  | zero => exact fun _ => nofun
  | succ fuel ih =>
    intro s i halive i' hi'
    by_cases hg : guard s = true
    · cases hget : get i with
      | mk o j =>
        cases o with
        | none =>
          rw [loopFrom_none hg hget] at hi' ⊢
          cases hi'
          rw [SourceExit.starved, hg, hnone hget]
          rfl
        | some c =>
          have hj := hsome halive hget
          simp only [loopFrom, hg, if_true, hget] at hi' ⊢
          cases hb : body c s with
          | next s' =>
            rw [hb] at hi'
            exact ih hj i' hi'
          | ret e s' =>
            rw [hb] at hi'
            cases hi'
            exact hj
          | fault =>
            rw [hb] at hi'
            cases hi'
    · rw [loopFrom, if_neg hg] at hi' ⊢
      cases hi'
      rw [halive, SourceExit.starved, Bool.eq_false_of_not_eq_true hg]
      rfl

end ScanLoop
