import Mathlib

/-!
# Lib.ScanLoop

Loops that read one symbol per pass, `for (; guard && get(c);) body`, as a recursion on the
input, with the rules every parser built from such a loop uses.

* `Pass`  — what one pass of the body does: go on, return from the function, or fault.
* `Exit`  — how the whole loop ends, with the input it left unread.
* `Runs`  — a piece of input is read by passes that all go on. `Runs.append` composes pieces,
  `loop_of_runs` replaces a piece by its effect, and `Runs.invariant` is the induction rule:
  a relation between the symbols read so far and the state, kept by every pass, holds at the
  end of the piece.
* `exit_done` / `exit_ret` / `exit_fault` — what the end of a loop says about the input it
  consumed. `Exit.starved`: it wanted more.
* `loop_sim` — two loops over related states end in related ways; `loop_sameFault` asks less of
  what they return.
* `Runs.count` / `loop_fault_of_count` — symbols that are counted up to a bound, and what is
  behind it.
* `loop_fault_take` — a guard that counts passes is a cut of the input.
-/

namespace ScanLoop

variable {α ε σ : Type}

inductive Pass (ε σ : Type) where
  | next (s : σ)
  | ret (e : ε) (s : σ)
  | fault

/-- Go on with the value of a partial operation; without one the pass faults. -/
def Pass.must {τ : Type} (o : Option τ) (k : τ → Pass ε σ) : Pass ε σ :=
  match o with
  | some x => k x
  | none => .fault

@[simp] theorem Pass.must_some {τ : Type} (x : τ) (k : τ → Pass ε σ) :
    Pass.must (some x) k = k x := rfl

@[simp] theorem Pass.must_next_ne_ret {τ : Type} {o : Option τ} {f : τ → σ} {e : ε} {t : σ} :
    Pass.must o (fun x => .next (f x)) ≠ .ret e t := by
  cases o <;> simp [Pass.must]

theorem Pass.must_ne_fault {τ : Type} {o : Option τ} {k : τ → Pass ε σ} {p : Pass ε σ}
    (hp : p ≠ .fault) (h : Pass.must o k = p) : ∃ x, o = some x ∧ k x = p := by
  cases o with
  | none => exact absurd h.symm hp
  | some x => exact ⟨x, rfl, h⟩

theorem Pass.must_next {τ : Type} {o : Option τ} {k : τ → Pass ε σ} {s : σ}
    (h : Pass.must o k = .next s) : ∃ x, o = some x ∧ k x = .next s :=
  Pass.must_ne_fault (by simp) h

theorem Pass.must_fault {τ : Type} {o : Option τ} {k : τ → Pass ε σ} :
    Pass.must o k = .fault ↔ o = none ∨ ∃ x, o = some x ∧ k x = .fault := by
  cases o with
  | none => simp [Pass.must]
  | some x => simp

theorem Pass.must_next_fault {τ : Type} {o : Option τ} {f : τ → σ} :
    Pass.must o (fun x => (.next (f x) : Pass ε σ)) = .fault ↔ o = none := by
  simp [Pass.must_fault]

inductive Exit (α ε σ : Type) where
  | done (s : σ) (rest : List α)
  | ret (e : ε) (s : σ) (rest : List α)
  | fault

/-- The loop. It falls out when the guard fails, before anything is read, or at the end of the
input. -/
def loop (guard : σ → Bool) (body : α → σ → Pass ε σ) : σ → List α → Exit α ε σ
  | s, [] => .done s []
  | s, c :: cs =>
    if guard s then
      match body c s with
      | .next s' => loop guard body s' cs
      | .ret e s' => .ret e s' cs
      | .fault => .fault
    else .done s (c :: cs)

/-- The loop has asked for a symbol where none was left. -/
def Exit.starved (guard : σ → Bool) : Exit α ε σ → Bool
  | .done s _ => guard s
  | .ret _ _ _ => false
  | .fault => false

section Rules

variable {guard : σ → Bool} {body : α → σ → Pass ε σ}

/-- Every symbol of the input is read by a pass that goes on. -/
inductive Runs (guard : σ → Bool) (body : α → σ → Pass ε σ) : σ → List α → σ → Prop where
  | nil {s : σ} : Runs guard body s [] s
  | cons {s s' s'' : σ} {c : α} {cs : List α} : guard s = true → body c s = .next s' →
      Runs guard body s' cs s'' → Runs guard body s (c :: cs) s''

namespace Runs

theorem single {s s' : σ} {c : α} (hg : guard s = true) (h : body c s = .next s') :
    Runs guard body s [c] s' := .cons hg h .nil

theorem append {s s' s'' : σ} {cs ds : List α} (h₁ : Runs guard body s cs s')
    (h₂ : Runs guard body s' ds s'') : Runs guard body s (cs ++ ds) s'' := by
  induction h₁ with
  | nil => exact h₂
  | cons hg hb _ ih => exact .cons hg hb (ih h₂)

/-- The passes are functions, so what is behind a piece is read from the state behind it. -/
theorem suffix {s u t : σ} {cs ds : List α} (h₁ : Runs guard body s cs u)
    (h : Runs guard body s (cs ++ ds) t) : Runs guard body u ds t := by
  induction h₁ with
  | nil => exact h
  | cons hg hb _ ih =>
    cases h with
    | cons hg' hb' h' =>
      rw [hb] at hb'
      cases hb'
      exact ih h'

/-- In front of its last symbol a run is a run too, to a state that reads on. -/
theorem init {s t : σ} {c : α} {cs : List α} (h : Runs guard body s (cs ++ [c]) t) :
    ∃ u, Runs guard body s cs u ∧ guard u = true := by
  induction cs generalizing s with
  | nil =>
    cases h with
    | cons hg _ _ => exact ⟨s, .nil, hg⟩
  | cons d cs ih =>
    cases h with
    | cons hg hb h' =>
      obtain ⟨u, hu, hgu⟩ := ih h'
      exact ⟨u, .cons hg hb hu, hgu⟩

theorem head {s t : σ} {c : α} {cs : List α} (h : Runs guard body s (c :: cs) t) :
    ∃ s', body c s = .next s' ∧ Runs guard body s' cs t := by
  cases h with
  | cons _ hb h' => exact ⟨_, hb, h'⟩

/-- A run of symbols that all leave the state as it is. -/
theorem skip {s : σ} {cs : List α} (hg : guard s = true) (h : ∀ c ∈ cs, body c s = .next s) :
    Runs guard body s cs s := by
  induction cs with
  | nil => exact .nil
  | cons c cs ih =>
    exact .cons hg (h c (by simp)) (ih fun d hd => h d (by simp [hd]))

/-- Symbols collected one by one, `n` at most: `f t` is the state that holds `t`. -/
theorem collect {f : List α → σ} {n : Nat} {cs : List α}
    (hg : ∀ t, t.length < n → guard (f t) = true)
    (h : ∀ t c, c ∈ cs → t.length < n → body c (f t) = .next (f (t ++ [c]))) :
    ∀ t, (t ++ cs).length ≤ n → Runs guard body (f t) cs (f (t ++ cs)) := by
  induction cs with
  | nil => intro t _; rw [List.append_nil]; exact .nil
  | cons c cs ih =>
    intro t hl
    have htail := ih (fun t d hd => h t d (by simp [hd])) (t ++ [c]) (by simpa using hl)
    rw [List.append_assoc, List.singleton_append] at htail
    have hlt : t.length < n := by simp at hl; omega
    exact .cons (hg t hlt) (h t c (by simp) hlt) htail

/-- Symbols counted one by one, up to `n`: `f i` is the state that has counted `i`. -/
theorem count {f : Nat → σ} {n : Nat} {cs : List α} (hg : ∀ i, guard (f i) = true)
    (h : ∀ i c, c ∈ cs → i < n → body c (f i) = .next (f (i + 1))) :
    ∀ i, i + cs.length ≤ n → Runs guard body (f i) cs (f (i + cs.length)) := by
  induction cs with
  | nil => intro i _; exact .nil
  | cons c cs ih =>
    intro i hl
    simp only [List.length_cons] at hl ⊢
    have htail := ih (fun i d hd => h i d (by simp [hd])) (i + 1) (by omega)
    rw [Nat.add_assoc, Nat.add_comm 1] at htail
    exact .cons (hg i) (h i c (by simp) (by omega)) htail

/-- The state as a function of the symbols read so far. -/
theorem of_prefixes {g : List α → σ} (cs : List α) (hg : ∀ pre, guard (g pre) = true)
    (h : ∀ pre c, pre ++ [c] <+: cs → body c (g pre) = .next (g (pre ++ [c]))) :
    Runs guard body (g []) cs (g cs) := by
  induction cs using List.reverseRecOn with
  | nil => exact .nil
  | append_singleton cs c ih =>
    have hcs := ih fun pre d hpre => h pre d (hpre.trans (List.prefix_append _ _))
    exact hcs.append (single (hg cs) (h cs c (List.prefix_refl _)))

/-- The induction rule: a relation between the symbols read so far and the state. -/
theorem invariant {I : List α → σ → Prop}
    (hI : ∀ h s c s', guard s = true → I h s → body c s = .next s' → I (h ++ [c]) s')
    {s t : σ} {cs : List α} (hr : Runs guard body s cs t) :
    ∀ h, I h s → I (h ++ cs) t := by
  induction hr with
  | nil => intro h hi; simpa using hi
  | @cons s s' s'' c cs hg hb _ ih =>
    intro h hi
    have := ih (h ++ [c]) (hI h s c s' hg hi hb)
    simpa using this

end Runs

@[simp] theorem loop_nil (s : σ) : loop guard body s [] = .done s [] := rfl

theorem loop_stop {s : σ} (hg : guard s = false) (cs : List α) :
    loop guard body s cs = .done s cs := by
  cases cs with
  | nil => rfl
  | cons c cs => simp [loop, hg]

/-- A piece of input that only goes on can be replaced by its effect on the state. -/
theorem loop_of_runs {s t : σ} {cs : List α} (hr : Runs guard body s cs t) (rest : List α) :
    loop guard body s (cs ++ rest) = loop guard body t rest := by
  induction hr with
  | nil => rfl
  | cons hg hb _ ih => simp [loop, hg, hb, ih]

/-- Input whose last pass makes the guard fail is all the loop reads. -/
theorem loop_done {s t : σ} {cs : List α} (hr : Runs guard body s cs t) (hg : guard t = false)
    (rest : List α) : loop guard body s (cs ++ rest) = .done t rest :=
  (loop_of_runs hr rest).trans (loop_stop hg rest)

/-- The loop also falls out at the end of its input. -/
theorem loop_end {s t : σ} {cs : List α} (hr : Runs guard body s cs t) :
    loop guard body s cs = .done t [] := by
  have hloop := loop_of_runs hr []
  rwa [List.append_nil, loop_nil] at hloop

theorem Runs.ne_fault {s t : σ} {cs : List α} (hr : Runs guard body s cs t) :
    loop guard body s cs ≠ .fault := by
  intro hfault
  rw [loop_end hr] at hfault
  cases hfault

/-- A pass that faults behind a piece of input ends the loop with a fault. -/
theorem loop_fault {s t : σ} {cs rest : List α} {c : α} (hr : Runs guard body s cs t)
    (hg : guard t = true) (hb : body c t = .fault) :
    loop guard body s (cs ++ c :: rest) = .fault := by
  rw [loop_of_runs hr]
  simp only [loop, hg, hb, if_true]

/-- A pass that returns behind a piece of input returns from the loop. -/
theorem loop_ret {s t u : σ} {e : ε} {cs rest : List α} {c : α} (hr : Runs guard body s cs t)
    (hg : guard t = true) (hb : body c t = .ret e u) :
    loop guard body s (cs ++ c :: rest) = .ret e u rest := by
  rw [loop_of_runs hr]
  simp only [loop, hg, hb, if_true]

/-- Symbols that are counted up to `n` and fault from there on: whatever the count starts from,
the loop faults when one of them comes behind the `n`th. -/
theorem loop_fault_of_count {f : Nat → σ} {n : Nat} {cs rest : List α} {c : α}
    (hg : ∀ i, guard (f i) = true)
    (h : ∀ i d, d ∈ cs → i < n → body d (f i) = .next (f (i + 1)))
    (hf : ∀ i d, d ∈ cs ∨ d = c → n ≤ i → body d (f i) = .fault) :
    ∀ i, n ≤ i + cs.length → loop guard body (f i) (cs ++ c :: rest) = .fault := by
  induction cs with
  | nil =>
    intro i hl
    exact loop_fault .nil (hg i) (hf i c (.inr rfl) hl)
  | cons d cs ih =>
    intro i hl
    simp only [List.length_cons] at hl
    rcases Nat.lt_or_ge i n with hlt | hge
    · have htail := ih (fun i e he => h i e (by simp [he]))
        (fun i e he => hf i e (by simpa [or_assoc] using .inr he)) (i + 1) (by omega)
      have hstep : Runs guard body (f i) [d] (f (i + 1)) := .single (hg i) (h i d (by simp) hlt)
      exact (loop_of_runs hstep (cs ++ c :: rest)).trans htail
    · show loop guard body (f i) ([] ++ d :: (cs ++ c :: rest)) = .fault
      exact loop_fault .nil (hg i) (hf i d (by simp) hge)

/-- A loop that falls out has read a piece of its input with passes that go on, and stopped
because the guard failed or the input ended. -/
theorem exit_done {s t : σ} {cs rest : List α} (h : loop guard body s cs = .done t rest) :
    ∃ used, cs = used ++ rest ∧ Runs guard body s used t ∧ (guard t = false ∨ rest = []) := by
  induction cs generalizing s with
  | nil =>
    simp only [loop_nil, Exit.done.injEq] at h
    obtain ⟨rfl, rfl⟩ := h
    exact ⟨[], rfl, .nil, .inr rfl⟩
  | cons c cs ih =>
    by_cases hg : guard s = true
    · simp only [loop, hg, if_true] at h
      cases hb : body c s with
      | next s' =>
        rw [hb] at h
        obtain ⟨used, rfl, hr, hend⟩ := ih h
        exact ⟨c :: used, rfl, .cons hg hb hr, hend⟩
      | ret e s' => rw [hb] at h; cases h
      | fault => rw [hb] at h; cases h
    · have hg' : guard s = false := by simpa using hg
      rw [loop_stop hg'] at h
      cases h
      exact ⟨[], rfl, .nil, .inl hg'⟩

/-- A loop that returns has read a piece of its input with passes that go on and then one
symbol whose pass returns. -/
theorem exit_ret {s t : σ} {e : ε} {cs rest : List α} (h : loop guard body s cs = .ret e t rest) :
    ∃ used c u, cs = used ++ c :: rest ∧ Runs guard body s used u ∧ guard u = true ∧
      body c u = .ret e t := by
  induction cs generalizing s with
  | nil => cases h
  | cons c cs ih =>
    by_cases hg : guard s = true
    · simp only [loop, hg, if_true] at h
      cases hb : body c s with
      | next s' =>
        rw [hb] at h
        obtain ⟨used, d, u, rfl, hr, hgu, hbu⟩ := ih h
        exact ⟨c :: used, d, u, rfl, .cons hg hb hr, hgu, hbu⟩
      | ret e' s' => rw [hb] at h; cases h; exact ⟨[], c, s, rfl, .nil, hg, hb⟩
      | fault => rw [hb] at h; cases h
    · rw [loop_stop (by simpa using hg)] at h
      cases h

/-- A loop faults only in a pass that faults. -/
theorem exit_fault {s : σ} {cs : List α} (h : loop guard body s cs = .fault) :
    ∃ used c u rest, cs = used ++ c :: rest ∧ Runs guard body s used u ∧ guard u = true ∧
      body c u = .fault := by
  induction cs generalizing s with
  | nil => cases h
  | cons c cs ih =>
    by_cases hg : guard s = true
    · simp only [loop, hg, if_true] at h
      cases hb : body c s with
      | next s' =>
        rw [hb] at h
        obtain ⟨used, d, u, rest, rfl, hr, hgu, hbu⟩ := ih h
        exact ⟨c :: used, d, u, rest, rfl, .cons hg hb hr, hgu, hbu⟩
      | ret e' s' => rw [hb] at h; cases h
      | fault => exact ⟨[], c, s, cs, rfl, .nil, hg, hb⟩
    · rw [loop_stop (by simpa using hg)] at h
      cases h

/-- A loop that starves has read all of its input, and would have read on. -/
theorem starved_iff {s : σ} {cs : List α} :
    (loop guard body s cs).starved guard = true ↔ ∃ t, Runs guard body s cs t ∧ guard t = true := by
  constructor
  · intro h
    cases hloop : loop guard body s cs with
    | done t rest =>
      rw [hloop] at h
      obtain ⟨used, rfl, hr, hend⟩ := exit_done hloop
      rcases hend with hg | rfl
      · rw [Exit.starved, hg] at h
        cases h
      · exact ⟨t, by rwa [List.append_nil], h⟩
    | ret e t rest =>
      rw [hloop] at h
      cases h
    | fault =>
      rw [hloop] at h
      cases h
  · rintro ⟨t, hr, hg⟩
    rw [loop_end hr]
    exact hg

end Rules

/-! ## Two loops in lock step -/

section Simulation

variable {τ : Type} {R : σ → τ → Prop}

inductive Pass.Sim (R : σ → τ → Prop) : Pass ε σ → Pass ε τ → Prop where
  | next {s : σ} {t : τ} : R s t → Pass.Sim R (.next s) (.next t)
  | ret {e : ε} {s : σ} {t : τ} : R s t → Pass.Sim R (.ret e s) (.ret e t)
  | fault : Pass.Sim R .fault .fault

inductive Exit.Sim (R : σ → τ → Prop) : Exit α ε σ → Exit α ε τ → Prop where
  | done {s : σ} {t : τ} {rest : List α} : R s t → Exit.Sim R (.done s rest) (.done t rest)
  | ret {e : ε} {s : σ} {t : τ} {rest : List α} :
      R s t → Exit.Sim R (.ret e s rest) (.ret e t rest)
  | fault : Exit.Sim R .fault .fault

theorem loop_sim {guard : σ → Bool} {guard' : τ → Bool} {body : α → σ → Pass ε σ}
    {body' : α → τ → Pass ε τ} (hg : ∀ s t, R s t → guard s = guard' t)
    (hb : ∀ c s t, R s t → Pass.Sim R (body c s) (body' c t)) (cs : List α) :
    ∀ {s : σ} {t : τ}, R s t → Exit.Sim R (loop guard body s cs) (loop guard' body' t cs) := by
  induction cs with
  | nil => intro s t h; exact .done h
  | cons c cs ih =>
    intro s t h
    have hguard := hg s t h
    by_cases hgs : guard s = true
    · have hpass := hb c s t h
      simp only [loop, hgs, ← hguard, if_true]
      generalize body c s = p at hpass
      generalize body' c t = q at hpass
      cases hpass with
      | next h' => exact ih h'
      | ret h' => exact .ret h'
      | fault => exact .fault
    · simp only [loop, hgs, ← hguard]
      exact .done h

/-- Passes that go on together and fault together; what they return may differ. -/
inductive Pass.SameFault {ε' : Type} (R : σ → τ → Prop) : Pass ε σ → Pass ε' τ → Prop where
  | next {s : σ} {t : τ} : R s t → Pass.SameFault R (.next s) (.next t)
  | ret {e : ε} {e' : ε'} {s : σ} {t : τ} : Pass.SameFault R (.ret e s) (.ret e' t)
  | fault : Pass.SameFault R .fault .fault

/-- A loop over less of the state faults on the same input. -/
theorem loop_sameFault {ε' : Type} {guard : σ → Bool} {guard' : τ → Bool}
    {body : α → σ → Pass ε σ} {body' : α → τ → Pass ε' τ}
    (hg : ∀ s t, R s t → guard s = guard' t)
    (hb : ∀ c s t, R s t → Pass.SameFault R (body c s) (body' c t)) (cs : List α) :
    ∀ {s : σ} {t : τ}, R s t →
      (loop guard body s cs = .fault ↔ loop guard' body' t cs = .fault) := by
  induction cs with
  | nil => intro s t _; simp
  | cons c cs ih =>
    intro s t h
    have hguard := hg s t h
    by_cases hgs : guard s = true
    · have hpass := hb c s t h
      simp only [loop, hgs, ← hguard, if_true]
      generalize body c s = p at hpass
      generalize body' c t = q at hpass
      cases hpass with
      | next h' => exact ih h'
      | ret => simp
      | fault => simp
    · simp [loop, hgs, ← hguard]

/-- And it runs over the same pieces of the input. -/
theorem Runs.sameFault {ε' : Type} {guard : σ → Bool} {guard' : τ → Bool}
    {body : α → σ → Pass ε σ} {body' : α → τ → Pass ε' τ} (hg : ∀ t, guard' t = true)
    (hb : ∀ c s t, R s t → Pass.SameFault R (body c s) (body' c t)) {s s' : σ} {cs : List α}
    (hr : Runs guard body s cs s') :
    ∀ {t : τ}, R s t → ∃ t', Runs guard' body' t cs t' ∧ R s' t' := by
  induction hr with
  | nil =>
    intro t h
    exact ⟨t, .nil, h⟩
  | @cons s u s' c cs _ hbody _ ih =>
    intro t h
    have hpass := hb c s t h
    rw [hbody] at hpass
    generalize hq : body' c t = q at hpass
    cases hpass with
    | next h' =>
      obtain ⟨t', hrest, hend⟩ := ih h'
      exact ⟨t', .cons (hg t) hq hrest, hend⟩

end Simulation

/-! ## Loops that count -/

/-- A guard that counts the passes cuts the input. -/
theorem loop_fault_take {guard : σ → Bool} {body : α → σ → Pass ε σ} {count : σ → Nat} {n : Nat}
    (hg : ∀ s, guard s = decide (count s < n))
    (hc : ∀ c s s', body c s = .next s' → count s' = count s + 1) (cs : List α) :
    ∀ s, loop guard body s cs = .fault ↔
      loop (fun _ => true) body s (cs.take (n - count s)) = .fault := by
  induction cs with
  | nil => intro s; simp
  | cons c cs ih =>
    intro s
    by_cases hlt : count s < n
    · have hsub : n - count s = n - (count s + 1) + 1 := by omega
      rw [hsub, List.take_succ_cons]
      simp only [loop, hg, hlt, decide_true, if_true]
      cases hb : body c s with
      | next s' =>
        have hs := ih s'
        rw [hc c s s' hb] at hs
        exact hs
      | ret e s' => simp
      | fault => simp
    · have hzero : n - count s = 0 := by omega
      rw [hzero, List.take_zero, loop_stop (by simpa [hg] using hlt)]
      simp

end ScanLoop
