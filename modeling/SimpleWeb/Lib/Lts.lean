import Mathlib

/-!
# Lib.Lts

Transition systems with a partial step function: runs along a list of actions, the induction
rule for invariants that hold as long as every step of the run meets a condition, reaching a
goal, or rest, by actions of one kind, along a measure, and systems that answer each action as
another one does.
-/

namespace Lts

variable {σ α : Type} {step : σ → α → Option σ}

def run (step : σ → α → Option σ) (s : σ) (acts : List α) : Option σ := acts.foldlM step s

theorem run_concat (s : σ) (acts : List α) (a : α) :
    run step s (acts ++ [a]) = (run step s acts).bind fun t => step t a := by
  simp [run]

theorem run_concat_eq_some {s t : σ} {acts : List α} {a : α} :
    run step s (acts ++ [a]) = some t ↔ ∃ u, run step s acts = some u ∧ step u a = some t := by
  rw [run_concat, Option.bind_eq_some_iff]

theorem run_single {s t : σ} {a : α} (h : step s a = some t) : run step s [a] = some t := by
  simp [run, h]

/-- Every step of the run meets the condition in the state it is taken in. -/
def Along (step : σ → α → Option σ) (C : σ → α → Prop) (s : σ) (acts : List α) : Prop :=
  ∀ pre a t u, pre ++ [a] <+: acts → run step s pre = some t → step t a = some u → C t a

theorem Along.of_prefix {C : σ → α → Prop} {s : σ} {acts acts' : List α} (h : Along step C s acts)
    (hpre : acts' <+: acts) : Along step C s acts' :=
  fun pre a t u hpa => h pre a t u (hpa.trans hpre)

/-- The actions one by one, each in the state it is taken in -/
theorem Along.of_forall {C : σ → α → Prop} {s : σ} {acts : List α}
    (h : ∀ i : Fin acts.length, ∀ t ∈ run step s (acts.take i), C t (acts.get i)) :
    Along step C s acts := by
  rintro pre a t u ⟨rest, rfl⟩ ht _
  have hstep := h ⟨pre.length, by simp⟩ t
  simp only [List.append_assoc, List.take_left'] at hstep
  simpa using hstep ht

theorem Along.nil {C : σ → α → Prop} {s : σ} : Along step C s [] := by
  intro pre a t u hpre
  exact absurd (List.prefix_nil.mp hpre) (by simp)

theorem Along.concat_iff {C : σ → α → Prop} {s t u : σ} {acts : List α} {a : α}
    (ht : run step s acts = some t) (hu : step t a = some u) :
    Along step C s (acts ++ [a]) ↔ Along step C s acts ∧ C t a := by
  constructor
  · intro h
    exact ⟨h.of_prefix (List.prefix_append _ _), h acts a t u (List.prefix_refl _) ht hu⟩
  · rintro ⟨h, hlast⟩ pre b t' u' hpre ht' hu'
    rcases List.prefix_concat_iff.mp hpre with heq | hpre
    · obtain ⟨rfl, hb⟩ := List.append_inj' heq rfl
      cases hb
      rw [ht] at ht'
      cases ht'
      exact hlast
    · exact h pre b t' u' hpre ht' hu'

/-- Actions that meet the condition in any state may follow. -/
theorem Along.append {C : σ → α → Prop} {s : σ} {acts more : List α} (h : Along step C s acts)
    (hmore : ∀ a ∈ more, ∀ t, C t a) : Along step C s (acts ++ more) := by
  intro pre a t u hpre ht hu
  rcases List.prefix_or_prefix_of_prefix hpre (List.prefix_append acts more) with hin | hout
  · exact h pre a t u hin ht hu
  · by_cases hin : pre ++ [a] <+: acts
    · exact h pre a t u hin ht hu
    · have hcut : acts <+: pre := by
        rcases List.prefix_concat_iff.mp hout with heq | hcut
        · exact absurd (heq ▸ List.prefix_refl _) hin
        · exact hcut
      obtain ⟨cut, rfl⟩ := hcut
      rw [List.append_assoc, List.prefix_append_right_inj] at hpre
      exact hmore a (hpre.subset (by simp)) t

/-- What holds at the start and is kept by every step that meets the condition holds at the end
of a run of such steps. -/
theorem Along.invariant {C : σ → α → Prop} {I : σ → Prop}
    (hstep : ∀ t a u, I t → C t a → step t a = some u → I u) {s : σ} (hs : I s) (acts : List α) :
    Along step C s acts → ∀ t, run step s acts = some t → I t := by
  induction acts using List.reverseRecOn with
  | nil =>
    intro _ t ht
    cases ht
    exact hs
  | append_singleton acts a ih =>
    intro halong t ht
    obtain ⟨u, hu, hua⟩ := run_concat_eq_some.mp ht
    have hIu := ih (halong.of_prefix (List.prefix_append _ _)) u hu
    exact hstep u a t hIu (halong acts a u t (List.prefix_refl _) hu hua) hua

/-- What every step keeps holds in every state a run reaches. -/
theorem run_invariant {I : σ → Prop} (hstep : ∀ t a u, I t → step t a = some u → I u) {s : σ}
    (hs : I s) (acts : List α) (t : σ) (ht : run step s acts = some t) : I t := by
  have hall : Along step (fun _ _ => True) s acts := by
    intro _ _ _ _ _ _ _
    trivial
  exact hall.invariant (fun t a u hI _ hu => hstep t a u hI hu) hs acts t ht

theorem run_append (s : σ) (acts more : List α) :
    run step s (acts ++ more) = (run step s acts).bind fun t => run step t more := by
  simp [run]

/-- A part of the state that takes every step with the whole -/
theorem run_map {τ : Type} {step' : τ → α → Option τ} (f : σ → τ)
    (hstep : ∀ s a t, step s a = some t → step' (f s) a = some (f t)) {s t : σ} {acts : List α}
    (h : run step s acts = some t) : run step' (f s) acts = some (f t) := by
  induction acts using List.reverseRecOn generalizing t with
  | nil =>
    cases h
    rfl
  | append_singleton acts a ih =>
    obtain ⟨u, hu, hua⟩ := run_concat_eq_some.mp h
    exact run_concat_eq_some.mpr ⟨f u, ih hu, hstep u a t hua⟩

/-- What the actions of one kind keep, a run of such actions keeps. -/
theorem run_invariant_of {I : σ → Prop} {A : α → Prop}
    (hstep : ∀ t a u, I t → A a → step t a = some u → I u) {s : σ} (hs : I s) (acts : List α)
    (hacts : ∀ a ∈ acts, A a) (t : σ) (ht : run step s acts = some t) : I t := by
  have hall : Along step (fun _ a => A a) s acts := by
    intro pre a _ _ hpre _ _
    exact hacts a (hpre.subset (by simp))
  exact hall.invariant hstep hs acts t ht

/-- `t` is reached from `s` by actions of the kind `A`. -/
def Reaches (step : σ → α → Option σ) (A : α → Prop) (s t : σ) : Prop :=
  ∃ acts, (∀ a ∈ acts, A a) ∧ run step s acts = some t

namespace Reaches

variable {A : α → Prop} {s t u : σ}

theorem refl (s : σ) : Reaches step A s s := ⟨[], by simp, rfl⟩

theorem single {a : α} (ha : A a) (h : step s a = some t) : Reaches step A s t :=
  ⟨[a], by simpa using ha, run_single h⟩

theorem trans (h : Reaches step A s t) (h' : Reaches step A t u) : Reaches step A s u := by
  obtain ⟨acts, hacts, ht⟩ := h
  obtain ⟨more, hmore, hu⟩ := h'
  refine ⟨acts ++ more, ?_, ?_⟩
  · intro a ha
    rcases List.mem_append.mp ha with ha | ha
    · exact hacts a ha
    · exact hmore a ha
  · rw [run_append, ht]
    exact hu

/-- Where every state short of the goal leads to one of a smaller measure, the goal is reached. -/
theorem of_measure {I G : σ → Prop} (m : σ → Nat)
    (hnext : ∀ s, I s → ¬ G s → ∃ t, Reaches step A s t ∧ I t ∧ m t < m s) (s : σ) (hs : I s) :
    ∃ t, Reaches step A s t ∧ I t ∧ G t := by
  induction h : m s using Nat.strong_induction_on generalizing s with
  | _ k ih =>
    by_cases hg : G s
    · exact ⟨s, refl s, hs, hg⟩
    · obtain ⟨t, ht, hIt, hlt⟩ := hnext s hs hg
      obtain ⟨u, hu, hIu, hgu⟩ := ih (m t) (h ▸ hlt) t hIt rfl
      exact ⟨u, ht.trans hu, hIu, hgu⟩

end Reaches

/-- No action of the kind `A` is possible. -/
def Resting (step : σ → α → Option σ) (A : α → Prop) (s : σ) : Prop := ∀ a, A a → step s a = none

/-- Actions that decrease a measure are no more than it. -/
theorem length_le_of_measure {I : σ → Prop} {A : α → Prop} (m : σ → Nat)
    (hstep : ∀ s a t, I s → A a → step s a = some t → I t ∧ m t < m s) {s t : σ} (hs : I s)
    {acts : List α} (hacts : ∀ a ∈ acts, A a) (h : run step s acts = some t) :
    I t ∧ acts.length + m t ≤ m s := by
  induction acts using List.reverseRecOn generalizing t with
  | nil =>
    cases h
    exact ⟨hs, by simp⟩
  | append_singleton acts a ih =>
    obtain ⟨u, hu, hua⟩ := run_concat_eq_some.mp h
    obtain ⟨hIu, hle⟩ := ih (fun b hb => hacts b (List.mem_append_left _ hb)) hu
    obtain ⟨hIt, hlt⟩ := hstep u a t hIu (hacts a (by simp)) hua
    refine ⟨hIt, ?_⟩
    rw [List.length_append, List.length_singleton]
    omega

/-- They lead to a state where none is possible. -/
theorem Reaches.resting {I : σ → Prop} {A : α → Prop} (m : σ → Nat)
    (hstep : ∀ s a t, I s → A a → step s a = some t → I t ∧ m t < m s) (s : σ) (hs : I s) :
    ∃ t, Reaches step A s t ∧ I t ∧ Resting step A t := by
  refine of_measure m ?_ s hs
  intro s hs hmoves
  simp only [Resting, not_forall] at hmoves
  obtain ⟨a, ha, hne⟩ := hmoves
  obtain ⟨t, ht⟩ := Option.ne_none_iff_exists'.mp hne
  exact ⟨t, single ha ht, hstep s a t hs ha ht⟩

/-! ## Answers -/

section Answers

variable {τ β : Type} {call : σ → α → Option (β × σ)} {call' : τ → α → Option (β × τ)}

/-- The step of a system that answers each action, with all its answers so far -/
def answering (call : σ → α → Option (β × σ)) (s : σ × List β) (a : α) : Option (σ × List β) :=
  (call s.1 a).map fun r => (r.2, s.2 ++ [r.1])

theorem answering_eq_some {s : σ × List β} {u : σ × List β} {a : α} :
    answering call s a = some u ↔ ∃ b, call s.1 a = some (b, u.1) ∧ u.2 = s.2 ++ [b] := by
  rw [answering, Option.map_eq_some_iff]
  constructor
  · rintro ⟨⟨b, t⟩, hcall, rfl⟩
    exact ⟨b, hcall, rfl⟩
  · rintro ⟨b, hcall, hanswers⟩
    exact ⟨(b, u.1), hcall, Prod.ext rfl hanswers.symm⟩

/-- Where every call the one system permits is answered alike by the other one, so is every run
of them. -/
theorem run_answering {R : σ → τ → Prop}
    (hcall : ∀ s t a b t', R s t → call' t a = some (b, t') →
      ∃ s', call s a = some (b, s') ∧ R s' t')
    {s : σ} {t : τ} {answers : List β} (hR : R s t) {acts : List α} {u : τ × List β}
    (h : run (answering call') (t, answers) acts = some u) :
    ∃ s', run (answering call) (s, answers) acts = some (s', u.2) ∧ R s' u.1 := by
  induction acts using List.reverseRecOn generalizing u with
  | nil =>
    cases h
    exact ⟨s, rfl, hR⟩
  | append_singleton acts a ih =>
    obtain ⟨v, hv, hva⟩ := run_concat_eq_some.mp h
    obtain ⟨s', hs', hR'⟩ := ih hv
    obtain ⟨b, hb, hanswers⟩ := answering_eq_some.mp hva
    obtain ⟨s'', hs'', hR''⟩ := hcall s' v.1 a b u.1 hR' hb
    refine ⟨s'', run_concat_eq_some.mpr ⟨_, hs', ?_⟩, hR''⟩
    exact answering_eq_some.mpr ⟨b, hs'', hanswers⟩

end Answers

end Lts
