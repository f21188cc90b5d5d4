import SimpleWeb.ThreadPool.Pool

/-!
# ThreadPool.Wakeup

A wakeup is lost when a worker has found its list empty and a task is pushed and notified before
the worker blocks. `emplace_back` can do that, since it pushes without the lock when it has seen
two tasks or more: the exact condition is `lostWakeup_iff`.
-/

namespace SimpleWeb
namespace ThreadPool

variable {n : Nat} {τ : Type}

/-- The submitter is between its `push_back` to list `i` and the `notify_one` for `i`. -/
def Between (s : Pool n τ) (i : Fin n) : Prop :=
  s.submitter = .unlockPushed i ∨ s.submitter = .notify i

def LostWakeup (s : Pool n τ) (i : Fin n) : Prop :=
  s.list i ≠ [] ∧ s.worker i = .blocked ∧ ¬ Between s i

/-- Worker `i` sleeps, or is about to, in spite of a task in its list. -/
def Stranded (s : Pool n τ) (i : Fin n) : Prop :=
  (s.worker i = .block ∨ s.worker i = .blocked) ∧ s.list i ≠ []

/-- No `notify_one` is spent on a worker that has found its list empty and has not blocked yet,
while a task has come into the list. -/
def NotifyHeard (s : Pool n τ) : Act n τ → Prop
  | .submitter => ∀ i, s.submitter = .notify i → s.worker i = .block → s.list i = []
  | _ => True

section Steps

variable {s s' : Pool n τ} {i j : Fin n}

/-- A worker that moves strands nobody: it blocks only with an empty list, and it only takes tasks
away. -/
theorem workerStep_stranded (h : workerStep s i = some s') (hj : Stranded s' j) : Stranded s j := by
  obtain ⟨hw, hl⟩ := hj
  by_cases hij : j = i
  · subst hij
    rcases workerStep_sleep h hw with ⟨hempty, -⟩ | ⟨hblock, hlist, -⟩
    · exact absurd hempty hl
    · exact ⟨.inl hblock, hlist ▸ hl⟩
  · obtain ⟨hworker, -, hlist⟩ := workerStep_frame h hij
    exact ⟨hworker ▸ hw, hlist ▸ hl⟩

/-- A worker the submitter leaves stranded has not been woken. -/
theorem submitterStep_asleep (h : submitterStep s = some s') (hj : Stranded s' j) :
    s'.worker j = s.worker j := by
  rcases submitterStep_woken h with hw | ⟨-, hw⟩
  · exact hw
  · obtain ⟨hsleep, -⟩ := hj
    rw [hw] at hsleep
    rcases hsleep with hsleep | hsleep
    · cases hsleep
    · cases hsleep

/-- After a step of the submitter a stranded worker has its notification ahead, or was stranded
before; then the notification has just been spent on it in front of its block. -/
theorem submitterStep_stranded (h : submitterStep s = some s') (hj : Stranded s' j) :
    Between s' j ∨ (Stranded s j ∧
      (Between s j → s.submitter = .notify j ∧ s.worker j = .block ∧ s'.worker j = .block)) := by
  have hw := submitterStep_asleep h hj
  have hsplit : Between s' j ∨ Stranded s j := by
    rcases submitterStep_list h with hlist | ⟨t, i, hpush, hlist⟩
    · exact .inr ⟨hw ▸ hj.1, hlist ▸ hj.2⟩
    · by_cases hij : j = i
      · subst hij
        exact .inl (hpush.imp And.right And.right)
      · have hl := hj.2
        rw [hlist, Function.update_of_ne hij] at hl
        exact .inr ⟨hw ▸ hj.1, hl⟩
  rcases hsplit with hbetween | hstranded
  · exact .inl hbetween
  · by_cases hpushed : s.submitter = .unlockPushed j
    · exact .inl (.inr (submitterStep_between h hpushed))
    · refine .inr ⟨hstranded, ?_⟩
      intro hbetween
      have hnotify : s.submitter = .notify j := hbetween.resolve_left hpushed
      rcases hstranded.1 with hblock | hblocked
      · exact ⟨hnotify, hblock, hw.trans hblock⟩
      · rw [submitterStep_notify h hnotify hblocked, hblocked] at hw
        cases hw

theorem stranded_wake (hi : s.worker i = .blocked) (h : Stranded (s.setWorker i .relock) j) :
    Stranded s j := by
  obtain ⟨hw, hl⟩ := h
  rcases wake_woken hi with hsame | ⟨-, hrelock⟩
  · exact ⟨hsame ▸ hw, hl⟩
  · rw [hrelock] at hw
    simp at hw

/-- Whoever is stranded has a notification coming. -/
def Expected (s : Pool n τ) : Prop := ∀ i, Stranded s i → Between s i

theorem expected_init : Expected (init n τ) := by
  rintro i ⟨-, hl⟩
  exact absurd rfl hl

/-- A step keeps this for every worker but one whose notification it spends in front of its
block. -/
theorem expected_step {a : Act n τ} (he : Expected s) (h : step s a = some s')
    (hj : Stranded s' j) :
    Between s' j ∨ (a = .submitter ∧ s.submitter = .notify j ∧ s.worker j = .block ∧
      s.list j ≠ [] ∧ s'.worker j = .block) := by
  cases step_move h with
  | emplaceBack hidle | destroy hidle =>
    have hbetween := he j hj
    simp [Between, hidle] at hbetween
  | submitter h =>
    rcases submitterStep_stranded h hj with hbetween | ⟨hs, hspent⟩
    · exact .inl hbetween
    · obtain ⟨hnotify, hblock, hblock'⟩ := hspent (he j hs)
      exact .inr ⟨rfl, hnotify, hblock, hs.2, hblock'⟩
  | worker h =>
    have hbetween := he j (workerStep_stranded h hj)
    rw [Between, ← workerStep_submitter h] at hbetween
    exact .inl hbetween
  | wake hblocked => exact .inl (he j (stranded_wake hblocked hj))

theorem expected_of_heard {a : Act n τ} (he : Expected s) (ha : NotifyHeard s a)
    (h : step s a = some s') : Expected s' := by
  intro j hj
  rcases expected_step he h hj with hbetween | ⟨rfl, hnotify, hblock, hl, -⟩
  · exact hbetween
  · exact absurd (ha j hnotify hblock) hl

theorem Expected.not_lost (he : Expected s) (i : Fin n) : ¬ LostWakeup s i := by
  rintro ⟨hl, hw, hno⟩
  exact hno (he i ⟨.inr hw, hl⟩)

/-- Even a step that spends a notification does not lose the wakeup yet. -/
theorem Expected.not_lost_next {a : Act n τ} (he : Expected s) (h : step s a = some s')
    (i : Fin n) : ¬ LostWakeup s' i := by
  rintro ⟨hl, hw, hno⟩
  rcases expected_step he h ⟨.inr hw, hl⟩ with hbetween | ⟨-, -, -, -, hblock⟩
  · exact hno hbetween
  · rw [hw] at hblock
    cases hblock

/-- But the next step of its worker does. -/
theorem lost_of_unheard (hnotify : s.submitter = .notify i) (hblock : s.worker i = .block)
    (hl : s.list i ≠ []) :
    ∃ u t, step s .submitter = some u ∧ step u (.worker i) = some t ∧ LostWakeup t i := by
  have hne : ¬ s.worker i = .blocked := by simp [hblock]
  have hu : step s .submitter = some (s.setSubmitter .count) := by
    simp only [step, submitterStep, hnotify, Pool.notifyOne, if_neg hne]
  have hu' : (s.setSubmitter .count).worker i = .block := hblock
  have ht : step (s.setSubmitter .count) (.worker i) =
      some (((s.setSubmitter .count).setMutex i none).setWorker i .blocked) := by
    simp only [step, workerStep, hu']
  refine ⟨_, _, hu, ht, hl, ?_, ?_⟩
  · simp
  · simp [Between]

end Steps

/-- A run that spends no notification like that expects one for every stranded worker. -/
theorem expected_run {acts : List (Act n τ)} (h : Lts.Along step NotifyHeard (init n τ) acts)
    {s : Pool n τ} (hs : Lts.run step (init n τ) acts = some s) : Expected s :=
  h.invariant (fun _ _ _ he ha hu => expected_of_heard he ha hu) expected_init acts s hs

/-- In the states of a run, and in the states one step further, no wakeup is lost exactly when
every notification of the run is heard. -/
theorem lostWakeup_iff (acts : List (Act n τ)) :
    (∀ pre s, pre <+: acts → Lts.run step (init n τ) pre = some s →
        ∀ s', s' = s ∨ (∃ a, step s a = some s') → ∀ i, ¬ LostWakeup s' i) ↔
      Lts.Along step NotifyHeard (init n τ) acts := by
  constructor
  · intro hsafe pre a t u hpre ht hu
    cases a with
    | submitter =>
      intro i hnotify hblock
      by_contra hl
      obtain ⟨v, w, hv, hw, hlost⟩ := lost_of_unheard hnotify hblock hl
      have hrun : Lts.run step (init n τ) (pre ++ [.submitter]) = some v :=
        Lts.run_concat_eq_some.mpr ⟨t, ht, hv⟩
      exact hsafe _ v hpre hrun w (.inr ⟨_, hw⟩) i hlost
    | emplaceBack t => trivial
    | destroy => trivial
    | worker i => trivial
    | wake i => trivial
  · intro halong pre s hpre hs s' hs' i
    have he := expected_run (halong.of_prefix hpre) hs
    rcases hs' with rfl | ⟨a, ha⟩
    · exact he.not_lost i
    · exact he.not_lost_next ha i

/-- Three tasks for one worker: the third is pushed without the lock, which the worker has taken
to find its list empty after it has run the first two. -/
def drainedSchedule : List (Act 1 Nat) :=
  [Act.emplaceBack 0] ++ List.replicate 7 Act.submitter ++
    [Act.emplaceBack 1] ++ List.replicate 7 Act.submitter ++
    [Act.emplaceBack 2] ++ List.replicate 4 Act.submitter ++
    List.replicate 20 (Act.worker 0) ++
    List.replicate 3 (Act.worker 0) ++
    List.replicate 2 Act.submitter ++ [Act.worker 0]

theorem drained_lost :
    ∃ s, Lts.run step (init 1 Nat) drainedSchedule = some s ∧ s.ran 0 = [0, 1] ∧
      s.list 0 = [2] ∧ LostWakeup s 0 := by
  have hrun : (Lts.run step (init 1 Nat) drainedSchedule).map
      (fun s => (s.ran 0, s.list 0, s.worker 0, s.submitter)) =
        some ([0, 1], [2], .blocked, .count) := by decide +kernel
  obtain ⟨s, hs, heq⟩ := Option.map_eq_some_iff.mp hrun
  simp only [Prod.mk.injEq] at heq
  obtain ⟨hran, hlist, hworker, hsub⟩ := heq
  refine ⟨s, hs, hran, hlist, by simp [hlist], hworker, ?_⟩
  simp [Between, hsub]

end ThreadPool
end SimpleWeb
