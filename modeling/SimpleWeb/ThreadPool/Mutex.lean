import SimpleWeb.ThreadPool.Wakeup

/-!
# ThreadPool.Mutex

What the mutexes give: a thread whose program counter stands between a lock and its unlock owns
the mutex (`exclusive_run`). So as long as every push is made under the lock, a worker that is
about to block has an empty list (`blockEmpty_run`), and no wakeup is lost
(`not_lost_of_pushLocked`). It is the push behind `l.unlock()` that breaks this.
-/

namespace SimpleWeb
namespace ThreadPool

variable {n : Nat} {τ : Type}

/-- The worker owns its mutex. -/
def WorkerPc.owns : WorkerPc → Bool
  | .emptyTest | .waitTest | .block | .unlock | .sizeTest | .popLocked | .unlockPopped
  | .unlockFirst => true
  | _ => false

/-- The mutex the submitter owns -/
def SubmitterPc.owned : SubmitterPc n τ → Option (Fin n)
  | .sizeTest _ i | .pushLocked _ i | .unlockPushed i | .unlockFirst _ i => some i
  | _ => none

structure Exclusive (s : Pool n τ) : Prop where
  worker : ∀ i, (s.worker i).owns = true → s.mutex i = some .worker
  submitter : ∀ i, s.submitter.owned = some i → s.mutex i = some .submitter

/-- The other way round: a mutex has no owner but these. -/
structure Owned (s : Pool n τ) : Prop where
  worker : ∀ i, s.mutex i = some .worker → (s.worker i).owns = true
  submitter : ∀ i, s.mutex i = some .submitter → s.submitter.owned = some i

/-- A worker that has found its list empty and has not blocked yet still has an empty list. -/
def BlockEmpty (s : Pool n τ) : Prop := ∀ i, s.worker i = .block → s.list i = []

/-- Every push is made under the lock. -/
def PushLocked (s : Pool n τ) : Act n τ → Prop
  | .submitter => ∀ t i, s.submitter ≠ .push t i
  | _ => True

section Steps

variable {s s' : Pool n τ} {i j : Fin n}

/-- What a worker does to its mutex. -/
theorem workerStep_mutex (h : workerStep s i = some s') :
    (s'.mutex i = s.mutex i ∧ (s'.worker i).owns = (s.worker i).owns) ∨
      (s.mutex i = none ∧ s'.mutex i = some .worker ∧ (s'.worker i).owns = true) ∨
      ((s.worker i).owns = true ∧ (s'.worker i).owns = false ∧ s'.mutex i = none) := by
  cases workerStep_move h with
  | lock _ hfree | relock _ hfree | lockPop _ hfree =>
    exact .inr (.inl ⟨hfree, by simp [Pool.setWorker, Pool.setMutex], by simp [WorkerPc.owns]⟩)
  | block hpc | unlock hpc | unlockPopped hpc | unlockFirst hpc =>
    rw [hpc]
    exact .inr (.inr ⟨rfl, by simp [WorkerPc.owns], by simp [Pool.setWorker, Pool.setMutex]⟩)
  | emptyWait hpc | emptyUnlock hpc | waitBlock hpc | waitUnlock hpc | stay hpc | quit hpc
  | runFront hpc | sizeOne hpc | sizeMore hpc | popLocked hpc | pop hpc | uncount hpc
  | leave hpc =>
    rw [hpc]
    exact .inl ⟨rfl, by simp [WorkerPc.owns]⟩

theorem submitterStep_owns (h : submitterStep s = some s') :
    (s'.worker j).owns = (s.worker j).owns := (submitterStep_woken h).keeps rfl

/-- What the submitter does to the mutexes. -/
theorem submitterStep_mutex (h : submitterStep s = some s') :
    (s'.mutex = s.mutex ∧ s'.submitter.owned = s.submitter.owned) ∨
      (s.submitter.owned = none ∧ ∃ i, s.mutex i = none ∧ s'.submitter.owned = some i ∧
        s'.mutex = Function.update s.mutex i (some .submitter)) ∨
      (∃ i, s.submitter.owned = some i ∧ s'.submitter.owned = none ∧
        s'.mutex = Function.update s.mutex i none) := by
  cases submitterStep_move h with
  | lock hpc hfree =>
    rw [hpc]
    exact .inr (.inl ⟨rfl, _, hfree, rfl, rfl⟩)
  | unlockPushed hpc | unlockFirst hpc =>
    rw [hpc]
    exact .inr (.inr ⟨_, rfl, rfl, rfl⟩)
  | notify hpc | notifyAll hpc =>
    rw [hpc]
    exact .inl ⟨Pool.notifyOne_mutex _ _, rfl⟩
  | threadId hpc | badThreadId hpc | sizeOne hpc | sizeMore hpc | pushLocked hpc | push hpc
  | count hpc | store hpc | maxWorkercnt hpc | workercntZero hpc | workercntLeft hpc
  | notifiedAll hpc =>
    rw [hpc]
    exact .inl ⟨rfl, rfl⟩

theorem exclusive_init : Exclusive (init n τ) where
  worker := by
    intro i h
    cases h
  submitter := by
    intro i h
    cases h

theorem workerStep_exclusive (he : Exclusive s) (h : workerStep s i = some s') : Exclusive s' where
  worker := by
    intro j hj
    by_cases hij : j = i
    · subst hij
      rcases workerStep_mutex h with ⟨hmutex, howns⟩ | ⟨-, hmutex, -⟩ | ⟨-, howns, -⟩
      · rw [hmutex]
        exact he.worker j (howns ▸ hj)
      · exact hmutex
      · rw [howns] at hj
        cases hj
    · obtain ⟨hworker, hmutex, -⟩ := workerStep_frame h hij
      rw [hmutex]
      exact he.worker j (hworker ▸ hj)
  submitter := by
    intro j hj
    rw [workerStep_submitter h] at hj
    have hs := he.submitter j hj
    by_cases hij : j = i
    · subst hij
      rcases workerStep_mutex h with ⟨hmutex, -⟩ | ⟨hfree, -, -⟩ | ⟨howns, -, -⟩
      · rw [hmutex, hs]
      · rw [hs] at hfree
        cases hfree
      · rw [he.worker j howns] at hs
        cases hs
    · rw [(workerStep_frame h hij).2.1, hs]

theorem submitterStep_exclusive (he : Exclusive s) (h : submitterStep s = some s') :
    Exclusive s' where
  worker := by
    intro j hj
    rw [submitterStep_owns h] at hj
    have hw := he.worker j hj
    rcases submitterStep_mutex h with
      ⟨hmutex, -⟩ | ⟨-, i, hfree, -, hmutex⟩ | ⟨i, howned, -, hmutex⟩
    · rw [hmutex, hw]
    · have hij : j ≠ i := by
        rintro rfl
        rw [hw] at hfree
        cases hfree
      rw [hmutex, Function.update_of_ne hij, hw]
    · have hij : j ≠ i := by
        rintro rfl
        rw [he.submitter j howned] at hw
        cases hw
      rw [hmutex, Function.update_of_ne hij, hw]
  submitter := by
    intro j hj
    rcases submitterStep_mutex h with
      ⟨hmutex, howned⟩ | ⟨-, i, -, howned, hmutex⟩ | ⟨i, -, howned, -⟩
    · rw [hmutex]
      exact he.submitter j (howned ▸ hj)
    · rw [howned] at hj
      cases hj
      rw [hmutex, Function.update_self]
    · rw [howned] at hj
      cases hj

theorem exclusive_step {a : Act n τ} (he : Exclusive s) (h : step s a = some s') :
    Exclusive s' := by
  cases step_move h with
  | emplaceBack | destroy => exact ⟨he.worker, by simp [SubmitterPc.owned]⟩
  | submitter h => exact submitterStep_exclusive he h
  | worker h => exact workerStep_exclusive he h
  | wake hblocked =>
    refine ⟨?_, he.submitter⟩
    intro j hj
    rw [(wake_woken hblocked).keeps (f := WorkerPc.owns) rfl] at hj
    exact he.worker j hj

/-! ## Nobody else owns a mutex -/

theorem owned_init : Owned (init n τ) where
  worker := by
    intro i h
    cases h
  submitter := by
    intro i h
    cases h

theorem workerStep_owned (ho : Owned s) (h : workerStep s i = some s') : Owned s' where
  worker := by
    intro j hj
    by_cases hij : j = i
    · subst hij
      rcases workerStep_mutex h with ⟨hmutex, howns⟩ | ⟨-, -, howns⟩ | ⟨-, -, hmutex⟩
      · rw [howns]
        exact ho.worker j (hmutex ▸ hj)
      · exact howns
      · rw [hmutex] at hj
        cases hj
    · obtain ⟨hworker, hmutex, -⟩ := workerStep_frame h hij
      rw [hworker]
      exact ho.worker j (hmutex ▸ hj)
  submitter := by
    intro j hj
    rw [workerStep_submitter h]
    by_cases hij : j = i
    · subst hij
      rcases workerStep_mutex h with ⟨hmutex, -⟩ | ⟨-, hmutex, -⟩ | ⟨-, -, hmutex⟩
      · exact ho.submitter j (hmutex ▸ hj)
      · rw [hmutex] at hj
        cases hj
      · rw [hmutex] at hj
        cases hj
    · exact ho.submitter j ((workerStep_frame h hij).2.1 ▸ hj)

theorem submitterStep_owned (ho : Owned s) (h : submitterStep s = some s') : Owned s' where
  worker := by
    intro j hj
    rw [submitterStep_owns h]
    rcases submitterStep_mutex h with
      ⟨hmutex, -⟩ | ⟨-, i, hfree, -, hmutex⟩ | ⟨i, howned, -, hmutex⟩
    · exact ho.worker j (hmutex ▸ hj)
    · rw [hmutex] at hj
      by_cases hij : j = i
      · subst hij
        rw [Function.update_self] at hj
        cases hj
      · rw [Function.update_of_ne hij] at hj
        exact ho.worker j hj
    · rw [hmutex] at hj
      by_cases hij : j = i
      · subst hij
        rw [Function.update_self] at hj
        cases hj
      · rw [Function.update_of_ne hij] at hj
        exact ho.worker j hj
  submitter := by
    intro j hj
    rcases submitterStep_mutex h with
      ⟨hmutex, howned⟩ | ⟨hnone, i, -, howned, hmutex⟩ | ⟨i, howned, -, hmutex⟩
    · rw [howned]
      exact ho.submitter j (hmutex ▸ hj)
    · rw [hmutex] at hj
      by_cases hij : j = i
      · rw [howned, hij]
      · rw [Function.update_of_ne hij] at hj
        rw [ho.submitter j hj] at hnone
        cases hnone
    · rw [hmutex] at hj
      by_cases hij : j = i
      · rw [hij, Function.update_self] at hj
        cases hj
      · rw [Function.update_of_ne hij] at hj
        have hother := ho.submitter j hj
        rw [howned] at hother
        cases hother
        exact absurd rfl hij

theorem owned_step {a : Act n τ} (ho : Owned s) (h : step s a = some s') : Owned s' := by
  cases step_move h with
  | emplaceBack hidle | destroy hidle =>
    refine ⟨ho.worker, ?_⟩
    intro j hj
    have hnone := ho.submitter j hj
    rw [hidle] at hnone
    cases hnone
  | submitter h => exact submitterStep_owned ho h
  | worker h => exact workerStep_owned ho h
  | wake hblocked =>
    refine ⟨?_, ho.submitter⟩
    intro j hj
    rw [(wake_woken hblocked).keeps (f := WorkerPc.owns) rfl]
    exact ho.worker j hj

/-! ## Pushes under the lock -/

theorem workerStep_blockEmpty (hb : BlockEmpty s) (h : workerStep s i = some s') :
    BlockEmpty s' := by
  intro j hj
  by_cases hij : j = i
  · subst hij
    rcases workerStep_sleep h (.inl hj) with ⟨hempty, -⟩ | ⟨-, -, hblocked⟩
    · exact hempty
    · rw [hj] at hblocked
      cases hblocked
  · obtain ⟨hworker, -, hlist⟩ := workerStep_frame h hij
    rw [hlist]
    exact hb j (hworker ▸ hj)

/-- The submitter owns the mutex when it pushes, so the worker is not about to block. -/
theorem submitterStep_blockEmpty (he : Exclusive s) (hb : BlockEmpty s)
    (hp : ∀ t i, s.submitter ≠ .push t i) (h : submitterStep s = some s') : BlockEmpty s' := by
  intro j hj
  have hw : s.worker j = .block := by
    rcases submitterStep_woken h with hw | ⟨-, hw⟩
    · exact hw.symm.trans hj
    · rw [hj] at hw
      cases hw
  rcases submitterStep_list h with hlist | ⟨t, i, ⟨hpc, -⟩ | ⟨hpc, -⟩, hlist⟩
  · rw [hlist]
    exact hb j hw
  · have hij : j ≠ i := by
      rintro rfl
      have hmutex := he.worker j (by rw [hw]; rfl)
      rw [he.submitter j (by rw [hpc]; rfl)] at hmutex
      cases hmutex
    rw [hlist, Function.update_of_ne hij]
    exact hb j hw
  · exact absurd hpc (hp t i)

theorem blockEmpty_step {a : Act n τ} (he : Exclusive s) (hb : BlockEmpty s) (ha : PushLocked s a)
    (h : step s a = some s') : BlockEmpty s' := by
  cases step_move h with
  | emplaceBack | destroy => exact hb
  | submitter h => exact submitterStep_blockEmpty he hb ha h
  | worker h => exact workerStep_blockEmpty hb h
  | wake hblocked =>
    intro j hj
    rcases wake_woken (j := j) hblocked with hsame | ⟨-, hrelock⟩
    · exact hb j (hsame ▸ hj)
    · rw [hrelock] at hj
      cases hj

end Steps

section Runs

variable {acts : List (Act n τ)} {s : Pool n τ}

theorem exclusive_run (hs : Lts.run step (init n τ) acts = some s) : Exclusive s := by
  exact Lts.run_invariant (fun _ _ _ he hu => exclusive_step he hu) exclusive_init acts s hs

theorem owned_run (hs : Lts.run step (init n τ) acts = some s) : Owned s :=
  Lts.run_invariant (fun _ _ _ ho hu => owned_step ho hu) owned_init acts s hs

theorem blockEmpty_run (h : Lts.Along step PushLocked (init n τ) acts)
    (hs : Lts.run step (init n τ) acts = some s) : BlockEmpty s := by
  have hinv : ∀ (t : Pool n τ) (a : Act n τ) (u : Pool n τ), Exclusive t ∧ BlockEmpty t →
      PushLocked t a → step t a = some u → Exclusive u ∧ BlockEmpty u := by
    intro t a u ht ha hu
    exact ⟨exclusive_step ht.1 hu, blockEmpty_step ht.1 ht.2 ha hu⟩
  have hstart : BlockEmpty (init n τ) := by
    intro i hi
    rfl
  exact (h.invariant hinv ⟨exclusive_init, hstart⟩ acts s hs).2

/-- With every push under the lock, every notification is heard. -/
theorem heard_of_pushLocked (h : Lts.Along step PushLocked (init n τ) acts) :
    Lts.Along step NotifyHeard (init n τ) acts := by
  intro pre a t u hpre ht hu
  cases a with
  | submitter =>
    intro i _ hblock
    have hpre' : pre <+: acts := (List.prefix_append _ _).trans hpre
    exact blockEmpty_run (h.of_prefix hpre') ht i hblock
  | emplaceBack t | destroy | worker i | wake i => trivial

/-- With every push under the lock, no wakeup is lost. -/
theorem not_lost_of_pushLocked (h : Lts.Along step PushLocked (init n τ) acts)
    (hs : Lts.run step (init n τ) acts = some s) (i : Fin n) : ¬ LostWakeup s i :=
  (expected_run (heard_of_pushLocked h) hs).not_lost i

end Runs

end ThreadPool
end SimpleWeb
