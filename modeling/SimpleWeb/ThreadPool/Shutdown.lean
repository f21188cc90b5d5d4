import SimpleWeb.ThreadPool.Counter
import SimpleWeb.ThreadPool.Mutex

/-!
# ThreadPool.Shutdown

What the `-1` in `taskcnt` does. A worker leaves when it finds a task in its list and then reads
`-1`. So it never leaves when its list is empty, when it counts its running task down and turns the
`-1` into `-2`, or when it sleeps with a task and the destructor does not notify its index. In
every other case all workers leave (`Draining.finishes`), and the exact condition on the store is
`finishes_iff`.
-/

namespace SimpleWeb
namespace ThreadPool

variable {n : Nat} {τ : Type}

/-- The worker has read `taskcnt`, and counts down before it reads it again. -/
def WorkerPc.busy : WorkerPc → Bool
  | .runFront | .lockPop | .sizeTest | .popLocked | .unlockPopped | .unlockFirst | .pop
  | .uncount => true
  | _ => false

def WorkerPc.asleep : WorkerPc → Bool
  | .block | .blocked => true
  | _ => false

/-- The worker looks for a task, or waits for one. -/
def WorkerPc.seeks : WorkerPc → Bool
  | .lock | .emptyTest | .waitTest | .block | .blocked | .relock => true
  | _ => false

/-- Steps to the exit, when the list has a task and `taskcnt` is `-1` -/
def WorkerPc.rank : WorkerPc → Nat
  | .block => 7
  | .blocked => 6
  | .lock | .relock => 5
  | .emptyTest | .waitTest => 4
  | .unlock => 3
  | .taskcntTest => 2
  | .leave => 1
  | _ => 0

/-- The `maxwokercnt` of the destructor -/
def SubmitterPc.max : SubmitterPc n τ → Option Int
  | .workercntTest max | .notifyAll max _ => some max
  | _ => none

/-- Steps to the notification of worker 0 -/
def SubmitterPc.rank : SubmitterPc n τ → Nat
  | .maxWorkercnt => 2
  | .workercntTest _ => 1
  | .notifyAll max (i + 1) => 2 + (max - (i + 1)).toNat
  | _ => 0

/-- `workercnt` is the number of workers that have not exited. -/
def Staffed (s : Pool n τ) : Prop :=
  s.workercnt = ∑ i, if s.worker i = .exited then 0 else 1

/-- Some schedule ends all workers, and none of them has to wake on its own for it. -/
def Finishes (s : Pool n τ) : Prop :=
  ∃ t, Lts.Reaches step (fun a => ∀ i, a ≠ .wake i) s t ∧ t.workercnt = 0

/-- Every worker has a task, none of them is running one, and none sleeps but worker 0, which
the destructor notifies whatever `workercnt` it reads. -/
structure Ready (s : Pool n τ) : Prop where
  list : ∀ i, s.list i ≠ []
  worker : ∀ i, (s.worker i).busy = false
  asleep : ∀ i, (s.worker i).asleep = true → i.val = 0

/-- `-1` is stored in a state like that. -/
def StoreReady (s : Pool n τ) : Act n τ → Prop
  | .submitter => s.submitter = .store → Ready s
  | _ => True

/-- After the store: what is left of `Ready` -/
structure Draining (s : Pool n τ) : Prop where
  taskcnt : s.taskcnt = -1
  stored : s.submitter.stored = true
  list : ∀ i, s.list i ≠ []
  worker : ∀ i, (s.worker i).busy = false

section Steps

variable {s s' : Pool n τ} {i j : Fin n}

/-! ## The number of workers -/

theorem workerStep_workercnt (h : workerStep s i = some s') :
    s'.workercnt - (if s'.worker i = .exited then 0 else 1) =
      s.workercnt - if s.worker i = .exited then 0 else 1 := by
  cases workerStep_move h with
  | leave hpc => simp [Pool.setWorker, hpc]
  | lock hpc | emptyWait hpc | emptyUnlock hpc | waitBlock hpc | waitUnlock hpc | block hpc
  | relock hpc | unlock hpc | stay hpc | quit hpc | runFront hpc | lockPop hpc | sizeOne hpc
  | sizeMore hpc | popLocked hpc | unlockPopped hpc | unlockFirst hpc | pop hpc | uncount hpc =>
    simp [Pool.setWorker, Pool.setMutex, Pool.setList, hpc]

theorem WorkerPc.Woken.exited {pc pc' : WorkerPc} (h : pc.Woken pc') :
    (if pc' = .exited then (0 : Int) else 1) = if pc = .exited then 0 else 1 :=
  h.keeps (f := fun pc => if pc = .exited then (0 : Int) else 1) (by simp)

theorem submitterStep_workercnt (h : submitterStep s = some s') : s'.workercnt = s.workercnt := by
  cases submitterStep_move h with
  | notify | notifyAll => exact Pool.notifyOne_workercnt _ _
  | _ => rfl

theorem staffed_init : Staffed (init n τ) := by
  simp [Staffed, init]

theorem staffed_step {a : Act n τ} (hs : Staffed s) (h : step s a = some s') : Staffed s' := by
  cases step_move h with
  | emplaceBack | destroy => exact hs
  | submitter h =>
    unfold Staffed
    rw [submitterStep_workercnt h, hs]
    exact Finset.sum_congr rfl fun j _ => (submitterStep_woken h).exited.symm
  | @worker i _ h =>
    have hframe : ∀ j, j ≠ i → (if s'.worker j = .exited then (0 : Int) else 1) =
        if s.worker j = .exited then 0 else 1 := by
      intro j hij
      rw [(workerStep_frame h hij).1]
    have hworkercnt := workerStep_workercnt h
    unfold Staffed at hs ⊢
    rw [sum_frame hframe]
    omega
  | wake hblocked =>
    exact hs.trans (Finset.sum_congr rfl fun j _ => (wake_woken hblocked).exited.symm)

theorem staffed_run {acts : List (Act n τ)} (h : Lts.run step (init n τ) acts = some s) :
    Staffed s :=
  Lts.run_invariant (fun _ _ _ hs hu => staffed_step hs hu) staffed_init acts s h

theorem Staffed.pos (hs : Staffed s) (hi : s.worker i ≠ .exited) : 0 < s.workercnt := by
  have hone : (1 : Int) ≤ ∑ j, if s.worker j = .exited then 0 else 1 := by
    have hle := Finset.single_le_sum (f := fun j => if s.worker j = .exited then (0 : Int) else 1)
      (fun j _ => by split <;> omega) (Finset.mem_univ i)
    simpa [hi] using hle
  rw [hs]
  omega

theorem Staffed.le (hs : Staffed s) : s.workercnt ≤ n := by
  rw [hs]
  calc (∑ i, if s.worker i = .exited then (0 : Int) else 1)
      ≤ ∑ _i : Fin n, (1 : Int) := Finset.sum_le_sum fun j _ => by split <;> omega
    _ = n := by simp

/-! ## After the store -/

theorem submitterStep_stored (h : submitterStep s = some s') (hst : s.submitter.stored = true) :
    s'.list = s.list ∧ s'.taskcnt = s.taskcnt := by
  cases submitterStep_move h with
  | maxWorkercnt | workercntZero | workercntLeft | notifiedAll => exact ⟨rfl, rfl⟩
  | notifyAll => exact ⟨Pool.notifyOne_list _ _, Pool.notifyOne_taskcnt _ _⟩
  | threadId hpc | badThreadId hpc | lock hpc | sizeOne hpc | sizeMore hpc | pushLocked hpc
  | unlockPushed hpc | unlockFirst hpc | push hpc | notify hpc | count hpc | store hpc =>
    rw [hpc] at hst
    cases hst

/-- A worker that has a task and is not running it comes one step closer to the exit. -/
theorem workerStep_drains (h : workerStep s i = some s') (ht : s.taskcnt = -1)
    (hl : s.list i ≠ []) (hb : (s.worker i).busy = false) :
    s'.taskcnt = -1 ∧ s'.list = s.list ∧ (s'.worker i).busy = false ∧
      (s'.worker i).rank < (s.worker i).rank ∧
      ((s'.worker i).asleep = true → (s.worker i).asleep = true) := by
  cases workerStep_move h with
  | emptyWait _ hempty | waitBlock _ hempty => exact absurd hempty hl
  | stay _ hne => exact absurd ht hne
  | lock hpc | emptyUnlock hpc | waitUnlock hpc | block hpc | relock hpc | unlock hpc | quit hpc
  | leave hpc =>
    rw [hpc]
    exact ⟨ht, rfl, by simp [WorkerPc.busy], by simp [WorkerPc.rank], by simp [WorkerPc.asleep]⟩
  | runFront hpc | lockPop hpc | sizeOne hpc | sizeMore hpc | popLocked hpc | unlockPopped hpc
  | unlockFirst hpc | pop hpc | uncount hpc =>
    rw [hpc] at hb
    cases hb

theorem WorkerPc.Woken.rank_le {pc pc' : WorkerPc} (h : pc.Woken pc') : pc'.rank ≤ pc.rank := by
  rcases h with rfl | ⟨rfl, rfl⟩
  · exact Nat.le_refl _
  · decide

theorem WorkerPc.Woken.asleep {pc pc' : WorkerPc} (h : pc.Woken pc') (ha : pc'.asleep = true) :
    pc.asleep = true := by
  rcases h with rfl | ⟨rfl, -⟩
  · exact ha
  · rfl

theorem draining_step {a : Act n τ} (hd : Draining s) (h : step s a = some s') :
    Draining s' := by
  have hst := stored_step h hd.stored
  cases step_move h with
  | emplaceBack | destroy => exact ⟨hd.taskcnt, hst, hd.list, hd.worker⟩
  | submitter h =>
    obtain ⟨hlist, htaskcnt⟩ := submitterStep_stored h hd.stored
    refine ⟨htaskcnt.trans hd.taskcnt, hst, hlist ▸ hd.list, ?_⟩
    intro j
    rw [(submitterStep_woken h).keeps (f := WorkerPc.busy) rfl]
    exact hd.worker j
  | @worker i _ h =>
    obtain ⟨htaskcnt, hlist, hbusy, -, -⟩ :=
      workerStep_drains h hd.taskcnt (hd.list i) (hd.worker i)
    refine ⟨htaskcnt, hst, hlist ▸ hd.list, ?_⟩
    intro j
    by_cases hij : j = i
    · subst hij
      exact hbusy
    · rw [(workerStep_frame h hij).1]
      exact hd.worker j
  | wake hblocked =>
    refine ⟨hd.taskcnt, hst, hd.list, ?_⟩
    intro j
    rw [(wake_woken hblocked).keeps (f := WorkerPc.busy) rfl]
    exact hd.worker j

theorem stored_owned {pc : SubmitterPc n τ} (h : pc.stored = true) : pc.owned = none := by
  cases pc <;> first | rfl | cases h

/-- Nothing but sleep holds up a worker that has not exited. -/
theorem Draining.workerStep (hd : Draining s) (ho : Owned s) (hi : s.worker i ≠ .exited)
    (hb : s.worker i ≠ .blocked) : ∃ t, workerStep s i = some t := by
  have hfree : (s.worker i).owns = false → s.mutex i = none := by
    intro howns
    cases hm : s.mutex i with
    | none => rfl
    | some o =>
      cases o with
      | submitter =>
        have hsub := ho.submitter i hm
        rw [stored_owned hd.stored] at hsub
        cases hsub
      | worker =>
        rw [ho.worker i hm] at howns
        cases howns
  have hbusy := hd.worker i
  cases hpc : s.worker i with
  | lock | relock =>
    exact ⟨_, by simp only [ThreadPool.workerStep, hpc, hfree (by rw [hpc]; rfl), if_true]; rfl⟩
  | emptyTest | waitTest =>
    exact ⟨_, by simp only [ThreadPool.workerStep, hpc, if_neg (hd.list i)]; rfl⟩
  | taskcntTest =>
    exact ⟨_, by simp only [ThreadPool.workerStep, hpc, hd.taskcnt, ne_eq, not_true_eq_false,
      if_false]; rfl⟩
  | block | unlock | leave => exact ⟨_, by simp only [ThreadPool.workerStep, hpc]; rfl⟩
  | blocked => exact absurd hpc hb
  | exited => exact absurd hpc hi
  | runFront | lockPop | sizeTest | popLocked | unlockPopped | unlockFirst | pop | uncount =>
    rw [hpc] at hbusy
    cases hbusy

/-- The steps all workers have to the exit -/
def Pool.rank (s : Pool n τ) : Nat := ∑ i, (s.worker i).rank

theorem Draining.rank_lt (hd : Draining s) (h : ThreadPool.workerStep s i = some s') :
    s'.rank < s.rank := by
  refine Finset.sum_lt_sum ?_ ⟨i, Finset.mem_univ i, ?_⟩
  · intro j _
    by_cases hij : j = i
    · subst hij
      exact (workerStep_drains h hd.taskcnt (hd.list j) (hd.worker j)).2.2.2.1.le
    · rw [(workerStep_frame h hij).1]
  · exact (workerStep_drains h hd.taskcnt (hd.list i) (hd.worker i)).2.2.2.1

theorem submitterStep_rank_le (h : submitterStep s = some s') : s'.rank ≤ s.rank :=
  Finset.sum_le_sum fun _ _ => (submitterStep_woken h).rank_le

theorem submitterStep_rank_lt (h : submitterStep s = some s') (hi : s.worker i = .blocked)
    (hi' : s'.worker i = .relock) : s'.rank < s.rank := by
  refine Finset.sum_lt_sum (fun _ _ => (submitterStep_woken h).rank_le)
    ⟨i, Finset.mem_univ i, ?_⟩
  rw [hi, hi']
  decide

/-! ## The last sleeper -/

/-- Only worker 0 sleeps, and the destructor notifies it. -/
structure Sole (s : Pool n τ) : Prop where
  max : ∀ m, s.submitter.max = some m → m ≤ n
  asleep : ∀ i, (s.worker i).asleep = true →
    i.val = 0 ∧ s.submitter ≠ .join ∧ ∀ m, s.submitter.max = some m → 1 ≤ m

theorem asleep_ne {pc : WorkerPc} (h : pc.asleep = true) : pc ≠ .exited := by
  rintro rfl
  cases h

theorem Sole.counting {max : Int} (hmax : s.submitter.max = some max) (hle : max ≤ n)
    (hasleep : ∀ i, (s.worker i).asleep = true → i.val = 0 ∧ 1 ≤ max) : Sole s := by
  refine ⟨?_, ?_⟩
  · intro m hm
    rw [hmax] at hm
    cases hm
    exact hle
  · intro i hi
    refine ⟨(hasleep i hi).1, ?_, ?_⟩
    · intro hjoin
      rw [hjoin] at hmax
      cases hmax
    · intro m hm
      rw [hmax] at hm
      cases hm
      exact (hasleep i hi).2

theorem Sole.submitterStep (hs : Sole s) (hst : s.submitter.stored = true) (hw : Staffed s)
    (h : submitterStep s = some s') : Sole s' := by
  have hasleep : ∀ i, (s'.worker i).asleep = true → (s.worker i).asleep = true :=
    fun _ => (submitterStep_woken h).asleep
  have hzero : ∀ i, (s'.worker i).asleep = true → i.val = 0 :=
    fun i hi => (hs.asleep i (hasleep i hi)).1
  cases submitterStep_move h with
  | maxWorkercnt =>
    refine Sole.counting rfl hw.le ?_
    intro i hi
    exact ⟨hzero i hi, hw.pos (asleep_ne (hasleep i hi))⟩
  | workercntZero _ hleft =>
    refine ⟨?_, ?_⟩
    · intro m hm
      cases hm
    · intro i hi
      have hpos := hw.pos (asleep_ne (hasleep i hi))
      omega
  | @workercntLeft max hpc | @notifyAll max _ hpc | @notifiedAll max _ hpc =>
    have hmax : s.submitter.max = some max := by rw [hpc]; rfl
    refine Sole.counting rfl (hs.max max hmax) ?_
    intro i hi
    exact ⟨hzero i hi, (hs.asleep i (hasleep i hi)).2.2 max hmax⟩
  | threadId hpc | badThreadId hpc | lock hpc | sizeOne hpc | sizeMore hpc | pushLocked hpc
  | unlockPushed hpc | unlockFirst hpc | push hpc | notify hpc | count hpc | store hpc =>
    rw [hpc] at hst
    cases hst

theorem sole_step {a : Act n τ} (hs : Sole s) (hd : Draining s) (hw : Staffed s)
    (h : step s a = some s') : Sole s' := by
  cases step_move h with
  | emplaceBack hidle | destroy hidle =>
    have hst := hd.stored
    rw [hidle] at hst
    cases hst
  | submitter h => exact hs.submitterStep hd.stored hw h
  | @worker i _ h =>
    have hsub := workerStep_submitter h
    refine ⟨hsub ▸ hs.max, ?_⟩
    intro j hj
    have hj' : (s.worker j).asleep = true := by
      by_cases hij : j = i
      · subst hij
        exact (workerStep_drains h hd.taskcnt (hd.list j) (hd.worker j)).2.2.2.2 hj
      · rw [← (workerStep_frame h hij).1]
        exact hj
    rw [hsub]
    exact hs.asleep j hj'
  | wake hblocked => exact ⟨hs.max, fun j hj => hs.asleep j ((wake_woken hblocked).asleep hj)⟩

/-- The `k`-th notification: the first one wakes worker 0, the others bring the end closer. -/
theorem submitterStep_notifyAll {max : Int} {k : Nat} (hpc : s.submitter = .notifyAll max k)
    (hmax1 : 1 ≤ max) (hmaxn : max ≤ n) (hi : s.worker i = .blocked) (hzero : i.val = 0) :
    ∃ t, ThreadPool.submitterStep s = some t ∧
      (t.rank < s.rank ∨ (t.rank ≤ s.rank ∧ t.submitter.rank < s.submitter.rank)) := by
  cases k with
  | zero =>
    have hn : 0 < n := by omega
    have h0 : (0 : Int) < max := by omega
    have h : ThreadPool.submitterStep s =
        some ((s.notifyOne ⟨0, hn⟩).setSubmitter (.notifyAll max 1)) := by
      simp only [ThreadPool.submitterStep, hpc, Nat.cast_zero, h0, if_true, hn, dif_pos]
    have hi0 : i = ⟨0, hn⟩ := Fin.ext hzero
    refine ⟨_, h, .inl (submitterStep_rank_lt h hi ?_)⟩
    rw [Pool.setSubmitter_worker, notifyOne_worker, if_pos ⟨hi0.symm, hi0 ▸ hi⟩]
  | succ k =>
    by_cases hk : ((k + 1 : Nat) : Int) < max
    · have hn : k + 1 < n := by omega
      have h : ThreadPool.submitterStep s =
          some ((s.notifyOne ⟨k + 1, hn⟩).setSubmitter (.notifyAll max (k + 1 + 1))) := by
        simp only [ThreadPool.submitterStep, hpc, hk, if_true, hn, dif_pos]
      refine ⟨_, h, .inr ⟨submitterStep_rank_le h, ?_⟩⟩
      simp only [hpc, Pool.setSubmitter_submitter, SubmitterPc.rank]
      omega
    · have h : ThreadPool.submitterStep s = some (s.setSubmitter (.workercntTest max)) := by
        simp only [ThreadPool.submitterStep, hpc, hk, if_false]
      refine ⟨_, h, .inr ⟨submitterStep_rank_le h, ?_⟩⟩
      simp only [hpc, Pool.setSubmitter_submitter, SubmitterPc.rank]
      omega

/-- When worker 0 is the last and blocked, the destructor comes one step closer to its
notification. -/
theorem Sole.notify (hs : Sole s) (hst : s.submitter.stored = true) (hw : Staffed s)
    (hi : s.worker i = .blocked) :
    ∃ t, ThreadPool.submitterStep s = some t ∧
      (t.rank < s.rank ∨ (t.rank ≤ s.rank ∧ t.submitter.rank < s.submitter.rank)) := by
  obtain ⟨hzero, hjoin, hmax⟩ := hs.asleep i (by rw [hi]; rfl)
  have hpos : 0 < s.workercnt := hw.pos (i := i) (by rw [hi]; simp)
  cases hpc : s.submitter with
  | maxWorkercnt =>
    have h : ThreadPool.submitterStep s = some (s.setSubmitter (.workercntTest s.workercnt)) := by
      simp only [ThreadPool.submitterStep, hpc]
    exact ⟨_, h, .inr ⟨submitterStep_rank_le h, by simp [SubmitterPc.rank]⟩⟩
  | workercntTest max =>
    have h : ThreadPool.submitterStep s = some (s.setSubmitter (.notifyAll max 0)) := by
      simp only [ThreadPool.submitterStep, hpc, if_neg hpos.ne']
    exact ⟨_, h, .inr ⟨submitterStep_rank_le h, by simp [SubmitterPc.rank]⟩⟩
  | notifyAll max k =>
    have hmax1 : 1 ≤ max := hmax max (by rw [hpc]; rfl)
    have hmaxn : max ≤ n := hs.max max (by rw [hpc]; rfl)
    have hstep := submitterStep_notifyAll hpc hmax1 hmaxn hi hzero
    rwa [hpc] at hstep
  | join => exact absurd hpc hjoin
  | idle | threadId t | badThreadId | lock t i | sizeTest t i | pushLocked t i | unlockPushed i
  | unlockFirst t i | push t i | notify i | count | store =>
    rw [hpc] at hst
    cases hst

theorem Sole.rank_lt (hs : Sole s) : s.submitter.rank < n + 3 := by
  cases hpc : s.submitter with
  | notifyAll max k =>
    have hmax : max ≤ n := hs.max max (by rw [hpc]; rfl)
    cases k with
    | zero => simp [SubmitterPc.rank]
    | succ k =>
      simp only [SubmitterPc.rank]
      omega
  | _ => simp [SubmitterPc.rank]

end Steps

/-! ## Shutting down -/

structure Closing (s : Pool n τ) : Prop where
  draining : Draining s
  owned : Owned s
  staffed : Staffed s
  sole : Sole s

theorem closing_step {s s' : Pool n τ} {a : Act n τ} (hc : Closing s) (h : step s a = some s') :
    Closing s' where
  draining := draining_step hc.draining h
  owned := owned_step hc.owned h
  staffed := staffed_step hc.staffed h
  sole := sole_step hc.sole hc.draining hc.staffed h

/-- Either a worker can move, or the last one waits for its notification. -/
theorem Closing.next {s : Pool n τ} (hc : Closing s) (h : s.workercnt ≠ 0) :
    ∃ t, Lts.Reaches step (fun a => ∀ i, a ≠ .wake i) s t ∧ Closing t ∧
      t.rank * (n + 3) + t.submitter.rank < s.rank * (n + 3) + s.submitter.rank := by
  have hmeasure : ∀ t : Pool n τ, Closing t →
      (t.rank < s.rank ∨ (t.rank ≤ s.rank ∧ t.submitter.rank < s.submitter.rank)) →
      t.rank * (n + 3) + t.submitter.rank < s.rank * (n + 3) + s.submitter.rank := by
    intro t ht hlt
    have htrank := ht.sole.rank_lt
    rcases hlt with hlt | ⟨hle, hlt⟩
    · have hmul := Nat.mul_le_mul_right (n + 3) hlt
      rw [Nat.succ_eq_add_one, Nat.add_mul] at hmul
      omega
    · have hmul := Nat.mul_le_mul_right (n + 3) hle
      omega
  by_cases hmoves : ∃ i, s.worker i ≠ .exited ∧ s.worker i ≠ .blocked
  · obtain ⟨i, hi, hb⟩ := hmoves
    obtain ⟨t, ht⟩ := hc.draining.workerStep hc.owned hi hb
    have hct : Closing t := closing_step (a := .worker i) hc ht
    exact ⟨t, .single (a := .worker i) (by simp) ht, hct,
      hmeasure t hct (.inl (hc.draining.rank_lt ht))⟩
  · have hi : ∃ i, s.worker i ≠ .exited := by
      by_contra hall
      refine h ?_
      rw [hc.staffed]
      exact Finset.sum_eq_zero fun i _ => if_pos (by_contra fun hi => hall ⟨i, hi⟩)
    obtain ⟨i, hi⟩ := hi
    have hb : s.worker i = .blocked := by_contra fun hb => hmoves ⟨i, hi, hb⟩
    obtain ⟨t, ht, hlt⟩ := hc.sole.notify hc.draining.stored hc.staffed hb
    have hct : Closing t := closing_step (a := .submitter) hc ht
    exact ⟨t, .single (a := .submitter) (by simp) ht, hct, hmeasure t hct hlt⟩

/-- So all workers leave. -/
theorem Closing.finishes {s : Pool n τ} (hc : Closing s) : Finishes s := by
  obtain ⟨t, ht, -, hzero⟩ := Lts.Reaches.of_measure (I := Closing) (G := fun s => s.workercnt = 0)
    (fun s => s.rank * (n + 3) + s.submitter.rank) (fun s hs hg => hs.next hg) s hc
  exact ⟨t, ht, hzero⟩

/-! ## Getting stuck -/

theorem not_finishes {I : Pool n τ → Prop}
    (hstep : ∀ t a u, I t → (∀ i, a ≠ .wake i) → step t a = some u → I u)
    (hpos : ∀ t, I t → t.workercnt ≠ 0) {s : Pool n τ} (hs : I s) : ¬ Finishes s := by
  rintro ⟨t, ⟨acts, hacts, ht⟩, hzero⟩
  exact hpos t (Lts.run_invariant_of hstep hs acts hacts t ht) hzero

/-- Worker `i` has turned the stored `-1` into less, or is about to. -/
def Overshot (i : Fin n) (s : Pool n τ) : Prop :=
  ((s.worker i).busy = true ∧ s.taskcnt ≤ -1) ∨ (s.taskcnt ≤ -2 ∧ (s.worker i).leaves = false)

/-- Worker `i` has no task and looks for one. -/
def Starved (i : Fin n) (s : Pool n τ) : Prop :=
  s.list i = [] ∧ (s.worker i).seeks = true

/-- Worker `i` sleeps, and the destructor has read a `workercnt` of 1 and notifies worker 0 only. -/
def Unnotified (i : Fin n) (s : Pool n τ) : Prop :=
  (s.worker i).asleep = true ∧ s.submitter.max = some 1

section Stuck

variable {s s' : Pool n τ} {i j : Fin n}

theorem workerStep_taskcnt_le (h : workerStep s i = some s') : s'.taskcnt ≤ s.taskcnt := by
  cases workerStep_move h with
  | uncount => simp [Pool.setWorker]
  | _ => exact le_refl _

/-- A running worker keeps `taskcnt` until it counts down. -/
theorem workerStep_busy (h : workerStep s i = some s') (hb : (s.worker i).busy = true) :
    ((s'.worker i).busy = true ∧ s'.taskcnt = s.taskcnt) ∨
      (s'.worker i = .lock ∧ s'.taskcnt = s.taskcnt - 1) := by
  cases workerStep_move h with
  | uncount => exact .inr ⟨by simp, rfl⟩
  | runFront | lockPop | sizeOne | sizeMore | popLocked | unlockPopped | unlockFirst | pop =>
    exact .inl ⟨by simp [WorkerPc.busy], rfl⟩
  | lock hpc | emptyWait hpc | emptyUnlock hpc | waitBlock hpc | waitUnlock hpc | block hpc
  | relock hpc | unlock hpc | stay hpc | quit hpc | leave hpc =>
    rw [hpc] at hb
    cases hb

/-- A worker with an empty list goes on looking for a task. -/
theorem workerStep_seeks (h : workerStep s i = some s') (hl : s.list i = [])
    (hs : (s.worker i).seeks = true) : s'.list i = [] ∧ (s'.worker i).seeks = true := by
  cases workerStep_move h with
  | lock | emptyWait | waitBlock | block | relock => exact ⟨hl, by simp [WorkerPc.seeks]⟩
  | emptyUnlock _ hne | waitUnlock _ hne => exact absurd hl hne
  | unlock hpc | stay hpc | quit hpc | runFront hpc | lockPop hpc | sizeOne hpc | sizeMore hpc
  | popLocked hpc | unlockPopped hpc | unlockFirst hpc | pop hpc | uncount hpc | leave hpc =>
    rw [hpc] at hs
    cases hs

/-- A worker that sleeps stays asleep until it is woken. -/
theorem workerStep_asleep (h : workerStep s i = some s') (hs : (s.worker i).asleep = true) :
    (s'.worker i).asleep = true := by
  cases workerStep_move h with
  | block => simp [WorkerPc.asleep]
  | lock hpc | emptyWait hpc | emptyUnlock hpc | waitBlock hpc | waitUnlock hpc | relock hpc
  | unlock hpc | stay hpc | quit hpc | runFront hpc | lockPop hpc | sizeOne hpc | sizeMore hpc
  | popLocked hpc | unlockPopped hpc | unlockFirst hpc | pop hpc | uncount hpc | leave hpc =>
    rw [hpc] at hs
    cases hs

theorem Overshot.of_woken (ho : Overshot i s) (hw : (s.worker i).Woken (s'.worker i))
    (ht : s'.taskcnt = s.taskcnt) : Overshot i s' := by
  unfold Overshot at *
  rw [hw.keeps (f := WorkerPc.busy) rfl, hw.keeps (f := WorkerPc.leaves) rfl, ht]
  exact ho

theorem overshot_step {a : Act n τ} (hst : s.submitter.stored = true) (ho : Overshot i s)
    (h : step s a = some s') : Overshot i s' := by
  cases step_move h with
  | emplaceBack | destroy => exact ho
  | submitter h => exact ho.of_woken (submitterStep_woken h) (submitterStep_stored h hst).2
  | @worker j _ h =>
    have hle := workerStep_taskcnt_le h
    by_cases hij : i = j
    · subst hij
      rcases ho with ⟨hb, ht⟩ | ⟨ht, hl⟩
      · rcases workerStep_busy h hb with ⟨hb', ht'⟩ | ⟨hlock, ht'⟩
        · exact .inl ⟨hb', ht' ▸ ht⟩
        · exact .inr ⟨by omega, by rw [hlock]; rfl⟩
      · refine .inr ⟨by omega, ?_⟩
        by_contra hleaves
        obtain ⟨-, hminus⟩ := (workerStep_leaves h hl).2 (by simpa using hleaves)
        omega
    · have hworker := (workerStep_frame h hij).1
      unfold Overshot at *
      rw [hworker]
      rcases ho with ⟨hb, ht⟩ | ⟨ht, hl⟩
      · exact .inl ⟨hb, by omega⟩
      · exact .inr ⟨by omega, hl⟩
  | wake hblocked => exact ho.of_woken (wake_woken hblocked) rfl

theorem starved_step {a : Act n τ} (hst : s.submitter.stored = true) (hs : Starved i s)
    (h : step s a = some s') : Starved i s' := by
  cases step_move h with
  | emplaceBack | destroy => exact hs
  | submitter h =>
    refine ⟨?_, (submitterStep_woken h).keeps (f := WorkerPc.seeks) rfl ▸ hs.2⟩
    rw [(submitterStep_stored h hst).1]
    exact hs.1
  | @worker j _ h =>
    by_cases hij : i = j
    · subst hij
      exact workerStep_seeks h hs.1 hs.2
    · obtain ⟨hworker, -, hlist⟩ := workerStep_frame h hij
      exact ⟨hlist ▸ hs.1, hworker ▸ hs.2⟩
  | wake hblocked => exact ⟨hs.1, (wake_woken hblocked).keeps (f := WorkerPc.seeks) rfl ▸ hs.2⟩

/-- A destructor that has read a `workercnt` of 1 notifies worker 0 and no other. -/
theorem submitterStep_unnotified (hi : i.val ≠ 0) (hw : Staffed s) (hu : Unnotified i s)
    (h : submitterStep s = some s') : Unnotified i s' := by
  obtain ⟨hasleep, hmax⟩ := hu
  cases submitterStep_move h with
  | workercntZero _ hzero =>
    have hpos := hw.pos (asleep_ne hasleep)
    omega
  | workercntLeft hpc | notifiedAll hpc =>
    rw [hpc] at hmax
    exact ⟨hasleep, hmax⟩
  | notifyAll hpc hlt hk =>
    rw [hpc] at hmax
    refine ⟨?_, hmax⟩
    cases hmax
    have hne : (⟨_, hk⟩ : Fin n) ≠ i := by
      rintro rfl
      simp only at hi
      omega
    rw [Pool.setSubmitter_worker, notifyOne_worker, if_neg fun hand => hne hand.1]
    exact hasleep
  | threadId hpc | badThreadId hpc | lock hpc | sizeOne hpc | sizeMore hpc | pushLocked hpc
  | unlockPushed hpc | unlockFirst hpc | push hpc | notify hpc | count hpc | store hpc
  | maxWorkercnt hpc =>
    rw [hpc] at hmax
    cases hmax

theorem unnotified_step {a : Act n τ} (hi : i.val ≠ 0) (hw : Staffed s) (hu : Unnotified i s)
    (ha : ∀ j, a ≠ .wake j) (h : step s a = some s') : Unnotified i s' := by
  cases step_move h with
  | emplaceBack hidle | destroy hidle =>
    have hmax := hu.2
    rw [hidle] at hmax
    cases hmax
  | submitter h => exact submitterStep_unnotified hi hw hu h
  | @worker j _ h =>
    refine ⟨?_, by rw [workerStep_submitter h]; exact hu.2⟩
    by_cases hij : i = j
    · subst hij
      exact workerStep_asleep h hu.1
    · rw [(workerStep_frame h hij).1]
      exact hu.1
  | wake => exact absurd rfl (ha _)

theorem Overshot.pos (hw : Staffed s) (ho : Overshot i s) : s.workercnt ≠ 0 := by
  have hi : s.worker i ≠ .exited := by
    intro hexited
    rcases ho with ⟨hb, -⟩ | ⟨-, hl⟩
    · rw [hexited] at hb
      cases hb
    · rw [hexited] at hl
      cases hl
  exact (hw.pos hi).ne'

theorem Starved.pos (hw : Staffed s) (hs : Starved i s) : s.workercnt ≠ 0 := by
  have hi : s.worker i ≠ .exited := by
    intro hexited
    have hseeks := hs.2
    rw [hexited] at hseeks
    cases hseeks
  exact (hw.pos hi).ne'

theorem Overshot.stuck (hst : s.submitter.stored = true) (hw : Staffed s) (ho : Overshot i s) :
    ¬ Finishes s :=
  not_finishes (I := fun s => s.submitter.stored = true ∧ Staffed s ∧ Overshot i s)
    (fun _ _ _ hI _ hu =>
      ⟨stored_step hu hI.1, staffed_step hI.2.1 hu, overshot_step hI.1 hI.2.2 hu⟩)
    (fun _ hI => hI.2.2.pos hI.2.1) ⟨hst, hw, ho⟩

/-- No schedule ends a worker that has no task, not even one in which it wakes on its own. -/
theorem Starved.run_pos (hst : s.submitter.stored = true) (hw : Staffed s) (hs : Starved i s)
    (more : List (Act n τ)) (hm : Lts.run step s more = some s') : s'.workercnt ≠ 0 := by
  have hinv : s'.submitter.stored = true ∧ Staffed s' ∧ Starved i s' :=
    Lts.run_invariant (I := fun s => s.submitter.stored = true ∧ Staffed s ∧ Starved i s)
      (fun _ _ _ hI hu =>
        ⟨stored_step hu hI.1, staffed_step hI.2.1 hu, starved_step hI.1 hI.2.2 hu⟩)
      ⟨hst, hw, hs⟩ more s' hm
  exact hinv.2.2.pos hinv.2.1

theorem Starved.stuck (hst : s.submitter.stored = true) (hw : Staffed s) (hs : Starved i s) :
    ¬ Finishes s := by
  rintro ⟨t, ⟨acts, -, ht⟩, hzero⟩
  exact hs.run_pos hst hw acts ht hzero

theorem Unnotified.stuck (hi : i.val ≠ 0) (hw : Staffed s) (hu : Unnotified i s) :
    ¬ Finishes s :=
  not_finishes (I := fun s => Staffed s ∧ Unnotified i s)
    (fun _ _ _ hI ha hstep =>
      ⟨staffed_step hI.1 hstep, unnotified_step hi hI.1 hI.2 ha hstep⟩)
    (fun _ hI => (hI.1.pos (asleep_ne hI.2.1)).ne') ⟨hw, hu⟩

/-- All other workers can leave before the destructor reads `workercnt`. -/
theorem Draining.strand (hd : Draining s) (ho : Owned s) (hw : Staffed s)
    (hpc : s.submitter = .maxWorkercnt) (hi : (s.worker i).asleep = true) :
    ∃ t, Lts.Reaches step (fun _ => True) s t ∧ Staffed t ∧ t.submitter = .maxWorkercnt ∧
      (t.worker i).asleep = true ∧ ∀ j, j ≠ i → t.worker j = .exited := by
  have hnext : ∀ t : Pool n τ,
      (Draining t ∧ Owned t ∧ Staffed t ∧ t.submitter = .maxWorkercnt ∧
        (t.worker i).asleep = true) → (¬ ∀ j, j ≠ i → t.worker j = .exited) →
      ∃ u, Lts.Reaches step (fun _ => True) t u ∧ (Draining u ∧ Owned u ∧ Staffed u ∧
        u.submitter = .maxWorkercnt ∧ (u.worker i).asleep = true) ∧ u.rank < t.rank := by
    rintro t ⟨hd, ho, hw, hpc, hi⟩ hg
    push Not at hg
    obtain ⟨j, hij, hj⟩ := hg
    by_cases hb : t.worker j = .blocked
    · have h : step t (.wake j) = some (t.setWorker j .relock) := by
        simp only [step, hb, if_true]
      refine ⟨_, .single trivial h,
        ⟨draining_step hd h, owned_step ho h, staffed_step hw h, hpc, ?_⟩, ?_⟩
      · rw [Pool.setWorker_worker, Function.update_of_ne (Ne.symm hij)]
        exact hi
      · refine Finset.sum_lt_sum (fun _ _ => (wake_woken hb).rank_le)
          ⟨j, Finset.mem_univ j, ?_⟩
        simp [hb, WorkerPc.rank]
    · obtain ⟨u, hu⟩ := hd.workerStep ho hj hb
      have h : step t (.worker j) = some u := hu
      refine ⟨u, .single trivial h, ⟨draining_step hd h, owned_step ho h, staffed_step hw h,
        (workerStep_submitter hu).trans hpc, ?_⟩, hd.rank_lt hu⟩
      rw [(workerStep_frame hu (Ne.symm hij)).1]
      exact hi
  obtain ⟨t, ht, ⟨-, -, hw', hpc', hi'⟩, hg⟩ :=
    Lts.Reaches.of_measure (fun s => s.rank) hnext s ⟨hd, ho, hw, hpc, hi⟩
  exact ⟨t, ht, hw', hpc', hi', hg⟩

/-- Then it reads 1, and does not notify the worker that is left. -/
theorem Draining.unnotified (hd : Draining s) (ho : Owned s) (hw : Staffed s)
    (hpc : s.submitter = .maxWorkercnt) (hi : (s.worker i).asleep = true) (h0 : i.val ≠ 0) :
    ∃ more t, Lts.run step s more = some t ∧ ¬ Finishes t := by
  obtain ⟨t, ⟨acts, -, ht⟩, hwt, hpct, hit, hexited⟩ := hd.strand ho hw hpc hi
  have hone : t.workercnt = 1 := by
    have hsingle :=
      Finset.sum_eq_single (f := fun j => if t.worker j = .exited then (0 : Int) else 1)
      i (fun j _ hij => if_pos (hexited j hij)) (fun hmem => absurd (Finset.mem_univ i) hmem)
    rw [hwt, hsingle, if_neg (asleep_ne hit)]
  have h : step t .submitter = some (t.setSubmitter (.workercntTest t.workercnt)) := by
    simp only [step, submitterStep, hpct]
  refine ⟨acts ++ [.submitter], _, Lts.run_concat_eq_some.mpr ⟨t, ht, h⟩,
    Unnotified.stuck h0 (staffed_step hwt h) ⟨hit, ?_⟩⟩
  rw [Pool.setSubmitter_submitter, hone]
  rfl

/-! ## The store -/

/-- The state after the store of `-1` -/
def Pool.closed (s : Pool n τ) : Pool n τ := { s with taskcnt := -1 }.setSubmitter .maxWorkercnt

theorem step_store (h : s.submitter = .store) : step s .submitter = some s.closed := by
  simp only [step, submitterStep, h]
  rfl

/-- Nothing but the store makes `stored` true. -/
theorem store_of_stored {a : Act n τ} (h : step s a = some s') (hst : s.submitter.stored = false)
    (hst' : s'.submitter.stored = true) : a = .submitter ∧ s.submitter = .store := by
  cases step_move h with
  | emplaceBack | destroy => cases hst'
  | submitter h =>
    cases submitterStep_move h with
    | store hpc => exact ⟨rfl, hpc⟩
    | threadId | badThreadId | lock | sizeOne | sizeMore | pushLocked | unlockPushed
    | unlockFirst | push | notify | count => cases hst'
    | maxWorkercnt hpc | workercntZero hpc | workercntLeft hpc | notifyAll hpc | notifiedAll hpc =>
      rw [hpc] at hst
      cases hst
  | worker h =>
    rw [workerStep_submitter h, hst] at hst'
    cases hst'
  | wake =>
    have hfalse : s.submitter.stored = true := hst'
    rw [hst] at hfalse
    cases hfalse

theorem Ready.closing (hr : Ready s) (ho : Owned s.closed) (hw : Staffed s.closed) :
    Closing s.closed where
  draining := ⟨rfl, rfl, hr.list, hr.worker⟩
  owned := ho
  staffed := hw
  sole := ⟨fun m hm => (by cases hm), fun i hi => ⟨hr.asleep i hi, by simp [Pool.closed],
    fun m hm => (by cases hm)⟩⟩

/-- A worker that holds no task, is not running one and has not left looks for one. -/
theorem seeks_of {pc : WorkerPc} (hh : pc.holds = false) (hb : pc.busy = false)
    (hl : pc.leaves = false) : pc.seeks = true := by
  cases pc with
  | lock | emptyTest | waitTest | block | blocked | relock => rfl
  | unlock | taskcntTest => cases hh
  | runFront | lockPop | sizeTest | popLocked | unlockPopped | unlockFirst | pop | uncount =>
    cases hb
  | leave | exited => cases hl

/-- A store in a state that is not ready leads to a state in which the destructor is stuck. -/
theorem Counted.stuck (hc : Counted s) (hheld : Held s) (ho : Owned s.closed)
    (hw : Staffed s.closed) (hr : ¬ Ready s) :
    ∃ more t, Lts.run step s.closed more = some t ∧ ¬ Finishes t := by
  by_cases hbusy : ∃ i, (s.worker i).busy = true
  · obtain ⟨i, hi⟩ := hbusy
    have hover : Overshot i s.closed := .inl ⟨hi, le_refl _⟩
    exact ⟨[], _, rfl, hover.stuck rfl hw⟩
  · have hnot : ∀ i, (s.worker i).busy = false := fun i => by
      by_contra hi
      exact hbusy ⟨i, by simpa using hi⟩
    by_cases hempty : ∃ i, s.list i = []
    · obtain ⟨i, hi⟩ := hempty
      have hholds : (s.worker i).holds = false := by
        by_contra hholds
        exact hheld i (by simpa using hholds) hi
      have hstarved : Starved i s.closed := ⟨hi, seeks_of hholds (hnot i) (hc.worker i)⟩
      exact ⟨[], _, rfl, hstarved.stuck rfl hw⟩
    · have hlist : ∀ i, s.list i ≠ [] := fun i hi => hempty ⟨i, hi⟩
      have hasleep : ∃ i, (s.worker i).asleep = true ∧ i.val ≠ 0 := by
        by_contra hnone
        exact hr ⟨hlist, hnot, fun i hi => by_contra fun h0 => hnone ⟨i, hi, h0⟩⟩
      obtain ⟨i, hi, h0⟩ := hasleep
      have hd : Draining s.closed := ⟨rfl, rfl, hlist, hnot⟩
      exact hd.unnotified ho hw rfl hi h0

end Stuck

theorem closing_run (acts : List (Act n τ)) :
    Lts.Along step StoreReady (init n τ) acts → ∀ s, Lts.run step (init n τ) acts = some s →
      s.submitter.stored = true → Closing s := by
  induction acts using List.reverseRecOn with
  | nil =>
    intro _ s h hst
    cases h
    cases hst
  | append_singleton acts a ih =>
    intro halong s h hst
    obtain ⟨t, ht, hs⟩ := Lts.run_concat_eq_some.mp h
    by_cases hbefore : t.submitter.stored = true
    · exact closing_step (ih (halong.of_prefix (List.prefix_append _ _)) t ht hbefore) hs
    · obtain ⟨rfl, hstore⟩ := store_of_stored hs (by simpa using hbefore) hst
      have hready : Ready t := halong acts .submitter t s (List.prefix_refl _) ht hs hstore
      rw [step_store hstore] at hs
      cases hs
      exact hready.closing (owned_run h) (staffed_run h)

/-- From every state behind the store some schedule ends all workers, exactly when the store is
made in a ready state. -/
theorem finishes_iff (acts : List (Act n τ)) :
    (∀ pre s, pre <+: acts → Lts.run step (init n τ) pre = some s → s.submitter.stored = true →
        ∀ more s', Lts.run step s more = some s' → Finishes s') ↔
      Lts.Along step StoreReady (init n τ) acts := by
  constructor
  · intro hfin pre a t u hpre ht hu
    cases a with
    | submitter =>
      intro hstore
      by_contra hready
      have hn : 0 < n := by
        by_contra hzero
        obtain rfl : n = 0 := by omega
        exact hready ⟨fun i => i.elim0, fun i => i.elim0, fun i => i.elim0⟩
      have hstored : step t .submitter = some t.closed := step_store hstore
      have hrun : Lts.run step (init n τ) (pre ++ [.submitter]) = some t.closed :=
        Lts.run_concat_eq_some.mpr ⟨t, ht, hstored⟩
      have hc := counted_run hn pre t ht (by rw [hstore]; rfl)
      obtain ⟨more, v, hv, hstuck⟩ :=
        hc.stuck (held_run ht) (owned_run hrun) (staffed_run hrun) hready
      exact hstuck (hfin _ _ hpre hrun rfl more v hv)
    | emplaceBack t | destroy | worker i | wake i => trivial
  · intro halong pre s hpre hs hst more s' hs'
    have hclosing : Closing s' :=
      Lts.run_invariant (fun _ _ _ hc hu => closing_step hc hu)
        (closing_run pre (halong.of_prefix hpre) s hs hst) more s' hs'
    exact hclosing.finishes

/-- A pool that has never had a task: its worker waits for one behind the store. -/
theorem idle_stuck :
    ∃ s, Lts.run step (init 1 Nat) [.destroy, .submitter] = some s ∧ s.submitter.stored = true ∧
      (∀ more s', Lts.run step s more = some s' → s'.workercnt ≠ 0) ∧ ¬ Finishes s := by
  have hrun : Lts.run step (init 1 Nat) [.destroy, .submitter] =
      some ((init 1 Nat).setSubmitter .store).closed := rfl
  have hw := staffed_run hrun
  have hstarved : Starved 0 ((init 1 Nat).setSubmitter .store).closed := ⟨rfl, rfl⟩
  exact ⟨_, hrun, rfl, fun more s' h => hstarved.run_pos rfl hw more h, hstarved.stuck rfl hw⟩

end ThreadPool
end SimpleWeb
