import SimpleWeb.Lib.Lts

/-!
# ThreadPool.Pool

The thread pool of `ThreadPool.hpp` and `ThreadPool.cpp`: `n` workers with a list, a mutex and a
condition variable each, and one submitting thread. Every program counter stands in front of the
atomic step it names.
-/

namespace SimpleWeb
namespace ThreadPool

inductive Owner where
  | submitter
  | worker
  deriving DecidableEq

/-- The submitter: outside of `emplace_back`, in it, or in the destructor. -/
inductive SubmitterPc (n : Nat) (τ : Type) where
  | idle
  | threadId (t : τ)
  /-- `taskcnt.load()%workercnt` was no index of `list` and `mvec` -/
  | badThreadId
  | lock (t : τ) (i : Fin n)
  | sizeTest (t : τ) (i : Fin n)
  | pushLocked (t : τ) (i : Fin n)
  | unlockPushed (i : Fin n)
  | unlockFirst (t : τ) (i : Fin n)
  | push (t : τ) (i : Fin n)
  | notify (i : Fin n)
  | count
  | store
  | maxWorkercnt
  | workercntTest (max : Int)
  | notifyAll (max : Int) (i : Nat)
  | join
  deriving DecidableEq

inductive WorkerPc where
  | lock
  | emptyTest
  | waitTest
  | block
  | blocked
  | relock
  | unlock
  | taskcntTest
  | runFront
  | lockPop
  | sizeTest
  | popLocked
  | unlockPopped
  | unlockFirst
  | pop
  | uncount
  | leave
  | exited
  deriving DecidableEq

structure Pool (n : Nat) (τ : Type) where
  workercnt : Int
  taskcnt : Int
  mutex : Fin n → Option Owner
  list : Fin n → List τ
  /-- the tasks each worker has run, in order -/
  ran : Fin n → List τ
  submitter : SubmitterPc n τ
  worker : Fin n → WorkerPc

variable {n : Nat} {τ : Type}

def init (n : Nat) (τ : Type) : Pool n τ where
  workercnt := n
  taskcnt := 0
  mutex := fun _ => none
  list := fun _ => []
  ran := fun _ => []
  submitter := .idle
  worker := fun _ => .lock

namespace Pool

def setMutex (s : Pool n τ) (i : Fin n) (o : Option Owner) : Pool n τ :=
  { s with mutex := Function.update s.mutex i o }

def setList (s : Pool n τ) (i : Fin n) (l : List τ) : Pool n τ :=
  { s with list := Function.update s.list i l }

def setWorker (s : Pool n τ) (i : Fin n) (pc : WorkerPc) : Pool n τ :=
  { s with worker := Function.update s.worker i pc }

def setSubmitter (s : Pool n τ) (pc : SubmitterPc n τ) : Pool n τ := { s with submitter := pc }

/-- `list[thread_id].push_back(...)` -/
def pushBack (s : Pool n τ) (i : Fin n) (t : τ) : Pool n τ := s.setList i (s.list i ++ [t])

/-- `cv_jobaddvec[i].notify_one()`: only worker `i` ever waits there. -/
def notifyOne (s : Pool n τ) (i : Fin n) : Pool n τ :=
  if s.worker i = .blocked then s.setWorker i .relock else s

/-- The index `taskcnt.load()%workercnt`, when it is one; `%` keeps the sign of `taskcnt`. -/
def threadId (s : Pool n τ) : Option (Fin n) :=
  if h : 0 ≤ s.taskcnt.tmod s.workercnt ∧ (s.taskcnt.tmod s.workercnt).toNat < n then
    some ⟨(s.taskcnt.tmod s.workercnt).toNat, h.2⟩
  else none

section Fields

variable (s : Pool n τ) (i : Fin n)

@[simp] theorem setMutex_list (o : Option Owner) : (s.setMutex i o).list = s.list := rfl
@[simp] theorem setMutex_worker (o : Option Owner) : (s.setMutex i o).worker = s.worker := rfl
@[simp] theorem setMutex_submitter (o : Option Owner) :
    (s.setMutex i o).submitter = s.submitter := rfl
@[simp] theorem setMutex_taskcnt (o : Option Owner) : (s.setMutex i o).taskcnt = s.taskcnt := rfl
@[simp] theorem setList_list (l : List τ) : (s.setList i l).list = Function.update s.list i l := rfl
@[simp] theorem setList_worker (l : List τ) : (s.setList i l).worker = s.worker := rfl
@[simp] theorem setList_submitter (l : List τ) : (s.setList i l).submitter = s.submitter := rfl
@[simp] theorem setList_taskcnt (l : List τ) : (s.setList i l).taskcnt = s.taskcnt := rfl
@[simp] theorem setWorker_list (pc : WorkerPc) : (s.setWorker i pc).list = s.list := rfl
@[simp] theorem setWorker_worker (pc : WorkerPc) :
    (s.setWorker i pc).worker = Function.update s.worker i pc := rfl
@[simp] theorem setWorker_submitter (pc : WorkerPc) :
    (s.setWorker i pc).submitter = s.submitter := rfl
@[simp] theorem setWorker_taskcnt (pc : WorkerPc) : (s.setWorker i pc).taskcnt = s.taskcnt := rfl
@[simp] theorem setSubmitter_list (pc : SubmitterPc n τ) : (s.setSubmitter pc).list = s.list := rfl
@[simp] theorem setSubmitter_mutex (pc : SubmitterPc n τ) :
    (s.setSubmitter pc).mutex = s.mutex := rfl
@[simp] theorem setSubmitter_worker (pc : SubmitterPc n τ) :
    (s.setSubmitter pc).worker = s.worker := rfl
@[simp] theorem setSubmitter_submitter (pc : SubmitterPc n τ) :
    (s.setSubmitter pc).submitter = pc := rfl

@[simp] theorem setSubmitter_taskcnt (pc : SubmitterPc n τ) :
    (s.setSubmitter pc).taskcnt = s.taskcnt := rfl

@[simp] theorem notifyOne_list : (s.notifyOne i).list = s.list := by
  unfold notifyOne
  split
  · rfl
  · rfl

@[simp] theorem notifyOne_mutex : (s.notifyOne i).mutex = s.mutex := by
  unfold notifyOne
  split
  · rfl
  · rfl

@[simp] theorem notifyOne_taskcnt : (s.notifyOne i).taskcnt = s.taskcnt := by
  unfold notifyOne
  split
  · rfl
  · rfl

@[simp] theorem notifyOne_workercnt : (s.notifyOne i).workercnt = s.workercnt := by
  unfold notifyOne
  split
  · rfl
  · rfl

theorem notifyOne_ran : (s.notifyOne i).ran = s.ran := by
  unfold notifyOne
  split
  · rfl
  · rfl

end Fields

end Pool

def submitterStep (s : Pool n τ) : Option (Pool n τ) :=
  match s.submitter with
  | .idle => none
  | .threadId t =>
    match s.threadId with
    | some i => some (s.setSubmitter (.lock t i))
    | none => some (s.setSubmitter .badThreadId)
  | .badThreadId => none
  | .lock t i =>
    if s.mutex i = none then some ((s.setMutex i (some .submitter)).setSubmitter (.sizeTest t i))
    else none
  | .sizeTest t i =>
    if (s.list i).length ≤ 1 then some (s.setSubmitter (.pushLocked t i))
    else some (s.setSubmitter (.unlockFirst t i))
  | .pushLocked t i => some ((s.pushBack i t).setSubmitter (.unlockPushed i))
  | .unlockPushed i => some ((s.setMutex i none).setSubmitter (.notify i))
  | .unlockFirst t i => some ((s.setMutex i none).setSubmitter (.push t i))
  | .push t i => some ((s.pushBack i t).setSubmitter (.notify i))
  | .notify i => some ((s.notifyOne i).setSubmitter .count)
  | .count => some ({ s with taskcnt := s.taskcnt + 1 }.setSubmitter .idle)
  | .store => some ({ s with taskcnt := -1 }.setSubmitter .maxWorkercnt)
  | .maxWorkercnt => some (s.setSubmitter (.workercntTest s.workercnt))
  | .workercntTest max =>
    if s.workercnt = 0 then some (s.setSubmitter .join)
    else some (s.setSubmitter (.notifyAll max 0))
  | .notifyAll max i =>
    if i < max then
      if h : i < n then some ((s.notifyOne ⟨i, h⟩).setSubmitter (.notifyAll max (i + 1))) else none
    else some (s.setSubmitter (.workercntTest max))
  | .join => none

def workerStep (s : Pool n τ) (i : Fin n) : Option (Pool n τ) :=
  match s.worker i with
  | .lock =>
    if s.mutex i = none then some ((s.setMutex i (some .worker)).setWorker i .emptyTest) else none
  | .emptyTest =>
    if s.list i = [] then some (s.setWorker i .waitTest) else some (s.setWorker i .unlock)
  -- `wait(l, pred)` tests its predicate before it blocks and whenever it wakes
  | .waitTest =>
    if s.list i = [] then some (s.setWorker i .block) else some (s.setWorker i .unlock)
  | .block => some ((s.setMutex i none).setWorker i .blocked)
  | .blocked => none
  | .relock =>
    if s.mutex i = none then some ((s.setMutex i (some .worker)).setWorker i .waitTest) else none
  | .unlock => some ((s.setMutex i none).setWorker i .taskcntTest)
  | .taskcntTest =>
    if s.taskcnt ≠ -1 then some (s.setWorker i .runFront) else some (s.setWorker i .leave)
  | .runFront =>
    match s.list i with
    | [] => none
    | t :: _ =>
      some ({ s with ran := Function.update s.ran i (s.ran i ++ [t]) }.setWorker i .lockPop)
  | .lockPop =>
    if s.mutex i = none then some ((s.setMutex i (some .worker)).setWorker i .sizeTest) else none
  | .sizeTest =>
    if (s.list i).length ≤ 1 then some (s.setWorker i .popLocked)
    else some (s.setWorker i .unlockFirst)
  | .popLocked => some ((s.setList i (s.list i).tail).setWorker i .unlockPopped)
  | .unlockPopped => some ((s.setMutex i none).setWorker i .uncount)
  | .unlockFirst => some ((s.setMutex i none).setWorker i .pop)
  | .pop => some ((s.setList i (s.list i).tail).setWorker i .uncount)
  | .uncount => some ({ s with taskcnt := s.taskcnt - 1 }.setWorker i .lock)
  | .leave => some ({ s with workercnt := s.workercnt - 1 }.setWorker i .exited)
  | .exited => none

inductive Act (n : Nat) (τ : Type) where
  /-- the submitting thread calls `emplace_back` -/
  | emplaceBack (t : τ)
  /-- it enters the destructor -/
  | destroy
  | submitter
  | worker (i : Fin n)
  /-- a blocked worker wakes on its own -/
  | wake (i : Fin n)

def step (s : Pool n τ) : Act n τ → Option (Pool n τ)
  | .emplaceBack t =>
    match s.submitter with
    | .idle => some (s.setSubmitter (.threadId t))
    | _ => none
  | .destroy =>
    match s.submitter with
    | .idle => some (s.setSubmitter .store)
    | _ => none
  | .submitter => submitterStep s
  | .worker i => workerStep s i
  | .wake i => if s.worker i = .blocked then some (s.setWorker i .relock) else none

/-! ## Moves

The step functions as relations, one rule for each transition with its guards. Whatever is proved
about a step goes by these rules. -/

inductive WorkerMove (s : Pool n τ) (i : Fin n) : Pool n τ → Prop where
  | lock : s.worker i = .lock → s.mutex i = none →
      WorkerMove s i ((s.setMutex i (some .worker)).setWorker i .emptyTest)
  | emptyWait : s.worker i = .emptyTest → s.list i = [] → WorkerMove s i (s.setWorker i .waitTest)
  | emptyUnlock : s.worker i = .emptyTest → s.list i ≠ [] → WorkerMove s i (s.setWorker i .unlock)
  | waitBlock : s.worker i = .waitTest → s.list i = [] → WorkerMove s i (s.setWorker i .block)
  | waitUnlock : s.worker i = .waitTest → s.list i ≠ [] → WorkerMove s i (s.setWorker i .unlock)
  | block : s.worker i = .block → WorkerMove s i ((s.setMutex i none).setWorker i .blocked)
  | relock : s.worker i = .relock → s.mutex i = none →
      WorkerMove s i ((s.setMutex i (some .worker)).setWorker i .waitTest)
  | unlock : s.worker i = .unlock → WorkerMove s i ((s.setMutex i none).setWorker i .taskcntTest)
  | stay : s.worker i = .taskcntTest → s.taskcnt ≠ -1 → WorkerMove s i (s.setWorker i .runFront)
  | quit : s.worker i = .taskcntTest → s.taskcnt = -1 → WorkerMove s i (s.setWorker i .leave)
  | runFront {t : τ} {l : List τ} : s.worker i = .runFront → s.list i = t :: l →
      WorkerMove s i
        ({ s with ran := Function.update s.ran i (s.ran i ++ [t]) }.setWorker i .lockPop)
  | lockPop : s.worker i = .lockPop → s.mutex i = none →
      WorkerMove s i ((s.setMutex i (some .worker)).setWorker i .sizeTest)
  | sizeOne : s.worker i = .sizeTest → (s.list i).length ≤ 1 →
      WorkerMove s i (s.setWorker i .popLocked)
  | sizeMore : s.worker i = .sizeTest → ¬ (s.list i).length ≤ 1 →
      WorkerMove s i (s.setWorker i .unlockFirst)
  | popLocked : s.worker i = .popLocked →
      WorkerMove s i ((s.setList i (s.list i).tail).setWorker i .unlockPopped)
  | unlockPopped : s.worker i = .unlockPopped →
      WorkerMove s i ((s.setMutex i none).setWorker i .uncount)
  | unlockFirst : s.worker i = .unlockFirst → WorkerMove s i ((s.setMutex i none).setWorker i .pop)
  | pop : s.worker i = .pop → WorkerMove s i ((s.setList i (s.list i).tail).setWorker i .uncount)
  | uncount : s.worker i = .uncount →
      WorkerMove s i ({ s with taskcnt := s.taskcnt - 1 }.setWorker i .lock)
  | leave : s.worker i = .leave →
      WorkerMove s i ({ s with workercnt := s.workercnt - 1 }.setWorker i .exited)

inductive SubmitterMove (s : Pool n τ) : Pool n τ → Prop where
  | threadId {t : τ} {i : Fin n} : s.submitter = .threadId t → s.threadId = some i →
      SubmitterMove s (s.setSubmitter (.lock t i))
  | badThreadId {t : τ} : s.submitter = .threadId t → s.threadId = none →
      SubmitterMove s (s.setSubmitter .badThreadId)
  | lock {t : τ} {i : Fin n} : s.submitter = .lock t i → s.mutex i = none →
      SubmitterMove s ((s.setMutex i (some .submitter)).setSubmitter (.sizeTest t i))
  | sizeOne {t : τ} {i : Fin n} : s.submitter = .sizeTest t i → (s.list i).length ≤ 1 →
      SubmitterMove s (s.setSubmitter (.pushLocked t i))
  | sizeMore {t : τ} {i : Fin n} : s.submitter = .sizeTest t i → ¬ (s.list i).length ≤ 1 →
      SubmitterMove s (s.setSubmitter (.unlockFirst t i))
  | pushLocked {t : τ} {i : Fin n} : s.submitter = .pushLocked t i →
      SubmitterMove s ((s.pushBack i t).setSubmitter (.unlockPushed i))
  | unlockPushed {i : Fin n} : s.submitter = .unlockPushed i →
      SubmitterMove s ((s.setMutex i none).setSubmitter (.notify i))
  | unlockFirst {t : τ} {i : Fin n} : s.submitter = .unlockFirst t i →
      SubmitterMove s ((s.setMutex i none).setSubmitter (.push t i))
  | push {t : τ} {i : Fin n} : s.submitter = .push t i →
      SubmitterMove s ((s.pushBack i t).setSubmitter (.notify i))
  | notify {i : Fin n} : s.submitter = .notify i →
      SubmitterMove s ((s.notifyOne i).setSubmitter .count)
  | count : s.submitter = .count →
      SubmitterMove s ({ s with taskcnt := s.taskcnt + 1 }.setSubmitter .idle)
  | store : s.submitter = .store →
      SubmitterMove s ({ s with taskcnt := -1 }.setSubmitter .maxWorkercnt)
  | maxWorkercnt : s.submitter = .maxWorkercnt →
      SubmitterMove s (s.setSubmitter (.workercntTest s.workercnt))
  | workercntZero {max : Int} : s.submitter = .workercntTest max → s.workercnt = 0 →
      SubmitterMove s (s.setSubmitter .join)
  | workercntLeft {max : Int} : s.submitter = .workercntTest max → s.workercnt ≠ 0 →
      SubmitterMove s (s.setSubmitter (.notifyAll max 0))
  | notifyAll {max : Int} {k : Nat} : s.submitter = .notifyAll max k → k < max → (hk : k < n) →
      SubmitterMove s ((s.notifyOne ⟨k, hk⟩).setSubmitter (.notifyAll max (k + 1)))
  | notifiedAll {max : Int} {k : Nat} : s.submitter = .notifyAll max k → ¬ k < max →
      SubmitterMove s (s.setSubmitter (.workercntTest max))

inductive Move (s : Pool n τ) : Act n τ → Pool n τ → Prop where
  | emplaceBack {t : τ} : s.submitter = .idle →
      Move s (.emplaceBack t) (s.setSubmitter (.threadId t))
  | destroy : s.submitter = .idle → Move s .destroy (s.setSubmitter .store)
  | submitter {s' : Pool n τ} : submitterStep s = some s' → Move s .submitter s'
  | worker {i : Fin n} {s' : Pool n τ} : workerStep s i = some s' → Move s (.worker i) s'
  | wake {i : Fin n} : s.worker i = .blocked → Move s (.wake i) (s.setWorker i .relock)

section Steps

variable {s s' : Pool n τ} {i j : Fin n}

theorem workerStep_move (h : workerStep s i = some s') : WorkerMove s i s' := by
  cases hpc : s.worker i with
  | lock | relock | lockPop =>
    simp only [workerStep, hpc] at h
    split at h
    · rename_i hfree
      cases h
      first
        | exact .lock hpc hfree
        | exact .relock hpc hfree
        | exact .lockPop hpc hfree
    · cases h
  | emptyTest =>
    simp only [workerStep, hpc] at h
    split at h
    · rename_i hl
      cases h
      exact .emptyWait hpc hl
    · rename_i hl
      cases h
      exact .emptyUnlock hpc hl
  | waitTest =>
    simp only [workerStep, hpc] at h
    split at h
    · rename_i hl
      cases h
      exact .waitBlock hpc hl
    · rename_i hl
      cases h
      exact .waitUnlock hpc hl
  | taskcntTest =>
    simp only [workerStep, hpc] at h
    split at h
    · rename_i ht
      cases h
      exact .stay hpc ht
    · rename_i ht
      cases h
      exact .quit hpc (not_not.mp ht)
  | runFront =>
    simp only [workerStep, hpc] at h
    split at h
    · cases h
    · rename_i hl
      cases h
      exact .runFront hpc hl
  | sizeTest =>
    simp only [workerStep, hpc] at h
    split at h
    · rename_i hl
      cases h
      exact .sizeOne hpc hl
    · rename_i hl
      cases h
      exact .sizeMore hpc hl
  | block | unlock | popLocked | unlockPopped | unlockFirst | pop | uncount | leave =>
    simp only [workerStep, hpc] at h
    cases h
    constructor
    exact hpc
  | blocked | exited =>
    simp only [workerStep, hpc] at h
    cases h

theorem submitterStep_move (h : submitterStep s = some s') : SubmitterMove s s' := by
  cases hpc : s.submitter with
  | threadId t =>
    simp only [submitterStep, hpc] at h
    split at h
    · rename_i hi
      cases h
      exact .threadId hpc hi
    · rename_i hi
      cases h
      exact .badThreadId hpc hi
  | lock t i =>
    simp only [submitterStep, hpc] at h
    split at h
    · rename_i hfree
      cases h
      exact .lock hpc hfree
    · cases h
  | sizeTest t i =>
    simp only [submitterStep, hpc] at h
    split at h
    · rename_i hl
      cases h
      exact .sizeOne hpc hl
    · rename_i hl
      cases h
      exact .sizeMore hpc hl
  | workercntTest max =>
    simp only [submitterStep, hpc] at h
    split at h
    · rename_i hzero
      cases h
      exact .workercntZero hpc hzero
    · rename_i hzero
      cases h
      exact .workercntLeft hpc hzero
  | notifyAll max k =>
    simp only [submitterStep, hpc] at h
    split at h
    · rename_i hmax
      split at h
      · rename_i hk
        cases h
        exact .notifyAll hpc hmax hk
      · cases h
    · rename_i hmax
      cases h
      exact .notifiedAll hpc hmax
  | pushLocked t i | unlockPushed i | unlockFirst t i | push t i | notify i | count | store
  | maxWorkercnt =>
    simp only [submitterStep, hpc] at h
    cases h
    constructor
    exact hpc
  | idle | badThreadId | join =>
    simp only [submitterStep, hpc] at h
    cases h

theorem step_move {a : Act n τ} (h : step s a = some s') : Move s a s' := by
  cases a with
  | emplaceBack t | destroy =>
    simp only [step] at h
    split at h
    · rename_i hidle
      cases h
      constructor
      exact hidle
    · cases h
  | submitter => exact .submitter h
  | worker i => exact .worker h
  | wake i =>
    simp only [step] at h
    split at h
    · rename_i hblocked
      cases h
      exact .wake hblocked
    · cases h

/-! ## What a step does -/

/-- A worker leaves the others alone. -/
theorem workerStep_frame (h : workerStep s i = some s') (hij : j ≠ i) :
    s'.worker j = s.worker j ∧ s'.mutex j = s.mutex j ∧ s'.list j = s.list j := by
  cases workerStep_move h <;>
    simp [Pool.setWorker, Pool.setMutex, Pool.setList, Function.update_of_ne hij]

theorem workerStep_submitter (h : workerStep s i = some s') : s'.submitter = s.submitter := by
  cases workerStep_move h <;> rfl

/-- A worker that is about to block has just found its list empty; one that blocks was about to. -/
theorem workerStep_sleep (h : workerStep s i = some s')
    (hw : s'.worker i = .block ∨ s'.worker i = .blocked) :
    (s'.list i = [] ∧ s'.worker i = .block) ∨
      (s.worker i = .block ∧ s'.list i = s.list i ∧ s'.worker i = .blocked) := by
  cases workerStep_move h with
  | waitBlock _ hl => exact .inl ⟨hl, by simp⟩
  | block hpc => exact .inr ⟨hpc, rfl, by simp⟩
  | _ => simp at hw

theorem notifyOne_worker : (s.notifyOne i).worker j =
    if i = j ∧ s.worker i = .blocked then .relock else s.worker j := by
  unfold Pool.notifyOne
  by_cases hb : s.worker i = .blocked
  · by_cases hij : i = j
    · subst hij
      simp [hb]
    · simp [hb, hij, Function.update_of_ne (Ne.symm hij)]
  · simp [hb]

/-- The worker is where it was, or has been woken. -/
def WorkerPc.Woken (pc pc' : WorkerPc) : Prop := pc' = pc ∨ (pc = .blocked ∧ pc' = .relock)

/-- Waking keeps whatever does not tell the two places apart. -/
theorem WorkerPc.Woken.keeps {α : Sort*} {pc pc' : WorkerPc} (h : pc.Woken pc')
    {f : WorkerPc → α} (hf : f .relock = f .blocked) : f pc' = f pc := by
  rcases h with rfl | ⟨rfl, rfl⟩
  · rfl
  · exact hf

theorem notifyOne_woken : (s.worker j).Woken ((s.notifyOne i).worker j) := by
  rw [notifyOne_worker]
  split
  · rename_i h
    exact .inr ⟨h.1 ▸ h.2, rfl⟩
  · exact .inl rfl

theorem wake_woken (hi : s.worker i = .blocked) :
    (s.worker j).Woken ((s.setWorker i .relock).worker j) := by
  by_cases hij : j = i
  · subst hij
    exact .inr ⟨hi, by simp⟩
  · exact .inl (Function.update_of_ne hij ..)

/-- The submitter moves a worker only to wake it. -/
theorem submitterStep_woken (h : submitterStep s = some s') :
    (s.worker j).Woken (s'.worker j) := by
  cases submitterStep_move h with
  | notify | notifyAll => exact notifyOne_woken
  | _ => exact .inl rfl

/-- Only a push makes a list longer. -/
theorem submitterStep_list (h : submitterStep s = some s') :
    s'.list = s.list ∨ ∃ t i,
      ((s.submitter = .pushLocked t i ∧ s'.submitter = .unlockPushed i) ∨
        (s.submitter = .push t i ∧ s'.submitter = .notify i)) ∧
      s'.list = Function.update s.list i (s.list i ++ [t]) := by
  cases submitterStep_move h with
  | pushLocked hpc => exact .inr ⟨_, _, .inl ⟨hpc, rfl⟩, rfl⟩
  | push hpc => exact .inr ⟨_, _, .inr ⟨hpc, rfl⟩, rfl⟩
  | notify | notifyAll => exact .inl (Pool.notifyOne_list _ _)
  | _ => exact .inl rfl

/-- The submitter stays between a push and its notification until it gives the notification. -/
theorem submitterStep_between (h : submitterStep s = some s') (hb : s.submitter = .unlockPushed i) :
    s'.submitter = .notify i := by
  simp only [submitterStep, hb] at h
  cases h
  rfl

theorem submitterStep_notify (h : submitterStep s = some s') (hn : s.submitter = .notify i)
    (hw : s.worker i = .blocked) : s'.worker i = .relock := by
  simp only [submitterStep, hn] at h
  cases h
  rw [Pool.setSubmitter_worker, notifyOne_worker, if_pos ⟨rfl, hw⟩]

end Steps

end ThreadPool
end SimpleWeb
