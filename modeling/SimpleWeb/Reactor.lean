import SimpleWeb.Utils
import SimpleWeb.ThreadPool.Tasks

/-!
# SimpleWeb.Reactor

`Reactor::handle_events(logger, tp)` (`Reactor.cpp`) with the pool it gives its handlers to and the
logger it flushes (`Logger.cpp`): wait for a batch of events, submit a task for each of them, get
the future of each, write the log.

A task runs to its end in the step a worker runs it in, and its messages enter the queue there. A
future is ready when its task has been run; one whose handler has thrown throws in `get()`, which
nothing in the loop catches. So the loop keeps what it promises of a batch exactly as long as no
handler throws (`handle_events_isolated`).

A handler that writes to a connection that is gone ends the process by `SIGPIPE`; that is left out,
and a handler here returns or throws.
-/

namespace SimpleWeb

open ThreadPool

def MAX_EVENT : Nat := 1024

/-- What a handler does with an event: the messages it gives to `Logger::log`, and whether an
exception ends it. -/
structure Handlers (τ : Type) where
  logs : τ → List Bytes
  throws : τ → Bool

/-- In front of what `handle_events` does next. -/
inductive ReactorPc (τ : Type) where
  | epollWait
  /-- the first loop, with the events that are left -/
  | emplaceBack (evs : List τ)
  /-- the second loop, in front of the `get()` of task number `k` -/
  | get (k : Nat)
  | write
  /-- an exception has left `handle_events` -/
  | thrown
  deriving DecidableEq

structure Reactor (n : Nat) (τ : Type) where
  pool : Pool n Nat
  /-- the events submitted so far; a task is a number in this list -/
  tasks : List τ
  /-- the number of the first task of the batch -/
  first : Nat
  pc : ReactorPc τ
  mess_list : List Bytes
  /-- the messages `Logger::write` has written -/
  output : List Bytes

variable {n : Nat} {τ : Type}

namespace Reactor

def init (n : Nat) (τ : Type) : Reactor n τ where
  pool := ThreadPool.init n Nat
  tasks := []
  first := 0
  pc := .epollWait
  mess_list := []
  output := []

inductive Act (n : Nat) (τ : Type) where
  /-- `epoll_wait` returns these events; for its error, none -/
  | epollWait (evs : List τ)
  /-- a step of the two loops -/
  | loop
  /-- `logger.write()`, whose `ofstream` is good or not; without a log file it writes to `std::cerr`
  instead, and `good` is true -/
  | write (good : Bool)
  | worker (i : Fin n)
  /-- a blocked worker wakes on its own -/
  | wake (i : Fin n)

def messages (hs : Handlers τ) (tasks : List τ) (k : Nat) : List Bytes :=
  (tasks[k]?.map hs.logs).getD []

def loopStep (hs : Handlers τ) (s : Reactor n τ) : Option (Reactor n τ) :=
  match s.pc with
  | .emplaceBack evs =>
    match s.pool.submitter with
    | .idle =>
      match evs with
      | [] => some { s with pc := .get s.first }
      | ev :: evs =>
        (ThreadPool.step s.pool (.emplaceBack s.tasks.length)).map fun p =>
          { s with pool := p, tasks := s.tasks ++ [ev], pc := .emplaceBack evs }
    | _ => (ThreadPool.step s.pool .submitter).map fun p => { s with pool := p }
  | .get k =>
    match s.tasks[k]? with
    | none => some { s with pc := .write }
    | some ev =>
      if s.pool.Ready k then some { s with pc := if hs.throws ev then .thrown else .get (k + 1) }
      else none
  | _ => none

/-- `if(Conf::loglevel() >= Info) logger.write();` The queue is emptied in any case, and what an
`ofstream` that is not good is given is lost. -/
def flush (info good : Bool) (s : Reactor n τ) : Reactor n τ :=
  if info then
    { s with
      pc := .epollWait
      mess_list := []
      output := if good then s.output ++ s.mess_list else s.output }
  else { s with pc := .epollWait }

def step (hs : Handlers τ) (info : Bool) (s : Reactor n τ) : Act n τ → Option (Reactor n τ)
  | .epollWait evs =>
    match s.pc with
    | .epollWait =>
      if evs.length ≤ MAX_EVENT then
        some { s with first := s.tasks.length, pc := .emplaceBack evs }
      else none
    | _ => none
  | .loop => loopStep hs s
  | .write good =>
    match s.pc with
    | .write => some (s.flush info good)
    | _ => none
  | .worker i =>
    (ThreadPool.step s.pool (.worker i)).map fun p =>
      { s with
        pool := p
        mess_list := s.mess_list ++ (s.pool.runs i).flatMap (messages hs s.tasks) }
  | .wake i => (ThreadPool.step s.pool (.wake i)).map fun p => { s with pool := p }

/-- The step function as a relation, one rule for each transition. -/
inductive Move (hs : Handlers τ) (info : Bool) (s : Reactor n τ) :
    Act n τ → Reactor n τ → Prop where
  | epollWait {evs : List τ} : s.pc = .epollWait → evs.length ≤ MAX_EVENT →
      Move hs info s (.epollWait evs) { s with first := s.tasks.length, pc := .emplaceBack evs }
  | emplaceBack {ev : τ} {evs : List τ} {p : Pool n Nat} : s.pc = .emplaceBack (ev :: evs) →
      ThreadPool.step s.pool (.emplaceBack s.tasks.length) = some p →
      Move hs info s .loop { s with pool := p, tasks := s.tasks ++ [ev], pc := .emplaceBack evs }
  | submitter {evs : List τ} {p : Pool n Nat} : s.pc = .emplaceBack evs →
      ThreadPool.step s.pool .submitter = some p → Move hs info s .loop { s with pool := p }
  | emplaced : s.pc = .emplaceBack [] → s.pool.submitter = .idle →
      Move hs info s .loop { s with pc := .get s.first }
  | get {k : Nat} {ev : τ} : s.pc = .get k → s.tasks[k]? = some ev → s.pool.Ready k →
      hs.throws ev = false → Move hs info s .loop { s with pc := .get (k + 1) }
  | rethrow {k : Nat} {ev : τ} : s.pc = .get k → s.tasks[k]? = some ev → s.pool.Ready k →
      hs.throws ev = true → Move hs info s .loop { s with pc := .thrown }
  | got {k : Nat} : s.pc = .get k → s.tasks[k]? = none →
      Move hs info s .loop { s with pc := .write }
  | write {good : Bool} : s.pc = .write → Move hs info s (.write good) (s.flush info good)
  | worker {i : Fin n} {p : Pool n Nat} : ThreadPool.step s.pool (.worker i) = some p →
      Move hs info s (.worker i)
        { s with
          pool := p
          mess_list := s.mess_list ++ (s.pool.runs i).flatMap (messages hs s.tasks) }
  | wake {i : Fin n} {p : Pool n Nat} : ThreadPool.step s.pool (.wake i) = some p →
      Move hs info s (.wake i) { s with pool := p }

section Steps

variable {hs : Handlers τ} {info : Bool} {s s' : Reactor n τ}

theorem loopStep_move (h : loopStep hs s = some s') : Move hs info s .loop s' := by
  unfold loopStep at h
  split at h
  · rename_i evs hpc
    split at h
    · rename_i hidle
      cases evs with
      | nil =>
        cases h
        exact .emplaced hpc hidle
      | cons ev evs =>
        obtain ⟨p, hp, rfl⟩ := Option.map_eq_some_iff.mp h
        exact .emplaceBack hpc hp
    · obtain ⟨p, hp, rfl⟩ := Option.map_eq_some_iff.mp h
      exact .submitter hpc hp
  · rename_i k hpc
    split at h
    · rename_i hnone
      cases h
      exact .got hpc hnone
    · rename_i ev hev
      split at h
      · rename_i hready
        cases h
        cases hthrow : hs.throws ev with
        | true => exact .rethrow hpc hev hready hthrow
        | false => exact .get hpc hev hready hthrow
      · cases h
  · cases h

theorem step_move {a : Act n τ} (h : step hs info s a = some s') : Move hs info s a s' := by
  cases a with
  | epollWait evs =>
    simp only [step] at h
    split at h
    · rename_i hpc
      split at h
      · rename_i hlen
        cases h
        exact .epollWait hpc hlen
      · cases h
    · cases h
  | loop => exact loopStep_move h
  | write good =>
    simp only [step] at h
    split at h
    · rename_i hpc
      cases h
      exact .write hpc
    · cases h
  | worker i =>
    obtain ⟨p, hp, rfl⟩ := Option.map_eq_some_iff.mp h
    exact .worker hp
  | wake i =>
    obtain ⟨p, hp, rfl⟩ := Option.map_eq_some_iff.mp h
    exact .wake hp

end Steps

/-! ## Waiting and flushing -/

/-- The tasks in front of this one have been waited for. -/
def waitedFor (s : Reactor n τ) : Nat :=
  match s.pc with
  | .epollWait | .write => s.tasks.length
  | .get k => k
  | .emplaceBack _ => s.first
  | .thrown => 0

structure Inv (info : Bool) (s : Reactor n τ) : Prop where
  submitted : Submitted s.pool s.tasks.length
  waited : ∀ k < s.waitedFor, s.pool.Ready k
  flushed : s.pc = .epollWait → info = true → s.mess_list = []

theorem init_inv (info : Bool) : (init n τ).Inv info where
  submitted := submitted_init
  waited := by simp [waitedFor, init]
  flushed _ _ := rfl

section Invariant

variable {hs : Handlers τ} {info : Bool} {s s' : Reactor n τ}

theorem step_inv {a : Act n τ} (hI : s.Inv info) (h : step hs info s a = some s') :
    s'.Inv info := by
  have hwaited := hI.waited
  cases step_move h with
  | epollWait hpc hlen =>
    simp only [waitedFor, hpc] at hwaited
    exact ⟨hI.submitted, hwaited, by simp⟩
  | @emplaceBack ev evs p hpc hp =>
    simp only [waitedFor, hpc] at hwaited
    refine ⟨?_, fun k hk => (hwaited k hk).step hp, by simp⟩
    refine hI.submitted.next (by simp) hp ?_
    simp [emplaced, List.range_succ]
  | submitter hpc hp =>
    simp only [waitedFor, hpc] at hwaited
    refine ⟨hI.submitted.next (by simp) hp (by simp [emplaced]), ?_, by simp [hpc]⟩
    intro k hk
    simp only [waitedFor, hpc] at hk
    exact (hwaited k hk).step hp
  | emplaced hpc _ =>
    simp only [waitedFor, hpc] at hwaited
    exact ⟨hI.submitted, hwaited, by simp⟩
  | @get k ev hpc hev hready _ =>
    simp only [waitedFor, hpc] at hwaited
    refine ⟨hI.submitted, ?_, by simp⟩
    intro j hj
    rcases Nat.lt_succ_iff_lt_or_eq.mp hj with hj | rfl
    · exact hwaited j hj
    · exact hready
  | rethrow hpc => exact ⟨hI.submitted, by simp [waitedFor], by simp⟩
  | got hpc hnone =>
    simp only [waitedFor, hpc] at hwaited
    have hlen := List.getElem?_eq_none_iff.mp hnone
    exact ⟨hI.submitted, fun j hj => hwaited j (Nat.lt_of_lt_of_le hj hlen), by simp⟩
  | @write good hpc =>
    simp only [waitedFor, hpc] at hwaited
    cases info with
    | true => exact ⟨hI.submitted, hwaited, fun _ _ => rfl⟩
    | false => exact ⟨hI.submitted, hwaited, fun _ hinfo => absurd hinfo (by simp)⟩
  | @worker i p hp =>
    refine ⟨hI.submitted.next (by simp) hp (by simp [emplaced]),
      fun k hk => (hwaited k hk).step hp, ?_⟩
    intro hpc hinfo
    have hpc : s.pc = .epollWait := hpc
    simp only [waitedFor, hpc] at hwaited
    simp only [hI.flushed hpc hinfo, hI.submitted.runs_nil hwaited hp]
    rfl
  | wake hp =>
    exact ⟨hI.submitted.next (by simp) hp (by simp [emplaced]),
      fun k hk => (hwaited k hk).step hp, hI.flushed⟩

theorem run_inv {acts : List (Act n τ)} (h : Lts.run (step hs info) (init n τ) acts = some s) :
    s.Inv info :=
  Lts.run_invariant (fun _ _ _ hI hu => step_inv hI hu) (init_inv info) acts s h

end Invariant

/-! ## Handlers that throw -/

/-- No handler of a batch throws. -/
def Returns (hs : Handlers τ) : Act n τ → Prop
  | .epollWait evs => ∀ ev ∈ evs, hs.throws ev = false
  | _ => True

/-- A step of the reactor's own thread, with a log that can be written. -/
def Own : Act n τ → Prop
  | .loop => True
  | .write good => good = true
  | _ => False

/-- What the loop does of a batch, however its handlers end: it is never left, the log is written
and the next batch waited for behind every task, with nothing left in the queue, and once every
task has been run the loop gets there by itself. -/
structure Isolated (hs : Handlers τ) (info : Bool) (s : Reactor n τ) : Prop where
  running : s.pc ≠ .thrown
  waited : s.pc = .write ∨ s.pc = .epollWait → ∀ k < s.tasks.length, s.pool.Ready k
  flushed : s.pc = .epollWait → info = true → s.mess_list = []
  goes_on : (∃ k, s.pc = .get k) → (∀ k < s.tasks.length, s.pool.Ready k) →
    Lts.Reaches (step hs info) Own s (({ s with pc := .write } : Reactor n τ).flush info true)

/-- The events of the batch that are not submitted yet -/
def ReactorPc.pending : ReactorPc τ → List τ
  | .emplaceBack evs => evs
  | _ => []

/-- No handler of an event so far throws. -/
structure Returning (hs : Handlers τ) (s : Reactor n τ) : Prop where
  running : s.pc ≠ .thrown
  tasks : ∀ ev ∈ s.tasks, hs.throws ev = false
  pending : ∀ ev ∈ ReactorPc.pending s.pc, hs.throws ev = false

section Throws

variable {hs : Handlers τ} {info : Bool} {s s' : Reactor n τ}

theorem init_returning (hs : Handlers τ) : (init n τ).Returning hs where
  running := nofun
  tasks := nofun
  pending := nofun

theorem step_returning {a : Act n τ} (hr : s.Returning hs) (ha : Returns hs a)
    (h : step hs info s a = some s') : s'.Returning hs := by
  cases step_move h with
  | epollWait hpc _ => exact ⟨nofun, hr.tasks, ha⟩
  | @emplaceBack ev evs p hpc _ =>
    have hpending := hr.pending
    rw [hpc] at hpending
    refine ⟨nofun, ?_, fun e he => hpending e (List.mem_cons_of_mem _ he)⟩
    intro e he
    rcases List.mem_append.mp he with he | he
    · exact hr.tasks e he
    · rw [List.mem_singleton.mp he]
      exact hpending ev List.mem_cons_self
  | emplaced | get | got => exact ⟨nofun, hr.tasks, nofun⟩
  | rethrow _ hev _ hthrows =>
    rw [hr.tasks _ (List.mem_of_getElem? hev)] at hthrows
    cases hthrows
  | write => cases info <;> exact ⟨nofun, hr.tasks, nofun⟩
  | submitter | worker | wake => exact ⟨hr.running, hr.tasks, hr.pending⟩

/-- With every future ready the second loop comes to its end. -/
theorem get_reaches (hret : ∀ ev ∈ s.tasks, hs.throws ev = false)
    (hready : ∀ k < s.tasks.length, s.pool.Ready k) (d : Nat) :
    ∀ k, s.tasks.length ≤ k + d →
      Lts.Reaches (step hs info) Own { s with pc := .get k } { s with pc := .write } := by
  induction d with
  | zero =>
    intro k hk
    have hnone : s.tasks[k]? = none := List.getElem?_eq_none hk
    refine Lts.Reaches.single (a := .loop) trivial ?_
    simp only [step, loopStep, hnone]
  | succ d ih =>
    intro k hk
    cases hev : s.tasks[k]? with
    | none =>
      refine Lts.Reaches.single (a := .loop) trivial ?_
      simp only [step, loopStep, hev]
    | some ev =>
      obtain ⟨hlt, -⟩ := List.getElem?_eq_some_iff.mp hev
      have hthrows := hret ev (List.mem_of_getElem? hev)
      refine Lts.Reaches.trans (Lts.Reaches.single (a := .loop) trivial ?_) (ih (k + 1) (by omega))
      simp only [step, loopStep, hev, if_pos (hready k hlt), hthrows]
      rfl

theorem goes_on (hret : ∀ ev ∈ s.tasks, hs.throws ev = false) (hpc : ∃ k, s.pc = .get k)
    (hready : ∀ k < s.tasks.length, s.pool.Ready k) :
    Lts.Reaches (step hs info) Own s (({ s with pc := .write } : Reactor n τ).flush info true) := by
  obtain ⟨k, hpc⟩ := hpc
  have hstart : s = { s with pc := .get k } := by rw [← hpc]
  have hget : Lts.Reaches (step hs info) Own { s with pc := .get k } { s with pc := .write } :=
    get_reaches hret hready s.tasks.length k (by omega)
  rw [← hstart] at hget
  exact hget.trans (Lts.Reaches.single (a := .write true) rfl rfl)

/-- A task of the batch throws, and the loop has not got it or has been left. -/
structure Doomed (hs : Handlers τ) (s : Reactor n τ) (k : Nat) : Prop where
  throws : ∃ ev, s.tasks[k]? = some ev ∧ hs.throws ev = true
  ahead : s.waitedFor ≤ k
  pc : s.pc ≠ .epollWait

theorem step_doomed {a : Act n τ} {k : Nat} (hd : s.Doomed hs k)
    (h : step hs info s a = some s') : s'.Doomed hs k := by
  obtain ⟨ev, hev, hthrows⟩ := hd.throws
  obtain ⟨hlt, -⟩ := List.getElem?_eq_some_iff.mp hev
  have hahead := hd.ahead
  cases step_move h with
  | epollWait hpc _ => exact absurd hpc hd.pc
  | emplaceBack hpc _ =>
    simp only [waitedFor, hpc] at hahead
    exact ⟨⟨ev, by rw [List.getElem?_append_left hlt, hev], hthrows⟩, hahead, nofun⟩
  | emplaced hpc _ =>
    simp only [waitedFor, hpc] at hahead
    exact ⟨hd.throws, hahead, nofun⟩
  | @get j ev' hpc hev' _ hreturns =>
    simp only [waitedFor, hpc] at hahead
    refine ⟨hd.throws, ?_, nofun⟩
    have hne : j ≠ k := by
      rintro rfl
      rw [hev] at hev'
      cases hev'
      rw [hthrows] at hreturns
      cases hreturns
    simp only [waitedFor]
    omega
  | rethrow => exact ⟨hd.throws, Nat.zero_le _, nofun⟩
  | got hpc hnone =>
    simp only [waitedFor, hpc] at hahead
    have hlen := List.getElem?_eq_none_iff.mp hnone
    omega
  | write hpc =>
    simp only [waitedFor, hpc] at hahead
    omega
  | submitter | worker | wake => exact ⟨hd.throws, hahead, hd.pc⟩

/-- The tasks the loop has got have not thrown. -/
def Got (hs : Handlers τ) (s : Reactor n τ) : Prop :=
  ∀ k < s.waitedFor, ∀ ev ∈ s.tasks[k]?, hs.throws ev = false

theorem init_got (hs : Handlers τ) : (init n τ).Got hs := nofun

theorem step_got {a : Act n τ} (hI : s.Inv info) (hg : s.Got hs)
    (h : step hs info s a = some s') : s'.Got hs := by
  unfold Got at hg
  cases step_move h with
  | epollWait hpc _ | emplaced hpc _ | write hpc =>
    simp only [waitedFor, hpc] at hg
    first
      | exact hg
      | cases info <;> exact hg
  | @emplaceBack ev evs p hpc _ =>
    have hwaited := hI.waited
    simp only [waitedFor, hpc] at hg hwaited
    intro k hk ev' hev'
    have hlt := hI.submitted.lt_of_ready (hwaited k hk)
    rw [List.getElem?_append_left hlt] at hev'
    exact hg k hk ev' hev'
  | @get j ev hpc hev _ hreturns =>
    simp only [waitedFor, hpc] at hg
    intro k hk ev' hev'
    rcases Nat.lt_succ_iff_lt_or_eq.mp hk with hk | rfl
    · exact hg k hk ev' hev'
    · rw [hev] at hev'
      cases hev'
      exact hreturns
  | rethrow => exact nofun
  | got hpc hnone =>
    simp only [waitedFor, hpc] at hg
    intro k hk
    exact hg k (Nat.lt_of_lt_of_le hk (List.getElem?_eq_none_iff.mp hnone))
  | submitter | worker | wake => exact hg

theorem run_returning {acts : List (Act n τ)} (hret : ∀ a ∈ acts, Returns hs a)
    (h : Lts.run (step hs info) (init n τ) acts = some s) : s.Returning hs :=
  Lts.run_invariant_of (fun _ _ _ hr ha h => step_returning hr ha h) (init_returning hs) acts hret
    s h

theorem run_got {acts : List (Act n τ)} (h : Lts.run (step hs info) (init n τ) acts = some s) :
    s.Got hs :=
  (Lts.run_invariant (I := fun s => Inv info s ∧ Got hs s)
    (fun _ _ _ h hu => ⟨step_inv h.1 hu, step_got h.1 h.2 hu⟩)
    ⟨init_inv info, init_got hs⟩ acts s h).2

/-- Waiting for a batch, no handler so far has thrown. -/
theorem run_returned {acts : List (Act n τ)}
    (h : Lts.run (step hs info) (init n τ) acts = some s) (hpc : s.pc = .epollWait) :
    ∀ ev ∈ s.tasks, hs.throws ev = false := by
  intro ev hev
  obtain ⟨k, hlt, hk⟩ := List.mem_iff_getElem.mp hev
  have hgot := run_got h
  simp only [Got, waitedFor, hpc] at hgot
  exact hgot k hlt ev (by rw [List.getElem?_eq_getElem hlt, hk]; rfl)

end Throws

/-- For every sequence of batches, every interleaving and whatever handlers throw: as long as none
does, the loop isolates its handlers in every state; and once an event is submitted whose handler
throws, it never waits for another batch. -/
theorem handle_events_isolated (hs : Handlers τ) (info : Bool) (acts : List (Act n τ))
    (s : Reactor n τ) (hrun : Lts.run (step hs info) (init n τ) acts = some s) :
    ((∀ a ∈ acts, Returns hs a) → s.Isolated hs info) ∧
      ∀ (k : Nat) (ev : τ), s.tasks[k]? = some ev → hs.throws ev = true →
        ∀ more t, Lts.run (step hs info) s more = some t → t.pc ≠ .epollWait := by
  have hI : s.Inv info := run_inv hrun
  constructor
  · intro hret
    have hr := run_returning hret hrun
    refine ⟨hr.running, fun hpc k hk => hI.waited k ?_, hI.flushed, goes_on hr.tasks⟩
    rcases hpc with hpc | hpc <;> simpa only [waitedFor, hpc] using hk
  · intro k ev hev hthrows more t ht
    have hg := run_got hrun
    have hahead : s.waitedFor ≤ k := by
      by_contra hlt
      rw [hg k (by omega) ev hev] at hthrows
      cases hthrows
    have hpc : s.pc ≠ .epollWait := by
      intro hpc
      obtain ⟨hlt, -⟩ := List.getElem?_eq_some_iff.mp hev
      simp only [waitedFor, hpc] at hahead
      omega
    exact (Lts.run_invariant (fun _ _ _ hd hu => step_doomed hd hu)
      (⟨⟨ev, hev, hthrows⟩, hahead, hpc⟩ : s.Doomed hs k) more t ht).pc

/-- An event is whether its handler throws. -/
def throwing : Handlers Bool := ⟨fun _ => [], id⟩

/-- A batch of two events: both are submitted, the only worker runs the first, and the loop gets
its future. -/
def pairSchedule (throws : Bool) : List (Act 1 Bool) :=
  [.epollWait [throws, false]] ++ List.replicate 17 .loop ++
    List.replicate 5 (.worker (Fin.last 0)) ++ [.loop]

/-- What the schedule leaves: the place of the loop, and whether the two futures are ready. -/
def pairOutcome (throws : Bool) : Option (ReactorPc Bool × Bool × Bool) :=
  (Lts.run (step throwing true) (init 1 Bool) (pairSchedule throws)).map fun s =>
    (s.pc, decide (s.pool.Ready 0), decide (s.pool.Ready 1))

theorem handle_events_isolated_pair :
    ∃ s, Lts.run (step throwing true) (init 1 Bool) (pairSchedule false) = some s ∧
      s.Isolated throwing true := by
  have hrun : (pairOutcome false).isSome = true := by decide +kernel
  obtain ⟨_, hout⟩ := Option.isSome_iff_exists.mp hrun
  obtain ⟨s, hs, -⟩ := Option.map_eq_some_iff.mp hout
  refine ⟨s, hs, (handle_events_isolated throwing true (pairSchedule false) s hs).1 ?_⟩
  simp [pairSchedule, Returns, throwing]

/-- The first of two handlers throws: its exception leaves the loop, and the second task is not
waited for. -/
theorem handle_events_thrown :
    pairOutcome true = some (.thrown, true, false) ∧
      ∃ s, Lts.run (step throwing true) (init 1 Bool) (pairSchedule true) = some s ∧
        ¬ s.Isolated throwing true := by
  have hout : pairOutcome true = some (.thrown, true, false) := by decide +kernel
  obtain ⟨s, hs, heq⟩ := Option.map_eq_some_iff.mp hout
  refine ⟨hout, s, hs, fun h => h.running ?_⟩
  exact congrArg Prod.fst heq

end Reactor
end SimpleWeb
