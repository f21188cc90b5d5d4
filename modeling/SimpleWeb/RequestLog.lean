import SimpleWeb.AccessLog
import SimpleWeb.Connection
import SimpleWeb.Reactor

/-!
# SimpleWeb.RequestLog

The log over whole runs of the reactor: what the handlers give to the logger, and what is written.

Between a handler and the file no message is lost and none is doubled, but where the file cannot be
opened (`log_conserved`). The handlers lose records themselves: a request for an unknown host is
dropped with its stream, and one for a service that cannot be loaded leaves its address without a
record or a newline. So every request has its line exactly when none of this happens
(`requests_accounted_iff`).
-/

namespace SimpleWeb

open Http ThreadPool Istream

namespace Reactor

variable {n : Nat} {τ : Type}

/-- The messages in the log, and those on their way to it -/
def logged (s : Reactor n τ) : Multiset Bytes := (s.output ++ s.mess_list : List Bytes)

/-- What the handlers that have been run have given to the logger -/
def handed (hs : Handlers τ) (s : Reactor n τ) : Multiset Bytes :=
  (∑ i, (s.pool.ran i : Multiset Nat)).bind fun k => (messages hs s.tasks k : Multiset Bytes)

/-- What a step loses: the queue, when the file cannot be opened. -/
def lostBy (info : Bool) (s : Reactor n τ) (a : Act n τ) : List Bytes :=
  if info then
    match a with
    | .write false => s.mess_list
    | _ => []
  else []

section Conserved

variable {hs : Handlers τ} {info : Bool} {s s' : Reactor n τ}

theorem handed_congr {p : Pool n Nat} (hran : p.ran = s.pool.ran) :
    handed hs { s with pool := p } = s.handed hs := by
  simp only [handed, hran]

/-- The messages of the tasks so far do not change when a task is added. -/
theorem handed_concat (hI : s.Inv info) (ev : τ) :
    handed hs { s with tasks := s.tasks ++ [ev] } = s.handed hs := by
  refine Multiset.bind_congr ?_
  intro k hk
  have hlt := hI.submitted.lt_of_ready (ready_iff.mpr hk)
  simp only [messages, List.getElem?_append_left hlt]

theorem flush_logged (info good : Bool) (s : Reactor n τ) :
    (s.flush info good).logged + lostBy info s (.write good) = s.logged := by
  cases info with
  | false => simp [flush, logged, lostBy]
  | true => cases good <;> simp [flush, logged, lostBy]

theorem flush_handed (hs : Handlers τ) (info good : Bool) (s : Reactor n τ) :
    (s.flush info good).handed hs = s.handed hs := by
  cases info <;> rfl

/-- Every step gives to the log what its handler logs, but for what it loses. -/
theorem step_logged {a : Act n τ} (hI : s.Inv info) (h : step hs info s a = some s') :
    ∃ new : Multiset Bytes, s'.logged + lostBy info s a = s.logged + new ∧
      s'.handed hs = s.handed hs + new := by
  cases step_move h with
  | epollWait | emplaced | get | rethrow | got =>
    exact ⟨0, by simp [logged, lostBy], by simp [handed]⟩
  | submitter hpc hp | wake hp =>
    refine ⟨0, by simp [logged, lostBy], ?_⟩
    rw [handed_congr (ran_frame (by simp) hp), add_zero]
  | @emplaceBack ev evs p hpc hp =>
    refine ⟨0, by simp [logged, lostBy], ?_⟩
    have hhanded : handed hs { s with tasks := s.tasks ++ [ev] } = s.handed hs :=
      handed_concat hI ev
    rw [add_zero, ← hhanded]
    simp only [handed, ran_frame (by simp) hp]
  | @write good hpc =>
    exact ⟨0, by rw [flush_logged, add_zero], by rw [flush_handed, add_zero]⟩
  | @worker i p hp =>
    refine ⟨((s.pool.runs i).flatMap (messages hs s.tasks) : List Bytes), ?_, ?_⟩
    · simp [logged, lostBy]
    · simp only [handed, workerStep_sum hp, Multiset.add_bind, Multiset.coe_bind]

/-- Each `write` finds its file good, or nothing in the queue. -/
def LogWritten (info : Bool) (s : Reactor n τ) (a : Act n τ) : Prop := lostBy info s a = []

/-- What the handlers gave to the logger is what was logged and what was lost, and nothing was lost
exactly when the log could be written whenever there was something to write. -/
theorem log_conserved (acts : List (Act n τ)) :
    ∀ s, Lts.run (step hs info) (init n τ) acts = some s →
      ∃ lost : Multiset Bytes, s.logged + lost = s.handed hs ∧
        (lost = 0 ↔ Lts.Along (step hs info) (LogWritten info) (init n τ) acts) := by
  induction acts using List.reverseRecOn with
  | nil =>
    intro s hrun
    cases hrun
    exact ⟨0, by simp [logged, handed, init, ThreadPool.init], iff_of_true rfl Lts.Along.nil⟩
  | append_singleton acts a ih =>
    intro s hrun
    obtain ⟨t, ht, hstep⟩ := Lts.run_concat_eq_some.mp hrun
    obtain ⟨lost, hsum, hzero⟩ := ih t ht
    obtain ⟨new, hlog, hhanded⟩ := step_logged (run_inv ht) hstep
    refine ⟨lost + lostBy info t a, ?_, ?_⟩
    · calc s.logged + (lost + lostBy info t a)
          = (s.logged + lostBy info t a) + lost := by abel
        _ = (t.logged + lost) + new := by rw [hlog]; abel
        _ = s.handed hs := by rw [hsum, hhanded]
    · rw [Lts.Along.concat_iff ht hstep, ← hzero, add_eq_zero, Multiset.coe_eq_zero, LogWritten]

theorem messages_range (hs : Handlers τ) (tasks : List τ) :
    (List.range tasks.length).flatMap (messages hs tasks) = tasks.flatMap hs.logs := by
  induction tasks using List.reverseRecOn with
  | nil => rfl
  | append_singleton tasks ev ih =>
    have hkept : (List.range tasks.length).flatMap (messages hs (tasks ++ [ev])) =
        (List.range tasks.length).flatMap (messages hs tasks) := by
      refine List.flatMap_congr ?_
      intro k hk
      simp only [messages, List.getElem?_append_left (List.mem_range.mp hk)]
    have hlast : messages hs (tasks ++ [ev]) tasks.length = hs.logs ev := by simp [messages]
    rw [List.length_append, List.length_singleton, List.range_succ, List.flatMap_append, hkept, ih,
      List.flatMap_append, List.flatMap_singleton, List.flatMap_singleton, hlast]

/-- Waiting for a batch, the handlers of all events so far have been run. -/
theorem handed_tasks (hI : s.Inv info) (hpc : s.pc = .epollWait) :
    s.handed hs = (s.tasks.flatMap hs.logs : List Bytes) := by
  have hwaited := hI.waited
  simp only [waitedFor, hpc] at hwaited
  rw [handed, hI.submitted.ran_eq hwaited, Multiset.coe_bind, messages_range]

end Conserved

end Reactor

/-! ## The handlers -/

/-- A readiness event as the `RW` handler finds it: the reads left by the events before it, the
address of the client, the time, and whether an exception ends the handler. -/
structure Arrival (conf : Conf) (F : Type) where
  readiness : Readiness F
  unread : List Bytes
  unread_size : ∀ c ∈ unread, 1 ≤ c.length ∧ c.length ≤ bufSize
  defined : (handleRW conf readiness (unread ++ readiness.arrived)).isSome = true
  ip : Bytes
  ip_line : LF ∉ ip
  logtime : Bytes
  logtime_line : LF ∉ logtime
  throws : Bool

section Handler

variable {conf : Conf} {F : Type}

/-- The request, when the handler finds its head complete -/
def Arrival.asked (a : Arrival conf F) : Option Parser :=
  let (c, conn) :=
    (Istream.init a.readiness.buffer (a.unread ++ a.readiness.arrived)).peek
  if c = EOF then none
  else match readHeaderFrom a.readiness.stack conn .init with
    | none => none
    | some (_, par, _) => if par.headerDone then some par else none

def Arrival.host (a : Arrival conf F) (par : Parser) : Option (Host F) :=
  a.readiness.host conf (route conf (hostName par.message.fields))

/-- What the handler gives to `Logger::log`: its stream `oss`, unless the host is not found. -/
def Arrival.log (a : Arrival conf F) (info : Bool) : List Bytes :=
  match a.asked with
  | none => []
  | some par =>
    match a.host par with
    | none => []
    | some h =>
      if info then
        [a.ip ++ byte ' ' :: serveLog a.readiness.sys h info a.logtime par]
      else []

/-- One line, of the address and the record of the request. -/
structure Arrival.IsLine (a : Arrival conf F) (par : Parser) (line : Bytes) : Prop where
  record : ∃ result, line = a.ip ++ byte ' ' :: logRecord a.logtime par result
  single : line.count LF = 1

/-- Nothing keeps the handler from its record. -/
structure Arrival.Recorded (a : Arrival conf F) : Prop where
  returns : a.throws = false
  served : ∀ par ∈ a.asked, ∃ h ∈ a.host par, ¬ Unloadable a.readiness h par

theorem Arrival.asked_checked {a : Arrival conf F} {par : Parser} (h : a.asked = some par) :
    par.Checked := by
  have hchunks : ∀ c ∈ a.unread ++ a.readiness.arrived, 1 ≤ c.length ∧ c.length ≤ bufSize := by
    intro c hc
    rcases List.mem_append.mp hc with hc | hc
    · exact a.unread_size c hc
    · exact a.readiness.arrived_size c hc
  unfold Arrival.asked at h
  rcases peek_yields hchunks a.readiness.buffer_size with ⟨heof, -⟩ | ⟨hpeek, -, hy⟩
  · simp only [heof, if_true] at h
    cases h
  · simp only [hpeek, if_false] at h
    cases hfrom : readHeaderFrom a.readiness.stack
      (Istream.init a.readiness.buffer (a.unread ++ a.readiness.arrived)).peek.2 .init with
    | none =>
      rw [hfrom] at h
      cases h
    | some r =>
      obtain ⟨ec, par', conn⟩ := r
      rw [hfrom] at h
      obtain ⟨rest, hread, -⟩ :=
        sameRead_some (readHeaderFrom_sim (dropWhile_stops hchunks) hy _ _) hfrom
      simp only at h
      split at h
      · rename_i hdone
        cases h
        exact (readHeader_checked hread hdone).2
      · cases h

theorem serveLog_unloadable {e : Readiness F} {h : Host F} {par : Parser}
    (hu : Unloadable e h par) (logtime : Bytes) : serveLog e.sys h true logtime par = [] := by
  obtain ⟨hacc, hdyn, hload⟩ := hu
  simp only [serveLog, if_pos hacc, if_pos hdyn, if_pos hload]

theorem serveLog_record {e : Readiness F} {h : Host F} {par : Parser}
    (hu : ¬ Unloadable e h par) (logtime : Bytes) :
    ∃ result, serveLog e.sys h true logtime par = logRecord logtime par result := by
  simp only [serveLog, if_true]
  split
  · rename_i hacc
    split
    · rename_i hdyn
      split
      · rename_i hload
        exact absurd ⟨hacc, hdyn, hload⟩ hu
      · exact ⟨_, rfl⟩
    · exact ⟨_, rfl⟩
  · exact ⟨_, rfl⟩

end Handler

section Lines

variable {conf : Conf} {F : Type} {a : Arrival conf F} {par : Parser} {h : Host F}

theorem Arrival.log_known (hasked : a.asked = some par) (hhost : a.host par = some h) :
    a.log true = [a.ip ++ byte ' ' :: serveLog a.readiness.sys h true a.logtime par] := by
  simp only [Arrival.log, hasked, hhost, if_true]

theorem Arrival.recorded_iff (hret : a.throws = false) (hasked : a.asked = some par)
    (hhost : a.host par = some h) : a.Recorded ↔ ¬ Unloadable a.readiness h par := by
  constructor
  · rintro ⟨-, hserved⟩ hu
    obtain ⟨h', hmem, hu'⟩ := hserved par hasked
    rw [hhost] at hmem
    cases hmem
    exact hu' hu
  · intro hu
    refine ⟨hret, ?_⟩
    intro p hp
    rw [hasked] at hp
    cases hp
    exact ⟨h, hhost, hu⟩

theorem Arrival.ip_count (a : Arrival conf F) : (a.ip ++ [byte ' ']).count LF = 0 := by
  rw [List.count_append, List.count_eq_zero_of_not_mem a.ip_line]
  rfl

theorem Arrival.isLine_record (hasked : a.asked = some par) (result : Status) :
    a.IsLine par (a.ip ++ byte ' ' :: logRecord a.logtime par result) := by
  refine ⟨⟨result, rfl⟩, ?_⟩
  obtain hnil | ⟨line, heq, hcount⟩ :=
    logRecord_oneLine (Arrival.asked_checked hasked) a.logtime result
  · simp [logRecord] at hnil
  · have htime := List.count_eq_zero_of_not_mem a.logtime_line
    rw [heq, List.append_cons, List.count_append, a.ip_count, List.count_append, hcount, htime]
    rfl

/-- What a handler logs: its line, or the address alone for a service that cannot be loaded. -/
theorem Arrival.log_message {info : Bool} {message : Bytes} (h : message ∈ a.log info) :
    ∃ par host, a.asked = some par ∧ a.host par = some host ∧ info = true ∧
      (a.IsLine par message ∨
        (Unloadable a.readiness host par ∧ message = a.ip ++ [byte ' '])) := by
  unfold Arrival.log at h
  split at h
  · cases h
  · rename_i par hpar
    split at h
    · cases h
    · rename_i host hhost
      split at h
      · rename_i hinfo
        refine ⟨par, host, hpar, hhost, hinfo, ?_⟩
        rw [List.mem_singleton.mp h, hinfo]
        by_cases hu : Unloadable a.readiness host par
        · exact .inr ⟨hu, by rw [serveLog_unloadable hu]⟩
        · obtain ⟨result, hrecord⟩ := serveLog_record hu a.logtime
          rw [hrecord]
          exact .inl (Arrival.isLine_record hpar result)
      · cases h

/-- A handler that returns logs nothing for no request, and for a request its line exactly when
nothing keeps it from that; else it logs no newline. -/
theorem Arrival.log_cases (a : Arrival conf F) (hret : a.throws = false) :
    (a.asked = none ∧ a.log true = [] ∧ a.Recorded) ∨
      ∃ par, a.asked = some par ∧
        ((a.Recorded ∧ ∃ line, a.log true = [line] ∧ a.IsLine par line) ∨
          (¬ a.Recorded ∧ (a.log true).flatten.count LF = 0)) := by
  cases hasked : a.asked with
  | none => exact .inl ⟨rfl, by simp only [Arrival.log, hasked], hret, by simp [hasked]⟩
  | some par =>
    refine .inr ⟨par, rfl, ?_⟩
    cases hhost : a.host par with
    | none =>
      refine .inr ⟨?_, by simp [Arrival.log, hasked, hhost]⟩
      intro hr
      obtain ⟨h, hmem, -⟩ := hr.served par hasked
      rw [hhost] at hmem
      cases hmem
    | some h =>
      rw [Arrival.recorded_iff hret hasked hhost, Arrival.log_known hasked hhost]
      by_cases hu : Unloadable a.readiness h par
      · refine .inr ⟨not_not.mpr hu, ?_⟩
        rw [serveLog_unloadable hu, List.flatten_singleton, a.ip_count]
      · obtain ⟨result, hrecord⟩ := serveLog_record hu a.logtime
        rw [hrecord]
        exact .inl ⟨hu, _, rfl, Arrival.isLine_record hasked result⟩

end Lines

/-- An event of a batch. A new connection or an unknown event gives nothing to the logger. -/
inductive Event (conf : Conf) (F : Type) where
  | rw (a : Arrival conf F)
  | other (throws : Bool)

namespace Event

variable {conf : Conf} {F : Type}

def throws : Event conf F → Bool
  | .rw a => a.throws
  | .other throws => throws

def log (info : Bool) : Event conf F → List Bytes
  | .rw a => if a.throws then [] else a.log info
  | .other _ => []

/-- The request of the event, when its head is complete -/
def request : Event conf F → Option (Arrival conf F × Parser)
  | .rw a => a.asked.map fun par => (a, par)
  | .other _ => none

def Recorded : Event conf F → Prop
  | .rw a => a.Recorded
  | .other throws => throws = false

def IsLine (line : Bytes) (r : Arrival conf F × Parser) : Prop := r.1.IsLine r.2 line

theorem Recorded.returns {ev : Event conf F} (h : ev.Recorded) : ev.throws = false := by
  cases ev with
  | rw a => exact Arrival.Recorded.returns h
  | other throws => exact h

theorem log_cases (ev : Event conf F) (hret : ev.throws = false) :
    (ev.Recorded ∧ List.Forall₂ IsLine (ev.log true) ev.request.toList) ∨
      (¬ ev.Recorded ∧ (ev.log true).flatten.count LF < ev.request.toList.length) := by
  cases ev with
  | other throws => exact .inl ⟨hret, .nil⟩
  | rw a =>
    have hlog : (Event.rw a).log true = a.log true := by
      have hthrows : a.throws = false := hret
      simp [Event.log, hthrows]
    rw [hlog]
    rcases a.log_cases hret with ⟨hasked, hnil, hr⟩ | ⟨par, hasked, hcase⟩
    · refine .inl ⟨hr, ?_⟩
      rw [hnil]
      simp [request, hasked]
    · rcases hcase with ⟨hr, line, hline, his⟩ | ⟨hr, hcount⟩
      · have hreq : (Event.rw a).request = some (a, par) := by simp [request, hasked]
        refine .inl ⟨hr, ?_⟩
        rw [hline, hreq]
        exact .cons his .nil
      · refine .inr ⟨hr, ?_⟩
        rw [hcount]
        simp [request, hasked]

theorem lines_single {lines : List Bytes} {rs : List (Arrival conf F × Parser)}
    (h : List.Forall₂ IsLine lines rs) : ∀ line ∈ lines, line.count LF = 1 := by
  induction h with
  | nil => simp
  | cons hline _ ih => exact List.forall_mem_cons.mpr ⟨hline.single, ih⟩

theorem lines_count {lines : List Bytes} {rs : List (Arrival conf F × Parser)}
    (h : List.Forall₂ IsLine lines rs) : lines.flatten.count LF = rs.length := by
  induction h with
  | nil => rfl
  | cons hline _ ih =>
    rw [List.flatten_cons, List.count_append, hline.single, ih, List.length_cons, Nat.add_comm]

/-- The events that are recorded give one line for each request. -/
theorem log_lines {evs : List (Event conf F)} (h : ∀ ev ∈ evs, ev.Recorded) :
    List.Forall₂ IsLine (evs.flatMap (·.log true)) (evs.filterMap (·.request)) := by
  induction evs with
  | nil => exact .nil
  | cons ev evs ih =>
    have hev := h ev List.mem_cons_self
    have hrest := ih fun e he => h e (List.mem_cons_of_mem _ he)
    rcases ev.log_cases hev.returns with ⟨-, hlines⟩ | ⟨hno, -⟩
    · have hfilter : (ev :: evs).filterMap (·.request) =
          ev.request.toList ++ evs.filterMap (·.request) := by
        cases hreq : ev.request <;> simp [hreq]
      rw [List.flatMap_cons, hfilter]
      exact List.rel_append hlines hrest
    · exact absurd hev hno

/-- There are never more lines than requests, and as many only when every event is recorded. -/
theorem log_count {evs : List (Event conf F)} (hret : ∀ ev ∈ evs, ev.throws = false) :
    (evs.flatMap (·.log true)).flatten.count LF ≤ (evs.filterMap (·.request)).length ∧
      ((evs.flatMap (·.log true)).flatten.count LF = (evs.filterMap (·.request)).length →
        ∀ ev ∈ evs, ev.Recorded) := by
  induction evs with
  | nil => simp
  | cons ev evs ih =>
    obtain ⟨hle, heq⟩ := ih fun e he => hret e (List.mem_cons_of_mem _ he)
    have hfilter : ((ev :: evs).filterMap (·.request)).length =
        ev.request.toList.length + (evs.filterMap (·.request)).length := by
      cases hreq : ev.request <;> simp [hreq, Nat.add_comm]
    rw [hfilter, List.flatMap_cons, List.flatten_append, List.count_append]
    rcases ev.log_cases (hret ev List.mem_cons_self) with ⟨hr, hlines⟩ | ⟨-, hlt⟩
    · rw [lines_count hlines]
      refine ⟨by omega, ?_⟩
      intro hsum e he
      rcases List.mem_cons.mp he with rfl | he
      · exact hr
      · exact heq (by omega) e he
    · exact ⟨by omega, fun hsum => absurd hsum (by omega)⟩

end Event

namespace Reactor

variable {n : Nat} {τ : Type}

/-- The handlers of the server -/
def handlers (conf : Conf) (F : Type) (info : Bool) : Handlers (Event conf F) where
  logs := Event.log info
  throws := Event.throws

/-- Every batch of the run is recorded. -/
def RecordedBatch {conf : Conf} {F : Type} : Act n (Event conf F) → Prop
  | .epollWait evs => ∀ ev ∈ evs, ev.Recorded
  | _ => True

section Accounted

variable {conf : Conf} {F : Type} {s : Reactor n (Event conf F)}

/-- The log is one line for each request whose head was complete, in some order. -/
def Accounted (s : Reactor n (Event conf F)) : Prop :=
  ∃ requests lines, requests.Perm (s.tasks.filterMap (·.request)) ∧
    List.Forall₂ Event.IsLine lines requests ∧ s.output.flatten = lines.flatten

/-- Waiting for a batch, the log has the messages of the events so far, but for what is lost where
it cannot be written. -/
theorem log_batches (hs : Handlers τ) {s : Reactor n τ} {acts : List (Act n τ)}
    (hrun : Lts.run (step hs true) (init n τ) acts = some s) (hpc : s.pc = .epollWait) :
    ∃ lost, (s.output ++ lost).Perm (s.tasks.flatMap hs.logs) ∧
      (lost = [] ↔ Lts.Along (step hs true) (LogWritten true) (init n τ) acts) := by
  obtain ⟨lost, hsum, hzero⟩ := log_conserved acts s hrun
  obtain ⟨lost, rfl⟩ := Quot.exists_rep lost
  have hI : s.Inv true := run_inv hrun
  refine ⟨lost, ?_, ?_⟩
  · rw [handed_tasks hI hpc, logged, hI.flushed hpc rfl, List.append_nil] at hsum
    exact Multiset.coe_eq_coe.mp hsum
  · rw [← hzero]
    exact (Multiset.coe_eq_zero lost).symm

theorem accounted_iff {acts : List (Act n (Event conf F))}
    (hrun : Lts.run (step (handlers conf F true) true) (init n _) acts = some s)
    (hpc : s.pc = .epollWait) :
    s.Accounted ↔ (∀ ev ∈ s.tasks, ev.Recorded) ∧
      Lts.Along (step (handlers conf F true) true) (LogWritten true) (init n _) acts := by
  obtain ⟨lost, hperm, hlost⟩ := log_batches _ hrun hpc
  rw [← hlost]
  constructor
  · rintro ⟨requests, lines, hreqs, hlines, hout⟩
    obtain ⟨hle, hall⟩ := Event.log_count (run_returned hrun hpc)
    have hcount : (s.tasks.flatMap (·.log true)).flatten.count LF =
        (s.tasks.filterMap (·.request)).length + lost.flatten.count LF := by
      have hflat := hperm.flatten.count_eq LF
      rw [List.flatten_append, List.count_append, hout, Event.lines_count hlines,
        hreqs.length_eq] at hflat
      exact hflat.symm
    have hrecorded := hall (by omega)
    refine ⟨hrecorded, List.eq_nil_iff_forall_not_mem.mpr ?_⟩
    intro m hm
    -- what is lost is a line, and the log has as many of them as there are requests
    have hmem : m ∈ s.tasks.flatMap (·.log true) := hperm.subset (List.mem_append_right _ hm)
    have hsingle := Event.lines_single (Event.log_lines hrecorded) m hmem
    have hsub := (List.sublist_flatten_of_mem hm).count_le LF
    omega
  · rintro ⟨hrecorded, rfl⟩
    rw [List.append_nil] at hperm
    obtain ⟨requests, hlines, hreqs⟩ :=
      List.perm_comp_forall₂ hperm (Event.log_lines hrecorded)
    exact ⟨requests, s.output, hreqs, hlines, rfl⟩

end Accounted

/-- For every sequence of batches and every interleaving of the handlers: where the loop waits for
a batch, the log has one line for each request so far exactly when nothing kept a handler from its
record and each `write` that had something to write could; and the loop is not left as long as
nothing keeps a handler from its record. -/
theorem requests_accounted_iff (conf : Conf) (F : Type) (acts : List (Act n (Event conf F)))
    (s : Reactor n (Event conf F))
    (hrun : Lts.run (step (handlers conf F true) true) (init n _) acts = some s) :
    (s.pc = .epollWait →
        (s.Accounted ↔ (∀ ev ∈ s.tasks, ev.Recorded) ∧
          Lts.Along (step (handlers conf F true) true) (LogWritten true) (init n _) acts)) ∧
      ((∀ a ∈ acts, RecordedBatch a) → s.pc ≠ .thrown) := by
  refine ⟨accounted_iff hrun, fun hbatches => (run_returning ?_ hrun).running⟩
  intro a ha
  have hbatch := hbatches a ha
  cases a with
  | epollWait evs => exact fun ev hev => (hbatch ev hev).returns
  | loop | write | worker | wake => trivial

end Reactor

/-! ## A known host and an unknown one -/

/-- `GET / HTTP/1.0` with this host -/
def askFor (host : Bytes) : Bytes := ascii "GET / HTTP/1.0\r\nHost: " ++ host ++ ascii "\n\n"

theorem askFor_size : (∀ c ∈ [askFor (ascii "a")], 1 ≤ c.length ∧ c.length ≤ bufSize) ∧
    ∀ c ∈ [askFor (ascii "b")], 1 ≤ c.length ∧ c.length ≤ bufSize := by
  decide +kernel

theorem asking_ip : LF ∉ ascii "127.0.0.1" := by decide +kernel

theorem asking_logtime : LF ∉ ascii "[01/Jan/2024:00:00:00]" := by decide +kernel

/-- The request on a server without files, whose only host is `a` -/
def asking (host : Bytes) (hsize : ∀ c ∈ [askFor host], 1 ≤ c.length ∧ c.length ≤ bufSize)
    (h : (handleRW aConf (arrival [askFor host] hsize) [askFor host]).isSome = true) :
    Arrival aConf Unit :=
  ⟨arrival [askFor host] hsize, [], noRead_size, h, ascii "127.0.0.1", asking_ip,
    ascii "[01/Jan/2024:00:00:00]", asking_logtime, false⟩

theorem asking_defined :
    (handleRW aConf (arrival [askFor (ascii "a")] askFor_size.1)
        [askFor (ascii "a")]).isSome = true ∧
      (handleRW aConf (arrival [askFor (ascii "b")] askFor_size.2)
        [askFor (ascii "b")]).isSome = true := by
  decide +kernel

def knownHost : Arrival aConf Unit := asking (ascii "a") askFor_size.1 asking_defined.1
def unknownHost : Arrival aConf Unit := asking (ascii "b") askFor_size.2 asking_defined.2

/-- The names they ask for -/
theorem asking_name :
    knownHost.asked.map (fun par => hostName par.message.fields) = some (ascii "a") ∧
      unknownHost.asked.map (fun par => hostName par.message.fields) = some (ascii "b") ∧
      ascii "a" = aConf.defaulthost.servername ∧ ascii "b" ≠ aConf.defaulthost.servername := by
  decide +kernel

theorem knownHost_recorded : knownHost.Recorded where
  returns := rfl
  served := by
    intro par hpar
    obtain ⟨hname, -, hdefault, -⟩ := asking_name
    rw [hpar] at hname
    have heq : hostName par.message.fields = ascii "a" := Option.some.inj hname
    have hhost : knownHost.host par = some { dotHost with info := aConf.defaulthost } := by
      rw [Arrival.host, heq, route, if_pos hdefault]
      rfl
    refine ⟨_, hhost, ?_⟩
    intro hu
    have haccess : ENOENT = 0 := hu.1
    cases haccess

theorem unknownHost_unrecorded : ¬ unknownHost.Recorded := by
  rintro ⟨-, hserved⟩
  obtain ⟨-, hname, -, hother⟩ := asking_name
  obtain ⟨par, hpar, heq⟩ := Option.map_eq_some_iff.mp hname
  obtain ⟨h, hmem, -⟩ := hserved par hpar
  have hroute : route aConf (ascii "b") = .notFound := by
    rw [route, if_neg hother, Conf.hostMap_get]
    rfl
  rw [Arrival.host, heq, hroute] at hmem
  cases hmem

namespace Reactor

variable {τ : Type}

/-- A batch of one event, run by the only worker and logged -/
def round (ev : τ) : List (Act 1 τ) :=
  .epollWait [ev] :: (List.replicate 9 .loop ++ List.replicate 5 (.worker (Fin.last 0)) ++
    [.loop, .loop, .write true])

theorem round_written {info : Bool} {hs : Handlers τ} (ev : τ) :
    Lts.Along (step hs info) (LogWritten info) (init 1 τ) (round ev) := by
  intro pre a t u hpre _ _
  have hmem : a ∈ round ev := hpre.subset (by simp)
  simp only [round, List.mem_cons, List.mem_append, List.mem_replicate, List.not_mem_nil] at hmem
  cases a with
  | write good =>
    cases good with
    | true => cases info <;> rfl
    | false => simp at hmem
  | epollWait | loop | worker | wake => cases info <;> rfl

theorem requests_accounted_knownHost :
    ∃ s, Lts.run (step (handlers aConf Unit true) true) (init 1 _) (round (.rw knownHost)) =
        some s ∧ s.tasks = [.rw knownHost] ∧ s.Accounted ∧ s.pc ≠ .thrown := by
  obtain ⟨s, hrun, hpc, htasks⟩ : ∃ s, Lts.run (step (handlers aConf Unit true) true) (init 1 _)
      (round (.rw knownHost)) = some s ∧ s.pc = .epollWait ∧ s.tasks = [.rw knownHost] :=
    ⟨_, rfl, rfl, rfl⟩
  obtain ⟨hiff, hreturns⟩ :=
    requests_accounted_iff aConf Unit (round (.rw knownHost)) s hrun
  refine ⟨s, hrun, htasks, (hiff hpc).mpr ⟨?_, round_written _⟩, hreturns ?_⟩
  · rw [htasks]
    simpa [Event.Recorded] using knownHost_recorded
  · intro a ha
    simp only [round, List.mem_cons, List.mem_append, List.mem_replicate, List.not_mem_nil] at ha
    cases a with
    | epollWait evs =>
      simp only [Act.epollWait.injEq, reduceCtorEq, and_false, or_false] at ha
      rw [ha]
      simpa [RecordedBatch, Event.Recorded] using knownHost_recorded
    | loop | write | worker | wake => trivial

/-- The request for the host `b` is answered by nothing, and there is no line about it. -/
theorem requests_unaccounted :
    ∃ s, Lts.run (step (handlers aConf Unit true) true) (init 1 _) (round (.rw unknownHost)) =
        some s ∧ s.pc = .epollWait ∧ s.tasks = [.rw unknownHost] ∧ ¬ s.Accounted := by
  obtain ⟨s, hrun, hpc, htasks⟩ : ∃ s, Lts.run (step (handlers aConf Unit true) true) (init 1 _)
      (round (.rw unknownHost)) = some s ∧ s.pc = .epollWait ∧ s.tasks = [.rw unknownHost] :=
    ⟨_, rfl, rfl, rfl⟩
  refine ⟨s, hrun, hpc, htasks, ?_⟩
  intro hacc
  obtain ⟨hall, -⟩ := (accounted_iff hrun hpc).mp hacc
  exact unknownHost_unrecorded (hall (.rw unknownHost) (by rw [htasks]; exact List.mem_cons_self))

end Reactor

end SimpleWeb
