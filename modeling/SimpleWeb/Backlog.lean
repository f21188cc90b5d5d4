import SimpleWeb.Server

/-!
# SimpleWeb.Backlog

The clients of a server and its listening socket. The listener is registered with `EPOLLET`:
`epoll_wait` names it once for the clients that have come since, and it is for the `CONNECT`
handler to accept until there is nobody left. It does so unless `accept` fails otherwise, or the
map throws; those who wait then are not looked at before another client comes (`clients_seen`).
-/

namespace SimpleWeb

open ThreadPool

/-- The client a call of `accept` takes from the queue -/
def Accept.client : Accept → Option InAddr
  | .connected _ addr _ | .badAlloc _ addr => some addr
  | .tooManyRefs | .wouldBlock | .failed => none

/-- The queue behind these results, when it can give them: the clients come in their order, and
`EWOULDBLOCK` only when there is none. -/
def Accept.takes : List Accept → List InAddr → Option (List InAddr)
  | [], clients => some clients
  | r :: results, clients =>
    match r.client, clients with
    | none, _ => if r = .wouldBlock ∧ clients ≠ [] then none else takes results clients
    | some addr, client :: clients => if addr = client then takes results clients else none
    | some _, [] => none

section Takes

variable {results : List Accept} {clients rest : List InAddr} {w w' : World}

theorem Accept.takes_append (h : takes results clients = some rest) :
    results.filterMap Accept.client ++ rest = clients := by
  induction results generalizing clients with
  | nil =>
    cases h
    rfl
  | cons r results ih =>
    unfold takes at h
    split at h
    · rename_i hnone
      split at h
      · cases h
      · rw [List.filterMap_cons_none hnone]
        exact ih h
    · rename_i addr client clients hsome
      split at h
      · rename_i heq
        rw [List.filterMap_cons_some hsome, List.cons_append, ih h, heq]
      · cases h
    · cases h

/-- After `EWOULDBLOCK` nobody waits. -/
theorem Accept.takes_drained (h : takes results clients = some rest)
    (hlast : results.getLast? = some .wouldBlock) : rest = [] := by
  obtain ⟨results, rfl⟩ := List.getLast?_eq_some_iff.mp hlast
  clear hlast
  induction results generalizing clients with
  | nil =>
    simp only [List.nil_append, takes, client] at h
    split at h
    · cases h
    · rename_i hempty
      cases h
      simpa using hempty
  | cons r results ih =>
    rw [List.cons_append] at h
    unfold takes at h
    split at h
    · split at h
      · cases h
      · exact ih h
    · split at h
      · exact ih h
      · cases h
    · cases h

/-- The loop opens a connection for each client it takes. -/
theorem acceptLoop_opened (h : w.acceptLoop results = some w') :
    w'.conns.opened = w.conns.opened ++ results.filterMap Accept.client := by
  induction results generalizing w with
  | nil => cases h
  | cons r results ih =>
    cases r with
    | connected fd addr added =>
      simp only [World.acceptLoop] at h
      split at h
      · have hclient : Accept.client (.connected fd addr added) = some addr := rfl
        rw [ih h, List.filterMap_cons_some hclient]
        simp [World.accept, Slots.Table.add]
      · cases h
    | tooManyRefs => exact ih h
    | badAlloc fd addr =>
      cases results with
      | nil =>
        simp only [World.acceptLoop] at h
        split at h
        · cases h
          rfl
        · cases h
      | cons => cases h
    | wouldBlock | failed =>
      cases results with
      | nil =>
        cases h
        simp [Accept.client]
      | cons => cases h

end Takes

/-! ## What a step of the server does to its events -/

namespace Server

variable {n : Nat} {conf : Conf} {F : Type}

def pending (s : Server n conf F) : List (EpollEvent conf F) :=
  Reactor.ReactorPc.pending s.reactor.pc

/-- A batch comes in, an event of it is submitted, or its handler is run; or nothing of this. -/
inductive Effect (s s' : Server n conf F) : Reactor.Act n (EpollEvent conf F) → Prop where
  | report {evs : List (EpollEvent conf F)} (before : s.pending = []) (after : s'.pending = evs)
      (tasks : s'.reactor.tasks = s.reactor.tasks)
      (ready : ∀ k, s'.reactor.pool.Ready k ↔ s.reactor.pool.Ready k) (world : s'.world = s.world) :
      Effect s s' (.epollWait evs)
  | submit {a : Reactor.Act n (EpollEvent conf F)} {ev : EpollEvent conf F}
      (act : a = .loop) (pending : s.pending = ev :: s'.pending)
      (tasks : s'.reactor.tasks = s.reactor.tasks ++ [ev])
      (ready : ∀ k, s'.reactor.pool.Ready k ↔ s.reactor.pool.Ready k) (world : s'.world = s.world) :
      Effect s s' a
  | handle {i : Fin n} {k : Nat} {ev : EpollEvent conf F} (runs : s.reactor.pool.runs i = [k])
      (event : s.reactor.tasks[k]? = some ev) (fresh : ¬ s.reactor.pool.Ready k)
      (world : s.world.handle ev = some s'.world) (pending : s'.pending = s.pending)
      (tasks : s'.reactor.tasks = s.reactor.tasks)
      (ready : ∀ j, s'.reactor.pool.Ready j ↔ s.reactor.pool.Ready j ∨ j = k) :
      Effect s s' (.worker i)
  | other {a : Reactor.Act n (EpollEvent conf F)} (act : ∀ evs, a ≠ .epollWait evs)
      (runs : ∀ i, a = .worker i → s.reactor.pool.runs i = []) (pending : s'.pending = s.pending)
      (tasks : s'.reactor.tasks = s.reactor.tasks)
      (ready : ∀ k, s'.reactor.pool.Ready k ↔ s.reactor.pool.Ready k) (world : s'.world = s.world) :
      Effect s s' a

section Effect

variable {info : Bool} {s s' : Server n conf F} {a : Reactor.Act n (EpollEvent conf F)}

theorem effect_of_step (hI : s.Inv info) (h : step info s a = some s') : Effect s s' a := by
  obtain ⟨r, hr, hmap⟩ := Option.bind_eq_some_iff.mp h
  obtain ⟨w, hw, rfl⟩ := Option.map_eq_some_iff.mp hmap
  cases Reactor.step_move hr with
  | @epollWait evs hpc hlen =>
    simp only [after] at hw
    split at hw
    · cases hw
      exact .report (by rw [pending, hpc]; rfl) rfl rfl (fun _ => Iff.rfl) rfl
    · cases hw
  | @emplaceBack ev evs p hpc hp =>
    cases hw
    exact .submit rfl (by rw [pending, hpc]; rfl) rfl (by simp [Pool.Ready, ran_frame (by simp) hp])
      rfl
  | submitter hpc hp | wake hp =>
    cases hw
    exact .other (by simp) (by simp) rfl rfl (by simp [Pool.Ready, ran_frame (by simp) hp]) rfl
  | emplaced hpc | get hpc | rethrow hpc | got hpc =>
    cases hw
    exact .other (by simp) (by simp) (by simp only [pending, hpc]; rfl) rfl (fun _ => Iff.rfl) rfl
  | write hpc =>
    cases hw
    cases info <;>
      exact .other (by simp) (by simp) (by simp only [pending, hpc]; rfl) rfl (fun _ => Iff.rfl) rfl
  | @worker i p hp =>
    simp only [after] at hw
    have hready : ∀ k, p.Ready k ↔ s.reactor.pool.Ready k ∨ k ∈ s.reactor.pool.runs i :=
      fun k => ready_workerStep hp
    rcases runs_cases s.reactor.pool i with hnone | ⟨k, hone⟩
    · rw [hnone] at hw
      cases hw
      refine .other (by simp) ?_ rfl rfl (by simpa [hnone] using hready) rfl
      rintro j ⟨⟩
      exact hnone
    · have hfresh := hI.reactor.submitted.runs_fresh hp (hone ▸ List.mem_singleton_self k)
      rw [hone, List.foldlM_cons] at hw
      obtain ⟨w', hw', hnil⟩ := Option.bind_eq_some_iff.mp hw
      cases hnil
      obtain ⟨ev, hev, hhandle⟩ := Option.bind_eq_some_iff.mp hw'
      exact .handle hone hev hfresh hhandle rfl rfl (by simpa [hone] using hready)

end Effect

end Server
/-! ## The listening socket -/

section Takes

variable {conf : Conf} {F : Type} {ev : EpollEvent conf F} {w w' : World}
  {clients rest : List InAddr}

/-- The clients behind the handler of an event -/
def EpollEvent.takes (ev : EpollEvent conf F) (clients : List InAddr) : Option (List InAddr) :=
  match ev.found with
  | .accepts results => Accept.takes results clients
  | .reads _ => some clients

theorem handle_found (h : w.handle ev = some w') : w'.listener = w.listener ∧
    ((ev.fd = w.listener ∧ ∃ results, ev.found = .accepts results) ∨
      (ev.fd ≠ w.listener ∧ ∃ a, ev.found = .reads a)) := by
  cases handling_of_handle h with
  | connect hfd hfound hgrows => exact ⟨hgrows.listener, .inl ⟨hfd, _, hfound⟩⟩
  | stay hfd hfound => exact ⟨rfl, .inr ⟨hfd, _, hfound⟩⟩
  | hangUp hfd hfound => exact ⟨rfl, .inr ⟨hfd, _, hfound⟩⟩

/-- A handler opens connections for the clients it takes, in their order. -/
theorem handle_takes (h : w.handle ev = some w') (htakes : ev.takes clients = some rest) :
    w'.conns.opened ++ rest = w.conns.opened ++ clients := by
  unfold EpollEvent.takes at htakes
  cases hfound : ev.found with
  | accepts results =>
    rw [hfound] at htakes
    have hloop : w.acceptLoop results = some w' := by
      rcases (handle_found h).2 with ⟨hfd, -⟩ | ⟨-, a, hreads⟩
      · simpa only [World.handle, World.demultiplex, if_pos hfd, hfound] using h
      · rw [hfound] at hreads
        cases hreads
    rw [acceptLoop_opened hloop, List.append_assoc, Accept.takes_append htakes]
  | reads a =>
    rw [hfound] at htakes
    cases htakes
    cases handling_of_handle h with
    | connect _ hfound' =>
      rw [hfound] at hfound'
      cases hfound'
    | stay => rfl
    | hangUp => rw [World.hangUp, Slots.Table.close_opened]

end Takes

/-- A server, the clients that wait for it, and whether `epoll_wait` has to name its listener. -/
structure Listening (n : Nat) (conf : Conf) (F : Type) where
  server : Server n conf F
  backlog : List InAddr
  ready : Bool

namespace Listening

variable {n : Nat} {conf : Conf} {F : Type}

inductive Act (n : Nat) (conf : Conf) (F : Type) where
  /-- a client connects -/
  | connect (addr : InAddr)
  | server (a : Reactor.Act n (EpollEvent conf F))

def init (n : Nat) (conf : Conf) (F : Type) (listener : Nat) : Listening n conf F :=
  ⟨.init n conf F listener, [], false⟩

/-- What a step of the server is for the socket: the listener is named once for what has come, and
a handler of the listener takes clients from the queue. -/
def socket (s : Listening n conf F) :
    Reactor.Act n (EpollEvent conf F) → Option (List InAddr × Bool)
  | .epollWait evs =>
    if ∃ ev ∈ evs, ev.fd = s.server.world.listener then
      if s.ready then some (s.backlog, false) else none
    else some (s.backlog, s.ready)
  | .worker i =>
    ((s.server.reactor.pool.runs i).foldlM (fun clients k =>
      (s.server.reactor.tasks[k]?).bind fun ev => ev.takes clients) s.backlog).map
        fun clients => (clients, s.ready)
  | .loop | .write _ | .wake _ => some (s.backlog, s.ready)

def step (info : Bool) (s : Listening n conf F) : Act n conf F → Option (Listening n conf F)
  | .connect addr => some { s with backlog := s.backlog ++ [addr], ready := true }
  | .server a =>
    (Server.step info s.server a).bind fun t =>
      (s.socket a).map fun (backlog, ready) => ⟨t, backlog, ready⟩

/-- The clients that have connected -/
def connected : List (Act n conf F) → List InAddr := List.filterMap fun
  | .connect addr => some addr
  | .server _ => none

def listener (s : Listening n conf F) : Nat := s.server.world.listener

/-- A handler of the listener is still to be run. -/
def Coming (s : Listening n conf F) : Prop :=
  (∃ ev ∈ s.server.pending, ev.fd = s.listener) ∨
    ∃ (k : Nat) (ev : EpollEvent conf F), s.server.reactor.tasks[k]? = some ev ∧
      ev.fd = s.listener ∧ ¬ s.server.reactor.pool.Ready k

/-- Clients wait, and nobody is going to look at them. -/
structure Unseen (s : Listening n conf F) : Prop where
  backlog : s.backlog ≠ []
  ready : s.ready = false
  coming : ¬ s.Coming

/-- The last handler of the listener has gone before `accept` said `EWOULDBLOCK`. -/
def BrokenOff (s : Listening n conf F) : Prop :=
  ∃ (k : Nat) (ev : EpollEvent conf F) (results : List Accept),
    s.server.reactor.tasks[k]? = some ev ∧ ev.fd = s.listener ∧ ev.found = .accepts results ∧
      s.server.reactor.pool.Ready k ∧ results.getLast? ≠ some .wouldBlock ∧
      ∀ j ev', k < j → s.server.reactor.tasks[j]? = some ev' → ev'.fd ≠ s.listener

/-! ## Runs -/

structure Inv (info : Bool) (clients : List InAddr) (s : Listening n conf F) : Prop where
  server : s.server.Inv info
  fifo : s.server.world.conns.opened ++ s.backlog = clients
  seen : s.backlog = [] ∨ s.ready = true ∨ s.Coming ∨ s.BrokenOff

section Steps

variable {info : Bool} {clients : List InAddr} {s s' : Listening n conf F}
  {a : Reactor.Act n (EpollEvent conf F)} {backlog : List InAddr} {ready : Bool}

theorem init_inv (info : Bool) (listener : Nat) : (init n conf F listener).Inv info [] :=
  ⟨Server.init_inv info listener, rfl, .inl rfl⟩

theorem socket_report {evs : List (EpollEvent conf F)}
    (h : s.socket (.epollWait evs) = some (backlog, ready)) :
    backlog = s.backlog ∧
      (((∃ ev ∈ evs, ev.fd = s.listener) ∧ s.ready = true) ∨
        (¬ (∃ ev ∈ evs, ev.fd = s.listener) ∧ ready = s.ready)) := by
  simp only [socket] at h
  split at h
  · rename_i hmem
    split at h
    · rename_i hready
      cases h
      exact ⟨rfl, .inl ⟨hmem, hready⟩⟩
    · cases h
  · rename_i hmem
    cases h
    exact ⟨rfl, .inr ⟨hmem, rfl⟩⟩

theorem socket_handle {i : Fin n} {k : Nat} {ev : EpollEvent conf F}
    (hruns : s.server.reactor.pool.runs i = [k]) (hev : s.server.reactor.tasks[k]? = some ev)
    (h : s.socket (.worker i) = some (backlog, ready)) :
    ev.takes s.backlog = some backlog ∧ ready = s.ready := by
  simp only [socket, hruns, List.foldlM_cons, List.foldlM_nil, hev, Option.bind_some] at h
  obtain ⟨clients, htakes, heq⟩ := Option.map_eq_some_iff.mp h
  cases heq
  obtain ⟨rest, hrest, hpure⟩ := Option.bind_eq_some_iff.mp htakes
  cases hpure
  exact ⟨hrest, rfl⟩

theorem socket_other (ha : ∀ evs, a ≠ .epollWait evs)
    (hruns : ∀ i, a = .worker i → s.server.reactor.pool.runs i = [])
    (h : s.socket a = some (backlog, ready)) : backlog = s.backlog ∧ ready = s.ready := by
  cases a with
  | epollWait evs => exact absurd rfl (ha evs)
  | worker i =>
    simp only [socket, hruns i rfl, List.foldlM_nil] at h
    cases h
    exact ⟨rfl, rfl⟩
  | loop | write | wake =>
    cases h
    exact ⟨rfl, rfl⟩

theorem listener_frame {t : Server n conf F} (hworld : t.world = s.server.world) :
    (⟨t, backlog, ready⟩ : Listening n conf F).listener = s.listener := by
  rw [listener, hworld]
  rfl

/-- What is still to be run goes by the tasks and the pending events. -/
theorem Coming.of_frame (hc : s.Coming) (hlistener : s'.listener = s.listener)
    (htasks : s'.server.reactor.tasks = s.server.reactor.tasks)
    (hready : ∀ k, s'.server.reactor.pool.Ready k ↔ s.server.reactor.pool.Ready k)
    (hpending : s.server.pending ⊆ s'.server.pending) : s'.Coming := by
  rcases hc with ⟨ev, hev, hfd⟩ | ⟨k, ev, hk, hfd, hnot⟩
  · exact .inl ⟨ev, hpending hev, hfd.trans hlistener.symm⟩
  · exact .inr ⟨k, ev, htasks ▸ hk, hfd.trans hlistener.symm, fun h => hnot ((hready k).mp h)⟩

theorem BrokenOff.of_frame (hb : s.BrokenOff) (hlistener : s'.listener = s.listener)
    (htasks : s'.server.reactor.tasks = s.server.reactor.tasks)
    (hready : ∀ k, s.server.reactor.pool.Ready k → s'.server.reactor.pool.Ready k) :
    s'.BrokenOff := by
  obtain ⟨k, ev, results, hk, hfd, hfound, hrun, hlast, hlater⟩ := hb
  refine ⟨k, ev, results, htasks ▸ hk, hfd.trans hlistener.symm, hfound, hready k hrun, hlast, ?_⟩
  intro j ev' hj hev'
  rw [hlistener]
  exact hlater j ev' hj (htasks ▸ hev')

/-- Another descriptor's event is not a later handler of the listener. -/
theorem BrokenOff.submit {ev : EpollEvent conf F} (hb : s.BrokenOff) (hfd : ev.fd ≠ s.listener)
    (hlistener : s'.listener = s.listener)
    (htasks : s'.server.reactor.tasks = s.server.reactor.tasks ++ [ev])
    (hready : ∀ k, s'.server.reactor.pool.Ready k ↔ s.server.reactor.pool.Ready k) :
    s'.BrokenOff := by
  obtain ⟨k, ev', results, hk, hfd', hfound, hrun, hlast, hlater⟩ := hb
  obtain ⟨hlt, -⟩ := List.getElem?_eq_some_iff.mp hk
  refine ⟨k, ev', results, ?_, hfd'.trans hlistener.symm, hfound, (hready k).mpr hrun, hlast, ?_⟩
  · rw [htasks, List.getElem?_append_left hlt, hk]
  · intro j ev'' hj hev''
    rw [hlistener]
    rw [htasks, List.getElem?_append] at hev''
    split at hev''
    · exact hlater j ev'' hj hev''
    · rw [List.mem_singleton.mp (List.mem_of_getElem? hev'')]
      exact hfd

/-- A handler of the listener that `accept` has not ended is the last one there is. -/
theorem BrokenOff.handle {k : Nat} {ev : EpollEvent conf F} {results : List Accept}
    (hI : s.server.Inv info) (hev : s.server.reactor.tasks[k]? = some ev)
    (hfresh : ¬ s.server.reactor.pool.Ready k) (hfd : ev.fd = s.listener)
    (hfound : ev.found = .accepts results) (hlast : results.getLast? ≠ some .wouldBlock)
    (hlistener : s'.listener = s.listener)
    (htasks : s'.server.reactor.tasks = s.server.reactor.tasks)
    (hrun : s'.server.reactor.pool.Ready k) : s'.BrokenOff := by
  refine ⟨k, ev, results, htasks ▸ hev, hfd.trans hlistener.symm, hfound, hrun, hlast, ?_⟩
  intro j ev' hj hev' hfd'
  have hle := hI.first_le hfresh
  exact hI.batch_ne (htasks ▸ hev') hev (by omega) hle (by omega)
    (hfd'.trans (hlistener.trans hfd.symm))

/-- An event that is submitted is still to be run. -/
theorem Coming.submit {t : Server n conf F} {ev : EpollEvent conf F} (hI : s.server.Inv info)
    (hpending : s.server.pending = ev :: t.pending)
    (htasks : t.reactor.tasks = s.server.reactor.tasks ++ [ev])
    (hready : ∀ k, t.reactor.pool.Ready k ↔ s.server.reactor.pool.Ready k)
    (hworld : t.world = s.server.world) :
    s.Coming ↔ (⟨t, backlog, ready⟩ : Listening n conf F).Coming := by
  have hlistener : (⟨t, backlog, ready⟩ : Listening n conf F).listener = s.listener :=
    listener_frame hworld
  have hnew : ¬ s.server.reactor.pool.Ready s.server.reactor.tasks.length :=
    fun h => Nat.lt_irrefl _ (hI.reactor.submitted.lt_of_ready h)
  unfold Coming
  rw [hlistener, hpending]
  simp only [htasks, hready, List.mem_cons, List.getElem?_append]
  constructor
  · rintro (⟨ev', rfl | hev', hfd⟩ | ⟨k, ev', hk, hfd, hnot⟩)
    · refine .inr ⟨s.server.reactor.tasks.length, ev', ?_, hfd, hnew⟩
      simp
    · exact .inl ⟨ev', hev', hfd⟩
    · obtain ⟨hlt, -⟩ := List.getElem?_eq_some_iff.mp hk
      exact .inr ⟨k, ev', by rw [if_pos hlt, hk], hfd, hnot⟩
  · rintro (⟨ev', hev', hfd⟩ | ⟨k, ev', hk, hfd, hnot⟩)
    · exact .inl ⟨ev', .inr hev', hfd⟩
    · split at hk
      · exact .inr ⟨k, ev', hk, hfd, hnot⟩
      · have heq := List.mem_singleton.mp (List.mem_of_getElem? hk)
        exact .inl ⟨ev', .inl heq, hfd⟩

/-- A handler that is run was still to be run; the others are as they were. -/
theorem Coming.handle {t : Server n conf F} {k : Nat} {ev : EpollEvent conf F}
    (hev : s.server.reactor.tasks[k]? = some ev) (hfd : ev.fd ≠ s.listener)
    (hpending : t.pending = s.server.pending) (htasks : t.reactor.tasks = s.server.reactor.tasks)
    (hready : ∀ j, t.reactor.pool.Ready j ↔ s.server.reactor.pool.Ready j ∨ j = k)
    (hlistener : t.world.listener = s.listener) :
    s.Coming ↔ (⟨t, backlog, ready⟩ : Listening n conf F).Coming := by
  have hlistener : (⟨t, backlog, ready⟩ : Listening n conf F).listener = s.listener := hlistener
  unfold Coming
  rw [hlistener, hpending, htasks]
  refine or_congr_right (exists_congr fun j => exists_congr fun ev' => ?_)
  constructor
  · rintro ⟨hj, hfd', hnot⟩
    refine ⟨hj, hfd', fun h => ((hready j).mp h).elim hnot ?_⟩
    rintro rfl
    rw [hev] at hj
    cases hj
    exact hfd hfd'
  · rintro ⟨hj, hfd', hnot⟩
    exact ⟨hj, hfd', fun h => hnot ((hready j).mpr (.inl h))⟩

theorem step_inv {act : Act n conf F} (hI : s.Inv info clients) (h : step info s act = some s') :
    s'.Inv info (clients ++ connected [act]) := by
  cases act with
  | connect addr =>
    cases h
    refine ⟨hI.server, ?_, .inr (.inl rfl)⟩
    rw [← List.append_assoc, hI.fifo]
    rfl
  | server a =>
    obtain ⟨t, ht, hmap⟩ := Option.bind_eq_some_iff.mp h
    obtain ⟨⟨backlog, ready⟩, hsocket, rfl⟩ := Option.map_eq_some_iff.mp hmap
    have hserver := Server.step_inv hI.server ht
    have hsame : connected [.server a] = ([] : List InAddr) := rfl
    rw [hsame, List.append_nil]
    have hfifo := hI.fifo
    cases Server.effect_of_step hI.server ht with
    | @report evs hbefore hafter htasks hready hworld =>
      have hlistener : (⟨t, backlog, ready⟩ : Listening n conf F).listener = s.listener :=
        listener_frame hworld
      obtain ⟨rfl, hnamed⟩ := socket_report hsocket
      refine ⟨hserver, by rw [hworld]; exact hfifo, ?_⟩
      rcases hnamed with ⟨⟨ev, hev, hfd⟩, -⟩ | ⟨-, rfl⟩
      · exact .inr (.inr (.inl (.inl ⟨ev, hafter ▸ hev, hfd.trans hlistener.symm⟩)))
      · refine hI.seen.imp_right (Or.imp_right (Or.imp (fun hc => ?_) fun hb => ?_))
        · exact hc.of_frame hlistener htasks hready (by simp [hbefore])
        · exact hb.of_frame hlistener htasks fun k => (hready k).mpr
    | @submit _ ev hact hpending htasks hready hworld =>
      have hlistener : (⟨t, backlog, ready⟩ : Listening n conf F).listener = s.listener :=
        listener_frame hworld
      obtain ⟨rfl, rfl⟩ := socket_other (by simp [hact]) (by simp [hact]) hsocket
      refine ⟨hserver, by rw [hworld]; exact hfifo, ?_⟩
      have hcoming : s.Coming ↔ (⟨t, s.backlog, s.ready⟩ : Listening n conf F).Coming :=
        Coming.submit hI.server hpending htasks hready hworld
      refine hI.seen.imp_right (Or.imp_right fun hcb => ?_)
      by_cases hfd : ev.fd = s.listener
      · exact .inl (hcoming.mp (.inl ⟨ev, by simp [hpending], hfd⟩))
      · refine hcb.imp hcoming.mp ?_
        intro hb
        exact hb.submit hfd hlistener htasks hready
    | @handle i k ev hruns hev hfresh hworld hpending htasks hready =>
      obtain ⟨htakes, rfl⟩ := socket_handle hruns hev hsocket
      obtain ⟨hlistener, hfound⟩ := handle_found hworld
      refine ⟨hserver, (handle_takes hworld htakes).trans hfifo, ?_⟩
      rcases hfound with ⟨hfd, results, hfound⟩ | ⟨hfd, arrival, hfound⟩
      · -- a handler of the listener, the last one there is
        simp only [EpollEvent.takes, hfound] at htakes
        by_cases hlast : results.getLast? = some .wouldBlock
        · exact .inl (Accept.takes_drained htakes hlast)
        · have hbroken : (⟨t, backlog, s.ready⟩ : Listening n conf F).BrokenOff :=
            BrokenOff.handle hI.server hev hfresh hfd hfound hlast hlistener htasks
              ((hready k).mpr (.inr rfl))
          exact .inr (.inr (.inr hbroken))
      · simp only [EpollEvent.takes, hfound] at htakes
        cases htakes
        have hcoming : s.Coming ↔ (⟨t, s.backlog, s.ready⟩ : Listening n conf F).Coming :=
          Coming.handle hev hfd hpending htasks hready hlistener
        refine hI.seen.imp_right (Or.imp_right (Or.imp hcoming.mp fun hb => ?_))
        exact hb.of_frame hlistener htasks fun j hj => (hready j).mpr (.inl hj)
    | other hact hruns hpending htasks hready hworld =>
      have hlistener : (⟨t, backlog, ready⟩ : Listening n conf F).listener = s.listener :=
        listener_frame hworld
      obtain ⟨rfl, rfl⟩ := socket_other hact hruns hsocket
      refine ⟨hserver, by rw [hworld]; exact hfifo, ?_⟩
      refine hI.seen.imp_right (Or.imp_right (Or.imp (fun hc => ?_) fun hb => ?_))
      · exact hc.of_frame hlistener htasks hready (by simp [hpending])
      · exact hb.of_frame hlistener htasks fun k => (hready k).mpr

/-- Whatever the server does, it does not look at them. -/
theorem Unseen.step (hI : s.server.Inv info) (hu : s.Unseen)
    (h : Listening.step info s (.server a) = some s') :
    s'.server.Inv info ∧ s'.Unseen ∧ s'.backlog = s.backlog := by
  obtain ⟨t, ht, hmap⟩ := Option.bind_eq_some_iff.mp h
  obtain ⟨⟨backlog, ready⟩, hsocket, rfl⟩ := Option.map_eq_some_iff.mp hmap
  refine ⟨Server.step_inv hI ht, ?_⟩
  have hkeeps : backlog = s.backlog → ready = s.ready →
      ((⟨t, backlog, ready⟩ : Listening n conf F).Coming → s.Coming) →
        (⟨t, backlog, ready⟩ : Listening n conf F).Unseen ∧ backlog = s.backlog := by
    rintro rfl rfl hcoming
    exact ⟨⟨hu.backlog, hu.ready, fun hc => hu.coming (hcoming hc)⟩, rfl⟩
  cases Server.effect_of_step hI ht with
  | @report evs hbefore hafter htasks hready hworld =>
    obtain ⟨hbacklog, hnamed⟩ := socket_report hsocket
    rcases hnamed with ⟨-, htrue⟩ | ⟨hnone, heq⟩
    · rw [hu.ready] at htrue
      cases htrue
    · refine hkeeps hbacklog heq ?_
      have hlistener : (⟨t, backlog, ready⟩ : Listening n conf F).listener = s.listener :=
        listener_frame hworld
      rintro (⟨ev, hev, hfd⟩ | ⟨k, ev, hk, hfd, hnot⟩)
      · exact absurd ⟨ev, hafter ▸ hev, hfd.trans hlistener⟩ hnone
      · exact .inr ⟨k, ev, htasks ▸ hk, hfd.trans hlistener, fun h => hnot ((hready k).mpr h)⟩
  | submit hact hpending htasks hready hworld =>
    obtain ⟨hbacklog, heq⟩ := socket_other (by simp [hact]) (by simp [hact]) hsocket
    exact hkeeps hbacklog heq (Coming.submit hI hpending htasks hready hworld).mpr
  | @handle i k ev hruns hev hfresh hworld hpending htasks hready =>
    obtain ⟨htakes, heq⟩ := socket_handle hruns hev hsocket
    obtain ⟨hlistener, hfound⟩ := handle_found hworld
    rcases hfound with ⟨hfd, -⟩ | ⟨hfd, arrival, hfound⟩
    · exact absurd (.inr ⟨k, ev, hev, hfd, hfresh⟩) hu.coming
    · simp only [EpollEvent.takes, hfound] at htakes
      cases htakes
      exact hkeeps rfl heq (Coming.handle hev hfd hpending htasks hready hlistener).mpr
  | other hact hruns hpending htasks hready hworld =>
    obtain ⟨hbacklog, heq⟩ := socket_other hact hruns hsocket
    refine hkeeps hbacklog heq fun hc => ?_
    exact hc.of_frame (listener_frame hworld).symm htasks.symm (fun k => (hready k).symm)
      (by simp [hpending])

end Steps

theorem run_inv {info : Bool} {listener : Nat} {acts : List (Act n conf F)}
    {s : Listening n conf F}
    (h : Lts.run (step info) (init n conf F listener) acts = some s) :
    s.Inv info (connected acts) := by
  induction acts using List.reverseRecOn generalizing s with
  | nil =>
    cases h
    exact init_inv info listener
  | append_singleton acts act ih =>
    obtain ⟨t, ht, hstep⟩ := Lts.run_concat_eq_some.mp h
    have hsplit : connected (acts ++ [act]) = connected acts ++ connected [act] :=
      List.filterMap_append
    rw [hsplit]
    exact step_inv (ih ht) hstep

/-- For every run of clients and server: every client has been accepted or waits, in the order they
came in. Those who wait are going to be looked at, unless the last handler of the listener has gone
before the queue was empty; then nothing the server does is about them. -/
theorem clients_seen (n : Nat) (conf : Conf) (F : Type) (info : Bool) (listener : Nat)
    (acts : List (Act n conf F)) (s : Listening n conf F)
    (h : Lts.run (step info) (init n conf F listener) acts = some s) :
    s.server.world.conns.opened ++ s.backlog = connected acts ∧
      (s.Unseen → s.BrokenOff) ∧
      (s.Unseen → ∀ more t, (∀ act ∈ more, ∃ a, act = .server a) →
        Lts.run (step info) s more = some t → t.Unseen ∧ t.backlog = s.backlog) := by
  have hI := run_inv h
  refine ⟨hI.fifo, ?_, ?_⟩
  · intro hu
    rcases hI.seen with hempty | hready | hcoming | hbroken
    · exact absurd hempty hu.backlog
    · rw [hu.ready] at hready
      cases hready
    · exact absurd hcoming hu.coming
    · exact hbroken
  · intro hu more t hmore ht
    have hkept : t.server.Inv info ∧ t.Unseen ∧ t.backlog = s.backlog := by
      refine Lts.run_invariant_of
        (I := fun t => t.server.Inv info ∧ t.Unseen ∧ t.backlog = s.backlog) ?_
        ⟨hI.server, hu, rfl⟩ more hmore t ht
      rintro u _ v ⟨hserver, hunseen, hbacklog⟩ ⟨a, rfl⟩ hv
      obtain ⟨hserver', hunseen', hbacklog'⟩ := hunseen.step hserver hv
      exact ⟨hserver', hunseen', hbacklog'.trans hbacklog⟩
    exact hkept.2

/-- Two clients, and a handler that runs out of descriptors behind the first -/
def refusedSchedule : List (Act 1 aConf Unit) :=
  [.connect ⟨127, 0, 0, 1⟩, .connect ⟨127, 0, 0, 2⟩] ++
    (Reactor.round ⟨3, true, 0, .accepts [.connected 5 ⟨127, 0, 0, 1⟩ true, .failed]⟩).map .server

/-- What it leaves: who waits, and whether the listener is ready, an event is pending and the one
task is run. -/
def refusedOutcome : Option (List InAddr × Bool × Nat × Nat × Bool) :=
  (Lts.run (step true) (init 1 aConf Unit 3) refusedSchedule).map fun s =>
    (s.backlog, s.ready, s.server.pending.length, s.server.reactor.tasks.length,
      decide (s.server.reactor.pool.Ready 0))

theorem refused_outcome :
    refusedOutcome = some ([⟨127, 0, 0, 2⟩], false, 0, 1, true) := by decide +kernel

theorem clients_seen_refused :
    ∃ s, Lts.run (step true) (init 1 aConf Unit 3) refusedSchedule = some s ∧
      s.backlog = [⟨127, 0, 0, 2⟩] ∧ s.Unseen ∧ s.BrokenOff := by
  obtain ⟨s, hs, hout⟩ := Option.map_eq_some_iff.mp refused_outcome
  simp only [Prod.mk.injEq] at hout
  obtain ⟨hbacklog, hready, hpending, htasks, hrun⟩ := hout
  have hu : s.Unseen := by
    refine ⟨by simp [hbacklog], hready, ?_⟩
    rintro (⟨ev, hev, -⟩ | ⟨k, ev, hk, -, hnot⟩)
    · rw [List.length_eq_zero_iff.mp hpending] at hev
      cases hev
    · obtain ⟨hlt, -⟩ := List.getElem?_eq_some_iff.mp hk
      obtain rfl : k = 0 := by omega
      exact hnot (of_decide_eq_true hrun)
  obtain ⟨-, hbroken, -⟩ := clients_seen 1 aConf Unit true 3 refusedSchedule s hs
  exact ⟨s, hs, hbacklog, hu, hbroken hu⟩

end Listening
end SimpleWeb
