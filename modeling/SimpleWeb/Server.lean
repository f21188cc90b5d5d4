import SimpleWeb.Lib.Slots
import SimpleWeb.RequestLog
import SimpleWeb.Response

/-!
# SimpleWeb.Server

The server of `SimpleWeb::run` (`SimpleWeb.cpp`): the reactor, the descriptors its handlers work on,
the interest list of its epoll instance, and the map from descriptors to addresses.

Descriptors are used again, and their handlers run on any thread. What keeps them apart is the
reactor: `epoll_wait` names a descriptor once, and is not called before every handler of the last
batch has returned. So a handler only ever works on the connection its event was for, alone
(`handlers_live`), the address in its record is that of its client (`record_address`), and a
connection is closed once at most and by its own handler (`connections_exact`).

The handlers of a batch are taken one after another, in any order. In the code they run at once,
and the map has no lock: where `CONNECT` enters an address while a handler of the same batch looks
one up, the map may be anything, and nothing is said here.
-/

namespace SimpleWeb

open Http ThreadPool Slots

/-- `struct in_addr`, from the first byte of the address on -/
structure InAddr where
  a : UInt8
  b : UInt8
  c : UInt8
  d : UInt8
  deriving DecidableEq

/-- `inet_ntoa` -/
def InAddr.ntoa (addr : InAddr) : Bytes :=
  toDecimal addr.a.toNat ++ byte '.' :: toDecimal addr.b.toNat ++ byte '.' ::
    toDecimal addr.c.toNat ++ byte '.' :: toDecimal addr.d.toNat

/-- What one call of `accept` gives the handler: a connection, with what `add_event` returns for it
(or the end of the handler, when the map cannot take its address), or an error. -/
inductive Accept where
  | connected (fd : Nat) (addr : InAddr) (added : Bool)
  | badAlloc (fd : Nat) (addr : InAddr)
  | tooManyRefs
  | wouldBlock
  | failed
  deriving DecidableEq

/-- The map has thrown. -/
def Accept.throws : Accept → Bool
  | .badAlloc .. => true
  | _ => false

/-- What the handler of an event finds. -/
inductive Found (conf : Conf) (F : Type) where
  | accepts (results : List Accept)
  | reads (a : Arrival conf F)

/-- An event of a batch. The kernel knows the connection it is for, whatever number that has. -/
structure EpollEvent (conf : Conf) (F : Type) where
  fd : Nat
  epollin : Bool
  conn : Nat
  found : Found conf F

/-- `EventType` -/
inductive EventType where
  | connect
  | rw
  | log
  | unknown
  deriving DecidableEq

def EventType.toNat : EventType → Nat
  | .connect => 0
  | .rw => 1
  | .log => 2
  | .unknown => 3

/-- The size of `Reactor::handler` -/
def handlerCount : Nat := 3

/-- The descriptors and what is kept about them. -/
structure World where
  listener : Nat
  conns : Table Nat InAddr
  /-- the interest list of the epoll instance -/
  registered : Nat → Bool
  fdIpMap : Nat → Option InAddr

/-- The listener is bound, registered, and the only descriptor. -/
def World.init (listener : Nat) : World :=
  ⟨listener, .init, fun fd => fd = listener, fun _ => none⟩

section Handlers

variable {conf : Conf} {F : Type}

/-- The demultiplexer that `run` registers -/
def World.demultiplex (w : World) (ev : EpollEvent conf F) : EventType :=
  if ev.fd = w.listener then .connect
  else if ev.epollin then .rw
  else .unknown

def World.Free (w : World) (fd : Nat) : Prop := fd ≠ w.listener ∧ w.conns.slots fd = none

instance (w : World) (fd : Nat) : Decidable (w.Free fd) := inferInstanceAs (Decidable (_ ∧ _))

/-- A new connection, its address, and its place in the interest list -/
def World.accept (w : World) (fd : Nat) (addr : InAddr) (added : Bool) : World :=
  { w with
    conns := w.conns.add fd addr
    registered := Function.update w.registered fd added
    fdIpMap := Function.update w.fdIpMap fd (some addr) }

/-- The loop of the `CONNECT` handler, over the results of `accept`. None when these are not the
results of one run of the loop, or give a descriptor that is open. -/
def World.acceptLoop (w : World) : List Accept → Option World
  | .connected fd addr added :: results =>
    if w.Free fd then (w.accept fd addr added).acceptLoop results else none
  | .tooManyRefs :: results => w.acceptLoop results
  | [.badAlloc fd addr] =>
    if w.Free fd then some { w with conns := w.conns.add fd addr } else none
  | [.wouldBlock] => some w
  | [.failed] => some w
  | _ => none

/-- `fd_ip_map_[fd]` -/
def World.address (w : World) (fd : Nat) : InAddr := (w.fdIpMap fd).getD ⟨0, 0, 0, 0⟩

/-- What a call of the `RW` handler does to the descriptors -/
def World.call (fd : Nat) (w : World) : ConnCall → World
  | .removeEvent => { w with registered := Function.update w.registered fd false }
  | .close => { w with conns := w.conns.close fd }
  | .serve | .response | .shutdown => w

/-- A handler, run on what it finds, with no other at work on the descriptors and the map. None
when what it finds is not there: an address that is not the one in the map, or no handler in the
table. -/
def World.handle (w : World) (ev : EpollEvent conf F) : Option World :=
  match w.demultiplex ev, ev.found with
  | .connect, .accepts results => w.acceptLoop results
  | .rw, .reads a =>
    if a.ip = (w.address ev.fd).ntoa then
      -- the calls that end a connection are in front of any that may throw
      if a.throws then some w
      else (handleRW conf a.readiness (a.unread ++ a.readiness.arrived)).map fun r =>
        r.1.foldl (World.call ev.fd) w
    else none
  | _, _ => none

/-- Registered, and its event is about the connection that is open there. -/
def World.Live (w : World) (ev : EpollEvent conf F) : Prop :=
  w.registered ev.fd = true ∧
    (ev.fd = w.listener ∨ (w.conns.slots ev.fd).map Slot.id = some ev.conn)

instance (w : World) (ev : EpollEvent conf F) : Decidable (w.Live ev) :=
  inferInstanceAs (Decidable (_ ∧ _))

/-- What `epoll_wait` may return: descriptors in its list, each once. -/
def World.Reports (w : World) (evs : List (EpollEvent conf F)) : Prop :=
  (evs.map EpollEvent.fd).Nodup ∧ ∀ ev ∈ evs, w.Live ev

instance (w : World) (evs : List (EpollEvent conf F)) : Decidable (w.Reports evs) :=
  inferInstanceAs (Decidable (_ ∧ _))

/-- The event as the log sees it -/
def EpollEvent.event (ev : EpollEvent conf F) : Event conf F :=
  match ev.found with
  | .accepts results => .other (results.any Accept.throws)
  | .reads a => .rw a

end Handlers

/-! ## One handler -/

/-- Every registered descriptor is open and has the address of its client in the map, and every
connection so far is open under one descriptor, or was closed once. -/
structure World.Sound (w : World) : Prop where
  exact : Exact w.conns
  listener : w.conns.slots w.listener = none
  registered : ∀ fd, w.registered fd = true → fd ≠ w.listener → w.conns.slots fd ≠ none
  address : ∀ fd s, w.registered fd = true → w.conns.slots fd = some s →
    w.fdIpMap fd = some s.value

/-- What new connections leave as it was -/
structure World.Grows (w w' : World) : Prop where
  listener : w'.listener = w.listener
  slots : ∀ fd, ¬ w.Free fd → w'.conns.slots fd = w.conns.slots fd
  registered : ∀ fd, ¬ w.Free fd → w'.registered fd = w.registered fd
  opened : w.conns.opened <+: w'.conns.opened
  closed : w'.conns.closed = w.conns.closed
  sound : w.Sound → w'.Sound

section Handle

variable {conf : Conf} {F : Type} {w w' w'' : World} {ev ev' : EpollEvent conf F} {fd : Nat}
  {addr : InAddr}

theorem World.Grows.refl (w : World) : w.Grows w :=
  ⟨rfl, fun _ _ => rfl, fun _ _ => rfl, List.prefix_refl _, rfl, id⟩

theorem World.Grows.trans (h : w.Grows w') (h' : w'.Grows w'') : w.Grows w'' := by
  have hfree : ∀ fd, ¬ w.Free fd → ¬ w'.Free fd := by
    intro fd hfd hfree
    exact hfd ⟨h.listener ▸ hfree.1, (h.slots fd hfd).symm.trans hfree.2⟩
  refine ⟨h'.listener.trans h.listener, ?_, ?_, h.opened.trans h'.opened,
    h'.closed.trans h.closed, h'.sound ∘ h.sound⟩
  · intro fd hfd
    rw [h'.slots fd (hfree fd hfd), h.slots fd hfd]
  · intro fd hfd
    rw [h'.registered fd (hfree fd hfd), h.registered fd hfd]

theorem World.Free.ne (hfree : w.Free fd) {fd' : Nat} (h : ¬ w.Free fd') : fd' ≠ fd := by
  rintro rfl
  exact h hfree

theorem accept_grows (hfree : w.Free fd) (addr : InAddr) (added : Bool) :
    w.Grows (w.accept fd addr added) := by
  refine ⟨rfl, ?_, ?_, List.prefix_append _ _, rfl, ?_⟩
  · intro fd' hfd
    exact Table.add_ne (hfree.ne hfd)
  · intro fd' hfd
    exact Function.update_of_ne (hfree.ne hfd) ..
  · rintro ⟨hexact, hlistener, hregistered, haddress⟩
    refine ⟨hexact.add hfree.2 addr, ?_, ?_, ?_⟩
    · exact (Table.add_ne hfree.1.symm).trans hlistener
    · intro fd' hreg hne
      by_cases hfd : fd' = fd
      · subst hfd
        simp [World.accept, Table.add_self]
      · have hreg : w.registered fd' = true := by simpa [World.accept, hfd] using hreg
        have hslot := hregistered fd' hreg hne
        rwa [World.accept, Table.add_ne hfd]
    · intro fd' s hreg hs
      rcases Table.add_cases hs with ⟨rfl, rfl⟩ | ⟨hfd, hs⟩
      · simp [World.accept]
      · have hreg : w.registered fd' = true := by simpa [World.accept, hfd] using hreg
        simpa [World.accept, hfd] using haddress fd' s hreg hs

theorem badAlloc_grows (hfree : w.Free fd) (addr : InAddr) :
    w.Grows { w with conns := w.conns.add fd addr } := by
  refine ⟨rfl, ?_, fun _ _ => rfl, List.prefix_append _ _, rfl, ?_⟩
  · intro fd' hfd
    exact Table.add_ne (hfree.ne hfd)
  · rintro ⟨hexact, hlistener, hregistered, haddress⟩
    refine ⟨hexact.add hfree.2 addr, (Table.add_ne hfree.1.symm).trans hlistener, ?_, ?_⟩
    · intro fd' hreg hne
      have hslot := hregistered fd' hreg hne
      have hfd : fd' ≠ fd := by
        rintro rfl
        exact hslot hfree.2
      rwa [Table.add_ne hfd]
    · intro fd' s hreg hs
      rcases Table.add_cases hs with ⟨rfl, rfl⟩ | ⟨-, hs⟩
      · exact absurd hfree.2 (hregistered _ hreg hfree.1)
      · exact haddress fd' s hreg hs

theorem acceptLoop_grows {results : List Accept} (h : w.acceptLoop results = some w') :
    w.Grows w' := by
  induction results generalizing w with
  | nil => cases h
  | cons r results ih =>
    cases r with
    | connected fd addr added =>
      simp only [World.acceptLoop] at h
      split at h
      · rename_i hfree
        exact (accept_grows hfree addr added).trans (ih h)
      · cases h
    | tooManyRefs => exact ih h
    | badAlloc fd addr =>
      cases results with
      | nil =>
        simp only [World.acceptLoop] at h
        split at h
        · rename_i hfree
          cases h
          exact badAlloc_grows hfree addr
        · cases h
      | cons => cases h
    | wouldBlock | failed =>
      cases results with
      | nil =>
        cases h
        exact .refl _
      | cons => cases h

/-- A connection that has come to its end -/
def World.hangUp (w : World) (fd : Nat) : World :=
  { w with registered := Function.update w.registered fd false, conns := w.conns.close fd }

/-- The handler hangs up, or leaves its descriptor open. -/
theorem handleRW_calls (a : Arrival conf F) {calls : List ConnCall} {unread : Option (List Bytes)}
    (h : handleRW conf a.readiness (a.unread ++ a.readiness.arrived) = some (calls, unread))
    (w : World) (fd : Nat) :
    calls.foldl (World.call fd) w = w ∨ calls.foldl (World.call fd) w = w.hangUp fd := by
  have hchunks : ∀ c ∈ a.unread ++ a.readiness.arrived, 1 ≤ c.length ∧ c.length ≤ bufSize := by
    intro c hc
    rcases List.mem_append.mp hc with hc | hc
    · exact a.unread_size c hc
    · exact a.readiness.arrived_size c hc
  cases (handleRW_handled hchunks h).1 with
  | close => exact .inr rfl
  | refuse | mute | answer => exact .inl rfl

/-- What a handler does -/
inductive Handling (w : World) (ev : EpollEvent conf F) : World → Prop where
  | connect {results : List Accept} {w' : World} (hfd : ev.fd = w.listener)
      (hfound : ev.found = .accepts results) (hgrows : w.Grows w') : Handling w ev w'
  | stay {a : Arrival conf F} (hfd : ev.fd ≠ w.listener) (hfound : ev.found = .reads a)
      (hip : a.ip = (w.address ev.fd).ntoa) : Handling w ev w
  | hangUp {a : Arrival conf F} (hfd : ev.fd ≠ w.listener) (hfound : ev.found = .reads a)
      (hip : a.ip = (w.address ev.fd).ntoa) : Handling w ev (w.hangUp ev.fd)

theorem handling_of_handle (h : w.handle ev = some w') : Handling w ev w' := by
  unfold World.handle at h
  split at h
  · rename_i results hevent hfound
    unfold World.demultiplex at hevent
    split at hevent
    · rename_i hfd
      exact .connect hfd hfound (acceptLoop_grows h)
    · split at hevent <;> cases hevent
  · rename_i a hevent hfound
    have hfd : ev.fd ≠ w.listener := by
      intro hfd
      rw [World.demultiplex, if_pos hfd] at hevent
      cases hevent
    split at h
    · rename_i hip
      split at h
      · cases h
        exact .stay hfd hfound hip
      · obtain ⟨⟨calls, unread⟩, hcalls, rfl⟩ := Option.map_eq_some_iff.mp h
        rcases handleRW_calls a hcalls w ev.fd with heq | heq
        · rw [heq]
          exact .stay hfd hfound hip
        · rw [heq]
          exact .hangUp hfd hfound hip
    · cases h
  · cases h

theorem World.Sound.hangUp (h : w.Sound) (fd : Nat) (hfd : fd ≠ w.listener) :
    (w.hangUp fd).Sound := by
  refine ⟨h.exact.close fd, (Table.close_ne hfd.symm).trans h.listener, ?_, ?_⟩
  · intro fd' hreg hne
    by_cases heq : fd' = fd
    · subst heq
      simp [World.hangUp] at hreg
    · have hreg : w.registered fd' = true := by simpa [World.hangUp, heq] using hreg
      have hslot := h.registered fd' hreg hne
      rwa [World.hangUp, Table.close_ne heq]
  · intro fd' s hreg hs
    obtain ⟨hne, hs⟩ := Table.close_cases hs
    have hreg : w.registered fd' = true := by simpa [World.hangUp, hne] using hreg
    exact h.address fd' s hreg hs

theorem handle_sound (hs : w.Sound) (h : w.handle ev = some w') : w'.Sound := by
  cases handling_of_handle h with
  | connect _ _ hgrows => exact hgrows.sound hs
  | stay => exact hs
  | hangUp hfd _ _ => exact hs.hangUp ev.fd hfd

theorem handle_opened (h : w.handle ev = some w') : w.conns.opened <+: w'.conns.opened := by
  cases handling_of_handle h with
  | connect _ _ hgrows => exact hgrows.opened
  | stay => exact List.prefix_refl _
  | hangUp =>
    rw [World.hangUp, Table.close_opened]

/-- A handler closes no connection but that of its event. -/
theorem handle_closed (hl : w.Live ev) (h : w.handle ev = some w') :
    ∀ id ∈ w'.conns.closed, id ∈ w.conns.closed ∨ id = ev.conn := by
  cases handling_of_handle h with
  | connect _ _ hgrows =>
    rw [hgrows.closed]
    exact fun _ => .inl
  | stay => exact fun _ => .inl
  | hangUp hfd _ _ =>
    obtain ⟨s, hslot, hid⟩ := Option.map_eq_some_iff.mp (hl.2.resolve_left hfd)
    intro id hmem
    simpa [World.hangUp, Table.close, hslot, hid] using hmem

theorem World.Live.not_free (hl : w.Live ev) : ¬ w.Free ev.fd := by
  rintro ⟨hne, hslot⟩
  rcases hl.2 with hfd | hconn
  · exact hne hfd
  · rw [hslot] at hconn
    cases hconn

/-- A handler leaves the connections of other events alone. -/
theorem World.Live.handle (hl : w.Live ev') (h : w.handle ev = some w') (hne : ev'.fd ≠ ev.fd) :
    w'.Live ev' := by
  cases handling_of_handle h with
  | connect _ _ hgrows =>
    have hfree := hl.not_free
    refine ⟨(hgrows.registered _ hfree).trans hl.1, ?_⟩
    rw [hgrows.listener, hgrows.slots _ hfree]
    exact hl.2
  | stay => exact hl
  | hangUp =>
    refine ⟨(Function.update_of_ne hne ..).trans hl.1, ?_⟩
    rw [World.hangUp, Table.close_ne hne]
    exact hl.2

/-- The address a handler takes from the map is that of the client of its event. -/
theorem handle_address (hs : w.Sound) (hl : w.Live ev) (h : w.handle ev = some w')
    {a : Arrival conf F} (hfound : ev.found = .reads a) :
    ∃ addr, w'.conns.opened[ev.conn]? = some addr ∧ a.ip = addr.ntoa := by
  have hread : ev.fd ≠ w.listener → a.ip = (w.address ev.fd).ntoa →
      ∃ addr, w.conns.opened[ev.conn]? = some addr ∧ a.ip = addr.ntoa := by
    intro hfd hip
    obtain ⟨s, hslot, hid⟩ := Option.map_eq_some_iff.mp (hl.2.resolve_left hfd)
    refine ⟨s.value, hid ▸ hs.exact.value _ s hslot, ?_⟩
    rw [hip, World.address, hs.address _ s hl.1 hslot, Option.getD_some]
  cases handling_of_handle h with
  | connect _ hfound' => rw [hfound] at hfound'; cases hfound'
  | stay hfd hfound' hip =>
    rw [hfound] at hfound'
    cases hfound'
    exact hread hfd hip
  | hangUp hfd hfound' hip =>
    rw [hfound] at hfound'
    cases hfound'
    rw [World.hangUp, Table.close_opened]
    exact hread hfd hip

end Handle

structure Server (n : Nat) (conf : Conf) (F : Type) where
  reactor : Reactor n (EpollEvent conf F)
  world : World

namespace Server

variable {n : Nat} {conf : Conf} {F : Type}

def init (n : Nat) (conf : Conf) (F : Type) (listener : Nat) : Server n conf F :=
  ⟨.init n _, .init listener⟩

/-- The handlers the reactor is given -/
def handlers (conf : Conf) (F : Type) (info : Bool) : Handlers (EpollEvent conf F) where
  logs ev := ev.event.log info
  throws ev := ev.event.throws

/-- What a step of the reactor is for the descriptors: a batch has to be one that epoll reports and
the table has handlers for, and a worker runs a handler. -/
def after (s : Server n conf F) : Reactor.Act n (EpollEvent conf F) → Option World
  | .epollWait evs =>
    if s.world.Reports evs ∧ ∀ ev ∈ evs, (s.world.demultiplex ev).toNat < handlerCount then
      some s.world
    else none
  | .worker i =>
    (s.reactor.pool.runs i).foldlM (fun w k => (s.reactor.tasks[k]?).bind w.handle) s.world
  | .loop | .write _ | .wake _ => some s.world

def step (info : Bool) (s : Server n conf F) (a : Reactor.Act n (EpollEvent conf F)) :
    Option (Server n conf F) :=
  (s.reactor.step (handlers conf F info) info a).bind fun r =>
    (s.after a).map fun w => ⟨r, w⟩

/-! ## Runs -/

/-- The events of the batch, submitted or not -/
def batch (s : Server n conf F) : List (EpollEvent conf F) :=
  s.reactor.tasks.drop s.reactor.first ++ Reactor.ReactorPc.pending s.reactor.pc

/-- Every handler of an earlier batch has been run. The events of this one are for descriptors of
their own, and live as long as their handler has not been run. -/
structure Inv (info : Bool) (s : Server n conf F) : Prop where
  reactor : s.reactor.Inv info
  sound : s.world.Sound
  earlier : ∀ k < s.reactor.first, s.reactor.pool.Ready k
  distinct : (s.batch.map EpollEvent.fd).Nodup
  live : ∀ k ev, s.reactor.tasks[k]? = some ev → ¬ s.reactor.pool.Ready k → s.world.Live ev
  pending : ∀ ev ∈ Reactor.ReactorPc.pending s.reactor.pc, s.world.Live ev
  recorded : ∀ k ev a, s.reactor.tasks[k]? = some ev → s.reactor.pool.Ready k →
    ev.found = .reads a →
      ∃ addr, s.world.conns.opened[ev.conn]? = some addr ∧ a.ip = addr.ntoa
  closed : ∀ id ∈ s.world.conns.closed, ∃ k ev, s.reactor.tasks[k]? = some ev ∧
    s.reactor.pool.Ready k ∧ ev.conn = id

section Steps

variable {info : Bool} {s s' : Server n conf F} {r : Reactor n (EpollEvent conf F)} {w : World}

theorem init_sound (listener : Nat) : (World.init listener).Sound where
  exact := .init
  listener := rfl
  registered fd hreg hne := absurd (by simpa [World.init] using hreg) hne
  address := nofun

theorem init_inv (info : Bool) (listener : Nat) : (init n conf F listener).Inv info where
  reactor := Reactor.init_inv info
  sound := init_sound listener
  earlier k hk := absurd hk (Nat.not_lt_zero k)
  distinct := List.nodup_nil
  live := nofun
  pending := nofun
  recorded := nofun
  closed := nofun

/-- A step of the reactor that runs no handler and changes no batch -/
theorem Inv.frame (hI : s.Inv info) (hr : r.Inv info)
    (hready : ∀ k, r.pool.Ready k ↔ s.reactor.pool.Ready k) (hfirst : r.first = s.reactor.first)
    (htasks : r.tasks = s.reactor.tasks)
    (hpending : Reactor.ReactorPc.pending r.pc = Reactor.ReactorPc.pending s.reactor.pc) :
    (⟨r, s.world⟩ : Server n conf F).Inv info where
  reactor := hr
  sound := hI.sound
  earlier k hk := (hready k).mpr (hI.earlier k (hfirst ▸ hk))
  distinct := by
    have hdistinct := hI.distinct
    simpa only [batch, htasks, hfirst, hpending] using hdistinct
  live k ev hk hnot := hI.live k ev (htasks ▸ hk) fun h => hnot ((hready k).mpr h)
  pending ev hev := hI.pending ev (hpending ▸ hev)
  recorded k ev a hk hrun := hI.recorded k ev a (htasks ▸ hk) ((hready k).mp hrun)
  closed id hid := by
    obtain ⟨k, ev, hk, hrun, heq⟩ := hI.closed id hid
    exact ⟨k, ev, htasks ▸ hk, (hready k).mpr hrun, heq⟩

/-- A task that has not been run is one of the batch. -/
theorem Inv.first_le (hI : s.Inv info) {k : Nat} (hk : ¬ s.reactor.pool.Ready k) :
    s.reactor.first ≤ k := by
  by_contra hlt
  exact hk (hI.earlier k (by omega))

/-- The tasks of the batch have descriptors of their own, run or not. -/
theorem Inv.batch_ne (hI : s.Inv info) {j k : Nat} {ev ev' : EpollEvent conf F}
    (hj : s.reactor.tasks[j]? = some ev) (hk : s.reactor.tasks[k]? = some ev')
    (hjle : s.reactor.first ≤ j) (hkle : s.reactor.first ≤ k) (hne : j ≠ k) : ev.fd ≠ ev'.fd := by
  have hat : ∀ {i : Nat} {e : EpollEvent conf F}, s.reactor.first ≤ i →
      s.reactor.tasks[i]? = some e →
        (s.batch.map EpollEvent.fd)[i - s.reactor.first]? = some e.fd := by
    intro i e hle he
    have hdrop : (s.reactor.tasks.drop s.reactor.first)[i - s.reactor.first]? = some e := by
      rw [List.getElem?_drop, Nat.add_sub_cancel' hle, he]
    obtain ⟨hlt, -⟩ := List.getElem?_eq_some_iff.mp hdrop
    rw [List.getElem?_map, batch, List.getElem?_append_left hlt, hdrop, Option.map_some]
  intro heq
  have hsame := (hat hjle hj).trans (heq ▸ (hat hkle hk).symm)
  obtain ⟨hlt, -⟩ := List.getElem?_eq_some_iff.mp (hat hjle hj)
  have hidx := List.getElem?_inj hlt hI.distinct |>.mp hsame
  omega

theorem Inv.fd_ne (hI : s.Inv info) {j k : Nat} {ev ev' : EpollEvent conf F}
    (hj : s.reactor.tasks[j]? = some ev) (hk : s.reactor.tasks[k]? = some ev')
    (hj' : ¬ s.reactor.pool.Ready j) (hk' : ¬ s.reactor.pool.Ready k) (hne : j ≠ k) :
    ev.fd ≠ ev'.fd :=
  hI.batch_ne hj hk (hI.first_le hj') (hI.first_le hk') hne

theorem Inv.pending_ne (hI : s.Inv info) {k : Nat} {ev ev' : EpollEvent conf F}
    (hk : s.reactor.tasks[k]? = some ev) (hk' : ¬ s.reactor.pool.Ready k)
    (hev : ev' ∈ Reactor.ReactorPc.pending s.reactor.pc) : ev'.fd ≠ ev.fd := by
  have hle := hI.first_le hk'
  have hmem : ev ∈ s.reactor.tasks.drop s.reactor.first := by
    refine List.mem_of_getElem? (i := k - s.reactor.first) ?_
    rw [List.getElem?_drop, Nat.add_sub_cancel' hle, hk]
  have hdistinct := hI.distinct
  rw [batch, List.map_append, List.nodup_append] at hdistinct
  intro heq
  exact hdistinct.2.2 _ (List.mem_map_of_mem hmem) _ (List.mem_map_of_mem hev) heq.symm

theorem Inv.first_tasks (hI : s.Inv info) : s.reactor.first ≤ s.reactor.tasks.length := by
  by_contra hlt
  have hready := hI.earlier s.reactor.tasks.length (by omega)
  exact Nat.lt_irrefl _ (hI.reactor.submitted.lt_of_ready hready)

/-- A worker that runs the task of an event -/
theorem Inv.runTask (hI : s.Inv info) {i : Fin n} {p : Pool n Nat}
    (hp : ThreadPool.step s.reactor.pool (.worker i) = some p) {k : Nat}
    (hruns : s.reactor.pool.runs i = [k]) {ev : EpollEvent conf F}
    (hev : s.reactor.tasks[k]? = some ev) (hw : s.world.handle ev = some w) (hr : r.Inv info)
    (hpool : r.pool = p) (hfirst : r.first = s.reactor.first) (htasks : r.tasks = s.reactor.tasks)
    (hpc : r.pc = s.reactor.pc) : (⟨r, w⟩ : Server n conf F).Inv info := by
  have hready : ∀ j, r.pool.Ready j ↔ s.reactor.pool.Ready j ∨ j = k := by
    intro j
    rw [hpool, ready_workerStep hp, hruns, List.mem_singleton]
  have hfresh : ¬ s.reactor.pool.Ready k :=
    hI.reactor.submitted.runs_fresh hp (hruns ▸ List.mem_singleton_self k)
  have hlive := hI.live k ev hev hfresh
  refine ⟨hr, handle_sound hI.sound hw, ?_, ?_, ?_, ?_, ?_, ?_⟩
  · intro j hj
    exact (hready j).mpr (.inl (hI.earlier j (hfirst ▸ hj)))
  · have hdistinct := hI.distinct
    simpa only [batch, htasks, hfirst, hpc] using hdistinct
  · intro j ev' hev' hj
    have hj := not_or.mp ((not_congr (hready j)).mp hj)
    have hev' : s.reactor.tasks[j]? = some ev' := htasks ▸ hev'
    exact (hI.live j ev' hev' hj.1).handle hw (hI.fd_ne hev' hev hj.1 hfresh hj.2)
  · intro ev' hev'
    have hev' : ev' ∈ Reactor.ReactorPc.pending s.reactor.pc := hpc ▸ hev'
    exact (hI.pending ev' hev').handle hw (hI.pending_ne hev hfresh hev')
  · intro j ev' a hev' hj hfound
    have hev' : s.reactor.tasks[j]? = some ev' := htasks ▸ hev'
    rcases (hready j).mp hj with hj | rfl
    · obtain ⟨addr, haddr, hip⟩ := hI.recorded j ev' a hev' hj hfound
      obtain ⟨hlt, -⟩ := List.getElem?_eq_some_iff.mp haddr
      obtain ⟨more, hmore⟩ := handle_opened hw
      refine ⟨addr, ?_, hip⟩
      rw [← hmore, List.getElem?_append_left hlt, haddr]
    · rw [hev] at hev'
      cases hev'
      exact handle_address hI.sound hlive hw hfound
  · intro id hid
    rcases handle_closed hlive hw id hid with hid | rfl
    · obtain ⟨j, ev', hj, hrun, heq⟩ := hI.closed id hid
      exact ⟨j, ev', htasks ▸ hj, (hready j).mpr (.inl hrun), heq⟩
    · exact ⟨k, ev, htasks ▸ hev, (hready k).mpr (.inr rfl), rfl⟩

/-- A batch comes in, when every task of the last one has been waited for. -/
theorem Inv.report (hI : s.Inv info) {evs : List (EpollEvent conf F)}
    (hpc : s.reactor.pc = .epollWait) (hreports : s.world.Reports evs)
    (hr : Reactor.Inv info
      { s.reactor with first := s.reactor.tasks.length, pc := .emplaceBack evs }) :
    (⟨{ s.reactor with first := s.reactor.tasks.length, pc := .emplaceBack evs }, s.world⟩ :
      Server n conf F).Inv info := by
  have hwaited := hI.reactor.waited
  simp only [Reactor.waitedFor, hpc] at hwaited
  refine ⟨hr, hI.sound, hwaited, ?_, hI.live, hreports.2, hI.recorded, hI.closed⟩
  simpa only [batch, Reactor.ReactorPc.pending, List.drop_length, List.nil_append] using hreports.1

/-- An event of the batch becomes a task. -/
theorem Inv.submit (hI : s.Inv info) {ev : EpollEvent conf F} {evs : List (EpollEvent conf F)}
    {p : Pool n Nat} (hpc : s.reactor.pc = .emplaceBack (ev :: evs))
    (hran : p.ran = s.reactor.pool.ran)
    (hr : Reactor.Inv info
      { s.reactor with pool := p, tasks := s.reactor.tasks ++ [ev], pc := .emplaceBack evs }) :
    (⟨{ s.reactor with pool := p, tasks := s.reactor.tasks ++ [ev], pc := .emplaceBack evs },
      s.world⟩ : Server n conf F).Inv info := by
  have hready : ∀ k, p.Ready k ↔ s.reactor.pool.Ready k := by
    intro k
    simp only [Pool.Ready, hran]
  have hpending := hI.pending
  rw [hpc] at hpending
  refine ⟨hr, hI.sound, fun k hk => (hready k).mpr (hI.earlier k hk), ?_, ?_, ?_, ?_, ?_⟩
  · have hdistinct := hI.distinct
    simp only [batch, hpc, Reactor.ReactorPc.pending] at hdistinct
    simpa only [batch, Reactor.ReactorPc.pending, List.append_assoc, List.singleton_append,
      List.drop_append_of_le_length hI.first_tasks] using hdistinct
  · intro k ev' hev' hk
    have hk := (not_congr (hready k)).mp hk
    by_cases hlt : k < s.reactor.tasks.length
    · exact hI.live k ev' (by rwa [List.getElem?_append_left hlt] at hev') hk
    · rw [List.getElem?_append_right (by omega)] at hev'
      obtain ⟨-, rfl⟩ := List.getElem?_eq_some_iff.mp hev'
      exact hpending _ (by simp [Reactor.ReactorPc.pending])
  · intro ev' hev'
    exact hpending ev' (List.mem_cons_of_mem _ hev')
  · intro k ev' a hev' hk
    have hk := (hready k).mp hk
    have hlt := hI.reactor.submitted.lt_of_ready hk
    exact hI.recorded k ev' a (by rwa [List.getElem?_append_left hlt] at hev') hk
  · intro id hid
    obtain ⟨k, ev', hk, hrun, heq⟩ := hI.closed id hid
    have hlt := hI.reactor.submitted.lt_of_ready hrun
    refine ⟨k, ev', ?_, (hready k).mpr hrun, heq⟩
    rw [List.getElem?_append_left hlt, hk]

theorem step_inv {a : Reactor.Act n (EpollEvent conf F)} (hI : s.Inv info)
    (h : step info s a = some s') : s'.Inv info := by
  obtain ⟨r, hr, hmap⟩ := Option.bind_eq_some_iff.mp h
  obtain ⟨w, hw, rfl⟩ := Option.map_eq_some_iff.mp hmap
  have hinv : r.Inv info := Reactor.step_inv hI.reactor hr
  cases Reactor.step_move hr with
  | @epollWait evs hpc hlen =>
    simp only [after] at hw
    split at hw
    · rename_i hreports
      cases hw
      exact hI.report hpc hreports.1 hinv
    · cases hw
  | emplaceBack hpc hp =>
    cases hw
    exact hI.submit hpc (ran_frame (by simp) hp) hinv
  | @submitter evs p hpc hp =>
    cases hw
    exact hI.frame hinv (by simp [Pool.Ready, ran_frame (by simp) hp]) rfl rfl rfl
  | wake hp =>
    cases hw
    exact hI.frame hinv (by simp [Pool.Ready, ran_frame (by simp) hp]) rfl rfl rfl
  | emplaced hpc | get hpc | rethrow hpc | got hpc =>
    cases hw
    exact hI.frame hinv (fun _ => Iff.rfl) rfl rfl (by rw [hpc]; rfl)
  | write hpc =>
    cases hw
    cases info <;> exact hI.frame hinv (fun _ => Iff.rfl) rfl rfl (by rw [hpc]; rfl)
  | @worker i p hp =>
    simp only [after] at hw
    rcases runs_cases s.reactor.pool i with hnone | ⟨k, hone⟩
    · rw [hnone] at hw
      cases hw
      refine hI.frame hinv ?_ rfl rfl rfl
      intro k
      have hready : p.Ready k ↔ _ := ready_workerStep hp
      simpa [hnone] using hready
    · rw [hone, List.foldlM_cons] at hw
      obtain ⟨w', hw', hnil⟩ := Option.bind_eq_some_iff.mp hw
      cases hnil
      obtain ⟨ev, hev, hhandle⟩ := Option.bind_eq_some_iff.mp hw'
      exact hI.runTask hp hone hev hhandle hinv rfl rfl rfl rfl

theorem run_inv {listener : Nat} {acts : List (Reactor.Act n (EpollEvent conf F))}
    (h : Lts.run (step info) (init n conf F listener) acts = some s) : s.Inv info :=
  Lts.run_invariant (fun _ _ _ hI hu => step_inv hI hu) (init_inv info listener) acts s h

end Steps

/-! ## What holds of every run -/

section Runs

variable {info : Bool} {listener : Nat} {acts : List (Reactor.Act n (EpollEvent conf F))}
  {s : Server n conf F}

theorem run_reactor (h : Lts.run (step info) (init n conf F listener) acts = some s) :
    Lts.run (Reactor.step (handlers conf F info) info) (.init n _) acts = some s.reactor := by
  refine Lts.run_map reactor ?_ h
  intro t a u hu
  obtain ⟨r, hr, hmap⟩ := Option.bind_eq_some_iff.mp hu
  obtain ⟨w, -, rfl⟩ := Option.map_eq_some_iff.mp hmap
  exact hr

/-- A line of the log is one a handler has given to the logger. -/
theorem line_logged (h : Lts.run (step info) (init n conf F listener) acts = some s) {line : Bytes}
    (hline : line ∈ s.reactor.output) :
    ∃ k ev, s.reactor.tasks[k]? = some ev ∧ s.reactor.pool.Ready k ∧ line ∈ ev.event.log info := by
  obtain ⟨lost, hsum, -⟩ := Reactor.log_conserved acts s.reactor (run_reactor h)
  have hmem : line ∈ s.reactor.handed (handlers conf F info) := by
    rw [← hsum]
    simp [Reactor.logged, hline]
  obtain ⟨k, hk, hmess⟩ := Multiset.mem_bind.mp hmem
  simp only [Reactor.messages, Multiset.mem_coe] at hmess
  cases hev : s.reactor.tasks[k]? with
  | none =>
    rw [hev] at hmess
    cases hmess
  | some ev =>
    rw [hev] at hmess
    exact ⟨k, ev, hev, ready_iff.mpr hk, hmess⟩

end Runs

/-- For every run, however its handlers are interleaved: the descriptor of an event whose handler
has not been run still is the connection the event was reported for, and no two of these handlers
have one descriptor. -/
theorem handlers_live (n : Nat) (conf : Conf) (F : Type) (info : Bool) (listener : Nat)
    (acts : List (Reactor.Act n (EpollEvent conf F))) (s : Server n conf F)
    (h : Lts.run (step info) (init n conf F listener) acts = some s) :
    (∀ k ev, s.reactor.tasks[k]? = some ev → ¬ s.reactor.pool.Ready k → s.world.Live ev) ∧
      ∀ j k ev ev', s.reactor.tasks[j]? = some ev → s.reactor.tasks[k]? = some ev' →
        ¬ s.reactor.pool.Ready j → ¬ s.reactor.pool.Ready k → j ≠ k → ev.fd ≠ ev'.fd :=
  have hI := run_inv h
  ⟨hI.live, fun _ _ _ _ hj hk hj' hk' hne => hI.fd_ne hj hk hj' hk' hne⟩

/-- A connection from `127.0.0.1` -/
def aClient : EpollEvent aConf Unit :=
  ⟨3, true, 0, .accepts [.connected 5 ⟨127, 0, 0, 1⟩ true, .wouldBlock]⟩

/-- Its request -/
def aRequest : EpollEvent aConf Unit := ⟨5, true, 0, .reads knownHost⟩

/-- The connection, and its request given to the pool -/
def askedSchedule : List (Reactor.Act 1 (EpollEvent aConf Unit)) :=
  Reactor.round aClient ++ List.replicate 5 (.worker (Fin.last 0)) ++
    .epollWait [aRequest] :: List.replicate 9 .loop

theorem handlers_live_asked :
    ∃ s, Lts.run (step true) (init 1 aConf Unit 3) askedSchedule = some s ∧
      s.world.Live aRequest := by
  obtain ⟨s, hrun, htask⟩ :
      ∃ s, Lts.run (step true) (init 1 aConf Unit 3) askedSchedule = some s ∧
        s.reactor.tasks[1]? = some aRequest := ⟨_, rfl, rfl⟩
  have hready : (Lts.run (step true) (init 1 aConf Unit 3) askedSchedule).map
      (fun s => decide (s.reactor.pool.Ready 1)) = some false := by decide +kernel
  rw [hrun] at hready
  exact ⟨s, hrun, (handlers_live 1 aConf Unit true 3 askedSchedule s hrun).1 1 aRequest htask
    (of_decide_eq_false (Option.some.inj hready))⟩

/-- For every run: a message in the log is the line of a request, behind the address of the client
whose connection it was read from, or that address alone when the service that was asked for cannot
be loaded. -/
theorem record_address (n : Nat) (conf : Conf) (F : Type) (info : Bool) (listener : Nat)
    (acts : List (Reactor.Act n (EpollEvent conf F))) (s : Server n conf F)
    (h : Lts.run (step info) (init n conf F listener) acts = some s) (message : Bytes)
    (hmessage : message ∈ s.reactor.output) :
    ∃ (ev : EpollEvent conf F) (a : Arrival conf F) (par : Parser) (host : Host F) (addr : InAddr),
      ev ∈ s.reactor.tasks ∧ ev.found = .reads a ∧ a.asked = some par ∧ a.host par = some host ∧
      s.world.conns.opened[ev.conn]? = some addr ∧ a.ip = addr.ntoa ∧
      (a.IsLine par message ∨
        (Unloadable a.readiness host par ∧ message = addr.ntoa ++ [byte ' '])) := by
  obtain ⟨k, ev, hev, hready, hlog⟩ := line_logged h hmessage
  cases hfound : ev.found with
  | accepts results =>
    simp only [EpollEvent.event, hfound] at hlog
    cases hlog
  | reads a =>
    obtain ⟨addr, haddr, hip⟩ := (run_inv h).recorded k ev a hev hready hfound
    simp only [EpollEvent.event, hfound, Event.log] at hlog
    split at hlog
    · cases hlog
    · obtain ⟨par, host, hasked, hhost, -, hcases⟩ := Arrival.log_message hlog
      exact ⟨ev, a, par, host, addr, List.mem_of_getElem? hev, hfound, hasked, hhost, haddr, hip,
        hip ▸ hcases⟩

theorem gone_defined : (handleRW aConf (arrival [] noRead_size) []).isSome = true := rfl

/-- The end of the connection -/
def aGone : EpollEvent aConf Unit :=
  ⟨5, true, 0, .reads ⟨arrival [] noRead_size, [], noRead_size, gone_defined, ascii "127.0.0.1",
    asking_ip, ascii "[01/Jan/2024:00:00:00]", asking_logtime, false⟩⟩

/-- A batch for each of the three events -/
def aVisit : List (Reactor.Act 1 (EpollEvent aConf Unit)) :=
  Reactor.round aClient ++ List.replicate 5 (.worker (Fin.last 0)) ++
    Reactor.round aRequest ++ List.replicate 5 (.worker (Fin.last 0)) ++ Reactor.round aGone

/-- How many lines are written, and the connections that are closed -/
def visitOutcome : Option (Nat × List Nat) :=
  (Lts.run (step true) (init 1 aConf Unit 3) aVisit).map fun s =>
    (s.reactor.output.length, s.world.conns.closed)

theorem visit_outcome : visitOutcome = some (1, [0]) := by decide +kernel

theorem record_address_visit :
    ∃ s message, Lts.run (step true) (init 1 aConf Unit 3) aVisit = some s ∧
      message ∈ s.reactor.output ∧ ∃ addr : InAddr,
        addr ∈ s.world.conns.opened ∧ addr.ntoa ++ [byte ' '] <+: message := by
  obtain ⟨s, hrun, heq⟩ := Option.map_eq_some_iff.mp visit_outcome
  obtain ⟨message, houtput⟩ := List.length_eq_one_iff.mp (congrArg Prod.fst heq)
  have hmem : message ∈ s.reactor.output := by
    rw [houtput]
    exact List.mem_singleton_self message
  obtain ⟨ev, a, par, host, addr, -, -, -, -, haddr, hip, hmessage⟩ :=
    record_address 1 aConf Unit true 3 aVisit s hrun message hmem
  refine ⟨s, message, hrun, hmem, addr, List.mem_of_getElem? haddr, ?_⟩
  rcases hmessage with ⟨⟨result, hrecord⟩, -⟩ | ⟨-, hmute⟩
  · rw [hrecord, hip]
    exact ⟨_, List.append_cons .. |>.symm⟩
  · rw [hmute]

/-- For every run: a descriptor in the interest list is the listener or open, with the address of
its client in the map, and every connection so far is open under one descriptor, or closed, once,
and by a handler of its own events. -/
theorem connections_exact (n : Nat) (conf : Conf) (F : Type) (info : Bool) (listener : Nat)
    (acts : List (Reactor.Act n (EpollEvent conf F))) (s : Server n conf F)
    (h : Lts.run (step info) (init n conf F listener) acts = some s) :
    (∀ fd, s.world.registered fd = true → fd = s.world.listener ∨
        ∃ slot, s.world.conns.slots fd = some slot ∧ s.world.fdIpMap fd = some slot.value) ∧
      ∀ id < s.world.conns.opened.length,
        (id ∉ s.world.conns.closed ∧
          ∃! fd, (s.world.conns.slots fd).map Slot.id = some id) ∨
        (s.world.conns.closed.count id = 1 ∧
          (∀ fd, (s.world.conns.slots fd).map Slot.id ≠ some id) ∧
          ∃ (k : Nat) (ev : EpollEvent conf F), s.reactor.tasks[k]? = some ev ∧
            s.reactor.pool.Ready k ∧ ev.conn = id) := by
  have hI := run_inv h
  have hexact := hI.sound.exact
  constructor
  · intro fd hreg
    by_cases hfd : fd = s.world.listener
    · exact .inl hfd
    · obtain ⟨slot, hslot⟩ := Option.ne_none_iff_exists'.mp (hI.sound.registered fd hreg hfd)
      exact .inr ⟨slot, hslot, hI.sound.address fd slot hreg hslot⟩
  · intro id hid
    by_cases hclosed : id ∈ s.world.conns.closed
    · refine .inr ⟨List.count_eq_one_of_mem hexact.once hclosed, ?_, hI.closed id hclosed⟩
      intro fd hslot
      obtain ⟨slot, hslot, hslotid⟩ := Option.map_eq_some_iff.mp hslot
      exact (hexact.gone id hclosed).2 fd slot hslot hslotid
    · obtain ⟨fd, slot, hslot, hslotid⟩ := (hexact.kept id hid).resolve_left hclosed
      refine .inl ⟨hclosed, fd, by simp [hslot, hslotid], ?_⟩
      intro fd' hslot'
      obtain ⟨slot', hslot', hslotid'⟩ := Option.map_eq_some_iff.mp hslot'
      exact hexact.unique fd' fd slot' slot hslot' hslot (hslotid'.trans hslotid.symm)

theorem connections_exact_visit :
    ∃ s, Lts.run (step true) (init 1 aConf Unit 3) aVisit = some s ∧
      s.world.conns.closed.count 0 = 1 ∧ ∃ ev ∈ s.reactor.tasks, ev.conn = 0 := by
  obtain ⟨s, hrun, heq⟩ := Option.map_eq_some_iff.mp visit_outcome
  have hclosed : s.world.conns.closed = [0] := congrArg Prod.snd heq
  have hopened : 0 < s.world.conns.opened.length :=
    ((run_inv hrun).sound.exact.gone 0 (by rw [hclosed]; exact List.mem_singleton_self 0)).1
  rcases (connections_exact 1 aConf Unit true 3 aVisit s hrun).2 0 hopened with
    ⟨hnot, -⟩ | ⟨hcount, -, k, ev, hk, -, hev⟩
  · exact absurd (by rw [hclosed]; exact List.mem_singleton_self 0) hnot
  · exact ⟨s, hrun, hcount, ev, List.mem_of_getElem? hk, hev⟩

end Server

end SimpleWeb
