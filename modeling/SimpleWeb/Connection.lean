import SimpleWeb.Lib.Lts
import SimpleWeb.Http.StreamEnd
import SimpleWeb.HostRouting

/-!
# SimpleWeb.Connection

The `RW` handler of `Gateway.cpp` over all the readiness events of one descriptor.

Nothing is kept between two events: each builds a stream and a parser of its own, and what the
stream has buffered is gone with it. The descriptor stays registered behind the `shutdown`, and
reads still deliver what is queued. So a connection gets one response exactly when no event behind
the shutdown finds another complete head for a host that is known (`oneResponse_iff`).

The response goes out on the stream of the request, so nothing is written behind a body that has
brought the stream to its end.
-/

namespace SimpleWeb

open Http Istream

/-- What the handler does with its descriptor; a `response` is what `serve` writes, if anything. -/
inductive ConnCall where
  | serve
  | response
  | shutdown
  | removeEvent
  | close
  deriving DecidableEq, Repr

/-- A readiness event as the handler finds it: the results of reads that have arrived since the
last one, what its arrays hold, and the hosts as other connections have left them. -/
structure Readiness (F : Type) where
  arrived : List Bytes
  arrived_size : ∀ c ∈ arrived, 1 ≤ c.length ∧ c.length ≤ bufSize
  buffer : Bytes
  buffer_size : buffer.length = bufSize + pbSize
  stack : Stack
  stack_sized : stack.Sized
  name : Bytes
  name_size : name.length = MAXFIELDNAME
  value : Bytes
  value_size : value.length = MAXFIELDVALUE
  sys : System F
  defaultHost : Host F
  hosts : Bytes → Host F

section Handler

variable {F : Type}

/-- The host of a route. -/
def Readiness.host (e : Readiness F) (conf : Conf) : Route → Option (Host F)
  | .defaultHost => some { e.defaultHost with info := conf.defaulthost }
  | .host info => some { e.hosts info.servername with info := info }
  | .notFound => none

/-- `write(conn, res_ser)` of a head and a string: a stream that has failed writes nothing. -/
def written (conn : Istream) : List ConnCall := if conn.good then [.response] else []

/-- `serve` for a dynamic request: it returns without a response when `dlopen` fails. -/
def serveDynamicOn (e : Readiness F) (h : Host F) (par : Parser) (conn : Istream) :
    Option (List ConnCall × Istream) :=
  if serveTarget par ∉ h.getservices ∧ serveTarget par ∉ h.postservices ∧
      (e.sys.dlopen (filepath h.info par)).isNone then
    some ([], conn)
  else (readBodyFrom e.name e.value conn par []).map fun (_, _, conn) => (written conn, conn)

/-- `host::serve` on a connection. A file is written past the state of the stream. -/
def serveOn (e : Readiness F) (h : Host F) (par : Parser) (conn : Istream) :
    Option (List ConnCall × Istream) :=
  if e.sys.access (filepath h.info par) = 0 then
    if isDynamic par then serveDynamicOn e h par conn
    else (serveStatic e.sys h (filepath h.info par)).2.map fun _ => ([.response], conn)
  else some (written conn, conn)

/-- The handler behind `read_header`. -/
def handleHead (conf : Conf) (e : Readiness F) (par : Parser) (conn : Istream) :
    Option (List ConnCall × Istream) :=
  if !par.headerDone then some ([.shutdown], conn)
  else match e.host conf (route conf (hostName par.message.fields)) with
    | some h =>
      (serveOn e h par conn).map fun (calls, conn) => (.serve :: calls ++ [.shutdown], conn)
    | none => some ([.shutdown], conn)

/-- The handler, over the reads its stream can still do: its calls, and the reads it leaves for
the next event. None when it overruns an array or uses a dead iterator. -/
def handleRW (conf : Conf) (e : Readiness F) (chunks : List Bytes) :
    Option (List ConnCall × Option (List Bytes)) :=
  let (c, conn) := (Istream.init e.buffer chunks).peek
  if c = EOF then some ([.removeEvent, .close], none)
  else match readHeaderFrom e.stack conn .init with
    | none => none
    | some (_, par, conn) =>
      (handleHead conf e par conn).map fun (calls, conn) => (calls, some conn.chunks)

end Handler

/-- A descriptor: what was done with it, and the reads left on it until it is closed. -/
structure Connection where
  log : List ConnCall
  unread : Option (List Bytes)
  deriving DecidableEq

namespace Connection

def accepted : Connection := ⟨[], some []⟩

/-- The event is handled with the reads left and those that have arrived. -/
def step {F : Type} (conf : Conf) (s : Connection) (e : Readiness F) : Option Connection :=
  s.unread.bind fun chunks =>
    (handleRW conf e (chunks ++ e.arrived)).map fun (calls, unread) => ⟨s.log ++ calls, unread⟩

end Connection

/-- One response at most, and none behind a shutdown. -/
structure OneResponse (log : List ConnCall) : Prop where
  served : log.count .serve ≤ 1
  silent : log.Pairwise fun a b => a = .shutdown → b ≠ .response

/-- The bytes a stream over these reads gives. -/
def given (chunks : List Bytes) : Bytes := (chunks.takeWhile isClean).flatten

/-- The reads begin with a complete head, for a host that is known, and go on with `rest`. -/
structure Asks (conf : Conf) (chunks : List Bytes) (h : RawHead) (rest : Bytes) : Prop where
  fits : h.Fits
  begins : given chunks = h.bytes ++ rest
  known : conf.Knows (hostName h.parser.message.fields)

/-- The request is for a service that is not loaded, and cannot be. -/
def Unloadable {F : Type} (e : Readiness F) (h : Host F) (par : Parser) : Prop :=
  e.sys.access (filepath h.info par) = 0 ∧ isDynamic par = true ∧
    serveTarget par ∉ h.getservices ∧ serveTarget par ∉ h.postservices ∧
    (e.sys.dlopen (filepath h.info par)).isNone = true

/-- A request that `serve` writes nothing for: its service cannot be loaded, or its body is read
to the end of the stream. -/
def Silent {F : Type} (e : Readiness F) (h : Host F) (par : Parser) (rest : Bytes) : Prop :=
  Unloadable e h par ∨
    (e.sys.access (filepath h.info par) = 0 ∧ isDynamic par = true ∧ VectorBody.OpenBody par rest)

/-- Behind the shutdown no event finds another head for a known host; before anything was served,
one that `serve` writes nothing for does no harm. -/
def Fresh {F : Type} (conf : Conf) (s : Connection) (e : Readiness F) : Prop :=
  .shutdown ∈ s.log → ∀ chunks ∈ s.unread, ∀ h rest, Asks conf (chunks ++ e.arrived) h rest →
    .serve ∉ s.log ∧ ∀ host ∈ e.host conf (route conf (hostName h.parser.message.fields)),
      Silent e host h.parser rest

/-! ## One event -/

section Event

variable {F : Type} {e : Readiness F} {conf : Conf} {chunks tail : List Bytes} {conn : Istream}
  {bytes : Bytes}

/-- What `serve` writes behind a body it has read -/
theorem written_body {par : Parser} {n : Int} {body : List ReqArg} {conn' : Istream}
    (hstop : Stops tail) (hy : Yields chunks tail conn bytes) (hgood : conn.good = true)
    (h : readBodyFrom e.name e.value conn par [] = some (n, body, conn')) :
    written conn' =
      if VectorBody.bodyStarves e.name e.value bytes par then [] else [.response] := by
  rw [written, readBodyFrom_good hstop hy hgood h]
  cases VectorBody.bodyStarves e.name e.value bytes par <;> rfl

/-- The dynamic branch writes one response, unless the request is silent. -/
theorem serveDynamicOn_calls {host : Host F} {par : Parser} {calls : List ConnCall}
    {conn' : Istream} (hstop : Stops tail) (hy : Yields chunks tail conn bytes)
    (hgood : conn.good = true) (hacc : e.sys.access (filepath host.info par) = 0)
    (hdyn : isDynamic par = true) (h : serveDynamicOn e host par conn = some (calls, conn')) :
    conn'.chunks <:+ chunks ∧
      ((Silent e host par bytes ∧ calls = []) ∨
        (¬ Silent e host par bytes ∧ calls = [.response])) := by
  unfold serveDynamicOn at h
  split at h
  · rename_i hload
    cases h
    exact ⟨hy.suffix, .inl ⟨.inl ⟨hacc, hdyn, hload⟩, rfl⟩⟩
  · rename_i hload
    obtain ⟨⟨n, body, is⟩, hread, heq⟩ := Option.map_eq_some_iff.mp h
    cases heq
    obtain ⟨rest, -, hrest⟩ :=
      sameRead_some (readBodyFrom_sim hstop hy e.name e.value par []) hread
    refine ⟨hrest.suffix, ?_⟩
    have hstarves : VectorBody.bodyStarves e.name e.value bytes par = true ↔
        VectorBody.OpenBody par bytes := VectorBody.bodyStarves_iff e.name_size e.value_size
    rw [written_body hstop hy hgood hread]
    split
    · rename_i hend
      exact .inl ⟨.inr ⟨hacc, hdyn, hstarves.mp hend⟩, rfl⟩
    · rename_i hend
      refine .inr ⟨?_, rfl⟩
      rintro (hu | ⟨-, -, hopen⟩)
      · exact hload hu.2.2
      · exact hend (hstarves.mpr hopen)

/-- `serve` writes one response, unless the request is silent. -/
theorem serveOn_calls {host : Host F} {par : Parser} {calls : List ConnCall} {conn' : Istream}
    (hstop : Stops tail) (hy : Yields chunks tail conn bytes) (hgood : conn.good = true)
    (h : serveOn e host par conn = some (calls, conn')) :
    conn'.chunks <:+ chunks ∧
      ((Silent e host par bytes ∧ calls = []) ∨
        (¬ Silent e host par bytes ∧ calls = [.response])) := by
  have hwritten : written conn = [.response] := if_pos hgood
  unfold serveOn at h
  split at h
  · rename_i hacc
    split at h
    · rename_i hdyn
      exact serveDynamicOn_calls hstop hy hgood hacc hdyn h
    · rename_i hdyn
      obtain ⟨-, -, heq⟩ := Option.map_eq_some_iff.mp h
      cases heq
      refine ⟨hy.suffix, .inr ⟨?_, rfl⟩⟩
      rintro (hu | hs)
      · exact hdyn hu.2.1
      · exact hdyn hs.2.1
  · rename_i hacc
    cases h
    refine ⟨hy.suffix, .inr ⟨?_, hwritten⟩⟩
    rintro (hu | hs)
    · exact hacc hu.1
    · exact hacc hs.1

theorem host_eq_some_iff (e : Readiness F) (conf : Conf) (name : Bytes) :
    (∃ host, e.host conf (route conf name) = some host) ↔ conf.Knows name := by
  rcases route_cases conf name with ⟨hname, hr⟩ | ⟨info, -, hknown, hr⟩ | ⟨hunknown, hr⟩
  · rw [hr]
    exact ⟨fun _ => .inl hname, fun _ => ⟨_, rfl⟩⟩
  · rw [hr]
    exact ⟨fun _ => hknown, fun _ => ⟨_, rfl⟩⟩
  · rw [hr]
    exact ⟨fun ⟨_, h⟩ => (by cases h), fun h => absurd h hunknown⟩

/-- The head a stream gives is the one its parser is of. -/
theorem Asks.readHeader {h : RawHead} {rest : Bytes} (ha : Asks conf chunks h rest) {st : Stack}
    (hst : st.Sized) : readHeader st (given chunks) .init = some (.ok, h.parser, rest) := by
  rw [ha.begins]
  exact readHeader_raw hst ha.fits rest

/-- What one event does to a descriptor. -/
inductive Handled (conf : Conf) (e : Readiness F) (chunks : List Bytes) : List ConnCall → Prop where
  | close : (∀ h rest, ¬ Asks conf chunks h rest) → Handled conf e chunks [.removeEvent, .close]
  | refuse : (∀ h rest, ¬ Asks conf chunks h rest) → Handled conf e chunks [.shutdown]
  | mute {h : RawHead} {rest : Bytes} {host : Host F} : Asks conf chunks h rest →
      e.host conf (route conf (hostName h.parser.message.fields)) = some host →
      Silent e host h.parser rest → Handled conf e chunks [.serve, .shutdown]
  | answer {h : RawHead} {rest : Bytes} {host : Host F} : Asks conf chunks h rest →
      e.host conf (route conf (hostName h.parser.message.fields)) = some host →
      ¬ Silent e host h.parser rest → Handled conf e chunks [.serve, .response, .shutdown]

theorem Http.RawHead.bytes_ne (h : RawHead) : h.bytes ≠ [] := by
  intro hnil
  simp only [RawHead.bytes, List.append_eq_nil_iff] at hnil
  obtain ⟨-, -, -, heol⟩ := hnil
  generalize h.eol = eol at heol
  cases eol with
  | lf => cases heol
  | crlf => cases heol

/-- The handler behind a head it has read from what it is given. -/
theorem handleHead_handled {par : Parser} {ec : ParserEc} (hstop : Stops tail)
    (hy : Yields chunks tail conn bytes) (hgood : par.headerDone = true → conn.good = true)
    (hread : readHeader e.stack (given chunks) .init = some (ec, par, bytes))
    {calls : List ConnCall} {conn' : Istream}
    (h : handleHead conf e par conn = some (calls, conn')) :
    Handled conf e chunks calls ∧ conn'.chunks <:+ chunks := by
  have hasks : ∀ head rest, Asks conf chunks head rest → par = head.parser := by
    intro head rest ha
    have hread' := ha.readHeader e.stack_sized
    rw [hread] at hread'
    cases hread'
    rfl
  unfold handleHead at h
  split at h
  · rename_i hdone
    cases h
    refine ⟨.refuse ?_, hy.suffix⟩
    intro head rest ha
    rw [hasks head rest ha] at hdone
    cases hdone
  · rename_i hdone
    have hdone : par.headerDone = true := by simpa using hdone
    obtain ⟨-, head, hfits, hbegins, rfl⟩ :=
      readHeader_exact e.stack_sized hread hdone
    split at h
    · rename_i host hhost
      have hknown := (host_eq_some_iff e conf _).mp ⟨host, hhost⟩
      have ha : Asks conf chunks head bytes := ⟨hfits, hbegins, hknown⟩
      obtain ⟨⟨inner, is⟩, hserve, heq⟩ := Option.map_eq_some_iff.mp h
      cases heq
      obtain ⟨hsuffix, hcalls⟩ := serveOn_calls hstop hy (hgood hdone) hserve
      refine ⟨?_, hsuffix⟩
      rcases hcalls with ⟨hu, rfl⟩ | ⟨hu, rfl⟩
      · exact .mute ha hhost hu
      · exact .answer ha hhost hu
    · rename_i hnone
      cases h
      refine ⟨.refuse ?_, hy.suffix⟩
      intro head' rest ha
      obtain ⟨host, hhost⟩ := (host_eq_some_iff e conf _).mpr ha.known
      rw [← hasks head' rest ha, hnone] at hhost
      cases hhost

/-- The peek finds the end of the file where nothing is given, and else leaves all that is given
to be read. -/
theorem peek_yields (hchunks : ∀ c ∈ chunks, 1 ≤ c.length ∧ c.length ≤ bufSize) {buffer : Bytes}
    (hsize : buffer.length = bufSize + pbSize) :
    ((Istream.init buffer chunks).peek.1 = EOF ∧ given chunks = []) ∨
      ((Istream.init buffer chunks).peek.1 ≠ EOF ∧
        (Istream.init buffer chunks).peek.2.good = true ∧
        Yields chunks (chunks.dropWhile isClean) (Istream.init buffer chunks).peek.2
          (given chunks)) := by
  have hinit : Delivers (Istream.init buffer chunks) (chunks.dropWhile isClean) (given chunks) :=
    init_delivers hsize hchunks
  cases hgiven : given chunks with
  | nil =>
    rw [hgiven] at hinit
    exact .inl ⟨(hinit.stop (dropWhile_stops hchunks) .peek).1, rfl⟩
  | cons b bs =>
    rw [hgiven] at hinit
    obtain ⟨hseen, hd⟩ := hinit.peek
    refine .inr ⟨?_, hd.good, .inl hd, peek_chunks _⟩
    intro heof
    rw [heof] at hseen
    cases hseen

theorem handleRW_handled (hchunks : ∀ c ∈ chunks, 1 ≤ c.length ∧ c.length ≤ bufSize)
    {calls : List ConnCall} {unread : Option (List Bytes)}
    (h : handleRW conf e chunks = some (calls, unread)) :
    Handled conf e chunks calls ∧ ∀ left ∈ unread, left <:+ chunks := by
  have hstop := dropWhile_stops hchunks
  unfold handleRW at h
  rcases peek_yields hchunks e.buffer_size with ⟨heof, hgiven⟩ | ⟨hpeek, hgood, hy⟩
  · simp only [heof, if_true, Option.some.injEq, Prod.mk.injEq] at h
    obtain ⟨rfl, rfl⟩ := h
    have hnone : ∀ head rest, ¬ Asks conf chunks head rest := by
      intro head rest ha
      have hrest := ha.begins
      rw [hgiven] at hrest
      exact head.bytes_ne (List.append_eq_nil_iff.mp hrest.symm).1
    exact ⟨.close hnone, by simp⟩
  · simp only [hpeek, if_false] at h
    cases hfrom : readHeaderFrom e.stack (Istream.init e.buffer chunks).peek.2 .init with
    | none =>
      rw [hfrom] at h
      cases h
    | some r =>
      obtain ⟨ec, par, conn⟩ := r
      rw [hfrom] at h
      obtain ⟨rest, hread, hrest⟩ := sameRead_some (readHeaderFrom_sim hstop hy _ _) hfrom
      obtain ⟨⟨calls', is⟩, hhead, heq⟩ := Option.map_eq_some_iff.mp h
      cases heq
      obtain ⟨hhandled, hsuffix⟩ := handleHead_handled hstop hrest
        (readHeaderFrom_good hstop hy hgood hfrom) hread hhead
      exact ⟨hhandled, by simpa using hsuffix⟩

end Event

/-! ## Runs -/

namespace Connection

/-- A connection that was served is shut down, and its reads are as `read` delivers them. -/
structure Inv (s : Connection) : Prop where
  shut : .serve ∈ s.log → .shutdown ∈ s.log
  sizes : ∀ chunks ∈ s.unread, ∀ c ∈ chunks, 1 ≤ c.length ∧ c.length ≤ bufSize

theorem accepted_inv : accepted.Inv := ⟨by simp [accepted], by simp [accepted]⟩

variable {F : Type} {conf : Conf} {s u : Connection} {e : Readiness F}

theorem step_cases (hs : s.Inv) (h : step conf s e = some u) :
    ∃ chunks calls, s.unread = some chunks ∧ Handled conf e (chunks ++ e.arrived) calls ∧
      u.log = s.log ++ calls ∧ ∀ left ∈ u.unread, left <:+ chunks ++ e.arrived := by
  obtain ⟨chunks, hunread, hmap⟩ := Option.bind_eq_some_iff.mp h
  obtain ⟨⟨calls, unread⟩, hhandle, rfl⟩ := Option.map_eq_some_iff.mp hmap
  have hsizes : ∀ c ∈ chunks ++ e.arrived, 1 ≤ c.length ∧ c.length ≤ bufSize := by
    intro c hc
    rcases List.mem_append.mp hc with hc | hc
    · exact hs.sizes chunks hunread c hc
    · exact e.arrived_size c hc
  obtain ⟨hhandled, hleft⟩ := handleRW_handled hsizes hhandle
  exact ⟨chunks, calls, hunread, hhandled, rfl, hleft⟩

theorem step_inv (hs : s.Inv) (h : step conf s e = some u) : u.Inv := by
  obtain ⟨chunks, calls, hunread, hhandled, hlog, hleft⟩ := step_cases hs h
  refine ⟨?_, ?_⟩
  · rw [hlog]
    have hshut := hs.shut
    cases hhandled with
    | close => simpa using hshut
    | refuse => simp
    | mute => simp
    | answer => simp
  · intro left hl c hc
    rcases List.mem_append.mp ((hleft left hl).subset hc) with hc | hc
    · exact hs.sizes chunks hunread c hc
    · exact e.arrived_size c hc

theorem oneResponse_append_iff {log calls : List ConnCall} (h : OneResponse log) :
    OneResponse (log ++ calls) ↔ log.count .serve + calls.count .serve ≤ 1 ∧
      (calls.Pairwise fun a b => a = .shutdown → b ≠ .response) ∧
      (.shutdown ∈ log → .response ∉ calls) := by
  constructor
  · rintro ⟨hserved, hsilent⟩
    rw [List.count_append] at hserved
    rw [List.pairwise_append] at hsilent
    obtain ⟨-, hcalls, hcross⟩ := hsilent
    exact ⟨hserved, hcalls, fun hshut hresp => hcross _ hshut _ hresp rfl rfl⟩
  · rintro ⟨hserved, hcalls, hcross⟩
    refine ⟨by rwa [List.count_append], ?_⟩
    rw [List.pairwise_append]
    refine ⟨h.silent, hcalls, ?_⟩
    rintro a ha b hb rfl rfl
    exact hcross ha hb

/-- Reads begin with one head only. -/
theorem asks_unique {st : Stack} (hst : st.Sized) {chunks : List Bytes} {h h' : RawHead}
    {rest rest' : Bytes} (ha : Asks conf chunks h rest) (ha' : Asks conf chunks h' rest') :
    h.parser = h'.parser ∧ rest = rest' := by
  have hread := ha.readHeader hst
  rw [ha'.readHeader hst, Option.some.injEq, Prod.mk.injEq, Prod.mk.injEq] at hread
  exact ⟨hread.2.1.symm, hread.2.2.symm⟩

theorem fresh_iff_of_asks {chunks : List Bytes} {h : RawHead} {rest : Bytes} {host : Host F}
    (hunread : s.unread = some chunks) (ha : Asks conf (chunks ++ e.arrived) h rest)
    (hhost : e.host conf (route conf (hostName h.parser.message.fields)) = some host) :
    Fresh conf s e ↔ (.shutdown ∈ s.log → .serve ∉ s.log ∧ Silent e host h.parser rest) := by
  constructor
  · intro hfresh hshut
    obtain ⟨hserve, hsilent⟩ := hfresh hshut chunks hunread h rest ha
    exact ⟨hserve, hsilent host hhost⟩
  · intro hcond hshut chunks' hunread' h' rest' ha'
    rw [hunread] at hunread'
    cases hunread'
    obtain ⟨hserve, hsilent⟩ := hcond hshut
    refine ⟨hserve, ?_⟩
    intro host' hhost'
    obtain ⟨hpar, hrest⟩ := asks_unique e.stack_sized ha' ha
    rw [hpar, hhost] at hhost'
    cases hhost'
    rw [hpar, hrest]
    exact hsilent

/-- One event keeps the connection to one response exactly when it is fresh. -/
theorem step_oneResponse_iff (hs : s.Inv) (hone : OneResponse s.log) (h : step conf s e = some u) :
    OneResponse u.log ↔ Fresh conf s e := by
  obtain ⟨chunks, calls, hunread, hhandled, hlog, -⟩ := step_cases hs h
  have hserved := hone.served
  have hshut := hs.shut
  have hfirst : s.log.count .serve = 0 ↔ .serve ∉ s.log := List.count_eq_zero
  have hnone : (∀ h rest, ¬ Asks conf (chunks ++ e.arrived) h rest) → Fresh conf s e := by
    intro hno _ chunks' hunread' h rest ha
    rw [hunread] at hunread'
    cases hunread'
    exact absurd ha (hno h rest)
  rw [hlog, oneResponse_append_iff hone]
  cases hhandled with
  | close hno => simpa [hserved] using hnone hno
  | refuse hno => simpa [hserved] using hnone hno
  | mute ha hhost hu =>
    rw [fresh_iff_of_asks hunread ha hhost]
    have hmute : (ConnCall.serve ∉ s.log ↔ (.shutdown ∈ s.log → .serve ∉ s.log)) :=
      ⟨fun h _ => h, fun h hmem => h (hshut hmem) hmem⟩
    simpa [hu, hfirst] using hmute
  | answer ha hhost hu =>
    rw [fresh_iff_of_asks hunread ha hhost]
    have hsilent : (.serve ∉ s.log ∧ .shutdown ∉ s.log ↔ ConnCall.shutdown ∉ s.log) :=
      ⟨fun h => h.2, fun h => ⟨fun hmem => h (hshut hmem), h⟩⟩
    simpa [hu, hfirst] using hsilent

end Connection

/-- For every configuration and every sequence of readiness events: the connection gets one
response at most, and none behind its shutdown, exactly when every event is fresh. -/
theorem oneResponse_iff {F : Type} (conf : Conf) (events : List (Readiness F)) :
    (∀ pre s, pre <+: events → Lts.run (Connection.step conf) .accepted pre = some s →
        OneResponse s.log) ↔
      Lts.Along (Connection.step conf) (Fresh conf) .accepted events := by
  have hinv : ∀ pre s, Lts.run (Connection.step conf) .accepted pre = some s → s.Inv :=
    fun pre s hs => Lts.run_invariant (fun _ (_ : Readiness F) _ hI h => Connection.step_inv hI h)
      Connection.accepted_inv pre s hs
  constructor
  · intro hall pre e s u hpre hs hu
    have hone := hall pre s ((List.prefix_append _ _).trans hpre) hs
    have hone' := hall (pre ++ [e]) u hpre (Lts.run_concat_eq_some.mpr ⟨s, hs, hu⟩)
    exact (Connection.step_oneResponse_iff (hinv pre s hs) hone hu).mp hone'
  · intro halong pre s hpre hs
    have hkept : ∀ t (e : Readiness F) u, (Connection.Inv t ∧ OneResponse t.log) → Fresh conf t e →
        Connection.step conf t e = some u → Connection.Inv u ∧ OneResponse u.log := by
      rintro t e u ⟨hI, hone⟩ hfresh hu
      exact ⟨Connection.step_inv hI hu, (Connection.step_oneResponse_iff hI hone hu).mpr hfresh⟩
    exact ((halong.of_prefix hpre).invariant hkept
      ⟨Connection.accepted_inv, by simp [Connection.accepted], .nil⟩ pre s hs).2

/-! ## Two requests on one connection -/

theorem hostHead_size :
    ∀ c ∈ [hostHead.bytes, hostHead.bytes], 1 ≤ c.length ∧ c.length ≤ bufSize := by
  decide +kernel

theorem noRead_size : ∀ c ∈ ([] : List Bytes), 1 ≤ c.length ∧ c.length ≤ bufSize := by simp

/-- `access` gives `ENOENT`. -/
def emptySystem : System Unit := ⟨fun _ => 2, fun _ => none, fun _ => ()⟩

/-- An event on a server without files. -/
def arrival (chunks : List Bytes) (h : ∀ c ∈ chunks, 1 ≤ c.length ∧ c.length ≤ bufSize) :
    Readiness Unit :=
  ⟨chunks, h, List.replicate (bufSize + pbSize) 0, List.length_replicate, .zero, Stack.zero_sized,
    List.replicate MAXFIELDNAME 0, List.length_replicate, List.replicate MAXFIELDVALUE 0,
    List.length_replicate, emptySystem, dotHost, fun _ => dotHost⟩

/-- A request that arrives behind the first read is served by the event of the shutdown. -/
theorem oneResponse_two :
    Lts.run (Connection.step aConf) .accepted
        [arrival [hostHead.bytes, hostHead.bytes] hostHead_size, arrival [] noRead_size] =
      some ⟨[.serve, .response, .shutdown, .serve, .response, .shutdown], some []⟩ ∧
    ¬ OneResponse [.serve, .response, .shutdown, .serve, .response, .shutdown] := by
  refine ⟨by decide +kernel, ?_⟩
  intro h
  exact absurd h.served (by decide)

end SimpleWeb
