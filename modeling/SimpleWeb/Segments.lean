import SimpleWeb.Connection

/-!
# SimpleWeb.Segments

The `RW` handler against the bytes it is given, and over all the events of a connection.

What the handler does is a function of these bytes (`handleBytes`): where `read` has cut them makes
no difference (`handleRW_segments`). What it leaves does depend on the cut, as the stream takes
every read it has done with it; but an event that does not close its connection takes one read at
least. So there are no more events than reads, and one that closes (`connection_ends`).
-/

namespace SimpleWeb

open Http Istream

section Bytes

variable {F : Type}

/-- `host::serve` behind a head, over the bytes that follow it. A body that is read to their end
leaves a stream on which nothing is written. -/
def serveBytes (e : Readiness F) (h : Host F) (par : Parser) (rest : Bytes) :
    Option (List ConnCall) :=
  if e.sys.access (filepath h.info par) = 0 then
    if isDynamic par then
      if serveTarget par ∉ h.getservices ∧ serveTarget par ∉ h.postservices ∧
          (e.sys.dlopen (filepath h.info par)).isNone then
        some []
      else (readBody (VectorBody.read e.name e.value) rest par []).map fun _ =>
        if VectorBody.bodyStarves e.name e.value rest par then [] else [.response]
    else (serveStatic e.sys h (filepath h.info par)).2.map fun _ => [.response]
  else some [.response]

/-- The handler over bytes that are all there -/
def handleBytes (conf : Conf) (e : Readiness F) (bytes : Bytes) : Option (List ConnCall) :=
  if bytes = [] then some [.removeEvent, .close]
  else match readHeader e.stack bytes .init with
    | none => none
    | some (_, par, rest) =>
      if !par.headerDone then some [.shutdown]
      else match e.host conf (route conf (hostName par.message.fields)) with
        | some h => (serveBytes e h par rest).map fun calls => .serve :: calls ++ [.shutdown]
        | none => some [.shutdown]

variable {e : Readiness F} {conf : Conf} {chunks tail : List Bytes} {conn : Istream}
  {rest : Bytes} {par : Parser}

/-- Results that agree, or are both none, of a reader that takes reads from the end of `chunks` -/
structure SameCalls (chunks : List Bytes) (o : Option (List ConnCall × Istream))
    (o' : Option (List ConnCall)) : Prop where
  calls : o.map Prod.fst = o'
  left : ∀ r ∈ o, r.2.chunks <:+ chunks

theorem serveDynamicOn_bytes (hstop : Stops tail) (hy : Yields chunks tail conn rest)
    (hgood : conn.good = true) (h : Host F) (hacc : e.sys.access (filepath h.info par) = 0)
    (hdyn : isDynamic par = true) :
    SameCalls chunks (serveDynamicOn e h par conn) (serveBytes e h par rest) := by
  unfold serveDynamicOn serveBytes
  rw [if_pos hacc, if_pos hdyn]
  split
  · exact ⟨rfl, by rintro r ⟨⟩; exact hy.suffix⟩
  · have hsim := readBodyFrom_sim hstop hy e.name e.value par []
    generalize hfrom : readBodyFrom e.name e.value conn par [] = r at hsim
    generalize readBody (VectorBody.read e.name e.value) rest par [] = r' at hsim
    cases hsim with
    | none => exact ⟨rfl, nofun⟩
    | some hrel =>
      refine ⟨?_, by rintro r ⟨⟩; exact hrel.2.2.suffix⟩
      exact congrArg some (written_body hstop hy hgood hfrom)

theorem serveOn_bytes (e : Readiness F) (h : Host F) (par : Parser) (hstop : Stops tail)
    (hy : Yields chunks tail conn rest) (hgood : conn.good = true) :
    SameCalls chunks (serveOn e h par conn) (serveBytes e h par rest) := by
  unfold serveOn
  split
  · rename_i hacc
    split
    · rename_i hdyn
      exact serveDynamicOn_bytes hstop hy hgood h hacc hdyn
    · rename_i hdyn
      rw [serveBytes, if_pos hacc, if_neg hdyn]
      refine ⟨by simp [Function.comp_def], ?_⟩
      intro r hr
      obtain ⟨_, -, rfl⟩ := Option.map_eq_some_iff.mp hr
      exact hy.suffix
  · rename_i hacc
    rw [serveBytes, if_neg hacc, written, if_pos hgood]
    exact ⟨rfl, by rintro r ⟨⟩; exact hy.suffix⟩

theorem handleHead_bytes (conf : Conf) (e : Readiness F) (par : Parser) (hstop : Stops tail)
    (hy : Yields chunks tail conn rest) (hgood : par.headerDone = true → conn.good = true) :
    SameCalls chunks (handleHead conf e par conn)
      (if !par.headerDone then some [.shutdown]
      else match e.host conf (route conf (hostName par.message.fields)) with
        | some h => (serveBytes e h par rest).map fun calls => .serve :: calls ++ [.shutdown]
        | none => some [.shutdown]) := by
  unfold handleHead
  split
  · exact ⟨rfl, by rintro r ⟨⟩; exact hy.suffix⟩
  · rename_i hdone
    cases e.host conf (route conf (hostName par.message.fields)) with
    | none => exact ⟨rfl, by rintro r ⟨⟩; exact hy.suffix⟩
    | some h =>
      obtain ⟨hcalls, hleft⟩ := serveOn_bytes e h par hstop hy (hgood (by simpa using hdone))
      refine ⟨by simp [← hcalls, Function.comp_def], ?_⟩
      intro r hr
      obtain ⟨r', hr', rfl⟩ := Option.map_eq_some_iff.mp hr
      exact hleft r' hr'

/-- The end of the file is what the first look finds exactly when nothing is given. -/
theorem peek_eof_iff (hchunks : ∀ c ∈ chunks, 1 ≤ c.length ∧ c.length ≤ bufSize) (e : Readiness F) :
    (Istream.init e.buffer chunks).peek.1 = EOF ↔ given chunks = [] := by
  constructor
  · intro heof
    rcases peek_yields hchunks e.buffer_size with ⟨-, hgiven⟩ | ⟨hpeek, -⟩
    · exact hgiven
    · exact absurd heof hpeek
  · intro hgiven
    have hinit : Delivers (Istream.init e.buffer chunks) (chunks.dropWhile isClean)
        (given chunks) := init_delivers e.buffer_size hchunks
    rw [hgiven] at hinit
    exact (hinit.stop (dropWhile_stops hchunks) .peek).1

/-- The first look takes the first read. -/
theorem peek_tail (buffer : Bytes) (chunks : List Bytes) :
    (Istream.init buffer chunks).peek.2.chunks = chunks.tail := by
  have hpos : ¬ (Istream.init buffer chunks).buf.gptr < (Istream.init buffer chunks).buf.egptr :=
    Nat.lt_irrefl _
  have hgood : (Istream.init buffer chunks).good = true := rfl
  rw [Istream.peek, if_pos hgood, setEof_chunks, sgetc, if_neg hpos, underflow, if_neg hpos]
  cases chunks <;> rfl

/-- The handler makes of a stream what it makes of the bytes that the stream gives, and takes one
read at least unless it closes its descriptor. -/
theorem handleRW_bytes (e : Readiness F) (conf : Conf)
    (hchunks : ∀ c ∈ chunks, 1 ≤ c.length ∧ c.length ≤ bufSize) :
    (handleRW conf e chunks).map Prod.fst = handleBytes conf e (given chunks) ∧
      ∀ r ∈ handleRW conf e chunks, (given chunks = [] ∧ r = ([.removeEvent, .close], none)) ∨
        ∃ left, r.2 = some left ∧ left <:+ chunks.tail ∧ given chunks ≠ [] := by
  have hstop := dropWhile_stops hchunks
  have heof := peek_eof_iff hchunks e
  unfold handleRW handleBytes
  by_cases hgiven : given chunks = []
  · simp only [heof.mpr hgiven, hgiven, if_true, Option.map_some]
    refine ⟨trivial, ?_⟩
    rintro r ⟨⟩
    exact .inl ⟨trivial, rfl⟩
  · have hpeek : (Istream.init e.buffer chunks).peek.1 ≠ EOF := fun h => hgiven (heof.mp h)
    rcases peek_yields hchunks e.buffer_size with ⟨h, -⟩ | ⟨-, hgood, hy⟩
    · exact absurd h hpeek
    · have hy' : Yields chunks.tail (chunks.dropWhile isClean)
          (Istream.init e.buffer chunks).peek.2 (given chunks) :=
        ⟨hy.delivers, by rw [peek_tail]⟩
      simp only [hpeek, if_false, if_neg hgiven]
      have hsim := readHeaderFrom_sim hstop hy' e.stack .init
      generalize hfrom : readHeaderFrom e.stack (Istream.init e.buffer chunks).peek.2 .init = r
        at hsim
      generalize readHeader e.stack (given chunks) .init = r' at hsim
      cases hsim with
      | none => exact ⟨rfl, nofun⟩
      | @some r r' hrel =>
        obtain ⟨ec, par, is⟩ := r
        obtain ⟨ec', par', rest⟩ := r'
        obtain ⟨rfl, rfl, hrest⟩ := hrel
        obtain ⟨hcalls, hleft⟩ := handleHead_bytes conf e par hstop hrest
          (readHeaderFrom_good hstop hy hgood hfrom)
        refine ⟨(Option.map_map ..).trans hcalls, ?_⟩
        intro r hr
        obtain ⟨r', hr', rfl⟩ := Option.map_eq_some_iff.mp hr
        exact .inr ⟨_, rfl, hleft r' hr', hgiven⟩

end Bytes

/-- For every event, every way the bytes of the connection have been read in and every state of the
hosts: the handler does what it would do with the bytes it is given in one piece, up to a read that
begins with 0xFF; so reads that give the same bytes are handled alike. -/
theorem handleRW_segments {F : Type} (conf : Conf) (e : Readiness F) (chunks chunks' : List Bytes)
    (hsizes : ∀ c ∈ chunks, 1 ≤ c.length ∧ c.length ≤ bufSize)
    (hsizes' : ∀ c ∈ chunks', 1 ≤ c.length ∧ c.length ≤ bufSize)
    (hgiven : given chunks = given chunks') :
    (handleRW conf e chunks).map Prod.fst = handleBytes conf e (given chunks') ∧
      (handleRW conf e chunks).map Prod.fst = (handleRW conf e chunks').map Prod.fst := by
  rw [(handleRW_bytes e conf hsizes).1, (handleRW_bytes e conf hsizes').1, hgiven]
  exact ⟨rfl, rfl⟩

theorem hostHead_cut :
    (∀ c ∈ [hostHead.bytes.take 9, hostHead.bytes.drop 9], 1 ≤ c.length ∧ c.length ≤ bufSize) ∧
      (∀ c ∈ [hostHead.bytes], 1 ≤ c.length ∧ c.length ≤ bufSize) ∧
      given [hostHead.bytes.take 9, hostHead.bytes.drop 9] = given [hostHead.bytes] := by
  decide +kernel

/-- A head that comes in two reads -/
theorem handleRW_segments_cut :
    (handleRW aConf (arrival [] noRead_size)
        [hostHead.bytes.take 9, hostHead.bytes.drop 9]).map Prod.fst =
      (handleRW aConf (arrival [] noRead_size) [hostHead.bytes]).map Prod.fst :=
  (handleRW_segments aConf (arrival [] noRead_size) _ _ hostHead_cut.1 hostHead_cut.2.1
    hostHead_cut.2.2).2

/-! ## All events of a connection -/

section Ends

variable {F : Type} {conf : Conf} {e : Readiness F} {s u : Connection}

theorem serveBytes_calls {h : Host F} {par : Parser} {rest : Bytes} {calls : List ConnCall}
    (hc : serveBytes e h par rest = some calls) : ∀ c ∈ calls, c = .response := by
  unfold serveBytes at hc
  split at hc
  · split at hc
    · split at hc
      · cases hc
        simp
      · obtain ⟨_, -, rfl⟩ := Option.map_eq_some_iff.mp hc
        split <;> simp
    · obtain ⟨_, -, rfl⟩ := Option.map_eq_some_iff.mp hc
      simp
  · cases hc
    simp

/-- Bytes that are given keep the descriptor open. -/
theorem handleBytes_open {bytes : Bytes} (hne : bytes ≠ []) {calls : List ConnCall}
    (hc : handleBytes conf e bytes = some calls) : .removeEvent ∉ calls ∧ .close ∉ calls := by
  unfold handleBytes at hc
  rw [if_neg hne] at hc
  split at hc
  · cases hc
  · split at hc
    · cases hc
      simp
    · split at hc
      · obtain ⟨inner, hinner, rfl⟩ := Option.map_eq_some_iff.mp hc
        have hcalls := serveBytes_calls hinner
        constructor <;> intro hmem <;>
          simp only [List.cons_append, List.mem_cons, List.mem_append, reduceCtorEq, false_or,
            List.not_mem_nil, or_false] at hmem <;>
          cases hcalls _ hmem
      · cases hc
        simp

/-- Behind so many events, with so many reads that have arrived: an open descriptor has lost a read
to each of them, and a closed one was closed by the last. -/
structure Connection.Ends (events reads : Nat) (s : Connection) : Prop where
  sizes : ∀ chunks ∈ s.unread, ∀ c ∈ chunks, 1 ≤ c.length ∧ c.length ≤ bufSize
  running : ∀ chunks ∈ s.unread, events + chunks.length ≤ reads ∧
    .removeEvent ∉ s.log ∧ .close ∉ s.log
  closed : s.unread = none → events ≤ reads + 1 ∧
    ∃ before, s.log = before ++ [.removeEvent, .close] ∧ .removeEvent ∉ before ∧ .close ∉ before

theorem Connection.step_ends {events reads : Nat} (hs : s.Ends events reads)
    (h : Connection.step conf s e = some u) :
    u.Ends (events + 1) (reads + e.arrived.length) := by
  obtain ⟨chunks, hunread, hmap⟩ := Option.bind_eq_some_iff.mp h
  obtain ⟨⟨calls, unread⟩, hr, rfl⟩ := Option.map_eq_some_iff.mp hmap
  obtain ⟨hcount, hremove, hclose⟩ := hs.running chunks hunread
  have hsizes : ∀ c ∈ chunks ++ e.arrived, 1 ≤ c.length ∧ c.length ≤ bufSize := by
    intro c hc
    rcases List.mem_append.mp hc with hc | hc
    · exact hs.sizes chunks hunread c hc
    · exact e.arrived_size c hc
  obtain ⟨hcalls, hends⟩ := handleRW_bytes e conf hsizes
  rcases hends _ hr with ⟨-, heq⟩ | ⟨left, rfl, hsuffix, hgiven⟩
  · cases heq
    exact ⟨nofun, nofun, fun _ => ⟨by omega, s.log, rfl, hremove, hclose⟩⟩
  · rw [hr, Option.map_some] at hcalls
    obtain ⟨hremove', hclose'⟩ := handleBytes_open hgiven hcalls.symm
    have hne : chunks ++ e.arrived ≠ [] := by
      intro hnil
      exact hgiven (by rw [hnil]; rfl)
    have hlen := hsuffix.length_le
    have hpos := List.length_pos_iff.mpr hne
    rw [List.length_tail, List.length_append] at hlen
    rw [List.length_append] at hpos
    refine ⟨?_, ?_, nofun⟩
    · rintro left' ⟨⟩ c hc
      exact hsizes c (List.mem_of_mem_tail (hsuffix.subset hc))
    · rintro left' ⟨⟩
      refine ⟨by omega, ?_, ?_⟩
      · exact List.mem_append.not.mpr (not_or.mpr ⟨hremove, hremove'⟩)
      · exact List.mem_append.not.mpr (not_or.mpr ⟨hclose, hclose'⟩)

end Ends

/-- The reads that arrive with these events -/
def readsOf {F : Type} (events : List (Readiness F)) : Nat :=
  (events.map fun e => e.arrived.length).sum

/-- For every sequence of events of a connection that is handled to its end: while it is open, each
of them has taken a read, and an event that is given nothing closes it; so there is one more event
than reads at most. The close is the last call, right behind the event's removal, and both are made
once. -/
theorem connection_ends {F : Type} (conf : Conf) (events : List (Readiness F)) (s : Connection)
    (h : Lts.run (Connection.step conf) .accepted events = some s) :
    (∀ left ∈ s.unread, events.length + left.length ≤ readsOf events ∧
        .removeEvent ∉ s.log ∧ .close ∉ s.log) ∧
      (s.unread = none → events.length ≤ readsOf events + 1 ∧
        ∃ before, s.log = before ++ [.removeEvent, .close] ∧
          .removeEvent ∉ before ∧ .close ∉ before) := by
  have hends : s.Ends events.length (readsOf events) := by
    induction events using List.reverseRecOn generalizing s with
    | nil =>
      cases h
      refine ⟨?_, ?_, nofun⟩ <;> simp [Connection.accepted, readsOf]
    | append_singleton events e ih =>
      obtain ⟨t, ht, hstep⟩ := Lts.run_concat_eq_some.mp h
      have hu := Connection.step_ends (ih t ht) hstep
      simpa [readsOf] using hu
  exact ⟨hends.running, hends.closed⟩

/-- One request, and the event its own shutdown raises -/
theorem connection_ends_once :
    ∃ s, Lts.run (Connection.step aConf) .accepted
        [arrival [hostHead.bytes] hostHead_cut.2.1, arrival [] noRead_size] = some s ∧
      ∃ before, s.log = before ++ [.removeEvent, .close] ∧ .close ∉ before := by
  have hrun : Lts.run (Connection.step aConf) .accepted
      [arrival [hostHead.bytes] hostHead_cut.2.1, arrival [] noRead_size] =
      some ⟨[.serve, .response, .shutdown, .removeEvent, .close], none⟩ := by
    decide +kernel
  obtain ⟨-, hclosed⟩ := connection_ends aConf _ _ hrun
  obtain ⟨-, before, hlog, -, hclose⟩ := hclosed rfl
  exact ⟨_, hrun, before, hlog, hclose⟩

end SimpleWeb
