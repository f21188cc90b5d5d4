import SimpleWeb.DynamicResponse
import SimpleWeb.StaticResponse
import SimpleWeb.Http.Parameters
import SimpleWeb.Http.Reply

/-!
# SimpleWeb.Replies

What clients read of the responses of `host::serve`. The fields of a response are its own: the
date, and texts of the program. So whatever is asked for, the response is read as the one it was
meant to be, and a length it announces is that of its body, unless the request has brought its
connection to the end, and then nothing goes out at all (`reply_read`).

The library of `dllib/dynamic.cpp` writes the arguments of the request into the body, a line each:
the way there and back (`arguments_echo`).
-/

namespace SimpleWeb

open Http FileBody Frames

/-- A service adds nothing to the header that is taken for the end of something. -/
def Services.Clean (services : Services) : Prop :=
  ∀ path method req args (res : ResponseHeader × Bytes), res.1.Clean →
    (services path method req args res).1.Clean

/-- What is meant to be behind the head -/
def Body.contents : Body → Bytes
  | .string text => text
  | .file f => f.memory.take f.size

/-- A file of the response is in memory as far as its size says. -/
def Response.Mapped (r : Response) : Prop := ∀ f, r.body = .file f → f.Holds r.body.contents

section Clean

variable {m : ResponseHeader}

theorem Http.ResponseHeader.Clean.result (h : m.Clean) (s : Status) : (m.result s).Clean := h

theorem Http.ResponseHeader.Clean.set (h : m.Clean) {name value : Bytes}
    (hname : byte ':' ∉ name ∧ CR ∉ name) (hvalue : CR ∉ value) : (m.set name value).Clean :=
  h.insert hname.1 hname.2 hvalue

theorem responseHeader_clean {date : Bytes} (h : CR ∉ date) : (responseHeader date).Clean := by
  have hnone : ResponseHeader.Clean ⟨.internalServerError, 10, ∅⟩ := by
    intro name value hget
    simp at hget
  have hname : byte ':' ∉ ascii "Date" ∧ CR ∉ ascii "Date" := by decide
  exact (hnone.insert hname.1 hname.2 h).insert (by decide) (by decide) (by decide)

theorem toDecimal_clean (n : Nat) : CR ∉ toDecimal n := by
  have hdigit : ∀ d < 10, byte '0' + UInt8.ofNat d ≠ CR := by decide
  intro hmem
  obtain ⟨d, hd, heq⟩ := List.mem_map.mp hmem
  refine hdigit d ?_ heq
  rw [List.mem_reverse] at hd
  split at hd
  · rw [List.mem_singleton.mp hd]
    decide
  · exact Nat.digits_lt_base (by decide) hd

theorem getcontent_type_clean (hash : UInt32) : CR ∉ getcontent_type hash := by
  unfold getcontent_type
  split_ifs <;> decide

end Clean

section Respond

variable {sys : System MappedFile} {services : Services} {h h' : Host MappedFile} {q : Request}
  {rs : List Response} {r : Response} {res : ResponseHeader} {path : Bytes}

theorem staticResponse_clean (hres : res.Clean)
    (hr : staticResponse sys h path res = some (h', r)) : r.header.Clean := by
  obtain ⟨⟨h₁, f⟩, -, heq⟩ := Option.map_eq_some_iff.mp hr
  cases heq
  exact (((hres.result .ok).set (by decide) (getcontent_type_clean _)).set (by decide)
    (by decide)).set (by decide) (toDecimal_clean f.size)

theorem deniedResponse_clean (hres : res.Clean) (ec : Nat) : (deniedResponse ec res).header.Clean :=
  (hres.set (by decide) (by decide)).result _

theorem serviceResponse_clean (hs : services.Clean) (hres : res.Clean) (par : Parser)
    (args : List ReqArg) : (serviceResponse services h path par args res).1.Clean := by
  cases hmethod : par.message.method with
  | get =>
    simp only [serviceResponse, hmethod]
    split
    · exact hs _ _ _ _ _ (hres.result .ok)
    · exact hres.result .badRequest
  | post =>
    simp only [serviceResponse, hmethod]
    split
    · exact hs _ _ _ _ _ (hres.result .ok)
    · exact hres
  | _ =>
    simp only [serviceResponse, hmethod]
    exact hres.result .badRequest

theorem serviceAnswer_clean (hs : services.Clean) (hres : res.Clean)
    (hr : serviceAnswer services h path q res = some r) :
    r.header.Clean ∧
      r.header.fields[ascii "Content-Length"]? = some (toDecimal r.body.contents.length) := by
  obtain ⟨⟨n, args, rest⟩, -, rfl⟩ := Option.map_eq_some_iff.mp hr
  refine ⟨(serviceResponse_clean hs hres q.par args).set (by decide) (toDecimal_clean _), ?_⟩
  simp [ResponseHeader.set, Body.contents]

/-- What is written for a service is its answer. -/
theorem dynamicResponse_answer (hr : dynamicResponse sys services h path q res = some (h', rs)) :
    ∀ r ∈ rs, ∃ g : Host MappedFile, serviceAnswer services g path q res = some r := by
  have hanswer : ∀ g : Host MappedFile,
      (serviceAnswer services g path q res).map (fun r => (g, [r])) = some (h', rs) →
        ∀ r ∈ rs, ∃ g : Host MappedFile, serviceAnswer services g path q res = some r := by
    intro g hg
    obtain ⟨r', hr', heq⟩ := Option.map_eq_some_iff.mp hg
    cases heq
    intro r hr
    rw [List.mem_singleton.mp hr]
    exact ⟨_, hr'⟩
  unfold dynamicResponse at hr
  split at hr
  · split at hr
    · cases hr
      simp
    · exact hanswer _ hr
  · exact hanswer _ hr

/-- A response is clean, and of status 200 only with the length of its body. -/
theorem respond_clean (hs : services.Clean) (hdate : CR ∉ q.date)
    (hr : h.respond sys services q = some (h', rs)) :
    ∀ r ∈ rs, r.header.Clean ∧ (r.Mapped → r.header.status = .ok →
      r.header.fields[ascii "Content-Length"]? = some (toDecimal r.body.contents.length)) := by
  have hres := responseHeader_clean hdate
  intro r hmem
  rcases Host.respond_cases hr with ⟨-, -, hdynamic⟩ | ⟨-, -, r', hstatic, rfl⟩ | ⟨-, rfl, rfl⟩
  · obtain ⟨g, hanswer⟩ := dynamicResponse_answer hdynamic r hmem
    obtain ⟨hclean, hlength⟩ := serviceAnswer_clean hs hres hanswer
    exact ⟨hclean, fun _ _ => hlength⟩
  · rw [List.mem_singleton.mp hmem]
    refine ⟨staticResponse_clean hres hstatic, ?_⟩
    intro hmapped _
    obtain ⟨f, -, -, hbody, -, hlength⟩ := staticResponse_some hstatic
    rw [hlength, (hmapped f hbody).size]
  · rw [List.mem_singleton.mp hmem]
    exact ⟨deniedResponse_clean hres _, fun _ hok => absurd hok (accessResult_ne_ok _)⟩

/-- Writes that complete send the head and the body, and nothing behind it. -/
theorem sent_contents {results : Nat → SputnResult} (hc : r.Complete results)
    (hgood : r.good = true) (hm : r.Mapped) :
    ∃ t, ∀ t', t ≤ t' → r.sent results t' =
      r.header.writeHeader.1.flatten ++ r.body.contents := by
  have hbody := hc.body
  cases hb : r.body with
  | string text =>
    rw [hb] at hbody
    refine ⟨r.header.writeHeader.1.length + 1, ?_⟩
    intro t' ht'
    obtain ⟨k, rfl⟩ := Nat.exists_eq_add_of_le ht'
    have hcalls :
        r.header.writeHeader.1.length + 1 + k - r.header.writeHeader.1.length = k + 1 := by
      omega
    rw [Response.sent_good hgood, ResponseHeader.sent, List.take_of_length_le (by omega),
      Ostream.insertAll_taken hc.head, hcalls, hb]
    simp [Body.written, bodySent, Ostream.insert, hbody, Body.contents]
  | file f =>
    rw [hb] at hbody
    have hholds := hm f hb
    rw [hb] at hholds
    exact (sends_iff_sent hc hgood hb).mpr ((sends_iff hbody hholds.size).mpr hholds.memory)

/-- A request for a service whose body is read to the end of the connection -/
def Host.Drains (sys : System MappedFile) (h : Host MappedFile) (q : Request) : Prop :=
  sys.access (filepath h.info q.par) = 0 ∧ isDynamic q.par = true ∧
    VectorBody.OpenBody q.par q.rest

/-- Such a request leaves a stream that takes nothing, and it is the only kind that does. -/
theorem respond_drains (hr : h.respond sys services q = some (h', rs)) (hmem : r ∈ rs) :
    (h.Drains sys q → ∀ results t, r.sent results t = []) ∧
      (¬ h.Drains sys q → r.good = true) := by
  rcases Host.respond_cases hr with ⟨hacc, hdyn, hdynamic⟩ | ⟨-, hdyn, r', hstatic, rfl⟩ |
    ⟨hacc, rfl, rfl⟩
  · obtain ⟨g, hanswer⟩ := dynamicResponse_answer hdynamic r hmem
    have hgood := serviceAnswer_good hanswer
    constructor
    · rintro ⟨-, -, hopen⟩
      have hfailed : r.good = false := by
        rw [Bool.eq_false_iff, Ne, hgood, not_not]
        exact hopen
      obtain ⟨⟨n, args, rest⟩, -, rfl⟩ := Option.map_eq_some_iff.mp hanswer
      exact Response.sent_failed hfailed rfl
    · exact fun hnot => hgood.mpr fun hopen => hnot ⟨hacc, hdyn, hopen⟩
  · refine ⟨fun hdrains => absurd hdrains.2.1 (by simp [hdyn]), fun _ => ?_⟩
    obtain ⟨f, -, hgood, -⟩ := staticResponse_some hstatic
    rwa [List.mem_singleton.mp hmem]
  · refine ⟨fun hdrains => absurd hdrains.1 hacc, fun _ => ?_⟩
    rw [List.mem_singleton.mp hmem]
    rfl

end Respond

/-- For every state of a host and every request: with writes that complete, the client reads the
status, the fields and the body that were meant, and at status 200 a length that is the body's;
but of the response to a request that has brought its connection to the end nothing is sent. -/
theorem reply_read (sys : System MappedFile) (services : Services) (hs : services.Clean)
    (h h' : Host MappedFile) (q : Request) (hdate : CR ∉ q.date) (rs : List Response)
    (hr : h.respond sys services q = some (h', rs)) (r : Response) (hmem : r ∈ rs)
    (results : Nat → SputnResult) (hc : r.Complete results) (hm : r.Mapped) :
    (¬ h.Drains sys q → ∃ t, ∀ t', t ≤ t' →
      Reply.read (r.sent results t') = some (r.header.reply r.body.contents) ∧
      (r.header.status = .ok →
        (ascii "Content-Length", toDecimal r.body.contents.length) ∈
          (r.header.reply r.body.contents).fields)) ∧
      (h.Drains sys q → ∀ t, r.sent results t = []) := by
  obtain ⟨hclean, hlength⟩ := respond_clean hs hdate hr r hmem
  obtain ⟨hdrains, hgood⟩ := respond_drains hr hmem
  refine ⟨?_, fun h => hdrains h results⟩
  intro hnot
  obtain ⟨t, ht⟩ := sent_contents hc (hgood hnot) hm
  refine ⟨t, ?_⟩
  intro t' ht'
  rw [ht t' ht', Reply.read_write hclean]
  exact ⟨rfl, fun hok =>
    Std.ExtTreeMap.mem_toList_iff_getElem?_eq_some.mpr (hlength hm hok)⟩

theorem reply_read_hello :
    ∃ t, ∀ t', t ≤ t' →
      Reply.read ((helloResponse true).sent (helloReplies true) t') =
        some ((helloResponse true).header.reply (helloResponse true).body.contents) ∧
      ((helloResponse true).header.status = .ok →
        (ascii "Content-Length", toDecimal (helloResponse true).body.contents.length) ∈
          ((helloResponse true).header.reply (helloResponse true).body.contents).fields) := by
  obtain ⟨h', hr⟩ := respond_hello true
  have hmapped : (helloResponse true).Mapped := by
    rintro f ⟨⟩
    exact ⟨by decide +kernel, .inr ⟨⟨[], by decide +kernel⟩, by decide +kernel⟩⟩
  refine (reply_read _ _ (fun _ _ _ _ _ hclean => hclean) coldHost h' indexRequest (by decide) _
    hr (helloResponse true) (by simp) (helloReplies true) (helloResponse_complete true)
    hmapped).1 ?_
  rintro ⟨-, hdyn, -⟩
  cases hdyn

/-! ## The arguments of a request, there and back -/

def readArgument (line : Bytes) : Option ReqArg := (cut (byte '=') line).map fun r => ⟨r.1, r.2⟩

/-- What the body of `dllib/dynamic.cpp` says -/
def listed (body : Bytes) : List ReqArg := (split LF [] body).filterMap readArgument

section Echo

variable {as : List ReqArg}

/-- The bytes a name and a value do not hold -/
theorem argBytes_line : ∀ c : UInt8,
    (isprint c = true ∧ c ∉ ascii " #%+./?&=" → c ≠ byte '=' ∧ c ≠ LF) ∧
      (isprint c = true ∧ c ∉ ascii " &" → c ≠ LF) := by
  decide +kernel

theorem listed_write (hok : ∀ a ∈ as, VectorBody.QueryArg a) :
    listed (as.flatMap fun a => a.key ++ byte '=' :: a.value ++ [LF]) = as := by
  have hlines : ∀ t ∈ as.map (fun a => a.key ++ byte '=' :: a.value), LF ∉ t := by
    intro t ht hmem
    obtain ⟨a, ha, rfl⟩ := List.mem_map.mp ht
    rcases List.mem_append.mp hmem with hmem | hmem
    · exact ((argBytes_line LF).1 ((hok a ha).key LF hmem)).2 rfl
    · rcases List.mem_cons.mp hmem with heq | hmem
      · cases heq
      · exact (argBytes_line LF).2 ((hok a ha).value LF hmem) rfl
  have hbody : (as.flatMap fun a => a.key ++ byte '=' :: a.value ++ [LF]) =
      (as.map fun a => a.key ++ byte '=' :: a.value).flatMap fun t => t ++ [LF] := by
    rw [List.flatMap_map]
  rw [listed, hbody, split_ends hlines, List.filterMap_map]
  refine (List.filterMap_congr ?_).trans (List.filterMap_some)
  intro a ha
  have hkey : byte '=' ∉ a.key := by
    intro hmem
    exact ((argBytes_line (byte '=')).1 ((hok a ha).key _ hmem)).1 rfl
  simp only [Function.comp_apply, readArgument, cut_append hkey, Option.map_some]

/-- The arguments the query of a GET head gives to its service -/
theorem readBody_query (hok : ∀ a ∈ as, VectorBody.QueryArg a) {head : RawHead}
    (hg : VectorBody.Gets head (VectorBody.write as).1) {name value : Bytes}
    (hn : name.length = MAXFIELDNAME) (hv : value.length = MAXFIELDVALUE) (rest : Bytes) :
    ∃ n, readBody (VectorBody.read name value) rest head.parser [] = some (n, as, rest) := by
  have hjoin : VectorBody.Gets head (VectorBody.joined (VectorBody.params as hok)) := by
    rw [VectorBody.joined_params]
    exact hg
  have hread := VectorBody.readArguments_joined Stack.zero_sized hn hv hjoin VectorBody.params_fits
    rest
  have hall : VectorBody.reported ((VectorBody.params as hok).map VectorBody.Param.kept) = as :=
    ((VectorBody.reported_eq_iff _).mpr VectorBody.params_endsWithPair).trans
      (VectorBody.kept_params as hok)
  rw [hall, VectorBody.readArguments, readHeader_raw Stack.zero_sized hg.fits] at hread
  obtain ⟨⟨n, body, r⟩, hbody, heq⟩ := Option.map_eq_some_iff.mp hread
  cases heq
  exact ⟨n, hbody⟩

theorem Gets.isDynamic {head : RawHead} {bytes : Bytes} (hg : VectorBody.Gets head bytes) :
    SimpleWeb.isDynamic head.parser = true := by
  have hmethod : head.parser.message.method = .get := hg.method
  simp [SimpleWeb.isDynamic, hmethod, hg.querystr]

end Echo

/-- For every host, whatever it has served before, and every list of arguments in the query of a
GET for the library of `dllib/dynamic.cpp`: the client gets a response of status 200 and reads its
arguments out of the body, in their order. -/
theorem arguments_echo (dlopen : Bytes → Option Library) (services : Services) (info : HostInfo)
    (cachesnum : Nat) (earlier : List Visit) (h : Host MappedFile)
    (hrun : Lts.run (visit dlopen services) (Host.new info cachesnum) earlier = some h)
    (as : List ReqArg) (hok : ∀ a ∈ as, VectorBody.QueryArg a) (head : RawHead)
    (hg : VectorBody.Gets head (VectorBody.write as).1) (st : Stack) (hst : st.Sized)
    (rest : Bytes) (v : Visit) (ec : ParserEc)
    (hread : readHeader st (head.bytes ++ rest) .init = some (ec, v.request.par, v.request.rest))
    (hdate : CR ∉ v.request.date) (hacc : v.access (v.path info) = 0) (lib : Library)
    (hlib : dlopen (v.path info) = some lib) (hget : lib.get = true)
    (hservice : services (v.path info) .get = listArguments (v.path info) .get) :
    ∃ h' header text,
      h.respond (v.system dlopen) services v.request =
        some (h', [⟨header, .string text, true⟩]) ∧
      ∀ results, (⟨header, .string text, true⟩ : Response).Complete results → ∃ t reply,
        (∀ t', t ≤ t' →
          Reply.read ((⟨header, .string text, true⟩ : Response).sent results t') = some reply) ∧
        reply.status = ascii "200 Ok" ∧ listed reply.body = as := by
  rw [readHeader_raw hst hg.fits] at hread
  simp only [Option.some.injEq, Prod.mk.injEq] at hread
  obtain ⟨-, hpar, hrest⟩ := hread
  have hdyn : isDynamic v.request.par = true := hpar ▸ Gets.isDynamic hg
  have hmethod : v.request.par.message.method = .get := by
    rw [← hpar]
    exact hg.method
  have hl : Loaded dlopen info h := Lts.run_invariant (fun _ _ _ hl hv => visit_loaded hl hv)
    (loaded_new (h := Host.new info cachesnum) rfl rfl) earlier h hrun
  have hpath : v.path info = servicePath info (serveTarget v.request.par) :=
    filepath_dynamic hdyn info
  rw [hpath] at hacc hlib hservice
  have hsys : (v.system dlopen).dlopen = dlopen := rfl
  obtain ⟨g, hgets, -, hresp⟩ := dynamicResponse_loaded hl hsys services
    (responseHeader v.request.date) hlib
  obtain ⟨n, hbody⟩ := readBody_query hok hg v.request.name_size v.request.value_size rest
  rw [hpar, hrest] at hbody
  have htarget := hgets.mpr hget
  let text : Bytes := as.flatMap fun a => a.key ++ byte '=' :: a.value ++ [LF]
  let header := ((responseHeader v.request.date).result .ok).set (ascii "Content-Length")
    (toDecimal text.length)
  have hquery : v.request.par.querystr.isNone = false := by
    rw [← hpar, hg.querystr]
    rfl
  have hanswer : serviceAnswer services g (servicePath info (serveTarget v.request.par)) v.request
      (responseHeader v.request.date) = some ⟨header, .string text, true⟩ := by
    simp only [serviceAnswer, hbody, Option.map_some, serviceResponse, hmethod, if_pos htarget,
      hservice, listArguments, List.nil_append, VectorBody.bodyStarves, hquery, Bool.false_and]
    rfl
  refine ⟨g, header, text, ?_, ?_⟩
  · have hzero : (v.system dlopen).access (servicePath info (serveTarget v.request.par)) = 0 := hacc
    simp only [Host.respond, hdyn, if_true, hl.info_eq, filepath_dynamic hdyn, hzero, hresp,
      hanswer, Option.map_some]
  · intro results hc
    have hclean : header.Clean := ((responseHeader_clean hdate).result .ok).set (by decide)
      (toDecimal_clean text.length)
    obtain ⟨t, ht⟩ := sent_contents hc rfl (by rintro f ⟨⟩)
    refine ⟨t, header.reply text, ?_, rfl, listed_write hok⟩
    intro t' ht'
    exact (congrArg Reply.read (ht t' ht')).trans (Reply.read_write hclean text)

/-- A GET with the arguments of `test/http/parser_test.cpp` -/
def echoVisit : Visit := ⟨.zero VectorBody.parserTestGet.parser, readable, fun _ => ⟨-1, 0, none⟩⟩

theorem replies_complete (header : ResponseHeader) (text : Bytes) (good : Bool) :
    (⟨header, .string text, good⟩ : Response).Complete
      (replies header.writeHeader.1 ⟨text.length, false⟩) where
  head := replies_head _ _
  body := by
    have hlast := replies_body header.writeHeader.1 ⟨text.length, false⟩ 0
    rw [Nat.add_zero] at hlast
    simp only [hlast]

theorem arguments_echo_parserTest :
    ∃ h h' header text,
      Lts.run (visit dynamicLibrary listArguments) (Host.new dotInfo 32)
        [dynamicVisit .post none] = some h ∧
      h.respond (echoVisit.system dynamicLibrary) listArguments echoVisit.request =
        some (h', [⟨header, .string text, true⟩]) ∧
      ∃ t reply,
        Reply.read ((⟨header, .string text, true⟩ : Response).sent
          (replies header.writeHeader.1 ⟨text.length, false⟩) t) = some reply ∧
        reply.status = ascii "200 Ok" ∧ listed reply.body = VectorBody.parserTestArgs := by
  obtain ⟨h, hrun⟩ : ∃ h, Lts.run (visit dynamicLibrary listArguments) (Host.new dotInfo 32)
      [dynamicVisit .post none] = some h := ⟨_, rfl⟩
  obtain ⟨h', header, text, hresp, hread⟩ := arguments_echo dynamicLibrary listArguments dotInfo 32
    [dynamicVisit .post none] h hrun VectorBody.parserTestArgs VectorBody.parserTestArgs_query
    VectorBody.parserTestGet VectorBody.parserTestGet_gets .zero Stack.zero_sized [] echoVisit .ok
    (readHeader_raw Stack.zero_sized VectorBody.parserTestGet_gets.fits []) (by simp [echoVisit,
      Request.zero]) rfl ⟨true, false⟩ rfl rfl rfl
  obtain ⟨t, reply, hreply, hstatus, hlisted⟩ := hread _ (replies_complete header text true)
  exact ⟨h, h', header, text, hrun, hresp, t, reply, hreply t (Nat.le_refl t), hstatus, hlisted⟩

end SimpleWeb
