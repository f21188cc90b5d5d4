import SimpleWeb.Lib.Lts
import SimpleWeb.Response
import SimpleWeb.Http.ArgumentBounds
import SimpleWeb.Http.StreamEnd

/-!
# SimpleWeb.DynamicResponse

Dynamic responses against the libraries they come from. A library is loaded by the first request
for its target, of whatever method, and enters one service map for each function it exports
(`Loaded`, kept by every request). So what a request finds does not depend on the requests before
it. But a library that does not load gets no response, one without a `post` leaves the status at
500, and the response to a POST goes out only when something stops the reader of its body in front
of the end of the connection (`dynamic_status_iff`).
-/

namespace SimpleWeb

open Http VectorBody

/-- A request, with the files as it finds them. -/
structure Visit where
  request : Request
  access : Bytes → Nat
  file : Bytes → MappedFile

def Visit.system (v : Visit) (dlopen : Bytes → Option Library) : System MappedFile :=
  ⟨v.access, dlopen, v.file⟩

def Visit.path (v : Visit) (info : HostInfo) : Bytes := filepath info v.request.par

/-- The host behind a request. -/
def visit (dlopen : Bytes → Option Library) (services : Services) (h : Host MappedFile)
    (v : Visit) : Option (Host MappedFile) :=
  (h.respond (v.system dlopen) services v.request).map Prod.fst

def Library.exports (lib : Library) : Verb → Bool
  | .get => lib.get
  | .post => lib.post
  | _ => false

/-- What a request should be answered with. -/
def expectedStatus (lib : Option Library) (method : Verb) : Status :=
  if lib.any (·.exports method) then .ok else .badRequest

/-- A service leaves the status it is given. -/
def Services.KeepStatus (services : Services) : Prop :=
  ∀ path method req args res, (services path method req args res).1.status = res.1.status

def servicePath (info : HostInfo) (target : Bytes) : Bytes :=
  info.docroot ++ (target ++ ascii ".so")

/-- The service maps hold what the libraries of their targets export. -/
structure Loaded (dlopen : Bytes → Option Library) (info : HostInfo) (h : Host MappedFile) :
    Prop where
  info_eq : h.info = info
  maps : ∀ target, target ∈ h.getservices ∨ target ∈ h.postservices →
    ∃ lib, dlopen (servicePath info target) = some lib ∧
      (target ∈ h.getservices ↔ lib.get = true) ∧ (target ∈ h.postservices ↔ lib.post = true)

section Maps

variable {dlopen : Bytes → Option Library} {services : Services} {info : HostInfo}
  {h h' : Host MappedFile} {v : Visit}

theorem mem_load_get {target t : Bytes} {lib : Library} :
    t ∈ (h.load target lib).getservices ↔ (t = target ∧ lib.get = true) ∨ t ∈ h.getservices := by
  cases hget : lib.get <;> simp [Host.load, hget]

theorem mem_load_post {target t : Bytes} {lib : Library} :
    t ∈ (h.load target lib).postservices ↔
      (t = target ∧ lib.post = true) ∨ t ∈ h.postservices := by
  cases hpost : lib.post <;> simp [Host.load, hpost]

theorem Loaded.load (hl : Loaded dlopen info h) {target : Bytes} {lib : Library}
    (hnew : target ∉ h.getservices ∧ target ∉ h.postservices)
    (hlib : dlopen (servicePath info target) = some lib) :
    Loaded dlopen info (h.load target lib) := by
  refine ⟨hl.info_eq, ?_⟩
  intro t ht
  simp only [mem_load_get, mem_load_post] at ht ⊢
  by_cases heq : t = target
  · subst heq
    exact ⟨lib, hlib, by simp [hnew.1], by simp [hnew.2]⟩
  · simp only [heq, false_and, false_or] at ht ⊢
    exact hl.maps t ht

theorem filepath_dynamic {par : Parser} (hdyn : isDynamic par = true) (info : HostInfo) :
    filepath info par = servicePath info (serveTarget par) := by
  rw [filepath, requestPath, if_pos hdyn, servicePath]

theorem serveDynamic_loaded (hl : Loaded dlopen info h) {sys : System MappedFile}
    (hsys : sys.dlopen = dlopen) {target : Bytes}
    (hs : (serveDynamic sys h target (servicePath info target)).2 = some h') :
    Loaded dlopen info h' := by
  unfold serveDynamic at hs
  split at hs
  · rename_i hnew
    rw [hsys] at hs
    cases hlib : dlopen (servicePath info target) with
    | none =>
      rw [hlib] at hs
      cases hs
      exact hl
    | some lib =>
      rw [hlib] at hs
      cases hs
      exact hl.load hnew hlib
  · cases hs
    exact hl

/-- A static request changes the file cache only. -/
theorem serveStatic_loaded (hl : Loaded dlopen info h) {sys : System MappedFile} {path : Bytes}
    (hs : (serveStatic sys h path).2 = some h') : Loaded dlopen info h' := by
  have hkeep : ∀ c : Filecaches MappedFile, Loaded dlopen info { h with filecaches := c } :=
    fun _ => ⟨hl.info_eq, hl.maps⟩
  unfold serveStatic at hs
  split at hs
  · cases hs
  · obtain ⟨r, -, heq⟩ := Option.map_eq_some_iff.mp hs
    cases heq
    exact hkeep r.1
  · obtain ⟨r, -, heq⟩ := Option.map_eq_some_iff.mp hs
    cases heq
    exact hkeep r.1

/-- Every request keeps the maps loaded, whatever its method and the files it finds. -/
theorem visit_loaded (hl : Loaded dlopen info h) (hv : visit dlopen services h v = some h') :
    Loaded dlopen info h' := by
  obtain ⟨⟨h₁, rs⟩, hr, heq⟩ := Option.map_eq_some_iff.mp hv
  cases heq
  have hserve := Host.respond_host hr
  unfold serve at hserve
  split at hserve
  · simp only [serveReadable] at hserve
    split at hserve
    · rename_i hdyn
      rw [hl.info_eq, filepath_dynamic hdyn] at hserve
      exact serveDynamic_loaded hl rfl hserve
    · exact serveStatic_loaded hl hserve
  · cases hserve
    exact hl

theorem loaded_new (hget : h.getservices = []) (hpost : h.postservices = []) :
    Loaded dlopen h.info h := by
  refine ⟨rfl, ?_⟩
  intro target ht
  rw [hget, hpost] at ht
  simp at ht

end Maps

/-! ## One request -/

section Response

variable {dlopen : Bytes → Option Library} {services : Services} {info : HostInfo}
  {h : Host MappedFile}

/-- The status the switch over the method ends with. -/
theorem serviceResponse_status (hkeep : services.KeepStatus) (path : Bytes) (par : Parser)
    (args : List ReqArg) (res : ResponseHeader) :
    (serviceResponse services h path par args res).1.status =
      match par.message.method with
      | .get => if serveTarget par ∈ h.getservices then .ok else .badRequest
      | .post => if serveTarget par ∈ h.postservices then .ok else res.status
      | _ => .badRequest := by
  cases hmethod : par.message.method with
  | get =>
    simp only [serviceResponse, hmethod]
    split
    · rw [hkeep]
      rfl
    · rfl
  | post =>
    simp only [serviceResponse, hmethod]
    split
    · rw [hkeep]
      rfl
    · rfl
  | _ => simp only [serviceResponse, hmethod, ResponseHeader.result]

/-- Behind a library that loads, each map has the target exactly when the library exports the
function, whoever has loaded it. -/
theorem dynamicResponse_loaded (hl : Loaded dlopen info h) {sys : System MappedFile}
    (hsys : sys.dlopen = dlopen) (services : Services) {q : Request} {lib : Library}
    (res : ResponseHeader)
    (hlib : dlopen (servicePath info (serveTarget q.par)) = some lib) :
    ∃ g : Host MappedFile, (serveTarget q.par ∈ g.getservices ↔ lib.get = true) ∧
      (serveTarget q.par ∈ g.postservices ↔ lib.post = true) ∧
      dynamicResponse sys services h (servicePath info (serveTarget q.par)) q res =
        (serviceAnswer services g (servicePath info (serveTarget q.par)) q res).map
          fun r => (g, [r]) := by
  by_cases hnew : serveTarget q.par ∉ h.getservices ∧ serveTarget q.par ∉ h.postservices
  · refine ⟨h.load (serveTarget q.par) lib, ?_, ?_, ?_⟩
    · simp [mem_load_get, hnew.1]
    · simp [mem_load_post, hnew.2]
    · simp only [dynamicResponse, if_pos hnew, hsys, hlib]
  · have hknown : serveTarget q.par ∈ h.getservices ∨ serveTarget q.par ∈ h.postservices := by
      by_contra hno
      exact hnew (not_or.mp hno)
    obtain ⟨lib', hlib', hget, hpost⟩ := hl.maps _ hknown
    rw [hlib] at hlib'
    cases hlib'
    exact ⟨h, hget, hpost, by simp only [dynamicResponse, if_neg hnew]⟩

theorem dynamicResponse_unloadable (hl : Loaded dlopen info h) {sys : System MappedFile}
    (hsys : sys.dlopen = dlopen) {q : Request} (res : ResponseHeader)
    (hlib : dlopen (servicePath info (serveTarget q.par)) = none) :
    dynamicResponse sys services h (servicePath info (serveTarget q.par)) q res = some (h, []) := by
  have hnew : serveTarget q.par ∉ h.getservices ∧ serveTarget q.par ∉ h.postservices := by
    by_contra hno
    rw [← not_or, not_not] at hno
    obtain ⟨lib, hsome, -⟩ := hl.maps _ hno
    rw [hlib] at hsome
    cases hsome
  simp only [dynamicResponse, if_pos hnew, hsys, hlib]

theorem serviceAnswer_none {path : Bytes} {q : Request} {res : ResponseHeader} :
    serviceAnswer services h path q res = none ↔
      ArgOverlong ((bodyStream q.rest q.par).take MAXTRUNK) := by
  rw [← read_none_iff q.name_size q.value_size (bodyStream q.rest q.par) [], serviceAnswer,
    Option.map_eq_none_iff]
  cases hquery : q.par.querystr with
  | none => simp [readBody, bodyStream, hquery]
  | some query => simp [readBody, bodyStream, hquery]

theorem serviceAnswer_status (hkeep : services.KeepStatus) {path : Bytes} {q : Request}
    {res : ResponseHeader} {r : Response} (hr : serviceAnswer services h path q res = some r) :
    r.header.status =
      match q.par.message.method with
      | .get => if serveTarget q.par ∈ h.getservices then .ok else .badRequest
      | .post => if serveTarget q.par ∈ h.postservices then .ok else res.status
      | _ => .badRequest := by
  obtain ⟨⟨n, args, rest⟩, -, rfl⟩ := Option.map_eq_some_iff.mp hr
  exact serviceResponse_status hkeep path q.par args res

/-- The response finds a good stream unless the body has brought the connection to its end. -/
theorem serviceAnswer_good {path : Bytes} {q : Request} {res : ResponseHeader} {r : Response}
    (hr : serviceAnswer services h path q res = some r) :
    r.good = true ↔ ¬ OpenBody q.par q.rest := by
  obtain ⟨⟨n, args, rest⟩, -, rfl⟩ := Option.map_eq_some_iff.mp hr
  rw [← bodyStarves_iff q.name_size q.value_size, Bool.not_eq_true, Bool.not_eq_eq_eq_not,
    Bool.not_true]

theorem isDynamic_method {par : Parser} (h : isDynamic par = true) :
    par.message.method = .get ∨ par.message.method = .post := by
  simp only [isDynamic, Bool.or_eq_true, Bool.and_eq_true, decide_eq_true_eq] at h
  rcases h with h | h
  · exact .inr h
  · exact .inl h.1

/-- Only a POST to a library without a `post` is answered with the status `serve` starts from. -/
theorem serviceAnswer_expected (hkeep : services.KeepStatus) {path : Bytes} {q : Request}
    {r : Response} (hr : serviceAnswer services h path q (responseHeader q.date) = some r)
    {lib : Library} (hget : serveTarget q.par ∈ h.getservices ↔ lib.get = true)
    (hpost : serveTarget q.par ∈ h.postservices ↔ lib.post = true)
    (hdyn : isDynamic q.par = true) :
    r.header.status = expectedStatus (some lib) q.par.message.method ↔
      lib.post = true ∨ q.par.message.method = .get := by
  have hstatus := serviceAnswer_status hkeep hr
  rcases isDynamic_method hdyn with hmethod | hmethod
  · refine iff_of_true ?_ (.inr hmethod)
    simp only [hstatus, hmethod, hget, expectedStatus, Option.any_some, Library.exports]
  · simp only [hstatus, hmethod, hpost, expectedStatus, Option.any_some, Library.exports]
    cases lib.post <;> simp [responseHeader]

end Response

/-- `host::host` -/
def Host.new (info : HostInfo) (cachesnum : Nat) : Host MappedFile :=
  ⟨info, [], [], .init cachesnum⟩

/-- For every set of libraries, every sequence of requests a host has served and every request for
a library that can be read: it gets one response, on a stream that takes it, with the status its
library gives it exactly when the library loads, the request is a GET or the library exports
`post`, the arguments stay in their arrays, and no body is read to the end of the connection. None
of this depends on the earlier requests. -/
theorem dynamic_status_iff (dlopen : Bytes → Option Library) (services : Services)
    (hkeep : services.KeepStatus) (info : HostInfo) (cachesnum : Nat) (earlier : List Visit)
    (h : Host MappedFile)
    (hrun : Lts.run (visit dlopen services) (Host.new info cachesnum) earlier = some h)
    (v : Visit) (hacc : v.access (v.path info) = 0) (hdyn : isDynamic v.request.par = true) :
    (∃ h' r, h.respond (v.system dlopen) services v.request = some (h', [r]) ∧ r.good = true ∧
        r.header.status =
          expectedStatus (dlopen (v.path info)) v.request.par.message.method) ↔
      (∃ lib, dlopen (v.path info) = some lib ∧
        (lib.post = true ∨ v.request.par.message.method = .get)) ∧
      ¬ ArgOverlong ((bodyStream v.request.rest v.request.par).take MAXTRUNK) ∧
      ¬ OpenBody v.request.par v.request.rest := by
  have hl : Loaded dlopen info h := Lts.run_invariant (fun _ _ _ hl hv => visit_loaded hl hv)
    (loaded_new (h := Host.new info cachesnum) rfl rfl) earlier h hrun
  have hpath : v.path info = servicePath info (serveTarget v.request.par) :=
    filepath_dynamic hdyn info
  rw [hpath] at hacc ⊢
  have hzero : (v.system dlopen).access (servicePath info (serveTarget v.request.par)) = 0 := hacc
  have hrespond : h.respond (v.system dlopen) services v.request =
      dynamicResponse (v.system dlopen) services h (servicePath info (serveTarget v.request.par))
        v.request (responseHeader v.request.date) := by
    simp only [Host.respond, hdyn, if_true, hl.info_eq, filepath_dynamic hdyn, hzero]
  rw [hrespond]
  cases hlib : dlopen (servicePath info (serveTarget v.request.par)) with
  | none =>
    rw [dynamicResponse_unloadable hl rfl _ hlib]
    simp
  | some lib =>
    have hsys : (v.system dlopen).dlopen = dlopen := rfl
    obtain ⟨g, hget, hpost, hresp⟩ :=
      dynamicResponse_loaded hl hsys services (responseHeader v.request.date) hlib
    rw [hresp]
    cases hanswer : serviceAnswer services g (servicePath info (serveTarget v.request.par))
      v.request (responseHeader v.request.date) with
    | none => simp [serviceAnswer_none.mp hanswer]
    | some r =>
      have hfits : ¬ ArgOverlong ((bodyStream v.request.rest v.request.par).take MAXTRUNK) := by
        intro hover
        rw [serviceAnswer_none.mpr hover] at hanswer
        cases hanswer
      have hgood := serviceAnswer_good hanswer
      have hexpected := serviceAnswer_expected hkeep hanswer hget hpost hdyn
      simp [hfits, hgood, hexpected, and_comm]

/-! ## The library of `dllib/dynamic.cpp` -/

/-- Its `get` lists the arguments, and there is no `post`. -/
def listArguments : Services := fun _ _ _ args (res, text) =>
  (res, text ++ args.flatMap fun arg => arg.key ++ byte '=' :: arg.value ++ [LF])

theorem listArguments_keep : listArguments.KeepStatus := fun _ _ _ _ _ => rfl

def dynamicLibrary (_ : Bytes) : Option Library := some ⟨true, false⟩

/-- A request for `/dynamic`, with arguments behind a `?` or without. -/
def dynamicVisit (method : Verb) (query : Option Bytes) : Visit where
  request := .zero ⟨⟨method, 10, ascii "/dynamic", ∅⟩, query, true, false⟩
  access _ := 0
  file _ := ⟨-1, 0, none⟩

def dotInfo : HostInfo := ⟨[], ascii "."⟩

theorem dynamic_status_iff_get :
    ∃ h h' r, Lts.run (visit dynamicLibrary listArguments) (Host.new dotInfo 32)
        [dynamicVisit .post none] = some h ∧
      h.respond ((dynamicVisit .get (ascii "a=b ")).system dynamicLibrary) listArguments
        (dynamicVisit .get (ascii "a=b ")).request = some (h', [r]) ∧
      r.good = true ∧ r.header.status = .ok := by
  have hfits : ¬ ArgOverlong ((bodyStream [] (dynamicVisit .get (ascii "a=b ")).request.par).take
      MAXTRUNK) := by
    rw [← read_none_iff zeroName_size zeroValue_size _ []]
    decide +kernel
  have hshut : ¬ OpenBody (dynamicVisit .get (ascii "a=b ")).request.par [] := by
    rintro ⟨hquery, -, -⟩
    cases hquery
  obtain ⟨h', r, hrespond, hgood, hstatus⟩ :=
    (dynamic_status_iff dynamicLibrary listArguments listArguments_keep dotInfo 32
      [dynamicVisit .post none] _ rfl (dynamicVisit .get (ascii "a=b ")) rfl rfl).mpr
      ⟨⟨⟨true, false⟩, rfl, .inr rfl⟩, hfits, hshut⟩
  exact ⟨_, h', r, rfl, hrespond, hgood, hstatus⟩

/-- A POST with a query is answered with status 500, one to a library that does not load not at
all, and of the response to one with a body nothing goes out. -/
theorem dynamic_post :
    (∃ h r, (Host.new dotInfo 32).respond
        ((dynamicVisit .post (ascii "a=b ")).system dynamicLibrary) listArguments
        (dynamicVisit .post (ascii "a=b ")).request = some (h, [r]) ∧
      r.good = true ∧ r.header.status = .internalServerError ∧
      expectedStatus (dynamicLibrary ((dynamicVisit .post (ascii "a=b ")).path dotInfo)) .post =
        .badRequest) ∧
      (Host.new dotInfo 32).respond ((dynamicVisit .post none).system fun _ => none)
        listArguments (dynamicVisit .post none).request = some (Host.new dotInfo 32, []) ∧
      ∃ h r, (Host.new dotInfo 32).respond ((dynamicVisit .post none).system dynamicLibrary)
          listArguments (dynamicVisit .post none).request = some (h, [r]) ∧
        ∀ results t, r.sent results t = [] := by
  have hquery : ((Host.new dotInfo 32).respond
      ((dynamicVisit .post (ascii "a=b ")).system dynamicLibrary) listArguments
      (dynamicVisit .post (ascii "a=b ")).request).map
        (fun x => x.2.map fun r => (r.good, r.header.status)) =
      some [(true, .internalServerError)] := by
    decide +kernel
  obtain ⟨⟨h, rs⟩, hrespond, hrs⟩ := Option.map_eq_some_iff.mp hquery
  obtain ⟨r, rfl, hr⟩ := List.map_eq_singleton_iff.mp hrs
  obtain ⟨hgood, hstatus⟩ := Prod.mk.inj hr
  refine ⟨⟨h, r, hrespond, hgood, hstatus, rfl⟩, rfl, _, _, rfl, ?_⟩
  refine Response.sent_failed ?_ rfl
  have hopen : OpenBody (dynamicVisit .post none).request.par [] := ⟨rfl, by decide, openArgs_nil⟩
  exact congrArg not ((bodyStarves_iff zeroName_size zeroValue_size).mpr hopen)

end SimpleWeb
