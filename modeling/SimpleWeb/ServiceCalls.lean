import SimpleWeb.Http.ArgumentFailure
import SimpleWeb.DynamicResponse

/-!
# SimpleWeb.ServiceCalls

The calls of services that `host::serve` makes, next to the response it writes with them: the
response depends on the services through these calls alone (`respond_congr`).

`read_body` drops what `vector_body<reqargs>::read` returns, so a service is called with whatever
a failed read has left in the vector. The reader returns without taking back the pairs it has
pushed (`failedArguments_iff`).
-/

namespace SimpleWeb

open Http VectorBody

/-- A call of the function a library exports for a method. -/
structure ServiceCall where
  path : Bytes
  method : Verb
  request : RequestHeader
  args : List ReqArg

/-- What the function returns for a response. -/
def ServiceCall.result (call : ServiceCall) (services : Services) :
    ResponseHeader × Bytes → ResponseHeader × Bytes :=
  services call.path call.method call.request call.args

section Calls

variable {F : Type}

/-- The calls in the switch over the method. -/
def methodCalls (h : Host F) (path : Bytes) (par : Parser) (args : List ReqArg) :
    List ServiceCall :=
  let target := serveTarget par
  let req : RequestHeader := { par.message with target := target }
  match par.message.method with
  | .get => if target ∈ h.getservices then [⟨path, .get, req, args⟩] else []
  | .post => if target ∈ h.postservices then [⟨path, .post, req, args⟩] else []
  | _ => []

/-- The calls behind the service maps; none when a name or a value leaves its array. -/
def answerCalls (h : Host F) (path : Bytes) (q : Request) : Option (List ServiceCall) :=
  (readBody (VectorBody.read q.name q.value) q.rest q.par []).map fun (_, args, _) =>
    methodCalls h path q.par args

def dynamicCalls (sys : System F) (h : Host F) (path : Bytes) (q : Request) :
    Option (List ServiceCall) :=
  if serveTarget q.par ∉ h.getservices ∧ serveTarget q.par ∉ h.postservices then
    match sys.dlopen path with
    | none => some []
    | some lib => answerCalls (h.load (serveTarget q.par) lib) path q
  else answerCalls h path q

/-- The calls of services in `host::serve`. -/
def Host.serviceCalls (sys : System F) (h : Host F) (q : Request) : Option (List ServiceCall) :=
  let path := filepath h.info q.par
  if sys.access path = 0 then
    if isDynamic q.par then dynamicCalls sys h path q else some []
  else some []

/-- The host that stands behind the service maps: a library that is new is loaded. -/
def Host.opened (sys : System F) (h : Host F) (q : Request) : Option (Host F) :=
  (serveDynamic sys h (serveTarget q.par) (filepath h.info q.par)).2

/-- The maps have a function for the target and the method. -/
def Host.Serves (h : Host F) (par : Parser) : Prop :=
  (par.message.method = .get ∧ serveTarget par ∈ h.getservices) ∨
    (par.message.method = .post ∧ serveTarget par ∈ h.postservices)

/-- The request is for a service that is there. -/
def Host.CallsService (sys : System F) (h : Host F) (q : Request) : Prop :=
  sys.access (filepath h.info q.par) = 0 ∧ isDynamic q.par = true ∧
    ∃ g, h.opened sys q = some g ∧ g.Serves q.par

/-- Every service that is called is given the arguments of a read that has succeeded. -/
def Host.GivenParsed (sys : System F) (h : Host F) (q : Request) : Prop :=
  ∀ calls ∈ h.serviceCalls sys q, ∀ call ∈ calls, ∃ n rest,
    VectorBody.read q.name q.value (bodyStream q.rest q.par) [] = some (n, call.args, rest) ∧ 0 ≤ n

end Calls

/-! ## The calls and the response -/

section Congr

variable {F : Type} {services services' : Services} {h : Host F} {path : Bytes}

theorem serviceResponse_congr {par : Parser} {args : List ReqArg} (res : ResponseHeader)
    (hsame : ∀ call ∈ methodCalls h path par args, call.result services = call.result services') :
    serviceResponse services h path par args res =
      serviceResponse services' h path par args res := by
  unfold methodCalls at hsame
  unfold serviceResponse
  cases hmethod : par.message.method with
  | get =>
    simp only [hmethod] at hsame ⊢
    split
    · rename_i hmem
      rw [if_pos hmem] at hsame
      exact congrFun (hsame _ (List.mem_singleton_self _)) _
    · rfl
  | post =>
    simp only [hmethod] at hsame ⊢
    split
    · rename_i hmem
      rw [if_pos hmem] at hsame
      exact congrFun (hsame _ (List.mem_singleton_self _)) _
    · rfl
  | _ => rfl

theorem serviceAnswer_congr {q : Request} (res : ResponseHeader)
    (hsame : ∀ calls ∈ answerCalls h path q, ∀ call ∈ calls,
      call.result services = call.result services') :
    serviceAnswer services h path q res = serviceAnswer services' h path q res := by
  unfold answerCalls at hsame
  unfold serviceAnswer
  cases hread : readBody (VectorBody.read q.name q.value) q.rest q.par [] with
  | none => rfl
  | some r =>
    rw [hread] at hsame
    simp only [Option.map_some]
    rw [serviceResponse_congr res (hsame _ rfl)]

theorem dynamicResponse_congr {sys : System F} {q : Request} (res : ResponseHeader)
    (hsame : ∀ calls ∈ dynamicCalls sys h path q, ∀ call ∈ calls,
      call.result services = call.result services') :
    dynamicResponse sys services h path q res = dynamicResponse sys services' h path q res := by
  unfold dynamicCalls at hsame
  unfold dynamicResponse
  split
  · rename_i hnew
    rw [if_pos hnew] at hsame
    cases hlib : sys.dlopen path with
    | none => rfl
    | some lib =>
      rw [hlib] at hsame
      simp only []
      rw [serviceAnswer_congr res hsame]
  · rename_i hknown
    rw [if_neg hknown] at hsame
    simp only [serviceAnswer_congr res hsame]

/-- Functions that agree on the calls that are made give the same response. -/
theorem respond_congr {sys : System MappedFile} {h : Host MappedFile} {q : Request}
    (hsame : ∀ calls ∈ h.serviceCalls sys q, ∀ call ∈ calls,
      call.result services = call.result services') :
    h.respond sys services q = h.respond sys services' q := by
  unfold Host.serviceCalls at hsame
  unfold Host.respond
  simp only at hsame ⊢
  split
  · rename_i hacc
    rw [if_pos hacc] at hsame
    split
    · rename_i hdyn
      rw [if_pos hdyn] at hsame
      exact dynamicResponse_congr _ hsame
    · rfl
  · rfl

end Congr

/-! ## What a call is given -/

section Given

variable {F : Type} {sys : System F} {h : Host F} {path : Bytes} {q : Request}

theorem mem_methodCalls {par : Parser} {args : List ReqArg} {call : ServiceCall}
    (hcall : call ∈ methodCalls h path par args) : h.Serves par ∧ call.args = args := by
  unfold methodCalls at hcall
  cases hmethod : par.message.method with
  | get =>
    simp only [hmethod] at hcall
    split at hcall
    · rename_i hmem
      rw [List.mem_singleton.mp hcall]
      exact ⟨.inl ⟨hmethod, hmem⟩, rfl⟩
    · cases hcall
  | post =>
    simp only [hmethod] at hcall
    split at hcall
    · rename_i hmem
      rw [List.mem_singleton.mp hcall]
      exact ⟨.inr ⟨hmethod, hmem⟩, rfl⟩
    · cases hcall
  | _ =>
    simp only [hmethod] at hcall
    cases hcall

theorem methodCalls_of_serves {par : Parser} (hserves : h.Serves par) (args : List ReqArg) :
    ∃ call ∈ methodCalls h path par args, call.args = args := by
  unfold methodCalls
  rcases hserves with ⟨hmethod, hmem⟩ | ⟨hmethod, hmem⟩
  · simp [hmethod, hmem]
  · simp [hmethod, hmem]

theorem answerCalls_eq (h : Host F) (path : Bytes) (q : Request) :
    answerCalls h path q = (VectorBody.read q.name q.value (bodyStream q.rest q.par) []).map
      fun r => methodCalls h path q.par r.2.1 := by
  have hbody := readBody_body (VectorBody.read q.name q.value) q.rest q.par []
  have hmap := congrArg (Option.map (methodCalls h path q.par)) hbody
  rw [Option.map_map, Option.map_map] at hmap
  exact hmap

/-- Where a service is there, it is called when the arguments were read. -/
theorem serviceCalls_eq (hcalls : h.CallsService sys q) : ∃ g : Host F, g.Serves q.par ∧
    h.serviceCalls sys q = (VectorBody.read q.name q.value (bodyStream q.rest q.par) []).map
      fun r => methodCalls g (filepath h.info q.par) q.par r.2.1 := by
  obtain ⟨hacc, hdyn, g, hopened, hserves⟩ := hcalls
  refine ⟨g, hserves, ?_⟩
  rw [← answerCalls_eq]
  simp only [Host.serviceCalls, hacc, hdyn, if_true]
  unfold Host.opened serveDynamic at hopened
  unfold dynamicCalls
  split at hopened
  · rename_i hnew
    rw [if_pos hnew]
    cases hlib : sys.dlopen (filepath h.info q.par) with
    | none =>
      -- without a library the maps stay as they were
      rw [hlib] at hopened
      cases hopened
      rcases hserves with ⟨-, hmem⟩ | ⟨-, hmem⟩
      · exact absurd hmem hnew.1
      · exact absurd hmem hnew.2
    | some lib =>
      rw [hlib] at hopened
      cases hopened
      rfl
  · rename_i hknown
    rw [if_neg hknown]
    cases hopened
    rfl

/-- And nowhere else. -/
theorem callsService_of_mem {calls : List ServiceCall} {call : ServiceCall}
    (hcalls : h.serviceCalls sys q = some calls) (hcall : call ∈ calls) : h.CallsService sys q := by
  unfold Host.serviceCalls at hcalls
  simp only at hcalls
  split at hcalls
  · rename_i hacc
    split at hcalls
    · rename_i hdyn
      refine ⟨hacc, hdyn, ?_⟩
      unfold dynamicCalls at hcalls
      unfold Host.opened serveDynamic
      split at hcalls
      · rename_i hnew
        rw [if_pos hnew]
        cases hlib : sys.dlopen (filepath h.info q.par) with
        | none =>
          rw [hlib] at hcalls
          cases hcalls
          cases hcall
        | some lib =>
          rw [hlib] at hcalls
          obtain ⟨r, -, rfl⟩ := Option.map_eq_some_iff.mp hcalls
          exact ⟨_, rfl, (mem_methodCalls hcall).1⟩
      · rename_i hknown
        rw [if_neg hknown]
        obtain ⟨r, -, rfl⟩ := Option.map_eq_some_iff.mp hcalls
        exact ⟨h, rfl, (mem_methodCalls hcall).1⟩
    · cases hcalls
      cases hcall
  · cases hcalls
    cases hcall

theorem givenParsed_iff (sys : System F) (h : Host F) (q : Request) :
    h.GivenParsed sys q ↔ ¬ (h.CallsService sys q ∧
      ∃ bs, ArgRejected bs ((bodyStream q.rest q.par).take MAXTRUNK)) := by
  rw [← read_neg_iff q.name_size q.value_size []]
  constructor
  · rintro hgiven ⟨hcalls, n, b, rest, hread, hneg⟩
    obtain ⟨g, hserves, heq⟩ := serviceCalls_eq hcalls
    rw [hread, Option.map_some] at heq
    obtain ⟨call, hcall, -⟩ := methodCalls_of_serves hserves b
    obtain ⟨m, rest', hread', hpos⟩ := hgiven _ heq call hcall
    rw [hread] at hread'
    cases hread'
    omega
  · intro hnot calls heq call hcall
    have hservice := callsService_of_mem heq hcall
    obtain ⟨g, -, heq'⟩ := serviceCalls_eq hservice
    rw [heq'] at heq
    obtain ⟨⟨n, b, rest⟩, hread, rfl⟩ := Option.map_eq_some_iff.mp heq
    have hargs := (mem_methodCalls hcall).2
    refine ⟨n, rest, by rw [hargs]; exact hread, ?_⟩
    by_contra hneg
    exact hnot ⟨hservice, n, b, rest, hread, by omega⟩

end Given

/-- For every stream and every vector, and for every request to a host: a failed read leaves the
vector as it was exactly when no pair stands in front of the byte that is refused, and a service
is given the arguments of a successful read exactly when none is called, or no byte is refused. -/
theorem failedArguments_iff {F : Type} (q : Request) (is : Bytes) (body : List ReqArg)
    (sys : System F) (h : Host F) :
    (Atomic q.name q.value is body ↔ ∀ bs, ArgRejected bs (is.take MAXTRUNK) → bs = []) ∧
      (h.GivenParsed sys q ↔ ¬ (h.CallsService sys q ∧
        ∃ bs, ArgRejected bs ((bodyStream q.rest q.par).take MAXTRUNK))) :=
  ⟨atomic_iff q.name_size q.value_size, givenParsed_iff sys h q⟩

/-! ## A query whose last argument has no value -/

theorem aKey_ok : ∀ c ∈ ascii "a", isArgName c = true := by decide +kernel

theorem bKey_ok : ∀ c ∈ ascii "b", isArgName c = true := by decide +kernel

theorem oneText_ok : ∀ c ∈ ascii "1", isArgValue c = true := by decide +kernel

def bareArgs : Bytes := ascii "a=1&b "

theorem bareArgs_rejected : ArgRejected (ascii "a=1&") (bareArgs.take MAXTRUNK) := by
  have hsegs : Segments (ascii "a=1&") 0 :=
    .snoc .nil (.pair ⟨ascii "a", aKey_ok⟩ ⟨ascii "1", oneText_ok⟩) ⟨by decide, by decide⟩
  have hbytes : bareArgs.take MAXTRUNK = ascii "a=1&" ++ ascii "b" ++ byte ' ' :: [] := by decide
  rw [hbytes]
  exact .name hsegs ⟨ascii "b", bKey_ok⟩ (.inr (by decide)) (by decide)

theorem bareArgs_calls :
    (Host.new dotInfo 32).CallsService ((dynamicVisit .get bareArgs).system dynamicLibrary)
      (dynamicVisit .get bareArgs).request :=
  ⟨rfl, rfl, _, rfl, .inl ⟨rfl, List.mem_singleton_self _⟩⟩

/-- `GET /dynamic?a=1&b`: the space behind the `b` is refused, the pair in front of it stays in
the vector, and the service is called with it. -/
theorem failedArguments_bare :
    ¬ Atomic (dynamicVisit .get bareArgs).request.name (dynamicVisit .get bareArgs).request.value
        bareArgs [] ∧
      ¬ (Host.new dotInfo 32).GivenParsed ((dynamicVisit .get bareArgs).system dynamicLibrary)
        (dynamicVisit .get bareArgs).request := by
  refine ⟨?_, ?_⟩
  · intro hatomic
    have hnil := (atomic_iff (dynamicVisit .get bareArgs).request.name_size
      (dynamicVisit .get bareArgs).request.value_size).mp hatomic _ bareArgs_rejected
    exact absurd hnil (by decide)
  · rw [givenParsed_iff]
    exact not_not.mpr ⟨bareArgs_calls, _, bareArgs_rejected⟩

end SimpleWeb
