import SimpleWeb.AccessLog
import SimpleWeb.MappedFile
import SimpleWeb.Http.ResponseWrite
import SimpleWeb.Http.VectorBody

/-!
# SimpleWeb.Response

The responses of `host::serve` (`Gateway.cpp`): what it writes on the connection for one request,
next to the calls it makes (`serve`) and the record it logs (`serveLog`).

A file comes out of the cache or is opened and put into it (`servedFile_eq`). A service is a
function of a library, entered into two maps of the host under the target, one for each method.

The response goes out on the stream the request came from. A body that is read to the end of the
connection leaves `eofbit` and `failbit` there, and behind them the head and a string are not
written at all (`Response.sent_failed`).
-/

namespace SimpleWeb

open Http FileBody

def ServerVersion : Bytes := ascii "SimpleWeb/0.1"

/-- `std::to_string` of an unsigned number -/
def toDecimal (n : Nat) : Bytes :=
  (if n = 0 then [0] else Nat.digits 10 n).reverse.map fun d => byte '0' + UInt8.ofNat d

def ofDecimal (text : Bytes) : Nat :=
  Nat.ofDigits 10 (text.reverse.map fun c => (c - byte '0').toNat)

theorem ofDecimal_toDecimal (n : Nat) : ofDecimal (toDecimal n) = n := by
  have hdigits : ∀ ds : List Nat, (∀ d ∈ ds, d < 10) →
      ofDecimal (ds.reverse.map fun d => byte '0' + UInt8.ofNat d) = Nat.ofDigits 10 ds := by
    intro ds hlt
    have hmap : ds.map (fun d => (byte '0' + UInt8.ofNat d - byte '0').toNat) = ds := by
      refine (List.map_congr_left ?_).trans (List.map_id ds)
      intro d hd
      have hd := hlt d hd
      rw [UInt8.add_comm, UInt8.add_sub_cancel, UInt8.toNat_ofNat', Nat.mod_eq_of_lt (by omega)]
      rfl
    rw [ofDecimal, ← List.map_reverse, List.reverse_reverse, List.map_map]
    exact congrArg (Nat.ofDigits 10) hmap
  rw [toDecimal]
  split
  · rename_i hzero
    rw [hdigits [0] (by simp), hzero]
    rfl
  · rw [hdigits _ fun d hd => Nat.digits_lt_base (by decide) hd, Nat.ofDigits_digits]

theorem toDecimal_inj {m n : Nat} (h : toDecimal m = toDecimal n) : m = n := by
  rw [← ofDecimal_toDecimal m, h, ofDecimal_toDecimal]

inductive Body where
  | string (text : Bytes)
  | file (f : MappedFile)

def Body.written : Body → ResponseBody
  | .string text => .string text
  | .file f => f.body

/-- A response, and whether the stream is good it is written on. -/
structure Response where
  header : ResponseHeader
  body : Body
  good : Bool

/-- Everything sent after `t` calls, as in `ResponseHeader.sent`, from the stream as it is. -/
def Response.sent (r : Response) (results : Nat → SputnResult) (t : Nat) : Bytes :=
  bodySent results
    ((r.header.writeHeader.1.take t).foldl (Ostream.insert fun k => (results k).res)
      ⟨0, [], !r.good⟩)
    r.body.written (t - r.header.writeHeader.1.length)

theorem Response.sent_good {r : Response} (h : r.good = true) (results : Nat → SputnResult)
    (t : Nat) : r.sent results t = r.header.sent r.body.written results t := by
  rw [Response.sent, h]
  rfl

theorem Response.sent_failed {r : Response} (h : r.good = false) {text : Bytes}
    (hbody : r.body = .string text) (results : Nat → SputnResult) (t : Nat) :
    r.sent results t = [] := by
  have hbad : (⟨0, [], !r.good⟩ : Ostream.Sink UInt8).bad = true := by rw [h]; rfl
  rw [Response.sent, Ostream.foldl_bad hbad, hbody]
  cases t - r.header.writeHeader.1.length with
  | zero => rfl
  | succ k =>
    show (Ostream.insert _ _ text).sent = []
    rw [Ostream.insert_bad hbad]

/-- `res_h` at the start of `serve` -/
def responseHeader (date : Bytes) : ResponseHeader :=
  ⟨.internalServerError, 10,
    ((∅ : Fields).insert (ascii "Date") date).insert (ascii "Server") ServerVersion⟩

def Http.ResponseHeader.set (m : ResponseHeader) (name value : Bytes) : ResponseHeader :=
  { m with fields := m.fields.insert name value }

/-- The header with another status, `res_h.result(s)` -/
def Http.ResponseHeader.result (m : ResponseHeader) (s : Status) : ResponseHeader :=
  { m with status := s }

def getcontent_type (hash : UInt32) : Bytes :=
  if hash = 6640 then ascii "text/plain"
  else if hash = 43301 then ascii "text/html"
  else if hash = 6539 then ascii "text/css"
  else if hash = 5988 then ascii "image/svg+xml"
  else if hash = 911 then ascii "text/javascript"
  else if hash = 5929 then ascii "image/png"
  else if hash = 41168 then ascii "image/jpeg"
  else if hash = 5839 then ascii "image/gif"
  else if hash = 6237 then ascii "image/x-icon"
  else ascii "text/plain"

/-- The loop over the path from its end, on the path in reverse: it stops in front of the first
byte, and a `char` is signed. -/
def hashSuffix : Bytes → UInt32 → UInt32
  | [], hash => hash
  | [_], hash => hash
  | c :: c' :: cs, hash =>
    if c = byte '.' then hash
    else hashSuffix (c' :: cs) (hash * 7 + c.toInt8.toInt32.toUInt32)

/-! ## Files -/

section Static

variable {F : Type}

/-- The file a path gets from the cache, or else from `file`, and the host behind that. -/
def servedFile (sys : System F) (h : Host F) (path : Bytes) : Option (Host F × F) :=
  match h.filecaches.get path with
  | none => none
  | some (c, some _) => do
    let (c, node) ← c.get path
    let f ← (← node).fptr
    some ({ h with filecaches := c }, f)
  | some (c, none) => do
    let (c, node) ← c.set path (sys.file path)
    let f ← node.fptr
    some ({ h with filecaches := c }, f)

/-- The file that is served is the one the cache holds for the path, or else a new one. -/
theorem servedFile_eq {sys : System F} {h h' : Host F} {path : Bytes} {f : F}
    (hs : servedFile sys h path = some (h', f)) :
    f = (h.filecaches.cached path).getD (sys.file path) := by
  rw [Filecaches.cached]
  unfold servedFile at hs
  split at hs
  · cases hs
  · rename_i c node hget
    obtain ⟨c', hagain⟩ := Filecaches.get_again hget
    rw [hget]
    simp only [hagain, Option.bind_eq_bind, Option.bind_some, Option.bind_eq_some_iff] at hs ⊢
    obtain ⟨f', hf, heq⟩ := hs
    cases heq
    rw [hf]
    rfl
  · rename_i c hget
    obtain ⟨hmiss, rfl⟩ := Filecaches.get_end hget
    rw [hget]
    simp only [Option.bind_eq_bind, Option.bind_eq_some_iff] at hs
    obtain ⟨⟨c', node⟩, hset, f', hf, heq⟩ := hs
    cases heq
    rw [Filecaches.set_fptr hmiss hset] at hf
    exact (Option.some.inj hf).symm

/-- A file is served when the cache can be used, and only then. -/
theorem servedFile_isSome {sys : System F} {h : Host F} {path : Bytes} :
    (servedFile sys h path).isSome ↔ h.filecaches.Usable path := by
  unfold Filecaches.Usable servedFile
  cases hmap : h.filecaches.cachemap[path]? with
  | none =>
    have hget : h.filecaches.get path = some (h.filecaches, none) := by
      simp only [Filecaches.get, hmap]
    rw [hget, ← Filecaches.set_miss_isSome hmap (sys.file path)]
    cases hset : h.filecaches.set path (sys.file path) with
    | none => simp [hset]
    | some r =>
      have hfptr : r.2.fptr = some (sys.file path) := Filecaches.set_fptr hmap hset
      simp [hset, hfptr]
  | some it =>
    cases hfind : h.filecaches.cachelist.find? fun x => x.addr = it with
    | none =>
      rw [Filecaches.get_dead hmap hfind]
      simp [hfind]
    | some x =>
      obtain ⟨c, hget⟩ := Filecaches.get_live hmap hfind
      obtain ⟨c', hagain⟩ := Filecaches.get_again hget
      cases hfptr : x.node.fptr with
      | none => simp [hget, hagain, hfind, hfptr]
      | some f => simp [hget, hagain, hfind, hfptr]

/-- The host behind it is the one `serveStatic` leaves. -/
theorem servedFile_host {sys : System F} {h h' : Host F} {path : Bytes} {f : F}
    (hs : servedFile sys h path = some (h', f)) : (serveStatic sys h path).2 = some h' := by
  rcases hfirst : h.filecaches.get path with _ | ⟨c, _ | first⟩
  · rw [servedFile, hfirst] at hs
    cases hs
  · rw [servedFile, hfirst] at hs
    simp only [Option.bind_eq_bind, Option.bind_eq_some_iff] at hs
    obtain ⟨⟨c', node⟩, hset, _, _, heq⟩ := hs
    cases heq
    rw [serveStatic, hfirst]
    simp only [hset, Option.map_some]
  · rw [servedFile, hfirst] at hs
    simp only [Option.bind_eq_bind, Option.bind_eq_some_iff] at hs
    obtain ⟨⟨c', node⟩, hget, _, _, _, _, heq⟩ := hs
    cases heq
    rw [serveStatic, hfirst]
    simp only [hget, Option.map_some]

end Static

def staticResponse (sys : System MappedFile) (h : Host MappedFile) (path : Bytes)
    (res : ResponseHeader) : Option (Host MappedFile × Response) :=
  let res := res.result .ok
  let res := res.set (ascii "Content-type") (getcontent_type (hashSuffix path.reverse 0))
  let res := res.set (ascii "Connection") (ascii "keep-alive")
  (servedFile sys h path).map fun (h, f) =>
    (h, ⟨res.set (ascii "Content-Length") (toDecimal f.size), .file f, true⟩)

/-- The answer when `access` gave the error `ec`. -/
def deniedResponse (ec : Nat) (res : ResponseHeader) : Response :=
  let res := res.set (ascii "Content-type") (ascii "text/plain; charset=UTF-8")
  let res := res.result (accessResult ec)
  ⟨res, .string res.status.toString, true⟩

/-! ## Services -/

/-- A function of a library: it is given the request and its arguments, and changes the response. -/
abbrev Service := RequestHeader → List ReqArg → ResponseHeader × Bytes → ResponseHeader × Bytes

/-- The functions of the libraries, by path and method. -/
abbrev Services := Bytes → Verb → Service

/-- A request as `serve` finds it: its parser, the stream behind the head, the time, and what the
arrays of `read_body` hold. -/
structure Request where
  par : Parser
  rest : Bytes
  date : Bytes
  name : Bytes
  name_size : name.length = MAXFIELDNAME
  value : Bytes
  value_size : value.length = MAXFIELDVALUE

theorem zeroName_size : (List.replicate MAXFIELDNAME 0 : Bytes).length = MAXFIELDNAME :=
  List.length_replicate

theorem zeroValue_size : (List.replicate MAXFIELDVALUE 0 : Bytes).length = MAXFIELDVALUE :=
  List.length_replicate

/-- A head and nothing behind it, with zeros in the arrays. -/
def Request.zero (par : Parser) : Request :=
  ⟨par, [], [], List.replicate MAXFIELDNAME 0, zeroName_size, List.replicate MAXFIELDVALUE 0,
    zeroValue_size⟩

section Dynamic

variable {F : Type}

/-- The switch over the method. Without a `post` the status stays what it was. -/
def serviceResponse (services : Services) (h : Host F) (path : Bytes) (par : Parser)
    (args : List ReqArg) (res : ResponseHeader) : ResponseHeader × Bytes :=
  let target := serveTarget par
  let req : RequestHeader := { par.message with target := target }
  match par.message.method with
  | .get =>
    if target ∈ h.getservices then services path .get req args (res.result .ok, [])
    else
      let res := res.result .badRequest
      (res, res.status.toString)
  | .post =>
    if target ∈ h.postservices then services path .post req args (res.result .ok, [])
    else (res, Status.badRequest.toString ++ res.status.toString)
  | _ => (res.result .badRequest, Status.badRequest.toString)

/-- The response behind the service maps, on the stream `read_body` leaves; none when a name or a
value leaves its array. -/
def serviceAnswer (services : Services) (h : Host F) (path : Bytes) (q : Request)
    (res : ResponseHeader) : Option Response :=
  (readBody (VectorBody.read q.name q.value) q.rest q.par []).map fun (_, args, _) =>
    let (res, text) := serviceResponse services h path q.par args res
    ⟨res.set (ascii "Content-Length") (toDecimal text.length), .string text,
      !VectorBody.bodyStarves q.name q.value q.rest q.par⟩

/-- A library that does not load ends the request without a response. -/
def dynamicResponse (sys : System F) (services : Services) (h : Host F) (path : Bytes)
    (q : Request) (res : ResponseHeader) : Option (Host F × List Response) :=
  let answer := fun h => (serviceAnswer services h path q res).map fun r => (h, [r])
  if serveTarget q.par ∉ h.getservices ∧ serveTarget q.par ∉ h.postservices then
    match sys.dlopen path with
    | none => some (h, [])
    | some lib => answer (h.load (serveTarget q.par) lib)
  else answer h

theorem dynamicResponse_host {sys : System F} {services : Services} {h h' : Host F}
    {path : Bytes} {q : Request} {res : ResponseHeader} {rs : List Response}
    (hr : dynamicResponse sys services h path q res = some (h', rs)) :
    (serveDynamic sys h (serveTarget q.par) path).2 = some h' := by
  unfold dynamicResponse at hr
  unfold serveDynamic
  split at hr
  · rename_i hnew
    rw [if_pos hnew]
    cases hlib : sys.dlopen path with
    | none =>
      rw [hlib] at hr
      cases hr
      rfl
    | some lib =>
      rw [hlib] at hr
      obtain ⟨r, -, heq⟩ := Option.map_eq_some_iff.mp hr
      cases heq
      rfl
  · rename_i hknown
    rw [if_neg hknown]
    obtain ⟨r, -, heq⟩ := Option.map_eq_some_iff.mp hr
    cases heq
    rfl

end Dynamic

/-- `host::serve`: the host it leaves and the responses it writes; none when the cache used a dead
iterator or the arguments left an array. -/
def Host.respond (sys : System MappedFile) (services : Services) (h : Host MappedFile)
    (q : Request) : Option (Host MappedFile × List Response) :=
  let path := filepath h.info q.par
  let res := responseHeader q.date
  if sys.access path = 0 then
    if isDynamic q.par then dynamicResponse sys services h path q res
    else (staticResponse sys h path res).map fun (h, r) => (h, [r])
  else some (h, [deniedResponse (sys.access path) res])

section Respond

variable {sys : System MappedFile} {h : Host MappedFile} {q : Request}

theorem Host.respond_static (services : Services) (hacc : sys.access (filepath h.info q.par) = 0)
    (hstatic : isDynamic q.par = false) :
    h.respond sys services q = (staticResponse sys h (filepath h.info q.par)
      (responseHeader q.date)).map fun (h, r) => (h, [r]) := by
  simp only [Host.respond, hacc, if_true, hstatic, Bool.false_eq_true, if_false]

theorem Host.respond_denied (services : Services) (hacc : sys.access (filepath h.info q.par) ≠ 0) :
    h.respond sys services q =
      some (h, [deniedResponse (sys.access (filepath h.info q.par)) (responseHeader q.date)]) :=
  if_neg hacc

/-- A request is for a service, for a file, or for what cannot be read. -/
theorem Host.respond_cases {services : Services} {h' : Host MappedFile} {rs : List Response}
    (hr : h.respond sys services q = some (h', rs)) :
    (sys.access (filepath h.info q.par) = 0 ∧ isDynamic q.par = true ∧
      dynamicResponse sys services h (filepath h.info q.par) q (responseHeader q.date) =
        some (h', rs)) ∨
    (sys.access (filepath h.info q.par) = 0 ∧ isDynamic q.par = false ∧
      ∃ r, staticResponse sys h (filepath h.info q.par) (responseHeader q.date) = some (h', r) ∧
        rs = [r]) ∨
    (sys.access (filepath h.info q.par) ≠ 0 ∧ h' = h ∧
      rs = [deniedResponse (sys.access (filepath h.info q.par)) (responseHeader q.date)]) := by
  by_cases hacc : sys.access (filepath h.info q.par) = 0
  · cases hdyn : isDynamic q.par with
    | true =>
      simp only [Host.respond, hacc, if_true, hdyn] at hr
      exact .inl ⟨hacc, rfl, hr⟩
    | false =>
      rw [Host.respond_static services hacc hdyn] at hr
      obtain ⟨⟨h₁, r⟩, hstatic, heq⟩ := Option.map_eq_some_iff.mp hr
      cases heq
      exact .inr (.inl ⟨hacc, rfl, r, hstatic, rfl⟩)
  · rw [Host.respond_denied services hacc] at hr
    cases hr
    exact .inr (.inr ⟨hacc, rfl, rfl⟩)

/-- `respond` leaves the host that `serve` leaves. -/
theorem Host.respond_host {services : Services} {h' : Host MappedFile} {rs : List Response}
    (hr : h.respond sys services q = some (h', rs)) : (serve sys h q.par).2 = some h' := by
  unfold serve
  rcases Host.respond_cases hr with ⟨hacc, hdyn, hdynamic⟩ | ⟨hacc, hdyn, r, hstatic, -⟩ |
    ⟨hacc, rfl, -⟩
  · rw [if_pos hacc, serveReadable, if_pos hdyn]
    exact dynamicResponse_host hdynamic
  · obtain ⟨⟨h₁, f⟩, hfile, heq⟩ := Option.map_eq_some_iff.mp hstatic
    cases heq
    rw [if_pos hacc, serveReadable, hdyn, if_neg Bool.false_ne_true]
    exact servedFile_host hfile
  · rw [if_neg hacc]

end Respond

end SimpleWeb
