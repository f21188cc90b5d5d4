import SimpleWeb.Response

/-!
# SimpleWeb.StaticResponse

Static responses against the files they are about. `access` asks whether a file can be read; what
is sent depends on whether it could also be opened for writing and mapped, now or when it came
into the cache. The length is taken from `stat` in any case, so a file that may only be read is
announced and not sent. And a path that has been evicted leaves a dead iterator behind, through
which there is nothing to serve (`static_truthful_iff`).
-/

namespace SimpleWeb

open Http FileBody

/-- Every write takes what it is offered, as far as that can be read. -/
structure Response.Complete (r : Response) (results : Nat → SputnResult) : Prop where
  head : Ostream.Taken (fun k => (results k).res) r.header.writeHeader.1
  body : match r.body with
    | .string text => (results r.header.writeHeader.1.length).res = text.length
    | .file f => f.Written fun i => results (r.header.writeHeader.1.length + i)

/-- A response of status 200 that announces `n` bytes sends `n` bytes behind its head, and they
are `contents`. -/
def Response.Truthful (r : Response) (results : Nat → SputnResult) (contents : Bytes) : Prop :=
  r.header.status = .ok → ∀ n, r.header.fields[ascii "Content-Length"]? = some (toDecimal n) →
    contents.length = n ∧ ∃ t, ∀ t', t ≤ t' →
      r.sent results t' = r.header.writeHeader.1.flatten ++ contents

/-- The size is the number of bytes, and they are in memory; more of them than an `int` counts
are never sent. -/
structure MappedFile.Holds (f : MappedFile) (contents : Bytes) : Prop where
  size : contents.length = f.size
  memory : contents = [] ∨ (contents <+: f.memory ∧ contents.length < 2147483648)

/-- The system with the files of `fs`. -/
def FileSystem.system (fs : FileSystem) (access : Bytes → Nat)
    (dlopen : Bytes → Option Library) : System MappedFile :=
  ⟨access, dlopen, fun path => openfile fs path .inOut⟩

theorem FileSystem.system_file (fs : FileSystem) (access : Bytes → Nat)
    (dlopen : Bytes → Option Library) (path : Bytes) :
    (fs.system access dlopen).file path = openfile fs path .inOut := rfl

section Truthful

variable {r : Response} {results : Nat → SputnResult} {contents : Bytes} {f : MappedFile}

theorem sent_file (hc : r.Complete results) (hgood : r.good = true) (hbody : r.body = .file f)
    (k : Nat) :
    r.sent results (r.header.writeHeader.1.length + k) =
      r.header.writeHeader.1.flatten ++
        (FileBody.write f.size (fun i => results (r.header.writeHeader.1.length + i))
          k).accepted.map fun i => f.memory.getD i 0 := by
  rw [Response.sent_good hgood, ResponseHeader.sent, List.take_of_length_le (by omega),
    Ostream.insertAll_taken hc.head, Nat.add_sub_cancel_left, hbody]
  rfl

theorem sends_iff_sent (hc : r.Complete results) (hgood : r.good = true)
    (hbody : r.body = .file f) :
    (∃ t, ∀ t', t ≤ t' →
        r.sent results t' = r.header.writeHeader.1.flatten ++ contents) ↔
      f.Sends (fun i => results (r.header.writeHeader.1.length + i)) contents := by
  constructor
  · rintro ⟨t, ht⟩
    refine ⟨t, ?_⟩
    intro j hj
    have hsent := ht (r.header.writeHeader.1.length + j) (by omega)
    rw [sent_file hc hgood hbody] at hsent
    exact List.append_cancel_left hsent
  · rintro ⟨k, hk⟩
    refine ⟨r.header.writeHeader.1.length + k, ?_⟩
    intro t' ht'
    obtain ⟨j, rfl⟩ := Nat.exists_eq_add_of_le ht'
    rw [Nat.add_assoc, sent_file hc hgood hbody, hk (k + j) (by omega)]

/-- A file is announced with its size, so what matters is the file. -/
theorem truthful_file_iff (hc : r.Complete results) (hgood : r.good = true)
    (hbody : r.body = .file f) (hstatus : r.header.status = .ok)
    (hlength : r.header.fields[ascii "Content-Length"]? = some (toDecimal f.size)) :
    r.Truthful results contents ↔ f.Holds contents := by
  have hwritten : f.Written fun i => results (r.header.writeHeader.1.length + i) := by
    have hbody' := hc.body
    rwa [hbody] at hbody'
  constructor
  · intro htruth
    obtain ⟨hsize, hsent⟩ := htruth hstatus f.size hlength
    exact ⟨hsize, (sends_iff hwritten hsize).mp ((sends_iff_sent hc hgood hbody).mp hsent)⟩
  · rintro ⟨hsize, hmem⟩ _ n hn
    rw [hlength] at hn
    have heq := toDecimal_inj (Option.some.inj hn)
    exact ⟨hsize.trans heq,
      (sends_iff_sent hc hgood hbody).mpr ((sends_iff hwritten hsize).mpr hmem)⟩

theorem staticResponse_isSome {sys : System MappedFile} {h : Host MappedFile} {path : Bytes}
    {res : ResponseHeader} :
    (staticResponse sys h path res).isSome ↔ h.filecaches.Usable path := by
  rw [staticResponse, Option.isSome_map, servedFile_isSome]

/-- What `serve` says about the file it has got -/
theorem staticResponse_some {sys : System MappedFile} {h h' : Host MappedFile} {path : Bytes}
    {res : ResponseHeader} (hr : staticResponse sys h path res = some (h', r)) :
    ∃ f, servedFile sys h path = some (h', f) ∧ r.good = true ∧ r.body = .file f ∧
      r.header.status = .ok ∧
      r.header.fields[ascii "Content-Length"]? = some (toDecimal f.size) := by
  obtain ⟨⟨h₁, f⟩, hfile, heq⟩ := Option.map_eq_some_iff.mp hr
  cases heq
  exact ⟨f, hfile, rfl, rfl, rfl, by simp [ResponseHeader.set]⟩

theorem accessResult_ne_ok (ec : Nat) : accessResult ec ≠ .ok := by
  unfold accessResult
  split
  · simp
  · split <;> simp

theorem denied_truthful {ec : Nat} {res : ResponseHeader} :
    (deniedResponse ec res).Truthful results contents :=
  fun hstatus => absurd hstatus (accessResult_ne_ok ec)

end Truthful

/-- For every outcome of `access`, `open`, `stat` and `mmap` and every state of the cache: with
writes that complete, a static request has an outcome, and a response of status 200 announces and
sends the contents of its file, exactly when the cache can be used for its path, and the file in
it, or else the one that is opened, has them. -/
theorem static_truthful_iff (access : Bytes → Nat) (dlopen : Bytes → Option Library)
    (fs : FileSystem) (services : Services) (h : Host MappedFile) (q : Request)
    (results : Nat → SputnResult) (contents : Bytes) (hstatic : isDynamic q.par = false)
    (hc : ∀ h' rs, h.respond (fs.system access dlopen) services q = some (h', rs) →
      ∀ r ∈ rs, r.Complete results) :
    (∃ h' rs, h.respond (fs.system access dlopen) services q = some (h', rs) ∧
        ∀ r ∈ rs, r.Truthful results contents) ↔
      (access (filepath h.info q.par) = 0 →
        h.filecaches.Usable (filepath h.info q.par) ∧
        ((h.filecaches.cached (filepath h.info q.par)).getD
          (openfile fs (filepath h.info q.par) .inOut)).Holds contents) := by
  by_cases hacc : access (filepath h.info q.par) = 0
  · have hzero : (fs.system access dlopen).access (filepath h.info q.par) = 0 := hacc
    have hrespond := Host.respond_static services hzero hstatic
    have husable : (staticResponse (fs.system access dlopen) h (filepath h.info q.par)
        (responseHeader q.date)).isSome ↔ h.filecaches.Usable (filepath h.info q.par) :=
      staticResponse_isSome
    cases hresp : staticResponse (fs.system access dlopen) h (filepath h.info q.par)
      (responseHeader q.date) with
    | none =>
      rw [hresp] at hrespond husable
      simp [hrespond, hacc, ← husable]
    | some x =>
      obtain ⟨h', r⟩ := x
      rw [hresp] at hrespond husable
      obtain ⟨f, hfile, hgood, hbody, hstatus, hlength⟩ := staticResponse_some hresp
      have htruth : r.Truthful results contents ↔ f.Holds contents :=
        truthful_file_iff (hc h' [r] hrespond r (List.mem_singleton_self r)) hgood hbody hstatus
          hlength
      rw [servedFile_eq hfile] at htruth
      simp only [hrespond, hacc, ← husable, Option.map_some, Option.isSome_some, true_and,
        forall_const]
      rw [← FileSystem.system_file fs access dlopen, ← htruth]
      simp
  · have hdenied : (fs.system access dlopen).access (filepath h.info q.par) ≠ 0 := hacc
    have hrespond := Host.respond_denied services hdenied
    refine iff_of_true ⟨h, _, hrespond, ?_⟩ fun h => absurd h hacc
    intro r hr
    rw [List.mem_singleton.mp hr]
    exact denied_truthful

/-! ## A file of five bytes -/

/-- Everything takes a head of these texts, and `r` is what every call behind it returns. -/
def replies (texts : List Bytes) (r : SputnResult) (k : Nat) : SputnResult :=
  (texts[k]?.map fun text => ⟨text.length, false⟩).getD r

theorem replies_head (texts : List Bytes) (r : SputnResult) :
    Ostream.Taken (fun k => (replies texts r k).res) texts := by
  intro j u hj
  simp [replies, hj]

theorem replies_body (texts : List Bytes) (r : SputnResult) (i : Nat) :
    replies texts r (texts.length + i) = r := by
  simp [replies]

/-- A file that can be read, and written as well or not. -/
def helloFiles (writable : Bool) : FileSystem where
  openAt _ flag :=
    match flag with
    | .rdonly => 3
    | _ => if writable then 3 else -1
  stat _ := (0, 5)
  mmap fd _ := if 0 ≤ fd then some (ascii "hello") else none

def helloFile (writable : Bool) : MappedFile := openfile (helloFiles writable) [] .inOut

/-- A host with the default docroot and nothing in its cache. -/
def coldHost : Host MappedFile := ⟨⟨[], ascii "."⟩, [], [], .init 1⟩

/-- `GET /index.html HTTP/1.0` -/
def indexRequest : Request := .zero ⟨⟨.get, 10, ascii "/index.html", ∅⟩, none, true, false⟩

/-- What `serve` sends of the file. -/
def helloResponse (writable : Bool) : Response where
  header :=
    ((((responseHeader []).result .ok).set (ascii "Content-type") (ascii "text/html")).set
      (ascii "Connection") (ascii "keep-alive")).set (ascii "Content-Length") (ascii "5")
  body := .file (helloFile writable)
  good := true

/-- Every path can be read. -/
def readable (_ : Bytes) : Nat := 0

theorem respond_hello (writable : Bool) :
    ∃ h', coldHost.respond ((helloFiles writable).system readable fun _ => none)
      (fun _ _ _ _ res => res) indexRequest = some (h', [helloResponse writable]) :=
  ⟨_, rfl⟩

/-- What the socket answers: it takes all five bytes, or there is no memory to take them from. -/
def helloAnswer (writable : Bool) : SputnResult := if writable then ⟨5, false⟩ else ⟨-1, true⟩

def helloReplies (writable : Bool) : Nat → SputnResult :=
  replies (helloResponse writable).header.writeHeader.1 (helloAnswer writable)

theorem written_once {f : MappedFile} {r : SputnResult} {size : Nat} {s : WriteVars}
    (hsize : f.size = size) (hfirst : SocketTakes f.memory ⟨toInt32 size, 0, []⟩ r)
    (hret : FileBody.write size (fun _ => r) 1 = .returned s) : f.Written fun _ => r := by
  subst hsize
  intro k s' hk
  cases k with
  | zero =>
    obtain ⟨rfl, -⟩ := whileTest_calling hk
    exact hfirst
  | succ k =>
    rw [Nat.add_comm, write_returned hret k] at hk
    cases hk

theorem helloFile_size (writable : Bool) : (helloFile writable).size = 5 := by
  cases writable <;> decide

theorem helloFile_written (writable : Bool) :
    (helloFile writable).Written fun _ => helloAnswer writable := by
  have hnums : toInt32 (5 : Nat) = 5 := by decide
  cases writable with
  | true =>
    have htakes : SocketTakes (helloFile true).memory ⟨5, 0, []⟩ (helloAnswer true) :=
      .whole (by decide) (by decide)
    exact written_once (helloFile_size true) (hnums ▸ htakes) (s := ⟨10, 5, List.range 5⟩) rfl
  | false =>
    have htakes : SocketTakes (helloFile false).memory ⟨5, 0, []⟩ (helloAnswer false) :=
      .fault (by decide)
    exact written_once (helloFile_size false) (hnums ▸ htakes) (s := ⟨5, 0, []⟩) rfl

theorem helloResponse_complete (writable : Bool) :
    (helloResponse writable).Complete (helloReplies writable) := by
  refine ⟨replies_head _ _, ?_⟩
  show (helloFile writable).Written fun i => helloReplies writable (_ + i)
  simp only [helloReplies, replies_body]
  exact helloFile_written writable

theorem static_truthful_iff_hello :
    ∃ h' rs, coldHost.respond ((helloFiles true).system readable fun _ => none)
        (fun _ _ _ _ res => res) indexRequest = some (h', rs) ∧
      ∀ r ∈ rs, r.Truthful (helloReplies true) (ascii "hello") := by
  have huse : coldHost.filecaches.Usable (filepath coldHost.info indexRequest.par) :=
    .inl (by decide)
  have hholds : (helloFile true).Holds (ascii "hello") :=
    ⟨by decide +kernel, .inr ⟨⟨[], by decide +kernel⟩, by decide +kernel⟩⟩
  refine (static_truthful_iff readable (fun _ => none) (helloFiles true) (fun _ _ _ _ res => res)
    coldHost indexRequest (helloReplies true) (ascii "hello") rfl ?_).mpr fun _ => ⟨huse, hholds⟩
  intro h' rs hr r hmem
  obtain ⟨h'', hhello⟩ := respond_hello true
  rw [hhello] at hr
  cases hr
  rw [List.mem_singleton.mp hmem]
  exact helloResponse_complete true

/-- A file that may only be read: its five bytes are announced and none of them is sent. -/
theorem static_truncated :
    ∃ h', coldHost.respond ((helloFiles false).system readable fun _ => none)
        (fun _ _ _ _ res => res) indexRequest = some (h', [helloResponse false]) ∧
      (helloResponse false).Complete (helloReplies false) ∧
      ¬ (helloResponse false).Truthful (helloReplies false) (ascii "hello") := by
  obtain ⟨h', hr⟩ := respond_hello false
  have hlength : (helloResponse false).header.fields[ascii "Content-Length"]? =
      some (toDecimal (helloFile false).size) := by
    simp only [helloResponse, ResponseHeader.set, Std.ExtTreeMap.getElem?_insert_self]
    rfl
  refine ⟨h', hr, helloResponse_complete false, ?_⟩
  rw [truthful_file_iff (helloResponse_complete false) rfl rfl rfl hlength]
  rintro ⟨-, hmem⟩
  exact absurd hmem (by decide)

end SimpleWeb
