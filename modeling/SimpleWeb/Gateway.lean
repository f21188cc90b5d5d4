import SimpleWeb.Lib.LexPath
import SimpleWeb.Filecaches
import SimpleWeb.Http.HeadCorrect
import SimpleWeb.Http.HeadSound

/-!
# SimpleWeb.Gateway

The paths `host::serve` works with (`Gateway.cpp`): the docroot and the target of the request in
one string, handed to `access`, `dlopen` and the file cache.

No check stands between the URI machine, which lets every `.` and `/` through, and these calls.
So a path stays below the docroot exactly when the target does not climb out of it, or climbs
back in by the same names (`serve_below_iff`).
-/

namespace SimpleWeb

open Http LexPath

structure HostInfo where
  servername : Bytes
  docroot : Bytes

/-- A host; of a loaded service only its target matters here. -/
structure Host (F : Type) where
  info : HostInfo
  getservices : List Bytes
  postservices : List Bytes
  filecaches : Filecaches F

/-- What a shared library exports. -/
structure Library where
  get : Bool
  post : Bool

/-- The system as one request finds it: `access` gives 0 or an error number. -/
structure System (F : Type) where
  access : Bytes → Nat
  dlopen : Bytes → Option Library
  file : Bytes → F

inductive ServeCall where
  | access (path : Bytes)
  | dlopen (path : Bytes)
  | cacheGet (path : Bytes)
  | cacheSet (path : Bytes)

def ServeCall.path : ServeCall → Bytes
  | .access path => path
  | .dlopen path => path
  | .cacheGet path => path
  | .cacheSet path => path

def isDynamic (par : Parser) : Bool :=
  par.message.method = .post || (par.message.method = .get && par.querystr.isSome)

/-- `if(req_m.target()=="/") req_m.target("/index.html")` -/
def serveTarget (par : Parser) : Bytes :=
  if par.message.target = ascii "/" then ascii "/index.html" else par.message.target

/-- What `serve` puts behind the docroot. -/
def requestPath (par : Parser) : Bytes :=
  serveTarget par ++ if isDynamic par then ascii ".so" else []

def filepath (info : HostInfo) (par : Parser) : Bytes := info.docroot ++ requestPath par

section Serve

variable {F : Type}

/-- A library enters the service maps under the target, one entry for each function it exports. -/
def Host.load (h : Host F) (target : Bytes) (lib : Library) : Host F :=
  { h with
    getservices := if lib.get then target :: h.getservices else h.getservices
    postservices := if lib.post then target :: h.postservices else h.postservices }

def serveDynamic (sys : System F) (h : Host F) (target path : Bytes) :
    List ServeCall × Option (Host F) :=
  if target ∉ h.getservices ∧ target ∉ h.postservices then
    ([.dlopen path], match sys.dlopen path with
      | none => some h
      | some lib => some (h.load target lib))
  else ([], some h)

/-- `if(filecaches_.get(filepath) != filecaches_.end()) filenode = *filecaches_.get(filepath);
else filenode = filecaches_.set(filepath);` -/
def serveStatic (sys : System F) (h : Host F) (path : Bytes) : List ServeCall × Option (Host F) :=
  match h.filecaches.get path with
  | none => ([.cacheGet path], none)
  | some (c, some _) =>
    ([.cacheGet path, .cacheGet path], (c.get path).map fun r => { h with filecaches := r.1 })
  | some (c, none) =>
    ([.cacheGet path, .cacheSet path],
      (c.set path (sys.file path)).map fun r => { h with filecaches := r.1 })

/-- `serve` once `access` has found the file readable. -/
def serveReadable (sys : System F) (h : Host F) (par : Parser) (path : Bytes) :
    List ServeCall × Option (Host F) :=
  if isDynamic par then serveDynamic sys h (serveTarget par) path else serveStatic sys h path

/-- The calls `host::serve` makes, and the host it leaves; none when the cache used a dead
iterator. -/
def serve (sys : System F) (h : Host F) (par : Parser) : List ServeCall × Option (Host F) :=
  if sys.access (filepath h.info par) = 0 then
    let r := serveReadable sys h par (filepath h.info par)
    (.access (filepath h.info par) :: r.1, r.2)
  else ([.access (filepath h.info par)], some h)

theorem serveDynamic_path {sys : System F} {h : Host F} {target path : Bytes} :
    ∀ call ∈ (serveDynamic sys h target path).1, call.path = path := by
  intro call hcall
  unfold serveDynamic at hcall
  split at hcall
  · rw [List.mem_singleton.mp hcall]
    rfl
  · cases hcall

theorem serveStatic_path {sys : System F} {h : Host F} {path : Bytes} :
    ∀ call ∈ (serveStatic sys h path).1, call.path = path := by
  intro call hcall
  unfold serveStatic at hcall
  split at hcall
  all_goals
    simp only [List.mem_cons, List.not_mem_nil, or_false, or_self] at hcall
  · rw [hcall]
    rfl
  · rw [hcall]
    rfl
  · rcases hcall with rfl | rfl <;> rfl

/-- Every call is about the one path, and there is one. -/
theorem serve_path (sys : System F) (h : Host F) (par : Parser) :
    (∀ call ∈ (serve sys h par).1, call.path = filepath h.info par) ∧
      .access (filepath h.info par) ∈ (serve sys h par).1 := by
  by_cases hacc : sys.access (filepath h.info par) = 0
  · rw [serve, if_pos hacc]
    refine ⟨?_, List.mem_cons_self⟩
    intro call hcall
    rcases List.mem_cons.mp hcall with rfl | hcall
    · rfl
    · unfold serveReadable at hcall
      split at hcall
      · exact serveDynamic_path call hcall
      · exact serveStatic_path call hcall
  · rw [serve, if_neg hacc]
    refine ⟨?_, List.mem_cons_self⟩
    intro call hcall
    rw [List.mem_singleton.mp hcall]
    rfl

end Serve

/-! ## Below the docroot -/

def place (path : Bytes) : Place UInt8 := resolve (byte '/') (byte '.') path

/-- Where a request path leads by itself: some levels up, then down through some names. -/
def climb (path : Bytes) : Place UInt8 := walk (byte '.') .here (components (byte '/') path)

/-- The docroot is not empty, the path takes back no more names than the docroot has (or the
docroot starts at the root), and it comes down the names it took back. -/
def StaysBelow (docroot path : Bytes) : Prop :=
  docroot ≠ [] ∧
    ((place docroot).rooted = true ∨ (climb path).ups ≤ (place docroot).names.length) ∧
    (place docroot).names.drop ((place docroot).names.length - (climb path).ups) <+:
      (climb path).names

theorem below_append_iff (docroot path : Bytes) :
    Below (place docroot) (place (docroot ++ byte '/' :: path)) ↔
      StaysBelow docroot (byte '/' :: path) := by
  by_cases hd : docroot = []
  · subst hd
    constructor
    · rintro ⟨hrooted, -, -⟩
      rw [place, place, resolve_rooted, resolve_rooted] at hrooted
      simp at hrooted
    · rintro ⟨hne, -⟩
      exact absurd rfl hne
  · have hclimb : climb (byte '/' :: path) =
        walk (byte '.') .here (components (byte '/') path) := by
      rw [climb, components_sep]
    rw [StaysBelow, hclimb, place, place, resolve_append hd, below_walk_iff]
    exact ⟨fun h => ⟨hd, h⟩, fun h => h.2⟩

theorem requestPath_slash {par : Parser} {t : Target} (h : par.message.target = t.bytes) :
    ∃ path, requestPath par = byte '/' :: path := by
  unfold requestPath serveTarget
  split
  · exact ⟨_, rfl⟩
  · rw [h]
    exact ⟨_, rfl⟩

/-- The paths of a request are the docroot or below it exactly when its target stays there, for
every stream with a complete head, every host and every answer of the system. -/
theorem serve_below_iff {F : Type} (st : Stack) (is rest : Bytes) (ec : ParserEc) (par : Parser)
    (hread : readHeader st is .init = some (ec, par, rest)) (hdone : par.headerDone = true)
    (sys : System F) (h : Host F) :
    (∀ call ∈ (serve sys h par).1, Below (place h.info.docroot) (place call.path)) ↔
      StaysBelow h.info.docroot (requestPath par) := by
  obtain ⟨t, ht⟩ := readHeader_target hread hdone
  obtain ⟨path, hpath⟩ := requestPath_slash ht
  obtain ⟨hall, hone⟩ := serve_path sys h par
  rw [hpath, ← below_append_iff, ← hpath]
  constructor
  · intro hbelow
    exact hbelow _ hone
  · intro hbelow call hcall
    rw [hall call hcall]
    exact hbelow

/-- The default docroot of `sw.conf`, and a system where every file is readable. -/
def dotHost : Host Unit := ⟨⟨[], ascii "."⟩, [], [], .init 1⟩

def readableSystem : System Unit := ⟨fun _ => 0, fun _ => none, fun _ => ()⟩

theorem serve_below_iff_parserTest :
    StaysBelow dotHost.info.docroot (requestPath parserTestHead.parser) ∧
      ∀ call ∈ (serve readableSystem dotHost parserTestHead.parser).1,
        Below (place dotHost.info.docroot) (place call.path) := by
  have hstays : StaysBelow dotHost.info.docroot (requestPath parserTestHead.parser) := by
    unfold StaysBelow
    decide +kernel
  exact ⟨hstays, (serve_below_iff .zero (parserTestHead.bytes ++ ascii "rest") (ascii "rest") .ok
    parserTestHead.parser (readHeader_bytes parserTestHead parserTestHead_fits _) rfl
    readableSystem dotHost).mpr hstays⟩

/-- `/../secret` leaves the docroot. -/
theorem serve_escapes :
    ∃ par, readHeader .zero (ascii "GET /../secret HTTP/1.0\r\n\r\n") .init = some (.ok, par, []) ∧
      par.headerDone = true ∧
      ¬ ∀ call ∈ (serve readableSystem dotHost par).1,
        Below (place dotHost.info.docroot) (place call.path) := by
  have hread : (readHeader .zero (ascii "GET /../secret HTTP/1.0\r\n\r\n") .init).map
      (fun r => (r.1, r.2.1.headerDone, requestPath r.2.1, r.2.2)) =
        some (.ok, true, ascii "/../secret", []) := by decide +kernel
  have hplace : place (ascii "./../secret") = ⟨false, 1, [ascii "secret"]⟩ := by decide +kernel
  obtain ⟨⟨ec, par, rest⟩, hpar, heq⟩ := Option.map_eq_some_iff.mp hread
  simp only [Prod.mk.injEq] at heq
  obtain ⟨rfl, hdone, hpath, rfl⟩ := heq
  refine ⟨par, hpar, hdone, ?_⟩
  intro hall
  have hbelow := hall _ (serve_path readableSystem dotHost par).2
  have hfile : filepath dotHost.info par = ascii "./../secret" := by
    rw [filepath, hpath]
    rfl
  rw [ServeCall.path, hfile, hplace] at hbelow
  exact absurd hbelow.ups (by decide +kernel)

end SimpleWeb
