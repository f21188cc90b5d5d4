import SimpleWeb.ConfHosts
import SimpleWeb.Replies
import SimpleWeb.Http.HeadCorrect

/-!
# SimpleWeb.StaticFiles

A file on disk, from the text of the configuration and the bytes of a request to what the client
reads in the end (`Gateway.file_served`).

The cache stands between the two. As long as a host is asked for no more different files than its
cache has room for, nothing is evicted (`Stores.serve`): every node stays where its path leads, and
no request meets a dead iterator.
-/

namespace SimpleWeb

open Http

/-! ## A cache with room -/

namespace Filecaches

section Room

variable {F : Type} {s s' : Filecaches F} {L : List (Entry F)} {p : Bytes} {f : F}
  {Opened Opened' : Bytes → F → Prop}

/-- Paths lead to nodes and nodes belong to paths, each with a file that was opened for it. -/
def Stores (Opened : Bytes → F → Prop) (s : Filecaches F) : Prop :=
  ∃ L, Represents s L ∧ ∀ e ∈ L, Opened e.1 e.2.2

theorem stores_init (c : Nat) : Stores Opened (init c : Filecaches F) := by
  refine ⟨[], ⟨rfl, ?_, List.nodup_nil, List.nodup_nil, nofun⟩, nofun⟩
  intro p
  simp [init, Lru.find]

theorem Stores.mono (h : Stores Opened s) (hle : ∀ p f, Opened p f → Opened' p f) :
    Stores Opened' s := by
  obtain ⟨L, hrep, hall⟩ := h
  exact ⟨L, hrep, fun e he => hle _ _ (hall e he)⟩

theorem set_room (h : Represents s L) (hmiss : Lru.find L p = none)
    (hroom : L.length < s.capacity) (f : F) :
    s.set p f = some (s.touched L p s.fresh f (s.fresh + 1), .ofFile f) ∧
      Represents (s.touched L p s.fresh f (s.fresh + 1)) (Lru.touch L p (s.fresh, f)) := by
  obtain ⟨hpush, hrep⟩ := pushFront_represents (g := f) h hmiss
  have hmake : s.makeRoom = some s := by
    rw [makeRoom, if_neg]
    rw [length_represents h]
    omega
  refine ⟨?_, hrep⟩
  rw [set_miss h hmiss, hmake, Option.bind_some, hpush]

theorem mem_touch {e : Entry F} {a : Nat} (he : e ∈ Lru.touch L p (a, f)) :
    e = (p, a, f) ∨ e ∈ L := by
  rcases List.mem_cons.mp he with he | he
  · exact .inl he
  · exact .inr (List.mem_of_mem_filter he)

/-- A path without an entry finds a place, when there is one for each path. -/
theorem length_lt_of_miss (h : Represents s L) (hmiss : Lru.find L p = none) {paths : Finset Bytes}
    (hp : p ∈ paths) (hall : ∀ e ∈ L, e.1 ∈ paths) : L.length < paths.card := by
  have hnodup : (p :: L.map Prod.fst).Nodup :=
    List.nodup_cons.mpr ⟨Lru.find_eq_none.mp hmiss, h.paths⟩
  have hsub : (p :: L.map Prod.fst).toFinset ⊆ paths := by
    intro q hq
    rcases List.mem_cons.mp (List.mem_toFinset.mp hq) with rfl | hq
    · exact hp
    · obtain ⟨e, he, rfl⟩ := List.mem_map.mp hq
      exact hall e he
  have hcard := Finset.card_le_card hsub
  rw [List.toFinset_card_of_nodup hnodup, List.length_cons, List.length_map] at hcard
  exact hcard

/-- With a place for each path, a path gets its file, and the cache stays as it should be. -/
theorem Stores.serve {sys : System F} {h : Host F} (hs : h.filecaches.Stores Opened)
    (hnew : Opened p (sys.file p)) {paths : Finset Bytes} (hpaths : ∀ q g, Opened q g → q ∈ paths)
    (hroom : paths.card ≤ h.filecaches.capacity) :
    ∃ h' g, servedFile sys h p = some (h', g) ∧ Opened p g ∧ h'.filecaches.Stores Opened ∧
      h'.info = h.info ∧ h'.filecaches.capacity = h.filecaches.capacity := by
  obtain ⟨L, hrep, hall⟩ := hs
  obtain ⟨s₁, hget, hrep₁, hcap₁⟩ := get_represents hrep p
  unfold servedFile
  cases hf : Lru.find L p with
  | none =>
    rw [hf] at hget
    obtain ⟨-, rfl⟩ := get_end hget
    have hlt := length_lt_of_miss hrep hf (hpaths p _ hnew) fun e he => hpaths e.1 _ (hall e he)
    obtain ⟨hset, hrep'⟩ := set_room hrep hf (Nat.lt_of_lt_of_le hlt hroom) (sys.file p)
    simp only [hget, Option.map_none, hset]
    refine ⟨_, _, rfl, hnew, ⟨_, hrep', ?_⟩, rfl, rfl⟩
    intro e he
    rcases mem_touch he with rfl | he
    · exact hnew
    · exact hall e he
  | some v =>
    obtain ⟨a, g⟩ := v
    have hmem := Lru.find_eq_some hf
    have hentries : Lru.get L p = Lru.touch L p (a, g) := by rw [Lru.get, hf]
    rw [hf] at hget
    rw [hentries] at hrep₁
    obtain ⟨s₂, hagain, hrep₂, hcap₂⟩ := get_represents hrep₁ p
    have hfound : Lru.find (Lru.touch L p (a, g)) p = some (a, g) := by simp [Lru.find_touch]
    rw [hfound] at hagain
    simp only [hget, Option.map_some, hagain]
    refine ⟨_, _, rfl, hall _ hmem, ⟨_, hrep₂, ?_⟩, rfl, hcap₂.trans hcap₁⟩
    have htouched : ∀ e ∈ Lru.touch L p (a, g), Opened e.1 e.2.2 := by
      intro e he
      rcases mem_touch he with rfl | he
      · exact hall _ hmem
      · exact hall e he
    intro e he
    rw [Lru.get, hfound] at he
    rcases mem_touch he with rfl | he
    · exact hall _ hmem
    · exact htouched e he

end Room

end Filecaches

/-! ## A host with room -/

/-- What a request asks a host with this docroot for -/
def Visit.filepath (docroot : Bytes) (v : Visit) : Bytes := docroot ++ requestPath v.request.par

/-- It is answered with a file. -/
def Visit.Asks (docroot : Bytes) (v : Visit) : Prop :=
  isDynamic v.request.par = false ∧ v.access (v.filepath docroot) = 0

instance (docroot : Bytes) (v : Visit) : Decidable (v.Asks docroot) :=
  inferInstanceAs (Decidable (_ ∧ _))

/-- The files that are asked for, each once -/
def filesAsked (docroot : Bytes) (visits : List Visit) : List Bytes :=
  ((visits.filter fun v => v.Asks docroot).map (Visit.filepath docroot)).dedup

/-- One of the visits asks for the path, and finds the file there. -/
def AskedFor (docroot : Bytes) (visits : List Visit) (path : Bytes) (f : MappedFile) : Prop :=
  ∃ v ∈ visits, v.Asks docroot ∧ v.filepath docroot = path ∧ v.file path = f

/-- The host after these visits -/
structure Host.Keeps (docroot : Bytes) (cachesnum : Nat) (visits : List Visit)
    (h : Host MappedFile) : Prop where
  info : h.info.docroot = docroot
  capacity : h.filecaches.capacity = cachesnum
  stores : h.filecaches.Stores (AskedFor docroot visits)

section Host

variable {dlopen : Bytes → Option Library} {services : Services} {docroot : Bytes}
  {cachesnum : Nat} {visits more : List Visit} {h h' : Host MappedFile} {v : Visit} {path : Bytes}
  {f : MappedFile}

theorem AskedFor.mono (ha : AskedFor docroot visits path f) :
    AskedFor docroot (visits ++ more) path f := by
  obtain ⟨v, hv, hasks⟩ := ha
  exact ⟨v, List.mem_append_left _ hv, hasks⟩

theorem AskedFor.mem (ha : AskedFor docroot visits path f) : path ∈ filesAsked docroot visits := by
  obtain ⟨v, hv, hasks, rfl, -⟩ := ha
  rw [filesAsked, List.mem_dedup]
  exact List.mem_map.mpr ⟨v, List.mem_filter.mpr ⟨hv, decide_eq_true hasks⟩, rfl⟩

theorem filesAsked_append_le : (filesAsked docroot visits).length ≤
    (filesAsked docroot (visits ++ more)).length := by
  refine (List.nodup_dedup _).length_le_of_subset ?_
  intro path hpath
  simp only [filesAsked, List.mem_dedup] at hpath ⊢
  rw [List.filter_append, List.map_append]
  exact List.mem_append_left _ hpath

theorem Host.Keeps.filepath (hk : h.Keeps docroot cachesnum visits) :
    SimpleWeb.filepath h.info v.request.par = v.filepath docroot := by
  rw [SimpleWeb.filepath, hk.info]
  rfl

variable (dlopen services) in
/-- A request for a file that can be read is answered with one that was found under its path. -/
theorem Host.Keeps.serve (hk : h.Keeps docroot cachesnum visits) (hasks : v.Asks docroot)
    (hroom : (filesAsked docroot (visits ++ [v])).length ≤ cachesnum) :
    ∃ h' r f, h.respond (v.system dlopen) services v.request = some (h', [r]) ∧
      staticResponse (v.system dlopen) h (v.filepath docroot) (responseHeader v.request.date) =
        some (h', r) ∧
      r.body = .file f ∧ AskedFor docroot (visits ++ [v]) (v.filepath docroot) f ∧
      h'.Keeps docroot cachesnum (visits ++ [v]) := by
  have hnew : AskedFor docroot (visits ++ [v]) (v.filepath docroot)
      ((v.system dlopen).file (v.filepath docroot)) := ⟨v, by simp, hasks, rfl, rfl⟩
  have hpaths : ∀ q g, AskedFor docroot (visits ++ [v]) q g →
      q ∈ (filesAsked docroot (visits ++ [v])).toFinset :=
    fun q g ha => List.mem_toFinset.mpr ha.mem
  have hcard : (filesAsked docroot (visits ++ [v])).toFinset.card ≤ h.filecaches.capacity := by
    rw [hk.capacity]
    exact (List.toFinset_card_le _).trans hroom
  obtain ⟨h', f, hserved, hf, hstores, hinfo, hcap⟩ :=
    (hk.stores.mono fun _ _ ha => ha.mono).serve hnew hpaths hcard
  have hacc : (v.system dlopen).access (v.filepath docroot) = 0 := hasks.2
  obtain ⟨r, hr, hbody⟩ : ∃ r, staticResponse (v.system dlopen) h (v.filepath docroot)
      (responseHeader v.request.date) = some (h', r) ∧ r.body = .file f := by
    rw [staticResponse, hserved]
    exact ⟨_, rfl, rfl⟩
  refine ⟨h', r, f, ?_, hr, hbody, hf, hinfo ▸ hk.info, hcap.trans hk.capacity, hstores⟩
  rw [← hk.filepath] at hacc
  rw [Host.respond_static services hacc hasks.1, hk.filepath, hr]
  rfl

/-- Any other request leaves the cache as it is. -/
theorem Host.Keeps.visit (hk : h.Keeps docroot cachesnum visits)
    (hroom : (filesAsked docroot (visits ++ [v])).length ≤ cachesnum)
    (hv : SimpleWeb.visit dlopen services h v = some h') :
    h'.Keeps docroot cachesnum (visits ++ [v]) := by
  obtain ⟨⟨h₁, rs⟩, hr, rfl⟩ := Option.map_eq_some_iff.mp hv
  by_cases hasks : v.Asks docroot
  · obtain ⟨h₂, r, f, hserve, -, -, -, hkeeps⟩ :=
      hk.serve dlopen services hasks hroom
    rw [hr] at hserve
    cases hserve
    exact hkeeps
  · have hsame : h₁.filecaches = h.filecaches ∧ h₁.info = h.info := by
      rcases Host.respond_cases hr with ⟨-, -, hdynamic⟩ | ⟨hacc, hstatic, -⟩ | ⟨-, rfl, -⟩
      · obtain ⟨hcaches, hinfo, -⟩ := dynamicResponse_file hdynamic
        exact ⟨hcaches, hinfo⟩
      · rw [hk.filepath] at hacc
        exact absurd ⟨hstatic, hacc⟩ hasks
      · exact ⟨rfl, rfl⟩
    exact ⟨hsame.2 ▸ hk.info, hsame.1 ▸ hk.capacity,
      hsame.1 ▸ hk.stores.mono fun _ _ ha => ha.mono⟩

theorem Host.run_keeps {info : HostInfo}
    (hrun : Lts.run (SimpleWeb.visit dlopen services) (Host.new info cachesnum) visits = some h)
    (hroom : (filesAsked info.docroot visits).length ≤ cachesnum) :
    h.Keeps info.docroot cachesnum visits := by
  induction visits using List.reverseRecOn generalizing h with
  | nil =>
    cases hrun
    exact ⟨rfl, rfl, Filecaches.stores_init cachesnum⟩
  | append_singleton visits v ih =>
    obtain ⟨t, ht, hvisit⟩ := Lts.run_concat_eq_some.mp hrun
    exact (ih ht (filesAsked_append_le.trans hroom)).visit hroom hvisit

end Host

/-! ## From the text of the configuration to the client -/

/-- The name `host` of the handler, in the lines of the head -/
def Http.Head.hostName (head : Head) : Bytes :=
  match lastValue head.fields hostKey with
  | some host => (lastValue head.fields forwardedKey).getD host
  | none => []

/-- The file a head asks for, under the docroot -/
def Http.Head.file (head : Head) : Bytes :=
  if head.line.target.bytes = ascii "/" then ascii "/index.html" else head.line.target.bytes

/-- No service is asked for. -/
def Http.Head.Static (head : Head) : Prop :=
  head.line.method ≠ .post ∧ (head.line.method = .get → head.line.query = none)

/-- The status and the body that the client should read -/
def fileReply (ec : Nat) (contents : Bytes) : Bytes × Bytes :=
  if ec = 0 then (Status.ok.toString, contents)
  else ((accessResult ec).toString, (accessResult ec).toString)

section Head

variable {head : Head}

theorem Http.Head.hostName_parser (head : Head) :
    SimpleWeb.hostName head.parser.message.fields = head.hostName := by
  have hfields := head.parser_fields
  unfold SimpleWeb.hostName Head.hostName
  simp only [Std.ExtTreeMap.contains_eq_isSome_getElem?, Std.ExtTreeMap.getD_eq_getD_getElem?,
    hfields]
  cases lastValue head.fields hostKey with
  | none => rfl
  | some host => cases lastValue head.fields forwardedKey <;> rfl

theorem Http.Head.Static.isDynamic (h : head.Static) : SimpleWeb.isDynamic head.parser = false := by
  have hmethod : head.parser.message.method = head.line.method := rfl
  have hquery : head.parser.querystr = head.line.querystr := by
    simp [Head.parser, Parser.assign, RequestLine.apply, Parser.init]
  unfold SimpleWeb.isDynamic
  rw [hmethod, hquery, RequestLine.querystr]
  by_cases hget : head.line.method = .get
  · simp [hget, h.2 hget]
  · simp [hget, h.1]

theorem Http.Head.Static.requestPath (h : head.Static) :
    SimpleWeb.requestPath head.parser = head.file := by
  rw [SimpleWeb.requestPath, h.isDynamic]
  exact List.append_nil _

theorem MappedFile.Holds.take {f : MappedFile} {contents : Bytes} (h : f.Holds contents) :
    f.memory.take f.size = contents := by
  rw [← h.size]
  rcases h.memory with rfl | ⟨hbytes, -⟩
  · rfl
  · exact (List.prefix_iff_eq_take.mp hbytes).symm

end Head

/-- The response to a request for a file, as far as its client is concerned -/
structure Response.Answers (r : Response) (ec : Nat) (path contents : Bytes) : Prop where
  clean : r.header.Clean
  good : r.good = true
  mapped : r.Mapped
  reply : (r.header.status.toString, r.body.contents) = fileReply ec contents
  length : ec = 0 →
    r.header.fields[ascii "Content-Length"]? = some (toDecimal contents.length)
  type : ec = 0 → r.header.fields[ascii "Content-type"]? =
    some (getcontent_type (hashSuffix path.reverse 0))

section Answers

variable {dlopen : Bytes → Option Library} {services : Services} {docroot : Bytes}
  {cachesnum : Nat} {visits : List Visit} {h : Host MappedFile} {v : Visit} {contents : Bytes}

theorem denied_answers {ec : Nat} (hec : ec ≠ 0) {res : ResponseHeader} (hres : res.Clean)
    (path contents : Bytes) : (deniedResponse ec res).Answers ec path contents where
  clean := deniedResponse_clean hres ec
  good := rfl
  mapped := nofun
  reply := by
    rw [fileReply, if_neg hec]
    rfl
  length hzero := absurd hzero hec
  type hzero := absurd hzero hec

theorem static_answers {sys : System MappedFile} {h' : Host MappedFile} {path : Bytes}
    {res : ResponseHeader} {r : Response} {f : MappedFile} (hres : res.Clean)
    (hr : staticResponse sys h path res = some (h', r)) (hbody : r.body = .file f)
    (hf : f.Holds contents) : r.Answers 0 path contents := by
  have hclean := staticResponse_clean hres hr
  obtain ⟨⟨h₁, f'⟩, -, heq⟩ := Option.map_eq_some_iff.mp hr
  cases heq
  cases hbody
  refine ⟨hclean, rfl, ?_, ?_, ?_, ?_⟩
  · rintro f ⟨⟩
    rw [Body.contents, hf.take]
    exact hf
  · rw [fileReply, if_pos rfl]
    exact congrArg (Prod.mk _) hf.take
  · intro _
    simp [ResponseHeader.set, hf.size]
  · intro _
    have hlength : compare (ascii "Content-Length") (ascii "Content-type") ≠ .eq := by decide
    have hconnection : compare (ascii "Connection") (ascii "Content-type") ≠ .eq := by decide
    simp only [ResponseHeader.set, Std.ExtTreeMap.getElem?_insert, if_neg hlength,
      if_neg hconnection, Std.compare_self, if_true]

/-- A host answers a request for a file. -/
theorem Host.Keeps.answers (hk : h.Keeps docroot cachesnum visits)
    (hstatic : isDynamic v.request.par = false)
    (hroom : (filesAsked docroot (visits ++ [v])).length ≤ cachesnum)
    (hdisk : ∀ f, AskedFor docroot (visits ++ [v]) (v.filepath docroot) f → f.Holds contents)
    (hdate : CR ∉ v.request.date) :
    ∃ h' r, h.respond (v.system dlopen) services v.request = some (h', [r]) ∧
      r.Answers (v.access (v.filepath docroot)) (v.filepath docroot) contents := by
  have hres := responseHeader_clean hdate
  by_cases hacc : v.access (v.filepath docroot) = 0
  · obtain ⟨h', r, f, hrespond, hr, hbody, hf, -⟩ :=
      hk.serve dlopen services ⟨hstatic, hacc⟩ hroom
    exact ⟨h', r, hrespond, hacc ▸ static_answers hres hr hbody (hdisk f hf)⟩
  · have hdenied : (v.system dlopen).access (SimpleWeb.filepath h.info v.request.par) ≠ 0 := by
      rwa [hk.filepath]
    have hrespond := Host.respond_denied services hdenied
    rw [hk.filepath] at hrespond
    exact ⟨h, _, hrespond, denied_answers hacc hres _ _⟩

end Answers

namespace Gateway

/-- For every configuration that is accepted, every run of requests over all hosts, and every
well-formed head that asks for a file, by a name the text gives a docroot: when the host has been
asked for no more different files than its cache may hold, and the file has had these contents
since, the client reads them, at status 200 and with their length; or else why it may not. -/
theorem file_served (access : Bytes → Bool) (confile : Option Bytes) (conf : FullConf)
    (hconf : ConfFile.read access confile .init = .ok conf) (dlopen : Bytes → Option Library)
    (services : Services) (acts : List Visit) (g : Gateway)
    (hrun : Lts.run (step conf.toConf dlopen services)
      (new conf.toConf conf.filecachesnum.toNat) acts = some g)
    (head : Head) (st : Stack) (hfit : head.Fits st) (hstatic : head.Static) (rest : Bytes)
    (v : Visit) (ec : ParserEc)
    (hread : readHeader st (head.bytes ++ rest) .init = some (ec, v.request.par, v.request.rest))
    (hdate : CR ∉ v.request.date) (docroot : Bytes)
    (hdoc : ConfFile.docrootFor (ConfFile.confText confile) head.hostName = some docroot)
    (hroom : (filesAsked docroot
      ((acts ++ [v]).filter fun a => key conf.toConf a = key conf.toConf v)).length ≤
        conf.filecachesnum.toNat)
    (contents : Bytes)
    (hdisk : ∀ a ∈ acts ++ [v], key conf.toConf a = key conf.toConf v → a.Asks docroot →
      a.filepath docroot = docroot ++ head.file → (a.file (docroot ++ head.file)).Holds contents) :
    ∃ g' r, g.respond conf.toConf dlopen services v = some (g', [r]) ∧
      ∀ results, r.Complete results → ∃ t reply,
        (∀ t', t ≤ t' → Reply.read (r.sent results t') = some reply) ∧
        (reply.status, reply.body) = fileReply (v.access (docroot ++ head.file)) contents ∧
        (v.access (docroot ++ head.file) = 0 →
          (ascii "Content-Length", toDecimal contents.length) ∈ reply.fields ∧
          (ascii "Content-type",
            getcontent_type (hashSuffix (docroot ++ head.file).reverse 0)) ∈ reply.fields) := by
  rw [readHeader_bytes head hfit rest] at hread
  obtain ⟨hpar, -⟩ := Prod.mk.inj (Prod.mk.inj (Option.some.inj hread)).2
  have hpath : v.filepath docroot = docroot ++ head.file := by
    rw [Visit.filepath, ← hpar, hstatic.requestPath]
  have hname : name v = head.hostName := by
    rw [name, ← hpar, head.hostName_parser]
  rw [← hname, ← ConfFile.infoFor_docroot hconf v] at hdoc
  obtain ⟨info, hinfo, rfl⟩ := Option.map_eq_some_iff.mp hdoc
  -- the host of the request, behind the requests of the run that are for it
  have hhost := run_host hrun v
  rw [hinfo] at hhost
  obtain ⟨h, hown, hvisits⟩ := hhost
  simp only [List.filter_append, List.filter_singleton, decide_true, cond_true] at hroom
  have hk := Host.run_keeps hvisits (filesAsked_append_le.trans hroom)
  have hdyn : isDynamic v.request.par = false := hpar ▸ hstatic.isDynamic
  have hfiles : ∀ f, AskedFor info.docroot
      (Family.actions (key conf.toConf) (key conf.toConf v) acts ++ [v])
      (v.filepath info.docroot) f → f.Holds contents := by
    rintro f ⟨a, ha, hasks, hfile, rfl⟩
    rw [hpath] at hfile ⊢
    rcases List.mem_append.mp ha with ha | ha
    · obtain ⟨hmem, hkey⟩ := List.mem_filter.mp ha
      exact hdisk a (List.mem_append_left _ hmem) (of_decide_eq_true hkey) hasks hfile
    · rw [List.mem_singleton.mp ha] at hasks hfile ⊢
      exact hdisk v (by simp) rfl hasks hfile
  obtain ⟨h', r, hrespond, hanswers⟩ := hk.answers hdyn hroom hfiles hdate
  rcases respond_eq conf.toConf dlopen services g v with ⟨hnone, -⟩ | ⟨h₁, hsome, hresp, -⟩
  · rw [hown] at hnone
    cases hnone
  · rw [hown] at hsome
    cases hsome
    rw [hrespond, Option.map_some] at hresp
    obtain ⟨⟨g', rs⟩, hg, rfl⟩ := Option.map_eq_some_iff.mp hresp
    refine ⟨g', r, hg, ?_⟩
    intro results hc
    obtain ⟨t, ht⟩ := sent_contents hc hanswers.good hanswers.mapped
    refine ⟨t, r.header.reply r.body.contents, ?_, ?_, ?_⟩
    · intro t' ht'
      rw [ht t' ht', Reply.read_write hanswers.clean]
    · rw [← hpath]
      exact hanswers.reply
    · intro hacc
      rw [← hpath] at hacc ⊢
      exact ⟨Std.ExtTreeMap.mem_toList_iff_getElem?_eq_some.mpr (hanswers.length hacc),
        Std.ExtTreeMap.mem_toList_iff_getElem?_eq_some.mpr (hanswers.type hacc)⟩

theorem ahostLine_ok :
    ((∀ c ∈ hostKey, isNameByte c = true) ∧ 0 < hostKey.length ∧ hostKey.length < MAXFIELDNAME) ∧
      (0 ∉ ascii "ahost.localhost:8080" ∧ CR ∉ ascii "ahost.localhost:8080" ∧
        LF ∉ ascii "ahost.localhost:8080") ∧
      ascii "ahost.localhost:8080" ≠ [] ∧
      (ascii "ahost.localhost:8080").head? ≠ some (byte ' ') := by
  decide +kernel

def ahostLine : FieldLine := .of hostKey 1 (ascii "ahost.localhost:8080") .crlf ahostLine_ok

/-- The start page of the other host in `sw.conf` -/
def ahostHead : Head where
  line :=
    { lead := [], method := .get, gap₁ := 0, target := ⟨[], rootTarget_ok⟩
      query := none, gap₂ := 0, version := .v10
      eol := .crlf, lead_ok := RequestLine.lead_nil, method_ok := getStart_ok }
  fields := [ahostLine]
  eol := .crlf

theorem ahostHead_fits : ahostHead.Fits .zero where
  line := ⟨by decide +kernel, by decide +kernel, by decide +kernel⟩
  fields := by
    intro l hl
    rw [List.mem_singleton.mp hl]
    exact ⟨by decide +kernel, by decide +kernel⟩

/-- Its request, with a file of five bytes -/
def helloVisit : Visit := ⟨.zero ahostHead.parser, readable, fun _ => helloFile true⟩

theorem file_served_ahost :
    ∃ g g' r,
      Lts.run (step ConfFile.sampleConf.toConf dynamicLibrary listArguments)
        (new ConfFile.sampleConf.toConf 32) [helloVisit] = some g ∧
      g.respond ConfFile.sampleConf.toConf dynamicLibrary listArguments helloVisit =
        some (g', [r]) ∧
      ∀ results, r.Complete results → ∃ t reply,
        (∀ t', t ≤ t' → Reply.read (r.sent results t') = some reply) ∧
        (reply.status, reply.body) = (ascii "200 Ok", ascii "hello") := by
  obtain ⟨g, hg⟩ : ∃ g, Lts.run (step ConfFile.sampleConf.toConf dynamicLibrary listArguments)
      (new ConfFile.sampleConf.toConf 32) [helloVisit] = some g :=
    Option.isSome_iff_exists.mp (by decide +kernel)
  have hstatic : ahostHead.Static := ⟨nofun, fun _ => rfl⟩
  have hholds : (helloFile true).Holds (ascii "hello") :=
    ⟨by decide +kernel, .inr ⟨⟨[], by decide +kernel⟩, by decide +kernel⟩⟩
  obtain ⟨g', r, hr, hreply⟩ := file_served (fun _ => true) (some ConfFile.sample)
    ConfFile.sampleConf ConfFile.read_sample dynamicLibrary listArguments [helloVisit] g hg
    ahostHead .zero ahostHead_fits hstatic [] helloVisit .ok
    (readHeader_bytes ahostHead ahostHead_fits []) (by decide) (ascii "./ahost")
    (by decide +kernel) (by decide +kernel) (ascii "hello") (by
      intro a ha _ _ _
      have ha : a = helloVisit := by simpa using ha
      rw [ha]
      exact hholds)
  refine ⟨g, g', r, hg, hr, ?_⟩
  intro results hc
  obtain ⟨t, reply, hread, hfile, -⟩ := hreply results hc
  exact ⟨t, reply, hread, hfile⟩

end Gateway
end SimpleWeb
