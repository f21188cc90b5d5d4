import SimpleWeb.Lib.Family
import SimpleWeb.HostRouting
import SimpleWeb.DynamicResponse

/-!
# SimpleWeb.Hosts

The hosts of a `Gateway` over whole runs. A request is for one host, by its name, and every host
has maps and a cache of its own. So a host answers as if its own requests were all there have been
(`hosts_isolated`), and the file in an answer is one that was opened for that host, under the very
path of the request (`files_own`): now, or at an earlier request.

A run is a sequence of requests, though the code serves those of a batch at once and the caches have
no lock. And it has an outcome only as long as no path is asked for again that was evicted before:
the iterator the map still has of it is dead, and may lead to the file of any other path.
-/

namespace SimpleWeb

open Http

/-! ## The files in a cache -/

namespace Filecaches

variable {F : Type}

/-- The node a path leads to holds a file that was opened under that path. -/
structure Keyed (Opened : Bytes → F → Prop) (s : Filecaches F) : Prop where
  below : ∀ (p : Bytes) it, s.cachemap[p]? = some it → it < s.fresh
  nodes : ∀ x ∈ s.cachelist, x.addr < s.fresh
  inj : ∀ (p q : Bytes) it, s.cachemap[p]? = some it → s.cachemap[q]? = some it → p = q
  own : ∀ (p : Bytes) it x, s.cachemap[p]? = some it → x ∈ s.cachelist → x.addr = it →
    ∀ f ∈ x.node.fptr, Opened p f

section Keys

variable {Opened Opened' : Bytes → F → Prop} {s s' : Filecaches F} {p : Bytes} {f : F}
  {node : FileNode F}

theorem keyed_init (c : Nat) : Keyed Opened (init c : Filecaches F) where
  below p it hit := by simp [init] at hit
  nodes := nofun
  inj p q it hit := by simp [init] at hit
  own p it x hit := by simp [init] at hit

theorem Keyed.mono (h : Keyed Opened s) (hle : ∀ p f, Opened p f → Opened' p f) :
    Keyed Opened' s :=
  ⟨h.below, h.nodes, h.inj, fun p it x hit hx ha f hf => hle p f (h.own p it x hit hx ha f hf)⟩

/-- Nodes and paths may go. -/
theorem Keyed.subset (h : Keyed Opened s)
    (hmap : ∀ (q : Bytes) it, s'.cachemap[q]? = some it → s.cachemap[q]? = some it)
    (hlist : s'.cachelist ⊆ s.cachelist) (hfresh : s'.fresh = s.fresh) : Keyed Opened s' where
  below q it hit := hfresh ▸ h.below q it (hmap q it hit)
  nodes x hx := hfresh ▸ h.nodes x (hlist hx)
  inj q q' it hit hit' := h.inj q q' it (hmap q it hit) (hmap q' it hit')
  own q it x hit hx := h.own q it x (hmap q it hit) (hlist hx)

theorem Keyed.get (h : Keyed Opened s) (hget : s.get p = some (s', some node)) :
    Keyed Opened s' ∧ ∀ f ∈ node.fptr, Opened p f := by
  unfold Filecaches.get at hget
  cases hit : s.cachemap[p]? with
  | none =>
    rw [hit] at hget
    cases hget
  | some it =>
    simp only [hit, Option.bind_eq_bind, Option.bind_eq_some_iff] at hget
    obtain ⟨l, hsplice, ⟨s₁, node'⟩, hfront, heq⟩ := hget
    cases heq
    obtain ⟨x, hx, rfl⟩ := Option.map_eq_some_iff.mp hsplice
    cases hfront
    have haddr : x.addr = it := by simpa using List.find?_some hx
    have hmem : x ∈ s.cachelist := List.mem_of_find?_eq_some hx
    refine ⟨h.subset ?_ ?_ rfl, h.own p it x hit hmem haddr⟩
    · -- the path already led to the node in front
      intro q it' hq
      rw [Std.ExtTreeMap.getElem?_insert] at hq
      split at hq
      · rename_i heq
        cases hq
        rw [← Std.LawfulEqCmp.eq_of_compare heq, hit, haddr]
      · exact hq
    · exact List.cons_subset.mpr ⟨hmem, List.filter_subset_self _⟩

theorem Keyed.makeRoom (h : Keyed Opened s) (hroom : s.makeRoom = some s') : Keyed Opened s' := by
  unfold Filecaches.makeRoom at hroom
  split at hroom
  · obtain ⟨back, -, rfl⟩ := Option.map_eq_some_iff.mp hroom
    refine h.subset ?_ (List.dropLast_subset _) rfl
    intro q it hq
    rw [Std.ExtTreeMap.getElem?_erase] at hq
    split at hq
    · cases hq
    · exact hq
  · cases hroom
    exact h

/-- A path that was not in the map is entered with the file that was opened for it. -/
theorem Keyed.set (h : Keyed Opened s) (hmiss : s.cachemap[p]? = none) (hf : Opened p f)
    (hset : s.set p f = some (s', node)) : Keyed Opened s' := by
  simp only [Filecaches.set, hmiss, Option.bind_eq_bind, Option.bind_eq_some_iff] at hset
  obtain ⟨t, hroom, hfront⟩ := hset
  have ht := h.makeRoom hroom
  cases hfront
  have hcases : ∀ (q : Bytes) it, (t.cachemap.insert p t.fresh)[q]? = some it →
      (q = p ∧ it = t.fresh) ∨ (q ≠ p ∧ t.cachemap[q]? = some it ∧ it < t.fresh) := by
    intro q it hq
    rw [Std.ExtTreeMap.getElem?_insert] at hq
    split at hq
    · rename_i heq
      exact .inl ⟨(Std.LawfulEqCmp.eq_of_compare heq).symm, (Option.some.inj hq).symm⟩
    · rename_i hne
      refine .inr ⟨?_, hq, ht.below q it hq⟩
      rintro rfl
      exact hne Std.ReflCmp.compare_self
  refine ⟨?_, ?_, ?_, ?_⟩
  · intro q it hq
    rcases hcases q it hq with ⟨-, rfl⟩ | ⟨-, -, hlt⟩
    · exact Nat.lt_succ_self _
    · exact Nat.lt_succ_of_lt hlt
  · intro x hx
    rcases List.mem_cons.mp hx with rfl | hx
    · exact Nat.lt_succ_self _
    · exact Nat.lt_succ_of_lt (ht.nodes x hx)
  · intro q q' it hq hq'
    rcases hcases q it hq with ⟨rfl, rfl⟩ | ⟨-, hold, hlt⟩
    · rcases hcases q' _ hq' with ⟨rfl, -⟩ | ⟨-, -, hlt⟩
      · rfl
      · exact absurd hlt (Nat.lt_irrefl _)
    · rcases hcases q' it hq' with ⟨-, rfl⟩ | ⟨-, hold', -⟩
      · exact absurd hlt (Nat.lt_irrefl _)
      · exact ht.inj q q' it hold hold'
  · intro q it x hq hx haddr g hg
    rcases List.mem_cons.mp hx with rfl | hx
    · rcases hcases q it hq with ⟨rfl, -⟩ | ⟨-, -, hlt⟩
      · cases hg
        exact hf
      · exact absurd (haddr ▸ hlt) (Nat.lt_irrefl _)
    · rcases hcases q it hq with ⟨-, rfl⟩ | ⟨-, hold, -⟩
      · exact absurd (haddr ▸ ht.nodes x hx) (Nat.lt_irrefl _)
      · exact ht.own q it x hold hx haddr g hg

end Keys

end Filecaches

/-! ## One host -/

section Host

variable {dlopen : Bytes → Option Library} {services : Services} {info : HostInfo} {cachesnum : Nat}
  {h h' : Host MappedFile} {v : Visit} {Opened : Bytes → MappedFile → Prop}

/-- What `serve` does to the cache: nothing, or a static request is given its file. -/
theorem servedFile_keyed {sys : System MappedFile} {path : Bytes} {f : MappedFile}
    (hk : h.filecaches.Keyed Opened) (hnew : Opened path (sys.file path))
    (hs : servedFile sys h path = some (h', f)) :
    h'.filecaches.Keyed Opened ∧ h'.info = h.info ∧ Opened path f := by
  unfold servedFile at hs
  split at hs
  · cases hs
  · rename_i c node hget
    obtain ⟨hc, -⟩ := hk.get hget
    simp only [Option.bind_eq_bind, Option.bind_eq_some_iff] at hs
    obtain ⟨⟨c', node'⟩, hagain, node'', hnode, f', hf, heq⟩ := hs
    cases heq
    cases hnode
    obtain ⟨hc', hfptr⟩ := hc.get hagain
    exact ⟨hc', rfl, hfptr f hf⟩
  · rename_i c hget
    obtain ⟨hmiss, rfl⟩ := Filecaches.get_end hget
    simp only [Option.bind_eq_bind, Option.bind_eq_some_iff] at hs
    obtain ⟨⟨c', node⟩, hset, f', hf, heq⟩ := hs
    cases heq
    rw [Filecaches.set_fptr hmiss hset] at hf
    cases hf
    exact ⟨hk.set hmiss hnew hset, rfl, hnew⟩

theorem dynamicResponse_file {sys : System MappedFile} {path : Bytes} {q : Request}
    {res : ResponseHeader} {rs : List Response}
    (hr : dynamicResponse sys services h path q res = some (h', rs)) :
    h'.filecaches = h.filecaches ∧ h'.info = h.info ∧ ∀ r ∈ rs, ∀ f, r.body ≠ .file f := by
  have hanswer : ∀ g : Host MappedFile, g.filecaches = h.filecaches → g.info = h.info →
      (serviceAnswer services g path q res).map (fun r => (g, [r])) = some (h', rs) →
        h'.filecaches = h.filecaches ∧ h'.info = h.info ∧ ∀ r ∈ rs, ∀ f, r.body ≠ .file f := by
    intro g hcaches hinfo hg
    obtain ⟨r, hanswer, heq⟩ := Option.map_eq_some_iff.mp hg
    cases heq
    obtain ⟨⟨n, args, rest⟩, -, rfl⟩ := Option.map_eq_some_iff.mp hanswer
    refine ⟨hcaches, hinfo, ?_⟩
    intro r hmem f hbody
    rw [List.mem_singleton.mp hmem] at hbody
    cases hbody
  unfold dynamicResponse at hr
  split at hr
  · split at hr
    · cases hr
      exact ⟨rfl, rfl, nofun⟩
    · exact hanswer (h.load (serveTarget q.par) _) rfl rfl hr
  · exact hanswer h rfl rfl hr

/-- A request keeps the cache keyed, and a file it is answered with is one of its path. -/
theorem respond_keyed {rs : List Response} (hk : h.filecaches.Keyed Opened)
    (hnew : Opened (v.path h.info) (v.file (v.path h.info)))
    (hr : h.respond (v.system dlopen) services v.request = some (h', rs)) :
    h'.filecaches.Keyed Opened ∧ h'.info = h.info ∧
      ∀ r ∈ rs, ∀ f, r.body = .file f → Opened (v.path h.info) f := by
  rcases Host.respond_cases hr with ⟨-, -, hdynamic⟩ | ⟨-, -, r, hstatic, rfl⟩ | ⟨-, rfl, rfl⟩
  · obtain ⟨hcaches, hinfo, hnone⟩ := dynamicResponse_file hdynamic
    exact ⟨hcaches ▸ hk, hinfo, fun r hmem f hbody => absurd hbody (hnone r hmem f)⟩
  · obtain ⟨⟨h₁, f⟩, hfile, heq⟩ := Option.map_eq_some_iff.mp hstatic
    cases heq
    obtain ⟨hk', hinfo, hf⟩ := servedFile_keyed hk hnew hfile
    refine ⟨hk', hinfo, ?_⟩
    intro r hmem g hbody
    rw [List.mem_singleton.mp hmem] at hbody
    cases hbody
    exact hf
  · refine ⟨hk, rfl, ?_⟩
    intro r hmem f hbody
    rw [List.mem_singleton.mp hmem] at hbody
    cases hbody

/-- One of the visits is for the path, and finds the file there. -/
def OpenedBy (info : HostInfo) (visits : List Visit) (path : Bytes) (f : MappedFile) : Prop :=
  ∃ v ∈ visits, v.path info = path ∧ v.file path = f

theorem OpenedBy.mono {visits more : List Visit} {path : Bytes} {f : MappedFile}
    (ho : OpenedBy info visits path f) : OpenedBy info (visits ++ more) path f := by
  obtain ⟨v, hv, heq⟩ := ho
  exact ⟨v, List.mem_append_left _ hv, heq⟩

/-- Whatever a host has served, its cache holds files under the paths they were opened for. -/
theorem run_keyed {visits : List Visit}
    (hrun : Lts.run (visit dlopen services) (Host.new info cachesnum) visits = some h) :
    h.filecaches.Keyed (OpenedBy info visits) ∧ h.info = info := by
  induction visits using List.reverseRecOn generalizing h with
  | nil =>
    cases hrun
    exact ⟨Filecaches.keyed_init cachesnum, rfl⟩
  | append_singleton visits v ih =>
    obtain ⟨t, ht, hvisit⟩ := Lts.run_concat_eq_some.mp hrun
    obtain ⟨hk, hinfo⟩ := ih ht
    obtain ⟨⟨h', rs⟩, hr, rfl⟩ := Option.map_eq_some_iff.mp hvisit
    have hnew : OpenedBy info (visits ++ [v]) (v.path t.info) (v.file (v.path t.info)) :=
      ⟨v, by simp, by rw [hinfo], rfl⟩
    obtain ⟨hk', hinfo', -⟩ := respond_keyed (hk.mono fun _ _ ho => ho.mono) hnew hr
    exact ⟨hk', hinfo'.trans hinfo⟩

end Host

/-! ## All hosts -/

/-- The descriptor of a file that is sent -/
def Body.fd : Body → Option Int
  | .string _ => none
  | .file f => some f.fd

theorem Body.fd_eq_some {b : Body} {fd : Int} (h : b.fd = some fd) :
    ∃ f : MappedFile, b = .file f ∧ f.fd = fd := by
  cases b with
  | string => cases h
  | file f => exact ⟨f, rfl, Option.some.inj h⟩

/-- `Gateway`, its hosts -/
structure Gateway where
  defaultHost : Host MappedFile
  hosts : Std.ExtTreeMap Bytes (Host MappedFile) compare

namespace Gateway

/-- The constructor of `Gateway` -/
def new (conf : Conf) (cachesnum : Nat) : Gateway where
  defaultHost := .new conf.defaulthost cachesnum
  hosts := conf.hosts.foldl (fun m h => m.insertIfNew h.servername (.new h cachesnum)) ∅

def name (v : Visit) : Bytes := hostName v.request.par.message.fields

/-- The handler behind a complete head: the hosts it leaves, and the responses. -/
def respond (conf : Conf) (dlopen : Bytes → Option Library) (services : Services) (g : Gateway)
    (v : Visit) : Option (Gateway × List Response) :=
  if name v = conf.defaulthost.servername then
    (g.defaultHost.respond (v.system dlopen) services v.request).map fun (h, rs) =>
      ({ g with defaultHost := h }, rs)
  else match g.hosts[name v]? with
    | some h =>
      (h.respond (v.system dlopen) services v.request).map fun (h, rs) =>
        ({ g with hosts := g.hosts.insert (name v) h }, rs)
    | none => some (g, [])

/-- One request, with no other being served. None when a cache uses a dead iterator or the
arguments leave an array. -/
def step (conf : Conf) (dlopen : Bytes → Option Library) (services : Services) (g : Gateway)
    (v : Visit) : Option Gateway :=
  (g.respond conf dlopen services v).map Prod.fst

/-- The host a request is for; none is the default host. -/
def key (conf : Conf) (v : Visit) : Option Bytes :=
  if name v = conf.defaulthost.servername then none else some (name v)

/-- The host under a key, when there is one -/
def host (g : Gateway) : Option Bytes → Option (Host MappedFile)
  | none => some g.defaultHost
  | some name => g.hosts[name]?

/-- What the configuration says of the host a request is for -/
def infoFor (conf : Conf) (v : Visit) : Option HostInfo :=
  match route conf (name v) with
  | .defaultHost => some conf.defaulthost
  | .host info => some info
  | .notFound => none

/-- A request for a host, or for none -/
def visitAt (dlopen : Bytes → Option Library) (services : Services) :
    Option (Host MappedFile) → Visit → Option (Option (Host MappedFile))
  | none, _ => some none
  | some h, v => (visit dlopen services h v).map some

section Runs

variable {conf : Conf} {dlopen : Bytes → Option Library} {services : Services} {cachesnum : Nat}
  {g g' : Gateway} {v : Visit} {acts : List Visit}

theorem host_new (conf : Conf) (cachesnum : Nat) (v : Visit) :
    (new conf cachesnum).host (key conf v) = (infoFor conf v).map (Host.new · cachesnum) := by
  have hget : ∀ (hs : List HostInfo) (m : Std.ExtTreeMap Bytes (Host MappedFile) compare)
      (k : Bytes),
      (hs.foldl (fun m h => m.insertIfNew h.servername (Host.new h cachesnum)) m)[k]? =
        m[k]?.or ((hs.find? fun h => h.servername = k).map (Host.new · cachesnum)) := by
    intro hs
    induction hs with
    | nil => simp
    | cons h hs ih =>
      intro m k
      rw [List.foldl_cons, ih, Std.ExtTreeMap.getElem?_insertIfNew, List.find?_cons]
      by_cases hk : h.servername = k
      · subst hk
        by_cases hm : h.servername ∈ m
        · simp [hm]
        · simp [hm]
      · have hcmp : compare h.servername k ≠ .eq := fun h => hk (Std.LawfulEqCmp.eq_of_compare h)
        simp [hk, hcmp]
  unfold key infoFor route
  split
  · rfl
  · rw [conf.hostMap_get]
    simp only [host, new, hget]
    cases conf.hosts.find? fun h => h.servername = name v <;> simp

/-- A request is answered by its host alone. -/
theorem respond_eq (conf : Conf) (dlopen : Bytes → Option Library) (services : Services)
    (g : Gateway) (v : Visit) :
    (g.host (key conf v) = none ∧ g.respond conf dlopen services v = some (g, [])) ∨
      ∃ h, g.host (key conf v) = some h ∧
        (g.respond conf dlopen services v).map Prod.snd =
          (h.respond (v.system dlopen) services v.request).map Prod.snd ∧
        (g.step conf dlopen services v).map host =
          (visit dlopen services h v).map fun h =>
            Function.update g.host (key conf v) (some h) := by
  unfold step visit respond key
  split
  · refine .inr ⟨_, rfl, by simp [Function.comp_def], ?_⟩
    simp only [Option.map_map]
    refine congrArg (Option.map · _) (funext fun r => funext fun k => ?_)
    cases k <;> simp [host]
  · cases hhost : g.hosts[name v]? with
    | none => exact .inl ⟨hhost, rfl⟩
    | some h =>
      refine .inr ⟨h, hhost, by simp [Function.comp_def], ?_⟩
      simp only [Option.map_map]
      refine congrArg (Option.map · _) (funext fun r => funext fun k => ?_)
      cases k with
      | none => simp [host]
      | some k =>
        by_cases hk : k = name v
        · simp [host, hk]
        · have hcmp : compare (name v) k ≠ .eq := fun h =>
            hk (Std.LawfulEqCmp.eq_of_compare h).symm
          simp [host, hk, hcmp, Std.ExtTreeMap.getElem?_insert]

theorem step_family (h : g.step conf dlopen services v = some g') :
    Family.step (key conf) (visitAt dlopen services) g.host v = some g'.host := by
  unfold Family.step
  rcases respond_eq conf dlopen services g v with ⟨hnone, hresp⟩ | ⟨h₁, hhost, -, hstep⟩
  · rw [step, hresp] at h
    cases h
    rw [hnone]
    simp only [visitAt, Option.map_some]
    rw [← hnone, Function.update_eq_self]
  · rw [h, Option.map_some] at hstep
    rw [hhost]
    simp only [visitAt, Option.map_map, hstep]
    rfl

/-- A host behind a run of the gateway has run on its own requests. -/
theorem run_host (h : Lts.run (step conf dlopen services) (new conf cachesnum) acts = some g)
    (v : Visit) :
    match infoFor conf v with
    | none => g.host (key conf v) = none
    | some info => ∃ h, g.host (key conf v) = some h ∧
        Lts.run (visit dlopen services) (Host.new info cachesnum)
          (Family.actions (key conf) (key conf v) acts) = some h := by
  have hfamily := Lts.run_map host (fun _ _ _ hu => step_family hu) h
  have hmember := Family.run_member hfamily (key conf v)
  rw [host_new] at hmember
  generalize Family.actions (key conf) (key conf v) acts = own at hmember
  cases hinfo : infoFor conf v with
  | none =>
    rw [hinfo] at hmember
    refine Lts.run_invariant (I := fun o => o = none) ?_ rfl own _ hmember
    rintro _ a u rfl hu
    cases hu
    rfl
  | some info =>
    rw [hinfo] at hmember
    have hsome : ∀ (own : List Visit) (o : Option (Host MappedFile)),
        Lts.run (visitAt dlopen services) (some (Host.new info cachesnum)) own = some o →
          ∃ h, o = some h ∧
            Lts.run (visit dlopen services) (Host.new info cachesnum) own = some h := by
      intro own
      induction own using List.reverseRecOn with
      | nil =>
        rintro _ ⟨⟩
        exact ⟨_, rfl, rfl⟩
      | append_singleton own a ih =>
        intro o ho
        obtain ⟨u, hu, hstep⟩ := Lts.run_concat_eq_some.mp ho
        obtain ⟨h₁, rfl, hrun⟩ := ih u hu
        obtain ⟨h₂, hvisit, rfl⟩ := Option.map_eq_some_iff.mp hstep
        exact ⟨h₂, rfl, Lts.run_concat_eq_some.mpr ⟨h₁, hrun, hvisit⟩⟩
    exact hsome own _ hmember

end Runs

/-- For every configuration and every run over its hosts, request by request: a request is answered
as by its host alone, when that has served the requests of the run that are for it; one that is
for no host gets no response. -/
theorem hosts_isolated (conf : Conf) (dlopen : Bytes → Option Library) (services : Services)
    (cachesnum : Nat) (acts : List Visit) (g : Gateway)
    (h : Lts.run (step conf dlopen services) (new conf cachesnum) acts = some g) (v : Visit) :
    (infoFor conf v = none → g.respond conf dlopen services v = some (g, [])) ∧
      ∀ info, infoFor conf v = some info → ∃ own : Host MappedFile,
        Lts.run (visit dlopen services) (Host.new info cachesnum)
          (acts.filter fun a => key conf a = key conf v) = some own ∧
        (g.respond conf dlopen services v).map Prod.snd =
          (own.respond (v.system dlopen) services v.request).map Prod.snd := by
  have hhost := run_host h v
  constructor
  · intro hinfo
    rw [hinfo] at hhost
    rcases respond_eq conf dlopen services g v with ⟨-, hresp⟩ | ⟨h₁, hsome, -⟩
    · exact hresp
    · rw [hhost] at hsome
      cases hsome
  · intro info hinfo
    rw [hinfo] at hhost
    obtain ⟨own, hown, hrun⟩ := hhost
    rcases respond_eq conf dlopen services g v with ⟨hnone, -⟩ | ⟨h₁, hsome, hresp, -⟩
    · rw [hown] at hnone
      cases hnone
    · rw [hown] at hsome
      cases hsome
      exact ⟨own, hrun, hresp⟩

def twoConf : Conf := ⟨⟨ascii "a", ascii "./a"⟩, [⟨ascii "b", ascii "./b"⟩]⟩

/-- A GET for the start page of a host, whose file is opened with this descriptor -/
def startPage (host : Bytes) (fd : Int) : Visit where
  request := .zero ⟨⟨.get, 10, ascii "/", (∅ : Fields).insert hostKey host⟩, none, true, false⟩
  access _ := 0
  file _ := ⟨fd, 0, none⟩

/-- A start page of each of the two hosts, and the descriptors of the files a third is answered
with -/
def startPages (v : Visit) : Option (List (Option Int)) :=
  (Lts.run (step twoConf dynamicLibrary listArguments) (new twoConf 32)
      [startPage (ascii "a") 3, startPage (ascii "b") 4]).bind fun g =>
    (g.respond twoConf dynamicLibrary listArguments v).map fun r => r.2.map fun r => r.body.fd

theorem startPages_again : startPages (startPage (ascii "a") 5) = some [some 3] := by
  decide +kernel

theorem hosts_isolated_two :
    ∃ g own rs,
      Lts.run (step twoConf dynamicLibrary listArguments) (new twoConf 32)
        [startPage (ascii "a") 3, startPage (ascii "b") 4] = some g ∧
      Lts.run (visit dynamicLibrary listArguments) (Host.new twoConf.defaulthost 32)
        ([startPage (ascii "a") 3, startPage (ascii "b") 4].filter fun a =>
          key twoConf a = key twoConf (startPage (ascii "a") 5)) = some own ∧
      (own.respond ((startPage (ascii "a") 5).system dynamicLibrary) listArguments
        (startPage (ascii "a") 5).request).map Prod.snd = some rs ∧
      rs.map (fun r => r.body.fd) = [some 3] := by
  obtain ⟨g, hg, hresp⟩ := Option.bind_eq_some_iff.mp startPages_again
  obtain ⟨⟨g', rs⟩, hrs, hfd⟩ := Option.map_eq_some_iff.mp hresp
  have hinfo : infoFor twoConf (startPage (ascii "a") 5) = some twoConf.defaulthost := rfl
  obtain ⟨own, hown, heq⟩ := (hosts_isolated twoConf dynamicLibrary listArguments 32
    [startPage (ascii "a") 3, startPage (ascii "b") 4] g hg (startPage (ascii "a") 5)).2 _ hinfo
  rw [hrs] at heq
  exact ⟨g, own, rs, hg, hown, heq.symm, hfd⟩

/-- For every run over the hosts in which no path is asked for again behind its eviction: the file
of a response is one that was opened at this request or an earlier one for the same host, under the
path of this request. -/
theorem files_own (conf : Conf) (dlopen : Bytes → Option Library) (services : Services)
    (cachesnum : Nat) (acts : List Visit) (g g' : Gateway)
    (h : Lts.run (step conf dlopen services) (new conf cachesnum) acts = some g) (v : Visit)
    (rs : List Response) (hr : g.respond conf dlopen services v = some (g', rs)) (r : Response)
    (hmem : r ∈ rs) (f : MappedFile) (hbody : r.body = .file f) :
    ∃ info, infoFor conf v = some info ∧ ∃ v' ∈ acts ++ [v], key conf v' = key conf v ∧
      v'.path info = v.path info ∧ v'.file (v.path info) = f := by
  have hhost := run_host h v
  rcases respond_eq conf dlopen services g v with ⟨-, hresp⟩ | ⟨own, hown, hresp, -⟩
  · rw [hr] at hresp
    cases hresp
    cases hmem
  · cases hinfo : infoFor conf v with
    | none =>
      rw [hinfo] at hhost
      rw [hhost] at hown
      cases hown
    | some info =>
      rw [hinfo] at hhost
      obtain ⟨own', hown', hrun⟩ := hhost
      rw [hown'] at hown
      cases hown
      obtain ⟨hk, hinfo'⟩ := run_keyed hrun
      rw [hr] at hresp
      obtain ⟨⟨h', rs'⟩, hserve, heq⟩ := Option.map_eq_some_iff.mp hresp.symm
      cases heq
      have hnew : OpenedBy info (Family.actions (key conf) (key conf v) acts ++ [v])
          (v.path own.info) (v.file (v.path own.info)) := ⟨v, by simp, by rw [hinfo'], rfl⟩
      obtain ⟨-, -, hfiles⟩ := respond_keyed (hk.mono fun _ _ ho => ho.mono) hnew hserve
      obtain ⟨v', hv', hpath, hfile⟩ := hfiles r hmem f hbody
      rw [hinfo'] at hpath hfile
      refine ⟨info, rfl, v', ?_, ?_, hpath, hfile⟩
      · rcases List.mem_append.mp hv' with hv' | hv'
        · exact List.mem_append_left _ (List.mem_of_mem_filter hv')
        · exact List.mem_append_right _ hv'
      · rcases List.mem_append.mp hv' with hv' | hv'
        · exact of_decide_eq_true (List.mem_filter.mp hv').2
        · rw [List.mem_singleton.mp hv']

/-- A GET for another page of the default host -/
def otherPage (fd : Int) : Visit :=
  { startPage (ascii "a") fd with
    request := .zero ⟨⟨.get, 10, ascii "/b", (∅ : Fields).insert hostKey (ascii "a")⟩, none, true,
      false⟩ }

/-- In caches of one file the other page takes the place of the start page, and is found there. -/
def otherPageAgain : Option (Nat × List (Option Int)) :=
  (Lts.run (step twoConf dynamicLibrary listArguments) (new twoConf 1)
      [startPage (ascii "a") 3, otherPage 4]).bind fun g =>
    (g.respond twoConf dynamicLibrary listArguments (otherPage 5)).map fun r =>
      (g.defaultHost.filecaches.cachelist.length, r.2.map fun r => r.body.fd)

theorem otherPage_again : otherPageAgain = some (1, [some 4]) := by decide +kernel

theorem files_own_evicted :
    ∃ f : MappedFile, f.fd = 4 ∧ ∃ v' ∈ [startPage (ascii "a") 3, otherPage 4] ++ [otherPage 5],
      key twoConf v' = key twoConf (otherPage 5) ∧
      v'.path twoConf.defaulthost = (otherPage 5).path twoConf.defaulthost ∧
      v'.file ((otherPage 5).path twoConf.defaulthost) = f := by
  obtain ⟨g, hg, hresp⟩ := Option.bind_eq_some_iff.mp otherPage_again
  obtain ⟨⟨g', rs⟩, hrs, hout⟩ := Option.map_eq_some_iff.mp hresp
  obtain ⟨-, hfd⟩ := Prod.mk.inj hout
  obtain ⟨r, rfl, hr⟩ := List.map_eq_singleton_iff.mp hfd
  obtain ⟨f, hbody, hf⟩ := Body.fd_eq_some hr
  obtain ⟨info, hinfo, v', hv', hkey, hpath, hfile⟩ := files_own twoConf dynamicLibrary
    listArguments 1 [startPage (ascii "a") 3, otherPage 4] g g' hg (otherPage 5) [r] hrs r
    (List.mem_singleton_self r) f hbody
  cases hinfo
  exact ⟨f, hf, v', hv', hkey, hpath, hfile⟩

end Gateway

end SimpleWeb
