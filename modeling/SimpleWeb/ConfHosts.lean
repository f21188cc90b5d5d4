import SimpleWeb.ConfOrder
import SimpleWeb.ConfReading
import SimpleWeb.Hosts

/-!
# SimpleWeb.ConfHosts

From the text of the configuration to the file of a request. The name of a request picks the
default host or the first section `[host]` whose last `servername` it is; the docroot of a section
is what its last setting says, if that sets a docroot, and the current directory else
(`conf_serves`).
-/

namespace SimpleWeb
namespace ConfFile

open Http

/-! ## The plain reading of the hosts -/

def hostSections (t : ConfText) : List Section :=
  t.sections.filter fun s => sectionName s.header.val = ascii "host"

def Section.servername (s : Section) : Bytes :=
  (lastValue some (ascii "servername") (bodyLines s.body)).getD []

/-- Every setting of the section takes back what the ones in front of it have said. -/
def Section.docroot (s : Section) : Bytes := (s.settings.getLast?.map docrootOf).getD []

def defaultName (t : ConfText) : Bytes :=
  (lastValue some (ascii "defaulthost") (globalLines t)).getD []

def defaultDocroot (t : ConfText) : Bytes :=
  (lastValue some (ascii "docroot") (globalLines t)).getD (ascii ".")

/-- Where the files for a name are -/
def docrootFor (t : ConfText) (name : Bytes) : Option Bytes :=
  if name = defaultName t then some (defaultDocroot t)
  else ((hostSections t).find? fun s => s.servername = name).map Section.docroot

section Hosts

variable {access : Bytes → Bool} {confile : Option Bytes} {conf : FullConf}

theorem foldl_nameEdit (kvs : List (Bytes × Bytes)) :
    kvs.foldl nameEdit [] =
      (((kvs.filter (·.1 = ascii "servername")).filterMap (some ·.2)).getLast?).getD [] := by
  induction kvs using List.reverseRecOn with
  | nil => rfl
  | append_singleton kvs kv ih =>
    rw [List.foldl_concat, nameEdit, ih]
    by_cases h : kv.1 = ascii "servername" <;> simp [h]

theorem hostOf_section (s : Section) :
    hostOf (bodyLines s.body) = ⟨s.servername, s.docroot⟩ := by
  rw [hostOf_eq, foldl_nameEdit]
  rfl

theorem items_hosts (s : Section) :
    s.items.flatMap hostsOf =
      if sectionName s.header.val = ascii "host" then [⟨s.servername, s.docroot⟩] else [] := by
  have hnone : ∀ (mk : Bytes → Item), (∀ line, hostsOf (mk line) = []) → ∀ body : List Bytes,
      (body.map mk).flatMap hostsOf = [] := by
    intro mk hmk body
    simp [List.flatMap_map, hmk]
  unfold Section.items
  split
  · rename_i hglobal
    rw [hnone .set fun _ => rfl, hglobal, if_neg global_ne_host]
  · split
    · rw [List.flatMap_singleton, hostsOf, hostOf_section]
    · exact hnone .stray (fun _ => rfl) _

/-- The hosts are the sections `[host]`, in their order. -/
theorem read_hostSections (h : read access confile .init = .ok conf) :
    conf.hosts = (hostSections (confText confile)).map fun s => ⟨s.servername, s.docroot⟩ := by
  cases confile with
  | none =>
    cases h
    rfl
  | some content =>
    rw [read_hosts h, hostSections, confText]
    induction (split (fileLines content)).sections with
    | nil => rfl
    | cons s ss ih =>
      rw [List.flatMap_cons, ih, items_hosts, List.filter_cons]
      by_cases hhost : sectionName s.header.val = ascii "host" <;> simp [hhost]

/-- The docroot of the host that a request is for -/
theorem infoFor_docroot (h : read access confile .init = .ok conf) (v : Visit) :
    (Gateway.infoFor conf.toConf v).map HostInfo.docroot =
      docrootFor (confText confile) (Gateway.name v) := by
  have hname : conf.defaulthost.servername = defaultName (confText confile) :=
    read_value (defaulthost_sets access) h
  have hdocroot : conf.defaulthost.docroot = defaultDocroot (confText confile) :=
    read_value (docroot_sets access) h
  unfold Gateway.infoFor route docrootFor
  rw [hname]
  by_cases hdefault : Gateway.name v = defaultName (confText confile)
  · rw [if_pos hdefault, if_pos hdefault]
    exact congrArg some hdocroot
  · rw [if_neg hdefault, if_neg hdefault, Conf.hostMap_get, read_hostSections h, List.find?_map]
    simp only [Function.comp_def]
    cases (hostSections (confText confile)).find? fun s => s.servername = Gateway.name v with
    | none => rfl
    | some s => rfl

end Hosts

/-- For every file that is accepted and every request: the file that is asked for is the target
under the docroot which the text gives to the name of the request, and a name the text gives none
is for no host. -/
theorem conf_serves (access : Bytes → Bool) (confile : Option Bytes) (conf : FullConf)
    (h : read access confile .init = .ok conf) (v : Visit) :
    (Gateway.infoFor conf.toConf v).map v.path =
      (docrootFor (confText confile) (Gateway.name v)).map (· ++ requestPath v.request.par) := by
  rw [← infoFor_docroot h, Option.map_map]
  rfl

/-- A GET for the start page of the other host in `sw.conf` -/
def ahostVisit : Visit := Gateway.startPage (ascii "ahost.localhost:8080") 3

theorem conf_serves_sample :
    (Gateway.infoFor sampleConf.toConf ahostVisit).map ahostVisit.path =
        (docrootFor (confText (some sample)) (Gateway.name ahostVisit)).map
          (· ++ requestPath ahostVisit.request.par) ∧
      docrootFor (confText (some sample)) (ascii "ahost.localhost:8080") =
        some (ascii "./ahost") :=
  ⟨conf_serves (fun _ => true) (some sample) sampleConf read_sample ahostVisit,
    by decide +kernel⟩

end ConfFile
end SimpleWeb
