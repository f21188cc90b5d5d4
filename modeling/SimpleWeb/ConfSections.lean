import SimpleWeb.Lib.Edits
import SimpleWeb.Conf

/-!
# SimpleWeb.ConfSections

What `Conf::read` makes of a file, without its loops. A file is its sections (`split`), and a
section is a list of items that edit the configuration or stop the reader: a line of `[global]`, a
whole `[host]`, or a line that stands in no known section. Whether an item stops the reader depends
on its text and on `access` alone, so reading is a run of edits (`readLines_eq`).
-/

namespace SimpleWeb
namespace ConfFile

open CArray

/-! ## One line -/

/-- A line cut at its first `=`. -/
def keyValue (line : Bytes) : Option (Bytes × Bytes) :=
  let i := scan (byte '=') line
  if i < line.length then some (line.take i, line.drop (i + 1)) else none

/-- A line of `[global]` as it is understood. -/
inductive Setting where
  | ip (text : Bytes)
  | port (n : Int)
  | loglevel (level : Level)
  | logfile (path : Bytes)
  | docroot (path : Bytes)
  | threadcnt (n : Int)
  | cachesnum (n : Int)
  | defaulthost (name : Bytes)
  | nothing

def Setting.apply : Setting → FullConf → FullConf
  | .ip text, conf => { conf with ip := text }
  | .port n, conf => { conf with port := n }
  | .loglevel level, conf => { conf with loglevel := level }
  | .logfile path, conf => { conf with logfilename := path }
  | .docroot path, conf =>
    { conf with defaulthost := { conf.defaulthost with docroot := path } }
  | .threadcnt n, conf => { conf with threadcnt := n }
  | .cachesnum n, conf => { conf with filecachesnum := n }
  | .defaulthost name, conf =>
    { conf with defaulthost := { conf.defaulthost with servername := name } }
  | .nothing, conf => conf

/-- The key a setting is written with. -/
def Setting.key : Setting → Option Bytes
  | .ip _ => ascii "ip"
  | .port _ => ascii "port"
  | .loglevel _ => ascii "loglevel"
  | .logfile _ => ascii "logfile"
  | .docroot _ => ascii "docroot"
  | .threadcnt _ => ascii "threadcnt"
  | .cachesnum _ => ascii "cachesnum"
  | .defaulthost _ => ascii "defaulthost"
  | .nothing => none

def levelOf (value : Bytes) : Setting :=
  if value = ascii "debug" then .loglevel .debug
  else if value = ascii "info" then .loglevel .info
  else if value = ascii "none" then .loglevel .none
  else .nothing

def setting (access : Bytes → Bool) (key value : Bytes) : Except Stop Setting :=
  if key = ascii "ip" then .ok (.ip value)
  else if key = ascii "port" then (number value).map .port
  else if key = ascii "loglevel" then .ok (levelOf value)
  else if key = ascii "logfile" then
    if access (cstr value) then .ok (.logfile value) else .error .rejected
  else if key = ascii "docroot" then
    if access (cstr value) then .ok (.docroot value) else .error .rejected
  else if key = ascii "threadcnt" then (number value).map .threadcnt
  else if key = ascii "cachesnum" then (number value).map .cachesnum
  else if key = ascii "defaulthost" then .ok (.defaulthost value)
  else .ok .nothing

theorem levelOf_key (value : Bytes) : ∀ k ∈ (levelOf value).key, k = ascii "loglevel" := by
  intro k hk
  unfold levelOf at hk
  split at hk
  · cases hk; rfl
  · split at hk
    · cases hk; rfl
    · split at hk
      · cases hk; rfl
      · cases hk

theorem number_map_ok {value : Bytes} {make : Int → Setting} {s : Setting}
    (h : (number value).map make = .ok s) : ∃ n, stoi value = .ok n ∧ s = make n := by
  unfold number at h
  cases hs : stoi value with
  | ok n =>
    rw [hs] at h
    cases h
    exact ⟨n, rfl, rfl⟩
  | error e =>
    rw [hs] at h
    cases h

theorem number_key {value key : Bytes} {make : Int → Setting} {s : Setting}
    (hmake : ∀ n, (make n).key = some key) (h : (number value).map make = .ok s) :
    s.key = some key := by
  obtain ⟨n, -, rfl⟩ := number_map_ok h
  exact hmake n

theorem checked_key {b : Bool} {make s : Setting} {key : Bytes} (hmake : make.key = some key)
    (h : (if b = true then .ok make else .error .rejected : Except Stop Setting) = .ok s) :
    s.key = some key := by
  split at h
  · cases h
    exact hmake
  · cases h

/-- A setting is written with its own key. -/
theorem setting_key {access : Bytes → Bool} {key value : Bytes} {s : Setting}
    (h : setting access key value = .ok s) : ∀ k ∈ s.key, k = key := by
  have hsome : s.key = some key → ∀ k ∈ s.key, k = key := by
    intro heq k hk
    rw [heq] at hk
    exact (Option.some.inj hk).symm
  unfold setting at h
  split at h
  · rename_i hkey
    cases h
    exact hsome (by rw [hkey]; rfl)
  split at h
  · rename_i hkey
    exact hsome (number_key (fun _ => by rw [hkey]; rfl) h)
  split at h
  · rename_i hkey
    cases h
    intro k hk
    exact (levelOf_key value k hk).trans hkey.symm
  split at h
  · rename_i hkey
    exact hsome (checked_key (by rw [hkey]; rfl) h)
  split at h
  · rename_i hkey
    exact hsome (checked_key (by rw [hkey]; rfl) h)
  split at h
  · rename_i hkey
    exact hsome (number_key (fun _ => by rw [hkey]; rfl) h)
  split at h
  · rename_i hkey
    exact hsome (number_key (fun _ => by rw [hkey]; rfl) h)
  split at h
  · rename_i hkey
    cases h
    exact hsome (by rw [hkey]; rfl)
  · cases h
    exact nofun

def lineEdit (access : Bytes → Bool) (line : Bytes) : Except Stop (FullConf → FullConf) :=
  match keyValue line with
  | none => .ok id
  | some (key, value) => (setting access key value).map Setting.apply

/-- The switch on the length of the value tells no more than the value. -/
theorem loglevel_switch (value : Bytes) (conf : FullConf) :
    (match value.length with
      | 5 => if value = ascii "debug" then pure { conf with loglevel := .debug } else pure conf
      | 4 =>
        if value = ascii "info" then pure { conf with loglevel := .info }
        else if value = ascii "none" then pure { conf with loglevel := .none }
        else pure conf
      | _ => pure conf : Except Stop FullConf) = .ok ((levelOf value).apply conf) := by
  by_cases hdebug : value = ascii "debug"
  · subst hdebug
    rfl
  by_cases hinfo : value = ascii "info"
  · subst hinfo
    rfl
  by_cases hnone : value = ascii "none"
  · subst hnone
    rfl
  simp only [levelOf, hdebug, hinfo, hnone, if_false]
  split <;> rfl

/-- A number is read before the configuration is changed. -/
theorem number_apply (value : Bytes) (make : Int → Setting) (conf : FullConf) :
    (do let n ← number value; pure ((make n).apply conf) : Except Stop FullConf) =
      (((number value).map make).map Setting.apply).map (· conf) := by
  cases number value <;> rfl

/-- A path is checked before the configuration is changed. -/
theorem checked_apply (b : Bool) (make : Setting) (conf : FullConf) :
    (if b = true then pure (make.apply conf) else throw .rejected : Except Stop FullConf) =
      ((if b = true then .ok make else .error .rejected : Except Stop Setting).map
        Setting.apply).map (· conf) := by
  cases b <;> rfl

/-- The switch on the index of the `=` tells no more than the key. -/
theorem globalLine_eq (access : Bytes → Bool) (line : Bytes) (conf : FullConf) :
    globalLine access line conf = (lineEdit access line).map (· conf) := by
  by_cases hi : scan (byte '=') line < line.length
  · have hlen : (line.take (scan (byte '=') line)).length = scan (byte '=') line := by
      simp; omega
    simp only [globalLine, lineEdit, keyValue, if_pos hi, substr_zero, substrFrom_of_lt hi]
    generalize line.drop (scan (byte '=') line + 1) = value
    generalize line.take (scan (byte '=') line) = key at *
    rw [← hlen]
    clear hi hlen
    by_cases hip : key = ascii "ip"
    · subst hip
      rfl
    by_cases hport : key = ascii "port"
    · subst hport
      exact number_apply value .port conf
    by_cases hloglevel : key = ascii "loglevel"
    · subst hloglevel
      exact loglevel_switch value conf
    by_cases hlogfile : key = ascii "logfile"
    · subst hlogfile
      exact checked_apply (access (cstr value)) (.logfile value) conf
    by_cases hdocroot : key = ascii "docroot"
    · subst hdocroot
      exact checked_apply (access (cstr value)) (.docroot value) conf
    by_cases hthreadcnt : key = ascii "threadcnt"
    · subst hthreadcnt
      exact number_apply value .threadcnt conf
    by_cases hcachesnum : key = ascii "cachesnum"
    · subst hcachesnum
      exact number_apply value .cachesnum conf
    by_cases hdefaulthost : key = ascii "defaulthost"
    · subst hdefaulthost
      rfl
    simp only [setting, hip, hport, hloglevel, hlogfile, hdocroot, hthreadcnt, hcachesnum,
      hdefaulthost, if_false]
    simp only [bind, Except.bind, Except.map, Setting.apply]
    split <;> (try simp only [hip, hport, hloglevel, hlogfile, hdocroot, hthreadcnt, hcachesnum,
      hdefaulthost, if_false]) <;> rfl
  · simp [globalLine, lineEdit, keyValue, hi, Except.map]

/-- What a line of `[host]` does. -/
def hostEdit (host : HostInfo) (line : Bytes) : HostInfo :=
  match keyValue line with
  | none => host
  | some (key, value) =>
    if key = ascii "servername" then ⟨value, ascii "."⟩
    else if key = ascii "docroot" then { host with docroot := value }
    else { host with docroot := ascii "." }

theorem hostLine_eq (line : Bytes) (host : HostInfo) :
    hostLine line host = .ok (hostEdit host line) := by
  by_cases hi : scan (byte '=') line < line.length
  · have hlen : (line.take (scan (byte '=') line)).length = scan (byte '=') line := by
      simp; omega
    simp only [hostLine, hostEdit, keyValue, if_pos hi, substr_zero, substrFrom_of_lt hi]
    generalize line.drop (scan (byte '=') line + 1) = value
    generalize line.take (scan (byte '=') line) = key at *
    rw [← hlen]
    clear hi hlen
    by_cases hservername : key = ascii "servername"
    · subst hservername
      rfl
    by_cases hdocroot : key = ascii "docroot"
    · subst hdocroot
      rfl
    simp only [hservername, hdocroot, if_false]
    simp only [bind, Except.bind]
    split <;> (try simp only [hservername, hdocroot, if_false]) <;> rfl
  · simp [hostLine, hostEdit, keyValue, hi]

/-- The host a section adds. -/
def hostOf (body : List Bytes) : HostInfo := body.foldl hostEdit ⟨[], []⟩

/-! ## Sections -/

abbrev HeaderLine := { line : Bytes // startsSection line = true }

abbrev BodyLine := { line : Bytes // startsSection line = false }

structure Section where
  header : HeaderLine
  body : List BodyLine

/-- A file: the lines in front of the first section, and the sections. -/
structure ConfText where
  lead : List BodyLine
  sections : List Section

def bodyLines (body : List BodyLine) : List Bytes := body.map Subtype.val

def Section.lines (s : Section) : List Bytes := s.header.val :: bodyLines s.body

def ConfText.lines (t : ConfText) : List Bytes :=
  bodyLines t.lead ++ t.sections.flatMap Section.lines

def split : List Bytes → ConfText
  | [] => ⟨[], []⟩
  | line :: lines =>
    if h : startsSection line = true then
      ⟨[], ⟨⟨line, h⟩, (split lines).lead⟩ :: (split lines).sections⟩
    else ⟨⟨line, Bool.eq_false_of_not_eq_true h⟩ :: (split lines).lead, (split lines).sections⟩

theorem lines_split (lines : List Bytes) : (split lines).lines = lines := by
  induction lines with
  | nil => rfl
  | cons line lines ih =>
    rw [split]
    split
    · simpa [ConfText.lines, Section.lines, bodyLines] using ih
    · simpa [ConfText.lines, bodyLines] using ih

theorem split_header (header : HeaderLine) (lines : List Bytes) :
    split (header.val :: lines) = ⟨[], ⟨header, (split lines).lead⟩ :: (split lines).sections⟩ := by
  rw [split, dif_pos header.property]

theorem split_body (body : List BodyLine) (lines : List Bytes) :
    split (bodyLines body ++ lines) = ⟨body ++ (split lines).lead, (split lines).sections⟩ := by
  induction body with
  | nil => rfl
  | cons line body ih =>
    have hline : ¬ startsSection line.val = true := by simp [line.property]
    show split (line.val :: (bodyLines body ++ lines)) = _
    rw [split, dif_neg hline, ih]
    rfl

theorem split_sections (sections : List Section) :
    split (sections.flatMap Section.lines) = ⟨[], sections⟩ := by
  induction sections with
  | nil => rfl
  | cons s sections ih =>
    show split (s.header.val :: bodyLines s.body ++ sections.flatMap Section.lines) = _
    rw [List.cons_append, split_header, split_body, ih, List.append_nil]

theorem split_lines (t : ConfText) : split t.lines = t := by
  rw [ConfText.lines, split_body, split_sections, List.append_nil]

/-! ## Reading sections -/

theorem globalParser_body (access : Bytes → Bool) (sections : List Section)
    (body : List BodyLine) :
    ∀ conf, globalParser access (bodyLines body ++ sections.flatMap Section.lines) conf =
      (Edits.run (lineEdit access) conf (bodyLines body)).map
        (·, sections.flatMap Section.lines) := by
  induction body with
  | nil =>
    intro conf
    cases sections with
    | nil => rfl
    | cons s sections =>
      show globalParser access (s.header.val :: _) conf = _
      rw [globalParser, if_pos s.header.property]
      rfl
  | cons line body ih =>
    intro conf
    have hline : ¬ startsSection line.val = true := by simp [line.property]
    show globalParser access (line.val :: (bodyLines body ++ _)) conf = _
    rw [globalParser, if_neg hline, globalLine_eq]
    show _ = (Edits.run (lineEdit access) conf (line.val :: bodyLines body)).map _
    rw [Edits.run]
    cases lineEdit access line.val with
    | ok f => exact ih (f conf)
    | error e => rfl

theorem hostLines_body (sections : List Section) (body : List BodyLine) :
    ∀ host, hostLines (bodyLines body ++ sections.flatMap Section.lines) host =
      .ok ((bodyLines body).foldl hostEdit host, sections.flatMap Section.lines) := by
  induction body with
  | nil =>
    intro host
    cases sections with
    | nil => rfl
    | cons s sections =>
      show hostLines (s.header.val :: _) host = _
      rw [hostLines, if_pos s.header.property]
      rfl
  | cons line body ih =>
    intro host
    have hline : ¬ startsSection line.val = true := by simp [line.property]
    show hostLines (line.val :: (bodyLines body ++ _)) host = _
    rw [hostLines, if_neg hline, hostLine_eq]
    exact ih (hostEdit host line.val)

/-- What reading meets, in its order. -/
inductive Item where
  /-- a line where a section has to start -/
  | stray (line : Bytes)
  /-- a line of `[global]` -/
  | set (line : Bytes)
  /-- the lines of a `[host]` -/
  | host (body : List Bytes)

def Section.items (s : Section) : List Item :=
  if sectionName s.header.val = ascii "global" then (bodyLines s.body).map .set
  else if sectionName s.header.val = ascii "host" then [.host (bodyLines s.body)]
  else (bodyLines s.body).map .stray

def ConfText.items (t : ConfText) : List Item :=
  (bodyLines t.lead).map .stray ++ t.sections.flatMap Section.items

def itemEdit (access : Bytes → Bool) : Item → Except Stop (FullConf → FullConf)
  | .stray _ => .error .rejected
  | .set line => lineEdit access line
  | .host body => .ok fun conf => { conf with hosts := conf.hosts ++ [hostOf body] }

theorem run_set (access : Bytes → Bool) (body : List Bytes) (conf : FullConf) :
    Edits.run (itemEdit access) conf (body.map .set) =
      Edits.run (lineEdit access) conf body := by
  induction body generalizing conf with
  | nil => rfl
  | cons line body ih =>
    have hline : itemEdit access (.set line) = lineEdit access line := rfl
    rw [List.map_cons, Edits.run, Edits.run, hline]
    cases lineEdit access line with
    | ok f => exact ih (f conf)
    | error e => rfl

theorem readLines_cons (access : Bytes → Bool) (line : Bytes) (lines : List Bytes)
    (conf : FullConf) :
    readLines access (line :: lines) conf =
      match readLine access line lines conf with
      | .ok (conf, rest) => readLines access rest conf
      | .error e => .error e := by
  rw [readLines]
  split
  · rename_i h
    rw [h]
  · rename_i h
    rw [h]

theorem readLines_sections (access : Bytes → Bool) (sections : List Section) :
    ∀ conf, readLines access (sections.flatMap Section.lines) conf =
      Edits.run (itemEdit access) conf (sections.flatMap Section.items) := by
  induction sections with
  | nil =>
    intro conf
    simp [readLines, Edits.run]
  | cons s sections ih =>
    intro conf
    show readLines access (s.header.val :: (bodyLines s.body ++
      sections.flatMap Section.lines)) conf = _
    rw [readLines_cons, readLine_eq, if_pos s.header.property, List.flatMap_cons,
      Edits.run_append, Section.items]
    by_cases hglobal : sectionName s.header.val = ascii "global"
    · rw [if_pos hglobal, if_pos hglobal, globalParser_body, run_set]
      cases Edits.run (lineEdit access) conf (bodyLines s.body) with
      | ok conf => exact ih conf
      | error e => rfl
    · rw [if_neg hglobal, if_neg hglobal]
      by_cases hhost : sectionName s.header.val = ascii "host"
      · rw [if_pos hhost, if_pos hhost, hostParser, hostLines_body]
        exact ih _
      · rw [if_neg hhost, if_neg hhost]
        cases hbody : s.body with
        | nil => exact ih conf
        | cons line body =>
          have hline : ¬ startsSection line.val = true := by simp [line.property]
          show readLines access (line.val :: (bodyLines body ++ _)) conf = _
          rw [readLines_cons, readLine_eq, if_neg hline]
          rfl

/-- `Conf::read` is a run of edits. -/
theorem readLines_eq (access : Bytes → Bool) (t : ConfText) (conf : FullConf) :
    readLines access t.lines conf = Edits.run (itemEdit access) conf t.items := by
  obtain ⟨lead, sections⟩ := t
  cases lead with
  | nil => exact readLines_sections access sections conf
  | cons line lead =>
    have hline : ¬ startsSection line.val = true := by simp [line.property]
    show readLines access (line.val :: (bodyLines lead ++ _)) conf = _
    rw [readLines_cons, readLine_eq, if_neg hline]
    rfl

/-- The text of a file, cut into its sections. -/
def confText (confile : Option Bytes) : ConfText :=
  match confile with
  | none => ⟨[], []⟩
  | some content => split (fileLines content)

theorem read_eq (access : Bytes → Bool) (confile : Option Bytes) (conf : FullConf) :
    read access confile conf = Edits.run (itemEdit access) conf (confText confile).items := by
  cases confile with
  | none => rfl
  | some content =>
    show readLines access (fileLines content) conf = _
    rw [← readLines_eq, confText, lines_split]

/-- The file `sw.conf` of the repository. -/
def sample : Bytes :=
  ascii "[global]\nip=127.0.0.1\nport=8080\nloglevel=none\nthreadcnt=4\n" ++
    ascii "defaulthost=simpleweb.localhost:8080\ndocroot=.\n" ++
    ascii "[host]\nservername=ahost.localhost:8080\ndocroot=./ahost\n"

def sampleConf : FullConf :=
  { FullConf.init with
    loglevel := .none
    defaulthost := ⟨ascii "simpleweb.localhost:8080", ascii "."⟩
    hosts := [⟨ascii "ahost.localhost:8080", ascii "./ahost"⟩] }

theorem read_sample : read (fun _ => true) (some sample) .init = .ok sampleConf := by
  rw [read_eq]
  decide +kernel

end ConfFile
end SimpleWeb
