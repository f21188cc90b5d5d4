import SimpleWeb.HostRouting

/-!
# SimpleWeb.Conf

The configuration file (`Conf.cpp`): sections under a name in brackets, `key=value` lines inside.

`Conf::read` and its two parsers share one stream and take it line by line, so the stream is the
list of its lines (`fileLines`). A line is shorter than 2^31 bytes, as the index in it is an `int`.
-/

namespace SimpleWeb

open Http CArray

inductive Level where
  | none
  | info
  | debug
  deriving DecidableEq, Repr

deriving instance DecidableEq for HostInfo, Conf

/-- All of the class `Conf`: `Conf` holds what the routing reads. `loglevel` is a static member. -/
structure FullConf extends Conf where
  ip : Bytes
  port : Int
  loglevel : Level
  logfilename : Bytes
  threadcnt : Int
  filecachesnum : Int
  deriving DecidableEq

/-- The constructor, in a build without `DEBUG`. -/
def FullConf.init : FullConf where
  defaulthost := ⟨[], ascii "."⟩
  hosts := []
  ip := ascii "127.0.0.1"
  port := 8080
  loglevel := .info
  logfilename := []
  threadcnt := 4
  filecachesnum := 32

inductive Exception where
  | invalidArgument
  | outOfRange
  deriving DecidableEq, Repr

/-- How a reader ends early: it returns -1, or an exception leaves it. -/
inductive Stop where
  | rejected
  | threw (e : Exception)
  deriving DecidableEq, Repr

namespace ConfFile

/-! ## Strings -/

/-- `s.substr(pos, n)` -/
def substr (s : Bytes) (pos n : Nat) : Except Stop Bytes :=
  if pos ≤ s.length then .ok ((s.drop pos).take n) else .error (.threw .outOfRange)

/-- `s.substr(pos)` -/
def substrFrom (s : Bytes) (pos : Nat) : Except Stop Bytes := substr s pos s.length

/-- `while(i<s.length() && s[i] != stop) i++` -/
def scan (stop : UInt8) (s : Bytes) : Nat := (s.takeWhile (· ≠ stop)).length

/-- `isspace` in the "C" locale -/
def isspace (ch : UInt8) : Bool := ch == byte ' ' || (9 ≤ ch && ch ≤ 13)

/-- The sign `strtol` reads, and what is behind it. -/
def signOf (s : Bytes) : Int × Bytes :=
  match s with
  | [] => (1, [])
  | c :: cs => if c = byte '-' then (-1, cs) else if c = byte '+' then (1, cs) else (1, c :: cs)

def decimal (ds : Bytes) : Nat := ds.foldl (fun v d => 10 * v + (d - byte '0').toNat) 0

/-- `std::stoi(s)`: spaces, a sign, digits; what follows them is not looked at. -/
def stoi (s : Bytes) : Except Exception Int :=
  let (sign, t) := signOf (s.dropWhile isspace)
  let digits := t.takeWhile isDigit
  if digits = [] then .error .invalidArgument
  else
    let v := sign * decimal digits
    if -2 ^ 31 ≤ v ∧ v < 2 ^ 31 then .ok v else .error .outOfRange

/-- `stoi`, as the parsers call it. -/
def number (s : Bytes) : Except Stop Int := (stoi s).mapError .threw

/-! ## Lines -/

/-- `getline` until it fails: the last line may lack its newline. -/
def fileLines : Bytes → List Bytes
  | [] => []
  | c :: cs =>
    if c = LF then [] :: fileLines cs
    else
      match fileLines cs with
      | [] => [[c]]
      | l :: ls => (c :: l) :: ls

def startsSection (line : Bytes) : Bool := line.head? == some (byte '[')

/-! ## `Conf::global_parser` -/

/-- The body of the loop; `access(path, R_OK) == 0` is `access path`. -/
def globalLine (access : Bytes → Bool) (line : Bytes) (conf : FullConf) :
    Except Stop FullConf :=
  let i := scan (byte '=') line
  if i < line.length then do
    let key ← substr line 0 i
    let value ← substrFrom line (i + 1)
    match i with
    | 2 =>
      if key = ascii "ip" then
        let ip ← substrFrom line (i + 1)
        pure { conf with ip := ip }
      else pure conf
    | 4 =>
      if key = ascii "port" then
        let port ← number (← substrFrom line (i + 1))
        pure { conf with port := port }
      else pure conf
    | 8 =>
      if key = ascii "loglevel" then
        match value.length with
        | 5 => if value = ascii "debug" then pure { conf with loglevel := .debug } else pure conf
        | 4 =>
          if value = ascii "info" then pure { conf with loglevel := .info }
          else if value = ascii "none" then pure { conf with loglevel := .none }
          else pure conf
        | _ => pure conf
      else pure conf
    | 7 =>
      if key = ascii "logfile" then
        if access (cstr value) then
          let logfilename ← substrFrom line (i + 1)
          pure { conf with logfilename := logfilename }
        else throw .rejected
      else if key = ascii "docroot" then
        if access (cstr value) then
          let docroot ← substrFrom line (i + 1)
          pure { conf with defaulthost := { conf.defaulthost with docroot := docroot } }
        else throw .rejected
      else pure conf
    | 9 =>
      if key = ascii "threadcnt" then
        let threadcnt ← number value
        pure { conf with threadcnt := threadcnt }
      else if key = ascii "cachesnum" then
        let filecachesnum ← number value
        pure { conf with filecachesnum := filecachesnum }
      else pure conf
    | 11 =>
      if key = ascii "defaulthost" then
        pure { conf with defaulthost := { conf.defaulthost with servername := value } }
      else pure conf
    | _ => pure conf
  else .ok conf

/-- The lines up to the next section, and what they leave of the stream. -/
def globalParser (access : Bytes → Bool) :
    List Bytes → FullConf → Except Stop (FullConf × List Bytes)
  | [], conf => .ok (conf, [])
  | line :: lines, conf =>
    if startsSection line then .ok (conf, line :: lines)
    else
      match globalLine access line conf with
      | .ok conf => globalParser access lines conf
      | .error e => .error e

/-! ## `Conf::host_parser` -/

/-- The body of the loop. A line with a `=` sets the docroot back before its key is looked at. -/
def hostLine (line : Bytes) (host : HostInfo) : Except Stop HostInfo :=
  let i := scan (byte '=') line
  if i < line.length then do
    let host := { host with docroot := ascii "." }
    let key ← substr line 0 i
    match i with
    | 10 =>
      if key = ascii "servername" then
        let servername ← substrFrom line (i + 1)
        pure { host with servername := servername }
      else pure host
    | 7 =>
      if key = ascii "docroot" then
        let docroot ← substrFrom line (i + 1)
        pure { host with docroot := docroot }
      else pure host
    | _ => pure host
  else .ok host

def hostLines : List Bytes → HostInfo → Except Stop (HostInfo × List Bytes)
  | [], host => .ok (host, [])
  | line :: lines, host =>
    if startsSection line then .ok (host, line :: lines)
    else
      match hostLine line host with
      | .ok host => hostLines lines host
      | .error e => .error e

def hostParser (lines : List Bytes) (conf : FullConf) : Except Stop (FullConf × List Bytes) :=
  match hostLines lines ⟨[], []⟩ with
  | .ok (host, rest) => .ok ({ conf with hosts := conf.hosts ++ [host] }, rest)
  | .error e => .error e

/-! ## `Conf::read` -/

/-- The body of the loop: a line in brackets, and the section under it. A section of another name is
not passed over. -/
def readLine (access : Bytes → Bool) (line : Bytes) (lines : List Bytes) (conf : FullConf) :
    Except Stop (FullConf × List Bytes) :=
  if startsSection line then
    let i := scan (byte ']') (line.drop 1)
    if i < line.length then
      match i with
      | 6 => do
        let name ← substr line 1 i
        if name = ascii "global" then globalParser access lines conf else pure (conf, lines)
      | 4 => do
        let name ← substr line 1 i
        if name = ascii "host" then hostParser lines conf else pure (conf, lines)
      | _ => .ok (conf, lines)
    else .ok (conf, lines)
  else .error .rejected

theorem globalParser_length {access : Bytes → Bool} {lines rest : List Bytes} :
    ∀ {conf conf' : FullConf}, globalParser access lines conf = .ok (conf', rest) →
      rest.length ≤ lines.length := by
  induction lines with
  | nil =>
    intro conf conf' h
    cases h
    exact Nat.le_refl _
  | cons line lines ih =>
    intro conf conf' h
    rw [globalParser] at h
    split at h
    · cases h
      exact Nat.le_refl _
    · split at h
      · exact (ih h).trans (Nat.le_succ _)
      · cases h

theorem hostLines_length {lines rest : List Bytes} :
    ∀ {host host' : HostInfo}, hostLines lines host = .ok (host', rest) →
      rest.length ≤ lines.length := by
  induction lines with
  | nil =>
    intro host host' h
    cases h
    exact Nat.le_refl _
  | cons line lines ih =>
    intro host host' h
    rw [hostLines] at h
    split at h
    · cases h
      exact Nat.le_refl _
    · split at h
      · exact (ih h).trans (Nat.le_succ _)
      · cases h

theorem substr_zero (s : Bytes) (n : Nat) : substr s 0 n = .ok (s.take n) := by
  rw [substr, if_pos (Nat.zero_le _), List.drop_zero]

theorem substrFrom_of_lt {s : Bytes} {i : Nat} (h : i < s.length) :
    substrFrom s (i + 1) = .ok (s.drop (i + 1)) := by
  rw [substrFrom, substr, if_pos (by omega), List.take_of_length_le (by simp)]

/-- The name in the brackets; the closing one may be missing. -/
def sectionName (line : Bytes) : Bytes := (line.drop 1).takeWhile (· ≠ byte ']')

theorem substr_sectionName {line : Bytes} (h : startsSection line = true) :
    substr line 1 (scan (byte ']') (line.drop 1)) = .ok (sectionName line) := by
  obtain ⟨c, cs, rfl⟩ : ∃ c cs, line = c :: cs := by
    cases line with
    | nil => simp [startsSection] at h
    | cons c cs => exact ⟨c, cs, rfl⟩
  rw [substr, if_pos (by simp), scan, sectionName]
  exact congrArg Except.ok (List.prefix_iff_eq_take.mp (List.takeWhile_prefix _)).symm

theorem scan_sectionName (line : Bytes) :
    scan (byte ']') (line.drop 1) = (sectionName line).length := rfl

/-- The index tells no more than the name. -/
theorem readLine_eq (access : Bytes → Bool) (line : Bytes) (lines : List Bytes)
    (conf : FullConf) :
    readLine access line lines conf =
      if startsSection line then
        if sectionName line = ascii "global" then globalParser access lines conf
        else if sectionName line = ascii "host" then hostParser lines conf
        else .ok (conf, lines)
      else .error .rejected := by
  by_cases hs : startsSection line = true
  · have hlt : scan (byte ']') (line.drop 1) < line.length := by
      have hne : line ≠ [] := by
        rintro rfl
        simp [startsSection] at hs
      have hle : (sectionName line).length ≤ (line.drop 1).length :=
        (List.takeWhile_prefix _).length_le
      have hpos := List.length_pos_iff.mpr hne
      rw [scan_sectionName]
      rw [List.length_drop] at hle
      omega
    simp only [readLine, hs, if_true, hlt, substr_sectionName hs]
    rw [scan_sectionName]
    generalize sectionName line = name
    split
    · rename_i h6
      have hhost : name ≠ ascii "host" := by
        rintro rfl
        exact absurd h6 (by decide)
      rw [if_neg hhost]
      rfl
    · rename_i h4
      have hglobal : name ≠ ascii "global" := by
        rintro rfl
        exact absurd h4 (by decide)
      rw [if_neg hglobal]
      rfl
    · rename_i h6 h4
      have hglobal : name ≠ ascii "global" := by
        rintro rfl
        exact h6 (by decide)
      have hhost : name ≠ ascii "host" := by
        rintro rfl
        exact h4 (by decide)
      rw [if_neg hglobal, if_neg hhost]
  · simp [readLine, hs]

theorem readLine_length {access : Bytes → Bool} {line : Bytes} {lines rest : List Bytes}
    {conf conf' : FullConf} (h : readLine access line lines conf = .ok (conf', rest)) :
    rest.length ≤ lines.length := by
  rw [readLine_eq] at h
  split at h
  · split at h
    · exact globalParser_length h
    · split at h
      · rw [hostParser] at h
        split at h
        · rename_i hhost
          cases h
          exact hostLines_length hhost
        · cases h
      · cases h
        exact Nat.le_refl _
  · cases h

def readLines (access : Bytes → Bool) (lines : List Bytes) (conf : FullConf) :
    Except Stop FullConf :=
  match lines with
  | [] => .ok conf
  | line :: lines =>
    match _h : readLine access line lines conf with
    | .ok (conf, rest) => readLines access rest conf
    | .error e => .error e
termination_by lines.length
decreasing_by
  have hle := readLine_length _h
  simp only [List.length_cons]
  omega

/-- `Conf::read` returns 0 with a configuration, returns -1, or lets an exception out. The content
of the file is `none` when it cannot be read. -/
def read (access : Bytes → Bool) (confile : Option Bytes) (conf : FullConf) :
    Except Stop FullConf :=
  match confile with
  | none => .ok conf
  | some content => readLines access (fileLines content) conf

end ConfFile
end SimpleWeb
