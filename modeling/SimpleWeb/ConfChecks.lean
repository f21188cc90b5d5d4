import SimpleWeb.ConfValues

/-!
# SimpleWeb.ConfChecks

What `Conf::read` checks of the values it takes. Paths are checked with `access`, and a file that
names one that cannot be read is rejected. Numbers are not: a number `stoi` cannot read leaves the
reader as an exception (`read_returns_iff`), and any other is taken as it is (`read_safe_iff`).
-/

namespace SimpleWeb
namespace ConfFile

open CArray

def numericKeys : List Bytes := [ascii "port", ascii "threadcnt", ascii "cachesnum"]

def pathKeys : List Bytes := [ascii "logfile", ascii "docroot"]

/-! ## One setting -/

theorem setting_number (access : Bytes → Bool) {key : Bytes} (h : key ∈ numericKeys)
    (value : Bytes) : ∃ g, setting access key value = (number value).map g := by
  simp only [numericKeys, List.mem_cons, List.not_mem_nil, or_false] at h
  rcases h with rfl | rfl | rfl
  · exact ⟨.port, rfl⟩
  · exact ⟨.threadcnt, rfl⟩
  · exact ⟨.cachesnum, rfl⟩

theorem setting_path (access : Bytes → Bool) {key : Bytes} (h : key ∈ pathKeys)
    (value : Bytes) :
    ∃ s, setting access key value = if access (cstr value) then .ok s else .error .rejected := by
  simp only [pathKeys, List.mem_cons, List.not_mem_nil, or_false] at h
  rcases h with rfl | rfl
  · exact ⟨.logfile value, rfl⟩
  · exact ⟨.docroot value, rfl⟩

theorem setting_other (access : Bytes → Bool) {key : Bytes} (hn : key ∉ numericKeys)
    (hp : key ∉ pathKeys) (value : Bytes) : ∃ s, setting access key value = .ok s := by
  simp only [numericKeys, pathKeys, List.mem_cons, List.not_mem_nil, or_false, not_or] at hn hp
  simp only [setting, hn, hp, if_false]
  split
  · exact ⟨_, rfl⟩
  · split
    · exact ⟨_, rfl⟩
    · split <;> exact ⟨_, rfl⟩

/-- The line sets a number that `stoi` cannot read. -/
def BadNumber (e : Exception) (line : Bytes) : Prop :=
  ∃ key value, keyValue line = some (key, value) ∧ key ∈ numericKeys ∧ stoi value = .error e

/-- The line names a path that cannot be read. -/
def BadPath (access : Bytes → Bool) (line : Bytes) : Prop :=
  ∃ key value, keyValue line = some (key, value) ∧ key ∈ pathKeys ∧ access (cstr value) = false

theorem lineEdit_threw {access : Bytes → Bool} {line : Bytes} {e : Exception} :
    lineEdit access line = .error (.threw e) ↔ BadNumber e line := by
  unfold BadNumber
  cases hkv : keyValue line with
  | none => simp [lineEdit, hkv]
  | some kv =>
    obtain ⟨key, value⟩ := kv
    simp only [lineEdit, hkv]
    by_cases hn : key ∈ numericKeys
    · obtain ⟨g, hg⟩ := setting_number access hn value
      rw [hg, number]
      cases hs : stoi value with
      | ok n => simp [hs, Except.mapError, Except.map]
      | error e' => simp [hs, hn, Except.mapError, Except.map]
    · have hne : (setting access key value).map Setting.apply ≠ .error (.threw e) := by
        by_cases hp : key ∈ pathKeys
        · obtain ⟨f, hf⟩ := setting_path access hp value
          rw [hf]
          split <;> simp [Except.map]
        · obtain ⟨f, hf⟩ := setting_other access hn hp value
          simp [hf, Except.map]
      simp [hne, hn]

theorem lineEdit_rejected {access : Bytes → Bool} {line : Bytes} :
    lineEdit access line = .error .rejected ↔ BadPath access line := by
  unfold BadPath
  cases hkv : keyValue line with
  | none => simp [lineEdit, hkv]
  | some kv =>
    obtain ⟨key, value⟩ := kv
    simp only [lineEdit, hkv]
    by_cases hp : key ∈ pathKeys
    · obtain ⟨f, hf⟩ := setting_path access hp value
      rw [hf]
      cases ha : access (cstr value) <;> simp [ha, hp, Except.map]
    · have hne : (setting access key value).map Setting.apply ≠ .error .rejected := by
        by_cases hn : key ∈ numericKeys
        · obtain ⟨g, hg⟩ := setting_number access hn value
          rw [hg, number]
          cases stoi value <;> simp [Except.mapError, Except.map]
        · obtain ⟨f, hf⟩ := setting_other access hn hp value
          simp [hf, Except.map]
      simp [hne, hp]

/-! ## What ends the reader -/

/-- The item makes the reader return -1. -/
def Rejects (access : Bytes → Bool) : Item → Prop
  | .stray _ => True
  | .set line => BadPath access line
  | .host _ => False

/-- The item lets an exception out of the reader. -/
def Throws (e : Exception) : Item → Prop
  | .set line => BadNumber e line
  | _ => False

theorem refusal_rejected {access : Bytes → Bool} {it : Item} :
    Edits.refusal (itemEdit access) it = some .rejected ↔ Rejects access it := by
  rw [Edits.refusal_eq_some]
  cases it with
  | stray line => simp [itemEdit, Rejects]
  | set line => exact lineEdit_rejected
  | host body => simp [itemEdit, Rejects]

theorem refusal_threw {access : Bytes → Bool} {it : Item} {e : Exception} :
    Edits.refusal (itemEdit access) it = some (.threw e) ↔ Throws e it := by
  rw [Edits.refusal_eq_some]
  cases it with
  | stray line => simp [itemEdit, Throws]
  | set line => exact lineEdit_threw
  | host body => simp [itemEdit, Throws]

/-- `Conf::read` returns exactly when every number of `[global]` that `stoi` cannot read stands
behind something the reader rejects. -/
theorem read_returns_iff (access : Bytes → Bool) (confile : Option Bytes) :
    ((∃ conf, read access confile .init = .ok conf) ∨
        read access confile .init = .error .rejected) ↔
      ∀ pre it post e, (confText confile).items = pre ++ it :: post → Throws e it →
        ∃ it' ∈ pre, Rejects access it' := by
  rw [read_eq]
  cases h : Edits.run (itemEdit access) .init (confText confile).items with
  | ok conf =>
    refine iff_of_true (.inl ⟨conf, rfl⟩) ?_
    intro pre it post e hitems hthrows
    have hnone := (Edits.run_ok_iff.mp h).1 it (by simp [hitems])
    rw [refusal_threw.mpr hthrows] at hnone
    cases hnone
  | error stop =>
    cases stop with
    | rejected =>
      refine iff_of_true (.inr rfl) ?_
      intro pre it post e hitems hthrows
      rw [hitems] at h
      obtain ⟨it', hmem, hrej⟩ :=
        Edits.refused_before h (refusal_threw.mpr hthrows) (by simp)
      exact ⟨it', hmem, refusal_rejected.mp hrej⟩
    | threw e =>
      refine iff_of_false (by simp) ?_
      intro hall
      obtain ⟨pre, it, post, hitems, hit, hpre⟩ := Edits.run_error_iff.mp h
      obtain ⟨it', hmem, hrej⟩ := hall pre it post e hitems (refusal_threw.mp hit)
      have hnone := hpre it' hmem
      rw [refusal_rejected.mpr hrej] at hnone
      cases hnone

/-- A port that is no number. -/
theorem read_badPort :
    read (fun _ => true) (some (ascii "[global]\nport=http\n")) .init =
        .error (.threw .invalidArgument) ∧
      ¬ ((∃ conf, read (fun _ => true) (some (ascii "[global]\nport=http\n")) .init = .ok conf) ∨
        read (fun _ => true) (some (ascii "[global]\nport=http\n")) .init = .error .rejected) := by
  have hread : read (fun _ => true) (some (ascii "[global]\nport=http\n")) .init =
      .error (.threw .invalidArgument) := by
    rw [read_eq]
    rfl
  rw [hread]
  simp

/-! ## The numbers that are taken -/

/-- The number a line of `[global]` gives the key. -/
def numberOf (key : Bytes) : Item → Option Int
  | .set line =>
    match keyValue line with
    | some (k, value) => if k = key then (stoi value).toOption else none
    | none => none
  | _ => none

/-- The number of the last line of `[global]` with the key. -/
def lastNumber (key : Bytes) (t : ConfText) : Option Int :=
  t.items.reverse.findSome? (numberOf key)

/-- What the rest of the server asks of a configuration: workers to choose from, a bound for the
cache, a port `htons` does not cut. -/
structure Safe (conf : FullConf) : Prop where
  threadcnt : 1 ≤ conf.threadcnt
  filecachesnum : 1 ≤ conf.filecachesnum
  port : 0 ≤ conf.port ∧ conf.port ≤ 65535

theorem init_safe : Safe .init := ⟨by decide, by decide, by decide, by decide⟩

section Numbers

variable {access : Bytes → Bool} {key : Bytes} {make : Int → Setting} {π : FullConf → Int}

/-- A key sets its number and nothing else does. -/
structure SetBy (access : Bytes → Bool) (key : Bytes) (make : Int → Setting)
    (π : FullConf → Int) : Prop where
  setting : ∀ value, setting access key value = (number value).map make
  apply : ∀ n conf, π ((make n).apply conf) = n
  other : ∀ (s : Setting) conf, key ∉ s.key → π (s.apply conf) = π conf
  hosts : ∀ conf hosts, π { conf with hosts := hosts } = π conf

theorem SetBy.sets (h : SetBy access key make π) : Sets access key admitNumber π where
  setting value s conf hs := by
    rw [h.setting] at hs
    obtain ⟨n, hn, rfl⟩ := number_map_ok hs
    simp [admitNumber, hn, h.apply, Except.toOption]
  other := h.other
  hosts := h.hosts

theorem numberOf_eq (key : Bytes) : numberOf key = itemValue admitNumber key := by
  funext it
  cases it <;> rfl

theorem read_number (h : SetBy access key make π) {confile : Option Bytes} {conf : FullConf}
    (hread : read access confile .init = .ok conf) :
    π conf = (lastNumber key (confText confile)).getD (π .init) := by
  rw [lastNumber, numberOf_eq]
  exact read_item h.sets hread

end Numbers

theorem port_setBy (access : Bytes → Bool) :
    SetBy access (ascii "port") .port FullConf.port where
  setting _ := rfl
  apply _ _ := rfl
  other s conf h := by cases s <;> simp [Setting.key] at h <;> rfl
  hosts _ _ := rfl

theorem threadcnt_setBy (access : Bytes → Bool) :
    SetBy access (ascii "threadcnt") .threadcnt FullConf.threadcnt where
  setting _ := rfl
  apply _ _ := rfl
  other s conf h := by cases s <;> simp [Setting.key] at h <;> rfl
  hosts _ _ := rfl

theorem cachesnum_setBy (access : Bytes → Bool) :
    SetBy access (ascii "cachesnum") .cachesnum FullConf.filecachesnum where
  setting _ := rfl
  apply _ _ := rfl
  other s conf h := by cases s <;> simp [Setting.key] at h <;> rfl
  hosts _ _ := rfl

theorem getD_iff {p : Int → Prop} {d : Int} (hd : p d) (o : Option Int) :
    p (o.getD d) ↔ ∀ n ∈ o, p n := by
  cases o <;> simp [hd]

/-- An accepted configuration is safe to run exactly when each number that is set last is: neither
the threads nor the caches are compared with 1, nor the port with 65535. -/
theorem read_safe_iff (access : Bytes → Bool) (confile : Option Bytes) (conf : FullConf)
    (h : read access confile .init = .ok conf) :
    Safe conf ↔
      (∀ n ∈ lastNumber (ascii "threadcnt") (confText confile), 1 ≤ n) ∧
      (∀ n ∈ lastNumber (ascii "cachesnum") (confText confile), 1 ≤ n) ∧
      (∀ n ∈ lastNumber (ascii "port") (confText confile), 0 ≤ n ∧ n ≤ 65535) := by
  have hthreads := read_number (threadcnt_setBy access) h
  have hcaches := read_number (cachesnum_setBy access) h
  have hport := read_number (port_setBy access) h
  have hinit := init_safe
  rw [← getD_iff (p := (1 ≤ ·)) hinit.threadcnt,
    ← getD_iff (p := (1 ≤ ·)) hinit.filecachesnum,
    ← getD_iff (p := fun n => 0 ≤ n ∧ n ≤ 65535) hinit.port, ← hthreads, ← hcaches, ← hport]
  exact ⟨fun hs => ⟨hs.threadcnt, hs.filecachesnum, hs.port⟩, fun ⟨ht, hc, hp⟩ => ⟨ht, hc, hp⟩⟩

theorem read_safe_iff_sample : Safe sampleConf :=
  (read_safe_iff (fun _ => true) (some sample) sampleConf read_sample).mpr (by decide +kernel)

/-- A configuration without threads is accepted. -/
theorem read_noThreads :
    ∃ conf, read (fun _ => true) (some (ascii "[global]\nthreadcnt=0\n")) .init = .ok conf ∧
      conf.threadcnt = 0 ∧ ¬ Safe conf := by
  refine ⟨{ FullConf.init with threadcnt := 0 }, ?_, rfl, ?_⟩
  · rw [read_eq]
    rfl
  · intro h
    exact absurd h.threadcnt (by decide)

end ConfFile
end SimpleWeb
