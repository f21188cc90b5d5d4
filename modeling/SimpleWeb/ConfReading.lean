import SimpleWeb.ConfChecks

/-!
# SimpleWeb.ConfReading

All that `Conf::read` takes from the sections `[global]` of a file it accepts is the plain reading
of their lines (`read_plain`). The switch on the index of the `=`, the loops that hand the stream
to each other and the sections in between make no difference.
-/

namespace SimpleWeb
namespace ConfFile

open CArray

def admitLevel (value : Bytes) : Option Level :=
  if value = ascii "debug" then some .debug
  else if value = ascii "info" then some .info
  else if value = ascii "none" then some .none
  else none

/-- The defaults, and the last values of the lines in their place. -/
def plainReading (lines : List Bytes) : FullConf where
  ip := (lastValue some (ascii "ip") lines).getD FullConf.init.ip
  port := (lastValue admitNumber (ascii "port") lines).getD FullConf.init.port
  threadcnt := (lastValue admitNumber (ascii "threadcnt") lines).getD FullConf.init.threadcnt
  filecachesnum :=
    (lastValue admitNumber (ascii "cachesnum") lines).getD FullConf.init.filecachesnum
  defaulthost :=
    { servername :=
        (lastValue some (ascii "defaulthost") lines).getD FullConf.init.defaulthost.servername
      docroot := (lastValue some (ascii "docroot") lines).getD FullConf.init.defaulthost.docroot }
  logfilename := (lastValue some (ascii "logfile") lines).getD FullConf.init.logfilename
  loglevel := (lastValue admitLevel (ascii "loglevel") lines).getD FullConf.init.loglevel
  hosts := []

section Keys

variable (access : Bytes → Bool)

theorem checked_ok {b : Bool} {make s : Setting}
    (h : (if b = true then .ok make else .error .rejected : Except Stop Setting) = .ok s) :
    s = make := by
  split at h
  · cases h
    rfl
  · cases h

theorem levelOf_apply (value : Bytes) (conf : FullConf) :
    ((levelOf value).apply conf).loglevel = (admitLevel value).getD conf.loglevel := by
  unfold levelOf admitLevel
  split
  · rfl
  · split
    · rfl
    · split
      · rfl
      · rfl

theorem ip_sets : Sets access (ascii "ip") some FullConf.ip where
  setting value s conf hs := by cases hs; rfl
  other s conf h := by cases s <;> simp [Setting.key] at h <;> rfl
  hosts _ _ := rfl

theorem loglevel_sets : Sets access (ascii "loglevel") admitLevel FullConf.loglevel where
  setting value s conf hs := by cases hs; exact levelOf_apply value conf
  other s conf h := by cases s <;> simp [Setting.key] at h <;> rfl
  hosts _ _ := rfl

theorem logfile_sets : Sets access (ascii "logfile") some FullConf.logfilename where
  setting value s conf hs := by rw [checked_ok hs]; rfl
  other s conf h := by cases s <;> simp [Setting.key] at h <;> rfl
  hosts _ _ := rfl

theorem docroot_sets :
    Sets access (ascii "docroot") some (fun conf => conf.defaulthost.docroot) where
  setting value s conf hs := by rw [checked_ok hs]; rfl
  other s conf h := by cases s <;> simp [Setting.key] at h <;> rfl
  hosts _ _ := rfl

theorem defaulthost_sets :
    Sets access (ascii "defaulthost") some (fun conf => conf.defaulthost.servername) where
  setting value s conf hs := by cases hs; rfl
  other s conf h := by cases s <;> simp [Setting.key] at h <;> rfl
  hosts _ _ := rfl

end Keys

/-- For every file that is accepted: under each of the eight keys stands the last admitted value of
the lines of `[global]` with that key, or the default. Nothing else in the file has a part in it,
as the plain reading has no other argument; the hosts apart. -/
theorem read_plain (access : Bytes → Bool) (confile : Option Bytes) (conf : FullConf)
    (h : read access confile .init = .ok conf) :
    { conf with hosts := [] } = plainReading (globalLines (confText confile)) := by
  have hip := read_value (ip_sets access) h
  have hport := read_value (port_setBy access).sets h
  have hlevel := read_value (loglevel_sets access) h
  have hlogfile := read_value (logfile_sets access) h
  have hdocroot := read_value (docroot_sets access) h
  have hthreads := read_value (threadcnt_setBy access).sets h
  have hcaches := read_value (cachesnum_setBy access).sets h
  have hname := read_value (defaulthost_sets access) h
  rw [plainReading, ← hip, ← hport, ← hlevel, ← hlogfile, ← hdocroot, ← hthreads, ← hcaches,
    ← hname]

theorem read_plain_sample :
    { sampleConf with hosts := [] } = plainReading (globalLines (confText (some sample))) :=
  read_plain (fun _ => true) (some sample) sampleConf read_sample

end ConfFile
end SimpleWeb
