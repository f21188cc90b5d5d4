import SimpleWeb.Gateway

/-!
# SimpleWeb.AccessLog

The record `host::serve` writes to its log stream, one line for each request it answers
(`Gateway.cpp`). The target goes into it as the client sent it; the gateway looks at
`is_header_done()` alone before it serves, so what keeps the record on one line is what that flag
says about the target (`headerDone_guarantee`).
-/

namespace SimpleWeb

open Http ScanLoop

/-- What `os << status` prints: an unscoped enumerator is a number. -/
def Http.Status.digits : Status → Bytes
  | .unknown => ascii "0"
  | .ok => ascii "200"
  | .badRequest => ascii "400"
  | .forbidden => ascii "403"
  | .notFound => ascii "404"
  | .internalServerError => ascii "500"
  | .badGateway => ascii "502"

def EACCES : Nat := 13
def ENOENT : Nat := 2

/-- The switch over the error of `access`. -/
def accessResult (ec : Nat) : Status :=
  if ec = EACCES then .forbidden
  else if ec = ENOENT then .notFound
  else .internalServerError

/-- `logtime<<' '<<req_m.method_string()<<' '<<req_m.target()<<' '<<res_h.result()<<'\n'` -/
def logRecord (logtime : Bytes) (par : Parser) (result : Status) : Bytes :=
  logtime ++ byte ' ' :: par.message.method.toString ++ byte ' ' :: serveTarget par ++
    byte ' ' :: result.digits ++ [LF]

/-- What `serve` writes to the log stream. A library that does not load ends it without a record,
and the result of a service stays in its own copy of the header. -/
def serveLog {F : Type} (sys : System F) (h : Host F) (info : Bool) (logtime : Bytes)
    (par : Parser) : Bytes :=
  let record := fun result => if info then logRecord logtime par result else []
  if sys.access (filepath h.info par) = 0 then
    if isDynamic par then
      if serveTarget par ∉ h.getservices ∧ serveTarget par ∉ h.postservices ∧
          (sys.dlopen (filepath h.info par)).isNone then []
      else record .internalServerError
    else record .ok
  else record (accessResult (sys.access (filepath h.info par)))

/-- Nothing, or one line: the only line breaks in front of its end are those of the time. -/
def OneLine (logtime log : Bytes) : Prop :=
  log = [] ∨ ∃ line, log = line ++ [LF] ∧ line.count LF = logtime.count LF

theorem LF_notMem_method (v : Verb) : LF ∉ v.toString := by
  cases v <;> decide +kernel

theorem LF_notMem_digits (s : Status) : LF ∉ s.digits := by
  cases s <;> decide +kernel

theorem Http.Parser.Checked.lf_notMem {par : Parser} (h : par.Checked) :
    LF ∉ serveTarget par := by
  unfold serveTarget
  split
  · decide +kernel
  · intro hlf
    exact h.target LF hlf (by simp)

theorem logRecord_oneLine {par : Parser} (h : par.Checked) (logtime : Bytes) (result : Status) :
    OneLine logtime (logRecord logtime par result) := by
  refine .inr ⟨_, rfl, ?_⟩
  have hmethod := List.count_eq_zero_of_not_mem (LF_notMem_method par.message.method)
  have htarget := List.count_eq_zero_of_not_mem h.lf_notMem
  have hdigits := List.count_eq_zero_of_not_mem (LF_notMem_digits result)
  simp [List.count_append, hmethod, htarget, hdigits]

theorem serveLog_oneLine {F : Type} {par : Parser} (hc : par.Checked) (sys : System F)
    (h : Host F) (info : Bool) (logtime : Bytes) :
    OneLine logtime (serveLog sys h info logtime par) := by
  have hrecord : ∀ result, OneLine logtime (if info then logRecord logtime par result else []) := by
    intro result
    cases info with
    | false => exact .inl rfl
    | true => exact logRecord_oneLine hc logtime result
  simp only [serveLog]
  split
  · split
    · split
      · exact .inl rfl
      · exact hrecord _
    · exact hrecord _
  · exact hrecord _

/-- The flag the gateway looks at implies what it does not look at: the return code, the verb, the
target, the query and the version; so a served target leaves the record on one line. -/
theorem headerDone_guarantee (st : Stack) (is rest : Bytes) (ec : ParserEc) (par : Parser)
    (h : readHeader st is .init = some (ec, par, rest)) :
    (par.headerDone = true → ec = .ok ∧ par.Checked ∧
        ∀ (F : Type) (sys : System F) (h : Host F) (info : Bool) (logtime : Bytes),
          OneLine logtime (serveLog sys h info logtime par)) ∧
      (ec ≠ .ok → par.headerDone = false) ∧
      ∀ used s, used <+: is → LineRuns ⟨.start, st.buffer, 0, 0, false, .init⟩ used s →
        ∀ c, (versionDigit s.httpVersion c).toNat = versionNumber s.httpVersion.toNat c := by
  refine ⟨?_, ?_, ?_⟩
  · intro hd
    obtain ⟨hok, hchecked⟩ := readHeader_checked h hd
    exact ⟨hok, hchecked, fun F sys h info logtime => serveLog_oneLine hchecked sys h info logtime⟩
  · intro hec
    by_contra hd
    exact hec (readHeader_checked h (by simpa using hd)).1
  · intro used s _ hr c
    exact lineRuns_versionDigit hr c

theorem headerDone_guarantee_parserTest :
    parserTestHead.parser.Checked ∧
      OneLine (ascii "[01/Jan/2024:00:00:00]")
        (serveLog readableSystem dotHost true (ascii "[01/Jan/2024:00:00:00]")
          parserTestHead.parser) := by
  obtain ⟨hdone, -, -⟩ := headerDone_guarantee .zero (parserTestHead.bytes ++ ascii "rest")
    (ascii "rest") .ok parserTestHead.parser (readHeader_bytes parserTestHead parserTestHead_fits _)
  obtain ⟨-, hchecked, hlog⟩ := hdone rfl
  exact ⟨hchecked, hlog Unit readableSystem dotHost true _⟩

end SimpleWeb
