import SimpleWeb.Http.LineLanguage
import SimpleWeb.Http.FieldSound

/-!
# Http.HeadSound

What a parser knows when `read_header` declares its head done: the request line was read to its
end (`readHeader_done`), so the target is a slash and target bytes (`readHeader_target`), and the
verb, the query and the version are what a reader of the flag may rely on (`Parser.Checked`,
`readHeader_checked`). The version is computed without wrapping in every state of the line machine
(`lineRuns_versionDigit`).
-/

namespace SimpleWeb
namespace Http

open ScanLoop

/-- A head that is done has a request line, and something behind it. -/
theorem readHeader_done {st : Stack} {is rest : Bytes} {par : Parser} {ec : ParserEc}
    (h : readHeader st is .init = some (ec, par, rest)) (hd : par.headerDone = true) :
    ∃ p fields, readHeaderLine st.buffer is .init = some (.ok, p, fields) ∧ fields ≠ [] ∧
      readFields st.fieldname st.fieldvalue fields p = some (ec, par, rest) := by
  unfold readHeader at h
  split at h
  · rename_i p fields hline
    refine ⟨p, fields, hline, ?_, h⟩
    rintro rfl
    cases h
    rw [(readHeaderLine_frame hline).headerDone] at hd
    cases hd
  · rw [(readHeaderLine_frame h).headerDone] at hd
    cases hd

theorem readHeader_target {st : Stack} {is rest : Bytes} {par : Parser} {ec : ParserEc}
    (h : readHeader st is .init = some (ec, par, rest)) (hd : par.headerDone = true) :
    ∃ t : Target, par.message.target = t.bytes := by
  obtain ⟨p, fields, hline, hne, hfields⟩ := readHeader_done h hd
  obtain ⟨t, ht⟩ := readHeaderLine_target hline hne
  have hopen : p.headerDone = false := (readHeaderLine_frame hline).headerDone
  obtain ⟨-, ls, skip, e, -, -, rfl⟩ := readFields_sound hfields hopen hd
  exact ⟨t, ht⟩

/-! ## What the flag stands for -/

/-- What a reader of `is_header_done()` relies on. -/
structure Parser.Checked (par : Parser) : Prop where
  method : par.message.method ≠ .unknown
  slash : par.message.target.head? = some (byte '/')
  target : ∀ c ∈ par.message.target,
    c ∉ [0, CR, LF, byte ' ', byte '?', byte '#', byte '%', byte '+']
  query : ∀ q ∈ par.querystr, ∃ v, q = v ++ [byte ' '] ∧ ∀ c ∈ v, isQueryByte c = true
  version : par.message.version ≤ 11

theorem isTargetByte_notMem {c : UInt8} (h : isTargetByte c = true) :
    c ∉ [0, CR, LF, byte ' ', byte '?', byte '#', byte '%', byte '+'] := by
  revert c
  decide +kernel

theorem RawQuery.stored_bytes (q : RawQuery) :
    ∃ v, q.stored = v ++ [byte ' '] ∧ ∀ c ∈ v, isQueryByte c = true := by
  refine ⟨_, rfl, ?_⟩
  intro c hc
  obtain ⟨hmem, hprint⟩ := List.mem_filter.mp hc
  have hsp : c ≠ byte ' ' := fun h => q.space_ok (h ▸ hmem)
  simp [isQueryByte, hprint, hsp]

theorem RawRequest.version_le (r : RawRequest) : r.version ≤ 11 := r.minor_within.le

theorem RawRequest.checked (r : RawRequest) {p : Parser} (hp : p.querystr = none) :
    (r.apply p).Checked where
  method := r.protocol.uri.start.method_ok
  slash := rfl
  target := by
    intro c hc
    rcases List.mem_cons.mp hc with rfl | hc
    · decide
    · exact isTargetByte_notMem (r.protocol.uri.target.path_ok c hc)
  query := by
    intro q hq
    have hstored : (r.protocol.uri.query.map RawQuery.stored).or p.querystr = some q := hq
    rw [hp, Option.or_none, Option.map_eq_some_iff] at hstored
    obtain ⟨raw, -, rfl⟩ := hstored
    exact raw.stored_bytes
  version := r.version_le

theorem Parser.Checked.of_message {p q : Parser} (h : p.Checked)
    (hm : q.message.method = p.message.method) (ht : q.message.target = p.message.target)
    (hq : q.querystr = p.querystr) (hv : q.message.version = p.message.version) : q.Checked where
  method := hm ▸ h.method
  slash := ht ▸ h.slash
  target := ht ▸ h.target
  query := hq ▸ h.query
  version := hv ▸ h.version

/-- The fields change nothing that is checked. -/
theorem Parser.Checked.store {p : Parser} (h : p.Checked) (ls : List RawLine) :
    ({ p.store ls with headerDone := true } : Parser).Checked :=
  h.of_message rfl rfl rfl rfl

theorem readHeader_checked {st : Stack} {is rest : Bytes} {par : Parser} {ec : ParserEc}
    (h : readHeader st is .init = some (ec, par, rest)) (hd : par.headerDone = true) :
    ec = .ok ∧ par.Checked := by
  obtain ⟨p, fields, hline, hne, hfields⟩ := readHeader_done h hd
  obtain ⟨r, -, -, rfl⟩ := readHeaderLine_exact hline hne
  have hopen : (r.apply .init).headerDone = false := (readHeaderLine_frame hline).headerDone
  obtain ⟨hok, ls, skip, e, -, -, rfl⟩ := readFields_sound hfields hopen hd
  exact ⟨hok, (r.checked rfl).store ls⟩

/-! ## The version -/

/-- `http_version*10 + ch - '0'` without a word size -/
def versionNumber (v : Nat) (ch : UInt8) : Nat :=
  if isDigit ch then v * 10 + (ch.toNat - (byte '0').toNat) else v

theorem versionDigit_toNat {v : UInt32} (hv : v ≤ 11) (c : UInt8) :
    (versionDigit v c).toNat = versionNumber v.toNat c := by
  have hv' : v.toNat ≤ 11 := UInt32.le_iff_toNat_le.mp hv
  by_cases hc : byte '0' ≤ c ∧ c ≤ byte '9'
  · have hd : isDigit c = true := by simpa [isDigit] using hc
    have hlo : 48 ≤ c.toNat := UInt8.le_iff_toNat_le.mp hc.1
    have hhi : c.toNat ≤ 57 := UInt8.le_iff_toNat_le.mp hc.2
    have hmul : (v * 10).toNat = v.toNat * 10 := by
      rw [UInt32.toNat_mul]
      exact Nat.mod_eq_of_lt (by show v.toNat * 10 < 2 ^ 32; omega)
    have hadd : (v * 10 + c.toUInt32).toNat = v.toNat * 10 + c.toNat := by
      rw [UInt32.toNat_add, hmul, UInt8.toNat_toUInt32]
      exact Nat.mod_eq_of_lt (by omega)
    have hzero : (byte '0').toUInt32.toNat = 48 := rfl
    have hle : (byte '0').toUInt32 ≤ v * 10 + c.toUInt32 := by
      rw [UInt32.le_iff_toNat_le, hadd, hzero]
      omega
    have hbyte : (byte '0').toNat = 48 := rfl
    rw [versionDigit, if_pos hc, UInt32.toNat_sub_of_le _ _ hle, hadd, hzero, versionNumber,
      if_pos hd, hbyte]
    omega
  · have hd : isDigit c = false := by simpa [isDigit] using hc
    rw [versionDigit, if_neg hc, versionNumber, hd]
    rfl

theorem lineRuns_version {b used : Bytes} {p : Parser} {s : LineVars}
    (h : LineRuns ⟨.start, b, 0, 0, false, p⟩ used s) : s.httpVersion ≤ 11 := by
  obtain ⟨-, hinv⟩ := lineRuns_inv h
  cases hinv with
  | start | method | gap | uri | params | http => exact UInt32.zero_le
  | major _ _ hv => exact UInt32.le_trans hv.le (by decide)
  | minor _ _ _ _ hv => exact hv.le
  | @line r => exact r.version_le

/-- Whatever the next byte is, the version it gives is the number without wrapping. -/
theorem lineRuns_versionDigit {b used : Bytes} {p : Parser} {s : LineVars}
    (h : LineRuns ⟨.start, b, 0, 0, false, p⟩ used s) (c : UInt8) :
    (versionDigit s.httpVersion c).toNat = versionNumber s.httpVersion.toNat c :=
  versionDigit_toNat (lineRuns_version h) c

end Http
end SimpleWeb
