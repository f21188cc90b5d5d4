import SimpleWeb.Http.Grammar

/-!
# Http.LineCorrect

`read_header_line` reads every well-formed request line (`readHeaderLine_bytes`).

The line is cut where the machine changes its state. Each piece has a lemma saying what the
machine's variables are behind it, as a function of the bytes of the piece (`CArray.fill` for the
shared array), and the pieces are put together with `Runs.append`.
-/

namespace SimpleWeb
namespace Http

open ScanLoop CArray

abbrev LineRuns := Runs lineGuard lineBody

section Pieces

variable {b t : Bytes} {v : UInt32} {p : Parser}

theorem LineVars.put_fill {q : LineState} {d : Bool} (h : t.length < b.length) (c : UInt8) :
    (⟨q, fill b t, t.length, v, d, p⟩ : LineVars).put c =
      some ⟨q, fill b (t ++ [c]), (t ++ [c]).length, v, d, p⟩ := by
  simp [LineVars.put, store_fill h]

theorem LineVars.terminate_fill {q : LineState} {d : Bool} (h : t.length < b.length) :
    (⟨q, fill b t, t.length, v, d, p⟩ : LineVars).terminate =
      some ⟨q, fill b (t ++ [0]), t.length, v, d, p⟩ := by
  simp [LineVars.terminate, store_fill h]

/-- The variables when the token `t` has been stored in `b` and the state is `q`. -/
def holding (q : LineState) (b : Bytes) (v : UInt32) (p : Parser) (t : Bytes) : LineVars :=
  ⟨q, fill b t, t.length, v, false, p⟩

/-- The bytes a state collects end up in the array. -/
theorem runs_collect {q : LineState} {cs : Bytes}
    (h : ∀ (t : Bytes) (c : UInt8), c ∈ cs → t.length < b.length →
      lineBody c (holding q b v p t) = .next (holding q b v p (t ++ [c]))) :
    ∀ t : Bytes, (t ++ cs).length ≤ b.length →
      LineRuns (holding q b v p t) cs (holding q b v p (t ++ cs)) :=
  Runs.collect (fun _ _ => rfl) h

theorem runs_spaces {q : LineState} {i : Nat} (n : Nat)
    (h : lineBody (byte ' ') ⟨q, b, i, v, false, p⟩ = .next ⟨q, b, i, v, false, p⟩) :
    LineRuns ⟨q, b, i, v, false, p⟩ (spaces n) ⟨q, b, i, v, false, p⟩ := by
  refine .skip rfl ?_
  intro c hc
  rw [List.eq_of_mem_replicate hc]
  exact h

theorem runs_lead {i : Nat} {lead : Bytes} (h : ∀ c ∈ lead, c = CR ∨ c = LF) :
    LineRuns ⟨.start, b, i, v, false, p⟩ lead ⟨.start, b, i, v, false, p⟩ :=
  .skip rfl fun c hc => by simp [lineBody, h c hc]

/-! ### The method -/

theorem upper_ne {c : UInt8} : byte 'A' ≤ c ∧ c ≤ byte 'Z' → c ≠ CR ∧ c ≠ LF ∧ c ≠ byte ' ' := by
  revert c
  decide +kernel

theorem lineBody_start {i : Nat} {c : UInt8} (hc : byte 'A' ≤ c ∧ c ≤ byte 'Z')
    (hb : 0 < b.length) :
    lineBody c ⟨.start, b, i, v, false, p⟩ = .next ⟨.method, fill b [c], 1, v, false, p⟩ := by
  obtain ⟨hcr, hlf, -⟩ := upper_ne hc
  have hr : ¬ (c < byte 'A' ∨ c > byte 'Z') := by simpa using hc
  have hp := LineVars.put_fill (q := .method) (d := false) (v := v) (p := p) (t := [])
    (b := b) hb c
  simp only [fill_nil, List.length_nil, List.nil_append, List.length_singleton] at hp
  simp [lineBody, hcr, hlf, hr, hp]

theorem lineBody_method {c : UInt8} (hc : byte 'A' ≤ c ∧ c ≤ byte 'Z')
    (hl : t.length < b.length) :
    lineBody c ⟨.method, fill b t, t.length, v, false, p⟩ =
      .next ⟨.method, fill b (t ++ [c]), (t ++ [c]).length, v, false, p⟩ := by
  obtain ⟨-, -, hne⟩ := upper_ne hc
  have hr : ¬ (c < byte 'A' ∨ c > byte 'Z') := by simpa using hc
  simp [lineBody, LineVars.put_fill hl, hne, hr]

theorem lineBody_method_end {m : Verb} (hl : t.length < b.length)
    (hm : methodSwitch (fill b (t ++ [byte ' '])) t.length = some m) :
    lineBody (byte ' ') ⟨.method, fill b t, t.length, v, false, p⟩ =
      .next ⟨.spacesBeforeUri, fill b (t ++ [byte ' ']), 0, v, false,
        { p with message := { p.message with method := m } }⟩ := by
  simp [lineBody, LineVars.put_fill hl, hm, LineVars.setMethod]

/-- Every known verb is recognised from its own bytes and the space behind them. -/
theorem methodSwitch_toString {m : Verb} (hm : m ≠ .unknown) :
    methodSwitch (fill b (m.toString ++ [byte ' '])) m.toString.length = some m := by
  cases m with
  | unknown => exact absurd rfl hm
  | get | head | put | post | delete =>
    simp [Verb.toString, ascii, byte, methodSwitch, methodCase3, methodCase4, methodCase6, fill,
      strncmpEq]

theorem Verb.toString_upper {m : Verb} : ∀ c ∈ m.toString, byte 'A' ≤ c ∧ c ≤ byte 'Z' := by
  cases m <;> decide +kernel

theorem Verb.toString_length {m : Verb} (hm : m ≠ .unknown) : m.toString.length < 7 := by
  cases m with
  | unknown => exact absurd rfl hm
  | get | head | put | post | delete => decide

theorem runs_methodToken {i : Nat} {m : Bytes} (hm : ∀ c ∈ m, byte 'A' ≤ c ∧ c ≤ byte 'Z')
    (hne : m ≠ []) (hl : m.length ≤ b.length) :
    LineRuns ⟨.start, b, i, v, false, p⟩ m ⟨.method, fill b m, m.length, v, false, p⟩ := by
  obtain ⟨c, cs, rfl⟩ := List.exists_cons_of_ne_nil hne
  have hpos : 0 < b.length := by
    simp at hl
    omega
  have hfirst : LineRuns ⟨.start, b, i, v, false, p⟩ [c] ⟨.method, fill b [c], 1, v, false, p⟩ :=
    .single rfl (lineBody_start (hm c (by simp)) hpos)
  have hmore := runs_collect (b := b) (v := v) (p := p)
    (fun t d (hd : d ∈ cs) hl => lineBody_method (hm d (by simp [hd])) hl) [c]
    (by simpa using hl)
  exact hfirst.append hmore

theorem runs_method {i : Nat} {m : Verb} (hm : m ≠ .unknown) (hb : 7 ≤ b.length) :
    LineRuns ⟨.start, b, i, v, false, p⟩ (m.toString ++ [byte ' '])
      ⟨.spacesBeforeUri, fill b (m.toString ++ [byte ' ']), 0, v, false,
        { p with message := { p.message with method := m } }⟩ := by
  have hlen := Verb.toString_length hm
  have hne : m.toString ≠ [] := by cases m <;> simp [Verb.toString, ascii]
  have htoken := runs_methodToken (b := b) (v := v) (p := p) (i := i) Verb.toString_upper hne
    (by omega)
  have hend : LineRuns ⟨.method, fill b m.toString, m.toString.length, v, false, p⟩ [byte ' '] _ :=
    .single rfl (lineBody_method_end (by omega) (methodSwitch_toString hm))
  exact htoken.append hend

/-! ### The target -/

theorem lineBody_slash (hb : 0 < b.length) :
    lineBody (byte '/') ⟨.spacesBeforeUri, b, 0, v, false, p⟩ =
      .next ⟨.afterSlashInUri, fill b [byte '/'], 1, v, false, p⟩ := by
  have hp := LineVars.put_fill (q := .spacesBeforeUri) (d := false) (v := v) (p := p) (t := [])
    (b := b) hb (byte '/')
  simp only [fill_nil, List.length_nil, List.nil_append, List.length_singleton] at hp
  simp [lineBody, hp]

theorem lineBody_uri {c : UInt8} (hc : isTargetByte c = true) (hl : t.length < b.length) :
    lineBody c ⟨.afterSlashInUri, fill b t, t.length, v, false, p⟩ =
      .next ⟨.afterSlashInUri, fill b (t ++ [c]), (t ++ [c]).length, v, false, p⟩ := by
  obtain ⟨-, hq, hs⟩ := isTargetByte_ne hc
  by_cases hu : usual c = true
  · simp [lineBody, LineVars.put_fill hl, hu]
  · simp only [isTargetByte, hu, Bool.false_or, Bool.or_eq_true, beq_iff_eq] at hc
    rcases hc with rfl | rfl
    · simp [lineBody, LineVars.put_fill hl, hu, hq]
    · simp [lineBody, LineVars.put_fill hl, hu, hq, hs]

theorem lineBody_uri_space (h0 : 0 ∉ t) (hl : t.length < b.length) :
    lineBody (byte ' ') ⟨.afterSlashInUri, fill b t, t.length, v, false, p⟩ =
      .next ⟨.http, fill b (t ++ [0]), 0, v, false,
        { p with message := { p.message with target := t } }⟩ := by
  simp [lineBody, LineVars.terminate_fill hl, LineVars.setTarget, cstr_fill h0]

theorem lineBody_uri_query (h0 : 0 ∉ t) (hl : t.length < b.length) :
    lineBody (byte '?') ⟨.afterSlashInUri, fill b t, t.length, v, false, p⟩ =
      .next ⟨.params, fill b (t ++ [0]), 0, v, false,
        { p with message := { p.message with target := t } }⟩ := by
  simp [lineBody, LineVars.terminate_fill hl, LineVars.setTarget, cstr_fill h0]

theorem runs_target (n : Nat) (tg : Target) (hb : tg.bytes.length < b.length) :
    LineRuns ⟨.spacesBeforeUri, b, 0, v, false, p⟩ (spaces n ++ tg.bytes)
      ⟨.afterSlashInUri, fill b tg.bytes, tg.bytes.length, v, false, p⟩ := by
  have hpos : 0 < b.length := by omega
  have hsp := runs_spaces (b := b) (v := v) (p := p) (q := .spacesBeforeUri) (i := 0) n rfl
  have hslash : LineRuns ⟨.spacesBeforeUri, b, 0, v, false, p⟩ [byte '/'] _ :=
    .single rfl (lineBody_slash hpos)
  have hmore := runs_collect (b := b) (v := v) (p := p)
    (fun t c hc hl => lineBody_uri (tg.path_ok c hc) hl) [byte '/']
    (by simpa [Target.bytes] using Nat.le_of_lt hb)
  exact hsp.append (hslash.append hmore)

/-! ### The query -/

theorem lineBody_params {c : UInt8} (hc : isQueryByte c = true) (hl : t.length < b.length) :
    lineBody c ⟨.params, fill b t, t.length, v, false, p⟩ =
      .next ⟨.params, fill b (t ++ [c]), (t ++ [c]).length, v, false, p⟩ := by
  obtain ⟨hp, h0, hs⟩ := isQueryByte_ne hc
  simp [lineBody, LineVars.put_fill hl, hp, h0, hs]

theorem lineBody_params_space (h0 : 0 ∉ t ++ [byte ' ']) (hl : t.length + 1 < b.length) :
    lineBody (byte ' ') ⟨.params, fill b t, t.length, v, false, p⟩ =
      .next ⟨.http, fill b (t ++ [byte ' '] ++ [0]), 0, v, false,
        { p with querystr := some (t ++ [byte ' ']) }⟩ := by
  have hput := LineVars.put_fill (q := .params) (d := false) (v := v) (p := p) (t := t) (b := b)
    (by omega) (byte ' ')
  have hterm := LineVars.terminate_fill (q := .params) (d := false) (v := v) (p := p)
    (t := t ++ [byte ' ']) (b := b) (by simpa using hl)
  have hstr := cstr_fill (b := b) h0
  simp only [lineBody, isprint_ends, if_true, hput, Pass.must_some,
    hterm, LineVars.setQuerystr, hstr]
  simp

/-- Behind the target: the query if there is one, and the space that ends either. -/
theorem runs_query (q : Option Query) (h0 : 0 ∉ t) (hl : t.length < b.length)
    (hq : ∀ s ∈ q.map (fun q => q.bytes ++ [byte ' ']), s.length < b.length) :
    ∃ b', b'.length = b.length ∧
      LineRuns ⟨.afterSlashInUri, fill b t, t.length, v, false, p⟩ (queryBytes q ++ [byte ' '])
        ⟨.http, b', 0, v, false,
          { p with
            message := { p.message with target := t }
            querystr := (q.map fun q => q.bytes ++ [byte ' ']).or p.querystr }⟩ := by
  have hlen : (fill b (t ++ [0])).length = b.length := length_fill (by simpa using hl)
  cases q with
  | none =>
    refine ⟨fill b (t ++ [0]), hlen, ?_⟩
    exact .single rfl (lineBody_uri_space h0 hl)
  | some q =>
    have hq' : q.bytes.length + 1 < b.length := by simpa using hq
    let b₁ := fill b (t ++ [0])
    have hb₁ : b₁.length = b.length := hlen
    let p₁ : Parser := { p with message := { p.message with target := t } }
    have hmark : LineRuns ⟨.afterSlashInUri, fill b t, t.length, v, false, p⟩ [byte '?']
        ⟨.params, b₁, 0, v, false, p₁⟩ := .single rfl (lineBody_uri_query h0 hl)
    have hmore : LineRuns ⟨.params, b₁, 0, v, false, p₁⟩ q.bytes
        ⟨.params, fill b₁ q.bytes, q.bytes.length, v, false, p₁⟩ := by
      have := runs_collect (b := b₁) (v := v) (p := p₁)
        (fun t c hc hl => lineBody_params (q.bytes_ok c hc) hl) []
        (by simp only [List.nil_append]; omega)
      simpa [holding] using this
    have hend : LineRuns ⟨.params, fill b₁ q.bytes, q.bytes.length, v, false, p₁⟩ [byte ' '] _ :=
      .single rfl (lineBody_params_space q.nul_notMem (by omega))
    refine ⟨_, ?_, (hmark.append hmore).append hend⟩
    rw [length_fill (by simp; omega), hb₁]

/-! ### The protocol and the line end -/

theorem lineBody_http {c : UInt8} (hu : usual c = true) (hl : t.length < b.length)
    (h4 : t.length ≠ 3 ∨ t ++ [c] = ascii "HTTP") :
    lineBody c ⟨.http, fill b t, t.length, v, false, p⟩ =
      .next ⟨.http, fill b (t ++ [c]), (t ++ [c]).length, v, false, p⟩ := by
  have hne : c ≠ byte '/' := by rintro rfl; simp at hu
  have hcmp : ¬ ((t ++ [c]).length = 4 ∧
      (!strncmpEq (fill b (t ++ [c])) (ascii "HTTP") 4) = true) := by
    rintro ⟨hlen, hno⟩
    rcases h4 with h | h
    · simp at hlen; omega
    · rw [h] at hno
      simp [ascii, byte, fill, strncmpEq] at hno
  simp [lineBody, hu, LineVars.put_fill hl, hne, -List.length_append]
  simpa using hcmp

theorem lineBody_http_slash :
    lineBody (byte '/') ⟨.http, fill b (ascii "HTTP"), 4, v, false, p⟩ =
      .next ⟨.httpMajor, fill b (ascii "HTTP"), 4, v, false, p⟩ := by
  simp [lineBody]
  simp [ascii, byte, fill, strncmpEq]

theorem runs_http (n : Nat) (hb : 4 ≤ b.length) :
    LineRuns ⟨.http, b, 0, v, false, p⟩ (spaces n ++ ascii "HTTP/")
      ⟨.httpMajor, fill b (ascii "HTTP"), 4, v, false, p⟩ := by
  have hsp := runs_spaces (b := b) (v := v) (p := p) (q := .http) (i := 0) n (by simp [lineBody])
  have hH := lineBody_http (b := b) (v := v) (p := p) (t := []) (c := byte 'H') (by simp)
    (by simp; omega) (.inl (by simp))
  have hT := lineBody_http (b := b) (v := v) (p := p) (t := [byte 'H']) (c := byte 'T') (by simp)
    (by simp; omega) (.inl (by simp))
  have hT' := lineBody_http (b := b) (v := v) (p := p) (t := [byte 'H', byte 'T']) (c := byte 'T')
    (by simp) (by simp; omega) (.inl (by simp))
  have hP := lineBody_http (b := b) (v := v) (p := p) (t := [byte 'H', byte 'T', byte 'T'])
    (c := byte 'P') (by simp) (by simp; omega) (.inr rfl)
  have htok : LineRuns ⟨.http, b, 0, v, false, p⟩ (ascii "HTTP/")
      ⟨.httpMajor, fill b (ascii "HTTP"), 4, v, false, p⟩ :=
    .cons rfl hH (.cons rfl hT (.cons rfl hT' (.cons rfl hP (.single rfl lineBody_http_slash))))
  exact hsp.append htok

/-- The digits of the version behind `HTTP/`. -/
def HttpVersion.digits : HttpVersion → Bytes
  | .v10 => [byte '1', byte '.', byte '0']
  | .v11 => [byte '1', byte '.', byte '1']

theorem HttpVersion.bytes_eq (w : HttpVersion) : w.bytes = ascii "HTTP/" ++ w.digits := by
  cases w <;> decide

theorem versionDigit_digits :
    versionDigit 0 (byte '1') = 1 ∧ versionDigit 1 (byte '0') = 10 ∧
      versionDigit 1 (byte '1') = 11 := by
  decide

theorem runs_version {i : Nat} (w : HttpVersion) :
    LineRuns ⟨.httpMajor, b, i, 0, false, p⟩ w.digits ⟨.httpMinor, b, i, w.number, false, p⟩ := by
  have h1 : lineBody (byte '1') ⟨.httpMajor, b, i, 0, false, p⟩ =
      .next ⟨.httpMajor, b, i, 1, false, p⟩ := by
    simp [lineBody, versionDigit_digits]
  have hdot : lineBody (byte '.') ⟨.httpMajor, b, i, 1, false, p⟩ =
      .next ⟨.httpMinor, b, i, 1, false, p⟩ := rfl
  cases w with
  | v10 =>
    have h0 : lineBody (byte '0') ⟨.httpMinor, b, i, 1, false, p⟩ =
        .next ⟨.httpMinor, b, i, 10, false, p⟩ := by
      simp [lineBody, versionDigit_digits]
    exact .cons rfl h1 (.cons rfl hdot (.single rfl h0))
  | v11 =>
    have h1' : lineBody (byte '1') ⟨.httpMinor, b, i, 1, false, p⟩ =
        .next ⟨.httpMinor, b, i, 11, false, p⟩ := by
      simp [lineBody, versionDigit_digits]
    exact .cons rfl h1 (.cons rfl hdot (.single rfl h1'))

theorem runs_eol {i : Nat} (e : Eol) :
    LineRuns ⟨.httpMinor, b, i, v, false, p⟩ e.bytes ⟨.httpMinor, b, i, v, true, p⟩ := by
  cases e with
  | lf => exact .single rfl rfl
  | crlf => exact .cons rfl rfl (.single rfl rfl)

end Pieces

/-- A well-formed request line is read to its end, and nothing behind it. -/
theorem runs_requestLine (l : RequestLine) {b : Bytes} (hf : l.Fits b) (p : Parser) :
    ∃ b' i, LineRuns ⟨.start, b, 0, 0, false, p⟩ l.bytes
      ⟨.httpMinor, b', i, l.version.number, true,
        { l.apply p with
          message := { (l.apply p).message with version := p.message.version } }⟩ := by
  have hlead := runs_lead (b := b) (v := 0) (p := p) (i := 0) l.lead_ok
  have hmethod := runs_method (v := 0) (p := p) (i := 0) l.method_ok hf.method
  let b₁ := fill b (l.method.toString ++ [byte ' '])
  have hb₁ : b₁.length = b.length := by
    have := hf.method
    have hm := Verb.toString_length l.method_ok
    exact length_fill (by simp; omega)
  let p₁ : Parser := { p with message := { p.message with method := l.method } }
  have htarget := runs_target (b := b₁) (v := 0) (p := p₁) l.gap₁ l.target
    (by rw [hb₁]; exact hf.target)
  obtain ⟨b₂, hb₂, hquery⟩ := runs_query (b := b₁) (v := 0) (p := p₁) l.query l.target.nul_notMem
    (by rw [hb₁]; exact hf.target) (fun s hs => by rw [hb₁]; exact hf.query s hs)
  have hhttp := runs_http (b := b₂) (v := 0) l.gap₂ (p :=
      { p₁ with
        message := { p₁.message with target := l.target.bytes }
        querystr := l.querystr.or p₁.querystr })
    (by rw [hb₂, hb₁]; have := hf.method; omega)
  have hrest := (hhttp.append (runs_version l.version)).append (runs_eol l.eol)
  refine ⟨fill b₂ (ascii "HTTP"), 4, ?_⟩
  have hall := (((hlead.append hmethod).append htarget).append hquery).append hrest
  simpa [RequestLine.bytes, HttpVersion.bytes_eq, RequestLine.apply, p₁] using hall

theorem readHeaderLine_bytes (l : RequestLine) {b : Bytes} (hf : l.Fits b) (rest : Bytes)
    (p : Parser) : readHeaderLine b (l.bytes ++ rest) p = some (.ok, l.apply p, rest) := by
  obtain ⟨b', i, hr⟩ := runs_requestLine l hf p
  rw [readHeaderLine, loop_done hr rfl]
  rfl

end Http
end SimpleWeb
