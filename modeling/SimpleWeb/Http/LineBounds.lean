import SimpleWeb.Http.LineLanguage

/-!
# Http.LineBounds

The one array of `read_header_line` has 1024 bytes, and no state compares its index with that. So
a token that does not fit is stored behind the array: `Overlong` says which bytes do it, one case
for each state that stores, and `readHeaderLine_inside_iff` that no others do.
-/

namespace SimpleWeb
namespace Http

open ScanLoop CArray

/-- The bytes bring a token over the end of an array of `n` bytes: all that is in front of the
token is accepted, the token fills the array, and the next byte is stored too, or ends the token
and has its NUL stored. -/
inductive Overlong (n : Nat) : Bytes → Prop where
  | method {lead m rest : Bytes} {c : UInt8} (hlead : ∀ c ∈ lead, c = CR ∨ c = LF)
      (hm : ∀ c ∈ m, isUpper c = true) (hlen : m.length = n) :
      Overlong n (lead ++ m ++ c :: rest)
  | target {r : RawStart} {t : Target} {rest : Bytes} {c : UInt8} (hlen : t.bytes.length = n)
      (hc : isTargetByte c = true ∨ c = byte '?' ∨ c = byte ' ') :
      Overlong n (r.bytes ++ t.bytes ++ c :: rest)
  | query {r : RawStart} {t : Target} {q : RawQuery} {rest : Bytes} {c : UInt8}
      (ht : t.bytes.length < n)
      (hc : ((q.bytes.filter isprint).length = n ∧ isprint c = true) ∨
        ((q.bytes.filter isprint).length + 1 = n ∧ c = byte ' ')) :
      Overlong n (r.bytes ++ t.bytes ++ rawQueryBytes (some q) ++ c :: rest)
  | protocol {u : RawUri} {h rest : Bytes} {c : UInt8} (hu : u.Fits n) (hslash : byte '/' ∉ h)
      (hs : SpeaksHttp h) (hlen : (h.filter usual).length = n) (hc : usual c = true) :
      Overlong n (u.bytes ++ h ++ c :: rest)

/-! ## The passes that fault -/

section Fault

variable {s : LineVars} {c : UInt8}

theorem LineVars.put_eq_none : s.put c = none ↔ s.buffer.length ≤ s.i := by
  simp [LineVars.put, store_none_iff]

theorem LineVars.terminate_eq_none : s.terminate = none ↔ s.buffer.length ≤ s.i := by
  simp [LineVars.terminate, store_none_iff]

theorem lineBody_method_fault (hs : s.state = .method) :
    lineBody c s = .fault ↔ s.buffer.length ≤ s.i := by
  simp only [lineBody, hs, Pass.must_fault, LineVars.put_eq_none]
  constructor
  · rintro (h | ⟨s', -, h⟩)
    · exact h
    · split at h
      · split at h <;> cases h
      · split at h <;> cases h
  · exact .inl

theorem lineBody_uri_put (hs : s.state = .afterSlashInUri) (hc : isTargetByte c = true) :
    lineBody c s = Pass.must (s.put c) .next := by
  by_cases hu : usual c = true
  · simp [lineBody, hs, hu]
  · simp only [isTargetByte, hu, Bool.false_or, Bool.or_eq_true, beq_iff_eq] at hc
    rcases hc with rfl | rfl
    · simp [lineBody, hs]
    · simp [lineBody, hs, hu]

theorem lineBody_uri_fault (hs : s.state = .afterSlashInUri) :
    lineBody c s = .fault ↔
      s.buffer.length ≤ s.i ∧ (isTargetByte c = true ∨ c = byte '?' ∨ c = byte ' ') := by
  by_cases hc : isTargetByte c = true
  · rw [lineBody_uri_put hs hc]
    simpa [hc] using Pass.must_next_fault.trans LineVars.put_eq_none
  · have hu : usual c = false := by
      by_contra hu
      exact hc (by simp [isTargetByte, hu])
    by_cases hq : c = byte '?'
    · simp [lineBody, hs, hq, Pass.must_next_fault, LineVars.terminate_eq_none]
    · by_cases hsp : c = byte ' '
      · simp [lineBody, hs, hsp, Pass.must_next_fault, LineVars.terminate_eq_none]
      · have hslash : c ≠ byte '/' := fun h => hc (by simp [isTargetByte, h])
        have hdot : c ≠ byte '.' := fun h => hc (by simp [isTargetByte, h])
        simp [lineBody, hs, hu, hq, hslash, hsp, hdot, isTargetByte]

theorem lineBody_params_fault (hs : s.state = .params) :
    lineBody c s = .fault ↔ (s.buffer.length ≤ s.i ∧ isprint c = true) ∨
      (s.buffer.length ≤ s.i + 1 ∧ c = byte ' ') := by
  by_cases hsp : c = byte ' '
  · subst hsp
    simp only [lineBody, hs, isprint_ends, if_true]
    rw [Pass.must_fault]
    simp only [Pass.must_next_fault, LineVars.put_eq_none, LineVars.terminate_eq_none, and_true]
    constructor
    · rintro (h | ⟨t, hput, h⟩)
      · exact .inl h
      · obtain ⟨b, hst, rfl⟩ := LineVars.put_eq hput
        rw [store_length hst] at h
        exact .inr h
    · rintro (h | h)
      · exact .inl h
      · rcases Nat.lt_or_ge s.i s.buffer.length with hlt | hge
        · refine .inr ⟨{ s with buffer := s.buffer.set s.i (byte ' '), i := s.i + 1 }, ?_, ?_⟩
          · simp [LineVars.put, store, hlt]
          · simpa using h
        · exact .inl hge
  · have hrest : ∀ t : LineVars, (if c = 0 then (.ret .invalidRequest t : LinePass) else
        .next t) ≠ .fault := by
      intro t
      split <;> simp
    simp only [lineBody, hs, Pass.must_fault, hsp, and_false, or_false]
    by_cases hp : isprint c = true
    · simp [hp, LineVars.put_eq_none, hrest]
    · simp [hp, hrest]

theorem lineBody_http_fault (hs : s.state = .http) :
    lineBody c s = .fault ↔ s.buffer.length ≤ s.i ∧ usual c = true := by
  have hrest : ∀ t : LineVars, (if t.i = 4 ∧ (!strncmpEq t.buffer (ascii "HTTP") 4) = true then
      (.ret .invalidRequest t : LinePass) else
      if c = byte '/' then .next { t with state := .httpMajor } else .next t) ≠ .fault := by
    intro t
    split
    · simp
    · split <;> simp
  by_cases hu : usual c = true
  · simp only [lineBody, hs, hu, if_true, Pass.must_fault, LineVars.put_eq_none, and_true]
    constructor
    · rintro (h | ⟨t, -, h⟩)
      · exact h
      · exact absurd h (hrest t)
    · exact .inl
  · have hbody := hrest s
    simpa [lineBody, hs, hu] using hbody

/-- The other states store in an array that is not empty, or not at all. -/
theorem lineBody_other_fault {n : Nat} {p : Parser} {bs : Bytes} (hi : LineInv n p bs s)
    (hb : 0 < s.buffer.length)
    (hs : s.state ≠ .method ∧ s.state ≠ .afterSlashInUri ∧ s.state ≠ .params ∧ s.state ≠ .http) :
    lineBody c s ≠ .fault := by
  obtain ⟨hmethod, huri, hparams, hhttp⟩ := hs
  intro h
  cases hi with
  | start hlead =>
    simp only [lineBody] at h
    split at h
    · cases h
    · split at h
      · cases h
      · rcases Pass.must_fault.mp h with hput | ⟨t, -, h⟩
        · rw [LineVars.put_eq_none] at hput
          simp only at hput hb
          omega
        · cases h
  | gap =>
    simp only [lineBody] at h
    split at h
    · rw [Pass.must_next_fault, LineVars.put_eq_none] at h
      simp only at h hb
      omega
    · split at h <;> cases h
  | method => exact hmethod rfl
  | uri => exact huri rfl
  | params => exact hparams rfl
  | http => exact hhttp rfl
  | major =>
    simp only [lineBody] at h
    repeat' split at h
    all_goals cases h
  | minor =>
    simp only [lineBody] at h
    repeat' split at h
    all_goals cases h
  | line =>
    simp only [lineBody] at h
    repeat' split at h
    all_goals cases h

end Fault

/-! ## Into a token -/

section Into

variable {b : Bytes} {p : Parser}

theorem runs_intoMethod {lead m : Bytes} (hlead : ∀ c ∈ lead, c = CR ∨ c = LF)
    (hm : ∀ c ∈ m, isUpper c = true) (hne : m ≠ []) (hlen : m.length ≤ b.length) :
    LineRuns ⟨.start, b, 0, 0, false, p⟩ (lead ++ m)
      ⟨.method, fill b m, m.length, 0, false, p⟩ := by
  have hup : ∀ c ∈ m, byte 'A' ≤ c ∧ c ≤ byte 'Z' := by
    intro c hc
    simpa [isUpper] using hm c hc
  exact (runs_lead (b := b) (v := 0) (p := p) (i := 0) hlead).append
    (runs_methodToken hup hne hlen)

theorem runs_intoTarget (r : RawStart) {t : Target} (hb : 7 ≤ b.length)
    (ht : t.bytes.length ≤ b.length) :
    ∃ b', b'.length = b.length ∧ LineRuns ⟨.start, b, 0, 0, false, p⟩ (r.bytes ++ t.bytes)
      ⟨.afterSlashInUri, b', t.bytes.length, 0, false, r.apply p⟩ := by
  have hl := length_methodFill (b := b) r hb
  refine ⟨_, ?_, (runs_rawStart (v := 0) (p := p) r hb).append
    (runs_rawTarget t (by rw [hl]; exact ht))⟩
  rw [length_fill (by rw [hl]; exact ht), hl]

theorem runs_intoQuery (r : RawStart) {t : Target} {q : RawQuery} (hb : 7 ≤ b.length)
    (ht : t.bytes.length < b.length) (hq : (q.bytes.filter isprint).length ≤ b.length) :
    ∃ b', b'.length = b.length ∧
      LineRuns ⟨.start, b, 0, 0, false, p⟩ (r.bytes ++ t.bytes ++ rawQueryBytes (some q))
        ⟨.params, b', (q.bytes.filter isprint).length, 0, false, (r.apply p).setTarget t⟩ := by
  have hl := length_methodFill (b := b) r hb
  let b₁ := fill b (r.method.toString ++ [byte ' '])
  let b₂ := fill b₁ (t.bytes ++ [0])
  have hl₂ : b₂.length = b.length := (length_fill (by simpa [b₁, hl] using ht)).trans hl
  have hmark : LineRuns ⟨.afterSlashInUri, fill b₁ t.bytes, t.bytes.length, 0, false, r.apply p⟩
      [byte '?'] ⟨.params, b₂, 0, 0, false, (r.apply p).setTarget t⟩ :=
    .single rfl (lineBody_uri_query t.nul_notMem (by simpa [b₁, hl] using ht))
  have hq₂ : (q.bytes.filter isprint).length ≤ b₂.length := by rwa [hl₂]
  refine ⟨_, ?_, ((runs_rawStart (v := 0) (p := p) r hb).append
    (runs_rawTarget (b := b₁) t (by rw [hl]; exact ht.le))).append
      (hmark.append (runs_rawQuery (b := b₂) q hq₂))⟩
  rw [length_fill hq₂, hl₂]

theorem runs_intoHttp {u : RawUri} {h : Bytes} (hb : 7 ≤ b.length) (hu : u.Fits b.length)
    (hslash : byte '/' ∉ h) (hs : SpeaksHttp h) (hlen : (h.filter usual).length ≤ b.length) :
    ∃ b', b'.length = b.length ∧ LineRuns ⟨.start, b, 0, 0, false, p⟩ (u.bytes ++ h)
      ⟨.http, b', (h.filter usual).length, 0, false, u.apply p⟩ := by
  obtain ⟨b₁, hl, huri⟩ := runs_rawUri (v := 0) (p := p) u hb hu
  have hlen₁ : (h.filter usual).length ≤ b₁.length := by rwa [hl]
  have hhttp := runs_rawHttp (v := 0) (p := u.apply p) hslash hs hlen₁
  exact ⟨_, (length_fill hlen₁).trans hl, huri.append hhttp⟩

end Into

/-! ## Exactly the overlong lines -/

section Exact

variable {b is : Bytes} {p : Parser}

theorem overlong_of_fault (hb : 0 < b.length)
    (h : loop lineGuard lineBody ⟨.start, b, 0, 0, false, p⟩ is = .fault) :
    Overlong b.length is := by
  obtain ⟨used, c, u, rest, rfl, hr, hg, hfault⟩ := exit_fault h
  obtain ⟨hlen, hinv⟩ := lineRuns_inv hr
  have hinv' := hinv
  cases hinv with
  | method hlead hm hh =>
    rw [lineBody_method_fault rfl] at hfault
    have hle := hh.pre.length_le
    have hi := hh.len
    simp only at hlen hfault
    exact .method hlead hm (by omega)
  | uri hh =>
    obtain ⟨hi, hc⟩ := (lineBody_uri_fault rfl).mp hfault
    have hle := hh.pre.length_le
    have hi' := hh.len
    simp only at hlen hi
    exact .target (by omega) hc
  | params ht hh =>
    have hc := (lineBody_params_fault rfl).mp hfault
    have hle := hh.pre.length_le
    have hi := hh.len
    simp only at hlen hc
    refine .query ht ?_
    rcases hc with ⟨hi', hp⟩ | ⟨hi', hsp⟩
    · exact .inl ⟨by omega, hp⟩
    · rcases Nat.eq_or_lt_of_le hle with heq | hlt
      · exact .inl ⟨by omega, by rw [hsp]; exact isprint_ends.1⟩
      · exact .inr ⟨by omega, hsp⟩
  | http hu hslash hs hh =>
    obtain ⟨hi, hc⟩ := (lineBody_http_fault rfl).mp hfault
    have hle := hh.pre.length_le
    have hi' := hh.len
    simp only at hlen hi
    exact .protocol hu hslash hs (by omega) hc
  | start | gap | major | minor | line =>
    exact absurd hfault (lineBody_other_fault hinv' (by omega) (by simp))

theorem fault_of_overlong (hb : 7 ≤ b.length) (h : Overlong b.length is) :
    loop lineGuard lineBody ⟨.start, b, 0, 0, false, p⟩ is = .fault := by
  cases h with
  | @method lead m rest c hlead hm hlen =>
    have hne : m ≠ [] := by
      rintro rfl
      simp at hlen
      omega
    refine loop_fault (runs_intoMethod hlead hm hne hlen.le) rfl
      ((lineBody_method_fault rfl).mpr ?_)
    simp [length_fill hlen.le, hlen]
  | @target r t rest c hlen hc =>
    obtain ⟨b', hl, hr⟩ := runs_intoTarget (p := p) r hb hlen.le
    exact loop_fault hr rfl ((lineBody_uri_fault rfl).mpr ⟨hl.le.trans hlen.ge, hc⟩)
  | @query r t q rest c ht hc =>
    have hq : (q.bytes.filter isprint).length ≤ b.length := by
      rcases hc with ⟨hlen, -⟩ | ⟨hlen, -⟩
      · exact hlen.le
      · omega
    obtain ⟨b', hl, hr⟩ := runs_intoQuery (p := p) r hb ht hq
    refine loop_fault hr rfl ((lineBody_params_fault rfl).mpr ?_)
    simp only [hl]
    rcases hc with ⟨hlen, hp⟩ | ⟨hlen, hsp⟩
    · exact .inl ⟨hlen.ge, hp⟩
    · exact .inr ⟨hlen.ge, hsp⟩
  | @protocol u h rest c hu hslash hs hlen hc =>
    obtain ⟨b', hl, hr⟩ := runs_intoHttp (p := p) hb hu hslash hs hlen.le
    exact loop_fault hr rfl ((lineBody_http_fault rfl).mpr ⟨hl.le.trans hlen.ge, hc⟩)

theorem readHeaderLine_eq_none :
    readHeaderLine b is p = none ↔
      loop lineGuard lineBody ⟨.start, b, 0, 0, false, p⟩ is = .fault := by
  unfold readHeaderLine
  split <;> simp_all

theorem lineStep_index {s s' : LineVars} {c : UInt8} (h : LineStep s c s')
    (hi : s.i ≤ s.buffer.length) : s'.i ≤ s'.buffer.length := by
  have hlen := lineStep_length h
  have hst : ∀ {i : Nat} {d : UInt8} {b : Bytes}, store s.buffer i d = some b →
      i + 1 ≤ s.buffer.length := fun hst => lt_of_store hst
  cases h with
  | first _ _ h => exact (hst h).trans hlen.ge
  | letter _ _ h => exact (hst h).trans hlen.ge
  | slash _ h => exact (hst h).trans hlen.ge
  | uri _ _ h => exact (hst h).trans hlen.ge
  | param _ _ h => exact (hst h).trans hlen.ge
  | http _ _ h _ => exact (hst h).trans hlen.ge
  | method | uriEnd | paramsEnd => exact Nat.zero_le _
  | lead | gap | paramSkip | httpSkip | httpSlash | major | majorSpace | dot | minor | minorSkip
  | lineEnd | idle => exact hi

/-- The index stays inside the array, its end included. -/
theorem lineRuns_index {s : LineVars} {used : Bytes}
    (h : LineRuns ⟨.start, b, 0, 0, false, p⟩ used s) : s.i ≤ b.length := by
  have hinv := h.invariant (I := fun _ s => s.i ≤ s.buffer.length)
    (fun _ _ _ _ _ hi hb => lineStep_index (lineStep_of_next hb) hi) [] (Nat.zero_le _)
  rw [(lineRuns_inv h).1] at hinv
  exact hinv

end Exact

/-- With the array of the source: no store goes behind it and the `uint16_t` index stays small,
exactly when no token of the line is overlong. -/
theorem readHeaderLine_inside_iff (b : Bytes) (hb : b.length = 1024) (p : Parser) (is : Bytes) :
    (readHeaderLine b is p ≠ none ∧
        ∀ used s, used <+: is → LineRuns ⟨.start, b, 0, 0, false, p⟩ used s → s.i < 2 ^ 16) ↔
      ¬ Overlong 1024 is := by
  constructor
  · rintro ⟨hne, -⟩ hover
    rw [← hb] at hover
    exact hne (readHeaderLine_eq_none.mpr (fault_of_overlong (by omega) hover))
  · intro hover
    refine ⟨fun hnone => hover ?_, ?_⟩
    · rw [← hb]
      exact overlong_of_fault (by omega) (readHeaderLine_eq_none.mp hnone)
    · intro used s _ hr
      have hi := lineRuns_index hr
      omega

theorem longTarget_ok : ∀ c ∈ List.replicate 1023 (byte 'a'), isTargetByte c = true := by
  intro c hc
  rw [List.eq_of_mem_replicate hc]
  rfl

/-- A target of 1024 bytes: its NUL does not fit. -/
def longTarget : Target := ⟨List.replicate 1023 (byte 'a'), longTarget_ok⟩

def longTargetRequest : Bytes :=
  getStart.bytes ++ longTarget.bytes ++ byte ' ' :: ascii "HTTP/1.0\r\n\r\n"

theorem longTargetRequest_overlong : Overlong 1024 longTargetRequest := by
  refine .target ?_ (.inr (.inr rfl))
  rw [Target.bytes, longTarget, List.length_cons, List.length_replicate]

theorem readHeaderLine_longTarget :
    readHeaderLine Stack.zero.buffer longTargetRequest .init = none := by
  have hlen : Stack.zero.buffer.length = 1024 := Stack.zero_sized.buffer
  refine readHeaderLine_eq_none.mpr (fault_of_overlong (by omega) ?_)
  rw [hlen]
  exact longTargetRequest_overlong

theorem readHeaderLine_inside_long :
    ¬ (readHeaderLine Stack.zero.buffer longTargetRequest .init ≠ none ∧
        ∀ used s, used <+: longTargetRequest →
          LineRuns ⟨.start, Stack.zero.buffer, 0, 0, false, .init⟩ used s → s.i < 2 ^ 16) := by
  rw [readHeaderLine_inside_iff _ Stack.zero_sized.buffer]
  exact not_not.mpr longTargetRequest_overlong

end Http
end SimpleWeb
