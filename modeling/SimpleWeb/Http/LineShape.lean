import SimpleWeb.Http.MethodToken

/-!
# Http.LineShape

What the bytes of a request line look like that `read_header_line` read to its end: where its line
breaks are, and what stands for the protocol. Both follow from the raw request the bytes spell
(`lineDone_raw`).

* `requestLine_oneLine_iff` — one LF, at the end: only a query or the protocol token can hold
  another.
* `protocolToken_iff`       — `HTTP/1.0` or `HTTP/1.1`: the states check bytes one by one and not
  the token, so its pieces need the right lengths.
-/

namespace SimpleWeb
namespace Http

open ScanLoop CArray

/-- The loop of `read_header_line` ends because `header_line_is_done` is set. -/
def LineDone (b is : Bytes) (p : Parser) : Prop :=
  ∃ s rest, loop lineGuard lineBody ⟨.start, b, 0, 0, false, p⟩ is = .done s rest ∧
    s.headerLineIsDone = true

/-- A line that was read to its end spells a raw request. -/
theorem lineDone_raw {b is rest : Bytes} {p p' : Parser}
    (h : readHeaderLine b is p = some (.ok, p', rest)) (hdone : LineDone b is p) :
    ∃ r : RawRequest, r.protocol.Fits b.length ∧ is = r.bytes ++ rest ∧ p' = r.apply p := by
  obtain ⟨s, rest', hloop, hset⟩ := hdone
  rw [readHeaderLine, hloop] at h
  cases h
  obtain ⟨used, rfl, hr, -⟩ := exit_done hloop
  obtain ⟨-, hinv⟩ := lineRuns_inv hr
  cases hinv with
  | @line r b i hfit => exact ⟨r, hfit, rfl, rfl⟩
  | _ => cases hset

theorem RawRequest.lineDone (r : RawRequest) {b : Bytes} (hb : 7 ≤ b.length)
    (hr : r.protocol.Fits b.length) (rest : Bytes) (p : Parser) :
    LineDone b (r.bytes ++ rest) p := by
  obtain ⟨b', i, hruns⟩ := runs_rawRequest (p := p) r hb hr
  exact ⟨_, rest, loop_done hruns rfl rest, rfl⟩

theorem zeroBuffer_fits {r : RawRequest} (h : r.protocol.Fits 1024) :
    7 ≤ Stack.zero.buffer.length ∧ r.protocol.Fits Stack.zero.buffer.length := by
  rw [Stack.zero_sized.buffer]
  exact ⟨by omega, h⟩

/-! ## One line -/

/-- One LF, the last byte. -/
def IsOneLine (bs : Bytes) : Prop := ∃ t, LF ∉ t ∧ bs = t ++ [LF]

/-- The request without the CR and LF in front of it. -/
def RawRequest.line (r : RawRequest) : Bytes :=
  r.protocol.uri.start.method.toString ++ byte ' ' :: (spaces r.protocol.uri.start.gap ++
    (r.protocol.uri.target.bytes ++ (rawQueryBytes r.protocol.uri.query ++
      byte ' ' :: (r.protocol.http ++ byte '/' :: (r.major ++ byte '.' :: r.minor)))))

theorem RawRequest.bytes_eq (r : RawRequest) :
    r.bytes = r.protocol.uri.start.lead ++ (r.line ++ [LF]) := by
  simp [RawRequest.bytes, RawProtocol.bytes, RawUri.bytes, RawStart.bytes, RawRequest.line]

/-- No line break in the query and none in the bytes of the protocol state. -/
structure RawRequest.BreakFree (r : RawRequest) : Prop where
  query : ∀ q ∈ r.protocol.uri.query, LF ∉ q.bytes
  http : LF ∉ r.protocol.http

theorem RawRequest.dropWhile_lead (r : RawRequest) : r.bytes.dropWhile isLead = r.line ++ [LF] := by
  rw [r.bytes_eq]
  refine Http.dropWhile_lead r.protocol.uri.start.lead_ok ?_
  intro c hc
  have hmem : c ∈ r.protocol.uri.start.method.toString := by
    have hne : r.protocol.uri.start.method.toString ≠ [] := by
      cases r.protocol.uri.start.method <;> decide
    obtain ⟨d, m, hm⟩ := List.exists_cons_of_ne_nil hne
    rw [RawRequest.line, hm] at hc
    obtain rfl : d = c := by simpa using hc
    simp [hm]
  exact isUpper_not_lead (Verb.isUpper_toString c hmem)

theorem Target.lf_notMem (t : Target) : LF ∉ t.bytes := by
  intro h
  rcases List.mem_cons.mp h with h | h
  · exact absurd h (by decide)
  · exact absurd (t.path_ok _ h) (by decide)

theorem Verb.lf_notMem (v : Verb) : LF ∉ v.toString := by
  intro h
  exact absurd (Verb.isUpper_toString _ h) (by decide)

theorem RawRequest.lf_notMem_major (r : RawRequest) : LF ∉ r.major := by
  intro h
  exact absurd (r.major_ok _ h) (by decide)

theorem lf_notMem_rawQuery (q : Option RawQuery) :
    LF ∉ rawQueryBytes q ↔ ∀ s ∈ q, LF ∉ s.bytes := by
  cases q with
  | none => simp [rawQueryBytes]
  | some q => simp [rawQueryBytes]

theorem lf_notMem_spaces (n : Nat) : LF ∉ spaces n := by
  intro h
  exact absurd (List.eq_of_mem_replicate h) (by decide)

/-- Every other piece refuses a line break, or ends with it. -/
theorem RawRequest.lf_notMem_line (r : RawRequest) : LF ∉ r.line ↔ r.BreakFree := by
  have hquery := lf_notMem_rawQuery r.protocol.uri.query
  simp only [RawRequest.line, List.mem_append, List.mem_cons, not_or, Verb.lf_notMem,
    lf_notMem_spaces, Target.lf_notMem, r.lf_notMem_major, r.minor_ok, hquery, not_false_eq_true,
    true_and, and_true]
  constructor
  · rintro ⟨-, hq, -, hh, -⟩
    exact ⟨hq, hh⟩
  · rintro ⟨hq, hh⟩
    exact ⟨by decide, hq, by decide, hh, by decide, by decide⟩

theorem isOneLine_append {t : Bytes} : IsOneLine (t ++ [LF]) ↔ LF ∉ t := by
  constructor
  · rintro ⟨u, hu, heq⟩
    rwa [List.append_cancel_right heq]
  · intro ht
    exact ⟨t, ht, rfl⟩

/-- A request line that was read to its end is one line when its query and its protocol token
have no LF. -/
theorem requestLine_oneLine_iff {b is rest : Bytes} {p p' : Parser}
    (h : readHeaderLine b is p = some (.ok, p', rest)) (hdone : LineDone b is p) :
    ∃ used, is = used ++ rest ∧ (∃ r : RawRequest, used = r.bytes) ∧
      ∀ r : RawRequest, used = r.bytes → (IsOneLine (used.dropWhile isLead) ↔ r.BreakFree) := by
  obtain ⟨r, -, his, -⟩ := lineDone_raw h hdone
  refine ⟨r.bytes, his, ⟨r, rfl⟩, ?_⟩
  intro r' heq
  rw [heq, r'.dropWhile_lead, isOneLine_append, r'.lf_notMem_line]

theorem requestLine_oneLine_get :
    ∃ used, used = getRequest.bytes ∧ IsOneLine (used.dropWhile isLead) := by
  have hb := zeroBuffer_fits getRequest_fits
  obtain ⟨used, heq, -, hline⟩ := requestLine_oneLine_iff
    (readHeaderLine_raw getRequest hb.1 hb.2 [] .init) (getRequest.lineDone hb.1 hb.2 [] .init)
  rw [List.append_nil, List.append_nil] at heq
  exact ⟨used, heq.symm, (hline getRequest heq.symm).mpr ⟨nofun, by decide +kernel⟩⟩

theorem foldedQuery_ok :
    byte ' ' ∉ ascii "a\nHost:" ∧ 0 ∉ ascii "a\nHost:" := by decide +kernel

/-- `GET /?a` and a line break, with the rest of the line behind the field `Host` -/
def foldedRequest : RawRequest :=
  { getRequest with
    protocol := { getRequest.protocol with
      uri := { getRequest.protocol.uri with
        query := some ⟨ascii "a\nHost:", foldedQuery_ok.1, foldedQuery_ok.2⟩ } } }

theorem foldedRequest_fits : foldedRequest.protocol.Fits 1024 where
  uri := ⟨by decide +kernel, by rintro q ⟨⟩; decide +kernel⟩
  http := by decide +kernel

/-- The line break and the name of the next field end up in the query string. -/
theorem requestLine_folded :
    ¬ ∀ (b is rest : Bytes) (p p' : Parser), b.length = 1024 →
      readHeaderLine b is p = some (.ok, p', rest) → LineDone b is p →
        ∃ used, is = used ++ rest ∧ IsOneLine (used.dropWhile isLead) := by
  intro hall
  have hb := zeroBuffer_fits foldedRequest_fits
  obtain ⟨used, heq, hone⟩ := hall Stack.zero.buffer (foldedRequest.bytes ++ []) [] .init _
    Stack.zero_sized.buffer (readHeaderLine_raw foldedRequest hb.1 hb.2 [] .init)
    (foldedRequest.lineDone hb.1 hb.2 [] .init)
  obtain rfl : foldedRequest.bytes = used := List.append_cancel_right heq
  rw [foldedRequest.dropWhile_lead, isOneLine_append, foldedRequest.lf_notMem_line] at hone
  exact absurd (hone.query _ rfl) (by decide +kernel)

/-! ## The protocol -/

/-- Without the CR of a line end and the spaces in front of it. -/
def stripEnd (bs : Bytes) : Bytes :=
  (if bs.getLast? = some CR then bs.dropLast else bs).rdropWhile (· == byte ' ')

/-- The bytes behind the URI and its spaces, up to the line end and the spaces in front of it. -/
def RawRequest.protocolToken (r : RawRequest) : Bytes :=
  stripEnd ((r.protocol.http ++ byte '/' :: (r.major ++ byte '.' :: r.minor)).dropWhile
    (· == byte ' '))

/-- The token is a protocol, and the version of the message is its version. -/
def NamesVersion (token : Bytes) (version : UInt32) : Prop :=
  ∃ w : HttpVersion, token = w.bytes ∧ version = w.number

/-- Four usual bytes in front of the slash, one digit on each side of the dot, the first not 0.
Their values are checked by the states. -/
structure RawRequest.TokenShape (r : RawRequest) : Prop where
  length : (r.protocol.http.dropWhile (· == byte ' ')).length = 4
  usual_ok : ∀ c ∈ r.protocol.http.dropWhile (· == byte ' '), usual c = true
  major : ∃ d, r.major = [d] ∧ byte '1' ≤ d ∧ d ≤ byte '9'
  minor : ∃ d, stripEnd r.minor = [d] ∧ isDigit d = true

/-! ### Two raw requests of the same bytes -/

theorem RawRequest.fits_of_length {r : RawRequest} {n : Nat} (h : r.bytes.length ≤ n) :
    r.protocol.Fits n := by
  have hlen : r.bytes.length = r.protocol.uri.start.lead.length + (r.line.length + 1) := by
    simp [r.bytes_eq]
  simp only [RawRequest.line, List.length_append, List.length_cons] at hlen
  refine ⟨⟨by omega, ?_⟩, ?_⟩
  · intro q hq
    have hle := List.length_filter_le isprint q.bytes
    have hq' : rawQueryBytes r.protocol.uri.query = byte '?' :: q.bytes := by
      rw [show r.protocol.uri.query = some q from hq, rawQueryBytes]
    simp only [hq', List.length_cons] at hlen
    simp only [RawQuery.stored, List.length_append, List.length_singleton]
    omega
  · have hle := List.length_filter_le usual r.protocol.http
    omega

/-- The machine is a function, so the bytes say what is read from them. -/
theorem RawRequest.apply_eq_of_bytes {r r' : RawRequest} (h : r.bytes = r'.bytes) (p : Parser) :
    r.apply p = r'.apply p := by
  let b : Bytes := List.replicate (r.bytes.length + 7) 0
  have hb : b.length = r.bytes.length + 7 := List.length_replicate
  have hr := readHeaderLine_raw r (b := b) (by omega)
    (RawRequest.fits_of_length (by omega)) [] p
  have hr' := readHeaderLine_raw r' (b := b) (by omega)
    (RawRequest.fits_of_length (by rw [← h]; omega)) [] p
  rw [h, hr'] at hr
  simp only [Option.some.injEq, Prod.mk.injEq, true_and, and_true] at hr
  exact hr.symm

/-! ### The token, piece by piece -/

theorem dropWhile_append_cons {q : UInt8 → Bool} {x y : Bytes} {c : UInt8} (hc : q c = false) :
    (x ++ c :: y).dropWhile q = x.dropWhile q ++ c :: y := by
  induction x with
  | nil => simp [hc]
  | cons d x ih =>
    by_cases hd : q d = true
    · simpa [hd] using ih
    · simp [hd]

theorem rdropWhile_append_cons {q : UInt8 → Bool} {x y : Bytes} {c : UInt8} (hc : q c = false) :
    (x ++ c :: y).rdropWhile q = x ++ c :: y.rdropWhile q := by
  induction y using List.reverseRecOn with
  | nil =>
    rw [List.rdropWhile_concat_neg _ _ c (by simp [hc]), List.rdropWhile_nil]
  | append_singleton y d ih =>
    have hsplit : x ++ c :: (y ++ [d]) = (x ++ c :: y) ++ [d] := by simp
    by_cases hd : q d = true
    · rw [hsplit, List.rdropWhile_concat_pos _ _ d hd, List.rdropWhile_concat_pos _ _ d hd, ih]
    · rw [hsplit, List.rdropWhile_concat_neg _ _ d hd, List.rdropWhile_concat_neg _ _ d hd, hsplit]

/-- What is in front of a byte that is no line end and no space stays. -/
theorem stripEnd_append_cons {x y : Bytes} {c : UInt8} (hs : c ≠ byte ' ') (hc : c ≠ CR) :
    stripEnd (x ++ c :: y) = x ++ c :: stripEnd y := by
  have hq : (c == byte ' ') = false := by simpa using hs
  have hchop : (if (x ++ c :: y).getLast? = some CR then (x ++ c :: y).dropLast else x ++ c :: y) =
      x ++ c :: (if y.getLast? = some CR then y.dropLast else y) := by
    cases y using List.reverseRecOn with
    | nil => simp [hc]
    | append_singleton y d =>
      have hsplit : x ++ c :: (y ++ [d]) = (x ++ c :: y) ++ [d] := by simp
      rw [hsplit, List.getLast?_concat, List.getLast?_concat, List.dropLast_concat,
        List.dropLast_concat]
      split <;> simp
  rw [stripEnd, hchop, rdropWhile_append_cons (q := (· == byte ' ')) hq]
  rfl

theorem RawRequest.protocolToken_eq (r : RawRequest) :
    r.protocolToken = r.protocol.http.dropWhile (· == byte ' ') ++ byte '/' ::
      (r.major ++ byte '.' :: stripEnd r.minor) := by
  rw [RawRequest.protocolToken, dropWhile_append_cons (by decide),
    stripEnd_append_cons (by decide) (by decide), stripEnd_append_cons (by decide) (by decide)]

theorem HttpVersion.bytes_split (w : HttpVersion) : ∃ d, isDigit d = true ∧
    w.bytes = ascii "HTTP" ++ byte '/' :: ([byte '1'] ++ byte '.' :: [d]) := by
  cases w with
  | v10 => exact ⟨byte '0', by decide, by decide⟩
  | v11 => exact ⟨byte '1', by decide, by decide⟩

/-- A token that is a protocol has its shape. -/
theorem RawRequest.tokenShape_of_names {r : RawRequest} {w : HttpVersion}
    (h : r.protocolToken = w.bytes) : r.TokenShape := by
  obtain ⟨d, hd, hw⟩ := w.bytes_split
  have hslash : byte '/' ≠ d := by
    rintro rfl
    exact absurd hd (by decide)
  have hdot : byte '.' ≠ d := by
    rintro rfl
    exact absurd hd (by decide)
  rw [r.protocolToken_eq, hw] at h
  obtain ⟨hhttp, -, hrest⟩ :=
    (List.append_cons_inj_of_notMem (by decide) (by simp [hslash])).mp h.symm
  obtain ⟨hmajor, -, hminor⟩ :=
    (List.append_cons_inj_of_notMem (by decide) (by simpa using hdot)).mp hrest
  refine ⟨by rw [← hhttp]; rfl, ?_, ⟨byte '1', hmajor.symm, by decide, by decide⟩,
    ⟨d, hminor.symm, hd⟩⟩
  rw [← hhttp]
  decide +kernel

/-- Line ends and spaces are no digits. -/
theorem foldl_versionDigit_stripEnd (v : UInt32) (bs : Bytes) :
    bs.foldl versionDigit v = (stripEnd bs).foldl versionDigit v := by
  have hspaces : ∀ ds : Bytes, ds.foldl versionDigit v =
      (ds.rdropWhile (· == byte ' ')).foldl versionDigit v := by
    intro ds
    induction ds using List.reverseRecOn with
    | nil => rfl
    | append_singleton ds d ih =>
      by_cases hd : d = byte ' '
      · subst hd
        rw [List.foldl_concat, versionDigit_space, ih, List.rdropWhile_concat_pos _ _ _ (by decide)]
      · rw [List.rdropWhile_concat_neg _ _ _ (by simpa using hd)]
  rw [stripEnd, ← hspaces]
  split
  · rename_i hlast
    obtain ⟨ds, rfl⟩ := List.getLast?_eq_some_iff.mp hlast
    rw [List.foldl_concat, List.dropLast_concat, versionDigit_skip _ (by decide)]
  · rfl

/-- The digits of a version that stays in its bounds. -/
theorem majorDigit_eq : ∀ d : UInt8, byte '1' ≤ d → d ≤ byte '9' → versionDigit 0 d ≤ 1 →
    d = byte '1' := by
  decide +kernel

theorem minorDigit_eq : ∀ d : UInt8, isDigit d = true → versionDigit 1 d ≤ 11 →
    d = byte '0' ∨ d = byte '1' := by
  decide +kernel

/-- Four usual bytes were compared with `HTTP`. -/
theorem RawRequest.http_eq {r : RawRequest} (h : r.TokenShape) :
    r.protocol.http.dropWhile (· == byte ' ') = ascii "HTTP" := by
  have hsplit := List.takeWhile_append_dropWhile (p := (· == byte ' ')) (l := r.protocol.http)
  have hspaces : (r.protocol.http.takeWhile (· == byte ' ')).filter usual = [] := by
    rw [List.filter_eq_nil_iff]
    intro c hc
    have hsp : c = byte ' ' := by simpa using List.mem_takeWhile_imp hc
    simp [hsp]
  have hfilter : r.protocol.http.filter usual = r.protocol.http.dropWhile (· == byte ' ') := by
    conv_lhs => rw [← hsplit]
    rw [List.filter_append, hspaces, List.nil_append, List.filter_eq_self.mpr h.usual_ok]
  rw [← hfilter]
  exact r.protocol.speaks.eq_of_length (by rw [hfilter]; exact h.length)

theorem RawRequest.names_of_tokenShape {r : RawRequest} (h : r.TokenShape) :
    NamesVersion r.protocolToken r.version := by
  obtain ⟨d, hmajor, hlo, hhi⟩ := h.major
  obtain ⟨e, hminor, he⟩ := h.minor
  have hd : d = byte '1' := by
    have hle := r.major_within.le
    rw [hmajor] at hle
    exact majorDigit_eq d hlo hhi hle
  subst hd
  have hone : r.major.foldl versionDigit 0 = 1 := by
    rw [hmajor]
    rfl
  have hversion : r.version = versionDigit 1 e := by
    rw [RawRequest.version, hone, foldl_versionDigit_stripEnd, hminor]
    rfl
  have hle : versionDigit 1 e ≤ 11 := by
    have hbound := r.minor_within.le
    rw [hone, foldl_versionDigit_stripEnd, hminor] at hbound
    exact hbound
  rw [NamesVersion, r.protocolToken_eq, RawRequest.http_eq h, hmajor, hminor, hversion]
  rcases minorDigit_eq e he hle with rfl | rfl
  · exact ⟨.v10, by decide, by decide⟩
  · exact ⟨.v11, by decide, by decide⟩

theorem RawRequest.names_iff (r : RawRequest) :
    NamesVersion r.protocolToken r.version ↔ r.TokenShape := by
  constructor
  · rintro ⟨w, htoken, -⟩
    exact RawRequest.tokenShape_of_names htoken
  · exact RawRequest.names_of_tokenShape

/-- Behind a request line that was read to its end the version is that of its protocol token when
the pieces of the token have the lengths and kinds of bytes the states do not check. -/
theorem protocolToken_iff {b is rest : Bytes} {p p' : Parser}
    (h : readHeaderLine b is p = some (.ok, p', rest)) (hdone : LineDone b is p) :
    (∃ r : RawRequest, is = r.bytes ++ rest) ∧
      ∀ r : RawRequest, is = r.bytes ++ rest →
        (NamesVersion r.protocolToken p'.message.version ↔ r.TokenShape) := by
  obtain ⟨r, -, rfl, rfl⟩ := lineDone_raw h hdone
  refine ⟨⟨r, rfl⟩, ?_⟩
  intro r' heq
  rw [RawRequest.apply_eq_of_bytes (List.append_cancel_right heq) p]
  exact r'.names_iff

theorem protocolToken_get :
    NamesVersion getRequest.protocolToken (getRequest.apply .init).message.version := by
  have hb := zeroBuffer_fits getRequest_fits
  obtain ⟨-, hnames⟩ := protocolToken_iff (readHeaderLine_raw getRequest hb.1 hb.2 [] .init)
    (getRequest.lineDone hb.1 hb.2 [] .init)
  refine (hnames getRequest rfl).mpr ⟨by decide +kernel, by decide +kernel, ?_, ?_⟩
  · exact ⟨byte '1', rfl, by decide, by decide⟩
  · exact ⟨byte '0', by decide +kernel, by decide⟩

theorem shortProtocol_ok : byte '/' ∉ ascii "HT" ∧ SpeaksHttp (ascii "HT") :=
  ⟨by decide +kernel, .inl (by decide +kernel)⟩

/-- `GET / HT/1.0` -/
def shortRequest : RawRequest :=
  { getRequest with
    protocol := ⟨getRequest.protocol.uri, ascii "HT", shortProtocol_ok.1, shortProtocol_ok.2⟩ }

theorem shortRequest_fits : shortRequest.protocol.Fits 1024 where
  uri := getRequest_fits.uri
  http := by decide +kernel

/-- Two letters are not compared, and the line is taken with version 10. -/
theorem protocolToken_short :
    ¬ ∀ (b is rest : Bytes) (p p' : Parser), b.length = 1024 →
      readHeaderLine b is p = some (.ok, p', rest) → LineDone b is p →
        ∀ r : RawRequest, is = r.bytes ++ rest →
          NamesVersion r.protocolToken p'.message.version := by
  intro hall
  have hb := zeroBuffer_fits shortRequest_fits
  obtain ⟨w, htoken, -⟩ := hall Stack.zero.buffer (shortRequest.bytes ++ []) [] .init _
    Stack.zero_sized.buffer (readHeaderLine_raw shortRequest hb.1 hb.2 [] .init)
    (shortRequest.lineDone hb.1 hb.2 [] .init) shortRequest rfl
  cases w <;> exact absurd htoken (by decide +kernel)

end Http
end SimpleWeb
