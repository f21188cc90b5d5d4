import SimpleWeb.Http.FieldBounds

/-!
# Http.OpenHead

Both loops of `read_header` also end with the input, and what follows them is `ok` then too. So
there are four ways `read_header` can go: its arrays overrun (`HeadOverlong`), an error, a head
that is done (`RawHead`), and `ok` behind bytes that end inside a head (`OpenHead`).

* `OpenLine`, `OpenFields` — where the bytes can end, one case for each token.
* `readHeader_none_iff`, `readHeader_open_iff` — exactly these bytes.
-/

namespace SimpleWeb
namespace Http

open ScanLoop CArray

/-- The bytes end inside a request line. What they have of its last token fits an array of `n`
bytes. -/
inductive OpenLine (n : Nat) : Bytes → Prop where
  | method {lead m : Bytes} (hlead : ∀ c ∈ lead, c = CR ∨ c = LF)
      (hm : ∀ c ∈ m, isUpper c = true) (hlen : m.length ≤ n) : OpenLine n (lead ++ m)
  | gap (r : RawStart) : OpenLine n r.bytes
  | target (r : RawStart) {t : Target} (ht : t.bytes.length ≤ n) : OpenLine n (r.bytes ++ t.bytes)
  | query (r : RawStart) {t : Target} {q : RawQuery} (ht : t.bytes.length < n)
      (hq : (q.bytes.filter isprint).length ≤ n) :
      OpenLine n (r.bytes ++ t.bytes ++ rawQueryBytes (some q))
  | protocol {u : RawUri} {h : Bytes} (hu : u.Fits n) (hslash : byte '/' ∉ h)
      (hs : SpeaksHttp h) (hlen : (h.filter usual).length ≤ n) : OpenLine n (u.bytes ++ h)
  | major {r : RawProtocol} {m : Bytes} (hr : r.Fits n)
      (hm : ∀ c ∈ m, usual c = true ∨ c = byte ' ') (hv : VersionWithin 1 0 m) :
      OpenLine n (r.bytes ++ m)
  | minor {r : RawProtocol} {m k : Bytes} (hr : r.Fits n)
      (hm : ∀ c ∈ m, usual c = true ∨ c = byte ' ') (hk : LF ∉ k) (hv : VersionWithin 1 0 m)
      (hv' : VersionWithin 11 (m.foldl versionDigit 0) k) :
      OpenLine n (r.bytes ++ (m ++ [byte '.']) ++ k)

/-- The bytes end inside the field lines, or right behind one. -/
inductive OpenFields (n : Nat) : Bytes → Prop where
  | name {ls : List RawLine} {skip name : Bytes} (hls : ∀ l ∈ ls, l.Readable n)
      (hskip : ∀ c ∈ skip, isSkipByte c = true) (hname : ∀ c ∈ name, lowcase c = true)
      (hlen : name.length ≤ MAXFIELDNAME) : OpenFields n (rawBytes ls ++ (skip ++ name))
  | value {ls : List RawLine} {l : RawLine} (hls : ∀ l ∈ ls, l.Readable n)
      (hname : l.name.length < MAXFIELDNAME) (hcr : CR ∉ l.tail) (h0 : 0 ∉ l.tail.tail)
      (hlen : l.tail.length ≤ n) : OpenFields n (rawBytes ls ++ l.bytes)
  | hidden {ls : List RawLine} {l : RawLine} (hls : ∀ l ∈ ls, l.Readable n) (hl : l.Readable n)
      (hcr : CR ∈ l.tail) : OpenFields n (rawBytes ls ++ l.bytes)
  | closing {ls : List RawLine} {skip : Bytes} (hls : ∀ l ∈ ls, l.Readable n)
      (hskip : ∀ c ∈ skip, isSkipByte c = true) : OpenFields n (rawBytes ls ++ (skip ++ [CR]))

/-- The bytes end inside a head whose tokens fit the arrays of the source. -/
def OpenHead (is : Bytes) : Prop :=
  OpenLine 1024 is ∨ ∃ (r : RawRequest) (fields : Bytes), r.protocol.Fits 1024 ∧
    is = r.bytes ++ fields ∧ OpenFields MAXFIELDVALUE fields

/-- A token of the head goes over the end of its array. -/
def HeadOverlong (is : Bytes) : Prop :=
  Overlong 1024 is ∨ ∃ (r : RawRequest) (fields : Bytes), r.protocol.Fits 1024 ∧
    is = r.bytes ++ fields ∧ ValueOverlong MAXFIELDVALUE fields

/-! ## The request line -/

section Line

variable {b is rest : Bytes} {p p' : Parser} {s : LineVars}

theorem openLine_of_runs (h : LineRuns ⟨.start, b, 0, 0, false, p⟩ is s)
    (hopen : s.headerLineIsDone = false) : OpenLine b.length is := by
  obtain ⟨hlen, hinv⟩ := lineRuns_inv h
  cases hinv with
  | start hlead =>
    rw [← List.append_nil is]
    exact .method hlead (by simp) (Nat.zero_le _)
  | method hlead hm hb => exact .method hlead hm (hb.length_le.trans hlen.le)
  | gap => exact .gap _
  | uri hb => exact .target _ (hb.length_le.trans hlen.le)
  | params ht hb => exact .query _ ht (hb.length_le.trans hlen.le)
  | http hu hslash hs hb => exact .protocol hu hslash hs (hb.length_le.trans hlen.le)
  | major hr hm hv => exact .major hr hm hv
  | minor hr hm hk hv hv' => exact .minor hr hm hk hv hv'
  | line => cases hopen

theorem runs_of_openLine (hb : 7 ≤ b.length) (h : OpenLine b.length is) :
    ∃ s, LineRuns ⟨.start, b, 0, 0, false, p⟩ is s := by
  cases h with
  | @method lead m hlead hm hlen =>
    by_cases hne : m = []
    · rw [hne, List.append_nil]
      exact ⟨_, runs_lead hlead⟩
    · exact ⟨_, runs_intoMethod hlead hm hne hlen⟩
  | gap r => exact ⟨_, runs_rawStart r hb⟩
  | target r ht =>
    obtain ⟨b', -, hr⟩ := runs_intoTarget (p := p) r hb ht
    exact ⟨_, hr⟩
  | query r ht hq =>
    obtain ⟨b', -, hr⟩ := runs_intoQuery (p := p) r hb ht hq
    exact ⟨_, hr⟩
  | protocol hu hslash hs hlen =>
    obtain ⟨b', -, hr⟩ := runs_intoHttp (p := p) hb hu hslash hs hlen
    exact ⟨_, hr⟩
  | @major r m hr hm hv =>
    obtain ⟨b', i, hprotocol⟩ := runs_rawProtocol (v := 0) (p := p) r hb hr
    exact ⟨_, hprotocol.append (runs_major hm hv)⟩
  | @minor r m k hr hm hk hv hv' =>
    obtain ⟨b', i, hprotocol⟩ := runs_rawProtocol (v := 0) (p := p) r hb hr
    have hdot : LineRuns ⟨.httpMajor, b', i, m.foldl versionDigit 0, false, r.uri.apply p⟩
        [byte '.'] _ := .single rfl rfl
    exact ⟨_, (hprotocol.append ((runs_major hm hv).append hdot)).append (runs_minor hk hv')⟩

/-- A line that is taken was read to its end, or the input ended inside it. -/
theorem readHeaderLine_ok (h : readHeaderLine b is p = some (.ok, p', rest)) :
    (OpenLine b.length is ∧ rest = []) ∨
      ∃ r : RawRequest, r.protocol.Fits b.length ∧ is = r.bytes ++ rest ∧ p' = r.apply p := by
  unfold readHeaderLine at h
  split at h
  · rename_i s r hloop
    cases h
    obtain ⟨used, rfl, hr, hend⟩ := exit_done hloop
    by_cases hdone : s.headerLineIsDone = true
    · obtain ⟨-, hinv⟩ := lineRuns_inv hr
      cases hinv with
      | @line r b i hfit => exact .inr ⟨r, hfit, rfl, rfl⟩
      | _ => cases hdone
    · have hrest : rest = [] := hend.resolve_left (by simpa [lineGuard] using hdone)
      subst hrest
      rw [List.append_nil]
      exact .inl ⟨openLine_of_runs hr (by simpa using hdone), rfl⟩
  · rename_i e s r hloop
    cases h
    obtain ⟨used, c, u, -, -, -, hb⟩ := exit_ret hloop
    exact absurd rfl (lineBody_ret hb).2
  · cases h

theorem readHeaderLine_openLine (hb : 7 ≤ b.length) (h : OpenLine b.length is) (p : Parser) :
    ∃ p', readHeaderLine b is p = some (.ok, p', []) := by
  obtain ⟨s, hr⟩ := runs_of_openLine (p := p) hb h
  rw [readHeaderLine, loop_end hr]
  exact ⟨_, rfl⟩

end Line

/-! ## The field lines -/

section Fields

variable {a b is rest : Bytes} {p p' : Parser} {s : HeaderVars}

theorem openFields_of_runs (ha : a.length = MAXFIELDNAME) (hb : 0 < b.length)
    (hp : p.headerDone = false) (h : HeaderRuns ⟨.start, a, b, 0, p⟩ is s)
    (hopen : s.par.headerDone = false) : OpenFields b.length is := by
  obtain ⟨hla, hlb⟩ := headerRuns_length h
  have hstart : HeaderInv p (rawBytes [] ++ []) ⟨.start, a, b, 0, p.store []⟩ := .start (by simp)
  have hinv := h.invariant (fun _ _ _ _ hg hi hb => headerInv_step hg hi hb) [] hstart
  simp only [List.nil_append] at hinv hla hlb
  cases hinv with
  | @start ls skip _ _ _ hskip =>
    rw [← List.append_nil skip]
    exact .name (runs_behindLines ha hb hp h).1 hskip (by simp) (Nat.zero_le _)
  | name hskip hname hne hfn =>
    exact .name (runs_behindLines ha hb hp h).1 hskip hname (hfn.length_le.trans (hla.trans ha).le)
  | @spaces ls l fn fv i htail hfn =>
    obtain ⟨hls, a', b', j, ha', -, hline⟩ := runs_behindLines ha hb hp h
    rw [← List.append_nil l.bytes] at hline
    have hname := name_of_runs (p := p.store ls) ha' hp hline
    exact .value hls hname (by simp [htail]) (by simp [htail]) (by simp [htail])
  | @value ls l fn fv i htail hcr h0 hfn hfv =>
    obtain ⟨hls, a', b', j, ha', -, hline⟩ := runs_behindLines ha hb hp h
    rw [← List.append_nil l.bytes] at hline
    have hname := name_of_runs (p := p.store ls) ha' hp hline
    exact .value hls hname hcr h0 (hfv.length_le.trans hlb.le)
  | @almostDone ls l q fn fv i hq hcr =>
    obtain ⟨hls, a', b', j, ha', hb', hline⟩ := runs_behindLines ha hb hp h
    -- one more LF would end the line, so it is readable
    have hend : HeaderRuns ⟨q, fn, fv, i, p.store (ls ++ [l])⟩ ([] ++ [LF]) _ :=
      runs_hidden hq (by simp) hp
    have hl := readable_of_run (p := p.store ls) ha' (hb' ▸ hb) hp (hline.append hend)
    exact .hidden hls (hb' ▸ hl) hcr
  | closing hskip => exact .closing (runs_behindLines ha hb hp h).1 hskip
  | closed => cases hopen

theorem runs_of_openFields (ha : a.length = MAXFIELDNAME) (hp : p.headerDone = false)
    (h : OpenFields b.length is) :
    ∃ s, HeaderRuns ⟨.start, a, b, 0, p⟩ is s ∧ s.par.headerDone = false := by
  cases h with
  | @name ls skip name hls hskip hname hlen =>
    obtain ⟨a', b', i, ha', -, hlines⟩ := runs_rawLines (i := 0) ls hls ha rfl hp
    have hskips := hlines.append (runs_skip (p := p.store ls) hskip hp)
    by_cases hne : name = []
    · rw [hne, List.append_nil]
      exact ⟨_, hskips, hp⟩
    · have hnames := runs_nameBytes (b := b') (i := i) (p := p.store ls) hname
        (List.length_pos_iff.mpr hne) hlen (hlen.trans ha'.ge) hp
      rw [← List.append_assoc]
      exact ⟨_, hskips.append hnames, hp⟩
  | value hls hname hcr h0 hlen =>
    obtain ⟨q, a', b', i, -, hr, -⟩ := runs_intoValue ha hp hls hname hcr h0 hlen
    exact ⟨_, hr, hp⟩
  | @hidden ls l hls hl hcr =>
    obtain ⟨a₁, b₁, i₁, ha₁, hb₁, hlines⟩ := runs_rawLines (i := 0) ls hls ha rfl hp
    obtain ⟨a', b', i, -, -, hline⟩ :=
      runs_rawLine (i := i₁) (p := p.store ls) l (hb₁ ▸ hl) ha₁ hp
    obtain ⟨u, hu, hg⟩ := hline.init
    exact ⟨u, hlines.append hu, by simpa [headerGuard] using hg⟩
  | @closing ls skip hls hskip =>
    obtain ⟨a', b', i, -, -, hlines⟩ := runs_rawLines (i := 0) ls hls ha rfl hp
    have hskips := hlines.append (runs_skip (p := p.store ls) hskip hp)
    have hcr : HeaderRuns ⟨.start, a', b', i, p.store ls⟩ [CR]
        ⟨.headerAlmostDone, a', b', i, p.store ls⟩ := .single (headerGuard_of hp) rfl
    rw [← List.append_assoc]
    exact ⟨_, hskips.append hcr, hp⟩

theorem readFields_ok_open (ha : a.length = MAXFIELDNAME) (hb : 0 < b.length)
    (hp : p.headerDone = false) (h : readFields a b is p = some (.ok, p', rest))
    (hopen : p'.headerDone = false) : OpenFields b.length is := by
  unfold readFields at h
  split at h
  · rename_i s r hloop
    cases h
    obtain ⟨used, rfl, hr, hend⟩ := exit_done hloop
    have hrest : rest = [] := hend.resolve_left (by simp [headerGuard, hopen])
    subst hrest
    rw [List.append_nil]
    exact openFields_of_runs ha hb hp hr hopen
  · rename_i e s r hloop
    cases h
    obtain ⟨used, c, u, -, -, -, hbody⟩ := exit_ret hloop
    exact absurd rfl (headerBody_error hbody)
  · cases h

theorem readFields_openFields (ha : a.length = MAXFIELDNAME) (hp : p.headerDone = false)
    (h : OpenFields b.length is) :
    ∃ p', readFields a b is p = some (.ok, p', []) ∧ p'.headerDone = false := by
  obtain ⟨s, hr, hopen⟩ := runs_of_openFields ha hp h
  rw [readFields, loop_end hr]
  exact ⟨_, rfl, hopen⟩

end Fields

/-! ## The head -/

section Head

variable {st : Stack} {is : Bytes}

/-- The arrays of the source overrun exactly when a token is overlong. -/
theorem readHeader_none_iff (hst : st.Sized) :
    readHeader st is .init = none ↔ HeadOverlong is := by
  have hbuf : 7 ≤ st.buffer.length := by rw [hst.buffer]; decide
  constructor
  · intro h
    unfold readHeader at h
    split at h
    · rename_i p fields hline
      exact .inr (valueOverlong_of_none hst hline h)
    · have hover := overlong_of_fault (by omega) (readHeaderLine_eq_none.mp h)
      rw [hst.buffer] at hover
      exact .inl hover
  · rintro (hover | ⟨r, fields, hr, rfl, hover⟩)
    · rw [← hst.buffer] at hover
      rw [readHeader, readHeaderLine_eq_none.mpr (fault_of_overlong hbuf hover)]
    · obtain ⟨hline, hnone⟩ := none_of_valueOverlong hst hr hover
      rw [readHeader, hline]
      exact hnone

/-- `read_header` returns `ok` for a head that is not done exactly when the bytes end inside
it. -/
theorem readHeader_open_iff (hst : st.Sized) :
    (∃ par rest, readHeader st is .init = some (.ok, par, rest) ∧ par.headerDone = false) ↔
      OpenHead is := by
  have hpos : 0 < st.fieldvalue.length := by rw [hst.fieldvalue]; decide
  have hbuf : 7 ≤ st.buffer.length := by rw [hst.buffer]; decide
  unfold OpenHead
  rw [← hst.buffer, ← hst.fieldvalue]
  constructor
  · rintro ⟨par, rest, h, hopen⟩
    unfold readHeader at h
    split at h
    · rename_i p fields hline
      rcases readHeaderLine_ok hline with ⟨hin, -⟩ | ⟨r, hr, rfl, rfl⟩
      · exact .inl hin
      · exact .inr ⟨r, fields, hr, rfl, readFields_ok_open hst.fieldname hpos rfl h hopen⟩
    · rename_i hnot
      exact absurd h (hnot _ _)
  · rintro (hin | ⟨r, fields, hr, rfl, hin⟩)
    · obtain ⟨p, hline⟩ := readHeaderLine_openLine hbuf hin .init
      refine ⟨p, [], ?_, (readHeaderLine_frame hline).headerDone⟩
      rw [readHeader, hline]
      rfl
    · obtain ⟨par, hfields, hopen⟩ :=
        readFields_openFields (p := r.apply .init) hst.fieldname rfl hin
      refine ⟨par, [], ?_, hopen⟩
      rw [readHeader, readHeaderLine_raw r hbuf hr fields .init]
      exact hfields

end Head

end Http
end SimpleWeb
