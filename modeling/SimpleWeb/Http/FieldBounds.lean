import SimpleWeb.Http.FieldLanguage
import SimpleWeb.Http.LineBounds
import SimpleWeb.Http.HeadCorrect

/-!
# Http.FieldBounds

The name state of `read_header` compares its index with `MAXFIELDNAME` before it stores; the value
states compare it with nothing. So no name leaves `fieldname`, and a value leaves `fieldvalue` as
soon as it has `MAXFIELDVALUE` bytes: `ValueOverlong` says which bytes do it, and
`readFields_inside_iff` that no others do.
-/

namespace SimpleWeb
namespace Http

open ScanLoop CArray

/-- A value fills an array of `n` bytes and goes on, or ends and has its NUL stored. The lines in
front of it are read. -/
inductive ValueOverlong (n : Nat) : Bytes → Prop where
  | mk {ls : List RawLine} {l : RawLine} {c : UInt8} {rest : Bytes}
      (hls : ∀ l ∈ ls, l.Readable n) (hname : l.name.length < MAXFIELDNAME) (hcr : CR ∉ l.tail)
      (h0 : 0 ∉ l.tail.tail) (hlen : l.tail.length = n) (hc : c ≠ 0) :
      ValueOverlong n (rawBytes ls ++ l.bytes ++ c :: rest)

/-! ## The passes that fault -/

section Fault

variable {s : HeaderVars} {c : UInt8}

theorem HeaderVars.putName_eq_none : s.putName c = none ↔ s.fieldname.length ≤ s.i := by
  simp [HeaderVars.putName, store_none_iff]

theorem HeaderVars.putValue_eq_none : s.putValue c = none ↔ s.fieldvalue.length ≤ s.i := by
  simp [HeaderVars.putValue, store_none_iff]

theorem HeaderVars.endValue_eq_none : s.endValue = none ↔ s.fieldvalue.length ≤ s.i := by
  simp [HeaderVars.endValue, store_none_iff]

theorem headerBody_value_fault (hs : s.state = .value) :
    headerBody c s = .fault ↔ s.fieldvalue.length ≤ s.i ∧ c ≠ 0 := by
  have hput : (Pass.must (s.putValue c) .next : HeaderPass) = .fault ↔
      s.fieldvalue.length ≤ s.i := Pass.must_next_fault.trans HeaderVars.putValue_eq_none
  have hend : ∀ q : HeaderState, (Pass.must s.endValue fun s => .next { s with state := q } :
      HeaderPass) = .fault ↔ s.fieldvalue.length ≤ s.i :=
    fun q => Pass.must_next_fault.trans HeaderVars.endValue_eq_none
  by_cases hsp : c = byte ' '
  · subst hsp
    simpa [headerBody, hs] using hput
  by_cases hcr : c = CR
  · subst hcr
    have h0 : CR ≠ 0 := by decide
    simpa [headerBody, hs, h0] using hend .almostDone
  by_cases hlf : c = LF
  · subst hlf
    have h0 : LF ≠ 0 := by decide
    simpa [headerBody, hs, h0] using hend .start
  by_cases hz : c = 0
  · subst hz
    simp [headerBody, hs, hsp]
  · simpa [headerBody, hs, hsp, hcr, hlf, hz] using hput

/-- With the name array of the source the name state does not leave it: it looks at the index
before every store. -/
theorem headerBody_name_inside (ha : s.fieldname.length = MAXFIELDNAME) (hs : s.state = .name) :
    headerBody c s ≠ .fault := by
  intro h
  simp only [headerBody, hs] at h
  split at h
  · rename_i hc
    rw [Pass.must_next_fault, HeaderVars.putName_eq_none] at h
    omega
  · split at h
    · rename_i hc
      rw [Pass.must_next_fault, store_none_iff] at h
      omega
    · cases h

theorem headerBody_other_fault (ha : 0 < s.fieldname.length) (hb : 0 < s.fieldvalue.length)
    (hs : s.state ≠ .name ∧ s.state ≠ .value) : headerBody c s ≠ .fault := by
  obtain ⟨hname, hvalue⟩ := hs
  intro h
  unfold headerBody at h
  split at h
  · split at h
    · cases h
    · split at h
      · cases h
      · split at h
        · rw [Pass.must_next_fault, HeaderVars.putName_eq_none] at h
          simp only at h
          omega
        · cases h
  · rename_i hs
    exact hname hs
  · split at h
    · cases h
    · split at h
      · cases h
      · split at h
        · cases h
        · rw [Pass.must_next_fault, HeaderVars.putValue_eq_none] at h
          simp only at h
          omega
  · rename_i hs
    exact hvalue hs
  all_goals
    repeat' split at h
    all_goals cases h

end Fault

/-! ## Exactly the overlong values -/

section Exact

variable {a b is : Bytes} {p : Parser}

theorem headerBody_length {s s' : HeaderVars} {c : UInt8} (h : headerBody c s = .next s') :
    s'.fieldname.length = s.fieldname.length ∧ s'.fieldvalue.length = s.fieldvalue.length := by
  cases headerStep_of_next h with
  | first _ _ hst | name _ _ hst | colon _ hst => exact ⟨store_length hst, rfl⟩
  | valueFirst _ _ hst | value _ _ hst | valueEnd _ _ hst => exact ⟨rfl, store_length hst⟩
  | _ => exact ⟨rfl, rfl⟩

/-- The arrays keep their lengths over a run. -/
theorem headerRuns_length {s t : HeaderVars} {used : Bytes} (h : HeaderRuns s used t) :
    t.fieldname.length = s.fieldname.length ∧ t.fieldvalue.length = s.fieldvalue.length :=
  h.invariant (I := fun _ t => t.fieldname.length = s.fieldname.length ∧
      t.fieldvalue.length = s.fieldvalue.length)
    (fun _ _ _ _ _ hi hb =>
      ⟨(headerBody_length hb).1.trans hi.1, (headerBody_length hb).2.trans hi.2⟩) [] ⟨rfl, rfl⟩

theorem readFields_eq_none :
    readFields a b is p = none ↔
      loop headerGuard headerBody ⟨.start, a, b, 0, p⟩ is = .fault := by
  unfold readFields
  split <;> simp_all

/-- A run over lines has read each of them. -/
theorem runs_behindLines {ls : List RawLine} {more : Bytes} (ha : a.length = MAXFIELDNAME)
    (hb : 0 < b.length) (hp : p.headerDone = false)
    {s : HeaderVars}
    (h : HeaderRuns ⟨.start, a, b, 0, p⟩ (rawBytes ls ++ more) s) :
    (∀ l ∈ ls, l.Readable b.length) ∧ ∃ a' b' i, a'.length = MAXFIELDNAME ∧
      b'.length = b.length ∧ HeaderRuns ⟨.start, a', b', i, p.store ls⟩ more s := by
  have hls := readable_of_runs ha rfl hb hp h
  obtain ⟨a', b', i, ha', hb', hlines⟩ := runs_rawLines (i := 0) ls hls ha rfl hp
  exact ⟨hls, a', b', i, ha', hb', hlines.suffix h⟩

theorem valueOverlong_of_fault (ha : a.length = MAXFIELDNAME) (hb : 0 < b.length)
    (hp : p.headerDone = false)
    (h : loop headerGuard headerBody ⟨.start, a, b, 0, p⟩ is = .fault) :
    ValueOverlong b.length is := by
  obtain ⟨used, c, u, rest, rfl, hr, hg, hfault⟩ := exit_fault h
  obtain ⟨hla, hlb⟩ := headerRuns_length hr
  have hpos : 0 < MAXFIELDNAME := by decide
  have hstart : HeaderInv p (rawBytes [] ++ []) ⟨.start, a, b, 0, p.store []⟩ := .start (by simp)
  have hinv := hr.invariant (fun _ _ _ _ hg hi hb => headerInv_step hg hi hb) [] hstart
  simp only [List.nil_append] at hinv hla hlb
  cases hinv with
  | @value ls l fn fv i htail hcr h0 hfn hfv =>
    obtain ⟨hi, hc⟩ := (headerBody_value_fault rfl).mp hfault
    simp only at hi hlb
    obtain ⟨hls, a₁, b₁, i₁, ha₁, -, hopen⟩ := runs_behindLines ha hb hp hr
    have hp' : (p.store ls).headerDone = false := hp
    rw [← List.append_nil l.bytes] at hopen
    have hname := name_of_runs ha₁ hp' hopen
    have hle := hfv.pre.length_le
    have hlen := hfv.len
    exact .mk hls hname hcr h0 (by omega) hc
  | name =>
    exact absurd hfault (headerBody_name_inside (hla.trans ha) rfl)
  | start | spaces | closing =>
    exact absurd hfault (headerBody_other_fault (hla.trans ha ▸ hpos) (hlb ▸ hb) (by simp))
  | almostDone hq =>
    refine absurd hfault (headerBody_other_fault (hla.trans ha ▸ hpos) (hlb ▸ hb) ?_)
    rcases hq with rfl | rfl
    · simp
    · simp
  | closed => simp [headerGuard] at hg

/-- Readable lines, and one more into its value. -/
theorem runs_intoValue {ls : List RawLine} {l : RawLine} (ha : a.length = MAXFIELDNAME)
    (hp : p.headerDone = false) (hls : ∀ l ∈ ls, l.Readable b.length)
    (hname : l.name.length < MAXFIELDNAME) (hcr : CR ∉ l.tail) (h0 : 0 ∉ l.tail.tail)
    (hlen : l.tail.length ≤ b.length) :
    ∃ q a' b' i, b'.length = b.length ∧
      HeaderRuns ⟨.start, a, b, 0, p⟩ (rawBytes ls ++ l.bytes) ⟨q, a', b', i, p.store ls⟩ ∧
      (l.tail ≠ [] → q = .value ∧ i = l.tail.length) := by
  obtain ⟨a₁, b₁, i₁, ha₁, hb₁, hlines⟩ := runs_rawLines (i := 0) ls hls ha rfl hp
  have hp' : (p.store ls).headerDone = false := hp
  have hn := runs_rawName (b := b₁) (i := i₁) l hname ha₁ hp'
  have hbytes : rawBytes ls ++ l.bytes =
      rawBytes ls ++ (l.skip ++ (l.name ++ [byte ':']) ++ (l.gap ++ l.tail)) := by
    simp [RawLine.bytes]
  rw [hbytes]
  cases ht : l.tail with
  | nil =>
    rw [List.append_nil]
    exact ⟨_, _, b₁, _, hb₁, hlines.append (hn.append (runs_gap l.gap_ok hp')), by simp⟩
  | cons d ds =>
    have hd : ∀ e ∈ d :: ds, e ≠ CR ∧ e ≠ LF := by
      intro e he
      exact ⟨fun h => hcr (by rw [ht, ← h]; exact he),
        fun h => l.tail_ok (by rw [ht, ← h]; exact he)⟩
    have hsp : d ≠ byte ' ' := fun h => l.tail_head (by simp [ht, h])
    have hds : ∀ e ∈ ds, isValueByte e = true := by
      intro e he
      have he0 : e ≠ 0 := fun hz => h0 (by rw [ht, ← hz]; exact he)
      simp [isValueByte, hd e (by simp [he]), he0]
    have hfit : (d :: ds).length ≤ b₁.length := by rwa [hb₁, ← ht]
    have hv := runs_gapValue (a := fill a₁ (l.name ++ [0])) (b := b₁) (i := l.name.length)
      l.gap_ok ⟨hsp, hd d (by simp)⟩ hds hfit hp'
    exact ⟨_, _, _, _, (length_fill hfit).trans hb₁, hlines.append (hn.append hv),
      fun _ => ⟨rfl, rfl⟩⟩

theorem fault_of_valueOverlong (ha : a.length = MAXFIELDNAME) (hb : 0 < b.length)
    (hp : p.headerDone = false) (h : ValueOverlong b.length is) :
    loop headerGuard headerBody ⟨.start, a, b, 0, p⟩ is = .fault := by
  obtain @⟨ls, l, c, rest, hls, hname, hcr, h0, hlen, hc⟩ := h
  obtain ⟨q, a', b', i, hb', hr, hstate⟩ := runs_intoValue ha hp hls hname hcr h0 hlen.le
  obtain ⟨rfl, rfl⟩ := hstate (List.ne_nil_of_length_pos (by omega))
  have hp' : (p.store ls).headerDone = false := hp
  exact loop_fault hr (headerGuard_of hp')
    ((headerBody_value_fault rfl).mpr ⟨hb'.le.trans hlen.ge, hc⟩)

/-- The field lines of a request whose line was read overrun for an overlong value only. -/
theorem valueOverlong_of_none {st : Stack} {rest : Bytes} (hst : st.Sized)
    (hline : readHeaderLine st.buffer is .init = some (.ok, p, rest))
    (h : readFields st.fieldname st.fieldvalue rest p = none) :
    ∃ (r : RawRequest) (fields : Bytes), r.protocol.Fits 1024 ∧ is = r.bytes ++ fields ∧
      ValueOverlong MAXFIELDVALUE fields := by
  have hpos : 0 < st.fieldvalue.length := by rw [hst.fieldvalue]; decide
  have hopen : p.headerDone = false := (readHeaderLine_frame hline).headerDone
  have hover := valueOverlong_of_fault hst.fieldname hpos hopen (readFields_eq_none.mp h)
  have hne : rest ≠ [] := by
    rintro rfl
    cases h
  obtain ⟨r, hr, rfl, -⟩ := readHeaderLine_exact hline hne
  rw [hst.buffer] at hr
  rw [hst.fieldvalue] at hover
  exact ⟨r, rest, hr, rfl, hover⟩

theorem none_of_valueOverlong {st : Stack} {r : RawRequest} {fields : Bytes} (hst : st.Sized)
    (hr : r.protocol.Fits 1024) (h : ValueOverlong MAXFIELDVALUE fields) :
    readHeaderLine st.buffer (r.bytes ++ fields) .init = some (.ok, r.apply .init, fields) ∧
      readFields st.fieldname st.fieldvalue fields (r.apply .init) = none := by
  have hpos : 0 < st.fieldvalue.length := by rw [hst.fieldvalue]; decide
  have hbuf : 7 ≤ st.buffer.length := by rw [hst.buffer]; decide
  rw [← hst.buffer] at hr
  rw [← hst.fieldvalue] at h
  exact ⟨readHeaderLine_raw r hbuf hr fields .init,
    readFields_eq_none.mpr (fault_of_valueOverlong hst.fieldname hpos rfl h)⟩

end Exact

/-- With the arrays of the source: behind a request line that was read, no store goes behind
`fieldname` or `fieldvalue` exactly when no value is overlong. -/
theorem readFields_inside_iff (st : Stack) (hst : st.Sized) (is : Bytes) :
    (∀ p rest, readHeaderLine st.buffer is .init = some (.ok, p, rest) →
        readFields st.fieldname st.fieldvalue rest p ≠ none) ↔
      ¬ ∃ (r : RawRequest) (fields : Bytes), r.protocol.Fits 1024 ∧ is = r.bytes ++ fields ∧
        ValueOverlong MAXFIELDVALUE fields := by
  constructor
  · rintro h ⟨r, fields, hr, rfl, hover⟩
    obtain ⟨hline, hnone⟩ := none_of_valueOverlong hst hr hover
    exact h _ _ hline hnone
  · intro h p rest hline hnone
    exact h (valueOverlong_of_none hst hline hnone)

/-- The grammar's request lines are raw ones. -/
theorem RequestLine.exists_raw (l : RequestLine) {b : Bytes} (h : l.Fits b) :
    ∃ r : RawRequest, r.protocol.Fits b.length ∧ r.bytes = l.bytes := by
  obtain ⟨r, hr, hbytes, -⟩ := readHeaderLine_exact (readHeaderLine_bytes l h [LF] .init) (by simp)
  exact ⟨r, hr, (List.append_cancel_right hbytes).symm⟩

theorem longValue_head : (List.replicate 1024 (byte 'b')).head? ≠ some (byte ' ') := by
  rw [List.head?_replicate]
  decide

theorem longValue_notMem {c : UInt8} (h : c ≠ byte 'b') :
    c ∉ List.replicate 1024 (byte 'b') := fun hm => h (List.eq_of_mem_replicate hm)

theorem longValue_name : (∀ c ∈ ascii "a", lowcase c = true) ∧ ascii "a" ≠ [] := by
  decide +kernel

/-- A value of `MAXFIELDVALUE` bytes: its NUL does not fit. -/
def longValue : RawLine :=
  ⟨[], ascii "a", [byte ' '], List.replicate 1024 (byte 'b'), by simp, longValue_name.1,
    longValue_name.2, by simp, longValue_head, longValue_notMem (by decide)⟩

def longValueFields : Bytes := rawBytes [] ++ longValue.bytes ++ LF :: [LF]

def longValueRequest : Bytes := parserTestHead.line.bytes ++ longValueFields

theorem longValue_length : longValue.tail.length = MAXFIELDVALUE := by
  rw [longValue, List.length_replicate]
  rfl

theorem longValueFields_overlong : ValueOverlong MAXFIELDVALUE longValueFields :=
  .mk (by simp) (by decide) (longValue_notMem (by decide))
    (fun h => longValue_notMem (c := 0) (by decide) (List.mem_of_mem_tail h)) longValue_length
    (c := LF) (by decide)

theorem readHeader_longValue :
    readHeaderLine Stack.zero.buffer longValueRequest .init =
        some (.ok, parserTestHead.line.apply .init, longValueFields) ∧
      readHeader .zero longValueRequest .init = none := by
  have hline := readHeaderLine_bytes parserTestHead.line parserTestHead_fits.line
    longValueFields .init
  have hover : ValueOverlong Stack.zero.fieldvalue.length longValueFields := by
    rw [Stack.zero_sized.fieldvalue]
    exact longValueFields_overlong
  have hfault := fault_of_valueOverlong (p := parserTestHead.line.apply .init)
    Stack.zero_sized.fieldname (by rw [Stack.zero_sized.fieldvalue]; decide) rfl hover
  refine ⟨hline, ?_⟩
  rw [readHeader, longValueRequest, hline]
  exact readFields_eq_none.mpr hfault

theorem readFields_inside_long :
    ¬ ∀ p rest, readHeaderLine Stack.zero.buffer longValueRequest .init = some (.ok, p, rest) →
      readFields Stack.zero.fieldname Stack.zero.fieldvalue rest p ≠ none := by
  rw [readFields_inside_iff .zero Stack.zero_sized]
  obtain ⟨r, hr, hbytes⟩ := parserTestHead.line.exists_raw parserTestHead_fits.line
  rw [Stack.zero_sized.buffer] at hr
  exact not_not.mpr ⟨r, longValueFields, hr, by rw [hbytes]; rfl, longValueFields_overlong⟩

end Http
end SimpleWeb
