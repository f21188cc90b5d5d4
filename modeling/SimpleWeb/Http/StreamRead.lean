import SimpleWeb.Fdstream
import SimpleWeb.Lib.SourceLoop
import SimpleWeb.Http.VectorBody

/-!
# Http.StreamRead

The readers of `http/read.hpp` and `http/vector_body.cpp` over an `fdstream`: the loops are those
over lists of bytes, with `is.get` in the place of the list.

A stream gives its reader the bytes in front of its first chunk that starts with 0xFF, and the
readers make of the stream what they make of these bytes (`readHeaderFrom_sim`,
`readBodyFrom_sim`).
-/

namespace SimpleWeb

open ScanLoop

namespace Istream

/-- `is.get((char&)ch)` -/
def getByte (s : Istream) : Option UInt8 × Istream := (seen s.get.1, s.get.2)

/-- Pending bytes and the bytes of the chunks still to come. -/
def remaining (s : Istream) : Nat := (s.buf.egptr - s.buf.gptr) + s.chunks.flatten.length

end Istream

namespace Http

def readHeaderLineFrom (buffer : Bytes) (is : Istream) (par : Parser) :
    Option (ParserEc × Parser × Istream) :=
  match loopFrom Istream.getByte lineGuard lineBody (is.remaining + 1)
      ⟨.start, buffer, 0, 0, false, par⟩ is with
  | .done s rest =>
    some (.ok, { s.par with message := { s.par.message with version := s.httpVersion } }, rest)
  | .ret ec s rest => some (ec, s.par, rest)
  | .fault => none

def readFieldsFrom (fieldname fieldvalue : Bytes) (is : Istream) (par : Parser) :
    Option (ParserEc × Parser × Istream) :=
  match loopFrom Istream.getByte headerGuard headerBody (is.remaining + 1)
      ⟨.start, fieldname, fieldvalue, 0, par⟩ is with
  | .done s rest => some (.ok, s.par, rest)
  | .ret ec s rest => some (ec, s.par, rest)
  | .fault => none

def readHeaderFrom (st : Stack) (is : Istream) (par : Parser) :
    Option (ParserEc × Parser × Istream) :=
  match readHeaderLineFrom st.buffer is par with
  | some (.ok, par, rest) => readFieldsFrom st.fieldname st.fieldvalue rest par
  | r => r

/-- `vector_body<reqargs>::read` -/
def VectorBody.readFrom (name value : Bytes) (is : Istream) (body : List ReqArg) :
    Option (Int × List ReqArg × Istream) :=
  match loopFrom Istream.getByte argGuard argBody (is.remaining + 1)
      ⟨.name, name, value, 0, 0, body⟩ is with
  | .done s rest => some (s.totalsize, s.body, rest)
  | .ret n s rest => some (n, s.body, rest)
  | .fault => none

/-- `read_body` with a list of arguments: a query string is read in the place of the stream. -/
def readBodyFrom (name value : Bytes) (is : Istream) (par : Parser) (body : List ReqArg) :
    Option (Int × List ReqArg × Istream) :=
  match par.querystr with
  | none => (VectorBody.readFrom name value is body).map fun (_, b, rest) => (0, b, rest)
  | some q => (VectorBody.read name value q body).map fun (_, b, _) => (0, b, is)

end Http

/-! ## What a stream gives -/

namespace Istream

variable {s : Istream}

theorem underflow_chunks (s : Istream) : s.underflow.2.chunks <:+ s.chunks := by
  unfold underflow
  split
  · exact List.suffix_refl _
  · split
    · exact List.suffix_refl _
    · rename_i chunk chunks h
      rw [h]
      exact List.suffix_cons chunk chunks

theorem uflow_chunks (s : Istream) : s.uflow.2.chunks <:+ s.chunks := by
  have hunder := underflow_chunks s
  unfold uflow
  generalize s.underflow = r at hunder
  by_cases hc : r.1 = EOF
  · simp only [hc, if_true]
    exact hunder
  · simp only [hc, if_false]
    exact hunder

theorem setEof_chunks (r : Int × Istream) : (setEof r).2.chunks = r.2.chunks := by
  unfold setEof
  split <;> rfl

theorem get_chunks (s : Istream) : s.get.2.chunks <:+ s.chunks := by
  unfold Istream.get
  split
  · rw [setEof_chunks, sbumpc]
    split
    · exact List.suffix_refl _
    · exact uflow_chunks s
  · exact List.suffix_refl _

theorem peek_chunks (s : Istream) : s.peek.2.chunks <:+ s.chunks := by
  unfold Istream.peek
  split
  · rw [setEof_chunks, sgetc]
    split
    · exact List.suffix_refl _
    · exact underflow_chunks s
  · exact List.suffix_refl _

/-- The stream gives `bytes` and is at its end behind them, and what it has not read is at the
end of `chunks`. -/
structure Yields (chunks tail : List Bytes) (s : Istream) (bytes : Bytes) : Prop where
  delivers : Delivers s tail bytes ∨ (bytes = [] ∧ s.good = false)
  suffix : s.chunks <:+ chunks

variable {chunks tail : List Bytes} {bytes : Bytes}

theorem Delivers.length_le (h : Delivers s tail bytes) : bytes.length ≤ s.remaining := by
  obtain ⟨-, -, pre, hchunks, -, rfl⟩ := h
  have hpending : s.buf.pending.length ≤ s.buf.egptr - s.buf.gptr := by
    rw [Fdbuf.pending, List.length_take]
    exact Nat.min_le_left _ _
  rw [remaining, hchunks, List.flatten_append, List.length_append, List.length_append]
  omega

theorem Yields.length_lt (h : Yields chunks tail s bytes) : bytes.length < s.remaining + 1 := by
  rcases h.delivers with hd | ⟨rfl, -⟩
  · exact Nat.lt_succ_of_le hd.length_le
  · exact Nat.succ_pos _

theorem gives_yields (hstop : Stops tail) : Gives getByte (Yields chunks tail) where
  cons := by
    intro s c cs h
    rcases h.delivers with hd | ⟨hnil, -⟩
    · obtain ⟨hget, hd'⟩ := hd.get
      refine ⟨s.get.2, ?_, .inl hd', s.get_chunks.trans h.suffix⟩
      rw [getByte, hget, seen_toIntType]
    · cases hnil
  nil := by
    intro s h
    have hend : s.get.1 = EOF ∧ s.get.2.good = false := by
      rcases h.delivers with hd | ⟨-, hclosed⟩
      · exact hd.stop hstop .get
      · simp [Istream.get, hclosed]
    refine ⟨s.get.2, ?_, .inr ⟨rfl, hend.2⟩, s.get_chunks.trans h.suffix⟩
    rw [getByte, hend.1]
    rfl

end Istream

/-! ## The readers -/

namespace Http

open Istream

/-- Two results that agree in what they read, when the one stream gives what the other is. -/
def SameRead {β γ : Type} (R : Istream → Bytes → Prop) (r : β × γ × Istream) (r' : β × γ × Bytes) :
    Prop :=
  r.1 = r'.1 ∧ r.2.1 = r'.2.1 ∧ R r.2.2 r'.2.2

/-- What a stream is read to, its bytes are read to. -/
theorem sameRead_some {β γ : Type} {R : Istream → Bytes → Prop} {o : Option (β × γ × Istream)}
    {o' : Option (β × γ × Bytes)} (hsim : Option.Rel (SameRead R) o o') {b : β} {c : γ}
    {is : Istream} (h : o = some (b, c, is)) : ∃ rest, o' = some (b, c, rest) ∧ R is rest := by
  subst h
  cases hsim with
  | @some _ r' hrel =>
    obtain ⟨b', c', rest⟩ := r'
    obtain ⟨rfl, rfl, hrest⟩ := hrel
    exact ⟨rest, rfl, hrest⟩

variable {chunks tail : List Bytes} {is : Istream} {bytes : Bytes}

theorem readHeaderLineFrom_sim (hstop : Stops tail) (h : Yields chunks tail is bytes)
    (buffer : Bytes) (par : Parser) :
    Option.Rel (SameRead (Yields chunks tail)) (readHeaderLineFrom buffer is par)
      (readHeaderLine buffer bytes par) := by
  have hsim := loopFrom_sim (gives_yields hstop) lineGuard lineBody bytes
    ⟨.start, buffer, 0, 0, false, par⟩ h.length_lt h
  unfold readHeaderLineFrom readHeaderLine
  generalize loopFrom _ _ _ _ _ _ = r at hsim
  generalize loop _ _ _ _ = r' at hsim
  cases hsim with
  | done hrest => exact .some ⟨rfl, rfl, hrest⟩
  | ret hrest => exact .some ⟨rfl, rfl, hrest⟩
  | fault => exact .none

theorem readFieldsFrom_sim (hstop : Stops tail) (h : Yields chunks tail is bytes)
    (fieldname fieldvalue : Bytes) (par : Parser) :
    Option.Rel (SameRead (Yields chunks tail)) (readFieldsFrom fieldname fieldvalue is par)
      (readFields fieldname fieldvalue bytes par) := by
  have hsim := loopFrom_sim (gives_yields hstop) headerGuard headerBody bytes
    ⟨.start, fieldname, fieldvalue, 0, par⟩ h.length_lt h
  unfold readFieldsFrom readFields
  generalize loopFrom _ _ _ _ _ _ = r at hsim
  generalize loop _ _ _ _ = r' at hsim
  cases hsim with
  | done hrest => exact .some ⟨rfl, rfl, hrest⟩
  | ret hrest => exact .some ⟨rfl, rfl, hrest⟩
  | fault => exact .none

/-- `read_header` makes of a stream what it makes of the bytes the stream gives. -/
theorem readHeaderFrom_sim (hstop : Stops tail) (h : Yields chunks tail is bytes) (st : Stack)
    (par : Parser) :
    Option.Rel (SameRead (Yields chunks tail)) (readHeaderFrom st is par)
      (readHeader st bytes par) := by
  have hsim := readHeaderLineFrom_sim hstop h st.buffer par
  unfold readHeaderFrom readHeader
  generalize readHeaderLineFrom _ _ _ = r at hsim
  generalize readHeaderLine _ _ _ = r' at hsim
  cases hsim with
  | none => exact .none
  | @some r r' hrel =>
    obtain ⟨ec, p, i⟩ := r
    obtain ⟨ec', p', rest⟩ := r'
    obtain ⟨rfl, rfl, hrest⟩ := hrel
    cases ec with
    | ok => exact readFieldsFrom_sim hstop hrest _ _ _
    | invalidMethod => exact .some ⟨rfl, rfl, hrest⟩
    | invalidRequest => exact .some ⟨rfl, rfl, hrest⟩
    | invalidHeader => exact .some ⟨rfl, rfl, hrest⟩

theorem VectorBody.readFrom_sim (hstop : Stops tail) (h : Yields chunks tail is bytes)
    (name value : Bytes) (body : List ReqArg) :
    Option.Rel (SameRead (Yields chunks tail)) (readFrom name value is body)
      (VectorBody.read name value bytes body) := by
  have hsim := loopFrom_sim (gives_yields hstop) argGuard argBody bytes
    ⟨.name, name, value, 0, 0, body⟩ h.length_lt h
  unfold VectorBody.readFrom VectorBody.read
  generalize loopFrom _ _ _ _ _ _ = r at hsim
  generalize loop _ _ _ _ = r' at hsim
  cases hsim with
  | done hrest => exact .some ⟨rfl, rfl, hrest⟩
  | ret hrest => exact .some ⟨rfl, rfl, hrest⟩
  | fault => exact .none

theorem readBodyFrom_sim (hstop : Stops tail) (h : Yields chunks tail is bytes)
    (name value : Bytes) (par : Parser) (body : List ReqArg) :
    Option.Rel (SameRead (Yields chunks tail)) (readBodyFrom name value is par body)
      (readBody (VectorBody.read name value) bytes par body) := by
  unfold readBodyFrom readBody
  cases par.querystr with
  | none =>
    have hsim := VectorBody.readFrom_sim hstop h name value body
    simp only []
    generalize VectorBody.readFrom _ _ _ _ = r at hsim
    generalize VectorBody.read _ _ _ _ = r' at hsim
    cases hsim with
    | none => exact .none
    | some hrel => exact .some ⟨rfl, hrel.2.1, hrel.2.2⟩
  | some q =>
    simp only []
    cases VectorBody.read name value q body with
    | none => exact .none
    | some r => exact .some ⟨rfl, rfl, h⟩

/-! ## The state of the stream -/

end Http

namespace Istream

variable {s s' : Istream} {c : UInt8}

theorem underflow_good (s : Istream) : s.underflow.2.good = s.good := by
  unfold underflow
  split
  · rfl
  · split <;> rfl

theorem sbumpc_good (s : Istream) : s.sbumpc.2.good = s.good := by
  have hunder := s.underflow_good
  unfold sbumpc
  split
  · rfl
  · unfold uflow
    generalize s.underflow = r at hunder
    by_cases hc : r.1 = EOF
    · simp only [hc, if_true]
      exact hunder
    · simp only [hc, if_false]
      exact hunder

theorem getByte_good (hgood : s.good = true) (h : s.getByte = (some c, s')) : s'.good = true := by
  have hs : s.get.2 = s' := congrArg Prod.snd h
  have hne : s.get.1 ≠ EOF := by
    intro heof
    have hnone : seen s.get.1 = some c := congrArg Prod.fst h
    rw [heof] at hnone
    cases hnone
  rw [Istream.get, if_pos hgood] at hs hne
  have hbump : s.sbumpc.1 ≠ EOF := by
    intro heof
    rw [setEof, if_pos heof] at hne
    exact hne rfl
  rw [setEof_of_ne hbump] at hs
  rw [← hs, sbumpc_good, hgood]

theorem getByte_failed (h : s.getByte = (none, s')) : s'.good = false := by
  have hs : s.get.2 = s' := congrArg Prod.snd h
  have heof : s.get.1 = EOF := by
    by_contra hne
    have hnone : seen s.get.1 = none := congrArg Prod.fst h
    rw [seen, if_neg hne] at hnone
    cases hnone
  rw [← hs]
  by_cases hgood : s.good = true
  · rw [Istream.get, if_pos hgood] at heof ⊢
    have hbump : s.sbumpc.1 = EOF := by
      by_contra hne
      rw [setEof_of_ne hne] at heof
      exact hne heof
    rw [setEof, if_pos hbump]
  · rw [Istream.get, if_neg hgood]
    exact Bool.eq_false_of_not_eq_true hgood

/-- A stream is good behind a loop unless that has found its end. -/
theorem loopFrom_good {ε σ : Type} (guard : σ → Bool) (body : UInt8 → σ → Pass ε σ) (fuel : Nat)
    {v : σ} (hgood : s.good = true) :
    ∀ s' ∈ (loopFrom getByte guard body fuel v s).source,
      s'.good = !(loopFrom getByte guard body fuel v s).starved guard :=
  loopFrom_alive getByte_good getByte_failed guard body fuel hgood

end Istream

namespace Http

open Istream

variable {chunks tail : List Bytes} {is : Istream} {bytes : Bytes}

/-- Behind a complete head the fields' loop has not come to the end of the stream. -/
theorem readFieldsFrom_good {fieldname fieldvalue : Bytes} {par par' : Parser} {ec : ParserEc}
    {is' : Istream} (hgood : is.good = true)
    (h : readFieldsFrom fieldname fieldvalue is par = some (ec, par', is'))
    (hdone : par'.headerDone = true) : is'.good = true := by
  have halive := loopFrom_good headerGuard headerBody (is.remaining + 1)
    (v := ⟨.start, fieldname, fieldvalue, 0, par⟩) hgood
  unfold readFieldsFrom at h
  split at h
  · rename_i s rest hloop
    cases h
    rw [halive is' (by rw [hloop]; rfl), hloop, SourceExit.starved, headerGuard, hdone]
    rfl
  · rename_i ec s rest hloop
    cases h
    rw [halive is' (by rw [hloop]; rfl), hloop]
    rfl
  · cases h

/-- Behind a request line that something follows the stream is good. -/
theorem readHeaderLineFrom_good {buffer rest : Bytes} {par par' : Parser} {ec : ParserEc}
    {is' : Istream} (hstop : Stops tail) (hy : Yields chunks tail is bytes)
    (hgood : is.good = true) (h : readHeaderLineFrom buffer is par = some (ec, par', is'))
    (hline : readHeaderLine buffer bytes par = some (ec, par', rest)) (hne : rest ≠ []) :
    is'.good = true := by
  have hsim := loopFrom_sim (gives_yields hstop) lineGuard lineBody bytes
    ⟨.start, buffer, 0, 0, false, par⟩ hy.length_lt hy
  have halive := loopFrom_good lineGuard lineBody (is.remaining + 1)
    (v := ⟨.start, buffer, 0, 0, false, par⟩) hgood
  have hstarved : (loop lineGuard lineBody ⟨.start, buffer, 0, 0, false, par⟩ bytes).starved
      lineGuard = false := by
    refine Bool.eq_false_of_not_eq_true ?_
    rw [starved_iff]
    rintro ⟨t, hr, -⟩
    rw [readHeaderLine, loop_end hr] at hline
    cases hline
    exact hne rfl
  rw [hsim.starved_eq, hstarved] at halive
  refine halive is' ?_
  unfold readHeaderLineFrom at h
  split at h
  · rename_i s is'' hloop
    cases h
    rw [hloop]
    rfl
  · rename_i ec s is'' hloop
    cases h
    rw [hloop]
    rfl
  · cases h

/-- What the arguments leave of the stream. -/
theorem readBodyFrom_good {name value : Bytes} {par : Parser} {n : Int} {body : List ReqArg}
    {is' : Istream} (hstop : Stops tail) (hy : Yields chunks tail is bytes)
    (hgood : is.good = true) (h : readBodyFrom name value is par [] = some (n, body, is')) :
    is'.good = !VectorBody.bodyStarves name value bytes par := by
  unfold readBodyFrom at h
  unfold VectorBody.bodyStarves
  cases hquery : par.querystr with
  | some q =>
    rw [hquery] at h
    obtain ⟨r, -, heq⟩ := Option.map_eq_some_iff.mp h
    cases heq
    rw [hgood]
    rfl
  | none =>
    rw [hquery] at h
    obtain ⟨⟨m, b, rest⟩, hread, heq⟩ := Option.map_eq_some_iff.mp h
    cases heq
    have hsim := loopFrom_sim (gives_yields hstop) VectorBody.argGuard VectorBody.argBody bytes
      ⟨.name, name, value, 0, 0, []⟩ hy.length_lt hy
    have halive := loopFrom_good VectorBody.argGuard VectorBody.argBody (is.remaining + 1)
      (v := ⟨.name, name, value, 0, 0, []⟩) hgood
    unfold VectorBody.starves
    rw [← hsim.starved_eq, Option.isNone_none, Bool.true_and]
    refine halive is' ?_
    unfold VectorBody.readFrom at hread
    split at hread
    · rename_i s rest hloop
      cases hread
      rw [hloop]
      rfl
    · rename_i k s rest hloop
      cases hread
      rw [hloop]
      rfl
    · cases hread

end Http
end SimpleWeb
