import SimpleWeb.Utils

/-!
# SimpleWeb.Fdstream

The read side of `fdstream.hpp`: a stream buffer over a descriptor, refilled by `underflow`, and
the standard functions of `std::streambuf` and `std::istream` that draw on it. Results of
`read(2)` are a list of chunks; behind the last one `read` gives 0 or -1.

The pending bytes and the chunks still to come are what a stream has to deliver (`Delivers`), and
`get` and `peek` deliver it byte by byte as long as no refill starts with the byte 0xFF, which
`underflow` returns as a negative `char` that reads as `EOF` (`outputs_iff`).
-/

namespace SimpleWeb

open CArray

def pbSize : Nat := 4
def bufSize : Nat := 1024

def EOF : Int := -1

/-- `*gptr()` as an `int`: `char` is signed. -/
def charToInt (c : UInt8) : Int := if c < 128 then c.toNat else c.toNat - 256

/-- `traits::to_int_type` -/
def toIntType (c : UInt8) : Int := c.toNat

/-- The pointers are indices into the buffer. -/
structure Fdbuf where
  buffer : Bytes
  eback : Nat
  gptr : Nat
  egptr : Nat

/-- A buffer over memory of any content. -/
def Fdbuf.init (buffer : Bytes) : Fdbuf := ⟨buffer, pbSize, pbSize, pbSize⟩

def Fdbuf.current (s : Fdbuf) : UInt8 := s.buffer.getD s.gptr 0

/-- An fdstream as a source of bytes. -/
structure Istream where
  buf : Fdbuf
  chunks : List Bytes
  good : Bool

namespace Istream

def init (buffer : Bytes) (chunks : List Bytes) : Istream := ⟨.init buffer, chunks, true⟩

def numPutback (s : Istream) : Nat := min (s.buf.gptr - s.buf.eback) pbSize

/-- The bytes kept for putback, moved in front of the place `read` writes to. -/
def keepPutback (s : Istream) : Istream :=
  { s with buf := { s.buf with
      buffer :=
        copy s.buf.buffer (pbSize - s.numPutback) (s.buf.gptr - s.numPutback) s.numPutback } }

/-- The buffer after `read` has delivered a chunk. -/
def refill (s : Istream) (chunk : Bytes) (chunks : List Bytes) : Istream :=
  { s with
    buf := ⟨overwrite s.keepPutback.buf.buffer pbSize chunk, pbSize - s.numPutback, pbSize,
      pbSize + chunk.length⟩
    chunks := chunks }

def underflow (s : Istream) : Int × Istream :=
  if s.buf.gptr < s.buf.egptr then (charToInt s.buf.current, s)
  else match s.chunks with
    | [] => (EOF, s.keepPutback)
    | chunk :: chunks =>
      let s := s.refill chunk chunks
      (charToInt s.buf.current, s)

def bump (s : Istream) : Istream := { s with buf := { s.buf with gptr := s.buf.gptr + 1 } }

/-- `std::streambuf::uflow` -/
def uflow (s : Istream) : Int × Istream :=
  let (c, s) := s.underflow
  if c = EOF then (EOF, s) else (toIntType s.buf.current, s.bump)

def sbumpc (s : Istream) : Int × Istream :=
  if s.buf.gptr < s.buf.egptr then (toIntType s.buf.current, s.bump) else s.uflow

def sgetc (s : Istream) : Int × Istream :=
  if s.buf.gptr < s.buf.egptr then (toIntType s.buf.current, s) else s.underflow

/-- An end of file leaves the stream in a state in which nothing more is read. -/
def setEof (r : Int × Istream) : Int × Istream :=
  if r.1 = EOF then (EOF, { r.2 with good := false }) else r

def get (s : Istream) : Int × Istream := if s.good then setEof s.sbumpc else (EOF, s)

def peek (s : Istream) : Int × Istream := if s.good then setEof s.sgetc else (EOF, s)

end Istream

inductive StreamOp where
  | get
  | peek
  deriving DecidableEq, Repr

/-- The byte a result stands for; none for `EOF`. -/
def seen (c : Int) : Option UInt8 := if c = EOF then none else some (UInt8.ofInt c)

def Istream.step (s : Istream) : StreamOp → Int × Istream
  | .get => s.get
  | .peek => s.peek

def Istream.outputs (s : Istream) : List StreamOp → List (Option UInt8)
  | [] => []
  | op :: ops => seen (s.step op).1 :: (s.step op).2.outputs ops

/-- What the operations should see of a sequence of bytes. -/
def byteOutputs : Bytes → List StreamOp → List (Option UInt8)
  | _, [] => []
  | bytes, .get :: ops => bytes.head? :: byteOutputs bytes.tail ops
  | bytes, .peek :: ops => bytes.head? :: byteOutputs bytes ops

/-! ## Pending bytes -/

structure Fdbuf.Wf (s : Fdbuf) : Prop where
  size : s.buffer.length = bufSize + pbSize
  eback_le : s.eback ≤ s.gptr
  gptr_le : s.gptr ≤ s.egptr
  egptr_le : s.egptr ≤ bufSize + pbSize

def Fdbuf.pending (s : Fdbuf) : Bytes := (s.buffer.drop s.gptr).take (s.egptr - s.gptr)

theorem seen_toIntType (c : UInt8) : seen (toIntType c) = some c := by
  revert c; decide +kernel

theorem seen_charToInt {c : UInt8} (h : c ≠ 0xFF) :
    charToInt c ≠ EOF ∧ seen (charToInt c) = some c := by
  revert c; decide +kernel

theorem charToInt_last : charToInt 0xFF = EOF := by decide

theorem toIntType_ne (c : UInt8) : toIntType c ≠ EOF := by
  revert c; decide +kernel

namespace Istream

variable {s : Istream}

theorem numPutback_le (h : s.buf.Wf) :
    s.numPutback ≤ pbSize ∧ s.numPutback ≤ s.buf.gptr := by
  have heback := h.eback_le
  unfold numPutback
  omega

theorem keepPutback_wf (h : s.buf.Wf) : s.keepPutback.buf.Wf := by
  obtain ⟨hpb, hg⟩ := numPutback_le h
  refine ⟨?_, h.eback_le, h.gptr_le, h.egptr_le⟩
  have hsize := h.size
  show (copy s.buf.buffer _ _ _).length = _
  rw [length_copy (by omega), hsize]

theorem refill_wf (h : s.buf.Wf) {chunk : Bytes} (hlen : chunk.length ≤ bufSize)
    (chunks : List Bytes) : (s.refill chunk chunks).buf.Wf := by
  have hsize := (keepPutback_wf h).size
  refine ⟨?_, Nat.sub_le _ _, Nat.le_add_right _ _, ?_⟩
  · show (overwrite s.keepPutback.buf.buffer _ _).length = _
    rw [length_overwrite (by omega), hsize]
  · show pbSize + chunk.length ≤ _
    omega

/-- After a refill the chunk is pending, whatever was kept in front of it. -/
theorem refill_pending (h : s.buf.Wf) (chunk : Bytes) (chunks : List Bytes) :
    (s.refill chunk chunks).buf.pending = chunk := by
  have hsize := (keepPutback_wf h).size
  have hsub : pbSize + chunk.length - pbSize = chunk.length := by omega
  show ((overwrite s.keepPutback.buf.buffer pbSize chunk).drop pbSize).take
    (pbSize + chunk.length - pbSize) = chunk
  rw [hsub, take_drop_overwrite (by omega)]

theorem bump_wf (h : s.buf.Wf) (hlt : s.buf.gptr < s.buf.egptr) : s.bump.buf.Wf :=
  ⟨h.size, Nat.le_succ_of_le h.eback_le, hlt, h.egptr_le⟩

/-- The next pending byte is the one at the pointer. -/
theorem pending_cons (h : s.buf.Wf) (hlt : s.buf.gptr < s.buf.egptr) :
    s.buf.pending = s.buf.current :: s.bump.buf.pending := by
  have hidx : s.buf.gptr < s.buf.buffer.length := by
    have hsize := h.size
    have hegptr := h.egptr_le
    omega
  have hcur : s.buf.current = s.buf.buffer[s.buf.gptr] := by
    simp [Fdbuf.current, hidx]
  have hsub : s.buf.egptr - s.buf.gptr = (s.buf.egptr - (s.buf.gptr + 1)) + 1 := by omega
  show (s.buf.buffer.drop s.buf.gptr).take (s.buf.egptr - s.buf.gptr) =
    s.buf.current :: (s.buf.buffer.drop (s.buf.gptr + 1)).take (s.buf.egptr - (s.buf.gptr + 1))
  rw [List.drop_eq_getElem_cons hidx, hsub, List.take_succ_cons, hcur]

theorem pending_nil (hge : ¬ s.buf.gptr < s.buf.egptr) : s.buf.pending = [] := by
  have hsub : s.buf.egptr - s.buf.gptr = 0 := by omega
  rw [Fdbuf.pending, hsub, List.take_zero]

/-! ## Delivery -/

def Clean (chunk : Bytes) : Prop :=
  chunk ≠ [] ∧ chunk.length ≤ bufSize ∧ chunk.head? ≠ some 0xFF

/-- The stream has `bytes` to deliver before it comes to the chunks of `tail`. -/
structure Delivers (s : Istream) (tail : List Bytes) (bytes : Bytes) : Prop where
  good : s.good = true
  wf : s.buf.Wf
  split : ∃ pre, s.chunks = pre ++ tail ∧ (∀ c ∈ pre, Clean c) ∧
    bytes = s.buf.pending ++ pre.flatten

variable {tail : List Bytes} {b : UInt8} {bytes : Bytes}

theorem Delivers.bump (h : Delivers s tail (b :: bytes)) (hlt : s.buf.gptr < s.buf.egptr) :
    s.buf.current = b ∧ Delivers s.bump tail bytes := by
  obtain ⟨hgood, hwf, pre, hchunks, hclean, hbytes⟩ := h
  rw [pending_cons hwf hlt, List.cons_append, List.cons.injEq] at hbytes
  exact ⟨hbytes.1.symm, hgood, bump_wf hwf hlt, pre, hchunks, hclean, hbytes.2⟩

/-- Without pending bytes the next one starts a chunk, and is not 0xFF. -/
theorem Delivers.refill (h : Delivers s tail (b :: bytes)) (hge : ¬ s.buf.gptr < s.buf.egptr) :
    ∃ chunk chunks, s.chunks = chunk :: chunks ∧ b ≠ 0xFF ∧
      (s.refill chunk chunks).buf.gptr < (s.refill chunk chunks).buf.egptr ∧
      Delivers (s.refill chunk chunks) tail (b :: bytes) := by
  obtain ⟨hgood, hwf, pre, hchunks, hclean, hbytes⟩ := h
  rw [pending_nil hge, List.nil_append] at hbytes
  cases pre with
  | nil => cases hbytes
  | cons chunk pre =>
    obtain ⟨hne, hlen, hhead⟩ := hclean chunk (by simp)
    have hwf' := refill_wf hwf hlen (pre ++ tail)
    have hpos := List.length_pos_iff.mpr hne
    have hlt : pbSize < pbSize + chunk.length := by omega
    have hb : chunk.head? = some b := by
      cases chunk with
      | nil => exact absurd rfl hne
      | cons c t => simp at hbytes; simp [hbytes.1]
    refine ⟨chunk, pre ++ tail, hchunks, fun heq => hhead (heq ▸ hb), hlt, hgood, hwf', pre, rfl,
      fun c hc => hclean c (by simp [hc]), ?_⟩
    rw [refill_pending hwf]
    simpa using hbytes

theorem setEof_of_ne {r : Int × Istream} (h : r.1 ≠ EOF) : setEof r = r := if_neg h

theorem Delivers.get (h : Delivers s tail (b :: bytes)) :
    s.get.1 = toIntType b ∧ Delivers s.get.2 tail bytes := by
  by_cases hlt : s.buf.gptr < s.buf.egptr
  · obtain ⟨hb, hd⟩ := h.bump hlt
    have hget : s.get = (toIntType b, s.bump) := by
      rw [Istream.get, if_pos h.good, sbumpc, if_pos hlt, hb, setEof_of_ne (toIntType_ne b)]
    rw [hget]
    exact ⟨rfl, hd⟩
  · obtain ⟨chunk, chunks, hchunks, hne, hlt', hr⟩ := h.refill hlt
    obtain ⟨hb, hd⟩ := hr.bump hlt'
    have hget : s.get = (toIntType b, (s.refill chunk chunks).bump) := by
      have hchar := (seen_charToInt hne).1
      rw [Istream.get, if_pos h.good, sbumpc, if_neg hlt, uflow, underflow, if_neg hlt, hchunks]
      simp only [hb, if_neg hchar]
      rw [setEof_of_ne (toIntType_ne b)]
    rw [hget]
    exact ⟨rfl, hd⟩

theorem Delivers.peek (h : Delivers s tail (b :: bytes)) :
    seen s.peek.1 = some b ∧ Delivers s.peek.2 tail (b :: bytes) := by
  by_cases hlt : s.buf.gptr < s.buf.egptr
  · obtain ⟨hb, -⟩ := h.bump hlt
    have hpeek : s.peek = (toIntType b, s) := by
      rw [Istream.peek, if_pos h.good, sgetc, if_pos hlt, hb, setEof_of_ne (toIntType_ne b)]
    rw [hpeek]
    exact ⟨seen_toIntType b, h⟩
  · obtain ⟨chunk, chunks, hchunks, hne, hlt', hr⟩ := h.refill hlt
    obtain ⟨hb, -⟩ := hr.bump hlt'
    have hchar := seen_charToInt hne
    have hpeek : s.peek = (charToInt b, s.refill chunk chunks) := by
      rw [Istream.peek, if_pos h.good, sgetc, if_neg hlt, underflow, if_neg hlt, hchunks]
      simp only [hb]
      exact setEof_of_ne hchar.1
    rw [hpeek]
    exact ⟨hchar.2, hr⟩

/-- The chunk at which delivery stops, if there is one, starts with 0xFF. -/
def Stops (tail : List Bytes) : Prop :=
  ∀ chunk ∈ tail.head?, chunk.length ≤ bufSize ∧ chunk.head? = some 0xFF

theorem Delivers.underflow (h : Delivers s tail []) (hstop : Stops tail) :
    ¬ s.buf.gptr < s.buf.egptr ∧ s.underflow.1 = EOF := by
  obtain ⟨-, hwf, pre, hchunks, hclean, hbytes⟩ := h
  obtain ⟨hpending, hpre⟩ := List.append_eq_nil_iff.mp hbytes.symm
  have hge : ¬ s.buf.gptr < s.buf.egptr := by
    intro hlt
    rw [pending_cons hwf hlt] at hpending
    cases hpending
  have hnil : pre = [] := by
    cases pre with
    | nil => rfl
    | cons c pre =>
      have hc := (hclean c (by simp)).1
      simp [hc] at hpre
  refine ⟨hge, ?_⟩
  rw [hnil, List.nil_append] at hchunks
  rw [Istream.underflow, if_neg hge, hchunks]
  cases tail with
  | nil => rfl
  | cons chunk tail =>
    obtain ⟨hlen, hhead⟩ := hstop chunk rfl
    have hpos : 0 < chunk.length := by
      cases chunk with
      | nil => cases hhead
      | cons c t => simp
    have hlt : pbSize < pbSize + chunk.length := by omega
    have hcons := pending_cons (refill_wf hwf hlen tail) hlt
    rw [refill_pending hwf] at hcons
    rw [hcons] at hhead
    have hcur : (s.refill chunk tail).buf.current = 0xFF := Option.some.inj hhead
    simp only [hcur]
    exact charToInt_last

/-- At the stop both operations see the end of the file, and close the stream. -/
theorem Delivers.stop (h : Delivers s tail []) (hstop : Stops tail) (op : StreamOp) :
    (s.step op).1 = EOF ∧ (s.step op).2.good = false := by
  obtain ⟨hge, heof⟩ := h.underflow hstop
  cases op with
  | get =>
    have huflow : s.uflow.1 = EOF := by
      rw [uflow]
      simp only [heof, if_true]
    rw [step, Istream.get, if_pos h.good, sbumpc, if_neg hge, setEof, if_pos huflow]
    exact ⟨rfl, rfl⟩
  | peek =>
    rw [step, Istream.peek, if_pos h.good, sgetc, if_neg hge, setEof, if_pos heof]
    exact ⟨rfl, rfl⟩

theorem outputs_closed (h : s.good = false) (ops : List StreamOp) :
    s.outputs ops = byteOutputs [] ops := by
  induction ops with
  | nil => rfl
  | cons op ops ih =>
    have hstep : s.step op = (EOF, s) := by
      cases op with
      | get => simp [step, Istream.get, h]
      | peek => simp [step, Istream.peek, h]
    cases op with
    | get => rw [outputs, hstep, byteOutputs, ih]; rfl
    | peek => rw [outputs, hstep, byteOutputs, ih]; rfl

theorem Delivers.outputs (hstop : Stops tail) (ops : List StreamOp) :
    ∀ {s : Istream} {bytes : Bytes}, Delivers s tail bytes →
      s.outputs ops = byteOutputs bytes ops := by
  induction ops with
  | nil => intro s bytes _; rfl
  | cons op ops ih =>
    intro s bytes h
    cases bytes with
    | nil =>
      obtain ⟨heof, hclosed⟩ := h.stop hstop op
      rw [Istream.outputs, heof, outputs_closed hclosed]
      cases op with
      | get => rfl
      | peek => rfl
    | cons b bytes =>
      cases op with
      | get =>
        obtain ⟨hb, hd⟩ := h.get
        rw [Istream.outputs, step, hb, seen_toIntType, ih hd]
        rfl
      | peek =>
        obtain ⟨hb, hd⟩ := h.peek
        rw [Istream.outputs, step, hb, ih hd]
        rfl

/-! ## What a stream delivers -/

def isClean (chunk : Bytes) : Bool := chunk.head? != some 0xFF

variable {buffer : Bytes} {chunks : List Bytes}

theorem init_delivers (hsize : buffer.length = bufSize + pbSize)
    (hchunks : ∀ c ∈ chunks, 1 ≤ c.length ∧ c.length ≤ bufSize) :
    Delivers (init buffer chunks) (chunks.dropWhile isClean)
      (chunks.takeWhile isClean).flatten := by
  refine ⟨rfl, ⟨hsize, Nat.le_refl _, Nat.le_refl _, Nat.le_add_left _ _⟩, chunks.takeWhile isClean,
    List.takeWhile_append_dropWhile.symm, ?_, ?_⟩
  · intro c hc
    obtain ⟨hpos, hle⟩ := hchunks c ((List.takeWhile_sublist _).subset hc)
    refine ⟨List.length_pos_iff.mp hpos, hle, ?_⟩
    have hclean := List.mem_takeWhile_imp hc
    simpa [isClean] using hclean
  · rw [pending_nil (by simp [init, Fdbuf.init]), List.nil_append]

theorem dropWhile_stops (hchunks : ∀ c ∈ chunks, 1 ≤ c.length ∧ c.length ≤ bufSize) :
    Stops (chunks.dropWhile isClean) := by
  intro c hc
  have hmem := List.mem_of_mem_head? hc
  refine ⟨(hchunks c ((List.dropWhile_sublist _).subset hmem)).2, ?_⟩
  have hno := List.head?_dropWhile_not isClean chunks
  rw [hc] at hno
  simpa [isClean] using hno

/-- A stream delivers the chunks in front of the first one that starts with 0xFF. -/
theorem outputs_init (hsize : buffer.length = bufSize + pbSize)
    (hchunks : ∀ c ∈ chunks, 1 ≤ c.length ∧ c.length ≤ bufSize) (ops : List StreamOp) :
    (init buffer chunks).outputs ops = byteOutputs (chunks.takeWhile isClean).flatten ops :=
  (init_delivers hsize hchunks).outputs (dropWhile_stops hchunks) ops

theorem byteOutputs_get (n : Nat) :
    ∀ (bytes : Bytes) (m : Nat), n < m →
      (byteOutputs bytes (List.replicate m .get))[n]? = some bytes[n]? := by
  induction n with
  | zero =>
    intro bytes m hm
    cases m with
    | zero => omega
    | succ m => simp [List.replicate_succ, byteOutputs, List.head?_eq_getElem?]
  | succ n ih =>
    intro bytes m hm
    cases m with
    | zero => omega
    | succ m =>
      rw [List.replicate_succ, byteOutputs, List.getElem?_cons_succ, ih _ m (by omega),
        List.getElem?_tail]

/-- Bytes that look the same to every script are the same. -/
theorem byteOutputs_inj {bytes bytes' : Bytes}
    (h : ∀ ops, byteOutputs bytes ops = byteOutputs bytes' ops) : bytes = bytes' := by
  refine List.ext_getElem? ?_
  intro n
  have hn := congrArg (fun l => l[n]?) (h (List.replicate (n + 1) .get))
  simpa [byteOutputs_get n _ (n + 1) (Nat.lt_succ_self n)] using hn

/-- Every script of `get` and `peek` sees the concatenation of the chunks and then the end of the
file, exactly when no chunk starts with 0xFF. -/
theorem outputs_iff (buffer : Bytes) (hsize : buffer.length = bufSize + pbSize)
    (chunks : List Bytes) (hchunks : ∀ c ∈ chunks, 1 ≤ c.length ∧ c.length ≤ bufSize) :
    (∀ ops, (init buffer chunks).outputs ops = byteOutputs chunks.flatten ops) ↔
      ∀ c ∈ chunks, c.head? ≠ some 0xFF := by
  have hall : (∀ c ∈ chunks, c.head? ≠ some 0xFF) ↔ chunks.dropWhile isClean = [] := by
    rw [List.dropWhile_eq_nil_iff]
    simp [isClean]
  rw [hall]
  constructor
  · intro h
    have hflat : (chunks.takeWhile isClean).flatten = chunks.flatten :=
      byteOutputs_inj fun ops => (outputs_init hsize hchunks ops).symm.trans (h ops)
    have hsplit := congrArg List.flatten
      (List.takeWhile_append_dropWhile (p := isClean) (l := chunks))
    rw [List.flatten_append, ← hflat] at hsplit
    have hnil := List.append_right_eq_self.mp hsplit
    cases hd : chunks.dropWhile isClean with
    | nil => rfl
    | cons c rest =>
      have hmem : c ∈ chunks := (List.dropWhile_sublist isClean).subset (by rw [hd]; simp)
      have hpos := (hchunks c hmem).1
      rw [hd, List.flatten_cons] at hnil
      rw [(List.append_eq_nil_iff.mp hnil).1] at hpos
      simp at hpos
  · intro hd ops
    rw [outputs_init hsize hchunks]
    have hsplit := List.takeWhile_append_dropWhile (p := isClean) (l := chunks)
    rw [hd, List.append_nil] at hsplit
    rw [hsplit]

theorem outputs_iff_two :
    (∀ c ∈ [ascii "GET ", ascii "/ "], c.head? ≠ some 0xFF) ∧
      ∀ ops, (init (List.replicate (bufSize + pbSize) 0) [ascii "GET ", ascii "/ "]).outputs ops =
        byteOutputs [ascii "GET ", ascii "/ "].flatten ops := by
  have hclean : ∀ c ∈ [ascii "GET ", ascii "/ "], c.head? ≠ some 0xFF := by decide +kernel
  exact ⟨hclean, (outputs_iff (List.replicate (bufSize + pbSize) 0) List.length_replicate
    [ascii "GET ", ascii "/ "] (by decide +kernel)).mpr hclean⟩

/-- A refill that starts with 0xFF is the end of the file to its reader. -/
theorem outputs_last :
    (init (List.replicate (bufSize + pbSize) 0) [[65], [0xFF, 66]]).outputs [.get, .get, .get] =
        [some 65, none, none] ∧
      (init (List.replicate (bufSize + pbSize) 0) [[65], [0xFF, 66]]).outputs [.get, .get, .get] ≠
        byteOutputs [[65], [0xFF, 66]].flatten [.get, .get, .get] := by
  decide +kernel

end Istream

end SimpleWeb
