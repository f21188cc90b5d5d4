import SimpleWeb.Fdstream
import SimpleWeb.Lib.Lts

/-!
# SimpleWeb.Putback

The bytes an `fdbuf` keeps for putback. `underflow` moves the last ones in front of the place that
`read` writes to, with a `memcpy` of up to `pbSize` bytes, and only then reads.

* Behind a chunk of less than `pbSize` bytes the two ranges of the `memcpy` meet, unless it was the
  first one.
* A read that gives nothing leaves the pointers where they were, while the bytes in front of the
  chunk have been replaced.

What goes wrong is only this: `putback_iff`.
-/

namespace SimpleWeb

open CArray Lts

/-- A byte is taken at `gptr()`, or `underflow` is called, with what `read` gives it when it comes
to that. -/
inductive FdbufOp where
  | consume
  | underflow (chunk : Option Bytes)

/-- An fdbuf, and all the bytes that were taken from it. -/
structure Delivery where
  buf : Fdbuf
  delivered : Bytes

/-- The stream buffer as a source for one more read. -/
def Fdbuf.withRead (s : Fdbuf) (chunk : Option Bytes) : Istream := ⟨s, chunk.toList, true⟩

/-- A read gives from 1 to `bufSize` bytes, or fails. -/
def Given (chunk : Option Bytes) : Prop := ∀ c ∈ chunk, 1 ≤ c.length ∧ c.length ≤ bufSize

theorem given_iff {chunk : Option Bytes} :
    (chunk.all fun c => 1 ≤ c.length ∧ c.length ≤ bufSize) = true ↔ Given chunk := by
  cases chunk with
  | none => simp [Given]
  | some c => simp [Given]

instance (chunk : Option Bytes) : Decidable (Given chunk) := decidable_of_iff _ given_iff

namespace Delivery

def init (buffer : Bytes) : Delivery := ⟨.init buffer, []⟩

def step (s : Delivery) : FdbufOp → Option Delivery
  | .consume =>
    if s.buf.gptr < s.buf.egptr then
      some ⟨(s.buf.withRead none).bump.buf, s.delivered ++ [s.buf.current]⟩
    else none
  | .underflow chunk =>
    if Given chunk then some { s with buf := (s.buf.withRead chunk).underflow.2.buf } else none

end Delivery

/-- `numPutback` in `underflow` -/
def Fdbuf.numPutback (s : Fdbuf) : Nat := (s.withRead none).numPutback

/-- The bytes in `[eback(), gptr())`. -/
def Fdbuf.window (s : Fdbuf) : Bytes := slice s.buffer s.eback (s.gptr - s.eback)

/-- The bytes in front of the last chunk. -/
def Fdbuf.kept (s : Fdbuf) : Bytes := slice s.buffer s.eback (pbSize - s.eback)

/-- As many bytes, from the end of what was taken. -/
def Fdbuf.lastTaken (s : Fdbuf) : Bytes :=
  slice s.buffer (s.gptr - (pbSize - s.eback)) (pbSize - s.eback)

/-- No `memcpy` of the operation has a byte in both of its ranges. -/
def Apart (s : Delivery) : FdbufOp → Prop
  | .consume => True
  | .underflow _ => s.buf.gptr < s.buf.egptr ∨
      ¬ Overlap (pbSize - s.buf.numPutback) (s.buf.gptr - s.buf.numPutback) s.buf.numPutback

/-- Every `memcpy` is one of ranges that are apart, and in every state the bytes in front of
`gptr()` are the last that were taken. -/
structure PutbackSound (buffer : Bytes) (ops : List FdbufOp) : Prop where
  apart : Along Delivery.step Apart (.init buffer) ops
  window : ∀ pre s, pre <+: ops → run Delivery.step (.init buffer) pre = some s →
    s.buf.window <:+ s.delivered

/-- Nothing is read for, or nothing is kept so far, or the last chunk has `pbSize` bytes at least;
and then, if nothing is given, what is kept is the same as the end of what was taken. -/
def Keeps (s : Delivery) : FdbufOp → Prop
  | .consume => True
  | .underflow chunk => s.buf.gptr < s.buf.egptr ∨ s.buf.eback = pbSize ∨
      (pbSize + pbSize ≤ s.buf.gptr ∧ (chunk = none → s.buf.kept = s.buf.lastTaken))

instance (s : Delivery) : (op : FdbufOp) → Decidable (Keeps s op)
  | .consume => .isTrue trivial
  | .underflow _ => inferInstanceAs (Decidable (_ ∨ _ ∨ _))

/-! ## One operation -/

/-- The bounds of the pointers, whatever was read. -/
structure Fdbuf.Bounds (s : Fdbuf) : Prop where
  wf : s.Wf
  eback_le : s.eback ≤ pbSize
  gptr_ge : pbSize ≤ s.gptr

inductive DeliveryStep (s : Delivery) : FdbufOp → Delivery → Prop where
  | consume (h : s.buf.gptr < s.buf.egptr) : DeliveryStep s .consume
      ⟨{ s.buf with gptr := s.buf.gptr + 1 }, s.delivered ++ [s.buf.current]⟩
  | pending {chunk : Option Bytes} (h : s.buf.gptr < s.buf.egptr) :
      DeliveryStep s (.underflow chunk) s
  | failed (h : ¬ s.buf.gptr < s.buf.egptr) : DeliveryStep s (.underflow none)
      { s with buf := (s.buf.withRead none).keepPutback.buf }
  | refill {chunk : Bytes} (h : ¬ s.buf.gptr < s.buf.egptr) (hlen : chunk.length ≤ bufSize) :
      DeliveryStep s (.underflow (some chunk))
        { s with buf := ((s.buf.withRead none).refill chunk []).buf }

section Underflow

variable {s : Fdbuf}

@[simp] theorem withRead_buf (s : Fdbuf) (chunk : Option Bytes) : (s.withRead chunk).buf = s := rfl

theorem underflow_pending (h : s.gptr < s.egptr) (chunk : Option Bytes) :
    (s.withRead chunk).underflow.2.buf = s := by
  rw [Istream.underflow, withRead_buf, if_pos h]
  rfl

theorem underflow_failed (h : ¬ s.gptr < s.egptr) :
    (s.withRead none).underflow.2.buf = (s.withRead none).keepPutback.buf := by
  rw [Istream.underflow, withRead_buf, if_neg h]
  rfl

theorem underflow_refill (h : ¬ s.gptr < s.egptr) (chunk : Bytes) :
    (s.withRead (some chunk)).underflow.2.buf = ((s.withRead none).refill chunk []).buf := by
  rw [Istream.underflow, withRead_buf, if_neg h]
  rfl

end Underflow

theorem deliveryStep_of_step {s t : Delivery} {op : FdbufOp} (h : s.step op = some t) :
    DeliveryStep s op t := by
  cases op with
  | consume =>
    simp only [Delivery.step] at h
    split at h
    · rename_i hlt
      cases h
      exact .consume hlt
    · cases h
  | underflow chunk =>
    simp only [Delivery.step] at h
    split at h
    · rename_i hgiven
      cases h
      by_cases hlt : s.buf.gptr < s.buf.egptr
      · rw [underflow_pending hlt]
        exact .pending hlt
      · cases chunk with
        | none =>
          rw [underflow_failed hlt]
          exact .failed hlt
        | some chunk =>
          rw [underflow_refill hlt]
          exact .refill hlt (hgiven chunk rfl).2
    · cases h

theorem step_underflow {chunk : Option Bytes} (h : Given chunk) (b : Fdbuf) (d : Bytes) :
    Delivery.step ⟨b, d⟩ (.underflow chunk) = some ⟨(b.withRead chunk).underflow.2.buf, d⟩ :=
  if_pos h

theorem step_none (b : Fdbuf) (d : Bytes) (h : ¬ b.gptr < b.egptr) :
    Delivery.step ⟨b, d⟩ (.underflow none) = some ⟨(b.withRead none).keepPutback.buf, d⟩ := by
  have hgiven : Given none := by simp [Given]
  rw [step_underflow hgiven, underflow_failed h]

theorem step_chunk {b : Fdbuf} {chunk : Bytes} (h : ¬ b.gptr < b.egptr)
    (hsize : 1 ≤ chunk.length ∧ chunk.length ≤ bufSize) (d : Bytes) :
    Delivery.step ⟨b, d⟩ (.underflow (some chunk)) =
      some ⟨((b.withRead none).refill chunk []).buf, d⟩ := by
  have hgiven : Given (some chunk) := by simpa [Given] using hsize
  rw [step_underflow hgiven, underflow_refill h]

theorem step_consume {b : Fdbuf} (h : b.gptr < b.egptr) (d : Bytes) :
    Delivery.step ⟨b, d⟩ .consume = some ⟨(b.withRead none).bump.buf, d ++ [b.current]⟩ :=
  if_pos h

/-- What `sbumpc` does to the buffer of a stream, and the byte it takes, is a run of these
operations. -/
theorem run_sbumpc (s : Istream) (hs : ∀ c ∈ s.chunks, 1 ≤ c.length ∧ c.length ≤ bufSize)
    (d : Bytes) : ∃ ops, run Delivery.step ⟨s.buf, d⟩ ops =
      some ⟨s.sbumpc.2.buf, d ++ (seen s.sbumpc.1).toList⟩ := by
  by_cases hlt : s.buf.gptr < s.buf.egptr
  · refine ⟨[.consume], ?_⟩
    rw [Istream.sbumpc, if_pos hlt, seen_toIntType]
    exact run_single (step_consume hlt d)
  · rw [Istream.sbumpc, if_neg hlt, Istream.uflow, Istream.underflow, if_neg hlt]
    cases hchunks : s.chunks with
    | nil =>
      refine ⟨[.underflow none], ?_⟩
      have hrun : run Delivery.step ⟨s.buf, d⟩ [.underflow none] = some ⟨s.keepPutback.buf, d⟩ :=
        run_single (step_none s.buf d hlt)
      simpa [seen] using hrun
    | cons chunk chunks =>
      have hsize := hs chunk (by simp [hchunks])
      have hfirst : run Delivery.step ⟨s.buf, d⟩ [.underflow (some chunk)] =
          some ⟨(s.refill chunk chunks).buf, d⟩ := run_single (step_chunk hlt hsize d)
      by_cases heof : charToInt (s.refill chunk chunks).buf.current = EOF
      · refine ⟨[.underflow (some chunk)], ?_⟩
        simpa [heof, seen] using hfirst
      · refine ⟨[.underflow (some chunk), .consume], ?_⟩
        have hpos : (s.refill chunk chunks).buf.gptr < (s.refill chunk chunks).buf.egptr :=
          Nat.lt_add_of_pos_right hsize.1
        simp only [heof, if_false, seen_toIntType]
        have hboth : run Delivery.step ⟨s.buf, d⟩ ([.underflow (some chunk)] ++ [.consume]) = _ :=
          run_concat_eq_some.mpr ⟨_, hfirst, step_consume hpos d⟩
        exact hboth

/-! ## The bytes behind `gptr()` -/

section Window

variable {s : Fdbuf}

theorem numPutback_eq (s : Fdbuf) : s.numPutback = min (s.gptr - s.eback) pbSize := rfl

theorem Fdbuf.Bounds.gptr_le (h : s.Bounds) : s.gptr ≤ s.buffer.length := by
  have hsize := h.wf.size
  have hgptr := h.wf.gptr_le
  have hegptr := h.wf.egptr_le
  omega

theorem Fdbuf.Bounds.length_window (h : s.Bounds) : s.window.length = s.gptr - s.eback := by
  have hle := h.wf.eback_le
  have hlen := h.gptr_le
  exact length_slice (by omega)

/-- The byte at `gptr()` goes over to the window. -/
theorem window_consume (h : s.Bounds) (hlt : s.gptr < s.egptr) :
    Fdbuf.window { s with gptr := s.gptr + 1 } = s.window ++ [s.current] := by
  have hle := h.wf.eback_le
  have hidx : s.gptr < s.buffer.length := by
    have hsize := h.wf.size
    have hegptr := h.wf.egptr_le
    omega
  have hcount : s.gptr + 1 - s.eback = s.gptr - s.eback + 1 := by omega
  have hfrom : s.eback + (s.gptr - s.eback) = s.gptr := by omega
  have hcur : s.current = s.buffer[s.gptr] := by simp [Fdbuf.current, hidx]
  have hbyte : slice s.buffer s.gptr 1 = [s.current] := by
    rw [slice, List.drop_eq_getElem_cons hidx, List.take_succ_cons, List.take_zero, hcur]
  simp only [Fdbuf.window]
  rw [hcount, slice_add, hfrom, hbyte]

/-- What a refill keeps is the end of the window. -/
theorem window_refill (h : s.Bounds) (chunk : Bytes) :
    ((s.withRead none).refill chunk []).buf.window <:+ s.window := by
  have hnp := numPutback_eq s
  have hle := h.wf.eback_le
  have hge := h.gptr_ge
  have hlen := h.gptr_le
  have hsource : (slice s.buffer (s.gptr - s.numPutback) s.numPutback).length = s.numPutback :=
    length_slice (by omega)
  have hcopy : slice (copy s.buffer (pbSize - s.numPutback) (s.gptr - s.numPutback) s.numPutback)
      (pbSize - s.numPutback) s.numPutback =
        slice s.buffer (s.gptr - s.numPutback) s.numPutback := by
    have hover := slice_overwrite (b := s.buffer) (i := pbSize - s.numPutback)
      (t := slice s.buffer (s.gptr - s.numPutback) s.numPutback) (by omega)
    rw [hsource] at hover
    exact hover
  have hwindow : ((s.withRead none).refill chunk []).buf.window =
      slice (overwrite (copy s.buffer (pbSize - s.numPutback) (s.gptr - s.numPutback)
        s.numPutback) pbSize chunk) (pbSize - s.numPutback)
          (pbSize - (pbSize - s.numPutback)) := rfl
  have hback : pbSize - (pbSize - s.numPutback) = s.numPutback := by omega
  rw [hwindow, hback, slice_overwrite_front (by omega) (by rw [length_copy (by omega)]; omega),
    hcopy]
  have hsuffix := slice_suffix (b := s.buffer) (i := s.eback) (n := s.gptr - s.eback)
    (m := s.numPutback) (by omega)
  rwa [show s.eback + (s.gptr - s.eback) - s.numPutback = s.gptr - s.numPutback by omega]
    at hsuffix

/-- The window is what is kept and the chunk. -/
theorem window_split (h : s.Bounds) :
    s.window = s.kept ++ slice s.buffer pbSize (s.gptr - pbSize) := by
  have hle := h.eback_le
  have hge := h.gptr_ge
  have hcount : s.gptr - s.eback = (pbSize - s.eback) + (s.gptr - pbSize) := by omega
  have hfrom : s.eback + (pbSize - s.eback) = pbSize := by omega
  rw [Fdbuf.window, hcount, slice_add, hfrom, Fdbuf.kept]

/-- Without a refill, what is kept becomes the end of what was taken. -/
theorem window_keepPutback (h : s.Bounds) (hbig : pbSize + pbSize ≤ s.gptr) :
    (s.withRead none).keepPutback.buf.window =
      s.lastTaken ++ slice s.buffer pbSize (s.gptr - pbSize) := by
  have hle := h.eback_le
  have hlen := h.gptr_le
  have hnp : s.numPutback = pbSize := by
    rw [numPutback_eq]
    omega
  let source := slice s.buffer (s.gptr - pbSize) pbSize
  have hsource : source.length = pbSize := length_slice (by omega)
  have hwindow : (s.withRead none).keepPutback.buf.window =
      slice (overwrite s.buffer (pbSize - s.numPutback)
        (slice s.buffer (s.gptr - s.numPutback) s.numPutback)) s.eback (s.gptr - s.eback) := rfl
  have hcount : s.gptr - s.eback = (pbSize - s.eback) + (s.gptr - pbSize) := by omega
  have hfrom : s.eback + (pbSize - s.eback) = pbSize := by omega
  have hbehind : slice (overwrite s.buffer 0 source) pbSize (s.gptr - pbSize) =
      slice s.buffer pbSize (s.gptr - pbSize) :=
    slice_overwrite_behind (by omega) (by omega)
  -- the copied bytes, in front of `eback()` and behind it
  have hfront : slice (overwrite s.buffer 0 source) s.eback (pbSize - s.eback) = s.lastTaken := by
    have hcopied : slice (overwrite s.buffer 0 source) 0 (s.eback + (pbSize - s.eback)) =
        slice s.buffer (s.gptr - pbSize) (s.eback + (pbSize - s.eback)) := by
      have hover := slice_overwrite (t := source) (Nat.zero_le s.buffer.length)
      rw [hsource] at hover
      rwa [hfrom]
    rw [slice_add, slice_add, Nat.zero_add] at hcopied
    have htaken : s.gptr - pbSize + s.eback = s.gptr - (pbSize - s.eback) := by omega
    rw [htaken] at hcopied
    refine (List.append_inj' hcopied ?_).2
    have hover : (overwrite s.buffer 0 source).length = s.buffer.length :=
      length_overwrite (by omega)
    rw [length_slice (by omega), length_slice (by omega)]
  rw [hwindow, hnp, Nat.sub_self, hcount, slice_add, hfrom, hbehind, hfront]

/-- Nothing is kept so far, so nothing is replaced. -/
theorem window_keepPutback_first (h : s.Bounds) (heback : s.eback = pbSize) :
    (s.withRead none).keepPutback.buf.window = s.window := by
  have hnp := numPutback_eq s
  have hlen := h.gptr_le
  have hge := h.gptr_ge
  have hsource : (slice s.buffer (s.gptr - s.numPutback) s.numPutback).length = s.numPutback :=
    length_slice (by omega)
  have hwindow : (s.withRead none).keepPutback.buf.window =
      slice (overwrite s.buffer (pbSize - s.numPutback)
        (slice s.buffer (s.gptr - s.numPutback) s.numPutback)) s.eback (s.gptr - s.eback) := rfl
  rw [hwindow, slice_overwrite_behind (by omega) (by omega)]
  rfl

theorem apart_iff (h : s.Bounds) :
    ¬ Overlap (pbSize - s.numPutback) (s.gptr - s.numPutback) s.numPutback ↔
      s.eback = pbSize ∨ pbSize + pbSize ≤ s.gptr := by
  have hnp := numPutback_eq s
  have hle := h.eback_le
  have hge := h.gptr_ge
  unfold Overlap
  omega

end Window

/-! ## Runs -/

theorem bounds_step {s t : Delivery} {op : FdbufOp} (hs : s.buf.Bounds)
    (h : s.step op = some t) : t.buf.Bounds := by
  obtain ⟨hwf, hle, hge⟩ := hs
  cases deliveryStep_of_step h with
  | consume hlt =>
    have hwf' := Istream.bump_wf (s := s.buf.withRead none) hwf hlt
    exact ⟨hwf', hle, Nat.le_succ_of_le hge⟩
  | pending hlt => exact ⟨hwf, hle, hge⟩
  | failed hlt => exact ⟨Istream.keepPutback_wf (s := s.buf.withRead none) hwf, hle, hge⟩
  | refill hlt hlen =>
    have hwf' := Istream.refill_wf (s := s.buf.withRead none) hwf hlen []
    exact ⟨hwf', Nat.sub_le _ _, Nat.le_refl _⟩

theorem bounds_init {buffer : Bytes} (hsize : buffer.length = bufSize + pbSize) :
    (Delivery.init buffer).buf.Bounds :=
  ⟨⟨hsize, Nat.le_refl _, Nat.le_refl _, Nat.le_add_left _ _⟩, Nat.le_refl _, Nat.le_refl _⟩

/-- An operation that keeps the bytes leaves the window the end of what was taken. -/
theorem window_step {s t : Delivery} {op : FdbufOp} (hb : s.buf.Bounds) (hk : Keeps s op)
    (hw : s.buf.window <:+ s.delivered) (h : s.step op = some t) :
    t.buf.window <:+ t.delivered := by
  cases deliveryStep_of_step h with
  | consume hlt =>
    obtain ⟨front, hfront⟩ := hw
    rw [window_consume hb hlt, ← hfront, List.append_assoc]
    exact List.suffix_append _ _
  | pending hlt => exact hw
  | failed hlt =>
    rcases hk with hpending | heback | ⟨hbig, hsame⟩
    · exact absurd hpending hlt
    · rw [window_keepPutback_first hb heback]
      exact hw
    · rw [window_keepPutback hb hbig, ← hsame rfl, ← window_split hb]
      exact hw
  | refill hlt hlen => exact (window_refill hb _).trans hw

/-- Where the window is right behind a read that gave nothing, what was kept is the end of what
was taken. -/
theorem kept_of_window {s : Fdbuf} {delivered : Bytes} (hb : s.Bounds)
    (hbig : pbSize + pbSize ≤ s.gptr) (hw : s.window <:+ delivered)
    (hw' : (s.withRead none).keepPutback.buf.window <:+ delivered) : s.kept = s.lastTaken := by
  have hb' : (s.withRead none).keepPutback.buf.Bounds :=
    ⟨Istream.keepPutback_wf (s := s.withRead none) hb.wf, hb.eback_le, hb.gptr_ge⟩
  have hlen : (s.withRead none).keepPutback.buf.window.length = s.window.length :=
    hb'.length_window.trans hb.length_window.symm
  have hsame := (List.suffix_of_suffix_length_le hw' hw hlen.le).eq_of_length hlen
  rw [window_keepPutback hb hbig, window_split hb] at hsame
  exact (List.append_cancel_right hsame).symm

theorem apart_of_keeps {s : Delivery} {op : FdbufOp} (hb : s.buf.Bounds) (hk : Keeps s op) :
    Apart s op := by
  cases op with
  | consume => trivial
  | underflow chunk =>
    rw [Apart, apart_iff hb]
    exact hk.imp_right (Or.imp_right And.left)

/-- An operation between two states whose windows are the end of what was taken, with ranges that
are apart, keeps the bytes. -/
theorem keeps_of_window {s t : Delivery} {op : FdbufOp} (hb : s.buf.Bounds) (hapart : Apart s op)
    (hw : s.buf.window <:+ s.delivered) (hw' : t.buf.window <:+ t.delivered)
    (h : s.step op = some t) : Keeps s op := by
  cases op with
  | consume => trivial
  | underflow chunk =>
    rw [Apart, apart_iff hb] at hapart
    rcases hapart with hpending | heback | hbig
    · exact .inl hpending
    · exact .inr (.inl heback)
    · by_cases hlt : s.buf.gptr < s.buf.egptr
      · exact .inl hlt
      · refine .inr (.inr ⟨hbig, ?_⟩)
        rintro rfl
        cases deliveryStep_of_step h with
        | pending hlt' => exact absurd hlt' hlt
        | failed _ => exact kept_of_window hb hbig hw hw'

/-- For all reads and all bytes taken: the ranges of every `memcpy` are apart and the bytes in
front of `gptr()` are the last that were taken, in every state, exactly when every `underflow`
that comes to its read finds nothing kept so far, or a chunk of `pbSize` bytes at least, whose end
is what is kept if the read gives nothing. -/
theorem putback_iff (buffer : Bytes) (hsize : buffer.length = bufSize + pbSize)
    (ops : List FdbufOp) :
    PutbackSound buffer ops ↔ Along Delivery.step Keeps (.init buffer) ops := by
  have hbounds : ∀ pre s, run Delivery.step (.init buffer) pre = some s → s.buf.Bounds :=
    run_invariant (fun _ _ _ hs h => bounds_step hs h) (bounds_init hsize)
  constructor
  · rintro ⟨hapart, hwindow⟩ pre op s t hpre hs ht
    have hw := hwindow pre s ((List.prefix_append _ _).trans hpre) hs
    have hw' := hwindow _ t hpre (run_concat_eq_some.mpr ⟨s, hs, ht⟩)
    exact keeps_of_window (hbounds pre s hs) (hapart pre op s t hpre hs ht) hw hw' ht
  · intro hkeeps
    refine ⟨?_, ?_⟩
    · intro pre op s t hpre hs ht
      exact apart_of_keeps (hbounds pre s hs) (hkeeps pre op s t hpre hs ht)
    · intro pre s hpre hs
      have hall : s.buf.Bounds ∧ s.buf.window <:+ s.delivered :=
        (hkeeps.of_prefix hpre).invariant
          (I := fun s => s.buf.Bounds ∧ s.buf.window <:+ s.delivered)
          (fun s op t hs hk h => ⟨bounds_step hs.1 h, window_step hs.1 hk hs.2 h⟩)
          ⟨bounds_init hsize, List.nil_suffix⟩ pre s hs
      exact hall.2

/-- A buffer of zeros. -/
def zeroBuffer : Bytes := List.replicate (bufSize + pbSize) 0

theorem zeroBuffer_size : zeroBuffer.length = bufSize + pbSize := List.length_replicate

theorem putback_iff_read :
    PutbackSound zeroBuffer [.underflow (some [97]), .consume, .underflow none] :=
  (putback_iff zeroBuffer zeroBuffer_size _).mpr (.of_forall (by decide +kernel))

/-- Two reads of one byte, and one more. -/
def shortReads : List FdbufOp :=
  [.underflow (some [97]), .consume, .underflow (some [98]), .consume]

/-- A byte and four more, all taken. -/
def fourRead : List FdbufOp :=
  [.underflow (some [97]), .consume, .underflow (some [98, 99, 100, 101]), .consume, .consume,
    .consume, .consume]

/-- Behind two reads of one byte the ranges are `[3, 5)` and `[2, 4)`; and a read that gives
nothing replaces the byte in front of a chunk. -/
theorem putback_lost :
    (¬ ∀ buffer ops, buffer.length = bufSize + pbSize →
      Along Delivery.step Apart (.init buffer) ops) ∧
    ¬ ∀ buffer ops s, buffer.length = bufSize + pbSize →
      run Delivery.step (.init buffer) ops = some s → s.buf.window <:+ s.delivered := by
  constructor
  · intro hall
    have halong := hall zeroBuffer (shortReads ++ [.underflow none]) zeroBuffer_size
    obtain ⟨s, t, hs, ht, heback, hgptr, hegptr⟩ : ∃ s t,
        run Delivery.step (.init zeroBuffer) shortReads = some s ∧
          s.step (.underflow none) = some t ∧ s.buf.eback = 3 ∧ s.buf.gptr = 5 ∧
            s.buf.egptr = 5 := ⟨_, _, rfl, rfl, rfl, rfl, rfl⟩
    have hranges := halong shortReads _ s t (List.prefix_refl _) hs ht
    simp [Apart, Overlap, numPutback_eq, heback, hgptr, hegptr, pbSize] at hranges
  · intro hall
    obtain ⟨s, hs, hwindow, hdelivered⟩ : ∃ s,
        run Delivery.step (.init zeroBuffer) (fourRead ++ [.underflow none]) = some s ∧
          s.buf.window = [101, 98, 99, 100, 101] ∧ s.delivered = [97, 98, 99, 100, 101] :=
      ⟨_, rfl, rfl, rfl⟩
    have hend := hall zeroBuffer _ s zeroBuffer_size hs
    rw [hwindow, hdelivered] at hend
    exact absurd hend (by decide)

end SimpleWeb
