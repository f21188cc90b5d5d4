import SimpleWeb.Putback

/-!
# SimpleWeb.Seek

Going back in an `fdbuf`. `seekoff` moves `gptr()` in what the buffer holds: the last chunk, and in
front of it the bytes that the refill has kept. To its caller the buffer is a cursor in the text
that was read (`Tape`), which reaches back to `pbSize` bytes in front of the last chunk
(`seek_refines`).

* The positions that `seekoff` returns are counted from the start of the last chunk.
* Behind a read that gives nothing, the bytes in front of the chunk are lost.
-/

namespace SimpleWeb

open CArray Lts

/-- `std::ios_base::seekdir` -/
inductive Seekdir where
  | beg
  | cur
  | fin

/-- The calls of a stream buffer; the first two with what `read` gives when it comes to that. -/
inductive BufCall where
  | sgetc (given : Option Bytes)
  | sbumpc (given : Option Bytes)
  | pubseekoff (off : Int) (way : Seekdir)

inductive BufAnswer where
  | byte (b : Option UInt8)
  | position (p : Int)
  deriving DecidableEq

/-! ## The buffer -/

/-- `ptr` in `seekoff` -/
def Fdbuf.seekPtr (s : Fdbuf) (off : Int) : Seekdir → Int
  | .beg => s.eback + off
  | .cur => s.gptr + off
  | .fin => s.egptr + off

def Fdbuf.seekoff (s : Fdbuf) (off : Int) (way : Seekdir) : Int × Fdbuf :=
  (s.seekPtr off way - pbSize, { s with gptr := (s.seekPtr off way).toNat })

/-- If `underflow` is called, the ranges of its `memcpy` are apart. -/
def Fdbuf.Apart (s : Fdbuf) : Prop := SimpleWeb.Apart ⟨s, []⟩ (.underflow none)

instance (s : Fdbuf) : Decidable s.Apart :=
  inferInstanceAs (Decidable (_ < _ ∨ ¬ (_ < _ ∧ _ < _)))

/-- No answer where the behaviour is undefined: at ranges that overlap, or an `off` that exceeds
the buffer range. -/
def Fdbuf.call (s : Fdbuf) : BufCall → Option (BufAnswer × Fdbuf)
  | .sgetc given =>
    if Given given ∧ s.Apart then
      some (.byte (seen (s.withRead given).sgetc.1), (s.withRead given).sgetc.2.buf)
    else none
  | .sbumpc given =>
    if Given given ∧ s.Apart then
      some (.byte (seen (s.withRead given).sbumpc.1), (s.withRead given).sbumpc.2.buf)
    else none
  | .pubseekoff off way =>
    if s.eback ≤ s.seekPtr off way ∧ s.seekPtr off way ≤ s.egptr then
      some (.position (s.seekoff off way).1, (s.seekoff off way).2)
    else none

/-! ## The text -/

/-- The text that was read, the position of its last chunk and that of the cursor. The bytes in
front of the chunk may be lost. -/
structure Tape where
  text : Bytes
  last : Nat
  pos : Nat
  spoilt : Bool

namespace Tape

def init : Tape := ⟨[], 0, 0, false⟩

/-- How far the cursor can go back. -/
def back (t : Tape) : Nat := t.last - pbSize

/-- The byte at the cursor, behind the text the first one of the next chunk. -/
def fetch (t : Tape) (given : Option Bytes) : Option (Option UInt8 × Tape) :=
  if t.pos < t.text.length then
    if t.spoilt ∧ t.pos < t.last then none else some (t.text[t.pos]?, t)
  else if t.last = 0 ∨ t.last + pbSize ≤ t.text.length then
    match given with
    | none => some (none, { t with spoilt := true })
    | some chunk =>
      -- a first byte 0xFF reads as the end of the file
      some (chunk.head?.filter (· ≠ 0xFF),
        { t with text := t.text ++ chunk, last := t.text.length, spoilt := false })
  else none

/-- A byte that is taken is passed. -/
def pass (t : Tape) : Option UInt8 → Tape
  | none => t
  | some _ => { t with pos := t.pos + 1 }

def seekPos (t : Tape) (off : Int) : Seekdir → Int
  | .beg => t.back + off
  | .cur => t.pos + off
  | .fin => t.text.length + off

def call (t : Tape) : BufCall → Option (BufAnswer × Tape)
  | .sgetc given =>
    if Given given then (t.fetch given).map fun r => (.byte r.1, r.2) else none
  | .sbumpc given =>
    if Given given then (t.fetch given).map fun r => (.byte r.1, r.2.pass r.1) else none
  | .pubseekoff off way =>
    if t.back ≤ t.seekPos off way ∧ t.seekPos off way ≤ t.text.length then
      some (.position (t.seekPos off way - t.last), { t with pos := (t.seekPos off way).toNat })
    else none

/-- The call is for a byte that is lost. -/
def Lost (t : Tape) : BufCall → Prop
  | .sgetc _ => t.spoilt = true ∧ t.pos < t.last
  | .sbumpc _ => t.spoilt = true ∧ t.pos < t.last
  | .pubseekoff _ _ => False

end Tape

/-- The buffer holds the end of the text, with the cursor at `gptr()`. -/
structure Shows (s : Fdbuf) (t : Tape) : Prop where
  wf : s.Wf
  eback_le : s.eback ≤ pbSize
  last_le : t.last ≤ t.text.length
  back : t.back + pbSize = t.last + s.eback
  pos : t.pos + pbSize = t.last + s.gptr
  stop : t.text.length + pbSize = t.last + s.egptr
  chunk : slice s.buffer pbSize (s.egptr - pbSize) = t.text.drop t.last
  kept : t.spoilt = false → s.kept = slice t.text t.back (t.last - t.back)

theorem init_shows {buffer : Bytes} (hsize : buffer.length = bufSize + pbSize) :
    Shows (.init buffer) .init where
  wf := (bounds_init hsize).wf
  eback_le := Nat.le_refl _
  last_le := Nat.le_refl _
  back := rfl
  pos := rfl
  stop := rfl
  chunk := rfl
  kept _ := rfl

/-! ## What is returned -/

theorem seen_underflow (c : UInt8) : seen (charToInt c) = (some c).filter (· ≠ 0xFF) := by
  by_cases hlast : c = 0xFF
  · rw [hlast, charToInt_last]
    rfl
  · rw [(seen_charToInt hlast).2, Option.filter_some, if_pos (by simpa using hlast)]

theorem seen_eq_none {c : Int} : seen c = none ↔ c = EOF := by
  by_cases heof : c = EOF
  · simp [seen, heof]
  · simp [seen, heof]

/-- `sbumpc` is `sgetc` and the byte passed. -/
theorem sbumpc_eq (s : Istream) : s.sbumpc =
    if seen s.sgetc.1 = none then (EOF, s.sgetc.2)
    else (toIntType s.sgetc.2.buf.current, s.sgetc.2.bump) := by
  by_cases hlt : s.buf.gptr < s.buf.egptr
  · have hcall : s.sgetc = (toIntType s.buf.current, s) := if_pos hlt
    rw [hcall, Istream.sbumpc, if_pos hlt, seen_toIntType, if_neg (Option.some_ne_none _)]
  · have hcall : s.sgetc = s.underflow := if_neg hlt
    have huflow : s.sbumpc = if s.underflow.1 = EOF then (EOF, s.underflow.2)
        else (toIntType s.underflow.2.buf.current, s.underflow.2.bump) := if_neg hlt
    rw [hcall, huflow]
    by_cases heof : s.underflow.1 = EOF
    · rw [if_pos heof, if_pos (seen_eq_none.mpr heof)]
    · rw [if_neg heof, if_neg fun hnone => heof (seen_eq_none.mp hnone)]

/-- The byte that `sgetc` returns is the one at `gptr()`. -/
theorem sgetc_current {s : Istream} {c : UInt8} (h : seen s.sgetc.1 = some c) :
    s.sgetc.2.buf.current = c := by
  have hchar : ∀ b : UInt8, seen (charToInt b) = some c → b = c := by
    intro b hb
    rw [seen_underflow] at hb
    exact Option.some.inj (Option.eq_some_of_filter_eq_some hb)
  unfold Istream.sgetc at h ⊢
  split at h
  · rename_i hlt
    rw [if_pos hlt]
    exact Option.some.inj ((seen_toIntType _).symm.trans h)
  · rename_i hempty
    rw [if_neg hempty]
    unfold Istream.underflow at h ⊢
    rw [if_neg hempty] at h ⊢
    split at h
    · cases h
    · exact hchar _ h

/-! ## The byte at the cursor -/

namespace Shows

variable {s : Fdbuf} {t t' : Tape} {given : Option Bytes} {b : Option UInt8}

theorem pending_iff (h : Shows s t) : s.gptr < s.egptr ↔ t.pos < t.text.length := by
  have hpos := h.pos
  have hstop := h.stop
  omega

theorem current (h : Shows s t) (hlt : t.pos < t.text.length)
    (hthere : t.spoilt = false ∨ t.last ≤ t.pos) : t.text[t.pos]? = some s.current := by
  have hsize := h.wf.size
  have hegptr := h.wf.egptr_le
  have heback := h.wf.eback_le
  have hle := h.eback_le
  have hback := h.back
  have hpos := h.pos
  have hpending := h.pending_iff.mpr hlt
  have hidx : s.gptr < s.buffer.length := by omega
  have hcur : s.buffer[s.gptr]? = some s.current := by simp [Fdbuf.current, hidx]
  by_cases hchunk : t.last ≤ t.pos
  · have hfrom : t.last + (t.pos - t.last) = t.pos := by omega
    have hsame : t.pos - t.last = s.gptr - pbSize := by omega
    have hgptr : pbSize + (s.gptr - pbSize) = s.gptr := by omega
    calc t.text[t.pos]?
        = (t.text.drop t.last)[t.pos - t.last]? := by rw [List.getElem?_drop, hfrom]
      _ = (slice s.buffer pbSize (s.egptr - pbSize))[s.gptr - pbSize]? := by rw [h.chunk, hsame]
      _ = s.buffer[s.gptr]? := by rw [getElem?_slice (by omega), hgptr]
      _ = some s.current := hcur
  · have hkept := h.kept (hthere.resolve_right hchunk)
    have hfrom : t.back + (t.pos - t.back) = t.pos := by omega
    have hsame : t.pos - t.back = s.gptr - s.eback := by omega
    have hgptr : s.eback + (s.gptr - s.eback) = s.gptr := by omega
    calc t.text[t.pos]?
        = (slice t.text t.back (t.last - t.back))[t.pos - t.back]? := by
          rw [getElem?_slice (by omega), hfrom]
      _ = s.kept[s.gptr - s.eback]? := by rw [← hkept, hsame]
      _ = s.buffer[s.gptr]? := by rw [Fdbuf.kept, getElem?_slice (by omega), hgptr]
      _ = some s.current := hcur

/-! ## A read -/

theorem bounds (h : Shows s t) (hend : ¬ t.pos < t.text.length) : s.Bounds := by
  refine ⟨h.wf, h.eback_le, ?_⟩
  have hlast := h.last_le
  have hpos := h.pos
  omega

/-- At its end the ranges are apart where the last chunk is long enough, or the first. -/
theorem apart_iff (h : Shows s t) (hend : ¬ t.pos < t.text.length) :
    s.Apart ↔ t.last = 0 ∨ t.last + pbSize ≤ t.text.length := by
  have hempty : ¬ s.gptr < s.egptr := fun hlt => hend (h.pending_iff.mp hlt)
  have hranges : s.Apart ↔ s.eback = pbSize ∨ pbSize + pbSize ≤ s.gptr :=
    (or_iff_right hempty).trans (SimpleWeb.apart_iff (h.bounds hend))
  have hback := h.back
  have hpos := h.pos
  have hstop := h.stop
  have hgptr := h.wf.gptr_le
  rw [hranges]
  rw [Tape.back] at hback
  omega

/-- A read that gives nothing leaves the chunk. -/
theorem failed (h : Shows s t) (hend : ¬ t.pos < t.text.length) :
    Shows (s.withRead none).keepPutback.buf { t with spoilt := true } := by
  have hnp := numPutback_eq s
  have hlen := (h.bounds hend).gptr_le
  have hge := (h.bounds hend).gptr_ge
  have hsource : (slice s.buffer (s.gptr - s.numPutback) s.numPutback).length = s.numPutback :=
    length_slice (by omega)
  refine ⟨Istream.keepPutback_wf (s := s.withRead none) h.wf, h.eback_le, h.last_le, h.back, h.pos,
    h.stop, ?_, nofun⟩
  have hchunk : slice (overwrite s.buffer (pbSize - s.numPutback)
      (slice s.buffer (s.gptr - s.numPutback) s.numPutback)) pbSize (s.egptr - pbSize) =
        slice s.buffer pbSize (s.egptr - pbSize) :=
    slice_overwrite_behind (by omega) (by omega)
  exact hchunk.trans h.chunk

/-- How much a refill keeps, and that it is part of the chunk. -/
theorem numPutback (h : Shows s t) (hend : ¬ t.pos < t.text.length)
    (hroom : t.last = 0 ∨ t.last + pbSize ≤ t.text.length) :
    s.numPutback = min t.text.length pbSize ∧ t.last + s.numPutback ≤ t.text.length := by
  have hnp := numPutback_eq s
  have hgptr := h.wf.gptr_le
  have hback := h.back
  have hpos := h.pos
  have hstop := h.stop
  have hpending := h.pending_iff
  rw [Tape.back] at hback
  omega

/-- What a refill keeps is the end of the text. -/
theorem refill_kept (h : Shows s t) (hend : ¬ t.pos < t.text.length)
    (hroom : t.last = 0 ∨ t.last + pbSize ≤ t.text.length) {chunk : Bytes}
    (hsize : chunk.length ≤ bufSize) :
    ((s.withRead none).refill chunk []).buf.kept = t.text.drop (t.text.length - pbSize) := by
  obtain ⟨hnp, hinside⟩ := h.numPutback hend hroom
  have hb := h.bounds hend
  have hgptr : s.gptr = s.egptr :=
    Nat.le_antisymm h.wf.gptr_le (Nat.le_of_not_lt fun hlt => hend (h.pending_iff.mp hlt))
  have hwf := Istream.refill_wf (s := s.withRead none) h.wf hsize []
  have hlen : ((s.withRead none).refill chunk []).buf.kept.length = s.numPutback := by
    have hkeep : pbSize - (pbSize - s.numPutback) = s.numPutback := by omega
    refine (length_slice ?_).trans hkeep
    rw [hwf.size]
    show pbSize - s.numPutback + (pbSize - (pbSize - s.numPutback)) ≤ bufSize + pbSize
    omega
  have hwindow : ((s.withRead none).refill chunk []).buf.kept <:+
      s.kept ++ t.text.drop t.last := by
    have hrefill := window_refill hb chunk
    rw [window_split hb, hgptr, h.chunk] at hrefill
    exact hrefill
  have hchunk : ((s.withRead none).refill chunk []).buf.kept <:+ t.text.drop t.last := by
    refine List.suffix_of_suffix_length_le hwindow (List.suffix_append _ _) ?_
    rw [hlen, List.length_drop]
    omega
  have htext := hchunk.trans (List.drop_suffix _ _)
  refine (List.suffix_of_suffix_length_le htext (List.drop_suffix _ _) ?_).eq_of_length ?_
  · rw [hlen, List.length_drop]
    omega
  · rw [hlen, List.length_drop]
    omega

theorem refill (h : Shows s t) (hend : ¬ t.pos < t.text.length)
    (hroom : t.last = 0 ∨ t.last + pbSize ≤ t.text.length) {chunk : Bytes}
    (hlen : chunk.length ≤ bufSize) :
    Shows ((s.withRead none).refill chunk []).buf
      { t with text := t.text ++ chunk, last := t.text.length, spoilt := false } := by
  obtain ⟨hnp, -⟩ := h.numPutback hend hroom
  have hgptr := h.wf.gptr_le
  have hpos := h.pos
  have hstop := h.stop
  have hpending := h.pending_iff
  have hwf := Istream.refill_wf (s := s.withRead none) h.wf hlen []
  have hpb : (s.withRead none).numPutback = s.numPutback := rfl
  refine ⟨hwf, Nat.sub_le _ _, ?_, ?_, ?_, ?_, ?_, ?_⟩
  · rw [List.length_append]
    exact Nat.le_add_right _ _
  · show t.text.length - pbSize + pbSize = t.text.length + (pbSize - (s.withRead none).numPutback)
    omega
  · show t.pos + pbSize = t.text.length + pbSize
    omega
  · show (t.text ++ chunk).length + pbSize = t.text.length + (pbSize + chunk.length)
    rw [List.length_append]
    omega
  · have hnew := Istream.refill_pending (s := s.withRead none) h.wf chunk []
    exact hnew.trans List.drop_left.symm
  · intro _
    rw [h.refill_kept hend hroom hlen, Tape.back]
    show _ = slice (t.text ++ chunk) (t.text.length - pbSize) _
    rw [slice, List.drop_append_of_le_length (Nat.sub_le _ _), List.take_left']
    rw [List.length_drop]

/-! ## The calls -/

/-- The byte that a refill makes current starts the chunk. -/
theorem refill_current (h : Shows s t) (hend : ¬ t.pos < t.text.length)
    (hroom : t.last = 0 ∨ t.last + pbSize ≤ t.text.length) {chunk : Bytes}
    (hpos : 1 ≤ chunk.length) (hlen : chunk.length ≤ bufSize) :
    chunk.head? = some ((s.withRead none).refill chunk []).buf.current := by
  have hle : t.pos = t.text.length := by
    have hpos := h.pos
    have hstop := h.stop
    have hgptr := h.wf.gptr_le
    omega
  have hcur := (h.refill hend hroom hlen).current (by simp; omega) (.inr hle.ge)
  rw [← hcur, hle, List.getElem?_append_right (Nat.le_refl _), Nat.sub_self,
    List.head?_eq_getElem?]

theorem sgetc_pending (h : Shows s t) (hlt : t.pos < t.text.length)
    (hthere : ¬ (t.spoilt = true ∧ t.pos < t.last)) :
    s.Apart ∧ seen (s.withRead given).sgetc.1 = t.text[t.pos]? ∧
      Shows (s.withRead given).sgetc.2.buf t := by
  have hpending := h.pending_iff.mpr hlt
  have hcur : t.text[t.pos]? = some s.current := by
    refine h.current hlt ?_
    by_cases hspoilt : t.spoilt = true
    · exact .inr (Nat.le_of_not_lt fun hpos => hthere ⟨hspoilt, hpos⟩)
    · exact .inl (by simpa using hspoilt)
  have hcall : (s.withRead given).sgetc = (toIntType s.current, s.withRead given) :=
    if_pos hpending
  rw [hcall, seen_toIntType, hcur]
  exact ⟨.inl hpending, rfl, h⟩

theorem sgetc (h : Shows s t) (hgiven : Given given) (hf : t.fetch given = some (b, t')) :
    s.Apart ∧ seen (s.withRead given).sgetc.1 = b ∧ Shows (s.withRead given).sgetc.2.buf t' := by
  unfold Tape.fetch at hf
  split at hf
  · rename_i hlt
    split at hf
    · cases hf
    · rename_i hthere
      cases hf
      exact h.sgetc_pending hlt hthere
  · rename_i hend
    have hempty : ¬ s.gptr < s.egptr := fun hlt => hend (h.pending_iff.mp hlt)
    have hcall : (s.withRead given).sgetc = (s.withRead given).underflow := if_neg hempty
    split at hf
    · rename_i hroom
      have hapart := (h.apart_iff hend).mpr hroom
      rw [hcall]
      split at hf
      · cases hf
        have hread : (s.withRead none).underflow = (EOF, (s.withRead none).keepPutback) :=
          if_neg hempty
        rw [hread]
        exact ⟨hapart, rfl, h.failed hend⟩
      · rename_i chunk
        cases hf
        obtain ⟨hpos, hlen⟩ := hgiven chunk rfl
        have hread : (s.withRead (some chunk)).underflow =
            (charToInt ((s.withRead none).refill chunk []).buf.current,
              (s.withRead none).refill chunk []) := if_neg hempty
        rw [hread, seen_underflow, ← h.refill_current hend hroom hpos hlen]
        exact ⟨hapart, rfl, h.refill hend hroom hlen⟩
    · cases hf

theorem pass (h : Shows s t) (hlt : t.pos < t.text.length) :
    Shows { s with gptr := s.gptr + 1 } { t with pos := t.pos + 1 } := by
  have hwf := Istream.bump_wf (s := s.withRead none) h.wf (h.pending_iff.mpr hlt)
  have hpos : t.pos + 1 + pbSize = t.last + (s.gptr + 1) := by
    rw [Nat.add_right_comm, h.pos]
    rfl
  exact ⟨hwf, h.eback_le, h.last_le, h.back, hpos, h.stop, h.chunk, h.kept⟩

/-- Where a byte is fetched, it can be passed. -/
theorem fetched (h : Shows s t) {c : UInt8} (hf : t.fetch given = some (some c, t')) :
    t'.pos < t'.text.length := by
  unfold Tape.fetch at hf
  split at hf
  · rename_i hlt
    split at hf
    · cases hf
    · rw [Option.some.injEq, Prod.mk.injEq] at hf
      exact hf.2 ▸ hlt
  · split at hf
    · split at hf
      · cases hf
      · rename_i chunk
        rw [Option.some.injEq, Prod.mk.injEq] at hf
        obtain ⟨hhead, rfl⟩ := hf
        have hne : chunk ≠ [] := by
          rintro rfl
          cases hhead
        have hpos := List.length_pos_iff.mpr hne
        have hcursor := h.pos
        have hstop := h.stop
        have hgptr := h.wf.gptr_le
        show t.pos < (t.text ++ chunk).length
        rw [List.length_append]
        omega
    · cases hf

theorem sbumpc (h : Shows s t) (hgiven : Given given) (hf : t.fetch given = some (b, t')) :
    seen (s.withRead given).sbumpc.1 = b ∧
      Shows (s.withRead given).sbumpc.2.buf (t'.pass b) := by
  obtain ⟨-, hb, hshows⟩ := h.sgetc hgiven hf
  rw [sbumpc_eq, hb]
  cases b with
  | none => exact ⟨rfl, hshows⟩
  | some c =>
    rw [if_neg (Option.some_ne_none c), seen_toIntType, sgetc_current hb]
    exact ⟨rfl, hshows.pass (h.fetched hf)⟩

theorem seekPtr (h : Shows s t) (off : Int) (way : Seekdir) :
    s.seekPtr off way + t.last = t.seekPos off way + pbSize := by
  have hback := h.back
  have hpos := h.pos
  have hstop := h.stop
  cases way with
  | beg =>
    show s.eback + off + t.last = t.back + off + pbSize
    omega
  | cur =>
    show s.gptr + off + t.last = t.pos + off + pbSize
    omega
  | fin =>
    show s.egptr + off + t.last = t.text.length + off + pbSize
    omega

theorem seekoff (h : Shows s t) {off : Int} {way : Seekdir} (hfrom : t.back ≤ t.seekPos off way)
    (hto : t.seekPos off way ≤ t.text.length) :
    (s.eback ≤ s.seekPtr off way ∧ s.seekPtr off way ≤ s.egptr) ∧
      (s.seekoff off way).1 = t.seekPos off way - t.last ∧
      Shows (s.seekoff off way).2 { t with pos := (t.seekPos off way).toNat } := by
  have hptr := h.seekPtr off way
  have hback := h.back
  have hstop := h.stop
  have hrange : s.eback ≤ s.seekPtr off way ∧ s.seekPtr off way ≤ s.egptr := by omega
  refine ⟨hrange, ?_, ?_⟩
  · show s.seekPtr off way - pbSize = _
    omega
  · refine ⟨⟨h.wf.size, ?_, ?_, h.wf.egptr_le⟩, h.eback_le, h.last_le, h.back, ?_, h.stop,
      h.chunk, h.kept⟩
    · show s.eback ≤ (s.seekPtr off way).toNat
      omega
    · show (s.seekPtr off way).toNat ≤ s.egptr
      omega
    · show (t.seekPos off way).toNat + pbSize = t.last + (s.seekPtr off way).toNat
      omega

/-- The buffer answers every call that the text permits as the text does. -/
theorem call (h : Shows s t) {c : BufCall} {a : BufAnswer} (hcall : t.call c = some (a, t')) :
    ∃ s', s.call c = some (a, s') ∧ Shows s' t' := by
  cases c with
  | sgetc given =>
    simp only [Tape.call] at hcall
    split at hcall
    · rename_i hgiven
      obtain ⟨⟨b, t₁⟩, hf, heq⟩ := Option.map_eq_some_iff.mp hcall
      cases heq
      obtain ⟨hapart, hb, hshows⟩ := h.sgetc hgiven hf
      refine ⟨_, ?_, hshows⟩
      rw [Fdbuf.call, if_pos ⟨hgiven, hapart⟩, hb]
    · cases hcall
  | sbumpc given =>
    simp only [Tape.call] at hcall
    split at hcall
    · rename_i hgiven
      obtain ⟨⟨b, t₁⟩, hf, heq⟩ := Option.map_eq_some_iff.mp hcall
      cases heq
      obtain ⟨hb, hshows⟩ := h.sbumpc hgiven hf
      refine ⟨_, ?_, hshows⟩
      rw [Fdbuf.call, if_pos ⟨hgiven, (h.sgetc hgiven hf).1⟩, hb]
    · cases hcall
  | pubseekoff off way =>
    simp only [Tape.call] at hcall
    split at hcall
    · rename_i hrange
      cases hcall
      obtain ⟨hptr, hp, hshows⟩ := h.seekoff hrange.1 hrange.2
      refine ⟨_, ?_, hshows⟩
      rw [Fdbuf.call, if_pos hptr, hp]
    · cases hcall

theorem fetch_permits (h : Shows s t) (hapart : s.Apart)
    (hthere : ¬ (t.spoilt = true ∧ t.pos < t.last)) (given : Option Bytes) :
    ∃ r, t.fetch given = some r := by
  unfold Tape.fetch
  by_cases hlt : t.pos < t.text.length
  · rw [if_pos hlt, if_neg hthere]
    exact ⟨_, rfl⟩
  · rw [if_neg hlt, if_pos ((h.apart_iff hlt).mp hapart)]
    cases given with
    | none => exact ⟨_, rfl⟩
    | some chunk => exact ⟨_, rfl⟩

/-- The text permits every call that is defined, unless it is for a byte that is lost. -/
theorem permits (h : Shows s t) {c : BufCall} {r : BufAnswer × Fdbuf} (hcall : s.call c = some r)
    (hthere : ¬ t.Lost c) : ∃ r', t.call c = some r' := by
  cases c with
  | sgetc given =>
    simp only [Fdbuf.call] at hcall
    split at hcall
    · rename_i hdefined
      obtain ⟨r', hf⟩ := h.fetch_permits hdefined.2 hthere given
      rw [Tape.call, if_pos hdefined.1, hf]
      exact ⟨_, rfl⟩
    · cases hcall
  | sbumpc given =>
    simp only [Fdbuf.call] at hcall
    split at hcall
    · rename_i hdefined
      obtain ⟨r', hf⟩ := h.fetch_permits hdefined.2 hthere given
      rw [Tape.call, if_pos hdefined.1, hf]
      exact ⟨_, rfl⟩
    · cases hcall
  | pubseekoff off way =>
    simp only [Fdbuf.call] at hcall
    split at hcall
    · have hptr := h.seekPtr off way
      have hback := h.back
      have hstop := h.stop
      rw [Tape.call, if_pos (by omega)]
      exact ⟨_, rfl⟩
    · cases hcall

end Shows

/-- For all results of `read` and every sequence of calls that the text permits: no `memcpy` is of
ranges that overlap, and the bytes and positions that are returned are those of the text; and it
permits every further call that is defined, unless it is for a byte that is lost. -/
theorem seek_refines (buffer : Bytes) (hsize : buffer.length = bufSize + pbSize)
    (calls : List BufCall) (t : Tape) (answers : List BufAnswer)
    (h : run (answering Tape.call) (.init, []) calls = some (t, answers)) :
    ∃ s, run (answering Fdbuf.call) (.init buffer, []) calls = some (s, answers) ∧
      ∀ c a s', s.call c = some (a, s') → t.Lost c ∨ ∃ t', t.call c = some (a, t') := by
  obtain ⟨s, hs, hshows⟩ :=
    run_answering (fun _ _ _ _ _ hR hcall => hR.call hcall) (init_shows hsize) h
  refine ⟨s, hs, ?_⟩
  intro c a s' hcall
  by_cases hlost : t.Lost c
  · exact .inl hlost
  · obtain ⟨⟨a', t'⟩, ht⟩ := hshows.permits hcall hlost
    obtain ⟨s'', hsame, -⟩ := hshows.call ht
    cases hcall.symm.trans hsame
    exact .inr ⟨t', ht⟩

/-- `abcde` and one byte of the chunk behind it are taken, and three bytes are gone back. -/
def goneBack : List BufCall :=
  [.sbumpc (some [97, 98, 99, 100, 101]), .sbumpc none, .sbumpc none, .sbumpc none, .sbumpc none,
    .sbumpc (some [102, 103]), .pubseekoff (-3) .cur, .sgetc none]

/-- The byte is `d`, two in front of the last chunk. -/
def goneBackAnswers : List BufAnswer :=
  [.byte (some 97), .byte (some 98), .byte (some 99), .byte (some 100), .byte (some 101),
    .byte (some 102), .position (-2), .byte (some 100)]

/-- Where this leads -/
def goneBackTape : Tape := ⟨[97, 98, 99, 100, 101, 102, 103], 5, 3, false⟩

theorem seek_refines_goneBack :
    ∃ s, run (answering Fdbuf.call) (.init zeroBuffer, []) goneBack = some (s, goneBackAnswers) ∧
      ∀ c a s', s.call c = some (a, s') →
        goneBackTape.Lost c ∨ ∃ t', goneBackTape.call c = some (a, t') :=
  seek_refines zeroBuffer zeroBuffer_size goneBack goneBackTape goneBackAnswers rfl

end SimpleWeb
