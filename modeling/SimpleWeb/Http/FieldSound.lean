import SimpleWeb.Http.Grammar

/-!
# Http.FieldSound

What the loop of `read_header` has read when it declares the head done: any number of raw field
lines and a closing line (`readFields_sound`). The machine is more liberal than the grammar of
`Http.Grammar`: bytes before a name are skipped, a CR inside a value hides the rest of its line,
and an empty value is stored as one NUL (`RawLine.stored`).

`HeaderStep` says once what a pass that goes on can do. `HeaderInv` ties each state to the bytes
read so far; `headerInv_step` has one case per state.
-/

namespace SimpleWeb
namespace Http

open ScanLoop CArray

/-- A byte the start state passes over. -/
def isSkipByte (ch : UInt8) : Bool := !lowcase ch && ch != CR && ch != LF

theorem skip_nil : ∀ c ∈ ([] : Bytes), isSkipByte c = true := by simp

/-- A field line the machine accepts, its LF apart. -/
structure RawLine where
  skip : Bytes
  name : Bytes
  gap : Bytes
  tail : Bytes
  skip_ok : ∀ c ∈ skip, isSkipByte c = true
  name_ok : ∀ c ∈ name, lowcase c = true
  name_ne : name ≠ []
  gap_ok : ∀ c ∈ gap, c = byte ' '
  tail_head : tail.head? ≠ some (byte ' ')
  tail_ok : LF ∉ tail

def RawLine.bytes (l : RawLine) : Bytes := l.skip ++ l.name ++ byte ':' :: l.gap ++ l.tail

/-- The value the machine stores for what follows the colon and its spaces. -/
def storedValue : Bytes → Bytes
  | [] => [0]
  | c :: cs => if c = CR then [0] else if c = 0 then [] else (c :: cs).takeWhile (· ≠ CR)

def rawBytes (ls : List RawLine) : Bytes := (ls.map fun l => l.bytes ++ [LF]).flatten

/-- Assign a value computed from each line to its name, in order. -/
def assignBy (f : Bytes → Bytes) (m : Fields) (ls : List RawLine) : Fields :=
  ls.foldl (fun m l => m.insert l.name (f l.tail)) m

def Parser.setFields (p : Parser) (m : Fields) : Parser :=
  { p with message := { p.message with fields := m } }

/-- The parser after raw lines. -/
def Parser.store (p : Parser) (ls : List RawLine) : Parser :=
  p.setFields (assignBy storedValue p.message.fields ls)

theorem rawBytes_concat (ls : List RawLine) (l : RawLine) :
    rawBytes (ls ++ [l]) = rawBytes ls ++ (l.bytes ++ [LF]) := by
  simp [rawBytes]

theorem Parser.store_concat (p : Parser) (ls : List RawLine) (l : RawLine) :
    p.store (ls ++ [l]) = (p.store ls).setFields
      ((p.store ls).message.fields.insert l.name (storedValue l.tail)) := by
  simp [Parser.store, Parser.setFields, assignBy]

/-- What the state says about the bytes read so far. -/
inductive HeaderInv (p : Parser) : Bytes → HeaderVars → Prop where
  | start {ls : List RawLine} {skip fn fv : Bytes} {i : Nat}
      (hskip : ∀ c ∈ skip, isSkipByte c = true) :
      HeaderInv p (rawBytes ls ++ skip) ⟨.start, fn, fv, i, p.store ls⟩
  | name {ls : List RawLine} {skip name fn fv : Bytes} {i : Nat}
      (hskip : ∀ c ∈ skip, isSkipByte c = true) (hname : ∀ c ∈ name, lowcase c = true)
      (hne : name ≠ []) (hfn : Holds fn i name) :
      HeaderInv p (rawBytes ls ++ (skip ++ name)) ⟨.name, fn, fv, i, p.store ls⟩
  | spaces {ls : List RawLine} {l : RawLine} {fn fv : Bytes} {i : Nat} (htail : l.tail = [])
      (hfn : cstr fn = l.name) :
      HeaderInv p (rawBytes ls ++ l.bytes) ⟨.spacesBeforeValue, fn, fv, i, p.store ls⟩
  | value {ls : List RawLine} {l : RawLine} {fn fv : Bytes} {i : Nat} (htail : l.tail ≠ [])
      (hcr : CR ∉ l.tail) (h0 : 0 ∉ l.tail.tail) (hfn : cstr fn = l.name)
      (hfv : Holds fv i l.tail) :
      HeaderInv p (rawBytes ls ++ l.bytes) ⟨.value, fn, fv, i, p.store ls⟩
  | almostDone {ls : List RawLine} {l : RawLine} {q : HeaderState} {fn fv : Bytes} {i : Nat}
      (hq : q = .almostDone ∨ q = .done) (hcr : CR ∈ l.tail) :
      HeaderInv p (rawBytes ls ++ l.bytes) ⟨q, fn, fv, i, p.store (ls ++ [l])⟩
  | closing {ls : List RawLine} {skip fn fv : Bytes} {i : Nat}
      (hskip : ∀ c ∈ skip, isSkipByte c = true) :
      HeaderInv p (rawBytes ls ++ (skip ++ [CR])) ⟨.headerAlmostDone, fn, fv, i, p.store ls⟩
  | closed {ls : List RawLine} {skip fn fv : Bytes} {q : HeaderState} {i : Nat} (e : Eol)
      (hskip : ∀ c ∈ skip, isSkipByte c = true) :
      HeaderInv p (rawBytes ls ++ (skip ++ e.bytes))
        ⟨q, fn, fv, i, { p.store ls with headerDone := true }⟩

/-- The line with one more byte behind it. -/
def RawLine.push (l : RawLine) (c : UInt8) (hc : c ≠ LF) (hs : l.tail = [] → c ≠ byte ' ') :
    RawLine :=
  { l with
    tail := l.tail ++ [c]
    tail_head := by
      cases h : l.tail with
      | nil => simpa using hs h
      | cons d ds => have := l.tail_head; rw [h] at this; simpa using this
    tail_ok := by
      simp only [List.mem_append, List.mem_singleton, not_or]
      exact ⟨l.tail_ok, fun h => hc h.symm⟩ }

theorem RawLine.push_bytes {l : RawLine} {c : UInt8} (hc : c ≠ LF)
    (hs : l.tail = [] → c ≠ byte ' ') : (l.push c hc hs).bytes = l.bytes ++ [c] := by
  simp [RawLine.bytes, RawLine.push]

/-- Behind a CR nothing changes the stored value any more. -/
theorem storedValue_append {t : Bytes} (hcr : CR ∈ t) (u : Bytes) :
    storedValue (t ++ u) = storedValue t := by
  cases t with
  | nil => simp at hcr
  | cons c t =>
    simp only [List.cons_append, storedValue]
    by_cases hc : c = CR
    · simp [hc]
    · have ht : CR ∈ t := by simpa [Ne.symm hc] using hcr
      by_cases h0 : c = 0
      · simp [h0]
      · simp only [hc, h0, if_false]
        have hlt : ((c :: t).takeWhile (· ≠ CR)).length ≠ (c :: t).length := by
          intro heq
          have hall := List.takeWhile_eq_self_iff.mp
            (List.takeWhile_prefix (p := (· ≠ CR)) (l := c :: t) |>.eq_of_length heq)
          exact absurd (hall CR (by simp [ht])) (by simp)
        rw [← List.cons_append, List.takeWhile_append, if_neg hlt]

/-- The CR that ends a value is not part of it. -/
theorem storedValue_cr {t : Bytes} (hcr : CR ∉ t) : storedValue (t ++ [CR]) = storedValue t := by
  have hall : ∀ d ∈ t, decide (d ≠ CR) = true := fun d hd =>
    decide_eq_true fun h => hcr (h ▸ hd)
  cases t with
  | nil => simp [storedValue]
  | cons c t =>
    have hc : c ≠ CR := fun h => hcr (by simp [h])
    simp only [List.cons_append, storedValue, hc, if_false]
    by_cases hz : c = 0
    · simp [hz]
    · simp only [hz, if_false]
      rw [← List.cons_append, List.takeWhile_append_of_pos hall,
        List.takeWhile_eq_self_iff.mpr hall]
      simp

/-- The value a terminated `fieldvalue` holds is the value stored for the line. -/
theorem cstr_eq_stored {t b b' : Bytes} {i : Nat} (hne : t ≠ []) (hcr : CR ∉ t) (h0 : 0 ∉ t.tail)
    (hh : Holds b i t) (hst : CArray.store b i 0 = some b') : cstr b' = storedValue t := by
  cases t with
  | nil => exact absurd rfl hne
  | cons c t =>
    have hc : c ≠ CR := fun h => hcr (by simp [h])
    have hall : (c :: t).takeWhile (· ≠ CR) = c :: t :=
      List.takeWhile_eq_self_iff.mpr fun d hd => by
        simpa using fun h : d = CR => hcr (h ▸ hd)
    by_cases hz : c = 0
    · obtain ⟨r, hr⟩ := (hh.store hst).pre
      rw [← hr]
      simp [cstr, storedValue, hz]
    · have h0' : 0 ∉ c :: t := by
        simp only [List.mem_cons, not_or]
        exact ⟨fun h => hz h.symm, h0⟩
      rw [hh.cstr hst h0', storedValue, if_neg hc, if_neg hz, hall]

/-! ## One pass -/

/-- The passes that go on, one constructor for each way through the body. -/
inductive HeaderStep (s : HeaderVars) : UInt8 → HeaderVars → Prop where
  | closing : s.state = .start → HeaderStep s CR { s with state := .headerAlmostDone }
  | close : s.state = .start → HeaderStep s LF s.setHeaderDone
  | skip {c : UInt8} : s.state = .start → isSkipByte c = true → HeaderStep s c s
  | first {c : UInt8} {b : Bytes} : s.state = .start → lowcase c = true →
      CArray.store s.fieldname 0 c = some b →
      HeaderStep s c { s with state := .name, fieldname := b, i := 1 }
  | name {c : UInt8} {b : Bytes} : s.state = .name → lowcase c = true →
      CArray.store s.fieldname s.i c = some b →
      HeaderStep s c { s with fieldname := b, i := s.i + 1 }
  | colon {b : Bytes} : s.state = .name → CArray.store s.fieldname s.i 0 = some b →
      HeaderStep s (byte ':') { s with fieldname := b, state := .spacesBeforeValue }
  | gap : s.state = .spacesBeforeValue → HeaderStep s (byte ' ') s
  | emptyCr : s.state = .spacesBeforeValue →
      HeaderStep s CR { s.setField [0] with state := .almostDone }
  | emptyLf : s.state = .spacesBeforeValue → HeaderStep s LF { s.setField [0] with state := .start }
  | valueFirst {c : UInt8} {b : Bytes} : s.state = .spacesBeforeValue →
      c ≠ byte ' ' ∧ c ≠ CR ∧ c ≠ LF → CArray.store s.fieldvalue 0 c = some b →
      HeaderStep s c { s with state := .value, fieldvalue := b, i := 1 }
  | value {c : UInt8} {b : Bytes} : s.state = .value → c ≠ CR ∧ c ≠ LF ∧ c ≠ 0 →
      CArray.store s.fieldvalue s.i c = some b →
      HeaderStep s c { s with fieldvalue := b, i := s.i + 1 }
  | valueEnd {c : UInt8} {b : Bytes} {q : HeaderState} : s.state = .value →
      (c = CR ∧ q = .almostDone) ∨ (c = LF ∧ q = .start) →
      CArray.store s.fieldvalue s.i 0 = some b →
      HeaderStep s c { { s with fieldvalue := b }.setField (cstr b) with state := q }
  | hidden {c : UInt8} {q : HeaderState} : s.state = .almostDone ∨ s.state = .done → c ≠ LF →
      q = .almostDone ∨ q = .done → HeaderStep s c { s with state := q }
  | lineEnd : s.state = .almostDone ∨ s.state = .done → HeaderStep s LF { s with state := .start }
  | crlf : s.state = .headerAlmostDone →
      HeaderStep s LF { s.setHeaderDone with state := .headerDone }

theorem HeaderVars.putName_eq {s s' : HeaderVars} {c : UInt8} (h : s.putName c = some s') :
    ∃ b, CArray.store s.fieldname s.i c = some b ∧
      s' = { s with fieldname := b, i := s.i + 1 } := by
  simp only [HeaderVars.putName, Option.map_eq_some_iff] at h
  obtain ⟨b, hb, rfl⟩ := h
  exact ⟨b, hb, rfl⟩

theorem HeaderVars.putValue_eq {s s' : HeaderVars} {c : UInt8} (h : s.putValue c = some s') :
    ∃ b, CArray.store s.fieldvalue s.i c = some b ∧
      s' = { s with fieldvalue := b, i := s.i + 1 } := by
  simp only [HeaderVars.putValue, Option.map_eq_some_iff] at h
  obtain ⟨b, hb, rfl⟩ := h
  exact ⟨b, hb, rfl⟩

theorem HeaderVars.endValue_eq {s s' : HeaderVars} (h : s.endValue = some s') :
    ∃ b, CArray.store s.fieldvalue s.i 0 = some b ∧
      s' = { s with fieldvalue := b }.setField (cstr b) := by
  simp only [HeaderVars.endValue, Option.map_eq_some_iff] at h
  obtain ⟨b, hb, rfl⟩ := h
  exact ⟨b, hb, rfl⟩

section OfNext

variable {s s' : HeaderVars} {c : UInt8}

theorem headerStep_start (hs : s.state = .start) (h : headerBody c s = .next s') :
    HeaderStep s c s' := by
  simp only [headerBody, hs] at h
  split at h
  · rename_i hcr
    cases h
    rw [hcr]
    exact .closing hs
  · rename_i hcr
    split at h
    · rename_i hlf
      cases h
      rw [hlf]
      exact .close hs
    · rename_i hlf
      split at h
      · rename_i hlow
        obtain ⟨s₁, hput, h⟩ := Pass.must_next h
        cases h
        obtain ⟨b, hb, rfl⟩ := HeaderVars.putName_eq hput
        exact .first hs hlow hb
      · rename_i hlow
        cases h
        exact .skip hs (by simp [isSkipByte, hlow, hcr, hlf])

theorem headerStep_name (hs : s.state = .name) (h : headerBody c s = .next s') :
    HeaderStep s c s' := by
  simp only [headerBody, hs] at h
  split at h
  · rename_i hc
    obtain ⟨s₁, hput, h⟩ := Pass.must_next h
    cases h
    obtain ⟨b, hb, rfl⟩ := HeaderVars.putName_eq hput
    exact .name hs hc.1 hb
  · split at h
    · rename_i hc
      obtain ⟨b, hb, h⟩ := Pass.must_next h
      cases h
      rw [hc.1]
      exact .colon hs hb
    · cases h

theorem headerStep_spacesBeforeValue (hs : s.state = .spacesBeforeValue)
    (h : headerBody c s = .next s') : HeaderStep s c s' := by
  simp only [headerBody, hs] at h
  split at h
  · rename_i hsp
    cases h
    rw [hsp]
    exact .gap hs
  · rename_i hsp
    split at h
    · rename_i hcr
      cases h
      rw [hcr]
      exact .emptyCr hs
    · rename_i hcr
      split at h
      · rename_i hlf
        cases h
        rw [hlf]
        exact .emptyLf hs
      · rename_i hlf
        obtain ⟨s₁, hput, h⟩ := Pass.must_next h
        cases h
        obtain ⟨b, hb, rfl⟩ := HeaderVars.putValue_eq hput
        exact .valueFirst hs ⟨hsp, hcr, hlf⟩ hb

theorem headerStep_value (hs : s.state = .value) (h : headerBody c s = .next s') :
    HeaderStep s c s' := by
  have keep : c ≠ CR ∧ c ≠ LF ∧ c ≠ 0 → Pass.must (s.putValue c) .next = (.next s' : HeaderPass) →
      HeaderStep s c s' := by
    intro hc h
    obtain ⟨s₁, hput, h⟩ := Pass.must_next h
    cases h
    obtain ⟨b, hb, rfl⟩ := HeaderVars.putValue_eq hput
    exact .value hs hc hb
  have close : ∀ {q : HeaderState}, (c = CR ∧ q = .almostDone) ∨ (c = LF ∧ q = .start) →
      Pass.must s.endValue (fun s => .next { s with state := q }) = (.next s' : HeaderPass) →
      HeaderStep s c s' := by
    intro q hq h
    obtain ⟨s₁, hend, h⟩ := Pass.must_next h
    cases h
    obtain ⟨b, hb, rfl⟩ := HeaderVars.endValue_eq hend
    exact .valueEnd hs hq hb
  simp only [headerBody, hs] at h
  split at h
  · rename_i hsp
    exact keep (by rw [hsp]; decide) h
  · split at h
    · rename_i hcr
      exact close (.inl ⟨hcr, rfl⟩) h
    · rename_i hcr
      split at h
      · rename_i hlf
        exact close (.inr ⟨hlf, rfl⟩) h
      · rename_i hlf
        split at h
        · cases h
        · rename_i hz
          exact keep ⟨hcr, hlf, hz⟩ h

theorem headerStep_almostDone (hs : s.state = .almostDone) (h : headerBody c s = .next s') :
    HeaderStep s c s' := by
  obtain ⟨q, n, v, i, p⟩ := s
  cases hs
  simp only [headerBody] at h
  split at h
  · rename_i hcr
    cases h
    exact .hidden (.inl rfl) (by rw [hcr]; decide) (.inr rfl)
  · split at h
    · rename_i hlf
      cases h
      rw [hlf]
      exact .lineEnd (.inl rfl)
    · rename_i hlf
      cases h
      exact .hidden (q := .almostDone) (.inl rfl) hlf (.inl rfl)

theorem headerStep_done (hs : s.state = .done) (h : headerBody c s = .next s') :
    HeaderStep s c s' := by
  obtain ⟨q, n, v, i, p⟩ := s
  cases hs
  simp only [headerBody] at h
  split at h
  · rename_i hlf
    cases h
    rw [hlf]
    exact .lineEnd (.inr rfl)
  · rename_i hlf
    cases h
    exact .hidden (q := .done) (.inr rfl) hlf (.inr rfl)

theorem headerStep_headerAlmostDone (hs : s.state = .headerAlmostDone)
    (h : headerBody c s = .next s') : HeaderStep s c s' := by
  simp only [headerBody, hs] at h
  split at h
  · rename_i hlf
    cases h
    rw [hlf]
    exact .crlf hs
  · cases h

end OfNext

theorem headerStep_of_next {s s' : HeaderVars} {c : UInt8} (h : headerBody c s = .next s') :
    HeaderStep s c s' := by
  cases hs : s.state with
  | start => exact headerStep_start hs h
  | name => exact headerStep_name hs h
  | spacesBeforeValue => exact headerStep_spacesBeforeValue hs h
  | value => exact headerStep_value hs h
  | almostDone => exact headerStep_almostDone hs h
  | done => exact headerStep_done hs h
  | headerAlmostDone => exact headerStep_headerAlmostDone hs h
  | spacesAfterValue | headerDone =>
    simp only [headerBody, hs] at h
    cases h

/-! ## What a pass does to the invariant -/

section Step

variable {p : Parser} {ls : List RawLine} {fn fv : Bytes} {i : Nat}

/-- A complete line joins the lines read. -/
theorem HeaderInv.endLine {l : RawLine} {q : Parser} (hq : q = p.store (ls ++ [l])) :
    HeaderInv p (rawBytes ls ++ l.bytes ++ [LF]) ⟨.start, fn, fv, i, q⟩ := by
  have h : HeaderInv p (rawBytes (ls ++ [l]) ++ []) ⟨.start, fn, fv, i, p.store (ls ++ [l])⟩ :=
    .start (by simp)
  rw [rawBytes_concat, ← hq] at h
  simpa using h

/-- So does one whose value has just ended; a CR behind the value belongs to the line. -/
theorem HeaderInv.endValue {l : RawLine} {c : UInt8} {q : HeaderState} {p' : Parser}
    (hp : p' = p.store (ls ++ [l])) (hcr : CR ∉ l.tail)
    (hq : (c = CR ∧ q = .almostDone) ∨ (c = LF ∧ q = .start)) :
    HeaderInv p (rawBytes ls ++ l.bytes ++ [c]) ⟨q, fn, fv, i, p'⟩ := by
  rcases hq with ⟨rfl, rfl⟩ | ⟨rfl, rfl⟩
  · have hsp : l.tail = [] → CR ≠ byte ' ' := fun _ => by decide
    have hkeep : p.store (ls ++ [l]) = p.store (ls ++ [l.push CR (by simp) hsp]) := by
      rw [Parser.store_concat, Parser.store_concat]
      simp only [RawLine.push]
      rw [storedValue_cr hcr]
    rw [hp, hkeep, List.append_assoc, ← RawLine.push_bytes (by simp) hsp]
    exact .almostDone (.inl rfl) (by simp [RawLine.push])
  · exact HeaderInv.endLine hp

variable {s' : HeaderVars} {c : UInt8}

theorem headerInv_start {skip : Bytes} (hskip : ∀ c ∈ skip, isSkipByte c = true)
    (h : HeaderStep ⟨.start, fn, fv, i, p.store ls⟩ c s') :
    HeaderInv p (rawBytes ls ++ skip ++ [c]) s' := by
  rw [List.append_assoc]
  cases h with
  | closing => exact .closing hskip
  | close => exact .closed .lf hskip
  | skip _ hc =>
    exact .start (List.forall_mem_append.mpr ⟨hskip, List.forall_mem_singleton.mpr hc⟩)
  | first _ hlow hst =>
    exact .name hskip (by simpa using hlow) (by simp) ((Holds.nil fn).store hst)
  | hidden hs | lineEnd hs => rcases hs with hs | hs <;> cases hs
  | _ => contradiction

theorem headerInv_name {skip name : Bytes} (hskip : ∀ c ∈ skip, isSkipByte c = true)
    (hname : ∀ c ∈ name, lowcase c = true) (hne : name ≠ []) (hfn : Holds fn i name)
    (h : HeaderStep ⟨.name, fn, fv, i, p.store ls⟩ c s') :
    HeaderInv p (rawBytes ls ++ (skip ++ name) ++ [c]) s' := by
  cases h with
  | name _ hlow hst =>
    rw [List.append_assoc, List.append_assoc skip]
    have hname' := List.forall_mem_append.mpr ⟨hname, List.forall_mem_singleton.mpr hlow⟩
    exact .name hskip hname' (by simp) (hfn.store hst)
  | colon _ hst =>
    have h0 : 0 ∉ name := fun hz => (lowcase_ne 0 (hname 0 hz)).1 rfl
    let l : RawLine := ⟨skip, name, [], [], hskip, hname, hne, by simp, by simp, by simp⟩
    have hl : rawBytes ls ++ (skip ++ name) ++ [byte ':'] = rawBytes ls ++ l.bytes := by
      simp [RawLine.bytes, l]
    rw [hl]
    exact .spaces rfl (hfn.cstr hst h0)
  | hidden hs | lineEnd hs => rcases hs with hs | hs <;> cases hs
  | _ => contradiction

theorem headerInv_spaces {l : RawLine} (htail : l.tail = []) (hfn : cstr fn = l.name)
    (h : HeaderStep ⟨.spacesBeforeValue, fn, fv, i, p.store ls⟩ c s') :
    HeaderInv p (rawBytes ls ++ l.bytes ++ [c]) s' := by
  have hstore : ((⟨.spacesBeforeValue, fn, fv, i, p.store ls⟩ : HeaderVars).setField [0]).par =
      p.store (ls ++ [l]) := by
    rw [Parser.store_concat]
    simp [HeaderVars.setField, Parser.setFields, hfn, htail, storedValue]
  cases h with
  | gap =>
    let l' : RawLine := { l with
      gap := l.gap ++ [byte ' ']
      gap_ok := List.forall_mem_append.mpr ⟨l.gap_ok, List.forall_mem_singleton.mpr rfl⟩ }
    have hl : rawBytes ls ++ l.bytes ++ [byte ' '] = rawBytes ls ++ l'.bytes := by
      simp [RawLine.bytes, l', htail]
    rw [hl]
    exact .spaces htail hfn
  | emptyCr => exact .endValue hstore (by simp [htail]) (.inl ⟨rfl, rfl⟩)
  | emptyLf => exact .endValue hstore (by simp [htail]) (.inr ⟨rfl, rfl⟩)
  | valueFirst _ hc hst =>
    rw [List.append_assoc, ← RawLine.push_bytes hc.2.2 fun _ => hc.1]
    refine .value (by simp [RawLine.push]) ?_ (by simp [RawLine.push, htail]) hfn ?_
    · simpa [RawLine.push, htail] using Ne.symm hc.2.1
    · simpa [RawLine.push, htail] using (Holds.nil fv).store hst
  | hidden hs | lineEnd hs => rcases hs with hs | hs <;> cases hs
  | _ => contradiction

theorem headerInv_value {l : RawLine} (htail : l.tail ≠ []) (hcr : CR ∉ l.tail)
    (h0 : 0 ∉ l.tail.tail) (hfn : cstr fn = l.name) (hfv : Holds fv i l.tail)
    (h : HeaderStep ⟨.value, fn, fv, i, p.store ls⟩ c s') :
    HeaderInv p (rawBytes ls ++ l.bytes ++ [c]) s' := by
  cases h with
  | value _ hc hst =>
    obtain ⟨hc, hlf, hz⟩ := hc
    rw [List.append_assoc, ← RawLine.push_bytes hlf fun ht => absurd ht htail]
    refine .value (by simp [RawLine.push]) ?_ ?_ hfn (hfv.store hst)
    · simp only [RawLine.push, List.mem_append, List.mem_singleton, not_or]
      exact ⟨hcr, Ne.symm hc⟩
    · rw [RawLine.push, List.tail_append_of_ne_nil htail]
      simp only [List.mem_append, List.mem_singleton, not_or]
      exact ⟨h0, Ne.symm hz⟩
  | valueEnd _ hq hst =>
    refine .endValue ?_ hcr hq
    rw [Parser.store_concat, ← cstr_eq_stored htail hcr h0 hfv hst, ← hfn]
    rfl
  | hidden hs | lineEnd hs => rcases hs with hs | hs <;> cases hs
  | _ => contradiction

theorem headerInv_almostDone {l : RawLine} {q : HeaderState} (hq : q = .almostDone ∨ q = .done)
    (hcr : CR ∈ l.tail) (h : HeaderStep ⟨q, fn, fv, i, p.store (ls ++ [l])⟩ c s') :
    HeaderInv p (rawBytes ls ++ l.bytes ++ [c]) s' := by
  have hne : l.tail ≠ [] := fun ht => by simp [ht] at hcr
  cases h with
  | hidden _ hlf hq' =>
    have hkeep : p.store (ls ++ [l]) = p.store (ls ++ [l.push c hlf fun ht => absurd ht hne]) := by
      rw [Parser.store_concat, Parser.store_concat]
      simp only [RawLine.push]
      rw [storedValue_append hcr]
    rw [hkeep, List.append_assoc, ← RawLine.push_bytes hlf fun ht => absurd ht hne]
    exact .almostDone hq' (by simp [RawLine.push, hcr])
  | lineEnd => exact HeaderInv.endLine rfl
  | _ => rcases hq with rfl | rfl <;> contradiction

theorem headerInv_closing {skip : Bytes} (hskip : ∀ c ∈ skip, isSkipByte c = true)
    (h : HeaderStep ⟨.headerAlmostDone, fn, fv, i, p.store ls⟩ c s') :
    HeaderInv p (rawBytes ls ++ (skip ++ [CR]) ++ [c]) s' := by
  cases h with
  | crlf =>
    rw [List.append_assoc, List.append_assoc skip]
    exact .closed .crlf hskip
  | hidden hs | lineEnd hs => rcases hs with hs | hs <;> cases hs
  | _ => contradiction

end Step

/-- Every pass that goes on keeps the invariant. -/
theorem headerInv_step {p : Parser} {bs : Bytes} {s s' : HeaderVars} {c : UInt8}
    (hg : headerGuard s = true) (hi : HeaderInv p bs s) (h : headerBody c s = .next s') :
    HeaderInv p (bs ++ [c]) s' := by
  have hstep := headerStep_of_next h
  cases hi with
  | start hskip => exact headerInv_start hskip hstep
  | name hskip hname hne hfn => exact headerInv_name hskip hname hne hfn hstep
  | spaces htail hfn => exact headerInv_spaces htail hfn hstep
  | value htail hcr h0 hfn hfv => exact headerInv_value htail hcr h0 hfn hfv hstep
  | almostDone hq hcr => exact headerInv_almostDone hq hcr hstep
  | closing hskip => exact headerInv_closing hskip hstep
  | closed e hskip => simp [headerGuard] at hg

/-- A pass that returns leaves the variables as they are. -/
theorem headerBody_ret {c : UInt8} {s t : HeaderVars} {ec : ParserEc}
    (h : headerBody c s = .ret ec t) : t = s := by
  unfold headerBody at h
  split at h <;> (repeat' split at h) <;> first
    | (cases h <;> rfl)
    | exact absurd h Pass.must_next_ne_ret

theorem headerBody_error {c : UInt8} {s t : HeaderVars} {ec : ParserEc}
    (h : headerBody c s = .ret ec t) : ec ≠ .ok := by
  rintro rfl
  unfold headerBody at h
  split at h <;> (repeat' split at h) <;> first
    | cases h
    | exact absurd h Pass.must_next_ne_ret

/-- A head that `read_header` declares done consists of raw field lines and a closing line. -/
theorem readFields_sound {fn fv is rest : Bytes} {p p' : Parser} {ec : ParserEc}
    (h : readFields fn fv is p = some (ec, p', rest)) (hp : p.headerDone = false)
    (hd : p'.headerDone = true) :
    ec = .ok ∧ ∃ (ls : List RawLine) (skip : Bytes) (e : Eol), (∀ c ∈ skip, isSkipByte c = true) ∧
      is = rawBytes ls ++ (skip ++ e.bytes) ++ rest ∧
      p' = { p.store ls with headerDone := true } := by
  have hstart : HeaderInv p (rawBytes [] ++ []) ⟨.start, fn, fv, 0, p.store []⟩ := .start (by simp)
  unfold readFields at h
  split at h
  · rename_i t r hloop
    cases h
    obtain ⟨used, rfl, hr, -⟩ := exit_done hloop
    have hinv := hr.invariant (fun _ _ _ _ hg hi hb => headerInv_step hg hi hb) [] hstart
    simp only [List.nil_append] at hinv
    cases hinv with
    | closed e hskip => exact ⟨rfl, _, _, e, hskip, rfl, rfl⟩
    | start | name | spaces | value | almostDone | closing =>
      simp [Parser.store, Parser.setFields, hp] at hd
  · rename_i ec' t r hloop
    cases h
    obtain ⟨used, c, u, -, hr, hg, hb⟩ := exit_ret hloop
    rw [headerBody_ret hb] at hd
    simp [headerGuard, hd] at hg
  · cases h

end Http
end SimpleWeb
