import SimpleWeb.Http.FieldSound
import SimpleWeb.Http.LineSound
import SimpleWeb.Http.HeadCorrect

/-!
# Http.FieldFidelity

Reading header fields line by line: cut at each LF, drop the CR before it, split every line but
the empty last one at its colon (`referenceFields`). `readHeader_fields_iff` says exactly when the
fields `read_header` stores are the fields this reader gives: `read_header` differs on lines with
bytes before the name, and on last lines of a name whose value is empty, starts with a NUL or
holds a CR.
-/

namespace SimpleWeb
namespace Http

/-! ## The line reader -/

/-- Cut at each LF. -/
def cutLines : Bytes → List Bytes
  | [] => []
  | c :: cs =>
    if c = LF then [] :: cutLines cs
    else
      match cutLines cs with
      | [] => [[c]]
      | l :: ls => (c :: l) :: ls

def dropCR (l : Bytes) : Bytes := if l.getLast? = some CR then l.dropLast else l

/-- A line `name: value`, cut at its colon; the spaces behind the colon are dropped. -/
def readLine (l : Bytes) : Option (Bytes × Bytes) :=
  let name := l.takeWhile isNameByte
  match l.dropWhile isNameByte with
  | [] => none
  | c :: cs =>
    if name ≠ [] ∧ c = byte ':' then some (name, cs.dropWhile (· = byte ' ')) else none

/-- Names and values of all lines up to the empty one, which must be the last. -/
def referenceLines : List Bytes → Option (List (Bytes × Bytes))
  | [] => none
  | [l] => if l = [] then some [] else none
  | l :: ls =>
    match readLine l, referenceLines ls with
    | some nv, some nvs => some (nv :: nvs)
    | _, _ => none

def referenceFields (bs : Bytes) : Option Fields :=
  (referenceLines ((cutLines bs).map dropCR)).map fun nvs =>
    nvs.foldl (fun m nv => m.insert nv.1 nv.2) ∅

/-- A value that `read_header` stores as it is. -/
def PlainValue (v : Bytes) : Prop := v ≠ [] ∧ v.head? ≠ some 0 ∧ CR ∉ v

/-- The line reader accepts the bytes, and the last value of every name is a plain one. -/
def PlainFields (bs : Bytes) : Prop :=
  ∃ m, referenceFields bs = some m ∧ ∀ (k v : Bytes), m[k]? = some v → PlainValue v

/-! ## Raw lines under the line reader -/

theorem cutLines_line {l : Bytes} (hl : LF ∉ l) (bs : Bytes) :
    cutLines (l ++ LF :: bs) = l :: cutLines bs := by
  induction l with
  | nil => simp [cutLines]
  | cons c l ih =>
    simp only [List.mem_cons, not_or] at hl
    simp [cutLines, Ne.symm hl.1, ih hl.2]

theorem isSkipByte_ne {c : UInt8} (h : isSkipByte c = true) :
    isNameByte c = false ∧ c ≠ CR ∧ c ≠ LF := by
  revert c; decide +kernel

theorem isNameByte_colon : isNameByte (byte ':') = false := by
  rw [isNameByte_eq, lowcase_colon]

theorem RawLine.lf_notMem (l : RawLine) : LF ∉ l.bytes := by
  simp only [RawLine.bytes, List.mem_append, List.mem_cons, not_or]
  refine ⟨⟨⟨?_, ?_⟩, by simp, ?_⟩, l.tail_ok⟩
  · exact fun h => (isSkipByte_ne (l.skip_ok _ h)).2.2 rfl
  · exact fun h => (lowcase_ne _ (l.name_ok _ h)).2.1 rfl
  · exact fun h => absurd (l.gap_ok _ h) (by simp)

theorem cutLines_rawBytes (ls : List RawLine) (bs : Bytes) :
    cutLines (rawBytes ls ++ bs) = ls.map RawLine.bytes ++ cutLines bs := by
  induction ls with
  | nil => rfl
  | cons l ls ih =>
    have hcut := cutLines_line l.lf_notMem (rawBytes ls ++ bs)
    rw [ih] at hcut
    simpa [rawBytes] using hcut

theorem dropCR_append {l r : Bytes} (hr : r ≠ []) : dropCR (l ++ r) = l ++ dropCR r := by
  have hlast : (l ++ r).getLast? = r.getLast? := by
    rw [List.getLast?_append]
    cases h : r.getLast? with
    | none => exact absurd (List.getLast?_eq_none_iff.mp h) hr
    | some c => rfl
  unfold dropCR
  rw [hlast]
  split
  · rw [List.dropLast_append_of_ne_nil hr]
  · rfl

theorem dropCR_of_notMem {l : Bytes} (h : CR ∉ l) : dropCR l = l :=
  if_neg fun hl => h (List.mem_of_getLast? hl)

theorem dropCR_cr (l : Bytes) : dropCR (l ++ [CR]) = l := by simp [dropCR]

/-- The closing line under the line reader. -/
theorem cutLines_closing {skip : Bytes} (hskip : ∀ c ∈ skip, isSkipByte c = true) (e : Eol) :
    (cutLines (skip ++ e.bytes)).map dropCR = [skip] := by
  have hlf : LF ∉ skip := fun h => (isSkipByte_ne (hskip _ h)).2.2 rfl
  have hcr : CR ∉ skip := fun h => (isSkipByte_ne (hskip _ h)).2.1 rfl
  cases e with
  | lf =>
    have hcut := cutLines_line hlf []
    simp [Eol.bytes, hcut, cutLines, dropCR_of_notMem hcr]
  | crlf =>
    have hlf' : LF ∉ skip ++ [CR] := by
      simp only [List.mem_append, List.mem_singleton, not_or]
      exact ⟨hlf, by simp⟩
    have hcut := cutLines_line hlf' []
    rw [List.append_assoc, List.singleton_append] at hcut
    simp [Eol.bytes, hcut, cutLines, dropCR_cr]

theorem dropCR_cases (l : Bytes) : l = dropCR l ∨ l = dropCR l ++ [CR] := by
  unfold dropCR
  split
  · rename_i h
    exact .inr (List.dropLast_append_getLast? CR h).symm
  · exact .inl rfl

theorem takeWhile_name {name : Bytes} (hname : ∀ c ∈ name, isNameByte c = true) (bs : Bytes) :
    (name ++ byte ':' :: bs).takeWhile isNameByte = name ∧
      (name ++ byte ':' :: bs).dropWhile isNameByte = byte ':' :: bs := by
  rw [List.takeWhile_append_of_pos hname, List.dropWhile_append_of_pos hname]
  simp [isNameByte_colon]

/-- Dropping the CR of a line that starts with a colon and spaces drops the CR of its tail. -/
theorem dropCR_gap {gap tail : Bytes} (hgap : ∀ c ∈ gap, c = byte ' ') :
    dropCR (byte ':' :: gap ++ tail) = byte ':' :: gap ++ dropCR tail := by
  by_cases ht : tail = []
  · subst ht
    have hcr : CR ∉ byte ':' :: gap := by
      simp only [List.mem_cons, not_or]
      exact ⟨by simp, fun h => absurd (hgap _ h) (by simp)⟩
    rw [List.append_nil, dropCR_of_notMem hcr]
    simp [dropCR]
  · exact dropCR_append ht

theorem dropCR_head {t : Bytes} (h : t.head? ≠ some (byte ' ')) :
    (dropCR t).dropWhile (· = byte ' ') = dropCR t := by
  cases t with
  | nil => rfl
  | cons c t =>
    have hc : c ≠ byte ' ' := by simpa using h
    cases t with
    | nil =>
      by_cases hcr : c = CR
      · simp [dropCR, hcr]
      · simp [dropCR, hcr, hc]
    | cons d t =>
      have hsplit := dropCR_append (l := [c]) (r := d :: t) (by simp)
      rw [List.singleton_append, List.singleton_append] at hsplit
      rw [hsplit]
      simp [hc]

/-- The line reader rejects a line with bytes before its name, and reads any other. -/
theorem readLine_raw (l : RawLine) :
    readLine (dropCR l.bytes) = if l.skip = [] then some (l.name, dropCR l.tail) else none := by
  have hsplit : dropCR l.bytes = l.skip ++ l.name ++ (byte ':' :: l.gap ++ dropCR l.tail) := by
    rw [← dropCR_gap l.gap_ok, ← dropCR_append (by simp)]
    simp [RawLine.bytes]
  rw [hsplit]
  split
  · rename_i hs
    obtain ⟨htake, hdrop⟩ := takeWhile_name
      (fun c hc => (isNameByte_eq c).trans (l.name_ok c hc)) (l.gap ++ dropCR l.tail)
    simp only [readLine, hs, List.nil_append, List.cons_append, htake, hdrop]
    rw [if_pos ⟨l.name_ne, trivial⟩,
      List.dropWhile_append_of_pos (fun c hc => by simpa using l.gap_ok c hc),
      dropCR_head l.tail_head]
  · rename_i hs
    obtain ⟨c, cs, hc⟩ := List.exists_cons_of_ne_nil hs
    have hn : isNameByte c = false := (isSkipByte_ne (l.skip_ok c (by simp [hc]))).1
    simp [readLine, hc, hn]

/-- The line reader accepts raw lines and a closing line just when nothing was skipped. -/
theorem referenceLines_raw (ls : List RawLine) (skip : Bytes) :
    referenceLines ((ls.map RawLine.bytes).map dropCR ++ [skip]) =
      if (∀ l ∈ ls, l.skip = []) ∧ skip = [] then
        some (ls.map fun l => (l.name, dropCR l.tail))
      else none := by
  induction ls with
  | nil => simp [referenceLines]
  | cons l ls ih =>
    have hstep : ∀ (l₀ : Bytes) (rest : List Bytes), rest ≠ [] → referenceLines (l₀ :: rest) =
        match readLine l₀, referenceLines rest with
        | some nv, some nvs => some (nv :: nvs)
        | _, _ => none := by
      intro l₀ rest hne
      cases rest with
      | nil => exact absurd rfl hne
      | cons r rs => rfl
    simp only [List.map_cons, List.cons_append]
    rw [hstep _ _ (by simp), readLine_raw, ih]
    by_cases hl : l.skip = []
    · by_cases hrest : (∀ l ∈ ls, l.skip = []) ∧ skip = []
      · rw [if_pos hl, if_pos hrest, if_pos (by simpa [hl] using hrest)]
      · rw [if_pos hl, if_neg hrest, if_neg]
        simpa [hl] using hrest
    · simp [hl]

/-! ## Two ways to assign the same lines -/

theorem foldl_insert_eq (ls : List RawLine) (f : Bytes → Bytes) (m : Fields) :
    (ls.map fun l => (l.name, f l.tail)).foldl (fun m nv => m.insert nv.1 nv.2) m =
      assignBy f m ls := by
  rw [List.foldl_map]; rfl

def lastLine (ls : List RawLine) (k : Bytes) : Option RawLine :=
  ls.reverse.find? fun l => l.name = k

theorem getElem?_assignBy (f : Bytes → Bytes) (ls : List RawLine) (m : Fields) (k : Bytes) :
    (assignBy f m ls)[k]? = ((lastLine ls k).map fun l => f l.tail).or m[k]? :=
  getElem?_foldl_insert RawLine.name (fun l => f l.tail) ls m k

/-- The stored value is the value behind the CR just when that value is plain. -/
theorem storedValue_eq_iff (t : Bytes) : storedValue t = dropCR t ↔ PlainValue (dropCR t) := by
  cases hr : dropCR t with
  | nil =>
    have hst : storedValue t = [0] := by
      rcases dropCR_cases t with ht | ht
      · rw [ht, hr]; rfl
      · rw [ht, hr]; rfl
    simp [hst, PlainValue]
  | cons c r =>
    obtain ⟨u, ht, hu⟩ : ∃ u, t = c :: (r ++ u) ∧ (u = [] ∨ u = [CR]) := by
      rcases dropCR_cases t with ht | ht
      · exact ⟨[], by rw [ht, hr]; simp, .inl rfl⟩
      · exact ⟨[CR], by rw [ht, hr]; simp, .inr rfl⟩
    rw [ht]
    by_cases hcr : c = CR
    · simp [storedValue, PlainValue, hcr]
    by_cases h0 : c = 0
    · simp [storedValue, PlainValue, h0]
    simp only [storedValue, hcr, h0, if_false]
    constructor
    · intro heq
      refine ⟨by simp, by simpa using h0, ?_⟩
      intro hm
      rw [← heq] at hm
      simpa using List.mem_takeWhile_imp hm
    · rintro ⟨-, -, hm⟩
      have hall : ∀ d ∈ c :: r, decide (d ≠ CR) = true := fun d hd =>
        decide_eq_true fun h => hm (h ▸ hd)
      rw [← List.cons_append, List.takeWhile_append_of_pos hall]
      rcases hu with rfl | rfl <;> simp

theorem assignBy_eq_iff (ls : List RawLine) :
    assignBy storedValue ∅ ls = assignBy dropCR ∅ ls ↔
      ∀ k v : Bytes, (assignBy dropCR ∅ ls)[k]? = some v → PlainValue v := by
  constructor
  · intro heq k v hv
    have hk : (assignBy storedValue ∅ ls)[k]? = some v := by rw [heq, hv]
    rw [getElem?_assignBy] at hv hk
    cases hl : lastLine ls k with
    | none => simp [hl] at hv
    | some l =>
      simp only [hl, Option.map_some, Option.some_or, Option.some.injEq] at hv hk
      rw [← hv]
      exact (storedValue_eq_iff l.tail).mp (hk.trans hv.symm)
  · intro h
    refine Std.ExtTreeMap.ext_getElem? ?_
    intro k
    have hk := h k
    rw [getElem?_assignBy] at hk ⊢
    rw [getElem?_assignBy]
    cases hl : lastLine ls k with
    | none => rfl
    | some l =>
      simp only [hl, Option.map_some, Option.some_or, Option.some.injEq] at hk ⊢
      exact (storedValue_eq_iff l.tail).mpr (hk _ rfl)

theorem referenceFields_raw (ls : List RawLine) {skip : Bytes}
    (hskip : ∀ c ∈ skip, isSkipByte c = true) (e : Eol) :
    referenceFields (rawBytes ls ++ (skip ++ e.bytes)) =
      if (∀ l ∈ ls, l.skip = []) ∧ skip = [] then some (assignBy dropCR ∅ ls) else none := by
  rw [referenceFields, cutLines_rawBytes, List.map_append, cutLines_closing hskip,
    referenceLines_raw]
  split
  · rw [Option.map_some, foldl_insert_eq]
  · rfl

/-! ## Field fidelity -/

/-- The fields behind the request line are the reference reader's fields exactly when that reader
accepts the bytes read and the last value of every name is a plain one. The arrays may have any
size; a run that leaves them has no result. -/
theorem readHeader_fields_iff (st : Stack) {is used rest : Bytes} {p par : Parser} {ec : ParserEc}
    (hline : readHeaderLine st.buffer is Parser.init = some (.ok, p, used ++ rest))
    (h : readHeader st is Parser.init = some (ec, par, rest)) (hd : par.headerDone = true) :
    referenceFields used = some par.message.fields ↔ PlainFields used := by
  obtain ⟨hfields, hopen, -⟩ := readHeaderLine_frame hline
  rw [readHeader, hline] at h
  obtain ⟨-, ls, skip, e, hskip, hbytes, rfl⟩ := readFields_sound h hopen hd
  have hused : used = rawBytes ls ++ (skip ++ e.bytes) := List.append_cancel_right hbytes
  have hstored : ({ p.store ls with headerDone := true } : Parser).message.fields =
      assignBy storedValue ∅ ls := by
    simp only [Parser.store, Parser.setFields, hfields]
    rfl
  rw [hstored, hused, PlainFields, referenceFields_raw ls hskip e]
  by_cases hclean : (∀ l ∈ ls, l.skip = []) ∧ skip = []
  · simp only [if_pos hclean, Option.some.injEq, exists_eq_left']
    rw [eq_comm]
    exact assignBy_eq_iff ls
  · simp [if_neg hclean]

theorem readHeader_fields_iff_parserTest :
    referenceFields (linesBytes parserTestHead.fields ++ parserTestHead.eol.bytes) =
      some parserTestHead.parser.message.fields := by
  have hvalues : (referenceFields (linesBytes parserTestHead.fields ++
      parserTestHead.eol.bytes)).map (fun m => decide (∀ kv ∈ m.toList,
        kv.2 ≠ [] ∧ kv.2.head? ≠ some 0 ∧ CR ∉ kv.2)) = some true := by
    decide +kernel
  obtain ⟨m, hm, hplain⟩ := Option.map_eq_some_iff.mp hvalues
  refine (readHeader_fields_iff .zero
    (readHeaderLine_bytes parserTestHead.line parserTestHead_fits.line _ .init)
    (by rw [List.append_assoc, ← List.append_assoc]
        exact readHeader_bytes parserTestHead parserTestHead_fits (ascii "rest")) rfl).mpr
    ⟨m, hm, ?_⟩
  intro k v hkv
  exact of_decide_eq_true hplain (k, v) (Std.ExtTreeMap.mem_toList_iff_getElem?_eq_some.mpr hkv)

def getLine : Bytes := ascii "GET / HTTP/1.0\r\n"

/-- `Host` without a value, stored as a string of one NUL instead of the empty one. -/
theorem readHeader_emptyValue :
    ∃ p par, readHeaderLine Stack.zero.buffer (getLine ++ ascii "Host:\r\n\r\n") .init =
        some (.ok, p, ascii "Host:\r\n\r\n" ++ []) ∧
      readHeader .zero (getLine ++ ascii "Host:\r\n\r\n") .init = some (.ok, par, []) ∧
      par.headerDone = true ∧
      referenceFields (ascii "Host:\r\n\r\n") ≠ some par.message.fields := by
  have hrest : (readHeaderLine Stack.zero.buffer (getLine ++ ascii "Host:\r\n\r\n") .init).map
      (fun r => (r.1, r.2.2)) = some (.ok, ascii "Host:\r\n\r\n") := by decide +kernel
  have hdone : (readHeader .zero (getLine ++ ascii "Host:\r\n\r\n") .init).map
      (fun r => (r.1, r.2.1.headerDone, r.2.1.message.fields[ascii "Host"]?, r.2.2)) =
        some (.ok, true, some [0], []) := by decide +kernel
  have href : (referenceFields (ascii "Host:\r\n\r\n")).map (fun m => m[ascii "Host"]?) =
      some (some []) := by decide +kernel
  obtain ⟨⟨_, p, _⟩, hp, heq⟩ := Option.map_eq_some_iff.mp hrest
  obtain ⟨⟨_, par, _⟩, hpar, heq'⟩ := Option.map_eq_some_iff.mp hdone
  simp only [Prod.mk.injEq] at heq heq'
  obtain ⟨rfl, rfl⟩ := heq
  obtain ⟨rfl, hd, hhost, rfl⟩ := heq'
  refine ⟨p, par, by simpa using hp, hpar, hd, ?_⟩
  intro h
  rw [h, Option.map_some, hhost] at href
  cases href

end Http
end SimpleWeb
