import SimpleWeb.Http.Grammar

/-!
# Http.FieldCorrect

The loop of `read_header` behind the request line reads well-formed field lines: each line
assigns its value to its name (`runs_fieldLines`), and the empty line ends the head, with nothing
behind it read (`readFields_bytes`). Without the empty line the head stays open
(`readFields_open`).
-/

namespace SimpleWeb
namespace Http

open ScanLoop CArray

abbrev HeaderRuns := Runs headerGuard headerBody

section Pieces

variable {a b t : Bytes} {i : Nat} {p : Parser}

/-! ### The name -/

theorem putName_fill {q : HeaderState} (h : t.length < a.length) (c : UInt8) :
    (⟨q, fill a t, b, t.length, p⟩ : HeaderVars).putName c =
      some ⟨q, fill a (t ++ [c]), b, (t ++ [c]).length, p⟩ := by
  simp [HeaderVars.putName, store_fill h]

theorem putValue_fill {q : HeaderState} (h : t.length < b.length) (c : UInt8) :
    (⟨q, a, fill b t, t.length, p⟩ : HeaderVars).putValue c =
      some ⟨q, a, fill b (t ++ [c]), (t ++ [c]).length, p⟩ := by
  simp [HeaderVars.putValue, store_fill h]

theorem headerBody_start {c : UInt8} (hc : lowcase c = true) (hb : 0 < a.length) :
    headerBody c ⟨.start, a, b, i, p⟩ = .next ⟨.name, fill a [c], b, 1, p⟩ := by
  obtain ⟨-, hlf, hcr, -, -⟩ := lowcase_ne c hc
  have hput := putName_fill (q := .start) (b := b) (p := p) (t := []) (a := a) hb c
  simp only [fill_nil, List.length_nil, List.nil_append, List.length_singleton] at hput
  simp [headerBody, hc, hlf, hcr, hput]

theorem headerBody_name {c : UInt8} (hc : lowcase c = true) (hl : t.length < a.length)
    (hmax : t.length < MAXFIELDNAME) :
    headerBody c ⟨.name, fill a t, b, t.length, p⟩ =
      .next ⟨.name, fill a (t ++ [c]), b, (t ++ [c]).length, p⟩ := by
  simp [headerBody, hc, hmax, putName_fill hl]

theorem headerBody_colon (hl : t.length < a.length) (hmax : t.length < MAXFIELDNAME) :
    headerBody (byte ':') ⟨.name, fill a t, b, t.length, p⟩ =
      .next ⟨.spacesBeforeValue, fill a (t ++ [0]), b, t.length, p⟩ := by
  simp [headerBody, hmax, store_fill hl]

/-- The guard looks at the parser alone. -/
theorem headerGuard_of {s : HeaderVars} (hp : s.par.headerDone = false) : headerGuard s = true := by
  simp [headerGuard, hp]

/-- The bytes a state collects, `n` at most: `f t` is the state that holds `t`. -/
theorem headerRuns_collect {f : Bytes → HeaderVars} {n : Nat} {cs : Bytes}
    (hp : ∀ t, (f t).par.headerDone = false)
    (h : ∀ t c, c ∈ cs → t.length < n → headerBody c (f t) = .next (f (t ++ [c]))) :
    ∀ t, (t ++ cs).length ≤ n → HeaderRuns (f t) cs (f (t ++ cs)) :=
  Runs.collect (fun t _ => headerGuard_of (hp t)) h

theorem runs_nameBytes {name : Bytes} (hname : ∀ c ∈ name, lowcase c = true)
    (hpos : 0 < name.length) (hmax : name.length ≤ MAXFIELDNAME) (hl : name.length ≤ a.length)
    (hp : p.headerDone = false) :
    HeaderRuns ⟨.start, a, b, i, p⟩ name ⟨.name, fill a name, b, name.length, p⟩ := by
  cases name with
  | nil => simp at hpos
  | cons c cs =>
    have hfirst : HeaderRuns ⟨.start, a, b, i, p⟩ [c] ⟨.name, fill a [c], b, 1, p⟩ :=
      .single (headerGuard_of hp) (headerBody_start (hname c (by simp)) (by omega))
    have hmore := headerRuns_collect (f := fun t => ⟨.name, fill a t, b, t.length, p⟩)
      (n := (c :: cs).length) (fun t => hp)
      (fun t d (hd : d ∈ cs) hlt => headerBody_name (hname d (by simp [hd])) (by omega) (by omega))
      [c] (by simp)
    exact hfirst.append hmore

theorem runs_name {name : Bytes} (hname : ∀ c ∈ name, lowcase c = true) (hpos : 0 < name.length)
    (hmax : name.length < MAXFIELDNAME) (hl : name.length < a.length)
    (hp : p.headerDone = false) :
    HeaderRuns ⟨.start, a, b, i, p⟩ (name ++ [byte ':'])
      ⟨.spacesBeforeValue, fill a (name ++ [0]), b, name.length, p⟩ :=
  (runs_nameBytes hname hpos hmax.le hl.le hp).append
    (.single (headerGuard_of hp) (headerBody_colon hl hmax))

/-! ### The value -/

/-- A byte that may stand anywhere in a value. -/
def isValueByte (ch : UInt8) : Bool := ch != 0 && ch != CR && ch != LF

theorem headerBody_value_start {c : UInt8} (hc : c ≠ byte ' ' ∧ c ≠ CR ∧ c ≠ LF)
    (hb : 0 < b.length) :
    headerBody c ⟨.spacesBeforeValue, a, b, i, p⟩ = .next ⟨.value, a, fill b [c], 1, p⟩ := by
  have hput := putValue_fill (q := .spacesBeforeValue) (a := a) (p := p) (t := []) (b := b) hb c
  simp only [fill_nil, List.length_nil, List.nil_append, List.length_singleton] at hput
  simp [headerBody, hc, hput]

theorem headerBody_value {c : UInt8} (hc : isValueByte c = true) (hl : t.length < b.length) :
    headerBody c ⟨.value, a, fill b t, t.length, p⟩ =
      .next ⟨.value, a, fill b (t ++ [c]), (t ++ [c]).length, p⟩ := by
  simp only [isValueByte, Bool.and_eq_true, bne_iff_ne, ne_eq] at hc
  by_cases hs : c = byte ' '
  · simp [headerBody, hs, putValue_fill hl]
  · simp [headerBody, hc, hs, putValue_fill hl]

theorem runs_gap {gap : Bytes} (hgap : ∀ g ∈ gap, g = byte ' ') (hp : p.headerDone = false) :
    HeaderRuns ⟨.spacesBeforeValue, a, b, i, p⟩ gap ⟨.spacesBeforeValue, a, b, i, p⟩ :=
  .skip (headerGuard_of hp) fun g hg => by rw [hgap g hg]; rfl

/-- The first byte of a value may be a NUL. -/
theorem runs_gapValue {gap cs : Bytes} {c : UInt8} (hgap : ∀ g ∈ gap, g = byte ' ')
    (hc : c ≠ byte ' ' ∧ c ≠ CR ∧ c ≠ LF) (hv : ∀ d ∈ cs, isValueByte d = true)
    (hl : (c :: cs).length ≤ b.length) (hp : p.headerDone = false) :
    HeaderRuns ⟨.spacesBeforeValue, a, b, i, p⟩ (gap ++ c :: cs)
      ⟨.value, a, fill b (c :: cs), (c :: cs).length, p⟩ := by
  have hfirst : HeaderRuns ⟨.spacesBeforeValue, a, b, i, p⟩ [c] ⟨.value, a, fill b [c], 1, p⟩ :=
    .single (headerGuard_of hp) (headerBody_value_start hc (by simp at hl; omega))
  have hmore := headerRuns_collect (f := fun t => ⟨.value, a, fill b t, t.length, p⟩)
    (n := b.length) (fun t => hp)
    (fun t d (hd : d ∈ cs) hlt => headerBody_value (hv d hd) hlt)
    [c] (by simpa using hl)
  exact (runs_gap hgap hp).append (hfirst.append hmore)

theorem runs_value {value : Bytes} (n : Nat) (hv : ∀ c ∈ value, isValueByte c = true)
    (hhead : value ≠ [] ∧ value.head? ≠ some (byte ' ')) (hl : value.length < b.length)
    (hp : p.headerDone = false) :
    HeaderRuns ⟨.spacesBeforeValue, a, b, i, p⟩ (spaces n ++ value)
      ⟨.value, a, fill b value, value.length, p⟩ := by
  cases value with
  | nil => exact absurd rfl hhead.1
  | cons c cs =>
    have hc := hv c (by simp)
    simp only [isValueByte, Bool.and_eq_true, bne_iff_ne, ne_eq] at hc
    exact runs_gapValue (fun g hg => List.eq_of_mem_replicate hg)
      ⟨fun h => hhead.2 (by simp [h]), hc.1.2, hc.2⟩ (fun d hd => hv d (by simp [hd])) hl.le hp

/-! ### The end of a line -/

/-- The line end stores the value under the name in `fieldname`. -/
theorem runs_value_eol (e : Eol) (h0 : 0 ∉ t) (hl : t.length < b.length)
    (hp : p.headerDone = false) :
    HeaderRuns ⟨.value, a, fill b t, t.length, p⟩ e.bytes
      ⟨.start, a, fill b (t ++ [0]), t.length,
        { p with message := { p.message with fields := p.message.fields.insert (cstr a) t } }⟩ := by
  let p' : Parser :=
    { p with message := { p.message with fields := p.message.fields.insert (cstr a) t } }
  have hp' : p'.headerDone = false := hp
  have hend : (⟨.value, a, fill b t, t.length, p⟩ : HeaderVars).endValue =
      some ⟨.value, a, fill b (t ++ [0]), t.length, p'⟩ := by
    simp [HeaderVars.endValue, store_fill hl, HeaderVars.setField, cstr_fill h0, p']
  cases e with
  | lf =>
    refine .single (headerGuard_of hp) ?_
    simp [headerBody, hend, p']
  | crlf =>
    have hcr : headerBody CR ⟨.value, a, fill b t, t.length, p⟩ =
        .next ⟨.almostDone, a, fill b (t ++ [0]), t.length, p'⟩ := by
      simp [headerBody, hend]
    have hlf : headerBody LF ⟨.almostDone, a, fill b (t ++ [0]), t.length, p'⟩ =
        .next ⟨.start, a, fill b (t ++ [0]), t.length, p'⟩ := rfl
    exact .cons (headerGuard_of hp) hcr (.single (headerGuard_of hp') hlf)

theorem runs_head_eol (e : Eol) (hp : p.headerDone = false) :
    ∃ q, HeaderRuns ⟨.start, a, b, i, p⟩ e.bytes ⟨q, a, b, i, { p with headerDone := true }⟩ := by
  cases e with
  | lf => exact ⟨.start, .single (headerGuard_of hp) rfl⟩
  | crlf =>
    have hcr : headerBody CR ⟨.start, a, b, i, p⟩ = .next ⟨.headerAlmostDone, a, b, i, p⟩ := rfl
    exact ⟨.headerDone, .cons (headerGuard_of hp) hcr (.single (headerGuard_of hp) rfl)⟩

end Pieces

theorem FieldLine.isValueByte (l : FieldLine) : ∀ c ∈ l.value, isValueByte c = true := by
  obtain ⟨h0, hcr, hlf⟩ := l.value_ok
  intro c hc
  simp only [Http.isValueByte, Bool.and_eq_true, bne_iff_ne, ne_eq]
  exact ⟨⟨fun h => h0 (h ▸ hc), fun h => hcr (h ▸ hc)⟩, fun h => hlf (h ▸ hc)⟩

theorem runs_fieldLine (l : FieldLine) {a b : Bytes} {i : Nat} {p : Parser}
    (hn : l.name.length < a.length) (hv : l.value.length < b.length)
    (hp : p.headerDone = false) :
    HeaderRuns ⟨.start, a, b, i, p⟩ l.bytes
      ⟨.start, fill a (l.name ++ [0]), fill b (l.value ++ [0]), l.value.length,
        p.assign [l]⟩ := by
  have hname := runs_name (b := b) (i := i) l.lowcase_name l.name_len.1 l.name_len.2 hn hp
  have hvalue := runs_value (a := fill a (l.name ++ [0])) (i := l.name.length) l.gap
    l.isValueByte l.value_head hv hp
  have heol := runs_value_eol (a := fill a (l.name ++ [0])) l.eol l.value_ok.1 hv hp
  rw [cstr_fill l.nul_notMem_name] at heol
  have hall := (hname.append hvalue).append heol
  simpa [FieldLine.bytes, Parser.assign] using hall

theorem Parser.assign_cons (p : Parser) (l : FieldLine) (ls : List FieldLine) :
    p.assign (l :: ls) = (p.assign [l]).assign ls := rfl

theorem runs_fieldLines (ls : List FieldLine) {a b : Bytes} :
    ∀ {i : Nat} {p : Parser}, (∀ l ∈ ls, l.name.length < a.length ∧ l.value.length < b.length) →
      p.headerDone = false →
      ∃ a' b' i', HeaderRuns ⟨.start, a, b, i, p⟩ (linesBytes ls)
        ⟨.start, a', b', i', p.assign ls⟩ := by
  induction ls generalizing a b with
  | nil => intro i p _ _; exact ⟨a, b, i, .nil⟩
  | cons l ls ih =>
    intro i p hfit hp
    obtain ⟨hn, hv⟩ := hfit l (by simp)
    have hline := runs_fieldLine l (i := i) hn hv hp
    have hn' : (fill a (l.name ++ [0])).length = a.length := length_fill (by simpa using hn)
    have hv' : (fill b (l.value ++ [0])).length = b.length := length_fill (by simpa using hv)
    obtain ⟨a', b', i', hrest⟩ := ih (a := fill a (l.name ++ [0]))
      (b := fill b (l.value ++ [0])) (i := l.value.length) (p := p.assign [l])
      (fun m hm => by rw [hn', hv']; exact hfit m (by simp [hm])) hp
    rw [Parser.assign_cons]
    exact ⟨a', b', i', by simpa [linesBytes] using hline.append hrest⟩

/-- Field lines and the empty line: the head is done and nothing behind it is read. -/
theorem readFields_bytes (ls : List FieldLine) (e : Eol) {a b : Bytes} {p : Parser}
    (hfit : ∀ l ∈ ls, l.name.length < a.length ∧ l.value.length < b.length)
    (hp : p.headerDone = false) (rest : Bytes) :
    readFields a b (linesBytes ls ++ e.bytes ++ rest) p =
      some (.ok, { p.assign ls with headerDone := true }, rest) := by
  obtain ⟨a', b', i', hlines⟩ := runs_fieldLines ls (i := 0) hfit hp
  obtain ⟨q, heol⟩ := runs_head_eol (a := a') (b := b') (i := i') (p := p.assign ls) e hp
  rw [readFields, loop_done (hlines.append heol) rfl]

/-- Field lines alone leave the head open. -/
theorem readFields_open (ls : List FieldLine) {a b : Bytes} {p : Parser}
    (hfit : ∀ l ∈ ls, l.name.length < a.length ∧ l.value.length < b.length)
    (hp : p.headerDone = false) :
    readFields a b (linesBytes ls) p = some (.ok, p.assign ls, []) := by
  obtain ⟨a', b', i', hlines⟩ := runs_fieldLines ls (i := 0) hfit hp
  rw [readFields, loop_end hlines]

end Http
end SimpleWeb
