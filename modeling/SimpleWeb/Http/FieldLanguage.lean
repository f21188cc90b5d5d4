import SimpleWeb.Http.FieldSound
import SimpleWeb.Http.FieldCorrect

/-!
# Http.FieldLanguage

The converse of `Http.FieldSound`: the loop of `read_header` reads every raw line whose name and
value fit the arrays (`RawLine.Readable`, `runs_rawLine`), so `readFields_raw` reads any number of
them and a closing line. No other lines are read: a run that gets over a line shows it readable
(`readable_of_runs`), so `readFields_exact` says what the bytes of an accepted head are.
-/

namespace SimpleWeb
namespace Http

open ScanLoop CArray

/-- What is stored of a line's tail: the bytes in front of its first CR. -/
def RawLine.kept (l : RawLine) : Bytes := l.tail.takeWhile (· ≠ CR)

/-- The line fits a value array of `n` bytes and the name array of the source, and no NUL stands
behind the first byte of its value. -/
structure RawLine.Readable (l : RawLine) (n : Nat) : Prop where
  name : l.name.length < MAXFIELDNAME
  nul : 0 ∉ l.kept.tail
  value : l.kept.length < n

theorem RawLine.kept_ne {l : RawLine} {c : UInt8} (h : c ∈ l.kept) : c ≠ CR ∧ c ≠ LF := by
  refine ⟨by simpa using List.mem_takeWhile_imp h, fun hlf => l.tail_ok ?_⟩
  rw [← hlf]
  exact (List.takeWhile_prefix _).mem h

theorem RawLine.kept_head {l : RawLine} {c : UInt8} {cs : Bytes} (h : l.kept = c :: cs) :
    c ≠ byte ' ' ∧ c ≠ CR ∧ c ≠ LF := by
  refine ⟨fun hs => l.tail_head ?_, l.kept_ne (by simp [h])⟩
  obtain ⟨r, hr⟩ := List.takeWhile_prefix (p := fun c => decide (c ≠ CR)) (l := l.tail)
  rw [← hr]
  change (l.kept ++ r).head? = _
  rw [h, List.cons_append, List.head?_cons, hs]

/-- The tail is what is stored, and a CR with the rest of the line behind it if there is one. -/
theorem RawLine.tail_eq (l : RawLine) :
    l.tail = l.kept ∨ ∃ hidden, LF ∉ hidden ∧ l.tail = l.kept ++ CR :: hidden := by
  have hsplit := List.takeWhile_append_dropWhile (p := fun c => decide (c ≠ CR)) (l := l.tail)
  cases hd : l.tail.dropWhile (fun c => decide (c ≠ CR)) with
  | nil => exact .inl (by rw [hd, List.append_nil] at hsplit; exact hsplit.symm)
  | cons c hidden =>
    have hc : c = CR := by
      have := List.head?_dropWhile_not (fun c => decide (c ≠ CR)) l.tail
      rw [hd] at this
      simpa using this
    rw [hd, hc] at hsplit
    refine .inr ⟨hidden, fun h => l.tail_ok ?_, hsplit.symm⟩
    rw [← hsplit]
    simp [h]

theorem storedValue_kept (l : RawLine) : storedValue l.kept = storedValue l.tail := by
  rcases l.tail_eq with h | ⟨hidden, -, h⟩
  · rw [h]
  · have hcr : CR ∉ l.kept := fun hm => (l.kept_ne hm).1 rfl
    have happ := storedValue_append (t := l.kept ++ [CR]) (by simp) hidden
    rw [List.append_assoc] at happ
    rw [h, ← storedValue_cr hcr]
    exact happ.symm

/-! ## A readable line is read -/

section Read

variable {a b : Bytes} {i : Nat} {p : Parser}

/-- Behind the CR the machine looks for the LF alone. -/
theorem runs_hidden {q : HeaderState} {hidden : Bytes} (hq : q = .almostDone ∨ q = .done)
    (hlf : LF ∉ hidden) (hp : p.headerDone = false) :
    HeaderRuns ⟨q, a, b, i, p⟩ (hidden ++ [LF]) ⟨.start, a, b, i, p⟩ := by
  induction hidden generalizing q with
  | nil =>
    refine .single (headerGuard_of hp) ?_
    rcases hq with rfl | rfl
    · rfl
    · rfl
  | cons c hidden ih =>
    simp only [List.mem_cons, not_or] at hlf
    obtain ⟨q', hq', hbody⟩ : ∃ q', (q' = .almostDone ∨ q' = .done) ∧
        headerBody c ⟨q, a, b, i, p⟩ = .next ⟨q', a, b, i, p⟩ := by
      rcases hq with rfl | rfl
      · by_cases hc : c = CR
        · exact ⟨.done, .inr rfl, by simp [headerBody, hc]⟩
        · exact ⟨.almostDone, .inl rfl, by simp [headerBody, hc, Ne.symm hlf.1]⟩
      · exact ⟨.done, .inr rfl, by simp [headerBody, Ne.symm hlf.1]⟩
    exact .cons (headerGuard_of hp) hbody (ih hq' hlf.2)

theorem runs_skip {skip : Bytes} (hskip : ∀ c ∈ skip, isSkipByte c = true)
    (hp : p.headerDone = false) :
    HeaderRuns ⟨.start, a, b, i, p⟩ skip ⟨.start, a, b, i, p⟩ := by
  refine .skip (headerGuard_of hp) ?_
  intro c hc
  have h := hskip c hc
  simp only [isSkipByte, Bool.and_eq_true, Bool.not_eq_true', bne_iff_ne, ne_eq] at h
  simp [headerBody, h]

theorem RawLine.nul_notMem_name (l : RawLine) : 0 ∉ l.name :=
  fun h => (lowcase_ne 0 (l.name_ok 0 h)).1 rfl

/-- A line up to its colon. -/
theorem runs_rawName (l : RawLine) (hn : l.name.length < MAXFIELDNAME)
    (ha : a.length = MAXFIELDNAME) (hp : p.headerDone = false) :
    HeaderRuns ⟨.start, a, b, i, p⟩ (l.skip ++ (l.name ++ [byte ':']))
      ⟨.spacesBeforeValue, fill a (l.name ++ [0]), b, l.name.length, p⟩ :=
  (runs_skip l.skip_ok hp).append (runs_name l.name_ok (List.length_pos_iff.mpr l.name_ne) hn
    (by omega) hp)

theorem headerBody_value_lf {s s₁ : HeaderVars} (hs : s.state = .value)
    (h : s.endValue = some s₁) : headerBody LF s = .next { s₁ with state := .start } := by
  simp [headerBody, hs, h]

theorem headerBody_value_cr {s s₁ : HeaderVars} (hs : s.state = .value)
    (h : s.endValue = some s₁) : headerBody CR s = .next { s₁ with state := .almostDone } := by
  simp [headerBody, hs, h]

/-- The field a line ends with is assigned by the CR or by the LF, whichever comes first. -/
theorem runs_lineEnd {q : HeaderState} {hidden : Bytes} {a' b' : Bytes} {i' : Nat} {p' : Parser}
    (hlf : headerBody LF ⟨q, a, b, i, p⟩ = .next ⟨.start, a', b', i', p'⟩)
    (hcr : headerBody CR ⟨q, a, b, i, p⟩ = .next ⟨.almostDone, a', b', i', p'⟩)
    (hp : p.headerDone = false) (hp' : p'.headerDone = false)
    (hh : hidden = [] ∨ ∃ h, LF ∉ h ∧ hidden = CR :: h) :
    HeaderRuns ⟨q, a, b, i, p⟩ (hidden ++ [LF]) ⟨.start, a', b', i', p'⟩ := by
  rcases hh with rfl | ⟨h, hno, rfl⟩
  · exact .single (headerGuard_of hp) hlf
  · exact .cons (headerGuard_of hp) hcr (runs_hidden (.inl rfl) hno hp')

theorem runs_rawLine (l : RawLine) (h : l.Readable b.length) (ha : a.length = MAXFIELDNAME)
    (hp : p.headerDone = false) :
    ∃ a' b' i', a'.length = a.length ∧ b'.length = b.length ∧
      HeaderRuns ⟨.start, a, b, i, p⟩ (l.bytes ++ [LF]) ⟨.start, a', b', i', p.store [l]⟩ := by
  obtain ⟨hidden, htail, hh⟩ : ∃ hidden, l.tail = l.kept ++ hidden ∧
      (hidden = [] ∨ ∃ h, LF ∉ h ∧ hidden = CR :: h) := by
    rcases l.tail_eq with ht | ⟨hidden, hno, ht⟩
    · exact ⟨[], by simpa using ht, .inl rfl⟩
    · exact ⟨_, ht, .inr ⟨hidden, hno, rfl⟩⟩
  have hbytes : l.bytes ++ [LF] =
      l.skip ++ (l.name ++ [byte ':']) ++ (l.gap ++ l.kept ++ (hidden ++ [LF])) := by
    simp [RawLine.bytes, htail]
  have hname := runs_rawName (b := b) (i := i) l h.name ha hp
  have hcname : cstr (fill a (l.name ++ [0])) = l.name := cstr_fill l.nul_notMem_name
  have hla : (fill a (l.name ++ [0])).length = a.length :=
    length_fill (by have := h.name; simp; omega)
  have hstore : p.store [l] =
      p.setFields (p.message.fields.insert l.name (storedValue l.kept)) := by
    rw [storedValue_kept]
    rfl
  have hp' : (p.store [l]).headerDone = false := hp
  rw [hbytes]
  cases hk : l.kept with
  | nil =>
    have hset : ∀ q : HeaderState, ({ (⟨.spacesBeforeValue, fill a (l.name ++ [0]), b,
        l.name.length, p⟩ : HeaderVars).setField [0] with state := q } : HeaderVars) =
          ⟨q, fill a (l.name ++ [0]), b, l.name.length, p.store [l]⟩ := by
      intro q
      rw [hstore, hk]
      simp [HeaderVars.setField, hcname, Parser.setFields, storedValue]
    have hend := runs_lineEnd (q := .spacesBeforeValue) (congrArg Pass.next (hset .start))
      (congrArg Pass.next (hset .almostDone)) hp hp' hh
    refine ⟨fill a (l.name ++ [0]), b, l.name.length, hla, rfl, ?_⟩
    rw [List.append_nil]
    exact hname.append ((runs_gap l.gap_ok hp).append hend)
  | cons c cs =>
    have hcs : ∀ d ∈ cs, isValueByte d = true := fun d hd => by
      have hne := l.kept_ne (c := d) (by simp [hk, hd])
      have h0 : d ≠ 0 := fun hz => h.nul (by rw [hk, ← hz]; exact hd)
      simp [isValueByte, hne, h0]
    have hvalue := runs_gapValue (a := fill a (l.name ++ [0])) (b := b) (i := l.name.length)
      (p := p) l.gap_ok (l.kept_head hk) hcs (by have := h.value; rw [hk] at this; omega) hp
    have hput : (⟨.value, fill a (l.name ++ [0]), fill b (c :: cs), (c :: cs).length, p⟩ :
        HeaderVars).endValue = some ⟨.value, fill a (l.name ++ [0]), fill b (c :: cs ++ [0]),
          (c :: cs).length, p.store [l]⟩ := by
      have hlt : (c :: cs).length < b.length := by rw [← hk]; exact h.value
      have hst := store_fill hlt (0 : UInt8)
      have hcv : cstr (fill b (c :: cs ++ [0])) = storedValue (c :: cs) := by
        refine cstr_eq_stored (by simp) ?_ ?_ ⟨rfl, List.prefix_append _ _⟩ hst
        · exact fun hm => (l.kept_ne (hk ▸ hm)).1 rfl
        · exact fun hm => h.nul (hk ▸ hm)
      simp only [HeaderVars.endValue, hst, Option.map_some, HeaderVars.setField, hcname, hcv,
        hstore, hk, Parser.setFields]
    have hend :=
      runs_lineEnd (headerBody_value_lf rfl hput) (headerBody_value_cr rfl hput) hp hp' hh
    refine ⟨_, _, _, hla, length_fill ?_, hname.append (hvalue.append hend)⟩
    have := h.value
    rw [hk] at this
    simpa using this

theorem Parser.store_cons (p : Parser) (l : RawLine) (ls : List RawLine) :
    p.store (l :: ls) = (p.store [l]).store ls := rfl

theorem runs_rawLines (ls : List RawLine) {n : Nat} (h : ∀ l ∈ ls, l.Readable n)
    (ha : a.length = MAXFIELDNAME) (hb : b.length = n) (hp : p.headerDone = false) :
    ∃ a' b' i', a'.length = MAXFIELDNAME ∧ b'.length = n ∧
      HeaderRuns ⟨.start, a, b, i, p⟩ (rawBytes ls) ⟨.start, a', b', i', p.store ls⟩ := by
  induction ls generalizing a b i p with
  | nil => exact ⟨a, b, i, ha, hb, .nil⟩
  | cons l ls ih =>
    obtain ⟨a₁, b₁, i₁, ha₁, hb₁, hline⟩ :=
      runs_rawLine (i := i) l (hb ▸ h l (by simp)) ha hp
    obtain ⟨a', b', i', ha', hb', hlines⟩ := ih (i := i₁) (p := p.store [l])
      (fun m hm => h m (by simp [hm])) (ha₁.trans ha) (hb₁.trans hb) hp
    refine ⟨a', b', i', ha', hb', ?_⟩
    rw [Parser.store_cons]
    simpa [rawBytes] using hline.append hlines

/-- Readable lines and a closing line: the head is done and nothing behind it is read. -/
theorem readFields_raw (ls : List RawLine) {skip : Bytes} (e : Eol)
    (h : ∀ l ∈ ls, l.Readable b.length) (hskip : ∀ c ∈ skip, isSkipByte c = true)
    (ha : a.length = MAXFIELDNAME) (hp : p.headerDone = false) (rest : Bytes) :
    readFields a b (rawBytes ls ++ (skip ++ e.bytes) ++ rest) p =
      some (.ok, { p.store ls with headerDone := true }, rest) := by
  obtain ⟨a', b', i', -, -, hlines⟩ := runs_rawLines (i := 0) ls h ha rfl hp
  have hp' : (p.store ls).headerDone = false := hp
  obtain ⟨q, heol⟩ := runs_head_eol (a := a') (b := b') (i := i') e hp'
  rw [readFields, loop_done (hlines.append ((runs_skip hskip hp').append heol)) rfl]

end Read

/-! ## Only readable lines are read -/

section Only

variable {a b : Bytes} {i : Nat} {p : Parser} {t : HeaderVars}

/-- With 64 bytes in `fieldname` every further byte is an error. -/
theorem headerBody_name_full {c : UInt8} {s : HeaderVars} (hi : MAXFIELDNAME ≤ s.i)
    (hs : s.state = .name) : headerBody c s = .ret .invalidRequest s := by
  have hn : ¬ s.i < MAXFIELDNAME := by omega
  simp [headerBody, hs, hn]

theorem name_of_runs {l : RawLine} {more : Bytes} (ha : a.length = MAXFIELDNAME)
    (hp : p.headerDone = false) (h : HeaderRuns ⟨.start, a, b, i, p⟩ (l.bytes ++ more) t) :
    l.name.length < MAXFIELDNAME := by
  by_contra hlong
  have hlen : (l.name.take MAXFIELDNAME).length = MAXFIELDNAME := by simp; omega
  have hfull := runs_nameBytes (a := a) (b := b) (i := i) (p := p)
    (fun c hc => l.name_ok c (List.mem_of_mem_take hc)) (by rw [hlen]; decide) hlen.le
    (by omega) hp
  have hbytes : l.bytes ++ more = l.skip ++ l.name.take MAXFIELDNAME ++
      (l.name.drop MAXFIELDNAME ++ byte ':' :: (l.gap ++ l.tail ++ more)) := by
    simp [RawLine.bytes, ← List.append_assoc (l.name.take MAXFIELDNAME)]
  rw [hbytes] at h
  have hrest := ((runs_skip l.skip_ok hp).append hfull).suffix h
  obtain ⟨c, cs, hc⟩ : ∃ c cs, l.name.drop MAXFIELDNAME ++ byte ':' :: (l.gap ++ l.tail ++ more) =
      c :: cs := List.exists_cons_of_ne_nil (by simp)
  rw [hc] at hrest
  obtain ⟨s', hbody, -⟩ := hrest.head
  rw [headerBody_name_full hlen.ge rfl] at hbody
  cases hbody

/-- A pass of the value state that does not end the value stores its byte. -/
theorem headerBody_value_next {c : UInt8} {v : Bytes} {s' : HeaderVars} (hc : c ≠ CR ∧ c ≠ LF)
    (h : headerBody c ⟨.value, a, fill b v, v.length, p⟩ = .next s')
    (hl : v.length ≤ b.length) : c ≠ 0 ∧ v.length < b.length := by
  cases headerStep_of_next h with
  | value _ hbyte hst =>
    have hlt := lt_of_store hst
    simp only [length_fill hl] at hlt
    exact ⟨hbyte.2.2, hlt⟩
  | valueEnd _ hq =>
    rcases hq with ⟨hcr, -⟩ | ⟨hlf, -⟩
    · exact absurd hcr hc.1
    · exact absurd hlf hc.2
  | _ => simp_all

theorem value_of_runs {cs more : Bytes} (hcs : ∀ c ∈ cs, c ≠ CR ∧ c ≠ LF) :
    ∀ v : Bytes, v.length ≤ b.length →
      HeaderRuns ⟨.value, a, fill b v, v.length, p⟩ (cs ++ more) t →
      0 ∉ cs ∧ (v ++ cs).length ≤ b.length := by
  induction cs with
  | nil => intro v hl _; simpa using hl
  | cons c cs ih =>
    intro v hl h
    obtain ⟨s', hbody, hrest⟩ := h.head
    have hc := hcs c (by simp)
    obtain ⟨hz, hlt⟩ := headerBody_value_next hc hbody hl
    rw [headerBody_value (by simp [isValueByte, hz, hc]) hlt] at hbody
    cases hbody
    obtain ⟨h0, hlen⟩ := ih (fun d hd => hcs d (by simp [hd])) (v ++ [c])
      (by simp; omega) hrest
    refine ⟨?_, by simpa using hlen⟩
    simp only [List.mem_cons, not_or]
    exact ⟨Ne.symm hz, h0⟩

/-- The pass that ends a value stores its NUL. -/
theorem headerBody_value_end {c : UInt8} {s s' : HeaderVars} (hs : s.state = .value)
    (hc : c = CR ∨ c = LF) (h : headerBody c s = .next s') : s.i < s.fieldvalue.length := by
  cases headerStep_of_next h with
  | value _ hbyte => exact absurd hc (by simp [hbyte])
  | valueEnd _ _ hst => exact lt_of_store hst
  | _ => simp_all

/-- A run that gets over the end of a line has read a line that fits. -/
theorem readable_of_run {l : RawLine} {more : Bytes} (ha : a.length = MAXFIELDNAME)
    (hb : 0 < b.length) (hp : p.headerDone = false)
    (h : HeaderRuns ⟨.start, a, b, i, p⟩ (l.bytes ++ LF :: more) t) : l.Readable b.length := by
  have hn := name_of_runs ha hp h
  cases hk : l.kept with
  | nil => exact ⟨hn, by simp [hk], by simpa [hk] using hb⟩
  | cons c cs =>
    obtain ⟨e, rest, he, htail⟩ : ∃ e rest, (e = CR ∨ e = LF) ∧
        l.tail ++ LF :: more = l.kept ++ e :: rest := by
      rcases l.tail_eq with ht | ⟨hidden, -, ht⟩
      · exact ⟨LF, more, .inr rfl, by rw [ht]⟩
      · exact ⟨CR, hidden ++ LF :: more, .inl rfl, by rw [ht]; simp⟩
    have hbytes : l.bytes ++ LF :: more =
        l.skip ++ (l.name ++ [byte ':']) ++ l.gap ++ ([c] ++ (cs ++ e :: rest)) := by
      rw [hk] at htail
      simp [RawLine.bytes, htail]
    rw [hbytes] at h
    have hfirst := ((runs_rawName (b := b) (i := i) l hn ha hp).append
      (runs_gap l.gap_ok hp)).append (.single (headerGuard_of hp)
        (headerBody_value_start (l.kept_head hk) hb))
    rw [← List.append_assoc _ [c]] at h
    have hcs : ∀ d ∈ cs, d ≠ CR ∧ d ≠ LF := fun d hd => l.kept_ne (by simp [hk, hd])
    obtain ⟨h0, hlen⟩ := value_of_runs hcs [c] hb (hfirst.suffix h)
    have hv : ∀ d ∈ cs, isValueByte d = true := fun d hd => by
      have hd0 : d ≠ 0 := fun hz => h0 (hz ▸ hd)
      simp [isValueByte, hcs d hd, hd0]
    have hvalue := runs_gapValue (a := fill a (l.name ++ [0])) (b := b) (i := l.name.length)
      l.gap_ok (l.kept_head hk) hv hlen hp
    have hall := (runs_rawName (b := b) (i := i) l hn ha hp).append hvalue
    rw [show l.skip ++ (l.name ++ [byte ':']) ++ l.gap ++ [c] ++ (cs ++ e :: rest) =
      l.skip ++ (l.name ++ [byte ':']) ++ (l.gap ++ c :: cs) ++ e :: rest by simp] at h
    obtain ⟨s', hbody, -⟩ := (hall.suffix h).head
    have hlt := headerBody_value_end rfl he hbody
    have hfull : (fill b (c :: cs)).length = b.length := length_fill hlen
    simp only [hfull] at hlt
    exact ⟨hn, by rw [hk]; exact h0, by rw [hk]; exact hlt⟩

theorem readable_of_runs {ls : List RawLine} {more : Bytes} {n : Nat}
    (ha : a.length = MAXFIELDNAME) (hb : b.length = n) (hn : 0 < n) (hp : p.headerDone = false)
    (h : HeaderRuns ⟨.start, a, b, i, p⟩ (rawBytes ls ++ more) t) : ∀ l ∈ ls, l.Readable n := by
  induction ls generalizing a b i p with
  | nil => intro l hl; simp at hl
  | cons l ls ih =>
    have hbytes : rawBytes (l :: ls) ++ more = l.bytes ++ LF :: (rawBytes ls ++ more) := by
      simp [rawBytes]
    rw [hbytes] at h
    have hl := readable_of_run ha (hb ▸ hn) hp h
    obtain ⟨a₁, b₁, i₁, ha₁, hb₁, hline⟩ := runs_rawLine (i := i) l hl ha hp
    rw [← List.singleton_append, ← List.append_assoc] at h
    have hls := ih (p := p.store [l]) (ha₁.trans ha) (hb₁.trans hb) hp (hline.suffix h)
    rw [List.forall_mem_cons]
    exact ⟨hb ▸ hl, hls⟩

/-- The bytes of a head that is declared done, and what was stored of it. -/
theorem readFields_exact {is rest : Bytes} {p' : Parser} {ec : ParserEc}
    (ha : a.length = MAXFIELDNAME) (hb : 0 < b.length)
    (h : readFields a b is p = some (ec, p', rest)) (hp : p.headerDone = false)
    (hd : p'.headerDone = true) :
    ec = .ok ∧ ∃ (ls : List RawLine) (skip : Bytes) (e : Eol), (∀ l ∈ ls, l.Readable b.length) ∧
      (∀ c ∈ skip, isSkipByte c = true) ∧ is = rawBytes ls ++ (skip ++ e.bytes) ++ rest ∧
      p' = { p.store ls with headerDone := true } := by
  obtain ⟨hok, ls, skip, e, hskip, hbytes, hp'⟩ := readFields_sound h hp hd
  refine ⟨hok, ls, skip, e, ?_, hskip, hbytes, hp'⟩
  unfold readFields at h
  split at h
  · rename_i s r hloop
    cases h
    obtain ⟨used, hused, hr, -⟩ := exit_done hloop
    rw [hused] at hbytes
    rw [List.append_cancel_right hbytes] at hr
    exact readable_of_runs ha rfl hb hp hr
  · rename_i s r hloop
    cases h
    cases hok
    obtain ⟨used, c, u, -, -, hg, hbody⟩ := exit_ret hloop
    rw [headerBody_ret hbody] at hd
    simp [headerGuard, hd] at hg
  · cases h

end Only

end Http
end SimpleWeb
