import SimpleWeb.Http.HeadSound
import SimpleWeb.Http.FieldLanguage

/-!
# Http.HeadLanguage

The heads `read_header` reads to their end, byte for byte: `readHeader_raw` and
`readHeader_exact` are the two directions, for arrays of the sizes in the source.

Two heads are recasings of each other when they differ in the case of letters inside field names
at most (`RawHead.Recased`). The machine accepts the one exactly when it accepts the other, since
`lowcase` is asked whether a byte may stand in a name and not what its lower case is.
-/

namespace SimpleWeb
namespace Http

structure RawHead where
  request : RawRequest
  lines : List RawLine
  skip : Bytes
  eol : Eol
  skip_ok : ∀ c ∈ skip, isSkipByte c = true

namespace RawHead

def bytes (h : RawHead) : Bytes :=
  h.request.bytes ++ (rawBytes h.lines ++ (h.skip ++ h.eol.bytes))

/-- The parser behind the head. -/
def parser (h : RawHead) : Parser :=
  { (h.request.apply .init).store h.lines with headerDone := true }

/-- Every token fits the arrays of the source. -/
structure Fits (h : RawHead) : Prop where
  request : h.request.protocol.Fits 1024
  lines : ∀ l ∈ h.lines, l.Readable MAXFIELDVALUE

end RawHead

theorem readHeader_raw {st : Stack} (hst : st.Sized) {h : RawHead} (hh : h.Fits) (rest : Bytes) :
    readHeader st (h.bytes ++ rest) .init = some (.ok, h.parser, rest) := by
  have hline := readHeaderLine_raw h.request (b := st.buffer) (by rw [hst.buffer]; decide)
    (by rw [hst.buffer]; exact hh.request)
    (rawBytes h.lines ++ (h.skip ++ h.eol.bytes) ++ rest) .init
  have hfields := readFields_raw (a := st.fieldname) (b := st.fieldvalue)
    (p := h.request.apply .init) h.lines h.eol (by rw [hst.fieldvalue]; exact hh.lines) h.skip_ok
    hst.fieldname rfl rest
  rw [RawHead.bytes, List.append_assoc, readHeader, hline]
  exact hfields

theorem readHeader_exact {st : Stack} (hst : st.Sized) {is rest : Bytes} {par : Parser}
    {ec : ParserEc} (h : readHeader st is .init = some (ec, par, rest))
    (hd : par.headerDone = true) :
    ec = .ok ∧ ∃ h : RawHead, h.Fits ∧ is = h.bytes ++ rest ∧ par = h.parser := by
  obtain ⟨p, fields, hline, hne, hfields⟩ := readHeader_done h hd
  obtain ⟨r, hr, rfl, rfl⟩ := readHeaderLine_exact hline hne
  have hb : 0 < st.fieldvalue.length := by rw [hst.fieldvalue]; decide
  obtain ⟨hok, ls, skip, e, hls, hskip, rfl, rfl⟩ :=
    readFields_exact hst.fieldname hb hfields rfl hd
  rw [hst.buffer] at hr
  rw [hst.fieldvalue] at hls
  refine ⟨hok, ⟨r, ls, skip, e, hskip⟩, ⟨hr, hls⟩, ?_, rfl⟩
  simp [RawHead.bytes]

/-! ## Letter case -/

/-- `tolower` in the "C" locale -/
def tolower (ch : UInt8) : UInt8 := if byte 'A' ≤ ch ∧ ch ≤ byte 'Z' then ch + 32 else ch

def foldName (name : Bytes) : Bytes := name.map tolower

theorem lowcase_tolower : ∀ c : UInt8, lowcase (tolower c) = lowcase c := by
  decide +kernel

theorem tolower_tolower : ∀ c : UInt8, tolower (tolower c) = tolower c := by
  decide +kernel

theorem foldName_foldName (n : Bytes) : foldName (foldName n) = foldName n := by
  rw [foldName, foldName, List.map_map]
  exact List.map_congr_left fun c _ => tolower_tolower c

theorem foldName_lowcase {m n : Bytes} (h : foldName m = foldName n)
    (hn : ∀ c ∈ n, lowcase c = true) : ∀ c ∈ m, lowcase c = true := by
  intro c hc
  have hmem : tolower c ∈ foldName n := h ▸ List.mem_map_of_mem hc
  obtain ⟨d, hd, heq⟩ := List.mem_map.mp hmem
  rw [← lowcase_tolower, ← heq, lowcase_tolower]
  exact hn d hd

theorem foldName_length {m n : Bytes} (h : foldName m = foldName n) : m.length = n.length := by
  simpa [foldName] using congrArg List.length h

namespace RawLine

/-- All of a line but the case of its name. -/
def uncased (l : RawLine) : Bytes × Bytes × Bytes × Bytes :=
  (l.skip, foldName l.name, l.gap, l.tail)

/-- The line with its name in other letters. -/
def recase (l : RawLine) (n : Bytes) (h : foldName n = foldName l.name) : RawLine :=
  { l with
    name := n
    name_ok := foldName_lowcase h l.name_ok
    name_ne := fun hn => l.name_ne (by
      have hlen := foldName_length h
      rw [hn] at hlen
      exact List.length_eq_zero_iff.mp hlen.symm) }

theorem recase_uncased (l : RawLine) (n : Bytes) (h : foldName n = foldName l.name) :
    (l.recase n h).uncased = l.uncased := by
  simp [uncased, recase, h]

theorem readable_of_uncased {l l' : RawLine} {n : Nat} (h : l'.uncased = l.uncased)
    (hl : l.Readable n) : l'.Readable n := by
  simp only [uncased, Prod.mk.injEq] at h
  obtain ⟨-, hname, -, htail⟩ := h
  have hkept : l'.kept = l.kept := congrArg (List.takeWhile fun c => decide (c ≠ CR)) htail
  exact ⟨(foldName_length hname).trans_lt hl.name, hkept ▸ hl.nul, hkept ▸ hl.value⟩

end RawLine

namespace RawHead

/-- The heads differ in the case of letters inside field names at most. -/
structure Recased (h h' : RawHead) : Prop where
  request : h'.request = h.request
  lines : h'.lines.map RawLine.uncased = h.lines.map RawLine.uncased
  skip : h'.skip = h.skip
  eol : h'.eol = h.eol

theorem Recased.refl (h : RawHead) : h.Recased h := ⟨rfl, rfl, rfl, rfl⟩

theorem Recased.mem {h h' : RawHead} (hr : h.Recased h') {l' : RawLine} (hl' : l' ∈ h'.lines) :
    ∃ l ∈ h.lines, l'.uncased = l.uncased := by
  have hmem : l'.uncased ∈ h.lines.map RawLine.uncased := hr.lines ▸ List.mem_map_of_mem hl'
  obtain ⟨l, hl, heq⟩ := List.mem_map.mp hmem
  exact ⟨l, hl, heq.symm⟩

theorem Recased.fits {h h' : RawHead} (hr : h.Recased h') (hh : h.Fits) : h'.Fits where
  request := hr.request ▸ hh.request
  lines := by
    intro l' hl'
    obtain ⟨l, hl, heq⟩ := hr.mem hl'
    exact RawLine.readable_of_uncased heq (hh.lines l hl)

/-- No two field names are equal up to case. -/
def Distinct (h : RawHead) : Prop := (h.lines.map fun l => foldName l.name).Nodup

theorem Recased.names {h h' : RawHead} (hr : h.Recased h') :
    (h'.lines.map fun l => foldName l.name) = h.lines.map fun l => foldName l.name := by
  have hfold := congrArg (List.map fun u : Bytes × Bytes × Bytes × Bytes => u.2.1) hr.lines
  simpa [RawLine.uncased, Function.comp_def] using hfold

theorem Recased.distinct {h h' : RawHead} (hr : h.Recased h') (hd : h.Distinct) : h'.Distinct := by
  unfold Distinct
  rw [hr.names]
  exact hd

/-- Every name in the spelling `f` chooses for it. -/
def recase (h : RawHead) (f : Bytes → Bytes) (hf : ∀ n, foldName (f n) = foldName n) : RawHead :=
  { h with lines := h.lines.map fun l => l.recase (f l.name) (hf l.name) }

theorem recase_recased (h : RawHead) (f : Bytes → Bytes) (hf : ∀ n, foldName (f n) = foldName n) :
    h.Recased (h.recase f hf) where
  request := rfl
  lines := by
    rw [recase, List.map_map]
    exact List.map_congr_left fun l _ => l.recase_uncased (f l.name) (hf l.name)
  skip := rfl
  eol := rfl

end RawHead

/-- With distinct names the map holds the value of each line. -/
theorem getElem?_assignBy_iff {f : Bytes → Bytes} {ls : List RawLine}
    (hd : (ls.map fun l => foldName l.name).Nodup) (k v : Bytes) :
    (assignBy f ∅ ls)[k]? = some v ↔ ∃ l ∈ ls, l.name = k ∧ f l.tail = v := by
  have hget := getElem?_foldl_insert RawLine.name (fun l => f l.tail) ls ∅ k
  rw [Std.ExtTreeMap.getElem?_empty, Option.or_none] at hget
  rw [assignBy, hget, Option.map_eq_some_iff]
  constructor
  · rintro ⟨l, hfind, hv⟩
    exact ⟨l, List.mem_reverse.mp (List.mem_of_find?_eq_some hfind),
      by simpa using List.find?_some hfind, hv⟩
  · rintro ⟨l, hl, rfl, hv⟩
    have hsome : (ls.reverse.find? fun l' => l'.name = l.name).isSome := by
      rw [List.find?_isSome]
      exact ⟨l, List.mem_reverse.mpr hl, by simp⟩
    obtain ⟨l', hfind⟩ := Option.isSome_iff_exists.mp hsome
    have hmem := List.mem_reverse.mp (List.mem_of_find?_eq_some hfind)
    have hname : l'.name = l.name := by simpa using List.find?_some hfind
    have heq : l' = l := List.inj_on_of_nodup_map hd hmem hl (congrArg foldName hname)
    exact ⟨l, heq ▸ hfind, hv⟩

end Http
end SimpleWeb
