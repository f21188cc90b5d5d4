import SimpleWeb.Http.LineCorrect
import SimpleWeb.Http.FieldCorrect

/-!
# Http.HeadCorrect

Parser completeness: `read_header` accepts every well-formed head whose tokens fit the arrays,
reports what the head says, and leaves what follows it unread (`readHeader_complete`).
-/

namespace SimpleWeb
namespace Http

/-- A well-formed head is read to its end, and nothing behind it. -/
theorem readHeader_bytes (h : Head) {st : Stack} (hf : h.Fits st) (rest : Bytes) :
    readHeader st (h.bytes ++ rest) .init = some (.ok, h.parser, rest) := by
  have hline := readHeaderLine_bytes h.line hf.line
    (linesBytes h.fields ++ h.eol.bytes ++ rest) .init
  have hfields := readFields_bytes h.fields h.eol (p := h.line.apply .init)
    (fun l hl => ⟨(hf.fields l hl).name, (hf.fields l hl).value⟩) rfl rest
  have hbytes : h.bytes ++ rest = h.line.bytes ++ (linesBytes h.fields ++ h.eol.bytes ++ rest) := by
    simp [Head.bytes]
  rw [readHeader, hbytes, hline]
  exact hfields

theorem Head.parser_fields (h : Head) (k : Bytes) :
    h.parser.message.fields[k]? = lastValue h.fields k := by
  have hget := getElem?_assignLines h.fields ∅ k
  rw [Std.ExtTreeMap.getElem?_empty, Option.or_none] at hget
  exact hget

/-- Every well-formed head is accepted with the verb, target, version, query string and fields it
spells, each name with the value of its last line, whatever follows it. -/
theorem readHeader_complete (h : Head) (st : Stack) (hfit : h.Fits st) (rest : Bytes) :
    ∃ par, readHeader st (h.bytes ++ rest) .init = some (.ok, par, rest) ∧
      par.headerDone = true ∧ par.message.method = h.line.method ∧
      par.message.target = h.line.target.bytes ∧ par.message.version = h.line.version.number ∧
      par.querystr = h.line.querystr ∧
      ∀ k : Bytes, par.message.fields[k]? = lastValue h.fields k := by
  refine ⟨h.parser, readHeader_bytes h hfit rest, rfl, rfl, rfl, rfl, ?_, h.parser_fields⟩
  simp [Head.parser, Parser.assign, RequestLine.apply, Parser.init]

def textTarget : Target := ⟨ascii "text", by decide +kernel⟩

def parserTestQuery : Query := ⟨ascii "ip=1.1.1.1&name=bkb", by decide +kernel⟩

/-- A head like the one of `test/http/parser_test.cpp`: a leading newline, a query, and a name
that occurs twice. -/
def parserTestHead : Head where
  line :=
    { lead := [LF], method := .get, gap₁ := 0, target := textTarget
      query := some parserTestQuery, gap₂ := 0, version := .v10
      eol := .lf, lead_ok := by simp, method_ok := by simp }
  fields :=
    [.of (ascii "origin") 1 (ascii "a b") .lf (by decide +kernel),
      .of (ascii "Host") 0 (ascii "h:80") .crlf (by decide +kernel),
      .of (ascii "origin") 2 (ascii "c ") .crlf (by decide +kernel)]
  eol := .crlf

theorem parserTestHead_fits : parserTestHead.Fits .zero where
  line := ⟨by decide +kernel, by decide +kernel, by decide +kernel⟩
  fields := by
    intro l hl
    simp only [parserTestHead, List.mem_cons, List.not_mem_nil, or_false] at hl
    rcases hl with rfl | rfl | rfl <;> exact ⟨by decide +kernel, by decide +kernel⟩

theorem readHeader_complete_parserTest :
    ∃ par, readHeader .zero (parserTestHead.bytes ++ ascii "rest") .init =
        some (.ok, par, ascii "rest") ∧
      par.headerDone = true ∧ par.message.method = .get ∧
      par.message.target = ascii "/text" ∧ par.message.version = 10 ∧
      par.querystr = some (ascii "ip=1.1.1.1&name=bkb ") ∧
      ∀ k : Bytes, par.message.fields[k]? = lastValue parserTestHead.fields k :=
  readHeader_complete parserTestHead .zero parserTestHead_fits (ascii "rest")

end Http
end SimpleWeb
