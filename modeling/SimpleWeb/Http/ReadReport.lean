import SimpleWeb.Http.HeadLanguage
import SimpleWeb.Http.OpenHead

/-!
# Http.ReadReport

What `read` reports against what has happened. It takes `ok` for a head that is done, though the
loops also return `ok` at the end of the input, and `read_body` drops what the handler returns; so
a stream that ends inside a head, and a body that fails, are reported as complete. Every other
stream is reported as it is (`read_reports_iff`).
-/

namespace SimpleWeb
namespace Http

open ScanLoop

/-! ## `is_done()` -/

theorem headerStep_keeps {s s' : HeaderVars} {c : UInt8} (h : HeaderStep s c s') :
    s'.par.done = s.par.done := by
  cases h <;> rfl

theorem headerRuns_keeps {s t : HeaderVars} {used : Bytes} (h : HeaderRuns s used t) :
    t.par.done = s.par.done :=
  h.invariant (I := fun _ t => t.par.done = s.par.done)
    (fun _ _ _ _ _ hi hb => (headerStep_keeps (headerStep_of_next hb)).trans hi) [] rfl

theorem readFields_keeps {a b is rest : Bytes} {p par : Parser} {ec : ParserEc}
    (h : readFields a b is p = some (ec, par, rest)) : par.done = p.done := by
  unfold readFields at h
  split at h
  · rename_i s r hloop
    cases h
    obtain ⟨used, -, hr, -⟩ := exit_done hloop
    exact headerRuns_keeps hr
  · rename_i e s r hloop
    cases h
    obtain ⟨used, c, u, -, hr, -, hb⟩ := exit_ret hloop
    rw [headerBody_ret hb]
    exact headerRuns_keeps hr
  · cases h

/-- No more than the flag of the head is set by `read_header`. -/
theorem readHeader_keeps {st : Stack} {is rest : Bytes} {p par : Parser} {ec : ParserEc}
    (h : readHeader st is p = some (ec, par, rest)) : par.done = p.done := by
  unfold readHeader at h
  split at h
  · rename_i p' fields hline
    exact (readFields_keeps h).trans (readHeaderLine_frame hline).done
  · exact (readHeaderLine_frame h).done

/-! ## What is reported -/

section Report

variable {β : Type} {st : Stack} {bodyRead : BodyReader β} {is : Bytes} {body : β}

/-- The handler gives a count that is not negative. -/
def Succeeds (bodyRead : BodyReader β) (is : Bytes) (body : β) : Prop :=
  ∃ k b rest, bodyRead is body = some (k, b, rest) ∧ 0 ≤ k

/-- The handler succeeds with what `read_header` leaves to it. -/
def BodySucceeds (st : Stack) (bodyRead : BodyReader β) (is : Bytes) (body : β) : Prop :=
  ∃ par rest, readHeader st is .init = some (.ok, par, rest) ∧
    Succeeds bodyRead (bodyStream rest par) body

/-- `read` returns 0 with `is_done()` set for a request that is complete, and for no other, and a
negative value without it for every other. -/
def Reports (st : Stack) (bodyRead : BodyReader β) (is : Bytes) (body : β) : Prop :=
  ∃ n par b rest, read bodyRead st is .init body = some (n, par, b, rest) ∧
    (par.headerDone = true ∧ BodySucceeds st bodyRead is body → n = 0 ∧ par.done = true) ∧
    (¬ (par.headerDone = true ∧ BodySucceeds st bodyRead is body) → n < 0 ∧ par.done = false)

/-- What the handler reads behind a head: the query that is stored of it, if there is one. -/
def RawHead.bodyBytes (h : RawHead) (rest : Bytes) : Bytes :=
  (h.request.protocol.uri.query.map RawQuery.stored).getD rest

theorem RawHead.bodyStream_parser (h : RawHead) (rest : Bytes) :
    bodyStream rest h.parser = h.bodyBytes rest := by
  have hquery : h.parser.querystr =
      (h.request.protocol.uri.query.map RawQuery.stored).or none := rfl
  rw [bodyStream, hquery, Option.or_none, RawHead.bodyBytes]

theorem readBody_some {par : Parser} {k : Int} {b : β} {rest : Bytes}
    (h : bodyRead (bodyStream is par) body = some (k, b, rest)) :
    ∃ rest', readBody bodyRead is par body = some (0, b, rest') := by
  unfold bodyStream at h
  unfold readBody
  split
  · rename_i hq
    rw [hq] at h
    exact ⟨rest, by rw [show bodyRead is body = _ from h]; rfl⟩
  · rename_i q hq
    rw [hq] at h
    exact ⟨is, by rw [show bodyRead q body = _ from h]; rfl⟩

variable {par : Parser} {rest : Bytes}

/-- Behind `ok` the result is 0 and `is_done()` is set, whatever the handler returns. -/
theorem read_ok (h : readHeader st is .init = some (.ok, par, rest)) {n : Int} {par' : Parser}
    {b : β} {rest' : Bytes} (hread : read bodyRead st is .init body = some (n, par', b, rest')) :
    n = 0 ∧ par' = { par with done := true } := by
  simp only [read, h] at hread
  rw [Option.map_eq_some_iff] at hread
  obtain ⟨⟨m, b', r⟩, -, heq⟩ := hread
  cases heq
  exact ⟨rfl, rfl⟩

theorem reports_of_error {ec : ParserEc} (h : readHeader st is .init = some (ec, par, rest))
    (hec : ec ≠ .ok) : Reports st bodyRead is body := by
  have hread : read bodyRead st is .init body = some (-1, par, body, rest) := by
    unfold read
    rw [h]
    cases ec with
    | ok => exact absurd rfl hec
    | _ => rfl
  refine ⟨-1, par, body, rest, hread, ?_, ?_⟩
  · rintro ⟨-, par', rest', hok, -⟩
    rw [h] at hok
    cases hok
    exact absurd rfl hec
  · intro _
    exact ⟨by decide, readHeader_keeps h⟩

theorem not_reports_of_open (h : readHeader st is .init = some (.ok, par, rest))
    (hopen : par.headerDone = false) : ¬ Reports st bodyRead is body := by
  rintro ⟨n, par', b, rest', hread, -, hnot⟩
  obtain ⟨rfl, rfl⟩ := read_ok h hread
  have hneg := hnot fun hc => by simp [hopen] at hc
  exact absurd hneg.1 (by decide)

theorem reports_iff_of_done (h : readHeader st is .init = some (.ok, par, rest))
    (hd : par.headerDone = true) :
    Reports st bodyRead is body ↔ Succeeds bodyRead (bodyStream rest par) body := by
  constructor
  · rintro ⟨n, par', b, rest', hread, -, hnot⟩
    obtain ⟨rfl, rfl⟩ := read_ok h hread
    by_contra hfail
    have hneg := hnot ?_
    · exact absurd hneg.1 (by decide)
    · rintro ⟨-, p, r, hok, hs⟩
      rw [h] at hok
      cases hok
      exact hfail hs
  · intro hs
    obtain ⟨k, b, r, hbody, -⟩ := id hs
    obtain ⟨rest', hread⟩ := readBody_some hbody
    refine ⟨0, { par with done := true }, b, rest', ?_, ?_, ?_⟩
    · simp only [read, h, hread, Option.map_some]
    · intro _
      exact ⟨rfl, rfl⟩
    · intro hnot
      exact absurd ⟨hd, par, rest, h, hs⟩ hnot

end Report

/-- For every stream and every handler: the report is true exactly when no token goes over the end
of its array, the stream does not end inside a head, and behind a head that is complete the handler
succeeds. -/
theorem read_reports_iff {β : Type} (st : Stack) (hst : st.Sized) (bodyRead : BodyReader β)
    (is : Bytes) (body : β) :
    Reports st bodyRead is body ↔
      ¬ HeadOverlong is ∧ ¬ OpenHead is ∧
        ∀ (head : RawHead) (rest : Bytes), head.Fits → is = head.bytes ++ rest →
          Succeeds bodyRead (head.bodyBytes rest) body := by
  constructor
  · intro hreports
    refine ⟨?_, ?_, ?_⟩
    · intro hover
      obtain ⟨n, par, b, rest, hread, -⟩ := hreports
      rw [read, (readHeader_none_iff hst).mpr hover] at hread
      cases hread
    · intro hopen
      obtain ⟨par, rest, h, hd⟩ := (readHeader_open_iff hst).mpr hopen
      exact not_reports_of_open h hd hreports
    · rintro head rest hfits rfl
      have h := readHeader_raw hst hfits rest
      rw [← head.bodyStream_parser]
      exact (reports_iff_of_done h rfl).mp hreports
  · rintro ⟨hover, hopen, hsucc⟩
    obtain ⟨⟨ec, par, rest⟩, h⟩ : ∃ r, readHeader st is .init = some r := by
      rw [← Option.ne_none_iff_exists']
      exact fun hnone => hover ((readHeader_none_iff hst).mp hnone)
    by_cases hec : ec = .ok
    · subst hec
      have hd : par.headerDone = true := by
        by_contra hd
        exact hopen ((readHeader_open_iff hst).mp ⟨par, rest, h, by simpa using hd⟩)
      obtain ⟨-, head, hfits, rfl, rfl⟩ := readHeader_exact hst h hd
      rw [reports_iff_of_done h hd, head.bodyStream_parser]
      exact hsucc head rest hfits rfl
    · exact reports_of_error h hec

/-- `empty_body::read`, the handler the `RW` handler of the server parses its heads with -/
def emptyBodyRead : BodyReader Unit := fun is body => some (0, body, is)

/-- `GET / HTTP/1.0` and the empty line -/
def getHead : RawHead := ⟨getRequest, [], [], .lf, skip_nil⟩

theorem getHead_fits : getHead.Fits where
  request := getRequest_fits
  lines := by simp [getHead]

theorem reports_getHead : Reports .zero emptyBodyRead (getHead.bytes ++ []) () :=
  (reports_iff_of_done (readHeader_raw Stack.zero_sized getHead_fits []) rfl).mpr
    ⟨0, (), _, rfl, le_refl _⟩

theorem read_reports_get :
    ¬ HeadOverlong (getHead.bytes ++ []) ∧ ¬ OpenHead (getHead.bytes ++ []) ∧
      ∀ (head : RawHead) (rest : Bytes), head.Fits → getHead.bytes ++ [] = head.bytes ++ rest →
        Succeeds emptyBodyRead (head.bodyBytes rest) () :=
  (read_reports_iff .zero Stack.zero_sized emptyBodyRead (getHead.bytes ++ []) ()).mp
    reports_getHead

theorem cutTarget_open : OpenHead (ascii "GET /") := by
  have hbytes : ascii "GET /" = getStart.bytes ++ (⟨[], rootTarget_ok⟩ : Target).bytes := by
    decide +kernel
  rw [hbytes]
  exact .inl (.target getStart (by decide))

/-- The input ends in the target: `read` returns 0 with `is_done()`, and the head is not done. -/
theorem read_reports_cut : ¬ ∀ is : Bytes, Reports .zero emptyBodyRead is () := by
  intro hall
  obtain ⟨par, rest, h, hopen⟩ := (readHeader_open_iff Stack.zero_sized).mpr cutTarget_open
  exact not_reports_of_open h hopen (hall (ascii "GET /"))

end Http
end SimpleWeb
