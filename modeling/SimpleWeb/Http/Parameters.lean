import SimpleWeb.Http.HeadLanguage
import SimpleWeb.Http.Arguments

/-!
# Http.Parameters

The arguments of a GET request: `read_header` keeps the printable bytes of the query and the space
behind it, the parser is moved to one with a vector body, and `read_body` reads what was kept.

A parameter may come with a value or bare. The reader reports the first at the `&` or at the space
behind it, the second at the `&` only (`outcome_joined`): a list of pairs comes back as it was
(`readArguments_write`), and two queries can be joined when the first ends with a pair, and only
then (`arguments_append_iff`).
-/

namespace SimpleWeb
namespace Http

open ScanLoop CArray

/-- The converting constructor of `parser`: the header is copied, as `message` binds it by name,
and so are the flags; the query string is moved. The new parser, and the one moved from. -/
def Parser.convert (par : Parser) : Parser × Parser := (par, { par with querystr := none })

namespace VectorBody

/-- The two calls of `test/http/parser_test.cpp`: `read_header`, whose result is not looked at, and
`read_body` with the converted parser and its empty vector. -/
def readArguments (st : Stack) (name value is : Bytes) :
    Option (ParserEc × Parser × List ReqArg × Bytes) :=
  match readHeader st is .init with
  | some (ec, par, rest) =>
    (readBody (read name value) rest par.convert.1 []).map fun (_, body, rest) =>
      (ec, par.convert.1, body, rest)
  | none => none

def arguments (st : Stack) (name value is : Bytes) : Option (List ReqArg) :=
  (readArguments st name value is).map fun (_, _, body, _) => body

/-! ## Joined parameters -/

structure Param where
  name : Bytes
  value : Option Bytes
  name_ok : ∀ c ∈ name, isArgName c = true
  value_ok : ∀ v ∈ value, ∀ c ∈ v, isArgValue c = true

namespace Param

def bytes (p : Param) : Bytes :=
  match p.value with
  | none => p.name
  | some v => p.name ++ byte '=' :: v

def arg (p : Param) : ReqArg := ⟨p.name, p.value.getD []⟩

structure Fits (p : Param) : Prop where
  name : p.name.length < MAXFIELDNAME
  value : ∀ v ∈ p.value, v.length < MAXFIELDVALUE

/-- What `read_header_line` keeps of a parameter. -/
def kept (p : Param) : Param where
  name := p.name.filter isprint
  value := p.value
  name_ok c hc := p.name_ok c (List.mem_of_mem_filter hc)
  value_ok := p.value_ok

def ofArg (a : ReqArg) (h : Encodable a) : Param where
  name := a.key
  value := some a.value
  name_ok := h.key
  value_ok v hv := by
    cases hv
    exact h.value

end Param

def joined (ps : List Param) : Bytes := List.intercalate [byte '&'] (ps.map Param.bytes)

/-- The pairs the reader gets of a query: a bare name in front of the space is not reported. -/
def reported : List Param → List ReqArg
  | [] => []
  | [p] => if p.value.isSome then [p.arg] else []
  | p :: q :: ps => p.arg :: reported (q :: ps)

/-- The last parameter of a query comes with a value. -/
def EndsWithPair (ps : List Param) : Prop := ∀ p ∈ ps.getLast?, p.value.isSome = true

instance (ps : List Param) : Decidable (EndsWithPair ps) :=
  inferInstanceAs (Decidable (∀ p ∈ ps.getLast?, p.value.isSome = true))

theorem joined_cons (p : Param) {ps : List Param} (hne : ps ≠ []) :
    joined (p :: ps) = p.bytes ++ byte '&' :: joined ps := by
  obtain ⟨q, qs, rfl⟩ := List.exists_cons_of_ne_nil hne
  simp [joined, List.intercalate]

theorem joined_append {ps qs : List Param} (hp : ps ≠ []) (hq : qs ≠ []) :
    joined (ps ++ qs) = joined ps ++ byte '&' :: joined qs := by
  induction ps with
  | nil => exact absurd rfl hp
  | cons p ps ih =>
    cases ps with
    | nil => simpa [joined] using joined_cons p hq
    | cons p' ps =>
      have hrest := ih (by simp)
      rw [List.cons_append, joined_cons p (by simp), hrest, joined_cons p (by simp)]
      simp

theorem reported_append (ps : List Param) {qs : List Param} (hq : qs ≠ []) :
    reported (ps ++ qs) = ps.map Param.arg ++ reported qs := by
  obtain ⟨q, qs, rfl⟩ := List.exists_cons_of_ne_nil hq
  induction ps with
  | nil => rfl
  | cons p ps ih =>
    cases ps with
    | nil => rfl
    | cons p' ps =>
      exact congrArg (p.arg :: ·) ih

/-- A query is reported whole exactly when it ends with a pair. -/
theorem reported_eq_iff (ps : List Param) :
    reported ps = ps.map Param.arg ↔ EndsWithPair ps := by
  induction ps with
  | nil => simp [reported, EndsWithPair]
  | cons p ps ih =>
    cases ps with
    | nil => simp [reported, EndsWithPair, Option.isSome_iff_ne_none]
    | cons p' ps =>
      have hlast : EndsWithPair (p :: p' :: ps) ↔ EndsWithPair (p' :: ps) := by
        simp [EndsWithPair, List.getLast?_cons_cons]
      rw [hlast, ← ih]
      simp [reported]

/-! ## Reading them -/

theorem Param.encodable {p : Param} (hp : p.Fits) : Encodable p.arg where
  key := p.name_ok
  value := by
    intro c hc
    cases hv : p.value with
    | none => simp [Param.arg, hv] at hc
    | some v => exact p.value_ok v hv c (by simpa [Param.arg, hv] using hc)
  key_len := hp.name
  value_len := by
    cases hv : p.value with
    | none => simp [Param.arg, hv, MAXFIELDVALUE]
    | some v => simpa [Param.arg, hv] using hp.value v hv

theorem Param.bytes_pair {p : Param} {v : Bytes} (hv : p.value = some v) :
    p.bytes = pairBytes p.arg := by
  simp [Param.bytes, Param.arg, pairBytes, hv]

section Reading

variable {n v : Bytes} {k : Nat} {b : List ReqArg}

theorem runs_bare {key : Bytes} (hkey : ∀ c ∈ key, isArgName c = true)
    (hl : key.length < n.length) (hk : k + key.length < MAXTRUNK) :
    ArgRuns ⟨.name, n, v, 0, k, b⟩ (key ++ [byte '&'])
      ⟨.name, fill n (key ++ [0]), v, 0, k + key.length + 1, b ++ [⟨key, []⟩]⟩ := by
  have h0 : 0 ∉ key := fun h => isArgName_ne (hkey 0 h) rfl
  have hname := runs_name (n := n) (v := v) (i := 0) (b := b) hkey (by omega) hk.le
  rw [overwrite_zero, Nat.zero_add] at hname
  refine hname.append (.single (argGuard_of hk) ?_)
  simp [argBody, argSwitch, ArgVars.endName, ArgVars.push, store_fill hl, cstr_fill h0]

/-- In front of another parameter each kind of parameter is reported. -/
theorem runs_param {p : Param} (hp : p.Fits) (hn : n.length = MAXFIELDNAME)
    (hv : v.length = MAXFIELDVALUE) (hk : k + p.bytes.length < MAXTRUNK) :
    ∃ n' v', n'.length = MAXFIELDNAME ∧ v'.length = MAXFIELDVALUE ∧
      ArgRuns ⟨.name, n, v, 0, k, b⟩ (p.bytes ++ [byte '&'])
        ⟨.name, n', v', 0, k + p.bytes.length + 1, b ++ [p.arg]⟩ := by
  have ha := Param.encodable hp
  have hkl := ha.key_len
  have hvl := ha.value_len
  cases hval : p.value with
  | none =>
    have hbytes : p.bytes = p.name := by simp [Param.bytes, hval]
    have harg : p.arg = ⟨p.name, []⟩ := by simp [Param.arg, hval]
    have hlt : p.name.length < n.length := by
      rw [hn]
      exact hp.name
    rw [hbytes] at hk ⊢
    rw [harg]
    refine ⟨_, v, ?_, hv, runs_bare p.name_ok hlt hk⟩
    rw [length_fill (by simpa using hlt), hn]
  | some w =>
    rw [Param.bytes_pair hval] at hk ⊢
    have hamp := runs_ampersand (i := 0) (b := b) ha hn hv (by omega) hk
    rw [overwrite_zero, cstr_fill ha.nul_notMem_key] at hamp
    refine ⟨_, _, ?_, ?_, hamp⟩
    · rw [length_fill (by simp; omega), hn]
    · rw [length_fill (by simp; omega), hv]

theorem outcome_name_space {s : ArgVars} (hs : s.state = .name) (hk : s.totalsize < MAXTRUNK) :
    outcome (loop argGuard argBody s [byte ' ']) = some (-1, s.body) := by
  simp only [loop, argGuard_of hk, if_true]
  rw [argBody_name_stop (by simp) hs]
  rfl

theorem outcome_value_space {t : Bytes} (h0 : 0 ∉ t) (hl : t.length < v.length)
    (hk : k < MAXTRUNK) :
    outcome (loop argGuard argBody ⟨.value, n, fill v t, t.length, k, b⟩ [byte ' ']) =
      some (((k + 1 : Nat) : Int), b ++ [⟨cstr n, t⟩]) := by
  have hg : argGuard ⟨.value, n, fill v t, t.length, k, b⟩ = true := argGuard_of hk
  simp only [loop, hg, if_true]
  rw [argBody_value_space rfl, endValue_fill h0 hl]
  rfl

/-- In front of the space a bare name makes the reader give up. -/
theorem outcome_last {p : Param} (hp : p.Fits) (hn : n.length = MAXFIELDNAME)
    (hv : v.length = MAXFIELDVALUE) (hk : k + p.bytes.length < MAXTRUNK) :
    ∃ m, outcome (loop argGuard argBody ⟨.name, n, v, 0, k, b⟩ (p.bytes ++ [byte ' '])) =
      some (m, b ++ reported [p]) := by
  have ha := Param.encodable hp
  have hkl := ha.key_len
  have hvl := ha.value_len
  cases hval : p.value with
  | none =>
    have hbytes : p.bytes = p.name := by simp [Param.bytes, hval]
    have hrep : reported [p] = [] := by simp [reported, hval]
    have hlt := hp.name
    rw [hbytes] at hk ⊢
    have hname := runs_name (n := n) (v := v) (i := 0) (b := b) p.name_ok (by omega) hk.le
    refine ⟨-1, ?_⟩
    rw [loop_of_runs hname, hrep, List.append_nil]
    exact outcome_name_space rfl hk
  | some w =>
    have hrep : reported [p] = [p.arg] := by simp [reported, hval]
    rw [Param.bytes_pair hval] at hk ⊢
    have hpair := runs_pair (i := 0) (b := b) ha hn hv (by omega) hk.le
    rw [overwrite_zero] at hpair
    refine ⟨((k + (pairBytes p.arg).length + 1 : Nat) : Int), ?_⟩
    rw [loop_of_runs hpair, hrep, outcome_value_space ha.nul_notMem_value (by omega) hk,
      cstr_fill ha.nul_notMem_key]

theorem outcome_joined (ps : List Param) :
    ∀ {n v : Bytes} {k : Nat} {b : List ReqArg}, (∀ p ∈ ps, p.Fits) → n.length = MAXFIELDNAME →
      v.length = MAXFIELDVALUE → k + (joined ps).length < MAXTRUNK →
      ∃ m, outcome (loop argGuard argBody ⟨.name, n, v, 0, k, b⟩ (joined ps ++ [byte ' '])) =
        some (m, b ++ reported ps) := by
  induction ps with
  | nil =>
    intro n v k b _ hn hv hk
    refine ⟨-1, ?_⟩
    rw [reported, List.append_nil]
    exact outcome_name_space rfl (by simpa [joined] using hk)
  | cons p ps ih =>
    intro n v k b hok hn hv hk
    have hp := hok p (by simp)
    cases ps with
    | nil =>
      have hjoin : joined [p] = p.bytes := by simp [joined]
      rw [hjoin] at hk ⊢
      exact outcome_last hp hn hv hk
    | cons q ps =>
      have hsplit : joined (p :: q :: ps) = (p.bytes ++ [byte '&']) ++ joined (q :: ps) := by
        rw [joined_cons p (by simp)]; simp
      rw [hsplit] at hk ⊢
      simp only [List.length_append, List.length_singleton] at hk
      obtain ⟨n', v', hn', hv', hr⟩ := runs_param (k := k) (b := b) hp hn hv (by omega)
      obtain ⟨m, hrest⟩ := ih (b := b ++ [p.arg]) (k := k + p.bytes.length + 1)
        (fun x hx => hok x (by simp [hx])) hn' hv' (by omega)
      refine ⟨m, ?_⟩
      rw [List.append_assoc, loop_of_runs hr, hrest]
      simp [reported]

end Reading

/-! ## Through the head -/

/-- A GET head that fits, with these bytes behind the `?` of its target. -/
structure Gets (h : RawHead) (bytes : Bytes) : Prop where
  fits : h.Fits
  method : h.request.protocol.uri.start.method = .get
  query : h.request.protocol.uri.query.map RawQuery.bytes = some bytes

theorem Gets.querystr {h : RawHead} {bytes : Bytes} (hg : Gets h bytes) :
    h.parser.querystr = some (bytes.filter isprint ++ [byte ' ']) := by
  obtain ⟨q, hq, rfl⟩ := Option.map_eq_some_iff.mp hg.query
  simp [RawHead.parser, Parser.store, Parser.setFields, RawRequest.apply, RawUri.apply, hq,
    RawQuery.stored]

theorem Gets.length {h : RawHead} {bytes : Bytes} (hg : Gets h bytes) :
    (bytes.filter isprint).length + 2 ≤ 1024 := by
  obtain ⟨q, hq, rfl⟩ := Option.map_eq_some_iff.mp hg.query
  have hfit := hg.fits.request.uri.query q (by simp [hq])
  simp only [RawQuery.stored, List.length_append, List.length_singleton] at hfit
  omega

theorem Param.filter_bytes (p : Param) : p.bytes.filter isprint = p.kept.bytes := by
  cases hv : p.value with
  | none => simp [Param.bytes, Param.kept, hv]
  | some v =>
    have hkeep : ∀ c ∈ v, isprint c = true := fun c hc => by
      have hc := p.value_ok v hv c hc
      simp only [isArgValue, Bool.and_eq_true] at hc
      exact hc.1.1
    have heq : isprint (byte '=') = true := by decide
    simp [Param.bytes, Param.kept, hv, heq, List.filter_eq_self.mpr hkeep]

/-- What is kept of joined parameters is joined as well. -/
theorem filter_joined (ps : List Param) :
    (joined ps).filter isprint = joined (ps.map Param.kept) := by
  induction ps with
  | nil => rfl
  | cons p ps ih =>
    cases ps with
    | nil => simp [joined, Param.filter_bytes]
    | cons q ps =>
      have hand : isprint (byte '&') = true := by decide
      rw [joined_cons p (by simp), List.map_cons, joined_cons p.kept (by simp), ← ih]
      simp [Param.filter_bytes, hand]

theorem readArguments_joined {st : Stack} (hst : st.Sized) {name value : Bytes}
    (hn : name.length = MAXFIELDNAME) (hv : value.length = MAXFIELDVALUE) {h : RawHead}
    {ps : List Param} (hg : Gets h (joined ps)) (hfit : ∀ p ∈ ps, p.kept.Fits) (rest : Bytes) :
    readArguments st name value (h.bytes ++ rest) =
      some (.ok, h.parser, reported (ps.map Param.kept), rest) := by
  have hlen := hg.length
  rw [filter_joined] at hlen
  have hkept : ∀ p ∈ ps.map Param.kept, p.Fits := by simpa using hfit
  obtain ⟨m, hout⟩ := outcome_joined (ps.map Param.kept) (k := 0) (b := []) hkept hn hv
    (by have h1024 : (1024 : Nat) ≤ MAXTRUNK := by decide
        omega)
  rw [← read_outcome, List.nil_append] at hout
  obtain ⟨⟨m', b, r⟩, hread, heq⟩ := Option.map_eq_some_iff.mp hout
  cases heq
  have hbody : readBody (read name value) rest h.parser [] =
      some (0, reported (ps.map Param.kept), rest) := by
    simp [readBody, hg.querystr, filter_joined, hread]
  simp [readArguments, readHeader_raw hst hg.fits, Parser.convert, hbody]

/-! ## The round trip -/

/-- An argument that survives both readers: `read_header_line` keeps the printable bytes only. -/
structure QueryArg (a : ReqArg) : Prop where
  key : ∀ c ∈ a.key, isprint c = true ∧ c ∉ ascii " #%+./?&="
  value : ∀ c ∈ a.value, isprint c = true ∧ c ∉ ascii " &"
  key_len : a.key.length < MAXFIELDNAME
  value_len : a.value.length < MAXFIELDVALUE

instance (a : ReqArg) : Decidable (QueryArg a) :=
  decidable_of_iff
    ((∀ c ∈ a.key, isprint c = true ∧ c ∉ ascii " #%+./?&=") ∧
      (∀ c ∈ a.value, isprint c = true ∧ c ∉ ascii " &") ∧
      a.key.length < MAXFIELDNAME ∧ a.value.length < MAXFIELDVALUE)
    ⟨fun ⟨hk, hv, hkl, hvl⟩ => ⟨hk, hv, hkl, hvl⟩,
      fun h => ⟨h.key, h.value, h.key_len, h.value_len⟩⟩

/-- What both readers accept, the vector's reader accepts. -/
theorem argBytes_of_print : ∀ c : UInt8,
    (isprint c = true ∧ c ∉ ascii " #%+./?&=" → isArgName c = true) ∧
      (isprint c = true ∧ c ∉ ascii " &" → isArgValue c = true) := by
  decide +kernel

theorem QueryArg.encodable {a : ReqArg} (ha : QueryArg a) : Encodable a :=
  ⟨fun c hc => (argBytes_of_print c).1 (ha.key c hc),
    fun c hc => (argBytes_of_print c).2 (ha.value c hc), ha.key_len, ha.value_len⟩

/-- A list of arguments, as parameters with values. -/
def params (as : List ReqArg) (hok : ∀ a ∈ as, QueryArg a) : List Param :=
  as.pmap Param.ofArg fun a ha => (hok a ha).encodable

theorem joined_params (as : List ReqArg) (hok : ∀ a ∈ as, QueryArg a) :
    joined (params as hok) = (write as).1 := by
  induction as with
  | nil => rfl
  | cons a as ih =>
    have hbytes : (Param.ofArg a (hok a (by simp)).encodable).bytes = pairBytes a := rfl
    cases as with
    | nil => simp [params, joined, write, hbytes]
    | cons b as =>
      have hrest := ih fun x hx => hok x (by simp [hx])
      rw [params, List.pmap_cons, joined_cons _ (by simp), hbytes]
      rw [params] at hrest
      rw [hrest]
      simp [write]

theorem kept_params (as : List ReqArg) (hok : ∀ a ∈ as, QueryArg a) :
    ((params as hok).map Param.kept).map Param.arg = as := by
  induction as with
  | nil => rfl
  | cons a as ih =>
    have hkey : a.key.filter isprint = a.key :=
      List.filter_eq_self.mpr fun c hc => ((hok a (by simp)).key c hc).1
    have hrest := ih fun x hx => hok x (by simp [hx])
    rw [params] at hrest
    simp only [params, List.pmap_cons, List.map_cons, hrest]
    simp [Param.kept, Param.arg, Param.ofArg, hkey]

theorem mem_params {as : List ReqArg} {hok : ∀ a ∈ as, QueryArg a} {p : Param}
    (hp : p ∈ params as hok) : ∃ a, QueryArg a ∧ p.name = a.key ∧ p.value = some a.value := by
  obtain ⟨a, ha, rfl⟩ := List.mem_pmap.mp hp
  exact ⟨a, hok a ha, rfl, rfl⟩

theorem params_endsWithPair {as : List ReqArg} {hok : ∀ a ∈ as, QueryArg a} :
    EndsWithPair ((params as hok).map Param.kept) := by
  intro p hp
  obtain ⟨p', hp', rfl⟩ := List.mem_map.mp (List.mem_of_getLast? hp)
  obtain ⟨a, -, -, hvalue⟩ := mem_params hp'
  simp [Param.kept, hvalue]

theorem params_fits {as : List ReqArg} {hok : ∀ a ∈ as, QueryArg a} :
    ∀ p ∈ params as hok, p.kept.Fits := by
  intro p hp
  obtain ⟨a, ha, hname, hvalue⟩ := mem_params hp
  refine ⟨?_, ?_⟩
  · calc (p.name.filter isprint).length ≤ p.name.length := List.length_filter_le _ _
      _ = a.key.length := by rw [hname]
      _ < MAXFIELDNAME := ha.key_len
  · intro v hv
    have hva : a.value = v := by simpa [Param.kept, hvalue] using hv
    exact hva ▸ ha.value_len

/-- A written list comes back from a GET head that carries it as its query. -/
theorem readArguments_write (as : List ReqArg) (hok : ∀ a ∈ as, QueryArg a) (st : Stack)
    (hst : st.Sized) (name value : Bytes) (hn : name.length = MAXFIELDNAME)
    (hv : value.length = MAXFIELDVALUE) (h : RawHead) (hg : Gets h (write as).1) (rest : Bytes) :
    ∃ par, readHeader st (h.bytes ++ rest) .init = some (.ok, par, rest) ∧
      readArguments st name value (h.bytes ++ rest) = some (.ok, par, as, rest) ∧
      par.message.method = .get ∧
      par.message.target = h.request.protocol.uri.target.bytes ∧
      par.message.version = h.request.version ∧
      par.message.fields = assignBy storedValue ∅ h.lines := by
  have hjoin : Gets h (joined (params as hok)) := by rw [joined_params]; exact hg
  have hread := readArguments_joined hst hn hv hjoin params_fits rest
  have hall : reported ((params as hok).map Param.kept) = as :=
    ((reported_eq_iff _).mpr params_endsWithPair).trans (kept_params as hok)
  rw [hall] at hread
  exact ⟨h.parser, readHeader_raw hst hg.fits rest, hread, hg.method, rfl, rfl, rfl⟩

def queryProtocol (q : RawQuery) : RawProtocol :=
  { getRequest.protocol with uri := ⟨getStart, textTarget, some q⟩ }

theorem queryProtocol_fits {q : RawQuery} (hq : (q.bytes.filter isprint).length + 2 ≤ 1024) :
    (queryProtocol q).Fits 1024 where
  uri.target := by
    show textTarget.bytes.length < 1024
    decide +kernel
  uri.query := by
    rintro q' ⟨⟩
    simp only [RawQuery.stored, List.length_append, List.length_singleton]
    omega
  http := getRequest_fits.http

/-- `GET /text?q HTTP/1.0` without fields -/
def getQuery (q : RawQuery) : RawHead where
  request := { getRequest with protocol := queryProtocol q }
  lines := []
  skip := []
  eol := .crlf
  skip_ok := skip_nil

theorem getQuery_gets (q : RawQuery) (hq : (q.bytes.filter isprint).length + 2 ≤ 1024) :
    Gets (getQuery q) q.bytes where
  fits := ⟨queryProtocol_fits hq, by simp [getQuery]⟩
  method := rfl
  query := rfl

theorem parserTestArgs_query : ∀ a ∈ parserTestArgs, QueryArg a := by decide +kernel

theorem parserTestArgs_written :
    byte ' ' ∉ (write parserTestArgs).1 ∧ 0 ∉ (write parserTestArgs).1 := by decide +kernel

/-- The GET of `test/http/parser_test.cpp`, its fields apart. -/
def parserTestGet : RawHead :=
  getQuery ⟨(write parserTestArgs).1, parserTestArgs_written.1, parserTestArgs_written.2⟩

theorem parserTestGet_gets : Gets parserTestGet (write parserTestArgs).1 :=
  getQuery_gets _ (by decide +kernel)

theorem readArguments_write_parserTest :
    ∃ par, readHeader .zero (parserTestGet.bytes ++ ascii "rest") .init =
        some (.ok, par, ascii "rest") ∧
      readArguments .zero Stack.zero.fieldname Stack.zero.fieldvalue
        (parserTestGet.bytes ++ ascii "rest") = some (.ok, par, parserTestArgs, ascii "rest") ∧
      par.message.method = .get ∧
      par.message.target = parserTestGet.request.protocol.uri.target.bytes ∧
      par.message.version = parserTestGet.request.version ∧
      par.message.fields = assignBy storedValue ∅ parserTestGet.lines :=
  readArguments_write parserTestArgs parserTestArgs_query .zero Stack.zero_sized
    Stack.zero.fieldname Stack.zero.fieldvalue Stack.zero_sized.fieldname
    Stack.zero_sized.fieldvalue parserTestGet parserTestGet_gets (ascii "rest")

/-! ## Joining queries -/

theorem isArgName_space {c : UInt8} (h : isArgName c = true) : c ≠ byte ' ' := by
  rintro rfl
  simp [isArgName] at h

theorem Param.bytes_clean {p : Param} {c : UInt8} (hc : c ∈ p.bytes) : c ≠ byte ' ' ∧ c ≠ 0 := by
  have hname : ∀ c ∈ p.name, c ≠ byte ' ' ∧ c ≠ 0 := fun c hc =>
    ⟨isArgName_space (p.name_ok c hc), isArgName_ne (p.name_ok c hc)⟩
  cases hv : p.value with
  | none => exact hname c (by simpa [Param.bytes, hv] using hc)
  | some v =>
    simp only [Param.bytes, hv, List.mem_append, List.mem_cons] at hc
    rcases hc with hc | rfl | hc
    · exact hname c hc
    · exact ⟨by simp, by decide⟩
    · have hval := p.value_ok v hv c hc
      refine ⟨?_, isArgValue_ne hval⟩
      simp only [isArgValue, Bool.and_eq_true, bne_iff_ne] at hval
      exact hval.2

theorem joined_clean {ps : List Param} {c : UInt8} (hc : c ∈ joined ps) :
    c ≠ byte ' ' ∧ c ≠ 0 := by
  induction ps with
  | nil => simp [joined] at hc
  | cons p ps ih =>
    cases ps with
    | nil => exact Param.bytes_clean (p := p) (by simpa [joined] using hc)
    | cons q ps =>
      rw [joined_cons p (by simp), List.mem_append, List.mem_cons] at hc
      rcases hc with hc | rfl | hc
      · exact Param.bytes_clean hc
      · exact ⟨by simp, by decide⟩
      · exact ih hc

/-- Every list of parameters can be asked for. -/
def queryOf (ps : List Param) : RawQuery where
  bytes := joined ps
  space_ok h := (joined_clean h).1 rfl
  nul_ok h := (joined_clean h).2 rfl

/-- Two queries joined by `&` give the arguments of both exactly when the first ends with a pair: a
bare name in front of the space is lost, and in front of the `&` it is reported. -/
theorem arguments_append_iff (q₁ q₂ : List Param) (hne₁ : q₁ ≠ []) (hne₂ : q₂ ≠ [])
    (hfit : ∀ p ∈ q₁ ++ q₂, p.kept.Fits) (st : Stack) (hst : st.Sized) (name value : Bytes)
    (hn : name.length = MAXFIELDNAME) (hv : value.length = MAXFIELDVALUE) (h₁ h₂ h : RawHead)
    (hg₁ : Gets h₁ (joined q₁)) (hg₂ : Gets h₂ (joined q₂))
    (hg : Gets h (joined q₁ ++ byte '&' :: joined q₂)) (rest₁ rest₂ rest : Bytes) :
    ∃ as₁ as₂, arguments st name value (h₁.bytes ++ rest₁) = some as₁ ∧
      arguments st name value (h₂.bytes ++ rest₂) = some as₂ ∧
      (arguments st name value (h.bytes ++ rest) = some (as₁ ++ as₂) ↔ EndsWithPair q₁) := by
  rw [← joined_append hne₁ hne₂] at hg
  have hread₁ := readArguments_joined hst hn hv hg₁ (fun p hp => hfit p (by simp [hp])) rest₁
  have hread₂ := readArguments_joined hst hn hv hg₂ (fun p hp => hfit p (by simp [hp])) rest₂
  have hread := readArguments_joined hst hn hv hg hfit rest
  have hkept : EndsWithPair (q₁.map Param.kept) ↔ EndsWithPair q₁ := by
    simp [EndsWithPair, List.getLast?_map, Param.kept]
  refine ⟨_, _, by rw [arguments, hread₁]; rfl, by rw [arguments, hread₂]; rfl, ?_⟩
  rw [arguments, hread, List.map_append, reported_append _ (by simpa using hne₂), ← hkept,
    ← reported_eq_iff]
  simp [eq_comm]

theorem getQuery_joined (ps : List Param) (hlen : ((joined ps).filter isprint).length + 2 ≤ 1024) :
    Gets (getQuery (queryOf ps)) (joined ps) :=
  getQuery_gets (queryOf ps) hlen

/-- The parameters of `test/http/parser_test.cpp`. -/
def parserTestParams : List Param := params parserTestArgs parserTestArgs_query

theorem parserTestParams_ne : parserTestParams ≠ [] := by
  simp [parserTestParams, params, parserTestArgs]

theorem parserTestParams_fits : ∀ p ∈ parserTestParams ++ parserTestParams, p.kept.Fits := by
  intro p hp
  exact params_fits p (or_self_iff.mp (List.mem_append.mp hp))

theorem parserTestParams_gets : Gets parserTestGet (joined parserTestParams) := by
  rw [parserTestParams, joined_params]
  exact parserTestGet_gets

theorem parserTestParams_twice :
    Gets (getQuery (queryOf (parserTestParams ++ parserTestParams)))
      (joined parserTestParams ++ byte '&' :: joined parserTestParams) := by
  rw [← joined_append parserTestParams_ne parserTestParams_ne]
  exact getQuery_joined _ (by decide +kernel)

theorem arguments_append_iff_parserTest :
    ∃ as₁ as₂,
      arguments .zero Stack.zero.fieldname Stack.zero.fieldvalue
        (parserTestGet.bytes ++ []) = some as₁ ∧
      arguments .zero Stack.zero.fieldname Stack.zero.fieldvalue
        (parserTestGet.bytes ++ []) = some as₂ ∧
      arguments .zero Stack.zero.fieldname Stack.zero.fieldvalue
        ((getQuery (queryOf (parserTestParams ++ parserTestParams))).bytes ++ []) =
          some (as₁ ++ as₂) := by
  obtain ⟨as₁, as₂, h₁, h₂, happend⟩ := arguments_append_iff parserTestParams parserTestParams
    parserTestParams_ne parserTestParams_ne parserTestParams_fits .zero Stack.zero_sized
    Stack.zero.fieldname Stack.zero.fieldvalue Stack.zero_sized.fieldname
    Stack.zero_sized.fieldvalue parserTestGet parserTestGet
    (getQuery (queryOf (parserTestParams ++ parserTestParams))) parserTestParams_gets
    parserTestParams_gets parserTestParams_twice [] [] []
  exact ⟨as₁, as₂, h₁, h₂, happend.mpr (by decide +kernel)⟩

/-- The queries `a`, `b=c` and `a&b=c`. -/
theorem arguments_bare_lost :
    arguments .zero Stack.zero.fieldname Stack.zero.fieldvalue
        (ascii "GET /text?a HTTP/1.0\r\n\r\n") = some [] ∧
      arguments .zero Stack.zero.fieldname Stack.zero.fieldvalue
        (ascii "GET /text?b=c HTTP/1.0\r\n\r\n") = some [⟨ascii "b", ascii "c"⟩] ∧
      arguments .zero Stack.zero.fieldname Stack.zero.fieldvalue
        (ascii "GET /text?a&b=c HTTP/1.0\r\n\r\n") =
          some [⟨ascii "a", []⟩, ⟨ascii "b", ascii "c"⟩] ∧
      arguments .zero Stack.zero.fieldname Stack.zero.fieldvalue
        (ascii "GET /text?a&b=c HTTP/1.0\r\n\r\n") ≠
          some ([] ++ [⟨ascii "b", ascii "c"⟩]) := by
  decide +kernel

end VectorBody
end Http
end SimpleWeb
