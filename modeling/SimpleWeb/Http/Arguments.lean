import SimpleWeb.Http.HeadCorrect
import SimpleWeb.Http.VectorBody

/-!
# Http.Arguments

Arguments reach `vector_body<reqargs>::read` on two paths: as the query of a GET, kept with the
space that ended it, and as the body of a POST. Both give the same vector and the same count
(`arguments_get_eq_post`).

What the reader does is first freed from its stack arrays: their first content never matters
(`read_indep`), and arrays longer than the stream never fault (`read_ne_none`).
-/

namespace SimpleWeb
namespace Http
namespace VectorBody

open ScanLoop CArray

/-! ## The first content of the arrays -/

/-- Two readers at the same point of the same stream, over different memory. -/
structure ArgSim (s t : ArgVars) : Prop where
  state : s.state = t.state
  i : s.i = t.i
  totalsize : s.totalsize = t.totalsize
  body : s.body = t.body
  text : s.state = .name → SameText s.name t.name s.i
  string : s.state ≠ .name → SameString s.name t.name
  value : s.state = .value → SameText s.value t.value s.i
  len : s.value.length = t.value.length

theorem almostDoneCase_sim {s t : ArgVars} (h : ArgSim s t) (c : UInt8)
    (hs : SameString s.name t.name) :
    Pass.Sim ArgSim (almostDoneCase c s) (almostDoneCase c t) := by
  unfold almostDoneCase
  split
  · exact .next h
  · split
    · exact .next ⟨rfl, h.i, h.totalsize, h.body, fun _ => hs.text _, fun _ => hs, (by simp), h.len⟩
    · exact .next h

theorem ArgSim.of_strings {n n' v v' : Bytes} (hn : SameString n n') (hv : SameString v v')
    (q : ArgState) (i k : Nat) (b : List ReqArg) :
    ArgSim ⟨q, n, v, i, k, b⟩ ⟨q, n', v', i, k, b⟩ :=
  ⟨rfl, rfl, rfl, rfl, fun _ => hn.text i, fun _ => hn, fun _ => hv.text i, hv.len⟩

/-- Both readers find the same pair behind a value. -/
theorem endValue_sim {n n' v v' : Bytes} {i k : Nat} {b : List ReqArg}
    (hname : SameString n n') (hvalue : SameText v v' i) :
    ((⟨.value, n, v, i, k, b⟩ : ArgVars).endValue = none ∧
        (⟨.value, n', v', i, k, b⟩ : ArgVars).endValue = none) ∨
      ∃ a a' l, SameString a a' ∧
        (⟨.value, n, v, i, k, b⟩ : ArgVars).endValue = some ⟨.value, n, a, i, k, l⟩ ∧
        (⟨.value, n', v', i, k, b⟩ : ArgVars).endValue = some ⟨.value, n', a', i, k, l⟩ := by
  rcases hvalue.terminate with ⟨ha, hb⟩ | ⟨a, a', ha, hb, h'⟩
  · refine .inl ⟨?_, ?_⟩
    · simp [ArgVars.endValue, ha]
    · simp [ArgVars.endValue, hb]
  · refine .inr ⟨a, a', b ++ [⟨cstr n, cstr a⟩], h', ?_, ?_⟩
    · simp [ArgVars.endValue, ArgVars.push, ha]
    · simp [ArgVars.endValue, ArgVars.push, hb, hname.cstr, h'.cstr]

theorem argBody_sim {s t : ArgVars} (h : ArgSim s t) (c : UInt8) :
    Pass.Sim ArgSim (argBody c s) (argBody c t) := by
  obtain ⟨q, n, v, i, k, b⟩ := s
  obtain ⟨q', n', v', i', k', b'⟩ := t
  obtain ⟨hq, hi, hk, hb, htext, hstring, hvalue, hlen⟩ := h
  simp only at hq hi hk hb htext hstring hvalue hlen
  subst hq hi hk hb
  cases q with
  | name =>
    have hn := htext rfl
    simp only [argBody, argSwitch]
    split
    · rcases hn.store c with ⟨ha, hb⟩ | ⟨a', b', ha, hb, h'⟩
      · simp only [ArgVars.putName, ha, hb]
        exact .fault
      · simp only [ArgVars.putName, ha, hb]
        exact .next ⟨rfl, rfl, rfl, rfl, fun _ => h', (by simp), (by simp), hlen⟩
    · split
      · rcases hn.terminate with ⟨ha, hb⟩ | ⟨a', b', ha, hb, h'⟩
        · simp only [ArgVars.endName, ha, hb]
          exact .fault
        · simp only [ArgVars.endName, ha, hb]
          exact .next ⟨rfl, rfl, rfl, rfl, (by simp), fun _ => h', fun _ => .start hlen, hlen⟩
      · split
        · rcases hn.terminate with ⟨ha, hb⟩ | ⟨a', b', ha, hb, h'⟩
          · simp only [ArgVars.endName, ha, hb]
            exact .fault
          · simp only [ArgVars.endName, ha, hb]
            refine .next ⟨rfl, rfl, rfl, ?_, fun _ => h'.text 0, fun _ => h', ?_, hlen⟩
            · simp [ArgVars.push, h'.cstr]
            · simp [ArgVars.push]
        · exact .ret ⟨rfl, rfl, rfl, rfl, htext, hstring, hvalue, hlen⟩
  | value =>
    have hs := hstring (by simp)
    have hv := hvalue rfl
    simp only [argBody, argSwitch]
    split
    · rcases hv.store c with ⟨ha, hb⟩ | ⟨a', b', ha, hb, h'⟩
      · simp only [ArgVars.putValue, ha, hb]
        exact .fault
      · simp only [ArgVars.putValue, ha, hb]
        exact .next ⟨rfl, rfl, rfl, rfl, (by simp), fun _ => hs, fun _ => h', h'.len⟩
    · rcases endValue_sim (k := k + 1) (b := b) hs hv with ⟨ha, hb⟩ | ⟨a, a', l, h', ha, hb⟩
      · simp only [ha, hb]
        split
        · exact .fault
        · split
          · exact .fault
          · split
            · exact .fault
            · split
              · exact .fault
              · exact .ret ⟨rfl, rfl, rfl, rfl, (by simp), fun _ => hs, fun _ => hv, hlen⟩
      · have hto := fun q j => ArgSim.of_strings hs h' q j (k + 1) l
        simp only [ha, hb, Pass.must_some]
        split
        · exact almostDoneCase_sim (hto .name 0) c hs
        · split
          · exact .ret (hto .value i)
          · split
            · exact almostDoneCase_sim (hto .almostDone i) c hs
            · split
              · exact almostDoneCase_sim (hto .name i) c hs
              · exact .ret ⟨rfl, rfl, rfl, rfl, (by simp), fun _ => hs, fun _ => hv, hlen⟩
  | almostDone =>
    have hs := hstring (by simp)
    exact almostDoneCase_sim (s := ⟨.almostDone, n, v, i, k + 1, b⟩)
      (t := ⟨.almostDone, n', v', i, k + 1, b⟩)
      ⟨rfl, rfl, rfl, rfl, (by simp), fun _ => hs, (by simp), hlen⟩ c hs

/-- No byte of the arrays is read that was not stored before. -/
theorem read_indep {n n' v v' : Bytes} (hn : n.length = n'.length) (hv : v.length = v'.length)
    (is : Bytes) (body : List ReqArg) : read n v is body = read n' v' is body := by
  have hstart : ArgSim ⟨.name, n, v, 0, 0, body⟩ ⟨.name, n', v', 0, 0, body⟩ :=
    ⟨rfl, rfl, rfl, rfl, fun _ => .start hn, (by simp), (by simp), hv⟩
  have hguard : ∀ s t, ArgSim s t → argGuard s = argGuard t := fun s t h => by
    rw [argGuard, argGuard, h.totalsize]
  have hexit := loop_sim hguard (fun c s t h => argBody_sim h c) is hstart
  rw [read, read]
  generalize loop argGuard argBody ⟨.name, n, v, 0, 0, body⟩ is = x at hexit
  generalize loop argGuard argBody ⟨.name, n', v', 0, 0, body⟩ is = y at hexit
  cases hexit with
  | done h => simp only [h.totalsize, h.body]
  | ret h => simp only [h.body]
  | fault => rfl

/-! ## Arrays longer than the stream -/

/-- The index moves one place at most, and only a store at the end of an array faults. -/
def Bounded (s : ArgVars) : ArgPass → Prop
  | .next t => t.i ≤ s.i + 1 ∧ t.name.length = s.name.length ∧ t.value.length = s.value.length
  | .ret _ _ => True
  | .fault => s.name.length ≤ s.i ∨ s.value.length ≤ s.i

theorem ArgMove.bounded {s : ArgVars} {c : UInt8} {p : ArgPass} (h : ArgMove s c p) :
    Bounded s p := by
  cases h with
  | putName _ _ hst => exact ⟨Nat.le_refl _, store_length hst, rfl⟩
  | equals _ hst | bare _ hst => exact ⟨Nat.zero_le _, store_length hst, rfl⟩
  | putValue _ _ hst => exact ⟨Nat.le_refl _, rfl, store_length hst⟩
  | endValue _ hq hst =>
    refine ⟨?_, rfl, store_length hst⟩
    rcases hq with ⟨-, -, rfl⟩ | ⟨-, -, rfl⟩ | ⟨-, -, rfl⟩
    · exact Nat.zero_le _
    · exact Nat.le_succ _
    · exact Nat.le_succ _
  | nameFull _ _ hle => exact .inl hle
  | valueFull _ _ hle => exact .inr hle
  | nameStop | space | valueStop => exact trivial
  | lineEnd | hidden => exact ⟨Nat.le_succ _, rfl, rfl⟩

/-- The index after `h` bytes is at most `h`, so arrays longer than the stream never fault. -/
theorem read_ne_none {n v is : Bytes} (hn : is.length < n.length) (hv : is.length < v.length)
    (body : List ReqArg) : read n v is body ≠ none := by
  intro h
  rw [read] at h
  split at h
  · cases h
  · cases h
  · rename_i hfault
    obtain ⟨used, c, u, rest, rfl, hr, -, hbody⟩ := exit_fault hfault
    have hinv := hr.invariant
      (I := fun bs s => s.i ≤ bs.length ∧ s.name.length = n.length ∧ s.value.length = v.length)
      (fun bs s d t _ hi hpass => by
        obtain ⟨hle, hname, hvalue⟩ := (argMove_of hpass).bounded
        refine ⟨?_, hname.trans hi.2.1, hvalue.trans hi.2.2⟩
        simp only [List.length_append, List.length_singleton]
        omega)
      [] ⟨Nat.le_refl _, rfl, rfl⟩
    simp only [List.nil_append] at hinv
    simp only [List.length_append, List.length_cons] at hn hv
    rcases (argMove_of hbody).bounded with hb | hb
    · omega
    · omega

/-! ## The two ends of a query -/

/-- The count and the vector a reader ends with. -/
def outcome : Exit UInt8 Int ArgVars → Option (Int × List ReqArg)
  | .done s _ => some (s.totalsize, s.body)
  | .ret n s _ => some (n, s.body)
  | .fault => none

theorem read_outcome (n v is : Bytes) (body : List ReqArg) :
    (read n v is body).map (fun r => (r.1, r.2.1)) =
      outcome (loop argGuard argBody ⟨.name, n, v, 0, 0, body⟩ is) := by
  rw [read]
  split <;> (rename_i h; rw [h]; rfl)

/-- Only a carriage return leads to `s_almost_done`. -/
theorem argBody_state {c : UInt8} (hc : isQueryByte c = true) {s t : ArgVars}
    (hs : s.state ≠ .almostDone) (h : argBody c s = .next t) : t.state ≠ .almostDone := by
  obtain ⟨-, -, hcr⟩ := isprint_ne c (isQueryByte_ne hc).1
  cases argMove_of h with
  | endValue _ hq =>
    rcases hq with ⟨-, rfl, -⟩ | ⟨hc', -⟩ | ⟨-, rfl, -⟩
    · simp
    · exact absurd hc' hcr
    · simp
  | equals | lineEnd => simp
  | putName | bare | putValue | hidden => exact hs

theorem argBody_name_stop {c : UInt8} (hc : usual c = false ∧ c ≠ byte '=' ∧ c ≠ byte '&')
    {s : ArgVars} (hs : s.state = .name) :
    argBody c s = .ret (-1) { s with totalsize := s.totalsize + 1 } := by
  simp [argBody, argSwitch, hs, hc]

theorem argBody_value_space {s : ArgVars} (hs : s.state = .value) :
    argBody (byte ' ') s =
      .must { s with totalsize := s.totalsize + 1 }.endValue fun t => .ret t.totalsize t := by
  simp [argBody, argSwitch, hs]

theorem argBody_value_newline {s : ArgVars} (hs : s.state = .value) :
    argBody LF s =
      .must { s with totalsize := s.totalsize + 1 }.endValue fun t =>
        .next { t with state := .name } := by
  simp [argBody, argSwitch, hs, almostDoneCase]

/-- What a space returns, a newline leaves behind for the end of the stream. -/
theorem outcome_end {s : ArgVars} (hs : s.state ≠ .almostDone) :
    outcome (loop argGuard argBody s [byte ' ']) = outcome (loop argGuard argBody s [LF]) := by
  by_cases hg : argGuard s = true
  · simp only [loop, hg, if_true]
    cases hq : s.state with
    | name =>
      rw [argBody_name_stop (by simp) hq, argBody_name_stop (by simp) hq]
    | value =>
      rw [argBody_value_space hq, argBody_value_newline hq]
      cases { s with totalsize := s.totalsize + 1 }.endValue with
      | none => rfl
      | some t => rfl
    | almostDone => exact absurd hq hs
  · have hg' : argGuard s = false := by simpa using hg
    rw [loop_stop hg', loop_stop hg']
    rfl

/-- The machine runs the same up to the end of the query. -/
theorem outcome_ends {q : Bytes} (hq : ∀ c ∈ q, isQueryByte c = true) :
    ∀ {s : ArgVars}, s.state ≠ .almostDone →
      outcome (loop argGuard argBody s (q ++ [byte ' '])) =
        outcome (loop argGuard argBody s (q ++ [LF])) := by
  induction q with
  | nil => intro s hs; exact outcome_end hs
  | cons c q ih =>
    intro s hs
    by_cases hg : argGuard s = true
    · simp only [List.cons_append, loop, hg, if_true]
      cases hb : argBody c s with
      | next t =>
        exact ih (fun d hd => hq d (by simp [hd])) (argBody_state (hq c (by simp)) hs hb)
      | ret n t => rfl
      | fault => rfl
    · have hg' : argGuard s = false := by simpa using hg
      rw [loop_stop hg', loop_stop hg']
      rfl

theorem read_ends {q n v n' v' : Bytes} (hq : ∀ c ∈ q, isQueryByte c = true)
    (hn : q.length + 1 < n.length) (hv : q.length + 1 < v.length) (hn' : n'.length = n.length)
    (hv' : v'.length = v.length) (body : List ReqArg) :
    ∃ k b rest rest', read n v (q ++ [byte ' ']) body = some (k, b, rest) ∧
      read n' v' (q ++ [LF]) body = some (k, b, rest') := by
  have hends := outcome_ends hq (s := ⟨.name, n, v, 0, 0, body⟩) (by simp)
  rw [← read_outcome, ← read_outcome] at hends
  rw [read_indep hn' hv']
  have hspace : read n v (q ++ [byte ' ']) body ≠ none :=
    read_ne_none (by simpa using hn) (by simpa using hv) body
  obtain ⟨⟨k, b, rest⟩, hread⟩ := Option.ne_none_iff_exists'.mp hspace
  rw [hread, Option.map_some] at hends
  obtain ⟨⟨k', b', rest'⟩, hread', heq⟩ := Option.map_eq_some_iff.mp hends.symm
  cases heq
  exact ⟨k, b, rest, rest', hread, hread'⟩

/-- A GET with the query `q` and a POST with the body `q` and a newline give the arguments reader
the same count and the same vector, whatever their other fields are and whatever the arrays of
either request hold at the start. -/
theorem arguments_get_eq_post (q : Query) (get post : Head)
    (hget : get.line.method = .get ∧ get.line.query = some q)
    (hpost : post.line.method = .post ∧ post.line.query = none)
    (htarget : get.line.target = post.line.target) (st st' : Stack) (hfit : get.Fits st)
    (hfit' : post.Fits st') (n v n' v' : Bytes) (hn : q.bytes.length + 1 < n.length)
    (hv : q.bytes.length + 1 < v.length) (hn' : n'.length = n.length)
    (hv' : v'.length = v.length) (rest : Bytes) :
    ∃ par par',
      readHeader st (get.bytes ++ rest) .init = some (.ok, par, rest) ∧
      readHeader st' (post.bytes ++ (q.bytes ++ [LF])) .init = some (.ok, par', q.bytes ++ [LF]) ∧
      par.message.method = .get ∧ par'.message.method = .post ∧
      par.message.target = par'.message.target ∧
      ∀ body, ∃ k b r r',
        read n v (bodyStream rest par) body = some (k, b, r) ∧
        read n' v' (bodyStream (q.bytes ++ [LF]) par') body = some (k, b, r') ∧
        readBody (read n v) rest par body = some (0, b, rest) ∧
        readBody (read n' v') (q.bytes ++ [LF]) par' body = some (0, b, r') := by
  have hq : get.parser.querystr = some (q.bytes ++ [byte ' ']) := by
    simp [Head.parser, Parser.assign, RequestLine.apply, RequestLine.querystr, hget.2]
  have hq' : post.parser.querystr = none := by
    simp [Head.parser, Parser.assign, RequestLine.apply, RequestLine.querystr, hpost.2, Parser.init]
  refine ⟨get.parser, post.parser, readHeader_bytes get hfit rest, readHeader_bytes post hfit' _,
    hget.1, hpost.1, ?_, ?_⟩
  · show get.line.target.bytes = post.line.target.bytes
    rw [htarget]
  · intro body
    obtain ⟨k, b, r, r', hread, hread'⟩ := read_ends q.bytes_ok hn hv hn' hv' body
    refine ⟨k, b, r, r', ?_, ?_, ?_, ?_⟩
    · simpa [bodyStream, hq] using hread
    · simpa [bodyStream, hq'] using hread'
    · simp [readBody, hq, hread]
    · simp [readBody, hq', hread']

/-- The POST of `test/http/parser_test.cpp`, for the query and the target of `parserTestHead`. -/
def parserTestPost : Head where
  line :=
    { lead := [], method := .post, gap₁ := 0, target := textTarget
      query := none, gap₂ := 0, version := .v11
      eol := .lf, lead_ok := RequestLine.lead_nil, method_ok := by simp }
  fields := []
  eol := .lf

theorem parserTestPost_fits : parserTestPost.Fits .zero where
  line := ⟨by decide +kernel, by decide +kernel, by decide +kernel⟩
  fields := by simp [parserTestPost]

theorem arguments_get_eq_post_parserTest :
    ∃ par par',
      readHeader .zero (parserTestHead.bytes ++ ascii "rest") .init =
        some (.ok, par, ascii "rest") ∧
      readHeader .zero (parserTestPost.bytes ++ (parserTestQuery.bytes ++ [LF])) .init =
        some (.ok, par', parserTestQuery.bytes ++ [LF]) ∧
      par.message.method = .get ∧ par'.message.method = .post ∧
      par.message.target = par'.message.target ∧
      ∀ body, ∃ k b r r',
        read (List.replicate 64 0) (List.replicate 64 0) (bodyStream (ascii "rest") par) body =
          some (k, b, r) ∧
        read (List.replicate 64 1) (List.replicate 64 1)
          (bodyStream (parserTestQuery.bytes ++ [LF]) par') body = some (k, b, r') ∧
        readBody (read (List.replicate 64 0) (List.replicate 64 0)) (ascii "rest") par body =
          some (0, b, ascii "rest") ∧
        readBody (read (List.replicate 64 1) (List.replicate 64 1))
          (parserTestQuery.bytes ++ [LF]) par' body = some (0, b, r') :=
  arguments_get_eq_post parserTestQuery parserTestHead parserTestPost ⟨rfl, rfl⟩ ⟨rfl, rfl⟩ rfl
    .zero .zero parserTestHead_fits parserTestPost_fits (List.replicate 64 0)
    (List.replicate 64 0) (List.replicate 64 1) (List.replicate 64 1) (by decide +kernel)
    (by decide +kernel) (by simp) (by simp) (ascii "rest")

end VectorBody
end Http
end SimpleWeb
