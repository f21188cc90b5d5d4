import SimpleWeb.Http.ArgumentFailure
import SimpleWeb.Http.HeadSound
import SimpleWeb.Http.StreamRead

/-!
# Http.StreamEnd

Which readers bring a connection to its end. The response goes out on the stream the request was
read from, and a stream that has failed takes nothing more.

A complete head leaves the stream good (`readHeaderFrom_good`). The arguments of a body do so only
when something stops their reader in front of the end of the bytes: a space, a byte that is
refused, or `MAXTRUNK` bytes (`starves_iff`).
-/

namespace SimpleWeb
namespace Http

open ScanLoop CArray Istream

/-- A complete head is read without a look behind it. -/
theorem readHeaderFrom_good {chunks tail : List Bytes} {is is' : Istream} {bytes : Bytes}
    {st : Stack} {par : Parser} {ec : ParserEc} (hstop : Stops tail)
    (hy : Yields chunks tail is bytes) (hgood : is.good = true)
    (h : readHeaderFrom st is .init = some (ec, par, is')) (hdone : par.headerDone = true) :
    is'.good = true := by
  obtain ⟨rest, hread, -⟩ := sameRead_some (readHeaderFrom_sim hstop hy st .init) h
  obtain ⟨p, fields, hline, hne, -⟩ := readHeader_done hread hdone
  have hsim := readHeaderLineFrom_sim hstop hy st.buffer .init
  rw [hline] at hsim
  unfold readHeaderFrom at h
  cases hfrom : readHeaderLineFrom st.buffer is .init with
  | none =>
    rw [hfrom] at h
    cases h
  | some r =>
    obtain ⟨ec', p', is''⟩ := r
    rw [hfrom] at hsim h
    cases hsim with
    | some hrel =>
      obtain ⟨hec, hpar, -⟩ := hrel
      simp only at hec hpar
      subst hec hpar
      have hgood' := readHeaderLineFrom_good hstop hy hgood hfrom hline hne
      exact readFieldsFrom_good hgood' h hdone

namespace VectorBody

/-- Arguments that may go on: the bytes end in a name or a value that fits so far, or behind a
CR. -/
inductive OpenArgs : Bytes → Prop where
  | name {bs : Bytes} {i : Nat} (h : Segments bs i) (k : ArgKey)
      (hk : k.bytes = [] ∨ i + k.bytes.length ≤ MAXFIELDNAME) : OpenArgs (bs ++ k.bytes)
  | value {bs : Bytes} {i : Nat} (h : Segments bs i) (k : ArgKey)
      (hk : i + k.bytes.length < MAXFIELDNAME) (v : ArgText)
      (hv : v.bytes.length ≤ MAXFIELDVALUE) :
      OpenArgs (bs ++ (k.bytes ++ [byte '=']) ++ v.bytes)
  | almostDone {bs : Bytes} {i : Nat} (h : Segments bs i) (k : ArgKey)
      (hk : i + k.bytes.length < MAXFIELDNAME) (v : ArgText)
      (hv : v.bytes.length < MAXFIELDVALUE) (w : Hidden) :
      OpenArgs (bs ++ (k.bytes ++ [byte '=']) ++ (v.bytes ++ CR :: w.bytes))

section Starves

variable {name value is : Bytes} {s : ArgVars}

theorem openArgs_of_runs (hn : name.length = MAXFIELDNAME) (hv : value.length = MAXFIELDVALUE)
    (hr : ArgRuns ⟨.name, name, value, 0, 0, []⟩ is s) : OpenArgs is := by
  obtain ⟨q, hcursor, -⟩ : ∃ q, CursorRuns ⟨.name, 0⟩ is q ∧ AtCursor s q :=
    hr.sameFault (fun _ => rfl) (fun c _ _ h => argBody_cursor h c) ⟨rfl, rfl, hn, hv⟩
  have hinv := hcursor.invariant (I := CursorInv) (fun _ _ _ _ _ hi hb => cursorInv_step hi hb) []
    (CursorInv.start .nil)
  rw [List.nil_append] at hinv
  cases hinv with
  | name hsegs k => exact .name hsegs k (argKey_fits ((runs_segments hsegs).suffix hcursor))
  | value hsegs k hk v =>
    have htext := ((runs_segments hsegs).append (runs_equals hk)).suffix hcursor
    exact .value hsegs k hk v (argText_fits htext)
  | almostDone hsegs k hk v hlt w => exact .almostDone hsegs k hk v hlt w

theorem runs_of_openArgs (hn : name.length = MAXFIELDNAME) (hv : value.length = MAXFIELDVALUE)
    (hlen : is.length < MAXTRUNK) (h : OpenArgs is) :
    ∃ s, ArgRuns ⟨.name, name, value, 0, 0, []⟩ is s := by
  cases h with
  | @name bs i hsegs k hk =>
    rw [List.length_append] at hlen
    obtain ⟨n', v', pairs, hn', hv', -, hrun⟩ :=
      argRuns_segments (b := []) hsegs hn hv (by omega)
    rcases hk with hnil | hle
    · rw [hnil, List.append_nil]
      exact ⟨_, hrun⟩
    · exact ⟨_, hrun.append (runs_name k.ok (by omega) (by omega))⟩
  | @value bs i hsegs k hk v hv' =>
    simp only [List.length_append, List.length_singleton] at hlen
    obtain ⟨n₁, v₁, pairs, hn₁, hv₁, -, hrun⟩ :=
      argRuns_segments (b := []) hsegs hn hv (by omega)
    have htext := runs_keyText (b := [] ++ pairs) (k := bs.length) k v hn₁ hv₁ hk hv' (by omega)
    rw [List.append_assoc]
    exact ⟨_, hrun.append htext⟩
  | @almostDone bs i hsegs k hk v hv' w =>
    simp only [List.length_append, List.length_cons] at hlen
    obtain ⟨n₁, v₁, pairs, hn₁, hv₁, -, hrun⟩ :=
      argRuns_segments (b := []) hsegs hn hv (by omega)
    have htext := runs_keyText (b := [] ++ pairs) (k := bs.length) k v hn₁ hv₁ hk hv'.le (by omega)
    have hcr := argBody_return (n := overwrite n₁ i (k.bytes ++ [0])) (v := v₁)
      (k := bs.length + (k.bytes.length + 1 + v.bytes.length)) (b := [] ++ pairs) v.nul_notMem
      (by omega)
    have hskip := runs_hidden (n := overwrite n₁ i (k.bytes ++ [0]))
      (v := fill v₁ (v.bytes ++ [0])) (i := v.bytes.length)
      (k := bs.length + (k.bytes.length + 1 + v.bytes.length) + 1)
      (b := [] ++ pairs ++ [⟨cstr (overwrite n₁ i (k.bytes ++ [0])), v.bytes⟩]) w (by omega)
    rw [List.append_assoc, ← List.append_assoc (k.bytes ++ [byte '='])]
    exact ⟨_, hrun.append (htext.append (.cons (argGuard_of (by simp only; omega)) hcr hskip))⟩

/-- For every stream: the reader comes to its end exactly when there are less than `MAXTRUNK`
bytes, and they end inside arguments that fit. -/
theorem starves_iff (hn : name.length = MAXFIELDNAME) (hv : value.length = MAXFIELDVALUE) :
    starves name value is = true ↔ is.length < MAXTRUNK ∧ OpenArgs is := by
  have hcount : ∀ {s : ArgVars}, ArgRuns ⟨.name, name, value, 0, 0, []⟩ is s →
      s.totalsize = is.length := by
    intro s hr
    have htotal := hr.invariant (I := fun bs s => s.totalsize = bs.length)
      (fun bs s d s' _ hi hb => by rw [argBody_counted hb, hi]; simp) [] rfl
    rwa [List.nil_append] at htotal
  rw [starves, starved_iff]
  constructor
  · rintro ⟨s, hr, hg⟩
    refine ⟨?_, openArgs_of_runs hn hv hr⟩
    rw [← hcount hr]
    simpa [argGuard] using hg
  · rintro ⟨hlen, hopen⟩
    obtain ⟨s, hr⟩ := runs_of_openArgs hn hv hlen hopen
    exact ⟨s, hr, argGuard_of (by rwa [hcount hr])⟩

/-- A body that is read to the end of the connection. -/
structure OpenBody (par : Parser) (is : Bytes) : Prop where
  query : par.querystr = none
  short : is.length < MAXTRUNK
  args : OpenArgs is

theorem bodyStarves_iff {par : Parser} (hn : name.length = MAXFIELDNAME)
    (hv : value.length = MAXFIELDVALUE) :
    bodyStarves name value is par = true ↔ OpenBody par is := by
  rw [bodyStarves, Bool.and_eq_true, Option.isNone_iff_eq_none, starves_iff hn hv]
  exact ⟨fun ⟨hquery, hshort, hargs⟩ => ⟨hquery, hshort, hargs⟩,
    fun h => ⟨h.query, h.short, h.args⟩⟩

end Starves

/-- Nothing behind the head, and so nothing to stop the reader. -/
theorem openArgs_nil : OpenArgs [] := .name .nil ⟨[], by simp⟩ (.inl rfl)

end VectorBody
end Http
end SimpleWeb
