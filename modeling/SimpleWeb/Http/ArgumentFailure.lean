import SimpleWeb.Http.ArgumentBounds

/-!
# Http.ArgumentFailure

The streams `vector_body<reqargs>::read` refuses: behind segments that fit, a byte that belongs to
no name or value (`ArgRejected`). Each of the segments has pushed its pair by then
(`argRuns_segments`), so what a failed read leaves is the vector with one more pair for each
(`read_rejected`).
-/

namespace SimpleWeb
namespace Http
namespace VectorBody

open ScanLoop CArray

/-- Behind the segments `bs` the name or the value that follows meets a byte it cannot have. -/
inductive ArgRejected (bs : Bytes) : Bytes → Prop where
  | name {rest : Bytes} {i : Nat} {c : UInt8} (h : Segments bs i) (k : ArgKey)
      (hk : k.bytes = [] ∨ i + k.bytes.length ≤ MAXFIELDNAME)
      (hc : isArgName c = false ∧ c ≠ byte '=' ∧ c ≠ byte '&') :
      ArgRejected bs (bs ++ k.bytes ++ c :: rest)
  | value {rest : Bytes} {i : Nat} {c : UInt8} (h : Segments bs i) (k : ArgKey)
      (hk : i + k.bytes.length < MAXFIELDNAME) (v : ArgText)
      (hv : v.bytes.length ≤ MAXFIELDVALUE)
      (hc : isArgValue c = false ∧ c ≠ byte '&' ∧ c ≠ byte ' ' ∧ c ≠ CR ∧ c ≠ LF) :
      ArgRejected bs (bs ++ (k.bytes ++ [byte '=']) ++ v.bytes ++ c :: rest)

/-! ## Segments push their pairs -/

section Pieces

variable {n v t : Bytes} {i k : Nat} {b : List ReqArg}

theorem argBody_bare (hl : i + t.length < n.length) :
    argBody (byte '&') ⟨.name, overwrite n i t, v, i + t.length, k, b⟩ =
      .next ⟨.name, overwrite n i (t ++ [0]), v, 0, k + 1,
        b ++ [⟨cstr (overwrite n i (t ++ [0])), []⟩]⟩ := by
  simp [argBody, argSwitch, ArgVars.endName, store_overwrite hl, ArgVars.push]

theorem argBody_newline (h0 : 0 ∉ t) (hl : t.length < v.length) :
    argBody LF ⟨.value, n, fill v t, t.length, k, b⟩ =
      .next ⟨.name, n, fill v (t ++ [0]), t.length, k + 1, b ++ [⟨cstr n, t⟩]⟩ := by
  simp [argBody_value_newline, endValue_fill h0 hl]

theorem argBody_return (h0 : 0 ∉ t) (hl : t.length < v.length) :
    argBody CR ⟨.value, n, fill v t, t.length, k, b⟩ =
      .next ⟨.almostDone, n, fill v (t ++ [0]), t.length, k + 1, b ++ [⟨cstr n, t⟩]⟩ := by
  have hp : isprint CR = false := by decide
  simp [argBody, argSwitch, hp, endValue_fill h0 hl, almostDoneCase]

/-- Behind a CR the bytes are counted and skipped. -/
theorem runs_hidden (w : Hidden) (hk : k + w.bytes.length ≤ MAXTRUNK) :
    ArgRuns ⟨.almostDone, n, v, i, k, b⟩ w.bytes
      ⟨.almostDone, n, v, i, k + w.bytes.length, b⟩ := by
  have hrun : ArgRuns ⟨.almostDone, n, v, i, k + ([] : Bytes).length, b⟩ w.bytes
      ⟨.almostDone, n, v, i, k + ([] ++ w.bytes).length, b⟩ :=
    Runs.collect (f := fun t => ⟨.almostDone, n, v, i, k + t.length, b⟩) (n := w.bytes.length)
      (fun t ht => argGuard_of (by simp only; omega))
      (fun t c hc ht => by
        have hne : c ≠ LF := fun h => w.ok (h ▸ hc)
        simp [argBody, argSwitch, almostDoneCase, hne, Nat.add_assoc])
      [] (by simp)
  simpa using hrun

theorem runs_lineEndBytes (h0 : 0 ∉ t) (hl : t.length < v.length) (h : Option Hidden)
    (hk : k + (lineEndBytes h).length ≤ MAXTRUNK) :
    ArgRuns ⟨.value, n, fill v t, t.length, k, b⟩ (lineEndBytes h)
      ⟨.name, n, fill v (t ++ [0]), t.length, k + (lineEndBytes h).length,
        b ++ [⟨cstr n, t⟩]⟩ := by
  cases h with
  | none =>
    exact .single (argGuard_of (by simpa [lineEndBytes] using hk)) (argBody_newline h0 hl)
  | some w =>
    simp only [lineEndBytes, List.length_cons, List.length_append, List.length_nil] at hk ⊢
    have hskip := runs_hidden (n := n) (v := fill v (t ++ [0])) (i := t.length) (k := k + 1)
      (b := b ++ [⟨cstr n, t⟩]) w (by omega)
    have hlf : ArgRuns ⟨.almostDone, n, fill v (t ++ [0]), t.length, k + 1 + w.bytes.length,
        b ++ [⟨cstr n, t⟩]⟩ [LF] ⟨.name, n, fill v (t ++ [0]), t.length,
          k + (w.bytes.length + (0 + 1) + 1), b ++ [⟨cstr n, t⟩]⟩ := by
      refine .single (argGuard_of (by simp only; omega)) ?_
      simp [argBody, argSwitch, almostDoneCase]
      omega
    exact .cons (argGuard_of (by simp only; omega)) (argBody_return h0 hl) (hskip.append hlf)

theorem ArgText.nul_notMem (text : ArgText) : 0 ∉ text.bytes :=
  fun h => isArgValue_ne (text.ok 0 h) rfl

theorem length_overwrite_key {key : ArgKey} (hn : n.length = MAXFIELDNAME)
    (hkey : i + key.bytes.length < MAXFIELDNAME) :
    (overwrite n i (key.bytes ++ [0])).length = MAXFIELDNAME := by
  rw [length_overwrite (by simp; omega), hn]

theorem length_fill_text {text : ArgText} (hv : v.length = MAXFIELDVALUE)
    (htext : text.bytes.length < MAXFIELDVALUE) :
    (fill v (text.bytes ++ [0])).length = MAXFIELDVALUE := by
  rw [length_fill (by simp; omega), hv]

/-- A name and its `=`, and a value behind them. -/
theorem runs_keyText (key : ArgKey) (text : ArgText) (hn : n.length = MAXFIELDNAME)
    (hv : v.length = MAXFIELDVALUE) (hkey : i + key.bytes.length < MAXFIELDNAME)
    (htext : text.bytes.length ≤ MAXFIELDVALUE)
    (hk : k + (key.bytes.length + 1 + text.bytes.length) ≤ MAXTRUNK) :
    ArgRuns ⟨.name, n, v, i, k, b⟩ (key.bytes ++ [byte '='] ++ text.bytes)
      ⟨.value, overwrite n i (key.bytes ++ [0]), fill v text.bytes, text.bytes.length,
        k + (key.bytes.length + 1 + text.bytes.length), b⟩ := by
  have hname := runs_key (n := n) (v := v) (i := i) (k := k) (b := b) key.ok (by omega) (by omega)
  have hvalue := runs_value (n := overwrite n i (key.bytes ++ [0])) (v := v)
    (k := k + key.bytes.length + 1) (b := b) text.ok (by omega) (by omega)
  have hcount : k + key.bytes.length + 1 + text.bytes.length =
      k + (key.bytes.length + 1 + text.bytes.length) := by omega
  rw [hcount] at hvalue
  exact hname.append hvalue

/-- Each segment pushes one pair. -/
theorem argRuns_segment (seg : Segment) (hfit : seg.Fits i) (hn : n.length = MAXFIELDNAME)
    (hv : v.length = MAXFIELDVALUE) (hk : k + seg.bytes.length ≤ MAXTRUNK) :
    ∃ n' v' pair, n'.length = MAXFIELDNAME ∧ v'.length = MAXFIELDVALUE ∧
      ArgRuns ⟨.name, n, v, i, k, b⟩ seg.bytes
        ⟨.name, n', v', seg.next, k + seg.bytes.length, b ++ [pair]⟩ := by
  cases seg with
  | bare key =>
    have hkey : i + key.bytes.length < MAXFIELDNAME := hfit
    simp only [Segment.bytes, List.length_append, List.length_singleton] at hk ⊢
    have hname := runs_name (n := n) (v := v) (i := i) (k := k) (b := b) key.ok (by omega)
      (by omega)
    have hand := argBody_bare (n := n) (v := v) (i := i) (k := k + key.bytes.length) (b := b)
      (t := key.bytes) (by omega)
    exact ⟨_, v, _, length_overwrite_key hn hkey, hv,
      hname.append (.single (argGuard_of (by simp only; omega)) hand)⟩
  | pair key text =>
    obtain ⟨hkey, htext⟩ : i + key.bytes.length < MAXFIELDNAME ∧
      text.bytes.length < MAXFIELDVALUE := hfit
    simp only [Segment.bytes, List.length_append, List.length_singleton] at hk ⊢
    have hrun := runs_keyText (b := b) key text hn hv hkey htext.le (k := k) (by omega)
    have hand := argBody_ampersand (n := overwrite n i (key.bytes ++ [0])) (v := v)
      (k := k + (key.bytes.length + 1 + text.bytes.length)) (b := b) text.nul_notMem (by omega)
    have hall := hrun.append (.single (argGuard_of (by simp only; omega)) hand)
    rw [List.append_assoc, Nat.add_assoc k] at hall
    exact ⟨_, _, _, length_overwrite_key hn hkey, length_fill_text hv htext, hall⟩
  | line key text h =>
    obtain ⟨hkey, htext⟩ : i + key.bytes.length < MAXFIELDNAME ∧
      text.bytes.length < MAXFIELDVALUE := hfit
    simp only [Segment.bytes, List.length_append, List.length_singleton] at hk ⊢
    have hrun := runs_keyText (b := b) key text hn hv hkey htext.le (k := k) (by omega)
    have hend := runs_lineEndBytes (n := overwrite n i (key.bytes ++ [0])) (v := v)
      (k := k + (key.bytes.length + 1 + text.bytes.length)) (b := b) text.nul_notMem (by omega) h
      (by omega)
    have hall := hrun.append hend
    rw [List.append_assoc, Nat.add_assoc k, Nat.add_assoc (key.bytes.length + 1)] at hall
    exact ⟨_, _, _, length_overwrite_key hn hkey, length_fill_text hv htext, hall⟩

/-- What segments leave: a pair for each of them. -/
theorem argRuns_segments {bs : Bytes} (h : Segments bs i) (hn : n.length = MAXFIELDNAME)
    (hv : v.length = MAXFIELDVALUE) (hk : bs.length ≤ MAXTRUNK) :
    ∃ n' v' pairs, n'.length = MAXFIELDNAME ∧ v'.length = MAXFIELDVALUE ∧
      (pairs = [] ↔ bs = []) ∧
      ArgRuns ⟨.name, n, v, 0, 0, b⟩ bs ⟨.name, n', v', i, bs.length, b ++ pairs⟩ := by
  induction h with
  | nil => exact ⟨n, v, [], hn, hv, by simp, by simpa using .nil⟩
  | @snoc bs i h seg hfit ih =>
    rw [List.length_append] at hk
    obtain ⟨n₁, v₁, pairs, hn₁, hv₁, -, hrun⟩ := ih (by omega)
    obtain ⟨n₂, v₂, pair, hn₂, hv₂, hseg⟩ :=
      argRuns_segment (b := b ++ pairs) seg hfit hn₁ hv₁ (k := bs.length) hk
    refine ⟨n₂, v₂, pairs ++ [pair], hn₂, hv₂, ?_, ?_⟩
    · cases seg <;> simp [Segment.bytes]
    · rw [List.length_append, ← List.append_assoc]
      exact hrun.append hseg

end Pieces

/-! ## The rejected streams -/

section Rejected

variable {name value is : Bytes} {body : List ReqArg} {s : ArgVars} {c : UInt8}

theorem argBody_value_stop (hs : s.state = .value)
    (hc : isArgValue c = false ∧ c ≠ byte '&' ∧ c ≠ byte ' ' ∧ c ≠ CR ∧ c ≠ LF) :
    argBody c s = .ret (-1) { s with totalsize := s.totalsize + 1 } := by
  obtain ⟨harg, hand, hsp, hcr, hlf⟩ := hc
  have hp : isprint c = false := by simpa [isArgValue, hand, hsp] using harg
  simp [argBody, argSwitch, hs, hp, hand, hsp, hcr, hlf]

theorem cursorRuns_concat {t u : Cursor} {bs : Bytes} (hne : bs ≠ [])
    (h : CursorRuns t bs u) : ∃ ds d, bs = ds ++ [d] ∧ cursorLoop t (ds ++ [d]) ≠ .fault := by
  obtain ⟨ds, d, rfl⟩ := (List.eq_nil_or_concat' bs).resolve_left hne
  exact ⟨ds, d, rfl, h.ne_fault⟩

/-- A name that ran fits, as far as it ran. -/
theorem argKey_fits {key : ArgKey} {i : Nat} {t : Cursor}
    (h : CursorRuns ⟨.name, i⟩ key.bytes t) :
    key.bytes = [] ∨ i + key.bytes.length ≤ MAXFIELDNAME := by
  by_contra hlong
  obtain ⟨hne, hlt⟩ := not_or.mp hlong
  obtain ⟨ds, d, hds, hrun⟩ := cursorRuns_concat hne h
  have hok := key.ok
  rw [hds, List.forall_mem_append, List.forall_mem_singleton] at hok
  refine hrun (fault_of_key ⟨ds, hok.1⟩ (.inl hok.2) i ?_)
  simp only [hds, List.length_append, List.length_singleton] at hlt ⊢
  omega

theorem argText_fits {text : ArgText} {t : Cursor}
    (h : CursorRuns ⟨.value, 0⟩ text.bytes t) : text.bytes.length ≤ MAXFIELDVALUE := by
  by_contra hlt
  have hne : text.bytes ≠ [] := by
    intro hnil
    simp [hnil] at hlt
  obtain ⟨ds, d, hds, hrun⟩ := cursorRuns_concat hne h
  have hok := text.ok
  rw [hds, List.forall_mem_append, List.forall_mem_singleton] at hok
  refine hrun (fault_of_text ⟨ds, hok.1⟩ (.inl hok.2) ?_)
  simp only [hds, List.length_append, List.length_singleton] at hlt ⊢
  omega

/-- What is read up to a byte that is refused. -/
theorem argRejected_of_ret {n : Int} {rest : Bytes} {t : ArgVars}
    (hn : name.length = MAXFIELDNAME) (hv : value.length = MAXFIELDVALUE)
    (h : loop argGuard argBody ⟨.name, name, value, 0, 0, body⟩ is = .ret n t rest)
    (hneg : n < 0) : ∃ bs, ArgRejected bs (is.take MAXTRUNK) := by
  obtain ⟨used, c, u, rfl, hr, hg, hbody⟩ := exit_ret h
  have hcount := hr.invariant (I := fun bs s => s.totalsize = bs.length)
    (fun bs s d s' _ hi hb => by rw [argBody_counted hb, hi]; simp) [] rfl
  obtain ⟨q, hcursor, hat⟩ : ∃ q, CursorRuns ⟨.name, 0⟩ used q ∧ AtCursor u q :=
    hr.sameFault (fun _ => rfl) (fun c _ _ h => argBody_cursor h c) ⟨rfl, rfl, hn, hv⟩
  have hinv := hcursor.invariant (I := CursorInv) (fun _ _ _ _ _ hi hb => cursorInv_step hi hb) []
    (CursorInv.start .nil)
  rw [List.nil_append] at hinv hcount
  have hlt : used.length < MAXTRUNK := by
    rw [← hcount]
    simpa [argGuard] using hg
  obtain ⟨m, hm⟩ := Nat.exists_eq_add_of_lt hlt
  have htake : (used ++ c :: rest).take MAXTRUNK = used ++ c :: rest.take m := by
    rw [hm, Nat.add_assoc, List.take_length_add_append, List.take_succ_cons]
  rw [htake]
  have hstate := hat.state
  cases argMove_of hbody with
  | nameStop hs hc =>
    rw [hs] at hstate
    cases hinv with
    | @name bs i hsegs key =>
      have hkey := (runs_segments hsegs).suffix hcursor
      exact ⟨bs, .name hsegs key (argKey_fits hkey) ⟨hc.1, hc.2.1, hc.2.2⟩⟩
    | value | almostDone => cases hstate
  | valueStop hs hc =>
    rw [hs] at hstate
    cases hinv with
    | @value bs i hsegs key hk text =>
      have htext := ((runs_segments hsegs).append (runs_equals hk)).suffix hcursor
      exact ⟨bs, .value hsegs key hk text (argText_fits htext) hc⟩
    | name | almostDone => cases hstate
  | space => omega

/-- Segments, a name or a name and a value, and a byte it cannot have: the reader returns there. -/
theorem read_stop {used : Bytes} (hr : ArgRuns ⟨.name, name, value, 0, 0, body⟩ used s)
    (hlen : s.totalsize < MAXTRUNK)
    (hb : argBody c s = .ret (-1) { s with totalsize := s.totalsize + 1 }) (rest : Bytes) :
    read name value (used ++ c :: rest) body = some (-1, s.body, rest) := by
  rw [read, loop_ret hr (argGuard_of hlen) hb]

/-- Behind rejected bytes the vector has one more pair for each segment in front of them. -/
theorem read_rejected {bs : Bytes} (hn : name.length = MAXFIELDNAME)
    (hv : value.length = MAXFIELDVALUE) (h : ArgRejected bs (is.take MAXTRUNK))
    (body : List ReqArg) :
    ∃ pairs rest, (pairs = [] ↔ bs = []) ∧
      read name value is body = some (-1, body ++ pairs, rest) := by
  have hmax := List.length_take_le MAXTRUNK is
  rw [← List.take_append_drop MAXTRUNK is]
  generalize is.take MAXTRUNK = cut at h hmax
  generalize is.drop MAXTRUNK = more
  cases h with
  | @name rest i c hsegs key hk hc =>
    simp only [List.length_append, List.length_cons] at hmax
    obtain ⟨n', v', pairs, hn', hv', hpairs, hsegments⟩ :=
      argRuns_segments (b := body) hsegs hn hv (by omega)
    have hname : ArgRuns ⟨.name, n', v', i, bs.length, body ++ pairs⟩ key.bytes
        ⟨.name, overwrite n' i key.bytes, v', i + key.bytes.length, bs.length + key.bytes.length,
          body ++ pairs⟩ := by
      rcases hk with hnil | hle
      · simpa [hnil] using .nil
      · exact runs_name key.ok (by omega) (by omega)
    have husual : usual c = false := by simpa [isArgName, hc.2.1, hc.2.2] using hc.1
    have hstop := read_stop (hsegments.append hname) (by simp only; omega)
      (argBody_name_stop ⟨husual, hc.2⟩ rfl) (rest ++ more)
    refine ⟨pairs, rest ++ more, hpairs, ?_⟩
    rw [← hstop]
    simp
  | @value rest i c hsegs key hk text hv' hc =>
    simp only [List.length_append, List.length_cons] at hmax
    obtain ⟨n₁, v₁, pairs, hn₁, hv₁, hpairs, hsegments⟩ :=
      argRuns_segments (b := body) hsegs hn hv (by omega)
    have htext := runs_keyText (b := body ++ pairs) (k := bs.length) key text hn₁ hv₁ hk hv'
      (by simp at hmax; omega)
    have hstop := read_stop (hsegments.append htext) (by simp at hmax; simp only; omega)
      (argBody_value_stop rfl hc) (rest ++ more)
    refine ⟨pairs, rest ++ more, hpairs, ?_⟩
    rw [← hstop]
    simp

/-- The reads that fail: those of rejected bytes. -/
theorem read_neg_iff (hn : name.length = MAXFIELDNAME) (hv : value.length = MAXFIELDVALUE)
    (body : List ReqArg) :
    (∃ n b rest, read name value is body = some (n, b, rest) ∧ n < 0) ↔
      ∃ bs, ArgRejected bs (is.take MAXTRUNK) := by
  constructor
  · rintro ⟨n, b, rest, hread, hneg⟩
    unfold read at hread
    split at hread
    · cases hread
      omega
    · rename_i m t r hloop
      cases hread
      exact argRejected_of_ret hn hv hloop hneg
    · cases hread
  · rintro ⟨bs, h⟩
    obtain ⟨pairs, rest, -, hread⟩ := read_rejected hn hv h body
    exact ⟨-1, _, rest, hread, by decide⟩

/-- A read that fails leaves the vector as it was. -/
def Atomic (name value is : Bytes) (body : List ReqArg) : Prop :=
  ∀ b rest, read name value is body = some (-1, b, rest) → b = body

/-- It does exactly when no pair stands in front of the byte that is refused. -/
theorem atomic_iff (hn : name.length = MAXFIELDNAME) (hv : value.length = MAXFIELDVALUE) :
    Atomic name value is body ↔ ∀ bs, ArgRejected bs (is.take MAXTRUNK) → bs = [] := by
  constructor
  · intro hatomic bs h
    obtain ⟨pairs, rest, hpairs, hread⟩ := read_rejected hn hv h body
    have hkept := hatomic _ _ hread
    exact hpairs.mp (by simpa using hkept)
  · intro hfirst b rest hread
    obtain ⟨bs, h⟩ := (read_neg_iff hn hv body).mp ⟨-1, b, rest, hread, by decide⟩
    obtain ⟨pairs, rest', hpairs, hread'⟩ := read_rejected hn hv h body
    rw [hpairs.mpr (hfirst bs h), hread] at hread'
    simpa using congrArg (Option.map fun r => r.2.1) hread'

end Rejected

end VectorBody
end Http
end SimpleWeb
