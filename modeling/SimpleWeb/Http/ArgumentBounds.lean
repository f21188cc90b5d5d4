import SimpleWeb.Http.Arguments

/-!
# Http.ArgumentBounds

`vector_body<reqargs>::read` compares its index with neither array; `MAXTRUNK` bounds what it reads
in all. Where it stores depends on its state and its index alone (`Cursor`, `read_eq_none`), and a
line ending behind a value leaves the index where it is: the next name is stored from there on.

`Segments` spells the arguments that fit, with the index they start from and end with;
`ArgOverlong` says which bytes leave an array, and `read_inside_iff` that no others do.
-/

namespace SimpleWeb
namespace Http
namespace VectorBody

open ScanLoop CArray

/-! ## The reader without its arrays -/

structure Cursor where
  state : ArgState
  i : Nat

abbrev CursorPass := Pass Unit Cursor

/-- A store at the index into an array of `n` elements. -/
def Cursor.within (s : Cursor) (n : Nat) (p : CursorPass) : CursorPass :=
  if s.i < n then p else .fault

def cursorBody (ch : UInt8) (s : Cursor) : CursorPass :=
  match s.state with
  | .name =>
    if isArgName ch then s.within MAXFIELDNAME (.next ⟨.name, s.i + 1⟩)
    else if ch = byte '=' then s.within MAXFIELDNAME (.next ⟨.value, 0⟩)
    else if ch = byte '&' then s.within MAXFIELDNAME (.next ⟨.name, 0⟩)
    else .ret () s
  | .value =>
    if isArgValue ch then s.within MAXFIELDVALUE (.next ⟨.value, s.i + 1⟩)
    else if ch = byte '&' then s.within MAXFIELDVALUE (.next ⟨.name, 0⟩)
    else if ch = byte ' ' then s.within MAXFIELDVALUE (.ret () s)
    else if ch = CR then s.within MAXFIELDVALUE (.next ⟨.almostDone, s.i⟩)
    else if ch = LF then s.within MAXFIELDVALUE (.next ⟨.name, s.i⟩)
    else .ret () s
  | .almostDone => if ch = LF then .next ⟨.name, s.i⟩ else .next s

/-- The reader and its cursor, with arrays of the sizes in the source. -/
structure AtCursor (s : ArgVars) (t : Cursor) : Prop where
  state : s.state = t.state
  i : s.i = t.i
  name : s.name.length = MAXFIELDNAME
  value : s.value.length = MAXFIELDVALUE

theorem Cursor.store_within {s : ArgVars} {t : Cursor} {b : Bytes} {c : UInt8} {n : Nat}
    {f : Bytes → ArgVars} {k : ArgVars → ArgPass} {p : CursorPass} (hi : s.i = t.i)
    (hn : b.length = n) (h : ∀ b', b'.length = b.length → Pass.SameFault AtCursor (k (f b')) p) :
    Pass.SameFault AtCursor (Pass.must ((store b s.i c).map f) k) (t.within n p) := by
  unfold Cursor.within
  by_cases hlt : t.i < n
  · have hlt' : s.i < b.length := by omega
    simp only [store, if_pos hlt, if_pos hlt', Option.map_some, Pass.must_some]
    exact h _ (by simp)
  · have hlt' : ¬ s.i < b.length := by omega
    simp only [store, if_neg hlt, if_neg hlt', Option.map_none]
    exact .fault

theorem argBody_cursor {s : ArgVars} {t : Cursor} (h : AtCursor s t) (c : UInt8) :
    Pass.SameFault AtCursor (argBody c s) (cursorBody c t) := by
  obtain ⟨q, n, v, i, k, b⟩ := s
  obtain ⟨q', i'⟩ := t
  obtain ⟨hq, hi, hn, hv⟩ := h
  simp only at hq hi hn hv
  subst hq hi
  cases q with
  | name =>
    have hname : (usual c = true ∧ c ≠ byte '&' ∧ c ≠ byte '=') ↔ isArgName c = true := by
      simp [isArgName, and_assoc]
    simp only [argBody, argSwitch, cursorBody, hname]
    split
    · exact Cursor.store_within rfl hn fun b' hb' => .next ⟨rfl, rfl, hb'.trans hn, hv⟩
    · split
      · exact Cursor.store_within rfl hn fun b' hb' => .next ⟨rfl, rfl, hb'.trans hn, hv⟩
      · split
        · exact Cursor.store_within rfl hn fun b' hb' => .next ⟨rfl, rfl, hb'.trans hn, hv⟩
        · exact .ret
  | value =>
    have hvalue : (isprint c = true ∧ c ≠ byte '&' ∧ c ≠ byte ' ') ↔ isArgValue c = true := by
      simp [isArgValue, and_assoc]
    simp only [argBody, argSwitch, cursorBody, hvalue]
    split
    · exact Cursor.store_within rfl hv fun b' hb' => .next ⟨rfl, rfl, hn, hb'.trans hv⟩
    · split
      · rename_i hc
        subst hc
        exact Cursor.store_within rfl hv fun b' hb' => .next ⟨rfl, rfl, hn, hb'.trans hv⟩
      · split
        · exact Cursor.store_within rfl hv fun b' hb' => .ret
        · split
          · rename_i hc
            subst hc
            exact Cursor.store_within rfl hv fun b' hb' => .next ⟨rfl, rfl, hn, hb'.trans hv⟩
          · split
            · rename_i hc
              subst hc
              exact Cursor.store_within rfl hv fun b' hb' => .next ⟨rfl, rfl, hn, hb'.trans hv⟩
            · exact .ret
  | almostDone =>
    simp only [argBody, argSwitch, cursorBody, almostDoneCase]
    by_cases hlf : c = LF
    · subst hlf
      exact .next ⟨rfl, rfl, hn, hv⟩
    · rw [if_neg hlf, if_neg hlf, ite_self]
      exact .next ⟨rfl, rfl, hn, hv⟩

/-- Every pass that goes on counts its byte. -/
theorem argBody_counted {s t : ArgVars} {c : UInt8} (h : argBody c s = .next t) :
    t.totalsize = s.totalsize + 1 := by
  cases argMove_of h with
  | _ => rfl

/-- The reader leaves its arrays just when the cursor does, on the bytes it reads at most. -/
theorem read_eq_none {name value : Bytes} (hn : name.length = MAXFIELDNAME)
    (hv : value.length = MAXFIELDVALUE) (is : Bytes) (body : List ReqArg) :
    read name value is body = none ↔
      loop (fun _ => true) cursorBody ⟨.name, 0⟩ (is.take MAXTRUNK) = .fault := by
  have hread : read name value is body = none ↔
      loop argGuard argBody ⟨.name, name, value, 0, 0, body⟩ is = .fault := by
    unfold read
    split <;> simp_all
  have hcut : loop argGuard argBody ⟨.name, name, value, 0, 0, body⟩ is = .fault ↔
      loop (fun _ => true) argBody ⟨.name, name, value, 0, 0, body⟩ (is.take MAXTRUNK) = .fault :=
    loop_fault_take (fun _ => rfl) (fun _ _ _ h => argBody_counted h) is _
  have hcursor : loop (fun _ => true) argBody ⟨.name, name, value, 0, 0, body⟩
      (is.take MAXTRUNK) = .fault ↔
        loop (fun _ => true) cursorBody ⟨.name, 0⟩ (is.take MAXTRUNK) = .fault :=
    loop_sameFault (R := AtCursor) (fun _ _ _ => rfl) (fun c _ _ h => argBody_cursor h c) _
      ⟨rfl, rfl, hn, hv⟩
  exact hread.trans (hcut.trans hcursor)

/-! ## Arguments that fit -/

structure ArgKey where
  bytes : Bytes
  ok : ∀ c ∈ bytes, isArgName c = true

structure ArgText where
  bytes : Bytes
  ok : ∀ c ∈ bytes, isArgValue c = true

/-- What is skipped between a CR and the LF behind it. -/
structure Hidden where
  bytes : Bytes
  ok : LF ∉ bytes

def lineEndBytes : Option Hidden → Bytes
  | none => [LF]
  | some h => CR :: (h.bytes ++ [LF])

/-- A piece of the stream between two names. -/
inductive Segment where
  | bare (key : ArgKey)
  | pair (key : ArgKey) (value : ArgText)
  | line (key : ArgKey) (value : ArgText) (hidden : Option Hidden)

namespace Segment

def bytes : Segment → Bytes
  | .bare k => k.bytes ++ [byte '&']
  | .pair k v => k.bytes ++ [byte '='] ++ (v.bytes ++ [byte '&'])
  | .line k v h => k.bytes ++ [byte '='] ++ (v.bytes ++ lineEndBytes h)

/-- The segment fits the arrays when its name is stored from the index `i` on. -/
def Fits (i : Nat) : Segment → Prop
  | .bare k => i + k.bytes.length < MAXFIELDNAME
  | .pair k v => i + k.bytes.length < MAXFIELDNAME ∧ v.bytes.length < MAXFIELDVALUE
  | .line k v _ => i + k.bytes.length < MAXFIELDNAME ∧ v.bytes.length < MAXFIELDVALUE

/-- The index the next name is stored from: a line ending does not reset it. -/
def next : Segment → Nat
  | .bare _ => 0
  | .pair _ _ => 0
  | .line _ v _ => v.bytes.length

end Segment

/-- The bytes are segments that fit, from the start of the stream to a name stored from `i` on. -/
inductive Segments : Bytes → Nat → Prop where
  | nil : Segments [] 0
  | snoc {bs : Bytes} {i : Nat} (h : Segments bs i) (seg : Segment) (hfit : seg.Fits i) :
      Segments (bs ++ seg.bytes) seg.next

/-- Behind segments that fit, a name or a value fills its array and goes on or ends. -/
inductive ArgOverlong : Bytes → Prop where
  | name {bs rest : Bytes} {i : Nat} {c : UInt8} (h : Segments bs i) (k : ArgKey)
      (hlen : MAXFIELDNAME ≤ i + k.bytes.length)
      (hc : isArgName c = true ∨ c = byte '=' ∨ c = byte '&') :
      ArgOverlong (bs ++ k.bytes ++ c :: rest)
  | value {bs rest : Bytes} {i : Nat} {c : UInt8} (h : Segments bs i) (k : ArgKey)
      (hk : i + k.bytes.length < MAXFIELDNAME) (v : ArgText)
      (hlen : MAXFIELDVALUE ≤ v.bytes.length)
      (hc : isArgValue c = true ∨ c = byte '&' ∨ c = byte ' ' ∨ c = CR ∨ c = LF) :
      ArgOverlong (bs ++ (k.bytes ++ [byte '=']) ++ v.bytes ++ c :: rest)

/-- What the cursor says about the bytes read so far. -/
inductive CursorInv : Bytes → Cursor → Prop where
  | name {bs : Bytes} {i : Nat} (h : Segments bs i) (k : ArgKey) :
      CursorInv (bs ++ k.bytes) ⟨.name, i + k.bytes.length⟩
  | value {bs : Bytes} {i : Nat} (h : Segments bs i) (k : ArgKey)
      (hk : i + k.bytes.length < MAXFIELDNAME) (v : ArgText) :
      CursorInv (bs ++ (k.bytes ++ [byte '=']) ++ v.bytes) ⟨.value, v.bytes.length⟩
  | almostDone {bs : Bytes} {i : Nat} (h : Segments bs i) (k : ArgKey)
      (hk : i + k.bytes.length < MAXFIELDNAME) (v : ArgText)
      (hv : v.bytes.length < MAXFIELDVALUE) (w : Hidden) :
      CursorInv (bs ++ (k.bytes ++ [byte '=']) ++ (v.bytes ++ CR :: w.bytes))
        ⟨.almostDone, v.bytes.length⟩

theorem Cursor.within_next {s t : Cursor} {n : Nat} {p : CursorPass}
    (h : s.within n p = .next t) : s.i < n ∧ p = .next t := by
  unfold Cursor.within at h
  split at h
  · rename_i hlt
    exact ⟨hlt, h⟩
  · cases h

theorem Cursor.within_fault {s : Cursor} {n : Nat} {p : CursorPass} (hp : p ≠ .fault) :
    s.within n p = .fault ↔ n ≤ s.i := by
  unfold Cursor.within
  split
  · rename_i hlt
    simp only [hp, false_iff]
    omega
  · simp only [true_iff]
    omega

def ArgKey.push (k : ArgKey) (c : UInt8) (hc : isArgName c = true) : ArgKey :=
  ⟨k.bytes ++ [c], List.forall_mem_append.mpr ⟨k.ok, List.forall_mem_singleton.mpr hc⟩⟩

def ArgText.push (v : ArgText) (c : UInt8) (hc : isArgValue c = true) : ArgText :=
  ⟨v.bytes ++ [c], List.forall_mem_append.mpr ⟨v.ok, List.forall_mem_singleton.mpr hc⟩⟩

theorem Hidden.push_ok (w : Hidden) {c : UInt8} (hc : c ≠ LF) : LF ∉ w.bytes ++ [c] := by
  simp only [List.mem_append, List.mem_singleton, not_or]
  exact ⟨w.ok, Ne.symm hc⟩

/-- Behind a whole segment a name starts. -/
theorem CursorInv.start {bs : Bytes} {i : Nat} (h : Segments bs i) :
    CursorInv bs ⟨.name, i⟩ := by
  have hname := CursorInv.name h ⟨[], by simp⟩
  simpa using hname

theorem cursorInv_step {bs : Bytes} {s s' : Cursor} {c : UInt8} (hi : CursorInv bs s)
    (h : cursorBody c s = .next s') : CursorInv (bs ++ [c]) s' := by
  cases hi with
  | @name bs i hs k =>
    simp only [cursorBody] at h
    split at h
    · rename_i hc
      obtain ⟨-, h⟩ := Cursor.within_next h
      cases h
      have hname := CursorInv.name hs (k.push c hc)
      simpa [ArgKey.push, Nat.add_assoc] using hname
    · split at h
      · rename_i hc
        obtain ⟨hlt, h⟩ := Cursor.within_next h
        cases h
        have hvalue := CursorInv.value hs k hlt ⟨[], by simp⟩
        simpa [hc] using hvalue
      · split at h
        · rename_i hc
          obtain ⟨hlt, h⟩ := Cursor.within_next h
          cases h
          have hseg := CursorInv.start (hs.snoc (.bare k) hlt)
          simpa [hc, Segment.bytes, Segment.next] using hseg
        · cases h
  | @value bs i hs k hk v =>
    simp only [cursorBody] at h
    split at h
    · rename_i hc
      obtain ⟨-, h⟩ := Cursor.within_next h
      cases h
      have hvalue := CursorInv.value hs k hk (v.push c hc)
      simpa [ArgText.push] using hvalue
    · split at h
      · rename_i hc
        obtain ⟨hlt, h⟩ := Cursor.within_next h
        cases h
        have hseg := CursorInv.start (hs.snoc (.pair k v) ⟨hk, hlt⟩)
        simpa [hc, Segment.bytes, Segment.next] using hseg
      · split at h
        · obtain ⟨-, h⟩ := Cursor.within_next h
          cases h
        · split at h
          · rename_i hc
            obtain ⟨hlt, h⟩ := Cursor.within_next h
            cases h
            have hdone := CursorInv.almostDone hs k hk v hlt ⟨[], by simp⟩
            simpa [hc] using hdone
          · split at h
            · rename_i hc
              obtain ⟨hlt, h⟩ := Cursor.within_next h
              cases h
              have hseg := CursorInv.start (hs.snoc (.line k v none) ⟨hk, hlt⟩)
              simpa [hc, Segment.bytes, Segment.next, lineEndBytes] using hseg
            · cases h
  | @almostDone bs i hs k hk v hv w =>
    simp only [cursorBody] at h
    split at h
    · rename_i hc
      cases h
      have hseg := CursorInv.start (hs.snoc (.line k v (some w)) ⟨hk, hv⟩)
      simpa [hc, Segment.bytes, Segment.next, lineEndBytes] using hseg
    · rename_i hc
      cases h
      have hdone := CursorInv.almostDone hs k hk v hv ⟨w.bytes ++ [c], w.push_ok hc⟩
      simpa using hdone

/-! ## The passes that fault -/

theorem cursorBody_name_fault {c : UInt8} {i : Nat} :
    cursorBody c ⟨.name, i⟩ = .fault ↔
      MAXFIELDNAME ≤ i ∧ (isArgName c = true ∨ c = byte '=' ∨ c = byte '&') := by
  simp only [cursorBody]
  split
  · rename_i hc
    simp [Cursor.within_fault, hc]
  · split
    · rename_i hc
      simp [Cursor.within_fault, hc]
    · split
      · rename_i hc
        simp [Cursor.within_fault, hc]
      · simp [*]

theorem cursorBody_value_fault {c : UInt8} {i : Nat} :
    cursorBody c ⟨.value, i⟩ = .fault ↔ MAXFIELDVALUE ≤ i ∧
      (isArgValue c = true ∨ c = byte '&' ∨ c = byte ' ' ∨ c = CR ∨ c = LF) := by
  simp only [cursorBody]
  split
  · rename_i hc
    simp [Cursor.within_fault, hc]
  · split
    · rename_i hc
      simp [Cursor.within_fault, hc]
    · split
      · rename_i hc
        simp [Cursor.within_fault, hc]
      · split
        · rename_i hc
          simp [Cursor.within_fault, hc]
        · split
          · rename_i hc
            simp [Cursor.within_fault, hc]
          · simp [*]

theorem cursorBody_almostDone {c : UInt8} {i : Nat} :
    cursorBody c ⟨.almostDone, i⟩ ≠ .fault := by
  simp only [cursorBody]
  split <;> simp

/-! ## Exactly the overlong arguments -/

abbrev cursorLoop (s : Cursor) (bs : Bytes) : Exit UInt8 Unit Cursor :=
  loop (fun _ => true) cursorBody s bs

abbrev CursorRuns := Runs (fun _ : Cursor => true) cursorBody

theorem argOverlong_of_fault {bs : Bytes} (h : cursorLoop ⟨.name, 0⟩ bs = .fault) :
    ArgOverlong bs := by
  obtain ⟨used, c, u, rest, rfl, hr, -, hfault⟩ := exit_fault h
  have hinv := hr.invariant (I := CursorInv) (fun _ _ _ _ _ hi hb => cursorInv_step hi hb) []
    (CursorInv.start .nil)
  rw [List.nil_append] at hinv
  cases hinv with
  | name hs k =>
    obtain ⟨hlen, hc⟩ := cursorBody_name_fault.mp hfault
    exact .name hs k hlen hc
  | value hs k hk v =>
    obtain ⟨hlen, hc⟩ := cursorBody_value_fault.mp hfault
    exact .value hs k hk v hlen hc
  | almostDone => exact absurd hfault cursorBody_almostDone

theorem cursorBody_name {c : UInt8} {i : Nat} (hc : isArgName c = true) (hi : i < MAXFIELDNAME) :
    cursorBody c ⟨.name, i⟩ = .next ⟨.name, i + 1⟩ := by
  simp [cursorBody, hc, Cursor.within, hi]

theorem cursorBody_value {c : UInt8} {i : Nat} (hc : isArgValue c = true)
    (hi : i < MAXFIELDVALUE) : cursorBody c ⟨.value, i⟩ = .next ⟨.value, i + 1⟩ := by
  simp [cursorBody, hc, Cursor.within, hi]

theorem runs_argKey (k : ArgKey) (i : Nat) (hl : i + k.bytes.length ≤ MAXFIELDNAME) :
    CursorRuns ⟨.name, i⟩ k.bytes ⟨.name, i + k.bytes.length⟩ :=
  .count (f := Cursor.mk .name) (fun _ => rfl)
    (fun _ c hc hi => cursorBody_name (k.ok c hc) hi) i hl

theorem runs_argText (v : ArgText) (hl : v.bytes.length ≤ MAXFIELDVALUE) :
    CursorRuns ⟨.value, 0⟩ v.bytes ⟨.value, v.bytes.length⟩ := by
  have hr : CursorRuns ⟨.value, 0⟩ v.bytes ⟨.value, 0 + v.bytes.length⟩ :=
    .count (f := Cursor.mk .value) (fun _ => rfl)
      (fun _ c hc hi => cursorBody_value (v.ok c hc) hi) 0 (by omega)
  rwa [Nat.zero_add] at hr

theorem runs_equals {k : ArgKey} {i : Nat} (hk : i + k.bytes.length < MAXFIELDNAME) :
    CursorRuns ⟨.name, i⟩ (k.bytes ++ [byte '=']) ⟨.value, 0⟩ := by
  refine (runs_argKey k i hk.le).append (.single rfl ?_)
  simp [cursorBody, isArgName, Cursor.within, hk]

theorem runs_lineEnd (h : Option Hidden) {i : Nat} (hi : i < MAXFIELDVALUE) :
    CursorRuns ⟨.value, i⟩ (lineEndBytes h) ⟨.name, i⟩ := by
  cases h with
  | none =>
    refine .single rfl ?_
    simp [cursorBody, isArgValue, Cursor.within, hi]
  | some w =>
    have hcr : cursorBody CR ⟨.value, i⟩ = .next ⟨.almostDone, i⟩ := by
      have hp : isprint CR = false := by decide
      simp [cursorBody, isArgValue, Cursor.within, hi, hp]
    have hskip : CursorRuns ⟨.almostDone, i⟩ w.bytes ⟨.almostDone, i⟩ := by
      refine .skip rfl ?_
      intro c hc
      have hne : c ≠ LF := fun h => w.ok (h ▸ hc)
      simp [cursorBody, hne]
    exact .cons rfl hcr (hskip.append (.single rfl rfl))

theorem runs_segment (seg : Segment) {i : Nat} (h : seg.Fits i) :
    CursorRuns ⟨.name, i⟩ seg.bytes ⟨.name, seg.next⟩ := by
  cases seg with
  | bare k =>
    have hk : i + k.bytes.length < MAXFIELDNAME := h
    refine (runs_argKey k i hk.le).append (.single rfl ?_)
    simp [cursorBody, isArgName, Cursor.within, hk, Segment.next]
  | pair k v =>
    obtain ⟨hk, hv⟩ : i + k.bytes.length < MAXFIELDNAME ∧ v.bytes.length < MAXFIELDVALUE := h
    have hvalue := runs_argText v hv.le
    refine (runs_equals hk).append (hvalue.append (.single rfl ?_))
    simp [cursorBody, isArgValue, Cursor.within, hv, Segment.next]
  | line k v w =>
    obtain ⟨hk, hv⟩ : i + k.bytes.length < MAXFIELDNAME ∧ v.bytes.length < MAXFIELDVALUE := h
    have hvalue := runs_argText v hv.le
    exact (runs_equals hk).append (hvalue.append (runs_lineEnd w hv))

theorem runs_segments {bs : Bytes} {i : Nat} (h : Segments bs i) :
    CursorRuns ⟨.name, 0⟩ bs ⟨.name, i⟩ := by
  induction h with
  | nil => exact .nil
  | snoc _ seg hfit ih => exact ih.append (runs_segment seg hfit)

/-- A token that reaches the end of its array leaves it, also when its index started behind. -/
theorem fault_of_key (k : ArgKey) {rest : Bytes} {c : UInt8}
    (hc : isArgName c = true ∨ c = byte '=' ∨ c = byte '&') (i : Nat)
    (hlen : MAXFIELDNAME ≤ i + k.bytes.length) :
    cursorLoop ⟨.name, i⟩ (k.bytes ++ c :: rest) = .fault := by
  refine loop_fault_of_count (f := Cursor.mk .name) (fun _ => rfl)
    (fun _ d hd hi => cursorBody_name (k.ok d hd) hi) ?_ i hlen
  intro i d hd hi
  rcases hd with hd | rfl
  · exact cursorBody_name_fault.mpr ⟨hi, .inl (k.ok d hd)⟩
  · exact cursorBody_name_fault.mpr ⟨hi, hc⟩

theorem fault_of_text (v : ArgText) {rest : Bytes} {c : UInt8}
    (hc : isArgValue c = true ∨ c = byte '&' ∨ c = byte ' ' ∨ c = CR ∨ c = LF)
    (hlen : MAXFIELDVALUE ≤ v.bytes.length) :
    cursorLoop ⟨.value, 0⟩ (v.bytes ++ c :: rest) = .fault := by
  refine loop_fault_of_count (f := Cursor.mk .value) (fun _ => rfl)
    (fun _ d hd hi => cursorBody_value (v.ok d hd) hi) ?_ 0 (by omega)
  intro i d hd hi
  rcases hd with hd | rfl
  · exact cursorBody_value_fault.mpr ⟨hi, .inl (v.ok d hd)⟩
  · exact cursorBody_value_fault.mpr ⟨hi, hc⟩

theorem fault_of_argOverlong {bs : Bytes} (h : ArgOverlong bs) :
    cursorLoop ⟨.name, 0⟩ bs = .fault := by
  cases h with
  | name hs k hlen hc =>
    rw [List.append_assoc, cursorLoop, loop_of_runs (runs_segments hs)]
    exact fault_of_key k hc _ hlen
  | value hs k hk v hlen hc =>
    rw [List.append_assoc, cursorLoop, loop_of_runs ((runs_segments hs).append (runs_equals hk))]
    exact fault_of_text v hc hlen

theorem read_none_iff {name value : Bytes} (hn : name.length = MAXFIELDNAME)
    (hv : value.length = MAXFIELDVALUE) (is : Bytes) (body : List ReqArg) :
    read name value is body = none ↔ ArgOverlong (is.take MAXTRUNK) :=
  (read_eq_none hn hv is body).trans ⟨argOverlong_of_fault, fault_of_argOverlong⟩

/-- With the arrays of the source: no store goes behind `name` or `value` exactly when the bytes
that are read at most do not bring a name or a value over the end of its array. -/
theorem read_inside_iff (name value : Bytes) (hn : name.length = MAXFIELDNAME)
    (hv : value.length = MAXFIELDVALUE) (is : Bytes) (body : List ReqArg) :
    read name value is body ≠ none ↔ ¬ ArgOverlong (is.take MAXTRUNK) :=
  not_congr (read_none_iff hn hv is body)

theorem longKey_ok : ∀ c ∈ List.replicate 64 (byte 'a'), isArgName c = true := by
  intro c hc
  rw [List.eq_of_mem_replicate hc]
  rfl

/-- A name of `MAXFIELDNAME` bytes: its NUL does not fit. -/
def longKey : ArgKey := ⟨List.replicate 64 (byte 'a'), longKey_ok⟩

theorem longKey_length : longKey.bytes.length = MAXFIELDNAME := List.length_replicate

def longKeyArgs : Bytes := longKey.bytes ++ [byte '=']

theorem longKeyArgs_overlong : ArgOverlong (longKeyArgs.take MAXTRUNK) := by
  have hlen : longKeyArgs.length ≤ MAXTRUNK := by
    rw [longKeyArgs, List.length_append, longKey_length]
    decide
  rw [List.take_of_length_le hlen]
  exact .name .nil longKey (by rw [longKey_length]; decide) (.inr (.inl rfl))

theorem read_longKey :
    read Stack.zero.fieldname Stack.zero.fieldvalue longKeyArgs [] = none :=
  (read_none_iff Stack.zero_sized.fieldname Stack.zero_sized.fieldvalue _ _).mpr
    longKeyArgs_overlong

theorem read_inside_long :
    ¬ (read Stack.zero.fieldname Stack.zero.fieldvalue longKeyArgs [] ≠ none) := by
  rw [read_inside_iff _ _ Stack.zero_sized.fieldname Stack.zero_sized.fieldvalue]
  exact not_not.mpr longKeyArgs_overlong

end VectorBody
end Http
end SimpleWeb
