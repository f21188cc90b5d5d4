import SimpleWeb.Http.ArgumentBounds

/-!
# Http.LineBodies

Bodies of several lines. A line ending leaves the index where the last value ended, so the first
name of the next line is stored behind that many bytes of the name array: behind the NUL of the
last name it is not seen, and in front of it it continues that name (`nameAt`).

`carried` is what the reader makes of any list of lines (`read_lines`); it is the lines' own
arguments just when each line is joined to the next as `Joint` says (`read_lines_iff`).
-/

namespace SimpleWeb
namespace Http
namespace VectorBody

open ScanLoop CArray

/-- Written arguments and a line ending. -/
structure ArgLine where
  first : ReqArg
  others : List ReqArg
  eol : Eol
  ok : ∀ a ∈ first :: others, Encodable a

namespace ArgLine

def args (l : ArgLine) : List ReqArg := l.first :: l.others

def last (l : ArgLine) : ReqArg := l.args.getLast (List.cons_ne_nil _ _)

def bytes (l : ArgLine) : Bytes := (write l.args).1 ++ l.eol.bytes

end ArgLine

/-- The name read when `key` is stored from `i` on in an array that holds `held`. -/
def nameAt (held : Bytes) (i : Nat) (key : Bytes) : Bytes :=
  if held.length < i then held else held.take i ++ key

/-- The arguments of a line whose first name is stored from `i` on. -/
def shown (held : Bytes) (i : Nat) (l : ArgLine) : List ReqArg :=
  ⟨nameAt held i l.first.key, l.first.value⟩ :: l.others

def shownLast (held : Bytes) (i : Nat) (l : ArgLine) : ReqArg :=
  (shown held i l).getLast (List.cons_ne_nil _ _)

/-- What the reader makes of lines, from the name its array holds and its index. -/
def carried (held : Bytes) (i : Nat) : List ArgLine → Option (List ReqArg)
  | [] => some []
  | l :: ls =>
    if i + l.first.key.length < MAXFIELDNAME then
      (carried (shownLast held i l).key l.last.value.length ls).map (shown held i l ++ ·)
    else none

/-- A name stored from `i` on over the name `held` is the name that is read, and has room. -/
def Lands (held : Bytes) (i : Nat) (key : Bytes) : Prop :=
  i = 0 ∨ (held = key ∧ held.length < i ∧ i + key.length < MAXFIELDNAME)

instance (held : Bytes) (i : Nat) (key : Bytes) : Decidable (Lands held i key) :=
  inferInstanceAs (Decidable (_ ∨ _))

/-- The first name of the second line is stored from the end of the last value of the first on. -/
def Joint (l l' : ArgLine) : Prop := Lands l.last.key l.last.value.length l'.first.key

/-! ## The abstract reader -/

theorem nameAt_zero (held key : Bytes) : nameAt held 0 key = key := by simp [nameAt]

theorem nameAt_eq_iff (held key : Bytes) (i : Nat) :
    nameAt held i key = key ↔ i = 0 ∨ (held = key ∧ held.length < i) := by
  unfold nameAt
  split
  · rename_i hlt
    have hi : i ≠ 0 := by omega
    simp [hlt, hi]
  · rename_i hge
    have htake : held.take i = [] ↔ i = 0 := by
      rw [List.take_eq_nil_iff]
      constructor
      · rintro (h | rfl)
        · exact h
        · simp at hge; exact hge
      · exact .inl
    simp [hge, htake]

theorem shown_eq_iff (held : Bytes) (i : Nat) (l : ArgLine) :
    shown held i l = l.args ↔ nameAt held i l.first.key = l.first.key := by
  obtain ⟨⟨key, value⟩, others, eol, ok⟩ := l
  simp [shown, ArgLine.args]

/-- A line is shown as it is, and there is room for its first name. -/
theorem lands_iff (held : Bytes) (i : Nat) (l : ArgLine) :
    Lands held i l.first.key ↔
      shown held i l = l.args ∧ i + l.first.key.length < MAXFIELDNAME := by
  rw [shown_eq_iff, nameAt_eq_iff, Lands]
  have hlen := (l.ok l.first (by simp)).key_len
  constructor
  · rintro (rfl | ⟨heq, hlt, hroom⟩)
    · exact ⟨.inl rfl, by omega⟩
    · exact ⟨.inr ⟨heq, hlt⟩, hroom⟩
  · rintro ⟨rfl | ⟨heq, hlt⟩, hroom⟩
    · exact .inl rfl
    · exact .inr ⟨heq, hlt, hroom⟩

theorem carried_of_lands {held : Bytes} {i : Nat} {l : ArgLine} (h : Lands held i l.first.key)
    (ls : List ArgLine) :
    carried held i (l :: ls) =
      (carried l.last.key l.last.value.length ls).map (l.args ++ ·) := by
  obtain ⟨hshown, hroom⟩ := (lands_iff held i l).mp h
  have hlast : shownLast held i l = l.last := by simp [shownLast, ArgLine.last, hshown]
  rw [carried, if_pos hroom, hlast, hshown]

theorem lands_of_carried {held : Bytes} {i : Nat} {l : ArgLine} {ls : List ArgLine}
    {as : List ReqArg} (h : carried held i (l :: ls) = some (l.args ++ as)) :
    Lands held i l.first.key := by
  rw [carried] at h
  split at h
  · rename_i hroom
    obtain ⟨bs, -, heq⟩ := Option.map_eq_some_iff.mp h
    have hlen : (shown held i l).length = l.args.length := rfl
    exact (lands_iff held i l).mpr ⟨(List.append_inj heq hlen).1, hroom⟩
  · cases h

theorem carried_append_iff {held : Bytes} {i : Nat} {l : ArgLine} {ls : List ArgLine}
    {as : List ReqArg} :
    carried held i (l :: ls) = some (l.args ++ as) ↔
      Lands held i l.first.key ∧ carried l.last.key l.last.value.length ls = some as := by
  constructor
  · intro h
    have hl := lands_of_carried h
    rw [carried_of_lands hl] at h
    obtain ⟨bs, hbs, heq⟩ := Option.map_eq_some_iff.mp h
    exact ⟨hl, hbs.trans (congrArg some (List.append_cancel_left heq))⟩
  · rintro ⟨hl, h⟩
    rw [carried_of_lands hl, h]
    rfl

/-- The vector only grows, so the first line that is shown otherwise decides. -/
theorem carried_eq_iff (ls : List ArgLine) :
    ∀ {held : Bytes} {i : Nat} {l : ArgLine},
      carried held i (l :: ls) = some ((l :: ls).flatMap ArgLine.args) ↔
        Lands held i l.first.key ∧ (l :: ls).IsChain Joint := by
  induction ls with
  | nil =>
    intro held i l
    rw [List.flatMap_cons, carried_append_iff]
    simp [carried]
  | cons l' ls ih =>
    intro held i l
    rw [List.flatMap_cons, carried_append_iff, ih, List.isChain_cons_cons, Joint]

/-! ## The reader -/

section Reading

variable {n v : Bytes} {i k : Nat} {b : List ReqArg}

theorem cstr_stored {key : Bytes} (h0 : 0 ∉ key) (hi : i ≤ n.length) :
    cstr (overwrite n i (key ++ [0])) = nameAt (cstr n) i key := cstr_overwrite h0 hi

/-- Both line endings push the pair and leave the index. -/
theorem runs_eol (e : Eol) {t : Bytes} (h0 : 0 ∉ t) (hl : t.length < v.length)
    (hk : k + e.bytes.length ≤ MAXTRUNK) :
    ArgRuns ⟨.value, n, fill v t, t.length, k, b⟩ e.bytes
      ⟨.name, n, fill v (t ++ [0]), t.length, k + e.bytes.length, b ++ [⟨cstr n, t⟩]⟩ := by
  cases e with
  | lf =>
    refine .single (argGuard_of (by simpa [Eol.bytes] using hk)) ?_
    rw [argBody_value_newline rfl, endValue_fill h0 hl]
    rfl
  | crlf =>
    have hcr : argBody CR ⟨.value, n, fill v t, t.length, k, b⟩ =
        .next ⟨.almostDone, n, fill v (t ++ [0]), t.length, k + 1, b ++ [⟨cstr n, t⟩]⟩ := by
      have hp : isprint CR = false := by decide
      simp [argBody, argSwitch, endValue_fill h0 hl, almostDoneCase, hp]
    simp only [Eol.bytes, List.length_cons, List.length_nil] at hk
    refine .cons (argGuard_of (show k < MAXTRUNK by omega)) hcr (.single (argGuard_of ?_) rfl)
    show k + 1 < MAXTRUNK
    omega

/-- A name that leaves its array faults, wherever it starts. -/
theorem loop_key_fault {key r : Bytes} (hkey : ∀ c ∈ key, isArgName c = true) :
    ∀ {n : Bytes} {i k : Nat}, n.length ≤ i + key.length → k + key.length < MAXTRUNK →
      loop argGuard argBody ⟨.name, n, v, i, k, b⟩ (key ++ byte '=' :: r) = .fault := by
  induction key with
  | nil =>
    intro n i k hl hk
    refine loop_fault .nil (argGuard_of (by simpa using hk)) ?_
    simp [argBody, argSwitch, ArgVars.endName, store_none_iff.mpr (by simpa using hl), Pass.must]
  | cons c key ih =>
    intro n i k hl hk
    simp only [List.length_cons] at hl hk
    have hc := hkey c (by simp)
    have hg : argGuard ⟨.name, n, v, i, k, b⟩ = true := argGuard_of (show k < MAXTRUNK by omega)
    by_cases hi : i < n.length
    · have hput := argBody_name (t := []) (v := v) (k := k) (b := b) hc (n := n) (i := i)
        (by simpa using hi)
      rw [overwrite_nil] at hput
      have hrest := ih (fun d hd => hkey d (by simp [hd])) (n := overwrite n i ([] ++ [c]))
        (i := i + 1) (k := k + 1) (by rw [length_overwrite (by simpa using hi)]; omega) (by omega)
      rw [List.cons_append, ← List.singleton_append, loop_of_runs (.single hg hput)]
      exact hrest
    · show loop argGuard argBody _ ([] ++ c :: (key ++ byte '=' :: r)) = .fault
      refine loop_fault .nil hg ?_
      have hc' : usual c = true ∧ c ≠ byte '&' ∧ c ≠ byte '=' := by
        simpa [isArgName, and_assoc] using hc
      have hfull : store n i c = none := store_none_iff.mpr (by omega)
      simp [argBody, argSwitch, hc', ArgVars.putName, hfull, Pass.must]

end Reading

/-- Behind a line: its arguments are pushed, the first under the name that is read; the index is
the length of the last value, and the name array holds the last name. -/
theorem runs_args (e : Eol) (as : List ReqArg) :
    ∀ {a : ReqArg} {n v : Bytes} {i k : Nat} {b : List ReqArg}, (∀ x ∈ a :: as, Encodable x) →
      n.length = MAXFIELDNAME → v.length = MAXFIELDVALUE → i + a.key.length < MAXFIELDNAME →
      k + ((write (a :: as)).1 ++ e.bytes).length ≤ MAXTRUNK →
      ∃ n' v', n'.length = MAXFIELDNAME ∧ v'.length = MAXFIELDVALUE ∧
        cstr n' = ((⟨nameAt (cstr n) i a.key, a.value⟩ :: as : List ReqArg).getLast
          (List.cons_ne_nil _ _)).key ∧
        ArgRuns ⟨.name, n, v, i, k, b⟩ ((write (a :: as)).1 ++ e.bytes)
          ⟨.name, n', v', ((a :: as).getLast (List.cons_ne_nil _ _)).value.length,
            k + ((write (a :: as)).1 ++ e.bytes).length,
            b ++ ⟨nameAt (cstr n) i a.key, a.value⟩ :: as⟩ := by
  induction as with
  | nil =>
    intro a n v i k b hok hn hv hi hk
    have ha := hok a (by simp)
    have hkl := ha.key_len
    have hvl := ha.value_len
    have hw : (write [a]).1 = pairBytes a := by simp [write]
    rw [hw, List.length_append] at hk ⊢
    have hpair := runs_pair (b := b) (k := k) ha hn hv hi (by omega)
    have heol := runs_eol (n := overwrite n i (a.key ++ [0])) (v := v) (b := b) e
      ha.nul_notMem_value (by omega) (by omega) (k := k + (pairBytes a).length)
    rw [cstr_stored ha.nul_notMem_key (by omega)] at heol
    have hall := hpair.append heol
    rw [Nat.add_assoc] at hall
    refine ⟨_, _, ?_, ?_, ?_, hall⟩
    · rw [length_overwrite (by simp; omega), hn]
    · rw [length_fill (by simp; omega), hv]
    · exact cstr_stored ha.nul_notMem_key (by omega)
  | cons a' as ih =>
    intro a n v i k b hok hn hv hi hk
    have ha := hok a (by simp)
    have hkl := ha.key_len
    have hvl := ha.value_len
    have hkl' := (hok a' (by simp)).key_len
    have hsplit : (write (a :: a' :: as)).1 ++ e.bytes =
        (pairBytes a ++ [byte '&']) ++ ((write (a' :: as)).1 ++ e.bytes) := by
      simp [write]
    rw [hsplit, List.length_append, List.length_append, List.length_singleton] at hk ⊢
    have hamp := runs_ampersand (b := b) (k := k) ha hn hv hi (by omega)
    rw [cstr_stored ha.nul_notMem_key (by omega)] at hamp
    obtain ⟨n', v', hn', hv', hheld, hr⟩ := ih (a := a') (n := overwrite n i (a.key ++ [0]))
      (v := fill v (a.value ++ [0])) (i := 0) (k := k + (pairBytes a).length + 1)
      (b := b ++ [⟨nameAt (cstr n) i a.key, a.value⟩]) (fun x hx => hok x (by simp [hx]))
      (by rw [length_overwrite (by simp; omega), hn]) (by rw [length_fill (by simp; omega), hv])
      (by omega) (by omega)
    rw [nameAt_zero] at hheld hr
    refine ⟨n', v', hn', hv', ?_, ?_⟩
    · rw [hheld, List.getLast_cons (List.cons_ne_nil _ _)]
    · rw [List.getLast_cons (List.cons_ne_nil _ _), ← Nat.add_assoc, ← Nat.add_assoc]
      simpa only [List.append_assoc, List.singleton_append] using hamp.append hr

theorem ArgLine.bytes_eq (l : ArgLine) :
    ∃ rest, l.bytes = l.first.key ++ byte '=' :: rest ∧
      (pairBytes l.first).length ≤ l.bytes.length := by
  obtain ⟨a, as, eol, hok⟩ := l
  refine ⟨a.value ++ (as.flatMap (fun a => byte '&' :: pairBytes a)) ++ eol.bytes, ?_, ?_⟩
  · simp [ArgLine.bytes, ArgLine.args, write, pairBytes]
  · simp [ArgLine.bytes, ArgLine.args, write]

/-- What the reader makes of lines, from any point where a name may start. -/
theorem outcome_lines (ls : List ArgLine) :
    ∀ {n v : Bytes} {i k : Nat} {b : List ReqArg}, n.length = MAXFIELDNAME →
      v.length = MAXFIELDVALUE → k + (ls.flatMap ArgLine.bytes).length ≤ MAXTRUNK →
      outcome (loop argGuard argBody ⟨.name, n, v, i, k, b⟩ (ls.flatMap ArgLine.bytes)) =
        (carried (cstr n) i ls).map fun as =>
          (((k + (ls.flatMap ArgLine.bytes).length : Nat) : Int), b ++ as) := by
  induction ls with
  | nil =>
    intro n v i k b hn hv hk
    simp [carried, outcome]
  | cons l ls ih =>
    intro n v i k b hn hv hk
    rw [List.flatMap_cons, List.length_append] at hk ⊢
    by_cases hroom : i + l.first.key.length < MAXFIELDNAME
    · obtain ⟨n', v', hn', hv', hheld, hr⟩ := runs_args (b := b) (k := k) (v := v) l.eol l.others
        l.ok hn hv hroom (by show k + l.bytes.length ≤ MAXTRUNK; omega)
      have hrest := ih (i := l.last.value.length) (k := k + l.bytes.length)
        (b := b ++ shown (cstr n) i l) hn' hv' (by omega)
      have hline : ArgRuns ⟨.name, n, v, i, k, b⟩ l.bytes ⟨.name, n', v', l.last.value.length,
          k + l.bytes.length, b ++ shown (cstr n) i l⟩ := hr
      have hkey : cstr n' = (shownLast (cstr n) i l).key := hheld
      rw [loop_of_runs hline, hrest, hkey, carried, if_pos hroom, Option.map_map]
      simp only [Function.comp_def, List.append_assoc, Nat.add_assoc]
    · obtain ⟨rest, hbytes, hlen⟩ := l.bytes_eq
      have hk' : k + l.first.key.length < MAXTRUNK := by
        simp only [pairBytes, List.length_append, List.length_cons] at hlen
        omega
      have hfault := loop_key_fault (v := v) (b := b) (r := rest ++ ls.flatMap ArgLine.bytes)
        (l.ok l.first (by simp)).key (n := n) (i := i) (by omega) hk'
      rw [hbytes, List.append_assoc, List.cons_append, hfault, carried, if_neg hroom]
      rfl

theorem read_lines (ls : List ArgLine) (name value : Bytes) (hn : name.length = MAXFIELDNAME)
    (hv : value.length = MAXFIELDVALUE) (hsize : (ls.flatMap ArgLine.bytes).length ≤ MAXTRUNK)
    (body : List ReqArg) :
    (read name value (ls.flatMap ArgLine.bytes) body).map (fun r => (r.1, r.2.1)) =
      (carried (cstr name) 0 ls).map fun as =>
        (((ls.flatMap ArgLine.bytes).length : Int), body ++ as) := by
  rw [read_outcome, outcome_lines ls hn hv (by simpa using hsize)]
  simp

/-- The lines of a body are read as they are exactly when each is joined to the next. -/
theorem read_lines_iff (ls : List ArgLine) (name value : Bytes)
    (hn : name.length = MAXFIELDNAME) (hv : value.length = MAXFIELDVALUE)
    (hsize : (ls.flatMap ArgLine.bytes).length ≤ MAXTRUNK) (body : List ReqArg) :
    (∃ k rest, read name value (ls.flatMap ArgLine.bytes) body =
        some (k, body ++ ls.flatMap ArgLine.args, rest)) ↔ ls.IsChain Joint := by
  have hread := read_lines ls name value hn hv hsize body
  have hcarried : (∃ k rest, read name value (ls.flatMap ArgLine.bytes) body =
      some (k, body ++ ls.flatMap ArgLine.args, rest)) ↔
        carried (cstr name) 0 ls = some (ls.flatMap ArgLine.args) := by
    constructor
    · rintro ⟨k, rest, h⟩
      rw [h, Option.map_some] at hread
      obtain ⟨as, has, heq⟩ := Option.map_eq_some_iff.mp hread.symm
      rw [has, List.append_cancel_left (congrArg Prod.snd heq)]
    · intro h
      rw [h, Option.map_some] at hread
      obtain ⟨⟨k, b, rest⟩, hr, heq⟩ := Option.map_eq_some_iff.mp hread
      cases heq
      exact ⟨_, rest, hr⟩
  rw [hcarried]
  cases ls with
  | nil => simp [carried]
  | cons l ls =>
    rw [carried_eq_iff]
    exact and_iff_right (.inl rfl)

theorem emptyValueLine_ok : ∀ x ∈ [(⟨ascii "a", []⟩ : ReqArg)], Encodable x := by decide +kernel

theorem shortLine_ok : ∀ x ∈ [(⟨ascii "b", ascii "z"⟩ : ReqArg)], Encodable x := by decide +kernel

/-- `a=` and `b=z`, with the two line endings. -/
def emptyValueLines : List ArgLine :=
  [⟨⟨ascii "a", []⟩, [], .lf, emptyValueLine_ok⟩, ⟨⟨ascii "b", ascii "z"⟩, [], .crlf, shortLine_ok⟩]

theorem read_lines_iff_emptyValue :
    ∃ k rest, read Stack.zero.fieldname Stack.zero.fieldvalue
      (emptyValueLines.flatMap ArgLine.bytes) [] =
        some (k, [] ++ emptyValueLines.flatMap ArgLine.args, rest) := by
  have hjoint : emptyValueLines.IsChain Joint := .cons_cons (.inl rfl) (.singleton _)
  exact (read_lines_iff emptyValueLines Stack.zero.fieldname Stack.zero.fieldvalue
    Stack.zero_sized.fieldname Stack.zero_sized.fieldvalue (by decide +kernel) []).mpr hjoint

/-- The second name is stored behind the NUL of the first. -/
theorem read_lines_stale :
    read Stack.zero.fieldname Stack.zero.fieldvalue (ascii "a=xy\nb=z\n") [] =
        some (9, [⟨ascii "a", ascii "xy"⟩, ⟨ascii "a", ascii "z"⟩], []) ∧
      ¬ ∃ k rest, read Stack.zero.fieldname Stack.zero.fieldvalue (ascii "a=xy\nb=z\n") [] =
        some (k, [] ++ [⟨ascii "a", ascii "xy"⟩, ⟨ascii "b", ascii "z"⟩], rest) := by
  have hread : read Stack.zero.fieldname Stack.zero.fieldvalue (ascii "a=xy\nb=z\n") [] =
      some (9, [⟨ascii "a", ascii "xy"⟩, ⟨ascii "a", ascii "z"⟩], []) := by decide +kernel
  refine ⟨hread, ?_⟩
  rintro ⟨k, rest, h⟩
  rw [hread] at h
  revert h
  simp [ascii]

end VectorBody
end Http
end SimpleWeb
