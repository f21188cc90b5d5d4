import SimpleWeb.Http.Read

/-!
# Http.VectorBody

Argument lists as bodies (`http/vector_body.cpp`): `vector_body<reqargs>::read`, a byte loop of
three states over two stack arrays and one shared index, and `vector_body<reqargs>::write`.

`ArgMove` says once what a pass of the reader does, faults and returns included.

The reader appends a pair when it meets a delimiter behind it, and the writer puts delimiters
between pairs only; so a written list whose stream ends with it is read back without its last
pair (`read_write`), and never as it was (`read_write_ne`).
-/

namespace SimpleWeb
namespace Http

open ScanLoop CArray

structure ReqArg where
  key : Bytes
  value : Bytes
  deriving DecidableEq, Repr

namespace VectorBody

inductive ArgState where
  | name
  | value
  | almostDone
  deriving DecidableEq, Repr

structure ArgVars where
  state : ArgState
  name : Bytes
  value : Bytes
  i : Nat
  totalsize : Nat
  body : List ReqArg

abbrev ArgPass := Pass Int ArgVars

/-- `name[i++] = ch` -/
def ArgVars.putName (s : ArgVars) (ch : UInt8) : Option ArgVars :=
  (store s.name s.i ch).map fun b => { s with name := b, i := s.i + 1 }

/-- `value[i++] = ch` -/
def ArgVars.putValue (s : ArgVars) (ch : UInt8) : Option ArgVars :=
  (store s.value s.i ch).map fun b => { s with value := b, i := s.i + 1 }

/-- `name[i] = '\0'` -/
def ArgVars.endName (s : ArgVars) : Option ArgVars :=
  (store s.name s.i 0).map fun b => { s with name := b }

/-- `body.push_back({std::string(name), v})` -/
def ArgVars.push (s : ArgVars) (v : Bytes) : ArgVars :=
  { s with body := s.body ++ [⟨cstr s.name, v⟩] }

/-- `value[i] = '\0'` and the pair of both strings. -/
def ArgVars.endValue (s : ArgVars) : Option ArgVars :=
  (store s.value s.i 0).map fun b => { s with value := b }.push (cstr b)

/-- `case s_almost_done`, which the delimiters of `s_value` fall into. -/
def almostDoneCase (ch : UInt8) (s : ArgVars) : ArgPass :=
  if ch = CR then .next s
  else if ch = LF then .next { s with state := .name }
  else .next s

def argSwitch (ch : UInt8) (s : ArgVars) : ArgPass :=
  match s.state with
  | .name =>
    if usual ch ∧ ch ≠ byte '&' ∧ ch ≠ byte '=' then .must (s.putName ch) .next
    else if ch = byte '=' then .must s.endName fun s => .next { s with state := .value, i := 0 }
    else if ch = byte '&' then .must s.endName fun s => .next { s.push [] with i := 0 }
    else .ret (-1) s
  | .value =>
    if isprint ch ∧ ch ≠ byte '&' ∧ ch ≠ byte ' ' then .must (s.putValue ch) .next
    else if ch = byte '&' then
      .must s.endValue fun s => almostDoneCase ch { s with state := .name, i := 0 }
    else if ch = byte ' ' then .must s.endValue fun s => .ret s.totalsize s
    else if ch = CR then .must s.endValue fun s => almostDoneCase ch { s with state := .almostDone }
    -- the index is not reset here
    else if ch = LF then .must s.endValue fun s => almostDoneCase ch { s with state := .name }
    else .ret (-1) s
  | .almostDone => almostDoneCase ch s

def argBody (ch : UInt8) (s : ArgVars) : ArgPass :=
  argSwitch ch { s with totalsize := s.totalsize + 1 }

def argGuard (s : ArgVars) : Bool := s.totalsize < MAXTRUNK

/-- `vector_body<reqargs>::read`, from what its two arrays hold at the start. -/
def read (name value : Bytes) : BodyReader (List ReqArg) := fun is body =>
  match loop argGuard argBody ⟨.name, name, value, 0, 0, body⟩ is with
  | .done s rest => some (s.totalsize, s.body, rest)
  | .ret n s rest => some (n, s.body, rest)
  | .fault => none

/-- The reader comes to the end of its stream, which has failed then. -/
def starves (name value is : Bytes) : Bool :=
  (loop argGuard argBody ⟨.name, name, value, 0, 0, []⟩ is).starved argGuard

/-- `read_body` reads the connection to its end; with a query string it does not read it. -/
def bodyStarves (name value is : Bytes) (par : Parser) : Bool :=
  par.querystr.isNone && starves name value is

def pairBytes (a : ReqArg) : Bytes := a.key ++ byte '=' :: a.value

/-- `vector_body<reqargs>::write`: what it puts on the stream and what it returns. -/
def write : List ReqArg → Bytes × Int
  | [] => ([], 0)
  | a :: as => (pairBytes a ++ as.flatMap fun a => byte '&' :: pairBytes a, 0)

def isArgName (ch : UInt8) : Bool := usual ch && ch != byte '&' && ch != byte '='

def isArgValue (ch : UInt8) : Bool := isprint ch && ch != byte '&' && ch != byte ' '

/-- A pair that can be written for the reader: its bytes are accepted and its strings fit. -/
structure Encodable (a : ReqArg) : Prop where
  key : ∀ c ∈ a.key, isArgName c = true
  value : ∀ c ∈ a.value, isArgValue c = true
  key_len : a.key.length < MAXFIELDNAME
  value_len : a.value.length < MAXFIELDVALUE

instance (a : ReqArg) : Decidable (Encodable a) :=
  decidable_of_iff
    ((∀ c ∈ a.key, isArgName c = true) ∧ (∀ c ∈ a.value, isArgValue c = true) ∧
      a.key.length < MAXFIELDNAME ∧ a.value.length < MAXFIELDVALUE)
    ⟨fun ⟨hk, hv, hkl, hvl⟩ => ⟨hk, hv, hkl, hvl⟩,
      fun h => ⟨h.key, h.value, h.key_len, h.value_len⟩⟩

theorem isArgName_ne {c : UInt8} (h : isArgName c = true) : c ≠ 0 := by
  revert c; decide +kernel

theorem isArgValue_ne {c : UInt8} (h : isArgValue c = true) : c ≠ 0 := by
  revert c; decide +kernel

/-! ## One pass -/

/-- What a pass does, one constructor for each way through the switch. -/
inductive ArgMove (s : ArgVars) : UInt8 → ArgPass → Prop where
  | putName {c : UInt8} {b : Bytes} : s.state = .name → isArgName c = true →
      store s.name s.i c = some b →
      ArgMove s c (.next { s with name := b, i := s.i + 1, totalsize := s.totalsize + 1 })
  | equals {b : Bytes} : s.state = .name → store s.name s.i 0 = some b →
      ArgMove s (byte '=')
        (.next { s with state := .value, name := b, i := 0, totalsize := s.totalsize + 1 })
  | bare {b : Bytes} : s.state = .name → store s.name s.i 0 = some b →
      ArgMove s (byte '&')
        (.next ⟨s.state, b, s.value, 0, s.totalsize + 1, s.body ++ [⟨cstr b, []⟩]⟩)
  | nameFull {c : UInt8} : s.state = .name →
      isArgName c = true ∨ c = byte '=' ∨ c = byte '&' → s.name.length ≤ s.i →
      ArgMove s c .fault
  | nameStop {c : UInt8} : s.state = .name →
      isArgName c = false ∧ c ≠ byte '=' ∧ c ≠ byte '&' →
      ArgMove s c (.ret (-1) { s with totalsize := s.totalsize + 1 })
  | putValue {c : UInt8} {b : Bytes} : s.state = .value → isArgValue c = true →
      store s.value s.i c = some b →
      ArgMove s c (.next { s with value := b, i := s.i + 1, totalsize := s.totalsize + 1 })
  | endValue {c : UInt8} {b : Bytes} {q : ArgState} {j : Nat} : s.state = .value →
      (c = byte '&' ∧ q = .name ∧ j = 0) ∨ (c = CR ∧ q = .almostDone ∧ j = s.i) ∨
        (c = LF ∧ q = .name ∧ j = s.i) →
      store s.value s.i 0 = some b →
      ArgMove s c
        (.next ⟨q, s.name, b, j, s.totalsize + 1, s.body ++ [⟨cstr s.name, cstr b⟩]⟩)
  | space {b : Bytes} : s.state = .value → store s.value s.i 0 = some b →
      ArgMove s (byte ' ') (.ret ↑(s.totalsize + 1)
        ⟨s.state, s.name, b, s.i, s.totalsize + 1, s.body ++ [⟨cstr s.name, cstr b⟩]⟩)
  | valueFull {c : UInt8} : s.state = .value →
      isArgValue c = true ∨ c = byte '&' ∨ c = byte ' ' ∨ c = CR ∨ c = LF →
      s.value.length ≤ s.i → ArgMove s c .fault
  | valueStop {c : UInt8} : s.state = .value →
      isArgValue c = false ∧ c ≠ byte '&' ∧ c ≠ byte ' ' ∧ c ≠ CR ∧ c ≠ LF →
      ArgMove s c (.ret (-1) { s with totalsize := s.totalsize + 1 })
  | lineEnd : s.state = .almostDone →
      ArgMove s LF (.next { s with state := .name, totalsize := s.totalsize + 1 })
  | hidden {c : UInt8} : s.state = .almostDone → c ≠ LF →
      ArgMove s c (.next { s with totalsize := s.totalsize + 1 })

section Move

variable {n v : Bytes} {i k : Nat} {b : List ReqArg}

/-- A store goes on with what it leaves, or faults at the end of its array. -/
theorem argMove_store {s : ArgVars} {c d : UInt8} {a : Bytes} {f : Bytes → ArgVars}
    {g : ArgVars → ArgPass} (hfull : a.length ≤ i → ArgMove s c .fault)
    (hput : ∀ a', store a i d = some a' → ArgMove s c (g (f a'))) :
    ArgMove s c (Pass.must ((store a i d).map f) g) := by
  cases hst : store a i d with
  | none => exact hfull (store_none_iff.mp hst)
  | some a' => exact hput a' hst

theorem argBody_move_name (c : UInt8) :
    ArgMove ⟨.name, n, v, i, k, b⟩ c (argBody c ⟨.name, n, v, i, k, b⟩) := by
  have hname : (usual c = true ∧ c ≠ byte '&' ∧ c ≠ byte '=') ↔ isArgName c = true := by
    simp [isArgName, and_assoc]
  simp only [argBody, argSwitch, hname]
  split
  · rename_i hc
    exact argMove_store (fun hle => .nameFull rfl (.inl hc) hle)
      fun a' hst => .putName rfl hc hst
  · rename_i hc
    split
    · rename_i heq
      subst heq
      exact argMove_store (fun hle => .nameFull rfl (.inr (.inl rfl)) hle)
        fun a' hst => .equals rfl hst
    · rename_i heq
      split
      · rename_i hand
        subst hand
        exact argMove_store (fun hle => .nameFull rfl (.inr (.inr rfl)) hle)
          fun a' hst => .bare rfl hst
      · rename_i hand
        exact .nameStop rfl ⟨by simpa using hc, heq, hand⟩

theorem argBody_move_value (c : UInt8) :
    ArgMove ⟨.value, n, v, i, k, b⟩ c (argBody c ⟨.value, n, v, i, k, b⟩) := by
  have hvalue : (isprint c = true ∧ c ≠ byte '&' ∧ c ≠ byte ' ') ↔ isArgValue c = true := by
    simp [isArgValue, and_assoc]
  simp only [argBody, argSwitch, hvalue]
  split
  · rename_i hc
    exact argMove_store (fun hle => .valueFull rfl (.inl hc) hle)
      fun a' hst => .putValue rfl hc hst
  · rename_i hc
    split
    · rename_i hand
      subst hand
      exact argMove_store (fun hle => .valueFull rfl (.inr (.inl rfl)) hle)
        fun a' hst => .endValue rfl (.inl ⟨rfl, rfl, rfl⟩) hst
    · rename_i hand
      split
      · rename_i hsp
        subst hsp
        exact argMove_store (fun hle => .valueFull rfl (.inr (.inr (.inl rfl))) hle)
          fun a' hst => .space rfl hst
      · rename_i hsp
        split
        · rename_i hcr
          subst hcr
          exact argMove_store (fun hle => .valueFull rfl (.inr (.inr (.inr (.inl rfl)))) hle)
            fun a' hst => .endValue rfl (.inr (.inl ⟨rfl, rfl, rfl⟩)) hst
        · rename_i hcr
          split
          · rename_i hlf
            subst hlf
            exact argMove_store (fun hle => .valueFull rfl (.inr (.inr (.inr (.inr rfl)))) hle)
              fun a' hst => .endValue rfl (.inr (.inr ⟨rfl, rfl, rfl⟩)) hst
          · rename_i hlf
            exact .valueStop rfl ⟨by simpa using hc, hand, hsp, hcr, hlf⟩

theorem argBody_move_almostDone (c : UInt8) :
    ArgMove ⟨.almostDone, n, v, i, k, b⟩ c (argBody c ⟨.almostDone, n, v, i, k, b⟩) := by
  simp only [argBody, argSwitch, almostDoneCase]
  by_cases hlf : c = LF
  · subst hlf
    exact .lineEnd rfl
  · rw [if_neg hlf, ite_self]
    exact .hidden rfl hlf

end Move

theorem argBody_move (s : ArgVars) (c : UInt8) : ArgMove s c (argBody c s) := by
  obtain ⟨q, n, v, i, k, b⟩ := s
  cases q with
  | name => exact argBody_move_name c
  | value => exact argBody_move_value c
  | almostDone => exact argBody_move_almostDone c

theorem argMove_of {s : ArgVars} {c : UInt8} {p : ArgPass} (h : argBody c s = p) :
    ArgMove s c p := h ▸ argBody_move s c

/-! ## Reading pairs -/

abbrev ArgRuns := Runs argGuard argBody

section Pieces

variable {n v t : Bytes} {i k : Nat} {b : List ReqArg}

theorem argGuard_of {s : ArgVars} (h : s.totalsize < MAXTRUNK) : argGuard s = true := by
  simpa [argGuard] using h

theorem argBody_name {c : UInt8} (hc : isArgName c = true) (hl : i + t.length < n.length) :
    argBody c ⟨.name, overwrite n i t, v, i + t.length, k, b⟩ =
      .next ⟨.name, overwrite n i (t ++ [c]), v, i + (t ++ [c]).length, k + 1, b⟩ := by
  have hc' : usual c = true ∧ c ≠ byte '&' ∧ c ≠ byte '=' := by
    simpa [isArgName, and_assoc] using hc
  simp [argBody, argSwitch, hc', ArgVars.putName, store_overwrite hl, Nat.add_assoc]

theorem argBody_equals (hl : i + t.length < n.length) :
    argBody (byte '=') ⟨.name, overwrite n i t, v, i + t.length, k, b⟩ =
      .next ⟨.value, overwrite n i (t ++ [0]), v, 0, k + 1, b⟩ := by
  simp [argBody, argSwitch, ArgVars.endName, store_overwrite hl]

theorem argBody_value {c : UInt8} (hc : isArgValue c = true) (hl : t.length < v.length) :
    argBody c ⟨.value, n, fill v t, t.length, k, b⟩ =
      .next ⟨.value, n, fill v (t ++ [c]), (t ++ [c]).length, k + 1, b⟩ := by
  have hc' : isprint c = true ∧ c ≠ byte '&' ∧ c ≠ byte ' ' := by
    simpa [isArgValue, and_assoc] using hc
  simp [argBody, argSwitch, hc', ArgVars.putValue, store_fill hl]

theorem endValue_fill (h0 : 0 ∉ t) (hl : t.length < v.length) {q : ArgState} :
    (⟨q, n, fill v t, t.length, k, b⟩ : ArgVars).endValue =
      some ⟨q, n, fill v (t ++ [0]), t.length, k, b ++ [⟨cstr n, t⟩]⟩ := by
  simp [ArgVars.endValue, ArgVars.push, store_fill hl, cstr_fill h0]

theorem argBody_ampersand (h0 : 0 ∉ t) (hl : t.length < v.length) :
    argBody (byte '&') ⟨.value, n, fill v t, t.length, k, b⟩ =
      .next ⟨.name, n, fill v (t ++ [0]), 0, k + 1, b ++ [⟨cstr n, t⟩]⟩ := by
  simp [argBody, argSwitch, endValue_fill h0 hl, almostDoneCase]

/-- A name is stored from the index on, wherever that is. -/
theorem runs_name {key : Bytes} (hkey : ∀ c ∈ key, isArgName c = true)
    (hl : i + key.length ≤ n.length) (hk : k + key.length ≤ MAXTRUNK) :
    ArgRuns ⟨.name, n, v, i, k, b⟩ key
      ⟨.name, overwrite n i key, v, i + key.length, k + key.length, b⟩ := by
  have hrun : ArgRuns
      ⟨.name, overwrite n i [], v, i + ([] : Bytes).length, k + ([] : Bytes).length, b⟩ key
      ⟨.name, overwrite n i ([] ++ key), v, i + ([] ++ key).length, k + ([] ++ key).length, b⟩ :=
    Runs.collect (f := fun t => ⟨.name, overwrite n i t, v, i + t.length, k + t.length, b⟩)
      (n := key.length) (fun t ht => argGuard_of (by simp only; omega))
      (fun t c hc ht => by
        rw [argBody_name (hkey c hc) (by omega)]
        simp [Nat.add_assoc])
      [] (by simp)
  simpa using hrun

theorem runs_key {key : Bytes} (hkey : ∀ c ∈ key, isArgName c = true)
    (hl : i + key.length < n.length) (hk : k + key.length < MAXTRUNK) :
    ArgRuns ⟨.name, n, v, i, k, b⟩ (key ++ [byte '='])
      ⟨.value, overwrite n i (key ++ [0]), v, 0, k + key.length + 1, b⟩ := by
  refine (runs_name hkey hl.le hk.le).append (.single (argGuard_of (by simpa using hk)) ?_)
  exact argBody_equals hl

theorem runs_value {value : Bytes} (hvalue : ∀ c ∈ value, isArgValue c = true)
    (hl : value.length ≤ v.length) (hk : k + value.length ≤ MAXTRUNK) :
    ArgRuns ⟨.value, n, v, 0, k, b⟩ value
      ⟨.value, n, fill v value, value.length, k + value.length, b⟩ :=
  Runs.collect (f := fun t => ⟨.value, n, fill v t, t.length, k + t.length, b⟩)
    (n := value.length) (fun t ht => argGuard_of (by simp only; omega))
    (fun t c hc ht => by
      rw [argBody_value (hvalue c hc) (by omega)]
      simp [Nat.add_assoc])
    [] (by simp)

end Pieces

theorem runs_pair {a : ReqArg} (ha : Encodable a) {n v : Bytes} {i k : Nat} {b : List ReqArg}
    (hn : n.length = MAXFIELDNAME) (hv : v.length = MAXFIELDVALUE)
    (hi : i + a.key.length < MAXFIELDNAME) (hk : k + (pairBytes a).length ≤ MAXTRUNK) :
    ArgRuns ⟨.name, n, v, i, k, b⟩ (pairBytes a)
      ⟨.value, overwrite n i (a.key ++ [0]), fill v a.value, a.value.length,
        k + (pairBytes a).length, b⟩ := by
  have hlen : (pairBytes a).length = a.key.length + 1 + a.value.length := by
    simp [pairBytes]; omega
  have hvl := ha.value_len
  have hkey := runs_key (n := n) (v := v) (i := i) (k := k) (b := b) ha.key (by omega) (by omega)
  have hvalue := runs_value (n := overwrite n i (a.key ++ [0])) (v := v)
    (k := k + a.key.length + 1) (b := b) ha.value (by omega) (by omega)
  have hall := hkey.append hvalue
  have htotal : k + a.key.length + 1 + a.value.length = k + (pairBytes a).length := by omega
  rw [htotal] at hall
  simpa [pairBytes] using hall

theorem Encodable.nul_notMem_key {a : ReqArg} (ha : Encodable a) : 0 ∉ a.key :=
  fun h => isArgName_ne (ha.key 0 h) rfl

theorem Encodable.nul_notMem_value {a : ReqArg} (ha : Encodable a) : 0 ∉ a.value :=
  fun h => isArgValue_ne (ha.value 0 h) rfl

/-- Between two pairs: the first is pushed, and the next name is stored from the start. -/
theorem runs_ampersand {a : ReqArg} (ha : Encodable a) {n v : Bytes} {i k : Nat} {b : List ReqArg}
    (hn : n.length = MAXFIELDNAME) (hv : v.length = MAXFIELDVALUE)
    (hi : i + a.key.length < MAXFIELDNAME) (hk : k + (pairBytes a).length < MAXTRUNK) :
    ArgRuns ⟨.name, n, v, i, k, b⟩ (pairBytes a ++ [byte '&'])
      ⟨.name, overwrite n i (a.key ++ [0]), fill v (a.value ++ [0]), 0,
        k + (pairBytes a).length + 1,
        b ++ [⟨cstr (overwrite n i (a.key ++ [0])), a.value⟩]⟩ := by
  refine (runs_pair ha hn hv hi hk.le).append (.single (argGuard_of hk) ?_)
  exact argBody_ampersand ha.nul_notMem_value (hv ▸ ha.value_len)

/-- After a written list the reader holds its last pair in its arrays and the others in the
vector. -/
theorem runs_write (as : List ReqArg) :
    ∀ {a : ReqArg} {n v : Bytes} {k : Nat} {b : List ReqArg}, (∀ x ∈ a :: as, Encodable x) →
      n.length = MAXFIELDNAME → v.length = MAXFIELDVALUE →
      k + (write (a :: as)).1.length ≤ MAXTRUNK →
      ∃ n' v' t, ArgRuns ⟨.name, n, v, 0, k, b⟩ (write (a :: as)).1
        ⟨.value, n', v', t, k + (write (a :: as)).1.length, b ++ (a :: as).dropLast⟩ := by
  induction as with
  | nil =>
    intro a n v k b hok hn hv hk
    have ha := hok a (by simp)
    have hpair := runs_pair (i := 0) (b := b) ha hn hv (by simpa using ha.key_len)
      (by simpa [write] using hk)
    exact ⟨_, _, _, by simpa [write] using hpair⟩
  | cons a' as ih =>
    intro a n v k b hok hn hv hk
    have ha := hok a (by simp)
    have hkl := ha.key_len
    have hvl := ha.value_len
    have hsplit : (write (a :: a' :: as)).1 = pairBytes a ++ byte '&' :: (write (a' :: as)).1 := by
      simp [write]
    rw [hsplit] at hk ⊢
    simp only [List.length_append, List.length_cons] at hk
    have hamp := runs_ampersand (i := 0) (k := k) (b := b) ha hn hv (by omega) (by omega)
    rw [overwrite_zero, cstr_fill ha.nul_notMem_key] at hamp
    obtain ⟨n', v', t, hrest⟩ := ih (a := a') (n := fill n (a.key ++ [0]))
      (v := fill v (a.value ++ [0])) (k := k + (pairBytes a).length + 1) (b := b ++ [a])
      (fun x hx => hok x (by simp [hx]))
      (by rw [length_fill (by simp; omega), hn]) (by rw [length_fill (by simp; omega), hv])
      (by omega)
    refine ⟨n', v', t, ?_⟩
    have hall := hamp.append hrest
    have htotal : k + (pairBytes a).length + 1 + (write (a' :: as)).1.length =
        k + (pairBytes a ++ byte '&' :: (write (a' :: as)).1).length := by
      simp; omega
    rw [htotal] at hall
    simpa using hall

/-! ## The round trip -/

/-- A written list is read back without its last pair. -/
theorem read_write {a : ReqArg} {as : List ReqArg} (hok : ∀ x ∈ a :: as, Encodable x)
    {name value : Bytes} (hn : name.length = MAXFIELDNAME) (hv : value.length = MAXFIELDVALUE)
    (hsize : (write (a :: as)).1.length ≤ MAXTRUNK) (body : List ReqArg) :
    read name value (write (a :: as)).1 body =
      some (((write (a :: as)).1.length : Int), body ++ (a :: as).dropLast, []) := by
  obtain ⟨n', v', t, hr⟩ := runs_write as (k := 0) (b := body) hok hn hv (by simpa using hsize)
  rw [read, loop_end hr]
  simp

/-- No written list comes back as it was: the pair in front of the end of the stream is lost. -/
theorem read_write_ne (as : List ReqArg) (hne : as ≠ []) (hok : ∀ x ∈ as, Encodable x)
    (name value : Bytes) (hn : name.length = MAXFIELDNAME) (hv : value.length = MAXFIELDVALUE)
    (hsize : (write as).1.length ≤ MAXTRUNK) (body : List ReqArg) :
    ¬ ∃ n rest, read name value (write as).1 body = some (n, body ++ as, rest) ∧ 0 ≤ n := by
  rintro ⟨n, rest, h, -⟩
  cases as with
  | nil => exact hne rfl
  | cons a as =>
    rw [read_write hok hn hv hsize] at h
    have heq : (a :: as).dropLast = a :: as := by
      simp only [Option.some.injEq, Prod.mk.injEq, List.append_cancel_left_eq] at h
      exact h.2.1
    have hlen := congrArg List.length heq
    simp at hlen

/-- The arguments of the query in `test/http/parser_test.cpp`. -/
def parserTestArgs : List ReqArg :=
  [⟨ascii "ip", ascii "1.1.1.1"⟩, ⟨ascii "name", ascii "bkb"⟩]

theorem parserTestArgs_ne : parserTestArgs ≠ [] := by simp [parserTestArgs]

theorem parserTestArgs_encodable : ∀ x ∈ parserTestArgs, Encodable x := by decide +kernel

theorem read_write_ne_parserTest :
    parserTestArgs ≠ [] ∧ ¬ ∃ n rest,
      read Stack.zero.fieldname Stack.zero.fieldvalue (write parserTestArgs).1 [] =
        some (n, [] ++ parserTestArgs, rest) ∧ 0 ≤ n :=
  ⟨parserTestArgs_ne, read_write_ne parserTestArgs parserTestArgs_ne parserTestArgs_encodable
    Stack.zero.fieldname Stack.zero.fieldvalue Stack.zero_sized.fieldname
    Stack.zero_sized.fieldvalue (by decide +kernel) []⟩

/-- A list of one pair is read back as the empty list. -/
theorem read_write_singleton :
    write [⟨ascii "ip", ascii "1.1.1.1"⟩] = (ascii "ip=1.1.1.1", 0) ∧
      read Stack.zero.fieldname Stack.zero.fieldvalue (ascii "ip=1.1.1.1") [] =
        some (10, [], []) ∧
      ¬ ∃ n rest, read Stack.zero.fieldname Stack.zero.fieldvalue (ascii "ip=1.1.1.1") [] =
        some (n, [⟨ascii "ip", ascii "1.1.1.1"⟩], rest) ∧ 0 ≤ n := by
  have hread : read Stack.zero.fieldname Stack.zero.fieldvalue (ascii "ip=1.1.1.1") [] =
      some (10, [], []) := by decide +kernel
  refine ⟨by decide +kernel, hread, ?_⟩
  rintro ⟨n, rest, h, -⟩
  rw [hread] at h
  simp at h

end VectorBody
end Http
end SimpleWeb
