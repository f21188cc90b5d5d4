import SimpleWeb.Http.LineLanguage

/-!
# Http.MethodToken

The two recognisers of a method: the state `s_method` of `read_header_line`, with its switch on
the length of the token, and `header<true>::method(std::string &)`, with its switch on the first
letters.

* `methodSwitch_eq` — the switch is a list of comparisons, in order.
* `methodRecognition_exact` — the machine goes on to the URI behind a whole name only, and no
  comparison looks behind the token.
* `method_agrees_iff` — the other recogniser says the same when the first letter is one it knows.
-/

namespace SimpleWeb
namespace Http

open ScanLoop CArray

/-- The bytes `s_start` skips. -/
def isLead (c : UInt8) : Bool := c == CR || c == LF

/-- The first token of a stream, and what is behind it. -/
def methodToken (is : Bytes) : Bytes := (is.dropWhile isLead).takeWhile isUpper

def behindMethod (is : Bytes) : Bytes := (is.dropWhile isLead).dropWhile isUpper

/-- The verbs a token of that length is compared with, in the order of the switch. -/
def methodComparisons : Nat → List Verb
  | 3 => [.get, .put, .head, .post, .delete]
  | 4 => [.head, .post, .delete]
  | 6 => [.delete]
  | _ => []

/-- `strncmp(buffer, to_string(v), n) == 0` with the length of the name -/
def comparesEqual (buffer : Bytes) (v : Verb) : Bool :=
  strncmpEq buffer v.toString v.toString.length

/-- The machine has set that verb and is behind the method. -/
def ReachesUri (b is : Bytes) (p : Parser) (v : Verb) : Prop :=
  ∃ used rest s, is = used ++ rest ∧ LineRuns ⟨.start, b, 0, 0, false, p⟩ used s ∧
    s.state = .spacesBeforeUri ∧ s.par.message.method = v

/-- The stream starts with the full name of the verb and a space. -/
structure NamesMethod (is : Bytes) (v : Verb) : Prop where
  known : v ≠ .unknown
  token : methodToken is = v.toString
  space : (behindMethod is).head? = some (byte ' ')

/-- The space behind a token is stored, and what the array is compared with then is the token:
an array with anything else behind the token compares alike. -/
def ComparesToken (b is : Bytes) (p : Parser) : Prop :=
  ∀ used s b', used <+: is → LineRuns ⟨.start, b, 0, 0, false, p⟩ used s → s.state = .method →
    store s.buffer s.i (byte ' ') = some b' →
      methodSwitch b' s.i = (methodComparisons s.i).find? (comparesEqual b') ∧
      methodToken used ++ [byte ' '] <+: b' ∧
      ∀ b'', methodToken used ++ [byte ' '] <+: b'' →
        ∀ v ∈ methodComparisons s.i, comparesEqual b'' v = comparesEqual b' v

/-! ## The token -/

theorem isLead_iff {c : UInt8} : isLead c = true ↔ c = CR ∨ c = LF := by
  simp [isLead]

theorem isUpper_not_lead {c : UInt8} (h : isUpper c = true) : isLead c = false := by
  obtain ⟨hcr, hlf, -⟩ := upper_ne (by simpa [isUpper] using h)
  simp [isLead, hcr, hlf]

theorem Verb.isUpper_toString {v : Verb} : ∀ c ∈ v.toString, isUpper c = true := by
  intro c hc
  have hup := Verb.toString_upper c hc
  simpa [isUpper] using hup

theorem dropWhile_lead {lead bs : Bytes} (hlead : ∀ c ∈ lead, c = CR ∨ c = LF)
    (hbs : ∀ c ∈ bs.head?, isLead c = false) : (lead ++ bs).dropWhile isLead = bs := by
  rw [List.dropWhile_append_of_pos fun c hc => isLead_iff.mpr (hlead c hc)]
  cases bs with
  | nil => rfl
  | cons c bs => simp [hbs c rfl]

/-- What is read in `s_method` is the token. -/
theorem methodToken_of_upper {lead m : Bytes} (hlead : ∀ c ∈ lead, c = CR ∨ c = LF)
    (hm : ∀ c ∈ m, isUpper c = true) : methodToken (lead ++ m) = m := by
  have hhead : ∀ c ∈ m.head?, isLead c = false := fun c hc =>
    isUpper_not_lead (hm c (List.mem_of_mem_head? hc))
  rw [methodToken, dropWhile_lead hlead hhead]
  exact List.takeWhile_eq_self_iff.mpr hm

section Behind

variable {lead m rest : Bytes} {c : UInt8}

theorem dropWhile_method (hlead : ∀ c ∈ lead, c = CR ∨ c = LF) (hm : ∀ c ∈ m, isUpper c = true)
    (hc : isLead c = false) : (lead ++ (m ++ c :: rest)).dropWhile isLead = m ++ c :: rest := by
  refine dropWhile_lead hlead ?_
  intro d hd
  cases m with
  | nil =>
    cases hd
    exact hc
  | cons e m =>
    have hed : e = d := by simpa using hd
    exact isUpper_not_lead (hm d (by simp [hed]))

theorem methodToken_append (hlead : ∀ c ∈ lead, c = CR ∨ c = LF) (hm : ∀ c ∈ m, isUpper c = true)
    (hc : isLead c = false) (hu : isUpper c = false) :
    methodToken (lead ++ (m ++ c :: rest)) = m := by
  rw [methodToken, dropWhile_method hlead hm hc, List.takeWhile_append_of_pos hm]
  simp [hu]

theorem behindMethod_append (hlead : ∀ c ∈ lead, c = CR ∨ c = LF)
    (hm : ∀ c ∈ m, isUpper c = true) (hc : isLead c = false) (hu : isUpper c = false) :
    behindMethod (lead ++ (m ++ c :: rest)) = c :: rest := by
  rw [behindMethod, dropWhile_method hlead hm hc, List.dropWhile_append_of_pos hm]
  simp [hu]

end Behind

/-- Every stream is its lead, its token and what is behind it. -/
theorem split_method (is : Bytes) :
    ∃ lead, (∀ c ∈ lead, c = CR ∨ c = LF) ∧ is = lead ++ (methodToken is ++ behindMethod is) := by
  refine ⟨is.takeWhile isLead, ?_, ?_⟩
  · intro c hc
    exact isLead_iff.mp (List.mem_takeWhile_imp hc)
  · rw [methodToken, behindMethod, List.takeWhile_append_dropWhile,
      List.takeWhile_append_dropWhile]

theorem methodToken_upper (is : Bytes) : ∀ c ∈ methodToken is, isUpper c = true :=
  fun _ hc => List.mem_takeWhile_imp hc

theorem behindMethod_head {is rest : Bytes} {c : UInt8} (h : behindMethod is = c :: rest) :
    isUpper c = false ∧ (methodToken is = [] → isLead c = false) := by
  have hhead : ∀ (q : UInt8 → Bool) (l : Bytes), l.dropWhile q = c :: rest → q c = false := by
    intro q l hl
    have hne : l.dropWhile q ≠ [] := by simp [hl]
    have hnot := List.head_dropWhile_not q hne
    simpa [hl] using hnot
  refine ⟨hhead isUpper _ h, ?_⟩
  intro htok
  have hbehind : is.dropWhile isLead = c :: rest := by
    have hsplit := List.takeWhile_append_dropWhile (p := isUpper) (l := is.dropWhile isLead)
    rw [show (is.dropWhile isLead).takeWhile isUpper = [] from htok] at hsplit
    exact hsplit.symm.trans h
  exact hhead isLead _ hbehind

/-! ## The switch on the length -/

theorem find?_cons_if {α : Type} (q : α → Bool) (a : α) (l : List α) :
    (a :: l).find? q = if q a = true then some a else l.find? q := by
  by_cases h : q a = true
  · simp [h]
  · simp [h]

theorem methodSwitch_eq (b : Bytes) (i : Nat) :
    methodSwitch b i = (methodComparisons i).find? (comparesEqual b) := by
  have h6 : methodCase6 b = [Verb.delete].find? (comparesEqual b) := by
    rw [find?_cons_if]
    rfl
  have h4 : methodCase4 b = [Verb.head, .post, .delete].find? (comparesEqual b) := by
    rw [methodCase4, h6, find?_cons_if _ Verb.head, find?_cons_if _ Verb.post]
    rfl
  have h3 : methodCase3 b = [Verb.get, .put, .head, .post, .delete].find? (comparesEqual b) := by
    rw [methodCase3, h4, find?_cons_if _ Verb.get, find?_cons_if _ Verb.put]
    rfl
  rcases i with _ | _ | _ | _ | _ | _ | _ | i
  · rfl
  · rfl
  · rfl
  · exact h3
  · exact h4
  · rfl
  · exact h6
  · rfl

/-- A name and an array that starts with a token and its space differ at that space at the
latest. -/
theorem comparesEqual_iff {b m : Bytes} (h : m ++ [byte ' '] <+: b) (v : Verb) :
    comparesEqual b v = true ↔ v.toString <+: m ++ [byte ' '] := by
  have h0 : (0 : UInt8) ∉ v.toString := by cases v <;> decide +kernel
  rw [comparesEqual, strncmpEq_iff h0]
  constructor
  · intro hv
    rcases List.prefix_or_prefix_of_prefix hv h with hpre | hpre
    · exact hpre
    · have hspace : byte ' ' ∈ v.toString := hpre.subset (by simp)
      exact absurd (Verb.toString_upper _ hspace) (by decide)
  · intro hv
    exact hv.trans h

theorem comparesToken (b is : Bytes) (p : Parser) : ComparesToken b is p := by
  intro used s b' _ hruns hstate hstore
  obtain ⟨-, hinv⟩ := lineRuns_inv hruns
  cases hinv with
  | @method lead m b i hlead hm hb =>
    have htoken := methodToken_of_upper hlead hm
    have hpre := (hb.store hstore).pre
    refine ⟨methodSwitch_eq _ _, htoken.symm ▸ hpre, ?_⟩
    intro b'' hb'' v _
    rw [htoken] at hb''
    rw [Bool.eq_iff_iff, comparesEqual_iff hb'', comparesEqual_iff hpre]
  | _ => cases hstate

/-! ## What the machine does with a token -/

section Recognised

variable {b lead m rest : Bytes} {c : UInt8} {p : Parser}

/-- No array makes the switch find a verb for a token that is no name. -/
theorem methodSwitch_none {m : Bytes} (hm : ∀ v : Verb, v ≠ .unknown → m ≠ v.toString) :
    methodSwitch (fill b (m ++ [byte ' '])) m.length = none := by
  cases hs : methodSwitch (fill b (m ++ [byte ' '])) m.length with
  | none => rfl
  | some v =>
    have hholds : Holds (fill b (m ++ [byte ' '])) (m.length + 1) (m ++ [byte ' ']) :=
      ⟨by simp, List.prefix_append _ _⟩
    obtain ⟨hv, heq⟩ := method_eq hholds hs
    exact absurd heq (hm v hv)

/-- Behind an empty token the byte itself is refused, behind another the token is. -/
theorem readHeaderLine_invalidMethod (rest : Bytes) (hlead : ∀ c ∈ lead, c = CR ∨ c = LF)
    (hm : ∀ c ∈ m, isUpper c = true) (hlen : m.length < b.length) (hu : isUpper c = false)
    (hc : m = [] → isLead c = false)
    (hnot : ∀ v : Verb, v ≠ .unknown → c = byte ' ' → m ≠ v.toString) :
    readHeaderLine b (lead ++ (m ++ c :: rest)) p = some (.invalidMethod, p, rest) := by
  have hrange : c < byte 'A' ∨ c > byte 'Z' := by
    by_contra hno
    rw [isUpper_iff.mpr hno] at hu
    exact absurd hu (by simp)
  have hskip := runs_lead (b := b) (v := 0) (p := p) (i := 0) hlead
  by_cases hne : m = []
  · subst hne
    have hnl : ¬ (c = CR ∨ c = LF) := by
      rw [← isLead_iff, hc rfl]
      simp
    have hret : lineBody c ⟨.start, b, 0, 0, false, p⟩ =
        .ret .invalidMethod ⟨.start, b, 0, 0, false, p⟩ := by
      simp [lineBody, hnl, hrange]
    rw [readHeaderLine, List.nil_append, loop_ret hskip rfl hret]
  · have htoken := runs_methodToken (b := b) (v := 0) (p := p) (i := 0)
      (fun d hd => by simpa [isUpper] using hm d hd) hne hlen.le
    obtain ⟨s, hret, hs⟩ : ∃ s, lineBody c ⟨.method, fill b m, m.length, 0, false, p⟩ =
        .ret .invalidMethod s ∧ s.par = p := by
      by_cases hsp : c = byte ' '
      · have hswitch := methodSwitch_none (b := b) fun v hv => hnot v hv hsp
        simp [lineBody, LineVars.put_fill hlen, hsp, hswitch]
      · simp [lineBody, LineVars.put_fill hlen, hsp, hrange]
    rw [readHeaderLine, ← List.append_assoc, loop_ret (hskip.append htoken) rfl hret]
    simp [hs]

/-- The verb whose name was read is set. -/
theorem reachesUri_of_name (hlead : ∀ c ∈ lead, c = CR ∨ c = LF) {v : Verb} (hv : v ≠ .unknown)
    (hb : 7 ≤ b.length) : ReachesUri b (lead ++ (v.toString ++ byte ' ' :: rest)) p v := by
  have hskip := runs_lead (b := b) (v := 0) (p := p) (i := 0) hlead
  have hmethod := runs_method (b := b) (v := 0) (p := p) (i := 0) hv hb
  exact ⟨_, rest, _, by simp, hskip.append hmethod, rfl, rfl⟩

/-- Only a whole name gets there. -/
theorem namesMethod_of_reaches {is : Bytes} {v : Verb} (h : ReachesUri b is p v) :
    NamesMethod is v := by
  obtain ⟨used, rest, s, rfl, hruns, hstate, hverb⟩ := h
  obtain ⟨-, hinv⟩ := lineRuns_inv hruns
  cases hinv with
  | @gap r b =>
    obtain rfl : r.method = v := hverb
    have hsplit : r.bytes ++ rest =
        r.lead ++ (r.method.toString ++ byte ' ' :: (spaces r.gap ++ rest)) := by
      simp [RawStart.bytes]
    rw [hsplit]
    have hlead : isLead (byte ' ') = false := by decide
    have hupper : isUpper (byte ' ') = false := by decide
    refine ⟨r.method_ok, ?_, ?_⟩
    · exact methodToken_append r.lead_ok Verb.isUpper_toString hlead hupper
    · rw [behindMethod_append r.lead_ok Verb.isUpper_toString hlead hupper]
      rfl
  | _ => cases hstate

theorem reachesUri_iff {is : Bytes} {v : Verb} (hb : 7 ≤ b.length) :
    ReachesUri b is p v ↔ NamesMethod is v := by
  constructor
  · exact namesMethod_of_reaches
  · rintro ⟨hv, htoken, hspace⟩
    obtain ⟨lead, hlead, his⟩ := split_method is
    obtain ⟨rest, hbehind⟩ := List.head?_eq_some_iff.mp hspace
    rw [his, htoken, hbehind]
    exact reachesUri_of_name hlead hv hb

end Recognised

/-- The machine sets a verb behind its whole name and a space, refuses every other token that
something is behind, and compares nothing but the token. -/
theorem methodRecognition_exact {b is : Bytes} (hb : b.length = 1024)
    (hlen : (methodToken is).length < 1024) (p : Parser) :
    (∀ v, ReachesUri b is p v ↔ NamesMethod is v) ∧
      (∀ c rest, behindMethod is = c :: rest → (∀ v, ¬ NamesMethod is v) →
        readHeaderLine b is p = some (.invalidMethod, p, rest)) ∧
      ComparesToken b is p := by
  refine ⟨fun v => reachesUri_iff (by omega), ?_, comparesToken b is p⟩
  intro c rest hbehind hnot
  obtain ⟨lead, hlead, his⟩ := split_method is
  obtain ⟨hu, hc⟩ := behindMethod_head hbehind
  rw [hbehind] at his
  have hinvalid := readHeaderLine_invalidMethod (b := b) (p := p) rest hlead
    (methodToken_upper is) (by omega) hu hc
    (fun v hv hsp htoken => hnot v ⟨hv, htoken, by rw [hbehind, hsp]; rfl⟩)
  rwa [← his] at hinvalid

theorem getToken_short :
    (methodToken (ascii "GET /")).length < 1024 ∧ (methodToken (ascii "GOT /")).length < 1024 := by
  decide +kernel

/-- A name, and a token that is none. -/
theorem methodRecognition_get :
    ReachesUri Stack.zero.buffer (ascii "GET /") .init .get ∧
      readHeaderLine Stack.zero.buffer (ascii "GOT /") .init =
        some (.invalidMethod, .init, ascii "/") := by
  have hnone : ∀ v, ¬ NamesMethod (ascii "GOT /") v := by
    rintro v ⟨-, htoken, -⟩
    revert htoken
    cases v <;> decide +kernel
  refine ⟨?_, ?_⟩
  · refine ((methodRecognition_exact List.length_replicate getToken_short.1 .init).1 .get).mpr ?_
    exact ⟨by decide, by decide +kernel, by decide +kernel⟩
  · exact (methodRecognition_exact List.length_replicate getToken_short.2 .init).2.1 (byte ' ')
      (ascii "/") (by decide +kernel) hnone

/-! ## `header<true>::method` -/

/-- The `switch` on the first letters. Behind the last byte of a string there is a NUL. -/
def methodOfLetters (m : Bytes) : Verb :=
  if m.getD 0 0 = byte 'D' then .delete
  else if m.getD 0 0 = byte 'G' then .get
  else if m.getD 0 0 = byte 'H' then .head
  else if m.getD 0 0 = byte 'P' then if m.getD 1 0 = byte 'O' then .post else .put
  else .unknown

/-- `method(std::string &m)`: what it returns, and the header it leaves -/
def RequestHeader.methodOfString (h : RequestHeader) (m : Bytes) : Int × RequestHeader :=
  if methodOfLetters m ≠ .unknown ∧ (methodOfLetters m).toString ≠ m then
    (-1, { h with method := .unknown })
  else (0, { h with method := methodOfLetters m })

/-- `read_header_line` takes the string and a space for that method. -/
def AcceptsMethod (b t : Bytes) (p : Parser) (v : Verb) : Prop :=
  ∃ p', readHeaderLine b (t ++ [byte ' ']) p = some (.ok, p', []) ∧ p'.message.method = v

/-- Both say the same of the string, and a string that names no method is refused. -/
structure MethodsAgree (b t : Bytes) (p : Parser) (h : RequestHeader) : Prop where
  accepted : ∀ v, ((h.methodOfString t).1 = 0 ∧ (h.methodOfString t).2.method = v) ↔
    AcceptsMethod b t p v
  refused : (∀ v : Verb, v ≠ .unknown → t ≠ v.toString) →
    (h.methodOfString t).1 = -1 ∧ (h.methodOfString t).2.method = .unknown

/-- The letters the `switch` has a case for. -/
def LetterKnown (t : Bytes) : Prop := t.getD 0 0 ∈ ascii "DGHP"

instance (t : Bytes) : Decidable (LetterKnown t) := inferInstanceAs (Decidable (_ ∈ _))

theorem Verb.toString_inj {v w : Verb} (h : v.toString = w.toString) : v = w := by
  revert h
  cases v <;> cases w <;> decide +kernel

theorem methodOfLetters_known {t : Bytes} : methodOfLetters t ≠ .unknown ↔ LetterKnown t := by
  unfold methodOfLetters LetterKnown
  generalize t.getD 0 0 = c
  split
  · rename_i hc; subst hc; decide
  · split
    · rename_i hc; subst hc; decide
    · split
      · rename_i hc; subst hc; decide
      · split
        · rename_i hc
          subst hc
          split <;> decide
        · simp_all [ascii]

/-- The letters of a name lead to its verb. -/
theorem methodOfLetters_toString {v : Verb} (hv : v ≠ .unknown) :
    methodOfLetters v.toString = v := by
  cases v with
  | unknown => exact absurd rfl hv
  | delete | get | head | post | put => decide +kernel

/-- The name of a verb and a space are taken for that verb. -/
theorem acceptsMethod_name {b : Bytes} {v : Verb} (hb : 7 ≤ b.length) (hv : v ≠ .unknown)
    (p : Parser) : AcceptsMethod b v.toString p v := by
  have hruns := runs_method (b := b) (v := 0) (p := p) (i := 0) hv hb
  exact ⟨_, by rw [readHeaderLine, loop_end hruns], rfl⟩

theorem acceptsMethod_iff {b t : Bytes} {p : Parser} {v : Verb} (hb : b.length = 1024)
    (hup : ∀ c ∈ t, isUpper c = true) (hlen : t.length < 1024) :
    AcceptsMethod b t p v ↔ v ≠ .unknown ∧ t = v.toString := by
  constructor
  · rintro ⟨p', hread, hv⟩
    by_cases hname : ∃ w : Verb, w ≠ .unknown ∧ t = w.toString
    · obtain ⟨w, hw, rfl⟩ := hname
      obtain ⟨p'', hread', hverb⟩ := acceptsMethod_name (b := b) (by omega) hw p
      rw [hread] at hread'
      cases hread'
      obtain rfl : v = w := hv.symm.trans hverb
      exact ⟨hw, rfl⟩
    · have hinvalid := readHeaderLine_invalidMethod (b := b) (p := p) (c := byte ' ') []
        RequestLine.lead_nil hup (by omega) (by decide) (by intro _; decide)
        (fun w hw _ heq => hname ⟨w, hw, heq⟩)
      rw [List.nil_append, hread] at hinvalid
      cases hinvalid
  · rintro ⟨hv, rfl⟩
    exact acceptsMethod_name (by omega) hv p

/-- With a letter it knows, the recogniser takes its names and nothing else. -/
theorem methodOfString_known {t : Bytes} (h : RequestHeader) (hk : LetterKnown t) (v : Verb) :
    ((h.methodOfString t).1 = 0 ∧ (h.methodOfString t).2.method = v) ↔
      v ≠ .unknown ∧ t = v.toString := by
  have hletters := methodOfLetters_known.mpr hk
  unfold RequestHeader.methodOfString
  by_cases heq : (methodOfLetters t).toString = t
  · rw [if_neg (by simp [heq])]
    constructor
    · rintro ⟨-, rfl⟩
      exact ⟨hletters, heq.symm⟩
    · rintro ⟨hv, ht⟩
      exact ⟨rfl, Verb.toString_inj (heq.trans ht)⟩
  · rw [if_pos ⟨hletters, heq⟩]
    constructor
    · rintro ⟨h0, -⟩
      cases h0
    · rintro ⟨hv, rfl⟩
      exact absurd (congrArg Verb.toString (methodOfLetters_toString hv)) heq

/-- With another letter every string is taken, for the method `unknown`. -/
theorem methodOfString_unknown {t : Bytes} (h : RequestHeader) (hk : ¬ LetterKnown t) :
    (h.methodOfString t).1 = 0 ∧ (h.methodOfString t).2.method = .unknown := by
  have hletters : methodOfLetters t = .unknown := by
    by_contra hne
    exact hk (methodOfLetters_known.mp hne)
  simp [RequestHeader.methodOfString, hletters]

/-- The recognisers agree on the strings that start with a letter the `switch` has a case for. -/
theorem method_agrees_iff {b t : Bytes} (hb : b.length = 1024)
    (hup : ∀ c ∈ t, isUpper c = true) (hlen : t.length < 1024) (p : Parser) (h : RequestHeader) :
    MethodsAgree b t p h ↔ LetterKnown t := by
  constructor
  · intro hagree
    by_contra hk
    have htaken := methodOfString_unknown h hk
    obtain ⟨hv, -⟩ := (acceptsMethod_iff hb hup hlen).mp ((hagree.accepted .unknown).mp htaken)
    exact hv rfl
  · intro hk
    constructor
    · intro v
      rw [methodOfString_known h hk, acceptsMethod_iff hb hup hlen]
    · intro hnone
      have hletters := methodOfLetters_known.mpr hk
      have hdiff : (methodOfLetters t).toString ≠ t := (hnone _ hletters).symm
      rw [RequestHeader.methodOfString, if_pos ⟨hletters, hdiff⟩]
      exact ⟨rfl, rfl⟩

theorem patch_ok : (∀ c ∈ ascii "PATCH", isUpper c = true) ∧ LetterKnown (ascii "PATCH") := by
  decide +kernel

theorem method_agrees_patch :
    (∀ c ∈ ascii "PATCH", isUpper c = true) ∧
      MethodsAgree Stack.zero.buffer (ascii "PATCH") .init .init :=
  ⟨patch_ok.1, (method_agrees_iff List.length_replicate patch_ok.1 (by decide) .init .init).mpr
    (by decide)⟩

/-- `OPTIONS` is taken, with the method `unknown`. -/
theorem method_options_taken :
    ¬ ∀ (b t : Bytes) (p : Parser) (h : RequestHeader), b.length = 1024 → t ≠ [] →
      (∀ c ∈ t, isUpper c = true) → t.length < 1024 → MethodsAgree b t p h := by
  intro hall
  have hagree := hall Stack.zero.buffer (ascii "OPTIONS") .init .init List.length_replicate
    (by decide) (by decide +kernel) (by decide)
  have hrefused := hagree.refused (by intro v _; cases v <;> decide +kernel)
  exact absurd hrefused.1 (by decide +kernel)

end Http
end SimpleWeb
