import SimpleWeb.Http.LineCorrect
import SimpleWeb.Http.LineSound

/-!
# Http.LineLanguage

The request lines `read_header_line` reads to their end, byte for byte (`RawRequest`). The machine
is more liberal than `Http.Grammar`: bytes of a query that are not printable are dropped, bytes of
the protocol that are not usual too, a protocol token shorter than four bytes is not compared with
`HTTP`, and anything may stand around the digits of the version.

* `LineInv`      — what each state says about the bytes read so far (`lineRuns_inv`).
* `runs_rawUri`, `runs_rawProtocol`, `runs_rawRequest` — the machine reads what it spells, when the
  tokens fit the array.
-/

namespace SimpleWeb
namespace Http

open ScanLoop CArray

/-- Lead, method, and the spaces in front of the URI. -/
structure RawStart where
  lead : Bytes
  method : Verb
  gap : Nat
  lead_ok : ∀ c ∈ lead, c = CR ∨ c = LF
  method_ok : method ≠ .unknown

/-- A query, as it is read: anything up to the space that ends it. -/
structure RawQuery where
  bytes : Bytes
  space_ok : byte ' ' ∉ bytes
  nul_ok : 0 ∉ bytes

structure RawUri where
  start : RawStart
  target : Target
  query : Option RawQuery

/-- The token of the protocol state is not compared before it has four bytes. -/
def SpeaksHttp (h : Bytes) : Prop :=
  (h.filter usual).length < 4 ∨ (h.filter usual).take 4 = ascii "HTTP"

structure RawProtocol where
  uri : RawUri
  http : Bytes
  slash_ok : byte '/' ∉ http
  speaks : SpeaksHttp http

/-- No prefix of the bytes brings the version over the bound. -/
def VersionWithin (max v : UInt32) (bs : Bytes) : Prop :=
  ∀ pre, pre <+: bs → pre.foldl versionDigit v ≤ max

instance (max v : UInt32) (bs : Bytes) : Decidable (VersionWithin max v bs) :=
  decidable_of_iff (∀ pre ∈ bs.inits, pre.foldl versionDigit v ≤ max) (by simp [VersionWithin])

structure RawRequest where
  protocol : RawProtocol
  major : Bytes
  minor : Bytes
  major_ok : ∀ c ∈ major, usual c = true ∨ c = byte ' '
  minor_ok : LF ∉ minor
  major_within : VersionWithin 1 0 major
  minor_within : VersionWithin 11 (major.foldl versionDigit 0) minor

def RawStart.bytes (r : RawStart) : Bytes :=
  r.lead ++ (r.method.toString ++ [byte ' ']) ++ spaces r.gap

/-- What the machine stores of a query -/
def RawQuery.stored (q : RawQuery) : Bytes := q.bytes.filter isprint ++ [byte ' ']

def rawQueryBytes : Option RawQuery → Bytes
  | none => []
  | some q => byte '?' :: q.bytes

def RawUri.bytes (u : RawUri) : Bytes :=
  u.start.bytes ++ u.target.bytes ++ (rawQueryBytes u.query ++ [byte ' '])

def RawProtocol.bytes (r : RawProtocol) : Bytes := r.uri.bytes ++ (r.http ++ [byte '/'])

def RawRequest.bytes (r : RawRequest) : Bytes :=
  r.protocol.bytes ++ (r.major ++ [byte '.']) ++ (r.minor ++ [LF])

def RawRequest.version (r : RawRequest) : UInt32 :=
  r.minor.foldl versionDigit (r.major.foldl versionDigit 0)

/-- The parser behind a piece, its version apart. -/
def RawStart.apply (r : RawStart) (p : Parser) : Parser :=
  { p with message := { p.message with method := r.method } }

def Parser.setTarget (p : Parser) (t : Target) : Parser :=
  { p with message := { p.message with target := t.bytes } }

def RawUri.apply (u : RawUri) (p : Parser) : Parser :=
  { (u.start.apply p).setTarget u.target with
    querystr := (u.query.map RawQuery.stored).or p.querystr }

def RawRequest.apply (r : RawRequest) (p : Parser) : Parser :=
  { r.protocol.uri.apply p with
    message := { (r.protocol.uri.apply p).message with version := r.version } }

/-- Every token fits an array of `n` bytes, its terminator included. -/
structure RawUri.Fits (u : RawUri) (n : Nat) : Prop where
  target : u.target.bytes.length < n
  query : ∀ q ∈ u.query, q.stored.length < n

structure RawProtocol.Fits (r : RawProtocol) (n : Nat) : Prop where
  uri : r.uri.Fits n
  http : (r.http.filter usual).length ≤ n

/-- What the state says about the bytes read so far, with an array of `n` bytes. -/
inductive LineInv (n : Nat) (p : Parser) : Bytes → LineVars → Prop where
  | start {lead b : Bytes} (hlead : ∀ c ∈ lead, c = CR ∨ c = LF) :
      LineInv n p lead ⟨.start, b, 0, 0, false, p⟩
  | method {lead m b : Bytes} {i : Nat} (hlead : ∀ c ∈ lead, c = CR ∨ c = LF)
      (hm : ∀ c ∈ m, isUpper c = true) (hb : Holds b i m) :
      LineInv n p (lead ++ m) ⟨.method, b, i, 0, false, p⟩
  | gap {r : RawStart} {b : Bytes} :
      LineInv n p r.bytes ⟨.spacesBeforeUri, b, 0, 0, false, r.apply p⟩
  | uri {r : RawStart} {t : Target} {b : Bytes} {i : Nat} (hb : Holds b i t.bytes) :
      LineInv n p (r.bytes ++ t.bytes) ⟨.afterSlashInUri, b, i, 0, false, r.apply p⟩
  | params {r : RawStart} {t : Target} {q : RawQuery} {b : Bytes} {i : Nat}
      (ht : t.bytes.length < n) (hb : Holds b i (q.bytes.filter isprint)) :
      LineInv n p (r.bytes ++ t.bytes ++ rawQueryBytes (some q))
        ⟨.params, b, i, 0, false, (r.apply p).setTarget t⟩
  | http {u : RawUri} {h b : Bytes} {i : Nat} (hu : u.Fits n) (hslash : byte '/' ∉ h)
      (hspeaks : SpeaksHttp h) (hb : Holds b i (h.filter usual)) :
      LineInv n p (u.bytes ++ h) ⟨.http, b, i, 0, false, u.apply p⟩
  | major {r : RawProtocol} {m b : Bytes} {i : Nat} (hr : r.Fits n)
      (hm : ∀ c ∈ m, usual c = true ∨ c = byte ' ') (hv : VersionWithin 1 0 m) :
      LineInv n p (r.bytes ++ m)
        ⟨.httpMajor, b, i, m.foldl versionDigit 0, false, r.uri.apply p⟩
  | minor {r : RawProtocol} {m k b : Bytes} {i : Nat} (hr : r.Fits n)
      (hm : ∀ c ∈ m, usual c = true ∨ c = byte ' ') (hk : LF ∉ k) (hv : VersionWithin 1 0 m)
      (hv' : VersionWithin 11 (m.foldl versionDigit 0) k) :
      LineInv n p (r.bytes ++ (m ++ [byte '.']) ++ k)
        ⟨.httpMinor, b, i, k.foldl versionDigit (m.foldl versionDigit 0), false, r.uri.apply p⟩
  | line {r : RawRequest} {b : Bytes} {i : Nat} (hr : r.protocol.Fits n) :
      LineInv n p r.bytes ⟨.httpMinor, b, i, r.version, true, r.protocol.uri.apply p⟩

theorem RawQuery.nul_notMem (q : RawQuery) : 0 ∉ q.stored := by
  intro h
  rcases List.mem_append.mp h with h | h
  · exact q.nul_ok (List.mem_of_mem_filter h)
  · exact absurd h (by decide)

/-! ## The method -/

theorem strncmpEq_iff {t : Bytes} (h0 : 0 ∉ t) :
    ∀ b : Bytes, strncmpEq b t t.length = true ↔ t <+: b := by
  induction t with
  | nil =>
    intro b
    simp [strncmpEq]
  | cons c t ih =>
    intro b
    simp only [List.mem_cons, not_or] at h0
    obtain ⟨hc, ht⟩ := h0
    cases b with
    | nil => simp [strncmpEq]
    | cons d b =>
      simp only [List.length_cons, strncmpEq, List.cons_prefix_cons]
      by_cases hdc : d = c
      · subst hdc
        simp [ih ht b, Ne.symm hc]
      · simp [hdc, Ne.symm hdc]

theorem strncmpEq_verb {b : Bytes} {v : Verb} {n : Nat} (hn : v.toString.length = n)
    (h : strncmpEq b v.toString n = true) : v.toString <+: b := by
  subst hn
  refine (strncmpEq_iff ?_ b).mp h
  cases v <;> decide +kernel

theorem methodCase6_sound {b : Bytes} {v : Verb} (h : methodCase6 b = some v) :
    v ≠ .unknown ∧ v.toString <+: b ∧ 6 ≤ v.toString.length := by
  unfold methodCase6 at h
  split at h
  · rename_i hcmp
    cases h
    exact ⟨by simp, strncmpEq_verb rfl hcmp, by decide⟩
  · cases h

theorem methodCase4_sound {b : Bytes} {v : Verb} (h : methodCase4 b = some v) :
    v ≠ .unknown ∧ v.toString <+: b ∧ 4 ≤ v.toString.length := by
  unfold methodCase4 at h
  split at h
  · rename_i hcmp
    cases h
    exact ⟨by simp, strncmpEq_verb rfl hcmp, by decide⟩
  · split at h
    · rename_i hcmp
      cases h
      exact ⟨by simp, strncmpEq_verb rfl hcmp, by decide⟩
    · obtain ⟨hv, hpre, hlen⟩ := methodCase6_sound h
      exact ⟨hv, hpre, by omega⟩

theorem methodCase3_sound {b : Bytes} {v : Verb} (h : methodCase3 b = some v) :
    v ≠ .unknown ∧ v.toString <+: b ∧ 3 ≤ v.toString.length := by
  unfold methodCase3 at h
  split at h
  · rename_i hcmp
    cases h
    exact ⟨by simp, strncmpEq_verb rfl hcmp, by decide⟩
  · split at h
    · rename_i hcmp
      cases h
      exact ⟨by simp, strncmpEq_verb rfl hcmp, by decide⟩
    · obtain ⟨hv, hpre, hlen⟩ := methodCase4_sound h
      exact ⟨hv, hpre, by omega⟩

/-- The verb the switch finds is at the start of the array and not shorter than the token. -/
theorem methodSwitch_sound {b : Bytes} {v : Verb} {i : Nat} (h : methodSwitch b i = some v) :
    v ≠ .unknown ∧ v.toString <+: b ∧ i ≤ v.toString.length := by
  unfold methodSwitch at h
  split at h
  · exact methodCase3_sound h
  · exact methodCase4_sound h
  · exact methodCase6_sound h
  · cases h

/-- So it is the token: the space behind the token is no part of a verb. -/
theorem method_eq {b m : Bytes} {v : Verb} {i : Nat} (hb : Holds b (i + 1) (m ++ [byte ' ']))
    (h : methodSwitch b i = some v) : v ≠ .unknown ∧ m = v.toString := by
  obtain ⟨hv, hpre, hle⟩ := methodSwitch_sound h
  have hlen : i = m.length := by simpa using hb.len
  refine ⟨hv, ?_⟩
  have hm : m <+: b := (List.prefix_append _ _).trans hb.pre
  have hmv : m <+: v.toString := List.prefix_of_prefix_length_le hm hpre (by omega)
  obtain ⟨r, hr⟩ := hmv
  cases r with
  | nil => simpa using hr
  | cons c r =>
    have hmc : m ++ [c] <+: b := by
      refine List.IsPrefix.trans ?_ hpre
      rw [← hr]
      exact ⟨r, by simp⟩
    have heq : m ++ [c] = m ++ [byte ' '] :=
      (List.prefix_of_prefix_length_le hmc hb.pre (by simp)).eq_of_length (by simp)
    have hc : c = byte ' ' := by simpa using heq
    have hmem : c ∈ v.toString := by simp [← hr]
    have hup := Verb.toString_upper c hmem
    rw [hc] at hup
    exact absurd hup (by decide)

/-! ## One pass -/

/-- Storing one more byte of the token keeps what was compared with `HTTP`. -/
theorem speaksHttp_usual {h b b' : Bytes} {i : Nat} {c : UInt8} (hs : SpeaksHttp h)
    (hc : usual c = true) (hb : Holds b i (h.filter usual)) (hst : store b i c = some b')
    (hcmp : i = 3 → strncmpEq b' (ascii "HTTP") 4 = true) : SpeaksHttp (h ++ [c]) := by
  have hf : (h ++ [c]).filter usual = h.filter usual ++ [c] := by simp [hc]
  have hlen := hb.len
  unfold SpeaksHttp at *
  rw [hf]
  rcases hs with hlt | htake
  · by_cases h3 : i = 3
    · right
      have hpre : ascii "HTTP" <+: b' :=
        (strncmpEq_iff (t := ascii "HTTP") (by decide) b').mp (hcmp h3)
      have htok := (hb.store hst).pre
      have heq : ascii "HTTP" = h.filter usual ++ [c] :=
        (List.prefix_of_prefix_length_le hpre htok (by
          simp [ascii]; omega)).eq_of_length (by simp [ascii]; omega)
      rw [← heq]
      rfl
    · left
      simp
      omega
  · right
    have h4 : 4 ≤ (h.filter usual).length := by
      have := congrArg List.length htake
      simp [ascii] at this
      omega
    rw [List.take_append_of_le_length h4]
    exact htake

theorem speaksHttp_skip {h : Bytes} {c : UInt8} (hs : SpeaksHttp h) (hc : usual c = false) :
    SpeaksHttp (h ++ [c]) := by
  have hf : (h ++ [c]).filter usual = h.filter usual := by simp [hc]
  unfold SpeaksHttp at *
  rw [hf]
  exact hs

theorem VersionWithin.nil {max v : UInt32} (h : v ≤ max) : VersionWithin max v [] := by
  intro pre hpre
  rw [List.prefix_nil.mp hpre]
  exact h

theorem VersionWithin.push {max v : UInt32} {bs : Bytes} {c : UInt8} (h : VersionWithin max v bs)
    (hc : (bs ++ [c]).foldl versionDigit v ≤ max) : VersionWithin max v (bs ++ [c]) := by
  intro pre hpre
  rcases List.prefix_concat_iff.mp hpre with rfl | hpre
  · exact hc
  · exact h pre hpre

theorem VersionWithin.le {max v : UInt32} {bs : Bytes} (h : VersionWithin max v bs) :
    bs.foldl versionDigit v ≤ max := h bs (List.prefix_refl _)

/-- A byte that is not usual is no digit. -/
theorem versionDigit_skip (v : UInt32) {c : UInt8} (hc : usual c = false) :
    versionDigit v c = v := by
  have hdigit : ∀ c : UInt8, usual c = false → ¬ (byte '0' ≤ c ∧ c ≤ byte '9') := by
    decide +kernel
  exact if_neg (hdigit c hc)

theorem versionDigit_space (v : UInt32) : versionDigit v (byte ' ') = v :=
  versionDigit_skip v (by simp)

/-- One more byte of a query; it is stored if it prints. -/
def RawQuery.push (q : RawQuery) (c : UInt8) (hne : c ≠ byte ' ') (h0 : c ≠ 0) : RawQuery :=
  ⟨q.bytes ++ [c], by simp [q.space_ok, Ne.symm hne], by simp [q.nul_ok, Ne.symm h0]⟩

theorem RawQuery.push_bytes (q : RawQuery) {c : UInt8} (hne : c ≠ byte ' ') (h0 : c ≠ 0) :
    rawQueryBytes (some (q.push c hne h0)) = rawQueryBytes (some q) ++ [c] := by
  simp [rawQueryBytes, RawQuery.push]

section Step

variable {n : Nat} {p : Parser} {b : Bytes} {i : Nat} {c : UInt8} {s' : LineVars}

/-- Behind a target or a query the protocol starts. -/
theorem LineInv.startHttp {u : RawUri} (hu : u.Fits n) :
    LineInv n p u.bytes ⟨.http, b, 0, 0, false, u.apply p⟩ := by
  have h : LineInv n p (u.bytes ++ []) ⟨.http, b, 0, 0, false, u.apply p⟩ :=
    .http hu (by simp) (.inl (by simp)) (.nil _)
  simpa using h

theorem lineInv_start {lead : Bytes} (hlead : ∀ c ∈ lead, c = CR ∨ c = LF)
    (h : LineStep ⟨.start, b, 0, 0, false, p⟩ c s') : LineInv n p (lead ++ [c]) s' := by
  cases h with
  | lead _ hc => exact .start (List.forall_mem_append.mpr ⟨hlead, List.forall_mem_singleton.mpr hc⟩)
  | first _ hc hst => exact .method hlead (by simpa using hc) ((Holds.nil b).store hst)
  | lineEnd hs | idle hs => simp at hs
  | _ => contradiction

theorem lineInv_method {lead m : Bytes} (hlead : ∀ c ∈ lead, c = CR ∨ c = LF)
    (hm : ∀ c ∈ m, isUpper c = true) (hb : Holds b i m)
    (h : LineStep ⟨.method, b, i, 0, false, p⟩ c s') : LineInv n p (lead ++ m ++ [c]) s' := by
  cases h with
  | letter _ hc hst =>
    rw [List.append_assoc]
    exact .method hlead (List.forall_mem_append.mpr ⟨hm, List.forall_mem_singleton.mpr hc⟩)
      (hb.store hst)
  | @method _ v _ hst hv =>
    obtain ⟨hne, rfl⟩ := method_eq (hb.store hst) hv
    let r : RawStart := ⟨lead, v, 0, hlead, hne⟩
    have hr : lead ++ v.toString ++ [byte ' '] = r.bytes := by
      simp [RawStart.bytes, r, spaces]
    rw [hr]
    exact .gap
  | lineEnd hs | idle hs => simp at hs
  | _ => contradiction

theorem lineInv_gap {r : RawStart}
    (h : LineStep ⟨.spacesBeforeUri, b, 0, 0, false, r.apply p⟩ c s') :
    LineInv n p (r.bytes ++ [c]) s' := by
  cases h with
  | gap =>
    let r' : RawStart := { r with gap := r.gap + 1 }
    have hr : r.bytes ++ [byte ' '] = r'.bytes := by
      simp [RawStart.bytes, r', spaces, List.replicate_succ']
    rw [hr]
    exact .gap (r := r')
  | slash _ hst =>
    have hb := (Holds.nil b).store hst
    exact .uri (t := ⟨[], by simp⟩) (by simpa [Target.bytes] using hb)
  | lineEnd hs | idle hs => simp at hs
  | _ => contradiction

/-- The byte behind a target ends the URI, or opens a query. -/
theorem lineInv_uriEnd {r : RawStart} {t : Target} {q : LineState} (ht : t.bytes.length < n)
    (hq : (c = byte ' ' ∧ q = .http) ∨ (c = byte '?' ∧ q = .params)) :
    LineInv n p (r.bytes ++ t.bytes ++ [c]) ⟨q, b, 0, 0, false, (r.apply p).setTarget t⟩ := by
  rcases hq with ⟨rfl, rfl⟩ | ⟨rfl, rfl⟩
  · let u : RawUri := ⟨r, t, none⟩
    have hu : r.bytes ++ t.bytes ++ [byte ' '] = u.bytes := by
      simp [RawUri.bytes, u, rawQueryBytes]
    rw [hu]
    exact .startHttp (u := u) ⟨ht, by simp [u]⟩
  · let q : RawQuery := ⟨[], by simp, by simp⟩
    have hinv : LineInv n p (r.bytes ++ t.bytes ++ rawQueryBytes (some q))
        ⟨.params, b, 0, 0, false, (r.apply p).setTarget t⟩ :=
      .params ht (.nil _)
    simpa [rawQueryBytes, q] using hinv

theorem lineInv_uri {r : RawStart} {t : Target} (hn : b.length = n) (hb : Holds b i t.bytes)
    (h : LineStep ⟨.afterSlashInUri, b, i, 0, false, r.apply p⟩ c s') :
    LineInv n p (r.bytes ++ t.bytes ++ [c]) s' := by
  cases h with
  | uri _ hc hst =>
    have ht : r.bytes ++ t.bytes ++ [c] = r.bytes ++ (t.push c hc).bytes := by
      simp [Target.bytes, Target.push]
    rw [ht]
    exact .uri (by simpa [Target.bytes, Target.push] using hb.store hst)
  | @uriEnd _ b' _ _ hq hst =>
    have hstr : cstr b' = t.bytes := hb.cstr hst t.nul_notMem
    have ht : t.bytes.length < n := by
      rw [← hn, ← hb.len]
      exact lt_of_store hst
    have hinv := lineInv_uriEnd (r := r) (b := b') (p := p) ht hq
    simpa [LineVars.setTarget, Parser.setTarget, hstr] using hinv
  | lineEnd hs | idle hs => simp at hs
  | _ => contradiction

theorem lineInv_params {r : RawStart} {t : Target} {q : RawQuery} (hn : b.length = n)
    (ht : t.bytes.length < n) (hb : Holds b i (q.bytes.filter isprint))
    (h : LineStep ⟨.params, b, i, 0, false, (r.apply p).setTarget t⟩ c s') :
    LineInv n p (r.bytes ++ t.bytes ++ rawQueryBytes (some q) ++ [c]) s' := by
  cases h with
  | param _ hc hst =>
    obtain ⟨hp, h0, hne⟩ := isQueryByte_ne hc
    rw [List.append_assoc, ← q.push_bytes hne h0]
    exact .params ht (by simpa [RawQuery.push, hp] using hb.store hst)
  | paramSkip _ hp h0 =>
    have hne : c ≠ byte ' ' := by
      rintro rfl
      simp at hp
    rw [List.append_assoc, ← q.push_bytes hne h0]
    exact .params ht (by simpa [RawQuery.push, hp] using hb)
  | @paramsEnd _ b' _ hst hst' =>
    have hstr := (hb.store hst).cstr hst' q.nul_notMem
    have hq : q.stored.length < n := by
      rw [← hn, ← store_length hst, RawQuery.stored, ← (hb.store hst).len]
      exact lt_of_store hst'
    let u : RawUri := ⟨r, t, some q⟩
    have hu : r.bytes ++ t.bytes ++ rawQueryBytes (some q) ++ [byte ' '] = u.bytes := by
      simp [RawUri.bytes, u]
    have hinv : LineInv n p u.bytes ⟨.http, b', 0, 0, false, u.apply p⟩ :=
      .startHttp ⟨ht, by simpa [u] using hq⟩
    rw [hu]
    simpa [LineVars.setQuerystr, hstr, RawUri.apply, RawQuery.stored, u] using hinv
  | lineEnd hs | idle hs => simp at hs
  | _ => contradiction

theorem lineInv_http {u : RawUri} {h : Bytes} (hn : b.length = n) (hu : u.Fits n)
    (hslash : byte '/' ∉ h) (hspeaks : SpeaksHttp h) (hb : Holds b i (h.filter usual))
    (hstep : LineStep ⟨.http, b, i, 0, false, u.apply p⟩ c s') :
    LineInv n p (u.bytes ++ h ++ [c]) s' := by
  cases hstep with
  | http _ hc hst hcmp =>
    have hne : byte '/' ≠ c := by
      rintro rfl
      simp at hc
    rw [List.append_assoc]
    exact .http hu (by simp [hslash, hne]) (speaksHttp_usual hspeaks hc hb hst hcmp)
      (by simpa [hc] using hb.store hst)
  | httpSkip _ hc hne =>
    rw [List.append_assoc]
    exact .http hu (by simp [hslash, Ne.symm hne]) (speaksHttp_skip hspeaks hc)
      (by simpa [hc] using hb)
  | httpSlash =>
    let r : RawProtocol := ⟨u, h, hslash, hspeaks⟩
    have hr : u.bytes ++ h ++ [byte '/'] = r.bytes ++ [] := by simp [RawProtocol.bytes, r]
    have hfit : (h.filter usual).length ≤ n := by
      rw [← hn]
      exact hb.pre.length_le
    rw [hr]
    exact .major (r := r) (m := []) ⟨hu, hfit⟩ (by simp) (.nil (by decide))
  | lineEnd hs | idle hs => simp at hs
  | _ => contradiction

/-- One more byte of the major version. -/
theorem LineInv.pushMajor {r : RawProtocol} {m : Bytes} (hr : r.Fits n)
    (hm : ∀ c ∈ m, usual c = true ∨ c = byte ' ') (hv : VersionWithin 1 0 m)
    (hc : usual c = true ∨ c = byte ' ') (hle : versionDigit (m.foldl versionDigit 0) c ≤ 1) :
    LineInv n p (r.bytes ++ m ++ [c]) ⟨.httpMajor, b, i,
      versionDigit (m.foldl versionDigit 0) c, false, r.uri.apply p⟩ := by
  have hfold : versionDigit (m.foldl versionDigit 0) c = (m ++ [c]).foldl versionDigit 0 := by
    simp
  rw [hfold] at hle ⊢
  rw [List.append_assoc]
  exact .major hr (List.forall_mem_append.mpr ⟨hm, List.forall_mem_singleton.mpr hc⟩)
    (hv.push hle)

theorem lineInv_major {r : RawProtocol} {m : Bytes} (hr : r.Fits n)
    (hm : ∀ c ∈ m, usual c = true ∨ c = byte ' ') (hv : VersionWithin 1 0 m)
    (h : LineStep ⟨.httpMajor, b, i, m.foldl versionDigit 0, false, r.uri.apply p⟩ c s') :
    LineInv n p (r.bytes ++ m ++ [c]) s' := by
  cases h with
  | major _ hc hle => exact .pushMajor hr hm hv (.inl hc) hle
  | majorSpace =>
    have hspace := versionDigit_space (m.foldl versionDigit 0)
    have hinv := LineInv.pushMajor (b := b) (i := i) (p := p) hr hm hv (.inr rfl)
      (hspace.symm ▸ hv.le)
    rwa [hspace] at hinv
  | dot =>
    have hle : m.foldl versionDigit 0 ≤ 11 := UInt32.le_trans hv.le (by decide)
    have hl : r.bytes ++ m ++ [byte '.'] = r.bytes ++ (m ++ [byte '.']) ++ [] := by simp
    rw [hl]
    exact .minor (k := []) hr hm (by simp) hv (.nil hle)
  | lineEnd hs | idle hs => simp at hs
  | _ => contradiction

/-- One more byte of the minor version. -/
theorem LineInv.pushMinor {r : RawProtocol} {m k : Bytes} (hr : r.Fits n)
    (hm : ∀ c ∈ m, usual c = true ∨ c = byte ' ') (hk : LF ∉ k) (hv : VersionWithin 1 0 m)
    (hv' : VersionWithin 11 (m.foldl versionDigit 0) k) (hc : c ≠ LF)
    (hle : versionDigit (k.foldl versionDigit (m.foldl versionDigit 0)) c ≤ 11) :
    LineInv n p (r.bytes ++ (m ++ [byte '.']) ++ k ++ [c]) ⟨.httpMinor, b, i,
      versionDigit (k.foldl versionDigit (m.foldl versionDigit 0)) c, false, r.uri.apply p⟩ := by
  have hfold : versionDigit (k.foldl versionDigit (m.foldl versionDigit 0)) c =
      (k ++ [c]).foldl versionDigit (m.foldl versionDigit 0) := by
    simp
  rw [hfold] at hle ⊢
  rw [List.append_assoc]
  exact .minor hr hm (by simp [hk, Ne.symm hc]) hv (hv'.push hle)

theorem lineInv_minor {r : RawProtocol} {m k : Bytes} (hr : r.Fits n)
    (hm : ∀ c ∈ m, usual c = true ∨ c = byte ' ') (hk : LF ∉ k) (hv : VersionWithin 1 0 m)
    (hv' : VersionWithin 11 (m.foldl versionDigit 0) k)
    (h : LineStep ⟨.httpMinor, b, i, k.foldl versionDigit (m.foldl versionDigit 0), false,
      r.uri.apply p⟩ c s') :
    LineInv n p (r.bytes ++ (m ++ [byte '.']) ++ k ++ [c]) s' := by
  cases h with
  | minor _ hc hle =>
    have hne : c ≠ LF := by
      rintro rfl
      simp at hc
    exact .pushMinor hr hm hk hv hv' hne hle
  | minorSkip _ hc hne =>
    have hskip := versionDigit_skip (k.foldl versionDigit (m.foldl versionDigit 0)) hc
    have hinv := LineInv.pushMinor (b := b) (i := i) (p := p) hr hm hk hv hv' hne
      (hskip.symm ▸ hv'.le)
    rwa [hskip] at hinv
  | lineEnd =>
    let l : RawRequest := ⟨r, m, k, hm, hk, hv, hv'⟩
    have hl : r.bytes ++ (m ++ [byte '.']) ++ k ++ [LF] = l.bytes := by
      simp [RawRequest.bytes, l]
    rw [hl]
    exact .line (r := l) hr
  | idle hs => simp at hs
  | _ => contradiction

end Step

/-- Every pass that goes on keeps the invariant. -/
theorem lineInv_step {n : Nat} {p : Parser} {bs : Bytes} {s s' : LineVars} {c : UInt8}
    (hg : lineGuard s = true) (hn : s.buffer.length = n) (hi : LineInv n p bs s)
    (h : LineStep s c s') : LineInv n p (bs ++ [c]) s' := by
  cases hi with
  | start hlead => exact lineInv_start hlead h
  | method hlead hm hb => exact lineInv_method hlead hm hb h
  | gap => exact lineInv_gap h
  | uri hb => exact lineInv_uri hn hb h
  | params ht hb => exact lineInv_params hn ht hb h
  | http hu hslash hspeaks hb => exact lineInv_http hn hu hslash hspeaks hb h
  | major hr hm hv => exact lineInv_major hr hm hv h
  | minor hr hm hk hv hv' => exact lineInv_minor hr hm hk hv hv' h
  | line => cases hg

theorem lineStep_length {s s' : LineVars} {c : UInt8} (h : LineStep s c s') :
    s'.buffer.length = s.buffer.length := by
  cases h with
  | first _ _ hst => exact store_length hst
  | letter _ _ hst => exact store_length hst
  | method _ hst _ => exact store_length hst
  | slash _ hst => exact store_length hst
  | uri _ _ hst => exact store_length hst
  | uriEnd _ _ hst => exact store_length hst
  | param _ _ hst => exact store_length hst
  | paramsEnd _ hst hst' => exact (store_length hst').trans (store_length hst)
  | http _ _ hst _ => exact store_length hst
  | lead | gap | paramSkip | httpSkip | httpSlash | major | majorSpace | dot | minor | minorSkip
  | lineEnd | idle => rfl

/-- Whatever the machine has read and gone on with has the shape its state says. -/
theorem lineRuns_inv {b bs : Bytes} {p : Parser} {s : LineVars}
    (h : LineRuns ⟨.start, b, 0, 0, false, p⟩ bs s) :
    s.buffer.length = b.length ∧ LineInv b.length p bs s := by
  have hinv := h.invariant
    (I := fun bs s => s.buffer.length = b.length ∧ LineInv b.length p bs s)
    (fun _ _ _ _ hg hi hb => by
      have hstep := lineStep_of_next hb
      exact ⟨(lineStep_length hstep).trans hi.1, lineInv_step hg hi.1 hi.2 hstep⟩)
    [] ⟨rfl, .start (by simp)⟩
  simpa using hinv

/-! ## The pieces are read -/

section Pieces

variable {b : Bytes} {v : UInt32} {p : Parser}

theorem runs_rawStart (r : RawStart) (hb : 7 ≤ b.length) :
    LineRuns ⟨.start, b, 0, v, false, p⟩ r.bytes
      ⟨.spacesBeforeUri, fill b (r.method.toString ++ [byte ' ']), 0, v, false, r.apply p⟩ := by
  have hlead := runs_lead (b := b) (v := v) (p := p) (i := 0) r.lead_ok
  have hmethod := runs_method (v := v) (p := p) (i := 0) r.method_ok hb
  exact (hlead.append hmethod).append (runs_spaces r.gap rfl)

theorem length_methodFill (r : RawStart) (hb : 7 ≤ b.length) :
    (fill b (r.method.toString ++ [byte ' '])).length = b.length := by
  have hlen := Verb.toString_length r.method_ok
  exact length_fill (by simp; omega)

/-- The bytes of a target fit up to the end of the array, its terminator apart. -/
theorem runs_rawTarget (t : Target) (hb : t.bytes.length ≤ b.length) :
    LineRuns ⟨.spacesBeforeUri, b, 0, v, false, p⟩ t.bytes
      ⟨.afterSlashInUri, fill b t.bytes, t.bytes.length, v, false, p⟩ := by
  have hpos : 0 < b.length := by
    have : 0 < t.bytes.length := by simp [Target.bytes]
    omega
  have hslash : LineRuns ⟨.spacesBeforeUri, b, 0, v, false, p⟩ [byte '/'] _ :=
    .single rfl (lineBody_slash hpos)
  have hmore := runs_collect (b := b) (v := v) (p := p)
    (fun _ c hc hl => lineBody_uri (t.path_ok c hc) hl) [byte '/'] hb
  exact hslash.append hmore

theorem lineBody_params_skip {i : Nat} {c : UInt8} (hp : isprint c = false) (h0 : c ≠ 0) :
    lineBody c ⟨.params, b, i, v, false, p⟩ = .next ⟨.params, b, i, v, false, p⟩ := by
  have hne : c ≠ byte ' ' := by
    rintro rfl
    simp at hp
  simp [lineBody, hp, h0, hne]

theorem runs_rawQuery (q : RawQuery) (hl : (q.bytes.filter isprint).length ≤ b.length) :
    LineRuns ⟨.params, b, 0, v, false, p⟩ q.bytes
      ⟨.params, fill b (q.bytes.filter isprint), (q.bytes.filter isprint).length, v, false, p⟩ := by
  refine Runs.of_prefixes (g := fun pre => holding .params b v p (pre.filter isprint)) q.bytes
    (fun _ => rfl) ?_
  intro pre c hpre
  have hmem : c ∈ q.bytes := hpre.subset (by simp)
  have hne : c ≠ byte ' ' := fun h => q.space_ok (h ▸ hmem)
  have h0 : c ≠ 0 := fun h => q.nul_ok (h ▸ hmem)
  by_cases hp : isprint c = true
  · have hlt : (pre.filter isprint).length < b.length := by
      have hle := (hpre.sublist.filter isprint).length_le
      simp [hp] at hle
      omega
    have hstep := lineBody_params (v := v) (p := p) (c := c) (by simp [isQueryByte, hp, hne]) hlt
    simpa [holding, hp] using hstep
  · have hskip := lineBody_params_skip (b := fill b (pre.filter isprint)) (v := v) (p := p)
      (i := (pre.filter isprint).length) (by simpa using hp) h0
    simpa [holding, hp] using hskip

theorem lineBody_http_skip {t : Bytes} {c : UInt8} (hu : usual c = false) (hne : c ≠ byte '/')
    (h4 : t.length ≠ 4 ∨ t = ascii "HTTP") :
    lineBody c ⟨.http, fill b t, t.length, v, false, p⟩ =
      .next ⟨.http, fill b t, t.length, v, false, p⟩ := by
  have hcmp : ¬ (t.length = 4 ∧ (!strncmpEq (fill b t) (ascii "HTTP") 4) = true) := by
    rintro ⟨hlen, hno⟩
    rcases h4 with h | h
    · exact h hlen
    · rw [h] at hno
      simp [ascii, byte, fill, strncmpEq] at hno
  simp [lineBody, hu, hne]
  simpa using hcmp

theorem lineBody_http_end {t : Bytes} (h4 : t.length ≠ 4 ∨ t = ascii "HTTP") :
    lineBody (byte '/') ⟨.http, fill b t, t.length, v, false, p⟩ =
      .next ⟨.httpMajor, fill b t, t.length, v, false, p⟩ := by
  have hcmp : ¬ (t.length = 4 ∧ (!strncmpEq (fill b t) (ascii "HTTP") 4) = true) := by
    rintro ⟨hlen, hno⟩
    rcases h4 with h | h
    · exact h hlen
    · rw [h] at hno
      simp [ascii, byte, fill, strncmpEq] at hno
  simp [lineBody]
  simpa using hcmp

theorem SpeaksHttp.of_prefix {h h' : Bytes} (hs : SpeaksHttp h) (hpre : h' <+: h) :
    SpeaksHttp h' := by
  obtain ⟨r, rfl⟩ := hpre
  unfold SpeaksHttp at *
  rw [List.filter_append] at hs
  rcases Nat.lt_or_ge (h'.filter usual).length 4 with hlt | hge
  · exact .inl hlt
  · rcases hs with hs | hs
    · simp at hs
      omega
    · rw [List.take_append_of_le_length hge] at hs
      exact .inr hs

theorem SpeaksHttp.eq_of_length {h : Bytes} (hs : SpeaksHttp h)
    (hlen : (h.filter usual).length = 4) : h.filter usual = ascii "HTTP" := by
  rcases hs with hs | hs
  · omega
  · rwa [List.take_of_length_le (by omega)] at hs

theorem SpeaksHttp.compared {h : Bytes} (hs : SpeaksHttp h) :
    (h.filter usual).length ≠ 4 ∨ h.filter usual = ascii "HTTP" := by
  by_cases hlen : (h.filter usual).length = 4
  · exact .inr (hs.eq_of_length hlen)
  · exact .inl hlen

theorem runs_rawHttp {h : Bytes} (hslash : byte '/' ∉ h) (hs : SpeaksHttp h)
    (hl : (h.filter usual).length ≤ b.length) :
    LineRuns ⟨.http, b, 0, v, false, p⟩ h
      ⟨.http, fill b (h.filter usual), (h.filter usual).length, v, false, p⟩ := by
  refine Runs.of_prefixes (g := fun pre => holding .http b v p (pre.filter usual)) h
    (fun _ => rfl) ?_
  intro pre c hpre
  have hspeaks := hs.of_prefix hpre
  by_cases hu : usual c = true
  · have hf : (pre ++ [c]).filter usual = pre.filter usual ++ [c] := by simp [hu]
    have hlt : (pre.filter usual).length < b.length := by
      have hle := (hpre.sublist.filter usual).length_le
      simp [hu] at hle
      omega
    have h4 : (pre.filter usual).length ≠ 3 ∨ pre.filter usual ++ [c] = ascii "HTTP" := by
      rcases hspeaks.compared with hne | heq
      · rw [hf] at hne
        exact .inl (by simpa using hne)
      · exact .inr (hf ▸ heq)
    have hstep := lineBody_http (v := v) (p := p) hu hlt h4
    rw [← hf] at hstep
    exact hstep
  · have hf : (pre ++ [c]).filter usual = pre.filter usual := by simp [hu]
    have hne : c ≠ byte '/' := fun heq => hslash (heq ▸ hpre.subset (by simp))
    have hskip := lineBody_http_skip (b := b) (v := v) (p := p) (by simpa using hu) hne
      (hs.of_prefix ((List.prefix_append _ _).trans hpre)).compared
    simp only [hf]
    exact hskip

/-- Behind the target the URI ends with a space, or with a query and its space. -/
theorem runs_rawUriEnd (t : Target) (q : Option RawQuery) (ht : t.bytes.length < b.length)
    (hq : ∀ s ∈ q, s.stored.length < b.length) :
    ∃ b', b'.length = b.length ∧
      LineRuns ⟨.afterSlashInUri, fill b t.bytes, t.bytes.length, v, false, p⟩
        (rawQueryBytes q ++ [byte ' '])
        ⟨.http, b', 0, v, false,
          { p.setTarget t with querystr := (q.map RawQuery.stored).or p.querystr }⟩ := by
  have hlen : (fill b (t.bytes ++ [0])).length = b.length := length_fill (by simpa using ht)
  cases q with
  | none => exact ⟨_, hlen, .single rfl (lineBody_uri_space t.nul_notMem ht)⟩
  | some q =>
    have hq' : (q.bytes.filter isprint).length + 1 < b.length := by
      simpa [RawQuery.stored] using hq q rfl
    have hmark : LineRuns ⟨.afterSlashInUri, fill b t.bytes, t.bytes.length, v, false, p⟩
        [byte '?'] ⟨.params, fill b (t.bytes ++ [0]), 0, v, false, p.setTarget t⟩ :=
      .single rfl (lineBody_uri_query t.nul_notMem ht)
    have hmore := runs_rawQuery (b := fill b (t.bytes ++ [0])) (v := v) (p := p.setTarget t) q
      (by rw [hlen]; omega)
    have hend := lineBody_params_space (b := fill b (t.bytes ++ [0])) (v := v)
      (p := p.setTarget t) q.nul_notMem (by rw [hlen]; exact hq')
    refine ⟨_, ?_, (hmark.append hmore).append (.single rfl hend)⟩
    rw [length_fill (by simp [hlen]; omega), hlen]

theorem runs_rawUri (u : RawUri) (hb : 7 ≤ b.length) (hu : u.Fits b.length) :
    ∃ b', b'.length = b.length ∧
      LineRuns ⟨.start, b, 0, v, false, p⟩ u.bytes ⟨.http, b', 0, v, false, u.apply p⟩ := by
  have hlen := length_methodFill (b := b) u.start hb
  have hstart := runs_rawStart (v := v) (p := p) u.start hb
  have htarget := runs_rawTarget (v := v) (p := u.start.apply p) u.target
    (b := fill b (u.start.method.toString ++ [byte ' '])) (by rw [hlen]; exact hu.target.le)
  obtain ⟨b', hb', hend⟩ := runs_rawUriEnd (v := v) (p := u.start.apply p)
    (b := fill b (u.start.method.toString ++ [byte ' '])) u.target u.query
    (by rw [hlen]; exact hu.target) (fun s hs => by rw [hlen]; exact hu.query s hs)
  exact ⟨b', hb'.trans hlen, (hstart.append htarget).append hend⟩

theorem runs_rawProtocol (r : RawProtocol) (hb : 7 ≤ b.length) (hr : r.Fits b.length) :
    ∃ b' i, LineRuns ⟨.start, b, 0, v, false, p⟩ r.bytes
      ⟨.httpMajor, b', i, v, false, r.uri.apply p⟩ := by
  obtain ⟨b', hb', huri⟩ := runs_rawUri (v := v) (p := p) r.uri hb hr.uri
  have hhttp := runs_rawHttp (b := b') (v := v) (p := r.uri.apply p) r.slash_ok r.speaks
    (by rw [hb']; exact hr.http)
  have hend := lineBody_http_end (b := b') (v := v) (p := r.uri.apply p) r.speaks.compared
  exact ⟨_, _, huri.append (hhttp.append (.single rfl hend))⟩

theorem runs_major {m : Bytes} {i : Nat} (hm : ∀ c ∈ m, usual c = true ∨ c = byte ' ')
    (hv : VersionWithin 1 v m) :
    LineRuns ⟨.httpMajor, b, i, v, false, p⟩ m
      ⟨.httpMajor, b, i, m.foldl versionDigit v, false, p⟩ := by
  refine Runs.of_prefixes (g := fun pre =>
    (⟨.httpMajor, b, i, pre.foldl versionDigit v, false, p⟩ : LineVars)) m (fun _ => rfl)
    ?_
  intro pre c hpre
  have hle := hv _ hpre
  rw [List.foldl_concat] at hle ⊢
  rcases hm c (hpre.subset (by simp)) with hu | rfl
  · simp [lineBody, hu, UInt32.not_lt.mpr hle]
  · rw [versionDigit_space]
    simp [lineBody]

theorem runs_minor {k : Bytes} {i : Nat} (hk : LF ∉ k) (hv : VersionWithin 11 v k) :
    LineRuns ⟨.httpMinor, b, i, v, false, p⟩ k
      ⟨.httpMinor, b, i, k.foldl versionDigit v, false, p⟩ := by
  refine Runs.of_prefixes (g := fun pre =>
    (⟨.httpMinor, b, i, pre.foldl versionDigit v, false, p⟩ : LineVars)) k (fun _ => rfl)
    ?_
  intro pre c hpre
  have hle := hv _ hpre
  have hne : c ≠ LF := fun heq => hk (heq ▸ hpre.subset (by simp))
  rw [List.foldl_concat] at hle ⊢
  by_cases hu : usual c = true
  · simp [lineBody, hu, UInt32.not_lt.mpr hle]
  · rw [versionDigit_skip _ (by simpa using hu)]
    by_cases hs : c = byte ' '
    · simp [lineBody, hs]
    · simp [lineBody, hu, hs, hne]

theorem runs_rawRequest (r : RawRequest) (hb : 7 ≤ b.length) (hr : r.protocol.Fits b.length) :
    ∃ b' i, LineRuns ⟨.start, b, 0, 0, false, p⟩ r.bytes
      ⟨.httpMinor, b', i, r.version, true, r.protocol.uri.apply p⟩ := by
  obtain ⟨b', i, hprotocol⟩ := runs_rawProtocol (v := 0) (p := p) r.protocol hb hr
  have hmajor := runs_major (b := b') (i := i) (p := r.protocol.uri.apply p) r.major_ok
    r.major_within
  have hdot : LineRuns ⟨.httpMajor, b', i, r.major.foldl versionDigit 0, false,
      r.protocol.uri.apply p⟩ [byte '.'] _ := .single rfl rfl
  have hminor := runs_minor (b := b') (i := i) (p := r.protocol.uri.apply p) r.minor_ok
    r.minor_within
  have hlf : LineRuns ⟨.httpMinor, b', i, r.version, false, r.protocol.uri.apply p⟩ [LF] _ :=
    .single rfl rfl
  exact ⟨b', i, (hprotocol.append (hmajor.append hdot)).append (hminor.append hlf)⟩

end Pieces

/-! ## Exactly these lines -/

theorem readHeaderLine_raw (r : RawRequest) {b : Bytes} (hb : 7 ≤ b.length)
    (hr : r.protocol.Fits b.length) (rest : Bytes) (p : Parser) :
    readHeaderLine b (r.bytes ++ rest) p = some (.ok, r.apply p, rest) := by
  obtain ⟨b', i, hruns⟩ := runs_rawRequest (p := p) r hb hr
  rw [readHeaderLine, loop_done hruns rfl]
  rfl

/-- A line with something behind it was read to its end, and spells a raw request. -/
theorem readHeaderLine_exact {b is rest : Bytes} {p p' : Parser}
    (h : readHeaderLine b is p = some (.ok, p', rest)) (hrest : rest ≠ []) :
    ∃ r : RawRequest, r.protocol.Fits b.length ∧ is = r.bytes ++ rest ∧ p' = r.apply p := by
  unfold readHeaderLine at h
  split at h
  · rename_i s r hloop
    cases h
    obtain ⟨used, rfl, hr, hend⟩ := exit_done hloop
    have hdone : s.headerLineIsDone = true := by
      simpa [lineGuard] using hend.resolve_right hrest
    obtain ⟨-, hinv⟩ := lineRuns_inv hr
    cases hinv with
    | @line r b i hfit => exact ⟨r, hfit, rfl, rfl⟩
    | _ => cases hdone
  · rename_i e s r hloop
    cases h
    obtain ⟨used, c, u, -, -, -, hb⟩ := exit_ret hloop
    exact absurd rfl (lineBody_ret hb).2
  · cases h

theorem getStart_ok : Verb.get ≠ .unknown := by simp

def getStart : RawStart := ⟨[], .get, 0, RequestLine.lead_nil, getStart_ok⟩

theorem rootTarget_ok : ∀ c ∈ ([] : Bytes), isTargetByte c = true := by simp

theorem getProtocol_ok : byte '/' ∉ ascii "HTTP" ∧ SpeaksHttp (ascii "HTTP") :=
  ⟨by decide +kernel, .inr (by decide +kernel)⟩

theorem getVersion_ok :
    (∀ c ∈ ascii "1", usual c = true ∨ c = byte ' ') ∧ LF ∉ ascii "0\r" ∧
      VersionWithin 1 0 (ascii "1") ∧
      VersionWithin 11 ((ascii "1").foldl versionDigit 0) (ascii "0\r") := by
  decide +kernel

/-- `GET / HTTP/1.0` -/
def getRequest : RawRequest where
  protocol := ⟨⟨getStart, ⟨[], rootTarget_ok⟩, none⟩, ascii "HTTP", getProtocol_ok.1,
    getProtocol_ok.2⟩
  major := ascii "1"
  minor := ascii "0\r"
  major_ok := getVersion_ok.1
  minor_ok := getVersion_ok.2.1
  major_within := getVersion_ok.2.2.1
  minor_within := getVersion_ok.2.2.2

theorem getRequest_fits : getRequest.protocol.Fits 1024 where
  uri := ⟨by decide +kernel, by rintro q ⟨⟩⟩
  http := by decide +kernel

end Http
end SimpleWeb
