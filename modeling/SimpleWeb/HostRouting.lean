import SimpleWeb.Gateway
import SimpleWeb.Http.HeadLanguage

/-!
# SimpleWeb.HostRouting

Which host serves a request (`Gateway.cpp`): the handler looks for the fields `Host` and
`X-Forwarded-Host` by their exact names, and the reader keeps every name in the letters it came
in. So the pick does not depend on the case of field names exactly when no name the request
carries would be served otherwise than the empty name (`pickHost_case_iff`).
-/

namespace SimpleWeb

open Http

structure Conf where
  defaulthost : HostInfo
  hosts : List HostInfo

/-- `Hosts.insert` for each host of the configuration: the first of a name stays. -/
def Conf.hostMap (conf : Conf) : Std.ExtTreeMap Bytes HostInfo compare :=
  conf.hosts.foldl (fun m h => m.insertIfNew h.servername h) ∅

inductive Route where
  | defaultHost
  | host (info : HostInfo)
  | notFound

def hostKey : Bytes := ascii "Host"
def forwardedKey : Bytes := ascii "X-Forwarded-Host"

/-- The name the handler compares. -/
def hostName (m : Fields) : Bytes :=
  if m.contains hostKey then
    if m.contains forwardedKey then m.getD forwardedKey [] else m.getD hostKey []
  else []

def route (conf : Conf) (host : Bytes) : Route :=
  if host = conf.defaulthost.servername then .defaultHost
  else match conf.hostMap[host]? with
    | some info => .host info
    | none => .notFound

/-- What the handler picks for a stream; nothing when the head is not complete. -/
def pickHost (conf : Conf) (st : Stack) (is : Bytes) : Option Route :=
  match readHeader st is .init with
  | some (_, par, _) =>
    if par.headerDone then some (route conf (hostName par.message.fields)) else none
  | none => none

/-! ## Routes -/

/-- The default host or a configured one has that name. -/
def Conf.Knows (conf : Conf) (host : Bytes) : Prop :=
  host = conf.defaulthost.servername ∨ ∃ info ∈ conf.hosts, info.servername = host

theorem getElem?_foldl_insertIfNew (hs : List HostInfo) :
    ∀ (m : Std.ExtTreeMap Bytes HostInfo compare) (k : Bytes),
      (hs.foldl (fun m h => m.insertIfNew h.servername h) m)[k]? =
        m[k]?.or (hs.find? fun h => h.servername = k) := by
  induction hs with
  | nil => intro m k; simp
  | cons h hs ih =>
    intro m k
    rw [List.foldl_cons, ih, Std.ExtTreeMap.getElem?_insertIfNew, List.find?_cons]
    by_cases hk : h.servername = k
    · subst hk
      by_cases hm : h.servername ∈ m
      · simp [hm]
      · simp [hm]
    · have hcmp : compare h.servername k ≠ .eq := fun h => hk (Std.LawfulEqCmp.eq_of_compare h)
      simp [hk, hcmp]

theorem Conf.hostMap_get (conf : Conf) (k : Bytes) :
    conf.hostMap[k]? = conf.hosts.find? fun h => h.servername = k := by
  rw [Conf.hostMap, getElem?_foldl_insertIfNew]
  simp

theorem route_cases (conf : Conf) (a : Bytes) :
    (a = conf.defaulthost.servername ∧ route conf a = .defaultHost) ∨
      (∃ info, info.servername = a ∧ conf.Knows a ∧ route conf a = .host info) ∨
      (¬ conf.Knows a ∧ route conf a = .notFound) := by
  by_cases hdef : a = conf.defaulthost.servername
  · exact .inl ⟨hdef, by rw [route, if_pos hdef]⟩
  · rw [route, if_neg hdef, conf.hostMap_get]
    cases hfind : conf.hosts.find? fun h => h.servername = a with
    | some info =>
      have hname : info.servername = a := by simpa using List.find?_some hfind
      exact .inr (.inl ⟨info, hname, .inr ⟨info, List.mem_of_find?_eq_some hfind, hname⟩, rfl⟩)
    | none =>
      refine .inr (.inr ⟨?_, rfl⟩)
      rintro (h | ⟨info, hmem, hname⟩)
      · exact hdef h
      · exact absurd hname (by simpa using List.find?_eq_none.mp hfind info hmem)

/-- Two names lead to one host only if they are the same, or if no host has either. -/
theorem route_eq_iff (conf : Conf) (a b : Bytes) :
    route conf a = route conf b ↔ a = b ∨ (¬ conf.Knows a ∧ ¬ conf.Knows b) := by
  constructor
  · intro h
    rcases route_cases conf a with ⟨ha, hra⟩ | ⟨i, ha, -, hra⟩ | ⟨ha, hra⟩
    · rcases route_cases conf b with ⟨hb, -⟩ | ⟨j, -, -, hrb⟩ | ⟨-, hrb⟩
      · exact .inl (ha.trans hb.symm)
      · rw [hra, hrb] at h; cases h
      · rw [hra, hrb] at h; cases h
    · rcases route_cases conf b with ⟨-, hrb⟩ | ⟨j, hb, -, hrb⟩ | ⟨-, hrb⟩
      · rw [hra, hrb] at h; cases h
      · rw [hra, hrb] at h
        cases h
        exact .inl (ha.symm.trans hb)
      · rw [hra, hrb] at h; cases h
    · rcases route_cases conf b with ⟨-, hrb⟩ | ⟨j, -, -, hrb⟩ | ⟨hb, -⟩
      · rw [hra, hrb] at h; cases h
      · rw [hra, hrb] at h; cases h
      · exact .inr ⟨ha, hb⟩
  · have hlost : ∀ c, ¬ conf.Knows c → route conf c = .notFound := by
      intro c hc
      rcases route_cases conf c with ⟨h, -⟩ | ⟨-, -, h, -⟩ | ⟨-, h⟩
      · exact absurd (.inl h) hc
      · exact absurd h hc
      · exact h
    rintro (rfl | ⟨ha, hb⟩)
    · rfl
    · rw [hlost a ha, hlost b hb]

/-! ## The names of a head -/

theorem hostName_eq (m : Fields) :
    hostName m = match m[hostKey]? with
      | none => []
      | some v => (m[forwardedKey]?).getD v := by
  unfold hostName
  simp only [Std.ExtTreeMap.contains_eq_isSome_getElem?, Std.ExtTreeMap.getD_eq_getD_getElem?]
  cases m[hostKey]? with
  | none => rfl
  | some v =>
    cases m[forwardedKey]? with
    | none => rfl
    | some w => rfl

theorem pickHost_raw (conf : Conf) {st : Stack} (hst : st.Sized) {h : RawHead} (hh : h.Fits)
    (rest : Bytes) :
    pickHost conf st (h.bytes ++ rest) =
      some (route conf (hostName (assignBy storedValue ∅ h.lines))) := by
  rw [pickHost, readHeader_raw hst hh]
  rfl

/-- The handler picks for a complete head and for nothing else. -/
theorem pickHost_isSome_iff (conf : Conf) {st : Stack} (hst : st.Sized) (is : Bytes) :
    (pickHost conf st is).isSome = true ↔
      ∃ (h : RawHead) (rest : Bytes), h.Fits ∧ is = h.bytes ++ rest := by
  constructor
  · intro hsome
    unfold pickHost at hsome
    split at hsome
    · rename_i ec par rest hread
      split at hsome
      · rename_i hdone
        obtain ⟨-, h, hfits, rfl, -⟩ := readHeader_exact hst hread hdone
        exact ⟨h, rest, hfits, rfl⟩
      · cases hsome
    · cases hsome
  · rintro ⟨h, rest, hfits, rfl⟩
    rw [pickHost_raw conf hst hfits]
    rfl

/-- The name is a value the head gives to `Host`, or to `X-Forwarded-Host` next to a `Host`. -/
theorem hostName_cases {h : RawHead} (hd : h.Distinct) :
    hostName (assignBy storedValue ∅ h.lines) = [] ∨
      ∃ l ∈ h.lines, l.name = hostKey ∧
        (hostName (assignBy storedValue ∅ h.lines) = storedValue l.tail ∨
          ∃ x ∈ h.lines, x.name = forwardedKey ∧
            hostName (assignBy storedValue ∅ h.lines) = storedValue x.tail) := by
  rw [hostName_eq]
  cases hhost : (assignBy storedValue ∅ h.lines)[hostKey]? with
  | none => exact .inl rfl
  | some v =>
    obtain ⟨l, hl, hname, rfl⟩ := (getElem?_assignBy_iff hd hostKey v).mp hhost
    refine .inr ⟨l, hl, hname, ?_⟩
    cases hfwd : (assignBy storedValue ∅ h.lines)[forwardedKey]? with
    | none => exact .inl rfl
    | some w =>
      obtain ⟨x, hx, hxname, rfl⟩ := (getElem?_assignBy_iff hd forwardedKey w).mp hfwd
      exact .inr ⟨x, hx, hxname, rfl⟩

/-- The head gives a field a value that is served as the empty name is: it is the empty name, or
no host has either name. -/
def ServedAsEmpty (conf : Conf) (l : RawLine) : Prop :=
  storedValue l.tail = [] ∨ (¬ conf.Knows (storedValue l.tail) ∧ ¬ conf.Knows [])

/-- Whatever its case, a field `Host` has such a value, and a field `X-Forwarded-Host` next to
it. -/
def CaseBlind (conf : Conf) (h : RawHead) : Prop :=
  ∀ l ∈ h.lines, foldName l.name = foldName hostKey → ServedAsEmpty conf l ∧
    ∀ x ∈ h.lines, foldName x.name = foldName forwardedKey → ServedAsEmpty conf x

theorem servedAsEmpty_iff (conf : Conf) (l : RawLine) :
    ServedAsEmpty conf l ↔ route conf (storedValue l.tail) = route conf [] :=
  (route_eq_iff conf _ _).symm

/-- A head without a dangerous field is served as if it had no host. -/
theorem route_of_caseBlind {conf : Conf} {h h' : RawHead} (hb : CaseBlind conf h)
    (hr : h.Recased h') (hd : h.Distinct) :
    route conf (hostName (assignBy storedValue ∅ h'.lines)) = route conf [] := by
  have hline : ∀ {l' : RawLine} {k : Bytes}, l' ∈ h'.lines → l'.name = k →
      ∃ l ∈ h.lines, foldName l.name = foldName k ∧ l.tail = l'.tail := by
    intro l' k hl' hk
    obtain ⟨l, hl, heq⟩ := hr.mem hl'
    simp only [RawLine.uncased, Prod.mk.injEq] at heq
    exact ⟨l, hl, by rw [← heq.2.1, hk], heq.2.2.2.symm⟩
  rcases hostName_cases (hr.distinct hd) with hnil | ⟨l', hl', hname, hcase⟩
  · rw [hnil]
  · obtain ⟨l, hl, hfold, htail⟩ := hline hl' hname
    obtain ⟨hl₁, hx₁⟩ := hb l hl hfold
    rcases hcase with hval | ⟨x', hx', hxname, hval⟩
    · rw [hval, ← htail]
      exact (servedAsEmpty_iff conf l).mp hl₁
    · obtain ⟨x, hx, hxfold, hxtail⟩ := hline hx' hxname
      rw [hval, ← hxtail]
      exact (servedAsEmpty_iff conf x).mp (hx₁ x hx hxfold)

/-! ## Other spellings -/

/-- Two names in the spellings `a` and `b`, whatever their case was. -/
def spell (a b n : Bytes) : Bytes :=
  if foldName n = foldName hostKey then a
  else if foldName n = foldName forwardedKey then b
  else n

theorem foldName_spell {a b : Bytes} (ha : foldName a = foldName hostKey)
    (hb : foldName b = foldName forwardedKey) (n : Bytes) :
    foldName (spell a b n) = foldName n := by
  unfold spell
  split
  · rename_i h
    rw [ha, h]
  · split
    · rename_i h
      rw [hb, h]
    · rfl

theorem foldName_keys : foldName hostKey ≠ foldName forwardedKey := by decide +kernel

/-- `host` and `x-forwarded-host` are other spellings. -/
theorem foldName_ne : foldName hostKey ≠ hostKey ∧ foldName forwardedKey ≠ forwardedKey := by
  decide +kernel

theorem getElem?_recase {h : RawHead} (hd : h.Distinct) {f : Bytes → Bytes}
    (hf : ∀ n, foldName (f n) = foldName n) (k v : Bytes) :
    (assignBy storedValue ∅ (h.recase f hf).lines)[k]? = some v ↔
      ∃ l ∈ h.lines, f l.name = k ∧ storedValue l.tail = v := by
  rw [getElem?_assignBy_iff ((h.recase_recased f hf).distinct hd)]
  constructor
  · rintro ⟨l', hl', hname, hv⟩
    obtain ⟨l, hl, rfl⟩ := List.mem_map.mp hl'
    exact ⟨l, hl, hname, hv⟩
  · rintro ⟨l, hl, hname, hv⟩
    exact ⟨_, List.mem_map_of_mem hl, hname, hv⟩

section Spelled

variable {h : RawHead} {a b : Bytes} (ha : foldName a = foldName hostKey)
  (hb : foldName b = foldName forwardedKey)

include ha hb in
/-- A name that is spelled as a key is that key up to case. -/
theorem spell_eq {k n : Bytes} (hk : spell a b n = k) : foldName n = foldName k := by
  rw [← hk, foldName_spell ha hb]

/-- Without the exact name there is no host. -/
theorem hostName_hidden (hd : h.Distinct) (hne : a ≠ hostKey) :
    hostName (assignBy storedValue ∅ (h.recase (spell a b) (foldName_spell ha hb)).lines) = [] := by
  rw [hostName_eq]
  cases hhost : (assignBy storedValue ∅
      (h.recase (spell a b) (foldName_spell ha hb)).lines)[hostKey]? with
  | none => rfl
  | some v =>
    obtain ⟨l, -, hname, -⟩ := (getElem?_recase hd (foldName_spell ha hb) _ _).mp hhost
    have hfold := spell_eq ha hb hname
    rw [spell, if_pos hfold] at hname
    exact absurd hname hne

/-- With the exact name it is the value of that line, unless the other one is found too. -/
theorem hostName_shown (hd : h.Distinct) {l : RawLine} (hl : l ∈ h.lines)
    (hfold : foldName l.name = foldName hostKey) (hne : b ≠ forwardedKey) :
    hostName (assignBy storedValue ∅ (h.recase (spell hostKey b) (foldName_spell rfl hb)).lines) =
      storedValue l.tail := by
  have hhost := (getElem?_recase hd (foldName_spell rfl hb) hostKey (storedValue l.tail)).mpr
    ⟨l, hl, by rw [spell, if_pos hfold], rfl⟩
  rw [hostName_eq, hhost]
  cases hfwd : (assignBy storedValue ∅
      (h.recase (spell hostKey b) (foldName_spell rfl hb)).lines)[forwardedKey]? with
  | none => rfl
  | some v =>
    obtain ⟨x, -, hname, -⟩ := (getElem?_recase hd (foldName_spell rfl hb) _ _).mp hfwd
    have hx := spell_eq rfl hb hname
    rw [spell, if_neg (fun h => foldName_keys (h.symm.trans hx)), if_pos hx] at hname
    exact absurd hname hne

theorem hostName_forwarded (hd : h.Distinct) {l x : RawLine} (hl : l ∈ h.lines)
    (hfold : foldName l.name = foldName hostKey) (hx : x ∈ h.lines)
    (hxfold : foldName x.name = foldName forwardedKey) :
    hostName (assignBy storedValue ∅
      (h.recase (spell hostKey forwardedKey) (foldName_spell rfl rfl)).lines) =
        storedValue x.tail := by
  have hhost := (getElem?_recase hd (foldName_spell rfl rfl) hostKey (storedValue l.tail)).mpr
    ⟨l, hl, by rw [spell, if_pos hfold], rfl⟩
  have hne : foldName x.name ≠ foldName hostKey := fun h => foldName_keys (h.symm.trans hxfold)
  have hfwd := (getElem?_recase hd (foldName_spell rfl rfl) forwardedKey (storedValue x.tail)).mpr
    ⟨x, hx, by rw [spell, if_neg hne, if_pos hxfold], rfl⟩
  rw [hostName_eq, hhost, hfwd]
  rfl

end Spelled

/-- For every configuration and every complete head of distinct names: all heads that differ in the
case of field names only are picked the same host, exactly when no field of the head is served
otherwise than the empty name. -/
theorem pickHost_case_iff (conf : Conf) (st : Stack) (hst : st.Sized) (h : RawHead) (hh : h.Fits)
    (hd : h.Distinct) (rest : Bytes) :
    (∀ h' rest', h.Recased h' →
        pickHost conf st (h'.bytes ++ rest') = pickHost conf st (h.bytes ++ rest)) ↔
      CaseBlind conf h := by
  constructor
  · intro hsame
    have hroute : ∀ f hf, route conf (hostName (assignBy storedValue ∅ (h.recase f hf).lines)) =
        route conf (hostName (assignBy storedValue ∅ h.lines)) := by
      intro f hf
      have hr := h.recase_recased f hf
      have heq := hsame (h.recase f hf) rest hr
      rw [pickHost_raw conf hst (hr.fits hh), pickHost_raw conf hst hh] at heq
      exact Option.some.inj heq
    have hfold := foldName_foldName hostKey
    have hfold' := foldName_foldName forwardedKey
    obtain ⟨hne, hne'⟩ := foldName_ne
    have hempty := hroute _ (foldName_spell hfold hfold')
    rw [hostName_hidden hfold hfold' hd hne] at hempty
    intro l hl hlfold
    refine ⟨?_, ?_⟩
    · have hshown := hroute _ (foldName_spell rfl hfold')
      rw [hostName_shown hfold' hd hl hlfold hne'] at hshown
      exact (servedAsEmpty_iff conf l).mpr (hshown.trans hempty.symm)
    · intro x hx hxfold
      have hfwd := hroute _ (foldName_spell rfl rfl)
      rw [hostName_forwarded hd hl hlfold hx hxfold] at hfwd
      exact (servedAsEmpty_iff conf x).mpr (hfwd.trans hempty.symm)
  · intro hb h' rest' hr
    rw [pickHost_raw conf hst (hr.fits hh), pickHost_raw conf hst hh,
      route_of_caseBlind hb hr hd, route_of_caseBlind hb (.refl h) hd]

theorem hostLine_ok :
    (∀ c ∈ ascii "Host", lowcase c = true) ∧ ascii "Host" ≠ [] ∧ (∀ c ∈ ascii " ", c = byte ' ') ∧
      (ascii "a").head? ≠ some (byte ' ') ∧ LF ∉ ascii "a" := by
  decide +kernel

/-- `Host: a` -/
def hostLine : RawLine :=
  ⟨[], ascii "Host", ascii " ", ascii "a", skip_nil, hostLine_ok.1, hostLine_ok.2.1,
    hostLine_ok.2.2.1, hostLine_ok.2.2.2.1, hostLine_ok.2.2.2.2⟩

def hostHead : RawHead := ⟨getRequest, [hostLine], [], .lf, skip_nil⟩

theorem hostHead_fits : hostHead.Fits where
  request := getRequest_fits
  lines := by
    intro l hl
    rw [List.mem_singleton.mp hl]
    exact ⟨by decide +kernel, by decide +kernel, by decide +kernel⟩

theorem hostHead_distinct : hostHead.Distinct := by simp [RawHead.Distinct, hostHead]

/-- One host, of the name `a`. -/
def aConf : Conf := ⟨⟨ascii "a", ascii "."⟩, []⟩

/-- `host: a` -/
def lowerHead : RawHead := hostHead.recase foldName foldName_foldName

/-- The same head in other letters loses its host. -/
theorem pickHost_lowerHead :
    hostHead.Distinct ∧ hostHead.Recased lowerHead ∧
      hostHead.bytes = ascii "GET / HTTP/1.0\r\nHost: a\n\n" ∧
      lowerHead.bytes = ascii "GET / HTTP/1.0\r\nhost: a\n\n" ∧
      pickHost aConf .zero hostHead.bytes = some .defaultHost ∧
      pickHost aConf .zero lowerHead.bytes = some .notFound := by
  have hr := hostHead.recase_recased foldName foldName_foldName
  have hupper := pickHost_raw aConf Stack.zero_sized hostHead_fits []
  have hlower := pickHost_raw aConf Stack.zero_sized (hr.fits hostHead_fits) []
  have hname : hostName (assignBy storedValue ∅ hostHead.lines) = ascii "a" := by decide +kernel
  have hname' : hostName (assignBy storedValue ∅ lowerHead.lines) = [] := by decide +kernel
  have hempty : ([] : Bytes) ≠ aConf.defaulthost.servername := by decide +kernel
  rw [List.append_nil, hname] at hupper
  rw [List.append_nil] at hlower
  refine ⟨hostHead_distinct, hr, by decide +kernel, by decide +kernel, hupper, ?_⟩
  rw [lowerHead, hlower]
  rw [lowerHead] at hname'
  rw [hname', route, if_neg hempty, Conf.hostMap_get]
  rfl

theorem hostHead_notCaseBlind : ¬ CaseBlind aConf hostHead := by
  intro h
  obtain ⟨hserved, -⟩ := h hostLine List.mem_cons_self rfl
  rcases hserved with hnil | ⟨hknown, -⟩
  · exact absurd hnil (by decide +kernel)
  · exact hknown (.inl (by decide +kernel))

theorem pickHost_case_hostHead :
    ¬ ∀ h' rest', hostHead.Recased h' →
      pickHost aConf .zero (h'.bytes ++ rest') = pickHost aConf .zero (hostHead.bytes ++ []) := by
  rw [pickHost_case_iff aConf .zero Stack.zero_sized hostHead hostHead_fits hostHead_distinct []]
  exact hostHead_notCaseBlind

end SimpleWeb
