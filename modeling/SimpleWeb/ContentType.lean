import SimpleWeb.StaticResponse

/-!
# SimpleWeb.ContentType

The type `serve` sends for a file against the table of `tools/hash.py`. The `switch` of
`getcontent_type` has the hashes of the extensions of that table written into it, so the type is
a matter of numbers: `weight` is the number of an extension, and the hash is the weight modulo
2 ^ 32.

* `hash_path`       — the loop of `serve` computes the weight of the extension, or, without one,
  of all bytes but the first.
* `contentType_iff` — the table decides when the `switch` has a case for a listed extension, and
  when the weight of any other is not that of a case.
-/

namespace SimpleWeb

open Http

/-- `content_type` of `tools/hash.py` -/
def content_type : List (Bytes × Bytes) :=
  [(ascii "txt", ascii "text/plain"), (ascii "html", ascii "text/html"),
    (ascii "css", ascii "text/css"), (ascii "svg", ascii "image/svg+xml"),
    (ascii "js", ascii "text/javascript"), (ascii "jpg", ascii "image/jpg"),
    (ascii "png", ascii "image/png"), (ascii "jpeg", ascii "image/jpeg"),
    (ascii "jif", ascii "image/gif"), (ascii "ico", ascii "image/x-icon")]

/-- The bytes behind the last dot. -/
def extension (path : Bytes) : Option Bytes :=
  if byte '.' ∈ path then some (path.rtakeWhile (· ≠ byte '.')) else none

def listedExtensions : List Bytes := content_type.map Prod.fst

/-- What the table says of a path. -/
def listedType (path : Bytes) : Bytes :=
  ((extension path).bind fun e => List.lookup e content_type).getD (ascii "text/plain")

/-- The number of an extension: its signed bytes to the base 7, the first one last. -/
def weight : Bytes → Int
  | [] => 0
  | c :: cs => c.toInt8.toInt + 7 * weight cs

/-- The bytes the loop of `serve` hashes. -/
def hashedBytes (path : Bytes) : Bytes := (extension path).getD path.tail

/-- The extensions with a case of their own, `txt` apart, whose type is the default. -/
def switchedExtensions : List Bytes :=
  [ascii "html", ascii "css", ascii "svg", ascii "js", ascii "png", ascii "jpeg", ascii "jif",
    ascii "ico"]

/-- A listed extension is not `jpg`, for which there is no case; the bytes of any other path have
the weight of no extension with a case. -/
structure TypeDecided (path : Bytes) : Prop where
  listed : ∀ e ∈ extension path, e ∈ listedExtensions → e ≠ ascii "jpg"
  unlisted : (∀ e ∈ extension path, e ∉ listedExtensions) →
    ∀ e ∈ switchedExtensions, ¬ weight (hashedBytes path) ≡ weight e [ZMOD 2 ^ 32]

/-! ## The hash -/

theorem hashSuffix_eq (l : Bytes) : ∀ hash : UInt32,
    hashSuffix l hash = (l.dropLast.takeWhile (· ≠ byte '.')).foldl
      (fun h c => h * 7 + c.toInt8.toInt32.toUInt32) hash := by
  induction l with
  | nil => intro hash; rfl
  | cons c cs ih =>
    intro hash
    cases cs with
    | nil => rfl
    | cons c' cs =>
      by_cases hc : c = byte '.'
      · simp [hashSuffix, hc]
      · rw [hashSuffix, if_neg hc, ih, List.dropLast_cons_cons,
          List.takeWhile_cons_of_pos (by simpa), List.foldl_cons]

theorem signedByte : ∀ c : UInt8, c.toInt8.toInt32.toUInt32 = UInt32.ofInt c.toInt8.toInt := by
  decide +kernel

theorem foldr_weight (bs : Bytes) :
    bs.foldr (fun c h => h * 7 + c.toInt8.toInt32.toUInt32) 0 = UInt32.ofInt (weight bs) := by
  induction bs with
  | nil => rfl
  | cons c cs ih =>
    rw [List.foldr_cons, ih, weight, UInt32.ofInt_add, UInt32.ofInt_mul, signedByte,
      UInt32.add_comm, UInt32.mul_comm]
    rfl

theorem ofInt_eq_iff {a b : Int} : UInt32.ofInt a = UInt32.ofInt b ↔ a ≡ b [ZMOD 2 ^ 32] := by
  have hnat : ∀ x : Int, (UInt32.ofInt x).toNat = (x % 2 ^ 32).toNat := by
    intro x
    rw [UInt32.ofInt, UInt32.toNat_ofNat', Nat.mod_eq_of_lt (by omega)]
  rw [← UInt32.toNat_inj, hnat, hnat, Int.ModEq]
  omega

/-- Something stops the search from the end, so the first byte is not taken. -/
theorem rtakeWhile_cons {q : UInt8 → Bool} {c : UInt8} {cs : Bytes}
    (h : ∃ d ∈ c :: cs, q d = false) : (c :: cs).rtakeWhile q = cs.rtakeWhile q := by
  induction cs using List.reverseRecOn with
  | nil =>
    have hc : ¬ q c = true := by simpa using h
    exact List.rtakeWhile_concat_neg q [] c hc
  | append_singleton cs d ih =>
    have hsplit : c :: (cs ++ [d]) = (c :: cs) ++ [d] := rfl
    by_cases hd : q d = true
    · have hrest : ∃ e ∈ c :: cs, q e = false := by
        obtain ⟨e, he, hq⟩ := h
        refine ⟨e, ?_, hq⟩
        rw [hsplit, List.mem_append, List.mem_singleton] at he
        refine he.resolve_right ?_
        rintro rfl
        rw [hd] at hq
        cases hq
      rw [hsplit, List.rtakeWhile_concat_pos _ _ d hd, List.rtakeWhile_concat_pos _ _ d hd,
        ih hrest]
    · rw [hsplit, List.rtakeWhile_concat_neg _ _ d hd, List.rtakeWhile_concat_neg _ _ d hd]

/-- The bytes behind the last dot, which may be the first byte, or all bytes but the first. -/
theorem hashedBytes_eq (path : Bytes) :
    hashedBytes path = path.tail.rtakeWhile (· ≠ byte '.') := by
  cases path with
  | nil => rfl
  | cons c cs =>
    by_cases hdot : byte '.' ∈ c :: cs
    · rw [hashedBytes, extension, if_pos hdot, Option.getD_some]
      exact rtakeWhile_cons ⟨_, hdot, by simp⟩
    · rw [hashedBytes, extension, if_neg hdot, Option.getD_none]
      refine (List.rtakeWhile_eq_self_iff.mpr ?_).symm
      intro d hd
      have hne : d ≠ byte '.' := by
        rintro rfl
        exact hdot (List.mem_cons_of_mem _ hd)
      simpa using hne

/-- The loop computes the weight of these bytes. -/
theorem hash_path (path : Bytes) :
    hashSuffix path.reverse 0 = UInt32.ofInt (weight (hashedBytes path)) := by
  rw [hashSuffix_eq, List.dropLast_reverse, hashedBytes_eq, ← foldr_weight, List.rtakeWhile,
    List.foldr_reverse]

/-! ## The switch -/

theorem listedType_default {path : Bytes} (h : ∀ e ∈ extension path, e ∉ listedExtensions) :
    listedType path = ascii "text/plain" := by
  rw [listedType]
  cases he : extension path with
  | none => rfl
  | some e =>
    have hnot := h e he
    have hlookup : List.lookup e content_type = none := by
      rw [List.lookup_eq_none_iff]
      rintro ⟨k, v⟩ hk
      have hne : e ≠ k := by
        rintro rfl
        exact hnot (List.mem_map_of_mem hk)
      simpa using hne
    rw [Option.bind_some, hlookup]
    rfl

/-- The weights of the extensions with a case are its constants. -/
theorem getcontent_type_plain {hash : UInt32} : getcontent_type hash = ascii "text/plain" ↔
    ∀ e ∈ switchedExtensions, hash ≠ UInt32.ofInt (weight e) := by
  have hconst : switchedExtensions.map (fun e => UInt32.ofInt (weight e)) =
      [43301, 6539, 5988, 911, 5929, 41168, 5839, 6237] := by decide +kernel
  have hmem : (∀ e ∈ switchedExtensions, hash ≠ UInt32.ofInt (weight e)) ↔
      hash ∉ [43301, 6539, 5988, 911, 5929, 41168, 5839, 6237] := by
    rw [← hconst]
    simp [eq_comm]
  rw [hmem]
  by_cases hcase : hash ∈ [43301, 6539, 5988, 911, 5929, 41168, 5839, 6237]
  · have htyped : ∀ k ∈ ([43301, 6539, 5988, 911, 5929, 41168, 5839, 6237] : List UInt32),
        getcontent_type k ≠ ascii "text/plain" := by
      simp [getcontent_type]
      decide
    simp [hcase, htyped hash hcase]
  · refine iff_of_true ?_ hcase
    simp only [List.mem_cons, List.not_mem_nil, or_false, not_or] at hcase
    simp [getcontent_type, hcase]

/-- Of the listed extensions the `switch` knows all but `jpg`. -/
theorem getcontent_type_listed : ∀ e ∈ listedExtensions,
    (getcontent_type (UInt32.ofInt (weight e)) =
      (List.lookup e content_type).getD (ascii "text/plain") ↔ e ≠ ascii "jpg") := by
  simp only [listedExtensions, content_type, List.map_cons, List.map_nil, List.forall_mem_cons]
  decide +kernel

theorem getcontent_type_iff (path : Bytes) :
    getcontent_type (hashSuffix path.reverse 0) = listedType path ↔ TypeDecided path := by
  rw [hash_path]
  by_cases hlisted : ∃ e ∈ extension path, e ∈ listedExtensions
  · obtain ⟨e, he, hmem⟩ := hlisted
    have hhashed : hashedBytes path = e := by
      rw [hashedBytes, show extension path = some e from he, Option.getD_some]
    have htype : listedType path = (List.lookup e content_type).getD (ascii "text/plain") := by
      rw [listedType, show extension path = some e from he, Option.bind_some]
    rw [hhashed, htype, getcontent_type_listed e hmem]
    constructor
    · intro hne
      refine ⟨?_, fun hno => absurd hmem (hno e he)⟩
      intro e' he' _
      obtain rfl : e = e' := Option.some.inj (he.symm.trans he')
      exact hne
    · intro h
      exact h.listed e he hmem
  · have hno : ∀ e ∈ extension path, e ∉ listedExtensions := fun e he hmem => hlisted ⟨e, he, hmem⟩
    rw [listedType_default hno, getcontent_type_plain]
    constructor
    · intro h
      refine ⟨fun e he hmem => absurd hmem (hno e he), ?_⟩
      intro _ e he hmod
      exact h e he (ofInt_eq_iff.mpr hmod)
    · intro h e he heq
      exact h.unlisted hno e he (ofInt_eq_iff.mp heq)

theorem staticResponse_contentType {sys : System MappedFile} {h h' : Host MappedFile}
    {path : Bytes} {res : ResponseHeader} {r : Response}
    (hr : staticResponse sys h path res = some (h', r)) :
    r.header.fields[ascii "Content-type"]? =
      some (getcontent_type (hashSuffix path.reverse 0)) := by
  obtain ⟨⟨h₁, f⟩, -, heq⟩ := Option.map_eq_some_iff.mp hr
  cases heq
  have hconnection : ascii "Connection" ≠ ascii "Content-type" := by decide
  have hlength : ascii "Content-Length" ≠ ascii "Content-type" := by decide
  simp only [ResponseHeader.set, Std.ExtTreeMap.getElem?_insert,
    Std.LawfulEqCmp.compare_eq_iff_eq, hconnection, hlength, if_false, if_true]

/-- The type `serve` sends for a file is the one the table gives for its path, `text/plain`
without an entry, when the `switch` decides as the table does. -/
theorem contentType_iff (sys : System MappedFile) (h h' : Host MappedFile) (path : Bytes)
    (res : ResponseHeader) (r : Response) (hr : staticResponse sys h path res = some (h', r)) :
    r.header.fields[ascii "Content-type"]? = some (listedType path) ↔ TypeDecided path := by
  rw [staticResponse_contentType hr, Option.some.injEq, getcontent_type_iff]

/-- The file system of `helloFiles`, for every path -/
def helloSystem : System MappedFile := (helloFiles true).system readable fun _ => none

theorem contentType_icon :
    ∃ h' r, staticResponse helloSystem coldHost (ascii "./favicon.ico") (responseHeader []) =
        some (h', r) ∧
      r.header.fields[ascii "Content-type"]? = some (listedType (ascii "./favicon.ico")) := by
  obtain ⟨⟨h', r⟩, hr⟩ : ∃ x, staticResponse helloSystem coldHost (ascii "./favicon.ico")
      (responseHeader []) = some x := ⟨_, rfl⟩
  have hext : extension (ascii "./favicon.ico") = some (ascii "ico") := by decide +kernel
  have hlisted : ascii "ico" ∈ listedExtensions := by decide +kernel
  refine ⟨h', r, hr, (contentType_iff _ _ _ _ _ _ hr).mpr ⟨?_, ?_⟩⟩
  · intro e he _
    rw [hext] at he
    cases he
    decide
  · intro hnot
    exact absurd hlisted (hnot _ hext)

/-- An extension the table does not have, sent as a style sheet. -/
example : weight (ascii "jrs") = weight (ascii "css") := by decide +kernel

/-- A `jpg` is listed with a type of its own and sent as plain text. -/
theorem contentType_jpg :
    ¬ ∀ (sys : System MappedFile) (h h' : Host MappedFile) (path : Bytes) (res : ResponseHeader)
      (r : Response), staticResponse sys h path res = some (h', r) →
        r.header.fields[ascii "Content-type"]? = some (listedType path) := by
  intro hall
  obtain ⟨⟨h', r⟩, hr⟩ : ∃ x, staticResponse helloSystem coldHost (ascii "./a.jpg")
      (responseHeader []) = some x := ⟨_, rfl⟩
  have hsent := hall _ _ _ _ _ _ hr
  rw [staticResponse_contentType hr, Option.some.injEq, getcontent_type_iff] at hsent
  exact hsent.listed _ rfl (by decide +kernel) rfl

end SimpleWeb
