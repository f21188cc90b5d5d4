import SimpleWeb.Http.ResponseWrite
import SimpleWeb.Http.VectorBody

/-!
# Http.ByteCount

The counts of the serializers against the bytes they put on the stream, with writes that all
complete. Each count is put together by hand next to the output statements: the separators of a
field are four bytes and counted as two (`length_writeFields`), and `vector_body<reqargs>::write`
returns 0 for any bytes (`write_count_iff`).

`vector_body<reqargs>::size` counts nothing at all (`size_init`).
-/

namespace SimpleWeb
namespace Http

open FileBody

/-- The two message kinds, their bodies apart. -/
inductive MessageHeader where
  | request (m : RequestHeader)
  | response (m : ResponseHeader)

def MessageHeader.fields : MessageHeader → Fields
  | .request m => m.fields
  | .response m => m.fields

def MessageHeader.writeHeader : MessageHeader → List Bytes × Nat
  | .request m => m.writeHeader
  | .response m => m.writeHeader

inductive MessageBody where
  | empty
  | string (text : Bytes)
  | args (as : List ReqArg)
  | file (size : Nat) (mapping : Nat → UInt8)

/-- What `BodyHandler::write` puts on the stream and returns; for a file, when its loop has
returned within `t` calls. -/
def MessageBody.write (results : Nat → SputnResult) (t : Nat) :
    MessageBody → Option (List Bytes × Int)
  | .empty => some (emptyBodyWrite ())
  | .string text => some (stringBodyWrite text)
  | .args as => some ([(VectorBody.write as).1], (VectorBody.write as).2)
  | .file size mapping =>
    match FileBody.write size results t with
    | .calling _ => none
    | .returned s => some ([s.accepted.map mapping], size)

/-- `write(os, serializer)` -/
def MessageHeader.write (h : MessageHeader) (body : MessageBody) (results : Nat → SputnResult)
    (t : Nat) : Option (List Bytes × UInt64) :=
  (body.write results t).map fun out => writeMessage h.writeHeader (fun _ : Unit => out) ()

/-- Every call of a file's loop is given what it asks for. Everything else is inserted into the
stream as a whole. -/
def MessageBody.Complete (results : Nat → SputnResult) : MessageBody → Prop
  | .file size _ => ∀ k s, FileBody.write size results k = .calling s →
      (results k).res = s.nums ∧ (results k).efault = false
  | _ => True

/-- The value that is returned is the number of bytes on the stream. -/
def MessageHeader.Counts (h : MessageHeader) (body : MessageBody) (results : Nat → SputnResult) :
    Prop :=
  ∃ t texts n, h.write body results t = some (texts, n) ∧ n.toNat = texts.flatten.length

/-- Bodies whose handler returns what it has written. -/
def MessageBody.Counted : MessageBody → Prop
  | .args as => as = []
  | .file size _ => size < 2147483648
  | _ => True

def MessageBody.length : MessageBody → Nat
  | .empty => 0
  | .string text => text.length
  | .args as => (VectorBody.write as).1.length
  | .file size _ => size

/-! ## The head -/

/-- A field is written with two bytes more than are counted. -/
theorem length_writeFields (fs : Fields) :
    (writeFields fs).1.flatten.length = (writeFields fs).2 + 2 * fs.toList.length := by
  simp only [writeFields]
  induction fs.toList with
  | nil => rfl
  | cons kv l ih =>
    have hcolon : (ascii ": ").length = 2 := rfl
    have heol : (ascii "\r\n").length = 2 := rfl
    simp only [List.flatMap_cons, List.flatten_append, List.length_append, List.map_cons,
      List.sum_cons, List.length_cons, List.flatten_cons, List.flatten_nil, List.length_nil] at ih ⊢
    omega

/-- The start line and the empty line are counted as they are written. -/
theorem length_writeHeader (h : MessageHeader) :
    h.writeHeader.1.flatten.length = h.writeHeader.2 + 2 * h.fields.toList.length := by
  have hspace : (ascii " ").length = 1 := rfl
  have heol : (ascii "\r\n").length = 2 := rfl
  cases h with
  | request m =>
    have hfields := length_writeFields m.fields
    simp only [MessageHeader.writeHeader, MessageHeader.fields, RequestHeader.writeHeader,
      List.flatten_append, List.flatten_cons, List.flatten_nil, List.length_append,
      List.length_nil]
    omega
  | response m =>
    have hfields := length_writeFields m.fields
    simp only [MessageHeader.writeHeader, MessageHeader.fields, ResponseHeader.writeHeader,
      List.flatten_append, List.flatten_cons, List.flatten_nil, List.length_append,
      List.length_nil]
    omega

/-! ## The loop of a file -/

section File

variable {size : Nat} {mapping : Nat → UInt8} {results : Nat → SputnResult} {k : Nat}
  {s : WriteVars}

/-- A size that is no positive `int`: the requested length is doubled while it is positive, and
overflows before the file is through. -/
structure Unfinished (size : Nat) (s : WriteVars) : Prop where
  total : s.totalwrited < size
  nums : 0 < s.nums → s.totalwrited < s.nums ∧ 4294967296 ≤ size

theorem unfinished_first (hsize : 2147483648 ≤ size) : Unfinished size ⟨toInt32 size, 0, []⟩ := by
  refine ⟨by simp only; omega, ?_⟩
  intro hpos
  simp only [toInt32] at hpos ⊢
  omega

/-- A complete call leaves the loop unfinished. -/
theorem unfinished_step (hu : Unfinished size s) (hs : FileBody.write size results k = .calling s)
    (hres : (results k).res = s.nums) (hefault : (results k).efault = false) :
    ∃ s', FileBody.write size results (k + 1) = .calling s' ∧ Unfinished size s' := by
  have hnums := write_nums hs
  have hconv : toInt32 (results k).res = s.nums := by
    rw [hres]
    exact toInt32_eq hnums
  rw [FileBody.write, hs]
  simp only [writeBody, hconv]
  by_cases hneg : s.nums < 0
  · rw [if_pos hneg, hefault, if_neg (by simp), if_neg (by omega), whileTest, if_pos hu.total]
    exact ⟨s, rfl, hu⟩
  · have htotal : s.totalwrited + s.nums.toNat < size := by
      rcases Int.lt_or_eq_of_le (Int.not_lt.mp hneg) with hpos | hzero
      · obtain ⟨hlt, hbig⟩ := hu.nums hpos
        omega
      · have hlt := hu.total
        omega
    rw [if_neg hneg, whileTest, if_pos htotal]
    refine ⟨_, rfl, htotal, ?_⟩
    intro hpos
    simp only [toInt32] at hpos ⊢
    have hlt := hu.nums (by omega)
    omega

theorem write_unfinished (hc : (MessageBody.file size mapping).Complete results)
    (hsize : 2147483648 ≤ size) (k : Nat) :
    ∃ s, FileBody.write size results k = .calling s ∧ Unfinished size s := by
  induction k with
  | zero => exact ⟨_, write_first (by omega) results, unfinished_first hsize⟩
  | succ k ih =>
    obtain ⟨s, hs, hu⟩ := ih
    obtain ⟨hres, hefault⟩ := hc k s hs
    exact unfinished_step hu hs hres hefault

/-- A smaller file is written by one call, or needs none. -/
theorem write_finished (hc : (MessageBody.file size mapping).Complete results)
    (hsize : size < 2147483648) (k : Nat) :
    ∃ nums, FileBody.write size results (k + 1) = .returned ⟨nums, size, List.range size⟩ := by
  rcases Nat.eq_zero_or_pos size with rfl | hpos
  · exact ⟨0, write_empty results _⟩
  · have hfirst := (hc 0 _ (write_first hpos results)).1
    have hall : (results 0).res = size := by
      rw [hfirst]
      exact toInt32_eq (by omega)
    exact ⟨_, write_once hpos hsize hall k⟩

/-- Returned, a file of that size has been written whole. -/
theorem accepted_of_returned (hc : (MessageBody.file size mapping).Complete results)
    (hs : FileBody.write size results k = .returned s) :
    size < 2147483648 ∧ s.accepted.length = size := by
  have hsize : size < 2147483648 := by
    by_contra hge
    obtain ⟨s', hs', -⟩ := write_unfinished hc (by omega) k
    rw [hs'] at hs
    cases hs
  obtain ⟨nums, hfin⟩ := write_finished hc hsize k
  have hlater := write_returned hs 1
  rw [hfin] at hlater
  cases hlater
  exact ⟨hsize, List.length_range⟩

end File

/-! ## The body -/

theorem length_vectorWrite_pos (a : ReqArg) (as : List ReqArg) :
    0 < (VectorBody.write (a :: as)).1.length := by
  simp [VectorBody.write, VectorBody.pairBytes]

/-- What a handler has written, and what it returns. -/
theorem MessageBody.write_length {body : MessageBody} {results : Nat → SputnResult} {t : Nat}
    {texts : List Bytes} {n : Int} (hc : body.Complete results)
    (hw : body.write results t = some (texts, n)) :
    texts.flatten.length = body.length ∧
      ∃ r : Nat, n = r ∧ r ≤ body.length ∧ (r = body.length ↔ body.Counted) := by
  cases body with
  | empty =>
    cases hw
    exact ⟨rfl, 0, rfl, Nat.le_refl _, by simp [MessageBody.length, MessageBody.Counted]⟩
  | string text =>
    cases hw
    exact ⟨by simp [MessageBody.length], text.length, rfl, Nat.le_refl _,
      by simp [MessageBody.length, MessageBody.Counted]⟩
  | args as =>
    cases hw
    refine ⟨by simp [MessageBody.length], 0, ?_, Nat.zero_le _, ?_⟩
    · cases as <;> rfl
    · cases as with
      | nil => simp [MessageBody.length, MessageBody.Counted, VectorBody.write]
      | cons a as =>
        have hpos := length_vectorWrite_pos a as
        simp only [MessageBody.length, MessageBody.Counted, reduceCtorEq, iff_false]
        omega
  | file size mapping =>
    rw [MessageBody.write] at hw
    split at hw
    · cases hw
    · rename_i s hs
      cases hw
      obtain ⟨hsize, hlen⟩ := accepted_of_returned hc hs
      exact ⟨by simp [MessageBody.length, hlen], size, rfl, Nat.le_refl _,
        by simp [MessageBody.length, MessageBody.Counted, hsize]⟩

/-- A handler that counts returns. -/
theorem MessageBody.write_returns {body : MessageBody} {results : Nat → SputnResult}
    (hc : body.Complete results) (hcount : body.Counted) :
    ∃ texts n, body.write results 1 = some (texts, n) := by
  cases body with
  | empty | string | args => exact ⟨_, _, rfl⟩
  | file size mapping =>
    obtain ⟨nums, hfin⟩ := write_finished hc hcount 0
    exact ⟨_, _, by rw [MessageBody.write, hfin]⟩

/-! ## The message -/

theorem ofInt_natCast (r : Nat) : UInt64.ofInt (r : Int) = UInt64.ofNat r := by
  rw [← UInt64.toNat_inj, UInt64.ofInt, UInt64.toNat_ofNat', UInt64.toNat_ofNat']
  omega

/-- The count and the bytes of a message, from the count of its handler. -/
theorem writeMessage_count (h : MessageHeader) {body : MessageBody} {results : Nat → SputnResult}
    {t : Nat} {texts : List Bytes} {n : Int} (hc : body.Complete results)
    (hw : body.write results t = some (texts, n)) :
    ∃ r : Nat, (UInt64.ofNat h.writeHeader.2 + UInt64.ofInt n).toNat =
        (h.writeHeader.2 + r) % 18446744073709551616 ∧
      (h.writeHeader.1 ++ texts).flatten.length = h.writeHeader.1.flatten.length + body.length ∧
      r ≤ body.length ∧ (r = body.length ↔ body.Counted) := by
  obtain ⟨hlen, r, rfl, hle, hiff⟩ := MessageBody.write_length hc hw
  refine ⟨r, ?_, ?_, hle, hiff⟩
  · rw [ofInt_natCast, ← UInt64.ofNat_add, UInt64.toNat_ofNat']
  · rw [List.flatten_append, List.length_append, hlen]

/-- For every message, with writes that all complete: `write` returns the number of bytes it has
put on the stream when the message has no fields, its handler counts what it writes, and the
number fits 64 bits. -/
theorem write_count_iff (h : MessageHeader) (body : MessageBody) (results : Nat → SputnResult)
    (hc : body.Complete results) :
    h.Counts body results ↔ h.fields.toList = [] ∧ body.Counted ∧
      h.writeHeader.1.flatten.length + body.length < 18446744073709551616 := by
  have hhead := length_writeHeader h
  have hfields : h.fields.toList = [] ↔ h.fields.toList.length = 0 := List.length_eq_zero_iff.symm
  constructor
  · rintro ⟨t, texts, n, hw, heq⟩
    obtain ⟨⟨bodyTexts, m⟩, hbody, hout⟩ := Option.map_eq_some_iff.mp hw
    cases hout
    obtain ⟨r, hvalue, hbytes, hle, hiff⟩ := writeMessage_count h hc hbody
    rw [hfields, ← hiff]
    omega
  · rintro ⟨hnone, hcounted, hfit⟩
    obtain ⟨texts, n, hbody⟩ := MessageBody.write_returns hc hcounted
    obtain ⟨r, hvalue, hbytes, -, hiff⟩ := writeMessage_count h hc hbody
    have hr := hiff.mpr hcounted
    have hzero := hfields.mp hnone
    refine ⟨1, _, _, by rw [MessageHeader.write, hbody]; rfl, ?_⟩
    refine (hvalue.trans ?_).trans hbytes.symm
    rw [Nat.mod_eq_of_lt (by omega)]
    omega

theorem write_count_bare :
    (MessageHeader.response bareResponse).Counts (.string (ascii "hello")) whole := by
  have hfields : (MessageHeader.response bareResponse).fields.toList = [] := by decide +kernel
  refine (write_count_iff (.response bareResponse) (.string (ascii "hello")) whole trivial).mpr
    ⟨hfields, trivial, ?_⟩
  decide +kernel

/-- One field: 33 bytes are written and 31 are returned. -/
theorem write_count_host :
    ¬ ∀ (h : MessageHeader) (body : MessageBody) (results : Nat → SputnResult),
      body.Complete results → h.Counts body results := by
  intro hall
  obtain ⟨t, texts, n, hw, heq⟩ := hall (.request hostRequest) .empty whole trivial
  cases hw
  exact absurd heq (by decide +kernel)

/-! ## `vector_body<reqargs>::size` -/

/-- `size_` is not set before it is compared with 0, as an unsigned number: `init` is what its
memory holds. -/
def VectorBody.size (init : UInt64) (vb : List ReqArg) : UInt64 :=
  if init < 0 then
    vb.foldl (fun size a => size + (UInt64.ofNat a.key.length + UInt64.ofNat a.value.length)) 0
  else init

/-- Nothing is below 0, so nothing is counted. -/
theorem VectorBody.size_init (init : UInt64) (vb : List ReqArg) : VectorBody.size init vb = init :=
  if_neg (UInt64.not_lt.mpr (UInt64.zero_le))

/-- For no vector does `size` say the number of bytes `write` puts on the stream, whatever the
memory holds: it says what the memory holds. -/
theorem VectorBody.size_ne_write (vb : List ReqArg) :
    (∀ init, VectorBody.size init vb = init) ∧
      ¬ ∀ init, (VectorBody.size init vb).toNat = (VectorBody.write vb).1.length := by
  refine ⟨fun init => VectorBody.size_init init vb, ?_⟩
  intro hall
  have hzero := hall 0
  have hone := hall 1
  rw [VectorBody.size_init] at hzero hone
  rw [← hzero] at hone
  exact absurd hone (by decide)

/-- An empty vector, and a 1 in the memory. -/
theorem VectorBody.size_garbage :
    ¬ ∀ (init : UInt64) (vb : List ReqArg),
      (VectorBody.size init vb).toNat = (VectorBody.write vb).1.length := by
  intro hall
  exact absurd (hall 1 []) (by decide)

end Http
end SimpleWeb
