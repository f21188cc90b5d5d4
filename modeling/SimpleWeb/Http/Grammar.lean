import SimpleWeb.Http.Read

/-!
# Http.Grammar

Well-formed request heads, as data that carry their own well-formedness: a request line, field
lines, and the empty line that ends the head. Each line chooses its own line ending.

* `bytes`  — the text of a piece.
* `fields` — what the field lines say: the value of the last line of each name.
* `Head.parser` — what a reader of the head should know afterwards.
-/

namespace SimpleWeb
namespace Http

inductive Eol where
  | lf
  | crlf
  deriving DecidableEq, Repr

def Eol.bytes : Eol → Bytes
  | .lf => [LF]
  | .crlf => [CR, LF]

inductive HttpVersion where
  | v10
  | v11
  deriving DecidableEq, Repr

def HttpVersion.number : HttpVersion → UInt32
  | .v10 => 10
  | .v11 => 11

def HttpVersion.bytes : HttpVersion → Bytes
  | .v10 => ascii "HTTP/1.0"
  | .v11 => ascii "HTTP/1.1"

/-- `n` further spaces behind a first one -/
def spaces (n : Nat) : Bytes := List.replicate n (byte ' ')

def isTargetByte (ch : UInt8) : Bool := usual ch || ch == byte '/' || ch == byte '.'

def isQueryByte (ch : UInt8) : Bool := isprint ch && ch != byte ' '

def isNameByte (ch : UInt8) : Bool := isLetter ch || isDigit ch || ch == byte '-'

/-- A target: a slash and any number of target bytes behind it. -/
structure Target where
  path : Bytes
  path_ok : ∀ c ∈ path, isTargetByte c = true

def Target.bytes (t : Target) : Bytes := byte '/' :: t.path

structure Query where
  bytes : Bytes
  bytes_ok : ∀ c ∈ bytes, isQueryByte c = true

structure RequestLine where
  lead : Bytes
  method : Verb
  gap₁ : Nat
  target : Target
  query : Option Query
  gap₂ : Nat
  version : HttpVersion
  eol : Eol
  lead_ok : ∀ c ∈ lead, c = CR ∨ c = LF
  method_ok : method ≠ .unknown

theorem RequestLine.lead_nil : ∀ c ∈ ([] : Bytes), c = CR ∨ c = LF := by simp

def queryBytes : Option Query → Bytes
  | none => []
  | some q => byte '?' :: q.bytes

def RequestLine.bytes (l : RequestLine) : Bytes :=
  l.lead ++ (l.method.toString ++ [byte ' ']) ++ (spaces l.gap₁ ++ l.target.bytes) ++
    (queryBytes l.query ++ [byte ' ']) ++ (spaces l.gap₂ ++ l.version.bytes) ++ l.eol.bytes

/-- The query string a reader keeps: the query and the one space that ends it. -/
def RequestLine.querystr (l : RequestLine) : Option Bytes :=
  l.query.map fun q => q.bytes ++ [byte ' ']

structure FieldLine where
  name : Bytes
  gap : Nat
  value : Bytes
  eol : Eol
  name_ok : ∀ c ∈ name, isNameByte c = true
  name_len : 0 < name.length ∧ name.length < MAXFIELDNAME
  value_ok : 0 ∉ value ∧ CR ∉ value ∧ LF ∉ value
  value_head : value ≠ [] ∧ value.head? ≠ some (byte ' ')

/-- A field line from its pieces, with conditions that can be computed. -/
def FieldLine.of (name : Bytes) (gap : Nat) (value : Bytes) (eol : Eol)
    (h : ((∀ c ∈ name, isNameByte c = true) ∧ 0 < name.length ∧ name.length < MAXFIELDNAME) ∧
      (0 ∉ value ∧ CR ∉ value ∧ LF ∉ value) ∧ value ≠ [] ∧ value.head? ≠ some (byte ' ')) :
    FieldLine :=
  ⟨name, gap, value, eol, h.1.1, h.1.2, h.2.1, h.2.2⟩

def FieldLine.bytes (l : FieldLine) : Bytes :=
  l.name ++ [byte ':'] ++ spaces l.gap ++ l.value ++ l.eol.bytes

def linesBytes (ls : List FieldLine) : Bytes := (ls.map FieldLine.bytes).flatten

/-- Assign the lines' values in order. -/
def assignLines (m : Fields) (ls : List FieldLine) : Fields :=
  ls.foldl (fun m l => m.insert l.name l.value) m

/-- The value of the last line with that name. -/
def lastValue (ls : List FieldLine) (name : Bytes) : Option Bytes :=
  (ls.reverse.find? fun l => l.name = name).map FieldLine.value

structure Head where
  line : RequestLine
  fields : List FieldLine
  eol : Eol

def Head.bytes (h : Head) : Bytes := h.line.bytes ++ linesBytes h.fields ++ h.eol.bytes

/-- Every token fits its array, terminator included. -/
structure RequestLine.Fits (l : RequestLine) (buffer : Bytes) : Prop where
  method : 7 ≤ buffer.length
  target : l.target.bytes.length < buffer.length
  query : ∀ q ∈ l.querystr, q.length < buffer.length

structure FieldLine.Fits (l : FieldLine) (st : Stack) : Prop where
  name : l.name.length < st.fieldname.length
  value : l.value.length < st.fieldvalue.length

structure Head.Fits (h : Head) (st : Stack) : Prop where
  line : h.line.Fits st.buffer
  fields : ∀ l ∈ h.fields, l.Fits st

/-- The parser after the request line, from the parser before. -/
def RequestLine.apply (l : RequestLine) (p : Parser) : Parser :=
  { p with
    message := { p.message with
      method := l.method, target := l.target.bytes, version := l.version.number }
    querystr := l.querystr.or p.querystr }

def Parser.assign (p : Parser) (ls : List FieldLine) : Parser :=
  { p with message := { p.message with fields := assignLines p.message.fields ls } }

def Head.parser (h : Head) : Parser :=
  { (h.line.apply .init).assign h.fields with headerDone := true }

/-! ## Small facts -/

theorem isTargetByte_ne {ch : UInt8} (h : isTargetByte ch = true) :
    ch ≠ 0 ∧ ch ≠ byte '?' ∧ ch ≠ byte ' ' := by
  simp only [isTargetByte, Bool.or_eq_true, beq_iff_eq] at h
  rcases h with (h | rfl) | rfl
  · simp only [usual_iff, List.mem_cons, List.not_mem_nil, or_false, not_or] at h
    simp [h]
  · simp
  · simp

theorem isQueryByte_ne {ch : UInt8} (h : isQueryByte ch = true) :
    isprint ch = true ∧ ch ≠ 0 ∧ ch ≠ byte ' ' := by
  revert ch; decide +kernel

theorem isNameByte_eq (ch : UInt8) : isNameByte ch = lowcase ch := (lowcase_eq ch).symm

theorem Target.nul_notMem (t : Target) : 0 ∉ t.bytes := by
  intro h
  rcases List.mem_cons.mp h with h | h
  · exact absurd h (by decide)
  · exact (isTargetByte_ne (t.path_ok 0 h)).1 rfl

theorem Query.nul_notMem (q : Query) : 0 ∉ q.bytes ++ [byte ' '] := by
  intro h
  rcases List.mem_append.mp h with h | h
  · exact (isQueryByte_ne (q.bytes_ok 0 h)).2.1 rfl
  · exact absurd h (by decide)

theorem FieldLine.lowcase_name (l : FieldLine) : ∀ c ∈ l.name, lowcase c = true :=
  fun c hc => (isNameByte_eq c).symm.trans (l.name_ok c hc)

theorem FieldLine.nul_notMem_name (l : FieldLine) : 0 ∉ l.name :=
  fun h => (lowcase_ne 0 (l.lowcase_name 0 h)).1 rfl

@[simp] theorem assignLines_nil (m : Fields) : assignLines m [] = m := rfl

@[simp] theorem assignLines_cons (m : Fields) (l : FieldLine) (ls : List FieldLine) :
    assignLines m (l :: ls) = assignLines (m.insert l.name l.value) ls := rfl

/-- The last line of a name wins, and names without a line keep what they had. -/
theorem getElem?_assignLines (ls : List FieldLine) (m : Fields) (k : Bytes) :
    (assignLines m ls)[k]? = (lastValue ls k).or m[k]? :=
  getElem?_foldl_insert FieldLine.name FieldLine.value ls m k

end Http
end SimpleWeb
