import SimpleWeb.Http.HeadCorrect

/-!
# Http.Write

The serializers of `http/write.hpp` and `write(ostream, fields)` of `http/fields.hpp`, as the
list of texts they insert into the stream and the count they return.

The response serializer ends its head with an empty line and the request serializer does not
(`writeHeader_response`, `writeHeader_request`), so the reader takes in every line of a written
request and still waits for the end of its head (`readHeader_write`).
-/

namespace SimpleWeb
namespace Http

def writeFields (fs : Fields) : List Bytes × Nat :=
  (fs.toList.flatMap fun (name, value) => [name, ascii ": ", value, ascii "\r\n"],
    (fs.toList.map fun (name, value) => name.length + value.length + 2).sum)

/-- `write_header` of a request serializer -/
def RequestHeader.writeHeader (m : RequestHeader) : List Bytes × Nat :=
  let (texts, bytes) := writeFields m.fields
  ([m.method.toString ++ ascii " " ++ m.target ++ ascii " " ++ versionString m.version,
      ascii "\r\n"] ++ texts,
    m.method.toString.length + m.target.length + (versionString m.version).length + 4 + bytes)

/-- `write_header` of a response serializer -/
def ResponseHeader.writeHeader (m : ResponseHeader) : List Bytes × Nat :=
  let (texts, bytes) := writeFields m.fields
  ([versionString m.version ++ ascii " " ++ m.status.toString, ascii "\r\n"] ++ texts ++
      [ascii "\r\n"],
    (versionString m.version).length + m.status.toString.length + 3 + bytes + 2)

/-- What `BodyHandler::write` inserts and returns. -/
abbrev BodyWriter (β : Type) := β → List Bytes × Int

def emptyBodyWrite : BodyWriter Unit := fun _ => ([], 0)

def stringBodyWrite : BodyWriter Bytes := fun body => ([body], body.length)

/-- `write(os, serializer)` behind `write_header`, with `uint64_t` sums -/
def writeMessage {β : Type} (header : List Bytes × Nat) (bodyWrite : BodyWriter β) (body : β) :
    List Bytes × UInt64 :=
  let (texts, n) := bodyWrite body
  (header.1 ++ texts, UInt64.ofNat header.2 + UInt64.ofInt n)

def RequestHeader.write {β : Type} (m : RequestHeader) (bodyWrite : BodyWriter β) (body : β) :
    List Bytes × UInt64 :=
  writeMessage m.writeHeader bodyWrite body

/-! ## The texts of the two heads -/

/-- An empty body adds no text. -/
theorem write_emptyBody (m : RequestHeader) : (m.write emptyBodyWrite ()).1 = m.writeHeader.1 :=
  List.append_nil _

def fieldBytes (fs : Fields) : Bytes :=
  (fs.toList.map fun (name, value) => name ++ ascii ": " ++ value ++ ascii "\r\n").flatten

theorem flatten_writeFields (fs : Fields) : (writeFields fs).1.flatten = fieldBytes fs := by
  simp only [writeFields, fieldBytes]
  induction fs.toList with
  | nil => rfl
  | cons kv l ih => simp [ih]

/-- A request head ends with its last field line. -/
theorem writeHeader_request (m : RequestHeader) :
    m.writeHeader.1.flatten =
      m.method.toString ++ ascii " " ++ m.target ++ ascii " " ++ versionString m.version ++
        ascii "\r\n" ++ fieldBytes m.fields := by
  simp [RequestHeader.writeHeader, flatten_writeFields]

/-- A response head ends with an empty line. -/
theorem writeHeader_response (m : ResponseHeader) :
    m.writeHeader.1.flatten =
      versionString m.version ++ ascii " " ++ m.status.toString ++ ascii "\r\n" ++
        fieldBytes m.fields ++ ascii "\r\n" := by
  simp [ResponseHeader.writeHeader, flatten_writeFields]

/-! ## Requests the reader should take back -/

structure RequestHeader.WellFormed (m : RequestHeader) : Prop where
  method : m.method ≠ .unknown
  target : ∃ t : Target, m.target = t.bytes
  version : m.version = 10 ∨ m.version = 11
  name : ∀ kv ∈ m.fields.toList, ∀ c ∈ kv.1, isNameByte c = true
  name_len : ∀ kv ∈ m.fields.toList, 0 < kv.1.length ∧ kv.1.length < MAXFIELDNAME
  value : ∀ kv ∈ m.fields.toList, 0 ∉ kv.2 ∧ CR ∉ kv.2 ∧ LF ∉ kv.2
  value_head : ∀ kv ∈ m.fields.toList, kv.2 ≠ [] ∧ kv.2.head? ≠ some (byte ' ')

structure RequestHeader.Fits (m : RequestHeader) (st : Stack) : Prop where
  method : 7 ≤ st.buffer.length
  target : m.target.length < st.buffer.length
  fields : ∀ kv ∈ m.fields.toList,
    kv.1.length < st.fieldname.length ∧ kv.2.length < st.fieldvalue.length

namespace RequestHeader

variable {m : RequestHeader}

/-- The lines `write_header` writes for the fields. -/
def fieldLines (h : m.WellFormed) : List FieldLine :=
  m.fields.toList.pmap
    (fun kv hkv => ⟨kv.1, 1, kv.2, .crlf, h.name kv hkv, h.name_len kv hkv, h.value kv hkv,
      h.value_head kv hkv⟩)
    fun _ hkv => hkv

theorem fieldLine_bytes (kv : Bytes × Bytes) :
    kv.1 ++ [byte ':'] ++ spaces 1 ++ kv.2 ++ Eol.crlf.bytes =
      kv.1 ++ ascii ": " ++ kv.2 ++ ascii "\r\n" := by
  have hcolon : ascii ": " = [byte ':', byte ' '] := rfl
  have heol : ascii "\r\n" = Eol.crlf.bytes := rfl
  rw [hcolon, heol]
  simp [spaces]

theorem linesBytes_fieldLines (h : m.WellFormed) :
    linesBytes (fieldLines h) = fieldBytes m.fields := by
  have hmap : (fieldLines h).map FieldLine.bytes =
      m.fields.toList.map fun kv => kv.1 ++ ascii ": " ++ kv.2 ++ ascii "\r\n" := by
    rw [fieldLines, List.map_pmap, ← List.pmap_eq_map (p := (· ∈ m.fields.toList))]
    · exact List.pmap_congr_left _ fun kv _ _ _ => fieldLine_bytes kv
    · exact fun _ hkv => hkv
  rw [linesBytes, hmap]
  rfl

theorem mem_fieldLines (h : m.WellFormed) {l : FieldLine} (hl : l ∈ fieldLines h) :
    (l.name, l.value) ∈ m.fields.toList := by
  obtain ⟨kv, hkv, rfl⟩ := List.mem_pmap.mp hl
  exact hkv

theorem exists_fieldLine (h : m.WellFormed) {kv : Bytes × Bytes} (hkv : kv ∈ m.fields.toList) :
    ∃ l ∈ fieldLines h, l.name = kv.1 ∧ l.value = kv.2 := by
  refine ⟨_, List.mem_pmap.mpr ⟨kv, hkv, rfl⟩, rfl, rfl⟩

/-- Assigned in order, the lines give the fields back. -/
theorem assignLines_fieldLines (h : m.WellFormed) : assignLines ∅ (fieldLines h) = m.fields := by
  refine Std.ExtTreeMap.ext_getElem? ?_
  intro k
  rw [getElem?_assignLines, Std.ExtTreeMap.getElem?_empty, Option.or_none, lastValue]
  cases hf : (fieldLines h).reverse.find? (fun l => l.name = k) with
  | some l =>
    have hname : l.name = k := by simpa using List.find?_some hf
    have hmem := mem_fieldLines h (List.mem_reverse.mp (List.mem_of_find?_eq_some hf))
    rw [Std.ExtTreeMap.mem_toList_iff_getElem?_eq_some, hname] at hmem
    exact hmem.symm
  | none =>
    cases hk : m.fields[k]? with
    | none => rfl
    | some v =>
      have hkv := Std.ExtTreeMap.mem_toList_iff_getElem?_eq_some.mpr hk
      obtain ⟨l, hl, hname, -⟩ := exists_fieldLine h hkv
      have hno := List.find?_eq_none.mp hf l (List.mem_reverse.mpr hl)
      exact absurd (decide_eq_true hname) hno

/-- The request line `write_header` writes. -/
def requestLine (h : m.WellFormed) (t : Target) (v : HttpVersion) : RequestLine where
  lead := []
  method := m.method
  gap₁ := 0
  target := t
  query := none
  gap₂ := 0
  version := v
  eol := .crlf
  lead_ok := RequestLine.lead_nil
  method_ok := h.method

theorem versionString_number (v : HttpVersion) : versionString v.number = v.bytes := by
  cases v with
  | v10 => rfl
  | v11 => rfl

theorem WellFormed.number (h : m.WellFormed) : ∃ v : HttpVersion, m.version = v.number := by
  rcases h.version with h | h
  · exact ⟨.v10, h⟩
  · exact ⟨.v11, h⟩

end RequestHeader

/-- The reader takes in the whole of a written request head, and its message, and the head is
still open. -/
theorem readHeader_write {m : RequestHeader} (h : m.WellFormed) {st : Stack} (hfit : m.Fits st) :
    readHeader st (m.write emptyBodyWrite ()).1.flatten .init =
      some (.ok, { Parser.init with message := m }, []) := by
  obtain ⟨t, ht⟩ := h.target
  obtain ⟨v, hv⟩ := h.number
  have hbytes : (m.write emptyBodyWrite ()).1.flatten =
      (RequestHeader.requestLine h t v).bytes ++ linesBytes (RequestHeader.fieldLines h) := by
    have hspace : ascii " " = [byte ' '] := rfl
    have heol : ascii "\r\n" = Eol.crlf.bytes := rfl
    rw [RequestHeader.linesBytes_fieldLines, write_emptyBody, writeHeader_request, ht, hv,
      RequestHeader.versionString_number, hspace, heol]
    simp [RequestHeader.requestLine, RequestLine.bytes, queryBytes, spaces]
  have htarget : t.bytes.length < st.buffer.length := ht ▸ hfit.target
  have hline := readHeaderLine_bytes (RequestHeader.requestLine h t v) (b := st.buffer)
    ⟨hfit.method, htarget, by simp [RequestHeader.requestLine, RequestLine.querystr]⟩
    (linesBytes (RequestHeader.fieldLines h)) .init
  have hfields := readFields_open (RequestHeader.fieldLines h) (a := st.fieldname)
    (b := st.fieldvalue) (p := (RequestHeader.requestLine h t v).apply .init)
    (fun l hl => hfit.fields _ (RequestHeader.mem_fieldLines h hl)) rfl
  have hpar : ((RequestHeader.requestLine h t v).apply .init).assign (RequestHeader.fieldLines h) =
      { Parser.init with message := m } := by
    have hassign := RequestHeader.assignLines_fieldLines h
    simp only [Parser.assign, RequestLine.apply, RequestHeader.requestLine, Parser.init,
      RequestHeader.init, hassign, ← ht, ← hv, Option.map_none, RequestLine.querystr,
      Option.none_or]
  rw [hbytes, readHeader, hline]
  exact hfields.trans (by rw [hpar])

/-- No written request comes back: the reader never sees the end of its head. -/
theorem readHeader_write_ne (m : RequestHeader) (h : m.WellFormed) (st : Stack)
    (hfit : m.Fits st) :
    ¬ ∃ par rest,
      readHeader st (m.write emptyBodyWrite ()).1.flatten .init = some (.ok, par, rest) ∧
      par.headerDone = true ∧ par.message.method = m.method ∧ par.message.target = m.target ∧
      par.message.version = m.version ∧ par.message.fields = m.fields := by
  rintro ⟨par, rest, hread, hdone, -⟩
  rw [readHeader_write h hfit] at hread
  cases hread
  exact absurd hdone (by simp [Parser.init])

/-- `GET / HTTP/1.0` with one field -/
def hostRequest : RequestHeader where
  method := .get
  version := 10
  target := ascii "/"
  fields := (∅ : Fields).insert (ascii "Host") (ascii "localhost")

theorem hostRequest_toList :
    hostRequest.fields.toList = [(ascii "Host", ascii "localhost")] := by decide +kernel

theorem hostRequest_wellFormed : hostRequest.WellFormed where
  method := by decide
  target := ⟨⟨[], nofun⟩, rfl⟩
  version := .inl rfl
  name := by rw [hostRequest_toList]; decide +kernel
  name_len := by rw [hostRequest_toList]; decide +kernel
  value := by rw [hostRequest_toList]; decide +kernel
  value_head := by rw [hostRequest_toList]; decide +kernel

theorem hostRequest_fits : hostRequest.Fits .zero where
  method := by decide +kernel
  target := by decide +kernel
  fields := by rw [hostRequest_toList]; decide +kernel

theorem readHeader_write_ne_host :
    ¬ ∃ par rest, readHeader .zero (hostRequest.write emptyBodyWrite ()).1.flatten .init =
        some (.ok, par, rest) ∧
      par.headerDone = true ∧ par.message.method = hostRequest.method ∧
      par.message.target = hostRequest.target ∧ par.message.version = hostRequest.version ∧
      par.message.fields = hostRequest.fields :=
  readHeader_write_ne hostRequest hostRequest_wellFormed .zero hostRequest_fits

/-- `GET / HTTP/1.0` without fields is one line, and nothing ends its head. -/
theorem readHeader_write_bare :
    (⟨.get, 10, ascii "/", ∅⟩ : RequestHeader).WellFormed ∧
      ((⟨.get, 10, ascii "/", ∅⟩ : RequestHeader).write emptyBodyWrite ()).1.flatten =
        ascii "GET / HTTP/1.0\r\n" ∧
      ¬ ∃ par rest, readHeader .zero (ascii "GET / HTTP/1.0\r\n") .init = some (.ok, par, rest) ∧
        par.headerDone = true := by
  have hempty : (∅ : Fields).toList = [] := by decide
  have hread : (readHeader .zero (ascii "GET / HTTP/1.0\r\n") .init).map
      (fun r => (r.1, r.2.1.headerDone)) = some (.ok, false) := by decide +kernel
  refine ⟨⟨by decide, ⟨⟨[], nofun⟩, rfl⟩, .inl rfl, ?_, ?_, ?_, ?_⟩, by decide +kernel, ?_⟩
  · simp [hempty]
  · simp [hempty]
  · simp [hempty]
  · simp [hempty]
  · rintro ⟨par, rest, h, hdone⟩
    rw [h] at hread
    simp [hdone] at hread

end Http
end SimpleWeb
