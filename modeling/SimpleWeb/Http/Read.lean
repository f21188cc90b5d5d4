import SimpleWeb.Lib.ScanLoop
import SimpleWeb.Http.Message

/-!
# Http.Read

The request reader of `http/read.hpp`: `read_header_line`, `read_header`, `read_body`, `read`.

Both header machines are byte loops (`ScanLoop.loop`) over the bytes the stream delivers. Their
stack arrays are parameters (`Stack`): whatever they hold at the start is never looked at, and an
index outside of them faults (`none`). In the source they have 1024, `MAXFIELDNAME` and
`MAXFIELDVALUE` elements (`Stack.Sized`); arrays longer than the input stand for unbounded ones.
-/

namespace SimpleWeb
namespace Http

open ScanLoop CArray

inductive ParserEc where
  | ok
  | invalidMethod
  | invalidRequest
  | invalidHeader
  deriving DecidableEq, Repr

/-- The parser of a request, its body apart. -/
structure Parser where
  message : RequestHeader
  querystr : Option Bytes
  headerDone : Bool
  done : Bool

def Parser.init : Parser := ⟨RequestHeader.init, none, false, false⟩

structure Stack where
  buffer : Bytes
  fieldname : Bytes
  fieldvalue : Bytes

structure Stack.Sized (st : Stack) : Prop where
  buffer : st.buffer.length = 1024
  fieldname : st.fieldname.length = MAXFIELDNAME
  fieldvalue : st.fieldvalue.length = MAXFIELDVALUE

/-- Zeroed arrays of the sizes in the source. -/
def Stack.zero : Stack :=
  ⟨List.replicate 1024 0, List.replicate MAXFIELDNAME 0, List.replicate MAXFIELDVALUE 0⟩

theorem Stack.zero_sized : Stack.zero.Sized :=
  ⟨List.length_replicate, List.length_replicate, List.length_replicate⟩

/-! ## `read_header_line` -/

inductive LineState where
  | start
  | method
  | spacesBeforeUri
  | afterSlashInUri
  | checkUri
  | params
  | http
  | httpMajor
  | httpMinor
  | done
  deriving DecidableEq, Repr

/-- The locals of `read_header_line` and its parser. `i` is a `uint16_t`: with 1024 elements the
store faults long before the counter could wrap. -/
structure LineVars where
  state : LineState
  buffer : Bytes
  i : Nat
  httpVersion : UInt32
  headerLineIsDone : Bool
  par : Parser

abbrev LinePass := Pass ParserEc LineVars

/-- `buffer[i++] = ch` -/
def LineVars.put (s : LineVars) (ch : UInt8) : Option LineVars :=
  (store s.buffer s.i ch).map fun b => { s with buffer := b, i := s.i + 1 }

/-- `buffer[i] = '\0'` -/
def LineVars.terminate (s : LineVars) : Option LineVars :=
  (store s.buffer s.i 0).map fun b => { s with buffer := b }

def LineVars.setMethod (s : LineVars) (v : Verb) : LineVars :=
  { s with par := { s.par with message := { s.par.message with method := v } } }

def LineVars.setTarget (s : LineVars) (t : Bytes) : LineVars :=
  { s with par := { s.par with message := { s.par.message with target := t } } }

def LineVars.setQuerystr (s : LineVars) (q : Bytes) : LineVars :=
  { s with par := { s.par with querystr := some q } }

/-- The `switch(i-1)` of `s_method`, whose cases fall through to the next. -/
def methodCase6 (buffer : Bytes) : Option Verb :=
  if strncmpEq buffer (ascii "DELETE") 6 then some .delete else none

def methodCase4 (buffer : Bytes) : Option Verb :=
  if strncmpEq buffer (ascii "HEAD") 4 then some .head
  else if strncmpEq buffer (ascii "POST") 4 then some .post
  else methodCase6 buffer

def methodCase3 (buffer : Bytes) : Option Verb :=
  if strncmpEq buffer (ascii "GET") 3 then some .get
  else if strncmpEq buffer (ascii "PUT") 3 then some .put
  else methodCase4 buffer

def methodSwitch (buffer : Bytes) : Nat → Option Verb
  | 3 => methodCase3 buffer
  | 4 => methodCase4 buffer
  | 6 => methodCase6 buffer
  | _ => none

/-- `http_version*10 + ch - '0'` in `unsigned` arithmetic -/
def versionDigit (v : UInt32) (ch : UInt8) : UInt32 :=
  if byte '0' ≤ ch ∧ ch ≤ byte '9' then v * 10 + ch.toUInt32 - (byte '0').toUInt32 else v

def lineBody (ch : UInt8) (s : LineVars) : LinePass :=
  match s.state with
  | .start =>
    if ch = CR ∨ ch = LF then .next s
    else if ch < byte 'A' ∨ ch > byte 'Z' then .ret .invalidMethod s
    else .must ({ s with state := .method, i := 0 }.put ch) .next
  | .method =>
    .must (s.put ch) fun s =>
    if ch = byte ' ' then
      match methodSwitch s.buffer (s.i - 1) with
      | some v => .next { s.setMethod v with state := .spacesBeforeUri, i := 0 }
      | none => .ret .invalidMethod s
    else if ch < byte 'A' ∨ ch > byte 'Z' then .ret .invalidMethod s
    else .next s
  | .spacesBeforeUri =>
    if ch = byte '/' then .must (s.put ch) fun s => .next { s with state := .afterSlashInUri }
    else if ch = byte ' ' then .next s
    else .ret .invalidRequest s
  | .afterSlashInUri =>
    if usual ch then .must (s.put ch) .next
    else if ch = byte '?' then
      .must s.terminate fun s => .next { s.setTarget (cstr s.buffer) with state := .params, i := 0 }
    else if ch = byte '/' then .must (s.put ch) .next
    else if ch = byte ' ' then
      .must s.terminate fun s => .next { s.setTarget (cstr s.buffer) with state := .http, i := 0 }
    else if ch = byte '.' then .must (s.put ch) .next
    else .ret .invalidRequest s
  | .checkUri => .next s
  | .params =>
    .must (if isprint ch then s.put ch else some s) fun s =>
    if ch = byte ' ' then
      .must s.terminate fun s =>
      let s := if s.i ≠ 0 then s.setQuerystr (cstr s.buffer) else s
      .next { s with state := .http, i := 0 }
    else if ch = 0 then .ret .invalidRequest s
    else .next s
  | .http =>
    .must (if usual ch then s.put ch else some s) fun s =>
    if s.i = 4 ∧ !strncmpEq s.buffer (ascii "HTTP") 4 then .ret .invalidRequest s
    else if ch = byte '/' then .next { s with state := .httpMajor }
    else .next s
  | .httpMajor =>
    if usual ch then
      let v := versionDigit s.httpVersion ch
      if v > 1 then .ret .invalidRequest { s with httpVersion := v }
      else .next { s with httpVersion := v }
    else if ch = byte '.' then .next { s with state := .httpMinor }
    else if ch = byte ' ' then .next s
    else if ch = LF then .ret .invalidRequest { s with headerLineIsDone := true }
    else .ret .invalidRequest s
  | .httpMinor =>
    if usual ch then
      let v := versionDigit s.httpVersion ch
      if v > 11 then .ret .invalidRequest { s with httpVersion := v }
      else .next { s with httpVersion := v }
    else if ch = byte ' ' then .next s
    -- the `break` behind `if(ch == LF)` is not part of it: what follows is never reached
    else if ch = LF then .next { s with headerLineIsDone := true }
    else .next s
  | .done =>
    if ch = CR then .next s
    else if ch = LF then .next { s with headerLineIsDone := true }
    else .next s

def lineGuard (s : LineVars) : Bool := !s.headerLineIsDone

def readHeaderLine (buffer is : Bytes) (par : Parser) : Option (ParserEc × Parser × Bytes) :=
  match loop lineGuard lineBody ⟨.start, buffer, 0, 0, false, par⟩ is with
  | .done s rest =>
    some (.ok, { s.par with message := { s.par.message with version := s.httpVersion } }, rest)
  | .ret ec s rest => some (ec, s.par, rest)
  | .fault => none

/-! ## `read_header` -/

inductive HeaderState where
  | start
  | name
  | spacesBeforeValue
  | value
  | spacesAfterValue
  | almostDone
  | done
  | headerAlmostDone
  | headerDone
  deriving DecidableEq, Repr

structure HeaderVars where
  state : HeaderState
  fieldname : Bytes
  fieldvalue : Bytes
  i : Nat
  par : Parser

abbrev HeaderPass := Pass ParserEc HeaderVars

/-- `fieldname[i++] = ch` -/
def HeaderVars.putName (s : HeaderVars) (ch : UInt8) : Option HeaderVars :=
  (store s.fieldname s.i ch).map fun b => { s with fieldname := b, i := s.i + 1 }

/-- `fieldvalue[i++] = ch` -/
def HeaderVars.putValue (s : HeaderVars) (ch : UInt8) : Option HeaderVars :=
  (store s.fieldvalue s.i ch).map fun b => { s with fieldvalue := b, i := s.i + 1 }

/-- `par.message_[std::string(fieldname)] = v` -/
def HeaderVars.setField (s : HeaderVars) (v : Bytes) : HeaderVars :=
  { s with par := { s.par with message := { s.par.message with
      fields := s.par.message.fields.insert (cstr s.fieldname) v } } }

def HeaderVars.setHeaderDone (s : HeaderVars) : HeaderVars :=
  { s with par := { s.par with headerDone := true } }

/-- `fieldvalue[i]='\0'; par.message_[std::string(fieldname)] = std::string(fieldvalue)` -/
def HeaderVars.endValue (s : HeaderVars) : Option HeaderVars :=
  (store s.fieldvalue s.i 0).map fun b => { s with fieldvalue := b }.setField (cstr b)

def headerBody (ch : UInt8) (s : HeaderVars) : HeaderPass :=
  match s.state with
  | .start =>
    if ch = CR then .next { s with state := .headerAlmostDone }
    else if ch = LF then .next s.setHeaderDone
    else if lowcase ch then
      .must ({ s with i := 0 }.putName ch) fun s => .next { s with state := .name }
    else .next s
  | .name =>
    if lowcase ch ∧ s.i < MAXFIELDNAME then .must (s.putName ch) .next
    else if ch = byte ':' ∧ s.i < MAXFIELDNAME then
      .must (store s.fieldname s.i 0) fun b =>
      .next { s with fieldname := b, state := .spacesBeforeValue }
    else .ret .invalidRequest s
  | .spacesBeforeValue =>
    if ch = byte ' ' then .next s
    -- assigning the character '\0' to a std::string leaves a string of one byte
    else if ch = CR then .next { s.setField [0] with state := .almostDone }
    else if ch = LF then .next { s.setField [0] with state := .start }
    else .must ({ s with i := 0 }.putValue ch) fun s => .next { s with state := .value }
  | .value =>
    if ch = byte ' ' then .must (s.putValue ch) .next
    else if ch = CR then .must s.endValue fun s => .next { s with state := .almostDone }
    else if ch = LF then .must s.endValue fun s => .next { s with state := .start }
    else if ch = 0 then .ret .invalidHeader s
    else .must (s.putValue ch) .next
  | .almostDone =>
    if ch = CR then .next { s with state := .done }
    else if ch = LF then .next { s with state := .start }
    else .next s
  | .done =>
    if ch = LF then .next { s with state := .start } else .next s
  | .headerAlmostDone =>
    if ch = LF then .next { s.setHeaderDone with state := .headerDone }
    else .ret .invalidHeader s
  | .spacesAfterValue => .ret .invalidHeader s
  | .headerDone => .ret .invalidHeader s

def headerGuard (s : HeaderVars) : Bool := !s.par.headerDone

/-- The loop of `read_header` behind the request line. -/
def readFields (fieldname fieldvalue is : Bytes) (par : Parser) :
    Option (ParserEc × Parser × Bytes) :=
  match loop headerGuard headerBody ⟨.start, fieldname, fieldvalue, 0, par⟩ is with
  | .done s rest => some (.ok, s.par, rest)
  | .ret ec s rest => some (ec, s.par, rest)
  | .fault => none

def readHeader (st : Stack) (is : Bytes) (par : Parser) : Option (ParserEc × Parser × Bytes) :=
  match readHeaderLine st.buffer is par with
  | some (.ok, par, rest) => readFields st.fieldname st.fieldvalue rest par
  | r => r

/-! ## `read_body`, `read` -/

/-- What `BodyHandler::read` does with a stream and a body: its count, the body it leaves and
the unread bytes; `none` when it faults. -/
abbrev BodyReader (β : Type) := Bytes → β → Option (Int × β × Bytes)

/-- The stream `read_body` hands to the handler: the query string when there is one. -/
def bodyStream (is : Bytes) (par : Parser) : Bytes := par.querystr.getD is

/-- `read_body` drops the count and returns 0. With a query string the connection is not read. -/
def readBody {β : Type} (bodyRead : BodyReader β) (is : Bytes) (par : Parser) (body : β) :
    Option (Int × β × Bytes) :=
  match par.querystr with
  | none => (bodyRead is body).map fun (_, b, rest) => (0, b, rest)
  | some q => (bodyRead q body).map fun (_, b, _) => (0, b, is)

/-- What the handler makes of its stream is the body that is left. -/
theorem readBody_body {β : Type} (bodyRead : BodyReader β) (is : Bytes) (par : Parser) (body : β) :
    (readBody bodyRead is par body).map (fun r => r.2.1) =
      (bodyRead (bodyStream is par) body).map fun r => r.2.1 := by
  unfold readBody bodyStream
  cases par.querystr with
  | none => simp [Function.comp_def]
  | some q => simp [Function.comp_def]

def read {β : Type} (bodyRead : BodyReader β) (st : Stack) (is : Bytes) (par : Parser) (body : β) :
    Option (Int × Parser × β × Bytes) :=
  match readHeader st is par with
  | some (.ok, par, rest) =>
    (readBody bodyRead rest par body).map fun (_, b, rest) =>
      (0, { par with done := true }, b, rest)
  | some (_, par, rest) => some (-1, par, body, rest)
  | none => none

end Http
end SimpleWeb
