import SimpleWeb.Utils

/-!
# Http.Message

Verbs, status codes, fields and headers (`http/message.hpp`, `http/status.hpp`,
`http/fields.hpp`). `std::map` iterates in key order and holds one value per key, so `Fields` is
the ordered map of the standard library.
-/

namespace SimpleWeb
namespace Http

inductive Verb where
  | unknown
  | delete
  | get
  | head
  | post
  | put
  deriving DecidableEq, Repr

def Verb.toString : Verb → Bytes
  | .unknown => ascii "UNKNOWN"
  | .delete => ascii "DELETE"
  | .get => ascii "GET"
  | .head => ascii "HEAD"
  | .post => ascii "POST"
  | .put => ascii "PUT"

abbrev Fields := Std.ExtTreeMap Bytes Bytes compare

/-- Assigning values in order: the last value of a name stays, and names that get none keep what
they had. -/
theorem getElem?_foldl_insert {α : Type} (name value : α → Bytes) (ls : List α) :
    ∀ (m : Fields) (k : Bytes),
      (ls.foldl (fun m l => m.insert (name l) (value l)) m)[k]? =
        ((ls.reverse.find? fun l => name l = k).map value).or m[k]? := by
  induction ls with
  | nil => intro m k; simp
  | cons l ls ih =>
    intro m k
    rw [List.foldl_cons, ih, Std.ExtTreeMap.getElem?_insert]
    simp only [List.reverse_cons, List.find?_append, List.find?_singleton]
    cases hf : ls.reverse.find? (fun l => name l = k) with
    | some l' => simp
    | none =>
      by_cases hk : name l = k
      · simp [hk]
      · simp [hk, Std.LawfulEqCmp.compare_eq_iff_eq]

/-- `header<true>` over `fields` -/
structure RequestHeader where
  method : Verb
  version : UInt32
  target : Bytes
  fields : Fields

/-- A value-initialised header. -/
def RequestHeader.init : RequestHeader := ⟨.unknown, 0, [], ∅⟩

/-- `version_string()`, the same in both headers -/
def versionString (version : UInt32) : Bytes :=
  if version = 11 then ascii "HTTP/1.1"
  else if version = 10 then ascii "HTTP/1.0"
  else ascii "unknown"

inductive Status where
  | unknown
  | ok
  | badRequest
  | forbidden
  | notFound
  | internalServerError
  | badGateway
  deriving DecidableEq, Repr

def Status.toString : Status → Bytes
  | .unknown => []
  | .ok => ascii "200 Ok"
  | .badRequest => ascii "400 Bad Request"
  | .forbidden => ascii "403 Forbidden"
  | .notFound => ascii "404 Not Found"
  | .internalServerError => ascii "500 Internal Server Error"
  | .badGateway => ascii "502 Bad Gateway"

/-- `header<false>` over `fields` -/
structure ResponseHeader where
  status : Status
  version : UInt32
  fields : Fields

end Http
end SimpleWeb
