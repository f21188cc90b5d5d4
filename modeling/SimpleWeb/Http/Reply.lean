import SimpleWeb.Lib.Frames
import SimpleWeb.Http.Write

/-!
# Http.Reply

A response as its client reads it: lines up to an empty one, the first cut at a space and each of
the others at a colon, and a body. The response serializer writes names and values as they are, so
a head comes back as it was as long as no name holds a colon and nothing in it a carriage return
(`Reply.read_write`).
-/

namespace SimpleWeb
namespace Http

open Frames

structure Reply where
  version : Bytes
  status : Bytes
  fields : List (Bytes × Bytes)
  body : Bytes
  deriving DecidableEq

namespace Reply

def readField (line : Bytes) : Option (Bytes × Bytes) :=
  match cut (byte ':') line with
  | some (name, c :: value) => if c = byte ' ' then some (name, value) else none
  | _ => none

def readFields : List Bytes → Option (List (Bytes × Bytes))
  | [] => some []
  | line :: lines => (readField line).bind fun kv => (readFields lines).map (kv :: ·)

def read (bs : Bytes) : Option Reply :=
  match readLines CR LF bs with
  | some (line :: lines, body) =>
    (cut (byte ' ') line).bind fun (version, status) =>
      (readFields lines).map fun fields => ⟨version, status, fields, body⟩
  | _ => none

end Reply

/-- Nothing in the fields is taken for the end of a name, a line or the head. -/
def ResponseHeader.Clean (m : ResponseHeader) : Prop :=
  ∀ name value : Bytes, m.fields[name]? = some value →
    byte ':' ∉ name ∧ CR ∉ name ∧ CR ∉ value

/-- The reply that was meant -/
def ResponseHeader.reply (m : ResponseHeader) (body : Bytes) : Reply :=
  ⟨versionString m.version, m.status.toString, m.fields.toList, body⟩

def fieldText (kv : Bytes × Bytes) : Bytes := kv.1 ++ ascii ": " ++ kv.2

section Read

variable {m : ResponseHeader}

theorem versionString_clean (version : UInt32) :
    byte ' ' ∉ versionString version ∧ CR ∉ versionString version := by
  have htexts : ∀ text ∈ [ascii "HTTP/1.1", ascii "HTTP/1.0", ascii "unknown"],
      byte ' ' ∉ text ∧ CR ∉ text := by decide
  refine htexts _ ?_
  unfold versionString
  split
  · simp
  · split <;> simp

theorem Status.toString_clean (s : Status) : CR ∉ s.toString := by
  cases s <;> decide

theorem Reply.readField_text {kv : Bytes × Bytes} (h : byte ':' ∉ kv.1) :
    readField (fieldText kv) = some kv := by
  have hsplit : fieldText kv = kv.1 ++ byte ':' :: byte ' ' :: kv.2 := by
    simp [fieldText, ascii]
  rw [hsplit, readField, cut_append h]
  exact if_pos rfl

theorem Reply.readFields_texts {fs : List (Bytes × Bytes)} (h : ∀ kv ∈ fs, byte ':' ∉ kv.1) :
    readFields (fs.map fieldText) = some fs := by
  induction fs with
  | nil => rfl
  | cons kv fs ih =>
    have hrest := ih fun kv' hkv' => h kv' (List.mem_cons_of_mem _ hkv')
    rw [List.map_cons, readFields, readField_text (h kv List.mem_cons_self), hrest]
    rfl

/-- The head is written as lines. -/
theorem writeHeader_lines (m : ResponseHeader) :
    m.writeHeader.1.flatten = writeLines CR LF
      ((versionString m.version ++ byte ' ' :: m.status.toString) ::
        m.fields.toList.map fieldText) := by
  have hspace : ascii " " = [byte ' '] := rfl
  have heol : ascii "\r\n" = [CR, LF] := rfl
  rw [writeHeader_response, hspace, heol, fieldBytes, heol]
  simp [writeLines, fieldText, List.flatMap_def, Function.comp_def]

/-- A clean response comes back, whatever its body. -/
theorem Reply.read_write (h : m.Clean) (body : Bytes) :
    Reply.read (m.writeHeader.1.flatten ++ body) = some (m.reply body) := by
  have hfields : ∀ kv ∈ m.fields.toList, byte ':' ∉ kv.1 ∧ CR ∉ kv.1 ∧ CR ∉ kv.2 := by
    intro kv hkv
    exact h kv.1 kv.2 (Std.ExtTreeMap.mem_toList_iff_getElem?_eq_some.mp hkv)
  obtain ⟨hspace, hversion⟩ := versionString_clean m.version
  have hlines : ∀ t ∈ (versionString m.version ++ byte ' ' :: m.status.toString) ::
      m.fields.toList.map fieldText, t ≠ [] ∧ CR ∉ t := by
    intro t ht
    rcases List.mem_cons.mp ht with rfl | ht
    · refine ⟨by simp, ?_⟩
      rw [List.mem_append, List.mem_cons, not_or, not_or]
      exact ⟨hversion, by decide, Status.toString_clean m.status⟩
    · obtain ⟨kv, hkv, rfl⟩ := List.mem_map.mp ht
      obtain ⟨-, hname, hvalue⟩ := hfields kv hkv
      refine ⟨by simp [fieldText, ascii], ?_⟩
      rw [fieldText, List.mem_append, List.mem_append, not_or, not_or]
      exact ⟨⟨hname, by decide⟩, hvalue⟩
  rw [writeHeader_lines, Reply.read, readLines_write hlines]
  simp only [cut_append hspace, Option.bind_some,
    readFields_texts fun kv hkv => (hfields kv hkv).1, Option.map_some]
  rfl

theorem ResponseHeader.Clean.insert (h : m.Clean) {name value : Bytes} (hcolon : byte ':' ∉ name)
    (hname : CR ∉ name) (hvalue : CR ∉ value) :
    ResponseHeader.Clean { m with fields := m.fields.insert name value } := by
  intro name' value' hget
  simp only [Std.ExtTreeMap.getElem?_insert] at hget
  split at hget
  · rename_i heq
    have heq := Std.LawfulEqCmp.eq_of_compare heq
    cases hget
    exact ⟨heq ▸ hcolon, heq ▸ hname, hvalue⟩
  · exact h name' value' hget

end Read

end Http
end SimpleWeb
