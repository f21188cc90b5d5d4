import SimpleWeb.Lib.Ostream
import SimpleWeb.Http.Write
import SimpleWeb.Http.FileBody

/-!
# Http.ResponseWrite

`write(os, serializer)` of a response over a connection whose `write(2)` may take less than it is
offered. The head and a string body are inserted into the stream, which inserts nothing any more
once a write fell short; a file body calls the stream buffer itself, past the state of the
stream. So bytes follow a truncated head exactly when a write of the file's loop is given some
(`write_truncated_iff`).
-/

namespace SimpleWeb
namespace Http

open Ostream FileBody

/-- A string, or a mapped file: its size, and the memory from the start of the mapping on. -/
inductive ResponseBody where
  | string (text : Bytes)
  | sharedFile (size : Nat) (mapping : Nat → UInt8)

def ResponseBody.bytes : ResponseBody → Bytes
  | .string text => text
  | .sharedFile size mapping => (List.range size).map mapping

/-- The positions of the mapping that have been sent. -/
def FileBody.WriteState.accepted : WriteState → List Nat
  | .calling s => s.accepted
  | .returned s => s.accepted

/-- Everything sent when `BodyHandler::write` has made `k` calls, from the stream behind the
head. -/
def bodySent (results : Nat → SputnResult) (s : Sink UInt8) : ResponseBody → Nat → Bytes
  | .string _, 0 => s.sent
  | .string text, _ + 1 => (insert (fun k => (results k).res) s text).sent
  | .sharedFile size mapping, k =>
    s.sent ++ (FileBody.write size (fun i => results (s.calls + i)) k).accepted.map mapping

/-- Everything sent after `t` insertions of the head, or all of them and the rest of `t` calls of
the body. -/
def ResponseHeader.sent (m : ResponseHeader) (body : ResponseBody)
    (results : Nat → SputnResult) (t : Nat) : Bytes :=
  bodySent results (insertAll (fun k => (results k).res) (m.writeHeader.1.take t)) body
    (t - m.writeHeader.1.length)

/-- The result on which the file's loop gives up. -/
def SputnGivesUp (r : SputnResult) : Prop := toInt32 r.res < 0 ∧ r.efault = true

/-- No call the body makes is given a byte. -/
def ResponseBody.Quiet (results : Nat → SputnResult) : ResponseBody → Prop
  | .string _ => True
  | .sharedFile size _ => size = 0 ∨
      ∀ i, (∀ i' < i, ¬ SputnGivesUp (results i')) → toInt32 (results i).res ≤ 0

/-! ## The loop of the file -/

section File

variable {size : Nat} {results : Nat → SputnResult}

/-- While nothing is accepted and nothing makes it give up, the loop stays where it is. -/
theorem write_waiting (hpos : 0 < size) (k : Nat) (hgo : ∀ i < k, ¬ SputnGivesUp (results i))
    (hres : ∀ i < k, toInt32 (results i).res ≤ 0) :
    ∃ nums, FileBody.write size results k = .calling ⟨nums, 0, []⟩ := by
  induction k with
  | zero => exact ⟨_, write_first hpos results⟩
  | succ k ih =>
    obtain ⟨nums, hk⟩ := ih (fun i hi => hgo i (by omega)) (fun i hi => hres i (by omega))
    have hle := hres k (by omega)
    rw [FileBody.write, hk]
    simp only [writeBody]
    by_cases hneg : toInt32 (results k).res < 0
    · have hefault : ¬ (results k).efault = true := fun h => hgo k (by omega) ⟨hneg, h⟩
      rw [if_pos hneg, if_neg hefault, whileTest, if_pos hpos]
      exact ⟨_, rfl⟩
    · have hzero : (toInt32 (results k).res).toNat = 0 := by omega
      rw [if_neg hneg, whileTest, hzero, if_pos hpos]
      exact ⟨_, rfl⟩

theorem write_accepts (hpos : 0 < size) {k : Nat} (hgo : ∀ i < k, ¬ SputnGivesUp (results i))
    (hres : ∀ i < k, toInt32 (results i).res ≤ 0) (hk : 0 < toInt32 (results k).res) :
    (FileBody.write size results (k + 1)).accepted ≠ [] := by
  obtain ⟨nums, hcall⟩ := write_waiting hpos k hgo hres
  have hneg : ¬ toInt32 (results k).res < 0 := by omega
  rw [FileBody.write, hcall]
  simp only [writeBody, if_neg hneg, List.nil_append, Nat.zero_add, whileTest]
  have hne : List.range' 0 (toInt32 (results k).res).toNat ≠ [] := by
    rw [Ne, List.range'_eq_nil_iff]
    omega
  split
  · exact hne
  · exact hne

theorem write_gives_up (hpos : 0 < size) {k : Nat} (hgo : ∀ i < k, ¬ SputnGivesUp (results i))
    (hres : ∀ i < k, toInt32 (results i).res ≤ 0) (hk : SputnGivesUp (results k)) :
    ∃ nums, FileBody.write size results (k + 1) = .returned ⟨nums, 0, []⟩ := by
  obtain ⟨nums, hcall⟩ := write_waiting hpos k hgo hres
  refine ⟨nums, ?_⟩
  rw [FileBody.write, hcall]
  simp only [writeBody, if_pos hk.1, if_pos hk.2]

/-- A loop whose calls are all given nothing until it gives up has accepted nothing. -/
theorem write_quiet (hpos : 0 < size)
    (hq : ∀ i, (∀ i' < i, ¬ SputnGivesUp (results i')) → toInt32 (results i).res ≤ 0) (k : Nat) :
    (FileBody.write size results k).accepted = [] := by
  classical
  by_cases hgo : ∀ i < k, ¬ SputnGivesUp (results i)
  · have hres : ∀ i < k, toInt32 (results i).res ≤ 0 := fun i hi =>
      hq i fun i' hi' => hgo i' (by omega)
    obtain ⟨nums, hk⟩ := write_waiting hpos k hgo hres
    rw [hk]
    rfl
  · -- the first call on which it gives up
    have hex : ∃ i, i < k ∧ SputnGivesUp (results i) := by simpa using hgo
    obtain ⟨hlt, hup⟩ := Nat.find_spec hex
    have hfirst : ∀ i < Nat.find hex, ¬ SputnGivesUp (results i) := fun i hi h =>
      Nat.find_min hex hi ⟨by omega, h⟩
    have hres : ∀ i < Nat.find hex, toInt32 (results i).res ≤ 0 := fun i hi =>
      hq i fun i' hi' => hfirst i' (by omega)
    obtain ⟨nums, hret⟩ := write_gives_up hpos hfirst hres hup
    have hk := write_returned hret (k - (Nat.find hex + 1))
    rw [Nat.add_sub_cancel' hlt] at hk
    rw [hk]
    rfl

theorem fileQuiet_iff (mapping : Nat → UInt8) :
    (ResponseBody.sharedFile size mapping).Quiet results ↔
      ∀ k, (FileBody.write size results k).accepted = [] := by
  constructor
  · rintro (rfl | hq) k
    · rw [write_empty]
      rfl
    · rcases Nat.eq_zero_or_pos size with rfl | hpos
      · rw [write_empty]
        rfl
      · exact write_quiet hpos hq k
  · intro hall
    rcases Nat.eq_zero_or_pos size with hzero | hpos
    · exact .inl hzero
    · refine .inr ?_
      intro i
      induction i using Nat.strong_induction_on with
      | _ i ih =>
        intro hgo
        have hres : ∀ i' < i, toInt32 (results i').res ≤ 0 := fun i' hi' =>
          ih i' hi' fun j hj => hgo j (by omega)
        by_contra hk
        exact write_accepts hpos hgo hres (by omega) (hall (i + 1))

end File

/-! ## Truncated heads -/

section Truncated

variable {m : ResponseHeader} {body : ResponseBody} {results : Nat → SputnResult} {j : Nat}
  {text : Bytes}

/-- The head's write number `j` falls short, and is the first that does. -/
def ResponseHeader.TruncatedAt (m : ResponseHeader) (results : Nat → SputnResult) (j : Nat)
    (text : Bytes) : Prop :=
  ShortAt (fun k => (results k).res) m.writeHeader.1 j text

/-- What the client has received of a head truncated in its text number `j`. -/
def ResponseHeader.truncated (m : ResponseHeader) (results : Nat → SputnResult) (j : Nat)
    (text : Bytes) : Bytes :=
  (m.writeHeader.1.take j).flatten ++ text.take (results j).res.toNat

theorem insertAll_truncated (h : m.TruncatedAt results j text) {t : Nat} (ht : j < t) :
    insertAll (fun k => (results k).res) (m.writeHeader.1.take t) =
      ⟨j + 1, m.truncated results j text, true⟩ := by
  rw [insertAll_short (ShortAt.take h ht), List.take_take, Nat.min_eq_left ht.le]
  rfl

/-- Behind the truncation only the calls of a file's loop count. -/
theorem sent_truncated (h : m.TruncatedAt results j text) {t : Nat} (ht : j < t) :
    m.sent body results t =
      m.truncated results j text ++ match body with
        | .string _ => []
        | .sharedFile size mapping =>
          (FileBody.write size (fun i => results (j + 1 + i))
            (t - m.writeHeader.1.length)).accepted.map mapping := by
  rw [ResponseHeader.sent, insertAll_truncated h ht]
  cases body with
  | string text =>
    cases t - m.writeHeader.1.length with
    | zero => exact (List.append_nil _).symm
    | succ k =>
      rw [bodySent, insert_bad rfl]
      exact (List.append_nil _).symm
  | sharedFile size mapping => rfl

/-- A truncated head is all that is sent just when the body is quiet. -/
theorem quiet_iff (h : m.TruncatedAt results j text) :
    body.Quiet (fun i => results (j + 1 + i)) ↔
      ∀ t, j < t → m.sent body results t = m.truncated results j text := by
  cases body with
  | string text =>
    refine ⟨?_, fun _ => trivial⟩
    intro _ t ht
    rw [sent_truncated h ht, List.append_nil]
  | sharedFile size mapping =>
    rw [fileQuiet_iff]
    constructor
    · intro hall t ht
      rw [sent_truncated h ht]
      simp only [hall, List.map_nil, List.append_nil]
    · intro hall k
      obtain ⟨hlt, -⟩ := List.getElem?_eq_some_iff.mp h.at_
      have hk := hall (m.writeHeader.1.length + k) (by omega)
      rw [sent_truncated h (by omega), Nat.add_sub_cancel_left, List.append_right_eq_self] at hk
      exact List.map_eq_nil_iff.mp hk

/-- Up to the truncation the body has made no call. -/
theorem sent_first (h : m.TruncatedAt results j text) :
    m.sent body results (j + 1) = m.truncated results j text := by
  obtain ⟨hlt, -⟩ := List.getElem?_eq_some_iff.mp h.at_
  have hzero : j + 1 - m.writeHeader.1.length = 0 := by omega
  rw [sent_truncated h (Nat.lt_succ_self j), hzero]
  cases body with
  | string text => exact List.append_nil _
  | sharedFile size mapping =>
    have hnone : (FileBody.write size (fun i => results (j + 1 + i)) 0).accepted = [] := by
      rw [write_zero, whileTest]
      split
      · rfl
      · rfl
    simp only [hnone, List.map_nil, List.append_nil]

theorem truncated_isPrefix (h : m.TruncatedAt results j text) :
    m.truncated results j text <+: m.writeHeader.1.flatten := by
  have hsent := ShortAt.isPrefix h
  rwa [insertAll_short h] at hsent

end Truncated

/-- For every head, every body and every sequence of results: no byte follows a head one of whose
writes fell short, and what was sent is a beginning of head and body, exactly when the body makes
no call that is given a byte. -/
theorem write_truncated_iff (m : ResponseHeader) (body : ResponseBody)
    (results : Nat → SputnResult) :
    (∀ j text, m.TruncatedAt results j text → ∀ t, j < t →
        m.sent body results t = m.sent body results (j + 1) ∧
          m.sent body results t <+: m.writeHeader.1.flatten ++ body.bytes) ↔
      ∀ j text, m.TruncatedAt results j text → body.Quiet fun i => results (j + 1 + i) := by
  constructor
  · intro hall j text h
    rw [quiet_iff h]
    intro t ht
    rw [(hall j text h t ht).1, sent_first h]
  · intro hquiet j text h t ht
    have hsent := (quiet_iff h).mp (hquiet j text h) t ht
    rw [hsent, sent_first h]
    exact ⟨rfl, (truncated_isPrefix h).trans (List.prefix_append _ _)⟩

/-- The head of an empty answer. -/
def bareResponse : ResponseHeader := ⟨.ok, 10, ∅⟩

/-- Of the status line eight bytes are taken, and everything behind it. -/
def eight : Nat → SputnResult := fun k => if k = 0 then ⟨8, false⟩ else ⟨5, false⟩

def fileBody : ResponseBody := .sharedFile 5 fun _ => byte 'x'

/-- The client receives `HTTP/1.0xxxxx`. -/
theorem write_truncated_file :
    bareResponse.TruncatedAt eight 0 (ascii "HTTP/1.0 200 Ok") ∧
      bareResponse.sent fileBody eight 1 = ascii "HTTP/1.0" ∧
      bareResponse.sent fileBody eight 4 = ascii "HTTP/1.0xxxxx" ∧
      ¬ bareResponse.sent fileBody eight 4 <+:
        bareResponse.writeHeader.1.flatten ++ fileBody.bytes := by
  refine ⟨⟨?_, ?_, ?_⟩, ?_, ?_, ?_⟩
  · decide +kernel
  · decide +kernel
  · intro j u hj
    simp at hj
  · decide +kernel
  · decide +kernel
  · decide +kernel

end Http
end SimpleWeb
