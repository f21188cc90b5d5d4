import Mathlib

/-!
# Lib.Ostream

Formatted output over a device that may take less than it is offered. Every insertion is one call
of the device; a call that does not take all of its text sets `badbit`, and behind that an
insertion calls nothing.

* `insertAll` — the stream after some texts, from the number of elements each call takes.
* `Taken` / `ShortAt` — every call takes all of its text; the call number `j` is the first that
  does not.
* `insertAll_short` — what has been sent then, however many texts follow.
-/

namespace Ostream

variable {α : Type}

structure Sink (α : Type) where
  calls : Nat
  sent : List α
  bad : Bool

def Sink.init : Sink α := ⟨0, [], false⟩

/-- `os << text`. The device gives the number of elements it took, or something negative. -/
def insert (accept : Nat → Int) (s : Sink α) (text : List α) : Sink α :=
  if s.bad then s
  else
    { calls := s.calls + 1
      sent := s.sent ++ text.take (accept s.calls).toNat
      bad := accept s.calls != text.length }

def insertAll (accept : Nat → Int) (texts : List (List α)) : Sink α :=
  texts.foldl (insert accept) .init

def Taken (accept : Nat → Int) (texts : List (List α)) : Prop :=
  ∀ (j : Nat) (u : List α), texts[j]? = some u → accept j = u.length

structure ShortAt (accept : Nat → Int) (texts : List (List α)) (j : Nat) (text : List α) :
    Prop where
  at_ : texts[j]? = some text
  short : accept j ≠ text.length
  before : Taken accept (texts.take j)

section Rules

variable {accept : Nat → Int} {texts : List (List α)} {text : List α} {j : Nat}

theorem insert_bad {s : Sink α} (h : s.bad = true) (text : List α) : insert accept s text = s := by
  rw [insert, if_pos h]

theorem foldl_bad {s : Sink α} (h : s.bad = true) (texts : List (List α)) :
    texts.foldl (insert accept) s = s := by
  induction texts with
  | nil => rfl
  | cons text texts ih => rw [List.foldl_cons, insert_bad h, ih]

theorem Taken.of_concat (h : Taken accept (texts ++ [text])) :
    Taken accept texts ∧ accept texts.length = text.length := by
  refine ⟨?_, h texts.length text (by simp)⟩
  intro j u hj
  obtain ⟨hlt, -⟩ := List.getElem?_eq_some_iff.mp hj
  exact h j u (by rw [List.getElem?_append_left hlt, hj])

theorem insertAll_taken (h : Taken accept texts) :
    insertAll accept texts = ⟨texts.length, texts.flatten, false⟩ := by
  induction texts using List.reverseRecOn with
  | nil => rfl
  | append_singleton texts text ih =>
    obtain ⟨htexts, hlast⟩ := h.of_concat
    rw [insertAll, List.foldl_concat]
    show insert accept (insertAll accept texts) text = _
    rw [ih htexts]
    simp [insert, hlast]

/-- The texts behind the first one that is not taken make no difference. -/
theorem insertAll_short (h : ShortAt accept texts j text) :
    insertAll accept texts =
      ⟨j + 1, (texts.take j).flatten ++ text.take (accept j).toNat, true⟩ := by
  obtain ⟨hlt, hget⟩ := List.getElem?_eq_some_iff.mp h.at_
  have hsplit : texts = texts.take j ++ text :: texts.drop (j + 1) := by
    rw [← hget, ← List.drop_eq_getElem_cons hlt, List.take_append_drop]
  have hlen : (texts.take j).length = j := by
    rw [List.length_take]
    omega
  have htaken : (texts.take j).foldl (insert accept) .init = _ := insertAll_taken h.before
  have hinsert : insert accept ⟨j, (texts.take j).flatten, false⟩ text =
      ⟨j + 1, (texts.take j).flatten ++ text.take (accept j).toNat, true⟩ := by
    simp [insert, h.short]
  conv_lhs => rw [hsplit]
  rw [insertAll, List.foldl_append, htaken, hlen, List.foldl_cons, hinsert, foldl_bad rfl]

theorem ShortAt.take (h : ShortAt accept texts j text) {t : Nat} (ht : j < t) :
    ShortAt accept (texts.take t) j text where
  at_ := by rw [List.getElem?_take_of_lt ht, h.at_]
  short := h.short
  before := by
    rw [List.take_take, Nat.min_eq_left ht.le]
    exact h.before

/-- What was sent is a beginning of the texts. -/
theorem ShortAt.isPrefix (h : ShortAt accept texts j text) :
    (insertAll accept texts).sent <+: texts.flatten := by
  obtain ⟨hlt, hget⟩ := List.getElem?_eq_some_iff.mp h.at_
  have hflat : texts.flatten =
      (texts.take j).flatten ++ (text ++ (texts.drop (j + 1)).flatten) := by
    rw [← List.flatten_cons, ← hget, ← List.drop_eq_getElem_cons hlt, ← List.flatten_append,
      List.take_append_drop]
  rw [insertAll_short h, hflat, List.prefix_append_right_inj]
  exact (List.take_prefix _ _).trans (List.prefix_append _ _)

end Rules

end Ostream
