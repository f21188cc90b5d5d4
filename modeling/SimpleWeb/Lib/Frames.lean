import Mathlib

/-!
# Lib.Frames

Texts in a frame of separators, and how a reader takes them out.

* `cut` — the text in front of the first `c`, and what is behind it.
* `split` — the lines that end with `c`.
* `readLines` / `writeLines` — lines that end with `a` and `b`, up to an empty one.
* `cut_append` / `split_ends` / `readLines_write` — texts without the separator come back as they
  were, with all that is behind them.
-/

namespace Frames

variable {α : Type} [DecidableEq α]

def cut (c : α) : List α → Option (List α × List α)
  | [] => none
  | a :: l => if a = c then some ([], l) else (cut c l).map fun r => (a :: r.1, r.2)

/-- The lines of a text, the first behind `line` -/
def split (c : α) (line : List α) : List α → List (List α)
  | [] => []
  | a :: l => if a = c then line :: split c [] l else split c (line ++ [a]) l

/-- The lines behind `lines`, with `line` in front of the first of them. -/
def readFrom (a b : α) (line : List α) (lines : List (List α)) :
    List α → Option (List (List α) × List α)
  | x :: y :: l =>
    if x = a ∧ y = b then
      if line = [] then some (lines, l) else readFrom a b [] (lines ++ [line]) l
    else readFrom a b (line ++ [x]) lines (y :: l)
  | _ => none

def readLines (a b : α) (l : List α) : Option (List (List α) × List α) := readFrom a b [] [] l

def writeLines (a b : α) (lines : List (List α)) : List α :=
  lines.flatMap (fun line => line ++ [a, b]) ++ [a, b]

section Cut

variable {c : α} {t rest : List α}

theorem cut_append (h : c ∉ t) : cut c (t ++ c :: rest) = some (t, rest) := by
  induction t with
  | nil => simp [cut]
  | cons a t ih =>
    rw [List.mem_cons, not_or] at h
    obtain ⟨hne, ht⟩ := h
    rw [List.cons_append, cut, if_neg (Ne.symm hne), ih ht]
    rfl

theorem split_line (h : c ∉ t) (line : List α) :
    split c line (t ++ c :: rest) = (line ++ t) :: split c [] rest := by
  induction t generalizing line with
  | nil => simp [split]
  | cons a t ih =>
    rw [List.mem_cons, not_or] at h
    obtain ⟨hne, ht⟩ := h
    rw [List.cons_append, split, if_neg (Ne.symm hne), ih ht, List.append_assoc,
      List.singleton_append]

theorem split_ends {ls : List (List α)} (hls : ∀ t ∈ ls, c ∉ t) :
    split c [] (ls.flatMap fun t => t ++ [c]) = ls := by
  induction ls with
  | nil => rfl
  | cons t ls ih =>
    have hrest := ih fun t' ht' => hls t' (List.mem_cons_of_mem _ ht')
    rw [List.flatMap_cons, List.append_assoc, List.singleton_append,
      split_line (hls t List.mem_cons_self), hrest, List.nil_append]

end Cut

section Lines

variable {a b : α}

/-- A line is read up to its end. -/
theorem readFrom_line {t : List α} (h : a ∉ t) (line : List α) (lines : List (List α))
    (l : List α) :
    readFrom a b line lines (t ++ a :: b :: l) =
      readFrom a b (line ++ t) lines (a :: b :: l) := by
  induction t generalizing line with
  | nil => rw [List.nil_append, List.append_nil]
  | cons x t ih =>
    rw [List.mem_cons, not_or] at h
    obtain ⟨hne, ht⟩ := h
    have hrest := ih ht (line ++ [x])
    rw [List.append_assoc, List.singleton_append] at hrest
    rw [← hrest]
    -- the byte behind `x` is one of the line or its end
    cases t with
    | nil => rw [List.cons_append, List.nil_append, readFrom, if_neg fun h => hne h.1.symm]
    | cons y t => rw [List.cons_append, List.cons_append, readFrom, if_neg fun h => hne h.1.symm]

theorem readFrom_write {ls : List (List α)} (hls : ∀ t ∈ ls, t ≠ [] ∧ a ∉ t)
    (lines : List (List α)) (rest : List α) :
    readFrom a b [] lines (writeLines a b ls ++ rest) = some (lines ++ ls, rest) := by
  induction ls generalizing lines with
  | nil => simp [writeLines, readFrom]
  | cons t ls ih =>
    obtain ⟨hne, ha⟩ := hls t List.mem_cons_self
    have hrest := ih (fun t' ht' => hls t' (List.mem_cons_of_mem _ ht')) (lines ++ [t])
    have hsplit : writeLines a b (t :: ls) ++ rest =
        t ++ a :: b :: (writeLines a b ls ++ rest) := by
      simp [writeLines]
    rw [hsplit, readFrom_line ha, List.nil_append, readFrom, if_pos ⟨rfl, rfl⟩, if_neg hne, hrest]
    simp

theorem readLines_write {ls : List (List α)} (hls : ∀ t ∈ ls, t ≠ [] ∧ a ∉ t) (rest : List α) :
    readLines a b (writeLines a b ls ++ rest) = some (ls, rest) :=
  readFrom_write hls [] rest

end Lines

end Frames
