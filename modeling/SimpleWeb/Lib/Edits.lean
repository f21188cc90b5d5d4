import Mathlib

/-!
# Lib.Edits

Items that edit a state, one after the other, where an item may be refused. Whether it is refused
and which edit it makes depends on the item alone and not on the state.

* `run edit s as` — the state behind all items, or the refusal of the first that is refused
  (`run_eq`, `run_error_iff`).
* `run_last`      — a part of the state is what the last item that sets it makes it.
* `run_collect`   — a part of the state that items append to is all they appended.
* `run_flatMap`   — a list of blocks of items, each made one edit by `block`.
* `block_perm`    — items of a block whose edits commute can be reordered.
-/

namespace Edits

variable {α ε σ β : Type}

def run (edit : α → Except ε (σ → σ)) (s : σ) : List α → Except ε σ
  | [] => .ok s
  | a :: as =>
    match edit a with
    | .ok f => run edit (f s) as
    | .error e => .error e

def refusal (edit : α → Except ε (σ → σ)) (a : α) : Option ε :=
  match edit a with
  | .ok _ => none
  | .error e => some e

/-- What an item does to the state; one that is refused does nothing. -/
def apply (edit : α → Except ε (σ → σ)) (s : σ) (a : α) : σ :=
  match edit a with
  | .ok f => f s
  | .error _ => s

variable {edit : α → Except ε (σ → σ)}

theorem refusal_eq_none {a : α} : refusal edit a = none ↔ ∃ f, edit a = .ok f := by
  unfold refusal
  cases edit a <;> simp

theorem refusal_eq_some {a : α} {e : ε} : refusal edit a = some e ↔ edit a = .error e := by
  unfold refusal
  cases edit a <;> simp

theorem run_cons_none {a : α} (h : refusal edit a = none) (s : σ) (as : List α) :
    run edit s (a :: as) = run edit (apply edit s a) as := by
  obtain ⟨f, hf⟩ := refusal_eq_none.mp h
  simp [run, apply, hf]

theorem run_cons_some {a : α} {e : ε} (h : refusal edit a = some e) (s : σ) (as : List α) :
    run edit s (a :: as) = .error e := by
  simp [run, refusal_eq_some.mp h]

theorem run_eq (s : σ) (as : List α) :
    run edit s as =
      match as.findSome? (refusal edit) with
      | some e => .error e
      | none => .ok (as.foldl (apply edit) s) := by
  induction as generalizing s with
  | nil => rfl
  | cons a as ih =>
    cases h : refusal edit a with
    | none => rw [run_cons_none h, ih, List.findSome?_cons_of_isNone (by simp [h]), List.foldl_cons]
    | some e => rw [run_cons_some h, List.findSome?_cons_of_isSome (by simp [h]), h]

/-- All items are accepted, and the state is what their edits make of it. -/
theorem run_ok_iff {s t : σ} {as : List α} :
    run edit s as = .ok t ↔
      (∀ a ∈ as, refusal edit a = none) ∧ as.foldl (apply edit) s = t := by
  rw [run_eq, ← List.findSome?_eq_none_iff]
  split
  · rename_i h
    simp [h]
  · rename_i h
    simp [h]

/-- The first refused item decides. -/
theorem run_error_iff {s : σ} {as : List α} {e : ε} :
    run edit s as = .error e ↔
      ∃ pre a post, as = pre ++ a :: post ∧ refusal edit a = some e ∧
        ∀ b ∈ pre, refusal edit b = none := by
  rw [run_eq, ← List.findSome?_eq_some_iff]
  split
  · rename_i h
    simp [h]
  · rename_i h
    simp [h]

theorem run_append (s : σ) (as bs : List α) :
    run edit s (as ++ bs) =
      match run edit s as with
      | .ok t => run edit t bs
      | .error e => .error e := by
  induction as generalizing s with
  | nil => rfl
  | cons a as ih =>
    rw [List.cons_append]
    cases h : refusal edit a with
    | none => rw [run_cons_none h, run_cons_none h, ih]
    | some e => rw [run_cons_some h, run_cons_some h]

/-- In front of an item that is refused otherwise stands the one that decides. -/
theorem refused_before {s : σ} {pre post : List α} {b : α} {e e' : ε}
    (h : run edit s (pre ++ b :: post) = .error e) (hb : refusal edit b = some e')
    (hne : e' ≠ e) : ∃ a ∈ pre, refusal edit a = some e := by
  rw [run_append] at h
  cases hpre : run edit s pre with
  | ok t =>
    rw [hpre] at h
    simp only [run_cons_some hb, Except.error.injEq] at h
    exact absurd h hne
  | error e'' =>
    rw [hpre] at h
    cases h
    obtain ⟨pre', a, post', rfl, ha, -⟩ := run_error_iff.mp hpre
    exact ⟨a, by simp, ha⟩

/-- The items set a part of the state or leave it: the last one that sets it wins. -/
theorem run_last {π : σ → β} {val : α → Option β}
    (h : ∀ s a, refusal edit a = none → π (apply edit s a) = (val a).getD (π s)) {s t : σ}
    {as : List α} (hrun : run edit s as = .ok t) :
    π t = (as.reverse.findSome? val).getD (π s) := by
  obtain ⟨hok, rfl⟩ := run_ok_iff.mp hrun
  clear hrun
  induction as generalizing s with
  | nil => rfl
  | cons a as ih =>
    have hrest := ih (s := apply edit s a) fun b hb => hok b (by simp [hb])
    rw [List.foldl_cons, hrest, h s a (hok a (by simp)), List.reverse_cons,
      List.findSome?_append]
    cases (as.reverse.findSome? val) with
    | some b => rfl
    | none => cases hv : val a <;> simp [hv]

/-- The items append to a part of the state. -/
theorem run_collect {p : σ → List β} {g : α → List β}
    (h : ∀ s a, refusal edit a = none → p (apply edit s a) = p s ++ g a) {s t : σ}
    {as : List α} (hrun : run edit s as = .ok t) : p t = p s ++ as.flatMap g := by
  obtain ⟨hok, rfl⟩ := run_ok_iff.mp hrun
  clear hrun
  induction as generalizing s with
  | nil => simp
  | cons a as ih =>
    have hrest := ih (s := apply edit s a) fun b hb => hok b (by simp [hb])
    rw [List.foldl_cons, hrest, h s a (hok a (by simp)), List.flatMap_cons, List.append_assoc]

/-! ## Blocks -/

/-- A list of items as one edit. -/
def block (edit : α → Except ε (σ → σ)) (as : List α) : Except ε (σ → σ) :=
  match as.findSome? (refusal edit) with
  | some e => .error e
  | none => .ok fun s => as.foldl (apply edit) s

theorem block_none {as : List α} (h : as.findSome? (refusal edit) = none) :
    block edit as = .ok fun s => as.foldl (apply edit) s := by
  simp [block, h]

theorem block_some {as : List α} {e : ε} (h : as.findSome? (refusal edit) = some e) :
    block edit as = .error e := by
  simp [block, h]

theorem run_block (s : σ) (as : List α) : run edit s as = (block edit as).map (· s) := by
  rw [run_eq]
  cases h : as.findSome? (refusal edit) with
  | none => rw [block_none h]; rfl
  | some e => rw [block_some h]; rfl

theorem run_flatMap (g : β → List α) (s : σ) (bs : List β) :
    run (fun b => block edit (g b)) s bs = run edit s (bs.flatMap g) := by
  induction bs generalizing s with
  | nil => rfl
  | cons b bs ih =>
    rw [List.flatMap_cons, run_append, run_block s (g b)]
    cases h : block edit (g b) with
    | ok f => simpa [run, h, Except.map] using ih (f s)
    | error e => simp [run, h, Except.map]

theorem run_congr {edit' : β → Except ε (σ → σ)} {as : List α} {bs : List β}
    (h : List.Forall₂ (fun a b => edit a = edit' b) as bs) (s : σ) :
    run edit s as = run edit' s bs := by
  induction h generalizing s with
  | nil => rfl
  | @cons a b as bs hab _ ih =>
    rw [run, run, hab]
    cases edit' b with
    | ok f => exact ih (f s)
    | error e => rfl

/-- A block whose items are accepted and commute does not depend on their order. -/
theorem block_perm {as bs : List α} (hp : as.Perm bs) (hok : ∀ a ∈ as, refusal edit a = none)
    (hcomm : ∀ a ∈ as, ∀ b ∈ as, ∀ s,
      apply edit (apply edit s a) b = apply edit (apply edit s b) a) :
    block edit as = block edit bs := by
  have hok' : ∀ b ∈ bs, refusal edit b = none := fun b hb => hok b (hp.mem_iff.mpr hb)
  rw [block_none (List.findSome?_eq_none_iff.mpr hok),
    block_none (List.findSome?_eq_none_iff.mpr hok')]
  refine congrArg Except.ok (funext ?_)
  intro s
  exact hp.foldl_eq' (fun a ha b hb s => hcomm a ha b hb s) s

end Edits
