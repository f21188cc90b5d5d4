import SimpleWeb.Http.Grammar

/-!
# Http.LineSound

What one pass of `read_header_line` can do (`LineStep`, with `lineStep_of_next`), and what
follows from it for a whole request line by case analysis on the steps.

* `readHeaderLine_frame`  — fields and flags of the parser are left alone.
* `readHeaderLine_target` — a line that was read to its end has set a well-formed target.
-/

namespace SimpleWeb
namespace Http

open ScanLoop CArray

def isUpper (ch : UInt8) : Bool := byte 'A' ≤ ch && ch ≤ byte 'Z'

/-- The passes that go on, one constructor for each way through the body. -/
inductive LineStep (s : LineVars) : UInt8 → LineVars → Prop where
  | lead {c : UInt8} : s.state = .start → c = CR ∨ c = LF → LineStep s c s
  | first {c : UInt8} {b : Bytes} : s.state = .start → isUpper c = true →
      store s.buffer 0 c = some b → LineStep s c { s with state := .method, buffer := b, i := 1 }
  | letter {c : UInt8} {b : Bytes} : s.state = .method → isUpper c = true →
      store s.buffer s.i c = some b → LineStep s c { s with buffer := b, i := s.i + 1 }
  | method {b : Bytes} {v : Verb} : s.state = .method → store s.buffer s.i (byte ' ') = some b →
      methodSwitch b s.i = some v →
      LineStep s (byte ' ')
        { { s with buffer := b }.setMethod v with state := .spacesBeforeUri, i := 0 }
  | gap : s.state = .spacesBeforeUri → LineStep s (byte ' ') s
  | slash {b : Bytes} : s.state = .spacesBeforeUri → store s.buffer s.i (byte '/') = some b →
      LineStep s (byte '/') { s with state := .afterSlashInUri, buffer := b, i := s.i + 1 }
  | uri {c : UInt8} {b : Bytes} : s.state = .afterSlashInUri → isTargetByte c = true →
      store s.buffer s.i c = some b → LineStep s c { s with buffer := b, i := s.i + 1 }
  | uriEnd {c : UInt8} {b : Bytes} {q : LineState} : s.state = .afterSlashInUri →
      (c = byte ' ' ∧ q = .http) ∨ (c = byte '?' ∧ q = .params) → store s.buffer s.i 0 = some b →
      LineStep s c { { s with buffer := b }.setTarget (cstr b) with state := q, i := 0 }
  | param {c : UInt8} {b : Bytes} : s.state = .params → isQueryByte c = true →
      store s.buffer s.i c = some b → LineStep s c { s with buffer := b, i := s.i + 1 }
  | paramSkip {c : UInt8} : s.state = .params → isprint c = false → c ≠ 0 → LineStep s c s
  | paramsEnd {b b' : Bytes} : s.state = .params → store s.buffer s.i (byte ' ') = some b →
      store b (s.i + 1) 0 = some b' →
      LineStep s (byte ' ')
        { { s with buffer := b' }.setQuerystr (cstr b') with state := .http, i := 0 }
  | http {c : UInt8} {b : Bytes} : s.state = .http → usual c = true →
      store s.buffer s.i c = some b → (s.i = 3 → strncmpEq b (ascii "HTTP") 4 = true) →
      LineStep s c { s with buffer := b, i := s.i + 1 }
  | httpSkip {c : UInt8} : s.state = .http → usual c = false → c ≠ byte '/' →
      (s.i = 4 → strncmpEq s.buffer (ascii "HTTP") 4 = true) → LineStep s c s
  | httpSlash : s.state = .http → (s.i = 4 → strncmpEq s.buffer (ascii "HTTP") 4 = true) →
      LineStep s (byte '/') { s with state := .httpMajor }
  | major {c : UInt8} : s.state = .httpMajor → usual c = true → versionDigit s.httpVersion c ≤ 1 →
      LineStep s c { s with httpVersion := versionDigit s.httpVersion c }
  | majorSpace : s.state = .httpMajor → LineStep s (byte ' ') s
  | dot : s.state = .httpMajor → LineStep s (byte '.') { s with state := .httpMinor }
  | minor {c : UInt8} : s.state = .httpMinor → usual c = true → versionDigit s.httpVersion c ≤ 11 →
      LineStep s c { s with httpVersion := versionDigit s.httpVersion c }
  | minorSkip {c : UInt8} : s.state = .httpMinor → usual c = false → c ≠ LF → LineStep s c s
  | lineEnd : s.state = .httpMinor ∨ s.state = .done →
      LineStep s LF { s with headerLineIsDone := true }
  | idle {c : UInt8} : s.state = .checkUri ∨ (s.state = .done ∧ c ≠ LF) → LineStep s c s

theorem LineVars.put_eq {s s' : LineVars} {c : UInt8} (h : s.put c = some s') :
    ∃ b, store s.buffer s.i c = some b ∧ s' = { s with buffer := b, i := s.i + 1 } := by
  simp only [LineVars.put, Option.map_eq_some_iff] at h
  obtain ⟨b, hb, rfl⟩ := h
  exact ⟨b, hb, rfl⟩

theorem LineVars.terminate_eq {s s' : LineVars} (h : s.terminate = some s') :
    ∃ b, store s.buffer s.i 0 = some b ∧ s' = { s with buffer := b } := by
  simp only [LineVars.terminate, Option.map_eq_some_iff] at h
  obtain ⟨b, hb, rfl⟩ := h
  exact ⟨b, hb, rfl⟩

section OfNext

variable {s s' : LineVars} {c : UInt8}

theorem isUpper_iff {c : UInt8} : isUpper c = true ↔ ¬ (c < byte 'A' ∨ c > byte 'Z') := by
  simp [isUpper]

theorem lineStep_start (hs : s.state = .start) (h : lineBody c s = .next s') : LineStep s c s' := by
  simp only [lineBody, hs] at h
  split at h
  · cases h; exact .lead hs ‹_›
  · split at h
    · cases h
    · obtain ⟨s₁, hput, h⟩ := Pass.must_next h
      cases h
      obtain ⟨b, hb, rfl⟩ := LineVars.put_eq hput
      exact .first hs (isUpper_iff.mpr ‹_›) hb

theorem lineStep_method (hs : s.state = .method) (h : lineBody c s = .next s') :
    LineStep s c s' := by
  simp only [lineBody, hs] at h
  obtain ⟨s₁, hput, hk⟩ := Pass.must_next h
  obtain ⟨b, hb, rfl⟩ := LineVars.put_eq hput
  clear h
  split at hk
  · rename_i hc
    subst hc
    split at hk
    · rename_i v hv
      cases hk
      exact .method hs hb hv
    · cases hk
  · split at hk
    · cases hk
    · rename_i hu
      cases hk
      exact .letter hs (isUpper_iff.mpr hu) hb

theorem lineStep_spacesBeforeUri (hs : s.state = .spacesBeforeUri) (h : lineBody c s = .next s') :
    LineStep s c s' := by
  simp only [lineBody, hs] at h
  split at h
  · rename_i hc
    subst hc
    obtain ⟨s₁, hput, h⟩ := Pass.must_next h
    cases h
    obtain ⟨b, hb, rfl⟩ := LineVars.put_eq hput
    exact .slash hs hb
  · split at h
    · rename_i hc
      cases h
      rw [hc]
      exact .gap hs
    · cases h

theorem lineStep_afterSlashInUri (hs : s.state = .afterSlashInUri) (h : lineBody c s = .next s') :
    LineStep s c s' := by
  have collect : isTargetByte c = true → Pass.must (s.put c) .next = (.next s' : LinePass) →
      LineStep s c s' := by
    intro hc h
    obtain ⟨s₁, hput, h⟩ := Pass.must_next h
    cases h
    obtain ⟨b, hb, rfl⟩ := LineVars.put_eq hput
    exact .uri hs hc hb
  simp only [lineBody, hs] at h
  split at h
  · exact collect (by simp [isTargetByte, *]) h
  · split at h
    · obtain ⟨s₁, ht, h⟩ := Pass.must_next h
      cases h
      obtain ⟨b, hb, rfl⟩ := LineVars.terminate_eq ht
      exact .uriEnd hs (.inr ⟨‹_›, rfl⟩) hb
    · split at h
      · exact collect (by simp [isTargetByte, *]) h
      · split at h
        · obtain ⟨s₁, ht, h⟩ := Pass.must_next h
          cases h
          obtain ⟨b, hb, rfl⟩ := LineVars.terminate_eq ht
          exact .uriEnd hs (.inl ⟨‹_›, rfl⟩) hb
        · split at h
          · exact collect (by simp [isTargetByte, *]) h
          · cases h

theorem lineStep_params (hs : s.state = .params) (h : lineBody c s = .next s') :
    LineStep s c s' := by
  simp only [lineBody, hs] at h
  obtain ⟨s₁, hput, h⟩ := Pass.must_next h
  by_cases hc : c = byte ' '
  · subst hc
    rw [if_pos isprint_ends.1] at hput
    obtain ⟨b, hb, rfl⟩ := LineVars.put_eq hput
    simp only [if_true] at h
    obtain ⟨s₂, hterm, h⟩ := Pass.must_next h
    obtain ⟨b', hb', rfl⟩ := LineVars.terminate_eq hterm
    simp only [ne_eq, Nat.add_eq_zero_iff, Nat.succ_ne_self, and_false, not_false_eq_true, if_true,
      Pass.next.injEq] at h
    subst h
    exact .paramsEnd hs hb hb'
  · rw [if_neg hc] at h
    split at h
    · cases h
    · rename_i h0
      cases h
      by_cases hp : isprint c = true
      · rw [if_pos hp] at hput
        obtain ⟨b, hb, rfl⟩ := LineVars.put_eq hput
        exact .param hs (by simp [isQueryByte, hp, hc]) hb
      · rw [if_neg hp] at hput
        cases hput
        exact .paramSkip hs (by simpa using hp) h0

theorem lineStep_http (hs : s.state = .http) (h : lineBody c s = .next s') :
    LineStep s c s' := by
  simp only [lineBody, hs] at h
  obtain ⟨s₁, hput, h⟩ := Pass.must_next h
  split at h
  · cases h
  · rename_i hcmp
    have hcmp' : s₁.i = 4 → strncmpEq s₁.buffer (ascii "HTTP") 4 = true := by
      intro hi
      simpa [hi] using hcmp
    by_cases hu : usual c = true
    · rw [if_pos hu] at hput
      obtain ⟨b, hb, rfl⟩ := LineVars.put_eq hput
      have hne : c ≠ byte '/' := by rintro rfl; simp at hu
      rw [if_neg hne] at h
      cases h
      exact .http hs hu hb fun hi => hcmp' (by simp [hi])
    · rw [if_neg hu] at hput
      cases hput
      split at h
      · rename_i hc
        cases h
        rw [hc]
        exact .httpSlash hs hcmp'
      · cases h
        exact .httpSkip hs (by simpa using hu) ‹_› hcmp'

theorem lineStep_httpMajor (hs : s.state = .httpMajor) (h : lineBody c s = .next s') :
    LineStep s c s' := by
  obtain ⟨q, b, i, v, d, p⟩ := s
  cases hs
  simp only [lineBody] at h
  split at h
  · split at h
    · cases h
    · cases h
      exact .major rfl ‹_› (UInt32.not_lt.mp ‹_›)
  · split at h
    · rename_i hc
      cases h
      rw [hc]
      exact .dot rfl
    · split at h
      · rename_i hc
        cases h
        rw [hc]
        exact .majorSpace rfl
      · split at h <;> cases h

theorem lineStep_httpMinor (hs : s.state = .httpMinor) (h : lineBody c s = .next s') :
    LineStep s c s' := by
  obtain ⟨q, b, i, v, d, p⟩ := s
  cases hs
  simp only [lineBody] at h
  split at h
  · split at h
    · cases h
    · cases h
      exact .minor rfl ‹_› (UInt32.not_lt.mp ‹_›)
  · rename_i hu
    have hu' : usual c = false := by simpa using hu
    split at h
    · rename_i hc
      cases h
      exact .minorSkip rfl hu' (by simp [hc])
    · split at h
      · rename_i hc
        cases h
        rw [hc]
        exact .lineEnd (.inl rfl)
      · cases h
        exact .minorSkip rfl hu' ‹_›

theorem lineStep_done (hs : s.state = .done) (h : lineBody c s = .next s') :
    LineStep s c s' := by
  obtain ⟨q, b, i, v, d, p⟩ := s
  cases hs
  simp only [lineBody] at h
  split at h
  · rename_i hc
    cases h
    exact .idle (.inr ⟨rfl, by simp [hc]⟩)
  · split at h
    · rename_i hc
      cases h
      rw [hc]
      exact .lineEnd (.inr rfl)
    · cases h
      exact .idle (.inr ⟨rfl, ‹_›⟩)

end OfNext

theorem lineStep_of_next {s s' : LineVars} {c : UInt8} (h : lineBody c s = .next s') :
    LineStep s c s' := by
  cases hs : s.state with
  | start => exact lineStep_start hs h
  | method => exact lineStep_method hs h
  | spacesBeforeUri => exact lineStep_spacesBeforeUri hs h
  | afterSlashInUri => exact lineStep_afterSlashInUri hs h
  | checkUri =>
    simp only [lineBody, hs] at h
    cases h
    exact .idle (.inl hs)
  | params => exact lineStep_params hs h
  | http => exact lineStep_http hs h
  | httpMajor => exact lineStep_httpMajor hs h
  | httpMinor => exact lineStep_httpMinor hs h
  | done => exact lineStep_done hs h

/-! ## The frame -/

structure Parser.SameHead (p q : Parser) : Prop where
  fields : q.message.fields = p.message.fields
  headerDone : q.headerDone = p.headerDone
  done : q.done = p.done

theorem lineStep_frame {s s' : LineVars} {c : UInt8} (h : LineStep s c s') :
    s.par.SameHead s'.par := by
  cases h <;> exact ⟨rfl, rfl, rfl⟩

theorem Parser.SameHead.trans {p q r : Parser} (h₁ : p.SameHead q) (h₂ : q.SameHead r) :
    p.SameHead r :=
  ⟨h₂.fields.trans h₁.fields, h₂.headerDone.trans h₁.headerDone, h₂.done.trans h₁.done⟩

/-- A pass that returns leaves the parser as it is. -/
theorem lineBody_ret {s t : LineVars} {c : UInt8} {ec : ParserEc} (h : lineBody c s = .ret ec t) :
    t.par = s.par ∧ ec ≠ .ok := by
  have put : ∀ {s₁ : LineVars} {d : UInt8}, s.put d = some s₁ → s₁.par = s.par := by
    intro s₁ d hput
    obtain ⟨b, -, rfl⟩ := LineVars.put_eq hput
    rfl
  have maybePut : ∀ {s₁ : LineVars} {P : Prop} [Decidable P],
      (if P then s.put c else some s) = some s₁ → s₁.par = s.par := by
    intro s₁ P _ hput
    split at hput
    · exact put hput
    · cases hput; rfl
  cases hs : s.state with
  | start =>
    simp only [lineBody, hs] at h
    split at h
    · cases h
    · split at h
      · cases h; exact ⟨rfl, by simp⟩
      · exact absurd h Pass.must_next_ne_ret
  | method =>
    simp only [lineBody, hs] at h
    obtain ⟨s₁, hput, hk⟩ := Pass.must_ne_fault (by simp) h
    split at hk
    · split at hk
      · cases hk
      · cases hk; exact ⟨put hput, by simp⟩
    · split at hk
      · cases hk; exact ⟨put hput, by simp⟩
      · cases hk
  | spacesBeforeUri =>
    simp only [lineBody, hs] at h
    split at h
    · exact absurd h Pass.must_next_ne_ret
    · split at h
      · cases h
      · cases h; exact ⟨rfl, by simp⟩
  | afterSlashInUri =>
    simp only [lineBody, hs] at h
    repeat' split at h
    all_goals first
      | exact absurd h Pass.must_next_ne_ret
      | (cases h; exact ⟨rfl, by simp⟩)
  | checkUri => simp only [lineBody, hs] at h; cases h
  | params =>
    simp only [lineBody, hs] at h
    obtain ⟨s₁, hput, hk⟩ := Pass.must_ne_fault (by simp) h
    split at hk
    · exact absurd hk Pass.must_next_ne_ret
    · split at hk
      · cases hk; exact ⟨maybePut hput, by simp⟩
      · cases hk
  | http =>
    simp only [lineBody, hs] at h
    obtain ⟨s₁, hput, hk⟩ := Pass.must_ne_fault (by simp) h
    split at hk
    · cases hk; exact ⟨maybePut hput, by simp⟩
    · split at hk <;> cases hk
  | httpMajor =>
    simp only [lineBody, hs] at h
    repeat' split at h
    all_goals (cases h <;> exact ⟨rfl, by simp⟩)
  | httpMinor =>
    simp only [lineBody, hs] at h
    repeat' split at h
    all_goals (cases h <;> exact ⟨rfl, by simp⟩)
  | done =>
    simp only [lineBody, hs] at h
    repeat' split at h
    all_goals cases h

theorem lineRuns_frame {s t : LineVars} {cs : Bytes} (h : Runs lineGuard lineBody s cs t) :
    s.par.SameHead t.par := by
  induction h with
  | nil => exact ⟨rfl, rfl, rfl⟩
  | cons _ hb _ ih => exact (lineStep_frame (lineStep_of_next hb)).trans ih

theorem readHeaderLine_frame {b is rest : Bytes} {p p' : Parser} {ec : ParserEc}
    (h : readHeaderLine b is p = some (ec, p', rest)) : p.SameHead p' := by
  unfold readHeaderLine at h
  split at h
  · rename_i s r hloop
    cases h
    obtain ⟨used, -, hr, -⟩ := exit_done hloop
    obtain ⟨hf, hd, hd'⟩ := lineRuns_frame hr
    exact ⟨hf, hd, hd'⟩
  · rename_i e s r hloop
    cases h
    obtain ⟨used, c, u, -, hr, -, hb⟩ := exit_ret hloop
    rw [(lineBody_ret hb).1]
    exact lineRuns_frame hr
  · cases h

/-! ## The target -/

/-- Before the URI nothing is known; in it the array holds a target; behind it the target is
set. Only behind it can the line be done. -/
def TargetInv (s : LineVars) : Prop :=
  match s.state with
  | .start | .method => s.headerLineIsDone = false
  | .spacesBeforeUri => s.i = 0 ∧ s.headerLineIsDone = false
  | .afterSlashInUri => (∃ t : Target, Holds s.buffer s.i t.bytes) ∧ s.headerLineIsDone = false
  | .checkUri => False
  | _ => ∃ t : Target, s.par.message.target = t.bytes

/-- The target with one more byte. -/
def Target.push (t : Target) (c : UInt8) (hc : isTargetByte c = true) : Target :=
  ⟨t.path ++ [c], List.forall_mem_append.mpr ⟨t.path_ok, List.forall_mem_singleton.mpr hc⟩⟩

theorem targetInv_step {s s' : LineVars} {c : UInt8} (hi : TargetInv s) (h : LineStep s c s') :
    TargetInv s' := by
  unfold TargetInv at hi
  cases h with
  | lead hs _ => simpa [TargetInv, hs] using hi
  | first hs _ _ => simpa [TargetInv, hs] using hi
  | letter hs _ _ => simpa [TargetInv, hs] using hi
  | method hs _ _ => simpa [TargetInv, hs, LineVars.setMethod] using hi
  | gap hs => simpa [TargetInv, hs] using hi
  | slash hs hb =>
    simp only [hs] at hi
    obtain ⟨hi, hd⟩ := hi
    rw [hi] at hb
    refine ⟨⟨⟨[], by simp⟩, ?_⟩, hd⟩
    simpa [hi, Target.bytes] using (Holds.nil s.buffer).store hb
  | uri hs hc hb =>
    simp only [hs] at hi
    obtain ⟨⟨t, ht⟩, hd⟩ := hi
    simp only [TargetInv, hs]
    exact ⟨⟨t.push _ hc, ht.store hb⟩, hd⟩
  | uriEnd hs hq hb =>
    simp only [hs] at hi
    obtain ⟨⟨t, ht⟩, -⟩ := hi
    have hstr := ht.cstr hb t.nul_notMem
    rcases hq with ⟨-, rfl⟩ | ⟨-, rfl⟩ <;> exact ⟨t, hstr⟩
  | param hs _ _ => simpa [TargetInv, hs] using hi
  | paramSkip hs _ _ => simpa [TargetInv, hs] using hi
  | paramsEnd hs _ _ => simpa [TargetInv, hs, LineVars.setQuerystr] using hi
  | http hs _ _ _ => simpa [TargetInv, hs] using hi
  | httpSkip hs _ _ _ => simpa [TargetInv, hs] using hi
  | httpSlash hs _ => simpa [TargetInv, hs] using hi
  | major hs _ _ => simpa [TargetInv, hs] using hi
  | majorSpace hs => simpa [TargetInv, hs] using hi
  | dot hs => simpa [TargetInv, hs] using hi
  | minor hs _ _ => simpa [TargetInv, hs] using hi
  | minorSkip hs _ _ => simpa [TargetInv, hs] using hi
  | lineEnd hs => rcases hs with hs | hs <;> simpa [TargetInv, hs] using hi
  | idle hs =>
    rcases hs with hs | ⟨hs, -⟩
    · simp [hs] at hi
    · simpa [TargetInv, hs] using hi

/-- A request line with something behind it was read to its end and has set a target. -/
theorem readHeaderLine_target {b is rest : Bytes} {p p' : Parser}
    (h : readHeaderLine b is p = some (.ok, p', rest)) (hrest : rest ≠ []) :
    ∃ t : Target, p'.message.target = t.bytes := by
  unfold readHeaderLine at h
  split at h
  · rename_i s r hloop
    cases h
    obtain ⟨used, -, hr, hend⟩ := exit_done hloop
    have hdone : s.headerLineIsDone = true := by
      simpa [lineGuard] using hend.resolve_right hrest
    have hinv : TargetInv s := hr.invariant (I := fun _ s => TargetInv s)
      (fun _ _ _ _ _ hi hb => targetInv_step hi (lineStep_of_next hb)) [] rfl
    unfold TargetInv at hinv
    cases hs : s.state <;> simp_all
  · rename_i e s r hloop
    cases h
    obtain ⟨used, c, u, -, -, -, hb⟩ := exit_ret hloop
    exact absurd rfl (lineBody_ret hb).2
  · cases h

end Http
end SimpleWeb
