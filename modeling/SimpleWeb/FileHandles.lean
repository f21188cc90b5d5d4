import SimpleWeb.Lib.Lts
import SimpleWeb.Lib.Ownership

/-!
# SimpleWeb.FileHandles

The objects of the class `file` (`file.cpp`) as owners of a descriptor and a mapping. An object owns
both as long as its `fd_` is not -1, and a move sets the `fd_` of its source to -1.

Two operations break this: an assignment does not look at what its target owns, and `close` leaves
`fd_` as it is for the destructor. Every descriptor is closed once and every mapping unmapped once
exactly when neither meets an object that owns a file (`owned_once_iff`).
-/

namespace SimpleWeb

open Ownership Lts

/-- What `open` gives, and what `mmap` gives for it. -/
inductive Resource where
  | descriptor (fd : Int)
  | mapping (fileaddr : Nat) (fsize : Int64)
  deriving DecidableEq

structure File where
  fd : Int
  fsize : Int64
  fileaddr : Nat

namespace File

/-- `file()`. The memory of `fileaddr_` is left as it is. -/
def empty (fileaddr : Nat) : File := ⟨-1, 0, fileaddr⟩

/-- The source of a move. -/
def movedFrom (f : File) : File := { f with fd := -1 }

/-- What the destructor takes the object to own. -/
def resources (f : File) : List Resource :=
  if f.fd ≠ -1 then [.mapping f.fileaddr f.fsize, .descriptor f.fd] else []

/-- `file::close` -/
def close (f : File) : List (Use Resource) := [.release (.descriptor f.fd)]

/-- `~file` -/
def destroy (f : File) : List (Use Resource) :=
  if f.fd ≠ -1 then .release (.mapping f.fileaddr f.fsize) :: f.close else []

end File

/-- The objects in the order of their construction, `none` for those that are destroyed, and the
calls of `open`, `mmap`, `munmap` and `close`. -/
structure Files where
  objects : List (Option File)
  calls : List (Use Resource)

/-- Objects are named by their number. `open` and `mmap` succeed, with the descriptor, the size and
the address that the operation has; the constructor from a descriptor takes over one that its caller
has just opened for it. -/
inductive FileOp where
  | empty (fileaddr : Nat)
  | descriptor (fd : Int) (fsize : Int64) (fileaddr : Nat)
  | path (fd : Int) (fsize : Int64) (fileaddr : Nat)
  | move (source : Nat)
  | assign (target source : Nat)
  | close (i : Nat)
  | destroy (i : Nat)

namespace Files

def init : Files := ⟨[], []⟩

def object (s : Files) (i : Nat) : Option File := s.objects[i]?.join

/-- A descriptor that is not open, and a mapping that is not there. -/
def Grants (s : Files) (fd : Int) (fsize : Int64) (fileaddr : Nat) : Prop :=
  0 ≤ fd ∧ ¬ Held s.calls (.descriptor fd) ∧ ¬ Held s.calls (.mapping fileaddr fsize)

instance (s : Files) (fd : Int) (fsize : Int64) (fileaddr : Nat) :
    Decidable (s.Grants fd fsize fileaddr) := inferInstanceAs (Decidable (_ ∧ _))

/-- The constructors that map a file. -/
def mapped (s : Files) (fd : Int) (fsize : Int64) (fileaddr : Nat) : Option Files :=
  if s.Grants fd fsize fileaddr then
    some ⟨s.objects ++ [some ⟨fd, fsize, fileaddr⟩],
      s.calls ++ [.acquire (.descriptor fd)] ++ [.acquire (.mapping fileaddr fsize)]⟩
  else none

def step (s : Files) : FileOp → Option Files
  | .empty fileaddr => some { s with objects := s.objects ++ [some (.empty fileaddr)] }
  | .descriptor fd fsize fileaddr => s.mapped fd fsize fileaddr
  | .path fd fsize fileaddr => s.mapped fd fsize fileaddr
  | .move source => (s.object source).map fun f =>
      { s with objects := s.objects.set source (some f.movedFrom) ++ [some f] }
  | .assign target source => (s.object target).bind fun _ => (s.object source).map fun f =>
      -- the source is emptied last, and may be the target
      { s with objects := (s.objects.set target (some f)).set source (some f.movedFrom) }
  | .close i => (s.object i).map fun f => { s with calls := s.calls ++ f.close }
  | .destroy i => (s.object i).map fun f => ⟨s.objects.set i none, s.calls ++ f.destroy⟩

/-- What the objects own. -/
def owned (s : Files) : List Resource := s.objects.flatMap fun o => o.toList.flatMap File.resources

/-- Nothing that an object owns has been released. -/
def Safe (s : Files) : Prop := ∀ r ∈ s.owned, Held s.calls r

def Finished (s : Files) : Prop := ∀ i, s.object i = none

end Files

def FileOp.IsDestroy (op : FileOp) : Prop := ∃ i, op = .destroy i

/-- However the objects that are left are destroyed: nothing is ever released that an object still
owns, and with no object left every descriptor was closed once and every mapping unmapped once. -/
structure OwnedOnce (ops : List FileOp) : Prop where
  safe : ∀ ds, (∀ op ∈ ds, op.IsDestroy) → ∀ pre s, pre <+: ops ++ ds →
    run Files.step .init pre = some s → s.Safe
  once : ∀ ds, (∀ op ∈ ds, op.IsDestroy) → ∀ s, run Files.step .init (ops ++ ds) = some s →
    s.Finished → OnceEach s.calls

/-- An object that is assigned to, or closed, has no file. -/
def Respects (s : Files) : FileOp → Prop
  | .assign target _ => ∀ f ∈ s.object target, f.fd = -1
  | .close i => ∀ f ∈ s.object i, f.fd = -1
  | _ => True

/-! ## What the objects own, operation by operation -/

section Owned

variable {s t : Files} {f g : File} {i : Nat}

theorem resources_movedFrom (f : File) : f.movedFrom.resources = [] :=
  if_neg (by simp [File.movedFrom])

theorem resources_of_ne (h : f.fd ≠ -1) :
    f.resources = [.mapping f.fileaddr f.fsize, .descriptor f.fd] := if_pos h

theorem resources_of_eq (h : f.fd = -1) : f.resources = [] := if_neg (by simpa using h)

theorem destroy_of_ne (h : f.fd ≠ -1) :
    f.destroy = [.release (.mapping f.fileaddr f.fsize), .release (.descriptor f.fd)] := if_pos h

theorem destroy_of_eq (h : f.fd = -1) : f.destroy = [] := if_neg (by simpa using h)

/-- One element of a list replaced. -/
theorem flatMap_set_perm {α β : Type} (h : α → List β) {l : List α} {i : Nat} {a : α}
    (hi : l[i]? = some a) (b : α) : (h a ++ (l.set i b).flatMap h).Perm (h b ++ l.flatMap h) := by
  induction l generalizing i with
  | nil => cases hi
  | cons c l ih =>
    cases i with
    | zero =>
      cases hi
      exact List.perm_append_comm_assoc _ _ _
    | succ i =>
      have hl := (ih hi).append_left (h c)
      exact (List.perm_append_comm_assoc _ _ _).trans
        (hl.trans (List.perm_append_comm_assoc _ _ _))

theorem object_eq_some : s.object i = some f ↔ s.objects[i]? = some (some f) :=
  Option.join_eq_some_iff

/-- An object that is replaced takes what it owns with it. -/
theorem owned_set (hi : s.objects[i]? = some (some f)) (o : Option File)
    (calls : List (Use Resource)) :
    (f.resources ++ (Files.mk (s.objects.set i o) calls).owned).Perm
      (o.toList.flatMap File.resources ++ s.owned) := by
  have hset := flatMap_set_perm (fun o : Option File => o.toList.flatMap File.resources) hi o
  simpa [Files.owned] using hset

/-- The source of a move takes what it owned with it. -/
theorem owned_moved (hi : s.objects[i]? = some (some f)) (calls : List (Use Resource)) :
    (f.resources ++ (Files.mk (s.objects.set i (some f.movedFrom)) calls).owned).Perm s.owned := by
  have hset := owned_set hi (some f.movedFrom) calls
  simpa [resources_movedFrom] using hset

theorem resources_subset (hi : s.object i = some f) : ∀ r ∈ f.resources, r ∈ s.owned := by
  intro r hr
  have hset := owned_set (object_eq_some.mp hi) none []
  exact hset.subset (List.mem_append_left _ hr)

/-- A new object owns what was opened and mapped for it. -/
structure Mapped (s : Files) (fd : Int) (fsize : Int64) (fileaddr : Nat) (t : Files) : Prop where
  grants : s.Grants fd fsize fileaddr
  owned : t.owned.Perm (.mapping fileaddr fsize :: .descriptor fd :: s.owned)
  calls : t.calls =
    s.calls ++ [.acquire (.descriptor fd)] ++ [.acquire (.mapping fileaddr fsize)]

/-- What an operation does to what is owned, and the calls it makes. -/
inductive FilesStep (s : Files) : FileOp → Files → Prop where
  | empty {fileaddr : Nat} {t : Files} (howned : t.owned.Perm s.owned)
      (hcalls : t.calls = s.calls) : FilesStep s (.empty fileaddr) t
  | descriptor {fd : Int} {fsize : Int64} {fileaddr : Nat} {t : Files}
      (h : Mapped s fd fsize fileaddr t) : FilesStep s (.descriptor fd fsize fileaddr) t
  | path {fd : Int} {fsize : Int64} {fileaddr : Nat} {t : Files}
      (h : Mapped s fd fsize fileaddr t) : FilesStep s (.path fd fsize fileaddr) t
  | move {source : Nat} {t : Files} (howned : t.owned.Perm s.owned) (hcalls : t.calls = s.calls) :
      FilesStep s (.move source) t
  | assign {target source : Nat} {t : Files} {g : File} (hg : s.object target = some g)
      (howned : (g.resources ++ t.owned).Perm s.owned) (hcalls : t.calls = s.calls) :
      FilesStep s (.assign target source) t
  | close {i : Nat} {t : Files} {f : File} (hf : s.object i = some f) (howned : t.owned = s.owned)
      (hcalls : t.calls = s.calls ++ f.close) : FilesStep s (.close i) t
  | destroy {i : Nat} {t : Files} {f : File} (hf : s.object i = some f)
      (howned : (f.resources ++ t.owned).Perm s.owned)
      (hcalls : t.calls = s.calls ++ f.destroy) : FilesStep s (.destroy i) t

theorem owned_concat (s : Files) (f : File) (calls : List (Use Resource)) :
    (Files.mk (s.objects ++ [some f]) calls).owned = s.owned ++ f.resources := by
  simp [Files.owned]

theorem mapped_of_eq_some {fd : Int} {fsize : Int64} {fileaddr : Nat}
    (h : s.mapped fd fsize fileaddr = some t) : Mapped s fd fsize fileaddr t := by
  unfold Files.mapped at h
  split at h
  · rename_i hgrants
    cases h
    have hne : fd ≠ -1 := by
      have hpos := hgrants.1
      omega
    refine ⟨hgrants, ?_, rfl⟩
    rw [owned_concat, resources_of_ne hne]
    exact List.perm_append_comm
  · cases h

/-- The target takes in what the source gives away, whatever it had. -/
theorem owned_assign {source : Nat} (hg : s.object i = some g) (hf : s.object source = some f)
    (calls : List (Use Resource)) :
    (g.resources ++
      (Files.mk ((s.objects.set i (some f)).set source (some f.movedFrom)) calls).owned).Perm
        s.owned := by
  have hi := object_eq_some.mp hg
  have hsource : (s.objects.set i (some f))[source]? = some (some f) := by
    rcases eq_or_ne i source with rfl | hne
    · exact List.getElem?_set_self (List.getElem?_eq_some_iff.mp hi).1
    · rw [List.getElem?_set_ne hne]
      exact object_eq_some.mp hf
  have htarget := owned_set hi (some f) s.calls
  have hmoved := owned_moved (s := ⟨s.objects.set i (some f), s.calls⟩) hsource calls
  have hboth := (hmoved.append_left g.resources).trans htarget
  refine (List.perm_append_left_iff f.resources).mp ?_
  refine (List.perm_append_comm_assoc _ _ _).trans (hboth.trans ?_)
  simp

theorem filesStep_of_step {op : FileOp} (h : s.step op = some t) : FilesStep s op t := by
  cases op with
  | empty fileaddr =>
    cases h
    refine .empty ?_ rfl
    rw [owned_concat, resources_of_eq rfl, List.append_nil]
  | descriptor fd fsize fileaddr => exact .descriptor (mapped_of_eq_some h)
  | path fd fsize fileaddr => exact .path (mapped_of_eq_some h)
  | move source =>
    obtain ⟨f, hf, rfl⟩ := Option.map_eq_some_iff.mp h
    refine .move ?_ rfl
    have hset := owned_moved (object_eq_some.mp hf) s.calls
    have hconcat := owned_concat ⟨s.objects.set source (some f.movedFrom), s.calls⟩ f s.calls
    rw [hconcat]
    exact List.perm_append_comm.trans hset
  | assign target source =>
    obtain ⟨g, hg, hassign⟩ := Option.bind_eq_some_iff.mp h
    obtain ⟨f, hf, rfl⟩ := Option.map_eq_some_iff.mp hassign
    exact .assign hg (owned_assign hg hf s.calls) rfl
  | close i =>
    obtain ⟨f, hf, rfl⟩ := Option.map_eq_some_iff.mp h
    exact .close hf rfl rfl
  | destroy i =>
    obtain ⟨f, hf, rfl⟩ := Option.map_eq_some_iff.mp h
    exact .destroy hf (owned_set (object_eq_some.mp hf) none _) rfl

end Owned

/-! ## Runs -/

section Runs

variable {s t : Files} {op : FileOp} {r : Resource}

/-- `open` never gives -1. -/
def Unopened (s : Files) : Prop := releaseCounts (.descriptor (-1)) s.calls = []

theorem unopened_mapped {fd : Int} {fsize : Int64} {fileaddr : Nat} (h : Unopened s)
    (hmapped : Mapped s fd fsize fileaddr t) : Unopened t := by
  obtain ⟨hgrants, -, hcalls⟩ := hmapped
  have hne : Resource.descriptor fd ≠ .descriptor (-1) := by
    intro heq
    have hpos := hgrants.1
    injection heq with heq
    omega
  rw [Unopened, hcalls, releaseCounts_acquire_ne (by simp), releaseCounts_acquire_ne hne]
  exact h

theorem unopened_step (h : Unopened s) (hstep : s.step op = some t) : Unopened t := by
  cases filesStep_of_step hstep with
  | empty howned hcalls | move howned hcalls | assign hg howned hcalls =>
    rwa [Unopened, hcalls]
  | descriptor hmapped | path hmapped => exact unopened_mapped h hmapped
  | close hf howned hcalls =>
    rw [Unopened, hcalls]
    exact releaseCounts_release_nil h _
  | @destroy i t f hf howned hcalls =>
    rw [Unopened, hcalls]
    by_cases hfd : f.fd = -1
    · rwa [destroy_of_eq hfd, List.append_nil]
    · rw [destroy_of_ne hfd, List.append_cons]
      exact releaseCounts_release_nil (releaseCounts_release_nil h _) _

theorem linear_mapped {fd : Int} {fsize : Int64} {fileaddr : Nat}
    (h : Linear s.owned s.calls) (hmapped : Mapped s fd fsize fileaddr t) :
    Linear t.owned t.calls := by
  obtain ⟨⟨-, hfd, hmap⟩, howned, hcalls⟩ := hmapped
  rw [hcalls]
  exact ((h.acquire hfd).acquire (not_held_acquire hmap (by simp))).perm howned

/-- Operations on objects that have no file to lose keep the ownership. -/
theorem linear_step (h : Linear s.owned s.calls) (hun : Unopened s) (hop : Respects s op)
    (hstep : s.step op = some t) : Linear t.owned t.calls := by
  cases filesStep_of_step hstep with
  | empty howned hcalls | move howned hcalls =>
    rw [hcalls]
    exact h.perm howned
  | descriptor hmapped | path hmapped => exact linear_mapped h hmapped
  | assign hg howned hcalls =>
    rw [resources_of_eq (hop _ hg), List.nil_append] at howned
    rw [hcalls]
    exact h.perm howned
  | close hf howned hcalls =>
    rw [howned, hcalls, File.close, hop _ hf]
    exact h.stray hun
  | @destroy i t f hf howned hcalls =>
    rw [hcalls]
    by_cases hfd : f.fd = -1
    · rw [resources_of_eq hfd, List.nil_append] at howned
      rw [destroy_of_eq hfd, List.append_nil]
      exact h.perm howned
    · rw [resources_of_ne hfd] at howned
      rw [destroy_of_ne hfd, List.append_cons]
      exact (h.perm howned).release.release

/-- Held, and no object has it. -/
structure Lost (s : Files) (r : Resource) : Prop where
  held : Held s.calls r
  ownerless : r ∉ s.owned

theorem lost_mapped {fd : Int} {fsize : Int64} {fileaddr : Nat} (h : Lost s r)
    (hmapped : Mapped s fd fsize fileaddr t) : Lost t r := by
  obtain ⟨⟨-, hfd, hmap⟩, howned, hcalls⟩ := hmapped
  refine ⟨?_, ?_⟩
  · rw [hcalls]
    exact (h.held.acquire _).acquire _
  · rw [howned.mem_iff, List.mem_cons, List.mem_cons, not_or, not_or]
    refine ⟨?_, ?_, h.ownerless⟩
    · rintro rfl
      exact hmap h.held
    · rintro rfl
      exact hfd h.held

/-- What is lost is lost for good: only its owner would release it, and it is not given again. -/
theorem lost_step (h : Lost s r) (hun : Unopened s) (hstep : s.step op = some t) : Lost t r := by
  cases filesStep_of_step hstep with
  | empty howned hcalls | move howned hcalls =>
    exact ⟨hcalls ▸ h.held, fun hr => h.ownerless (howned.mem_iff.mp hr)⟩
  | descriptor hmapped | path hmapped => exact lost_mapped h hmapped
  | assign hg howned hcalls =>
    exact ⟨hcalls ▸ h.held, fun hr => h.ownerless (howned.subset (List.mem_append_right _ hr))⟩
  | @close i t f hf howned hcalls =>
    refine ⟨?_, howned ▸ h.ownerless⟩
    rw [hcalls]
    refine h.held.release ?_
    rintro rfl
    by_cases hfd : f.fd = -1
    · have hheld := h.held
      rw [hfd, Held, hun] at hheld
      cases hheld
    · refine h.ownerless (resources_subset hf _ ?_)
      simp [resources_of_ne hfd]
  | @destroy i t f hf howned hcalls =>
    refine ⟨?_, fun hr => h.ownerless (howned.subset (List.mem_append_right _ hr))⟩
    rw [hcalls]
    by_cases hfd : f.fd = -1
    · rw [destroy_of_eq hfd, List.append_nil]
      exact h.held
    · have hown := resources_subset hf
      rw [resources_of_ne hfd] at hown
      rw [destroy_of_ne hfd, List.append_cons]
      refine (h.held.release ?_).release ?_
      · rintro rfl
        exact h.ownerless (hown _ (by simp))
      · rintro rfl
        exact h.ownerless (hown _ (by simp))

theorem closed_iff {i : Nat} {f : File} (hf : s.object i = some f) :
    (∀ g ∈ s.object i, g.fd = -1) ↔ f.fd = -1 := by
  simp [hf]

/-- An assignment over a file loses it, and a file that is closed still has its owner. -/
theorem broken_step (h : Linear s.owned s.calls) (hop : ¬ Respects s op)
    (hstep : s.step op = some t) : ¬ t.Safe ∨ ∃ r, Lost t r := by
  cases filesStep_of_step hstep with
  | empty | move | descriptor | path | destroy => exact absurd trivial hop
  | @assign target source t g hg howned hcalls =>
    have hfd : g.fd ≠ -1 := mt (closed_iff hg).mpr hop
    rw [resources_of_ne hfd] at howned
    have hlinear := h.perm howned
    have hnot := (List.nodup_cons.mp (List.nodup_cons.mp hlinear.nodup).2).1
    exact .inr ⟨.descriptor g.fd, hcalls ▸ hlinear.held (by simp), hnot⟩
  | @close i t f hf howned hcalls =>
    have hfd : f.fd ≠ -1 := mt (closed_iff hf).mpr hop
    refine .inl ?_
    intro hsafe
    have hown := resources_subset hf (.descriptor f.fd) (by simp [resources_of_ne hfd])
    have hheld := hsafe _ (howned ▸ hown)
    rw [hcalls] at hheld
    exact not_held_release _ _ hheld

theorem unopened_init : Unopened .init := rfl

theorem unopened_run {ops : List FileOp} (h : run Files.step .init ops = some s) : Unopened s :=
  run_invariant (I := Unopened) (fun _ _ _ hs hstep => unopened_step hs hstep) unopened_init ops s h

/-- Every run keeps the ownership, or comes to a state that is not safe, or loses something. -/
theorem run_cases {ops : List FileOp} (h : run Files.step .init ops = some s) :
    (Along Files.step Respects .init ops ∧ Linear s.owned s.calls) ∨
      (∃ pre t, pre <+: ops ∧ run Files.step .init pre = some t ∧ ¬ t.Safe) ∨ ∃ r, Lost s r := by
  induction ops using List.reverseRecOn generalizing s with
  | nil =>
    cases h
    exact .inl ⟨.nil, .nil⟩
  | append_singleton ops op ih =>
    obtain ⟨u, hu, hstep⟩ := run_concat_eq_some.mp h
    rcases ih hu with ⟨halong, hlinear⟩ | ⟨pre, t, hpre, ht, hunsafe⟩ | ⟨r, hlost⟩
    · by_cases hop : Respects u op
      · exact .inl ⟨(Along.concat_iff hu hstep).mpr ⟨halong, hop⟩,
          linear_step hlinear (unopened_run hu) hop hstep⟩
      · rcases broken_step hlinear hop hstep with hunsafe | hlost
        · exact .inr (.inl ⟨_, s, List.prefix_refl _, h, hunsafe⟩)
        · exact .inr (.inr hlost)
    · exact .inr (.inl ⟨pre, t, hpre.trans (List.prefix_append _ _), ht, hunsafe⟩)
    · exact .inr (.inr ⟨r, lost_step hlost (unopened_run hu) hstep⟩)

/-- The objects that are left. -/
def Files.left (s : Files) : Nat := s.objects.countP Option.isSome

theorem destroy_next (s : Files) (h : ¬ s.Finished) :
    ∃ t, Reaches Files.step FileOp.IsDestroy s t ∧ t.left < s.left := by
  obtain ⟨i, hi⟩ := not_forall.mp h
  obtain ⟨f, hf⟩ := Option.ne_none_iff_exists'.mp hi
  have hget := object_eq_some.mp hf
  obtain ⟨hlt, hobj⟩ := List.getElem?_eq_some_iff.mp hget
  have hpos : 0 < s.left := List.countP_pos_iff.mpr ⟨some f, List.mem_of_getElem? hget, rfl⟩
  have hstep : s.step (.destroy i) = some ⟨s.objects.set i none, s.calls ++ f.destroy⟩ := by
    simp [Files.step, hf]
  refine ⟨_, .single ⟨i, rfl⟩ hstep, ?_⟩
  have hfewer : (s.objects.set i none).countP Option.isSome = s.left - 1 := by
    rw [List.countP_set hlt, hobj]
    simp [Files.left]
  rw [Files.left, hfewer]
  omega

/-- All objects can be destroyed. -/
theorem exists_destroys (s : Files) :
    ∃ t, Reaches Files.step FileOp.IsDestroy s t ∧ t.Finished := by
  have hnext : ∀ s : Files, True → ¬ s.Finished →
      ∃ t, Reaches Files.step FileOp.IsDestroy s t ∧ True ∧ t.left < s.left := by
    intro s _ h
    obtain ⟨t, ht, hlt⟩ := destroy_next s h
    exact ⟨t, ht, trivial, hlt⟩
  obtain ⟨t, ht, -, hfin⟩ := Reaches.of_measure Files.left hnext s trivial
  exact ⟨t, ht, hfin⟩

theorem lost_run {ds : List FileOp} (h : Lost s r) (hun : Unopened s)
    (ht : run Files.step s ds = some t) : Lost t r := by
  have hall := run_invariant (I := fun s => Unopened s ∧ Lost s r)
    (fun _ _ _ hs hstep => ⟨unopened_step hs.1 hstep, lost_step hs.2 hs.1 hstep⟩) ⟨hun, h⟩ ds t ht
  exact hall.2

theorem owned_finished (h : s.Finished) : s.owned = [] := by
  refine List.flatMap_eq_nil_iff.mpr ?_
  intro o ho
  obtain ⟨i, hi⟩ := List.getElem?_of_mem ho
  cases o with
  | none => rfl
  | some f => exact absurd (object_eq_some.mpr hi) (by simp [h i])

/-- Operations on objects that have no file to lose keep the ownership in every run. -/
theorem linear_run {ops : List FileOp} (halong : Along Files.step Respects .init ops)
    (h : run Files.step .init ops = some s) : Linear s.owned s.calls := by
  have hall := halong.invariant (I := fun s => Unopened s ∧ Linear s.owned s.calls)
    (fun _ _ _ hs hop hstep => ⟨unopened_step hs.1 hstep, linear_step hs.2 hs.1 hop hstep⟩)
    ⟨unopened_init, .nil⟩ ops s h
  exact hall.2

theorem respects_destroy {op : FileOp} (h : op.IsDestroy) (s : Files) : Respects s op := by
  obtain ⟨i, rfl⟩ := h
  trivial

/-- In a run of any operations, and however the objects left at its end are destroyed: every
descriptor is closed once and every mapping unmapped once, and neither as long as it has an owner,
exactly when no object that has a file was assigned to or closed. -/
theorem owned_once_iff {ops : List FileOp} {s : Files} (h : run Files.step .init ops = some s) :
    OwnedOnce ops ↔ Along Files.step Respects .init ops := by
  constructor
  · rintro ⟨hsafe, honce⟩
    rcases run_cases h with ⟨halong, -⟩ | ⟨pre, t, hpre, ht, hunsafe⟩ | ⟨r, hlost⟩
    · exact halong
    · have hpre' : pre <+: ops ++ [] := by simpa using hpre
      exact absurd (hsafe [] (by simp) pre t hpre' ht) hunsafe
    · -- what is lost is still held when all objects are gone
      obtain ⟨t, ⟨ds, hds, ht⟩, hfin⟩ := exists_destroys s
      have hrun : run Files.step .init (ops ++ ds) = some t := by
        rw [run_append, h]
        exact ht
      have hlost' := lost_run hlost (unopened_run h) ht
      exact absurd (honce ds hds t hrun hfin) hlost'.held.not_onceEach
  · intro halong
    have hall : ∀ ds : List FileOp, (∀ op ∈ ds, op.IsDestroy) →
        Along Files.step Respects .init (ops ++ ds) := by
      intro ds hds
      refine halong.append ?_
      intro op hop t
      exact respects_destroy (hds op hop) t
    refine ⟨?_, ?_⟩
    · intro ds hds pre t hpre ht r hr
      have hpart := Along.of_prefix (hall ds hds) hpre
      exact (linear_run hpart ht).held hr
    · intro ds hds t ht hfin
      have hlinear := linear_run (hall ds hds) ht
      rw [owned_finished hfin] at hlinear
      exact hlinear.onceEach

end Runs

/-- A file that is moved, and both objects destroyed. -/
theorem owned_once_iff_moved : OwnedOnce [.path 3 5 4096, .move 0, .destroy 0, .destroy 1] := by
  refine (owned_once_iff (s := ⟨[none, none], [.acquire (.descriptor 3),
    .acquire (.mapping 4096 5), .release (.mapping 4096 5), .release (.descriptor 3)]⟩) rfl).mpr ?_
  -- nothing is assigned to or closed
  refine Along.nil.append ?_
  intro op hop s
  simp only [List.mem_cons, List.not_mem_nil, or_false] at hop
  rcases hop with rfl | rfl | rfl | rfl <;> trivial

/-- After `a = std::move(b)` of two open files. -/
def assigned : List FileOp := [.path 3 5 4096, .path 4 5 8192, .assign 0 1]

/-- The file that the target had is never closed. -/
theorem owned_once_lost : ¬ ∀ ops s, run Files.step .init ops = some s → OwnedOnce ops := by
  intro hall
  have hassigned : ∃ s, run Files.step .init assigned = some s := ⟨_, rfl⟩
  obtain ⟨s, hs⟩ := hassigned
  have hdestroyed : ∃ t, run Files.step .init (assigned ++ [.destroy 0, .destroy 1]) = some t ∧
      t.objects = [none, none] ∧ Held t.calls (.descriptor 3) := ⟨_, rfl, rfl, by decide⟩
  obtain ⟨t, ht, hobjects, hheld⟩ := hdestroyed
  refine hheld.not_onceEach ((hall assigned s hs).once [.destroy 0, .destroy 1] ?_ t ht ?_)
  · simp [FileOp.IsDestroy]
  · intro i
    rw [Files.object, hobjects]
    rcases i with _ | _ | i <;> rfl

end SimpleWeb
