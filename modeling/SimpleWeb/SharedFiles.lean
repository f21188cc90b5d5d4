import SimpleWeb.FileHandles
import SimpleWeb.Response

/-!
# SimpleWeb.SharedFiles

Who has the files that a host has opened. A `file` object is made for a node of the cache. The node
and every response that is written from it have a `shared_ptr` to it, and the last of these destroys
it, also when the cache evicts the node while responses are still written (`files_shared`). A run
in which a path is asked for again behind its eviction is none: the map has a dead iterator of it.

* `Shares files refs` — the objects that are there are those that a pointer of `refs` leads to, and
  what they have opened and mapped is what is open and mapped.
-/

namespace SimpleWeb

open Ownership Lts

/-! ## Pointers to objects -/

/-- The objects that a pointer leads to are those that are there, and own what they should. -/
structure Shares (files : Files) (refs : List Nat) : Prop where
  there : ∀ i, (files.object i).isSome = true ↔ i ∈ refs
  linear : Linear files.owned files.calls
  unopened : Unopened files

/-- A pointer to an object goes, and those of `rest` stay: the last one destroys the object. -/
def Files.drop (files : Files) (i : Nat) (rest : List Nat) : Option Files :=
  if i ∈ rest then some files else files.step (.destroy i)

/-- `std::make_shared<file>(filepath)`; a file that is not opened owns nothing. -/
def openOp : Option (Int × Int64 × Nat) → FileOp
  | some (fd, fsize, fileaddr) => .path fd fsize fileaddr
  | none => .empty 0

/-- Counted by their numbers. -/
theorem countP_isSome {α : Type} (l : List (Option α)) :
    l.countP Option.isSome =
      ((List.range l.length).filter fun i => l[i]?.join.isSome).length := by
  induction l using List.reverseRecOn with
  | nil => rfl
  | append_singleton l a ih =>
    have hsame : ((List.range l.length).filter fun i => (l ++ [a])[i]?.join.isSome) =
        (List.range l.length).filter fun i => l[i]?.join.isSome := by
      refine List.filter_congr ?_
      intro i hi
      rw [List.getElem?_append_left (List.mem_range.mp hi)]
    rw [List.countP_append, ih, List.length_append, List.length_singleton, List.range_succ,
      List.filter_append, List.length_append, hsame]
    cases a with
    | none => simp
    | some f => simp

section Pointers

variable {files files' : Files} {refs refs' rest : List Nat} {i : Nat} {f : File}

theorem shares_init : Shares .init [] where
  there i := by simp [Files.object, Files.init]
  linear := .nil
  unopened := unopened_init

theorem Shares.congr (h : Shares files refs) (hrefs : ∀ i, i ∈ refs' ↔ i ∈ refs) :
    Shares files refs' :=
  ⟨fun i => (h.there i).trans (hrefs i).symm, h.linear, h.unopened⟩

/-- A pointer may be copied. -/
theorem Shares.copy (h : Shares files refs) (hi : i ∈ refs) : Shares files (i :: refs) := by
  refine h.congr ?_
  intro j
  rw [List.mem_cons, or_iff_right_of_imp]
  rintro rfl
  exact hi

theorem object_concat (objects : List (Option File)) (f : File) (calls : List (Use Resource)) :
    ((Files.mk (objects ++ [some f]) calls).object i).isSome = true ↔
      i = objects.length ∨ ((Files.mk objects calls).object i).isSome = true := by
  simp only [Files.object]
  rcases Nat.lt_trichotomy i objects.length with hlt | rfl | hgt
  · rw [List.getElem?_append_left hlt, or_iff_right (Nat.ne_of_lt hlt)]
  · simp
  · rw [List.getElem?_eq_none (by simp; omega), List.getElem?_eq_none (Nat.le_of_lt hgt)]
    simp [Nat.ne_of_gt hgt]

theorem object_set_none (objects : List (Option File)) (j : Nat) (calls : List (Use Resource)) :
    ((Files.mk (objects.set j none) calls).object i).isSome = true ↔
      i ≠ j ∧ ((Files.mk objects calls).object i).isSome = true := by
  simp only [Files.object]
  by_cases hij : i = j
  · subst hij
    rw [List.getElem?_set]
    simp only [if_true]
    split
    · simp
    · simp
  · rw [List.getElem?_set_ne (Ne.symm hij), and_iff_right hij]

/-- The new object has the next number, and one pointer. -/
theorem Shares.make (h : Shares files refs) {opened : Option (Int × Int64 × Nat)}
    (hstep : files.step (openOp opened) = some files') :
    Shares files' (files.objects.length :: refs) := by
  refine ⟨?_, linear_step h.linear h.unopened ?_ hstep, unopened_step h.unopened hstep⟩
  · intro i
    have hobjects : ∃ f calls, files' = ⟨files.objects ++ [some f], calls⟩ := by
      cases opened with
      | none =>
        cases hstep
        exact ⟨_, _, rfl⟩
      | some r =>
        obtain ⟨fd, fsize, fileaddr⟩ := r
        simp only [openOp, Files.step, Files.mapped] at hstep
        split at hstep
        · cases hstep
          exact ⟨_, _, rfl⟩
        · cases hstep
    obtain ⟨f, calls, rfl⟩ := hobjects
    rw [object_concat, List.mem_cons, ← h.there]
    rfl
  · cases opened with
    | none => trivial
    | some r => trivial

theorem Shares.drop (h : Shares files (i :: rest)) (hdrop : files.drop i rest = some files') :
    Shares files' rest ∧ files'.objects.length = files.objects.length := by
  unfold Files.drop at hdrop
  split at hdrop
  · rename_i hi
    cases hdrop
    refine ⟨h.congr fun j => ?_, rfl⟩
    rw [List.mem_cons, or_iff_right_of_imp]
    rintro rfl
    exact hi
  · rename_i hi
    have hlinear := linear_step h.linear h.unopened (respects_destroy ⟨i, rfl⟩ files) hdrop
    refine ⟨⟨?_, hlinear, unopened_step h.unopened hdrop⟩, ?_⟩
    · intro j
      obtain ⟨f, -, rfl⟩ := Option.map_eq_some_iff.mp hdrop
      rw [object_set_none]
      have hj := h.there j
      rw [List.mem_cons] at hj
      constructor
      · rintro ⟨hne, hthere⟩
        exact (hj.mp hthere).resolve_left hne
      · intro hmem
        refine ⟨?_, hj.mpr (.inr hmem)⟩
        rintro rfl
        exact hi hmem
    · obtain ⟨f, -, rfl⟩ := Option.map_eq_some_iff.mp hdrop
      exact List.length_set

/-- A pointer to an object that is there can go. -/
theorem Shares.exists_drop (h : Shares files (i :: rest)) :
    ∃ files', files.drop i rest = some files' := by
  obtain ⟨f, hf⟩ := Option.isSome_iff_exists.mp ((h.there i).mpr List.mem_cons_self)
  unfold Files.drop
  split
  · exact ⟨_, rfl⟩
  · exact ⟨_, by rw [Files.step, hf]; rfl⟩

/-- There are no more objects than pointers. -/
theorem Shares.left_le (h : Shares files refs) : files.left ≤ refs.length := by
  rw [Files.left, countP_isSome]
  refine (List.nodup_range.filter _).length_le_of_subset ?_
  intro i hi
  exact (h.there i).mp (List.mem_filter.mp hi).2

end Pointers

/-! ## Pointers of a cache -/

/-- The files that the nodes of the cache point to -/
def Filecaches.pointers {F : Type} (l : List (ListNode F)) : List F :=
  l.filterMap fun x => x.node.fptr

namespace Filecaches

section Cache

variable {F : Type} {s s' t : Filecaches F} {l l' : List (ListNode F)} {it : Nat} {p : Bytes}
  {f : F} {node : FileNode F}

/-- Nodes have addresses of their own, and a new one gets the next. -/
structure Addressed (s : Filecaches F) : Prop where
  nodup : (s.cachelist.map ListNode.addr).Nodup
  below : ∀ x ∈ s.cachelist, x.addr < s.fresh
  room : s.cachelist.length ≤ s.capacity

theorem find_perm {x : ListNode F} (hn : (l.map ListNode.addr).Nodup)
    (hx : l.find? (fun y => y.addr = it) = some x) :
    (x :: l.filter fun y => y.addr ≠ it).Perm l := by
  induction l with
  | nil => cases hx
  | cons y l ih =>
    obtain ⟨hy, hn⟩ := List.nodup_cons.mp hn
    by_cases hya : y.addr = it
    · have hxy : x = y := by simpa [List.find?_cons, hya] using hx.symm
      have hrest : ∀ z ∈ l, decide (z.addr ≠ it) = true := by
        intro z hz
        refine decide_eq_true ?_
        intro hza
        exact hy (hya.trans hza.symm ▸ List.mem_map_of_mem hz)
      rw [List.filter_cons_of_neg (by simpa using hya), List.filter_eq_self.mpr hrest, hxy]
    · rw [List.find?_cons_of_neg (by simpa using hya)] at hx
      rw [List.filter_cons_of_pos (by simpa using hya)]
      exact (List.Perm.swap _ _ _).trans ((ih hn hx).cons y)

theorem splice_perm (hn : (l.map ListNode.addr).Nodup) (h : splice l it = some l') :
    l'.Perm l := by
  obtain ⟨x, hx, rfl⟩ := Option.map_eq_some_iff.mp h
  exact find_perm hn hx

theorem Addressed.perm (ha : s.Addressed) (hp : s'.cachelist.Perm s.cachelist)
    (hfresh : s'.fresh = s.fresh) (hcap : s'.capacity = s.capacity) : s'.Addressed where
  nodup := (hp.map _).nodup_iff.mpr ha.nodup
  below x hx := hfresh ▸ ha.below x (hp.mem_iff.mp hx)
  room := by
    rw [hp.length_eq, hcap]
    exact ha.room

/-- A hit reorders the nodes and gives one of them. -/
theorem get_perm (ha : s.Addressed) (h : s.get p = some (s', some node)) :
    s'.cachelist.Perm s.cachelist ∧ (∃ x ∈ s.cachelist, x.node = node) ∧ s'.fresh = s.fresh ∧
      s'.capacity = s.capacity := by
  unfold Filecaches.get at h
  cases hit : s.cachemap[p]? with
  | none =>
    rw [hit] at h
    cases h
  | some it =>
    simp only [hit, Option.bind_eq_bind, Option.bind_eq_some_iff] at h
    obtain ⟨l, hsplice, ⟨s₁, node'⟩, hfront, heq⟩ := h
    cases heq
    obtain ⟨x, hx, heq⟩ := Option.map_eq_some_iff.mp hfront
    cases heq
    have hperm := splice_perm ha.nodup hsplice
    exact ⟨hperm, ⟨x, hperm.mem_iff.mp (List.mem_of_mem_head? hx), rfl⟩, rfl, rfl⟩

/-- Room for one node is made by the last one, or there is room. -/
inductive Room (s t : Filecaches F) : Prop where
  | evicted {back : ListNode F} (hlast : s.cachelist = t.cachelist ++ [back])
      (hfull : s.cachelist.length = s.capacity) (hfresh : t.fresh = s.fresh)
      (hcap : t.capacity = s.capacity)
  | there (hroom : s.cachelist.length ≠ s.capacity) (h : t = s)

theorem room_of_makeRoom (h : s.makeRoom = some t) : Room s t := by
  unfold Filecaches.makeRoom at h
  split at h
  · rename_i hfull
    obtain ⟨back, hback, rfl⟩ := Option.map_eq_some_iff.mp h
    exact .evicted (List.dropLast_append_getLast? back hback).symm hfull rfl rfl
  · rename_i hroom
    cases h
    exact .there hroom rfl

/-- A miss puts its node in front of those that stay. -/
theorem set_cons (hmiss : s.cachemap[p]? = none) (h : s.set p f = some (s', node)) :
    ∃ t, s.makeRoom = some t ∧ s'.cachelist = ⟨t.fresh, .ofFile f⟩ :: t.cachelist ∧
      s'.fresh = t.fresh + 1 ∧ s'.capacity = t.capacity ∧ node = .ofFile f := by
  simp only [Filecaches.set, hmiss, Option.bind_eq_bind, Option.bind_eq_some_iff] at h
  obtain ⟨t, hroom, hfront⟩ := h
  cases hfront
  exact ⟨t, hroom, rfl, rfl, rfl, rfl⟩

theorem Addressed.set (ha : s.Addressed) (hmiss : s.cachemap[p]? = none)
    (h : s.set p f = some (s', node)) : s'.Addressed ∧ s'.capacity = s.capacity := by
  obtain ⟨t, hroom, hlist, hfresh, hcap, -⟩ := set_cons hmiss h
  have hadd : ∀ l : List (ListNode F), l = t.cachelist → (l.map ListNode.addr).Nodup →
      (∀ x ∈ l, x.addr < t.fresh) → l.length < t.capacity → s'.Addressed := by
    rintro l rfl hnodup hbelow hlt
    refine ⟨?_, ?_, ?_⟩
    · rw [hlist]
      refine List.nodup_cons.mpr ⟨?_, hnodup⟩
      intro hmem
      obtain ⟨x, hx, hxa⟩ := List.mem_map.mp hmem
      exact absurd (hbelow x hx) (by rw [hxa]; exact Nat.lt_irrefl _)
    · intro x hx
      rw [hlist] at hx
      rw [hfresh]
      rcases List.mem_cons.mp hx with rfl | hx
      · exact Nat.lt_succ_self _
      · exact Nat.lt_succ_of_lt (hbelow x hx)
    · rw [hlist, hcap]
      exact hlt
  cases room_of_makeRoom hroom with
  | @evicted back hlast hfull hfresh' hcap' =>
    have hnodup := ha.nodup
    have hlen := congrArg List.length hlast
    rw [hlast, List.map_append] at hnodup
    rw [List.length_append, List.length_singleton] at hlen
    refine ⟨hadd _ rfl hnodup.of_append_left ?_ (by omega), hcap.trans hcap'⟩
    intro x hx
    rw [hfresh']
    exact ha.below x (hlast ▸ List.mem_append_left _ hx)
  | there hne heq =>
    cases heq
    exact ⟨hadd _ rfl ha.nodup ha.below (Nat.lt_of_le_of_ne ha.room hne), hcap⟩

theorem addressed_init (c : Nat) : (init c : Filecaches F).Addressed :=
  ⟨List.nodup_nil, nofun, Nat.zero_le c⟩

end Cache

end Filecaches

/-! ## A host and its responses -/

/-- A host, the files of the responses that are being written, and the objects. A file is known by
the number of its object. -/
structure SharedFiles where
  host : Host Nat
  sending : List Nat
  files : Files

namespace SharedFiles

inductive Act where
  /-- a request for a file, with the descriptor, the size and the address it is given if it is
  opened -/
  | serve (path : Bytes) (opened : Option (Int × Int64 × Nat))
  /-- a response from the file is complete -/
  | written (i : Nat)

def init (info : HostInfo) (cachesnum : Nat) : SharedFiles :=
  ⟨⟨info, [], [], .init cachesnum⟩, [], .init⟩

def refs (s : SharedFiles) : List Nat :=
  Filecaches.pointers s.host.filecaches.cachelist ++ s.sending

/-- A file that is new gets the next object. -/
def system (s : SharedFiles) : System Nat :=
  ⟨fun _ => 0, fun _ => none, fun _ => s.files.objects.length⟩

/-- `pop_back` in front of a new node -/
def popBack (s : SharedFiles) : Option Files :=
  let l := s.host.filecaches.cachelist
  if l.length = s.host.filecaches.capacity then
    match l.getLast?.bind fun x => x.node.fptr with
    | some i => s.files.drop i (Filecaches.pointers l.dropLast ++ s.sending)
    | none => some s.files
  else some s.files

/-- None when the cache uses a dead iterator, or a response ends that is not being written. -/
def step (s : SharedFiles) : Act → Option SharedFiles
  | .serve path opened =>
    (servedFile s.system s.host path).bind fun (host, i) =>
      match s.host.filecaches.get path with
      | some (_, none) =>
        (s.popBack.bind fun files => files.step (openOp opened)).map fun files =>
          ⟨host, i :: s.sending, files⟩
      | _ => some ⟨host, i :: s.sending, s.files⟩
  | .written i =>
    if i ∈ s.sending then
      (s.files.drop i
        (Filecaches.pointers s.host.filecaches.cachelist ++ s.sending.erase i)).map fun files =>
          ⟨s.host, s.sending.erase i, files⟩
    else none

structure Inv (cachesnum : Nat) (s : SharedFiles) : Prop where
  shares : Shares s.files s.refs
  addressed : s.host.filecaches.Addressed
  capacity : s.host.filecaches.capacity = cachesnum

section Steps

variable {s s' : SharedFiles} {cachesnum : Nat} {path : Bytes} {c : Filecaches Nat}
  {node : FileNode Nat} {host : Host Nat} {i : Nat} {files : Files}
  {opened : Option (Int × Int64 × Nat)}

/-- A hit copies a pointer of the cache. -/
theorem served_hit (ha : s.host.filecaches.Addressed)
    (hget : s.host.filecaches.get path = some (c, some node))
    (hs : servedFile s.system s.host path = some (host, i)) :
    host.filecaches.cachelist.Perm s.host.filecaches.cachelist ∧
      i ∈ Filecaches.pointers s.host.filecaches.cachelist ∧ host.filecaches.Addressed ∧
      host.filecaches.capacity = s.host.filecaches.capacity := by
  unfold servedFile at hs
  simp only [hget, Option.bind_eq_bind, Option.bind_eq_some_iff] at hs
  obtain ⟨⟨c', found⟩, hagain, node', rfl, f, hf, heq⟩ := hs
  cases heq
  obtain ⟨hperm, -, hfresh, hcap⟩ := Filecaches.get_perm ha hget
  have ha' := ha.perm hperm hfresh hcap
  obtain ⟨hperm', ⟨x, hx, rfl⟩, hfresh', hcap'⟩ := Filecaches.get_perm ha' hagain
  refine ⟨hperm'.trans hperm, ?_, ha'.perm hperm' hfresh' hcap', hcap'.trans hcap⟩
  exact List.mem_filterMap.mpr ⟨x, hperm.mem_iff.mp hx, hf⟩

/-- A miss gives the new object to a node and to the response. -/
theorem served_miss (ha : s.host.filecaches.Addressed)
    (hget : s.host.filecaches.get path = some (c, none))
    (hs : servedFile s.system s.host path = some (host, i)) :
    i = s.files.objects.length ∧ host.filecaches.Addressed ∧
      host.filecaches.capacity = s.host.filecaches.capacity ∧
      ∃ t, Filecaches.Room s.host.filecaches t ∧
        Filecaches.pointers host.filecaches.cachelist = i :: Filecaches.pointers t.cachelist := by
  unfold servedFile at hs
  simp only [hget, Option.bind_eq_bind, Option.bind_eq_some_iff] at hs
  obtain ⟨⟨c', node⟩, hset, f, hf, heq⟩ := hs
  cases heq
  obtain ⟨hmiss, rfl⟩ := Filecaches.get_end hget
  obtain ⟨haddressed, hcap⟩ := ha.set hmiss hset
  obtain ⟨t, hroom, hlist, -, -, rfl⟩ := Filecaches.set_cons hmiss hset
  cases hf
  refine ⟨rfl, haddressed, hcap, t, Filecaches.room_of_makeRoom hroom, ?_⟩
  show Filecaches.pointers c'.cachelist = _
  rw [hlist]
  rfl

/-- The last node's pointer, and those that stay. -/
theorem refs_last
    (hlast : (s.host.filecaches.cachelist.getLast?.bind fun x => x.node.fptr) = some i) (j : Nat) :
    j ∈ i :: (Filecaches.pointers s.host.filecaches.cachelist.dropLast ++ s.sending) ↔
      j ∈ s.refs := by
  obtain ⟨back, hback, hptr⟩ := Option.bind_eq_some_iff.mp hlast
  obtain ⟨l, hl⟩ : ∃ l, s.host.filecaches.cachelist = l ++ [back] :=
    ⟨_, (List.dropLast_append_getLast? back hback).symm⟩
  have hrefs : s.refs = Filecaches.pointers l ++ i :: s.sending := by
    simp [refs, hl, Filecaches.pointers, hptr]
  rw [hrefs, hl, List.dropLast_concat]
  exact List.perm_middle.symm.mem_iff

/-- There is always an object to let go of. -/
theorem exists_popBack (h : Shares s.files s.refs) : ∃ files, s.popBack = some files := by
  simp only [popBack]
  split
  · cases hlast : s.host.filecaches.cachelist.getLast?.bind fun x => x.node.fptr with
    | none => exact ⟨_, rfl⟩
    | some i => exact (h.congr (refs_last hlast)).exists_drop
  · exact ⟨_, rfl⟩

theorem popBack_shares (h : Shares s.files s.refs) {t : Filecaches Nat}
    (hroom : Filecaches.Room s.host.filecaches t) (hpop : s.popBack = some files) :
    Shares files (Filecaches.pointers t.cachelist ++ s.sending) ∧
      files.objects.length = s.files.objects.length := by
  simp only [popBack] at hpop
  cases hroom with
  | @evicted back hlist hfull =>
    have hstay : s.host.filecaches.cachelist.dropLast = t.cachelist := by
      rw [hlist, List.dropLast_concat]
    rw [if_pos hfull] at hpop
    cases hlast : s.host.filecaches.cachelist.getLast?.bind fun x => x.node.fptr with
    | none =>
      have hptr : back.node.fptr = none := by
        rwa [hlist, List.getLast?_concat] at hlast
      have hrefs : s.refs = Filecaches.pointers t.cachelist ++ s.sending := by
        simp [refs, hlist, Filecaches.pointers, hptr]
      simp only [hlast] at hpop
      cases hpop
      exact ⟨hrefs ▸ h, rfl⟩
    | some i =>
      simp only [hlast] at hpop
      rw [← hstay]
      exact (h.congr (refs_last hlast)).drop hpop
  | there hne heq =>
    cases heq
    rw [if_neg hne] at hpop
    cases hpop
    exact ⟨h, rfl⟩

theorem init_inv (info : HostInfo) (cachesnum : Nat) : Inv cachesnum (init info cachesnum) :=
  ⟨shares_init, Filecaches.addressed_init cachesnum, rfl⟩

/-- A request for a file leaves one pointer more, to an object that was there or is new. -/
theorem serve_inv (h : Inv cachesnum s) (hstep : s.step (.serve path opened) = some s') :
    Inv cachesnum s' := by
  obtain ⟨⟨host, i⟩, hs, hstep⟩ := Option.bind_eq_some_iff.mp hstep
  cases hget : s.host.filecaches.get path with
  | none =>
    unfold servedFile at hs
    rw [hget] at hs
    cases hs
  | some r =>
    obtain ⟨c, found⟩ := r
    simp only [hget] at hstep
    cases found with
    | some node =>
      cases hstep
      obtain ⟨hperm, hi, haddressed, hcap⟩ := served_hit h.addressed hget hs
      refine ⟨(h.shares.copy (List.mem_append_left _ hi)).congr ?_, haddressed,
        hcap.trans h.capacity⟩
      have hpointers : (Filecaches.pointers host.filecaches.cachelist).Perm
          (Filecaches.pointers s.host.filecaches.cachelist) := hperm.filterMap _
      intro j
      exact ((hpointers.append_right _).trans List.perm_middle).mem_iff
    | none =>
      obtain ⟨files, hopen, rfl⟩ := Option.map_eq_some_iff.mp hstep
      obtain ⟨files', hpop, hopen⟩ := Option.bind_eq_some_iff.mp hopen
      obtain ⟨hi, haddressed, hcap, t, hroom, hpointers⟩ := served_miss h.addressed hget hs
      obtain ⟨hshares, hlen⟩ := popBack_shares h.shares hroom hpop
      have hmade := hshares.make hopen
      rw [hlen, ← hi] at hmade
      refine ⟨(hmade.copy List.mem_cons_self).congr ?_, haddressed, hcap.trans h.capacity⟩
      intro j
      rw [refs, hpointers, List.cons_append]
      exact (List.perm_middle.cons i).mem_iff

/-- A pointer of a response, and those that stay. -/
theorem refs_written (hi : i ∈ s.sending) (j : Nat) :
    j ∈ i :: (Filecaches.pointers s.host.filecaches.cachelist ++ s.sending.erase i) ↔
      j ∈ s.refs := by
  have hperm := (List.perm_cons_erase hi).append_left
    (Filecaches.pointers s.host.filecaches.cachelist)
  exact (List.perm_middle.symm.trans hperm.symm).mem_iff

theorem written_inv (h : Inv cachesnum s) (hstep : s.step (.written i) = some s') :
    Inv cachesnum s' := by
  simp only [step] at hstep
  split at hstep
  · rename_i hi
    obtain ⟨files, hdrop, rfl⟩ := Option.map_eq_some_iff.mp hstep
    exact ⟨((h.shares.congr (refs_written hi)).drop hdrop).1, h.addressed, h.capacity⟩
  · cases hstep

theorem run_inv {info : HostInfo} {acts : List Act}
    (h : run step (init info cachesnum) acts = some s) : Inv cachesnum s := by
  refine run_invariant ?_ (init_inv info cachesnum) acts s h
  intro t a u ht hu
  cases a with
  | serve path opened => exact serve_inv ht hu
  | written i => exact written_inv ht hu

end Steps

/-- What the host and its responses have of the files. -/
structure Kept (cachesnum : Nat) (s : SharedFiles) : Prop where
  /-- a file of the cache or of a response is open and mapped -/
  there : ∀ i ∈ s.refs, ∃ f, s.files.object i = some f ∧ ∀ r ∈ f.resources, Held s.files.calls r
  /-- and there is no other -/
  owned : ∀ r, Held s.files.calls r →
    ∃ i ∈ s.refs, ∃ f, s.files.object i = some f ∧ r ∈ f.resources
  once : ∀ r, ∀ n ∈ releaseCounts r s.files.calls, n ≤ 1
  few : s.files.left ≤ cachesnum + s.sending.length
  /-- nothing is destroyed that is not there -/
  popBack : ∃ files, s.popBack = some files
  written : ∀ i ∈ s.sending, ∃ s', s.step (.written i) = some s'

/-- For every run of requests, none for a path that was evicted before, while responses are written
in any order: a file that the cache or a response has is open and mapped, any other one was closed
and unmapped once, and there are no more files than nodes and responses. -/
theorem files_shared {info : HostInfo} {cachesnum : Nat} {acts : List Act} {s : SharedFiles}
    (h : run step (init info cachesnum) acts = some s) : Kept cachesnum s := by
  obtain ⟨hshares, haddressed, hcap⟩ := run_inv h
  refine ⟨?_, ?_, ?_, ?_, exists_popBack hshares, ?_⟩
  · intro i hi
    obtain ⟨f, hf⟩ := Option.isSome_iff_exists.mp ((hshares.there i).mpr hi)
    exact ⟨f, hf, fun r hr => hshares.linear.held (resources_subset hf r hr)⟩
  · intro r hr
    have hmem : r ∈ s.files.owned := by
      by_contra hnot
      exact absurd (hshares.linear.settled r hnot 0 (List.mem_of_mem_head? hr)) (by decide)
    obtain ⟨o, ho, hro⟩ := List.mem_flatMap.mp hmem
    obtain ⟨i, hi⟩ := List.getElem?_of_mem ho
    cases o with
    | none => cases hro
    | some f =>
      have hf : s.files.object i = some f := object_eq_some.mpr hi
      exact ⟨i, (hshares.there i).mp (by rw [hf]; rfl), f, hf, by simpa using hro⟩
  · intro r n hn
    by_cases hmem : r ∈ s.files.owned
    · obtain ⟨ns, hcounts, hones⟩ := hshares.linear.outstanding r hmem
      rw [hcounts] at hn
      rcases List.mem_cons.mp hn with rfl | hn
      · exact Nat.zero_le 1
      · exact (hones n hn).le
    · exact (hshares.linear.settled r hmem n hn).le
  · have hle := hshares.left_le
    have hpointers : (Filecaches.pointers s.host.filecaches.cachelist).length ≤
        s.host.filecaches.cachelist.length := List.length_filterMap_le _ _
    have hroom := haddressed.room
    rw [refs, List.length_append] at hle
    omega
  · intro i hi
    obtain ⟨files, hdrop⟩ := (hshares.congr (refs_written hi)).exists_drop
    exact ⟨_, by rw [step, if_pos hi, hdrop]; rfl⟩

/-- A cache for one file: the second request evicts the first file, whose response is written
behind that. -/
def evictedEarly : List Act :=
  [.serve (ascii "./a") (some (3, 10, 4096)), .serve (ascii "./b") (some (4, 10, 8192)),
    .written 0]

theorem evictedEarly_left :
    (run step (init ⟨[], ascii "."⟩ 1) evictedEarly).map (fun s => (s.refs, s.files.left)) =
      some ([1, 1], 1) := by decide +kernel

theorem files_shared_evictedEarly :
    ∃ s, run step (init ⟨[], ascii "."⟩ 1) evictedEarly = some s ∧ s.refs = [1, 1] ∧ Kept 1 s := by
  obtain ⟨s, hs, hleft⟩ := Option.map_eq_some_iff.mp evictedEarly_left
  exact ⟨s, hs, congrArg Prod.fst hleft, files_shared hs⟩

end SharedFiles

end SimpleWeb
