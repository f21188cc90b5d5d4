import SimpleWeb.Utils
import SimpleWeb.Lib.Lru

/-!
# SimpleWeb.Filecaches

The file cache of `filecaches.hpp`: a list of nodes, the most recently used first, and a map from
paths to iterators into it. An iterator is the address of its node, addresses are never used
twice, and an operation through the iterator of a removed node has no result.

* `Represents s L` — the list and the map hold the entries `L`, each under its own path. Every
  operation keeps it (`get_represents`, `set_hit`, `set_miss`, `evict_represents`), as long as it
  evicts no entry but the one of the empty path, which is the only one `set` can take out of the
  map: `fileNode` leaves the name of its node empty.
* `faithful_iff`   — the cache behaves as an LRU cache on a run exactly when no step of it evicts
  another entry.
-/

namespace SimpleWeb

variable {F : Type}

structure FileNode (F : Type) where
  name : Bytes
  fptr : Option F

/-- `fileNode(filepath)`: the path opens the file, the name stays empty. -/
def FileNode.ofFile (f : F) : FileNode F := ⟨[], some f⟩

structure ListNode (F : Type) where
  addr : Nat
  node : FileNode F

structure Filecaches (F : Type) where
  cachemap : Std.ExtTreeMap Bytes Nat compare
  cachelist : List (ListNode F)
  capacity : Nat
  fresh : Nat

namespace Filecaches

def init (c : Nat) : Filecaches F := ⟨∅, [], c, 0⟩

/-- `cachelist_.splice(cachelist_.begin(), cachelist_, it)` -/
def splice (l : List (ListNode F)) (it : Nat) : Option (List (ListNode F)) :=
  (l.find? fun x => x.addr = it).map fun x => x :: l.filter fun y => y.addr ≠ it

def writeAt (it : Nat) (f : F) (x : ListNode F) : ListNode F :=
  if x.addr = it then { x with node := { x.node with fptr := some f } } else x

/-- `it->fptr = f` -/
def setFptr (l : List (ListNode F)) (it : Nat) (f : F) : Option (List (ListNode F)) :=
  (l.find? fun x => x.addr = it).map fun _ => l.map (writeAt it f)

/-- `cachemap_[filepath] = cachelist_.begin()`, and the node found there -/
def mapFront (s : Filecaches F) (filepath : Bytes) : Option (Filecaches F × FileNode F) :=
  s.cachelist.head?.map fun front =>
    ({ s with cachemap := s.cachemap.insert filepath front.addr }, front.node)

/-- The node behind the iterator `get` returns; none for `end()`. -/
def get (s : Filecaches F) (filepath : Bytes) : Option (Filecaches F × Option (FileNode F)) :=
  match s.cachemap[filepath]? with
  | none => some (s, none)
  | some it => do
    let l ← splice s.cachelist it
    let (s, node) ← { s with cachelist := l }.mapFront filepath
    some (s, some node)

/-- `cachemap_.erase(cachelist_.back().name); cachelist_.pop_back()` -/
def evict (s : Filecaches F) : Option (Filecaches F) :=
  s.cachelist.getLast?.map fun back =>
    { s with cachemap := s.cachemap.erase back.node.name, cachelist := s.cachelist.dropLast }

/-- `if(cachelist_.size() == capacity)` -/
def makeRoom (s : Filecaches F) : Option (Filecaches F) :=
  if s.cachelist.length = s.capacity then s.evict else some s

def pushFront (s : Filecaches F) (node : FileNode F) : Filecaches F :=
  { s with cachelist := ⟨s.fresh, node⟩ :: s.cachelist, fresh := s.fresh + 1 }

/-- `set(filepath)`, when `std::make_shared<file>(filepath)` gives `f`. -/
def set (s : Filecaches F) (filepath : Bytes) (f : F) : Option (Filecaches F × FileNode F) :=
  match s.cachemap[filepath]? with
  | none => do
    let s ← s.makeRoom
    (s.pushFront (.ofFile f)).mapFront filepath
  | some it => do
    let l ← setFptr s.cachelist it f
    let l ← splice l it
    { s with cachelist := l }.mapFront filepath

abbrev Op (F : Type) := Lru.Op Bytes F

def step (s : Filecaches F) : Op F → Option (Filecaches F)
  | .get filepath => (s.get filepath).map Prod.fst
  | .set filepath f => (s.set filepath f).map Prod.fst

/-- The cache after a run of operations; none when one of them used a dead iterator. -/
def run (c : Nat) (ops : List (Op F)) : Option (Filecaches F) := ops.foldlM step (init c)

theorem run_concat (c : Nat) (ops : List (Op F)) (op : Op F) :
    run c (ops ++ [op]) = (run c ops).bind fun s => s.step op := by
  simp [run]

/-! ## One path -/

/-- The file the cache holds for a path. -/
def cached (s : Filecaches F) (filepath : Bytes) : Option F :=
  (s.get filepath).bind fun r => r.2.bind FileNode.fptr

/-- `get` gives `end()` for a path that is not in the map, and changes nothing then. -/
theorem get_end {s c : Filecaches F} {path : Bytes} (h : s.get path = some (c, none)) :
    s.cachemap[path]? = none ∧ c = s := by
  cases hmap : s.cachemap[path]? with
  | none =>
    simp only [get, hmap] at h
    cases h
    exact ⟨rfl, rfl⟩
  | some it =>
    simp only [get, hmap, Option.bind_eq_bind, Option.bind_eq_some_iff] at h
    obtain ⟨l, -, r, -, hr⟩ := h
    cases hr

/-- A hit leaves its node in front, where the next `get` finds it. -/
theorem get_again {s c : Filecaches F} {path : Bytes} {node : FileNode F}
    (h : s.get path = some (c, some node)) : ∃ c', c.get path = some (c', some node) := by
  cases hmap : s.cachemap[path]? with
  | none =>
    simp only [get, hmap] at h
    cases h
  | some it =>
    simp only [get, hmap, splice, mapFront, Option.bind_eq_bind] at h
    cases hfind : s.cachelist.find? fun x => x.addr = it with
    | none =>
      rw [hfind] at h
      cases h
    | some x =>
      rw [hfind] at h
      cases h
      have hself : (s.cachemap.insert path x.addr)[path]? = some x.addr := by simp
      simp only [get, hself, splice, List.find?_cons_of_pos, decide_true, mapFront]
      exact ⟨_, rfl⟩

/-- What an operation on a path needs: behind an iterator a node with a file, and without one
room for a node, or a node to remove. -/
def Usable (s : Filecaches F) (path : Bytes) : Prop :=
  match s.cachemap[path]? with
  | none => s.capacity ≠ 0 ∨ s.cachelist ≠ []
  | some it => ∃ x f, s.cachelist.find? (fun x => x.addr = it) = some x ∧ x.node.fptr = some f

theorem get_live {s : Filecaches F} {path : Bytes} {it : Nat} {x : ListNode F}
    (hmap : s.cachemap[path]? = some it)
    (hfind : s.cachelist.find? (fun x => x.addr = it) = some x) :
    ∃ c, s.get path = some (c, some x.node) := by
  simp only [get, hmap, splice, hfind, Option.map_some]
  exact ⟨_, rfl⟩

theorem get_dead {s : Filecaches F} {path : Bytes} {it : Nat}
    (hmap : s.cachemap[path]? = some it)
    (hfind : s.cachelist.find? (fun x => x.addr = it) = none) : s.get path = none := by
  simp only [get, hmap, splice, hfind, Option.map_none]
  rfl

theorem set_miss_isSome {s : Filecaches F} {path : Bytes} (hmap : s.cachemap[path]? = none)
    (f : F) : (s.set path f).isSome ↔ s.capacity ≠ 0 ∨ s.cachelist ≠ [] := by
  have hfront : (s.set path f).isSome = s.makeRoom.isSome := by
    simp only [set, hmap]
    cases s.makeRoom with
    | none => rfl
    | some s' => rfl
  rw [hfront, makeRoom]
  split
  · rename_i hfull
    rw [evict, Option.isSome_map, List.getLast?_isSome, ← hfull]
    simp only [ne_eq, List.length_eq_zero_iff, or_self]
  · rename_i hroom
    refine iff_of_true rfl ?_
    by_contra hno
    obtain ⟨hzero, hnil⟩ := not_or.mp hno
    rw [not_not] at hzero hnil
    exact hroom (by rw [hzero, hnil, List.length_nil])

/-- A path that was not in the map gets the file that is opened for it. -/
theorem set_fptr {s c : Filecaches F} {path : Bytes} {f : F} {node : FileNode F}
    (hmiss : s.cachemap[path]? = none) (h : s.set path f = some (c, node)) :
    node.fptr = some f := by
  simp only [set, hmiss, Option.bind_eq_bind, Option.bind_eq_some_iff] at h
  obtain ⟨s', -, hfront⟩ := h
  cases hfront
  rfl

/-! ## Entries -/

abbrev Entry (F : Type) := Bytes × Nat × F

def Entry.listNode (e : Entry F) : ListNode F := ⟨e.2.1, .ofFile e.2.2⟩

structure Represents (s : Filecaches F) (L : List (Entry F)) : Prop where
  list : s.cachelist = L.map Entry.listNode
  map : ∀ p : Bytes, s.cachemap[p]? = (Lru.find L p).map Prod.fst
  paths : (L.map Prod.fst).Nodup
  addrs : (L.map fun e => e.2.1).Nodup
  fresh : ∀ e ∈ L, e.2.1 < s.fresh

/-- The cache after an operation on the path `p`, whose entry now lies at the address `a`. -/
def touched (s : Filecaches F) (L : List (Entry F)) (p : Bytes) (a : Nat) (f : F) (m : Nat) :
    Filecaches F :=
  ⟨s.cachemap.insert p a, (Lru.touch L p (a, f)).map Entry.listNode, s.capacity, m⟩

section Entries

variable {s : Filecaches F} {L : List (Entry F)} {p : Bytes} {a : Nat} {f g : F}

/-- An entry is told by its path as well as by its address. -/
theorem addr_iff (h : Represents s L) (hmem : (p, a, f) ∈ L) {e : Entry F} (he : e ∈ L) :
    e.2.1 = a ↔ e.1 = p := by
  constructor
  · intro hea
    rw [List.inj_on_of_nodup_map h.addrs he hmem hea]
  · intro hep
    rw [List.inj_on_of_nodup_map h.paths he hmem hep]

theorem filter_addr (h : Represents s L) (hmem : (p, a, f) ∈ L) :
    (L.filter fun e => e.2.1 ≠ a) = L.filter fun e => e.1 ≠ p := by
  refine List.filter_congr ?_
  intro e he
  rw [Bool.eq_iff_iff]
  simp [addr_iff h hmem he]

theorem find_addr (h : Represents s L) (hmem : (p, a, f) ∈ L) :
    L.find? (fun e => e.2.1 = a) = some (p, a, f) := by
  cases hf : L.find? (fun e => e.2.1 = a) with
  | some e =>
    have hea : e.2.1 = a := by simpa using List.find?_some hf
    have he := List.mem_of_find?_eq_some hf
    rw [List.inj_on_of_nodup_map h.addrs he hmem hea]
  | none =>
    have hno := List.find?_eq_none.mp hf _ hmem
    simp at hno

theorem find_node (h : Represents s L) (hmem : (p, a, f) ∈ L) :
    s.cachelist.find? (fun x => x.addr = a) = some ⟨a, .ofFile f⟩ := by
  have hfind : (fun x : ListNode F => decide (x.addr = a)) ∘ Entry.listNode =
      fun e => decide (e.2.1 = a) := rfl
  rw [h.list, List.find?_map, hfind, find_addr h hmem]
  rfl

theorem filter_nodes (h : Represents s L) (hmem : (p, a, f) ∈ L) :
    (s.cachelist.filter fun x => x.addr ≠ a) = (L.filter fun e => e.1 ≠ p).map Entry.listNode := by
  have hfilter : (fun x : ListNode F => decide (x.addr ≠ a)) ∘ Entry.listNode =
      fun e => decide (e.2.1 ≠ a) := rfl
  rw [h.list, List.filter_map, hfilter, filter_addr h hmem]

theorem splice_entries (h : Represents s L) (hmem : (p, a, f) ∈ L) :
    splice s.cachelist a = some ((Lru.touch L p (a, f)).map Entry.listNode) := by
  rw [splice, find_node h hmem, filter_nodes h hmem]
  rfl

/-- Writing through the iterator of a node and moving it to the front. -/
theorem splice_setFptr {l : List (ListNode F)} {x : ListNode F}
    (hx : l.find? (fun y => y.addr = a) = some x) :
    ∃ l', setFptr l a g = some l' ∧
      splice l' a = some (⟨a, { x.node with fptr := some g }⟩ :: l.filter fun y => y.addr ≠ a) := by
  have hxa : x.addr = a := by simpa using List.find?_some hx
  refine ⟨_, by rw [setFptr, hx]; rfl, ?_⟩
  have haddr : (fun y : ListNode F => decide (y.addr = a)) ∘ writeAt a g =
      fun y => decide (y.addr = a) := by
    funext y
    simp only [Function.comp, writeAt]
    split <;> rfl
  have hwrite : (l.filter fun y => y.addr ≠ a).map (writeAt a g) =
      l.filter fun y => y.addr ≠ a := by
    refine (List.map_congr_left ?_).trans (List.map_id _)
    intro y hy
    have hya : y.addr ≠ a := by simpa using (List.mem_filter.mp hy).2
    exact if_neg hya
  have hfilter : (l.map (writeAt a g)).filter (fun y => y.addr ≠ a) =
      l.filter fun y => y.addr ≠ a := by
    have hne : (fun y : ListNode F => decide (y.addr ≠ a)) ∘ writeAt a g =
        fun y => decide (y.addr ≠ a) := by
      funext y
      simp only [Function.comp, writeAt]
      split <;> rfl
    rw [List.filter_map, hne, hwrite]
  show splice (l.map (writeAt a g)) a = _
  rw [splice, List.find?_map, haddr, hx, hfilter]
  simp [writeAt, hxa]

theorem represents_touched (h : Represents s L) (ha : ∀ e ∈ L, e.2.1 = a → e.1 = p) {m : Nat}
    (hm : s.fresh ≤ m) (hlt : a < m) :
    Represents (s.touched L p a f m) (Lru.touch L p (a, f)) := by
  refine ⟨rfl, ?_, ?_, ?_, ?_⟩
  · intro q
    rw [touched, Std.ExtTreeMap.getElem?_insert, Lru.find_touch]
    by_cases hq : p = q
    · simp [hq]
    · simp [hq, h.map q, Std.LawfulEqCmp.compare_eq_iff_eq]
  · rw [Lru.map_fst_touch]
    exact Lru.moveToFront_nodup h.paths p
  · rw [Lru.touch, List.map_cons, List.nodup_cons]
    refine ⟨?_, h.addrs.sublist ((List.filter_sublist).map _)⟩
    intro hmem
    obtain ⟨e, he, hea⟩ := List.mem_map.mp hmem
    obtain ⟨heL, hep⟩ := List.mem_filter.mp he
    exact absurd (ha e heL hea) (by simpa using hep)
  · intro e he
    rcases List.mem_cons.mp he with rfl | he
    · exact hlt
    · exact Nat.lt_of_lt_of_le (h.fresh e (List.mem_of_mem_filter he)) hm

theorem get_represents (h : Represents s L) (p : Bytes) :
    ∃ s', s.get p = some (s', (Lru.find L p).map fun v => FileNode.ofFile v.2) ∧
      Represents s' (Lru.get L p) ∧ s'.capacity = s.capacity := by
  have hmap := h.map p
  cases hf : Lru.find L p with
  | none =>
    rw [hf] at hmap
    refine ⟨s, by rw [get, hmap]; rfl, ?_, rfl⟩
    rw [Lru.get, hf]
    exact h
  | some v =>
    obtain ⟨a, f⟩ := v
    have hmem := Lru.find_eq_some hf
    rw [hf] at hmap
    refine ⟨s.touched L p a f s.fresh, ?_, ?_, rfl⟩
    · rw [get, hmap]
      simp only [Option.map_some]
      rw [splice_entries h hmem]
      rfl
    · rw [Lru.get, hf]
      exact represents_touched h (fun e he hea => (addr_iff h hmem he).mp hea) (Nat.le_refl _)
        (h.fresh _ hmem)

/-- A path that is held: its node gets the new file. -/
theorem set_hit (h : Represents s L) (hf : Lru.find L p = some (a, f)) :
    s.set p g = some (s.touched L p a g s.fresh, .ofFile g) ∧
      Represents (s.touched L p a g s.fresh) (Lru.touch L p (a, g)) := by
  have hmem := Lru.find_eq_some hf
  have hmap := h.map p
  rw [hf] at hmap
  refine ⟨?_, represents_touched h (fun e he hea => (addr_iff h hmem he).mp hea) (Nat.le_refl _)
    (h.fresh _ hmem)⟩
  obtain ⟨l, hset, hsplice⟩ := splice_setFptr (g := g) (find_node h hmem)
  rw [filter_nodes h hmem] at hsplice
  rw [set, hmap]
  simp only [Option.map_some, hset, Option.bind_eq_bind, Option.bind_some, hsplice]
  rfl

/-- A path that is not held: a new node in front. -/
theorem pushFront_represents (h : Represents s L) (hf : Lru.find L p = none) :
    (s.pushFront (.ofFile g)).mapFront p = some (s.touched L p s.fresh g (s.fresh + 1), .ofFile g) ∧
      Represents (s.touched L p s.fresh g (s.fresh + 1)) (Lru.touch L p (s.fresh, g)) := by
  refine ⟨?_, represents_touched h ?_ (Nat.le_succ _) (Nat.lt_succ_self _)⟩
  · rw [touched, Lru.touch_of_find_none hf, List.map_cons, ← h.list]
    rfl
  · intro e he hea
    exact absurd hea (Nat.ne_of_lt (h.fresh e he))

theorem set_miss (h : Represents s L) (hf : Lru.find L p = none) :
    s.set p g = s.makeRoom.bind fun s => (s.pushFront (.ofFile g)).mapFront p := by
  have hmap := h.map p
  rw [hf] at hmap
  rw [set, hmap]
  rfl

theorem length_represents (h : Represents s L) : s.cachelist.length = L.length := by
  rw [h.list, List.length_map]

end Entries

section Evict

variable {s : Filecaches F} {L : List (Entry F)} {q : Bytes} {b : Nat} {f : F}

theorem evict_eq (h : Represents s (L ++ [(q, b, f)])) :
    s.evict =
      some { s with cachemap := s.cachemap.erase [], cachelist := L.map Entry.listNode } := by
  rw [evict, h.list, List.map_append, List.map_singleton, List.getLast?_concat,
    List.dropLast_concat]
  rfl

/-- The entry of the empty path is the one `set` can evict. -/
theorem evict_represents (h : Represents s (L ++ [([], b, f)])) :
    ∃ s₁, s.evict = some s₁ ∧ Represents s₁ L ∧ s₁.capacity = s.capacity := by
  have hevict := evict_eq h
  obtain ⟨-, hmap, hpaths, haddrs, hfresh⟩ := h
  rw [List.map_append, List.map_singleton] at hpaths haddrs
  obtain ⟨hpaths, -, hdisj⟩ := List.nodup_append.mp hpaths
  refine ⟨_, hevict, ⟨rfl, ?_, hpaths, (List.nodup_append.mp haddrs).1, ?_⟩, rfl⟩
  · intro p
    have hlookup := hmap p
    rw [Std.ExtTreeMap.getElem?_erase]
    by_cases hp : ([] : Bytes) = p
    · subst hp
      have hnone : Lru.find L [] = none := by
        refine Lru.find_eq_none.mpr ?_
        intro hmem
        exact hdisj [] hmem [] (by simp) rfl
      simp [hnone]
    · have hcmp : compare ([] : Bytes) p ≠ .eq := fun hc => hp (Std.LawfulEqCmp.eq_of_compare hc)
      rw [if_neg hcmp, hlookup, Lru.find_concat_of_ne hp]
  · exact fun e he => hfresh e (by simp [he])

/-- The entry of any other path leaves its path in the map, with the iterator of a removed node. -/
theorem evict_dangling (h : Represents s (L ++ [(q, b, f)])) (hq : q ≠ []) {p : Bytes}
    (hp : Lru.find (L ++ [(q, b, f)]) p = none) (hfull : (L ++ [(q, b, f)]).length = s.capacity)
    (g : F) :
    ∃ s' node, s.set p g = some (s', node) ∧ s'.cachemap[q]? = some b ∧
      b ∉ s'.cachelist.map ListNode.addr := by
  have hroom : s.makeRoom = s.evict := by
    rw [makeRoom, if_pos ((length_represents h).trans hfull)]
  have hqp : compare p q ≠ .eq := by
    intro hc
    have heq : p = q := Std.LawfulEqCmp.eq_of_compare hc
    have hmem : p ∈ (L ++ [(q, b, f)]).map Prod.fst := by simp [heq]
    exact Lru.find_eq_none.mp hp hmem
  have hne : compare ([] : Bytes) q ≠ .eq := fun hc => hq (Std.LawfulEqCmp.eq_of_compare hc).symm
  rw [set_miss h hp, hroom, evict_eq h]
  refine ⟨_, _, rfl, ?_, ?_⟩
  · show ((s.cachemap.erase []).insert p s.fresh)[q]? = some b
    rw [Std.ExtTreeMap.getElem?_insert, if_neg hqp, Std.ExtTreeMap.getElem?_erase, if_neg hne,
      h.map q, Lru.find_of_mem h.paths (v := (b, f)) (by simp)]
    rfl
  · show b ∉ s.fresh :: (L.map Entry.listNode).map ListNode.addr
    have haddrs := h.addrs
    rw [List.map_append, List.map_singleton] at haddrs
    have hfresh := h.fresh (q, b, f) (by simp)
    rw [List.map_map]
    intro hmem
    rcases List.mem_cons.mp hmem with hb | hmem
    · exact absurd hb (Nat.ne_of_lt hfresh)
    · exact (List.nodup_append.mp haddrs).2.2 b hmem b (by simp) rfl

end Evict

/-! ## Runs -/

/-- Every key of the map leads to a node of the list, and every node has exactly one key. -/
structure KeysExact (s : Filecaches F) : Prop where
  live : ∀ (p : Bytes) (a : Nat), s.cachemap[p]? = some a → a ∈ s.cachelist.map ListNode.addr
  path : ∀ a ∈ s.cachelist.map ListNode.addr, ∃! p : Bytes, s.cachemap[p]? = some a

/-- After these operations no dead iterator was used, the map and the list agree, the list holds
`c` nodes at most, and a `get` hits exactly on the `c` most recently used paths, with the file of
the last `set`. -/
def Faithful (c : Nat) (ops : List (Op F)) : Prop :=
  ∃ s, run c ops = some s ∧ s.KeysExact ∧ s.cachelist.length ≤ c ∧
    ∀ p, (s.get p).map (fun r => r.2.map FileNode.fptr) =
      some (if p ∈ (Lru.uses c ops).take c then some (Lru.latest ops p) else none)

/-- If this `set` finds the cache full and its path not in it, the path that has to go is the
empty one. -/
def EvictsEmptyPath (c : Nat) (ops : List (Op F)) : Op F → Prop
  | .get _ => True
  | .set p _ => p ∉ (Lru.uses c ops).take c → c ≤ (Lru.uses c ops).length →
      (Lru.uses c ops)[c - 1]? = some []

instance EvictsEmptyPath.decidable (c : Nat) (ops : List (Op F)) :
    (op : Op F) → Decidable (EvictsEmptyPath c ops op)
  | .get _ => .isTrue trivial
  | .set p _ => inferInstanceAs (Decidable (p ∉ (Lru.uses c ops).take c →
      c ≤ (Lru.uses c ops).length → (Lru.uses c ops)[c - 1]? = some []))

def EvictsOnlyEmptyPath (c : Nat) (ops : List (Op F)) : Prop :=
  ∀ pre op, pre ++ [op] <+: ops → EvictsEmptyPath c pre op

theorem evictsOnlyEmptyPath_of_forall {c : Nat} {ops : List (Op F)}
    (h : ∀ i : Fin ops.length, EvictsEmptyPath c (ops.take i) (ops.get i)) :
    EvictsOnlyEmptyPath c ops := by
  rintro pre op ⟨rest, rfl⟩
  have hop := h ⟨pre.length, by simp⟩
  simpa using hop

def forget (L : List (Entry F)) : List (Bytes × F) := L.map fun e => (e.1, e.2.2)

structure Holds (c : Nat) (ops : List (Op F)) (s : Filecaches F) (L : List (Entry F)) : Prop where
  run : Filecaches.run c ops = some s
  represents : Represents s L
  capacity : s.capacity = c
  entries : forget L = Lru.run c ops

theorem forget_find (L : List (Entry F)) (p : Bytes) :
    Lru.find (forget L) p = (Lru.find L p).map Prod.snd := by
  simp only [Lru.find, forget, List.find?_map, Option.map_map]
  rfl

theorem forget_touch (L : List (Entry F)) (p : Bytes) (a : Nat) (f : F) :
    forget (Lru.touch L p (a, f)) = Lru.touch (forget L) p f := by
  simp only [forget, Lru.touch, List.map_cons, List.filter_map]
  rfl

section Holds

variable {c : Nat} {ops : List (Op F)} {s : Filecaches F} {L : List (Entry F)}

theorem Holds.paths (h : Holds c ops s L) : L.map Prod.fst = (Lru.uses c ops).take c := by
  rw [← (Lru.inv_run c ops).keys, ← h.entries, forget, List.map_map]
  rfl

theorem Holds.length_le (h : Holds c ops s L) : L.length ≤ c := by
  have hlen := Lru.length_run c ops
  rw [← h.entries, forget, List.length_map] at hlen
  exact hlen

theorem keysExact_represents (h : Represents s L) : s.KeysExact := by
  constructor
  · intro p a hpa
    rw [h.map p] at hpa
    obtain ⟨v, hv, rfl⟩ := Option.map_eq_some_iff.mp hpa
    rw [h.list, List.map_map]
    exact List.mem_map.mpr ⟨(p, v), Lru.find_eq_some hv, rfl⟩
  · intro a ha
    rw [h.list, List.map_map] at ha
    obtain ⟨⟨p, b, f⟩, he, rfl⟩ := List.mem_map.mp ha
    refine ⟨p, ?_, ?_⟩
    · show s.cachemap[p]? = some b
      rw [h.map p, Lru.find_of_mem h.paths he]
      rfl
    · intro q hq
      rw [h.map q] at hq
      obtain ⟨v, hv, hvb⟩ := Option.map_eq_some_iff.mp hq
      have heq := List.inj_on_of_nodup_map h.addrs (Lru.find_eq_some hv) he hvb
      exact congrArg Prod.fst heq

theorem Holds.faithful (h : Holds c ops s L) : Faithful c ops := by
  refine ⟨s, h.run, keysExact_represents h.represents, ?_, ?_⟩
  · rw [length_represents h.represents]
    exact h.length_le
  · intro p
    obtain ⟨s', hget, -, -⟩ := get_represents h.represents p
    have hfind := Lru.find_run c ops p
    rw [← h.entries, forget_find] at hfind
    rw [hget, Option.map_some]
    by_cases hp : p ∈ (Lru.uses c ops).take c
    · rw [if_pos hp] at hfind ⊢
      rw [← h.paths] at hp
      cases hf : Lru.find L p with
      | none => exact absurd hp (Lru.find_eq_none.mp hf)
      | some v =>
        rw [hf] at hfind
        rw [← hfind]
        rfl
    · rw [if_neg hp]
      rw [← h.paths] at hp
      rw [Lru.find_eq_none.mpr hp]
      rfl

theorem Holds.concat {op : Op F} {s' : Filecaches F} {L' : List (Entry F)} (h : Holds c ops s L)
    (hstep : s.step op = some s') (hrep : Represents s' L') (hcap : s'.capacity = s.capacity)
    (hentries : forget L' = Lru.step c (forget L) op) : Holds c (ops ++ [op]) s' L' := by
  refine ⟨?_, hrep, hcap.trans h.capacity, ?_⟩
  · rw [run_concat, h.run, Option.bind_some, hstep]
  · rw [hentries, h.entries, Lru.run_concat]

theorem Holds.get (h : Holds c ops s L) (p : Bytes) :
    ∃ s' L', Holds c (ops ++ [.get p]) s' L' := by
  obtain ⟨s', hget, hrep, hcap⟩ := get_represents h.represents p
  refine ⟨s', Lru.get L p, h.concat (by rw [step, hget]; rfl) hrep hcap ?_⟩
  have hfind := forget_find L p
  rw [Lru.step, Lru.get, Lru.get]
  cases hf : Lru.find L p with
  | none =>
    rw [hf, Option.map_none] at hfind
    rw [hfind]
  | some v =>
    rw [hf, Option.map_some] at hfind
    rw [hfind]
    exact forget_touch L p v.1 v.2

theorem Holds.setHit (h : Holds c ops s L) {p : Bytes} {v : Nat × F} (hf : Lru.find L p = some v)
    (g : F) : ∃ s' L', Holds c (ops ++ [.set p g]) s' L' := by
  obtain ⟨a, f⟩ := v
  obtain ⟨hset, hrep⟩ := set_hit (g := g) h.represents hf
  refine ⟨_, _, h.concat (by rw [step, hset]; rfl) hrep rfl ?_⟩
  have hlen := Lru.length_touch hf (a, g)
  have hle := h.length_le
  rw [Lru.step, Lru.set, ← forget_touch L p a g, List.take_of_length_le]
  simp only [forget, List.length_map]
  omega

theorem Holds.setRoom (h : Holds c ops s L) {p : Bytes} (hf : Lru.find L p = none)
    (hroom : L.length < c) (g : F) : ∃ s' L', Holds c (ops ++ [.set p g]) s' L' := by
  have hmake : s.makeRoom = some s := by
    rw [makeRoom, if_neg]
    rw [length_represents h.represents, h.capacity]
    omega
  obtain ⟨hpush, hrep⟩ := pushFront_represents (g := g) h.represents hf
  have hset : s.set p g = some (s.touched L p s.fresh g (s.fresh + 1), .ofFile g) := by
    rw [set_miss h.represents hf, hmake, Option.bind_some, hpush]
  refine ⟨_, _, h.concat (by rw [step, hset]; rfl) hrep rfl ?_⟩
  rw [Lru.step, Lru.set, ← forget_touch L p s.fresh g, List.take_of_length_le]
  rw [Lru.touch_of_find_none hf]
  simp only [forget, List.map_cons, List.length_cons, List.length_map]
  omega

/-- The last entry of a full cache is under the path whose use lies furthest back. -/
theorem Holds.last {q : Bytes} {b : Nat} {f : F} (h : Holds c ops s (L ++ [(q, b, f)]))
    (hfull : (L ++ [(q, b, f)]).length = c) :
    c ≤ (Lru.uses c ops).length ∧ (Lru.uses c ops)[c - 1]? = some q := by
  have hpaths := h.paths
  have hlen := congrArg List.length hpaths
  simp only [List.length_map, List.length_take, List.length_append, List.length_singleton]
    at hlen hfull
  refine ⟨by omega, ?_⟩
  have hget := congrArg (fun l => l[c - 1]?) hpaths
  simp only [List.map_append, List.map_singleton] at hget
  rw [List.getElem?_take_of_lt (by omega), List.getElem?_append_right (by simp; omega)] at hget
  rw [← hget]
  have hzero : c - 1 - L.length = 0 := by omega
  simp [hzero]

theorem Holds.setFull {b : Nat} {f : F} (h : Holds c ops s (L ++ [([], b, f)])) {p : Bytes}
    (hf : Lru.find (L ++ [([], b, f)]) p = none) (hfull : (L ++ [([], b, f)]).length = c) (g : F) :
    ∃ s' L', Holds c (ops ++ [.set p g]) s' L' := by
  obtain ⟨s₁, hevict, hrep₁, hcap₁⟩ := evict_represents h.represents
  have hmake : s.makeRoom = some s₁ := by
    rw [makeRoom, if_pos, hevict]
    rw [length_represents h.represents, h.capacity, hfull]
  have hp : p ≠ [] := by
    rintro rfl
    exact Lru.find_eq_none.mp hf (by simp)
  have hf₁ : Lru.find L p = none := by rw [← Lru.find_concat_of_ne hp.symm, hf]
  obtain ⟨hpush, hrep⟩ := pushFront_represents (g := g) hrep₁ hf₁
  have hset : s.set p g = some (s₁.touched L p s₁.fresh g (s₁.fresh + 1), .ofFile g) := by
    rw [set_miss h.represents hf, hmake, Option.bind_some, hpush]
  refine ⟨_, _, h.concat (by rw [step, hset]; rfl) hrep hcap₁ ?_⟩
  have hforget : Lru.find (forget (L ++ [([], b, f)])) p = none := by rw [forget_find, hf]; rfl
  have hlen : (forget L).length + 1 = c := by
    simpa [forget] using hfull
  rw [Lru.step, Lru.set, Lru.touch_of_find_none hf₁, Lru.touch_of_find_none hforget, ← hlen,
    List.take_succ_cons]
  simp [forget]

/-- One step keeps the cache faithful exactly when it evicts no path but the empty one. -/
theorem Holds.step_iff (h : Holds c ops s L) (hc : 1 ≤ c) (op : Op F) :
    (EvictsEmptyPath c ops op → ∃ s' L', Holds c (ops ++ [op]) s' L') ∧
      (¬ EvictsEmptyPath c ops op → ¬ Faithful c (ops ++ [op])) := by
  cases op with
  | get p => exact ⟨fun _ => h.get p, fun hno => absurd trivial hno⟩
  | set p g =>
    cases hf : Lru.find L p with
    | some v =>
      refine ⟨fun _ => h.setHit hf g, fun hno => absurd ?_ hno⟩
      intro hp
      rw [← h.paths] at hp
      rw [Lru.find_eq_none.mpr hp] at hf
      cases hf
    | none =>
      have hp : p ∉ (Lru.uses c ops).take c := by
        rw [← h.paths]
        exact Lru.find_eq_none.mp hf
      rcases Nat.lt_or_ge L.length c with hroom | hge
      · refine ⟨fun _ => h.setRoom hf hroom g, fun hno => absurd ?_ hno⟩
        intro _ hfull
        have hlen := congrArg List.length h.paths
        simp only [List.length_map, List.length_take] at hlen
        omega
      · have hfull : L.length = c := Nat.le_antisymm h.length_le hge
        cases L using List.reverseRecOn with
        | nil => simp at hfull; omega
        | append_singleton L e =>
          obtain ⟨q, b, f⟩ := e
          obtain ⟨hlong, hlast⟩ := h.last hfull
          by_cases hq : q = []
          · subst hq
            exact ⟨fun _ => h.setFull hf hfull g, fun hno => absurd (fun _ _ => hlast) hno⟩
          · refine ⟨?_, ?_⟩
            · intro hev
              have hempty := hev hp hlong
              rw [hlast] at hempty
              exact absurd (Option.some.inj hempty) hq
            · intro _ hfaith
              obtain ⟨s', node, hset, hdead, hgone⟩ :=
                evict_dangling h.represents hq hf (hfull.trans h.capacity.symm) g
              obtain ⟨t, hrun, hkeys, -⟩ := hfaith
              rw [run_concat, h.run, Option.bind_some, step, hset, Option.map_some] at hrun
              cases hrun
              exact hgone (hkeys.live q b hdead)

end Holds

theorem holds_nil (c : Nat) : Holds c ([] : List (Op F)) (init c) [] where
  run := rfl
  represents := by
    refine ⟨rfl, ?_, List.nodup_nil, List.nodup_nil, nofun⟩
    intro p
    exact Std.ExtTreeMap.getElem?_empty
  capacity := rfl
  entries := rfl

theorem evictsOnlyEmptyPath_concat {c : Nat} {ops : List (Op F)} {op : Op F} :
    EvictsOnlyEmptyPath c (ops ++ [op]) ↔ EvictsOnlyEmptyPath c ops ∧ EvictsEmptyPath c ops op := by
  constructor
  · intro h
    exact ⟨fun pre op' hpre => h pre op' (hpre.trans (List.prefix_append _ _)),
      h ops op (List.prefix_refl _)⟩
  · rintro ⟨h, hop⟩ pre op' hpre
    rcases List.prefix_concat_iff.mp hpre with heq | hpre
    · obtain ⟨rfl, hsing⟩ := List.append_inj' heq rfl
      cases hsing
      exact hop
    · exact h pre op' hpre

/-- A run that evicts no path but the empty one keeps the cache represented. -/
theorem exists_holds {c : Nat} (hc : 1 ≤ c) (ops : List (Op F)) :
    EvictsOnlyEmptyPath c ops → ∃ s L, Holds c ops s L := by
  induction ops using List.reverseRecOn with
  | nil => exact fun _ => ⟨_, _, holds_nil c⟩
  | append_singleton ops op ih =>
    intro h
    obtain ⟨hops, hop⟩ := evictsOnlyEmptyPath_concat.mp h
    obtain ⟨s, L, hs⟩ := ih hops
    exact (hs.step_iff hc op).1 hop

/-- The cache behaves as an LRU cache after every operation of a run exactly when no step of the
run evicts a path other than the empty one. -/
theorem faithful_iff (c : Nat) (hc : 1 ≤ c) (ops : List (Op F)) :
    (∀ pre, pre <+: ops → Faithful c pre) ↔ EvictsOnlyEmptyPath c ops := by
  constructor
  · induction ops using List.reverseRecOn with
    | nil =>
      intro _ pre op hpre
      have hlen := hpre.length_le
      simp at hlen
    | append_singleton ops op ih =>
      intro h
      have hops := ih fun pre hpre => h pre (hpre.trans (List.prefix_append _ _))
      refine evictsOnlyEmptyPath_concat.mpr ⟨hops, ?_⟩
      obtain ⟨s, L, hs⟩ := exists_holds hc ops hops
      by_contra hno
      exact (hs.step_iff hc op).2 hno (h _ (List.prefix_refl _))
  · intro h pre hpre
    obtain ⟨s, L, hs⟩ := exists_holds hc pre fun pre' op hpre' => h pre' op (hpre'.trans hpre)
    exact hs.faithful

/-- Hits, a second path, and a third one that finds the cache full: the empty path has to go. -/
def emptyPathGoes : List (Op Nat) :=
  [.set [] 0, .set (ascii "./a") 1, .get [], .get (ascii "./a"), .set (ascii "./b") 2,
    .get (ascii "./a"), .set (ascii "./a") 3, .get (ascii "./b")]

theorem faithful_iff_full :
    EvictsOnlyEmptyPath 2 emptyPathGoes ∧ ∀ pre, pre <+: emptyPathGoes → Faithful 2 pre := by
  have hempty : EvictsOnlyEmptyPath 2 emptyPathGoes :=
    evictsOnlyEmptyPath_of_forall (by decide +kernel)
  exact ⟨hempty, (faithful_iff 2 (by decide) emptyPathGoes).mpr hempty⟩

/-- Two paths in a cache of one node, and the first one again: its iterator is dead. -/
theorem run_evicted :
    run 1 [Lru.Op.set (ascii "./a") 0, .set (ascii "./b") 1, .get (ascii "./a")] = none ∧
      ¬ Faithful 1 [Lru.Op.set (ascii "./a") 0, .set (ascii "./b") 1, .get (ascii "./a")] := by
  have hrun : (run 1 [Lru.Op.set (ascii "./a") 0, .set (ascii "./b") 1,
      .get (ascii "./a")]).isNone = true := by decide +kernel
  rw [Option.isNone_iff_eq_none] at hrun
  refine ⟨hrun, ?_⟩
  rintro ⟨s, h, -⟩
  rw [hrun] at h
  cases h

end Filecaches
end SimpleWeb
