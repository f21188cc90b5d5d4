import SimpleWeb.Http.ResponseWrite

/-!
# SimpleWeb.MappedFile

The class `file` (`file.cpp`), and what `file_body::write` sends of one over a socket that takes
everything it can read.

`openfile` opens a file for reading and writing, takes the size by the path and maps the
descriptor, and goes on whatever of that fails. A file that may only be read keeps its size and
has no memory behind it, so nothing of it is sent (`sends_iff`).
-/

namespace SimpleWeb

open Http FileBody

/-- `std::ios_base::openmode`, as far as `openfile` tells modes apart. -/
inductive OpenMode where
  | inOut
  | input
  | output
  | other

inductive OpenFlag where
  | rdonly
  | wronly
  | rdwr

/-- `flag` stays 0 for any other mode, and 0 is `O_RDONLY`. -/
def OpenMode.flag : OpenMode → OpenFlag
  | .inOut => .rdwr
  | .input => .rdonly
  | .output => .wronly
  | .other => .rdonly

/-- The calls `openfile` makes. `stat` gives its result and what it leaves in `st_size`; of a
mapping we know the bytes that can be read from its address on, and a failed one is none. -/
structure FileSystem where
  openAt : Bytes → OpenFlag → Int
  stat : Bytes → Int × Int64
  mmap : Int → Int64 → Option Bytes

structure MappedFile where
  fd : Int
  fsize : Int64
  fileaddr : Option Bytes

/-- No result is looked at but for a message. -/
def openfile (fs : FileSystem) (path : Bytes) (m : OpenMode) : MappedFile :=
  let fd := fs.openAt path m.flag
  let fsize := (fs.stat path).2
  ⟨fd, fsize, fs.mmap fd fsize⟩

namespace MappedFile

/-- `shared_file_body::size`, a `uint64_t`, and what `f.size()` becomes next to `totalwrited` -/
def size (f : MappedFile) : Nat := f.fsize.toUInt64.toNat

/-- The bytes behind `fileaddr`; behind `MAP_FAILED` there are none. -/
def memory (f : MappedFile) : Bytes := f.fileaddr.getD []

def body (f : MappedFile) : ResponseBody := .sharedFile f.size fun i => f.memory.getD i 0

end MappedFile

/-- What `write(2)` returns for the loop in `s` when the socket takes everything: a range of
memory that can be read is taken as a whole, and of any other one nothing or what can be read of
it. -/
inductive SocketTakes (memory : Bytes) (s : WriteVars) : SputnResult → Prop where
  | whole {e : Bool} : 0 ≤ s.nums → s.totalwrited + s.nums ≤ memory.length →
      SocketTakes memory s ⟨s.nums, e⟩
  | part {e : Bool} (res : Nat) : memory.length < s.totalwrited + s.nums → res ≤ s.nums →
      s.totalwrited + res ≤ memory.length → SocketTakes memory s ⟨res, e⟩
  | fault : ¬ (0 ≤ s.nums ∧ s.totalwrited + s.nums ≤ memory.length) →
      SocketTakes memory s ⟨-1, true⟩

def MappedFile.Written (f : MappedFile) (results : Nat → SputnResult) : Prop :=
  ∀ k s, FileBody.write f.size results k = .calling s → SocketTakes f.memory s (results k)

/-- What is sent of the file in the end is `contents`. -/
def MappedFile.Sends (f : MappedFile) (results : Nat → SputnResult) (contents : Bytes) : Prop :=
  ∃ k, ∀ j, k ≤ j →
    (FileBody.write f.size results j).accepted.map (fun i => f.memory.getD i 0) = contents

/-- The locals of the loop, running or not. -/
def Http.FileBody.WriteState.vars : WriteState → WriteVars
  | .calling s => s
  | .returned s => s

section Loop

variable {f : MappedFile} {results : Nat → SputnResult} {k : Nat} {s : WriteVars}

theorem vars_accepted (s : WriteState) : s.accepted = s.vars.accepted := by
  cases s <;> rfl

theorem vars_whileTest (size : Nat) (s : WriteVars) : (whileTest size s).vars = s := by
  rw [whileTest]
  split <;> rfl

/-- The locals behind a call that has taken `res` bytes. -/
def Http.FileBody.WriteVars.take (s : WriteVars) (res : Nat) : WriteVars :=
  ⟨toInt32 (s.nums * 2), s.totalwrited + res, s.accepted ++ List.range' s.totalwrited res⟩

/-- One call: some bytes of memory more, or the end of the loop. -/
theorem write_call (hw : f.Written results)
    (h : FileBody.write f.size results k = .calling s) :
    (∃ res : Nat, FileBody.write f.size results (k + 1) = whileTest f.size (s.take res) ∧
        s.totalwrited + res ≤ f.memory.length ∧ res ≤ s.nums) ∨
      FileBody.write f.size results (k + 1) = .returned s := by
  have htaken := hw k s h
  generalize hr : results k = r at htaken
  cases htaken with
  | whole hnums hle =>
    obtain ⟨res, hres⟩ := Int.eq_ofNat_of_zero_le hnums
    have hcall : FileBody.write f.size results (k + 1) = whileTest f.size (s.take res) :=
      write_succ h (by rw [hr, ← hres]) (by omega)
    exact .inl ⟨res, hcall, by omega, by omega⟩
  | part res _ hres hle =>
    have hcall : FileBody.write f.size results (k + 1) = whileTest f.size (s.take res) :=
      write_succ h (by rw [hr]) hres
    exact .inl ⟨res, hcall, by omega, hres⟩
  | fault hno =>
    have hconv : toInt32 (-1) < 0 := by decide
    right
    rw [FileBody.write, h]
    simp only [writeBody, hr, if_pos hconv, if_true]

/-- What holds in front of the first call, and behind each that takes bytes of memory, holds all
along. -/
theorem write_invariant {P : WriteVars → Prop} (hw : f.Written results)
    (hinit : P ⟨toInt32 f.size, 0, []⟩)
    (hstep : ∀ k s, FileBody.write f.size results k = .calling s → P s → ∀ res : Nat,
      s.totalwrited + res ≤ f.memory.length → res ≤ s.nums → P (s.take res)) (k : Nat) :
    P (FileBody.write f.size results k).vars := by
  induction k with
  | zero => rwa [write_zero, vars_whileTest]
  | succ k ih =>
    cases hk : FileBody.write f.size results k with
    | returned s =>
      rw [hk] at ih
      rwa [write_returned hk 1]
    | calling s =>
      rw [hk] at ih
      rcases write_call hw hk with ⟨res, hnext, hmem, hres⟩ | hret
      · rw [hnext, vars_whileTest]
        exact hstep k s hk ih res hmem hres
      · rwa [hret]

/-- What has been sent lies in memory, from its beginning on. -/
structure FromMemory (memory : Bytes) (s : WriteVars) : Prop where
  accepted : s.accepted = List.range s.totalwrited
  total : s.totalwrited ≤ memory.length

theorem write_memory (hw : f.Written results) (k : Nat) :
    FromMemory f.memory (FileBody.write f.size results k).vars := by
  refine write_invariant hw ⟨rfl, Nat.zero_le _⟩ (fun k s _ hs res hmem _ => ⟨?_, hmem⟩) k
  have happ := List.range'_append_1 (s := 0) (m := s.totalwrited) (n := res)
  rw [Nat.zero_add, ← List.range_eq_range', ← List.range_eq_range'] at happ
  rw [WriteVars.take, hs.accepted]
  exact happ

/-- The lengths asked for leave the range of `int` before they come to the end of the file. -/
structure Short (size : Nat) (s : WriteVars) : Prop where
  total : s.totalwrited < size
  doubled : 0 ≤ s.nums → s.totalwrited ≤ s.nums ∧ 4294967296 ≤ size

theorem Short.take {size : Nat} (hs : Short size s) (hnums : s.nums < 2147483648) {res : Nat}
    (hres : res ≤ s.nums) : Short size (s.take res) := by
  obtain ⟨hle, hbig⟩ := hs.doubled (by omega)
  refine ⟨by simp only [WriteVars.take]; omega, ?_⟩
  intro hpos
  simp only [WriteVars.take, toInt32] at hpos ⊢
  omega

theorem write_short (hw : f.Written results) (hbig : 2147483648 ≤ f.size) (k : Nat) :
    Short f.size (FileBody.write f.size results k).vars := by
  refine write_invariant hw ⟨by simp only; omega, ?_⟩
    (fun k s hk hs res _ hres => hs.take (write_nums hk).2 hres) k
  intro hpos
  simp only [toInt32] at hpos ⊢
  omega

theorem map_getD_range (memory : Bytes) {n : Nat} (h : n ≤ memory.length) :
    (List.range n).map (fun i => memory.getD i 0) = memory.take n := by
  refine List.ext_getElem (by simp [h]) ?_
  intro i hi hi'
  have hlt : i < memory.length := by
    rw [List.length_take] at hi'
    omega
  rw [List.getElem_map, List.getElem_range, List.getD_eq_getElem memory 0 hlt, List.getElem_take]

/-- The first call takes a file that lies in memory. -/
theorem taken_whole (hw : f.Written results) (hpos : 0 < f.size) (hlt : f.size < 2147483648)
    (hmem : f.size ≤ f.memory.length) : (results 0).res = f.size := by
  have htaken := hw 0 _ (write_first hpos results)
  rw [toInt32_eq (by omega)] at htaken
  generalize results 0 = r at htaken
  cases htaken with
  | whole => rfl
  | part res hout => simp only at hout; omega
  | fault hno => simp only at hno; omega

theorem sends_nothing (hsize : f.size = 0) : f.Sends results [] := by
  refine ⟨0, ?_⟩
  intro j _
  rw [hsize, write_empty]
  rfl

theorem sends_memory (hw : f.Written results) (hpos : 0 < f.size) (hlt : f.size < 2147483648)
    (hmem : f.size ≤ f.memory.length) : f.Sends results (f.memory.take f.size) := by
  refine ⟨1, ?_⟩
  intro j hj
  obtain ⟨i, rfl⟩ := Nat.exists_eq_add_of_le' hj
  rw [write_once hpos hlt (taken_whole hw hpos hlt hmem) i, ← map_getD_range f.memory hmem]
  rfl

/-- The file is sent exactly when it has no bytes, or they are in memory and their number is an
`int`. -/
theorem sends_iff (hw : f.Written results) {contents : Bytes} (hsize : contents.length = f.size) :
    f.Sends results contents ↔
      contents = [] ∨ (contents <+: f.memory ∧ contents.length < 2147483648) := by
  constructor
  · rintro ⟨k, hk⟩
    have hsent := hk k (Nat.le_refl k)
    obtain ⟨hacc, hmem⟩ := write_memory hw k
    rw [vars_accepted, hacc, map_getD_range f.memory hmem] at hsent
    have htotal := congrArg List.length hsent
    rw [List.length_take, Nat.min_eq_left hmem] at htotal
    refine .inr ⟨?_, ?_⟩
    · rw [← hsent]
      exact List.take_prefix _ _
    · by_contra hbig
      have hshort := (write_short hw (by omega) k).total
      omega
  · intro h
    rcases Nat.eq_zero_or_pos f.size with hzero | hpos
    · rw [List.length_eq_zero_iff.mp (hsize.trans hzero)]
      exact sends_nothing hzero
    · have hne : contents ≠ [] := List.length_pos_iff.mp (by omega)
      obtain ⟨hmem, hlt⟩ := h.resolve_left hne
      rw [List.prefix_iff_eq_take.mp hmem, hsize]
      exact sends_memory hw hpos (by omega) (hsize ▸ hmem.length_le)

end Loop

end SimpleWeb
