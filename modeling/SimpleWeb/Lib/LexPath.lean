import Mathlib

/-!
# Lib.LexPath

Lexical resolution of paths: a path is cut at the separators, empty components and single dots
are dropped, and a double dot takes back the component before it.

* `Place`   — where a path leads: from the root or from the place it is read at, `ups` levels up
  and then down through `names`.
* `walk`    — follow components from a place.
* `resolve` — the place of a path.
* `Below`   — a place is another one, or under it.
* `walk_eq` / `below_walk_iff` — following components from a place only depends on where they lead
  by themselves.
-/

namespace LexPath

variable {α : Type}

/-! ## Places -/

structure Place (α : Type) where
  rooted : Bool
  ups : Nat
  names : List (List α)
  deriving DecidableEq

def Place.here : Place α := ⟨false, 0, []⟩

/-- One level up. Above the root there is nothing. -/
def Place.up (p : Place α) : Place α :=
  if p.names = [] then
    if p.rooted then p else { p with ups := p.ups + 1 }
  else { p with names := p.names.dropLast }

def Place.down (p : Place α) (name : List α) : Place α := { p with names := p.names ++ [name] }

structure Below (d p : Place α) : Prop where
  rooted : p.rooted = d.rooted
  ups : p.ups = d.ups
  names : d.names <+: p.names

/-- Where `c` leads when it is followed from `d`. -/
def Place.join (d c : Place α) : Place α where
  rooted := d.rooted
  ups := if d.rooted then d.ups else d.ups + (c.ups - d.names.length)
  names := d.names.take (d.names.length - c.ups) ++ c.names

theorem Place.up_rooted (p : Place α) : p.up.rooted = p.rooted := by
  unfold Place.up
  split
  · split
    · rfl
    · rfl
  · rfl

theorem join_here (d : Place α) : d.join .here = d := by
  simp [Place.join, Place.here]

theorem join_down (d c : Place α) (name : List α) :
    d.join (c.down name) = (d.join c).down name := by
  simp [Place.join, Place.down]

theorem join_up {d c : Place α} (hc : c.rooted = false) : d.join c.up = (d.join c).up := by
  obtain ⟨r, u, ns⟩ := d
  obtain ⟨r', k, ms⟩ := c
  simp only at hc
  subst hc
  cases ms using List.reverseRecOn with
  | nil =>
    by_cases hle : ns.length ≤ k
    · have h₀ : ns.length - k = 0 := by omega
      have h₁ : ns.length - (k + 1) = 0 := by omega
      cases r with
      | true => simp [Place.up, Place.join, h₀, h₁]
      | false =>
        have hups : u + (k + 1 - ns.length) = u + (k - ns.length) + 1 := by omega
        simp [Place.up, Place.join, h₀, h₁, hups]
    · have h₀ : k - ns.length = 0 := by omega
      have h₁ : k + 1 - ns.length = 0 := by omega
      have hne : ns.take (ns.length - k) ≠ [] := by
        intro h
        have hlen := congrArg List.length h
        simp only [List.length_take, List.length_nil] at hlen
        omega
      have hlast : (ns.take (ns.length - k)).dropLast = ns.take (ns.length - (k + 1)) := by
        rw [List.dropLast_eq_take, List.take_take, List.length_take]
        congr 1
        omega
      simp [Place.up, Place.join, hne, h₀, h₁, hlast]
  | append_singleton ms m => simp [Place.up, Place.join]

/-! ## Paths -/

section Paths

variable [DecidableEq α]

def step (dot : α) (p : Place α) (c : List α) : Place α :=
  if c = [dot] then p else if c = [dot, dot] then p.up else p.down c

def walk (dot : α) (p : Place α) (cs : List (List α)) : Place α := cs.foldl (step dot) p

def components (sep : α) (s : List α) : List (List α) := (s.splitOn sep).filter (· ≠ [])

def resolve (sep dot : α) (s : List α) : Place α :=
  walk dot ⟨s.head? = some sep, 0, []⟩ (components sep s)

theorem components_append (sep : α) (s t : List α) :
    components sep (s ++ sep :: t) = components sep s ++ components sep t := by
  rw [components, List.splitOn_append_cons_self, List.filter_append]
  rfl

theorem components_sep (sep : α) (t : List α) : components sep (sep :: t) = components sep t :=
  components_append sep [] t

theorem resolve_append {sep dot : α} {s : List α} (hs : s ≠ []) (t : List α) :
    resolve sep dot (s ++ sep :: t) = walk dot (resolve sep dot s) (components sep t) := by
  have hhead : (s ++ sep :: t).head? = s.head? := List.head?_append_of_ne_nil s hs
  rw [resolve, hhead, components_append, walk, List.foldl_append]
  rfl

/-! ## Walks -/

theorem step_rooted (dot : α) (p : Place α) (c : List α) : (step dot p c).rooted = p.rooted := by
  unfold step
  split
  · rfl
  · split
    · exact p.up_rooted
    · rfl

theorem walk_rooted (dot : α) (p : Place α) (cs : List (List α)) :
    (walk dot p cs).rooted = p.rooted := by
  induction cs generalizing p with
  | nil => rfl
  | cons c cs ih => exact (ih (step dot p c)).trans (step_rooted dot p c)

theorem resolve_rooted (sep dot : α) (s : List α) :
    (resolve sep dot s).rooted = decide (s.head? = some sep) :=
  walk_rooted dot _ _

theorem walk_eq (dot : α) (d : Place α) (cs : List (List α)) :
    walk dot d cs = d.join (walk dot .here cs) := by
  induction cs using List.reverseRecOn with
  | nil => exact (join_here d).symm
  | append_singleton cs c ih =>
    have hroot : (walk dot .here cs : Place α).rooted = false := walk_rooted dot .here cs
    simp only [walk, List.foldl_append, List.foldl_cons, List.foldl_nil] at ih ⊢
    rw [ih]
    simp only [step]
    split
    · rfl
    · split
      · exact (join_up hroot).symm
      · exact (join_down d _ c).symm

/-- Following components from `d` stays below `d` exactly when they take no more levels back than
`d` has names, unless `d` starts at the root, and come down the same names again. -/
theorem below_walk_iff (dot : α) (d : Place α) (cs : List (List α)) :
    Below d (walk dot d cs) ↔
      (d.rooted = true ∨ (walk dot .here cs).ups ≤ d.names.length) ∧
        d.names.drop (d.names.length - (walk dot .here cs).ups) <+: (walk dot .here cs).names := by
  rw [walk_eq]
  generalize walk dot .here cs = c
  have hnames : d.names <+: (d.join c).names ↔
      d.names.drop (d.names.length - c.ups) <+: c.names := by
    conv_lhs => rw [← List.take_append_drop (d.names.length - c.ups) d.names]
    exact List.prefix_append_right_inj _
  constructor
  · rintro ⟨-, hups, hpre⟩
    refine ⟨?_, hnames.mp hpre⟩
    by_cases hr : d.rooted = true
    · exact .inl hr
    · simp only [Place.join, hr] at hups
      right
      simp at hups
      omega
  · rintro ⟨hups, hpre⟩
    refine ⟨rfl, ?_, hnames.mpr hpre⟩
    simp only [Place.join]
    split
    · rfl
    · rename_i hr
      rcases hups with h | h
      · exact absurd h hr
      · omega

end Paths

end LexPath
