import SimpleWeb.ConfSections

/-!
# SimpleWeb.ConfValues

The values `Conf::read` leaves under the eight keys of `[global]`, against the plain reading of a
file: the last value that is admitted, of the lines that have the key in front of their first `=`
(`lastValue`), over all sections `[global]`.

* `Sets`       — a key sets one part of the configuration, from its value alone.
* `read_value` — such a part is what the plain reading says.
-/

namespace SimpleWeb
namespace ConfFile

open CArray

/-! ## The plain reading -/

/-- The lines of all sections `[global]`. -/
def globalLines (t : ConfText) : List Bytes :=
  t.sections.flatMap fun s =>
    if sectionName s.header.val = ascii "global" then bodyLines s.body else []

/-- The admitted values of the lines with that key. -/
def admittedValues {τ : Type} (allow : Bytes → Option τ) (key : Bytes) (lines : List Bytes) :
    List τ :=
  ((lines.filterMap keyValue).filter (·.1 = key)).filterMap (allow ·.2)

def lastValue {τ : Type} (allow : Bytes → Option τ) (key : Bytes) (lines : List Bytes) : Option τ :=
  (admittedValues allow key lines).getLast?

def admitNumber (value : Bytes) : Option Int := (stoi value).toOption

/-! ## One key -/

section Key

variable {τ : Type} {access : Bytes → Bool} {key : Bytes} {allow : Bytes → Option τ}
  {π : FullConf → τ}

/-- A key sets one part of the configuration to the admitted value, and nothing else does. -/
structure Sets (access : Bytes → Bool) (key : Bytes) (allow : Bytes → Option τ)
    (π : FullConf → τ) : Prop where
  setting : ∀ value s conf, setting access key value = .ok s →
    π (s.apply conf) = (allow value).getD (π conf)
  other : ∀ (s : Setting) conf, key ∉ s.key → π (s.apply conf) = π conf
  hosts : ∀ conf hosts, π { conf with hosts := hosts } = π conf

/-- What a line gives the key. -/
def lineValue (allow : Bytes → Option τ) (key line : Bytes) : Option τ :=
  match keyValue line with
  | some (k, value) => if k = key then allow value else none
  | none => none

/-- The line of `[global]` an item is. -/
def Item.line : Item → Option Bytes
  | .set line => some line
  | _ => none

def itemValue (allow : Bytes → Option τ) (key : Bytes) (it : Item) : Option τ :=
  it.line.bind (lineValue allow key)

theorem lineEdit_value (h : Sets access key allow π) {line : Bytes} {f : FullConf → FullConf}
    (hf : lineEdit access line = .ok f) (conf : FullConf) :
    π (f conf) = (lineValue allow key line).getD (π conf) := by
  unfold lineEdit at hf
  unfold lineValue
  split at hf
  · rename_i hkv
    cases hf
    rw [hkv]
    rfl
  · rename_i k value hkv
    cases hs : setting access k value with
    | error e =>
      rw [hs] at hf
      cases hf
    | ok s =>
      rw [hs] at hf
      cases hf
      rw [hkv]
      by_cases hk : k = key
      · subst hk
        simp only [if_true]
        exact h.setting value s conf hs
      · have hother : key ∉ s.key := fun hmem => hk (setting_key hs key hmem).symm
        simp only [if_neg hk]
        exact h.other s conf hother

theorem apply_value (h : Sets access key allow π) (conf : FullConf) {it : Item}
    (hit : Edits.refusal (itemEdit access) it = none) :
    π (Edits.apply (itemEdit access) conf it) = (itemValue allow key it).getD (π conf) := by
  obtain ⟨f, hf⟩ := Edits.refusal_eq_none.mp hit
  have happly : Edits.apply (itemEdit access) conf it = f conf := by simp [Edits.apply, hf]
  rw [happly]
  cases it with
  | stray line => cases hf
  | host body =>
    cases hf
    exact h.hosts _ _
  | set line => exact lineEdit_value h hf conf

/-- The last item that gives the key a value decides. -/
theorem read_item (h : Sets access key allow π) {confile : Option Bytes} {conf : FullConf}
    (hread : read access confile .init = .ok conf) :
    π conf = ((confText confile).items.reverse.findSome? (itemValue allow key)).getD (π .init) := by
  rw [read_eq] at hread
  exact Edits.run_last (fun s it hit => apply_value h s hit) hread

theorem filterMap_stray (body : List Bytes) : (body.map Item.stray).filterMap Item.line = [] := by
  rw [List.filterMap_map, List.filterMap_eq_nil_iff]
  intro line _
  rfl

theorem filterMap_set (body : List Bytes) : (body.map Item.set).filterMap Item.line = body := by
  rw [List.filterMap_map]
  exact List.filterMap_some

/-- Of what reading meets, the lines of `[global]`. -/
theorem items_lines (t : ConfText) : t.items.filterMap Item.line = globalLines t := by
  rw [ConfText.items, List.filterMap_append, filterMap_stray, List.nil_append,
    List.filterMap_flatMap, globalLines]
  refine List.flatMap_congr ?_
  intro s _
  rw [Section.items]
  split
  · exact filterMap_set _
  · split
    · rfl
    · exact filterMap_stray _

theorem lastValue_eq (t : ConfText) :
    t.items.reverse.findSome? (itemValue allow key) = lastValue allow key (globalLines t) := by
  have hline : lineValue allow key = fun line =>
      (keyValue line).bind fun kv => if decide (kv.1 = key) then allow kv.2 else none := by
    funext line
    unfold lineValue
    cases keyValue line with
    | none => rfl
    | some kv => simp
  have hitems : t.items.filterMap (itemValue allow key) =
      (t.items.filterMap Item.line).filterMap (lineValue allow key) := by
    rw [List.filterMap_filterMap]
    rfl
  rw [← List.getLast?_filterMap, hitems, items_lines, lastValue, admittedValues,
    List.filterMap_filter, List.filterMap_filterMap, hline]

/-- The part is the one of the plain reading. -/
theorem read_value (h : Sets access key allow π) {confile : Option Bytes} {conf : FullConf}
    (hread : read access confile .init = .ok conf) :
    π conf = (lastValue allow key (globalLines (confText confile))).getD (π .init) := by
  rw [read_item h hread, lastValue_eq]

end Key

end ConfFile
end SimpleWeb
