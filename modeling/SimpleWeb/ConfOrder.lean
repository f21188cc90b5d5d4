import SimpleWeb.ConfSections

/-!
# SimpleWeb.ConfOrder

The order of the lines in a section. The keys of `[global]` set different parts of the
configuration, so their order does not matter when no key occurs twice. In `[host]` every line sets
the docroot back to `.`, so the docroot is the one of the file only when its line comes last
(`hostOf_eq`); `read_reordered_iff` says which files do not depend on that.
-/

namespace SimpleWeb
namespace ConfFile

open CArray

/-! ## Files with reordered sections -/

/-- The keys and values of a section. -/
def Section.settings (s : Section) : List (Bytes × Bytes) := (bodyLines s.body).filterMap keyValue

def Section.keys (s : Section) : List Bytes := s.settings.map Prod.fst

structure Section.Permuted (s s' : Section) : Prop where
  header : s'.header = s.header
  body : s.body.Perm s'.body

/-- The second file has the sections of the first, with their lines in another order. -/
structure Reordered (content content' : Bytes) : Prop where
  lead : (split (fileLines content')).lead = (split (fileLines content)).lead
  sections : List.Forall₂ Section.Permuted (split (fileLines content)).sections
    (split (fileLines content')).sections

/-- The docroot of the section is the default, or its line is the only one with a `=`. -/
def DocrootSettled (s : Section) : Prop :=
  ∀ path, (ascii "docroot", path) ∈ s.settings → path = ascii "." ∨ s.settings.length = 1

/-! ## `[global]` -/

theorem Setting.apply_comm {s s' : Setting} (h : ∀ k ∈ s.key, k ∉ s'.key) (conf : FullConf) :
    s'.apply (s.apply conf) = s.apply (s'.apply conf) := by
  cases s <;> cases s' <;> first | rfl | exact absurd rfl (h _ rfl)

/-- Lines of a section without a double key are the same line or have different keys. -/
theorem key_inj {lines : List Bytes} (hd : ((lines.filterMap keyValue).map Prod.fst).Nodup)
    {l l' : Bytes} (hl : l ∈ lines) (hl' : l' ∈ lines) {k v v' : Bytes}
    (hkv : keyValue l = some (k, v)) (hkv' : keyValue l' = some (k, v')) : l = l' := by
  rw [List.Nodup, List.pairwise_map, List.pairwise_filterMap] at hd
  have hsymm : Std.Symm fun l l' => ∀ b, keyValue l = some b → ∀ b', keyValue l' = some b' →
      b.1 ≠ b'.1 := ⟨fun _ _ h b hb b' hb' heq => h b' hb' b hb heq.symm⟩
  by_contra hne
  exact hd.forall hl hl' hne _ hkv _ hkv' rfl

/-- A line of `[global]` is a setting of its key, or none. -/
theorem apply_set (access : Bytes → Bool) (l : Bytes) :
    ∃ s : Setting, (∀ conf, Edits.apply (itemEdit access) conf (.set l) = s.apply conf) ∧
      ∀ k ∈ s.key, ∃ v, keyValue l = some (k, v) := by
  have hnothing : ∀ k ∈ Setting.nothing.key, ∃ v, keyValue l = some (k, v) := by
    intro k hk
    cases hk
  cases hkv : keyValue l with
  | none =>
    refine ⟨.nothing, ?_, by simpa [hkv] using hnothing⟩
    intro conf
    simp [Edits.apply, itemEdit, lineEdit, hkv, Setting.apply]
  | some kv =>
    obtain ⟨key, value⟩ := kv
    cases hs : setting access key value with
    | ok s =>
      refine ⟨s, ?_, ?_⟩
      · intro conf
        simp [Edits.apply, itemEdit, lineEdit, hkv, hs, Except.map]
      · intro k hk
        exact ⟨value, by rw [setting_key hs k hk]⟩
    | error e =>
      refine ⟨.nothing, ?_, by simpa [hkv] using hnothing⟩
      intro conf
      simp [Edits.apply, itemEdit, lineEdit, hkv, hs, Except.map, Setting.apply]

/-- The lines of `[global]` commute when no key occurs twice. -/
theorem apply_set_comm {access : Bytes → Bool} {lines : List Bytes}
    (hd : ((lines.filterMap keyValue).map Prod.fst).Nodup) {l l' : Bytes} (hl : l ∈ lines)
    (hl' : l' ∈ lines) (conf : FullConf) :
    Edits.apply (itemEdit access) (Edits.apply (itemEdit access) conf (.set l)) (.set l') =
      Edits.apply (itemEdit access) (Edits.apply (itemEdit access) conf (.set l')) (.set l) := by
  by_cases heq : l = l'
  · rw [heq]
  · obtain ⟨s, hs, hkey⟩ := apply_set access l
    obtain ⟨s', hs', hkey'⟩ := apply_set access l'
    rw [hs, hs', hs', hs]
    refine Setting.apply_comm (fun k hk hk' => heq ?_) conf
    obtain ⟨v, hv⟩ := hkey k hk
    obtain ⟨v', hv'⟩ := hkey' k hk'
    exact key_inj hd hl hl' hv hv'

/-! ## `[host]` -/

/-- What a setting of `[host]` does to the name. -/
def nameEdit (name : Bytes) (kv : Bytes × Bytes) : Bytes :=
  if kv.1 = ascii "servername" then kv.2 else name

/-- The docroot a setting of `[host]` leaves behind, whatever it was before. -/
def docrootOf (kv : Bytes × Bytes) : Bytes :=
  if kv.1 = ascii "docroot" then kv.2 else ascii "."

theorem hostEdit_none {line : Bytes} (h : keyValue line = none) (host : HostInfo) :
    hostEdit host line = host := by
  simp [hostEdit, h]

theorem hostEdit_some {line : Bytes} {kv : Bytes × Bytes} (h : keyValue line = some kv)
    (host : HostInfo) :
    hostEdit host line = ⟨nameEdit host.servername kv, docrootOf kv⟩ := by
  obtain ⟨key, value⟩ := kv
  simp only [hostEdit, h, nameEdit, docrootOf]
  by_cases hname : key = ascii "servername"
  · subst hname
    rfl
  · simp only [hname, if_false]
    split <;> rfl

/-- A section's name comes from its settings one after the other, its docroot from the last one. -/
theorem hostOf_eq (lines : List Bytes) :
    hostOf lines =
      ⟨(lines.filterMap keyValue).foldl nameEdit [],
        (((lines.filterMap keyValue).getLast?).map docrootOf).getD []⟩ := by
  induction lines using List.reverseRecOn with
  | nil => rfl
  | append_singleton lines line ih =>
    rw [hostOf, List.foldl_concat, ← hostOf, ih]
    cases h : keyValue line with
    | none => simp [hostEdit_none h, h]
    | some kv => simp [hostEdit_some h, h]

theorem Section.Permuted.settings {s s' : Section} (h : s.Permuted s') :
    s.settings.Perm s'.settings := (h.body.map Subtype.val).filterMap keyValue

theorem name_comm {kvs : List (Bytes × Bytes)} (hd : (kvs.map Prod.fst).Nodup)
    {a b : Bytes × Bytes} (ha : a ∈ kvs) (hb : b ∈ kvs) (name : Bytes) :
    nameEdit (nameEdit name a) b = nameEdit (nameEdit name b) a := by
  by_cases hka : a.1 = ascii "servername"
  · by_cases hkb : b.1 = ascii "servername"
    · rw [List.inj_on_of_nodup_map hd ha hb (hka.trans hkb.symm)]
    · simp [nameEdit, hka, hkb]
  · simp [nameEdit, hka]

/-- Where the docroot is settled, every line could come last. -/
theorem docroot_last {kvs kvs' : List (Bytes × Bytes)} (hp : kvs.Perm kvs')
    (hset : ∀ path, (ascii "docroot", path) ∈ kvs → path = ascii "." ∨ kvs.length = 1) :
    (kvs.getLast?.map docrootOf).getD [] = (kvs'.getLast?.map docrootOf).getD [] := by
  by_cases hone : kvs.length = 1
  · obtain ⟨kv, rfl⟩ := List.length_eq_one_iff.mp hone
    rw [List.singleton_perm.mp hp]
  · have hdot : ∀ kv ∈ kvs, docrootOf kv = ascii "." := by
      rintro ⟨key, value⟩ hkv
      by_cases hkey : key = ascii "docroot"
      · subst hkey
        simpa [docrootOf] using (hset value hkv).resolve_right hone
      · simp [docrootOf, hkey]
    cases hlast : kvs.getLast? with
    | none =>
      have hnil := List.getLast?_eq_none_iff.mp hlast
      subst hnil
      rw [List.nil_perm.mp hp]
      rfl
    | some kv =>
      have hmem := List.mem_of_getLast? hlast
      cases hlast' : kvs'.getLast? with
      | none =>
        rw [List.getLast?_eq_none_iff.mp hlast'] at hp
        rw [List.perm_nil.mp hp] at hmem
        cases hmem
      | some kv' =>
        have hmem' := hp.mem_iff.mpr (List.mem_of_getLast? hlast')
        simp [hdot kv hmem, hdot kv' hmem']

theorem hostOf_permuted {s s' : Section} (h : s.Permuted s') (hd : s.keys.Nodup)
    (hset : DocrootSettled s) : hostOf (bodyLines s.body) = hostOf (bodyLines s'.body) := by
  have hname : s.settings.foldl nameEdit [] = s'.settings.foldl nameEdit [] :=
    h.settings.foldl_eq' (fun a ha b hb name => name_comm hd ha hb name) []
  have hdocroot := docroot_last h.settings hset
  rw [hostOf_eq, hostOf_eq]
  exact congrArg₂ HostInfo.mk hname hdocroot

/-! ## Whole files -/

/-- The section does not add a host whose docroot depends on the order of its lines. -/
def Settled (s : Section) : Prop :=
  sectionName s.header.val = ascii "host" → DocrootSettled s

theorem global_ne_host : ascii "global" ≠ ascii "host" := by decide

/-- An accepted section does the same in another order. -/
theorem block_permuted {access : Bytes → Bool} {s s' : Section} (h : s.Permuted s')
    (hd : s.keys.Nodup) (hset : Settled s)
    (hok : ∀ it ∈ s.items, Edits.refusal (itemEdit access) it = none) :
    Edits.block (itemEdit access) s.items = Edits.block (itemEdit access) s'.items := by
  have hlines : (bodyLines s.body).Perm (bodyLines s'.body) := h.body.map Subtype.val
  unfold Section.items at hok ⊢
  rw [h.header]
  split
  · rename_i hglobal
    rw [if_pos hglobal] at hok
    refine Edits.block_perm (hlines.map _) hok ?_
    intro a ha b hb conf
    obtain ⟨l, hl, rfl⟩ := List.mem_map.mp ha
    obtain ⟨l', hl', rfl⟩ := List.mem_map.mp hb
    exact apply_set_comm hd hl hl' conf
  · rename_i hglobal
    rw [if_neg hglobal] at hok
    split
    · rename_i hhost
      rw [Edits.block, Edits.block]
      simp only [List.findSome?_cons, Edits.refusal, itemEdit, List.findSome?_nil,
        List.foldl_cons, List.foldl_nil, Edits.apply, hostOf_permuted h hd (hset hhost)]
    · rename_i hhost
      rw [if_neg hhost] at hok
      have hnil : bodyLines s.body = [] := by
        by_contra hne
        obtain ⟨line, lines, heq⟩ := List.exists_cons_of_ne_nil hne
        have hstray := hok (.stray line) (by simp [heq])
        cases hstray
      rw [hnil] at hlines ⊢
      rw [List.nil_perm.mp hlines]

/-- An accepted configuration, as a run over its sections. -/
theorem read_sections {access : Bytes → Bool} {content : Bytes} {conf : FullConf}
    (h : read access (some content) .init = .ok conf) :
    (split (fileLines content)).lead = [] ∧
      (∀ s ∈ (split (fileLines content)).sections, ∀ it ∈ s.items,
        Edits.refusal (itemEdit access) it = none) ∧
      Edits.run (fun s : Section => Edits.block (itemEdit access) s.items) .init
        (split (fileLines content)).sections = .ok conf := by
  rw [read_eq] at h
  change Edits.run (itemEdit access) .init (split (fileLines content)).items = .ok conf at h
  have hlead : (split (fileLines content)).lead = [] := by
    cases hl : (split (fileLines content)).lead with
    | nil => rfl
    | cons line lead =>
      have hstray := (Edits.run_ok_iff.mp h).1 (.stray line.val)
        (by simp [ConfText.items, hl, bodyLines])
      cases hstray
  rw [ConfText.items, hlead] at h
  refine ⟨hlead, ?_, ?_⟩
  · intro s hs it hit
    exact (Edits.run_ok_iff.mp h).1 it (List.mem_flatMap.mpr ⟨s, hs, hit⟩)
  · rw [Edits.run_flatMap]
    exact h

theorem read_of_sections {access : Bytes → Bool} {content : Bytes} {conf : FullConf}
    (hlead : (split (fileLines content)).lead = [])
    (h : Edits.run (fun s : Section => Edits.block (itemEdit access) s.items) .init
      (split (fileLines content)).sections = .ok conf) :
    read access (some content) .init = .ok conf := by
  rw [Edits.run_flatMap] at h
  rw [read_eq]
  change Edits.run (itemEdit access) .init (split (fileLines content)).items = .ok conf
  rw [ConfText.items, hlead]
  exact h

theorem read_reordered {access : Bytes → Bool} {content content' : Bytes} {conf : FullConf}
    (h : read access (some content) .init = .ok conf)
    (hkeys : ∀ s ∈ (split (fileLines content)).sections, s.keys.Nodup)
    (hset : ∀ s ∈ (split (fileLines content)).sections, Settled s)
    (hr : Reordered content content') : read access (some content') .init = .ok conf := by
  obtain ⟨hlead, hok, hrun⟩ := read_sections h
  refine read_of_sections (hr.lead.trans hlead) ?_
  rw [← hrun]
  have hboth := (List.forall₂_and_left (p := fun s : Section => s.keys.Nodup ∧ Settled s ∧
    ∀ it ∈ s.items, Edits.refusal (itemEdit access) it = none) _ _).mpr
    ⟨fun s hs => ⟨hkeys s hs, hset s hs, hok s hs⟩, hr.sections⟩
  refine (Edits.run_congr (hboth.imp ?_) _).symm
  rintro s s' ⟨⟨hd, hs, hit⟩, hp⟩
  exact block_permuted hp hd hs hit

/-! ## A file that depends on the order -/

theorem fileLines_noLF (is : Bytes) : ∀ l ∈ fileLines is, LF ∉ l := by
  induction is with
  | nil => simp [fileLines]
  | cons c cs ih =>
    intro l hl
    rw [fileLines] at hl
    by_cases hc : c = LF
    · rw [if_pos hc, List.mem_cons] at hl
      rcases hl with rfl | hl
      · simp
      · exact ih l hl
    · rw [if_neg hc] at hl
      cases hf : fileLines cs with
      | nil =>
        rw [hf] at hl
        rw [List.mem_singleton.mp hl]
        simpa using Ne.symm hc
      | cons l' ls =>
        rw [hf] at hl ih
        rcases List.mem_cons.mp hl with rfl | hl
        · have hl' := ih l' (by simp)
          simp [hl', Ne.symm hc]
        · exact ih l (by simp [hl])

/-- The text of lines, each with its newline. -/
def unlines (lines : List Bytes) : Bytes := lines.flatMap fun l => l ++ [LF]

theorem fileLines_line {l : Bytes} (hl : LF ∉ l) (is : Bytes) :
    fileLines (l ++ LF :: is) = l :: fileLines is := by
  induction l with
  | nil => rw [List.nil_append, fileLines, if_pos rfl]
  | cons c cs ih =>
    have hc : c ≠ LF := fun h => hl (by simp [h])
    have hcs : LF ∉ cs := fun h => hl (by simp [h])
    rw [List.cons_append, fileLines, if_neg hc, ih hcs]

theorem fileLines_unlines {lines : List Bytes} (h : ∀ l ∈ lines, LF ∉ l) :
    fileLines (unlines lines) = lines := by
  induction lines with
  | nil => rfl
  | cons l lines ih =>
    have hrest := ih fun l' hl' => h l' (by simp [hl'])
    have hcons : unlines (l :: lines) = l ++ LF :: unlines lines := by simp [unlines]
    rw [hcons, fileLines_line (h l (by simp)), hrest]

/-- The hosts an item adds. -/
def hostsOf : Item → List HostInfo
  | .host body => [hostOf body]
  | _ => []

theorem apply_hosts (access : Bytes → Bool) (conf : FullConf) (it : Item) :
    (Edits.apply (itemEdit access) conf it).hosts = conf.hosts ++ hostsOf it := by
  cases it with
  | stray line => simp [Edits.apply, itemEdit, hostsOf]
  | host body => simp [Edits.apply, itemEdit, hostsOf]
  | set line =>
    obtain ⟨s, hs, -⟩ := apply_set access line
    have hnone : hostsOf (.set line) = [] := rfl
    rw [hs, hnone, List.append_nil]
    cases s <;> rfl

theorem read_hosts {access : Bytes → Bool} {content : Bytes} {conf : FullConf}
    (h : read access (some content) .init = .ok conf) :
    conf.hosts =
      (split (fileLines content)).sections.flatMap fun s => s.items.flatMap hostsOf := by
  obtain ⟨-, -, hrun⟩ := read_sections h
  rw [Edits.run_flatMap] at hrun
  have hhosts := Edits.run_collect (p := fun conf : FullConf => conf.hosts)
    (fun s it _ => apply_hosts access s it) hrun
  simpa [FullConf.init, List.flatMap_assoc] using hhosts

theorem mem_sectionLines {s s' : Section} (h : s.Permuted s') {l : Bytes} :
    l ∈ s'.lines ↔ l ∈ s.lines := by
  have hbody : (bodyLines s.body).Perm (bodyLines s'.body) := h.body.map Subtype.val
  rw [Section.lines, Section.lines, h.header, List.mem_cons, List.mem_cons, hbody.mem_iff]

/-- One section of a file can be put in another order. -/
theorem exists_reordered {content : Bytes} {pre post : List Section} {s s' : Section}
    (hsplit : (split (fileLines content)).sections = pre ++ s :: post) (hp : s.Permuted s') :
    ∃ content', Reordered content content' ∧
      (split (fileLines content')).sections = pre ++ s' :: post := by
  let t' : ConfText := ⟨(split (fileLines content)).lead, pre ++ s' :: post⟩
  have hclean : ∀ l ∈ t'.lines, LF ∉ l := by
    intro l hl
    refine fileLines_noLF content l ?_
    rw [← lines_split (fileLines content), ConfText.lines, hsplit]
    simpa [t', ConfText.lines, mem_sectionLines hp] using hl
  have hlines : split (fileLines (unlines t'.lines)) = t' := by
    rw [fileLines_unlines hclean, split_lines]
  refine ⟨unlines t'.lines, ⟨?_, ?_⟩, ?_⟩
  · rw [hlines]
  · rw [hlines, hsplit]
    have hrefl : ∀ ss : List Section, List.Forall₂ Section.Permuted ss ss := fun ss =>
      List.forall₂_same.mpr fun s _ => ⟨rfl, List.Perm.refl _⟩
    exact List.rel_append (hrefl pre) (.cons hp (hrefl post))
  · rw [hlines]

/-- The section with one of its lines put last. -/
def Section.withLast (s : Section) (line : BodyLine) : Section :=
  ⟨s.header, s.body.erase line ++ [line]⟩

theorem permuted_withLast {s : Section} {line : BodyLine} (h : line ∈ s.body) :
    s.Permuted (s.withLast line) :=
  ⟨rfl, (List.perm_cons_erase h).trans (List.perm_append_singleton line _).symm⟩

theorem docroot_withLast {s : Section} {line : BodyLine} {kv : Bytes × Bytes}
    (h : keyValue line.val = some kv) :
    (hostOf (bodyLines (s.withLast line).body)).docroot = docrootOf kv := by
  simp [hostOf_eq, Section.withLast, bodyLines, h]

/-- When no order changes what is read, the docroot is the one every line would leave. -/
theorem docroot_of_reordered {access : Bytes → Bool} {content : Bytes} {conf : FullConf}
    (h : read access (some content) .init = .ok conf)
    (hall : ∀ content', Reordered content content' → read access (some content') .init = .ok conf)
    {s : Section} (hs : s ∈ (split (fileLines content)).sections)
    (hhost : sectionName s.header.val = ascii "host") {kv : Bytes × Bytes}
    (hkv : kv ∈ s.settings) : docrootOf kv = (hostOf (bodyLines s.body)).docroot := by
  obtain ⟨l, hl, hkv⟩ := List.mem_filterMap.mp hkv
  obtain ⟨line, hline, rfl⟩ := List.mem_map.mp hl
  obtain ⟨pre, post, hsplit⟩ := List.append_of_mem hs
  have hp := permuted_withLast hline
  obtain ⟨content', hr, hsplit'⟩ := exists_reordered hsplit hp
  have hhosts := (read_hosts h).symm.trans (read_hosts (hall content' hr))
  have hitems : ∀ t : Section, t.header = s.header →
      t.items.flatMap hostsOf = [hostOf (bodyLines t.body)] := by
    intro t ht
    simp [Section.items, ht, hhost, global_ne_host.symm, hostsOf]
  rw [hsplit, hsplit', List.flatMap_append, List.flatMap_append, List.flatMap_cons,
    List.flatMap_cons, hitems s rfl, hitems _ hp.header] at hhosts
  have heq := List.append_cancel_left hhosts
  simp only [List.singleton_append, List.cons.injEq] at heq
  rw [heq.1, docroot_withLast hkv]

theorem settled_of_reordered {access : Bytes → Bool} {content : Bytes} {conf : FullConf}
    (h : read access (some content) .init = .ok conf)
    (hall : ∀ content', Reordered content content' → read access (some content') .init = .ok conf)
    {s : Section} (hs : s ∈ (split (fileLines content)).sections) (hd : s.keys.Nodup) :
    Settled s := by
  intro hhost path hpath
  have hsame : ∀ kv ∈ s.settings, docrootOf kv = (hostOf (bodyLines s.body)).docroot :=
    fun _ hkv => docroot_of_reordered h hall hs hhost hkv
  by_cases hone : ∃ kv ∈ s.settings, kv ≠ (ascii "docroot", path)
  · obtain ⟨kv, hkv, hne⟩ := hone
    have hkey : kv.1 ≠ ascii "docroot" := fun heq =>
      hne (List.inj_on_of_nodup_map hd hkv hpath heq)
    have hdot : docrootOf kv = ascii "." := by simp [docrootOf, hkey]
    have hdocroot : docrootOf (ascii "docroot", path) = path := by simp [docrootOf]
    exact .inl (by rw [← hdocroot, hsame _ hpath, ← hsame _ hkv, hdot])
  · right
    have hall' : ∀ kv ∈ s.settings, kv = (ascii "docroot", path) := by
      simpa using hone
    have hnodup : s.settings.Nodup := hd.of_map
    rw [List.eq_replicate_of_mem hall'] at hnodup hpath ⊢
    have hle := List.nodup_replicate.mp hnodup
    have hpos := List.length_pos_of_mem hpath
    rw [List.length_replicate] at hpos ⊢
    omega

/-- An accepted file without double keys is read the same in every order of its lines exactly when
each `[host]` names no docroot but the default next to other lines with a `=`. -/
theorem read_reordered_iff (access : Bytes → Bool) (content : Bytes) (conf : FullConf)
    (h : read access (some content) .init = .ok conf)
    (hkeys : ∀ s ∈ (split (fileLines content)).sections, s.keys.Nodup) :
    (∀ content', Reordered content content' →
        read access (some content') .init = .ok conf) ↔
      ∀ s ∈ (split (fileLines content)).sections,
        sectionName s.header.val = ascii "host" → DocrootSettled s :=
  ⟨fun hall s hs => settled_of_reordered h hall hs (hkeys s hs),
    fun hset _ hr => read_reordered h hkeys hset hr⟩

theorem read_reordered_iff_sample :
    ¬ ∀ content', Reordered sample content' →
      read (fun _ => true) (some content') .init = .ok sampleConf := by
  intro hall
  have hset := (read_reordered_iff (fun _ => true) sample sampleConf read_sample
    (by decide +kernel)).mp hall
  -- the docroot of the file's only host is ./ahost, behind a servername
  have hdocroot : ∃ s ∈ (split (fileLines sample)).sections,
      sectionName s.header.val = ascii "host" ∧
        (ascii "docroot", ascii "./ahost") ∈ s.settings ∧
        ascii "./ahost" ≠ ascii "." ∧ s.settings.length ≠ 1 := by
    decide +kernel
  obtain ⟨s, hs, hname, hpath, hdot, hone⟩ := hdocroot
  exact (hset s hs hname _ hpath).elim hdot hone

/-- A host with its docroot line last. -/
def docrootLast : Bytes := ascii "[host]\nservername=a\ndocroot=b\n"

/-- The same host with its docroot line first. -/
def docrootFirst : Bytes := ascii "[host]\ndocroot=b\nservername=a\n"

theorem reordered_docroot : Reordered docrootLast docrootFirst := by
  let header : HeaderLine := ⟨ascii "[host]", by decide⟩
  let servername : BodyLine := ⟨ascii "servername=a", by decide⟩
  let docroot : BodyLine := ⟨ascii "docroot=b", by decide⟩
  have hlast : split (fileLines docrootLast) = ⟨[], [⟨header, [servername, docroot]⟩]⟩ := by
    rw [← split_lines ⟨[], [⟨header, [servername, docroot]⟩]⟩]
    exact congrArg split (by decide)
  have hfirst : split (fileLines docrootFirst) = ⟨[], [⟨header, [docroot, servername]⟩]⟩ := by
    rw [← split_lines ⟨[], [⟨header, [docroot, servername]⟩]⟩]
    exact congrArg split (by decide)
  constructor
  · rw [hlast, hfirst]
  · rw [hlast, hfirst]
    exact .cons ⟨rfl, List.Perm.swap _ _ _⟩ .nil

/-- The docroot of a host is lost when another line follows it. -/
theorem read_docroot_lost :
    Reordered docrootLast docrootFirst ∧
      (∀ s ∈ (split (fileLines docrootLast)).sections, s.keys.Nodup) ∧
      ∃ conf conf', read (fun _ => true) (some docrootLast) .init = .ok conf ∧
        read (fun _ => true) (some docrootFirst) .init = .ok conf' ∧
        conf.hosts = [⟨ascii "a", ascii "b"⟩] ∧ conf'.hosts = [⟨ascii "a", ascii "."⟩] ∧
        conf.hosts ≠ conf'.hosts := by
  refine ⟨reordered_docroot, by decide +kernel, { FullConf.init with hosts := [⟨_, _⟩] },
    { FullConf.init with hosts := [⟨_, _⟩] }, ?_, ?_, rfl, rfl, by decide⟩
  · rw [read_eq]
    rfl
  · rw [read_eq]
    rfl

end ConfFile
end SimpleWeb
