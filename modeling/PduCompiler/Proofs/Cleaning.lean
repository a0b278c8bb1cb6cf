import PduCompiler.Proofs.Places

/-! Runs that end while the output directories are set up. Directories may be new then, but no file
is. What is lost are the files that cleaning takes away: those that lie directly in the directory of
a target that was set up before the run came to its end. -/

namespace PduCompiler

namespace Files

/-- A path without `~` in front stays as it is. Any other one may have no expansion, and becomes a
joined path if it has one. -/
structure Home.Lawful (home : Home) : Prop where
  plain : ∀ path, path.toList.head? ≠ some '~' → home path = .ok path
  joined : ∀ path path', path.toList.head? = some '~' → home path = .ok path' →
    ∃ paths, path' = joinPath paths

theorem Home.of_lawful (dir : Except String String) : (Home.of dir).Lawful where
  plain path h := by
    unfold Home.of
    split
    · next heq => simp [heq] at h
    · rfl
  joined path path' h hexp := by
    unfold Home.of at hexp
    split at hexp
    · split at hexp
      · cases dir with
        | error e => cases hexp
        | ok dir =>
          cases hexp
          exact ⟨_, rfl⟩
      · cases hexp
    · next hne =>
      obtain ⟨c, hc⟩ := List.head?_eq_some_iff.mp h
      exact absurd hc (hne c)

theorem joinPath_eq (paths : List String) :
    joinPath paths = "" ∨ ∃ given, joinPath paths = cleanPath given := by
  unfold joinPath
  split
  · exact .inl rfl
  · exact .inr ⟨_, rfl⟩

theorem Home.Lawful.expanded {home : Home} (hhome : home.Lawful) {paths : List String}
    {path : String} (h : home (joinPath paths) = .ok path) :
    path = "" ∨ ∃ given, path = cleanPath given := by
  by_cases htilde : (joinPath paths).toList.head? = some '~'
  · obtain ⟨parts, rfl⟩ := hhome.joined _ path htilde h
    exact joinPath_eq parts
  · rw [hhome.plain _ htilde] at h
    cases h
    exact joinPath_eq paths

theorem FileTree.get?_erase (t : FileTree) (p q : Place) :
    (t.erase p).get? q = if q = p ∧ q ≠ [] then none else t.get? q := by
  by_cases hq : q = []
  · simp [get?, hq]
  · simp only [get?, hq, if_false, erase, ne_eq, not_false_eq_true, and_true, List.find?_filter]
    by_cases he : q = p
    · rw [if_pos he, Option.map_eq_none_iff, List.find?_eq_none]
      simp [he]
    · rw [if_neg he]
      congr 2
      funext entry
      by_cases hentry : entry.1 = q
      · simp [hentry, he]
      · simp [hentry]

namespace Disk

variable {d d' d'' : Disk} {path : String} {q dir : Place} {t t' : FileTree}

structure Named (d : Disk) : Prop where
  entries : ∀ q e, d.tree.get? q = some e → ∀ name ∈ q, IsName name
  current : ∀ name ∈ d.current, IsName name

/-- From one disk to another directories are added, and files go away in some places. -/
structure Loses (lost : Place → Prop) (d d' : Disk) : Prop where
  current : d'.current = d.current
  named : d.Named → d'.Named
  directories : ∀ q, d.tree.get? q = some .directory → d'.tree.get? q = some .directory
  files : ∀ q content, d'.tree.get? q = some (.file content) →
    d.tree.get? q = some (.file content)
  kept : ∀ q content, d.tree.get? q = some (.file content) → ¬ lost q →
    d'.tree.get? q = some (.file content)

instance : DecidablePred IsName := fun name =>
  decidable_of_iff (name ≠ "" ∧ name ≠ "." ∧ name ≠ ".." ∧ '/' ∉ name.toList) <| by
    constructor
    · rintro ⟨hempty, hdot, hdots, hslash⟩
      exact ⟨hempty, hdot, hdots, hslash⟩
    · intro h
      exact ⟨h.ne_empty, h.ne_dot, h.ne_dots, h.no_slash⟩

theorem named_of_entries (hentries : ∀ entry ∈ d.tree.entries, ∀ name ∈ entry.1, IsName name)
    (hcurrent : ∀ name ∈ d.current, IsName name) : d.Named := by
  refine ⟨fun q e h name hname => ?_, hcurrent⟩
  unfold FileTree.get? at h
  split at h
  · next hq => simp [hq] at hname
  · obtain ⟨entry, hfind, -⟩ := Option.map_eq_some_iff.mp h
    have hplace : entry.1 = q := by simpa using List.find?_some hfind
    exact hentries entry (List.mem_of_find?_eq_some hfind) name (hplace ▸ hname)

theorem Loses.refl (lost : Place → Prop) (d : Disk) : Loses lost d d :=
  ⟨rfl, id, fun _ => id, fun _ _ => id, fun _ _ h _ => h⟩

theorem Loses.trans {lost : Place → Prop} (h : Loses lost d d') (h' : Loses lost d' d'') :
    Loses lost d d'' where
  current := h'.current.trans h.current
  named := h'.named ∘ h.named
  directories q hq := h'.directories q (h.directories q hq)
  files q content hq := h.files q content (h'.files q content hq)
  kept q content hq hlost := h'.kept q content (h.kept q content hq hlost) hlost

theorem Loses.mono {lost lost' : Place → Prop} (h : Loses lost d d')
    (hsub : ∀ q, lost q → lost' q) : Loses lost' d d' :=
  { h with kept := fun q content hq hlost => h.kept q content hq (mt (hsub q) hlost) }

abbrev Extends : Disk → Disk → Prop := Loses fun _ => False

def directory? (d : Disk) (path : String) : Option Place :=
  match d.locate path with
  | .ok (.found q .directory) => some q
  | _ => none

theorem directory?_eq_some :
    d.directory? path = some dir ↔ d.locate path = .ok (.found dir .directory) := by
  unfold directory?
  split
  · next h => simp [h]
  · next h => simpa using fun he => h _ he

theorem partsOf_plain : ∀ part ∈ partsOf path, part ≠ "" ∧ '/' ∉ part.toList := by
  intro part hpart
  obtain ⟨chars, hchars, rfl⟩ := List.mem_map.mp hpart
  rw [String.toList_ofList]
  rcases List.mem_append.mp hchars with hchars | hchars
  · obtain ⟨hsplit, hne⟩ := List.mem_filter.mp hchars
    refine ⟨fun he => ?_, slash_notMem hsplit⟩
    rw [← String.toList_eq_nil_iff, String.toList_ofList] at he
    simp [he] at hne
  · split at hchars
    · rw [List.mem_singleton.mp hchars]
      decide
    · simp at hchars

theorem follow_named {here : Place} {parts : List String} {l : Located}
    (hparts : ∀ part ∈ parts, part ≠ "" ∧ '/' ∉ part.toList) (hhere : ∀ name ∈ here, IsName name)
    (h : follow t here parts = .ok l) (hl : l.file? = some q) : ∀ name ∈ q, IsName name := by
  induction parts generalizing here with
  | nil =>
    cases h
    cases hl
  | cons part rest ih =>
    have hrest : ∀ part ∈ rest, part ≠ "" ∧ '/' ∉ part.toList := fun part' h' =>
      hparts part' (List.mem_cons_of_mem _ h')
    by_cases hdot : part = "."
    · simp only [follow, hdot, beq_self_eq_true, if_true] at h
      exact ih hrest hhere h
    by_cases hdots : part = ".."
    · simp only [follow, hdots, beq_self_eq_true, if_true, String.reduceBEq, if_neg
        Bool.false_ne_true] at h
      exact ih hrest (fun name hname => hhere name (List.dropLast_subset _ hname)) h
    have hpart := hparts part List.mem_cons_self
    have hthere : ∀ name ∈ here ++ [part], IsName name := by
      intro name hname
      rcases List.mem_append.mp hname with hname | hname
      · exact hhere name hname
      · rw [List.mem_singleton.mp hname]
        exact ⟨hpart.1, hdot, hdots, hpart.2⟩
    by_cases hlen : maxNameLength < part.utf8ByteSize
    · simp [follow, hdot, hdots, hlen] at h
    by_cases hdir : t.get? (here ++ [part]) = some .directory
    · simp only [follow, beq_iff_eq, hdot, hdots, hlen, if_false, hdir] at h
      exact ih hrest hthere h
    · have hfile : ((follow t here (part :: rest)).toOption.bind Located.file?) = _ :=
        follow_file? hdot hdots hlen hdir
      rw [h] at hfile
      simp only [Except.toOption, Option.bind_some, hl] at hfile
      split at hfile
      · cases hfile
        exact hthere
      · cases hfile

theorem locate_vacant (h : d.locate path = .ok (.vacant q)) :
    q ≠ [] ∧ d.tree.get? q = none ∧ (d.Named → ∀ name ∈ q, IsName name) := by
  have hfollow := locate_eq_ok h
  obtain ⟨hne, -, hentry⟩ := follow_eq_ok hfollow rfl
  refine ⟨hne, ?_, fun hd => follow_named partsOf_plain ?_ hfollow rfl⟩
  · cases hg : d.tree.get? q with
    | none => rfl
    | some e => simp [hg] at hentry
  · split
    · simp
    · exact hd.current

theorem makeDirectory_extends (h : d.makeDirectory path = .ok d') : Extends d d' := by
  unfold makeDirectory at h
  split at h
  · cases h
  · next p hp =>
    cases h
    obtain ⟨hne, hnone, hnames⟩ := locate_vacant hp
    have hget : ∀ q, (d.tree.set p .directory).get? q =
        if q = p then some .directory else d.tree.get? q := by
      intro q
      by_cases hq : q = []
      · rw [if_neg (hq ▸ Ne.symm hne), hq]
        rfl
      · exact FileTree.get?_set _ _ _ _ hq
    refine ⟨rfl, fun hd => ⟨fun q e he => ?_, hd.current⟩, fun q hq => ?_,
      fun q content hq => ?_, fun q content hq _ => ?_⟩
    · rw [hget] at he
      split at he
      · next hqp => exact hqp ▸ hnames hd
      · exact hd.entries q e he
    · rw [hget]
      split
      · rfl
      · exact hq
    · rw [hget] at hq
      split at hq
      · cases hq
      · exact hq
    · rw [hget]
      split
      · next hqp => simp [hqp, hnone] at hq
      · exact hq
  · cases h

theorem ensureDirectory_extends (h : d.ensureDirectory path = .ok d') : Extends d d' := by
  unfold ensureDirectory at h
  split at h
  · cases h
    exact .refl _ d
  · cases h
  · split at h
    · next hmake =>
      cases h
      exact makeDirectory_extends hmake
    · split at h
      · cases h
        exact .refl _ d
      · cases h

theorem makeDirectories_extends (h : d.makeDirectories path = .ok d') : Extends d d' := by
  have hfold : ∀ (paths : List String) (d : Disk), paths.foldlM ensureDirectory d = .ok d' →
      Extends d d' := by
    intro paths
    induction paths with
    | nil =>
      intro d h
      cases h
      exact .refl _ _
    | cons path paths ih =>
      intro d h
      rw [List.foldlM_cons] at h
      cases h₁ : d.ensureDirectory path with
      | error e =>
        rw [h₁] at h
        cases h
      | ok d₁ =>
        rw [h₁] at h
        exact (ensureDirectory_extends h₁).trans (ih d₁ h)
  unfold makeDirectories at h
  split at h
  · exact ensureDirectory_extends h
  · exact hfold _ d h

theorem madeTowards_extends (d : Disk) (path : String) : Extends d (d.madeTowards path) := by
  unfold madeTowards
  generalize prefixes path = paths
  induction paths generalizing d with
  | nil => exact .refl _ d
  | cons path paths ih =>
    unfold makeWhilePossible
    split
    · next h => exact (ensureDirectory_extends h).trans (ih _)
    · exact .refl _ d

theorem follow_directory {here : Place} {parts : List String}
    (h : ∀ q, t.get? q = some .directory → t'.get? q = some .directory)
    (hf : follow t here parts = .ok (.found dir .directory)) (rest : List String) :
    follow t' here (parts ++ rest) = follow t' dir rest := by
  induction parts generalizing here with
  | nil =>
    cases hf
    rfl
  | cons part parts ih =>
    by_cases hdot : part = "."
    · simp only [follow, hdot, beq_self_eq_true, if_true, List.cons_append] at hf ⊢
      exact ih hf
    by_cases hdots : part = ".."
    · simp only [follow, hdots, beq_self_eq_true, if_true, String.reduceBEq, if_neg
        Bool.false_ne_true, List.cons_append] at hf ⊢
      exact ih hf
    by_cases hlen : maxNameLength < part.utf8ByteSize
    · simp [follow, hdot, hdots, hlen] at hf
    by_cases hdir : t.get? (here ++ [part]) = some .directory
    · simp only [follow, beq_iff_eq, hdot, hdots, hlen, if_false, hdir, h _ hdir,
        List.cons_append] at hf ⊢
      exact ih hf
    · simp only [follow, beq_iff_eq, hdot, hdots, hlen, if_false] at hf
      split at hf
      · split at hf <;> cases hf
      · contradiction
      · split at hf <;> cases hf

theorem locate_directory (hcurrent : d'.current = d.current)
    (h : ∀ q, d.tree.get? q = some .directory → d'.tree.get? q = some .directory)
    (hdir : d.locate path = .ok (.found dir .directory)) :
    d'.locate path = .ok (.found dir .directory) := by
  have hfollow := follow_directory h (locate_eq_ok hdir) []
  rw [List.append_nil] at hfollow
  unfold locate at hdir ⊢
  rw [hcurrent]
  split at hdir
  · cases hdir
  · next hzero =>
    split at hdir
    · cases hdir
    · next hempty =>
      split at hdir
      · cases hdir
      · next hlong =>
        rw [if_neg hzero, if_neg hempty, if_neg hlong, hfollow]
        rfl

theorem Loses.directory? {lost : Place → Prop} (h : Loses lost d d')
    (hdir : d.directory? path = some dir) : d'.directory? path = some dir :=
  directory?_eq_some.mpr (locate_directory h.current h.directories (directory?_eq_some.mp hdir))

variable {given name : String}

theorem locate_name (hdir : d.locate (cleanPath given) = .ok (.found dir .directory))
    (hname : IsName name) {e : Entry}
    (h : d.locate (joinPath [cleanPath given, name]) = .ok (.found q e)) :
    q = dir ++ [name] ∧ d.tree.get? q = some e := by
  have hclean : cleanPath given ≠ "" := by
    rw [ne_eq, ← String.toList_eq_nil_iff, cleanPath, String.toList_ofList]
    exact cleanChars_ne_nil _
  have hjoin : joinPath [cleanPath given, name] = cleanPath (cleanPath given ++ "/" ++ name) := by
    have hfilter : [cleanPath given, name].filter (· != "") = [cleanPath given, name] := by
      simp [hclean, hname.ne_empty]
    rw [joinPath, hfilter]
    rfl
  have hchars : (cleanPath given ++ "/" ++ name).toList =
      cleanChars given.toList ++ '/' :: name.toList := by
    simp [cleanPath]
  have hparts := cleanParts_name given.toList hname
  rw [← hchars] at hparts
  have hrooted : isRooted (joinPath [cleanPath given, name]).toList =
      isRooted (cleanPath given).toList := by
    obtain ⟨c, rest, hcons⟩ := List.exists_cons_of_ne_nil (cleanChars_ne_nil given.toList)
    rw [hjoin, cleanPath, String.toList_ofList, isRooted_cleanChars, hchars, cleanPath,
      String.toList_ofList, hcons]
    rfl
  have hfollow := locate_eq_ok h
  rw [hrooted, hjoin, partsOf_cleanPath _ (by rw [hparts]; simp), hparts, List.map_append] at hfollow
  have hthere : follow d.tree (if isRooted (cleanPath given).toList then [] else d.current)
      ((cleanParts given.toList).map String.ofList) = .ok (.found dir .directory) := by
    have hd := locate_eq_ok hdir
    by_cases hnil : cleanParts given.toList = []
    · have hdot : partsOf (cleanPath given) = ["."] := by
        unfold cleanPath cleanChars
        rw [hnil]
        split <;> decide
      rw [hdot] at hd
      rw [hnil]
      exact hd
    · rwa [partsOf_cleanPath _ hnil] at hd
  rw [follow_directory (fun _ => id) hthere] at hfollow
  simp only [List.map_cons, List.map_nil, String.ofList_toList, follow, beq_iff_eq, hname.ne_dot,
    hname.ne_dots, if_false, List.isEmpty_nil, if_true] at hfollow
  split at hfollow
  · cases hfollow
  · split at hfollow
    · cases hfollow
    · next hget =>
      cases hfollow
      exact ⟨rfl, hget⟩
    · next hget =>
      cases hfollow
      exact ⟨rfl, hget⟩

theorem removeFile_name (hdir : d.locate (cleanPath given) = .ok (.found dir .directory))
    (hname : IsName name) (h : d.removeFile (joinPath [cleanPath given, name]) = .ok d') :
    d' = { d with tree := d.tree.erase (dir ++ [name]) } := by
  unfold removeFile at h
  split at h
  · next hfound =>
    cases h
    rw [(locate_name hdir hname hfound).1]
  · cases h
  · cases h

theorem mem_names {e : Entry} (h : t.get? (dir ++ [name]) = some e) : name ∈ t.names dir := by
  have hne : dir ++ [name] ≠ [] := by simp
  simp only [FileTree.get?, hne, if_false, Option.map_eq_some_iff] at h
  obtain ⟨entry, hfind, -⟩ := h
  refine List.mem_mergeSort.mpr (List.mem_filterMap.mpr ⟨entry, List.mem_of_find?_eq_some hfind, ?_⟩)
  have hplace : entry.1 = dir ++ [name] := by simpa using List.find?_some hfind
  simp [hplace]

theorem readDirectory_eq_ok {entries : List (String × Entry)}
    (h : d.readDirectory path = .ok entries) : ∃ dir, d.directory? path = some dir ∧
      ∀ name e, (name, e) ∈ entries ↔ d.tree.get? (dir ++ [name]) = some e := by
  unfold readDirectory at h
  split at h
  · next dir hdir =>
    cases h
    refine ⟨dir, directory?_eq_some.mpr hdir, fun name e => ?_⟩
    simp only [List.mem_filterMap, Option.map_eq_some_iff, Prod.mk.injEq]
    constructor
    · rintro ⟨_, -, _, he, rfl, rfl⟩
      exact he
    · intro he
      exact ⟨name, mem_names he, e, he, rfl, rfl⟩
  · cases h
  · cases h
  · cases h

end Disk

end Files

namespace Generate

open Files

variable {d d' : Disk} {dir q : Place} {given name file : String} {c : Cleaned}

/-- What cleaning a directory takes away if it is a file: what lies directly inside, under a name
that is not reserved. -/
def Disposable (dir q : Place) : Prop := ∃ name, q = dir ++ [name] ∧ name ∉ reservedNames

structure Cleaned.Sweeps (d : Disk) (dir : Place) (c : Cleaned) : Prop where
  current : c.disk.current = d.current
  sub : ∀ q e, c.disk.tree.get? q = some e → d.tree.get? q = some e
  kept : ∀ q e, d.tree.get? q = some e → (Disposable dir q → e = .directory) →
    c.disk.tree.get? q = some e

theorem Cleaned.Sweeps.loses (h : c.Sweeps d dir) : Disk.Loses (Disposable dir) d c.disk where
  current := h.current
  named hd := ⟨fun q e hq => hd.entries q e (h.sub q e hq), h.current ▸ hd.current⟩
  directories q hq := h.kept q _ hq fun _ => rfl
  files q _ hq := h.sub q _ hq
  kept q _ hq hno := h.kept q _ hq fun hdisp => absurd hdisp hno

theorem remove_cases (c : Cleaned) (file : String) :
    (c.error.isSome = true ∧ cleanDirectory.remove c file = c) ∨
    (∃ e, cleanDirectory.remove c file = { c with error := some e }) ∨
    (c.error = none ∧ ∃ d', c.disk.removeFile file = .ok d' ∧
      cleanDirectory.remove c file = { c with disk := d', removed := c.removed ++ [file] }) := by
  unfold cleanDirectory.remove
  by_cases herror : c.error.isSome = true
  · rw [if_pos herror]
    exact .inl ⟨herror, rfl⟩
  · rw [if_neg herror]
    cases hremove : c.disk.removeFile file with
    | error e => exact .inr (.inl ⟨_, rfl⟩)
    | ok d' => exact .inr (.inr ⟨by simpa using herror, d', rfl, rfl⟩)

theorem remove_error (herror : c.error.isSome = true) (files : List String) :
    files.foldl cleanDirectory.remove c = c := by
  induction files with
  | nil => rfl
  | cons file files ih => rw [List.foldl_cons, cleanDirectory.remove, if_pos herror, ih]

section Sweeping

variable (hdir : d.locate (cleanPath given) = .ok (.found dir .directory))

include hdir

theorem Cleaned.Sweeps.removed (h : c.Sweeps d dir) (hname : IsName name)
    (hok : c.disk.removeFile (joinPath [cleanPath given, name]) = .ok d') (q : Place) :
    d'.current = c.disk.current ∧
      d'.tree.get? q = if q = dir ++ [name] then none else c.disk.tree.get? q := by
  have hthere := Disk.locate_directory h.current h.loses.directories hdir
  rw [Disk.removeFile_name hthere hname hok]
  refine ⟨rfl, ?_⟩
  rw [FileTree.get?_erase]
  by_cases hq : q = dir ++ [name]
  · simp [hq]
  · simp [hq]

theorem Cleaned.Sweeps.remove (h : c.Sweeps d dir) (hname : IsName name)
    (hfree : name ∉ reservedNames) (hfile : d.tree.get? (dir ++ [name]) ≠ some .directory) :
    (cleanDirectory.remove c (joinPath [cleanPath given, name])).Sweeps d dir := by
  rcases remove_cases c (joinPath [cleanPath given, name]) with ⟨-, heq⟩ | ⟨e, heq⟩ |
    ⟨-, d', hok, heq⟩
  · rwa [heq]
  · rw [heq]
    exact ⟨h.current, h.sub, h.kept⟩
  · rw [heq]
    have hget := h.removed hdir hname hok
    refine ⟨(hget []).1.trans h.current, fun q e hq => ?_, fun q e hq hdisp => ?_⟩
    · rw [(hget q).2] at hq
      split at hq
      · cases hq
      · exact h.sub q e hq
    · rw [(hget q).2]
      split
      · next heq =>
        have hd := hdisp ⟨name, heq, hfree⟩
        subst heq hd
        exact absurd hq hfile
      · exact h.kept q e hq hdisp

theorem Cleaned.Sweeps.fold (h : c.Sweeps d dir) {files : List String}
    (hfiles : ∀ file ∈ files, ∃ name, file = joinPath [cleanPath given, name] ∧ IsName name ∧
      name ∉ reservedNames ∧ d.tree.get? (dir ++ [name]) ≠ some .directory) :
    (files.foldl cleanDirectory.remove c).Sweeps d dir ∧
      (∀ q, c.disk.tree.get? q = none →
        (files.foldl cleanDirectory.remove c).disk.tree.get? q = none) ∧
      ((files.foldl cleanDirectory.remove c).error = none → ∀ name, IsName name →
        joinPath [cleanPath given, name] ∈ files →
        (files.foldl cleanDirectory.remove c).disk.tree.get? (dir ++ [name]) = none) := by
  induction files generalizing c with
  | nil => exact ⟨h, fun _ => id, by simp⟩
  | cons file files ih =>
    obtain ⟨name, rfl, hname, hfree, hfile⟩ := hfiles file List.mem_cons_self
    obtain ⟨hsweeps, hnone, hgone⟩ := ih (h.remove hdir hname hfree hfile)
      fun file' h' => hfiles file' (List.mem_cons_of_mem _ h')
    rw [List.foldl_cons]
    refine ⟨hsweeps, fun q hq => hnone q ?_, fun herror name' hname' hmem => ?_⟩
    · rcases remove_cases c (joinPath [cleanPath given, name]) with ⟨-, heq⟩ | ⟨e, heq⟩ |
        ⟨-, d', hok, heq⟩
      · rwa [heq]
      · rwa [heq]
      · rw [heq]
        simp [(h.removed hdir hname hok q).2, hq]
    · rcases List.mem_cons.mp hmem with heq' | hmem
      · refine hnone _ ?_
        rcases remove_cases c (joinPath [cleanPath given, name]) with ⟨hfail, heq⟩ | ⟨e, heq⟩ |
          ⟨-, d', hok, heq⟩
        · rw [heq, remove_error hfail] at herror
          simp [herror] at hfail
        · rw [heq, remove_error (by rfl)] at herror
          cases herror
        · rw [heq]
          rw [← heq'] at hok
          simp [(h.removed hdir hname' hok _).2]
      · exact hgone herror name' hname' hmem

end Sweeping

theorem cleanDirectory_loses (hd : d.Named) {path : String}
    (hpath : path = "" ∨ ∃ given, path = cleanPath given) :
    (d.directory? path = none → (cleanDirectory d path).disk = d) ∧
    (∀ dir, d.directory? path = some dir →
      Disk.Loses (Disposable dir) d (cleanDirectory d path).disk) ∧
    ((cleanDirectory d path).error = none → ∃ dir, d.directory? path = some dir ∧
      ∀ q, Disposable dir q → ∀ content,
        (cleanDirectory d path).disk.tree.get? q ≠ some (.file content)) := by
  unfold cleanDirectory
  cases hread : d.readDirectory path with
  | error e => exact ⟨fun _ => rfl, fun dir _ => .refl _ d, by simp⟩
  | ok entries =>
    obtain ⟨dir, hdir, hentries⟩ := Disk.readDirectory_eq_ok hread
    have hlocate := Disk.directory?_eq_some.mp hdir
    obtain ⟨given, rfl⟩ : ∃ given, path = cleanPath given := by
      refine hpath.resolve_left fun hempty => ?_
      rw [hempty] at hlocate
      cases hlocate
    have hstart : Cleaned.Sweeps d dir { disk := d } := ⟨rfl, fun _ _ => id, fun _ _ h _ => h⟩
    have hfiles : ∀ file ∈ entries.filterMap fun x =>
        if x.2 = .directory || reservedNames.contains x.1 then none
        else some (joinPath [cleanPath given, x.1]), ∃ name,
          file = joinPath [cleanPath given, name] ∧ IsName name ∧ name ∉ reservedNames ∧
            d.tree.get? (dir ++ [name]) ≠ some .directory := by
      intro file hfile
      obtain ⟨⟨name, e⟩, hmem, hsome⟩ := List.mem_filterMap.mp hfile
      have hget := (hentries name e).mp hmem
      split at hsome
      · cases hsome
      · next hkept =>
        cases hsome
        simp only [Bool.or_eq_true, decide_eq_true_eq, List.contains_iff_mem, not_or] at hkept
        refine ⟨name, rfl, hd.entries _ _ hget name (by simp), hkept.2, ?_⟩
        simpa [hget] using hkept.1
    obtain ⟨hsweeps, -, hgone⟩ := hstart.fold hlocate hfiles
    refine ⟨fun hnone => ?_, fun dir' hdir' => ?_, fun herror => ⟨dir, hdir, ?_⟩⟩
    · rw [hdir] at hnone
      cases hnone
    · cases Option.some.inj (hdir.symm.trans hdir')
      exact hsweeps.loses
    · rintro q ⟨name, rfl, hfree⟩ content hget
      have hold := hsweeps.sub _ _ hget
      have hmem : joinPath [cleanPath given, name] ∈ entries.filterMap fun x =>
          if x.2 = .directory || reservedNames.contains x.1 then none
          else some (joinPath [cleanPath given, x.1]) := by
        refine List.mem_filterMap.mpr ⟨(name, .file content), (hentries _ _).mpr hold, ?_⟩
        simp [hfree]
      have hnone := hgone herror name (hd.entries _ _ hold name (by simp)) hmem
      rw [hnone] at hget
      cases hget

theorem prepareDirectory_extends {home : Home} {path dir : String}
    (h : prepareDirectory home d path = .ok (d', dir)) : Disk.Extends d d' := by
  obtain ⟨-, rfl | hmake⟩ := prepareDirectory_cases h
  · exact .refl _ d'
  · exact Disk.makeDirectories_extends hmake

theorem leftBy_extends (d : Disk) (e : DirectoryError) : Disk.Extends d (leftBy d e) := by
  unfold leftBy
  split
  · exact Disk.madeTowards_extends d _
  · exact .refl _ d

end Generate

def DirectoryError.inCleaning : DirectoryError → Bool
  | notRead _ _ | notRemoved _ _ => true
  | _ => false

namespace Generate

open Files

theorem cleanDirectory_error {d : Disk} {path : String} {e : DirectoryError}
    (h : (cleanDirectory d path).error = some e) : e.inCleaning = true := by
  have hfold : ∀ (files : List String) (c : Cleaned), (∀ e, c.error = some e → e.inCleaning) →
      ∀ e, (files.foldl cleanDirectory.remove c).error = some e → e.inCleaning = true := by
    intro files
    induction files with
    | nil => exact fun c hc => hc
    | cons file files ih =>
      intro c hc
      refine ih _ fun e he => ?_
      unfold cleanDirectory.remove at he
      split at he
      · exact hc e he
      · split at he
        · exact hc e he
        · cases he
          rfl
  unfold cleanDirectory at h
  split at h
  · cases h
    rfl
  · exact hfold _ _ (by simp) e h

def outputPlace? (home : Home) (d : Disk) (options : Options) (target : Backend × String) :
    Option Place := do
  let root ← (home options.outDir).toOption
  let path ← (home (joinPath [root, target.2])).toOption
  d.directory? path

/-- A place that cleaning the directory of a target empties of files. -/
def Exposed (home : Home) (d : Disk) (options : Options) (target : Backend × String)
    (q : Place) : Prop :=
  ∃ dir, outputPlace? home d options target = some dir ∧ Disposable dir q

/-- The directory of a target is there, without a file that cleaning removes. -/
def Emptied (home : Home) (d : Disk) (options : Options) (target : Backend × String) : Prop :=
  ∃ dir, outputPlace? home d options target = some dir ∧
    ∀ q, Disposable dir q → ∀ content, d.tree.get? q ≠ some (.file content)

/-- What is left on a disk by a run that ended while directories were set up, once it was done with
the targets in `cleared` and, unless it ended before all of them, had come to the first of `rest`. -/
structure Leftover (home : Home) (options : Options) (d d' : Disk) (e : DirectoryError)
    (cleared rest : List (Backend × String)) : Prop where
  files : ∀ q content, d'.tree.get? q = some (.file content) →
    d.tree.get? q = some (.file content)
  kept : ∀ q content, d.tree.get? q = some (.file content) →
    d'.tree.get? q = some (.file content) ∨ options.clean = true ∧
      ∃ target ∈ cleared ++ if e.inCleaning then rest.take 1 else [],
        Exposed home d' options target q
  gone : options.clean = true → ∀ target ∈ cleared, Emptied home d' options target

/-- What a run that ended while directories were set up has done. The targets in `cleared` can be
set up, and no further one: the error comes up at the next, or else at the directory of them all. -/
structure Abandoned (p : Program) (home : Home) (options : Options) (d d' : Disk)
    (e : DirectoryError) (cleared rest : List (Backend × String)) : Prop
    extends Leftover home options d d' e cleared rest where
  ended : (prepareDirectory home d options.outDir = .error e ∧ cleared = []) ∨
    (setUp p home options cleared d).error = none ∧
      (setUp p home options (cleared ++ rest.take 1) d).error = some e

structure Cleared (home : Home) (options : Options) (d d' : Disk)
    (cleared : List (Backend × String)) : Prop where
  loses : Disk.Loses (fun q => options.clean = true ∧
    ∃ target ∈ cleared, Exposed home d' options target q) d d'
  gone : options.clean = true → ∀ target ∈ cleared, Emptied home d' options target

section Targets

variable {home : Home} {options : Options} {d d' d'' : Disk} {cleared rest : List (Backend × String)}
  {target : Backend × String} {lost : Place → Prop} {q : Place} {dir : Place}

theorem outputPlace?_loses (h : Disk.Loses lost d d')
    (hdir : outputPlace? home d options target = some dir) :
    outputPlace? home d' options target = some dir := by
  simp only [outputPlace?, Option.bind_eq_bind, Option.bind_eq_some_iff] at hdir ⊢
  obtain ⟨root, hroot, path, hpath, hdir⟩ := hdir
  exact ⟨root, hroot, path, hpath, h.directory? hdir⟩

theorem Exposed.loses (h : Exposed home d options target q) (hl : Disk.Loses lost d d') :
    Exposed home d' options target q := by
  obtain ⟨dir, hdir, hq⟩ := h
  exact ⟨dir, outputPlace?_loses hl hdir, hq⟩

theorem Emptied.loses (h : Emptied home d options target) (hl : Disk.Loses lost d d') :
    Emptied home d' options target := by
  obtain ⟨dir, hdir, hempty⟩ := h
  exact ⟨dir, outputPlace?_loses hl hdir, fun q hq content hget =>
    hempty q hq content (hl.files q content hget)⟩

theorem Cleared.then (h : Cleared home options d d' cleared) (hl : Disk.Loses lost d' d'') :
    Disk.Loses (fun q => (options.clean = true ∧
      ∃ target ∈ cleared, Exposed home d'' options target q) ∨ lost q) d d'' ∧
    (options.clean = true → ∀ target ∈ cleared, Emptied home d'' options target) := by
  refine ⟨Disk.Loses.trans (h.loses.mono ?_) (hl.mono fun q hq => .inr hq), ?_⟩
  · rintro q ⟨hclean, target, hmem, hexp⟩
    exact .inl ⟨hclean, target, hmem, hexp.loses hl⟩
  · exact fun hclean target hmem => (h.gone hclean target hmem).loses hl

theorem Cleared.unusable (h : Cleared home options d d' cleared) (e : DirectoryError)
    (hl : Disk.Extends d' d'') : Leftover home options d d'' e cleared rest := by
  obtain ⟨hloses, hgone⟩ := h.then hl
  refine ⟨hloses.files, fun q content hq => ?_, hgone⟩
  by_cases hlost : options.clean = true ∧ ∃ target ∈ cleared, Exposed home d'' options target q
  · obtain ⟨hclean, target, hmem, hexp⟩ := hlost
    exact .inr ⟨hclean, target, List.mem_append_left _ hmem, hexp⟩
  · exact .inl (hloses.kept q content hq (by simpa using hlost))

theorem Cleared.uncleaned (h : Cleared home options d d' cleared) {e : DirectoryError}
    (he : e.inCleaning = true) (hclean : options.clean = true)
    (hl : Disk.Loses (Exposed home d'' options target) d' d'') :
    Leftover home options d d'' e cleared (target :: rest) := by
  obtain ⟨hloses, hgone⟩ := h.then hl
  refine ⟨hloses.files, fun q content hq => ?_, hgone⟩
  by_cases hlost : ∃ t ∈ cleared ++ [target], Exposed home d'' options t q
  · obtain ⟨t, hmem, hexp⟩ := hlost
    exact .inr ⟨hclean, t, by simpa [he] using hmem, hexp⟩
  · refine .inl (hloses.kept q content hq ?_)
    rintro (⟨-, t, hmem, hexp⟩ | hexp)
    · exact hlost ⟨t, List.mem_append_left _ hmem, hexp⟩
    · exact hlost ⟨target, by simp, hexp⟩

theorem Cleared.cleaned (h : Cleared home options d d' cleared) (hclean : options.clean = true)
    (hl : Disk.Loses (Exposed home d'' options target) d' d'')
    (hempty : Emptied home d'' options target) :
    Cleared home options d d'' (cleared ++ [target]) := by
  obtain ⟨hall, hgone⟩ := h.then hl
  refine ⟨hall.mono ?_, fun _ t ht => ?_⟩
  · rintro q (⟨-, t, ht, hexp⟩ | hexp)
    · exact ⟨hclean, t, List.mem_append_left _ ht, hexp⟩
    · exact ⟨hclean, target, by simp, hexp⟩
  · rcases List.mem_append.mp ht with ht | ht
    · exact hgone hclean t ht
    · exact List.mem_singleton.mp ht ▸ hempty

variable {p : Program} {s : Setup} {root : String}

theorem Cleared.add (hhome : home.Lawful) (hd : d.Named) (hroot : home options.outDir = .ok root)
    (h : Cleared home options d s.disk cleared) (herror : s.error = none) :
    ((s.add p home options root target).error = none →
      Cleared home options d (s.add p home options root target).disk (cleared ++ [target])) ∧
    ∀ e, (s.add p home options root target).error = some e → ∀ rest,
      Leftover home options d (s.add p home options root target).disk e cleared
        (target :: rest) := by
  unfold Setup.add
  rw [if_neg (by simp [herror])]
  cases hprepare : prepareDirectory home s.disk (joinPath [root, target.2]) with
  | error e =>
    refine ⟨by simp, fun e' he rest => ?_⟩
    exact h.unusable e' (leftBy_extends s.disk e)
  | ok made =>
    obtain ⟨d₁, path⟩ := made
    have hexpand := (prepareDirectory_cases hprepare).1
    have hext := prepareDirectory_extends hprepare
    by_cases hclean : options.clean = true
    · simp only [if_pos hclean]
      obtain ⟨hnone, hsome, hdone⟩ := cleanDirectory_loses (hext.named (h.loses.named hd))
        (hhome.expanded hexpand)
      have hplace : ∀ {lost : Place → Prop} {dir : Place},
          Disk.Loses lost d₁ (cleanDirectory d₁ path).disk → d₁.directory? path = some dir →
          outputPlace? home (cleanDirectory d₁ path).disk options target = some dir := by
        intro lost dir hl hdir
        simp only [outputPlace?, hroot, hexpand, Except.toOption, Option.bind_eq_bind,
          Option.bind_some]
        exact hl.directory? hdir
      have hloses : Disk.Loses (Exposed home (cleanDirectory d₁ path).disk options target) d₁
          (cleanDirectory d₁ path).disk := by
        cases hdir : d₁.directory? path with
        | none =>
          rw [hnone hdir]
          exact .refl _ d₁
        | some dir =>
          have hl := hsome dir hdir
          exact hl.mono fun q hq => ⟨dir, hplace hl hdir, hq⟩
      have hboth := (hext.mono fun _ => False.elim).trans hloses
      refine ⟨fun hok => ?_, fun e he rest => h.uncleaned (cleanDirectory_error he) hclean hboth⟩
      obtain ⟨dir, hdir, hgone⟩ := hdone hok
      exact h.cleaned hclean hboth ⟨dir, hplace hloses hdir, hgone⟩
    · simp only [if_neg hclean, herror]
      exact ⟨fun _ => ⟨(h.then hext).1.mono (by simp [hclean]), fun h => absurd h hclean⟩, by simp⟩

theorem Cleared.fold (hhome : home.Lawful) (hd : d.Named) (hroot : home options.outDir = .ok root)
    (h : Cleared home options d s.disk cleared) (herror : s.error = none)
    (targets : List (Backend × String)) :
    ∀ e, (targets.foldl (Setup.add p home options root) s).error = some e →
      ∃ done rest, targets = done ++ rest ∧ Leftover home options d
        (targets.foldl (Setup.add p home options root) s).disk e (cleared ++ done) rest ∧
      (done.foldl (Setup.add p home options root) s).error = none ∧
      ((done ++ rest.take 1).foldl (Setup.add p home options root) s).error = some e := by
  induction targets generalizing s cleared with
  | nil => simp [herror]
  | cons target targets ih =>
    intro e he
    obtain ⟨hdone, hends⟩ := @Cleared.add _ _ _ _ target p _ _ hhome hd hroot h herror
    rw [List.foldl_cons] at he ⊢
    cases herr : (s.add p home options root target).error with
    | none =>
      obtain ⟨done, rest, rfl, hleft, hnone, hsome⟩ := ih (hdone herr) herr e he
      exact ⟨target :: done, rest, rfl, by simpa using hleft, hnone, hsome⟩
    | some e' =>
      rw [add_of_error (by simp [herr])] at he ⊢
      exact ⟨[], target :: targets, rfl, by simpa using hends e he targets, herror, he⟩

end Targets

end Generate

open Files Generate in
/-- A run that ends while directories are set up or cleaned keeps every file as it was. Only if files
are to be cleaned away are some gone: those of the targets that were done with, and perhaps some of
the one whose cleaning failed. -/
theorem Program.generate_abandoned (p : Program) {home : Home} (hhome : home.Lawful)
    (options : Options) (targets : List (Backend × String)) {d : Disk} (hd : d.Named)
    {e : DirectoryError} (h : (p.generate home options targets d).result = .error e) :
    ∃ cleared rest, targets = cleared ++ rest ∧
      Abandoned p home options d (p.generate home options targets d).disk e cleared rest := by
  have herror : (setUp p home options targets d).error = some e := by
    cases herror : (setUp p home options targets d).error with
    | none => cases h.symm.trans (generate_of_jobs herror).2
    | some e' =>
      cases h.symm.trans (generate_of_error herror).2
      rfl
  rw [(generate_of_error herror).1]
  cases hprepare : prepareDirectory home d options.outDir with
  | error e' =>
    simp only [setUp, hprepare, Option.some.injEq] at herror ⊢
    subst herror
    have hstart : Cleared home options d d [] := ⟨.refl _ d, by simp⟩
    exact ⟨[], targets, rfl, hstart.unusable e' (leftBy_extends d e'), .inl ⟨hprepare, rfl⟩⟩
  | ok made =>
    obtain ⟨d₁, root⟩ := made
    have hsetUp : ∀ targets, setUp p home options targets d =
        targets.foldl (Setup.add p home options root) { disk := d₁ } := by
      intro targets
      simp only [setUp, hprepare]
    rw [hsetUp] at herror ⊢
    have hext := prepareDirectory_extends hprepare
    have hstart : Cleared home options d d₁ [] := ⟨hext.mono fun _ => False.elim, by simp⟩
    obtain ⟨done, rest, htargets, hleft, hnone, hsome⟩ := hstart.fold (s := { disk := d₁ }) hhome hd
      (prepareDirectory_cases hprepare).1 rfl targets e herror
    refine ⟨done, rest, htargets, hleft, .inr ?_⟩
    rw [hsetUp, hsetUp]
    exact ⟨hnone, hsome⟩

namespace Obstruction

open Files Generate

def options : Options := { outDir := "out", clean := true }

def targets : List (Backend × String) :=
  [(Target.python.backend, "py"), (Target.objectiveC.backend, "objc")]

def home : Home := .of (.ok "/home")

def disk : Disk where
  tree := ⟨[(["work"], .directory), (["work", "out"], .directory),
    (["work", "out", "py"], .directory), (["work", "out", "py", "notes.txt"], .file "notes"),
    (["work", "out", "objc"], .file "")]⟩
  current := ["work"]

theorem disk_named : disk.Named := Disk.named_of_entries (by decide) (by decide)

theorem disk_cleaned : (cleanDirectory disk "out/py").disk =
    { disk with tree := disk.tree.erase ["work", "out", "py", "notes.txt"] } ∧
    (cleanDirectory disk "out/py").error = none := by
  have hnames : disk.tree.names ["work", "out", "py"] = ["notes.txt"] :=
    List.mergeSort_singleton "notes.txt"
  have hlocate : disk.locate "out/py" = .ok (.found ["work", "out", "py"] .directory) := rfl
  have hread : disk.readDirectory "out/py" = .ok [("notes.txt", .file "notes")] := by
    unfold Disk.readDirectory
    rw [hlocate]
    dsimp only
    rw [hnames]
    decide
  unfold cleanDirectory
  rw [hread]
  exact ⟨rfl, rfl⟩

theorem disk_generated (p : Program) : (p.generate home options targets disk).result =
      .error (.notDirectory "out/objc") ∧
    (p.generate home options targets disk).disk =
      { disk with tree := disk.tree.erase ["work", "out", "py", "notes.txt"] } := by
  have hroot : prepareDirectory home disk "out" = .ok (disk, "out") := rfl
  have hfirst : prepareDirectory home disk "out/py" = .ok (disk, "out/py") := rfl
  have hsecond : (prepareDirectory home { disk with
      tree := disk.tree.erase ["work", "out", "py", "notes.txt"] } "out/objc") =
        .error (.notDirectory "out/objc") := rfl
  obtain ⟨hdisk, herror⟩ := disk_cleaned
  have hjoin : joinPath ["out", "py"] = "out/py" ∧ joinPath ["out", "objc"] = "out/objc" :=
    ⟨rfl, rfl⟩
  have hsetup : ((setUp p home options targets disk).error = some (.notDirectory "out/objc")) ∧
      (setUp p home options targets disk).disk =
        { disk with tree := disk.tree.erase ["work", "out", "py", "notes.txt"] } := by
    simp [setUp, options, targets, hroot, Setup.add, hjoin, hfirst, hdisk, herror, hsecond, leftBy]
  unfold Program.generate
  simp [hsetup]

end Obstruction

/-- A run that comes to an end at the second target has lost the file of the first. -/
theorem obstruction_loses : ¬ ∀ (p : Program) (home : Files.Home), home.Lawful →
    ∀ (options : Generate.Options) (targets : List (Backend × String)) (d : Files.Disk), d.Named →
    (∃ e, (p.generate home options targets d).result = .error e) →
      ∀ q content, d.tree.get? q = some (.file content) →
        (p.generate home options targets d).disk.tree.get? q = some (.file content) := by
  intro h
  have hkept := h { registry := {} } Obstruction.home (Files.Home.of_lawful _) _ _ _
    Obstruction.disk_named
    ⟨_, (Obstruction.disk_generated _).1⟩ ["work", "out", "py", "notes.txt"] "notes" (by decide)
  rw [(Obstruction.disk_generated _).2] at hkept
  revert hkept
  decide

theorem obstruction_abandoned : Obstruction.home.Lawful ∧ Obstruction.disk.Named ∧ ∃ cleared rest,
    Obstruction.targets = cleared ++ rest ∧ Generate.Abandoned { registry := {} } Obstruction.home
      Obstruction.options Obstruction.disk
      (Program.generate { registry := {} } Obstruction.home Obstruction.options Obstruction.targets
        Obstruction.disk).disk (.notDirectory "out/objc") cleared rest :=
  ⟨Files.Home.of_lawful _, Obstruction.disk_named, Program.generate_abandoned _
    (Files.Home.of_lawful _) _ _ Obstruction.disk_named (Obstruction.disk_generated _).1⟩

end PduCompiler
