import Mathlib.Logic.Function.Iterate
import PduCompiler.Config
import PduCompiler.Proofs.Places

/-! Where the directories of targets lie. Settings are refused if two targets have a directory by the
same text, but a directory has many texts. It is told here when two of them meet below an output
directory. Those that are written in their shortest form and lead downwards never do. -/

namespace PduCompiler

namespace Files

theorem pushPart_dots {rooted : Bool} {top : List Char} (htop : top ≠ dots)
    (below : List (List Char)) : pushPart rooted (top :: below) dots = below := by
  have hkept : dots ≠ [] ∧ dots ≠ dot := by decide
  simp [pushPart, hkept, htop]

/-- Where a path leads from a directory: some levels up, then down by names, the last one first. -/
structure Heading where
  ups : Nat := 0
  downs : List (List Char) := []
  deriving DecidableEq, Repr

namespace Heading

def push (h : Heading) (part : List Char) : Heading :=
  if part = [] || part = dot then h
  else if part = dots then
    match h.downs with
    | [] => { h with ups := h.ups + 1 }
    | _ :: rest => { h with downs := rest }
  else { h with downs := part :: h.downs }

def ofChars (s : List Char) : Heading := (splitSlashes s).foldl push {}

/-- The parts that are left when the path is followed from those above. -/
def follow (rooted : Bool) (above : List (List Char)) (h : Heading) : List (List Char) :=
  h.downs ++ (pushPart rooted · dots)^[h.ups] above

theorem push_downs {h : Heading} (hdowns : dots ∉ h.downs) (part : List Char) :
    dots ∉ (h.push part).downs := by
  unfold push
  split
  · exact hdowns
  · split
    · split
      · exact hdowns
      · next hcons => exact fun hm => hdowns (hcons ▸ List.mem_cons_of_mem _ hm)
    · next hne => simp [hdowns, Ne.symm hne]

/-- One part of a path does to what is left what it does to where the path leads. -/
theorem follow_push (rooted : Bool) (above : List (List Char)) {h : Heading}
    (hdowns : dots ∉ h.downs) (part : List Char) :
    (h.push part).follow rooted above = pushPart rooted (h.follow rooted above) part := by
  by_cases hkept : (decide (part = []) || decide (part = dot)) = true
  · simp [push, pushPart, hkept]
  · by_cases hdots : part = dots
    · obtain ⟨ups, downs⟩ := h
      cases downs with
      | nil =>
        have hpush : push ⟨ups, []⟩ part = ⟨ups + 1, []⟩ := by simp [push, hdots, dots, dot]
        rw [hpush, follow, follow, Function.iterate_succ_apply', hdots]
        rfl
      | cons top downs =>
        have htop : top ≠ dots := fun he => hdowns (he ▸ List.mem_cons_self)
        have hpush : push ⟨ups, top :: downs⟩ part = ⟨ups, downs⟩ := by
          simp [push, hdots, dots, dot]
        rw [hpush, hdots]
        exact (pushPart_dots htop _).symm
    · simp [push, pushPart, follow, hkept, hdots]

theorem follow_fold (rooted : Bool) (above : List (List Char)) (parts : List (List Char))
    {h : Heading} (hdowns : dots ∉ h.downs) :
    dots ∉ (parts.foldl push h).downs ∧
      parts.foldl (pushPart rooted) (h.follow rooted above) =
        (parts.foldl push h).follow rooted above := by
  induction parts generalizing h with
  | nil => exact ⟨hdowns, rfl⟩
  | cons part parts ih =>
    rw [List.foldl_cons, List.foldl_cons, ← follow_push rooted above hdowns]
    exact ih (push_downs hdowns part)

theorem downs_ofChars (s : List Char) : dots ∉ (ofChars s).downs :=
  (follow_fold false [] (splitSlashes s) (by simp)).1

theorem fold_eq_follow (rooted : Bool) (above : List (List Char)) (s : List Char) :
    (splitSlashes s).foldl (pushPart rooted) above = (ofChars s).follow rooted above :=
  (follow_fold rooted above (splitSlashes s) (h := {}) (by simp)).2

end Heading

/-- Going up takes names back as long as there are any. Above them is nothing if the names are
counted from the root. -/
theorem iterate_dots {rooted : Bool} (n : Nat) {plain : List (List Char)} {ups : Nat}
    (hplain : dots ∉ plain) (hups : rooted = true → ups = 0) :
    (pushPart rooted · dots)^[n] (plain ++ List.replicate ups dots) =
      plain.drop n ++ List.replicate (if rooted then 0 else ups + (n - plain.length)) dots := by
  -- a step takes one name back, or adds to the levels above if no name is left
  induction n generalizing plain ups with
  | zero =>
    cases rooted with
    | true => simp [hups]
    | false => simp
  | succ n ih =>
    rw [Function.iterate_succ_apply]
    cases plain with
    | cons top plain =>
      have htop : top ≠ dots := fun he => hplain (he ▸ List.mem_cons_self)
      have hrest : dots ∉ plain := fun hm => hplain (List.mem_cons_of_mem _ hm)
      rw [List.cons_append, pushPart_dots htop, ih hrest hups]
      simp
    | nil =>
      cases rooted with
      | true =>
        have hpush : pushPart true ([] ++ List.replicate ups dots) dots =
            [] ++ List.replicate 0 dots := by
          simp [pushPart, hups, dots, dot]
        rw [hpush, ih (by simp) (by simp)]
        simp
      | false =>
        have hpush : pushPart false ([] ++ List.replicate ups dots) dots =
            [] ++ List.replicate (ups + 1) dots := by
          simpa [Nat.add_comm] using @fold_ups false 1 ups (by simp)
        rw [hpush, ih (by simp) (by simp)]
        simp only [List.drop_nil, List.length_nil, Nat.sub_zero, List.nil_append]
        congr 1
        simp
        omega

theorem filter_names {names : List (List Char)} (h : dots ∉ names) (ups : Nat) :
    (names ++ List.replicate ups dots).filter (· ≠ dots) = names := by
  rw [List.filter_append, List.filter_eq_self.mpr, List.filter_eq_nil_iff.mpr, List.append_nil]
  · simp
  · intro part hpart
    simpa using fun he : part = dots => h (he ▸ hpart)

/-- The names by which a path goes down when it is cleaned, the last one first. -/
def namesOf (s : List Char) : List (List Char) := (cleanParts s).reverse.filter (· ≠ dots)

theorem dots_notMem_namesOf (s : List Char) : dots ∉ namesOf s := by
  simp [namesOf]

theorem cleanParts_shape (s : List Char) : ∃ ups, (isRooted s = true → ups = 0) ∧
    (cleanParts s).reverse = namesOf s ++ List.replicate ups dots := by
  obtain ⟨plain, ups, heq, hplain, hups⟩ := (settled_cleanParts s).shape
  have hnames : namesOf s = plain := by rw [namesOf, heq, filter_names hplain]
  exact ⟨ups, hups, hnames ▸ heq⟩

theorem cleanChars_eq_iff {s t : List Char} (hroot : isRooted s = isRooted t) :
    cleanChars s = cleanChars t ↔ cleanParts s = cleanParts t := by
  constructor
  · intro h
    rw [← cleanParts_cleanChars s, h, cleanParts_cleanChars]
  · intro h
    rw [cleanChars, cleanChars, h, hroot]

theorem isRooted_append {base : List Char} (hbase : base ≠ []) (s : List Char) :
    isRooted (base ++ s) = isRooted base := by
  obtain ⟨c, rest, rfl⟩ := List.exists_cons_of_ne_nil hbase
  rfl

/-- A path below a directory is followed from the parts that the directory has. -/
theorem cleanParts_below {base : List Char} (hbase : base ≠ []) (s : List Char) :
    (cleanParts (base ++ '/' :: s)).reverse =
      (Heading.ofChars s).follow (isRooted base) (cleanParts base).reverse := by
  rw [cleanParts, isRooted_append hbase, splitSlashes_append, List.foldl_append,
    Heading.fold_eq_follow, List.reverse_reverse, cleanParts, List.reverse_reverse]

theorem joinPath_pair {base : String} (hbase : base ≠ "") (dir : String) :
    joinPath [base, dir] = String.ofList (cleanChars (base.toList ++ '/' :: dir.toList)) := by
  have hne : base.toList ≠ [] := by simpa using hbase
  by_cases hdir : dir = ""
  · have hjoin : joinPath [base, dir] = cleanPath base := by
      have hfilter : [base, dir].filter (· != "") = [base] := by simp [hbase, hdir]
      rw [joinPath, hfilter]
      rfl
    have hparts : cleanParts base.toList = cleanParts (base.toList ++ '/' :: dir.toList) := by
      rw [← List.reverse_inj, cleanParts_below hne, hdir]
      rfl
    rw [hjoin, cleanPath, (cleanChars_eq_iff (isRooted_append hne _).symm).mpr hparts]
  · have hjoin : joinPath [base, dir] = cleanPath (base ++ "/" ++ dir) := by
      have hfilter : [base, dir].filter (· != "") = [base, dir] := by simp [hbase, hdir]
      rw [joinPath, hfilter]
      rfl
    rw [hjoin, cleanPath]
    simp

/-- Two paths lead to one place from a directory: what they leave of its names, and the names they
go down by, come to the same. If the directory is not counted from the root, they also go up beyond
its names equally far. -/
def Meet (base dir dir' : String) : Prop :=
  let names := namesOf base.toList
  let h := Heading.ofChars dir.toList
  let h' := Heading.ofChars dir'.toList
  h.downs ++ names.drop h.ups = h'.downs ++ names.drop h'.ups ∧
    (isRooted base.toList = false → h.ups - names.length = h'.ups - names.length)

instance (base dir dir' : String) : Decidable (Meet base dir dir') :=
  inferInstanceAs (Decidable (_ ∧ (_ → _)))

theorem append_replicate_dots {a b : List (List Char)} {m n : Nat} (ha : dots ∉ a) (hb : dots ∉ b) :
    a ++ List.replicate m dots = b ++ List.replicate n dots ↔ a = b ∧ m = n := by
  constructor
  · intro h
    have hab : a = b := by rw [← filter_names ha m, h, filter_names hb]
    subst hab
    simpa using congrArg List.length (List.append_cancel_left h)
  · rintro ⟨rfl, rfl⟩
    rfl

theorem joinPath_eq_iff {base : String} (hbase : base ≠ "") (dir dir' : String) :
    joinPath [base, dir] = joinPath [base, dir'] ↔ Meet base dir dir' := by
  have hne : base.toList ≠ [] := by simpa using hbase
  obtain ⟨ups, hups, hshape⟩ := cleanParts_shape base.toList
  have hnames := dots_notMem_namesOf base.toList
  have hroot : isRooted (base.toList ++ '/' :: dir.toList) =
      isRooted (base.toList ++ '/' :: dir'.toList) := by
    rw [isRooted_append hne, isRooted_append hne]
  -- so names and levels can be told apart in what is left of either path
  have hleft : ∀ dir : String, dots ∉ (Heading.ofChars dir.toList).downs ++
      (namesOf base.toList).drop (Heading.ofChars dir.toList).ups := by
    intro dir hm
    rcases List.mem_append.mp hm with hm | hm
    · exact Heading.downs_ofChars _ hm
    · exact hnames (List.mem_of_mem_drop hm)
  rw [joinPath_pair hbase, joinPath_pair hbase, String.ofList_inj, cleanChars_eq_iff hroot,
    ← List.reverse_inj, cleanParts_below hne, cleanParts_below hne, hshape, Heading.follow,
    Heading.follow, iterate_dots _ hnames hups, iterate_dots _ hnames hups, ← List.append_assoc,
    ← List.append_assoc, append_replicate_dots (hleft dir) (hleft dir'), Meet]
  refine and_congr_right fun _ => ?_
  cases isRooted base.toList <;> simp

/-- A path in its shortest form that leads downwards, or nowhere. -/
structure Tidy (dir : String) : Prop where
  clean : cleanPath dir = dir
  relative : isRooted dir.toList = false
  inside : dots ∉ cleanParts dir.toList

instance (dir : String) : Decidable (Tidy dir) :=
  decidable_of_iff (cleanPath dir = dir ∧ isRooted dir.toList = false ∧
      dots ∉ cleanParts dir.toList)
    ⟨fun h => ⟨h.1, h.2.1, h.2.2⟩, fun h => ⟨h.clean, h.relative, h.inside⟩⟩

theorem Tidy.heading {dir : String} (h : Tidy dir) :
    (Heading.ofChars dir.toList).ups = 0 ∧
      cleanParts dir.toList = (Heading.ofChars dir.toList).downs.reverse := by
  have hparts : (cleanParts dir.toList).reverse = (Heading.ofChars dir.toList).downs ++
      List.replicate (Heading.ofChars dir.toList).ups dots := by
    have hfollow := Heading.fold_eq_follow false [] dir.toList
    have hdots := @iterate_dots false (Heading.ofChars dir.toList).ups [] 0 (by simp) (by simp)
    rw [List.replicate_zero, List.append_nil] at hdots
    rw [cleanParts, List.reverse_reverse, h.relative, hfollow, Heading.follow, hdots]
    simp
  have hups : (Heading.ofChars dir.toList).ups = 0 := by
    by_contra hpos
    refine h.inside (List.mem_reverse.mp (hparts ▸ List.mem_append_right _ ?_))
    exact List.mem_replicate.mpr ⟨hpos, rfl⟩
  refine ⟨hups, ?_⟩
  rw [← List.reverse_inj, hparts, hups]
  simp

theorem Tidy.eq_of_meet {base dir dir' : String} (h : Tidy dir) (h' : Tidy dir')
    (hm : Meet base dir dir') : dir = dir' := by
  obtain ⟨hups, hparts⟩ := h.heading
  obtain ⟨hups', hparts'⟩ := h'.heading
  obtain ⟨hdowns, -⟩ := hm
  rw [hups, hups', List.drop_zero] at hdowns
  have heq : cleanParts dir.toList = cleanParts dir'.toList := by
    rw [hparts, hparts', List.append_cancel_right hdowns]
  rw [← h.clean, ← h'.clean, cleanPath, cleanPath,
    (cleanChars_eq_iff (h.relative.trans h'.relative.symm)).mpr heq]

end Files

namespace Config

open Files

/-- Targets are accepted if they have names and each has a directory by a text of its own. -/
theorem targetErrors_eq_nil_iff {used : Table String} {targets : List TargetConfig} :
    targetErrors used targets = [] ↔ (∀ t ∈ targets, t.name ≠ "" ∧ used.get? t.dir = none) ∧
      (targets.map (·.dir)).Nodup := by
  induction targets generalizing used with
  | nil => simp [targetErrors]
  | cons t rest ih =>
    by_cases hname : t.name = ""
    · simp [targetErrors, hname]
    · cases hused : used.get? t.dir with
      | some other => simp [targetErrors, hname, hused]
      | none =>
        have hrest : targetErrors used (t :: rest) = targetErrors (used.set t.dir t.name) rest := by
          simp [targetErrors, hname, hused]
        rw [hrest, ih]
        simp only [Table.get?_set, List.mem_cons, List.map_cons, List.nodup_cons, List.mem_map]
        grind

theorem problems_eq_nil {c : Config} (h : c.problems = []) :
    c.output ≠ "" ∧ (c.targets.map (·.dir)).Nodup := by
  simp only [problems, List.append_eq_nil_iff] at h
  refine ⟨?_, (targetErrors_eq_nil_iff.mp h.2).2⟩
  intro hempty
  simp [hempty] at h

/-- The directories that the targets are written to are different paths. -/
def OutputsApart (c : Config) : Prop :=
  (c.targets.map fun t => joinPath [c.output, t.dir]).Nodup

/-- The outputs of accepted settings are apart unless two directories by different texts meet. Tidy
directories do not. -/
theorem outputsApart_iff {c : Config} (h : c.problems = []) :
    (c.OutputsApart ↔ ∀ s ∈ c.targets, ∀ t ∈ c.targets, s.dir ≠ t.dir →
      ¬ Meet c.output s.dir t.dir) ∧
    ((∀ t ∈ c.targets, Tidy t.dir) → c.OutputsApart) := by
  obtain ⟨houtput, hnd⟩ := problems_eq_nil h
  have hexact : c.OutputsApart ↔ ∀ s ∈ c.targets, ∀ t ∈ c.targets, s.dir ≠ t.dir →
      ¬ Meet c.output s.dir t.dir := by
    have hmap : (c.targets.map fun t => joinPath [c.output, t.dir]) =
        (c.targets.map (·.dir)).map fun dir => joinPath [c.output, dir] := by
      rw [List.map_map]
      rfl
    rw [OutputsApart, hmap, List.nodup_map_iff_inj_on hnd]
    simp only [List.forall_mem_map, joinPath_eq_iff houtput]
    exact forall₄_congr fun s _ t _ => not_imp_not.symm
  refine ⟨hexact, fun htidy => hexact.mpr fun s hs t ht hne hmeet => ?_⟩
  exact hne ((htidy s hs).eq_of_meet (htidy t ht) hmeet)

/-- Two targets with one directory, in two spellings. -/
def respelled : Config :=
  { workers := some 1, output := "out", targets := [⟨"python", "gen", ""⟩, ⟨"go", "gen/", "pdu"⟩] }

theorem respelled_evaluated : respelled.problems = [] ∧ Meet "out" "gen" "gen/" ∧
    ({} : Config).problems = [] ∧ ∀ t ∈ ({} : Config).targets, Tidy t.dir := by
  decide

theorem respelled_not_apart : respelled.problems = [] ∧ ¬ respelled.OutputsApart ∧
    ({} : Config).problems = [] ∧ ({} : Config).OutputsApart := by
  obtain ⟨hvalid, hmeet, hdefault, htidy⟩ := respelled_evaluated
  refine ⟨hvalid, fun hapart => ?_, hdefault, (outputsApart_iff hdefault).2 htidy⟩
  exact (outputsApart_iff hvalid).1.mp hapart ⟨"python", "gen", ""⟩ (by simp [respelled])
    ⟨"go", "gen/", "pdu"⟩ (by simp [respelled]) (by decide) hmeet

end Config

end PduCompiler
