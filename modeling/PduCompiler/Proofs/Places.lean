import PduCompiler.Proofs.Writing

/-! Paths in their shortest form. One that is not led upwards goes straight to its place, and two of
them that begin alike go to one place only if they are the same path. A name is one more part at the
end of such a path. -/

namespace PduCompiler.Files

variable {s s' : List Char} {part : List Char}

theorem splitSlashes_ne_nil (s : List Char) : splitSlashes s ≠ [] := by
  cases s with
  | nil => simp [splitSlashes]
  | cons c rest =>
    unfold splitSlashes
    split
    · simp
    · simp
    · split <;> simp

theorem splitSlashes_cons {c : Char} (hc : c ≠ '/') (rest : List Char) :
    splitSlashes (c :: rest) = (splitSlashes rest).modifyHead (c :: ·) := by
  obtain ⟨first, parts, hparts⟩ := List.exists_cons_of_ne_nil (splitSlashes_ne_nil rest)
  rw [splitSlashes]
  · simp [hparts]
  · simpa using hc

theorem splitSlashes_eq_splitOn (s : List Char) : splitSlashes s = s.splitOn '/' := by
  induction s with
  | nil => rfl
  | cons c rest ih =>
    rw [List.splitOn_eq_splitOnP] at ih ⊢
    rw [List.splitOnP_cons_eq_if_modifyHead]
    by_cases hc : c = '/'
    · simp [hc, splitSlashes, ih]
    · simp [hc, splitSlashes_cons hc, ih]

theorem slash_notMem (h : part ∈ splitSlashes s) : '/' ∉ part := by
  induction s generalizing part with
  | nil => simp_all [splitSlashes]
  | cons c rest ih =>
    by_cases hc : c = '/'
    · rw [hc, splitSlashes] at h
      rcases List.mem_cons.mp h with rfl | h
      · simp
      · exact ih h
    · rw [splitSlashes_cons hc] at h
      cases hrest : splitSlashes rest with
      | nil => simp [hrest] at h
      | cons first parts =>
        rw [hrest, List.modifyHead_cons] at h
        rcases List.mem_cons.mp h with rfl | h
        · simpa [Ne.symm hc] using ih (hrest ▸ List.mem_cons_self)
        · exact ih (hrest ▸ List.mem_cons_of_mem _ h)

structure IsPart (part : List Char) : Prop where
  ne_nil : part ≠ []
  ne_dot : part ≠ dot
  no_slash : '/' ∉ part

theorem pushPart_parts {rooted : Bool} {above : List (List Char)}
    (habove : ∀ part ∈ above, IsPart part) (hpart : '/' ∉ part) :
    ∀ part' ∈ pushPart rooted above part, IsPart part' := by
  have hdots : IsPart dots := ⟨by decide, by decide, by decide⟩
  unfold pushPart
  split
  · exact habove
  · next hkept =>
    simp only [Bool.or_eq_true, decide_eq_true_eq, not_or] at hkept
    split
    · split
      · split <;> simp [hdots]
      · next top below =>
        split
        · simpa [hdots] using habove
        · exact fun part' h => habove part' (List.mem_cons_of_mem _ h)
    · intro part' h
      rcases List.mem_cons.mp h with rfl | h
      · exact ⟨hkept.1, hkept.2, hpart⟩
      · exact habove part' h

theorem cleanParts_parts : ∀ part ∈ cleanParts s, IsPart part := by
  have hfold : ∀ (parts above : List (List Char)), (∀ part ∈ parts, '/' ∉ part) →
      (∀ part ∈ above, IsPart part) →
      ∀ part ∈ parts.foldl (pushPart (isRooted s)) above, IsPart part := by
    intro parts
    induction parts with
    | nil => exact fun above _ habove => habove
    | cons first parts ih =>
      intro above hparts habove
      exact ih _ (fun part h => hparts part (List.mem_cons_of_mem _ h))
        (pushPart_parts habove (hparts first List.mem_cons_self))
  intro part hpart
  exact hfold (splitSlashes s) [] (fun part h => slash_notMem h) (by simp) part
    (List.mem_reverse.mp hpart)

theorem intercalate_ne_nil {parts : List (List Char)} (h : ∀ part ∈ parts, IsPart part)
    (hne : parts ≠ []) : ∃ c rest, c ≠ '/' ∧ ['/'].intercalate parts = c :: rest := by
  obtain ⟨first, parts, rfl⟩ := List.exists_cons_of_ne_nil hne
  obtain ⟨c, tail, hfirst⟩ := List.exists_cons_of_ne_nil (h first List.mem_cons_self).ne_nil
  have hc : c ≠ '/' := by
    rintro rfl
    exact (h first List.mem_cons_self).no_slash (hfirst ▸ List.mem_cons_self)
  cases parts with
  | nil => exact ⟨c, tail, hc, by simp [List.intercalate, hfirst]⟩
  | cons second parts => exact ⟨c, _, hc, by rw [List.intercalate_cons_cons, hfirst]; rfl⟩

theorem isRooted_cleanChars (s : List Char) : isRooted (cleanChars s) = isRooted s := by
  unfold cleanChars
  split
  · next h => simpa [isRooted] using h
  · next h =>
    by_cases hparts : cleanParts s = []
    · simpa [hparts, isRooted, dot] using h
    · obtain ⟨c, rest, hc, hjoined⟩ := intercalate_ne_nil cleanParts_parts hparts
      simpa [hjoined, isRooted, hc] using h

theorem partsOf_eq {path : String} {root parts : List (List Char)}
    (hsplit : splitSlashes path.toList = root ++ parts) (hroot : ∀ part ∈ root, part = [])
    (hparts : ∀ part ∈ parts, part ≠ []) (hne : parts ≠ []) :
    partsOf path = parts.map String.ofList := by
  have hlast : (root ++ parts).getLast? ≠ some [] := by
    rw [List.getLast?_append_of_ne_nil _ hne]
    exact fun h => hparts [] (List.mem_of_getLast? h) rfl
  have hfilter : (root ++ parts).filter (· ≠ []) = parts := by
    rw [List.filter_append, List.filter_eq_nil_iff.mpr (by simpa using hroot),
      List.filter_eq_self.mpr (by simpa using hparts), List.nil_append]
  simp only [partsOf, hsplit, hfilter, hlast]
  simp

theorem splitSlashes_intercalate {parts : List (List Char)} (h : ∀ part ∈ parts, IsPart part)
    (hne : parts ≠ []) : splitSlashes (['/'].intercalate parts) = parts := by
  rw [splitSlashes_eq_splitOn]
  exact List.splitOn_intercalate '/' (fun part hpart => (h part hpart).no_slash) hne

theorem partsOf_cleanPath (path : String) (h : cleanParts path.toList ≠ []) :
    partsOf (cleanPath path) = (cleanParts path.toList).map String.ofList := by
  have hparts := cleanParts_parts (s := path.toList)
  have hsplit := splitSlashes_intercalate hparts h
  obtain ⟨c, rest, -, hjoined⟩ := intercalate_ne_nil hparts h
  have hne : ∀ part ∈ cleanParts path.toList, part ≠ [] := fun part hpart =>
    (hparts part hpart).ne_nil
  unfold cleanPath cleanChars
  split
  · exact @partsOf_eq _ [[]] _ (by simp [splitSlashes, hsplit]) (by simp) hne h
  · exact @partsOf_eq _ [] _ (by simpa [hjoined] using hsplit) (by simp) hne h

structure IsName (name : String) : Prop where
  ne_empty : name ≠ ""
  ne_dot : name ≠ "."
  ne_dots : name ≠ ".."
  no_slash : '/' ∉ name.toList

section Names

variable {rooted : Bool} {above : List (List Char)}

theorem splitSlashes_append (s t : List Char) :
    splitSlashes (s ++ '/' :: t) = splitSlashes s ++ splitSlashes t := by
  induction s with
  | nil => simp [splitSlashes]
  | cons c s ih =>
    by_cases hc : c = '/'
    · simp [hc, splitSlashes, ih]
    · rw [List.cons_append, splitSlashes_cons hc, splitSlashes_cons hc, ih]
      obtain ⟨first, parts, hparts⟩ := List.exists_cons_of_ne_nil (splitSlashes_ne_nil s)
      simp [hparts]

/-- The parts that are left when a path is cleaned, the last one first: where they lead upwards they
do so at the front, and not from the root. -/
structure Settled (rooted : Bool) (above : List (List Char)) : Prop where
  parts : ∀ part ∈ above, IsPart part
  shape : ∃ plain ups, above = plain ++ List.replicate ups dots ∧ dots ∉ plain ∧
    (rooted = true → ups = 0)

theorem Settled.push (h : Settled rooted above) (hpart : '/' ∉ part) :
    Settled rooted (pushPart rooted above part) := by
  refine ⟨pushPart_parts h.parts hpart, ?_⟩
  obtain ⟨plain, ups, rfl, hplain, hups⟩ := h.shape
  unfold pushPart
  split
  · exact ⟨plain, ups, rfl, hplain, hups⟩
  · split
    · -- two dots take back a plain part, or stay where there is none
      cases plain with
      | cons top plain =>
        have htop : top ≠ dots := fun he => hplain (he ▸ List.mem_cons_self)
        exact ⟨plain, ups, by simp [htop], fun hm => hplain (List.mem_cons_of_mem _ hm), hups⟩
      | nil =>
        cases ups with
        | zero =>
          cases rooted with
          | true => exact ⟨[], 0, by simp, by simp, by simp⟩
          | false => exact ⟨[], 1, by simp, by simp, by simp⟩
        | succ ups =>
          refine ⟨[], ups + 2, by simp [List.replicate_succ], by simp, fun hr => ?_⟩
          exact absurd (hups hr) (Nat.succ_ne_zero ups)
    · next hdots =>
      exact ⟨part :: plain, ups, rfl, by simp [hplain, Ne.symm hdots], hups⟩

theorem settled_fold {parts : List (List Char)} (hparts : ∀ part ∈ parts, '/' ∉ part)
    (h : Settled rooted above) : Settled rooted (parts.foldl (pushPart rooted) above) := by
  induction parts generalizing above with
  | nil => exact h
  | cons part parts ih =>
    exact ih (fun part' h' => hparts part' (List.mem_cons_of_mem _ h'))
      (h.push (hparts part List.mem_cons_self))

theorem settled_cleanParts (s : List Char) : Settled (isRooted s) (cleanParts s).reverse := by
  rw [cleanParts, List.reverse_reverse]
  exact settled_fold (fun part h => slash_notMem h) ⟨by simp, [], 0, rfl, by simp, by simp⟩

theorem fold_ups (ups above : Nat) (h : rooted = true → ups = 0) :
    (List.replicate ups dots).foldl (pushPart rooted) (List.replicate above dots) =
      List.replicate (ups + above) dots := by
  induction ups generalizing above with
  | zero => simp
  | succ ups ih =>
    have hroot : rooted = false := by simpa using mt h (Nat.succ_ne_zero ups)
    have hpush : pushPart rooted (List.replicate above dots) dots =
        List.replicate (above + 1) dots := by
      cases above with
      | zero => simp [pushPart, hroot, dots, dot]
      | succ above => simp [pushPart, List.replicate_succ, dots, dot]
    rw [List.replicate_succ, List.foldl_cons, hpush, ih _ (by simp [hroot]),
      Nat.succ_add_eq_add_succ]

theorem fold_plain {plain : List (List Char)} (h : ∀ part ∈ plain, IsPart part)
    (hdots : dots ∉ plain) :
    plain.foldl (pushPart rooted) above = plain.reverse ++ above := by
  induction plain generalizing above with
  | nil => rfl
  | cons part plain ih =>
    have hpart := h part List.mem_cons_self
    have hpush : pushPart rooted above part = part :: above := by
      have hne : part ≠ dots := fun he => hdots (he ▸ List.mem_cons_self)
      simp [pushPart, hpart.ne_nil, hpart.ne_dot, hne]
    rw [List.foldl_cons, hpush, ih (fun part' hm => h part' (List.mem_cons_of_mem _ hm))
      fun hm => hdots (List.mem_cons_of_mem _ hm)]
    simp

theorem Settled.fold_reverse (h : Settled rooted above) :
    above.reverse.foldl (pushPart rooted) [] = above := by
  have hparts := h.parts
  obtain ⟨plain, ups, rfl, hplain, hups⟩ := h.shape
  have hdots : (List.replicate ups dots).foldl (pushPart rooted) [] = List.replicate ups dots :=
    fold_ups ups 0 hups
  have hpart : ∀ part ∈ plain.reverse, IsPart part := fun part hm =>
    hparts part (List.mem_append_left _ (List.mem_reverse.mp hm))
  rw [List.reverse_append, List.reverse_replicate, List.foldl_append, hdots,
    fold_plain hpart (by simpa using hplain), List.reverse_reverse]

theorem cleanParts_cleanChars (s : List Char) : cleanParts (cleanChars s) = cleanParts s := by
  have hfold := (settled_cleanParts s).fold_reverse
  rw [List.reverse_reverse] at hfold
  have hroot := isRooted_cleanChars s
  by_cases hparts : cleanParts s = []
  · rw [cleanParts, hroot, cleanChars, hparts]
    cases isRooted s <;> rfl
  · have hsplit := splitSlashes_intercalate cleanParts_parts hparts
    rw [cleanParts, hroot, List.reverse_eq_iff, ← hfold]
    unfold cleanChars
    split
    · rw [splitSlashes, hsplit, List.foldl_cons]
      rfl
    · obtain ⟨c, rest, -, hjoined⟩ := intercalate_ne_nil cleanParts_parts hparts
      rw [if_neg (by simp [hjoined]), hsplit]

theorem cleanChars_ne_nil (s : List Char) : cleanChars s ≠ [] := by
  simp only [cleanChars]
  split
  · simp
  · split
    · simp [dot]
    · assumption

theorem cleanParts_name (s : List Char) {name : String} (h : IsName name) :
    cleanParts (cleanChars s ++ '/' :: name.toList) = cleanParts s ++ [name.toList] := by
  obtain ⟨c, rest, hcons⟩ := List.exists_cons_of_ne_nil (cleanChars_ne_nil s)
  have hroot : isRooted (cleanChars s ++ '/' :: name.toList) = isRooted (cleanChars s) := by
    rw [hcons]
    rfl
  have hname : splitSlashes name.toList = [name.toList] := by
    rw [splitSlashes_eq_splitOn, List.splitOn_eq_splitOnP]
    refine List.splitOnP_eq_singleton fun c hc => ?_
    simpa using fun he : c = '/' => h.no_slash (he ▸ hc)
  have hpush : ∀ above, pushPart (isRooted (cleanChars s)) above name.toList =
      name.toList :: above := by
    intro above
    have hempty : name.toList ≠ [] := by simpa using h.ne_empty
    have hdot : name.toList ≠ dot := fun he => h.ne_dot (String.toList_inj.mp he)
    have hdots : name.toList ≠ dots := fun he => h.ne_dots (String.toList_inj.mp he)
    simp [pushPart, hempty, hdot, hdots]
  rw [← cleanParts_cleanChars s, cleanParts, hroot, splitSlashes_append, hname, List.foldl_append,
    List.foldl_cons, List.foldl_nil, hpush, List.reverse_cons, cleanParts]

end Names

namespace Disk

variable {d : Disk} {q : Place} {t : FileTree}

theorem follow_plain {here : Place} {parts : List String} {l : Located}
    (h : follow t here parts = .ok l) (hl : l.file? = some q)
    (hplain : ∀ part ∈ parts, part ≠ "." ∧ part ≠ "..") : q = here ++ parts := by
  induction parts generalizing here with
  | nil =>
    cases h
    cases hl
  | cons part rest ih =>
    obtain ⟨hdot, hdots⟩ := hplain part List.mem_cons_self
    have hrest : ∀ part ∈ rest, part ≠ "." ∧ part ≠ ".." := fun part hpart =>
      hplain part (List.mem_cons_of_mem _ hpart)
    simp only [follow, beq_iff_eq, hdot, hdots, if_false] at h
    split at h
    · cases h
    · split at h
      · split at h
        · next hempty =>
          cases h
          cases hl
          simp [List.isEmpty_iff.mp hempty]
        · cases h
      · simpa using ih h hrest
      · split at h
        · next hempty =>
          cases h
          cases hl
          simp [List.isEmpty_iff.mp hempty]
        · cases h

/-- A clean path that is not led upwards goes straight to its place. -/
theorem place?_cleanPath {path : String} (h : d.place? (cleanPath path) = some q)
    (hup : ".." ∉ partsOf (cleanPath path)) :
    q = (if isRooted path.toList then [] else d.current) ++
      (cleanParts path.toList).map String.ofList := by
  obtain ⟨l, -, hfollow, hl⟩ := follow_of_place? h
  have hroot : isRooted (cleanPath path).toList = isRooted path.toList := by
    rw [cleanPath, String.toList_ofList, isRooted_cleanChars]
  rw [hroot] at hfollow
  by_cases hparts : cleanParts path.toList = []
  · -- nothing is left of the path but its root or a dot, and these are directories
    have hdot : partsOf (cleanPath path) = ["."] := by
      unfold cleanPath cleanChars
      rw [hparts]
      split <;> decide
    rw [hdot] at hfollow
    cases hfollow
    cases hl
  · rw [partsOf_cleanPath path hparts] at hfollow hup
    refine follow_plain hfollow hl fun part hpart => ⟨?_, ?_⟩
    · rintro rfl
      obtain ⟨part, hpart, he⟩ := List.mem_map.mp hpart
      exact (cleanParts_parts part hpart).ne_dot (String.ofList_injective (he.trans (by decide)))
    · rintro rfl
      exact hup hpart

/-- Paths that are joined, all from the root or all from the current directory, and not led upwards
are different if their places are. -/
theorem joinPath_eq_of_place? {paths paths' : List String} (h : d.place? (joinPath paths) = some q)
    (h' : d.place? (joinPath paths') = some q)
    (hroot : isRooted (joinPath paths).toList = isRooted (joinPath paths').toList)
    (hup : ".." ∉ partsOf (joinPath paths)) (hup' : ".." ∉ partsOf (joinPath paths')) :
    joinPath paths = joinPath paths' := by
  have hclean : ∀ {paths : List String}, d.place? (joinPath paths) = some q →
      ∃ path, joinPath paths = cleanPath path := by
    intro paths h
    unfold joinPath at h ⊢
    split
    · next hnil =>
      rw [hnil] at h
      cases h
    · exact ⟨_, rfl⟩
  obtain ⟨path, hpath⟩ := hclean h
  obtain ⟨path', hpath'⟩ := hclean h'
  rw [hpath, hpath'] at hroot ⊢
  rw [hpath] at h hup
  rw [hpath'] at h' hup'
  simp only [cleanPath, String.toList_ofList, isRooted_cleanChars] at hroot
  have hplace := (place?_cleanPath h hup).symm.trans (place?_cleanPath h' hup')
  rw [hroot] at hplace
  have hparts := List.map_injective_iff.mpr (fun _ _ h => String.ofList_injective h)
    (List.append_cancel_left hplace)
  rw [cleanPath, cleanPath, cleanChars, cleanChars, hparts, hroot]

end Disk

end PduCompiler.Files
