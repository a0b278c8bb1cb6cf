import PduCompiler.Proofs.Comments
import PduCompiler.Proofs.IntLiterals

/-! The imports of a Go file. A package is imported if a text that shows its use is found anywhere in
the body of the file, so that comments and descriptions decide as well as code does. -/

namespace PduCompiler

namespace Target

section Marks

variable {mark a b : List Char} {c : Char}

theorem start_separated (hc : c ∉ mark) (h : mark <+: a ++ c :: b) : mark <+: a := by
  rcases List.prefix_or_prefix_of_prefix h (List.prefix_append a (c :: b)) with ha | ⟨t, rfl⟩
  · exact ha
  · rw [List.prefix_append_right_inj] at h
    cases t with
    | nil => simp
    | cons c' t =>
      obtain ⟨t', ht'⟩ := h
      rw [(List.cons.inj ht').1] at hc
      simp at hc

theorem mark_separated (hc : c ∉ mark) :
    mark <:+: a ++ c :: b ↔ mark <:+: a ∨ mark <:+: b := by
  constructor
  · intro h
    induction a with
    | nil =>
      rcases List.infix_cons_iff.mp h with h | h
      · exact .inl (start_separated (a := []) hc h).isInfix
      · exact .inr h
    | cons c' a ih =>
      rcases List.infix_cons_iff.mp h with h | h
      · exact .inl (start_separated (a := c' :: a) hc h).isInfix
      · rcases ih h with h | h
        · exact .inl (List.infix_cons h)
        · exact .inr h
  · rintro (h | h)
    · exact h.trans (List.prefix_append _ _).isInfix
    · exact (List.infix_cons h).trans (List.suffix_append _ _).isInfix

theorem occursIn_iff {s : List Char} : Go.occursIn mark s = true ↔ mark <:+: s := by
  induction s with
  | nil => simp [Go.occursIn]
  | cons c s ih =>
    simp only [Go.occursIn, Bool.or_eq_true, List.isPrefixOf_iff_prefix, ih, List.infix_cons_iff]

theorem unlines_cons (line : String) (lines : List String) :
    unlines (line :: lines) = line ++ "\n" ++ unlines lines := by
  have h := unlines_append [line] lines
  simpa [unlines] using h

def Mentions (mark : List Char) (texts : List String) : Prop := ∃ s ∈ texts, mark <:+: s.toList

theorem not_mentions_nil : ¬ Mentions mark [] := by
  simp [Mentions]

theorem mentions_cons (s : String) (texts : List String) :
    Mentions mark (s :: texts) ↔ mark <:+: s.toList ∨ Mentions mark texts := by
  simp [Mentions]

theorem mentions_append (texts texts' : List String) :
    Mentions mark (texts ++ texts') ↔ Mentions mark texts ∨ Mentions mark texts' := by
  simp [Mentions, or_and_right, exists_or]

theorem mark_unlines (hne : mark ≠ []) (hc : '\n' ∉ mark) (lines : List String) :
    mark <:+: (unlines lines).toList ↔ Mentions mark lines := by
  induction lines with
  | nil => simp [unlines, hne, not_mentions_nil]
  | cons line lines ih =>
    have hchars : (unlines (line :: lines)).toList =
        line.toList ++ '\n' :: (unlines lines).toList := by
      rw [unlines_cons, String.toList_append, String.toList_append, List.append_assoc]
      rfl
    rw [hchars, mark_separated hc, ih, mentions_cons]

end Marks

end Target

def Kind.silent : Kind → Kind
  | .primitive p =>
    .primitive { p with bitFields := p.bitFields.map ({ · with description := "" }) }
  | k => k

def Attribute.silent (a : Attribute) : Attribute :=
  { a with comment := "", kind := a.kind.map Kind.silent }

def BitAccessor.silent (b : BitAccessor) : BitAccessor := { b with description := "" }

namespace ClassPlan

def silent (q : ClassPlan) : ClassPlan :=
  { q with
    description := { q.description with
      comment := "", attributes := q.description.attributes.map Attribute.silent }
    bitFields := q.bitFields.map BitAccessor.silent }

def prose (q : ClassPlan) : List String :=
  q.description.comment :: q.description.attributes.map (·.comment) ++
    q.bitFields.map (·.description)

end ClassPlan

namespace Target.Go

open Text

def separators : List Char := ['/', '"', ':', '[']

/-- What the texts that show the use of a package have in common. -/
structure IsMark (mark : List Char) : Prop where
  blank : ∀ c ∈ mark, isBlank c = false
  apart : ∀ c ∈ separators, c ∉ mark
  point : ∃ c, ['.', c] <:+: mark

theorem isMark_of_mem {entry : String × String} (h : entry ∈ packages) :
    IsMark entry.2.toList := by
  have hall : packages.all (fun entry => entry.2.toList.all (!isBlank ·) &&
      separators.all (!entry.2.toList.contains ·) &&
      entry.2.toList.any fun c => occursIn ['.', c] entry.2.toList) = true := by
    decide
  have hentry := List.all_eq_true.mp hall entry h
  simp only [Bool.and_eq_true, List.all_eq_true, Bool.not_eq_true', List.any_eq_true,
    occursIn_iff] at hentry
  obtain ⟨⟨hblank, hapart⟩, c, -, hpoint⟩ := hentry
  exact ⟨hblank, fun c hc => by simpa using hapart c hc, c, hpoint⟩

section Prose

variable {q : ClassPlan} {mark s : List Char}

namespace IsMark

variable (hm : IsMark mark)

include hm

theorem point_mem : '.' ∈ mark := by
  obtain ⟨c, hc⟩ := hm.point
  exact hc.subset List.mem_cons_self

theorem ne_nil : mark ≠ [] := List.ne_nil_of_mem hm.point_mem

theorem notMem {c : Char} (hc : isBlank c = true) : c ∉ mark := by
  intro hmem
  rw [hm.blank c hmem] at hc
  cases hc

theorem quiet (hs : '.' ∉ s) : ¬ mark <:+: s := fun h => hs (h.subset hm.point_mem)

theorem blanks_append {b : List Char} (hb : ∀ c ∈ b, isBlank c = true) :
    mark <:+: b ++ s ↔ mark <:+: s := by
  induction b with
  | nil => rfl
  | cons c b ih =>
    have hsep := mark_separated (a := []) (b := b ++ s) (hm.notMem (hb c List.mem_cons_self))
    rw [List.cons_append, ← List.nil_append (c :: (b ++ s)), hsep,
      ih fun c' hc' => hb c' (List.mem_cons_of_mem _ hc')]
    simp [hm.ne_nil]

theorem append_blanks {b : List Char} (hb : ∀ c ∈ b, isBlank c = true) :
    mark <:+: s ++ b ↔ mark <:+: s := by
  cases b with
  | nil => rw [List.append_nil]
  | cons c b =>
    have hrest := hm.blanks_append (s := []) fun c' hc' => hb c' (List.mem_cons_of_mem c hc')
    rw [mark_separated (hm.notMem (hb c List.mem_cons_self)), ← List.append_nil b, hrest]
    simp [hm.ne_nil]

theorem trim_iff (text : String) : mark <:+: (trim text).toList ↔ mark <:+: text.toList := by
  obtain ⟨⟨front, back, htext, hfront, hback⟩, -⟩ := trims_trimChars text.toList
  conv_rhs => rw [htext, hm.append_blanks hback, hm.blanks_append hfront]
  rw [trim, String.toList_ofList]

end IsMark

def note (a : Attribute) : String :=
  if a.transient then trim (a.comment ++ " (not serialized)") else a.comment

theorem mark_note (hm : IsMark mark) (a : Attribute) :
    mark <:+: (note a).toList ↔ mark <:+: a.comment.toList := by
  unfold note
  split
  · have hquiet : ¬ mark <:+: "(not serialized)".toList := hm.quiet (by decide)
    have hsep := mark_separated (a := a.comment.toList) (b := "(not serialized)".toList)
      (hm.notMem (c := ' ') rfl)
    rw [hm.trim_iff, String.toList_append]
    exact hsep.trans (or_iff_left hquiet)
  · rfl

def declaration (a : Attribute) (type : String) : String := s!"\t{fieldName a.name} {type}"

def fieldText (a : Attribute) (type : String) : String :=
  if note a == "" then declaration a type else s!"{declaration a type} // {note a}"

theorem fieldLine_eq_ok {a : Attribute} {line : String} : fieldLine q a = .ok line ↔
    ∃ type, fieldType? a = some type ∧ fieldText a type = line := by
  unfold fieldLine
  cases htype : fieldType? a with
  | none => simp
  | some type =>
    simp only [Except.ok.injEq, Option.some.injEq, exists_eq_left']
    rfl

theorem mark_fieldText (hm : IsMark mark) (a : Attribute) (type : String) :
    mark <:+: (fieldText a type).toList ↔
      mark <:+: (declaration a type).toList ∨ mark <:+: a.comment.toList := by
  rw [← mark_note hm]
  unfold fieldText
  split
  · next hempty =>
    have hnote : note a = "" := by simpa using hempty
    simp [hnote, hm.ne_nil]
  · have hquiet : ¬ mark <:+: ['/', '/'] := hm.quiet (by decide)
    have hblank : ' ' ∉ mark := hm.notMem rfl
    have hchars : s!"{declaration a type} // {note a}".toList =
        (declaration a type).toList ++ ' ' :: (['/', '/'] ++ ' ' :: (note a).toList) := by
      simp only [String.toList_append, List.append_assoc]
      rfl
    rw [hchars, mark_separated hblank, mark_separated hblank, or_iff_right hquiet]

theorem fieldType?_silent (a : Attribute) : fieldType? a.silent = fieldType? a := by
  obtain ⟨name, comment, kind, transient⟩ := a
  cases kind with
  | none => rfl
  | some k => cases k <;> rfl

theorem fields_silent {attributes : List Attribute} {fields : List String}
    (h : attributes.mapM (fieldLine q) = .ok fields) : ∃ quiet,
      (attributes.map Attribute.silent).mapM (fieldLine q.silent) = .ok quiet ∧
      ∀ mark, IsMark mark → (Mentions mark fields ↔
        Mentions mark quiet ∨ Mentions mark (attributes.map (·.comment))) := by
  rw [mapM_eq_ok] at h
  induction h with
  | nil => exact ⟨[], rfl, by simp [not_mentions_nil]⟩
  | @cons a line attributes fields hline _ ih =>
    obtain ⟨type, htype, rfl⟩ := fieldLine_eq_ok.mp hline
    obtain ⟨quiet, hquiet, hmarks⟩ := ih
    refine ⟨fieldText a.silent type :: quiet, ?_, fun mark hm => ?_⟩
    · rw [mapM_eq_ok] at hquiet ⊢
      rw [List.map_cons, List.forall₂_cons]
      exact ⟨fieldLine_eq_ok.mpr ⟨type, (fieldType?_silent a).trans htype, rfl⟩, hquiet⟩
    · have hempty : ¬ mark <:+: a.silent.comment.toList := by
        simpa [Attribute.silent] using hm.ne_nil
      have hsame : declaration a.silent type = declaration a type := rfl
      rw [List.map_cons, mentions_cons, mentions_cons, mentions_cons, hmarks mark hm,
        mark_fieldText hm, mark_fieldText hm, hsame, or_iff_left hempty]
      exact or_or_or_comm

theorem floatBitField?_silent : floatBitField? q.silent = floatBitField? q := by
  unfold floatBitField? ClassPlan.silent
  rw [List.find?_map]
  simp only [Option.map_map]
  rfl

def bitsText (b : BitAccessor) : String :=
  s!"bits {hexLiteral b.narrowMask} of {fieldName b.field}"

def getterText (b : BitAccessor) (doc : String) : String :=
  s!"// Get{capitalized b.name} returns {doc}"

theorem mark_getterText (hm : IsMark mark) (b : BitAccessor) (doc : String) :
    mark <:+: (getterText b doc).toList ↔
      mark <:+: (getterText b "").toList ∨ mark <:+: doc.toList := by
  have hblank : ' ' ∉ mark := hm.notMem rfl
  have hchars : ∀ doc, (getterText b doc).toList =
      s!"// Get{capitalized b.name} returns".toList ++ ' ' :: doc.toList := by
    intro doc
    simp only [getterText, String.toList_append, List.append_assoc]
    rfl
  rw [hchars, hchars, mark_separated hblank, mark_separated hblank]
  simp [hm.ne_nil]

theorem accessorLines_silent (hm : IsMark mark) (name : String) (b : BitAccessor) :
    Mentions mark (accessorLines name b) ↔
      Mentions mark (accessorLines name b.silent) ∨ mark <:+: b.description.toList := by
  have hlines : accessorLines name b = getterText b
      (if b.description == "" then bitsText b else b.description) :: (accessorLines name b).tail :=
    rfl
  have hsilent : accessorLines name b.silent =
      getterText b (bitsText b) :: (accessorLines name b).tail := rfl
  have hbits : mark <:+: (bitsText b).toList → Mentions mark (accessorLines name b).tail := by
    -- The accessor that stores bits says in any case which they are.
    intro h
    refine ⟨_, List.mem_of_getElem? (i := 4) rfl,
      h.trans ⟨s!"// Set{capitalized b.name} stores v at ".toList, ". v is not masked.".toList, ?_⟩⟩
    simp only [bitsText, String.toList_append, List.append_assoc]
    rfl
  rw [hlines, hsilent, mentions_cons, mentions_cons, mark_getterText hm,
    mark_getterText hm b (bitsText b)]
  split
  · next hempty =>
    have hdescription : b.description = "" := by simpa using hempty
    simp [hdescription, hm.ne_nil]
  · constructor
    · rintro ((h | h) | h)
      · exact .inl (.inl (.inl h))
      · exact .inr h
      · exact .inl (.inr h)
    · rintro (((h | h) | h) | h)
      · exact .inl (.inl h)
      · exact .inr (hbits h)
      · exact .inr h
      · exact .inl (.inr h)

theorem accessors_silent (hm : IsMark mark) (name : String) (bs : List BitAccessor) :
    Mentions mark (bs.flatMap (accessorLines name)) ↔
      Mentions mark ((bs.map BitAccessor.silent).flatMap (accessorLines name)) ∨
        Mentions mark (bs.map (·.description)) := by
  induction bs with
  | nil => simp [not_mentions_nil]
  | cons b bs ih =>
    rw [List.flatMap_cons, List.map_cons, List.flatMap_cons, List.map_cons, mentions_append,
      mentions_append, mentions_cons, ih, accessorLines_silent hm]
    exact or_or_or_comm

theorem mark_commentLine (hm : IsMark mark) (c : ClassDescription) :
    Mentions mark ((if c.comment == "" then [] else [s!"// {c.name} {c.comment}"]) ++ headLines c) ↔
      Mentions mark (headLines c) ∨ mark <:+: c.comment.toList := by
  have hblank : ' ' ∉ mark := hm.notMem rfl
  split
  · next hempty =>
    have hcomment : c.comment = "" := by simpa using hempty
    simp [hcomment, hm.ne_nil]
  · have hchars : s!"// {c.name} {c.comment}".toList =
        ['/', '/'] ++ ' ' :: (c.name.toList ++ ' ' :: c.comment.toList) := by
      simp only [String.toList_append, List.append_assoc]
      rfl
    have hquiet : ¬ mark <:+: ['/', '/'] := hm.quiet (by decide)
    have hname : mark <:+: c.name.toList → Mentions mark (headLines c) := by
      intro h
      refine ⟨_, List.mem_cons_self, h.trans ⟨"type ".toList, " struct \x7b".toList, ?_⟩⟩
      simp only [String.toList_append]
      rfl
    rw [List.singleton_append, mentions_cons, hchars, mark_separated hblank, mark_separated hblank,
      or_iff_right hquiet]
    constructor
    · rintro ((h | h) | h)
      · exact .inl (hname h)
      · exact .inr h
      · exact .inl h
    · rintro (h | h)
      · exact .inr h
      · exact .inl (.inr h)

theorem mentions_bodyLines (hm : IsMark mark) (q : ClassPlan)
    (fields init marshal unmarshal size : List String) :
    mark <:+: (unlines (bodyLines q fields init marshal unmarshal size)).toList ↔
      (((Mentions mark (headLines q.description) ∨ mark <:+: q.description.comment.toList) ∨
        Mentions mark fields) ∨ Mentions mark (methodLines q.name init marshal unmarshal size)) ∨
        Mentions mark (q.bitFields.flatMap (accessorLines q.name)) := by
  rw [mark_unlines hm.ne_nil (hm.notMem rfl), bodyLines, mentions_append, mentions_append,
    mentions_append, mark_commentLine hm]

/-- A mark is in the body of a class if it is in what is left without comments and descriptions, or
in one of these. -/
theorem body_silent {text : String} (h : body q = .ok text) : ∃ quiet,
    body q.silent = .ok quiet ∧ ∀ mark, IsMark mark →
      (mark <:+: text.toList ↔ mark <:+: quiet.toList ∨ Mentions mark q.prose) := by
  obtain ⟨fields, init, marshal, unmarshal, size, hfields, hinit, hmarshal, hunmarshal, hsize,
    hfloat, rfl⟩ := body_eq_ok.mp h
  obtain ⟨quiet, hquiet, hmarks⟩ := fields_silent hfields
  refine ⟨_, body_eq_ok.mpr ⟨quiet, init, marshal, unmarshal, size, hquiet, hinit, hmarshal,
    hunmarshal, hsize, floatBitField?_silent.trans hfloat, rfl⟩, fun mark hm => ?_⟩
  have hempty : ¬ mark <:+: q.silent.description.comment.toList := by
    simpa [ClassPlan.silent] using hm.ne_nil
  have hhead : headLines q.silent.description = headLines q.description := rfl
  have hname : q.silent.name = q.name := rfl
  have hbits : q.silent.bitFields = q.bitFields.map BitAccessor.silent := rfl
  rw [mentions_bodyLines hm, mentions_bodyLines hm, hmarks mark hm, accessors_silent hm,
    or_iff_left hempty, hhead, hname, hbits, ClassPlan.prose, List.cons_append, mentions_cons,
    mentions_append]
  generalize Mentions mark (headLines q.description) = head
  generalize Mentions mark (methodLines q.name init marshal unmarshal size) = methods
  generalize Mentions mark quiet = fields
  generalize Mentions mark ((q.bitFields.map BitAccessor.silent).flatMap
    (accessorLines q.name)) = accessors
  tauto

theorem body_of_silent {quiet : String} (h : body q.silent = .ok quiet) :
    ∃ text, body q = .ok text := by
  obtain ⟨fields, init, marshal, unmarshal, size, hfields, hinit, hmarshal, hunmarshal, hsize,
    hfloat, -⟩ := body_eq_ok.mp h
  have hlines : ∀ a ∈ q.description.attributes, ∃ line, fieldLine q a = .ok line := by
    intro a ha
    obtain ⟨line, -, hline⟩ := forall₂_of_mem (mapM_eq_ok.mp hfields)
      (List.mem_map_of_mem ha)
    obtain ⟨type, htype, -⟩ := fieldLine_eq_ok.mp hline
    exact ⟨_, fieldLine_eq_ok.mpr ⟨type, (fieldType?_silent a).symm.trans htype, rfl⟩⟩
  obtain ⟨fields', hfields'⟩ := exists_forall₂ hlines
  exact ⟨_, body_eq_ok.mpr ⟨fields', init, marshal, unmarshal, size, mapM_eq_ok.mpr hfields', hinit,
    hmarshal, hunmarshal, hsize, floatBitField?_silent.symm.trans hfloat, rfl⟩⟩

end Prose

section Imports

variable {entry : String × String} {text text' : String}

def importLine (path : String) : String := s!"\t\"{path}\""

def used (text : String) : List (String × String) :=
  packages.filter fun entry => occurs entry.2 text

theorem importLines_eq (text : String) : importLines text = if (used text).isEmpty then []
    else ["import ("] ++ (used text).map (fun entry => importLine entry.1) ++ [")", ""] := rfl

theorem mem_importLines (h : entry ∈ packages) :
    importLine entry.1 ∈ importLines text ↔ occurs entry.2 text = true := by
  have hother : packages.all (fun entry =>
      !(["import (", ")", ""].contains (importLine entry.1))) = true := by
    decide
  have hinj : packages.all (fun entry => packages.all fun entry' =>
      importLine entry'.1 != importLine entry.1 || entry' == entry) = true := by
    decide
  have hused : entry ∈ used text ↔ occurs entry.2 text = true := by
    simp [used, h]
  rw [importLines_eq, ← hused]
  constructor
  · intro hmem
    split at hmem
    · cases hmem
    · simp only [List.mem_append, List.mem_map] at hmem
      have hmiddle : ∃ entry' ∈ used text, importLine entry'.1 = importLine entry.1 := by
        have hno := List.all_eq_true.mp hother entry h
        simp only [List.contains_cons, List.contains_nil, Bool.or_false, Bool.not_eq_true',
          Bool.or_eq_false_iff, beq_eq_false_iff_ne] at hno
        simpa [hno.1, hno.2.1, hno.2.2] using hmem
      obtain ⟨entry', hmem', hline⟩ := hmiddle
      have hpackage : entry' ∈ packages := (List.mem_filter.mp hmem').1
      have hsame := List.all_eq_true.mp (List.all_eq_true.mp hinj entry h) entry' hpackage
      have heq : entry' = entry := by simpa [hline] using hsame
      exact heq ▸ hmem'
  · intro hmem
    rw [if_neg (by simpa using List.ne_nil_of_mem hmem)]
    simp only [List.mem_append]
    exact .inl (.inr (List.mem_map_of_mem hmem))

theorem importLines_eq_iff : importLines text = importLines text' ↔
    ∀ entry ∈ packages, occurs entry.2 text = occurs entry.2 text' := by
  constructor
  · intro h entry hentry
    rw [Bool.eq_iff_iff, ← mem_importLines hentry, ← mem_importLines hentry, h]
  · intro h
    have hused : used text = used text' := List.filter_congr h
    rw [importLines_eq, importLines_eq, hused]

end Imports

end Target.Go

end PduCompiler
