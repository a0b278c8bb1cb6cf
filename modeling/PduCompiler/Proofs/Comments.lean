import Mathlib.Data.List.Infix
import PduCompiler.Proofs.Rendering
import PduCompiler.Text.Blank

/-! Comments in generated sources. A comment is on one line, so a line comment holds it. A docstring
and a block comment end early at some texts: a docstring at a quote or a backslash at the end of the
text, and a block comment at its own end mark within the text. -/

namespace PduCompiler

namespace Text

def lineBreaks : List Char := ['\n', '\x0b', '\x0c', '\r', '\x85', '\u2028', '\u2029']

theorem isBlank_of_mem_lineBreaks {c : Char} (h : c ∈ lineBreaks) : isBlank c = true := by
  have hall : lineBreaks.all isBlank = true := by decide
  exact List.all_eq_true.mp hall c h

theorem mem_joinedWords {s : List Char} {c : Char} (h : c ∈ joinedWords s) :
    c = ' ' ∨ isBlank c = false := by
  have hwords : ∀ (ws : List (List Char)), (∀ w ∈ ws, ∀ c ∈ w, isBlank c = false) →
      c ∈ [' '].intercalate ws → c = ' ' ∨ isBlank c = false := by
    intro ws hws hc
    induction ws with
    | nil => simp at hc
    | cons w ws ih =>
      have hw := hws w List.mem_cons_self
      cases ws with
      | nil => exact .inr (hw c (by simpa using hc))
      | cons w' ws =>
        rw [List.intercalate_cons_cons, List.mem_append, List.mem_append] at hc
        rcases hc with (hc | hc) | hc
        · exact .inr (hw c hc)
        · exact .inl (List.mem_singleton.mp hc)
        · exact ih (fun w hw => hws w (List.mem_cons_of_mem _ hw)) hc
  exact hwords _ (fun _ => isBlank_of_mem_words) h

theorem cleanComment_lineBreak {s : String} {c : Char} (h : c ∈ (cleanComment s).toList) :
    c ∉ lineBreaks := by
  intro hbreak
  have hblank := isBlank_of_mem_lineBreaks hbreak
  rw [cleanComment, String.toList_ofList] at h
  rcases mem_joinedWords h with rfl | hno
  · revert hbreak
    decide
  · simp [hblank] at hno

end Text

namespace Target

namespace Python

/-- What follows a string in three quotes, read from behind the first three. A backslash keeps the
character after it from ending the string. -/
def afterDocstring : List Char → Option (List Char)
  | '\\' :: _ :: rest => afterDocstring rest
  | '"' :: '"' :: '"' :: rest => some rest
  | _ :: rest => afterDocstring rest
  | [] => none

def IsDocstring (s : String) : Prop :=
  ∃ inside, s.toList = '"' :: '"' :: '"' :: inside ∧ afterDocstring inside = some []

/-- The text ends in a backslash that takes the next character with it. -/
def endsEscaping (t : List Char) : Bool := (t.reverse.takeWhile (· == '\\')).length % 2 == 1

/-- Quotes behind the text are read as such, and none of its own come before them. -/
structure Closable (t : List Char) : Prop where
  escape : endsEscaping t = false
  quote : ∀ u, t = u ++ ['"'] → endsEscaping u = true

section Docstrings

variable {c : Char} {t rest : List Char}

theorem endsEscaping_cons (hc : c ≠ '\\') : endsEscaping (c :: t) = endsEscaping t := by
  unfold endsEscaping
  rw [List.reverse_cons, List.takeWhile_append]
  split
  · next h => simp [h, hc]
  · rfl

theorem endsEscaping_escape : endsEscaping ('\\' :: c :: t) = endsEscaping t := by
  by_cases hc : c = '\\'
  · unfold endsEscaping
    rw [hc, List.reverse_cons, List.reverse_cons, List.append_assoc, List.takeWhile_append]
    split
    · next h => simp [h]
    · rfl
  · unfold endsEscaping
    rw [List.reverse_cons, List.reverse_cons, List.append_assoc, List.takeWhile_append]
    split
    · next h => simp [h, hc]
    · rfl

theorem closable_cons (hc : c ≠ '\\') (ht : c = '"' → t ≠ []) : Closable (c :: t) ↔ Closable t := by
  constructor
  · rintro ⟨hescape, hquote⟩
    refine ⟨endsEscaping_cons hc ▸ hescape, fun u hu => ?_⟩
    rw [← endsEscaping_cons hc]
    exact hquote (c :: u) (by rw [hu, List.cons_append])
  · rintro ⟨hescape, hquote⟩
    refine ⟨(endsEscaping_cons hc).trans hescape, fun u hu => ?_⟩
    rcases List.cons_eq_append_iff.mp hu with ⟨-, hquoted⟩ | ⟨u', rfl, hu'⟩
    · cases hquoted
      exact absurd rfl (ht rfl)
    · rw [endsEscaping_cons hc]
      exact hquote u' hu'

theorem closable_escape : Closable ('\\' :: c :: t) ↔ Closable t := by
  constructor
  · rintro ⟨hescape, hquote⟩
    refine ⟨endsEscaping_escape ▸ hescape, fun u hu => ?_⟩
    rw [← endsEscaping_escape (c := c)]
    exact hquote ('\\' :: c :: u) (by rw [hu]; rfl)
  · rintro ⟨hescape, hquote⟩
    refine ⟨endsEscaping_escape.trans hescape, fun u hu => ?_⟩
    rcases List.cons_eq_append_iff.mp hu with ⟨-, hquoted⟩ | ⟨u', rfl, hu'⟩
    · cases hquoted
    · rcases List.cons_eq_append_iff.mp hu' with ⟨rfl, -⟩ | ⟨u'', rfl, hu''⟩
      · rfl
      · rw [endsEscaping_escape]
        exact hquote u'' hu''

theorem length_afterDocstring {s : List Char} (h : afterDocstring s = some rest) :
    rest.length + 3 ≤ s.length := by
  fun_induction afterDocstring s with
  | case1 c s ih => exact (ih h).trans (by simp; omega)
  | case2 s =>
    cases h
    simp
  | case3 c s _ _ ih => exact (ih h).trans (by simp)
  | case4 => cases h

/-- A text without three quotes in a row is all of a string unless it ends in a backslash or a quote
that counts. -/
theorem afterDocstring_iff (h : ¬ ['"', '"', '"'] <:+: t) :
    afterDocstring (t ++ '"' :: '"' :: '"' :: rest) = some rest ↔ Closable t := by
  induction t using afterDocstring.induct with
  | case1 c t ih =>
    rw [closable_escape, ← ih fun hin => h (hin.trans ⟨['\\', c], [], by simp⟩)]
    simp [afterDocstring]
  | case2 t => exact absurd ⟨[], t, rfl⟩ h
  | case3 c t hescape htriple ih =>
    have htail : ¬ ['"', '"', '"'] <:+: t := fun hin => h (List.infix_cons hin)
    by_cases hc : c = '\\'
    · -- The first of the quotes behind the text is part of an escape.
      obtain rfl : t = [] := by
        cases t with
        | nil => rfl
        | cons c' t => exact absurd rfl (hescape c' t hc)
      subst hc
      refine iff_of_false (fun hend => ?_) fun hclosable => by cases hclosable.escape
      have hlength := length_afterDocstring (s := '"' :: '"' :: rest) (by
        simpa [afterDocstring] using hend)
      simp only [List.length_cons] at hlength
      omega
    by_cases hquote : c = '"' ∧ (t = [] ∨ t = ['"'])
    · -- Quotes of the text and of its end make three before the end.
      refine iff_of_false (fun hend => ?_) fun hclosable => ?_
      · have hlength := congrArg (Option.map List.length) hend
        rcases hquote with ⟨rfl, rfl | rfl⟩ <;> simp [afterDocstring] at hlength
        omega
      · rcases hquote with ⟨rfl, rfl | rfl⟩
        · cases hclosable.quote [] rfl
        · cases hclosable.quote ['"'] rfl
    · have hstep : afterDocstring (c :: t ++ '"' :: '"' :: '"' :: rest) =
          afterDocstring (t ++ '"' :: '"' :: '"' :: rest) := by
        refine afterDocstring.eq_3 _ _ (fun _ _ he => absurd he hc) fun s hc' hs => ?_
        rcases t with - | ⟨c₁, - | ⟨c₂, t⟩⟩
        · exact hquote ⟨hc', .inl rfl⟩
        · exact hquote ⟨hc', .inr (by simpa using (List.cons.inj hs).1)⟩
        · obtain ⟨h₁, hs'⟩ := List.cons.inj hs
          exact htriple t hc' (by rw [h₁, (List.cons.inj hs').1])
      rw [hstep, ih htail, closable_cons hc fun hc' hnil => hquote ⟨hc', .inl hnil⟩]
  | case4 => exact iff_of_true rfl ⟨rfl, by simp⟩

theorem docChars_quote {s : List Char} (h : docChars s = '"' :: t) :
    ∃ s', s = '"' :: s' ∧ t = docChars s' := by
  unfold docChars at h
  split at h
  · cases h
  · next c s' _ =>
    cases h
    exact ⟨s', rfl, rfl⟩
  · cases h

theorem docChars_noTriple (s : List Char) : ¬ ['"', '"', '"'] <:+: docChars s := by
  fun_induction docChars s with
  | case1 s ih => simpa [List.infix_cons_iff] using ih
  | case2 c s hno ih =>
    rw [List.infix_cons_iff]
    rintro (⟨t, ht⟩ | hin)
    · obtain ⟨hc, hrest⟩ := List.cons.inj ht
      obtain ⟨s', rfl, hrest'⟩ := docChars_quote hrest.symm
      obtain ⟨s'', rfl, -⟩ := docChars_quote hrest'.symm
      exact hno s'' hc.symm rfl
    · exact ih hin
  | case3 => simp

theorem isDocstring_iff (text : String) :
    IsDocstring (docLine "" (docText text)) ↔ Closable (docChars text.toList) := by
  have hchars : (docLine "" (docText text)).toList =
      '"' :: '"' :: '"' :: (docChars text.toList ++ ['"', '"', '"']) := by
    have htext : docChars text.toList = (docText text).toList := String.toList_ofList.symm
    simp only [docLine, String.toList_append, htext]
    rfl
  have hclosed := @afterDocstring_iff _ [] (docChars_noTriple text.toList)
  simpa [IsDocstring, hchars] using hclosed

end Docstrings

end Python

namespace ObjectiveC

/-- What follows a block comment, read from behind its first two characters. -/
def afterComment : List Char → Option (List Char)
  | '*' :: '/' :: rest => some rest
  | _ :: rest => afterComment rest
  | [] => none

def IsBlockComment (s : String) : Prop :=
  ∃ inside, s.toList = '/' :: '*' :: inside ∧ afterComment inside = some []

theorem afterComment_iff {t rest : List Char} :
    afterComment (t ++ ' ' :: '*' :: '/' :: rest) = some rest ↔ ¬ ['*', '/'] <:+: t := by
  induction t using afterComment.induct with
  | case1 t =>
    refine iff_of_false (fun hend => ?_) (not_not_intro ⟨[], t, rfl⟩)
    have hlength := congrArg (Option.map List.length) hend
    simp [afterComment] at hlength
    omega
  | case2 c t hno ih =>
    have hstep : afterComment (c :: t ++ ' ' :: '*' :: '/' :: rest) =
        afterComment (t ++ ' ' :: '*' :: '/' :: rest) := by
      refine afterComment.eq_2 _ _ fun s hc hs => ?_
      cases t with
      | nil => cases hs
      | cons c' t => exact hno t hc (by rw [(List.cons.inj hs).1])
    rw [hstep, ih, List.infix_cons_iff, not_or, and_iff_right]
    rintro ⟨t', ht'⟩
    obtain ⟨hc, ht⟩ := List.cons.inj ht'
    exact hno t' hc.symm ht.symm
  | case3 => simp [afterComment]

theorem isBlockComment_iff (text : String) :
    IsBlockComment (docComment text) ↔ ¬ ['*', '/'] <:+: text.toList := by
  have hchars : (docComment text).toList =
      '/' :: '*' :: ('*' :: ' ' :: text.toList ++ [' ', '*', '/']) := by
    simp only [docComment, String.toList_append]
    rfl
  have hmark : ['*', '/'] <:+: '*' :: ' ' :: text.toList ↔ ['*', '/'] <:+: text.toList := by
    simp [List.infix_cons_iff]
  have hclosed := @afterComment_iff ('*' :: ' ' :: text.toList) []
  rw [hmark] at hclosed
  simpa [IsBlockComment, hchars] using hclosed

end ObjectiveC

def HasLine (text line : String) : Prop := ∃ lines, text = unlines lines ∧ line ∈ lines

theorem hasLine_unlines {lines : List String} {line : String} (h : line ∈ lines) :
    HasLine (unlines lines) line := ⟨lines, rfl, h⟩

theorem unlines_append (l l' : List String) : unlines (l ++ l') = unlines l ++ unlines l' := by
  have hfold : ∀ (l : List String) (s : String),
      l.foldl (fun s line => s ++ line ++ "\n") s = s ++ unlines l := by
    intro l
    induction l with
    | nil => simp [unlines]
    | cons line l ih =>
      intro s
      have hline := ih ("" ++ line ++ "\n")
      rw [unlines, List.foldl_cons, List.foldl_cons, ih, hline]
      simp [String.append_assoc]
  rw [unlines, List.foldl_append, hfold]
  rfl

section Lines

variable {q : ClassPlan} {files : List SourceFile}

theorem Python.classFiles_comment (hne : q.description.comment ≠ "")
    (h : Target.python.classFiles q = .ok files) : ∃ file, files = [file] ∧
      HasLine file.content ("    " ++ docLine "" (docText q.description.comment)) := by
  simp only [classFiles, classFile, bind_eq_ok] at h
  obtain ⟨file, ⟨init, -, marshal, -, unmarshal, -, size, -, hfile⟩, he⟩ := h
  cases he
  refine ⟨file, rfl, ?_⟩
  cases hf : floatBitField? q with
  | some e =>
    rw [hf] at hfile
    cases hfile
  | none =>
    rw [hf] at hfile
    cases hfile
    have hindent : docLine "    " (docText q.description.comment) =
        "    " ++ docLine "" (docText q.description.comment) := by
      simp only [docLine, ← String.toList_inj, String.toList_append]
      rfl
    apply hasLine_unlines
    simp [classHeader, hne, hindent]

theorem ObjectiveC.classFiles_comment (hne : q.description.comment ≠ "")
    (h : Target.objectiveC.classFiles q = .ok files) : ∃ declarations implementation,
      files = [declarations, implementation] ∧
        HasLine declarations.content (docComment q.description.comment) := by
  simp only [Target.classFiles, classFiles] at h
  cases hf : floatBitField? q with
  | some e =>
    rw [hf] at h
    cases h
  | none =>
    simp only [hf, bind_eq_ok] at h
    obtain ⟨declarations, hdeclarations, implementation, -, hfiles⟩ := h
    cases hfiles
    refine ⟨_, _, rfl, ?_⟩
    simp only [headerText, bind_eq_ok] at hdeclarations
    obtain ⟨fields, -, htext⟩ := hdeclarations
    rw [← Except.ok.inj htext]
    apply hasLine_unlines
    simp [hne]

def Go.headLines (c : ClassDescription) : List String :=
  s!"type {c.name} struct \x7b" :: (if c.hasParent then ["\t" ++ c.parent, ""] else [])

def Go.methodLines (name : String) (init marshal unmarshal size : List String) : List String :=
  ["\x7d", "",
    s!"// New{name} returns a {name} with its default values",
    s!"func New{name}() *{name} \x7b",
    s!"\tp := &{name}\x7b\x7d"] ++ init ++
  ["\treturn p", "\x7d", "",
    "// MarshalTo appends the wire encoding to buf",
    s!"func (p *{name}) MarshalTo(buf []byte) []byte \x7b"] ++ marshal ++
  ["\treturn buf", "\x7d", "",
    "// UnmarshalFrom decodes the wire encoding at the start of buf and",
    "// returns the remaining bytes. Lists are cleared before they are read.",
    s!"func (p *{name}) UnmarshalFrom(buf []byte) ([]byte, error) \x7b"] ++
  (if occurs "err = " (unlines unmarshal) then ["\tvar err error"] else []) ++ unmarshal ++
  ["\treturn buf, nil", "\x7d", "",
    "// MarshalledSize returns the number of bytes MarshalTo appends",
    s!"func (p *{name}) MarshalledSize() int \x7b",
    "\tsize := 0"] ++ size ++
  ["\treturn size", "\x7d", ""]

def Go.bodyLines (q : ClassPlan) (fields init marshal unmarshal size : List String) :
    List String :=
  (if q.description.comment == "" then []
    else [s!"// {q.description.name} {q.description.comment}"]) ++
  headLines q.description ++ fields ++ methodLines q.name init marshal unmarshal size ++
  q.bitFields.flatMap (accessorLines q.name)

theorem Go.body_eq_ok {text : String} : body q = .ok text ↔
    ∃ fields init marshal unmarshal size,
      q.description.attributes.mapM (fieldLine q) = .ok fields ∧
      linesOf q .init q.init initStep = .ok init ∧
      typedLines q .marshal q.marshal
        ([Op.write, .writeLength, .writeArray, .writeList].contains ·) marshalStep = .ok marshal ∧
      typedLines q .unmarshal q.unmarshal ([Op.read, .readArray, .readList].contains ·)
        (unmarshalStep q.name) = .ok unmarshal ∧
      linesOf q .size q.size sizeStep = .ok size ∧
      floatBitField? q = none ∧ unlines (bodyLines q fields init marshal unmarshal size) = text := by
  cases hf : floatBitField? q with
  | some e =>
    simp only [body, structLines, bind_eq_ok, hf, reduceCtorEq, false_and, and_false, exists_false]
  | none =>
    simp only [body, structLines, bind_eq_ok, hf, true_and]
    constructor
    · rintro ⟨struct, ⟨fields, hfields, hstruct⟩, init, hinit, marshal, hmarshal, unmarshal,
        hunmarshal, size, hsize, htext⟩
      cases hstruct
      refine ⟨fields, init, marshal, unmarshal, size, hfields, hinit, hmarshal, hunmarshal, hsize,
        ?_⟩
      rw [← Except.ok.inj htext]
      simp only [bodyLines, headLines, methodLines, List.append_assoc, List.cons_append,
        List.nil_append]
    · rintro ⟨fields, init, marshal, unmarshal, size, hfields, hinit, hmarshal, hunmarshal, hsize,
        rfl⟩
      refine ⟨_, ⟨fields, hfields, rfl⟩, init, hinit, marshal, hmarshal, unmarshal, hunmarshal, size,
        hsize, congrArg Except.ok (congrArg unlines ?_)⟩
      simp only [bodyLines, headLines, methodLines, List.append_assoc, List.cons_append,
        List.nil_append]

theorem Go.classText_comment {package text : String} (hne : q.description.comment ≠ "")
    (h : classText package q = .ok text) :
    HasLine text s!"// {q.description.name} {q.description.comment}" := by
  simp only [classText, bind_eq_ok, body_eq_ok] at h
  obtain ⟨_, ⟨fields, init, marshal, unmarshal, size, -, -, -, -, -, -, rfl⟩, htext⟩ := h
  simp only [pure, Except.pure, Except.ok.injEq] at htext
  rw [← htext, ← unlines_append]
  apply hasLine_unlines
  apply List.mem_append_right
  unfold bodyLines
  repeat apply List.mem_append_left
  rw [if_neg (by simpa using hne)]
  exact List.mem_singleton_self _

end Lines

end Target

open Text Target

/-- What becomes of the comment of a class. In Python it is a docstring, in Objective-C a block
comment and in Go a line comment. The first two may not be closed where they should be. -/
structure ClassPlan.Commented (q : ClassPlan) (comment : String) : Prop where
  python : ∀ files, Target.python.classFiles q = .ok files → ∃ file, files = [file] ∧
    HasLine file.content ("    " ++ Python.docLine "" (Python.docText comment))
  docstring : Python.IsDocstring (Python.docLine "" (Python.docText comment)) ↔
    Python.Closable (Python.docChars comment.toList)
  objectiveC : ∀ files, Target.objectiveC.classFiles q = .ok files → ∃ declarations implementation,
    files = [declarations, implementation] ∧
      HasLine declarations.content (ObjectiveC.docComment comment)
  block : ObjectiveC.IsBlockComment (ObjectiveC.docComment comment) ↔
    ¬ ['*', '/'] <:+: comment.toList
  go : ∀ package text, Go.classText package q = .ok text →
    HasLine text s!"// {q.name} {comment}"
  line : (∀ c ∈ s!"// {q.name} {comment}".toList, c ∉ lineBreaks) ↔
    ∀ c ∈ q.name.toList, c ∉ lineBreaks

theorem ClassPlan.comment_commented {q : ClassPlan} {s : String}
    (hcomment : q.description.comment = cleanComment s) (hne : cleanComment s ≠ "") :
    q.Commented (cleanComment s) where
  python files h := hcomment ▸ Python.classFiles_comment (hcomment ▸ hne) h
  docstring := Python.isDocstring_iff _
  objectiveC files h := hcomment ▸ ObjectiveC.classFiles_comment (hcomment ▸ hne) h
  block := ObjectiveC.isBlockComment_iff _
  go package text h := hcomment ▸ Go.classText_comment (hcomment ▸ hne) h
  line := by
    have hchars : s!"// {q.name} {cleanComment s}".toList =
        '/' :: '/' :: ' ' :: (q.name.toList ++ ' ' :: (cleanComment s).toList) := by
      simp only [String.toList_append, List.append_assoc]
      rfl
    rw [hchars]
    constructor
    · intro h c hc
      exact h c (by simp [hc])
    · intro h c hc
      simp only [List.mem_cons, List.mem_append] at hc
      rcases hc with rfl | rfl | rfl | hc | rfl | hc
      · decide
      · decide
      · decide
      · exact h c hc
      · decide
      · exact cleanComment_lineBreak hc

namespace Quotation

def comment : String := "see \"a/*/b\""

def source : Registry := .gather [{ name := "Glob", comment }]

def program : Program := (Program.compile? source {}).getD ⟨{}, []⟩

def plan : ClassPlan := (program.plan? "Glob").getD { description := {} }

theorem plan_evaluated : plan.name = "Glob" ∧ plan.description.comment = comment ∧
    cleanComment comment = comment ∧ (Target.python.classFiles plan).toOption.isSome = true ∧
    (Target.objectiveC.classFiles plan).toOption.isSome = true := by
  decide +kernel

end Quotation

theorem quotation_commented : Quotation.plan.Commented Quotation.comment ∧
    ¬ Python.IsDocstring (Python.docLine "" (Python.docText Quotation.comment)) ∧
    ¬ ObjectiveC.IsBlockComment (ObjectiveC.docComment Quotation.comment) := by
  obtain ⟨-, hcomment, hclean, -, -⟩ := Quotation.plan_evaluated
  have h : Quotation.plan.Commented (cleanComment Quotation.comment) :=
    ClassPlan.comment_commented (hclean ▸ hcomment) (by rw [hclean]; decide)
  rw [hclean] at h
  refine ⟨h, fun hdoc => ?_, fun hblock => h.block.mp hblock ?_⟩
  · have hquote := (h.docstring.mp hdoc).quote "see \"a/*/b".toList (by decide)
    revert hquote
    decide
  · decide

end PduCompiler
