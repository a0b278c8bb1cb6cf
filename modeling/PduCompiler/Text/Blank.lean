/-!
White space, by Unicode's property White_Space, and the two cuts made at it: the ends of a text are
trimmed, or a text is taken apart into its words. A comment is kept on one line with single blanks,
and markers left around it are taken off. A truth value is a single word.
-/

namespace PduCompiler.Text

def isBlank (c : Char) : Bool :=
  let n := c.toNat
  (0x09 ≤ n && n ≤ 0x0d) || n == 0x20 || n == 0x85 || n == 0xa0 || n == 0x1680 ||
    (0x2000 ≤ n && n ≤ 0x200a) || n == 0x2028 || n == 0x2029 || n == 0x202f || n == 0x205f ||
    n == 0x3000

def dropEndWhile (p : Char → Bool) (s : List Char) : List Char := (s.reverse.dropWhile p).reverse

def trimChars (s : List Char) : List Char := dropEndWhile isBlank (s.dropWhile isBlank)

def trim (s : String) : String := String.ofList (trimChars s.toList)

/-- The maximal runs of characters that do not satisfy `p`, with the run in progress first. -/
private def runsOutside (p : Char → Bool) : List Char → List Char → List (List Char)
  | [], [] => []
  | [], run => [run.reverse]
  | c :: rest, run =>
    if p c then
      if run.isEmpty then runsOutside p rest [] else run.reverse :: runsOutside p rest []
    else runsOutside p rest (c :: run)

private theorem runsOutside_spec {p : Char → Bool} {s run : List Char}
    (hrun : ∀ c ∈ run, p c = false) : ∀ w ∈ runsOutside p s run, ∀ c ∈ w, p c = false := by
  fun_induction runsOutside p s run with
  | case1 => simp
  | case2 run _ =>
    intro w hw c hc
    rw [List.mem_singleton.mp hw] at hc
    exact hrun c (List.mem_reverse.mp hc)
  | case3 c rest run _ _ ih => exact ih (by simp)
  | case4 c rest run _ _ ih =>
    intro w hw
    rcases List.mem_cons.mp hw with rfl | hw
    · exact fun c hc => hrun c (List.mem_reverse.mp hc)
    · exact ih (by simp) w hw
  | case5 c rest run hc ih =>
    refine ih fun c' hc' => ?_
    rcases List.mem_cons.mp hc' with rfl | hc'
    · simpa using hc
    · exact hrun c' hc'

def words (s : List Char) : List (List Char) := runsOutside isBlank s []

theorem isBlank_of_mem_words {s w : List Char} (hw : w ∈ words s) : ∀ c ∈ w, isBlank c = false :=
  runsOutside_spec (by simp) w hw

def trimEndOf (chars : List Char) (s : String) : String :=
  String.ofList (dropEndWhile (chars.contains ·) s.toList)

/-- The text without `/*` in front and `*/` behind, if it has both. The two may share a star. -/
def unwrapped (s : List Char) : List Char :=
  if ['/', '*'].isPrefixOf s && ['*', '/'].isSuffixOf s then
    let inner := s.drop 2
    if ['*', '/'].isSuffixOf inner then inner.take (inner.length - 2) else inner
  else s

def withoutSlashes (s : List Char) : List Char :=
  if ['/', '/'].isPrefixOf s then s.drop 2 else s

def joinedWords (s : List Char) : List Char := [' '].intercalate (words s)

def cleanComment (s : String) : String :=
  String.ofList (joinedWords (withoutSlashes (trimChars (unwrapped (trimChars s.toList)))))

def truthValue? (s : String) : Option Bool :=
  if ["1", "t", "T", "TRUE", "true", "True"].contains s then some true
  else if ["0", "f", "F", "FALSE", "false", "False"].contains s then some false
  else none

end PduCompiler.Text
