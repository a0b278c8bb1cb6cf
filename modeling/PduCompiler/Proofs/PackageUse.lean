import PduCompiler.Proofs.PackageImports

/-! The part of a Go body that is code. If the names in a class are plain, what is not code is known:
comments and descriptions, names in comments, and the places that errors tell of. -/

namespace PduCompiler.Target.Go

open Text IntLiteral

inductive Part where
  | code | quoted | comment
  deriving DecidableEq, Repr

/-- What is code in a source without block comments and raw strings. Quotes are kept, and nothing
between them is. -/
def codeFrom : Part → List Char → List Char
  | _, [] => []
  | .code, '/' :: '/' :: rest => codeFrom .comment rest
  | .code, '"' :: rest => '"' :: codeFrom .quoted rest
  | .code, c :: rest => c :: codeFrom .code rest
  | .quoted, '\\' :: _ :: rest => codeFrom .quoted rest
  | .quoted, '"' :: rest => '"' :: codeFrom .code rest
  | .quoted, _ :: rest => codeFrom .quoted rest
  | .comment, '\n' :: rest => '\n' :: codeFrom .code rest
  | .comment, _ :: rest => codeFrom .comment rest

def delimiters : List Char := ['"', '\'', '\x60', '/', '\\', '\n']

def isPlain (s : String) : Bool := s.toList.all fun c => !delimiters.contains c

section Scanning

variable {s rest : List Char}

theorem codeFrom_plain (hs : ∀ c ∈ s, c ≠ '/' ∧ c ≠ '"') :
    codeFrom .code (s ++ rest) = s ++ codeFrom .code rest := by
  induction s with
  | nil => rfl
  | cons c s ih =>
    obtain ⟨hslash, hquote⟩ := hs c List.mem_cons_self
    rw [List.cons_append, codeFrom.eq_4 _ _ (fun _ h _ => hslash h) hquote,
      ih fun c' hc' => hs c' (List.mem_cons_of_mem _ hc'), List.cons_append]

theorem codeFrom_comment (hs : '\n' ∉ s) :
    codeFrom .comment (s ++ '\n' :: rest) = '\n' :: codeFrom .code rest := by
  induction s with
  | nil => simp [codeFrom]
  | cons c s ih =>
    obtain ⟨hc, hs⟩ := List.ne_and_not_mem_of_not_mem_cons hs
    rw [List.cons_append, codeFrom.eq_9 _ _ (Ne.symm hc), ih hs]

theorem codeFrom_quoted (hs : ∀ c ∈ s, c ≠ '\\' ∧ c ≠ '"') :
    codeFrom .quoted (s ++ '"' :: rest) = '"' :: codeFrom .code rest := by
  induction s with
  | nil => simp [codeFrom]
  | cons c s ih =>
    obtain ⟨hback, hquote⟩ := hs c List.mem_cons_self
    rw [List.cons_append, codeFrom.eq_7 _ _ (fun _ _ h _ => hback h) hquote,
      ih fun c' hc' => hs c' (List.mem_cons_of_mem _ hc')]

end Scanning

/-- How a line is made up: what of it is code, and the texts in it that are not. -/
inductive Reads : String → List Char → List String → Prop
  | code {line : String} (h : isPlain line = true) : Reads line line.toList []
  | note {line front text : String} (hline : line = front ++ "//" ++ text)
      (hfront : isPlain front = true) (htext : '\n' ∉ text.toList) :
      Reads line front.toList [text]
  | quote {line front text back : String} (hline : line = front ++ "\"" ++ text ++ "\"" ++ back)
      (hfront : isPlain front = true) (htext : isPlain text = true) (hback : isPlain back = true) :
      Reads line (front.toList ++ '"' :: '"' :: back.toList) [text]

section Lines

variable {mark rest code : List Char} {line : String} {lines asides known : List String}

theorem ne_of_isPlain {s : String} (h : isPlain s = true) {c : Char} (hc : c ∈ s.toList) :
    c ∉ delimiters := by
  have hchar := List.all_eq_true.mp h c hc
  simpa using hchar

theorem codeFrom_isPlain {s : String} (h : isPlain s = true) :
    codeFrom .code (s.toList ++ rest) = s.toList ++ codeFrom .code rest := by
  refine codeFrom_plain fun c hc => ⟨?_, ?_⟩
  · rintro rfl
    exact ne_of_isPlain h hc (by decide)
  · rintro rfl
    exact ne_of_isPlain h hc (by decide)

theorem Reads.scan (h : Reads line code asides) :
    codeFrom .code (line.toList ++ '\n' :: rest) = code ++ '\n' :: codeFrom .code rest := by
  have hend : codeFrom .code ('\n' :: rest) = '\n' :: codeFrom .code rest := by
    simp [codeFrom]
  cases h with
  | code h => rw [codeFrom_isPlain h, hend]
  | @note front text hline hfront htext =>
    have hchars : line.toList ++ '\n' :: rest =
        front.toList ++ '/' :: '/' :: (text.toList ++ '\n' :: rest) := by
      rw [hline, String.toList_append, String.toList_append, List.append_assoc, List.append_assoc]
      rfl
    rw [hchars, codeFrom_isPlain hfront, codeFrom, codeFrom_comment htext]
  | @quote front text back hline hfront htext hback =>
    have hchars : line.toList ++ '\n' :: rest =
        front.toList ++ '"' :: (text.toList ++ '"' :: (back.toList ++ '\n' :: rest)) := by
      simp only [hline, String.toList_append, List.append_assoc]
      rfl
    have hquoted : ∀ c ∈ text.toList, c ≠ '\\' ∧ c ≠ '"' := by
      intro c hc
      refine ⟨?_, ?_⟩
      · rintro rfl
        exact ne_of_isPlain htext hc (by decide)
      · rintro rfl
        exact ne_of_isPlain htext hc (by decide)
    rw [hchars, codeFrom_isPlain hfront, codeFrom, codeFrom_quoted hquoted, codeFrom_isPlain hback,
      hend]
    simp

theorem Reads.mark_iff (h : Reads line code asides) (hm : IsMark mark) :
    mark <:+: line.toList ↔ mark <:+: code ∨ Mentions mark asides := by
  have hslash : '/' ∉ mark := hm.apart _ (by decide)
  have hquote : '"' ∉ mark := hm.apart _ (by decide)
  cases h with
  | code h => simp [not_mentions_nil]
  | @note front text hline hfront htext =>
    have hchars : line.toList = front.toList ++ '/' :: ([] ++ '/' :: text.toList) := by
      simp only [hline, String.toList_append, List.append_assoc]
      rfl
    rw [hchars, mark_separated hslash, mark_separated hslash, mentions_cons]
    simp [not_mentions_nil, hm.ne_nil]
  | @quote front text back hline hfront htext hback =>
    have hchars : line.toList = front.toList ++ '"' :: (text.toList ++ '"' :: back.toList) := by
      simp only [hline, String.toList_append, List.append_assoc]
      rfl
    have hcode : mark <:+: front.toList ++ '"' :: '"' :: back.toList ↔
        mark <:+: front.toList ∨ mark <:+: back.toList := by
      rw [mark_separated hquote, ← List.nil_append ('"' :: back.toList),
        mark_separated hquote]
      simp [hm.ne_nil]
    rw [hchars, mark_separated hquote, mark_separated hquote, hcode, mentions_cons]
    simp only [not_mentions_nil, or_false]
    rw [or_comm (a := mark <:+: text.toList), or_assoc]

/-- What a line mentions besides its code is among some known texts. -/
def Tells (mark : List Char) (known : List String) (line : String) : Prop :=
  ∃ code asides, Reads line code asides ∧ (Mentions mark asides → Mentions mark known)

theorem Tells.of_isPlain (h : isPlain line = true) : Tells mark known line :=
  ⟨_, [], .code h, fun hm => absurd hm not_mentions_nil⟩

theorem Tells.unlines (hm : IsMark mark) (h : ∀ line ∈ lines, Tells mark known line) :
    (mark <:+: (unlines lines).toList →
      mark <:+: codeFrom .code (unlines lines).toList ∨ Mentions mark known) ∧
    (mark <:+: codeFrom .code (unlines lines).toList → mark <:+: (unlines lines).toList) := by
  induction lines with
  | nil => exact ⟨.inl, id⟩
  | cons line lines ih =>
    obtain ⟨code, asides, hreads, hasides⟩ := h line List.mem_cons_self
    obtain ⟨hforth, hback⟩ := ih fun line' hline' => h line' (List.mem_cons_of_mem _ hline')
    have hbreak : '\n' ∉ mark := hm.notMem rfl
    have hchars : (Target.unlines (line :: lines)).toList =
        line.toList ++ '\n' :: (Target.unlines lines).toList := by
      rw [unlines_cons, String.toList_append, String.toList_append, List.append_assoc]
      rfl
    rw [hchars, hreads.scan, mark_separated hbreak, mark_separated hbreak, hreads.mark_iff hm]
    constructor
    · rintro ((h | h) | h)
      · exact .inl (.inl h)
      · exact .inr (hasides h)
      · exact (hforth h).imp_left .inr
    · rintro (h | h)
      · exact .inl (.inl h)
      · exact .inr (hback h)

end Lines

section Texts

@[simp] theorem isPlain_append (s t : String) : isPlain (s ++ t) = (isPlain s && isPlain t) := by
  simp [isPlain]

@[simp] theorem isPlain_toString (s : String) : isPlain (toString s) = isPlain s := rfl

def isPlainName (s : String) : Bool := isPlain s && !s.toList.contains '.'

/-- Of a literal the characters are known, so that its bytes need not be decoded. -/
theorem isPlain_ofList {l : List Char} (h : l.all (!delimiters.contains ·) = true) :
    isPlain (String.ofList l) = true := by
  rwa [isPlain, String.toList_ofList]

theorem isPlainName_ofList {l : List Char} (h : l.all (!delimiters.contains ·) = true)
    (hpoint : l.contains '.' = false) : isPlainName (String.ofList l) = true := by
  rw [isPlainName, isPlain_ofList h, String.toList_ofList, hpoint]
  rfl

theorem isPlain_of_name {s : String} (h : isPlainName s = true) : isPlain s = true :=
  (Bool.and_eq_true_iff.mp h).1

theorem point_of_name {s : String} (h : isPlainName s = true) : '.' ∉ s.toList := by
  have hpoint := (Bool.and_eq_true_iff.mp h).2
  simpa using hpoint

@[simp] theorem isPlainName_append {s t : String} :
    isPlainName (s ++ t) = true ↔ isPlainName s = true ∧ isPlainName t = true := by
  simp only [isPlainName, isPlain_append, String.toList_append, Bool.and_eq_true,
    Bool.not_eq_true', List.contains_eq_mem, decide_eq_false_iff_not, List.mem_append, not_or]
  exact and_and_and_comm

@[simp] theorem isPlainName_toString (s : String) : isPlainName (toString s) = isPlainName s := rfl

theorem isPlainName_of_digits {s : String} (h : ∀ c ∈ s.toList, digitValue c < 36) :
    isPlainName s = true := by
  have hall : ('.' :: delimiters).all (fun c => digitValue c == 36) = true := by decide
  have hno : ∀ c ∈ s.toList, c ∉ '.' :: delimiters := by
    intro c hc hmem
    have hvalue := h c hc
    have hbad := List.all_eq_true.mp hall c hmem
    simp only [beq_iff_eq] at hbad
    omega
  have hpoint : '.' ∉ s.toList := fun hc => hno _ hc List.mem_cons_self
  have hplain : isPlain s = true := by
    refine List.all_eq_true.mpr fun c hc => ?_
    simpa using fun hmem => hno c hc (List.mem_cons_of_mem _ hmem)
  simp [isPlainName, hplain, hpoint]

theorem isPlainName_toDigits {base : Nat} (hlt : 1 < base) (hb : base ≤ 16) {letter : Char → Char}
    (hd : ∀ d < base, digitValue (letter d.digitChar) = d) (n : Nat) :
    isPlainName (String.ofList ((Nat.toDigits base n).map letter)) = true := by
  refine isPlainName_of_digits fun c hc => ?_
  rw [String.toList_ofList] at hc
  have hnumeral := (numeral_iff hb).mp (numeral_toDigits hlt hb hd n)
  exact (hnumeral.2.1 c hc).trans_le (hb.trans (by decide))

@[simp] theorem isPlain_nat (n : Nat) : isPlain n.repr = true := by
  have hdigits := @isPlainName_toDigits 10 (by decide) (by decide) id (by decide) n
  rw [List.map_id, ← Nat.toList_repr, String.ofList_toList] at hdigits
  exact isPlain_of_name hdigits

@[simp] theorem isPlain_int (z : Int) : isPlain z.repr = true := by
  cases z with
  | ofNat n => exact isPlain_nat n
  | negSucc n =>
    have hminus : isPlain "-" = true := rfl
    show isPlain ("-" ++ n.succ.repr) = true
    rw [isPlain_append, hminus, isPlain_nat]
    rfl

@[simp] theorem isPlainName_hexLiteral (w : Word) : isPlainName (hexLiteral w) = true := by
  have hdigits := @isPlainName_toDigits 16 (by decide) (by decide) Char.toUpper (by decide) w.toNat
  have hupper : (String.ofList (Nat.toDigits 16 w.toNat)).toUpper =
      String.ofList ((Nat.toDigits 16 w.toNat).map Char.toUpper) := by
    rw [← String.toList_inj, String.toList_ofList, String.toUpper, String.toList_map,
      String.toList_ofList]
  rw [hexLiteral, isPlainName_append, hupper]
  exact ⟨by decide, hdigits⟩

@[simp] theorem isPlain_hexLiteral (w : Word) : isPlain (hexLiteral w) = true :=
  isPlain_of_name (isPlainName_hexLiteral w)

@[simp] theorem isPlain_scalarType (t : TypeName) : isPlain (scalarType t) = true := by
  unfold scalarType
  cases t.scalar? with
  | none => rfl
  | some s => cases s <;> rfl

@[simp] theorem isPlain_unsignedType (t : TypeName) : isPlain (unsignedType t) = true := by
  simp +decide [unsignedType]

theorem isPlain_elementType {e : Element} (h : isPlain e.className = true) (pointer : Bool) :
    isPlain (elementType e pointer) = true := by
  unfold elementType
  split
  · split <;> simp +decide [h]
  · simp

theorem isPlain_appendExpr (t : Scalar) {value : String} (h : isPlain value = true) :
    isPlain (appendExpr t value) = true := by
  cases t <;> simp +decide [appendExpr, h]

theorem isPlain_takeExpr (t : Scalar) {source : String} (h : isPlain source = true) :
    isPlain (takeExpr t source) = true := by
  cases t <;> simp +decide [takeExpr, h]

end Texts

structure PlainAction (a : Action) : Prop where
  attr : isPlainName a.attr = true
  field : isPlain (fieldName a.attr) = true
  list : isPlain (fieldName a.list) = true
  count : isPlain (fieldName a.count) = true
  className : isPlain a.className = true
  owner : isPlainName a.owner = true
  value : isPlain (goLiteral a.type a.value) = true

def places (q : ClassPlan) : List String :=
  (q.unmarshal.filter fun a => [Op.read, .readArray, .readList].contains a.op).map fun a =>
    s!"{q.name}.{a.attr}"

section Steps

variable {mark : List Char} {known lines : List String} {a : Action}

theorem Tells.note (hm : IsMark mark) {line : String} (front text : String)
    (hline : line = front ++ "//" ++ text) (hfront : isPlain front = true)
    (htext : isPlainName text = true) : Tells mark known line := by
  have hbreak : '\n' ∉ text.toList := fun h =>
    ne_of_isPlain (isPlain_of_name htext) h (by decide)
  refine ⟨_, _, .note hline hfront hbreak, fun h => ?_⟩
  rw [mentions_cons, or_iff_left not_mentions_nil] at h
  exact absurd h (hm.quiet (point_of_name htext))

theorem Tells.remark (hm : IsMark mark) {front text : String} (hfront : isPlain front = true)
    (htext : isPlainName text = true) : Tells mark known (front ++ " // " ++ text) := by
  refine .note hm (front ++ " ") (" " ++ text) ?_ (by simp +decide [hfront])
    (by simp +decide [htext])
  simp only [← String.toList_inj, String.toList_append, List.append_assoc]
  rfl

theorem Tells.error (hm : IsMark mark) {name attr : String} (front after back : String)
    (hname : isPlainName name = true) (hattr : isPlainName attr = true)
    (hknown : s!"{name}.{attr}" ∈ known) {opening ending : String}
    (hopening : opening = front ++ "\"") (hending : ending = after ++ "\"" ++ back) {c : Char}
    {more : List Char} (hafter : after.toList = c :: more) (hc : c ∈ separators)
    (hfront : isPlain front = true) (hback : isPlain back = true)
    (hplain : isPlainName after = true) :
    Tells mark known s!"{opening}{name}.{attr}{ending}" := by
  have hline : s!"{opening}{name}.{attr}{ending}" =
      front ++ "\"" ++ (name ++ "." ++ attr ++ after) ++ "\"" ++ back := by
    show opening ++ name ++ "." ++ attr ++ ending = _
    simp only [hopening, hending, String.append_assoc]
  have htext : isPlain (name ++ "." ++ attr ++ after) = true := by
    simp +decide [isPlain_of_name hname, isPlain_of_name hattr, isPlain_of_name hplain]
  refine ⟨_, _, .quote hline hfront htext hback, fun h => ?_⟩
  rw [mentions_cons, or_iff_left not_mentions_nil, String.toList_append, hafter,
    mark_separated (hm.apart c hc)] at h
  have hmore : '.' ∉ more := by
    have hpoint := point_of_name hplain
    rw [hafter] at hpoint
    exact fun h => hpoint (List.mem_cons_of_mem _ h)
  exact ⟨_, hknown, h.resolve_right (hm.quiet hmore)⟩

theorem initStep_tells (hm : IsMark mark) (ha : PlainAction a) (h : initStep a = some lines) :
    ∀ line ∈ lines, Tells mark known line := by
  have hassign : Tells mark known
      s!"\tp.{fieldName a.attr} = {goLiteral a.type a.value} // inherited from {a.owner}" := by
    refine .note hm s!"\tp.{fieldName a.attr} = {goLiteral a.type a.value} "
      s!" inherited from {a.owner}" ?_ (by simp +decide [ha.field, ha.value])
      (by simp +decide [ha.owner])
    simp only [← String.toList_inj, String.toList_append, List.append_assoc]
    rfl
  unfold initStep at h
  split at h
  case h_3 =>
    cases h
    simpa using hassign
  all_goals cases h
  all_goals
    simp +decide [Tells.of_isPlain, ha.field, ha.value, ha.className, isPlain_elementType]

theorem marshalStep_tells (hm : IsMark mark) (t : Scalar) (ha : PlainAction a)
    (h : marshalStep t a = some lines) : ∀ line ∈ lines, Tells mark known line := by
  have hname : isPlain t.name = true := by cases t <;> rfl
  unfold marshalStep at h
  split at h
  case h_3 =>
    cases h
    rw [List.forall_mem_singleton]
    exact .remark hm (by simp +decide [isPlain_appendExpr, ha.list, hname]) ha.attr
  all_goals cases h
  all_goals
    simp +decide [Tells.of_isPlain, ha.field, ha.className, isPlain_appendExpr]

theorem sizeStep_tells (hm : IsMark mark) (ha : PlainAction a) (h : sizeStep a = some lines) :
    ∀ line ∈ lines, Tells mark known line := by
  unfold sizeStep at h
  split at h
  case h_2 =>
    cases h
    rw [List.forall_mem_singleton]
    exact .remark hm (by simp +decide) ha.attr
  all_goals cases h
  all_goals
    simp +decide [Tells.of_isPlain, ha.field, ha.className]

section Unmarshal

variable {name attr : String}

theorem shortLines_tells (hm : IsMark mark) (hname : isPlainName name = true)
    (hattr : isPlainName attr = true) (hknown : s!"{name}.{attr}" ∈ known) (need : Int) :
    ∀ line ∈ shortLines name attr need, Tells mark known line := by
  simp only [shortLines, List.forall_mem_cons, List.not_mem_nil, false_implies, implies_true,
    and_true]
  refine ⟨.of_isPlain (by simp +decide), ?_, .of_isPlain (isPlain_ofList (by decide))⟩
  exact .error hm "\t\treturn nil, fmt.Errorf(" ": %w" ", io.ErrUnexpectedEOF)" hname hattr hknown
    (c := ':') (by decide) (by decide) rfl (by decide) (by decide) (by decide) (by decide)

theorem delegateLines_tells {indent target : String} (hindent : isPlain indent = true)
    (htarget : isPlain target = true) :
    ∀ line ∈ delegateLines indent target, Tells mark known line := by
  simp +decide [delegateLines, Tells.of_isPlain, hindent, htarget]

theorem unmarshalStep_tells (hm : IsMark mark) (t : Scalar) (ha : PlainAction a)
    (hname : isPlainName name = true)
    (hknown : [Op.read, .readArray, .readList].contains a.op = true → s!"{name}.{a.attr}" ∈ known)
    (h : unmarshalStep name t a = some lines) : ∀ line ∈ lines, Tells mark known line := by
  have hshort := fun hop => shortLines_tells hm hname ha.attr (hknown hop)
  unfold unmarshalStep at h
  split at h
  · cases h
    exact delegateLines_tells (by decide) (by simp +decide [ha.className])
  · next hop =>
    cases h
    rw [List.forall_mem_append]
    refine ⟨hshort (by rw [hop]; rfl) _, ?_⟩
    simp +decide [Tells.of_isPlain, ha.field, isPlain_takeExpr]
  · cases h
    exact delegateLines_tells (by decide) (by simp +decide [ha.field])
  · next hop =>
    cases h
    rw [List.forall_mem_append]
    refine ⟨hshort (by rw [hop]; rfl) _, ?_⟩
    simp +decide [Tells.of_isPlain, ha.field, isPlain_takeExpr]
  · cases h
    rw [List.forall_mem_append, List.forall_mem_append]
    refine ⟨⟨?_, delegateLines_tells (by decide) (by simp +decide [ha.field])⟩, ?_⟩
    · simp +decide [Tells.of_isPlain, ha.field]
    · simp +decide [Tells.of_isPlain]
  · next hop =>
    cases h
    simp only [List.forall_mem_cons, List.not_mem_nil, false_implies, implies_true, and_true]
    refine ⟨.of_isPlain (by simp +decide [ha.field]), .of_isPlain (by simp +decide [ha.count]),
      .of_isPlain (by simp +decide), ?_, .of_isPlain (isPlain_ofList (by decide)),
      .of_isPlain (by simp +decide [ha.field, isPlain_takeExpr]), .of_isPlain (by simp +decide),
      .of_isPlain (isPlain_ofList (by decide))⟩
    exact .error hm "\t\t\treturn nil, fmt.Errorf(" "[%d]: %w" ", i, io.ErrUnexpectedEOF)" hname
      ha.attr (hknown (by rw [hop]; rfl)) (c := '[') (by decide) (by decide) rfl (by decide)
      (by decide) (by decide) (by decide)
  · cases h
    rw [List.forall_mem_append, List.forall_mem_append]
    refine ⟨⟨?_, delegateLines_tells (by decide) (by decide)⟩, ?_⟩
    · simp +decide [Tells.of_isPlain, ha.field, ha.count, ha.className]
    · simp +decide [Tells.of_isPlain, ha.field]
  · cases h

end Unmarshal

end Steps

/-- What a class brings into code is plain, and its comments and descriptions are on one line. -/
structure PlainPlan (q : ClassPlan) : Prop where
  name : isPlainName q.name = true
  parent : isPlain q.description.parent = true
  attributes : ∀ a ∈ q.description.attributes, isPlain (fieldName a.name) = true ∧
    ∀ type ∈ fieldType? a, isPlain type = true
  actions : ∀ a ∈ q.init ++ q.marshal ++ q.unmarshal ++ q.size, PlainAction a
  bitFields : ∀ b ∈ q.bitFields,
    isPlainName (capitalized b.name) = true ∧ isPlainName (fieldName b.field) = true
  prose : ∀ s ∈ q.prose, '\n' ∉ s.toList

section Bodies

variable {mark : List Char} {q : ClassPlan} {known lines : List String} {actions : List Action}

theorem mem_flatten_mapM {f : Action → Except RenderError (List String)}
    (h : List.flatten <$> actions.mapM f = .ok lines) :
    (∀ line ∈ lines, ∃ a ∈ actions, ∃ part, f a = .ok part ∧ line ∈ part) ∧
      ∀ a ∈ actions, ∃ part, f a = .ok part ∧ ∀ line ∈ part, line ∈ lines := by
  cases hparts : actions.mapM f with
  | error e =>
    rw [hparts] at h
    cases h
  | ok parts =>
    rw [hparts] at h
    cases h
    rw [mapM_eq_ok] at hparts
    constructor
    · intro line hline
      obtain ⟨part, hpart, hmem⟩ := List.mem_flatten.mp hline
      obtain ⟨a, ha, hf⟩ := forall₂_of_mem hparts.flip hpart
      exact ⟨a, ha, part, hf, hmem⟩
    · intro a ha
      obtain ⟨part, hpart, hf⟩ := forall₂_of_mem hparts ha
      exact ⟨part, hf, fun line hline => List.mem_flatten.mpr ⟨part, hpart, hline⟩⟩

theorem linesOf_tells {method : Method} {step : Action → Option (List String)}
    (h : linesOf q method actions step = .ok lines)
    (hstep : ∀ a ∈ actions, ∀ part, step a = some part → ∀ line ∈ part, Tells mark known line) :
    ∀ line ∈ lines, Tells mark known line := by
  intro line hline
  obtain ⟨a, ha, part, hpart, hmem⟩ := (mem_flatten_mapM h).1 line hline
  cases hs : step a with
  | none => simp [hs] at hpart
  | some part' =>
    simp only [hs, Except.ok.injEq] at hpart
    exact hstep a ha part' hs line (hpart ▸ hmem)

theorem step_of_typed {isScalar : Op → Bool} {step : Scalar → Action → Option (List String)}
    {method : Method} {a : Action} {part : List String} (h : (match a.type.scalar? with
      | none => if isScalar a.op then .error (.untyped q.name a.type)
        else (step .uint8 a).elim (.error (.unexpected q.name method a.op)) .ok
      | some t => (step t a).elim (.error (.unexpected q.name method a.op)) .ok :
        Except RenderError (List String)) = .ok part) : ∃ t, step t a = some part := by
  have helim : ∀ t, (step t a).elim (.error (.unexpected q.name method a.op) :
      Except RenderError (List String)) .ok = .ok part → step t a = some part := by
    intro t ht
    cases hs : step t a with
    | none => simp [hs] at ht
    | some part' => simpa [hs] using ht
  split at h
  · split at h
    · cases h
    · exact ⟨_, helim _ h⟩
  · exact ⟨_, helim _ h⟩

theorem typedLines_tells {method : Method} {isScalar : Op → Bool}
    {step : Scalar → Action → Option (List String)}
    (h : typedLines q method actions isScalar step = .ok lines)
    (hstep : ∀ a ∈ actions, ∀ t part, step t a = some part →
      ∀ line ∈ part, Tells mark known line) : ∀ line ∈ lines, Tells mark known line := by
  intro line hline
  obtain ⟨a, ha, part, hpart, hmem⟩ := (mem_flatten_mapM h).1 line hline
  obtain ⟨t, ht⟩ := step_of_typed hpart
  exact hstep a ha t part ht line hmem

def pointsEnd : List Char → Bool
  | '.' :: c :: rest => isBlank c && pointsEnd (c :: rest)
  | _ :: rest => pointsEnd rest
  | [] => true

theorem pointsEnd_append {s t : List Char} (hs : '.' ∉ s) :
    pointsEnd (s ++ t) = pointsEnd t := by
  induction s with
  | nil => rfl
  | cons c s ih =>
    obtain ⟨hc, hs⟩ := List.ne_and_not_mem_of_not_mem_cons hs
    rw [List.cons_append, pointsEnd.eq_2 _ _ (fun _ _ h => absurd h.symm hc), ih hs]

theorem IsMark.quiet_ends (hm : IsMark mark) {s : List Char} (hs : pointsEnd s = true) :
    ¬ mark <:+: s := by
  intro hin
  obtain ⟨c, hpoint⟩ := hm.point
  have hc : isBlank c = false := hm.blank c (hpoint.subset (by simp))
  have hpair := hpoint.trans hin
  clear hin hpoint
  induction s using pointsEnd.induct with
  | case1 c' s ih =>
    rw [pointsEnd, Bool.and_eq_true] at hs
    rcases List.infix_cons_iff.mp hpair with ⟨t, ht⟩ | hpair
    · obtain ⟨rfl, -⟩ := List.cons.inj (List.cons.inj ht).2
      rw [hc] at hs
      cases hs.1
    · exact ih hs.2 hpair
  | case2 c' s hno ih =>
    rw [pointsEnd.eq_2 _ _ hno] at hs
    rcases List.infix_cons_iff.mp hpair with ⟨t, ht⟩ | hpair
    · obtain ⟨hc', hs'⟩ := List.cons.inj ht
      exact hno c t hc'.symm hs'.symm
    · exact ih hs hpair
  | case3 => simp at hpair

theorem Tells.sentence (hm : IsMark mark) {line : String} (front text ending : String)
    (hline : line = front ++ "//" ++ (text ++ ending)) (hfront : isPlain front = true)
    (htext : isPlainName text = true) (hending : isPlain ending = true)
    (hends : pointsEnd ending.toList = true) : Tells mark known line := by
  have hplain : isPlain (text ++ ending) = true := by
    simp [isPlain_of_name htext, hending]
  have hbreak : '\n' ∉ (text ++ ending).toList := fun h => ne_of_isPlain hplain h (by decide)
  refine ⟨_, _, .note hline hfront hbreak, fun h => ?_⟩
  rw [mentions_cons, or_iff_left not_mentions_nil, String.toList_append] at h
  exact absurd h (hm.quiet_ends ((pointsEnd_append (point_of_name htext)).trans hends))

theorem Tells.prose (hm : IsMark mark) {line : String} (front intro text : String)
    (hline : line = front ++ "//" ++ (intro ++ " " ++ text)) (hfront : isPlain front = true)
    (hintro : isPlainName intro = true) (hbreak : '\n' ∉ text.toList)
    (hknown : mark <:+: text.toList → Mentions mark known) : Tells mark known line := by
  have hchars : (intro ++ " " ++ text).toList = intro.toList ++ ' ' :: text.toList := by
    rw [String.toList_append, String.toList_append, List.append_assoc]
    rfl
  have hlines : '\n' ∉ (intro ++ " " ++ text).toList := by
    have hno : '\n' ∉ intro.toList := fun h =>
      ne_of_isPlain (isPlain_of_name hintro) h (by decide)
    simp [hchars, hno, hbreak]
  refine ⟨_, _, .note hline hfront hlines, fun h => ?_⟩
  rw [mentions_cons, or_iff_left not_mentions_nil, hchars,
    mark_separated (hm.notMem rfl), or_iff_right (hm.quiet (point_of_name hintro))] at h
  exact hknown h

theorem note_lineBreak {a : Attribute} (h : '\n' ∉ a.comment.toList) : '\n' ∉ (note a).toList := by
  unfold note
  split
  · intro hmem
    obtain ⟨⟨front, back, htext, -, -⟩, -⟩ :=
      trims_trimChars (a.comment ++ " (not serialized)").toList
    rw [trim, String.toList_ofList] at hmem
    have hall : '\n' ∈ (a.comment ++ " (not serialized)").toList := by
      rw [htext]
      exact List.mem_append_left _ (List.mem_append_right _ hmem)
    rw [String.toList_append, List.mem_append] at hall
    exact hall.elim h (by decide)
  · exact h

theorem commentLines_tells (hm : IsMark mark) (hq : PlainPlan q) (hprose : q.prose ⊆ known) :
    ∀ line ∈ (if q.description.comment == "" then []
      else [s!"// {q.description.name} {q.description.comment}"]) ++ headLines q.description,
      Tells mark known line := by
  have hcomment : q.description.comment ∈ q.prose := List.mem_cons_self
  have hname : isPlainName q.description.name = true := hq.name
  rw [List.forall_mem_append]
  constructor
  · split
    · simp
    · simp only [List.forall_mem_singleton]
      refine .prose hm "" s!" {q.description.name}" q.description.comment ?_ (by decide)
        (by simp +decide [hname]) (hq.prose _ hcomment) fun h => ⟨_, hprose hcomment, h⟩
      simp only [← String.toList_inj, String.toList_append, List.append_assoc]
      rfl
  · unfold headLines
    split
    · simp only [List.forall_mem_cons, List.not_mem_nil, false_implies, implies_true, and_true]
      exact ⟨.of_isPlain (by simp +decide [isPlain_of_name hname]),
        .of_isPlain (by simp +decide [hq.parent]), .of_isPlain (isPlain_ofList (by decide))⟩
    · simp only [List.forall_mem_singleton]
      exact .of_isPlain (by simp +decide [isPlain_of_name hname])

theorem fields_tells (hm : IsMark mark) (hq : PlainPlan q) (hprose : q.prose ⊆ known)
    (h : q.description.attributes.mapM (fieldLine q) = .ok lines) :
    ∀ line ∈ lines, Tells mark known line := by
  intro line hline
  obtain ⟨a, ha, hf⟩ := forall₂_of_mem (mapM_eq_ok.mp h).flip hline
  obtain ⟨type, htype, rfl⟩ := fieldLine_eq_ok.mp hf
  obtain ⟨hname, htypes⟩ := hq.attributes a ha
  have hcomment : a.comment ∈ q.prose := by
    simp only [ClassPlan.prose, List.cons_append, List.mem_cons, List.mem_append]
    exact .inr (.inl (List.mem_map_of_mem ha))
  have hplain : isPlain (declaration a type) = true := by
    simp +decide [declaration, hname, htypes type htype]
  unfold fieldText
  split
  · exact .of_isPlain hplain
  · refine .prose hm s!"{declaration a type} " "" (note a) ?_ (by simp +decide [hplain]) (by decide)
      (note_lineBreak (hq.prose _ hcomment)) fun h => ⟨_, hprose hcomment, (mark_note hm a).mp h⟩
    simp only [← String.toList_inj, String.toList_append, List.append_assoc]
    rfl

theorem methodLines_tells (hm : IsMark mark) {name : String} (hname : isPlainName name = true)
    {init marshal unmarshal size : List String} (hinit : ∀ line ∈ init, Tells mark known line)
    (hmarshal : ∀ line ∈ marshal, Tells mark known line)
    (hunmarshal : ∀ line ∈ unmarshal, Tells mark known line)
    (hsize : ∀ line ∈ size, Tells mark known line) :
    ∀ line ∈ methodLines name init marshal unmarshal size, Tells mark known line := by
  have hplain := isPlain_of_name hname
  have hclose : Tells mark known "\x7d" := .of_isPlain (isPlain_ofList (by decide))
  have hempty : Tells mark known "" := .of_isPlain (isPlain_ofList (by decide))
  have hnew : Tells mark known s!"// New{name} returns a {name} with its default values" := by
    refine .note hm "" s!" New{name} returns a {name} with its default values" ?_ (by decide)
      (by simp +decide [hname])
    simp only [← String.toList_inj, String.toList_append, List.append_assoc]
    rfl
  have hdecodes : Tells mark known
      "// UnmarshalFrom decodes the wire encoding at the start of buf and" :=
    .note hm "" " UnmarshalFrom decodes the wire encoding at the start of buf and" rfl (by decide)
      (isPlainName_ofList (by decide) (by decide))
  have hreturns : Tells mark known
      "// returns the remaining bytes. Lists are cleared before they are read." :=
    .sentence hm "" " returns the remaining bytes" ". Lists are cleared before they are read." rfl
      (by decide) (isPlainName_ofList (by decide) (by decide)) (isPlain_ofList (by decide))
      (by decide)
  have herror : ∀ line ∈ if occurs "err = " (unlines unmarshal) then ["\tvar err error"] else [],
      Tells mark known line := by
    split
    · simp only [List.forall_mem_singleton]
      exact .of_isPlain (isPlain_ofList (by decide))
    · simp
  unfold methodLines
  simp only [List.forall_mem_append, List.forall_mem_cons, List.not_mem_nil, false_implies,
    implies_true, and_true]
  refine ⟨⟨⟨⟨⟨⟨⟨⟨⟨⟨hclose, hempty, hnew, ?_, ?_⟩, hinit⟩, ?_, hclose, hempty, ?_, ?_⟩, hmarshal⟩,
    ?_, hclose, hempty, hdecodes, hreturns, ?_⟩, herror⟩, hunmarshal⟩,
    ?_, hclose, hempty, ?_, ?_, ?_⟩, hsize⟩, ?_, hclose, hempty⟩
  · exact .of_isPlain (by simp +decide [hplain])
  · exact .of_isPlain (by simp +decide [hplain])
  · exact .of_isPlain (isPlain_ofList (by decide))
  · exact .note hm "" " MarshalTo appends the wire encoding to buf" rfl (by decide)
      (isPlainName_ofList (by decide) (by decide))
  · exact .of_isPlain (by simp +decide [hplain])
  · exact .of_isPlain (isPlain_ofList (by decide))
  · exact .of_isPlain (by simp +decide [hplain])
  · exact .of_isPlain (isPlain_ofList (by decide))
  · exact .note hm "" " MarshalledSize returns the number of bytes MarshalTo appends" rfl
      (by decide) (isPlainName_ofList (by decide) (by decide))
  · exact .of_isPlain (by simp +decide [hplain])
  · exact .of_isPlain (isPlain_ofList (by decide))
  · exact .of_isPlain (isPlain_ofList (by decide))

theorem accessorLines_tells (hm : IsMark mark) {name : String} (hname : isPlain name = true)
    {b : BitAccessor} (hcap : isPlainName (capitalized b.name) = true)
    (hfield : isPlainName (fieldName b.field) = true) (hbreak : '\n' ∉ b.description.toList)
    (hknown : b.description ∈ known) :
    ∀ line ∈ accessorLines name b, Tells mark known line := by
  have hplain := isPlain_of_name hcap
  have hfieldPlain := isPlain_of_name hfield
  have hgetter : Tells mark known (getterText b
      (if b.description == "" then bitsText b else b.description)) := by
    split
    · refine .note hm "" s!" Get{capitalized b.name} returns {bitsText b}" ?_ (by decide)
        (by simp +decide [bitsText, hcap, hfield])
      simp only [getterText, ← String.toList_inj, String.toList_append, List.append_assoc]
      rfl
    · refine .prose hm "" s!" Get{capitalized b.name} returns" b.description ?_ (by decide)
        (by simp +decide [hcap]) hbreak fun h => ⟨_, hknown, h⟩
      simp only [getterText, ← String.toList_inj, String.toList_append, List.append_assoc]
      rfl
  have hclose : Tells mark known "\x7d" := .of_isPlain (isPlain_ofList (by decide))
  have hempty : Tells mark known "" := .of_isPlain (isPlain_ofList (by decide))
  unfold accessorLines
  simp only [List.forall_mem_cons, List.not_mem_nil, false_implies, implies_true, and_true]
  refine ⟨hgetter, ?_, ?_, hclose, hempty, ?_, ?_, ?_, hclose, hempty⟩
  · exact .of_isPlain (by simp +decide [hplain, hname])
  · split
    · exact .of_isPlain (by simp +decide [hfieldPlain])
    · exact .of_isPlain (by simp +decide [hfieldPlain])
  · refine .sentence hm "" (s!" Set{capitalized b.name} stores v at " ++ bitsText b)
      ". v is not masked." ?_ (by decide) (by simp +decide [bitsText, hcap, hfield]) (by decide)
      (by decide)
    simp only [bitsText, ← String.toList_inj, String.toList_append, List.append_assoc]
    rfl
  · exact .of_isPlain (by simp +decide [hplain, hname])
  · split
    · exact .of_isPlain (by simp +decide [hfieldPlain])
    · exact .of_isPlain (by simp +decide [hfieldPlain])

/-- Whatever of a body is not code is in a comment or description of the class, or in a place that
an error tells of, or has no mark in it. -/
theorem body_tells (hm : IsMark mark) (hq : PlainPlan q) {text : String}
    (h : body q = .ok text) : ∃ lines, unlines lines = text ∧
      ∀ line ∈ lines, Tells mark (q.prose ++ places q) line := by
  obtain ⟨fields, init, marshal, unmarshal, size, hfields, hinit, hmarshal, hunmarshal, hsize,
    -, htext⟩ := body_eq_ok.mp h
  refine ⟨_, htext, ?_⟩
  have hprose : q.prose ⊆ q.prose ++ places q := List.subset_append_left _ _
  have haction : ∀ a, (a ∈ q.init ∨ a ∈ q.marshal ∨ a ∈ q.unmarshal ∨ a ∈ q.size) →
      PlainAction a := fun a ha => hq.actions a (by simpa [or_assoc] using ha)
  unfold bodyLines
  rw [List.forall_mem_append, List.forall_mem_append, List.forall_mem_append]
  refine ⟨⟨⟨commentLines_tells hm hq hprose, fields_tells hm hq hprose hfields⟩,
    methodLines_tells hm hq.name ?_ ?_ ?_ ?_⟩, ?_⟩
  · exact linesOf_tells hinit fun a ha part hs => initStep_tells hm (haction a (.inl ha)) hs
  · exact typedLines_tells hmarshal fun a ha t part hs =>
      marshalStep_tells hm t (haction a (.inr (.inl ha))) hs
  · refine typedLines_tells hunmarshal fun a ha t part hs => unmarshalStep_tells hm t
      (haction a (.inr (.inr (.inl ha)))) hq.name (fun hop => ?_) hs
    exact List.mem_append_right _ (List.mem_map_of_mem (List.mem_filter.mpr ⟨ha, hop⟩))
  · exact linesOf_tells hsize fun a ha part hs =>
      sizeStep_tells hm (haction a (.inr (.inr (.inr ha)))) hs
  · intro line hline
    obtain ⟨b, hb, hmem⟩ := List.mem_flatMap.mp hline
    obtain ⟨hcap, hfield⟩ := hq.bitFields b hb
    have hdescription : b.description ∈ q.prose :=
      List.mem_append_right _ (List.mem_map_of_mem hb)
    exact accessorLines_tells hm (isPlain_of_name hq.name) hcap hfield (hq.prose _ hdescription)
      (hprose hdescription) line hmem

theorem unmarshalStep_place {name : String} {t : Scalar} {a : Action}
    (hop : [Op.read, .readArray, .readList].contains a.op = true)
    (h : unmarshalStep name t a = some lines) :
    ∃ line ∈ lines, s!"{name}.{a.attr}".toList <:+: line.toList := by
  have hshort : ∀ need, ∃ line ∈ shortLines name a.attr need,
      s!"{name}.{a.attr}".toList <:+: line.toList := by
    intro need
    refine ⟨_, List.mem_of_getElem? (i := 1) rfl, "\t\treturn nil, fmt.Errorf(\"".toList,
      ": %w\", io.ErrUnexpectedEOF)".toList, ?_⟩
    simp only [String.toList_append, List.append_assoc]
    rfl
  have hops : a.op = .read ∨ a.op = .readArray ∨ a.op = .readList := by
    simpa using hop
  unfold unmarshalStep at h
  rcases hops with hop | hop | hop
  · rw [hop] at h
    cases h
    obtain ⟨line, hline, hplace⟩ := hshort t.width
    exact ⟨line, List.mem_append_left _ hline, hplace⟩
  · rw [hop] at h
    cases h
    obtain ⟨line, hline, hplace⟩ := hshort (wrap (a.length * t.width))
    exact ⟨line, List.mem_append_left _ hline, hplace⟩
  · rw [hop] at h
    cases h
    refine ⟨_, List.mem_of_getElem? (i := 3) rfl, "\t\t\treturn nil, fmt.Errorf(\"".toList,
      "[%d]: %w\", i, io.ErrUnexpectedEOF)".toList, ?_⟩
    simp only [String.toList_append, List.append_assoc]
    rfl

theorem mentions_places (hm : IsMark mark) {text : String} (h : body q = .ok text)
    (hplaces : Mentions mark (places q)) : mark <:+: text.toList := by
  obtain ⟨fields, init, marshal, unmarshal, size, -, -, -, hunmarshal, -, -, rfl⟩ :=
    body_eq_ok.mp h
  obtain ⟨_, hplace, hin⟩ := hplaces
  obtain ⟨a, ha, rfl⟩ := List.mem_map.mp hplace
  obtain ⟨ha, hop⟩ := List.mem_filter.mp ha
  obtain ⟨part, hpart, hlines⟩ := (mem_flatten_mapM hunmarshal).2 a ha
  obtain ⟨t, ht⟩ := step_of_typed hpart
  obtain ⟨line, hline, hplace⟩ := unmarshalStep_place hop ht
  have hmem : line ∈ methodLines q.name init marshal unmarshal size := by
    unfold methodLines
    iterate 3 apply List.mem_append_left
    exact List.mem_append_right _ (hlines line hline)
  exact (mentions_bodyLines hm q _ _ _ _ _).mpr (.inl (.inr ⟨line, hmem, hin.trans hplace⟩))

/-- In a plain class, a mark is in the body if it is in its code, in a comment or description, or in
a place that an error tells of. -/
theorem body_code (hm : IsMark mark) (hq : PlainPlan q) {text : String} (h : body q = .ok text) :
    mark <:+: text.toList ↔ mark <:+: codeFrom .code text.toList ∨
      Mentions mark q.prose ∨ Mentions mark (places q) := by
  obtain ⟨quiet, -, hprose⟩ := body_silent h
  obtain ⟨lines, rfl, htells⟩ := body_tells hm hq h
  obtain ⟨hforth, hback⟩ := Tells.unlines hm htells
  rw [mentions_append] at hforth
  constructor
  · exact hforth
  · rintro (hcode | hmention | hplace)
    · exact hback hcode
    · exact (hprose mark hm).mpr (.inr hmention)
    · exact mentions_places hm h hplace

end Bodies

def Shows (entry : String × String) (texts : List String) : Prop :=
  Mentions entry.2.toList texts

/-- What decides on the imports of the file of a class with a given body. The quiet body is the one
without comments and descriptions. -/
structure ImportsDecided (q : ClassPlan) (text quiet : String) : Prop where
  file : ∀ package, classText package q =
    .ok (unlines (header ++ [s!"package {package}", ""] ++ importLines text) ++ text)
  silent : body q.silent = .ok quiet
  imported : ∀ entry ∈ packages, importLine entry.1 ∈ importLines text ↔
    importLine entry.1 ∈ importLines quiet ∨ Shows entry q.prose
  twin : ∀ q', q'.silent = q.silent → ∃ text', body q' = .ok text' ∧
    (importLines text' = importLines text ↔ ∀ entry ∈ packages,
      importLine entry.1 ∈ importLines quiet ∨ (Shows entry q'.prose ↔ Shows entry q.prose))
  code : PlainPlan q → ∀ entry ∈ packages, importLine entry.1 ∈ importLines text ↔
    entry.2.toList <:+: codeFrom .code text.toList ∨ Shows entry q.prose ∨ Shows entry (places q)

section Decided

variable {q q' : ClassPlan} {entry : String × String} {text quiet : String}

theorem importLine_mem_iff (h : entry ∈ packages) :
    importLine entry.1 ∈ importLines text ↔ entry.2.toList <:+: text.toList := by
  rw [mem_importLines h, occurs, occursIn_iff]

theorem imported_iff (h : body q = .ok text) (hquiet : body q.silent = .ok quiet)
    (hentry : entry ∈ packages) : importLine entry.1 ∈ importLines text ↔
      importLine entry.1 ∈ importLines quiet ∨ Shows entry q.prose := by
  obtain ⟨quiet', hquiet', hmarks⟩ := body_silent h
  cases Except.ok.inj (hquiet.symm.trans hquiet')
  rw [importLine_mem_iff hentry, importLine_mem_iff hentry]
  exact hmarks _ (isMark_of_mem hentry)

theorem importLines_twin (h : body q = .ok text) (hquiet : body q.silent = .ok quiet)
    (hsame : q'.silent = q.silent) : ∃ text', body q' = .ok text' ∧
      (importLines text' = importLines text ↔ ∀ entry ∈ packages,
        importLine entry.1 ∈ importLines quiet ∨ (Shows entry q'.prose ↔ Shows entry q.prose)) := by
  have hquiet' : body q'.silent = .ok quiet := hsame ▸ hquiet
  obtain ⟨text', h'⟩ := body_of_silent hquiet'
  refine ⟨text', h', ?_⟩
  rw [importLines_eq_iff]
  refine forall₂_congr fun entry hentry => ?_
  rw [Bool.eq_iff_iff, ← mem_importLines hentry, ← mem_importLines hentry,
    imported_iff h hquiet hentry, imported_iff h' hquiet' hentry]
  by_cases hin : importLine entry.1 ∈ importLines quiet
  · simp [hin]
  · simp [hin]

/-- Comments and descriptions decide on imports as code does: a package that only they mention is
imported, so that two classes that differ in them may have other imports, and a file may import what
it does not use. -/
theorem imports_decided (h : body q = .ok text) : ∃ quiet, ImportsDecided q text quiet := by
  obtain ⟨quiet, hquiet, -⟩ := body_silent h
  refine ⟨quiet, ?_, hquiet, fun entry hentry => imported_iff h hquiet hentry,
    fun q' hsame => importLines_twin h hquiet hsame, fun hq entry hentry => ?_⟩
  · intro package
    rw [classText, h]
    rfl
  · rw [importLine_mem_iff hentry]
    exact body_code (isMark_of_mem hentry) hq h

end Decided

end PduCompiler.Target.Go

namespace PduCompiler

open Target

namespace Remark

def source : Registry := .gather [{ name := "Remark", comment := "shown by fmt.Errorf(text)" }]

def program : Program := (Program.compile? source {}).getD ⟨{}, []⟩

def plan : ClassPlan := (program.plan? "Remark").getD { description := {} }

def expected : ClassPlan where
  description := { name := "Remark", parent := "root", comment := "shown by fmt.Errorf(text)" }

theorem plan_evaluated : plan = expected ∧ (Go.bodyLines expected.silent [] [] [] [] []).any
    (Go.occursIn "fmt.Errorf(".toList ·.toList) = false := by
  decide +kernel

theorem plan_plain : Go.PlainPlan plan := by
  rw [plan_evaluated.1]
  refine ⟨by decide, by decide, ?_, ?_, ?_, by decide⟩ <;> simp [expected]

theorem body_eq : Go.body plan = .ok (unlines (Go.bodyLines plan [] [] [] [] [])) ∧
    Go.body plan.silent = .ok (unlines (Go.bodyLines plan.silent [] [] [] [] [])) := by
  rw [plan_evaluated.1]
  exact ⟨Go.body_eq_ok.mpr ⟨[], [], [], [], [], rfl, rfl, rfl, rfl, rfl, rfl, rfl⟩,
    Go.body_eq_ok.mpr ⟨[], [], [], [], [], rfl, rfl, rfl, rfl, rfl, rfl, rfl⟩⟩

theorem silent_body :
    ¬ Mentions "fmt.Errorf(".toList (Go.bodyLines plan.silent [] [] [] [] []) := by
  rintro ⟨line, hline, hmark⟩
  rw [plan_evaluated.1] at hline
  exact List.any_eq_false.mp plan_evaluated.2 line hline (occursIn_iff.mpr hmark)

end Remark

/-- Without its comment the class does not import what it does not use. -/
theorem remark_importsDecided : ∃ text quiet, Go.ImportsDecided Remark.plan text quiet ∧
    Go.PlainPlan Remark.plan ∧ Go.importLine "fmt" ∈ Go.importLines text ∧
    Go.importLine "fmt" ∉ Go.importLines quiet := by
  obtain ⟨quiet, h⟩ := Go.imports_decided Remark.body_eq.1
  have hentry : ("fmt", "fmt.Errorf(") ∈ Go.packages := by decide
  have hprose : Go.Shows ("fmt", "fmt.Errorf(") Remark.plan.prose := by
    rw [Remark.plan_evaluated.1]
    exact ⟨"shown by fmt.Errorf(text)", List.mem_cons_self, by decide⟩
  refine ⟨_, quiet, h, Remark.plan_plain,
    (h.code Remark.plan_plain _ hentry).mpr (.inr (.inl hprose)), ?_⟩
  rw [← Except.ok.inj (Remark.body_eq.2.symm.trans h.silent), Go.importLine_mem_iff hentry,
    mark_unlines (by decide) (by decide)]
  exact Remark.silent_body

end PduCompiler
