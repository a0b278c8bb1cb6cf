import PduCompiler.Layout
import PduCompiler.Proofs.Embedding
import PduCompiler.Proofs.SizeAgreement

/-! The exact number of bytes of attributes and classes, as a number without bound, where no dynamic
list makes it vary. As long as these numbers fit in 63 bits, the static size of a class is its exact
number of bytes. -/

namespace PduCompiler

theorem TypeName.sizeOf?_eq {t : TypeName} (h : t.isCanonical = true) :
    t.sizeOf? = some t.width := by
  obtain ⟨sc, hsc⟩ := Option.isSome_iff_exists.mp h
  obtain rfl := Scalar.name_of_ofName? hsc
  cases sc <;> rfl

namespace Registry

open Relation

def attributeBytes (classBytes : String → Option Nat) (a : Attribute) : Option Nat :=
  match a.kind with
  | some (.primitive q) => some q.type.width
  | some (.object name) => classBytes name
  | some (.fixedList n e) =>
    if e.isObject then (classBytes e.className).map (n.toNat * ·)
    else some (n.toNat * e.type.width)
  | _ => none

def totalBytes (bytes : Attribute → Option Nat) : List Attribute → Option Nat
  | [] => some 0
  | a :: rest => (bytes a).bind fun n => (totalBytes bytes rest).map (n + ·)

/-- The bytes in front of the first attribute that varies. -/
def leadingBytes (bytes : Attribute → Option Nat) : List Attribute → Nat
  | [] => 0
  | a :: rest => (bytes a).elim 0 (· + leadingBytes bytes rest)

def classBytesTo (r : Registry) : (depth : Nat) → String → Option Nat
  | 0, _ => none
  | depth + 1, name => totalBytes (attributeBytes (r.classBytesTo depth)) (r.serialised name)

def classBytes (r : Registry) (name : String) : Option Nat := r.classBytesTo r.classes.length name

def exactBytes (r : Registry) (a : Attribute) : Option Nat := attributeBytes r.classBytes a

/-- The exact static sizes are in reach of signed 64-bit numbers. -/
def InRange (r : Registry) : Prop :=
  ∀ c ∈ r.classes, ∀ n ∈ r.classBytes c.name, n < 2 ^ 63

instance (r : Registry) : Decidable r.InRange :=
  inferInstanceAs (Decidable (∀ c ∈ r.classes, ∀ n ∈ r.classBytes c.name, n < 2 ^ 63))

inductive Varies (r : Registry) : Attribute → Prop
  | list {a : Attribute} {field : String} {e : Element}
      (h : a.kind = some (.dynamicList field e)) : Varies r a
  | inside {a b : Attribute} {name : String} (h : embedded? a = some name)
      (hb : b ∈ r.serialised name) (hv : Varies r b) : Varies r a

section Totals

variable {f g : Attribute → Option Nat}

theorem totalBytes_congr {l : List Attribute} (h : ∀ a ∈ l, f a = g a) :
    totalBytes f l = totalBytes g l := by
  induction l with
  | nil => rfl
  | cons a l ih =>
    simp only [totalBytes, h a List.mem_cons_self, ih fun b hb => h b (List.mem_cons_of_mem _ hb)]

theorem totalBytes_append (l l' : List Attribute) :
    totalBytes f (l ++ l') =
      (totalBytes f l).bind fun m => (totalBytes f l').map (m + ·) := by
  induction l with
  | nil => cases h : totalBytes f l' <;> simp [totalBytes, h]
  | cons a l ih =>
    simp only [List.cons_append, totalBytes, ih]
    cases f a with
    | none => rfl
    | some n =>
      cases totalBytes f l with
      | none => rfl
      | some m => cases totalBytes f l' <;> simp [Nat.add_assoc]

theorem totalBytes_eq_none {l : List Attribute} : totalBytes f l = none ↔ ∃ a ∈ l, f a = none := by
  induction l with
  | nil => simp [totalBytes]
  | cons a l ih => cases h : f a <;> simp [totalBytes, h, ih]

theorem totalBytes_le_leading {pre : List Attribute} (post : List Attribute) {m : Nat}
    (h : totalBytes f pre = some m) : m ≤ leadingBytes f (pre ++ post) := by
  induction pre generalizing m with
  | nil =>
    cases h
    exact Nat.zero_le _
  | cons a pre ih =>
    cases ha : f a with
    | none => simp [totalBytes, ha] at h
    | some n =>
      simp only [totalBytes, ha, Option.bind_some, Option.map_eq_some_iff] at h
      obtain ⟨k, hk, rfl⟩ := h
      have hle := ih hk
      simp only [List.cons_append, leadingBytes, ha, Option.elim_some]
      omega

theorem exists_leading (l : List Attribute) :
    ∃ pre post, l = pre ++ post ∧ totalBytes f pre = some (leadingBytes f l) := by
  induction l with
  | nil => exact ⟨[], [], rfl, rfl⟩
  | cons a l ih =>
    cases ha : f a with
    | none => exact ⟨[], a :: l, rfl, by simp [totalBytes, leadingBytes, ha]⟩
    | some n =>
      obtain ⟨pre, post, rfl, hpre⟩ := ih
      exact ⟨a :: pre, post, rfl, by simp [totalBytes, leadingBytes, ha, hpre]⟩

theorem attributeBytes_congr {f g : String → Option Nat} {a : Attribute}
    (h : ∀ name, embedded? a = some name → f name = g name) :
    attributeBytes f a = attributeBytes g a := by
  unfold attributeBytes
  split
  · rfl
  · next name hk => exact h name (by simp [embedded?, hk])
  · next n e hk =>
    split
    · next he => rw [h e.className (by simp [embedded?, hk, he])]
    · rfl
  · rfl

end Totals

variable {r : Registry}

theorem embeds_serialised {name inner : String} {a : Attribute} (ha : a ∈ r.serialised name)
    (h : embedded? a = some inner) : r.Embeds name inner :=
  embeds_iff.mpr ⟨a, (List.mem_filter.mp ha).1, h⟩

theorem mem_serialised_registered {name : String} {a : Attribute} (h : a ∈ r.serialised name) :
    ∃ c ∈ r.classes, c.name = name := by
  cases hl : r.lookup name with
  | none => simp [serialised, allAttributes, chain, ancestors, hl] at h
  | some c => exact ⟨c, lookup_mem hl, lookup_name hl⟩

theorem classBytesTo_deeper {k m : Nat} (hle : k ≤ m) {name : String}
    (h : Height r.Embeds k name) : r.classBytesTo k name = r.classBytesTo m name := by
  induction k generalizing m name with
  | zero => exact h.elim
  | succ k ih =>
    obtain ⟨m, rfl⟩ : ∃ j, m = j + 1 := ⟨m - 1, by omega⟩
    refine totalBytes_congr fun a ha => attributeBytes_congr fun inner hin => ?_
    exact ih (by omega) (h inner (embeds_serialised ha hin))

theorem Grounded.classBytes_eq (hg : r.Grounded) {c : ClassDescription} (hc : c ∈ r.classes) :
    r.classBytes c.name = totalBytes r.exactBytes (r.serialised c.name) :=
  classBytesTo_deeper (Nat.le_succ _) (hg c hc)

theorem exactBytes_of_varies (hg : r.Grounded) {a : Attribute} (h : r.Varies a) :
    r.exactBytes a = none := by
  induction h with
  | list hk => simp [exactBytes, attributeBytes, hk]
  | @inside a b name hin hb _ ih =>
    obtain ⟨c, hc, rfl⟩ := mem_serialised_registered hb
    have hnone : r.classBytes c.name = none := by
      rw [hg.classBytes_eq hc]
      exact totalBytes_eq_none.mpr ⟨b, hb, ih⟩
    unfold embedded? at hin
    split at hin
    · next hk =>
      simp [exactBytes, attributeBytes, hk, Option.some.inj hin, hnone]
    · next hk =>
      split at hin
      · next he => simp [exactBytes, attributeBytes, hk, he, Option.some.inj hin, hnone]
      · cases hin
    · cases hin

theorem varies_of_inside {c : ClassDescription} {a : Attribute} (hk : r.KindSound c a)
    (hin : ∀ d ∈ r.classes, embedded? a = some d.name → r.classBytes d.name = none →
      ∃ b ∈ r.serialised d.name, r.Varies b) (h : r.exactBytes a = none) : r.Varies a := by
  have hinside : ∀ name, embedded? a = some name → r.classBytes name = none → r.Varies a := by
    intro name hemb hnone
    obtain ⟨d, hd, rfl⟩ := contains_iff.mp (hk.embedded hemb)
    obtain ⟨b, hb, hv⟩ := hin d hd hemb hnone
    exact .inside hemb hb hv
  unfold exactBytes attributeBytes at h
  cases Attribute.form hk.ne_none with
  | word q hq => simp [hq] at h
  | object name hq =>
    simp only [hq] at h
    exact hinside name (by simp [embedded?, hq]) h
  | array n e hq he => simp [hq, he] at h
  | objects n e hq he =>
    simp only [hq, he, if_true, Option.map_eq_none_iff] at h
    exact hinside e.className (by simp [embedded?, hq, he]) h
  | words field e hq he => exact .list hq
  | list field e hq he => exact .list hq

section Consistent

variable (hs : r.Consistent) (hr : r.Rooted)

include hs hr

theorem declared {c : ClassDescription} (hc : c ∈ r.classes) {a : Attribute}
    (ha : a ∈ r.serialised c.name) : ∃ d ∈ r.classes, r.KindSound d a := by
  have hn := hs.names_nodup
  rcases (mem_allAttributes hn hc).mp (List.mem_filter.mp ha).1 with ⟨q, hq, haq⟩ | hac
  · have hqc := ((hr.line hn hc).mem q hq).1
    exact ⟨q, hqc, hs.kinds q hqc a haq⟩
  · exact ⟨c, hc, hs.kinds c hc a hac⟩

theorem varies_of_classBytes (hg : r.Grounded) (k : Nat) : ∀ c ∈ r.classes,
    Height r.Embeds k c.name → r.classBytes c.name = none →
    ∃ b ∈ r.serialised c.name, r.Varies b := by
  -- down the objects inside, until one has a list of its own
  induction k with
  | zero => exact fun c _ h => h.elim
  | succ k ih =>
    intro c hc hheight hnone
    rw [hg.classBytes_eq hc] at hnone
    obtain ⟨b, hb, hbnone⟩ := totalBytes_eq_none.mp hnone
    obtain ⟨d, hd, hk⟩ := declared hs hr hc hb
    refine ⟨b, hb, varies_of_inside hk (fun e he hin => ?_) hbnone⟩
    exact ih e he (hheight _ (embeds_serialised hb hin))

theorem exactBytes_eq_none (hg : r.Grounded) {c : ClassDescription} (hc : c ∈ r.classes)
    {a : Attribute} (ha : a ∈ r.serialised c.name) : r.exactBytes a = none ↔ r.Varies a := by
  refine ⟨fun h => ?_, exactBytes_of_varies hg⟩
  obtain ⟨d, hd, hk⟩ := declared hs hr hc ha
  exact varies_of_inside hk (fun e he _ => varies_of_classBytes hs hr hg _ e he (hg e he)) h

end Consistent

def sizeOrMark : Option Nat → Int
  | some n => n
  | none => -1

/-- An exact number of bytes as the extents of attributes are given, in which it may have wrapped
around. -/
def extentOf : Option Nat → Extent
  | some n => .known (wrap n)
  | none => .varying (-1)

theorem sizeOrMark_nonneg (n : Nat) : (sizeOrMark (some n) < 0) = False := by
  simp [sizeOrMark]

theorem sizeOrMark_eq_mark {o : Option Nat} : sizeOrMark o = -1 ↔ o = none := by
  cases o <;> simp [sizeOrMark]

theorem toInt_extentOf_some (n : Nat) : (extentOf (some n)).toInt = wrap n := by
  rw [extentOf, Extent.toInt]

/-- A size that is found for an exact number of bytes: that number wrapped around, or -1 if there is
none. Once a class is out of range, its negative size may stand for any class that draws on it. -/
def Tells (r : Registry) (exact : Option Nat) (size : Int) : Prop :=
  size = (extentOf exact).toInt ∨ size < 0 ∧ ¬ r.InRange

/-- The same of extents. A product that has wrapped around is still known. -/
def TellsExtent (r : Registry) (exact : Option Nat) (x : Extent) : Prop :=
  x = extentOf exact ∨ (∃ mark < 0, x = .varying mark) ∧ ¬ r.InRange

theorem Tells.of_nonneg {exact : Option Nat} {size : Int} (h : r.Tells exact size)
    (hsize : 0 ≤ size) : ∃ m : Nat, exact = some m ∧ size = wrap m := by
  rcases h with heq | ⟨hneg, -⟩
  · cases exact with
    | none =>
      rw [extentOf, Extent.toInt] at heq
      omega
    | some m => exact ⟨m, rfl, heq.trans (toInt_extentOf_some m)⟩
  · omega

theorem Tells.of_neg {c : ClassDescription} (hc : c ∈ r.classes) {size : Int}
    (h : r.Tells (r.classBytes c.name) size) (hneg : size < 0) :
    size = -1 ∧ r.classBytes c.name = none ∨ ¬ r.InRange := by
  rcases h with heq | ⟨-, hout⟩
  · cases hb : r.classBytes c.name with
    | none =>
      rw [hb] at heq
      exact .inl ⟨heq, rfl⟩
    | some m =>
      refine .inr fun hrange => ?_
      have hm := hrange c hc m hb
      rw [hb, toInt_extentOf_some, wrap_of_lt (by omega) (by omega)] at heq
      omega
  · exact .inr hout

theorem Tells.eq {c : ClassDescription} (hc : c ∈ r.classes) {size : Int}
    (h : r.Tells (r.classBytes c.name) size) (hrange : r.InRange) :
    size = sizeOrMark (r.classBytes c.name) := by
  by_cases hneg : size < 0
  · rcases h.of_neg hc hneg with ⟨rfl, hnone⟩ | hout
    · rw [hnone, sizeOrMark]
    · exact (hout hrange).elim
  · obtain ⟨m, hm, hsize⟩ := h.of_nonneg (by omega)
    have hlt := hrange c hc m hm
    rw [hm, hsize, sizeOrMark, wrap_of_lt (by omega) (by omega)]

theorem TellsExtent.eq {exact : Option Nat} {x : Extent} (h : r.TellsExtent exact x)
    (hrange : r.InRange) : x = extentOf exact := by
  rcases h with rfl | ⟨-, hout⟩
  · rfl
  · exact (hout hrange).elim

theorem typeSize_eq {t : TypeName} (h : t.isCanonical = true) : typeSize t = .ok (t.width : Int) := by
  simp [typeSize, TypeName.sizeOf?_eq h]

theorem extent_tells {classSize : String → Except LayoutError Int} {c : ClassDescription}
    {a : Attribute} (hk : r.KindSound c a)
    (hin : ∀ d ∈ r.classes, embedded? a = some d.name →
      ∃ n, classSize d.name = .ok n ∧ r.Tells (r.classBytes d.name) n) :
    ∃ x, extent classSize a = .ok x ∧ r.TellsExtent (r.exactBytes a) x := by
  have hsize : ∀ name, embedded? a = some name → ∃ n, classSize name = .ok n ∧
      (n < 0 ∧ (n = -1 ∧ r.classBytes name = none ∨ ¬ r.InRange) ∨
        0 ≤ n ∧ ∃ m : Nat, r.classBytes name = some m ∧ n = wrap m) := by
    intro name hemb
    obtain ⟨d, hd, rfl⟩ := contains_iff.mp (hk.embedded hemb)
    obtain ⟨n, hn, htell⟩ := hin d hd hemb
    refine ⟨n, hn, ?_⟩
    by_cases hneg : n < 0
    · exact .inl ⟨hneg, htell.of_neg hd hneg⟩
    · exact .inr ⟨by omega, htell.of_nonneg (by omega)⟩
  unfold extent exactBytes attributeBytes
  cases Attribute.form hk.ne_none with
  | word q hq =>
    simp only [KindSound, hq] at hk
    have hw := (TypeName.width_pos hk).2
    refine ⟨.known q.type.width, by simp only [hq, typeSize_eq hk]; rfl, .inl ?_⟩
    simp only [hq, extentOf]
    rw [wrap_of_lt (by omega) (by omega)]
  | object name hq =>
    obtain ⟨n, hclass, ⟨hneg, hcase⟩ | ⟨hpos, m, hm, hn⟩⟩ := hsize name (by simp [embedded?, hq])
    · refine ⟨.varying n, ?_, ?_⟩
      · simp only [hq, hclass, bind, Except.bind, pure, Except.pure, if_pos hneg]
      · rcases hcase with ⟨rfl, hnone⟩ | hout
        · exact .inl (by simp only [hq, hnone, extentOf])
        · exact .inr ⟨⟨n, hneg, rfl⟩, hout⟩
    · refine ⟨.known n, ?_, .inl (by simp only [hq, hm, extentOf, hn])⟩
      simp only [hq, hclass, bind, Except.bind, pure, Except.pure, if_neg (Int.not_lt.mpr hpos)]
  | array n e hq he =>
    simp only [KindSound, hq, ElementSound, he, if_neg Bool.false_ne_true] at hk
    have hn : ((n.toNat * e.type.width : Nat) : Int) = n * e.type.width := by
      rw [Int.natCast_mul, Int.toNat_of_nonneg (by omega)]
    refine ⟨.known (wrap (n * e.type.width)), ?_, .inl ?_⟩
    · simp only [hq, he, if_neg Bool.false_ne_true, typeSize_eq hk.2]
      rfl
    · simp only [hq, he, if_neg Bool.false_ne_true, extentOf, hn]
  | objects k e hq he =>
    simp only [KindSound, hq] at hk
    obtain ⟨n, hclass, ⟨hneg, hcase⟩ | ⟨hpos, m, hm, hn⟩⟩ :=
      hsize e.className (by simp [embedded?, hq, he])
    · refine ⟨.varying n, ?_, ?_⟩
      · simp only [hq, he, if_true, hclass, bind, Except.bind, pure, Except.pure, if_pos hneg]
      · rcases hcase with ⟨rfl, hnone⟩ | hout
        · exact .inl (by simp only [hq, he, if_true, hnone, Option.map_none, extentOf])
        · exact .inr ⟨⟨n, hneg, rfl⟩, hout⟩
    · have hk : ((k.toNat * m : Nat) : Int) = k * m := by
        rw [Int.natCast_mul, Int.toNat_of_nonneg (by omega)]
      refine ⟨.known (wrap (k * n)), ?_, .inl ?_⟩
      · simp only [hq, he, if_true, hclass, bind, Except.bind, pure, Except.pure,
          if_neg (Int.not_lt.mpr hpos)]
      · simp only [hq, he, if_true, hm, Option.map_some, extentOf, hk, hn, wrap_mul]
  | words field e hq he | list field e hq he =>
    exact ⟨.varying (-1), by simp only [hq], .inl (by simp only [hq, extentOf])⟩

/-- Sizes are added up modulo 64 bits, so sums that wrap around on the way do no harm. -/
theorem sumSizes_tells {className : String} {classSize : String → Except LayoutError Int}
    {attrs : List Attribute}
    (hext : ∀ a ∈ attrs, ∃ x, extent classSize a = .ok x ∧ r.TellsExtent (r.exactBytes a) x)
    (start : Nat) : ∃ n, sumSizes className classSize (wrap start) attrs = .ok n ∧
      r.Tells ((totalBytes r.exactBytes (attrs.filter (!·.transient))).map (start + ·)) n := by
  induction attrs generalizing start with
  | nil =>
    refine ⟨wrap start, by rw [sumSizes], .inl ?_⟩
    rw [List.filter_nil, totalBytes, Option.map_some, toInt_extentOf_some, Nat.add_zero]
  | cons a rest ih =>
    have hrest := ih fun b hb => hext b (List.mem_cons_of_mem _ hb)
    rw [sumSizes]
    by_cases ht : a.transient = true
    · simpa [ht] using hrest start
    · obtain ⟨x, hx, htell⟩ := hext a List.mem_cons_self
      have hfilter : (a :: rest).filter (!·.transient) = a :: rest.filter (!·.transient) := by
        simp [ht]
      rw [if_neg ht, hx, hfilter, totalBytes]
      rcases htell with rfl | ⟨⟨mark, hmark, rfl⟩, hout⟩
      · cases hb : r.exactBytes a with
        | none => exact ⟨-1, rfl, .inl rfl⟩
        | some m =>
          obtain ⟨n, hn, htell⟩ := hrest (start + m)
          refine ⟨n, ?_, ?_⟩
          · simp only [extentOf, wrap_add]
            rwa [Int.natCast_add] at hn
          · simpa [Option.map_map, Function.comp_def, Nat.add_assoc] using htell
      · exact ⟨mark, rfl, .inr ⟨hmark, hout⟩⟩

section StaticSize

variable (hs : r.Consistent) (hr : r.Rooted) (hg : r.Grounded)

include hs hr hg

theorem sizeBelow_tells (fuel : Nat) (visiting : List String) {c : ClassDescription}
    (hc : c ∈ r.classes) (hheight : Height r.Draws fuel c.name)
    (hvisit : ∀ v ∈ visiting, TransGen r.Draws v c.name) :
    ∃ n, r.sizeBelow fuel visiting c.name = .ok n ∧ r.Tells (r.classBytes c.name) n := by
  induction fuel generalizing visiting c with
  | zero => exact hheight.elim
  | succ fuel ih =>
    have hn := hs.names_nodup
    have hlookup := lookup_of_mem hn hc
    -- a class that is visited again would draw on itself
    have hnew : visiting.contains c.name = false := by
      by_contra hmem
      have hmem : c.name ∈ visiting := by simpa using hmem
      exact hg.draws_acyclic hs hr hc (hvisit _ hmem)
    have hbelow : ∀ d ∈ r.classes, r.Draws c.name d.name → ∃ n,
        r.sizeBelow fuel (c.name :: visiting) d.name = .ok n ∧
          r.Tells (r.classBytes d.name) n := by
      intro d hd hdraws
      refine ih _ hd (hheight _ hdraws) fun v hv => ?_
      rcases List.mem_cons.mp hv with rfl | hv
      · exact .single hdraws
      · exact (hvisit v hv).tail hdraws
    have hext : ∀ a ∈ c.attributes, ∃ x,
        extent (r.sizeBelow fuel (c.name :: visiting)) a = .ok x ∧
          r.TellsExtent (r.exactBytes a) x := by
      intro a ha
      exact extent_tells (hs.kinds c hc a ha) fun d hd hin =>
        hbelow d hd ⟨c, hlookup, .inr ⟨a, ha, hin⟩⟩
    simp only [sizeBelow, hlookup, hnew, if_neg Bool.false_ne_true]
    rw [hg.classBytes_eq hc]
    by_cases hpar : c.hasParent = true
    · obtain ⟨q, hq, hl, -⟩ := hr.parent hn hc hpar
      have hqn := lookup_name hl
      obtain ⟨n, hparent, htell⟩ := hbelow q hq (hqn ▸ ⟨c, hlookup, .inl ⟨hpar, rfl⟩⟩)
      have hser : r.serialised c.name =
          r.serialised q.name ++ c.attributes.filter (!·.transient) := by
        rw [serialised, hr.allAttributes_child hn hc hpar, List.filter_append, hqn]
        rfl
      rw [hser, totalBytes_append, ← hg.classBytes_eq hq, ← hqn]
      simp only [hpar, if_true, hparent, bind, Except.bind]
      by_cases hneg : n < 0
      · -- the size of the parent is passed on
        refine ⟨n, by simp only [if_pos hneg]; rfl, ?_⟩
        rcases htell.of_neg hq hneg with ⟨rfl, hnone⟩ | hout
        · exact .inl (by simp [hnone, extentOf, Extent.toInt])
        · exact .inr ⟨hneg, hout⟩
      · obtain ⟨m, hm, hn⟩ := htell.of_nonneg (by omega)
        simp only [if_neg hneg, hm, Option.bind_some]
        rw [hn]
        exact sumSizes_tells hext m
    · have hser : r.serialised c.name = c.attributes.filter (!·.transient) := by
        rw [serialised, hr.allAttributes_root hn hc (by simpa using hpar)]
      have hsum := @sumSizes_tells r c.name _ _ hext 0
      simpa [hser, hpar, bind, Except.bind, wrap] using hsum

theorem staticSize_tells {c : ClassDescription} (hc : c ∈ r.classes) :
    ∃ n, r.staticSize c.name = .ok n ∧ r.Tells (r.classBytes c.name) n :=
  sizeBelow_tells hs hr hg _ [] hc ((hg.draws_height hs hr hc).mono (Nat.le_succ _)) (by simp)

theorem extent_staticSize {c : ClassDescription} (hc : c ∈ r.classes) {a : Attribute}
    (ha : a ∈ r.serialised c.name) :
    ∃ x, extent r.staticSize a = .ok x ∧ r.TellsExtent (r.exactBytes a) x := by
  obtain ⟨d, hd, hk⟩ := declared hs hr hc ha
  exact extent_tells hk fun e he _ => staticSize_tells hs hr hg he

theorem staticSize_eq (hrange : r.InRange) {c : ClassDescription} (hc : c ∈ r.classes) :
    r.staticSize c.name = .ok (sizeOrMark (r.classBytes c.name)) := by
  obtain ⟨n, hn, htell⟩ := staticSize_tells hs hr hg hc
  rw [hn, htell.eq hc hrange]

theorem extent_eq (hrange : r.InRange) {c : ClassDescription} (hc : c ∈ r.classes) {a : Attribute}
    (ha : a ∈ r.serialised c.name) : extent r.staticSize a = .ok (extentOf (r.exactBytes a)) := by
  obtain ⟨x, hx, htell⟩ := extent_staticSize hs hr hg hc ha
  rw [hx, htell.eq hrange]

end StaticSize

end Registry

end PduCompiler
