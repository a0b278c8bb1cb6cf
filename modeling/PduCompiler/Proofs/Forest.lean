import Mathlib.Data.List.Nodup
import Mathlib.Data.List.Pairwise
import Mathlib.Logic.Relation
import PduCompiler.Proofs.Ancestry

/-! The order of a registry as a walk over the forest of its classes: a class, then everything below
it, with siblings in increasing order of the bytes of their names. -/

namespace PduCompiler

def BytesBefore (s t : String) : Prop :=
  List.Lex (· < ·) s.toUTF8.data.toList t.toUTF8.data.toList

theorem BytesBefore.irrefl (s : String) : ¬ BytesBefore s s :=
  List.lt_irrefl (s.toUTF8.data.toList)

theorem bytes_eq_flatMap (s : String) :
    s.toUTF8.data.toList = s.toList.flatMap String.utf8EncodeChar := by
  conv_lhs => rw [← @String.ofList_toList s]
  rw [String.toUTF8_eq_toByteArray, String.toByteArray_ofList, List.utf8Encode]
  simp

theorem utf8EncodeChar_lex {c d : Char} (h : c < d) (x y : List UInt8) :
    List.Lex (· < ·) (String.utf8EncodeChar c ++ x) (String.utf8EncodeChar d ++ y) := by
  change String.utf8EncodeChar c ++ x < String.utf8EncodeChar d ++ y
  have hlt : c.val.toNat < d.val.toNat := h
  have hd : d.val.toNat < 0x110000 := by
    have hv := d.valid
    simp only [UInt32.isValidChar, Nat.isValidChar] at hv
    omega
  simp only [String.utf8EncodeChar]
  generalize c.val.toNat = m at hlt ⊢
  generalize d.val.toNat = n at hlt hd ⊢
  -- the digits of a code point come from repeated division by 64
  have h2 : ∀ k : Nat, k / 4096 = k / 64 / 64 := by omega
  have h3 : ∀ k : Nat, k / 262144 = k / 64 / 64 / 64 := by omega
  split_ifs <;>
    simp only [List.cons_append, List.nil_append, List.cons_lt_cons_iff, UInt8.lt_iff_toNat_lt,
      ← UInt8.toNat_inj, UInt8.toNat_ofNat', h2, h3] <;> omega

theorem bytesBefore_of_lt {s t : String} (h : s < t) : BytesBefore s t := by
  unfold BytesBefore
  rw [bytes_eq_flatMap, bytes_eq_flatMap]
  have hl : List.Lex (· < ·) s.toList t.toList := h
  generalize s.toList = l at hl
  generalize t.toList = l' at hl
  induction hl with
  | @nil c l =>
    obtain ⟨b, bs, hb⟩ := List.exists_cons_of_ne_nil (@String.utf8EncodeChar_ne_nil c)
    rw [List.flatMap_cons, hb]
    exact .nil
  | rel hc => exact utf8EncodeChar_lex hc _ _
  | @cons c l l' _ ih =>
    rw [List.flatMap_cons, List.flatMap_cons]
    generalize String.utf8EncodeChar c = bs
    induction bs with
    | nil => exact ih
    | cons b bs ihb => exact .cons ihb

namespace Registry

open Relation

theorem insertByName_sorted {c : ClassDescription} {l : List ClassDescription}
    (h : l.Pairwise fun a b => a.name < b.name) (hc : ∀ d ∈ l, d.name ≠ c.name) :
    (insertByName c l).Pairwise fun a b => a.name < b.name := by
  induction l with
  | nil => exact List.pairwise_singleton _ _
  | cons d rest ih =>
    obtain ⟨hd, hrest⟩ := List.pairwise_cons.mp h
    unfold insertByName
    by_cases hlt : c.name < d.name
    · rw [if_pos hlt]
      refine List.pairwise_cons.mpr ⟨fun e he => ?_, h⟩
      rcases List.mem_cons.mp he with rfl | he
      · exact hlt
      · exact String.lt_trans hlt (hd e he)
    · rw [if_neg hlt]
      have hdc : d.name < c.name := by
        by_contra hge
        exact hc d List.mem_cons_self
          (String.le_antisymm (String.not_lt.mp hlt) (String.not_lt.mp hge))
      refine List.pairwise_cons.mpr ⟨fun e he => ?_, ih hrest fun e he =>
        hc e (List.mem_cons_of_mem _ he)⟩
      rcases List.mem_cons.mp ((insertByName_perm c rest).mem_iff.mp he) with rfl | he
      · exact hdc
      · exact hd e he

theorem Built.sorted {r : Registry} (h : r.Built) :
    r.classes.Pairwise fun a b => a.name < b.name := by
  induction h with
  | empty => exact List.Pairwise.nil
  | @add r r' c _ hc ih =>
    obtain ⟨-, -, hno, rfl⟩ := add_eq_ok hc
    refine insertByName_sorted ih fun d hd he => ?_
    rw [contains_iff.mpr ⟨d, hd, he⟩] at hno
    cases hno

def ChildOf (r : Registry) (c d : ClassDescription) : Prop :=
  d ∈ r.classes ∧ d.hasParent = true ∧ d.parent = c.name

def ByName (l : List ClassDescription) : Prop := l.Pairwise fun a b => BytesBefore a.name b.name

/-- From some classes, a walk that visits each of them, then everything below it, then the next one.
The children of a class are visited by name. -/
inductive Walk (r : Registry) : List ClassDescription → List ClassDescription → Prop
  | nil : Walk r [] []
  | cons {c : ClassDescription} {tops kids below rest : List ClassDescription}
      (hkids : ∀ d, d ∈ kids ↔ r.ChildOf c d) (hsorted : ByName kids) (hbelow : Walk r kids below)
      (hrest : Walk r tops rest) : Walk r (c :: tops) (c :: (below ++ rest))

theorem ByName.nodup {l : List ClassDescription} (h : ByName l) : l.Nodup := by
  refine List.Pairwise.imp ?_ h
  rintro a _ hab rfl
  exact BytesBefore.irrefl _ hab

theorem mem_children {r : Registry} (hroot : ∀ c ∈ r.classes, isRoot c.name = false)
    {c d : ClassDescription} (hc : c ∈ r.classes) : d ∈ r.children c.name ↔ r.ChildOf c d := by
  have hne : rootName ≠ c.name := by
    intro he
    have hname := hroot c hc
    rw [← he, isRoot_rootName] at hname
    cases hname
  cases hp : d.hasParent with
  | true => simp [children, ChildOf, ClassDescription.parentName, hp]
  | false => simp [children, ChildOf, ClassDescription.parentName, hp, hne]

theorem mem_children_rootName {r : Registry} {d : ClassDescription} :
    d ∈ r.children rootName ↔ d ∈ r.classes ∧ d.hasParent = false := by
  cases hp : d.hasParent with
  | true => simp [children, ClassDescription.parentName, hp, ClassDescription.parent_ne_rootName hp]
  | false => simp [children, ClassDescription.parentName, hp]

theorem children_byName {r : Registry} (hs : r.classes.Pairwise fun a b => a.name < b.name)
    (parent : String) : ByName (r.children parent) :=
  (hs.imp bytesBefore_of_lt).filter _

def Peers (r : Registry) (l : List ClassDescription) : Prop :=
  (∀ c ∈ l, c ∈ r.classes) ∧ ∀ c ∈ l, ∀ d ∈ l, r.level c.name = r.level d.name

theorem Peers.tail {r : Registry} {c : ClassDescription} {l : List ClassDescription}
    (h : r.Peers (c :: l)) : r.Peers l :=
  ⟨fun d hd => h.1 d (List.mem_cons_of_mem _ hd), fun d hd e he =>
    h.2 d (List.mem_cons_of_mem _ hd) e (List.mem_cons_of_mem _ he)⟩

theorem Peers.head {r : Registry} {c t : ClassDescription} {l : List ClassDescription}
    (h : r.Peers (c :: l)) (ht : t ∈ l) :
    c ∈ r.classes ∧ t ∈ r.classes ∧ r.level c.name = r.level t.name :=
  ⟨h.1 c List.mem_cons_self, h.1 t (List.mem_cons_of_mem _ ht),
    h.2 c List.mem_cons_self t (List.mem_cons_of_mem _ ht)⟩

theorem mem_of_below {r : Registry} {c d : ClassDescription} (hc : c ∈ r.classes)
    (h : ReflTransGen r.ChildOf c d) : d ∈ r.classes := by
  rcases h.cases_tail with rfl | ⟨e, -, hed⟩
  · exact hc
  · exact hed.1

section Forest

variable {r : Registry} (hr : r.Rooted) (hn : r.names.Nodup)

include hr hn

theorem ChildOf.level {c d : ClassDescription} (h : r.ChildOf c d) :
    r.level d.name = r.level c.name + 1 := by
  obtain ⟨hd, hp, he⟩ := h
  obtain ⟨q, -, -, ha⟩ := hr.parent hn hd hp
  simp [Registry.level, ha, he]

theorem level_eq_of_parentName {c d : ClassDescription} (hc : c ∈ r.classes) (hd : d ∈ r.classes)
    (h : c.parentName = d.parentName) : r.level c.name = r.level d.name := by
  cases hpc : c.hasParent <;> cases hpd : d.hasParent <;>
    simp only [ClassDescription.parentName, hpc, hpd, if_true, Bool.false_eq_true, if_false] at h
  · simp [level, hr.no_parent hn hc hpc, hr.no_parent hn hd hpd]
  · exact absurd h.symm (ClassDescription.parent_ne_rootName hpd)
  · exact absurd h (ClassDescription.parent_ne_rootName hpc)
  · obtain ⟨q, -, -, ha⟩ := hr.parent hn hc hpc
    obtain ⟨q', -, -, ha'⟩ := hr.parent hn hd hpd
    simp [level, ha, ha', h]

theorem level_le_of_below {c d : ClassDescription} (h : ReflTransGen r.ChildOf c d) :
    r.level c.name ≤ r.level d.name := by
  induction h with
  | refl => exact Nat.le_refl _
  | tail _ hstep ih => have := hstep.level hr hn; omega

theorem level_lt_of_below {c d : ClassDescription} (h : TransGen r.ChildOf c d) :
    r.level c.name < r.level d.name := by
  obtain ⟨e, hce, hed⟩ := TransGen.head'_iff.mp h
  have := hce.level hr hn
  have := level_le_of_below hr hn hed
  omega

theorem below_unique {c t d : ClassDescription} (hc : c ∈ r.classes) (ht : t ∈ r.classes)
    (hlevel : r.level c.name = r.level t.name) (hcd : ReflTransGen r.ChildOf c d)
    (htd : ReflTransGen r.ChildOf t d) : c = t := by
  induction hcd with
  | refl =>
    rcases htd.cases_head with he | ⟨e, hte, hed⟩
    · exact he.symm
    · have := level_lt_of_below hr hn (TransGen.head' hte hed)
      omega
  | @tail y d hcy hyd ih =>
    rcases htd.cases_tail with rfl | ⟨y', hty, hyd'⟩
    · have := level_lt_of_below hr hn (TransGen.tail' hcy hyd)
      omega
    · have hname : y.name = y'.name := hyd.2.2.symm.trans hyd'.2.2
      have hy := List.inj_on_of_nodup_map hn (mem_of_below hc hcy) (mem_of_below ht hty) hname
      exact ih (hy ▸ hty)

/-- Two classes of one parent that lie at or below different classes of one level are those classes
themselves. -/
theorem siblings_of_below {c t a b : ClassDescription} (hc : c ∈ r.classes) (ht : t ∈ r.classes)
    (hlevel : r.level c.name = r.level t.name) (hne : c ≠ t) (hca : ReflTransGen r.ChildOf c a)
    (htb : ReflTransGen r.ChildOf t b) (hab : a.parentName = b.parentName) : a = c ∧ b = t := by
  have ha := mem_of_below hc hca
  have hb := mem_of_below ht htb
  have hsame := level_eq_of_parentName hr hn ha hb hab
  have hca' := level_le_of_below hr hn hca
  have htb' := level_le_of_below hr hn htb
  rcases hca.cases_tail with rfl | ⟨y, hcy, hya⟩
  · rcases htb.cases_tail with rfl | ⟨z, htz, hzb⟩
    · exact ⟨rfl, rfl⟩
    · have := level_lt_of_below hr hn (TransGen.tail' htz hzb)
      omega
  · rcases htb.cases_tail with rfl | ⟨z, htz, hzb⟩
    · have := level_lt_of_below hr hn (TransGen.tail' hcy hya)
      omega
    · simp only [ClassDescription.parentName, hya.2.1, hzb.2.1, if_true] at hab
      have hname : y.name = z.name := by rw [← hya.2.2, ← hzb.2.2, hab]
      have hyz := List.inj_on_of_nodup_map hn (mem_of_below hc hcy) (mem_of_below ht htz) hname
      exact absurd (below_unique hr hn hc ht hlevel hcy (hyz ▸ htz)) hne

theorem descendants_walk (hroot : ∀ c ∈ r.classes, isRoot c.name = false)
    (hs : r.classes.Pairwise fun a b => a.name < b.name) (depth : Nat)
    (tops : List ClassDescription) (htops : ∀ c ∈ tops, c ∈ r.classes)
    (hdepth : ∀ c ∈ tops, r.classes.length ≤ r.level c.name + 1 + depth) :
    r.Walk tops (tops.flatMap fun c => c :: r.descendants depth c.name) := by
  induction depth generalizing tops with
  | zero =>
    induction tops with
    | nil => exact .nil
    | cons c tops ih =>
      have hc := htops c List.mem_cons_self
      have hlast := hdepth c List.mem_cons_self
      have hnone : ∀ d, ¬ r.ChildOf c d := by
        intro d hd
        have := hd.level hr hn
        have := hr.level_lt hn hd.1
        omega
      exact @Walk.cons r c tops [] [] _ (fun d => by simp [hnone d]) .nil .nil
        (ih (fun d hd => htops d (List.mem_cons_of_mem _ hd))
          fun d hd => hdepth d (List.mem_cons_of_mem _ hd))
  | succ depth ihd =>
    induction tops with
    | nil => exact .nil
    | cons c tops ih =>
      have hc := htops c List.mem_cons_self
      have hlast := hdepth c List.mem_cons_self
      have hmem : ∀ d, d ∈ r.children c.name ↔ r.ChildOf c d := fun d => mem_children hroot hc
      have hbelow := ihd (r.children c.name) (fun d hd => ((hmem d).mp hd).1) fun d hd => by
        have := ((hmem d).mp hd).level hr hn
        omega
      exact .cons hmem (children_byName hs _) hbelow
        (ih (fun d hd => htops d (List.mem_cons_of_mem _ hd))
          fun d hd => hdepth d (List.mem_cons_of_mem _ hd))

omit hr hn in
theorem Walk.mem_iff {tops out : List ClassDescription} (h : r.Walk tops out)
    (d : ClassDescription) : d ∈ out ↔ ∃ t ∈ tops, ReflTransGen r.ChildOf t d := by
  induction h with
  | nil => simp
  | @cons c tops kids below rest hkids _ _ _ ihbelow ihrest =>
    have hself : ReflTransGen r.ChildOf c d ↔ d = c ∨ ∃ k ∈ kids, ReflTransGen r.ChildOf k d := by
      constructor
      · intro h
        rcases h.cases_head with rfl | ⟨k, hck, hkd⟩
        · exact .inl rfl
        · exact .inr ⟨k, (hkids k).mpr hck, hkd⟩
      · rintro (rfl | ⟨k, hk, hkd⟩)
        · exact .refl
        · exact .head ((hkids k).mp hk) hkd
    simp only [List.mem_cons, List.mem_append, ihbelow, ihrest, exists_eq_or_imp, hself, or_assoc]

omit hr hn in
theorem Walk.after_parent {tops out pre post : List ClassDescription} {c : ClassDescription}
    (h : r.Walk tops out) (he : out = pre ++ c :: post) :
    c ∈ tops ∨ ∃ q ∈ pre, r.ChildOf q c := by
  induction h generalizing pre post with
  | nil => simp at he
  | @cons t tops kids below rest hkids _ _ _ ihbelow ihrest =>
    cases pre with
    | nil =>
      obtain ⟨rfl, -⟩ := List.cons.inj he
      exact .inl List.mem_cons_self
    | cons p pre =>
      obtain ⟨rfl, htail⟩ := List.cons.inj he
      rcases split_append htail with ⟨mid, hmid, -⟩ | ⟨mid, rfl, hmid⟩
      · rcases ihbelow hmid with hk | ⟨q, hq, hqc⟩
        · exact .inr ⟨t, List.mem_cons_self, (hkids c).mp hk⟩
        · exact .inr ⟨q, List.mem_cons_of_mem _ hq, hqc⟩
      · rcases ihrest hmid with ht | ⟨q, hq, hqc⟩
        · exact .inl (List.mem_cons_of_mem _ ht)
        · exact .inr ⟨q, by simp [hq], hqc⟩

omit hr hn in
theorem Walk.block {tops out pre post : List ClassDescription} {c : ClassDescription}
    (h : r.Walk tops out) (he : out = pre ++ c :: post) :
    ∃ kids below rest, (∀ d, d ∈ kids ↔ r.ChildOf c d) ∧ r.Walk kids below ∧
      post = below ++ rest := by
  induction h generalizing pre post with
  | nil => simp at he
  | @cons t tops kids below rest hkids _ hbelow _ ihbelow ihrest =>
    cases pre with
    | nil =>
      obtain ⟨rfl, rfl⟩ := List.cons.inj he
      exact ⟨kids, below, rest, hkids, hbelow, rfl⟩
    | cons p pre =>
      obtain ⟨-, he⟩ := List.cons.inj he
      rcases split_append he with ⟨mid, hmid, rfl⟩ | ⟨mid, -, hmid⟩
      · obtain ⟨kids', below', rest', hk, hw, rfl⟩ := ihbelow hmid
        exact ⟨kids', below', rest' ++ rest, hk, hw, List.append_assoc _ _ _⟩
      · exact ihrest hmid

omit hr hn in
theorem Walk.lies_below {c : ClassDescription} {kids below : List ClassDescription}
    (hkids : ∀ d, d ∈ kids ↔ r.ChildOf c d) (h : r.Walk kids below) {x : ClassDescription}
    (hx : x ∈ below) : TransGen r.ChildOf c x := by
  obtain ⟨k, hk, hkx⟩ := (h.mem_iff x).mp hx
  exact TransGen.head' ((hkids k).mp hk) hkx

theorem Peers.kids {c : ClassDescription} {kids : List ClassDescription}
    (hkids : ∀ d, d ∈ kids ↔ r.ChildOf c d) : r.Peers kids := by
  refine ⟨fun k hk => ((hkids k).mp hk).1, fun k hk k' hk' => ?_⟩
  rw [((hkids k).mp hk).level hr hn, ((hkids k').mp hk').level hr hn]

theorem Walk.nodup {tops out : List ClassDescription} (h : r.Walk tops out) (hnd : tops.Nodup)
    (hp : r.Peers tops) : out.Nodup := by
  induction h with
  | nil => exact List.nodup_nil
  | @cons c tops kids below rest hkids hsorted hbelow hrest ihbelow ihrest =>
    obtain ⟨hcn, htn⟩ := List.nodup_cons.mp hnd
    have hout : ∀ x ∈ rest, ¬ ReflTransGen r.ChildOf c x := by
      intro x hx hcx
      obtain ⟨t, ht, htx⟩ := (hrest.mem_iff x).mp hx
      obtain ⟨hc, ht', hlevel⟩ := hp.head ht
      exact hcn (below_unique hr hn hc ht' hlevel hcx htx ▸ ht)
    refine List.nodup_cons.mpr ⟨?_, List.nodup_append.mpr ⟨?_, ihrest htn hp.tail, ?_⟩⟩
    · intro hm
      rcases List.mem_append.mp hm with hm | hm
      · exact absurd (level_lt_of_below hr hn (hbelow.lies_below hkids hm)) (Nat.lt_irrefl _)
      · exact hout c hm .refl
    · exact ihbelow hsorted.nodup (.kids hr hn hkids)
    · rintro x hx _ hy rfl
      exact hout x hy (hbelow.lies_below hkids hx).to_reflTransGen

theorem Walk.siblings {tops out : List ClassDescription} (h : r.Walk tops out) (hs : ByName tops)
    (hp : r.Peers tops) :
    out.Pairwise fun a b => a.parentName = b.parentName → BytesBefore a.name b.name := by
  induction h with
  | nil => exact List.Pairwise.nil
  | @cons c tops kids below rest hkids hsorted hbelow hrest ihbelow ihrest =>
    obtain ⟨hct, hst⟩ := List.pairwise_cons.mp hs
    -- what lies at or below `c` has a sibling in the rest only if it is `c`
    have hsib : ∀ x, ReflTransGen r.ChildOf c x → ∀ y ∈ rest, x.parentName = y.parentName →
        x = c ∧ y ∈ tops := by
      intro x hcx y hy hxy
      obtain ⟨t, ht, hty⟩ := (hrest.mem_iff y).mp hy
      obtain ⟨hc, ht', hlevel⟩ := hp.head ht
      have hne : c ≠ t := by
        rintro rfl
        exact BytesBefore.irrefl _ (hct _ ht)
      obtain ⟨hx, rfl⟩ := siblings_of_below hr hn hc ht' hlevel hne hcx hty hxy
      exact ⟨hx, ht⟩
    refine List.pairwise_cons.mpr ⟨?_, List.pairwise_append.mpr ⟨?_, ihrest hst hp.tail, ?_⟩⟩
    · intro y hy hcy
      rcases List.mem_append.mp hy with hy | hy
      · have hc := hp.1 c List.mem_cons_self
        have hbl := hbelow.lies_below hkids hy
        have hlt := level_lt_of_below hr hn hbl
        have heq := level_eq_of_parentName hr hn hc (mem_of_below hc hbl.to_reflTransGen) hcy
        omega
      · exact hct y (hsib c .refl y hy hcy).2
    · exact ihbelow hsorted (.kids hr hn hkids)
    · intro x hx y hy hxy
      have hbl := hbelow.lies_below hkids hx
      obtain ⟨rfl, -⟩ := hsib x hbl.to_reflTransGen y hy hxy
      exact absurd (level_lt_of_below hr hn hbl) (Nat.lt_irrefl _)

end Forest

structure InForestOrder (r : Registry) (out : List ClassDescription) : Prop where
  perm : out.Perm r.classes
  names_nodup : (out.map (·.name)).Nodup
  after_parent : ∀ pre c post, out = pre ++ c :: post → c.hasParent = true →
    ∃ q ∈ pre, q.name = c.parent
  /-- What lies below a class stands right after it. -/
  block : ∀ pre c post, out = pre ++ c :: post → ∃ below rest, post = below ++ rest ∧
    ∀ d, d ∈ below ↔ TransGen r.ChildOf c d
  siblings : out.Pairwise fun a b => a.parentName = b.parentName → BytesBefore a.name b.name
  walk : ∃ tops, (∀ d, d ∈ tops ↔ d ∈ r.classes ∧ d.hasParent = false) ∧ ByName tops ∧
    r.Walk tops out

theorem Built.order_walk {r : Registry} (hb : r.Built) {out : List ClassDescription}
    (h : r.order = .ok out) : r.Walk (r.children rootName) out := by
  obtain ⟨hr, rfl⟩ := order_eq_ok h
  have hn := hb.names_nodup
  have htop : ∀ c ∈ r.children rootName, c ∈ r.classes := fun c hc =>
    (mem_children_rootName.mp hc).1
  cases hlen : r.classes.length with
  | zero =>
    have hnil : r.children rootName = [] := by
      simp [children, List.length_eq_zero_iff.mp hlen]
    rw [descendants, hnil]
    exact .nil
  | succ n =>
    refine descendants_walk hr hn hb.not_root hb.sorted n _ htop fun c _ => ?_
    omega

theorem order_inForestOrder {r : Registry} (hb : r.Built) {out : List ClassDescription}
    (h : r.order = .ok out) : r.InForestOrder out := by
  have hn := hb.names_nodup
  obtain ⟨hr, -⟩ := order_eq_ok h
  have hw := hb.order_walk h
  have htop : ∀ d, d ∈ r.children rootName ↔ d ∈ r.classes ∧ d.hasParent = false := fun d =>
    mem_children_rootName
  have hsorted : ByName (r.children rootName) := children_byName hb.sorted rootName
  have hpeers : r.Peers (r.children rootName) := by
    refine ⟨fun c hc => ((htop c).mp hc).1, fun c hc d hd => ?_⟩
    obtain ⟨hc, hpc⟩ := (htop c).mp hc
    obtain ⟨hd, hpd⟩ := (htop d).mp hd
    simp [level, hr.no_parent hn hc hpc, hr.no_parent hn hd hpd]
  have hmem : ∀ d, d ∈ out ↔ d ∈ r.classes := by
    intro d
    refine ⟨fun hd => ?_, mem_order hn h⟩
    obtain ⟨t, ht, htd⟩ := (hw.mem_iff d).mp hd
    exact mem_of_below ((htop t).mp ht).1 htd
  have hperm : out.Perm r.classes :=
    (List.perm_ext_iff_of_nodup (hw.nodup hr hn hsorted.nodup hpeers) (List.Nodup.of_map _ hn)).mpr
      hmem
  refine ⟨hperm, (hperm.map _).nodup_iff.mpr hn, ?_, ?_, hw.siblings hr hn hsorted hpeers,
    _, htop, hsorted, hw⟩
  · intro pre c post he hp
    rcases hw.after_parent he with hc | ⟨q, hq, hqc⟩
    · rw [((htop c).mp hc).2] at hp
      cases hp
    · exact ⟨q, hq, hqc.2.2.symm⟩
  · intro pre c post he
    obtain ⟨kids, below, rest, hkids, hbelow, rfl⟩ := hw.block he
    refine ⟨below, rest, rfl, fun d => ⟨hbelow.lies_below hkids, fun hd => ?_⟩⟩
    obtain ⟨k, hck, hkd⟩ := TransGen.head'_iff.mp hd
    exact (hbelow.mem_iff d).mpr ⟨k, (hkids k).mpr hck, hkd⟩

def grove : Registry := .gather [
  { name := "Tank", parent := "Vehicle" }, { name := "Vehicle", parent := "Entity" },
  { name := "état", parent := "Entity" }, { name := "Sensor", parent := "root" },
  { name := "Buoy", parent := "Sensor" }, { name := "Entity", parent := "ROOT" },
  { name := "Car", parent := "Vehicle" }, { name := "aircraft", parent := "Entity" },
  { name := "Probe", parent := "état" }]

theorem grove_order : grove.order.toOption.map (·.map (·.name)) = some
    ["Entity", "Vehicle", "Car", "Tank", "aircraft", "état", "Probe", "Sensor", "Buoy"] := by
  decide +kernel

theorem grove_inForestOrder : ∃ out, grove.order = .ok out ∧ out.map (·.name) =
    ["Entity", "Vehicle", "Car", "Tank", "aircraft", "état", "Probe", "Sensor", "Buoy"] ∧
    grove.InForestOrder out := by
  have hev := grove_order
  cases h : grove.order with
  | error e => simp [h, Except.toOption] at hev
  | ok out =>
    simp only [h, Except.toOption, Option.map_some, Option.some.injEq] at hev
    exact ⟨out, rfl, hev, order_inForestOrder (gather_built _) h⟩

end Registry

end PduCompiler
