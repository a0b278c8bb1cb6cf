import PduCompiler.Proofs.Defaults

/-! Objects that form a tree. No object is reached on two ways, so what hangs on one attribute of an
object lies apart from what hangs on another: writing below the one leaves the other as it was. -/

namespace PduCompiler

open Relation

theorem Instance.refsAt_unique {i : Instance} (h : (i.embedded ++ i.elements).Nodup)
    {a b : Attribute} {y : Nat} (ha : y ∈ i.inside a) (hb : y ∈ i.refsAt b) : a.name = b.name := by
  obtain ⟨hembedded, -, hapart⟩ := List.nodup_append.mp h
  cases hk : b.kind with
  | none => simp [refsAt, hk] at hb
  | some k =>
    cases k with
    | primitive q => simp [refsAt, hk] at hb
    | object name | fixedList n e =>
      exact inside_unique hembedded ha (by simpa only [refsAt, inside, hk] using hb)
    | dynamicList field e =>
      have hlist : y ∈ i.list b.name := by
        cases he : e.isObject with
        | true => simpa [refsAt, hk, he] using hb
        | false => simp [refsAt, hk, he] at hb
      exact (hapart y (inside_embedded ha) y (list_mem_elements hlist) rfl).elim

namespace Store

abbrev Reaches (s : Store) := ReflTransGen s.Refers

/-- The objects that an object reaches form a tree: no object contains itself, or stands in two
places. -/
structure Tree (s : Store) (x : Nat) : Prop where
  acyclic : s.Acyclic x
  once : ∀ y i, s.Reaches x y → s.get? y = some i → (i.embedded ++ i.elements).Nodup
  parent : ∀ y z w, s.Reaches x y → s.Reaches x z → s.Refers y w → s.Refers z w → y = z

variable {p : Program} {s t u : Store} {x y z : Nat} {i : Instance}

theorem tree_of_nodup (hx : s.Acyclic x)
    (h : (s.objects.toList.flatMap fun i => i.embedded ++ i.elements).Nodup) : s.Tree x := by
  refine ⟨hx, fun y i _ hi => ?_, ?_⟩
  · have hmem : i ∈ s.objects.toList := Array.mem_toList_iff.mpr (Array.mem_of_getElem? hi)
    exact (List.nodup_flatMap.mp h).1 i hmem
  · rintro y z w - - ⟨i, hi, hwi⟩ ⟨j, hj, hwj⟩
    exact holder_unique h hi hj (List.mem_append.mpr hwi) (List.mem_append.mpr hwj)

theorem Embeds.refers (h : s.Embeds x y) : s.Refers x y := by
  obtain ⟨i, hi, hy⟩ := h
  exact ⟨i, hi, .inl hy⟩

theorem Owns.reaches (h : s.Owns x y) : s.Reaches x y :=
  ReflTransGen.mono (fun _ _ => Embeds.refers) _ _ h

theorem Owns.frame {writes : Nat → String → Prop} (hf : Frame writes s t) (hs : p.Sound s)
    (hx : x < s.size) (h : s.Owns x y) : t.Owns x y := by
  induction h with
  | refl => exact .refl
  | tail hxy hyz ih => exact ih.tail ((hf.embeds (Owns.lt_size hs hx hxy)).mpr hyz)

theorem Reaches.lt_size (hs : p.Sound s) (hx : x < s.size) (h : s.Reaches x y) : y < s.size := by
  induction h with
  | refl => exact hx
  | tail _ hyz _ => exact hyz.lt hs

theorem Tree.sub (h : s.Tree x) (hxy : s.Reaches x y) : s.Tree y :=
  ⟨fun z hz => h.acyclic z (hxy.trans hz), fun z i hz => h.once z i (hxy.trans hz),
    fun u v w hu hv => h.parent u v w (hxy.trans hu) (hxy.trans hv)⟩

theorem Tree.not_reaches (h : s.Tree x) (hy : s.Refers x y) : ¬ s.Reaches y x :=
  fun hyx => h.acyclic x .refl (.head' hy hyx)

theorem Tree.child_unique (h : s.Tree x) {v w : Nat} (hv : s.Refers x v) (hw : s.Refers x w)
    (hvz : s.Reaches v z) (hwz : s.Reaches w z) : v = w := by
  have hcases : ∀ {a b : Nat}, s.Refers x a → s.Refers x b → s.Reaches a b → a = b := by
    intro a b ha hb hab
    rcases ReflTransGen.cases_tail hab with heq | ⟨c, hac, hcb⟩
    · exact heq.symm
    · have hcx := h.parent c x b (.head ha hac) .refl hcb hb
      exact (h.not_reaches ha (hcx ▸ hac)).elim
  induction hvz with
  | refl => exact (hcases hw hv hwz).symm
  | @tail b c hvb hbc ih =>
    rcases ReflTransGen.cases_tail hwz with heq | ⟨d, hwd, hdc⟩
    · subst heq
      exact hcases hv hw (hvb.tail hbc)
    · have hdb := h.parent d b c (.head hw hwd) (.head hv hvb) hdc hbc
      exact ih (hdb ▸ hwd)

/-- An attribute of an object that was there has its value still, with everything below. -/
def Unchanged (r : Registry) (s t : Store) (x : Nat) (a : Attribute) : Prop :=
  ∀ i, s.get? x = some i → ∃ j, t.get? x = some j ∧ i.AgreeAt j a.name a.slot ∧
    ∀ depth, j.viewField (t.viewTo r depth) a = i.viewField (s.viewTo r depth) a

def Spared (s t : Store) (x : Nat) : Prop := Frame (fun z _ => ¬ s.Reaches x z) s t

theorem Spared.viewTo (hs : p.Sound s) (hx : x < s.size) (h : s.Spared t x) (r : Registry)
    (depth : Nat) : t.viewTo r depth x = s.viewTo r depth x :=
  Frame.viewTo_of_closed (C := s.Reaches x) h (fun _ hz => Reaches.lt_size hs hx hz)
    (fun _ o _ _ hz ho hw => hz.tail ⟨o, ho, Instance.refsAt_mem hw⟩) (fun _ _ hz hw => hw hz) .refl
    depth

def Confined (s t : Store) (x : Nat) (attrs : List Attribute) : Prop :=
  Frame (fun z f => s.Reaches x z → s.Zone x attrs z f) s t

variable {attrs : List Attribute}

theorem Tree.apart (h : s.Tree x) (hi : s.get? x = some i) {b : Attribute}
    (hb : ∀ a ∈ attrs, a.name ≠ b.name) (hy : y ∈ i.refsAt b) (hyz : s.Reaches y z) (f : String) :
    ¬ s.Zone x attrs z f := by
  have hxy : s.Refers x y := ⟨i, hi, Instance.refsAt_mem hy⟩
  rintro ⟨j, hj, a, ha, ⟨rfl, -⟩ | ⟨w, hw, hwz⟩⟩
  · exact h.not_reaches hxy hyz
  · cases Option.some.inj (hi.symm.trans hj)
    have hxw : s.Refers x w := ⟨i, hi, .inl (Instance.inside_embedded hw)⟩
    obtain rfl := h.child_unique hxw hxy hwz.reaches hyz
    exact hb a ha (Instance.refsAt_unique (h.once x i .refl hi) hw hy)

theorem Spared.confined (h : s.Spared t x) : s.Confined t x [] :=
  Frame.mono h fun _ _ hz hr => (hz hr).elim

theorem Confined.step (hs : p.Sound s) (hx : x < s.size) (h : s.Confined t x attrs)
    {attrs' : List Attribute} (hf : Frame (fun z f => t.Zone x attrs' z f ∨ t.size ≤ z) t u) :
    s.Confined u x (attrs ++ attrs') := by
  refine (Frame.mono h fun z f hz hr => ?_).trans (hf.mono fun z f hz hr => ?_)
  · exact (hz hr).mono (List.subset_append_left _ _)
  · rcases hz with hz | hz
    · exact (Frame.zone h hs hx hz).mono (List.subset_append_right _ _)
    · have hlt := Reaches.lt_size hs hx hr
      have hle := Frame.size_le h
      omega

theorem Confined.later (h : s.Confined t x attrs) {R : Nat → Prop}
    (hf : Frame (fun z _ => ¬ R z) t u) (hR : ∀ z, s.Reaches x z → R z) : s.Confined u x attrs :=
  Frame.trans h (hf.mono fun z _ hz hr => (hz (hR z hr)).elim)

theorem Confined.spared (h : s.Tree x) (hi : s.get? x = some i) (hf : s.Confined t x attrs)
    {b : Attribute} (hb : ∀ a ∈ attrs, a.name ≠ b.name) (hy : y ∈ i.refsAt b) : s.Spared t y := by
  refine Frame.mono hf fun z f hw hz => ?_
  exact h.apart hi hb hy hz f (hw (.head ⟨i, hi, Instance.refsAt_mem hy⟩ hz))

theorem Confined.unchanged (hs : p.Sound s) (h : s.Tree x) (hf : s.Confined t x attrs)
    {b : Attribute} (hb : ∀ a ∈ attrs, a.name ≠ b.name) (r : Registry) :
    s.Unchanged r t x b := by
  intro i hi
  obtain ⟨j, hj, hk⟩ := Frame.object hf x i hi
  have hag : i.AgreeAt j b.name b.slot := by
    refine hk.agree b.name (fun hw => ?_) b.slot
    obtain ⟨o, ho, a, ha, ⟨-, hname⟩ | ⟨w, hw, hwx⟩⟩ := hw .refl
    · exact hb a ha hname.symm
    · exact h.not_reaches ⟨o, ho, .inl (Instance.inside_embedded hw)⟩ hwx.reaches
  refine ⟨j, hj, hag, fun depth => Instance.viewField_congr hag fun y hy => ?_⟩
  have hxy : s.Refers x y := ⟨i, hi, Instance.refsAt_mem hy⟩
  exact (hf.spared h hi hb hy).viewTo hs (hxy.lt hs) r depth

/-- Where an object comes from: it was there in a tree of which nothing was written since, or it is
new with all that lies inside it. -/
structure Origin (s t : Store) (x : Nat) : Prop where
  size_le : s.size ≤ t.size
  place : (x < s.size ∧ s.Tree x ∧ s.Spared t x) ∨ ∀ z, t.Owns x z → s.size ≤ z

/-- Of an object that was there, what is not written has its value still; a new one had none. -/
theorem Origin.unchanged (hs : p.Sound s) (h : s.Origin t x)
    (hf : x < s.size → s.Spared t x → s.Confined u x attrs) {b : Attribute}
    (hb : ∀ a ∈ attrs, a.name ≠ b.name) (r : Registry) : s.Unchanged r u x b := by
  rcases h.place with ⟨hx, htree, hspared⟩ | hnew
  · exact (hf hx hspared).unchanged hs htree hb r
  · intro i hi
    exact absurd (get?_lt hi) (Nat.not_lt.mpr (hnew x .refl))

theorem Reaches.eq_of_ge (hx : s.size ≤ x) (h : s.Reaches x y) : y = x := by
  rcases ReflTransGen.cases_head h with heq | ⟨z, ⟨i, hi, -⟩, -⟩
  · exact heq.symm
  · exact absurd (get?_lt hi) (Nat.not_lt.mpr hx)

theorem Origin.inside (hs : p.Sound s) (ht : p.Sound t) (h : s.Origin t x) (hy : t.Embeds x y)
    {writes : Nat → String → Prop} (hf : Frame writes t u)
    (hin : ∀ z f, writes z f → t.Owns x z ∨ t.size ≤ z)
    (hapart : ∀ z f, t.Owns y z → ¬ writes z f) : s.Origin u y := by
  have hle := Nat.le_trans h.size_le hf.size_le
  have hyt := hy.lt_size ht
  refine ⟨hle, ?_⟩
  rcases h.place with ⟨hx, htree, hspared⟩ | hnew
  · have hy' : s.Embeds x y := (Frame.embeds hspared hx).mp hy
    refine .inl ⟨hy'.lt_size hs, htree.sub (.single hy'.refers), ?_⟩
    refine (Frame.mono hspared fun z f hz hr => hz (.head hy'.refers hr)).trans
      (hf.mono fun z f hw hr => ?_)
    have hlt := Reaches.lt_size hs (hy'.lt_size hs) hr
    rcases hin z f hw with hz | hz
    · -- in a tree the way down to `z` is the one through `y`
      have hxz : s.Owns x z := Frame.owns hspared hs hx hz
      rcases ReflTransGen.cases_head hxz with rfl | ⟨w, hxw, hwz⟩
      · exact htree.not_reaches hy'.refers hr
      · obtain rfl := htree.child_unique hxw.refers hy'.refers (Owns.reaches hwz) hr
        exact hapart z f (Owns.frame hspared hs (hy'.lt_size hs) hwz) hw
    · have := h.size_le
      omega
  · refine .inr fun z hz => ?_
    exact hnew z (.head hy (hf.owns ht hyt hz))

end Store

end PduCompiler
