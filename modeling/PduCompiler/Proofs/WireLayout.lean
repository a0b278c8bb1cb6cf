import PduCompiler.Proofs.ExactSizes
import PduCompiler.Proofs.WireCounts

/-! Layouts against encodings. Regions lie where their attributes are found in the encoding of every
object, up to the first one that a dynamic list is part of. -/

namespace PduCompiler

namespace Registry

section Placing

variable {r : Registry}

theorem boundary_eq {before : List Attribute} {a : Attribute}
    (hlt : ∀ m, totalBytes r.exactBytes (before ++ [a]) = some m → m < 2 ^ 63) {offset size : Int}
    (hoffset : offset = sizeOrMark (totalBytes r.exactBytes before))
    (hsize : size = (extentOf (r.exactBytes a)).toInt) :
    (if size < 0 || offset < 0 then -1 else wrap (offset + size)) =
      sizeOrMark (totalBytes r.exactBytes (before ++ [a])) := by
  rw [totalBytes_append] at hlt ⊢
  cases hb : totalBytes r.exactBytes before with
  | none =>
    -- behind what varies the size may have wrapped around, but the mark stays
    have hneg : offset < 0 := by rw [hoffset, hb, sizeOrMark]; omega
    simp [hneg, sizeOrMark]
  | some m =>
    have hoff : offset = m := by rw [hoffset, hb, sizeOrMark]
    cases ha : r.exactBytes a with
    | none =>
      have hneg : size < 0 := by rw [hsize, ha, extentOf, Extent.toInt]; omega
      simp [hneg, totalBytes, ha, sizeOrMark]
    | some n =>
      have hmn : m + n < 2 ^ 63 := hlt (m + n) (by simp [hb, ha, totalBytes])
      have hsz : size = n := by
        rw [hsize, ha, extentOf, Extent.toInt, wrap_of_lt (by omega) (by omega)]
      have hnot : (decide (size < 0) || decide (offset < 0)) = false := by
        simp only [Bool.or_eq_false_iff, decide_eq_false_iff_not]
        omega
      rw [hnot, if_neg Bool.false_ne_true, wrap_of_lt (by omega) (by omega), hoff, hsz]
      simp [totalBytes, ha, sizeOrMark]

theorem placeAll_eq {pairs : List (String × Attribute)} {before : List Attribute}
    (hext : ∀ q ∈ pairs, extent r.staticSize q.2 = .ok (extentOf (r.exactBytes q.2)))
    (hlt : ∀ pre post, pairs.map (·.2) = pre ++ post →
      ∀ m, totalBytes r.exactBytes (before ++ pre) = some m → m < 2 ^ 63) :
    ∃ regions, r.placeAll (sizeOrMark (totalBytes r.exactBytes before)) pairs =
        (regions, [], sizeOrMark (totalBytes r.exactBytes (before ++ pairs.map (·.2)))) ∧
      regions.map (fun g => (g.className, g.attr)) = pairs ∧
      ∀ k g, regions[k]? = some g →
        g.start = sizeOrMark (totalBytes r.exactBytes (before ++ (pairs.map (·.2)).take k)) ∧
        g.boundary =
          sizeOrMark (totalBytes r.exactBytes (before ++ (pairs.map (·.2)).take (k + 1))) := by
  induction pairs generalizing before with
  | nil => exact ⟨[], by simp [placeAll], rfl, by simp⟩
  | cons q rest ih =>
    obtain ⟨className, a⟩ := q
    have hbound := boundary_eq (hlt [a] _ rfl) rfl rfl
    obtain ⟨regions, hplace, hmap, hat⟩ := @ih (before ++ [a])
      (fun q hq => hext q (List.mem_cons_of_mem _ hq))
      (fun pre post hpre m hm => hlt (a :: pre) post (by rw [List.map_cons, hpre]; rfl) m
        (by rwa [List.append_cons]))
    have hthis := hext (className, a) List.mem_cons_self
    refine ⟨⟨(extentOf (r.exactBytes a)).toInt < 0, className, a,
      sizeOrMark (totalBytes r.exactBytes before),
      sizeOrMark (totalBytes r.exactBytes (before ++ [a]))⟩ :: regions, ?_,
      by rw [List.map_cons, hmap], ?_⟩
    · rw [placeAll]
      simp only [hthis, hbound, hplace, List.map_cons, List.append_assoc, List.singleton_append]
    · intro k g hg
      cases k with
      | zero =>
        rw [List.getElem?_cons_zero, Option.some.injEq] at hg
        subst hg
        simp
      | succ k =>
        have hk := hat k g hg
        simp only [List.append_assoc, List.singleton_append] at hk
        simpa only [List.map_cons, List.take_succ_cons] using hk

theorem totalBytes_take_eq_none {bytes : Attribute → Option Nat} {regions : List Region} {k : Nat} :
    totalBytes bytes ((regions.map (·.attr)).take (k + 1)) = none ↔
      ∃ j ≤ k, ∃ g : Region, regions[j]? = some g ∧ bytes g.attr = none := by
  rw [totalBytes_eq_none, ← List.map_take]
  constructor
  · rintro ⟨_, hmem, hnone⟩
    obtain ⟨g, hg, rfl⟩ := List.mem_map.mp hmem
    obtain ⟨j, hj⟩ := List.mem_iff_getElem?.mp hg
    rw [List.getElem?_take, Option.ite_none_right_eq_some] at hj
    exact ⟨j, by omega, g, hj.2, hnone⟩
  · rintro ⟨j, hj, g, hg, hnone⟩
    have htake : (regions.take (k + 1))[j]? = some g := by
      rw [List.getElem?_take, if_pos (by omega), hg]
    exact ⟨g.attr, List.mem_map_of_mem (List.mem_of_getElem? htake), hnone⟩

theorem listBeforeCount?_eq_none {seen : List String} {regions : List Region}
    (h : ∀ pre g post, regions = pre ++ g :: post → ∀ field, g.attr.CountedBy field →
      field ∈ seen ∨ ∃ b ∈ pre, b.attr.name = field) :
    Layout.listBeforeCount? seen regions = none := by
  induction regions generalizing seen with
  | nil => rfl
  | cons g rest ih =>
    have hrest : Layout.listBeforeCount? (g.attr.name :: seen) rest = none := by
      refine ih fun pre g' post hsplit field hcount => ?_
      rcases h (g :: pre) g' post (by rw [hsplit]; rfl) field hcount with hseen | ⟨b, hb, rfl⟩
      · exact .inl (List.mem_cons_of_mem _ hseen)
      · rcases List.mem_cons.mp hb with rfl | hb
        · exact .inl List.mem_cons_self
        · exact .inr ⟨b, hb, rfl⟩
    rw [Layout.listBeforeCount?]
    split
    · next field e hk =>
      have hseen : field ∈ seen := by simpa using h [] g rest rfl field ⟨e, hk⟩
      rw [if_pos (by simpa using hseen), hrest]
    · exact hrest

theorem wireAttributes_map (r : Registry) (name : String) :
    (r.wireAttributes name).map (·.2) = r.serialised name := by
  simp only [wireAttributes, serialised, allAttributes, List.map_flatMap, List.filter_flatMap,
    List.map_map, Function.comp_def, List.map_id']

theorem extents_ok (hs : r.Consistent) (hr : r.Rooted) (hg : r.Grounded)
    {c : ClassDescription} (hc : c ∈ r.classes) :
    ∀ q ∈ r.wireAttributes c.name, ∃ x, extent r.staticSize q.2 = .ok x := by
  intro q hq
  have hser : q.2 ∈ r.serialised c.name := wireAttributes_map r c.name ▸ List.mem_map_of_mem hq
  obtain ⟨x, hx, -⟩ := extent_staticSize hs hr hg hc hser
  exact ⟨x, hx⟩

theorem wireAttributes_line (hs : r.Consistent) (hr : r.Rooted) {c : ClassDescription}
    (hc : c ∈ r.classes) : ∃ line, r.Line c line ∧ r.wireAttributes c.name =
      (line.reverse ++ [c]).flatMap fun d => d.serialised.map fun a => (d.name, a) := by
  have hn := hs.names_nodup
  refine ⟨_, hr.line hn hc, ?_⟩
  rw [wireAttributes, chain, lookup_of_mem hn hc]
  simp [ClassDescription.serialised]

/-- Attributes that all have an extent are all laid out. Behind one that varies the offset stays
negative. -/
theorem placeAll_ok {pairs : List (String × Attribute)}
    (hext : ∀ q ∈ pairs, ∃ x, extent r.staticSize q.2 = .ok x) (offset : Int) :
    ∃ regions final, r.placeAll offset pairs = (regions, [], final) ∧
      regions.map (fun g => (g.className, g.attr)) = pairs ∧
      (offset < 0 → final < 0) ∧
      ∀ q ∈ pairs, ∀ x, extent r.staticSize q.2 = .ok x → x.toInt < 0 → final < 0 := by
  induction pairs generalizing offset with
  | nil => exact ⟨[], offset, rfl, rfl, fun h => h, by simp⟩
  | cons q rest ih =>
    obtain ⟨className, a⟩ := q
    obtain ⟨x, hx⟩ := hext (className, a) List.mem_cons_self
    generalize hb : (if x.toInt < 0 || offset < 0 then -1 else wrap (offset + x.toInt)) = boundary
    obtain ⟨regions, final, hplace, hmap, hneg, hlater⟩ :=
      ih (fun q hq => hext q (List.mem_cons_of_mem _ hq)) boundary
    have hstop : x.toInt < 0 ∨ offset < 0 → final < 0 := by
      intro hstop
      rw [if_pos (by simpa using hstop)] at hb
      exact hneg (by omega)
    refine ⟨⟨x.toInt < 0, className, a, offset, boundary⟩ :: regions, final, ?_,
      by rw [List.map_cons, hmap], fun h => hstop (.inr h), fun q hq y hy hlt => ?_⟩
    · rw [placeAll]
      simp only [hx, hb, hplace]
    · rcases List.mem_cons.mp hq with rfl | hq
      · cases Except.ok.inj (hx.symm.trans hy)
        exact hstop (.inl hlt)
      · exact hlater q hq y hy hlt

theorem placeAll_boundary_lt (offset : Int) (pairs : List (String × Attribute)) :
    ∀ g ∈ (r.placeAll offset pairs).1, g.boundary < 2 ^ 63 := by
  induction pairs generalizing offset with
  | nil => simp [placeAll]
  | cons q rest ih =>
    intro g hg
    rw [placeAll] at hg
    cases hx : extent r.staticSize q.2 with
    | error e =>
      rw [hx] at hg
      exact ih offset g hg
    | ok x =>
      rw [hx] at hg
      rcases List.mem_cons.mp hg with rfl | hg
      · dsimp only
        split
        · omega
        · exact wrap_lt _
      · exact ih _ g hg

theorem analyze_of_placed {c : ClassDescription} (hc : c ∈ r.classes) {regions : List Region}
    {final : Int} (hplace : r.placeAll 0 (r.wireAttributes c.name) = (regions, [], final))
    (hcounts : Layout.listBeforeCount? [] regions = none) :
    r.analyze c.name =
      (some ⟨c.name, if final < 0 then -1 else final, regions, []⟩, none) := by
  have hcontains : r.contains c.name = true := contains_iff.mpr ⟨c, hc, rfl⟩
  simp [analyze, hcontains, hplace, hcounts]

theorem sizeOrMark_shown (o : Option Nat) :
    (if sizeOrMark o < 0 then -1 else sizeOrMark o) = sizeOrMark o := by
  cases o with
  | none => rfl
  | some m => simp only [sizeOrMark_nonneg, if_neg not_false]

theorem serialised_of_wireAttributes {regions : List Region} {name : String}
    (h : regions.map (fun g => (g.className, g.attr)) = r.wireAttributes name) :
    r.serialised name = regions.map (·.attr) := by
  rw [← wireAttributes_map, ← h, List.map_map]
  rfl

end Placing

end Registry

namespace Program

open Registry

/-- A layout says of a class where the attributes of objects lie in encodings. -/
structure Describes (p : Program) (c : ClassDescription) (l : Layout) : Prop where
  analyzed : p.registry.analyze c.name = (some l, none)
  regions : ∃ line, p.registry.Line c line ∧
    l.regions.map (fun g => (g.className, g.attr)) =
      (line.reverse ++ [c]).flatMap fun d => d.serialised.map fun a => (d.name, a)
  first : ∀ g : Region, l.regions[0]? = some g → g.start = 0
  next : ∀ (k : Nat) (g g' : Region), l.regions[k]? = some g → l.regions[k + 1]? = some g' →
    g'.start = g.boundary
  size : p.registry.staticSize c.name = .ok l.staticSize
  boundary : ∀ (k : Nat) (g : Region), l.regions[k]? = some g → (g.boundary = -1 ↔
    ∃ j ≤ k, ∃ g' : Region, l.regions[j]? = some g' ∧ p.registry.Varies g'.attr)
  exact : ∀ (k : Nat) (g : Region), l.regions[k]? = some g → ∀ m,
    totalBytes p.registry.exactBytes ((l.regions.map (·.attr)).take (k + 1)) = some m →
      g.boundary = m
  encoded : ∀ ops x i, (p.run ops).get? x = some i → i.className = c.name →
    (p.run ops).Acyclic x → ∃ parts, p.marshal (p.run ops) i = .ok parts.flatten ∧
      List.Forall₂ (fun g part => p.partOf (p.run ops) i g.attr = .ok part) l.regions parts ∧
      ∀ (k : Nat) (g : Region), l.regions[k]? = some g →
        (0 ≤ g.start → g.start = ((parts.take k).flatten.length : Int)) ∧
        (0 ≤ g.boundary → g.boundary = ((parts.take (k + 1)).flatten.length : Int))

variable {p : Program} {s : Store}

theorem Planned.count_ahead (hp : p.Planned) : ∀ c ∈ p.registry.classes,
    ∀ pre a post, p.registry.serialised c.name = pre ++ a :: post →
      ∀ field, a.CountedBy field → ∃ b ∈ pre, b.name = field := by
  have hown : ∀ c ∈ p.registry.classes, ∀ pre a post, c.serialised = pre ++ a :: post →
      ∀ field, a.CountedBy field → ∃ b ∈ pre, b.name = field := by
    intro c hc pre a post h field hcount
    obtain ⟨b, hb, q, hbn, -, -⟩ := hp.count_before hc h hcount
    exact ⟨b, hb, hbn⟩
  refine hp.rooted.induction hp.consistent.names_nodup (fun c hc hpar => ?_)
    (fun c hc q hq hpar hl ih => ?_) <;>
    intro pre a post h field hcount <;> rw [hp.serialised_eq hc, Plan.inherited] at h
  · rw [if_neg (by simp [hpar])] at h
    exact hown c hc pre a post h field hcount
  · rw [if_pos hpar, ← lookup_name hl] at h
    rcases split_append h with ⟨mid, hmid, -⟩ | ⟨mid, rfl, hmid⟩
    · exact ih pre a mid hmid field hcount
    · obtain ⟨b, hb, hbn⟩ := hown c hc mid a post hmid field hcount
      exact ⟨b, List.mem_append_right _ hb, hbn⟩

theorem flatten_length_of_total {R : Attribute → List UInt8 → Prop}
    {bytes : Attribute → Option Nat} {attrs : List Attribute} {parts : List (List UInt8)}
    (hparts : List.Forall₂ R attrs parts)
    (h : ∀ a ∈ attrs, ∀ part, R a part → ∀ n, bytes a = some n → part.length = n) {n : Nat}
    (htotal : totalBytes bytes attrs = some n) : parts.flatten.length = n := by
  induction hparts generalizing n with
  | nil =>
    cases htotal
    rfl
  | @cons a part attrs parts ha _ ih =>
    simp only [totalBytes, Option.bind_eq_some_iff, Option.map_eq_some_iff] at htotal
    obtain ⟨m, hm, k, hk, rfl⟩ := htotal
    have hrest := ih (fun b hb => h b (List.mem_cons_of_mem _ hb)) hk
    rw [List.flatten_cons, List.length_append, h a List.mem_cons_self part ha m hm, hrest]

/-- The encodings of a class have its exact number of bytes, if there is one. -/
def TakesExact (p : Program) (s : Store) (name : String) : Prop :=
  ∀ n, p.registry.classBytes name = some n → ∀ x i bytes, s.get? x = some i →
    i.className = name → p.marshal s i = .ok bytes → bytes.length = n

section Lengths

variable (hp : p.Planned) (hs : p.Sound s) (hno : p.registry.NoRedeclaration)

include hp hs hno

theorem partOf_length {x : Nat} {i : Instance} (hi : s.get? x = some i) {a : Attribute}
    (ha : a ∈ p.registry.serialised i.className)
    (hin : ∀ d ∈ p.registry.classes, p.registry.Embeds i.className d.name → p.TakesExact s d.name)
    {part : List UInt8} (hpart : p.partOf s i a = .ok part) {n : Nat}
    (hn : p.registry.exactBytes a = some n) : part.length = n := by
  obtain ⟨c, hc, hcn⟩ := (hs.object x i hi).ready.class hp
  obtain ⟨d, -, hk⟩ := declared hp.consistent hp.rooted hc (hcn ▸ ha)
  have hholds := hs.holds hp hno hi (serialised_sub _ _ a ha)
  have hbelow : ∀ name, embedded? a = some name → p.TakesExact s name := by
    intro name hemb
    obtain ⟨e, he, rfl⟩ := contains_iff.mp (hk.embedded hemb)
    exact hin e he (embeds_serialised ha hemb)
  unfold exactBytes attributeBytes at hn
  unfold partOf at hpart
  cases Attribute.form hk.ne_none with
  | word q hq =>
    simp only [hq, Option.some.injEq] at hn
    rw [encodeAction_word hq, Except.ok.injEq] at hpart
    simp only [KindSound, hq] at hk
    rw [← hpart, TypeName.length_encode hk, hn]
  | object name hq =>
    simp only [hq] at hn
    simp only [Instance.Holds, hq] at hholds
    obtain ⟨y, hy, hcls⟩ := hholds
    rw [encodeAction_object hq, hy] at hpart
    obtain ⟨obj, hobj, hm⟩ := encodeRef_eq_ok.mp hpart
    rw [Store.class?, hobj, Option.map_some, Option.some.injEq] at hcls
    exact hbelow name (by simp [embedded?, hq]) n hn y obj part hobj hcls hm
  | array k e hq he =>
    simp only [hq, he, if_neg Bool.false_ne_true, Option.some.injEq] at hn
    simp only [Instance.Holds, hq, he, if_neg Bool.false_ne_true] at hholds
    rw [encodeAction_array hq he, Except.ok.injEq] at hpart
    simp only [KindSound, hq, ElementSound, he, if_neg Bool.false_ne_true] at hk
    rw [← hpart, length_flatMap_encode hk.2, hholds, hn]
  | objects k e hq he =>
    simp only [hq, he, if_true, Option.map_eq_some_iff] at hn
    obtain ⟨m, hm, rfl⟩ := hn
    simp only [Instance.Holds, hq, he, if_true] at hholds
    obtain ⟨hlen, hcls⟩ := hholds
    rw [encodeAction_objects hq he] at hpart
    obtain ⟨parts, hparts, rfl⟩ := encodeRefs_eq_ok.mp hpart
    have hall : ∀ own ∈ parts, own.length = m := by
      intro own hown
      obtain ⟨y, hy, href⟩ := forall₂_of_mem hparts.flip hown
      obtain ⟨obj, hobj, hmarshal⟩ := encodeRef_eq_ok.mp href
      have hc := hcls y hy
      rw [Store.class?, hobj, Option.map_some, Option.some.injEq] at hc
      exact hbelow _ (by simp [embedded?, hq, he]) m hm y obj own hobj hc hmarshal
    rw [List.length_flatten, List.map_eq_replicate_iff.mpr hall, List.sum_replicate_nat,
      ← hparts.length_eq, hlen]
  | words field e hq he => simp [hq] at hn
  | list field e hq he => simp [hq] at hn

theorem marshal_length (hg : p.registry.Grounded) (k : Nat) : ∀ c ∈ p.registry.classes,
    Height p.registry.Embeds k c.name → p.TakesExact s c.name := by
  induction k with
  | zero => exact fun c _ h => h.elim
  | succ k ih =>
    intro c hc hheight n hn x i bytes hi hcn hm
    rw [hg.classBytes_eq hc, ← hcn] at hn
    obtain ⟨parts, hparts, rfl⟩ := marshal_parts hp hs hi hm
    refine flatten_length_of_total hparts (fun a ha part hpart m hm => ?_) hn
    refine partOf_length hp hs hno hi ha (fun e he hemb => ?_) hpart hm
    exact ih e he (hheight _ (hcn ▸ hemb))

/-- Encodings consist of parts, which lie behind the exact number of bytes of what comes before. -/
theorem marshal_places (hg : p.registry.Grounded) {x : Nat} {i : Instance}
    (hi : s.get? x = some i) {c : ClassDescription} (hcn : i.className = c.name)
    {bytes : List UInt8} (hm : p.marshal s i = .ok bytes) :
    ∃ parts, List.Forall₂ (fun a part => p.partOf s i a = .ok part)
        (p.registry.serialised c.name) parts ∧ bytes = parts.flatten ∧
      ∀ k, 0 ≤ sizeOrMark (totalBytes p.registry.exactBytes
          ((p.registry.serialised c.name).take k)) →
        sizeOrMark (totalBytes p.registry.exactBytes ((p.registry.serialised c.name).take k)) =
          ((parts.take k).flatten.length : Int) := by
  obtain ⟨parts, hparts, rfl⟩ := marshal_parts hp hs hi hm
  rw [hcn] at hparts
  refine ⟨parts, hparts, rfl, fun k hnonneg => ?_⟩
  cases htotal : totalBytes p.registry.exactBytes ((p.registry.serialised c.name).take k) with
  | none =>
    rw [htotal] at hnonneg
    cases hnonneg
  | some n =>
    have hlength : (parts.take k).flatten.length = n := by
      refine flatten_length_of_total (List.forall₂_take k hparts)
        (fun a ha part hpart m hm => ?_) htotal
      refine partOf_length hp hs hno hi (hcn ▸ List.mem_of_mem_take ha) (fun e he _ => ?_) hpart hm
      exact marshal_length hp hs hno hg _ e he (hg e he)
    rw [sizeOrMark, hlength]

end Lengths

theorem Planned.listBeforeCount?_eq_none (hp : p.Planned) {c : ClassDescription}
    (hc : c ∈ p.registry.classes) {regions : List Region}
    (h : regions.map (fun g => (g.className, g.attr)) = p.registry.wireAttributes c.name) :
    Layout.listBeforeCount? [] regions = none := by
  have hattrs := serialised_of_wireAttributes h
  refine Registry.listBeforeCount?_eq_none fun pre g post hsplit field hcount => .inr ?_
  rw [hsplit, List.map_append, List.map_cons] at hattrs
  obtain ⟨b, hb, hbn⟩ := hp.count_ahead c hc _ _ _ hattrs field hcount
  obtain ⟨g', hg', rfl⟩ := List.mem_map.mp hb
  exact ⟨g', hg', hbn⟩

theorem Planned.laidOut (hp : p.Planned) (hg : p.registry.Grounded) {c : ClassDescription}
    (hc : c ∈ p.registry.classes) : ∃ regions final,
      p.registry.placeAll 0 (p.registry.wireAttributes c.name) = (regions, [], final) ∧
      regions.map (fun g => (g.className, g.attr)) = p.registry.wireAttributes c.name ∧
      p.registry.analyze c.name =
        (some ⟨c.name, if final < 0 then -1 else final, regions, []⟩, none) := by
  obtain ⟨regions, final, hplace, hmap, -⟩ :=
    placeAll_ok (extents_ok hp.consistent hp.rooted hg hc) 0
  exact ⟨regions, final, hplace, hmap,
    analyze_of_placed hc hplace (hp.listBeforeCount?_eq_none hc hmap)⟩

/-- A class that is planned has a layout without errors, in which every attribute lies behind the
exact number of bytes of those before it. -/
theorem analyze_eq (hp : p.Planned) (hg : p.registry.Grounded) (hrange : p.registry.InRange)
    {c : ClassDescription} (hc : c ∈ p.registry.classes)
    (hlead : leadingBytes p.registry.exactBytes (p.registry.serialised c.name) < 2 ^ 63) :
    ∃ l, p.registry.analyze c.name = (some l, none) ∧
      l.regions.map (fun g => (g.className, g.attr)) = p.registry.wireAttributes c.name ∧
      l.staticSize = sizeOrMark (p.registry.classBytes c.name) ∧
      ∀ (k : Nat) (g : Region), l.regions[k]? = some g →
        g.start = sizeOrMark (totalBytes p.registry.exactBytes
          ((p.registry.serialised c.name).take k)) ∧
        g.boundary = sizeOrMark (totalBytes p.registry.exactBytes
          ((p.registry.serialised c.name).take (k + 1))) := by
  have hser := wireAttributes_map p.registry c.name
  obtain ⟨regions, hplace, hmap, hat⟩ := @placeAll_eq p.registry
    (p.registry.wireAttributes c.name) []
    (fun q hq => extent_eq hp.consistent hp.rooted hg hrange hc (hser ▸ List.mem_map_of_mem hq))
    (fun pre post hpre m hm => by
      rw [← hser, hpre] at hlead
      exact Nat.lt_of_le_of_lt (totalBytes_le_leading post hm) hlead)
  rw [hser] at hat hplace
  rw [List.nil_append, ← hg.classBytes_eq hc] at hplace
  have hanalyze := analyze_of_placed hc hplace (hp.listBeforeCount?_eq_none hc hmap)
  rw [sizeOrMark_shown] at hanalyze
  exact ⟨_, hanalyze, hmap, rfl, hat⟩

theorem describes_of_leading (hp : p.Planned) (hg : p.registry.Grounded)
    (hno : p.registry.NoRedeclaration) (hrange : p.registry.InRange) {c : ClassDescription}
    (hc : c ∈ p.registry.classes)
    (hlead : leadingBytes p.registry.exactBytes (p.registry.serialised c.name) < 2 ^ 63) :
    ∃ l, p.Describes c l := by
  obtain ⟨l, hl, hmap, hsize, hat⟩ := analyze_eq hp hg hrange hc hlead
  have hattrs := serialised_of_wireAttributes hmap
  refine ⟨l, hl, hmap ▸ wireAttributes_line hp.consistent hp.rooted hc, fun g hg0 => ?_,
    fun k g g' hk hk' => ?_, ?_, fun k g hk => ?_, fun k g hk m hm => ?_,
    fun ops x i hi hcn hacyclic => ?_⟩
  · exact (hat 0 g hg0).1
  · rw [(hat k g hk).2, (hat (k + 1) g' hk').1]
  · rw [hsize, staticSize_eq hp.consistent hp.rooted hg hrange hc]
  · have hvaries : ∀ g' : Region, g' ∈ l.regions →
        (p.registry.exactBytes g'.attr = none ↔ p.registry.Varies g'.attr) := fun g' hg' =>
      exactBytes_eq_none hp.consistent hp.rooted hg hc (hattrs ▸ List.mem_map_of_mem hg')
    rw [(hat k g hk).2, sizeOrMark_eq_mark, hattrs, totalBytes_take_eq_none]
    constructor
    · rintro ⟨j, hj, g', hg', hnone⟩
      exact ⟨j, hj, g', hg', (hvaries g' (List.mem_of_getElem? hg')).mp hnone⟩
    · rintro ⟨j, hj, g', hg', hv⟩
      exact ⟨j, hj, g', hg', (hvaries g' (List.mem_of_getElem? hg')).mpr hv⟩
  · rw [(hat k g hk).2, hattrs, hm, sizeOrMark]
  · have hs := run_sound hp ops
    obtain ⟨bytes, hm⟩ := marshal_ok hp hs hi (hacyclic.height hs (Store.get?_lt hi))
    obtain ⟨parts, hparts, rfl, hplaces⟩ := marshal_places hp hs hno hg hi hcn hm
    rw [hattrs, List.forall₂_map_left_iff] at hparts
    refine ⟨parts, hm, hparts, fun k g hk => ?_⟩
    obtain ⟨hstart, hboundary⟩ := hat k g hk
    rw [hstart, hboundary]
    exact ⟨hplaces k, hplaces (k + 1)⟩

theorem Describes.leading_lt (hp : p.Planned) (hg : p.registry.Grounded) {c : ClassDescription}
    (hc : c ∈ p.registry.classes) {l : Layout} (h : p.Describes c l) :
    leadingBytes p.registry.exactBytes (p.registry.serialised c.name) < 2 ^ 63 := by
  obtain ⟨regions, final, hplace, hmap, hanalyze⟩ := hp.laidOut hg hc
  have hregions : l.regions = regions := by
    have hl := hanalyze.symm.trans h.analyzed
    cases hl
    rfl
  have hattrs := serialised_of_wireAttributes hmap
  obtain ⟨pre, post, hsplit, hpre⟩ :=
    exists_leading (f := p.registry.exactBytes) (p.registry.serialised c.name)
  cases hlen : pre.length with
  | zero =>
    rw [List.length_eq_zero_iff.mp hlen, totalBytes, Option.some.injEq] at hpre
    omega
  | succ k =>
    -- the last of these attributes ends where they all end, which is a signed 64-bit number
    have hk : k < regions.length := by
      have hlength := congrArg List.length (hattrs.symm.trans hsplit)
      rw [List.length_map, List.length_append] at hlength
      omega
    have htake : (regions.map (·.attr)).take (k + 1) = pre := by
      rw [← hattrs, hsplit, ← hlen, List.take_left]
    have hget : regions[k]? = some regions[k] := List.getElem?_eq_getElem hk
    have hend := h.exact k regions[k] (by rw [hregions, hget]) _ (by rw [hregions, htake, hpre])
    have hlt := placeAll_boundary_lt (r := p.registry) 0 (p.registry.wireAttributes c.name)
      regions[k] (by rw [hplace]; exact List.getElem_mem hk)
    rw [hend] at hlt
    omega

/-- Where no attribute is declared again and no static size wraps around, the layout of a class
describes the encodings of its objects exactly if what comes before the first dynamic list in them
takes no more bytes than a signed 64-bit number can tell. -/
theorem analyze_describes_iff {source : Registry} {options : PlanOptions}
    (h : p.Compiled source options) (hno : p.registry.NoRedeclaration)
    (hrange : p.registry.InRange) {c : ClassDescription} (hc : c ∈ p.registry.classes) :
    (∃ l, p.Describes c l) ↔
      leadingBytes p.registry.exactBytes (p.registry.serialised c.name) < 2 ^ 63 := by
  have hp := h.toPlanned
  have hg := h.built.grounded h.isSealed
  constructor
  · rintro ⟨l, hl⟩
    exact hl.leading_lt hp hg hc
  · exact describes_of_leading hp hg hno hrange hc

end Program

namespace Charted

def source : Registry := .gather [
  { name := "Point", attributes := [
      { name := "x", kind := some (.primitive { type := "uint16" }) },
      { name := "label", kind := some (.primitive { type := "uint8" }), transient := true },
      { name := "y", kind := some (.primitive { type := "uint16" }) }] },
  { name := "Path", attributes := [
      { name := "count", kind := some (.primitive { type := "uint8" }) },
      { name := "points", kind := some (.dynamicList "count" { className := "Point" }) }] },
  { name := "Base", attributes := [
      { name := "version", kind := some (.primitive { type := "uint8", default := "2" }) },
      { name := "corners", kind := some (.fixedList 2 { className := "Point" }) }] },
  { name := "Route", parent := "Base", attributes := [
      { name := "origin", kind := some (.object "Point") },
      { name := "path", kind := some (.object "Path") },
      { name := "codes", kind := some (.fixedList 3 { type := "uint16" }) }] }]

def program : Program := (Program.compile? source {}).getD ⟨{}, []⟩

def ops : List Operation := [
  .new "Route", .new "Point", .setUint 5 "x" 258, .append 3 "points" 5, .setArray 4 "codes" 1 7]

theorem ops_evaluated : (Program.compile? source {}).isSome = true ∧
    program.registry.NoRedeclaration ∧ program.registry.InRange ∧
    Registry.leadingBytes program.registry.exactBytes (program.registry.serialised "Route") = 13 ∧
    ((program.run ops).get? 4).map (·.className) = some "Route" ∧
    (((program.run ops).get? 4).map fun i => (program.marshal (program.run ops) i).toOption) =
      some (some [2, 0, 0, 0, 0, 0, 0, 0, 0, 0, 0, 0, 0, 1, 1, 2, 0, 0, 0, 0, 0, 7, 0, 0]) ∧
    (program.run ops).isRanked (fun x => [0, 0, 0, 1, 2, 0].getD x 0) = true ∧
    (program.registry.analyze "Route").1.map (fun l =>
      (l.staticSize, l.regions.map fun g => (g.attr.name, g.start, g.boundary))) =
      some (-1, [("version", 0, 1), ("corners", 1, 9), ("origin", 9, 13), ("path", 13, -1),
        ("codes", -1, -1)]) ∧
    (program.registry.lookup "Route").isSome = true := by
  decide +kernel

theorem program_compiled : program.Compiled source {} :=
  Program.compiled_getD (Registry.gather_built _) ops_evaluated.1 _

theorem ops_acyclic : (program.run ops).Acyclic 4 :=
  Store.acyclic_of_isRanked ops_evaluated.2.2.2.2.2.2.1 4

theorem exists_route : ∃ i, (program.run ops).get? 4 = some i ∧ i.className = "Route" ∧
    program.marshal (program.run ops) i =
      .ok [2, 0, 0, 0, 0, 0, 0, 0, 0, 0, 0, 0, 0, 1, 1, 2, 0, 0, 0, 0, 0, 7, 0, 0] := by
  obtain ⟨-, -, -, -, hclass, hbytes, -⟩ := ops_evaluated
  obtain ⟨i, hi, hcn⟩ := Option.map_eq_some_iff.mp hclass
  rw [hi, Option.map_some, Option.some.injEq] at hbytes
  refine ⟨i, hi, hcn, ?_⟩
  cases hm : program.marshal (program.run ops) i with
  | error e => simp [hm, Except.toOption] at hbytes
  | ok bytes => simpa [hm, Except.toOption] using hbytes

end Charted

/-- From the path on nothing is in a fixed place, not even what has a fixed size. -/
theorem charted_described : ∃ c ∈ Charted.program.registry.classes, ∃ l i,
    c.name = "Route" ∧ Charted.program.registry.NoRedeclaration ∧
    Charted.program.registry.InRange ∧
    Charted.program.Describes c l ∧ l.staticSize = -1 ∧
    l.regions.map (fun g => (g.attr.name, g.start, g.boundary)) =
      [("version", 0, 1), ("corners", 1, 9), ("origin", 9, 13), ("path", 13, -1),
        ("codes", -1, -1)] ∧
    (Charted.program.run Charted.ops).get? 4 = some i ∧ i.className = "Route" ∧
    (Charted.program.run Charted.ops).Acyclic 4 ∧
    Charted.program.marshal (Charted.program.run Charted.ops) i =
      .ok [2, 0, 0, 0, 0, 0, 0, 0, 0, 0, 0, 0, 0, 1, 1, 2, 0, 0, 0, 0, 0, 7, 0, 0] := by
  obtain ⟨-, hno, hrange, hlead, -, -, -, hlayout, hroute⟩ := Charted.ops_evaluated
  obtain ⟨c, hlookup⟩ := Option.isSome_iff_exists.mp hroute
  have hc := Registry.lookup_mem hlookup
  have hname := Registry.lookup_name hlookup
  obtain ⟨i, hi, hcn, hm⟩ := Charted.exists_route
  obtain ⟨l, hl⟩ := (Program.analyze_describes_iff Charted.program_compiled hno hrange hc).mpr
    (by rw [hname, hlead]; decide)
  have hanalyzed := hl.analyzed
  rw [hname] at hanalyzed
  simp only [hanalyzed, Option.map_some, Option.some.injEq, Prod.mk.injEq] at hlayout
  exact ⟨c, hc, l, i, hname, hno, hrange, hl, hlayout.1, hlayout.2, hi, hcn, Charted.ops_acyclic,
    hm⟩

namespace Stretched

def source : Registry := .gather [
  { name := "Item", attributes := [
      { name := "v", kind := some (.primitive { type := "uint8" }) }] },
  { name := "Wide", attributes := [
      { name := "lo", kind := some (.fixedList 4611686018427387904 { type := "uint8" }) },
      { name := "hi", kind := some (.fixedList 4611686018427387904 { type := "uint8" }) },
      { name := "n", kind := some (.primitive { type := "uint8" }) },
      { name := "items", kind := some (.dynamicList "n" { className := "Item" }) }] }]

def program : Program := (Program.compile? source {}).getD ⟨{}, []⟩

theorem program_evaluated : (Program.compile? source {}).isSome = true ∧
    program.registry.NoRedeclaration ∧ program.registry.InRange ∧
    (program.registry.analyze "Wide").2 = none ∧
    (program.registry.analyze "Wide").1.map (·.regions.map fun g =>
      (g.attr.name, g.start, g.boundary)) = some [("lo", 0, 4611686018427387904),
        ("hi", 4611686018427387904, -9223372036854775808), ("n", -9223372036854775808, -1),
        ("items", -1, -1)] ∧
    ((program.registry.analyze "Wide").1.all fun l => (l.regions.take 3).all fun g =>
      (program.registry.exactBytes g.attr).isSome) = true := by
  decide +kernel

theorem program_compiled : program.Compiled source {} :=
  Program.compiled_getD (Registry.gather_built _) program_evaluated.1 _

end Stretched

/-- Only items have a static size, and it is in range. Still the count of the items, with no list
inside or before it, is said to end nowhere. -/
theorem stretched_misplaced : Stretched.program.Compiled Stretched.source {} ∧
    Stretched.program.registry.NoRedeclaration ∧ Stretched.program.registry.InRange ∧
    ∃ l g, Stretched.program.registry.analyze "Wide" = (some l, none) ∧
      l.regions[2]? = some g ∧ g.attr.name = "n" ∧ g.boundary = -1 ∧
      ¬ ∃ j ≤ 2, ∃ g' : Region, l.regions[j]? = some g' ∧
        Stretched.program.registry.Varies g'.attr := by
  obtain ⟨-, hno, hrange, hnone, hregions, hexact⟩ := Stretched.program_evaluated
  obtain ⟨l, hl, hregions⟩ := Option.map_eq_some_iff.mp hregions
  have hthird := congrArg (·[2]?) hregions
  simp only [List.getElem?_map, Option.map_eq_some_iff, List.getElem?_cons_succ,
    List.getElem?_cons_zero, Prod.mk.injEq] at hthird
  obtain ⟨g, hg, hname, -, hboundary⟩ := hthird
  have hgrounded := Stretched.program_compiled.built.grounded Stretched.program_compiled.isSealed
  refine ⟨Stretched.program_compiled, hno, hrange, l, g, Prod.ext hl hnone, hg, hname, hboundary, ?_⟩
  rintro ⟨j, hj, g', hg', hv⟩
  rw [hl, Option.all_some, List.all_eq_true] at hexact
  have htake : g' ∈ l.regions.take 3 := by
    refine List.mem_of_getElem? (i := j) ?_
    rw [List.getElem?_take, if_pos (by omega), hg']
  have hsome := hexact g' htake
  rw [Registry.exactBytes_of_varies hgrounded hv] at hsome
  cases hsome

end PduCompiler
