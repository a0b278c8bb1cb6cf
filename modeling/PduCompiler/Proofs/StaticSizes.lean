import PduCompiler.Proofs.WireLayout

/-! Sizes that are told in advance. A class that is planned is always laid out, whatever its size. A
static size that is not negative is the size of every object of the class, also if sums wrapped around
on the way to it. The sign tells the classes with lists from the others exactly as long as all fixed
sizes are in range. -/

namespace PduCompiler

namespace Registry

/-- The size of a class is told in full: by its sign whether a dynamic list is part of the class, and
otherwise to the byte. -/
structure SizedExactly (r : Registry) (name : String) (n : Int) : Prop where
  found : r.staticSize name = .ok n
  negative : n < 0 ↔ ∃ a ∈ r.serialised name, r.Varies a
  mark : n < 0 → n = -1
  sum : (¬ ∃ a ∈ r.serialised name, r.Varies a) → ∃ m : Nat, r.classBytes name = some m ∧ n = m
  layout : ∀ l, r.analyze name = (some l, none) → l.staticSize = n

variable {r : Registry}

theorem analyze_staticSize {c : ClassDescription} (hc : c ∈ r.classes) {regions : List Region}
    {final : Int} (hplace : r.placeAll 0 (r.wireAttributes c.name) = (regions, [], final))
    {l : Layout} (hl : r.analyze c.name = (some l, none)) :
    l.staticSize = if final < 0 then -1 else final := by
  have hcounts : Layout.listBeforeCount? [] regions = none := by
    have hcontains : r.contains c.name = true := contains_iff.mpr ⟨c, hc, rfl⟩
    cases hcounts : Layout.listBeforeCount? [] regions with
    | none => rfl
    | some q => simp [analyze, hcontains, hplace, hcounts] at hl
  rw [analyze_of_placed hc hplace hcounts] at hl
  injection hl with hl
  injection hl with hl
  rw [← hl]

section Sized

variable (hs : r.Consistent) (hr : r.Rooted) (hg : r.Grounded)

include hs hr hg

theorem classBytes_eq_none {c : ClassDescription} (hc : c ∈ r.classes) :
    r.classBytes c.name = none ↔ ∃ a ∈ r.serialised c.name, r.Varies a := by
  rw [hg.classBytes_eq hc, totalBytes_eq_none]
  constructor
  · rintro ⟨a, ha, hnone⟩
    exact ⟨a, ha, (exactBytes_eq_none hs hr hg hc ha).mp hnone⟩
  · rintro ⟨a, ha, hv⟩
    exact ⟨a, ha, (exactBytes_eq_none hs hr hg hc ha).mpr hv⟩

theorem layout_staticSize (hrange : r.InRange) {c : ClassDescription} (hc : c ∈ r.classes)
    {l : Layout} (hl : r.analyze c.name = (some l, none)) :
    l.staticSize = sizeOrMark (r.classBytes c.name) := by
  have hser := wireAttributes_map r c.name
  have hext : ∀ q ∈ r.wireAttributes c.name,
      extent r.staticSize q.2 = .ok (extentOf (r.exactBytes q.2)) := fun q hq =>
    extent_eq hs hr hg hrange hc (hser ▸ List.mem_map_of_mem hq)
  cases hbytes : r.classBytes c.name with
  | none =>
    -- what comes before a list may be out of range, but behind the list the mark stays
    rw [hg.classBytes_eq hc, ← hser] at hbytes
    obtain ⟨a, ha, hnone⟩ := totalBytes_eq_none.mp hbytes
    obtain ⟨q, hq, rfl⟩ := List.mem_map.mp ha
    obtain ⟨regions, final, hplace, -, -, hlater⟩ := placeAll_ok (extents_ok hs hr hg hc) 0
    have hneg : final < 0 := hlater q hq _ (hext q hq) (by rw [hnone, extentOf, Extent.toInt]; omega)
    rw [analyze_staticSize hc hplace hl, if_pos hneg, sizeOrMark]
  | some m =>
    have hm := hrange c hc m hbytes
    rw [hg.classBytes_eq hc, ← hser] at hbytes
    obtain ⟨regions, hplace, -, -⟩ := @placeAll_eq r (r.wireAttributes c.name) [] hext (by
      intro pre post hpre k hk
      rw [hpre, totalBytes_append, ← List.nil_append pre, hk] at hbytes
      obtain ⟨j, -, hj⟩ : ∃ j, totalBytes r.exactBytes post = some j ∧ k + j = m := by
        simpa using hbytes
      omega)
    rw [List.nil_append, hbytes] at hplace
    rw [analyze_staticSize hc hplace hl, sizeOrMark_shown]

theorem InRange.sizedExactly (hrange : r.InRange) {c : ClassDescription} (hc : c ∈ r.classes) :
    r.SizedExactly c.name (sizeOrMark (r.classBytes c.name)) := by
  have hvaries := classBytes_eq_none hs hr hg hc
  refine ⟨staticSize_eq hs hr hg hrange hc, ?_, ?_, fun hnot => ?_, fun l hl => ?_⟩
  · rw [← hvaries]
    cases r.classBytes c.name <;> simp [sizeOrMark]
  · cases r.classBytes c.name <;> simp [sizeOrMark]
  · rw [← hvaries] at hnot
    obtain ⟨m, hm⟩ := Option.ne_none_iff_exists'.mp hnot
    exact ⟨m, hm, by rw [hm, sizeOrMark]⟩
  · exact layout_staticSize hs hr hg hrange hc hl

theorem SizedExactly.lt {c : ClassDescription} (hc : c ∈ r.classes) {n : Int}
    (h : r.SizedExactly c.name n) {m : Nat} (hm : r.classBytes c.name = some m) : m < 2 ^ 63 := by
  have hnot : ¬ ∃ a ∈ r.serialised c.name, r.Varies a := by
    rw [← classBytes_eq_none hs hr hg hc, hm]
    simp
  obtain ⟨m', hm', hn⟩ := h.sum hnot
  obtain rfl : m = m' := Option.some.inj (hm.symm.trans hm')
  obtain ⟨n', hn', htells⟩ := staticSize_tells hs hr hg hc
  obtain rfl : n = n' := Except.ok.inj (h.found.symm.trans hn')
  obtain ⟨k, -, hk⟩ := htells.of_nonneg (by omega)
  have hlt := wrap_lt k
  omega

end Sized

end Registry

namespace Program

open Registry

variable {p : Program} {source : Registry} {options : PlanOptions}

/-- Every class of a program has a layout without errors, in which all that objects of the class have
on the wire is laid out: no attribute is without an extent, and no list comes before its count. -/
theorem compiled_laidOut (h : p.Compiled source options) {c : ClassDescription}
    (hc : c ∈ p.registry.classes) : ∃ l line, p.registry.analyze c.name = (some l, none) ∧
      l.errors = [] ∧ p.registry.Line c line ∧ l.regions.map (fun g => (g.className, g.attr)) =
        (line.reverse ++ [c]).flatMap fun d => d.serialised.map fun a => (d.name, a) := by
  have hp := h.toPlanned
  have hg := h.built.grounded h.isSealed
  obtain ⟨regions, final, -, hmap, hanalyze⟩ := hp.laidOut hg hc
  obtain ⟨line, hline, hwire⟩ := wireAttributes_line hp.consistent hp.rooted hc
  exact ⟨_, line, hanalyze, rfl, hline, hmap.trans hwire⟩

end Program

namespace Regrown

/-- A child declares all names of its parent again, each with another kind. The sizes of chunks wrap
around. -/
def source : Registry := .gather [
  { name := "Chunk", attributes := [
      { name := "cells", kind := some (.fixedList 9223372036854775807 { type := "uint16" }) }] },
  { name := "Batch", attributes := [
      { name := "count", kind := some (.primitive { type := "uint8" }) },
      { name := "marks", kind := some (.fixedList 2 { type := "uint8" }) },
      { name := "items", kind := some (.dynamicList "count" { className := "Chunk" }) }] },
  { name := "Tagged", parent := "Batch", attributes := [
      { name := "items", kind := some (.object "Chunk") },
      { name := "count", kind := some (.primitive { type := "uint16" }) },
      { name := "marks", kind := some (.dynamicList "count" { type := "uint8" }) }] }]

def options : PlanOptions := { primitiveLists := true }

def program : Program := (Program.compile? source options).getD ⟨{}, []⟩

theorem program_evaluated : (Program.compile? source options).isSome = true ∧
    ¬ program.registry.NoRedeclaration ∧ ¬ program.registry.InRange ∧
    (program.registry.analyze "Tagged").1.map (fun l =>
      l.regions.map fun g => (g.className, g.attr.name, g.start, g.boundary)) =
      some [("Batch", "count", 0, 1), ("Batch", "marks", 1, 3), ("Batch", "items", 3, -1),
        ("Tagged", "items", -1, -1), ("Tagged", "count", -1, -1), ("Tagged", "marks", -1, -1)] ∧
    (program.registry.lookup "Tagged").isSome = true := by
  decide +kernel

theorem program_compiled : program.Compiled source options :=
  Program.compiled_getD (Registry.gather_built _) program_evaluated.1 _

end Regrown

theorem regrown_laidOut : ¬ Regrown.program.registry.NoRedeclaration ∧
    ¬ Regrown.program.registry.InRange ∧ ∃ c ∈ Regrown.program.registry.classes,
      c.name = "Tagged" ∧ ∃ l line, Regrown.program.registry.analyze c.name = (some l, none) ∧
      l.errors = [] ∧ Regrown.program.registry.Line c line ∧
      l.regions.map (fun g => (g.className, g.attr)) =
        (line.reverse ++ [c]).flatMap (fun d => d.serialised.map fun a => (d.name, a)) ∧
      l.regions.map (fun g => (g.className, g.attr.name, g.start, g.boundary)) =
        [("Batch", "count", 0, 1), ("Batch", "marks", 1, 3), ("Batch", "items", 3, -1),
          ("Tagged", "items", -1, -1), ("Tagged", "count", -1, -1), ("Tagged", "marks", -1, -1)] := by
  obtain ⟨-, hagain, hrange, hregions, htagged⟩ := Regrown.program_evaluated
  obtain ⟨c, hlookup⟩ := Option.isSome_iff_exists.mp htagged
  have hname := Registry.lookup_name hlookup
  have hc := Registry.lookup_mem hlookup
  obtain ⟨l, line, hl, herrors, hline, hmap⟩ :=
    Program.compiled_laidOut Regrown.program_compiled hc
  have hanalyze := hl
  rw [hname] at hanalyze
  rw [hanalyze, Option.map_some, Option.some.injEq] at hregions
  exact ⟨hagain, hrange, c, hc, hname, l, line, hl, herrors, hline, hmap, hregions⟩

namespace Registry

/-- A static size is found for every class of an ordered registry. In a program that declares no
attribute again one that is not negative is the size of every object of the class that does not
contain itself. -/
theorem staticSize_settles {source r : Registry} {classes : List ClassDescription}
    (hb : source.Built) (hseal : source.toSealed = .ok r) (horder : r.order = .ok classes) :
    (∀ c ∈ r.classes, ∃ n, r.staticSize c.name = .ok n) ∧
    ∀ options p, (r.planAll options).2 = .ok p → r.NoRedeclaration →
      ∀ c ∈ r.classes, ∀ n, r.staticSize c.name = .ok n → 0 ≤ n →
      ∀ ops x i, (p.run ops).get? x = some i → i.className = c.name → (p.run ops).Acyclic x →
        p.size (p.run ops) i = .ok n := by
  have hs := hb.consistent hseal
  have hg := hb.grounded hseal
  obtain ⟨hr, -⟩ := order_eq_ok horder
  refine ⟨fun c hc => ?_, fun options p hplan hno c hc n hn hpos ops x i hi hcn hx => ?_⟩
  · obtain ⟨n, hn, -⟩ := staticSize_tells hs hr hg hc
    exact ⟨n, hn⟩
  · obtain ⟨-, -, rfl, -⟩ := planAll_eq_ok hplan
    have hp : p.Planned := Program.Compiled.toPlanned ⟨hb, hseal, hplan⟩
    have hsound := Program.run_sound hp ops
    obtain ⟨n', hn', htells⟩ := staticSize_tells hs hr hg hc
    obtain rfl : n = n' := Except.ok.inj (hn.symm.trans hn')
    obtain ⟨m, hm, hwrap⟩ := htells.of_nonneg hpos
    obtain ⟨bytes, hbytes⟩ :=
      Program.marshal_ok hp hsound hi (hx.height hsound (Store.get?_lt hi))
    have hlength : bytes.length = m :=
      Program.marshal_length hp hsound hno hg _ c hc (hg c hc) m hm x i bytes hi hcn hbytes
    rw [Program.size_eq_wrap_length hp hsound hno hi hbytes, hlength, hwrap]

end Registry

namespace Oversized

/-- A block takes one byte more than signed numbers reach. An archive has a block and a list, a
segment neither. -/
def source : Registry := .gather [
  { name := "Point", attributes := [
      { name := "x", kind := some (.primitive { type := "uint16" }) },
      { name := "y", kind := some (.primitive { type := "uint16" }) }] },
  { name := "Block", attributes := [
      { name := "cells", kind := some (.fixedList 9223372036854775807 { type := "uint8" }) },
      { name := "check", kind := some (.primitive { type := "uint8" }) }] },
  { name := "Archive", attributes := [
      { name := "block", kind := some (.object "Block") },
      { name := "count", kind := some (.primitive { type := "uint8" }) },
      { name := "points", kind := some (.dynamicList "count" { className := "Point" }) }] },
  { name := "Base", attributes := [
      { name := "version", kind := some (.primitive { type := "uint8", default := "2" }) },
      { name := "count", kind := some (.primitive { type := "uint8" }) },
      { name := "seen", kind := some (.dynamicList "count" { className := "Point" }),
        transient := true }] },
  { name := "Segment", parent := "Base", attributes := [
      { name := "ends", kind := some (.fixedList 2 { className := "Point" }) },
      { name := "middle", kind := some (.object "Point") },
      { name := "codes", kind := some (.fixedList 3 { type := "uint16" }) }] }]

def program : Program := (Program.compile? source {}).getD ⟨{}, []⟩

def ops : List Operation := [.new "Segment", .new "Point", .append 3 "seen" 4]

theorem ops_evaluated : (Program.compile? source {}).isSome = true ∧
    program.registry.NoRedeclaration ∧ ¬ program.registry.InRange ∧
    ["Block", "Archive", "Segment"].map program.registry.staticSize =
      [.ok (-9223372036854775808), .ok (-9223372036854775808), .ok 20] ∧
    ["Block", "Archive", "Segment"].map program.registry.classBytes =
      [some 9223372036854775808, none, some 20] ∧
    ["Block", "Archive", "Segment"].map (fun name =>
      (program.registry.analyze name).1.map (·.staticSize)) = [some (-1), some (-1), some 20] ∧
    ((program.run ops).get? 3).map (·.className) = some "Segment" ∧
    (program.run ops).isRanked (fun x => if x = 3 then 1 else 0) = true ∧
    (program.registry.lookup "Segment").isSome = true := by
  decide +kernel

theorem program_compiled : program.Compiled source {} :=
  Program.compiled_getD (Registry.gather_built _) ops_evaluated.1 _

theorem program_ordered : ∃ classes, program.registry.order = .ok classes := by
  obtain ⟨classes, ho, -⟩ := Registry.planAll_eq_ok program_compiled.planned
  exact ⟨classes, ho⟩

theorem ops_acyclic : (program.run ops).Acyclic 3 :=
  Store.acyclic_of_isRanked ops_evaluated.2.2.2.2.2.2.2.1 3

end Oversized

/-- Segments are measured right although there are blocks. -/
theorem oversized_segment_size : Oversized.program.registry.NoRedeclaration ∧
    ¬ Oversized.program.registry.InRange ∧ ∃ i,
      (Oversized.program.run Oversized.ops).get? 3 = some i ∧ i.className = "Segment" ∧
      (Oversized.program.run Oversized.ops).Acyclic 3 ∧
      Oversized.program.registry.staticSize "Segment" = .ok 20 ∧
      Oversized.program.size (Oversized.program.run Oversized.ops) i = .ok 20 := by
  obtain ⟨-, hno, hrange, hsizes, -, -, hclass, -, hsegment⟩ := Oversized.ops_evaluated
  obtain ⟨classes, horder⟩ := Oversized.program_ordered
  obtain ⟨i, hi, hcn⟩ := Option.map_eq_some_iff.mp hclass
  obtain ⟨c, hlookup⟩ := Option.isSome_iff_exists.mp hsegment
  have hname := Registry.lookup_name hlookup
  have hsize : Oversized.program.registry.staticSize "Segment" = .ok 20 := by
    simp only [List.map_cons, List.map_nil, List.cons.injEq] at hsizes
    exact hsizes.2.2.1
  obtain ⟨-, hsound⟩ := Registry.staticSize_settles Oversized.program_compiled.built
    Oversized.program_compiled.isSealed horder
  refine ⟨hno, hrange, i, hi, hcn, Oversized.ops_acyclic, hsize, ?_⟩
  exact hsound _ _ Oversized.program_compiled.planned hno c (Registry.lookup_mem hlookup) 20
    (hname ▸ hsize) (by omega) _ 3 i hi (hcn.trans hname.symm) Oversized.ops_acyclic

namespace Registry

/-- All sizes are told exactly if every class of a fixed size is in range. -/
theorem sizedExactly_iff_inRange {source r : Registry} {classes : List ClassDescription}
    (hb : source.Built) (hseal : source.toSealed = .ok r) (horder : r.order = .ok classes) :
    (∀ c ∈ r.classes, ∃ n, r.SizedExactly c.name n) ↔ r.InRange := by
  have hs := hb.consistent hseal
  have hg := hb.grounded hseal
  obtain ⟨hr, -⟩ := order_eq_ok horder
  constructor
  · intro h c hc m hm
    obtain ⟨n, hn⟩ := h c hc
    exact hn.lt hs hr hg hc hm
  · intro hrange c hc
    exact ⟨_, hrange.sizedExactly hs hr hg hc⟩

end Registry

/-- A block of a fixed size has a negative one, which is passed on to archives, and layouts do not
show the same. -/
theorem oversized_not_sizedExactly :
    ["Block", "Archive"].map Oversized.program.registry.staticSize =
      [.ok (-9223372036854775808), .ok (-9223372036854775808)] ∧
    ["Block", "Archive"].map Oversized.program.registry.classBytes =
      [some 9223372036854775808, none] ∧
    ["Block", "Archive"].map (fun name =>
      (Oversized.program.registry.analyze name).1.map (·.staticSize)) = [some (-1), some (-1)] ∧
    ¬ ∀ c ∈ Oversized.program.registry.classes,
      ∃ n, Oversized.program.registry.SizedExactly c.name n := by
  obtain ⟨-, -, hrange, hsizes, hbytes, hlayouts, -⟩ := Oversized.ops_evaluated
  obtain ⟨classes, horder⟩ := Oversized.program_ordered
  refine ⟨congrArg (List.take 2) hsizes, congrArg (List.take 2) hbytes,
    congrArg (List.take 2) hlayouts, fun h => hrange ?_⟩
  exact (Registry.sizedExactly_iff_inRange Oversized.program_compiled.built
    Oversized.program_compiled.isSealed horder).mp h

end PduCompiler
