import PduCompiler.Proofs.InitialValues
import PduCompiler.Proofs.Sealable

/-! The way up from a class. It ends in every registry, also where parents are missing or lie on a
cycle, and it meets no name twice. Attributes are looked for along it, and the nearest class that
declares one is found. -/

namespace PduCompiler

/-- The attribute is the first one by a name that a class declares. -/
def ClassDescription.Declares (c : ClassDescription) (attr : String) (a : Attribute) : Prop :=
  ∃ before after, c.attributes = before ++ a :: after ∧ a.name = attr ∧
    ∀ b ∈ before, b.name ≠ attr

theorem ClassDescription.attribute?_eq_some {c : ClassDescription} {attr : String} {a : Attribute} :
    c.attribute? attr = some a ↔ c.Declares attr a := by
  rw [attribute?, List.find?_eq_some_iff_append, Declares]
  constructor
  · rintro ⟨hname, before, after, heq, hbefore⟩
    exact ⟨before, after, heq, by simpa using hname, by simpa using hbefore⟩
  · rintro ⟨before, after, heq, hname, hbefore⟩
    exact ⟨by simpa using hname, before, after, heq, by simpa using hbefore⟩

theorem ClassDescription.attribute?_eq_none {c : ClassDescription} {attr : String} :
    c.attribute? attr = none ↔ ∀ a ∈ c.attributes, a.name ≠ attr := by
  simp [attribute?]

namespace Registry

variable {r : Registry} {seen : List String} {c : ClassDescription} {l l' : List ClassDescription}

theorem lookup_eq_none_iff {name : String} : r.lookup name = none ↔ name ∉ r.names := by
  simp [lookup, names]

/-- A walk up from a class that has come to its end, with the names seen before and the classes that
it meets. -/
inductive Ascends (r : Registry) : List String → ClassDescription → List ClassDescription → Prop
  | root {seen : List String} {c : ClassDescription} (hp : c.hasParent = false) :
      Ascends r seen c []
  | repeated {seen : List String} {c : ClassDescription} (hs : c.parent ∈ seen) :
      Ascends r seen c []
  | unknown {seen : List String} {c : ClassDescription} (hq : r.lookup c.parent = none) :
      Ascends r seen c []
  | climb {seen : List String} {c q : ClassDescription} {l : List ClassDescription}
      (hp : c.hasParent = true) (hs : c.parent ∉ seen) (hq : r.lookup c.parent = some q)
      (hl : Ascends r (c.parent :: seen) q l) : Ascends r seen c (q :: l)

theorem Ascends.unique (h : r.Ascends seen c l) (h' : r.Ascends seen c l') : l = l' := by
  induction h generalizing l' with
  | root hp =>
    cases h' with
    | climb hp' => simp [hp] at hp'
    | _ => rfl
  | repeated hs =>
    cases h' with
    | climb _ hs' => exact (hs' hs).elim
    | _ => rfl
  | unknown hq =>
    cases h' with
    | climb _ _ hq' => simp [hq] at hq'
    | _ => rfl
  | climb hp hs hq _ ih =>
    cases h' with
    | root hp' => simp [hp] at hp'
    | repeated hs' => exact (hs hs').elim
    | unknown hq' => simp [hq] at hq'
    | climb _ _ hq' hl' =>
      cases Option.some.inj (hq.symm.trans hq')
      rw [ih hl']

/-- The walk ends: each step sees one more of the names in the registry. -/
theorem ascends_ancestorsFrom (fuel : Nat) (seen : List String) (c : ClassDescription)
    (hfuel : (r.names.filter (!seen.contains ·)).length ≤ fuel) :
    r.Ascends seen c (r.ancestorsFrom fuel seen c) := by
  induction fuel generalizing seen c with
  | zero =>
    by_cases hs : c.parent ∈ seen
    · exact .repeated hs
    · -- every name of the registry was seen, so this one is none of them
      refine .unknown (lookup_eq_none_iff.mpr fun hname => hs ?_)
      have hnil := List.length_eq_zero_iff.mp (Nat.le_zero.mp hfuel)
      simpa using List.filter_eq_nil_iff.mp hnil c.parent hname
  | succ fuel ih =>
    rcases ancestorsFrom_succ r fuel seen c with ⟨q, hp, hs, hq, heq⟩ | ⟨hstop, heq⟩
    · have hless := unseen_lt (List.mem_map.mpr ⟨q, lookup_mem hq, lookup_name hq⟩) hs
      rw [heq]
      exact .climb hp hs hq (ih (c.parent :: seen) q (by omega))
    · rw [heq]
      cases hp : c.hasParent with
      | false => exact .root hp
      | true =>
        by_cases hs : c.parent ∈ seen
        · exact .repeated hs
        · exact .unknown (hstop hp hs)

theorem ascends_ancestors (hn : r.names.Nodup) (hc : c ∈ r.classes) :
    r.Ascends [c.name] c (r.ancestors c.name) := by
  rw [ancestors, lookup_of_mem hn hc]
  refine ascends_ancestorsFrom _ _ _ ?_
  have hle := List.length_filter_le (fun name => !([c.name].contains name)) r.names
  rwa [names, List.length_map] at hle

theorem Ascends.isChain (h : r.Ascends seen c l) : (c :: l).IsChain r.Climbs := by
  induction h with
  | climb hp _ hq _ ih => exact .cons_cons ⟨hp, lookup_mem hq, lookup_name hq⟩ ih
  | _ => exact .singleton _

/-- The names met come after those seen before, and none of them comes twice. -/
theorem Ascends.nodup (h : r.Ascends seen c l) (hseen : seen.Nodup) :
    ((l.map (·.name)).reverse ++ seen).Nodup := by
  induction h with
  | climb _ hs hq _ ih =>
    have hrest := ih (List.nodup_cons.mpr ⟨hs, hseen⟩)
    rwa [List.map_cons, List.reverse_cons, lookup_name hq, List.append_assoc, List.singleton_append]
  | _ => exact hseen

theorem Ascends.stops (h : r.Ascends seen c l) : (l.getLastD c).hasParent = false ∨
    r.lookup (l.getLastD c).parent = none ∨
      (l.getLastD c).parent ∈ (l.map (·.name)).reverse ++ seen := by
  induction h with
  | root hp => exact .inl hp
  | repeated hs => exact .inr (.inr hs)
  | unknown hq => exact .inr (.inl hq)
  | climb _ _ hq _ ih =>
    rwa [List.getLastD_cons, List.map_cons, List.reverse_cons, lookup_name hq, List.append_assoc,
      List.singleton_append]

/-- A walk is known by its steps, if it meets no name twice and cannot go on. -/
theorem ascends_of_chain (hn : r.names.Nodup) (hchain : (c :: l).IsChain r.Climbs)
    (hnd : ((l.map (·.name)).reverse ++ seen).Nodup)
    (hstops : (l.getLastD c).hasParent = false ∨ r.lookup (l.getLastD c).parent = none ∨
      (l.getLastD c).parent ∈ (l.map (·.name)).reverse ++ seen) : r.Ascends seen c l := by
  induction l generalizing c seen with
  | nil =>
    rcases hstops with hp | hq | hs
    · exact .root hp
    · exact .unknown hq
    · exact .repeated hs
  | cons q l ih =>
    obtain ⟨hstep, hrest⟩ := List.isChain_cons_cons.mp hchain
    obtain ⟨hp, hq⟩ := (climbs_iff hn).mp hstep
    rw [List.getLastD_cons] at hstops
    rw [List.map_cons, List.reverse_cons, List.append_assoc, List.singleton_append, lookup_name hq]
      at hnd hstops
    have hs : c.parent ∉ seen := (List.nodup_cons.mp (List.nodup_append.mp hnd).2.1).1
    exact .climb hp hs hq (ih hrest hnd hstops)

/-- The classes on the way up from a class, nearest first, as far as it goes. -/
structure Lineage (r : Registry) (c : ClassDescription) (l : List ClassDescription) : Prop where
  /-- Each class names the next one, which is registered, as its parent. -/
  steps : (c :: l).IsChain r.Climbs
  /-- No name comes twice, nor that of the class itself. -/
  apart : ((c :: l).map (·.name)).Nodup
  /-- The last class has no parent, or one that is not registered, or one that was met before. -/
  stops : (l.getLastD c).hasParent = false ∨ (l.getLastD c).parent ∉ r.names ∨
    (l.getLastD c).parent ∈ (c :: l).map (·.name)

theorem ascends_iff_lineage (hn : r.names.Nodup) : r.Ascends [c.name] c l ↔ r.Lineage c l := by
  have hperm : ((l.map (·.name)).reverse ++ [c.name]).Perm ((c :: l).map (·.name)) := by
    rw [List.map_cons, ← List.reverse_cons]
    exact List.reverse_perm _
  constructor
  · intro h
    refine ⟨h.isChain, hperm.nodup_iff.mp (h.nodup (List.nodup_singleton _)), ?_⟩
    simpa only [lookup_eq_none_iff, hperm.mem_iff] using h.stops
  · intro h
    refine ascends_of_chain hn h.steps (hperm.nodup_iff.mpr h.apart) ?_
    simpa only [lookup_eq_none_iff, hperm.mem_iff] using h.stops

theorem chain_of_mem (hn : r.names.Nodup) (hc : c ∈ r.classes) :
    r.chain c.name = c :: r.ancestors c.name := by
  rw [chain, lookup_of_mem hn hc]
  rfl

theorem ancestors_eq_iff (hn : r.names.Nodup) (hc : c ∈ r.classes) :
    r.ancestors c.name = l ↔ r.Lineage c l := by
  rw [← ascends_iff_lineage hn]
  constructor
  · rintro rfl
    exact ascends_ancestors hn hc
  · exact (ascends_ancestors hn hc).unique

theorem length_ancestors_lt (hn : r.names.Nodup) (hc : c ∈ r.classes) :
    (r.ancestors c.name).length < r.classes.length := by
  have hapart := ((ancestors_eq_iff hn hc).mp rfl).apart
  have hsub : (c :: r.ancestors c.name).map (·.name) ⊆ r.names := by
    rw [← chain_of_mem hn hc]
    exact List.map_subset _ chain_mem
  have hle := (hapart.subperm hsub).length_le
  rwa [names, List.length_map, List.length_map] at hle

theorem order_eq_ok_iff : (∃ classes, r.order = .ok classes) ↔
    ∀ c ∈ r.classes, ((r.ancestors c.name).getLastD c).hasParent = false := by
  have hrooted : r.Rooted ↔
      ∀ c ∈ r.classes, ((r.ancestors c.name).getLastD c).hasParent = false := by
    simp [Rooted, isRooted]
  rw [← hrooted]
  constructor
  · rintro ⟨classes, horder⟩
    exact (order_eq_ok horder).1
  · intro hr
    cases horder : r.order with
    | ok classes => exact ⟨classes, rfl⟩
    | error e =>
      obtain ⟨hunplaced, hne⟩ := order_eq_error horder
      refine (hne (hunplaced.trans (List.filter_eq_nil_iff.mpr fun c hc => ?_))).elim
      simp [hr c hc]

theorem findAttribute_eq_some_iff {name attr : String} {owner : ClassDescription} {a : Attribute} :
    r.findAttribute name attr = some (owner, a) ↔ ∃ below above,
      r.chain name = below ++ owner :: above ∧ owner.Declares attr a ∧
        ∀ q ∈ below, ∀ b ∈ q.attributes, b.name ≠ attr := by
  simp only [findAttribute, List.findSome?_eq_some_iff, Option.map_eq_some_iff,
    Option.map_eq_none_iff, ClassDescription.attribute?_eq_some,
    ClassDescription.attribute?_eq_none]
  constructor
  · rintro ⟨below, q, above, heq, ⟨b, hb, he⟩, hbelow⟩
    cases he
    exact ⟨below, above, heq, hb, hbelow⟩
  · rintro ⟨below, above, heq, ha, hbelow⟩
    exact ⟨below, owner, above, heq, ⟨a, ha, rfl⟩, hbelow⟩

theorem ancestors_of_unregistered {name : String} (h : name ∉ r.names) : r.ancestors name = [] := by
  rw [ancestors, lookup_eq_none_iff.mpr h]

theorem findAttribute_of_unregistered {name : String} (h : name ∉ r.names) (attr : String) :
    r.findAttribute name attr = none := by
  rw [findAttribute, chain, lookup_eq_none_iff.mpr h, ancestors_of_unregistered h]
  rfl

/-- How ancestors and inherited attributes are found. -/
structure Climbable (r : Registry) : Prop where
  ends : ∀ c ∈ r.classes, r.Ascends [c.name] c (r.ancestors c.name)
  bounded : ∀ c ∈ r.classes, (r.ancestors c.name).length < r.classes.length
  lineage : ∀ c ∈ r.classes, ∀ l, r.ancestors c.name = l ↔ r.Lineage c l
  /-- The classes can be ordered if and only if every way up ends at a class without a parent. -/
  rooted : (∃ classes, r.order = .ok classes) ↔
    ∀ c ∈ r.classes, ((r.ancestors c.name).getLastD c).hasParent = false
  /-- The attribute is that of the nearest class of the chain that declares one by its name. -/
  found : ∀ c ∈ r.classes, ∀ attr owner a, r.findAttribute c.name attr = some (owner, a) ↔
    ∃ below above, c :: r.ancestors c.name = below ++ owner :: above ∧ owner.Declares attr a ∧
      ∀ q ∈ below, ∀ b ∈ q.attributes, b.name ≠ attr
  missing : ∀ c ∈ r.classes, ∀ attr, r.findAttribute c.name attr = none ↔
    ∀ q ∈ c :: r.ancestors c.name, ∀ a ∈ q.attributes, a.name ≠ attr
  unregistered : ∀ name ∉ r.names,
    r.ancestors name = [] ∧ ∀ attr, r.findAttribute name attr = none

theorem Built.climbable (hb : r.Built) : r.Climbable := by
  have hn := hb.names_nodup
  exact {
    ends := fun c hc => ascends_ancestors hn hc
    bounded := fun c hc => length_ancestors_lt hn hc
    lineage := fun c hc l => ancestors_eq_iff hn hc
    rooted := order_eq_ok_iff
    found := by
      intro c hc attr owner a
      rw [← chain_of_mem hn hc]
      exact findAttribute_eq_some_iff
    missing := by
      intro c hc attr
      rw [← chain_of_mem hn hc]
      exact findAttribute_eq_none
    unregistered := fun name hname =>
      ⟨ancestors_of_unregistered hname, findAttribute_of_unregistered hname⟩ }

/-- Classes below a cycle, on it and below a parent that is missing. -/
def braid : Registry := .gather [
  { name := "Strand", parent := "Loop", attributes := [{ name := "width" }] },
  { name := "Loop", parent := "Knot", attributes := [{ name := "colour" }] },
  { name := "Knot", parent := "Loop", attributes := [
      { name := "width", kind := some (.primitive { type := "uint8" }) }] },
  { name := "Fray", parent := "Thread" }]

theorem braid_evaluated : (braid.ancestors "Strand").map (·.name) = ["Loop", "Knot"] ∧
    (braid.ancestors "Knot").map (·.name) = ["Loop"] ∧ braid.ancestors "Fray" = [] ∧
    (braid.findAttribute "Strand" "width").map (·.1.name) = some "Strand" ∧
    (braid.findAttribute "Loop" "width").map (·.1.name) = some "Knot" ∧
    braid.findAttribute "Fray" "width" = none := by
  with_unfolding_all decide

theorem braid_climbable : braid.Built ∧ braid.Climbable ∧
    (braid.ancestors "Strand").map (·.name) = ["Loop", "Knot"] ∧
    (braid.ancestors "Knot").map (·.name) = ["Loop"] ∧ braid.ancestors "Fray" = [] ∧
    (braid.findAttribute "Strand" "width").map (·.1.name) = some "Strand" ∧
    (braid.findAttribute "Loop" "width").map (·.1.name) = some "Knot" ∧
    braid.findAttribute "Fray" "width" = none :=
  ⟨gather_built _, (gather_built _).climbable, braid_evaluated⟩

end Registry

end PduCompiler
