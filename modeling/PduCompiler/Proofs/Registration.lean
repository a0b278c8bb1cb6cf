import PduCompiler.Plan
import PduCompiler.Proofs.Calls

/-! The order in which classes are added has no effect. A registry is listed by name, and whatever is
not read off the list is looked up, so it could as well keep its classes in any other order. -/

namespace PduCompiler

def ClassDescription.registered (c : ClassDescription) : ClassDescription :=
  { c with parent := c.parentName }

namespace Registry

variable {r u : Registry}

structure SameLookup (u r : Registry) : Prop where
  lookup : u.lookup = r.lookup
  size : u.classes.length = r.classes.length

namespace SameLookup

variable (h : u.SameLookup r)

include h

theorem contains : u.contains = r.contains := by
  funext name
  rw [Registry.contains, Registry.contains, h.lookup]

theorem countField : u.countField = r.countField := by
  funext className field
  rw [Registry.countField, Registry.countField, h.lookup]

theorem ancestorsFrom (fuel : Nat) (seen : List String) (c : ClassDescription) :
    u.ancestorsFrom fuel seen c = r.ancestorsFrom fuel seen c := by
  induction fuel generalizing seen c with
  | zero => rfl
  | succ fuel ih => simp only [Registry.ancestorsFrom, h.lookup, ih]

theorem chain : u.chain = r.chain := by
  funext name
  simp only [Registry.chain, ancestors, h.lookup, h.size, h.ancestorsFrom]

theorem checkElement : u.checkElement = r.checkElement := by
  funext c a e
  simp only [Registry.checkElement, checkClassName, h.contains]

theorem checkAttributes (c : String) (seen : List String) (counted : Table String)
    (attributes : List Attribute) :
    u.checkAttributes c seen counted attributes = r.checkAttributes c seen counted attributes := by
  induction attributes generalizing seen counted with
  | nil => rfl
  | cons a rest ih =>
    simp only [Registry.checkAttributes, checkClassName, checkDynamicList, h.contains,
      h.checkElement, h.countField, ih]

theorem checkClass : u.checkClass = r.checkClass := by
  funext c
  exact h.checkAttributes c.name [] [] c.attributes

theorem embeds : u.embeds = r.embeds := by
  funext name
  rw [Registry.embeds, Registry.embeds, h.chain]

theorem searchCycle : u.searchCycle = r.searchCycle := by
  funext fuel
  induction fuel with
  | zero => rfl
  | succ fuel ih =>
    funext settled path name
    simp only [Registry.searchCycle, h.embeds, ih]

theorem next : OrderState.next u = OrderState.next r := by
  funext state
  rcases state with ⟨placed, children, _ | ⟨c, rest⟩⟩ | ⟨children, _ | ⟨name, stack⟩, visited⟩ | _
  · rfl
  · rfl
  · rfl
  · simp only [OrderState.next, h.lookup]
  · rfl

theorem initialValues : Plan.initialValues u = Plan.initialValues r := by
  have hfind : u.findAttribute = r.findAttribute := by
    funext className attr
    rw [findAttribute, findAttribute, h.chain]
  have htake : Plan.InitialValues.take u = Plan.InitialValues.take r := by
    funext c registered acc v
    rw [Plan.InitialValues.take, Plan.InitialValues.take, hfind]
  funext c registered
  rw [Plan.initialValues, Plan.initialValues, htake]

theorem plan (hs : u.isSealed = r.isSealed) (options : PlanOptions) (c : ClassDescription)
    (registered : Bool) : u.plan options c registered = r.plan options c registered := by
  rw [Registry.plan, Registry.plan, hs, h.initialValues]

end SameLookup

theorem eq_of_sorted_perm {l l' : List ClassDescription}
    (h : l.Pairwise fun a b => a.name < b.name) (h' : l'.Pairwise fun a b => a.name < b.name)
    (hp : l.Perm l') : l = l' :=
  ByName.eq_of_mem_iff (h.imp bytesBefore_of_lt) (h'.imp bytesBefore_of_lt) fun _ => hp.mem_iff

theorem sortByName_perm (l : List ClassDescription) : (sortByName l).Perm l := by
  induction l with
  | nil => exact .nil
  | cons c l ih => exact (insertByName_perm c (sortByName l)).trans (ih.cons c)

theorem sortByName_sorted {l : List ClassDescription} (hnd : (l.map (·.name)).Nodup) :
    (sortByName l).Pairwise fun a b => a.name < b.name := by
  induction l with
  | nil => exact .nil
  | cons c l ih =>
    obtain ⟨hc, hl⟩ := List.nodup_cons.mp hnd
    refine insertByName_sorted (ih hl) fun d hd he => hc (List.mem_map.mpr ⟨d, ?_, he⟩)
    exact (sortByName_perm l).mem_iff.mp hd

/-- The registry holds the classes of another one, in whatever order. -/
structure Shuffles (u r : Registry) : Prop where
  perm : u.classes.Perm r.classes
  isSealed : u.isSealed = r.isSealed

namespace Shuffles

variable (h : u.Shuffles r)

include h

theorem names_nodup (hn : r.names.Nodup) : u.names.Nodup :=
  (h.perm.map ClassDescription.name).nodup_iff.mpr hn

theorem listing (hr : r.classes.Pairwise fun a b => a.name < b.name) (hn : r.names.Nodup) :
    sortByName u.classes = r.classes :=
  eq_of_sorted_perm (sortByName_sorted (h.names_nodup hn)) hr ((sortByName_perm _).trans h.perm)

theorem sameLookup (hn : r.names.Nodup) : u.SameLookup r := by
  refine ⟨?_, h.perm.length_eq⟩
  funext name
  cases hr : r.lookup name with
  | some c =>
    have hc := lookup_of_mem (h.names_nodup hn) (h.perm.mem_iff.mpr (lookup_mem hr))
    rwa [lookup_name hr] at hc
  | none =>
    cases hu : u.lookup name with
    | none => rfl
    | some c =>
      have hc := lookup_of_mem hn (h.perm.mem_iff.mp (lookup_mem hu))
      rw [lookup_name hu, hr] at hc
      cases hc

end Shuffles

/-- Two registries that keep their classes in orders of their own, and what is made of each: its
listing, the checks of its classes, the search for cycles, the passes and the walk that settle the
order, and the plans. -/
structure Agree (u u' : Registry) : Prop where
  listing : sortByName u.classes = sortByName u'.classes
  checks : u.checkClass = u'.checkClass
  cycles : u.searchCycle = u'.searchCycle
  passes : OrderState.next u = OrderState.next u'
  plans : ∀ options c registered, u.plan options c registered = u'.plan options c registered

theorem Shuffles.agree {u' : Registry} (h : u.Shuffles r) (h' : u'.Shuffles r)
    (hr : r.classes.Pairwise fun a b => a.name < b.name) (hn : r.names.Nodup) : u.Agree u' := by
  have hl := h.sameLookup hn
  have hl' := h'.sameLookup hn
  exact {
    listing := (h.listing hr hn).trans (h'.listing hr hn).symm
    checks := hl.checkClass.trans hl'.checkClass.symm
    cycles := hl.searchCycle.trans hl'.searchCycle.symm
    passes := hl.next.trans hl'.next.symm
    plans := fun options c registered =>
      (hl.plan h.isSealed options c registered).trans
        (hl'.plan h'.isSealed options c registered).symm }

structure SameAnswers (r r' : Registry) : Prop where
  listing : r.classes = r'.classes
  order : r.order = r'.order
  plans : ∀ options, r.planAll options = r'.planAll options
  /-- None of it hangs on the order in which either keeps its classes. -/
  shuffled : ∀ u u' : Registry, u.Shuffles r → u'.Shuffles r' → u.Agree u'

/-- What two registries answer before and after they are sealed, and what sealing says. -/
structure SameResults (r r' : Registry) : Prop where
  unsealed : r.SameAnswers r'
  sealing : ∀ visit visit', (Call.sealing visit).perform r = (Call.sealing visit').perform r'
  sealed : ∀ visit visit' s s', (Call.sealing visit).perform r = .ok () s →
    (Call.sealing visit').perform r' = .ok () s' → s.SameAnswers s'

theorem SameAnswers.refl (hr : r.classes.Pairwise fun a b => a.name < b.name)
    (hn : r.names.Nodup) : r.SameAnswers r :=
  ⟨rfl, rfl, fun _ => rfl, fun _ _ h h' => h.agree h' hr hn⟩

theorem Built.sameResults (hb : r.Built) : r.SameResults r := by
  have hn := hb.names_nodup
  have hsame : ∀ visit visit', (Call.sealing visit).perform r = (Call.sealing visit').perform r := by
    intro visit visit'
    rw [Call.perform, Call.perform, sealInPlace_apply hn, sealInPlace_apply hn]
  refine ⟨.refl hb.sorted hn, hsame, fun visit visit' s s' hs hs' => ?_⟩
  rw [hsame visit visit', hs', EStateM.Result.ok.injEq] at hs
  obtain ⟨-, rfl⟩ := hs
  rw [Call.perform, sealInPlace_apply hn] at hs'
  cases hseal : r.toSealed with
  | error bad => simp [hseal] at hs'
  | ok s₀ =>
    simp only [hseal, EStateM.Result.ok.injEq] at hs'
    obtain ⟨-, rfl⟩ := hs'
    have hdistinct := (Reached.frozen hb hseal).orderly.distinct
    obtain ⟨-, rfl⟩ := toSealed_eq_ok hb hseal
    exact .refl (List.pairwise_map.mpr hb.sorted) hdistinct

theorem Built.run_adding (hb : r.Built) {l : List ClassDescription}
    (hnd : (l.map (·.name) ++ r.names).Nodup)
    (hnames : ∀ c ∈ l, c.name ≠ "" ∧ ¬ SpellsRoot c.name) :
    (r.run (l.map .adding)).Built ∧
      (r.run (l.map .adding)).classes.Perm (l.map (·.registered) ++ r.classes) := by
  induction l generalizing r with
  | nil => exact ⟨hb, .refl _⟩
  | cons c l ih =>
    obtain ⟨hc, hl⟩ := List.nodup_cons.mp hnd
    have hadd := add_of_unsealed (r := r) hb.unsealed
      (isRoot_eq_false.mpr (hnames c List.mem_cons_self)) fun hm => hc (List.mem_append_right _ hm)
    have hafter : Call.after r (.adding c) =
        { r with classes := insertByName c.registered r.classes } := by
      rw [Call.after, Call.perform, addInPlace_apply, hadd]
      rfl
    have hperm := insertByName_perm c.registered r.classes
    -- the names still to come stay new, as the class just added has none of them
    have hnew : (l.map (·.name) ++ (insertByName c.registered r.classes).map (·.name)).Nodup := by
      refine (((hperm.map (·.name)).append_left _).trans List.perm_middle).nodup_iff.mpr ?_
      exact List.nodup_cons.mpr ⟨hc, hl⟩
    obtain ⟨hbuilt, hrest⟩ := ih (hafter ▸ hb.add hadd) (hafter ▸ hnew)
      fun d hd => hnames d (List.mem_cons_of_mem _ hd)
    rw [List.map_cons, run, List.foldl_cons]
    refine ⟨hbuilt, hrest.trans ?_⟩
    rw [hafter]
    exact (hperm.append_left _).trans List.perm_middle

theorem Built.eq_of_perm {r' : Registry} (hb : r.Built) (hb' : r'.Built)
    (hp : r.classes.Perm r'.classes) : r = r' := by
  have hclasses := eq_of_sorted_perm hb.sorted hb'.sorted hp
  have hs : r.isSealed = r'.isSealed := hb.unsealed.trans hb'.unsealed.symm
  cases r
  cases r'
  exact congrArg₂ Registry.mk hclasses hs

/-- Classes added in two orders, each with a name of its own, make registries that cannot be told
apart. -/
theorem run_adding_perm {l l' : List ClassDescription} (hp : l.Perm l')
    (hnd : (l.map (·.name)).Nodup) (hnames : ∀ c ∈ l, c.name ≠ "" ∧ ¬ SpellsRoot c.name) :
    (run {} (l.map .adding)).classes.Perm (l.map (·.registered)) ∧
      (run {} (l.map .adding)).SameResults (run {} (l'.map .adding)) := by
  have hnd' : (l'.map (·.name)).Nodup := (hp.map _).nodup_iff.mp hnd
  obtain ⟨hb, hperm⟩ := Built.empty.run_adding (l := l) (by simpa [names] using hnd) hnames
  obtain ⟨hb', hperm'⟩ := Built.empty.run_adding (l := l') (by simpa [names] using hnd')
    fun c hc => hnames c (hp.mem_iff.mpr hc)
  simp only [List.append_nil] at hperm hperm'
  have heq : run {} (l.map .adding) = run {} (l'.map .adding) :=
    hb.eq_of_perm hb' ((hperm.trans (hp.map _)).trans hperm'.symm)
  exact ⟨hperm, heq ▸ hb.sameResults⟩

def arrivals : List ClassDescription := [
  { name := "Truck", parent := "Vehicle", attributes := [
      { name := "axles", kind := some (.primitive { type := "uint8" }) },
      { name := "wheels", kind := some (.dynamicList "axles" { className := "Wheel" }) }] },
  { name := "Wheel", attributes := [
      { name := "pressure", kind := some (.primitive { type := "float32" }) }] },
  { name := "Vehicle", parent := "ROOT" }]

theorem arrivals_evaluated : (arrivals.map (·.name)).Nodup ∧
    (∀ c ∈ arrivals, isRoot c.name = false) ∧
    (run {} (arrivals.map .adding)).toSealed.toOption.map (·.names) =
      some ["Truck", "Vehicle", "Wheel"] := by
  decide +kernel

theorem arrivals_reversed :
    (∃ s, (run {} (arrivals.map .adding)).toSealed = .ok s ∧
      s.names = ["Truck", "Vehicle", "Wheel"]) ∧
    (run {} (arrivals.map .adding)).SameResults (run {} (arrivals.reverse.map .adding)) := by
  obtain ⟨hnd, hnames, hsealed⟩ := arrivals_evaluated
  refine ⟨?_, (run_adding_perm (List.reverse_perm _).symm hnd fun c hc =>
    isRoot_eq_false.mp (hnames c hc)).2⟩
  cases h : (run {} (arrivals.map .adding)).toSealed with
  | error bad => simp [h, Except.toOption] at hsealed
  | ok s => exact ⟨s, rfl, by simpa [h, Except.toOption] using hsealed⟩

end Registry

end PduCompiler
