import Mathlib.Logic.Function.Iterate
import PduCompiler.Proofs.Depth
import PduCompiler.Proofs.Forest

/-! Which classes find a place under the root. The order comes from passes over the classes without a
place: a pass places those whose parent has a place. The first pass that places nothing leaves the
classes whose chain of parents does not reach the root, and no others. -/

namespace PduCompiler

def OrderError.parents (e : OrderError) : Table String := e.unplaced.map fun c => (c.name, c.parent)

theorem BytesBefore.asymm {s t : String} (h : BytesBefore s t) : ¬ BytesBefore t s := by
  intro h'
  exact List.lt_irrefl _ (List.lt_trans h h')

namespace Registry

open Relation

variable {r : Registry}

/-- One class names the other as its parent, and that one is registered. -/
def Climbs (r : Registry) (c q : ClassDescription) : Prop :=
  c.hasParent = true ∧ q ∈ r.classes ∧ q.name = c.parent

def ReachesRoot (r : Registry) (c : ClassDescription) : Prop :=
  ∃ t, ReflTransGen r.Climbs c t ∧ t.hasParent = false

/-- The chain of parents ends before a class that is not registered. -/
def Breaks (r : Registry) (c : ClassDescription) : Prop :=
  ∃ t, ReflTransGen r.Climbs c t ∧ t.hasParent = true ∧ t.parent ∉ r.names

/-- The chain of parents runs into a cycle. -/
def Loops (r : Registry) (c : ClassDescription) : Prop :=
  ∃ t, ReflTransGen r.Climbs c t ∧ TransGen r.Climbs t t

theorem climbs_iff (hn : r.names.Nodup) {c q : ClassDescription} :
    r.Climbs c q ↔ c.hasParent = true ∧ r.lookup c.parent = some q := by
  constructor
  · rintro ⟨hp, hq, he⟩
    exact ⟨hp, he ▸ lookup_of_mem hn hq⟩
  · rintro ⟨hp, hq⟩
    exact ⟨hp, lookup_mem hq, lookup_name hq⟩

theorem climbs_mem {c t : ClassDescription} (hc : c ∈ r.classes)
    (h : ReflTransGen r.Climbs c t) : t ∈ r.classes := by
  rcases h.cases_tail with rfl | ⟨q, -, hqt⟩
  · exact hc
  · exact hqt.2.1

section Chains

variable (hn : r.names.Nodup)

include hn

theorem reachesRoot_iff {c : ClassDescription} : r.ReachesRoot c ↔ ∃ l, r.Line c l := by
  constructor
  · rintro ⟨t, hct, ht⟩
    induction hct using ReflTransGen.head_induction_on with
    | refl => exact ⟨[], .root ht⟩
    | head hcq _ ih =>
      obtain ⟨l, hl⟩ := ih
      obtain ⟨hp, hq⟩ := (climbs_iff hn).mp hcq
      exact ⟨_, .child hp hq hl⟩
  · rintro ⟨l, hl⟩
    induction hl with
    | root hp => exact ⟨_, .refl, hp⟩
    | child hp hq _ ih =>
      obtain ⟨t, hqt, ht⟩ := ih
      exact ⟨t, .head ((climbs_iff hn).mpr ⟨hp, hq⟩) hqt, ht⟩

theorem Line.climb {c t : ClassDescription} {l : List ClassDescription} (hl : r.Line c l)
    (h : ReflTransGen r.Climbs c t) : ∃ l', r.Line t l' := by
  induction h using ReflTransGen.head_induction_on generalizing l with
  | refl => exact ⟨l, hl⟩
  | @head c q hcq _ ih =>
    obtain ⟨hp, hq⟩ := (climbs_iff hn).mp hcq
    cases hl with
    | root hp' => simp [hp] at hp'
    | child _ hq' hl' =>
      cases Option.some.inj (hq.symm.trans hq')
      exact ih hl'

theorem Line.height {c : ClassDescription} {l : List ClassDescription} (hl : r.Line c l) :
    Height r.Climbs (l.length + 1) c := by
  induction hl with
  | root hp =>
    intro y hy
    have hp' := hy.1
    simp [hp] at hp'
  | child _ hq _ ih =>
    intro y hy
    obtain ⟨-, hq'⟩ := (climbs_iff hn).mp hy
    cases Option.some.inj (hq.symm.trans hq')
    exact ih

theorem not_reachesRoot_iff {c : ClassDescription} (hc : c ∈ r.classes) :
    ¬ r.ReachesRoot c ↔ r.Breaks c ∨ r.Loops c := by
  constructor
  · intro hno
    by_contra hne
    obtain ⟨hbreak, hloop⟩ := not_or.mp hne
    have hheight : Height r.Climbs r.classes.length c :=
      height_of_acyclic (fun t ht => climbs_mem hc ht) fun t ht hcyc => hloop ⟨t, ht, hcyc⟩
    -- without a cycle some class up the chain is the last one
    have htop : ∀ k t, Height r.Climbs k t → ReflTransGen r.Climbs c t → r.ReachesRoot t := by
      intro k
      induction k with
      | zero => exact fun t h _ => h.elim
      | succ k ih =>
        intro t ht hct
        cases hp : t.hasParent with
        | false => exact ⟨t, .refl, hp⟩
        | true =>
          have hreg : t.parent ∈ r.names := by
            by_contra hmiss
            exact hbreak ⟨t, hct, hp, hmiss⟩
          obtain ⟨q, hq, hqn⟩ := List.mem_map.mp hreg
          have hstep : r.Climbs t q := ⟨hp, hq, hqn⟩
          obtain ⟨s, hqs, hs⟩ := ih q (ht q hstep) (hct.tail hstep)
          exact ⟨s, .head hstep hqs, hs⟩
    exact hno (htop _ c hheight .refl)
  · rintro hbad hreach
    obtain ⟨l, hl⟩ := (reachesRoot_iff hn).mp hreach
    rcases hbad with ⟨t, hct, hp, hmiss⟩ | ⟨t, hct, hcyc⟩
    · obtain ⟨l', hl'⟩ := hl.climb hn hct
      cases hl' with
      | root hp' => simp [hp] at hp'
      | child _ hq _ => exact hmiss (List.mem_map.mpr ⟨_, lookup_mem hq, lookup_name hq⟩)
    · exact (hl.height hn).acyclic hct hcyc

omit hn in
theorem Line.ancestorsFrom {c : ClassDescription} {l : List ClassDescription} (hl : r.Line c l)
    (fuel : Nat) (seen : List String) (hfuel : l.length ≤ fuel)
    (hseen : (seen ++ l.map (·.name)).Nodup) : r.ancestorsFrom fuel seen c = l := by
  induction hl generalizing fuel seen with
  | root hp => cases fuel <;> simp [Registry.ancestorsFrom, hp]
  | @child c q l hp hq hl ih =>
    simp only [List.length_cons] at hfuel
    obtain ⟨fuel, rfl⟩ : ∃ k, fuel = k + 1 := ⟨fuel - 1, by omega⟩
    have hname := lookup_name hq
    have hperm : (seen ++ (q :: l).map (·.name)).Perm (c.parent :: seen ++ l.map (·.name)) := by
      rw [List.map_cons, hname]
      exact List.perm_middle
    have hnew : (c.parent :: seen ++ l.map (·.name)).Nodup := hperm.nodup_iff.mp hseen
    have hfresh : c.parent ∉ seen := by
      intro hm
      rw [List.cons_append, List.nodup_cons] at hnew
      exact hnew.1 (List.mem_append_left _ hm)
    have hrest := ih fuel (c.parent :: seen) (by omega) hnew
    simp [Registry.ancestorsFrom, hp, hq, hfresh, hrest]

omit hn in
theorem Line.last {c : ClassDescription} {l : List ClassDescription} (hl : r.Line c l) :
    (l.getLastD c).hasParent = false := by
  induction hl with
  | root hp => exact hp
  | child _ _ _ ih => rwa [List.getLastD_cons]

theorem Line.ancestors_eq {c : ClassDescription} {l : List ClassDescription} (hl : r.Line c l)
    (hc : c ∈ r.classes) : r.ancestors c.name = l := by
  have hmem : ∀ q ∈ c :: l, q ∈ r.classes := by
    intro q hq
    rcases List.mem_cons.mp hq with rfl | hq
    · exact hc
    · exact (hl.mem q hq).1
  have hnames : ((c :: l).map (·.name)).Nodup := hl.nodup.map_on fun x hx y hy he =>
    List.inj_on_of_nodup_map hn (hmem x hx) (hmem y hy) he
  have hlt := hl.length_lt hc
  rw [ancestors, lookup_of_mem hn hc]
  exact hl.ancestorsFrom _ [c.name] (by omega) hnames

theorem isRooted_iff {c : ClassDescription} (hc : c ∈ r.classes) :
    r.isRooted c = true ↔ r.ReachesRoot c := by
  rw [reachesRoot_iff hn]
  constructor
  · intro h
    simp only [isRooted, ancestors, lookup_of_mem hn hc, Bool.not_eq_true'] at h
    exact ⟨_, ancestorsFrom_line r _ _ c h⟩
  · rintro ⟨l, hl⟩
    rw [isRooted, hl.ancestors_eq hn hc, hl.last]
    rfl

end Chains

def sortByName (l : List ClassDescription) : List ClassDescription := l.foldr insertByName []

theorem sortByName_eq {l : List ClassDescription} (h : l.Pairwise fun a b => a.name < b.name) :
    sortByName l = l := by
  induction l with
  | nil => rfl
  | cons c l ih =>
    obtain ⟨hc, hl⟩ := List.pairwise_cons.mp h
    have hstep : sortByName (c :: l) = insertByName c (sortByName l) := rfl
    rw [hstep, ih hl]
    cases l with
    | nil => rfl
    | cons d rest =>
      have hd := hc d List.mem_cons_self
      simp [insertByName, hd]

inductive OrderState where
  /-- Between two passes: the names that have a place, the children of each name in the order they
  were attached, and the classes without a place. -/
  | placing (placed : List String) (children : Table (List String))
      (remaining : List ClassDescription)
  /-- On the walk over all classes: the names to visit next, and the classes visited. -/
  | walking (children : Table (List String)) (stack : List String)
      (visited : List ClassDescription)
  | finished (result : Except OrderError (List ClassDescription))

def attach (children : Table (List String)) (c : ClassDescription) : Table (List String) :=
  children.set c.parentName ((children.get? c.parentName).getD [] ++ [c.name])

def OrderState.next (r : Registry) : OrderState → OrderState
  | placing _ children [] => walking children [rootName] []
  | placing placed children (c :: rest) =>
    let attached := (c :: rest).filter (placed.contains ·.parentName)
    let left := (c :: rest).filter (!placed.contains ·.parentName)
    if attached.isEmpty then finished (.error ⟨sortByName left⟩)
    -- the names are marked after the pass, so a pass attaches one level
    else placing (placed ++ attached.map (·.name)) (attached.foldl attach children) left
  | walking _ [] visited => finished (.ok visited)
  | walking children (name :: stack) visited =>
    walking children ((children.get? name).getD [] ++ stack) (visited ++ (r.lookup name).toList)
  | finished result => finished result

theorem attach_all (l : List ClassDescription) (children : Table (List String)) (name : String) :
    ((l.foldl attach children).get? name).getD [] =
      (children.get? name).getD [] ++ (l.filter (·.parentName == name)).map (·.name) := by
  induction l generalizing children with
  | nil => simp
  | cons c l ih =>
    rw [List.foldl_cons, ih, attach, Table.get?_set]
    by_cases hc : c.parentName = name
    · simp [hc]
    · simp [hc, Ne.symm hc]

/-- What the passes have done. The children of the names in `opened` are placed, and nothing else is
but the root. -/
structure Placing (r : Registry) (opened placed : List String) (children : Table (List String))
    (remaining : List ClassDescription) : Prop where
  sub : opened ⊆ placed
  root : rootName ∈ placed
  known : ∀ name ∈ placed, name = rootName ∨ name ∈ r.names
  rises : ∀ c ∈ r.classes, c.name ∈ placed → r.ReachesRoot c
  placed_iff : ∀ c ∈ r.classes, c.name ∈ placed ↔ c.parentName ∈ opened
  remaining_eq : remaining = r.classes.filter (!placed.contains ·.name)
  children_eq : ∀ name, (children.get? name).getD [] =
    if name ∈ opened then (r.children name).map (·.name) else []

theorem Placing.start (hb : r.Built) : r.Placing [] [rootName] [] r.classes := by
  have hroot : ∀ c ∈ r.classes, c.name ≠ rootName := by
    intro c hc he
    have hname := hb.not_root c hc
    rw [he, isRoot_rootName] at hname
    cases hname
  refine ⟨List.nil_subset _, List.mem_singleton.mpr rfl, ?_, ?_, ?_, ?_, ?_⟩
  · exact fun name h => .inl (List.mem_singleton.mp h)
  · exact fun c hc h => (hroot c hc (List.mem_singleton.mp h)).elim
  · intro c hc
    simp [hroot c hc]
  · refine (List.filter_eq_self.mpr fun c hc => ?_).symm
    simp [hroot c hc]
  · simp [Table.get?]

section Pass

variable {opened placed : List String} {children : Table (List String)}
  {remaining : List ClassDescription}

theorem Placing.mem_remaining (h : r.Placing opened placed children remaining)
    {c : ClassDescription} : c ∈ remaining ↔ c ∈ r.classes ∧ c.name ∉ placed := by
  simp [h.remaining_eq]

theorem Placing.rises_of_parent (h : r.Placing opened placed children remaining)
    {c : ClassDescription} (hp : c.parentName ∈ placed) : r.ReachesRoot c := by
  cases hpar : c.hasParent with
  | false => exact ⟨c, .refl, hpar⟩
  | true =>
    rw [ClassDescription.parentName, if_pos hpar] at hp
    have hreg : c.parent ∈ r.names :=
      (h.known _ hp).resolve_left (ClassDescription.parent_ne_rootName hpar)
    obtain ⟨q, hq, hqn⟩ := List.mem_map.mp hreg
    obtain ⟨t, hqt, ht⟩ := h.rises q hq (hqn ▸ hp)
    exact ⟨t, .head ⟨hpar, hq, hqn⟩ hqt, ht⟩

theorem Placing.mem_attached (h : r.Placing opened placed children remaining)
    {c : ClassDescription} : c ∈ remaining.filter (placed.contains ·.parentName) ↔
      c ∈ r.classes ∧ c.name ∉ placed ∧ c.parentName ∈ placed := by
  rw [List.mem_filter, h.mem_remaining]
  simp [and_assoc]

theorem Placing.attached_below (h : r.Placing opened placed children remaining) (name : String) :
    (remaining.filter (placed.contains ·.parentName)).filter (·.parentName == name) =
      if name ∈ placed ∧ name ∉ opened then r.children name else [] := by
  by_cases hname : name ∈ placed ∧ name ∉ opened
  · rw [if_pos hname, h.remaining_eq, List.filter_filter, List.filter_filter, Registry.children]
    refine List.filter_congr fun c hc => ?_
    by_cases he : c.parentName = name
    · have hnew : c.name ∉ placed := fun hm => hname.2 (he ▸ (h.placed_iff c hc).mp hm)
      simp [he, hname.1, hnew]
    · have hne : (c.parentName == name) = false := beq_eq_false_iff_ne.mpr he
      simp [hne]
  · rw [if_neg hname, List.filter_eq_nil_iff]
    intro c hc he
    obtain ⟨hc, hnew, hp⟩ := h.mem_attached.mp hc
    rw [beq_iff_eq] at he
    have hopen : name ∉ opened := fun hm => hnew ((h.placed_iff c hc).mpr (he ▸ hm))
    exact hname ⟨he ▸ hp, hopen⟩

theorem Placing.pass (hn : r.names.Nodup) (h : r.Placing opened placed children remaining) :
    r.Placing placed
      (placed ++ (remaining.filter (placed.contains ·.parentName)).map (·.name))
      ((remaining.filter (placed.contains ·.parentName)).foldl attach children)
      (remaining.filter (!placed.contains ·.parentName)) := by
  have hplaced : ∀ c ∈ r.classes,
      c.name ∈ placed ++ (remaining.filter (placed.contains ·.parentName)).map (·.name) ↔
        c.parentName ∈ placed := by
    intro c hc
    rw [List.mem_append]
    constructor
    · rintro (hm | hm)
      · exact h.sub ((h.placed_iff c hc).mp hm)
      · obtain ⟨d, hd, he⟩ := List.mem_map.mp hm
        obtain ⟨hd, -, hp⟩ := h.mem_attached.mp hd
        exact List.inj_on_of_nodup_map hn hd hc he ▸ hp
    · intro hp
      by_cases hm : c.name ∈ placed
      · exact .inl hm
      · exact .inr (List.mem_map_of_mem (h.mem_attached.mpr ⟨hc, hm, hp⟩))
  refine ⟨List.subset_append_left _ _, List.mem_append_left _ h.root, ?_, ?_, hplaced, ?_, ?_⟩
  · intro name hm
    rcases List.mem_append.mp hm with hm | hm
    · exact h.known name hm
    · obtain ⟨d, hd, rfl⟩ := List.mem_map.mp hm
      exact .inr (List.mem_map_of_mem (h.mem_attached.mp hd).1)
  · exact fun c hc hm => h.rises_of_parent ((hplaced c hc).mp hm)
  · conv_lhs => rw [h.remaining_eq, List.filter_filter]
    refine List.filter_congr fun c hc => ?_
    have hnew : (placed ++ (remaining.filter (placed.contains ·.parentName)).map (·.name)).contains
        c.name = placed.contains c.parentName := by
      rw [Bool.eq_iff_iff, List.contains_iff_mem, List.contains_iff_mem]
      exact hplaced c hc
    rw [hnew]
    by_cases hm : c.name ∈ placed
    · have hp := h.sub ((h.placed_iff c hc).mp hm)
      simp [hp]
    · simp [hm]
  · intro name
    rw [attach_all, h.children_eq, h.attached_below]
    by_cases hopen : name ∈ opened
    · simp [hopen, h.sub hopen]
    · by_cases hp : name ∈ placed
      · simp [hopen, hp]
      · simp [hopen, hp]

theorem Placing.placed_of_stuck (hn : r.names.Nodup)
    (h : r.Placing opened placed children remaining)
    (hstuck : remaining.filter (placed.contains ·.parentName) = []) {c : ClassDescription}
    (hc : c ∈ r.classes) : c.name ∈ placed ↔ r.ReachesRoot c := by
  have hparent : ∀ c ∈ r.classes, c.parentName ∈ placed → c.name ∈ placed := by
    intro c hc hp
    by_contra hm
    have hattached := h.mem_attached.mpr ⟨hc, hm, hp⟩
    rw [hstuck] at hattached
    cases hattached
  refine ⟨h.rises c hc, fun hreach => ?_⟩
  obtain ⟨l, hl⟩ := (reachesRoot_iff hn).mp hreach
  induction hl with
  | root hp =>
    refine hparent _ hc ?_
    rw [ClassDescription.parentName, hp]
    exact h.root
  | child hp hq hl ih =>
    have hqc := ih (lookup_mem hq) ((reachesRoot_iff hn).mpr ⟨_, hl⟩)
    refine hparent _ hc ?_
    rw [ClassDescription.parentName, if_pos hp, ← lookup_name hq]
    exact hqc

theorem Placing.order_of_stuck (hn : r.names.Nodup)
    (h : r.Placing opened placed children remaining)
    (hstuck : remaining.filter (placed.contains ·.parentName) = []) (hne : remaining ≠ []) :
    r.order = .error ⟨remaining⟩ := by
  have hleft : r.classes.filter (!r.isRooted ·) = remaining := by
    rw [h.remaining_eq]
    refine List.filter_congr fun c hc => ?_
    have hiff := (isRooted_iff hn hc).trans (h.placed_of_stuck hn hstuck hc).symm
    have heq : r.isRooted c = placed.contains c.name := by
      rw [Bool.eq_iff_iff, List.contains_iff_mem]
      exact hiff
    rw [heq]
  rw [order, hleft]
  cases remaining with
  | nil => exact (hne rfl).elim
  | cons c rest => rfl

theorem Placing.order_of_done (hn : r.names.Nodup)
    (h : r.Placing opened placed children []) :
    ∃ out, r.order = .ok out := by
  have hall : r.classes.filter (!r.isRooted ·) = [] := by
    refine List.filter_eq_nil_iff.mpr fun c hc hno => ?_
    have hreach := h.rises c hc (by
      by_contra hm
      exact List.not_mem_nil (h.mem_remaining.mpr ⟨hc, hm⟩))
    rw [(isRooted_iff hn hc).mpr hreach] at hno
    cases hno
  exact ⟨_, by rw [order, hall]⟩

theorem Placing.children_of_done (h : r.Placing opened placed children []) (name : String) :
    (children.get? name).getD [] = (r.children name).map (·.name) := by
  rw [h.children_eq]
  by_cases hopen : name ∈ opened
  · rw [if_pos hopen]
  · rw [if_neg hopen]
    symm
    rw [List.map_eq_nil_iff, Registry.children, List.filter_eq_nil_iff]
    intro c hc he
    rw [beq_iff_eq] at he
    refine hopen (he ▸ (h.placed_iff c hc).mp ?_)
    by_contra hm
    exact List.not_mem_nil (h.mem_remaining.mpr ⟨hc, hm⟩)

end Pass

theorem ByName.eq_of_mem_iff {l l' : List ClassDescription} (h : ByName l) (h' : ByName l')
    (hmem : ∀ c, c ∈ l ↔ c ∈ l') : l = l' := by
  have hperm : l.Perm l' := (List.perm_ext_iff_of_nodup h.nodup h'.nodup).mpr hmem
  exact hperm.eq_of_pairwise (fun a b _ _ hab hba => (BytesBefore.asymm hab hba).elim) h h'

section Walking

variable {children : Table (List String)}
  (hkids : ∀ name, (children.get? name).getD [] = (r.children name).map (·.name))

include hkids

/-- A walk with an explicit stack visits the classes on top of it and all below them, in order. -/
theorem Walk.visits (hb : r.Built) {tops out : List ClassDescription} (hw : r.Walk tops out)
    (htops : ∀ c ∈ tops, c ∈ r.classes) (stack : List String) (visited : List ClassDescription) :
    (OrderState.next r)^[out.length] (.walking children (tops.map (·.name) ++ stack) visited) =
      .walking children stack (visited ++ out) := by
  induction hw generalizing stack visited with
  | nil => simp
  | @cons c tops kids below rest hmem hsorted _ _ ihbelow ihrest =>
    have hc := htops c List.mem_cons_self
    have hchildren : r.children c.name = kids :=
      (children_byName hb.sorted c.name).eq_of_mem_iff hsorted fun d =>
        (mem_children hb.not_root hc).trans (hmem d).symm
    have hstep : OrderState.next r (.walking children ((c :: tops).map (·.name) ++ stack) visited) =
        .walking children (kids.map (·.name) ++ (tops.map (·.name) ++ stack)) (visited ++ [c]) := by
      simp [OrderState.next, hkids, hchildren, lookup_of_mem hb.names_nodup hc]
    have hlen : (c :: (below ++ rest)).length = rest.length + below.length + 1 := by
      simp only [List.length_cons, List.length_append]
      omega
    rw [hlen, Function.iterate_succ_apply, hstep, Function.iterate_add_apply,
      ihbelow (fun d hd => ((hmem d).mp hd).1), ihrest fun d hd => htops d (List.mem_cons_of_mem _ hd)]
    simp

theorem walking_ends (hb : r.Built) {out : List ClassDescription} (h : r.order = .ok out) :
    ∃ n, (OrderState.next r)^[n] (.walking children [rootName] []) = .finished (.ok out) := by
  have hnone : r.lookup rootName = none := by
    cases hl : r.lookup rootName with
    | none => rfl
    | some c =>
      have hname := hb.not_root c (lookup_mem hl)
      rw [lookup_name hl, isRoot_rootName] at hname
      cases hname
  have hstart : OrderState.next r (.walking children [rootName] []) =
      .walking children ((r.children rootName).map (·.name) ++ []) [] := by
    simp [OrderState.next, hkids, hnone]
  have hwalk := (hb.order_walk h).visits hkids hb
    (fun c hc => (mem_children_rootName.mp hc).1) [] []
  refine ⟨out.length + 1 + 1, ?_⟩
  rw [Function.iterate_succ_apply', Function.iterate_succ_apply, hstart, hwalk]
  rfl

end Walking

theorem Placing.ends (hb : r.Built) {opened placed : List String} {children : Table (List String)}
    {remaining : List ClassDescription} (h : r.Placing opened placed children remaining) :
    ∃ n, (OrderState.next r)^[n] (.placing placed children remaining) = .finished r.order := by
  have hn := hb.names_nodup
  induction hk : remaining.length using Nat.strongRecOn generalizing opened placed children remaining with
  | ind k ih =>
    cases remaining with
    | nil =>
      obtain ⟨out, hout⟩ := h.order_of_done hn
      obtain ⟨n, hwalk⟩ := walking_ends h.children_of_done hb hout
      exact ⟨n + 1, by rw [Function.iterate_succ_apply, hout]; exact hwalk⟩
    | cons c rest =>
      have hpass := h.pass hn
      cases hattached : (c :: rest).filter (placed.contains ·.parentName) with
      | nil =>
        have hleft : (c :: rest).filter (!placed.contains ·.parentName) = c :: rest := by
          refine List.filter_eq_self.mpr fun d hd => ?_
          have hno := List.filter_eq_nil_iff.mp hattached d hd
          simpa using hno
        have hsorted : (c :: rest).Pairwise fun a b => a.name < b.name := by
          rw [h.remaining_eq]
          exact hb.sorted.filter _
        refine ⟨1, ?_⟩
        rw [h.order_of_stuck hn hattached (List.cons_ne_nil c rest)]
        simp only [Function.iterate_one, OrderState.next, hattached, hleft, sortByName_eq hsorted,
          List.isEmpty_nil, if_true]
      | cons d attached =>
        -- what is attached is no longer left over
        have hshort : ((c :: rest).filter (!placed.contains ·.parentName)).length < k := by
          have hd : d ∈ (c :: rest).filter (placed.contains ·.parentName) := by
            rw [hattached]
            exact List.mem_cons_self
          obtain ⟨hd, hp⟩ := List.mem_filter.mp hd
          rw [← hk]
          exact List.length_filter_lt_length_iff_exists.mpr ⟨d, hd, by simpa using hp⟩
        obtain ⟨n, hrun⟩ := ih _ hshort hpass rfl
        refine ⟨n + 1, ?_⟩
        rw [Function.iterate_succ_apply, ← hrun, hattached]
        simp only [OrderState.next, hattached, List.isEmpty_cons, if_neg Bool.false_ne_true]

theorem order_eq_error {e : OrderError} (h : r.order = .error e) :
    e.unplaced = r.classes.filter (!r.isRooted ·) ∧ e.unplaced ≠ [] := by
  unfold order at h
  cases hf : r.classes.filter (!r.isRooted ·) with
  | nil => simp [hf] at h
  | cons c l =>
    simp only [hf, Except.error.injEq] at h
    rw [← h]
    exact ⟨rfl, List.cons_ne_nil c l⟩

theorem mem_unplaced (hn : r.names.Nodup) {e : OrderError} (h : r.order = .error e)
    (c : ClassDescription) : c ∈ e.unplaced ↔ c ∈ r.classes ∧ ¬ r.ReachesRoot c := by
  rw [(order_eq_error h).1, List.mem_filter]
  refine and_congr_right fun hc => ?_
  rw [← isRooted_iff hn hc]
  simp

theorem order_fails_iff (hn : r.names.Nodup) :
    (∃ e, r.order = .error e) ↔ ∃ c ∈ r.classes, ¬ r.ReachesRoot c := by
  constructor
  · rintro ⟨e, h⟩
    obtain ⟨c, hc⟩ := List.exists_mem_of_ne_nil _ (order_eq_error h).2
    exact ⟨c, (mem_unplaced hn h c).mp hc⟩
  · rintro ⟨c, hc, hno⟩
    cases h : r.order with
    | error e => exact ⟨e, rfl⟩
    | ok out =>
      have hrooted := (order_eq_ok h).1 c hc
      exact (hno ((isRooted_iff hn hc).mp hrooted)).elim

theorem parents_get? {e : OrderError} (hnd : e.names.Nodup) {name parent : String} :
    e.parents.get? name = some parent ↔ ∃ c ∈ e.unplaced, c.name = name ∧ c.parent = parent := by
  simp only [OrderError.parents, Table.get?, List.find?_map, Option.map_map, Option.map_eq_some_iff]
  constructor
  · rintro ⟨c, hc, he⟩
    exact ⟨c, List.mem_of_find?_eq_some hc, by simpa using List.find?_some hc, he⟩
  · rintro ⟨c, hc, rfl, he⟩
    cases hf : e.unplaced.find? (fun d => d.name == c.name) with
    | none => simpa using List.find?_eq_none.mp hf c hc
    | some d =>
      have hd : d.name = c.name := by simpa using List.find?_some hf
      have heq := List.inj_on_of_nodup_map hnd (List.mem_of_find?_eq_some hf) hc hd
      exact ⟨d, hf, heq ▸ he⟩

structure OrderSettled (r : Registry) : Prop where
  ends : ∃ n, (OrderState.next r)^[n] (.placing [rootName] [] r.classes) = .finished r.order
  fails_iff : (∃ e, r.order = .error e) ↔ ∃ c ∈ r.classes, ¬ r.ReachesRoot c
  astray_iff : ∀ c ∈ r.classes, ¬ r.ReachesRoot c ↔ r.Breaks c ∨ r.Loops c
  culprits : ∀ e, r.order = .error e →
    (∀ name, name ∈ e.names ↔ ∃ c ∈ r.classes, c.name = name ∧ ¬ r.ReachesRoot c) ∧
    e.names.Pairwise BytesBefore ∧ e.names.Nodup
  parents : ∀ e, r.order = .error e → ∀ name parent, e.parents.get? name = some parent ↔
    ∃ c ∈ r.classes, c.name = name ∧ c.parent = parent ∧ ¬ r.ReachesRoot c

theorem Built.order_settled (hb : r.Built) : r.OrderSettled := by
  have hn := hb.names_nodup
  have hsorted : ∀ e, r.order = .error e → e.unplaced.Pairwise fun a b => a.name < b.name := by
    intro e he
    rw [(order_eq_error he).1]
    exact hb.sorted.filter _
  have hnodup : ∀ e, r.order = .error e → e.names.Nodup := by
    intro e he
    refine List.pairwise_map.mpr ((hsorted e he).imp fun hlt heq => ?_)
    exact String.lt_irrefl _ (heq ▸ hlt)
  refine ⟨(Placing.start hb).ends hb, order_fails_iff hn, fun c => not_reachesRoot_iff hn, ?_, ?_⟩
  · intro e he
    refine ⟨fun name => ?_, ?_, hnodup e he⟩
    · simp only [OrderError.names, List.mem_map, mem_unplaced hn he]
      constructor
      · rintro ⟨c, ⟨hc, hno⟩, hname⟩
        exact ⟨c, hc, hname, hno⟩
      · rintro ⟨c, hc, hname, hno⟩
        exact ⟨c, ⟨hc, hno⟩, hname⟩
    · exact List.pairwise_map.mpr ((hsorted e he).imp bytesBefore_of_lt)
  · intro e he name parent
    rw [parents_get? (hnodup e he)]
    simp only [mem_unplaced hn he]
    constructor
    · rintro ⟨c, ⟨hc, hno⟩, hname, hparent⟩
      exact ⟨c, hc, hname, hparent, hno⟩
    · rintro ⟨c, hc, hname, hparent, hno⟩
      exact ⟨c, ⟨hc, hno⟩, hname, hparent⟩

def tangle : Registry := .gather [
  { name := "Spoke", parent := "Ring" }, { name := "Leaf", parent := "Base" },
  { name := "Lost", parent := "Missing" }, { name := "Wheel", parent := "Ring" },
  { name := "Base", parent := "Root" }, { name := "Below", parent := "Lost" },
  { name := "Ring", parent := "Wheel" }, { name := "Self", parent := "Self" }]

theorem tangle_order : (match tangle.order with | .ok _ => [] | .error e => e.parents) =
    [("Below", "Lost"), ("Lost", "Missing"), ("Ring", "Wheel"), ("Self", "Self"),
      ("Spoke", "Ring"), ("Wheel", "Ring")] := by
  decide +kernel

theorem tangle_settled : tangle.Built ∧ (∃ e, tangle.order = .error e ∧ e.names =
    ["Below", "Lost", "Ring", "Self", "Spoke", "Wheel"]) ∧ tangle.OrderSettled := by
  have hb : tangle.Built := gather_built _
  refine ⟨hb, ?_, hb.order_settled⟩
  have hev := tangle_order
  cases h : tangle.order with
  | ok out => simp [h] at hev
  | error e =>
    simp only [h] at hev
    have hnames : e.names = e.parents.map (·.1) := by
      simp [OrderError.names, OrderError.parents]
    exact ⟨e, rfl, by rw [hnames, hev]; rfl⟩

end Registry

end PduCompiler
