import Mathlib.Data.List.Chain
import PduCompiler.Proofs.Encoding

/-! Sealing refuses classes that hold themselves, at whatever distance. So in a sealed registry no
chain of classes that hold each other is longer than the number of classes. -/

namespace PduCompiler.Registry

open Relation

variable {r r' : Registry} {name inner : String}

def Embeds (r : Registry) (name inner : String) : Prop := inner ∈ r.embeds name

theorem embeds_iff : r.Embeds name inner ↔
    ∃ a ∈ r.allAttributes name, embedded? a = some inner := by
  simp only [Embeds, embeds, allAttributes, List.mem_flatMap, List.mem_filterMap, List.mem_reverse]
  constructor
  · rintro ⟨c, hc, a, ha, hin⟩
    exact ⟨a, ⟨c, hc, ha⟩, hin⟩
  · rintro ⟨a, ⟨c, hc, ha⟩, hin⟩
    exact ⟨c, hc, a, ha, hin⟩

theorem ancestorsFrom_mem (fuel : Nat) (seen : List String) (c : ClassDescription) :
    ∀ q ∈ r.ancestorsFrom fuel seen c, q ∈ r.classes := by
  induction fuel generalizing seen c with
  | zero => simp [ancestorsFrom]
  | succ fuel ih =>
    intro q hq
    unfold ancestorsFrom at hq
    split at hq
    · cases hl : r.lookup c.parent with
      | none => simp [hl] at hq
      | some d =>
        simp only [hl, List.mem_cons] at hq
        rcases hq with rfl | hq
        · exact lookup_mem hl
        · exact ih _ _ q hq
    · simp at hq

theorem chain_mem : ∀ q ∈ r.chain name, q ∈ r.classes := by
  intro q hq
  rcases List.mem_append.mp hq with hq | hq
  · exact lookup_mem (Option.mem_toList.mp hq)
  · unfold ancestors at hq
    split at hq
    · simp at hq
    · exact ancestorsFrom_mem _ _ _ q hq

theorem KindSound.embedded {c : ClassDescription} {a : Attribute} (h : r.KindSound c a)
    (ha : embedded? a = some inner) : r.contains inner = true := by
  unfold embedded? at ha
  unfold KindSound at h
  split at ha
  · next hk =>
    simp only [hk] at h
    exact Option.some.inj ha ▸ h
  · next n e hk =>
    simp only [hk, ElementSound] at h
    split at ha
    · next he =>
      rw [if_pos he] at h
      exact Option.some.inj ha ▸ h.2
    · cases ha
  · cases ha

theorem Built.embeds_mem (hb : r.Built) (h : r.classes.flatMap r.checkClass = [])
    (hin : r.Embeds name inner) : inner ∈ r.names := by
  obtain ⟨c, hc, hinner⟩ := List.mem_flatMap.mp hin
  obtain ⟨a, ha, hemb⟩ := List.mem_filterMap.mp hinner
  have hk := ((hb.checked h (chain_mem c hc)).1 a ha).2
  obtain ⟨d, hd, hdn⟩ := contains_iff.mp (hk.embedded hemb)
  exact List.mem_map.mpr ⟨d, hd, hdn⟩

def Ends (r : Registry) (name : String) : Prop := Acc (fun b a => r.Embeds a b) name

theorem acyclic_of_acc {α : Type} {E : α → α → Prop} {x : α} (h : Acc (fun b a => E a b) x) :
    ¬ TransGen E x x := by
  intro hc
  have hacc := Acc.transGen h
  have hswap : TransGen (fun b a => E a b) x x := transGen_swap.mpr hc
  clear h hc
  induction hacc with
  | intro a _ ih => exact ih a hswap hswap

theorem Ends.acyclic (h : r.Ends name) : ¬ TransGen r.Embeds name name := acyclic_of_acc h

/-- Where a search leads whose depth is not bounded. It looks at the classes `todo` in turn, below
those of `path`, up to the first that is on the path. A class that it leaves is settled. -/
inductive Searches (r : Registry) : (path settled todo settled' : List String) →
    Option (List String) → Prop
  | done {path settled : List String} : Searches r path settled [] settled none
  | closed {path settled rest : List String} {name : String} (hon : name ∈ path) :
      Searches r path settled (name :: rest) settled (some (path ++ [name]))
  | skip {path settled settled' rest : List String} {found : Option (List String)} {name : String}
      (hoff : name ∉ path) (hold : name ∈ settled)
      (hrest : Searches r path settled rest settled' found) :
      Searches r path settled (name :: rest) settled' found
  | found {path settled below rest cycle : List String} {name : String}
      (hoff : name ∉ path) (hnew : name ∉ settled)
      (hbelow : Searches r (path ++ [name]) settled (r.embeds name) below (some cycle)) :
      Searches r path settled (name :: rest) (name :: below) (some cycle)
  | clear {path settled settled' below rest : List String} {found : Option (List String)}
      {name : String} (hoff : name ∉ path) (hnew : name ∉ settled)
      (hbelow : Searches r (path ++ [name]) settled (r.embeds name) below none)
      (hrest : Searches r path (name :: below) rest settled' found) :
      Searches r path settled (name :: rest) settled' found

namespace Searches

variable {path settled settled' todo cycle : List String} {found : Option (List String)}

theorem cons_none {below rest : List String} (h : r.Searches path settled [name] below none)
    (h' : r.Searches path below rest settled' found) :
    r.Searches path settled (name :: rest) settled' found := by
  cases h with
  | skip hoff hold hnil =>
    cases hnil
    exact .skip hoff hold h'
  | clear hoff hnew hbelow hnil =>
    cases hnil
    exact .clear hoff hnew hbelow h'

theorem cons_some {rest : List String} (h : r.Searches path settled [name] settled' (some cycle)) :
    r.Searches path settled (name :: rest) settled' (some cycle) := by
  cases h with
  | closed hon => exact .closed hon
  | skip _ _ hnil => cases hnil
  | found hoff hnew hbelow => exact .found hoff hnew hbelow
  | clear _ _ _ hnil => cases hnil

theorem settled_subset (h : r.Searches path settled todo settled' found) : settled ⊆ settled' := by
  induction h with
  | done | closed => exact List.Subset.refl _
  | skip _ _ _ ih => exact ih
  | found _ _ _ ih => exact fun a ha => List.mem_cons_of_mem _ (ih ha)
  | clear _ _ _ _ ih ih' => exact fun a ha => ih' (List.mem_cons_of_mem _ (ih ha))

/-- A search that finds nothing has settled all that it was asked for, and nothing from which an
endless chain starts. -/
theorem ends (h : r.Searches path settled todo settled' found) (hnone : found = none)
    (hends : ∀ name ∈ settled, r.Ends name) :
    todo ⊆ settled' ∧ ∀ name ∈ settled', r.Ends name := by
  induction h with
  | done => exact ⟨List.nil_subset _, hends⟩
  | closed => cases hnone
  | skip _ hold hrest ih =>
    obtain ⟨hasked, hends'⟩ := ih hnone hends
    exact ⟨List.cons_subset.mpr ⟨hrest.settled_subset hold, hasked⟩, hends'⟩
  | found => cases hnone
  | @clear _ _ _ below _ _ name _ _ _ hrest ih ih' =>
    obtain ⟨hbelow, hends'⟩ := ih rfl hends
    have hself : r.Ends name := ⟨name, fun inner hin => hends' inner (hbelow hin)⟩
    obtain ⟨hasked, hall⟩ := ih' hnone (List.forall_mem_cons.mpr ⟨hself, hends'⟩)
    exact ⟨List.cons_subset.mpr ⟨hrest.settled_subset List.mem_cons_self, hasked⟩, hall⟩

/-- What is found is a path along which each class holds the next, and on which the last is met
twice. -/
theorem closes (h : r.Searches path settled todo settled' found) (hfound : found = some cycle)
    (hpath : ∀ name ∈ todo, (path ++ [name]).IsChain r.Embeds) :
    cycle.IsChain r.Embeds ∧ ∃ front name, cycle = front ++ [name] ∧ name ∈ front := by
  induction h with
  | done => cases hfound
  | @closed path _ _ name hon =>
    cases hfound
    exact ⟨hpath name List.mem_cons_self, path, name, rfl, hon⟩
  | skip _ _ _ ih => exact ih hfound fun n hn => hpath n (List.mem_cons_of_mem _ hn)
  | @found path _ _ _ _ name _ _ _ ih =>
    refine ih hfound fun inner hin => List.isChain_append.mpr ⟨hpath name List.mem_cons_self,
      .singleton _, fun x hx y hy => ?_⟩
    obtain rfl : name = x := by simpa using hx
    obtain rfl : inner = y := by simpa using hy
    exact hin
  | clear _ _ _ _ _ ih => exact ih hfound fun n hn => hpath n (List.mem_cons_of_mem _ hn)

end Searches

def searchAll (search : List String → String → List String × Option (List String))
    (children : List String) (start : List String × Option (List String)) :
    List String × Option (List String) :=
  children.foldl (fun acc child => match acc.2 with
    | some cycle => (acc.1, some cycle)
    | none => search acc.1 child) start

theorem searchCycle_succ (r : Registry) (fuel : Nat) (settled path : List String) (name : String) :
    r.searchCycle (fuel + 1) settled path name =
      if path.contains name then (settled, some (path ++ [name]))
      else if settled.contains name then (settled, none)
      else
        let found := searchAll (fun settled child => r.searchCycle fuel settled (path ++ [name]) child)
          (r.embeds name) (settled, none)
        (name :: found.1, found.2) := rfl

section

variable {search : List String → String → List String × Option (List String)}

theorem searchAll_some (children settled cycle : List String) :
    searchAll search children (settled, some cycle) = (settled, some cycle) := by
  induction children with
  | nil => rfl
  | cons child children ih => exact ih

theorem searchAll_searches {path : List String} (children : List String)
    (hsearch : ∀ child ∈ children, ∀ settled,
      r.Searches path settled [child] (search settled child).1 (search settled child).2)
    (settled : List String) : r.Searches path settled children
      (searchAll search children (settled, none)).1
      (searchAll search children (settled, none)).2 := by
  induction children generalizing settled with
  | nil => exact .done
  | cons child children ih =>
    have hchild := hsearch child List.mem_cons_self settled
    have hnext : searchAll search (child :: children) (settled, none) =
      searchAll search children (search settled child) := rfl
    rw [hnext]
    rcases hm : search settled child with ⟨middle, _ | cycle⟩
    · rw [hm] at hchild
      exact hchild.cons_none (ih (fun c hc => hsearch c (List.mem_cons_of_mem _ hc)) middle)
    · rw [hm] at hchild
      rw [searchAll_some]
      exact hchild.cons_some

end

section

variable (hnames : ∀ name inner, r.Embeds name inner → inner ∈ r.names)

include hnames

/-- The bound is never met. -/
theorem searchCycle_searches (fuel : Nat) (settled path : List String) (name : String)
    (hpath : path.Nodup) (hsub : path ⊆ r.names) (hname : name ∈ r.names)
    (hfuel : r.classes.length < fuel + path.length) : r.Searches path settled [name]
      (r.searchCycle fuel settled path name).1 (r.searchCycle fuel settled path name).2 := by
  induction fuel generalizing settled path name with
  | zero =>
    -- a path without repetition has at most every class on it
    have hlen := (hpath.subperm hsub).length_le
    rw [names, List.length_map] at hlen
    omega
  | succ fuel ih =>
    rw [searchCycle_succ]
    by_cases hon : name ∈ path
    · rw [if_pos (List.contains_iff_mem.mpr hon)]
      exact .closed hon
    rw [if_neg (by simpa using hon)]
    by_cases hold : name ∈ settled
    · rw [if_pos (List.contains_iff_mem.mpr hold)]
      exact .skip hon hold .done
    rw [if_neg (by simpa using hold)]
    have hpath' : (path ++ [name]).Nodup := List.nodup_append.mpr
      ⟨hpath, List.nodup_singleton _, fun a ha b hb he => hon (by simp_all)⟩
    have hsub' : path ++ [name] ⊆ r.names := List.append_subset.mpr ⟨hsub, by simpa using hname⟩
    have hbelow := searchAll_searches (r.embeds name) (fun child hc settled =>
      ih settled (path ++ [name]) child hpath' hsub' (hnames name child hc)
        (by rw [List.length_append, List.length_singleton]; omega)) settled
    dsimp only
    generalize searchAll (fun settled child => r.searchCycle fuel settled (path ++ [name]) child)
      (r.embeds name) (settled, none) = result at hbelow
    obtain ⟨below, _ | cycle⟩ := result
    · exact .clear hon hold hbelow .done
    · exact .found hon hold hbelow

end

inductive Rounds (r : Registry) : (settled todo : List String) → List (List String) → Prop
  | nil {settled : List String} : Rounds r settled [] []
  | cons {settled settled' todo : List String} {cycles : List (List String)}
      {found : Option (List String)} {name : String}
      (hname : Searches r [] settled [name] settled' found) (hrest : Rounds r settled' todo cycles) :
      Rounds r settled (name :: todo) (found.toList ++ cycles)

theorem embeddingCycles_rounds (hnames : ∀ name inner, r.Embeds name inner → inner ∈ r.names) :
    r.Rounds [] r.names r.embeddingCycles := by
  have hround : ∀ (l : List String) (acc : List String × List (List String)), l ⊆ r.names →
      ∃ cycles, r.Rounds acc.1 l cycles ∧ (l.foldl (fun acc name =>
        let found := r.searchCycle (r.classes.length + 1) acc.1 [] name
        (found.1, acc.2 ++ found.2.toList)) acc).2 = acc.2 ++ cycles := by
    intro l
    induction l with
    | nil => exact fun acc _ => ⟨[], .nil, by simp⟩
    | cons name l ih =>
      intro acc hsub
      obtain ⟨hname, hrest⟩ := List.cons_subset.mp hsub
      have hfirst := searchCycle_searches hnames (r.classes.length + 1) acc.1 [] name
        List.nodup_nil (List.nil_subset _) hname (by simp)
      obtain ⟨cycles, hcycles, heq⟩ := ih (_, acc.2 ++ _) hrest
      exact ⟨_, .cons hfirst hcycles, by rw [List.foldl_cons, ← List.append_assoc]; exact heq⟩
  obtain ⟨cycles, hcycles, heq⟩ := hround r.names ([], []) (List.Subset.refl _)
  have hcycles_eq : r.embeddingCycles = cycles := heq
  rwa [hcycles_eq]

theorem Rounds.ends {settled todo : List String} {cycles : List (List String)}
    (h : r.Rounds settled todo cycles) (hnil : cycles = [])
    (hends : ∀ name ∈ settled, r.Ends name) : ∀ name ∈ todo, r.Ends name := by
  induction h with
  | nil => simp
  | cons hname _ ih =>
    obtain ⟨hnone, hrest⟩ := List.append_eq_nil_iff.mp hnil
    obtain ⟨hasked, hends'⟩ := hname.ends (Option.toList_eq_nil_iff.mp hnone) hends
    exact List.forall_mem_cons.mpr ⟨hends' _ (hasked List.mem_cons_self), ih hrest hends'⟩

theorem Rounds.closes {settled todo : List String} {cycles : List (List String)}
    (h : r.Rounds settled todo cycles) {cycle : List String} (hcycle : cycle ∈ cycles) :
    cycle.IsChain r.Embeds ∧ ∃ front name, cycle = front ++ [name] ∧ name ∈ front := by
  induction h with
  | nil => simp at hcycle
  | cons hname _ ih =>
    rcases List.mem_append.mp hcycle with hfirst | hrest
    · exact hname.closes (Option.mem_toList.mp hfirst) fun n _ => .singleton n
    · exact ih hrest

theorem ends_of_no_cycles (hnames : ∀ name inner, r.Embeds name inner → inner ∈ r.names)
    (h : r.embeddingCycles = []) : ∀ name ∈ r.names, r.Ends name :=
  (embeddingCycles_rounds hnames).ends h (by simp)

theorem transGen_of_closed {E : String → String → Prop} {front : List String}
    (h : (front ++ [name]).IsChain E) (hname : name ∈ front) : TransGen E name name := by
  have hpair := List.isChain_iff_pairwise.mp (h.imp fun _ _ => TransGen.single)
  exact (List.pairwise_append.mp hpair).2.2 name hname name List.mem_cons_self

theorem toSealed_cycles (hb : r.Built) (h : r.toSealed = .ok r') : r.embeddingCycles = [] := by
  obtain ⟨hnil, -⟩ := toSealed_eq_ok hb h
  simp only [toSealed, hb.unsealed, problems, hnil] at h
  cases hc : r.embeddingCycles with
  | nil => rfl
  | cons cycle cycles => simp [hc] at h

theorem embedded?_linkAttribute (attributes : List Attribute) (a : Attribute) :
    embedded? (linkAttribute attributes a) = embedded? a := by
  by_cases h : ∃ q, a.kind = some (.primitive q)
  · obtain ⟨q, hq⟩ := h
    obtain ⟨q', hq', -⟩ := linkAttribute_primitive attributes hq
    simp [embedded?, hq, hq']
  · rw [linkAttribute_other attributes fun q hq => h ⟨q, hq⟩]

theorem embeds_linked (r : Registry) (name : String) :
    (Registry.mk (r.classes.map linkClass) true).embeds name = r.embeds name := by
  rw [embeds, chain_map (f := linkClass) (fun _ => rfl) (fun _ => rfl), embeds]
  simp [List.flatMap_map, linkClass, List.filterMap_map, embedded?_linkAttribute]

/-- No chain of classes that hold each other has more links than there are classes. -/
def Grounded (r : Registry) : Prop :=
  ∀ c ∈ r.classes, Height r.Embeds r.classes.length c.name

theorem Built.grounded (hb : r.Built) (h : r.toSealed = .ok r') : r'.Grounded := by
  obtain ⟨hnil, rfl⟩ := toSealed_eq_ok hb h
  have hE : (Registry.mk (r.classes.map linkClass) true).Embeds = r.Embeds := by
    funext name inner
    rw [Embeds, embeds_linked, Embeds]
  have hnames : ∀ name inner, r.Embeds name inner → inner ∈ r.names :=
    fun _ _ => hb.embeds_mem hnil
  have hends := ends_of_no_cycles hnames (toSealed_cycles hb h)
  intro c' hc'
  obtain ⟨c, hc, rfl⟩ := List.mem_map.mp hc'
  have hmem : ∀ inner, ReflTransGen r.Embeds c.name inner → inner ∈ r.names := by
    intro inner hr
    cases hr with
    | refl => exact List.mem_map_of_mem hc
    | tail _ hin => exact hnames _ _ hin
  have hheight := height_of_acyclic hmem fun inner hr => (hends inner (hmem inner hr)).acyclic
  rw [hE, List.length_map]
  simpa [names, linkClass] using hheight

/-- The plans of a class hand over to those of its parent and of the classes whose objects its own
attributes hold. -/
def Draws (r : Registry) (name other : String) : Prop :=
  ∃ c, r.lookup name = some c ∧ (c.hasParent = true ∧ c.parent = other ∨
    ∃ a ∈ c.attributes, embedded? a = some other)

section Draws

variable (hs : r.Consistent) (hr : r.Rooted)

include hs hr

theorem Draws.mem (h : r.Draws name inner) : inner ∈ r.names := by
  obtain ⟨c, hc, ⟨hpar, rfl⟩ | ⟨a, ha, hemb⟩⟩ := h
  · obtain ⟨q, hq, hl, -⟩ := hr.parent hs.names_nodup (lookup_mem hc) hpar
    exact List.mem_map.mpr ⟨q, hq, lookup_name hl⟩
  · obtain ⟨d, hd, hdn⟩ := contains_iff.mp ((hs.kinds c (lookup_mem hc) a ha).embedded hemb)
    exact List.mem_map.mpr ⟨d, hd, hdn⟩

theorem draws_mem (h : ReflTransGen r.Draws name inner) (hname : name ∈ r.names) :
    inner ∈ r.names := by
  cases h with
  | refl => exact hname
  | tail _ hin => exact hin.mem hs hr

/-- Along parents the level falls and no new class is held; where a class is held the chains of held
classes get shorter. -/
theorem acc_draws (k : Nat) : ∀ c ∈ r.classes, Height r.Embeds k c.name →
    Acc (fun b a => r.Draws a b) c.name := by
  have hn := hs.names_nodup
  induction k with
  | zero => exact fun c _ h => h.elim
  | succ k ih =>
    have hstep : ∀ c ∈ r.classes, Height r.Embeds (k + 1) c.name →
        (c.hasParent = true → Acc (fun b a => r.Draws a b) c.parent) →
        Acc (fun b a => r.Draws a b) c.name := by
      intro c hc hheight hparent
      refine Acc.intro _ fun other hother => ?_
      obtain ⟨d, hd, hcase⟩ := hother
      rw [lookup_of_mem hn hc] at hd
      cases hd
      rcases hcase with ⟨hpar, rfl⟩ | ⟨a, ha, hemb⟩
      · exact hparent hpar
      · obtain ⟨e, he, hen⟩ := contains_iff.mp ((hs.kinds c hc a ha).embedded hemb)
        have hholds : r.Embeds c.name e.name := embeds_iff.mpr
          ⟨a, (mem_allAttributes hn hc).mpr (.inr ha), hen ▸ hemb⟩
        exact hen ▸ ih e he (hheight _ hholds)
    refine hr.induction hn (fun c hc hpar hheight => ?_) (fun c hc q hq hpar hl ihq hheight => ?_)
    · exact hstep c hc hheight fun h => by simp [hpar] at h
    · refine hstep c hc hheight fun _ => lookup_name hl ▸ ihq fun inner hin => hheight inner ?_
      obtain ⟨a, ha, hemb⟩ := embeds_iff.mp hin
      refine embeds_iff.mpr ⟨a, ?_, hemb⟩
      rw [hr.allAttributes_child hn hc hpar, ← lookup_name hl]
      exact List.mem_append_left _ ha

theorem Grounded.draws_acyclic (hg : r.Grounded) {c : ClassDescription} (hc : c ∈ r.classes) :
    ¬ TransGen r.Draws c.name c.name :=
  acyclic_of_acc (acc_draws hs hr _ c hc (hg c hc))

theorem Grounded.draws_height (hg : r.Grounded) {c : ClassDescription} (hc : c ∈ r.classes) :
    Height r.Draws r.classes.length c.name := by
  have hmem : ∀ other, ReflTransGen r.Draws c.name other → other ∈ r.names := fun other h =>
    draws_mem hs hr h (List.mem_map_of_mem hc)
  have hheight := height_of_acyclic hmem fun other h => by
    obtain ⟨d, hd, rfl⟩ := List.mem_map.mp (hmem other h)
    exact hg.draws_acyclic hs hr hd
  simpa [names] using hheight

end Draws

end PduCompiler.Registry
