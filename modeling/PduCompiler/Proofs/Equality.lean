import PduCompiler.Machine.Bits
import PduCompiler.Proofs.Initialisation
import PduCompiler.Proofs.SizeAgreement
import PduCompiler.Proofs.Defaults

/-! Equality of objects. Tables are compared entry by entry, from one side only, and by their
lengths. As long as no name has two entries that tells the same from either side, so equality is an
equivalence of objects, and nothing that is computed from an object tells it from an equal one. -/

namespace PduCompiler

open Relation

namespace Table

variable {α β : Type} {t u : Table α}

def Tidy (t : Table α) : Prop := (t.map Prod.fst).Nodup

theorem Tidy.nil : Tidy ([] : Table α) := List.nodup_nil

theorem map_fst_set (t : Table α) (name : String) (v : α) : (t.set name v).map Prod.fst =
    if name ∈ t.map Prod.fst then t.map Prod.fst else t.map Prod.fst ++ [name] := by
  induction t with
  | nil => rfl
  | cons e rest ih =>
    obtain ⟨n, w⟩ := e
    by_cases hn : n = name
    · simp [set, hn]
    · have hne : name ≠ n := fun he => hn he.symm
      simp only [set, beq_iff_eq, hn, if_false, List.map_cons, ih, List.mem_cons, hne, false_or]
      split <;> rfl

theorem Tidy.set (h : t.Tidy) (name : String) (v : α) : (t.set name v).Tidy := by
  unfold Tidy at h ⊢
  rw [map_fst_set]
  split
  · exact h
  · next hnew =>
    refine List.nodup_append.mpr ⟨h, List.nodup_singleton _, fun n hn m hm he => ?_⟩
    exact hnew (List.mem_singleton.mp hm ▸ he ▸ hn)

theorem Tidy.map (h : t.Tidy) (f : α → β) : Tidy (t.map (Prod.map id f)) := by
  unfold Tidy at h ⊢
  rwa [List.map_map, show Prod.fst ∘ Prod.map id f = (Prod.fst : String × α → String) from rfl]

theorem Tidy.get?_eq_some (h : t.Tidy) {name : String} {v : α} :
    t.get? name = some v ↔ (name, v) ∈ t := by
  refine ⟨mem_of_get?, fun hm => ?_⟩
  cases hg : t.get? name with
  | none =>
    have hno := List.find?_eq_none.mp (Option.map_eq_none_iff.mp hg) (name, v) hm
    simp at hno
  | some w =>
    have heq := List.inj_on_of_nodup_map h (mem_of_get? hg) hm rfl
    rw [(Prod.mk.inj heq).2]

theorem related_iff {rel : α → Option α → Bool} (ht : t.Tidy) (hu : u.Tidy)
    (hnone : ∀ e ∈ t, rel e.2 none = false) : t.related rel u = true ↔
      ∀ name, Option.Rel (fun v w => rel v (some w) = true) (t.get? name) (u.get? name) := by
  unfold related
  rw [Bool.and_eq_true, beq_iff_eq, List.all_eq_true]
  constructor
  · rintro ⟨hlen, hall⟩ name
    have hpartner : ∀ n v, (n, v) ∈ t → ∃ w, u.get? n = some w ∧ rel v (some w) = true := by
      intro n v hm
      have hrel := hall (n, v) hm
      cases hg : u.get? n with
      | none => simp [hg, hnone (n, v) hm] at hrel
      | some w => exact ⟨w, rfl, by simpa only [hg] using hrel⟩
    have hsub : t.map Prod.fst ⊆ u.map Prod.fst := by
      intro n hn
      obtain ⟨⟨n, v⟩, hm, rfl⟩ := List.mem_map.mp hn
      obtain ⟨w, hw, -⟩ := hpartner n v hm
      exact List.mem_map.mpr ⟨_, mem_of_get? hw, rfl⟩
    cases hg : t.get? name with
    | some v =>
      obtain ⟨w, hw, hrel⟩ := hpartner name v (mem_of_get? hg)
      rw [hw]
      exact .some hrel
    | none =>
      cases hgu : u.get? name with
      | none => exact .none
      | some w =>
        -- the names of the one are some of the other's and as many, so they are all of them
        have hperm := (List.Nodup.subperm ht hsub).perm_of_length_le (by simp [hlen])
        obtain ⟨⟨n, v⟩, hm, rfl⟩ := List.mem_map.mp
          (hperm.mem_iff.mpr (List.mem_map.mpr ⟨_, mem_of_get? hgu, rfl⟩))
        rw [ht.get?_eq_some.mpr hm] at hg
        cases hg
  · intro h
    have hnames : ∀ n, n ∈ t.map Prod.fst ↔ n ∈ u.map Prod.fst := by
      have hmem : ∀ {t : Table α} {n}, n ∈ t.map Prod.fst ↔ (t.get? n).isSome = true := by
        intro t n
        simp [get?, List.find?_isSome]
      intro n
      rw [hmem, hmem]
      have hn := h n
      generalize t.get? n = v, u.get? n = w at hn
      cases hn <;> simp
    have hperm := (List.perm_ext_iff_of_nodup ht hu).mpr hnames
    refine ⟨by simpa using hperm.length_eq, ?_⟩
    rintro ⟨n, v⟩ hm
    have hn := h n
    rw [ht.get?_eq_some.mpr hm] at hn
    cases hg : u.get? n with
    | none => rw [hg] at hn; cases hn
    | some w =>
      rw [hg] at hn
      cases hn with
      | some hrel => simpa only [hg] using hrel

theorem related_eq_iff [BEq α] [LawfulBEq α] (ht : t.Tidy) (hu : u.Tidy) :
    t.related (fun v w => w == some v) u = true ↔ ∀ name, t.get? name = u.get? name := by
  rw [related_iff ht hu fun _ _ => rfl]
  refine forall_congr' fun name => ?_
  generalize t.get? name = v, u.get? name = w
  constructor
  · rintro (hvw | _)
    · exact (beq_iff_eq.mp hvw).symm
    · rfl
  · rintro rfl
    cases v with
    | none => exact .none
    | some v => exact .some (beq_self_eq_true _)

theorem related_lists_iff {t u : Table (List α)} (same : α → α → Bool)
    {rel : List α → Option (List α) → Bool} (ht : t.Tidy) (hu : u.Tidy)
    (hnone : ∀ l, rel l none = false) (hsome : ∀ l m, rel l (some m) =
      (l.length == m.length && (l.zip m).all fun e => same e.1 e.2)) :
    t.related rel u = true ↔ ∀ name,
      Option.Rel (List.Forall₂ fun v w => same v w = true) (t.get? name) (u.get? name) := by
  rw [related_iff ht hu fun e _ => hnone e.2]
  have hlists : ∀ l m, rel l (some m) = true ↔ List.Forall₂ (fun v w => same v w = true) l m := by
    intro l m
    rw [hsome, Bool.and_eq_true, beq_iff_eq, List.all_eq_true, List.forall₂_iff_zip]
    exact and_congr_right fun _ => ⟨fun h _ _ hm => h _ hm, fun h e hm => h hm⟩
  simp only [hlists]

end Table

section

variable {α : Type} {R S T : α → α → Prop} {a b c : Option α}

theorem optionRel_imp (h : Option.Rel R a b) (himp : ∀ v w, a = some v → R v w → S v w) :
    Option.Rel S a b := by
  cases h with
  | none => exact .none
  | some hr => exact .some (himp _ _ rfl hr)

theorem optionRel_refl (h : ∀ v, a = some v → R v v) : Option.Rel R a a := by
  cases a with
  | none => exact .none
  | some v => exact .some (h v rfl)

theorem optionRel_symm (h : Option.Rel R a b) (hS : ∀ v w, R v w → S w v) :
    Option.Rel S b a := by
  cases h with
  | none => exact .none
  | some hr => exact .some (hS _ _ hr)

theorem optionRel_trans (h : Option.Rel R a b) (h' : Option.Rel S b c)
    (hT : ∀ u v w, R u v → S v w → T u w) : Option.Rel T a c := by
  cases h with
  | none =>
    cases h'
    exact .none
  | some hr =>
    cases h' with
    | some hs => exact .some (hT _ _ _ hr hs)

theorem forall₂_trans {l m n : List α} (h : List.Forall₂ R l m) (h' : List.Forall₂ S m n)
    (hT : ∀ u v w, R u v → S v w → T u w) : List.Forall₂ T l n := by
  induction h generalizing n with
  | nil =>
    cases h'
    exact .nil
  | cons hr _ ih =>
    cases h' with
    | cons hs h' => exact .cons (hT _ _ _ hr hs) (ih h')

theorem forall₂_getD {l m : Option (List α)} (h : Option.Rel (List.Forall₂ R) l m) :
    List.Forall₂ R (l.getD []) (m.getD []) := by
  cases h with
  | none => exact .nil
  | some h => exact h

theorem forall₂_mapM {β ε : Type} {f : α → Except ε β} {l m : List α} (h : List.Forall₂ R l m)
    (hf : ∀ v w, R v w → f v = f w) : l.mapM f = m.mapM f := by
  induction h with
  | nil => rfl
  | cons hr _ ih => rw [List.mapM_cons, List.mapM_cons, hf _ _ hr, ih]

theorem forall₂_foldlM {β ε : Type} {f : β → α → Except ε β} {l m : List α}
    (h : List.Forall₂ R l m) (hf : ∀ b v w, R v w → f b v = f b w) (b : β) :
    l.foldlM f b = m.foldlM f b := by
  induction h generalizing b with
  | nil => rfl
  | cons hr _ ih => simp only [List.foldlM_cons, hf _ _ _ hr, ih]

end

namespace Instance

variable {R S T : Nat → Nat → Prop} {i j k : Instance}

structure Tidy (i : Instance) : Prop where
  prims : i.prims.Tidy
  objects : i.objects.Tidy
  arrays : i.arrays.Tidy
  primLists : i.primLists.Tidy
  objectArrays : i.objectArrays.Tidy
  lists : i.lists.Tidy

namespace Tidy

theorem blank (name : String) : Tidy { className := name } :=
  ⟨.nil, .nil, .nil, .nil, .nil, .nil⟩

theorem initialised {act : Action} (h : i.Tidy) (hij : i.Initialised act j) : j.Tidy := by
  cases hij with
  | word _ _ => exact { h with prims := h.prims.set _ _ }
  | object _ _ => exact { h with objects := h.objects.set _ _ }
  | array _ => exact { h with arrays := h.arrays.set _ _ }
  | objects _ _ => exact { h with objectArrays := h.objectArrays.set _ _ }
  | words _ _ => exact { h with primLists := h.primLists.set _ _ }
  | list _ _ => exact { h with lists := h.lists.set _ _ }

theorem change {r : Registry} {s : Store} {name : String} (h : i.Tidy)
    (hij : i.Change r s name j) : j.Tidy := by
  cases hij with
  | word _ => exact { h with prims := h.prims.set _ _ }
  | array _ _ => exact { h with arrays := h.arrays.set _ _ }
  | words _ _ => exact { h with primLists := h.primLists.set _ _ }
  | list _ _ _ => exact { h with lists := h.lists.set _ _ }

theorem shift (h : i.Tidy) (d : Nat) : (i.shift d).Tidy :=
  ⟨h.prims, h.objects.map _, h.arrays, h.primLists, h.objectArrays.map _, h.lists.map _⟩

end Tidy

/-- Two objects have the same class, the same words in every field, and in every field objects that
`R` relates. -/
structure Matches (R : Nat → Nat → Prop) (i j : Instance) : Prop where
  className : i.className = j.className
  prims : ∀ name, i.prims.get? name = j.prims.get? name
  arrays : ∀ name, i.arrays.get? name = j.arrays.get? name
  primLists : ∀ name, i.primLists.get? name = j.primLists.get? name
  objects : ∀ name, Option.Rel R (i.objects.get? name) (j.objects.get? name)
  objectArrays : ∀ name,
    Option.Rel (List.Forall₂ R) (i.objectArrays.get? name) (j.objectArrays.get? name)
  lists : ∀ name, Option.Rel (List.Forall₂ R) (i.lists.get? name) (j.lists.get? name)

theorem refers_object {name : String} {y : Nat} (h : i.objects.get? name = some y) :
    y ∈ i.embedded ∨ y ∈ i.elements :=
  .inl (object?_mem_embedded h)

theorem refers_array {name : String} {refs : List Nat} (h : i.objectArrays.get? name = some refs) :
    ∀ y ∈ refs, y ∈ i.embedded ∨ y ∈ i.elements := by
  intro y hy
  have hin : y ∈ i.objectArray name := by rwa [objectArray, h]
  exact .inl (objectArray_mem_embedded hin)

theorem refers_list {name : String} {refs : List Nat} (h : i.lists.get? name = some refs) :
    ∀ y ∈ refs, y ∈ i.embedded ∨ y ∈ i.elements := by
  intro y hy
  have hin : y ∈ i.list name := by rwa [list, h]
  exact .inr (list_mem_elements hin)

namespace Matches

theorem imp (h : i.Matches R j)
    (himp : ∀ y z, y ∈ i.embedded ∨ y ∈ i.elements → R y z → S y z) : i.Matches S j := by
  have hlist : ∀ {refs refs' : List Nat}, (∀ y ∈ refs, y ∈ i.embedded ∨ y ∈ i.elements) →
      List.Forall₂ R refs refs' → List.Forall₂ S refs refs' := fun hin hr =>
    ((List.forall₂_and_left _ _).mpr ⟨hin, hr⟩).imp fun y z hyz => himp y z hyz.1 hyz.2
  exact ⟨h.className, h.prims, h.arrays, h.primLists,
    fun name => optionRel_imp (h.objects name) fun y z hy => himp y z (refers_object hy),
    fun name => optionRel_imp (h.objectArrays name) fun _ _ hr => hlist (refers_array hr),
    fun name => optionRel_imp (h.lists name) fun _ _ hr => hlist (refers_list hr)⟩

theorem refl (h : ∀ y, y ∈ i.embedded ∨ y ∈ i.elements → R y y) : i.Matches R i := by
  have hlist : ∀ {refs : List Nat}, (∀ y ∈ refs, y ∈ i.embedded ∨ y ∈ i.elements) →
      List.Forall₂ R refs refs := fun hin => List.forall₂_same.mpr fun y hy => h y (hin y hy)
  exact ⟨rfl, fun _ => rfl, fun _ => rfl, fun _ => rfl,
    fun name => optionRel_refl fun y hy => h y (refers_object hy),
    fun name => optionRel_refl fun _ hr => hlist (refers_array hr),
    fun name => optionRel_refl fun _ hr => hlist (refers_list hr)⟩

theorem symm (h : i.Matches R j) (hS : ∀ y z, R y z → S z y) : j.Matches S i := by
  have hlist : ∀ refs refs' : List Nat, List.Forall₂ R refs refs' → List.Forall₂ S refs' refs :=
    fun _ _ hr => (hr.imp hS).flip
  exact ⟨h.className.symm, fun name => (h.prims name).symm, fun name => (h.arrays name).symm,
    fun name => (h.primLists name).symm, fun name => optionRel_symm (h.objects name) hS,
    fun name => optionRel_symm (h.objectArrays name) hlist,
    fun name => optionRel_symm (h.lists name) hlist⟩

theorem trans (h : i.Matches R j) (h' : j.Matches S k) (hT : ∀ x y z, R x y → S y z → T x z) :
    i.Matches T k := by
  have hlist : ∀ l m n : List Nat, List.Forall₂ R l m → List.Forall₂ S m n → List.Forall₂ T l n :=
    fun _ _ _ hr hs => forall₂_trans hr hs hT
  exact ⟨h.className.trans h'.className, fun name => (h.prims name).trans (h'.prims name),
    fun name => (h.arrays name).trans (h'.arrays name),
    fun name => (h.primLists name).trans (h'.primLists name),
    fun name => optionRel_trans (h.objects name) (h'.objects name) hT,
    fun name => optionRel_trans (h.objectArrays name) (h'.objectArrays name) hlist,
    fun name => optionRel_trans (h.lists name) (h'.lists name) hlist⟩

end Matches

end Instance

namespace Store

variable {s : Store} {depth : Nat} {x y z : Nat} {i j : Instance}

/-- Two references lead to equal objects, by a comparison down to a depth. -/
def SameTo (s : Store) (depth : Nat) (x y : Nat) : Prop :=
  Instance.equalTo s depth (s.get? x) (s.get? y) = true

structure Tidy (s : Store) : Prop where
  tables : ∀ x i, s.get? x = some i → i.Tidy
  embedded : ∀ x i, s.get? x = some i → ∀ y ∈ i.embedded, ∃ j, s.get? y = some j

theorem equalTo_none (s : Store) (depth : Nat) (i : Instance) :
    Instance.equalTo s depth (some i) none = false := by
  cases depth <;> rfl

theorem Tidy.equalTo_succ (hs : s.Tidy) (hi : s.get? x = some i) (hj : s.get? y = some j) :
    Instance.equalTo s (depth + 1) (some i) (some j) = true ↔ i.Matches (s.SameTo depth) j := by
  have hti := hs.tables x i hi
  have htj := hs.tables y j hj
  have hobjects : ∀ e ∈ i.objects, Instance.equalTo s depth (s.get? e.2) none = false := by
    rintro ⟨name, z⟩ he
    obtain ⟨k, hk⟩ := hs.embedded x i hi z
      (Instance.object?_mem_embedded (hti.objects.get?_eq_some.mpr he))
    rw [hk, equalTo_none]
  simp only [Instance.equalTo, Bool.and_eq_true, beq_iff_eq]
  have hprims := Table.related_eq_iff hti.prims htj.prims
  have harrays := Table.related_eq_iff hti.arrays htj.arrays
  have hwords := Table.related_eq_iff hti.primLists htj.primLists
  rw [hprims, harrays, hwords, Table.related_iff hti.objects htj.objects hobjects,
    Table.related_lists_iff (fun x y => Instance.equalTo s depth (s.get? x) (s.get? y))
      hti.objectArrays htj.objectArrays (fun _ => rfl) fun _ _ => rfl,
    Table.related_lists_iff (fun x y => Instance.equalTo s depth (s.get? x) (s.get? y))
      hti.lists htj.lists (fun _ => rfl) fun _ _ => rfl]
  constructor
  · rintro ⟨⟨⟨⟨⟨⟨hcls, hp⟩, ho⟩, ha⟩, hw⟩, hf⟩, hl⟩
    exact ⟨hcls, hp, ha, hw, ho, hf, hl⟩
  · intro h
    exact ⟨⟨⟨⟨⟨⟨h.className, h.prims⟩, h.objects⟩, h.arrays⟩, h.primLists⟩, h.objectArrays⟩,
      h.lists⟩

theorem Tidy.sameTo_succ (hs : s.Tidy) : s.SameTo (depth + 1) x y ↔
    Option.Rel (Instance.Matches (s.SameTo depth)) (s.get? x) (s.get? y) := by
  unfold SameTo
  cases hi : s.get? x with
  | none =>
    cases hj : s.get? y with
    | none => exact ⟨fun _ => .none, fun _ => rfl⟩
    | some j => exact ⟨fun h => (nomatch h), fun h => (nomatch h)⟩
  | some i =>
    cases hj : s.get? y with
    | none => exact ⟨fun h => (nomatch h), fun h => (nomatch h)⟩
    | some j => rw [hs.equalTo_succ hi hj, Option.rel_some_some]; rfl

theorem not_sameTo_zero : ¬ s.SameTo 0 x y := Bool.false_ne_true

theorem Tidy.sameTo_symm (hs : s.Tidy) (h : s.SameTo depth x y) : s.SameTo depth y x := by
  induction depth generalizing x y with
  | zero => exact absurd h not_sameTo_zero
  | succ depth ih =>
    rw [hs.sameTo_succ] at h ⊢
    exact optionRel_symm h fun i j hij => hij.symm fun _ _ => ih

theorem Tidy.sameTo_trans (hs : s.Tidy) (h : s.SameTo depth x y) (h' : s.SameTo depth y z) :
    s.SameTo depth x z := by
  induction depth generalizing x y z with
  | zero => exact absurd h not_sameTo_zero
  | succ depth ih =>
    rw [hs.sameTo_succ] at h h' ⊢
    exact optionRel_trans h h' fun i j k hij hjk => hij.trans hjk fun _ _ _ => ih

theorem Tidy.sameTo_refl (hs : s.Tidy) (h : Height s.Refers depth x) : s.SameTo depth x x := by
  induction depth generalizing x with
  | zero => exact h.elim
  | succ depth ih =>
    rw [hs.sameTo_succ]
    exact optionRel_refl fun i hi => .refl fun y hy => ih (h y ⟨i, hi, hy⟩)

theorem Tidy.sameTo_of_height (hs : s.Tidy) {k : Nat} (h : Height s.Refers k x)
    (hxy : s.SameTo depth x y) : s.SameTo k x y := by
  induction k generalizing depth x y with
  | zero => exact h.elim
  | succ k ih =>
    cases depth with
    | zero => exact absurd hxy not_sameTo_zero
    | succ depth =>
      rw [hs.sameTo_succ] at hxy ⊢
      exact optionRel_imp hxy fun i j hi hij => hij.imp fun y z hy => ih (h y ⟨i, hi, hy⟩)

end Store

namespace Instance.Matches

variable {R : Nat → Nat → Prop} {i j : Instance} (h : i.Matches R j) (name : String)

include h

theorem uint : i.uint name = j.uint name := congrArg (·.getD 0) (h.prims name)

theorem array : i.array name = j.array name := congrArg (·.getD []) (h.arrays name)

theorem primList : i.primList name = j.primList name := congrArg (·.getD []) (h.primLists name)

theorem objectArray : List.Forall₂ R (i.objectArray name) (j.objectArray name) :=
  forall₂_getD (h.objectArrays name)

theorem list : List.Forall₂ R (i.list name) (j.list name) := forall₂_getD (h.lists name)

theorem listLength : i.listLength name = j.listLength name := by
  unfold Instance.listLength
  rw [h.primLists name, (h.list name).length_eq]

end Instance.Matches

namespace Program

structure Alike (p : Program) (s : Store) (i j : Instance) : Prop where
  className : i.className = j.className
  encode : ∀ depth name, p.encode s depth i name = p.encode s depth j name
  measure : ∀ depth name, p.measure s depth i name = p.measure s depth j name

variable {p : Program} {s : Store} {R : Nat → Nat → Prop} {i j : Instance}

theorem Alike.of_ref {β : Type} {below : Instance → String → Except MachineError β}
    (hbelow : ∀ i j, p.Alike s i j → ∀ name, below i name = below j name) (v w : Option Instance) :
    Option.Rel (p.Alike s) v w →
      (match v with
        | none => Except.error MachineError.noObject
        | some obj => below obj obj.className) =
      match w with
        | none => Except.error MachineError.noObject
        | some obj => below obj obj.className := by
  rintro (h | _)
  · simp only [h.className]
    exact hbelow _ _ h _
  · rfl

theorem encodeAction_matches {below : Instance → String → Except MachineError (List UInt8)}
    (h : i.Matches R j) (hself : ∀ name, below i name = below j name)
    (hR : ∀ y z, Option.Rel R y z → encodeRef s below y = encodeRef s below z)
    (name : String) (act : Action) :
    encodeAction s below name i act = encodeAction s below name j act := by
  have hrefs : ∀ {l m : List Nat}, List.Forall₂ R l m →
      (l.mapM fun y => encodeRef s below (some y)) = m.mapM fun y => encodeRef s below (some y) :=
    fun hlm => forall₂_mapM hlm fun y z hyz => hR _ _ (.some hyz)
  unfold encodeAction
  cases act.op with
  | super => exact hself _
  | write => simp only [h.uint]
  | writeLength => simp only [h.listLength]
  | marshal => exact hR _ _ (h.objects _)
  | writeArray => simp only [h.array]
  | marshalArray => exact congrArg (fun parts => do return (← parts).flatten) (hrefs (h.objectArray _))
  | writeList => simp only [h.primList]
  | marshalList => exact congrArg (fun parts => do return (← parts).flatten) (hrefs (h.list _))
  | _ => rfl

theorem measureAction_matches {below : Instance → String → Except MachineError Int}
    (h : i.Matches R j) (hself : ∀ name, below i name = below j name)
    (hR : ∀ y z, Option.Rel R y z → measureRef s below y = measureRef s below z)
    (name : String) (act : Action) :
    measureAction s below name i act = measureAction s below name j act := by
  have hrefs : ∀ {l m : List Nat}, List.Forall₂ R l m →
      l.foldlM (fun total y => return wrap (total + (← measureRef s below (some y)))) 0 =
        m.foldlM (fun total y => return wrap (total + (← measureRef s below (some y)))) 0 :=
    fun hlm => forall₂_foldlM hlm (fun total y z hyz => by rw [hR _ _ (.some hyz)]) 0
  unfold measureAction
  cases act.op with
  | super => exact hself _
  | sizeObject => exact hR _ _ (h.objects _)
  | sizeArray => exact hrefs (h.objectArray _)
  | sizeList => simp only [h.primList]
  | sizeListObjects => exact hrefs (h.list _)
  | _ => rfl

theorem alike_of_matches (h : i.Matches R j)
    (hR : ∀ y z, R y z → Option.Rel (p.Alike s) (s.get? y) (s.get? z)) : p.Alike s i j := by
  have hrefs : ∀ y z, Option.Rel R y z → Option.Rel (p.Alike s) (y.bind s.get?) (z.bind s.get?) := by
    rintro y z (hyz | _)
    · exact hR _ _ hyz
    · exact .none
  refine ⟨h.className, fun depth => ?_, fun depth => ?_⟩
  · induction depth with
    | zero => exact fun _ => rfl
    | succ depth ih =>
      intro name
      have hact := encodeAction_matches (s := s) h ih
        (fun y z hyz => Alike.of_ref (fun _ _ h => h.encode depth) _ _ (hrefs y z hyz)) name
      simp only [encode, funext hact]
  · induction depth with
    | zero => exact fun _ => rfl
    | succ depth ih =>
      intro name
      have hact := measureAction_matches (s := s) h ih
        (fun y z hyz => Alike.of_ref (fun _ _ h => h.measure depth) _ _ (hrefs y z hyz)) name
      simp only [measure, hact]

theorem alike_of_sameTo (hs : s.Tidy) {depth x y : Nat} (h : s.SameTo depth x y) :
    Option.Rel (p.Alike s) (s.get? x) (s.get? y) := by
  induction depth generalizing x y with
  | zero => exact absurd h Store.not_sameTo_zero
  | succ depth ih =>
    exact optionRel_imp (hs.sameTo_succ.mp h) fun i j _ hij => alike_of_matches hij fun y z => ih

theorem construct_tidy {n n' : Nursery} (depth : Nat) {own name : String}
    (h : p.construct depth n { className := own } name = .ok (n', i)) : i.Tidy :=
  construct_keeps (N := fun _ => True) (fun _ _ _ _ _ _ _ => trivial)
    (fun _ _ _ _ _ _ _ _ hij hi => hi.initialised hij) depth trivial h (.blank own)

theorem Born.tidy (hp : p.Planned) {name : String} {z : Nat} (h : p.Born s name z)
    (hi : s.get? z = some i) : i.Tidy := by
  obtain ⟨objects, ref, d, hb, rfl, hget⟩ := h
  obtain ⟨n, o, ho, hlast⟩ := build_object hp hb
  cases Option.some.inj (hi.symm.trans (hget ref o hlast))
  exact (construct_tidy _ ho).shift d

theorem run_tidy (hp : p.Planned) (ops : List Operation) : (p.run ops).Tidy where
  tables := run_keeps hp (fun _ _ _ _ hz => hz.tidy hp) (fun _ _ _ _ hc hi => hi.change hc) ops
  embedded x i hi y hy :=
    Store.get?_of_lt (((run_sound hp ops).object x i hi).draft.embedded_lt y hy)

/-- Objects that do not contain themselves are equal if their fields are, equality is an equivalence
of them, and nothing that a program computes tells equal ones apart. -/
structure Congruence (p : Program) (s : Store) : Prop where
  fields : ∀ x y i j, s.get? x = some i → s.get? y = some j → s.Acyclic x →
    (s.equal (some x) (some y) = true ↔
      i.Matches (fun x y => s.equal (some x) (some y) = true) j)
  refl : ∀ x i, s.get? x = some i → s.Acyclic x → s.equal (some x) (some x) = true
  symm : ∀ x y, s.equal (some x) (some y) = true → s.equal (some y) (some x) = true
  trans : ∀ x y z, s.equal (some x) (some y) = true → s.equal (some y) (some z) = true →
    s.equal (some x) (some z) = true
  marshal : ∀ x y i j, s.get? x = some i → s.get? y = some j → s.Acyclic x →
    s.equal (some x) (some y) = true →
      ∃ bytes, p.marshal s i = .ok bytes ∧ p.marshal s j = .ok bytes
  size : ∀ x y i j, s.get? x = some i → s.get? y = some j → s.Acyclic x →
    s.equal (some x) (some y) = true → ∃ n, p.size s i = .ok n ∧ p.size s j = .ok n
  bits : ∀ x y i j, s.get? x = some i → s.get? y = some j →
    s.equal (some x) (some y) = true → ∀ name, p.getBits i name = p.getBits j name

theorem getBits_matches (h : i.Matches R j) (name : String) :
    p.getBits i name = p.getBits j name := by
  simp only [getBits, h.className, h.uint]

theorem run_congruence {source : Registry} {options : PlanOptions}
    (h : p.Compiled source options) (ops : List Operation) : p.Congruence (p.run ops) := by
  have hp := h.toPlanned
  have hs := run_sound hp ops
  have ht := run_tidy hp ops
  have hsame : ∀ {x y}, (p.run ops).equal (some x) (some y) = true ↔
      (p.run ops).SameTo ((p.run ops).size + 1) x y := Iff.rfl
  have halike : ∀ x y i j, (p.run ops).get? x = some i → (p.run ops).get? y = some j →
      (p.run ops).equal (some x) (some y) = true → p.Alike (p.run ops) i j := by
    intro x y i j hi hj hxy
    have hrel := alike_of_sameTo (p := p) ht hxy
    rw [hi, hj, Option.rel_some_some] at hrel
    exact hrel
  constructor
  case fields =>
    intro x y i j hi hj hx
    have hheight : ∀ y, y ∈ i.embedded ∨ y ∈ i.elements →
        Height (p.run ops).Refers (p.run ops).size y := by
      have hx := (hx.refers_height hs (Store.get?_lt hi)).mono (Nat.le_succ _)
      exact fun y hy => hx y ⟨i, hi, hy⟩
    simp only [hsame]
    rw [ht.sameTo_succ, hi, hj, Option.rel_some_some]
    -- the fields are compared one level less deep, which is enough for them
    constructor
    · exact fun hij => hij.imp fun y z hy =>
        ht.sameTo_of_height ((hheight y hy).mono (Nat.le_succ _))
    · exact fun hij => hij.imp fun y z hy => ht.sameTo_of_height (hheight y hy)
  case refl =>
    intro x i hi hx
    exact ht.sameTo_refl ((hx.refers_height hs (Store.get?_lt hi)).mono (Nat.le_succ _))
  case symm => exact fun x y => ht.sameTo_symm
  case trans => exact fun x y z => ht.sameTo_trans
  case marshal =>
    intro x y i j hi hj hx hxy
    have hij := halike x y i j hi hj hxy
    obtain ⟨bytes, hb⟩ := marshal_ok hp hs hi (hx.height hs (Store.get?_lt hi))
    refine ⟨bytes, hb, ?_⟩
    rw [← hb, Program.marshal, Program.marshal, ← hij.className, hij.encode]
  case size =>
    intro x y i j hi hj hx hxy
    have hij := halike x y i j hi hj hxy
    obtain ⟨bytes, hb⟩ := marshal_ok hp hs hi (hx.height hs (Store.get?_lt hi))
    obtain ⟨n, hn, -⟩ := marshal_sized hp hs hi hb
    refine ⟨wrap n, hn, ?_⟩
    rw [← hn, Program.size, Program.size, ← hij.className, hij.measure]
  case bits =>
    intro x y i j hi hj hxy
    have hij := ht.sameTo_succ.mp hxy
    rw [hi, hj, Option.rel_some_some] at hij
    exact getBits_matches hij

end Program

namespace Survey

def twins : List Operation := [
  .new "Point", .new "Route", .new "Point", .new "Route", .append 2 "points" 0,
  .append 5 "points" 3, .setUint 0 "x" 258, .setUint 3 "x" 65794, .setArray 5 "codes" 1 7,
  .setArray 2 "codes" 1 7, .appendUint 2 "marks" 5, .appendUint 5 "marks" 5]

theorem twins_evaluated : 5 < (program.run twins).size ∧
    (program.run twins).equal (some 2) (some 5) = true ∧
    (program.run twins).equal (some 0) (some 1) = false ∧
    (program.run twins).isRanked (fun x => [0, 0, 1, 0, 0, 1].getD x 0) = true := by
  decide +kernel

end Survey

/-- The points inside the routes differ from the ones in their lists, and are equal to each other. -/
theorem run_congruence_twins : Survey.program.Compiled Survey.source Survey.options ∧
    (Survey.program.run Survey.twins).equal (some 0) (some 1) = false ∧
    ∃ i j, (Survey.program.run Survey.twins).get? 2 = some i ∧
      (Survey.program.run Survey.twins).get? 5 = some j ∧
      ∃ bytes, Survey.program.marshal (Survey.program.run Survey.twins) i = .ok bytes ∧
        Survey.program.marshal (Survey.program.run Survey.twins) j = .ok bytes := by
  obtain ⟨hlt, hequal, hdiffer, hrank⟩ := Survey.twins_evaluated
  obtain ⟨i, hi⟩ := Store.get?_of_lt (Nat.lt_trans (by decide : 2 < 5) hlt)
  obtain ⟨j, hj⟩ := Store.get?_of_lt hlt
  have hx := Store.acyclic_of_isRanked hrank 2
  have hlaws := Program.run_congruence Survey.program_compiled Survey.twins
  exact ⟨Survey.program_compiled, hdiffer, i, j, hi, hj, hlaws.marshal 2 5 i j hi hj hx hequal⟩

end PduCompiler
