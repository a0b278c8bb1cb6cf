import PduCompiler.Proofs.Initialisation
import PduCompiler.Proofs.Redeclaration
import PduCompiler.Proofs.Rewriting

/-! Counts after decoding. Decoding makes a list on the wire as long as its count says. A transient
list is not decoded while its count is, and nothing holds the two together. -/

namespace PduCompiler

open Decode

namespace Program

variable {p : Program} {s t : Store}

theorem construct_lists (hp : p.Planned) (depth : Nat) {n n' : Nursery} {i i' : Instance}
    {c : ClassDescription} (hc : c ∈ p.registry.classes)
    (h : p.construct depth n i c.name = .ok (n', i')) {l : Attribute}
    (hl : l ∈ p.registry.allAttributes c.name) {field : String} {e : Element}
    (hk : l.kind = some (.dynamicList field e)) (he : e.isObject = true) :
    (i'.lists.get? l.name).isSome = true := by
  refine construct_brings (P := fun i => (i.lists.get? l.name).isSome = true) hp
    (fun act i j hij hi => ?_) (fun overrides i j hij => ?_) depth hc hl h
  · cases hij with
    | list _ _ =>
      by_cases hn : l.name = act.attr
      · simp [Table.get?_set, hn]
      · simpa [Table.get?_set, hn] using hi
    | _ => exact hi
  · have hact : Plan.initAction overrides l =
        { op := .initList, attr := l.name, type := e.type, className := e.className } := by
      simp [Plan.initAction, hk]
    rw [hact] at hij
    cases hij with
    | list _ _ => simp [Table.get?_set]
    | words _ hn => exact absurd hn (by simpa [Element.isObject] using he)
    | word hop _ => simp [Action.ReadsLiteral] at hop
    | object hop _ | array hop | objects hop _ => cases hop

theorem unmarshal_zone (hp : p.Planned) (hs : p.Sound s) {x : Nat} {i : Instance}
    (hi : s.get? x = some i) (data : List UInt8) :
    p.Steps (fun z f => s.Zone x (p.registry.serialised i.className) z f ∨ s.size ≤ z) s
      (p.unmarshal s x data).1 := by
  have hscope : p.Scope (fun z f => s.Zone x (p.registry.serialised i.className) z f ∨ s.size ≤ z)
      s x (p.registry.serialised i.className) :=
    ⟨hs, ⟨i, hi, serialised_sub _ _⟩, fun z f hz => .inl (hz.zone ⟨i, hi⟩), fun z f hz => .inr hz⟩
  have hw := decodeInto_walks hp (p.decodeDepth s data) x i.className { store := s, rest := data }
    hscope
  unfold Walks Decode.after at hw
  simp only [unmarshal, hi]
  cases hd : p.decodeInto (p.decodeDepth s data) x i.className { store := s, rest := data } <;>
    simpa only [hd] using hw

theorem unmarshal_transient (hp : p.Planned) (hs : p.Sound s) (hno : p.registry.NoRedeclaration)
    {x : Nat} {i : Instance} (hi : s.get? x = some i) {l : Attribute}
    (hl : l ∈ p.registry.allAttributes i.className) (ht : l.transient = true)
    (data : List UInt8) {j : Instance} (hj : (p.unmarshal s x data).1.get? x = some j) :
    j.listLength l.name = i.listLength l.name := by
  obtain ⟨j', hj', hk⟩ := (unmarshal_zone hp hs hi data).frame.object x i hi
  cases Option.some.inj (hj.symm.trans hj')
  have hquiet : ¬ (s.Zone x (p.registry.serialised i.className) x l.name ∨ s.size ≤ x) := by
    rintro (⟨k, hk, a, ha, ⟨-, hn⟩ | ⟨y, hy, hyx⟩⟩ | hsize)
    · have heq := List.inj_on_of_nodup_map (hs.names_nodup hp hno hi) hl
        (serialised_sub _ _ a ha) hn
      have hser := (List.mem_filter.mp ha).2
      simp [← heq, ht] at hser
    · have hlt := (hs.object x k hk).below y (Instance.inside_embedded hy)
      have hle := Store.Owns.le hs hyx
      omega
    · exact absurd (Store.get?_lt hi) (Nat.not_lt.mpr hsize)
  have hwords : j.primLists.get? l.name = i.primLists.get? l.name := hk.agree l.name hquiet .words
  have hlist : j.lists.get? l.name = i.lists.get? l.name := hk.agree l.name hquiet .list
  rw [Instance.listLength, Instance.listLength, Instance.list, Instance.list, hwords, hlist]

theorem unmarshal_zeros (hp : p.Planned) (hs : p.Sound s) (hno : p.registry.NoRedeclaration)
    {x : Nat} {i : Instance} (hi : s.get? x = some i) :
    ∃ n t, p.unmarshal s x (zeros n) = (t, n, none) ∧
      Zeroed t x (p.registry.serialised i.className) := by
  have hscope : p.Scope anyField s x (p.registry.serialised i.className) :=
    ⟨hs, ⟨i, hi, serialised_sub _ _⟩, fun _ _ _ => trivial, fun _ _ _ => trivial⟩
  obtain ⟨c, hc, hcn⟩ := (hs.object x i hi).ready.class hp
  have hlevel := hp.rooted.level_lt hp.consistent.names_nodup hc
  have hcle := hp.classes_le
  obtain ⟨n, hrun⟩ := decodeInto_zeros hp
    (x * (p.plans.length + 1) + p.registry.level c.name + 1) x c hc s (hcn ▸ hscope) (by omega)
  obtain ⟨k, hdepth⟩ := Nat.exists_eq_add_of_lt (lt_decodeDepth (p := p) (Store.get?_lt hi)
    (show p.registry.level c.name ≤ p.plans.length by omega) (zeros n))
  rw [Nat.add_right_comm] at hdepth
  rcases hrun with hover | ⟨t, ⟨-, hzero⟩, hread⟩
  · obtain ⟨e, d, hover, hroot⟩ := hover k [] 0
    have hd : p.decodeInto (p.decodeDepth s (zeros n)) x i.className ⟨s, zeros n, 0⟩ =
        .error e d := by
      rw [hdepth, ← hcn]
      simpa using hover
    have hle : ∀ t, p.Sound t → p.Extents (· ≤ ·) t := fun t ht x i hi a ha n e hk he =>
      Nat.le_of_eq (ht.extents hp hno x i hi a ha n e hk he)
    exact (decodeInto_safe hp hle _ x i.className ⟨s, zeros n, 0⟩ hscope e d hd hroot).elim
  · have hd : p.decodeInto (p.decodeDepth s (zeros n)) x i.className ⟨s, zeros n, 0⟩ =
        .ok () ⟨t, [], n⟩ := by
      rw [hdepth, ← hcn]
      simpa [zeros] using hread k [] 0
    exact ⟨n, t, by simp [unmarshal, hi, hd], hcn ▸ hzero⟩

/-- Whatever operations made an object of a class, where decoding into it succeeds the count of a
list is then the length of the list. -/
def Settles (p : Program) (name : String) (l : Attribute) (field : String) : Prop :=
  ∀ ops x data t n, (p.run ops).class? x = some name →
    p.unmarshal (p.run ops) x data = (t, n, none) →
    ∃ j, t.get? x = some j ∧ (j.uint field).toNat = j.listLength l.name

theorem settles_of_serialised (hp : p.Planned) (hno : p.registry.NoRedeclaration) {name : String}
    {l : Attribute} (hl : l ∈ p.registry.serialised name) {field : String}
    (hf : l.CountedBy field) : p.Settles name l field := by
  intro ops x data t n hcls hun
  obtain ⟨i, hi, rfl⟩ := Option.map_eq_some_iff.mp hcls
  obtain ⟨ht, hcls', _, _, -, -, R, k, hfill⟩ := unmarshal_filled hp hno (.trivial p)
    (run_sound hp ops) hi (fun _ _ _ _ _ _ _ => True.intro) hun
  obtain ⟨j, hj, hjn⟩ := Option.map_eq_some_iff.mp hcls'
  rw [← hjn] at hfill hl
  exact ⟨j, hj, (hfill.listLength hp ht hno hj hl (serialised_sub _ _ l hl) hf).symm⟩

theorem new_lists (hp : p.Planned) (hs : p.Sound s) {name : String} {ref : Nat}
    (h : p.new s name = .ok (t, ref)) {l : Attribute} (hl : l ∈ p.registry.allAttributes name)
    {field : String} {e : Element} (hk : l.kind = some (.dynamicList field e))
    (he : e.isObject = true) : ∃ i, t.get? ref = some i ∧ (i.lists.get? l.name).isSome = true := by
  simp only [new, build, bind_eq_ok] at h
  obtain ⟨⟨objects, r⟩, ⟨⟨n, i⟩, hc, hpush⟩, hpair⟩ := h
  cases hpush
  cases hpair
  have hover : Nursery.atop { first := s.size } s = s := by simp [Nursery.atop, Store.append]
  obtain ⟨hfirst, -, hready, -⟩ := construct_builds hp s p.initDepth (Nat.le_refl _) _ name name n i
    rfl (hover.symm ▸ hs) hc
  obtain ⟨c, hcm, rfl⟩ := hready.class hp
  refine ⟨i, ?_, construct_lists hp _ hcm hc hl hk he⟩
  change ((n.push i).1.atop s).get? (n.push i).2 = some i
  rw [Nursery.push_ref hfirst, Nursery.push_atop, Store.get?_append_right (Nat.le_refl _)]
  simp

theorem Ready.run_new (hp : p.Planned) {name : String} (h : p.Ready name) (ops : List Operation) :
    ∃ x i, p.new (p.run ops) name = .ok (p.run (ops ++ [.new name]), x) ∧
      (p.run (ops ++ [.new name])).get? x = some i ∧ i.className = name := by
  obtain ⟨objects, x, hb⟩ := h.build (p.run ops).size
  have hnew : p.new (p.run ops) name = .ok ((p.run ops).append objects, x) := by
    simp [Program.new, hb]
  have hrun : p.run (ops ++ [.new name]) = (p.run ops).append objects := by
    rw [run_concat]
    simp [perform, hnew, Except.toOption]
  obtain ⟨-, -, hcls, -⟩ := new_grown hp (run_sound hp ops) hnew
  obtain ⟨i, hi, hin⟩ := Option.map_eq_some_iff.mp hcls
  rw [hrun]
  exact ⟨x, i, hnew, hi, hin⟩

theorem exists_nonempty (hp : p.Planned) (hno : p.registry.NoRedeclaration) {name : String}
    (hready : p.Ready name) {l : Attribute} (hl : l ∈ p.registry.allAttributes name)
    {field : String} (hf : l.CountedBy field) :
    ∃ ops x i, (p.run ops).get? x = some i ∧ i.className = name ∧ 0 < i.listLength l.name := by
  obtain ⟨e, hk⟩ := hf
  have hlen : ∀ ops x i, (p.run ops).get? x = some i → i.className = name → i.listLength l.name =
      if e.isObject then (i.list l.name).length else (i.primList l.name).length :=
    fun ops x i hi hin => (run_sound hp ops).listLength hp hno hi (hin ▸ hl) hk
  obtain ⟨x, i, hnew, hi, hin⟩ := hready.run_new hp []
  generalize [] ++ [Operation.new name] = ops at hnew hi
  cases he : e.isObject with
  | false =>
    have hholds := (run_sound hp ops).holds hp hno hi (hin ▸ hl)
    simp only [Instance.Holds, hk, he, if_neg Bool.false_ne_true] at hholds
    obtain ⟨ws, hws⟩ := Option.isSome_iff_exists.mp hholds
    have hset : (p.run (ops ++ [.appendUint x l.name 0])).get? x =
        some { i with primLists := i.primLists.set l.name (ws ++ [0]) } := by
      rw [run_concat]
      simp [perform, Store.update, hi, Instance.appendUint, hws, Except.toOption, Store.get?_set]
    refine ⟨_, x, _, hset, hin, ?_⟩
    rw [hlen _ x _ hset hin, he]
    simp [Instance.primList, Table.get?_set]
  | true =>
    obtain ⟨i', hi', hsome⟩ := new_lists hp (run_sound hp []) hnew hl hk he
    cases Option.some.inj (hi.symm.trans hi')
    obtain ⟨elems, helems⟩ := Option.isSome_iff_exists.mp hsome
    -- a second object is put into the list of the first
    obtain ⟨y, j, hnew', hj, -⟩ := hready.run_new hp ops
    obtain ⟨objects, -, hgrown⟩ := new_eq_ok hnew'
    have hix : (p.run (ops ++ [.new name])).get? x = some i :=
      hgrown ▸ Store.get?_append_some hi objects
    have hset : (p.run (ops ++ [.new name] ++ [.append x l.name y])).get? x =
        some { i with lists := i.lists.set l.name (elems ++ [y]) } := by
      rw [run_concat, perform, if_pos (Store.get?_lt hj)]
      simp [Store.update, hix, Instance.append, helems, Except.toOption, Store.get?_set]
    refine ⟨_, x, _, hset, hin, ?_⟩
    rw [hlen _ x _ hset hin, he]
    simp [Instance.list, Table.get?_set]

/-- The count of a list agrees with it after decoding exactly if the list is on the wire, as the
count always is. -/
theorem settles_iff_serialised {source : Registry} {options : PlanOptions}
    (h : p.Compiled source options) (hno : p.registry.NoRedeclaration) {name : String}
    (hnew : (p.new {} name).toOption.isSome = true) {l : Attribute}
    (hl : l ∈ p.registry.allAttributes name) {field : String} (hf : l.CountedBy field) :
    (∃ b ∈ p.registry.serialised name, b.name = field) ∧
      (p.Settles name l field ↔ l.transient = false) := by
  have hp := h.toPlanned
  have hready : p.Ready name := by
    obtain ⟨⟨s, ref⟩, hs⟩ := Option.isSome_iff_exists.mp hnew
    cases hn : p.new {} name with
    | error e => simp [hn, Except.toOption] at hs
    | ok made =>
      obtain ⟨objects, hb, -⟩ := new_eq_ok hn
      exact .of_build hb
  obtain ⟨c, hc, rfl⟩ := hready.class hp
  obtain ⟨d, hd, hld, hsub⟩ := hp.declaring hc hl
  obtain ⟨b, hbd, hser, q, rfl, hbk, -⟩ := hp.count_serialised hd hld hf
  have hb : b ∈ p.registry.serialised c.name :=
    List.mem_filter.mpr ⟨hsub hbd, by simp [hser]⟩
  refine ⟨⟨b, hb, rfl⟩, fun hset => ?_, fun ht => ?_⟩
  · by_contra htrue
    have ht : l.transient = true := by simpa using htrue
    -- zeros are decoded over an element that stays
    obtain ⟨ops, x, i, hi, hin, hpos⟩ := exists_nonempty hp hno hready hl hf
    have hs := run_sound hp ops
    obtain ⟨n, t, hun, k, hk, hzero⟩ := unmarshal_zeros hp hs hno hi
    obtain ⟨j, hj, heq⟩ := hset ops x (zeros n) t n (by simp [Store.class?, hi, hin]) hun
    cases Option.some.inj (hk.symm.trans hj)
    have hkeep := unmarshal_transient hp hs hno hi (hin ▸ hl) ht (zeros n) (by rw [hun]; exact hk)
    have hcount := (hzero b (hin ▸ hb)).1 q hbk
    rw [hcount, hkeep] at heq
    exact absurd heq.symm (Nat.ne_of_gt hpos)
  · exact settles_of_serialised hp hno (List.mem_filter.mpr ⟨hl, by simp [ht]⟩) hf

end Program

/-! A list that is not on the wire, though its count is. -/

namespace Unsettled

def items : Attribute :=
  { name := "items", kind := some (.dynamicList "count" { type := "uint8" }), transient := true }

def source : Registry := .gather [
  { name := "Cache", attributes := [
      { name := "count", kind := some (.primitive { type := "uint8" }) }, items] }]

def program : Program := (Program.compile? source {}).get (by decide +kernel)

theorem program_compiled : program.Compiled source {} :=
  Program.compiled_get (Registry.gather_built _) _

theorem program_evaluated : program.registry.NoRedeclaration ∧
    (program.new {} "Cache").toOption.isSome = true ∧
    items ∈ program.registry.allAttributes "Cache" := by
  decide +kernel

end Unsettled

/-- Sealing and planning accept a list that its count does not agree with after decoding. -/
theorem unsettled_not_settles :
    Unsettled.items ∈ Unsettled.program.registry.allAttributes "Cache" ∧
      ¬ Unsettled.program.Settles "Cache" Unsettled.items "count" := by
  obtain ⟨hno, hnew, hl⟩ := Unsettled.program_evaluated
  obtain ⟨-, hiff⟩ :=
    Program.settles_iff_serialised Unsettled.program_compiled hno hnew hl ⟨_, rfl⟩
  exact ⟨hl, fun hset => Bool.noConfusion (hiff.mp hset)⟩

end PduCompiler
