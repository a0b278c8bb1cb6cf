import PduCompiler.Proofs.Reading

/-! How decoding meets its input. Whatever the bytes, decoding takes some of them off the front.
Where it succeeds it depends on no others: with anything behind them it does the same, and with any
of them missing at the end it runs out of bytes. -/

namespace PduCompiler

def MachineError.IsShort (e : MachineError) : Prop :=
  ∃ need offset left, e.root = .shortBuffer need offset left

namespace Decode

/-- A computation reads exactly some bytes, and runs out of bytes where some at the end are
missing. -/
structure Cut {α : Type} (c : Decode α) (s : Store) (bytes : List UInt8) (v : α) (t : Store) :
    Prop where
  consumes : Consumes c s bytes v t
  short : ∀ front back, bytes = front ++ back → back ≠ [] → ∀ offset,
    ∃ e d, c ⟨s, front, offset⟩ = .error e d ∧ e.IsShort

/-- On every input a computation takes bytes off the front, and where it succeeds they are all that
it depends on. -/
def Reads {α : Type} (c : Decode α) : Prop :=
  ∀ d, match c d with
    | .ok v d' => ∃ b, d.Took b d' ∧ Cut c d.store b v d'.store
    | .error _ d' => ∃ b, d.Took b d'

section

variable {α β : Type} {c : Decode α} {s t u : Store}

theorem Cut.of_nil {v : α} (h : Consumes c s [] v t) : Cut c s [] v t := by
  refine ⟨h, fun front back he hne => ?_⟩
  exact (hne (List.append_eq_nil_iff.mp he.symm).2).elim

theorem Cut.bind {f : α → Decode β} {b b' : List UInt8} {v : α} {w : β} (h : Cut c s b v t)
    (h' : Cut (f v) t b' w u) : Cut (c >>= f) s (b ++ b') w u := by
  refine ⟨h.consumes.bind h'.consumes, fun front back he hne offset => ?_⟩
  -- the input ends within the bytes of the first part, or it holds them all
  rcases List.append_eq_append_iff.mp he with ⟨m, rfl, rfl⟩ | ⟨m, rfl, rfl⟩
  · obtain ⟨e, d, hd, hshort⟩ := h'.short m back rfl hne (offset + b.length)
    exact ⟨e, d, by rw [bind_apply, h.consumes m offset]; exact hd, hshort⟩
  · by_cases hm : m = []
    · subst hm
      obtain ⟨e, d, hd, hshort⟩ := h'.short [] b' rfl hne (offset + front.length)
      have hfront := h.consumes [] offset
      simp only [List.append_nil] at hfront
      exact ⟨e, d, by rw [bind_apply, hfront]; exact hd, hshort⟩
    · obtain ⟨e, d, hd, hshort⟩ := h.short front m rfl hm offset
      exact ⟨e, d, by rw [bind_apply, hd], hshort⟩

theorem Reads.ok (h : Reads c) {d d' : Decoding} {v : α} (hc : c d = .ok v d') :
    ∃ b, d.Took b d' ∧ Cut c d.store b v d'.store := by
  simpa only [hc] using h d

theorem Reads.error (h : Reads c) {d d' : Decoding} {e : MachineError} (hc : c d = .error e d') :
    ∃ b, d.Took b d' := by
  simpa only [hc] using h d

theorem Reads.length_le (h : Reads c) (d : Decoding) :
    (after c d).rest.length ≤ d.rest.length := by
  unfold after
  cases hc : c d with
  | ok v d' =>
    obtain ⟨b, htook, -⟩ := h.ok hc
    simp [htook.rest]
  | error e d' =>
    obtain ⟨b, htook⟩ := h.error hc
    simp [htook.rest]

theorem Reads.pure (v : α) : Reads (pure v : Decode α) :=
  fun d => ⟨[], .refl d, .of_nil (Consumes.pure v _)⟩

theorem Reads.throw (e : MachineError) : Reads (throw e : Decode α) :=
  fun d => ⟨[], .refl d⟩

theorem Reads.bind {f : α → Decode β} (h : Reads c) (h' : ∀ v, Reads (f v)) :
    Reads (c >>= f) := by
  intro d
  rw [bind_apply]
  cases hc : c d with
  | error e d₁ => exact h.error hc
  | ok v d₁ =>
    obtain ⟨b, htook, hcut⟩ := h.ok hc
    simp only
    cases hf : f v d₁ with
    | error e d₂ =>
      obtain ⟨b', htook'⟩ := (h' v).error hf
      exact ⟨b ++ b', htook.trans htook'⟩
    | ok w d₂ =>
      obtain ⟨b', htook', hcut'⟩ := (h' v).ok hf
      exact ⟨b ++ b', htook.trans htook', hcut.bind hcut'⟩

theorem Reads.forM {step : β → Decode Unit} (l : List β) (h : ∀ b ∈ l, Reads (step b)) :
    Reads (l.forM step) := by
  induction l with
  | nil => exact .pure ()
  | cons b l ih =>
    exact (h b List.mem_cons_self).bind fun _ => ih fun c hc => h c (List.mem_cons_of_mem _ hc)

end

theorem scalar_reads (type : TypeName) : Reads (scalar type) := by
  intro d
  cases hs : type.scalar? with
  | none =>
    simp only [scalar, hs]
    exact ⟨[], .refl d⟩
  | some sc =>
    have hcanon : type.isCanonical = true := by simp [TypeName.isCanonical, hs]
    have hwidth : type.width = sc.width := by rw [TypeName.width, hs, Option.elim_some]
    cases hd : scalar type d with
    | error e d' =>
      simp only [scalar, hs] at hd
      split at hd
      · cases hd
        exact ⟨[], .refl d⟩
      · cases hd
    | ok w d' =>
      obtain ⟨b, hb, rfl, htook, hst⟩ := scalar_ok hcanon hd
      refine ⟨b, htook, hst ▸ consumes_scalar hcanon hb d.store, fun front back he hne offset => ?_⟩
      have hlt : front.length < sc.width := by
        have hlen := congrArg List.length he
        have hpos := List.length_pos_iff.mpr hne
        rw [List.length_append] at hlen
        omega
      refine ⟨.shortBuffer sc.width offset front.length, ⟨d.store, front, offset⟩, ?_, _, _, _, rfl⟩
      simp only [scalar, hs]
      rw [if_pos (by rw [List.length_take]; omega)]

/-- Like `Cut`, for a computation that hands its error over. -/
structure SoftCut {α : Type} (c : Decode (α × Option MachineError)) (s : Store)
    (bytes : List UInt8) (v : α) (t : Store) : Prop where
  consumes : Consumes c s bytes (v, none) t
  short : ∀ front back, bytes = front ++ back → back ≠ [] → ∀ offset,
    ∃ lost e d, c ⟨s, front, offset⟩ = .ok (lost, some e) d ∧ e.IsShort

/-- Like `Reads`, for a computation that hands its error over. -/
def SoftReads {α : Type} (c : Decode (α × Option MachineError)) : Prop :=
  ∀ d, ∃ v error d', c d = .ok (v, error) d' ∧ ∃ b, d.Took b d' ∧
    (error = none → SoftCut c d.store b v d'.store)

theorem SoftReads.nil {β : Type} : SoftReads (pure ([], none) : Decode (List β × _)) := by
  intro d
  refine ⟨[], none, d, rfl, [], .refl d, fun _ => ⟨Consumes.pure _ _, fun front back he hne => ?_⟩⟩
  exact (hne (List.append_eq_nil_iff.mp he.symm).2).elim

theorem SoftReads.cons {α β : Type} {one : Decode α}
    {more all : Decode (List β × Option MachineError)} (item : α → β) (hone : Reads one)
    (hmore : SoftReads more)
    (hok : ∀ d v d' ws error d'', one d = .ok v d' → more d' = .ok (ws, error) d'' →
      all d = .ok (item v :: ws, error) d'')
    (herror : ∀ d e d', one d = .error e d' → ∃ lost, all d = .ok (lost, some e) d') :
    SoftReads all := by
  intro d
  cases hd : one d with
  | error e d₁ =>
    obtain ⟨b, htook⟩ := hone.error hd
    obtain ⟨lost, hall⟩ := herror d e d₁ hd
    exact ⟨lost, some e, d₁, hall, b, htook, fun h => by cases h⟩
  | ok v d₁ =>
    obtain ⟨b, htook, hcut⟩ := hone.ok hd
    obtain ⟨ws, error, d₂, hd₂, b', htook', hsoft⟩ := hmore d₁
    refine ⟨item v :: ws, error, d₂, hok _ _ _ _ _ _ hd hd₂, b ++ b', htook.trans htook', ?_⟩
    rintro rfl
    have hcut' := hsoft rfl
    refine ⟨fun rest offset => ?_, fun front back he hne offset => ?_⟩
    · have h₁ := hcut.consumes (b' ++ rest) offset
      have h₂ := hcut'.consumes rest (offset + b.length)
      rw [List.append_assoc, List.length_append, ← Nat.add_assoc]
      exact hok _ _ _ _ _ _ h₁ h₂
    · rcases List.append_eq_append_iff.mp he with ⟨m, rfl, rfl⟩ | ⟨m, rfl, rfl⟩
      · obtain ⟨lost, e, d₃, h₃, hshort⟩ := hcut'.short m back rfl hne (offset + b.length)
        exact ⟨_, e, d₃, hok _ _ _ _ _ _ (hcut.consumes m offset) h₃, hshort⟩
      · by_cases hm : m = []
        · subst hm
          obtain ⟨lost, e, d₃, h₃, hshort⟩ := hcut'.short [] b' rfl hne (offset + front.length)
          have hfront := hcut.consumes [] offset
          simp only [List.append_nil] at hfront
          exact ⟨_, e, d₃, hok _ _ _ _ _ _ hfront h₃, hshort⟩
        · obtain ⟨e, d₃, h₃, hshort⟩ := hcut.short front m rfl hm offset
          obtain ⟨lost, hall⟩ := herror _ e d₃ h₃
          exact ⟨lost, e, d₃, hall, hshort⟩

theorem SoftReads.failWith {α : Type} {c : Decode Unit}
    {soft : Decode (α × Option MachineError)} (h : SoftReads soft) (store : Store → α → Store)
    (hc : ∀ d v error d', soft d = .ok (v, error) d' →
      c d = failWith error { d' with store := store d'.store v }) : Reads c := by
  intro d
  obtain ⟨v, error, d', hd, b, htook, hsoft⟩ := h d
  rw [hc d v error d' hd, failWith_apply]
  cases error with
  | some e => exact ⟨b, htook.rest, htook.offset⟩
  | none =>
    obtain ⟨hconsumes, hshort⟩ := hsoft rfl
    refine ⟨b, ⟨htook.rest, htook.offset⟩, fun rest offset => ?_, fun front back he hne offset => ?_⟩
    · rw [hc _ _ _ _ (hconsumes rest offset), failWith_apply]
    · obtain ⟨lost, e, d₁, hd₁, hs⟩ := hshort front back he hne offset
      exact ⟨e, _, by rw [hc _ _ _ _ hd₁, failWith_apply], hs⟩

theorem scalars_softReads (type : TypeName) (n : Nat) : SoftReads (scalars type n) := by
  induction n with
  | zero => exact .nil
  | succ n ih =>
    refine .cons id (scalar_reads type) ih (fun d v d' ws error d'' h h' => ?_) fun d e d' h => ?_
    · simp only [scalars, bind_apply, outcome_apply, h, h', pure_apply, id]
    · exact ⟨[0], by simp [scalars, bind_apply, outcome_apply, h, pure_apply]⟩

theorem elements_softReads {make : Decode Nat} {fill : Nat → Decode Unit} (hm : Reads make)
    (hf : ∀ ref, Reads (fill ref)) (n : Nat) : SoftReads (elements make fill n) := by
  induction n with
  | zero => exact .nil
  | succ n ih =>
    have hone : Reads (make >>= fun ref => fill ref >>= fun _ => pure ref) :=
      hm.bind fun ref => (hf ref).bind fun _ => .pure ref
    refine .cons id hone ih (fun d v d' ws error d'' h h' => ?_) fun d e d' h => ?_
    · simp only [bind_apply] at h
      cases hmake : make d with
      | error e d₁ => simp [hmake] at h
      | ok ref d₁ =>
        simp only [hmake] at h
        cases hfill : fill ref d₁ with
        | error e d₂ => simp [hfill] at h
        | ok u d₂ =>
          simp only [hfill, pure_apply] at h
          cases h
          simp only [elements, bind_apply, outcome_apply, hmake, hfill, h', pure_apply, id]
    · simp only [bind_apply] at h
      cases hmake : make d with
      | error e₁ d₁ =>
        simp only [hmake] at h
        cases h
        exact ⟨[], by simp [elements, bind_apply, outcome_apply, hmake, pure_apply]⟩
      | ok ref d₁ =>
        simp only [hmake] at h
        cases hfill : fill ref d₁ with
        | error e₂ d₂ =>
          simp only [hfill] at h
          cases h
          exact ⟨[ref], by simp [elements, bind_apply, outcome_apply, hmake, hfill, pure_apply]⟩
        | ok u d₂ => simp [hfill, pure_apply] at h

theorem length_scalars {type : TypeName} {n : Nat} {d d' : Decoding} {ws : List Word}
    (h : scalars type n d = .ok (ws, none) d') : ws.length = n := by
  induction n generalizing d ws with
  | zero =>
    cases h
    rfl
  | succ n ih =>
    simp only [scalars, bind_apply, outcome_apply] at h
    cases hw : scalar type d with
    | error e d₁ =>
      simp only [hw] at h
      cases h
    | ok w d₁ =>
      obtain ⟨ws', error, d₂, hd₂, -, -⟩ := scalars_apply type n d₁
      simp only [hw, bind_apply, hd₂] at h
      cases h
      simp [ih hd₂]

end Decode

namespace Program

open Decode

variable {p : Program} {below : Nat → String → Decode Unit} {x : Nat} {i : Instance}

theorem make_reads (p : Program) (name : String) : Reads (p.make name) := by
  intro d
  cases hb : p.build d.store.size name with
  | error e =>
    simp only [make, hb]
    exact ⟨[], .refl d⟩
  | ok made =>
    obtain ⟨objects, ref⟩ := made
    simp only [make, hb]
    exact ⟨[], ⟨rfl, rfl⟩, .of_nil fun rest offset => by simp [make, hb]⟩

theorem visit_reads (hb : ∀ y name, Reads (below y name)) (y : Option Nat) :
    Reads (visit below y) := by
  intro d
  cases y with
  | none => exact ⟨[], .refl d⟩
  | some y =>
    cases ho : d.store.get? y with
    | none =>
      simp only [visit, ho]
      exact ⟨[], .refl d⟩
    | some obj =>
      have hsame : ∀ e : Decoding, e.store = d.store →
          visit below (some y) e = below y obj.className e := fun e he => by
        simp only [visit, he, ho]
      rw [hsame d rfl]
      cases hd : below y obj.className d with
      | error e d' => exact (hb y obj.className).error hd
      | ok u d' =>
        obtain ⟨b, htook, hcut⟩ := (hb y obj.className).ok hd
        refine ⟨b, htook, fun rest offset => ?_, fun front back he hne offset => ?_⟩
        · rw [hsame ⟨d.store, b ++ rest, offset⟩ rfl]
          exact hcut.consumes rest offset
        · rw [hsame ⟨d.store, front, offset⟩ rfl]
          exact hcut.short front back he hne offset

theorem word_reads {a : Attribute} {q : Primitive} (hk : a.kind = some (.primitive q)) :
    Reads (p.decodeAction below x i (Plan.wire a).unmarshal) := by
  intro d
  rw [decodeAction_word p below x i d hk]
  cases hd : scalar q.type d with
  | error e d' =>
    obtain ⟨b, htook⟩ := (scalar_reads q.type).error hd
    exact ⟨b, htook.rest, htook.offset⟩
  | ok w d' =>
    obtain ⟨b, htook, hcut⟩ := (scalar_reads q.type).ok hd
    refine ⟨b, ⟨htook.rest, htook.offset⟩, fun rest offset => ?_, fun front back he hne offset => ?_⟩
    · rw [decodeAction_word p below x i _ hk, hcut.consumes rest offset]
    · obtain ⟨e, d₁, hd₁, hshort⟩ := hcut.short front back he hne offset
      exact ⟨e, _, by rw [decodeAction_word p below x i _ hk, hd₁], hshort⟩

theorem array_reads {a : Attribute} {n : Int} {e : Element}
    (hk : a.kind = some (.fixedList n e)) (he : e.isObject = false) :
    Reads (p.decodeAction below x i (Plan.wire a).unmarshal) := by
  by_cases hlen : n.toNat ≤ (i.array a.name).length
  · refine (scalars_softReads e.type n.toNat).failWith (fun s ws =>
      if n.toNat = 0 then s else s.modify x fun j => { j with
        arrays := j.arrays.set a.name (ws ++ (i.array a.name).drop ws.length) })
      fun d ws error d' hd => ?_
    obtain ⟨ws', error', d'', hd', -, hws⟩ := scalars_apply e.type n.toNat d
    cases hd.symm.trans hd'
    rw [decodeAction_array p below x i d hk he hd, if_neg (by omega)]
    split <;> rfl
  · -- a list that does not fit its slot is never read to the end
    intro d
    obtain ⟨ws, error, d', hd, b, htook, -⟩ := scalars_softReads e.type n.toNat d
    rw [decodeAction_array p below x i d hk he hd]
    by_cases hws : (i.array a.name).length < ws.length
    · rw [if_pos hws]
      exact ⟨b, htook⟩
    · rw [if_neg hws, failWith_apply]
      cases error with
      | none => exact (hlen (by rw [← length_scalars hd]; omega)).elim
      | some e =>
        refine ⟨b, ?_⟩
        split <;> exact ⟨htook.rest, htook.offset⟩

theorem decodeAction_reads (hb : ∀ y name, Reads (below y name)) {a : Attribute}
    (hk : a.kind ≠ none) : Reads (p.decodeAction below x i (Plan.wire a).unmarshal) := by
  have hmany : ∀ {field : String} {e : Element}, a.kind = some (.dynamicList field e) →
      maxListCount < (i.uint field).toNat →
      Reads (p.decodeAction below x i (Plan.wire a).unmarshal) := by
    intro field e hk hc d
    rw [decodeAction_tooMany p below x i d hk hc]
    exact ⟨[], .refl d⟩
  cases Attribute.form hk with
  | word q hk => exact word_reads hk
  | object cls hk =>
    have heq : p.decodeAction below x i (Plan.wire a).unmarshal = visit below (i.object? a.name) :=
      funext fun d => decodeAction_object p below x i d hk
    exact heq ▸ visit_reads hb _
  | array n e hk he => exact array_reads hk he
  | objects n e hk he =>
    have heq : p.decodeAction below x i (Plan.wire a).unmarshal =
        (i.objectArray a.name).forM fun y => visit below (some y) :=
      funext fun d => decodeAction_objects p below x i d hk he
    exact heq ▸ .forM _ fun y _ => visit_reads hb _
  | words field e hk he =>
    by_cases hc : maxListCount < (i.uint field).toNat
    · exact hmany hk hc
    · exact (scalars_softReads e.type (i.uint field).toNat).failWith (fun s ws => s.modify x fun j =>
        { j with primLists := j.primLists.set a.name ws }) fun d ws error d' hd =>
          decodeAction_words p below x i d hk he (Nat.not_lt.mp hc) hd
  | list field e hk he =>
    by_cases hc : maxListCount < (i.uint field).toNat
    · exact hmany hk hc
    · exact (elements_softReads (p.make_reads e.className) (fun ref => hb ref e.className)
        (i.uint field).toNat).failWith (fun s refs => s.modify x fun j =>
          { j with lists := j.lists.set a.name refs }) fun d refs error d' hd =>
            decodeAction_list p below x i d hk he (Nat.not_lt.mp hc) hd

theorem decodeStep_reads {name : String} {act : Action}
    (h : ∀ i, Reads (p.decodeAction below x i act)) : Reads (p.decodeStep below x name act) := by
  intro d
  cases hi : d.store.get? x with
  | none =>
    simp only [decodeStep, hi]
    exact ⟨[], .refl d⟩
  | some i =>
    cases hd : p.decodeAction below x i act d with
    | error e d' =>
      simp only [decodeStep, hi, hd]
      exact (h i).error hd
    | ok u d' =>
      obtain ⟨b, htook, hcut⟩ := (h i).ok hd
      simp only [decodeStep, hi, hd]
      refine ⟨b, htook, fun rest offset => ?_, fun front back he hne offset => ?_⟩
      · simp only [decodeStep, hi, hcut.consumes rest offset]
      · obtain ⟨e, d₁, hd₁, hshort⟩ := hcut.short front back he hne offset
        exact ⟨.within name act.attr e, d₁, by simp only [decodeStep, hi, hd₁], hshort⟩

theorem decodeInto_reads (hp : p.Planned) (depth x : Nat) (name : String) :
    Reads (p.decodeInto depth x name) := by
  induction depth generalizing x name with
  | zero => exact .throw .endless
  | succ depth ih =>
    rw [decodeInto_succ]
    cases hplan : p.plan? name with
    | none => exact .throw _
    | some plan =>
      obtain ⟨c, hc, rfl, hf⟩ := hp.class_of_plan name plan hplan
      refine .forM _ fun act hact => decodeStep_reads fun i => ?_
      rcases hf.unmarshal_step hact with ⟨-, rfl⟩ | ⟨a, ha, rfl⟩
      · exact ih x c.parent
      · exact decodeAction_reads ih (hp.kind_ne_none hc (List.mem_filter.mp ha).1)

end Program

end PduCompiler
