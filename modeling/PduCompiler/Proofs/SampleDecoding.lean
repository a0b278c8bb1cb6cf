import PduCompiler.Proofs.Consuming
import PduCompiler.Proofs.Ownership
import PduCompiler.Proofs.SampleProgram
import PduCompiler.Sample

/-! Values of the sample classes and the objects that show them. Decoding into such an object goes
on as long as the reader of the value does, and then the object shows what was read. -/

namespace PduCompiler

theorem Instance.Kept.uint {i j : Instance} {writes : String → Prop} (h : i.Kept writes j)
    {name : String} (hn : ¬ writes name) : j.uint name = i.uint name := by
  have hword : j.prims.get? name = i.prims.get? name := h.agree name hn .word
  rw [Instance.uint, Instance.uint, hword]

theorem Instance.Kept.list {i j : Instance} {writes : String → Prop} (h : i.Kept writes j)
    {name : String} (hn : ¬ writes name) : j.list name = i.list name := by
  have hlist : j.lists.get? name = i.lists.get? name := h.agree name hn .list
  rw [Instance.list, Instance.list, hlist]

namespace Sample

open Decode

def Record.Shown (s : Store) (x : Nat) (r : Record) : Prop :=
  ∃ i, s.get? x = some i ∧ i.className = "Record" ∧
    i.uint "key" = BitVec.ofNat 64 r.key.toNat ∧ i.uint "flags" = BitVec.ofNat 64 r.flags.toNat

def Point.Shown (s : Store) (x : Nat) (p : Point) : Prop :=
  ∃ i, s.get? x = some i ∧ i.className = "Point" ∧
    i.uint "x" = BitVec.ofNat 64 p.x.toUInt16.toNat ∧
    i.uint "y" = BitVec.ofNat 64 p.y.toUInt16.toNat

structure Message.Fields (s : Store) (i : Instance) (m : Message) : Prop where
  version : i.uint "version" = BitVec.ofNat 64 m.version.toNat
  numRecords : i.uint "numRecords" = BitVec.ofNat 64 m.numRecords.toNat
  records : List.Forall₂ (Record.Shown s) (i.list "records") m.records

def Message.Shown (s : Store) (x : Nat) (m : Message) : Prop :=
  ∃ i, s.get? x = some i ∧ i.className = "Message" ∧ m.Fields s i

def Route.Shown (s : Store) (x : Nat) (r : Route) : Prop :=
  ∃ i, s.get? x = some i ∧ i.className = "Route" ∧ r.message.Fields s i ∧
    ∃ first second, i.objectArray "corners" = [first, second] ∧
      r.corners.1.Shown s first ∧ r.corners.2.Shown s second

section

variable {s t : Store} {writes : Nat → String → Prop} {x : Nat}

theorem Record.Shown.frame {r : Record} (h : r.Shown s x) (hf : Store.Frame writes s t)
    (hw : ∀ f, ¬ writes x f) : r.Shown t x := by
  obtain ⟨i, hi, hcls, hkey, hflags⟩ := h
  obtain ⟨j, hj, hk⟩ := hf.object x i hi
  exact ⟨j, hj, hk.className.trans hcls, (hk.uint (hw _)).trans hkey, (hk.uint (hw _)).trans hflags⟩

theorem Point.Shown.frame {p : Point} (h : p.Shown s x) (hf : Store.Frame writes s t)
    (hw : ∀ f, ¬ writes x f) : p.Shown t x := by
  obtain ⟨i, hi, hcls, hx, hy⟩ := h
  obtain ⟨j, hj, hk⟩ := hf.object x i hi
  exact ⟨j, hj, hk.className.trans hcls, (hk.uint (hw _)).trans hx, (hk.uint (hw _)).trans hy⟩

theorem Message.Fields.record_class {m : Message} {i : Instance} (h : m.Fields s i) :
    ∀ y ∈ i.list "records", s.class? y = some "Record" := by
  intro y hy
  obtain ⟨r, -, o, ho, hc, -⟩ := forall₂_of_mem h.records hy
  simp [Store.class?, ho, hc]

theorem Record.Shown.frames {refs : List Nat} {rs : List Record}
    (h : List.Forall₂ (Record.Shown s) refs rs) (hf : Store.Frame writes s t)
    (hw : ∀ y ∈ refs, ∀ f, ¬ writes y f) : List.Forall₂ (Record.Shown t) refs rs := by
  induction h with
  | nil => exact .nil
  | @cons y r refs rs hr _ ih =>
    exact .cons (hr.frame hf (hw y List.mem_cons_self))
      (ih fun z hz => hw z (List.mem_cons_of_mem _ hz))

theorem Record.Shown.modify {refs : List Nat} {rs : List Record} {change : Instance → Instance}
    (h : List.Forall₂ (Record.Shown s) refs rs) (hne : ∀ y ∈ refs, y ≠ x) :
    List.Forall₂ (Record.Shown (s.modify x change)) refs rs := by
  induction h with
  | nil => exact .nil
  | @cons y r refs rs hr _ ih =>
    obtain ⟨i, hi, hrest⟩ := hr
    refine .cons ⟨i, ?_, hrest⟩ (ih fun z hz => hne z (List.mem_cons_of_mem _ hz))
    unfold Store.modify
    split
    · exact hi
    · rw [Store.get?_set, if_neg (hne y List.mem_cons_self)]
      exact hi

theorem Message.Fields.frame {m : Message} {i j : Instance} (h : m.Fields s i)
    (hf : Store.Frame writes s t) (hk : i.Kept (writes x) j) (hw : ∀ f, ¬ writes x f)
    (hrecords : ∀ y ∈ i.list "records", ∀ f, ¬ writes y f) : m.Fields t j where
  version := (hk.uint (hw _)).trans h.version
  numRecords := (hk.uint (hw _)).trans h.numRecords
  records := by
    rw [hk.list (hw _)]
    exact Record.Shown.frames h.records hf hrecords

end

/-- Decoding comes to an end as a reader does, and the store then shows what was read. -/
def Tracks {α : Type} (c : Decode Unit) (d : Decoding) (r : Reading α)
    (shows : Store → α → Prop) : Prop :=
  match r.rest with
  | .ok rest => ∃ d', c d = .ok () d' ∧ d'.rest = rest ∧ shows d'.store r.object
  | .error _ => ∃ e d', c d = .error e d'

section

variable {α : Type} {c : Decode Unit} {f : Unit → Decode Unit} {d d' : Decoding} {r : Reading α}
  {shows : Store → α → Prop}

theorem Tracks.done (hr : r.rest = .ok d.rest) (h : shows d.store r.object) :
    Tracks (pure ()) d r shows := by
  unfold Tracks
  rw [hr]
  exact ⟨d, rfl, rfl, h⟩

theorem Tracks.congr {c' : Decode Unit} (h : Tracks c d r shows) (heq : c' d = c d) :
    Tracks c' d r shows := by
  unfold Tracks at *
  rwa [heq]

theorem Tracks.of_ok (hc : c d = .ok () d') (h : Tracks (f ()) d' r shows) :
    Tracks (c >>= f) d r shows := by
  unfold Tracks at *
  rw [bind_apply, hc]
  exact h

theorem Tracks.of_error {e : MachineError} (hc : c d = .error e d') {e' : ShortInput}
    (hr : r.rest = .error e') : Tracks (c >>= f) d r shows := by
  unfold Tracks
  rw [hr, bind_apply, hc]
  exact ⟨e, d', rfl⟩

theorem Tracks.bind {β : Type} {r' : Reading β} {shows' : Store → β → Prop}
    (h : Tracks c d r' shows') (herror : ∀ e, r'.rest = .error e → r.rest = .error e)
    (hok : ∀ d', c d = .ok () d' → r'.rest = .ok d'.rest → shows' d'.store r'.object →
      Tracks (f ()) d' r shows) : Tracks (c >>= f) d r shows := by
  unfold Tracks at h
  cases hr : r'.rest with
  | error e =>
    rw [hr] at h
    obtain ⟨e', d', hd'⟩ := h
    exact .of_error hd' (herror e hr)
  | ok rest =>
    rw [hr] at h
    obtain ⟨d', hd', rfl, hshows⟩ := h
    exact .of_ok hd' (hok d' hd' hr hshows)

end

theorem number?_one (bytes : List UInt8) : number? 1 bytes = match bytes with
    | [] => none
    | b :: rest => some (b.toNat, rest) := by
  cases bytes <;> simp [number?, ofBigEndian]

theorem number?_lt {width n : Nat} {bytes rest : List UInt8}
    (h : number? width bytes = some (n, rest)) : n < 256 ^ width := by
  unfold number? at h
  split at h
  · cases h
  · next hlen =>
    cases h
    have hlt := ofBigEndian_lt (bytes.take width)
    rwa [List.length_take, Nat.min_eq_left (Nat.not_lt.mp hlen)] at hlt

section

variable {p : Program} {below : Nat → String → Decode Unit} {x : Nat} {i : Instance}
  {name : String} {act : Action} {d d' : Decoding}

theorem decodeStep_of_ok (hi : d.store.get? x = some i)
    (h : p.decodeAction below x i act d = .ok () d') :
    p.decodeStep below x name act d = .ok () d' := by
  simp only [Program.decodeStep, hi, h]

theorem decodeStep_ok (hi : d.store.get? x = some i)
    (h : p.decodeStep below x name act d = .ok () d') :
    p.decodeAction below x i act d = .ok () d' := by
  cases hd : p.decodeAction below x i act d with
  | error e e' => simp [Program.decodeStep, hi, hd] at h
  | ok u e' => simpa [Program.decodeStep, hi, hd] using h

theorem decodeStep_of_error (hi : d.store.get? x = some i) {e : MachineError}
    (h : p.decodeAction below x i act d = .error e d') :
    p.decodeStep below x name act d = .error (.within name act.attr e) d' := by
  simp only [Program.decodeStep, hi, h]

end

theorem Tracks.step {α : Type} {p : Program} {below : Nat → String → Decode Unit} {x : Nat}
    {i : Instance} {name : String} {act : Action} {d : Decoding} {r : Reading α}
    {shows : Store → α → Prop} (hi : d.store.get? x = some i)
    (h : Tracks (p.decodeAction below x i act) d r shows) :
    Tracks (p.decodeStep below x name act) d r shows := by
  unfold Tracks at *
  split
  · next hr =>
    rw [hr] at h
    obtain ⟨d', hd', hrest⟩ := h
    exact ⟨d', decodeStep_of_ok hi hd', hrest⟩
  · next hr =>
    rw [hr] at h
    obtain ⟨e, d', hd'⟩ := h
    exact ⟨_, d', decodeStep_of_error hi hd'⟩

theorem Tracks.word {α : Type} {p : Program} {below : Nat → String → Decode Unit} {x : Nat}
    {i : Instance} {name : String} {a : Attribute} {q : Primitive} {sc : Scalar} {d : Decoding}
    {f : Unit → Decode Unit} {r : Reading α} {shows : Store → α → Prop}
    (hi : d.store.get? x = some i) (hk : a.kind = some (.primitive q))
    (hs : q.type.scalar? = some sc)
    (hshort : number? sc.width d.rest = none → ∃ e, r.rest = .error e)
    (hread : ∀ n rest, number? sc.width d.rest = some (n, rest) → Tracks (f ())
      ⟨d.store.modify x (·.setPrim a.name (BitVec.ofNat 64 n)), rest, d.offset + sc.width⟩ r shows) :
    Tracks (p.decodeStep below x name (Plan.wire a).unmarshal >>= f) d r shows := by
  have hact := Program.decodeAction_word p below x i d hk
  by_cases hlen : d.rest.length < sc.width
  · obtain ⟨e, he⟩ := hshort (by rw [number?, if_pos hlen])
    have hscalar : scalar q.type d = .error (.shortBuffer sc.width d.offset d.rest.length) d := by
      have htake : (d.rest.take sc.width).length < sc.width := by
        rw [List.length_take]
        omega
      simp only [scalar, hs, if_pos htake]
    rw [hscalar] at hact
    exact .of_error (decodeStep_of_error hi hact) he
  · have hscalar : scalar q.type d = .ok (BitVec.ofNat 64 (ofBigEndian (d.rest.take sc.width)))
        { d with rest := d.rest.drop sc.width, offset := d.offset + sc.width } := by
      have htake : ¬ (d.rest.take sc.width).length < sc.width := by
        rw [List.length_take]
        omega
      simp only [scalar, hs, if_neg htake]
    rw [hscalar] at hact
    exact .of_ok (decodeStep_of_ok hi hact) (hread _ _ (by rw [number?, if_neg hlen]))

theorem get?_setPrim {s : Store} {x : Nat} {i : Instance} (hi : s.get? x = some i) (name : String)
    (w : Word) : (s.modify x (·.setPrim name w)).get? x = some (i.setPrim name w) := by
  simp [Store.modify, hi, Store.get?_set]

theorem sound_setPrim {s : Store} {x : Nat} {i : Instance} (hs : program.Sound s)
    (hi : s.get? x = some i) (name : String) (w : Word) :
    program.Sound (s.modify x (·.setPrim name w)) := by
  have hstep : program.Steps (fun _ _ => True) s (s.modify x (·.setPrim name w)) :=
    .modify hi trivial (.word w)
  exact hstep.sound program_planned hs

theorem decodeInto_rootless {p : Program} (hp : p.Planned) {c : ClassDescription}
    (hc : c ∈ p.registry.classes) (hpar : c.hasParent = false) (depth x : Nat) :
    p.decodeInto (depth + 1) x c.name = c.serialised.forM fun a =>
      p.decodeStep (p.decodeInto depth) x c.name (Plan.wire a).unmarshal := by
  rw [Program.decodeInto_class hp hc, hpar]
  rfl

theorem record_tracks (depth : Nat) {x : Nat} {d : Decoding}
    (h : d.store.class? x = some "Record") (r : Record) :
    Tracks (program.decodeInto (depth + 1) x "Record") d (r.read d.rest)
      fun t r => r.Shown t x := by
  obtain ⟨i, hi, hcls⟩ := Option.map_eq_some_iff.mp h
  have heq := decodeInto_rootless program_planned record_mem (record_rootless _) depth x
  rw [show program.decodeInto (depth + 1) x "Record" = _ from heq]
  refine Tracks.word (a := keyField) hi rfl rfl (fun hn => ?_) fun key rest hkey => ?_
  · change number? 4 d.rest = none at hn
    simp [Record.read, hn]
  change number? 4 d.rest = some (key, rest) at hkey
  have hi' := get?_setPrim hi keyField.name (BitVec.ofNat 64 key)
  refine Tracks.word (a := flagsField "flags") hi' rfl rfl (fun hn => ?_) fun n rest' hn => ?_
  · change number? 1 rest = none at hn
    rw [number?_one] at hn
    cases rest with
    | nil => simp [Record.read, hkey]
    | cons b rest => cases hn
  change number? 1 rest = some (n, rest') at hn
  rw [number?_one] at hn
  cases rest with
  | nil => cases hn
  | cons flags rest =>
    cases hn
    refine Tracks.done (by simp [Record.read, hkey]) ?_
    have hlt : key < 2 ^ 32 := number?_lt hkey
    refine ⟨_, get?_setPrim hi' _ _, hcls, ?_, ?_⟩
    · have hread : (r.read d.rest).object.key = UInt32.ofNat key := by simp [Record.read, hkey]
      rw [hread, UInt32.toNat_ofNat_of_lt' hlt]
      simp [Instance.uint_setPrim, keyField, flagsField]
    · simp [Record.read, hkey, Instance.uint_setPrim, flagsField]

theorem point_tracks (depth : Nat) {x : Nat} {d : Decoding}
    (h : d.store.class? x = some "Point") (p : Point) :
    Tracks (program.decodeInto (depth + 1) x "Point") d (p.read d.rest)
      fun t p => p.Shown t x := by
  obtain ⟨i, hi, hcls⟩ := Option.map_eq_some_iff.mp h
  have heq := decodeInto_rootless program_planned point_mem point_rootless depth x
  rw [show program.decodeInto (depth + 1) x "Point" = _ from heq]
  refine Tracks.word (a := xField) hi rfl rfl (fun hn => ?_) fun m rest hm => ?_
  · change number? 2 d.rest = none at hn
    simp [Point.read, hn]
  change number? 2 d.rest = some (m, rest) at hm
  have hi' := get?_setPrim hi xField.name (BitVec.ofNat 64 m)
  refine Tracks.word (a := yField) hi' rfl rfl (fun hn => ?_) fun n rest' hn => ?_
  · change number? 2 rest = none at hn
    simp [Point.read, hm, hn]
  change number? 2 rest = some (n, rest') at hn
  refine Tracks.done (by simp [Point.read, hm, hn]) ?_
  have hxlt : m < 2 ^ 16 := number?_lt hm
  have hylt : n < 2 ^ 16 := number?_lt hn
  refine ⟨_, get?_setPrim hi' _ _, hcls, ?_, ?_⟩
  · have hread : (p.read d.rest).object.x.toUInt16 = UInt16.ofNat m := by
      simp [Point.read, hm, hn, Point.coordinate]
    rw [hread, UInt16.toNat_ofNat_of_lt' hxlt]
    simp [Instance.uint_setPrim, xField, yField]
  · have hread : (p.read d.rest).object.y.toUInt16 = UInt16.ofNat n := by
      simp [Point.read, hm, hn, Point.coordinate]
    rw [hread, UInt16.toNat_ofNat_of_lt' hylt]
    simp [Instance.uint_setPrim, yField]

theorem record_ready : program.Ready "Record" := by
  have hmade := build_record
  cases h : program.build 0 "Record" with
  | error e => simp [h, Except.toOption] at hmade
  | ok made => exact .of_build h

theorem records_steps (depth n : Nat) {d : Decoding} (hs : program.Sound d.store) :
    ∃ result d', elements (program.make "Record") (program.decodeInto (depth + 1) · "Record") n d =
      .ok result d' ∧ program.Steps (fun z _ => d.store.size ≤ z) d.store d'.store := by
  obtain ⟨refs, error, d', hel, hsteps, -⟩ := Program.elements_walks program_planned
    (fun y name d hs => Program.decodeInto_walks program_planned (depth + 1) y name d hs) "Record" n
    d hs fun z _ (hz : d.store.size ≤ z) => hz
  exact ⟨_, d', hel, hsteps⟩

theorem records_track (depth n : Nat) {d : Decoding} (hs : program.Sound d.store) (m : Message) :
    match (m.readRecords n d.rest).rest with
    | .ok rest => ∃ refs rs d', elements (program.make "Record")
        (program.decodeInto (depth + 1) · "Record") n d = .ok (refs, none) d' ∧ d'.rest = rest ∧
        (m.readRecords n d.rest).object = { m with records := m.records ++ rs } ∧
        List.Forall₂ (Record.Shown d'.store) refs rs ∧ ∀ y ∈ refs, d.store.size ≤ y
    | .error _ => ∃ refs e d', elements (program.make "Record")
        (program.decodeInto (depth + 1) · "Record") n d = .ok (refs, some e) d' := by
  induction n generalizing d m with
  | zero => exact ⟨[], [], d, rfl, rfl, by simp [Message.readRecords], .nil, by simp⟩
  | succ n ih =>
    obtain ⟨objects, ref, hb⟩ := record_ready.build d.store.size
    obtain ⟨hg, hge, hcls, -⟩ := Program.build_grown program_planned hs hb
    have hmake : program.make "Record" d =
        .ok ref { d with store := d.store.append objects } := by simp only [Program.make, hb]
    have htrack := record_tracks depth (d := { d with store := d.store.append objects }) hcls {}
    have hscope : program.Scope (fun z _ => d.store.size ≤ z) (d.store.append objects) ref
        (program.registry.serialised "Record") :=
      .element program_planned hs (fun z _ hz => hz) hb
    have hwalk := Program.decodeInto_walks program_planned (depth + 1) ref "Record"
      { d with store := d.store.append objects } hscope
    unfold Tracks at htrack
    simp only [Message.readRecords]
    rcases hread : Record.read {} d.rest with ⟨r, _ | rest⟩
    · simp only [hread] at htrack ⊢
      obtain ⟨e, d', hd'⟩ := htrack
      refine ⟨[ref], e, d', ?_⟩
      simp only [elements, bind_apply, outcome_apply, hmake, hd', pure_apply]
    · simp only [hread] at htrack ⊢
      obtain ⟨d₁, hd₁, rfl, hshown⟩ := htrack
      simp only [Program.Walks, after, hd₁] at hwalk
      have hsize := Nat.le_trans hg.size_le hwalk.frame.size_le
      have hnext := ih (hwalk.sound program_planned hg.sound) { m with records := m.records ++ [r] }
      rcases hrest : Message.readRecords { m with records := m.records ++ [r] } n d₁.rest with
        ⟨m', _ | rest⟩
      · simp only [hrest] at hnext ⊢
        obtain ⟨refs, e, d₂, hd₂⟩ := hnext
        refine ⟨ref :: refs, e, d₂, ?_⟩
        simp only [elements, bind_apply, outcome_apply, hmake, hd₁, hd₂, pure_apply]
      · simp only [hrest] at hnext ⊢
        obtain ⟨refs, rs, d₂, hd₂, hrest₂, hobj, hall, hrefs⟩ := hnext
        obtain ⟨_, _, hel, hlater⟩ :=
          records_steps depth n (hwalk.sound program_planned hg.sound)
        cases hd₂.symm.trans hel
        refine ⟨ref :: refs, r :: rs, d₂, ?_, hrest₂, by simp [hobj], .cons ?_ hall, ?_⟩
        · simp only [elements, bind_apply, outcome_apply, hmake, hd₁, hd₂, pure_apply]
        · refine hshown.frame hlater.frame fun f => ?_
          have hlt := Store.class?_lt hcls
          have hle := hwalk.frame.size_le
          omega
        · intro y hy
          rcases List.mem_cons.mp hy with rfl | hy
          · exact hge
          · exact Nat.le_trans hsize (hrefs y hy)

theorem recordsField_tracks (depth : Nat) {x : Nat} {d : Decoding} {i : Instance}
    (hs : program.Sound d.store) (hi : d.store.get? x = some i) {n : Nat} (hlt : n < 2 ^ 16)
    (hn : i.uint "numRecords" = BitVec.ofNat 64 n) {m : Message}
    (hversion : i.uint "version" = BitVec.ofNat 64 m.version.toNat)
    (hnum : m.numRecords = UInt16.ofNat n) (hempty : m.records = []) :
    Tracks (program.decodeStep (program.decodeInto (depth + 1)) x "Message"
        (Plan.wire recordsField).unmarshal >>= fun _ => pure ()) d (m.readRecords n d.rest)
      fun t m => ∃ j, t.get? x = some j ∧ m.Fields t j := by
  have hcount : (i.uint "numRecords").toNat = n := by
    rw [hn, BitVec.toNat_ofNat]
    exact Nat.mod_eq_of_lt (by omega)
  have hmax : 2 ^ 16 ≤ maxListCount := by decide
  have htrack := records_track depth n hs m
  obtain ⟨⟨refs, error⟩, d₁, hel, hsteps⟩ := records_steps depth n hs
  have hact := Program.decodeAction_list program (program.decodeInto (depth + 1)) x i d
    (a := recordsField) rfl rfl (Nat.le_of_lt (Nat.lt_of_lt_of_le (hcount.symm ▸ hlt) hmax))
    (hcount.symm ▸ hel)
  rw [failWith_apply] at hact
  rcases hread : m.readRecords n d.rest with ⟨m', _ | rest⟩
  · simp only [hread] at htrack
    obtain ⟨refs', e, d', hel'⟩ := htrack
    cases hel.symm.trans hel'
    exact .of_error (decodeStep_of_error hi hact) rfl
  · simp only [hread] at htrack
    obtain ⟨refs', rs, d', hel', hrest, hobj, hall, hnew⟩ := htrack
    cases hel.symm.trans hel'
    obtain ⟨j, hj, hk⟩ := hsteps.frame.object x i hi
    have hold : ¬ d.store.size ≤ x := Nat.not_le.mpr (Store.get?_lt hi)
    refine .of_ok (decodeStep_of_ok hi hact) (.done (by rw [← hrest]) ?_)
    refine ⟨{ j with lists := j.lists.set "records" refs }, ?_, ?_, ?_, ?_⟩
    · simp [Store.modify, hj, Store.get?_set, recordsField]
    · rw [hobj]
      exact (hk.uint hold).trans hversion
    · rw [hobj]
      refine (hk.uint hold).trans (hn.trans ?_)
      rw [hnum, UInt16.toNat_ofNat_of_lt' hlt]
    · have hlist : Instance.list { j with lists := j.lists.set "records" refs } "records" =
          refs := by simp [Instance.list, Table.get?_set]
      rw [hlist, hobj, hempty, List.nil_append]
      exact Record.Shown.modify hall fun y hy => by have := hnew y hy; omega

theorem message_tracks (depth : Nat) {x : Nat} {d : Decoding} {i : Instance}
    (hs : program.Sound d.store) (hi : d.store.get? x = some i) (m : Message) :
    Tracks (program.decodeInto (depth + 2) x "Message") d (m.read d.rest)
      fun t m => ∃ j, t.get? x = some j ∧ m.Fields t j := by
  have heq := decodeInto_rootless program_planned message_mem (message_rootless _) (depth + 1) x
  rw [show program.decodeInto (depth + 2) x "Message" = _ from heq]
  refine Tracks.word (a := versionField) hi rfl rfl (fun hn => ?_) fun v rest hv => ?_
  · change number? 1 d.rest = none at hn
    rw [number?_one] at hn
    cases hd : d.rest with
    | nil => simp [Message.read]
    | cons b rest => simp [hd] at hn
  change number? 1 d.rest = some (v, rest) at hv
  rw [number?_one] at hv
  cases hd : d.rest with
  | nil => simp [hd] at hv
  | cons version rest' =>
    simp only [hd, Option.some.injEq, Prod.mk.injEq] at hv
    obtain ⟨rfl, rfl⟩ := hv
    have hi₁ := get?_setPrim hi versionField.name (BitVec.ofNat 64 version.toNat)
    refine Tracks.word (a := numRecordsField "records") hi₁ rfl rfl (fun hn => ?_)
      fun n rest hn => ?_
    · change number? 2 rest' = none at hn
      simp [Message.read, hn]
    change number? 2 rest' = some (n, rest) at hn
    have hlt : n < 2 ^ 16 := number?_lt hn
    have hi₂ := get?_setPrim hi₁ (numRecordsField "records").name (BitVec.ofNat 64 n)
    have hs₂ := sound_setPrim (sound_setPrim hs hi versionField.name _) hi₁
      (numRecordsField "records").name (BitVec.ofNat 64 n)
    have hread : m.read (version :: rest') =
        Message.readRecords { version, numRecords := UInt16.ofNat n } n rest := by
      simp [Message.read, hn]
    rw [hread]
    refine recordsField_tracks depth hs₂ hi₂ hlt ?_ ?_ rfl rfl
    · simp [Instance.uint_setPrim, numRecordsField]
    · simp [Instance.uint_setPrim, numRecordsField, versionField]

theorem own_steps {name : String}
    (hplain : ∀ a ∈ program.registry.serialised name, Registry.embedded? a = none) (depth : Nat)
    {x : Nat} {d d' : Decoding} {i : Instance} (hs : program.Sound d.store)
    (hi : d.store.get? x = some i)
    (hdecl : ∀ a ∈ program.registry.serialised name, a ∈ program.registry.allAttributes i.className)
    (h : program.decodeInto depth x name d = .ok () d') :
    program.Steps (fun z _ => z = x ∨ d.store.size ≤ z) d.store d'.store := by
  have hscope : program.Scope (fun z _ => z = x ∨ d.store.size ≤ z) d.store x
      (program.registry.serialised name) := by
    refine ⟨hs, ⟨i, hi, hdecl⟩, fun z f ht => ?_, fun z f hz => .inr hz⟩
    cases ht with
    | field _ => exact .inl rfl
    | @inside _ y _ _ a j _ _ hj ha hy _ _ =>
      have hnone := hplain a ha
      unfold Registry.embedded? at hnone
      unfold Instance.inside at hy
      split at hy
      · next hk => simp [hk] at hnone
      · next hk =>
        split at hy
        · next he => simp [hk, he] at hnone
        · simp at hy
      · simp at hy
  have hwalk := Program.decodeInto_walks program_planned depth x name d hscope
  simpa only [Program.Walks, after, h] using hwalk

theorem corner_tracks (depth : Nat) {y : Nat} {d : Decoding} (hs : program.Sound d.store)
    (hy : d.store.class? y = some "Point") (p : Point) :
    Tracks (Program.visit (program.decodeInto (depth + 1)) (some y)) d (p.read d.rest)
      fun t p => p.Shown t y ∧ program.Sound t ∧
        Store.Frame (fun z _ => z = y ∨ d.store.size ≤ z) d.store t := by
  obtain ⟨i, hi, hcls⟩ := Option.map_eq_some_iff.mp hy
  have htrack := point_tracks depth hy p
  unfold Tracks at *
  have hvisit : Program.visit (program.decodeInto (depth + 1)) (some y) d =
      program.decodeInto (depth + 1) y "Point" d := by simp only [Program.visit, hi, hcls]
  rw [hvisit]
  split at htrack
  · obtain ⟨d', hd', hrest, hshown⟩ := htrack
    have hsteps := own_steps (by rw [serialised_point]; decide) (depth + 1) hs hi
      (fun a ha => hcls ▸ Program.serialised_sub _ _ a ha) hd'
    exact ⟨d', hd', hrest, hshown, hsteps.sound program_planned hs, hsteps.frame⟩
  · exact htrack

theorem corners_track (depth : Nat) {x first second : Nat} {d : Decoding} {i : Instance}
    (hs : program.Sound d.store) (hi : d.store.get? x = some i) (hcls : i.className = "Route")
    (hcorners : i.objectArray "corners" = [first, second])
    (hfirst : d.store.class? first = some "Point") (hsecond : d.store.class? second = some "Point")
    {m : Message} (hm : m.Fields d.store i) {r : Route} {bytes : List UInt8}
    (hread : r.message.read bytes = ⟨m, .ok d.rest⟩) :
    Tracks ([first, second].forM fun y => Program.visit (program.decodeInto (depth + 1)) (some y)) d
      (r.read bytes) fun t r => r.Shown t x := by
  have hbelow : ∀ y ∈ i.objectArray "corners", y < x := fun y hy =>
    (hs.object x i hi).below y (Instance.objectArray_mem_embedded hy)
  have hx := Store.get?_lt hi
  have hltf : first < x := hbelow first (by simp [hcorners])
  have hlts : second < x := hbelow second (by simp [hcorners])
  have hne : first ≠ second := by
    simpa [hcorners] using hs.objectArray_nodup hi "corners"
  refine Tracks.bind (corner_tracks depth hs hfirst r.corners.1) (fun e he => ?_)
    fun d₁ _ hr₁ hshown => ?_
  · rcases hc : r.corners.1.read d.rest with ⟨p, _ | rest⟩
    · simpa [Route.read, hread, hc] using he
    · simp [hc] at he
  obtain ⟨h₁, hs₁, hf₁⟩ := hshown
  refine Tracks.bind (corner_tracks depth hs₁ (hf₁.class? hsecond) r.corners.2) (fun e he => ?_)
    fun d₂ _ hr₂ hshown => ?_
  · rcases hc : r.corners.1.read d.rest with ⟨p, _ | rest⟩
    · simp [hc] at hr₁
    · obtain rfl : rest = d₁.rest := by simpa [hc] using hr₁
      simpa [Route.read, hread, hc] using he
  obtain ⟨h₂, -, hf₂⟩ := hshown
  rcases hc₁ : r.corners.1.read d.rest with ⟨p, _ | rest⟩
  · simp [hc₁] at hr₁
  obtain rfl : rest = d₁.rest := by simpa [hc₁] using hr₁
  have hobject : r.read bytes = ⟨⟨m, p, (r.corners.2.read d₁.rest).object⟩, .ok d₂.rest⟩ := by
    rw [← hr₂]
    simp [Route.read, hread, hc₁]
  rw [hobject]
  refine .done rfl ?_
  -- in between only the corners and new objects are written
  have hf : Store.Frame (fun z _ => z = first ∨ z = second ∨ d.store.size ≤ z) d.store d₂.store := by
    have hsize := hf₁.size_le
    exact (hf₁.mono fun z _ hz => by omega).trans (hf₂.mono fun z _ hz => by omega)
  obtain ⟨j, hj, hk⟩ := hf.object x i hi
  refine ⟨j, hj, hk.className.trans hcls, hm.frame hf hk (fun f => by omega) fun y hy f => ?_,
    first, second, ?_, ?_, h₂⟩
  · have hrecord := hm.record_class y hy
    have hlt := Store.class?_lt hrecord
    rintro (rfl | rfl | hnew)
    · simp [hrecord] at hfirst
    · simp [hrecord] at hsecond
    · omega
  · rw [Instance.objectArray, hk.objectArrays]
    exact hcorners
  · rw [hc₁] at h₁
    have hsize := hf₁.size_le
    exact h₁.frame hf₂ fun f => by omega

theorem route_tracks (depth : Nat) {x : Nat} {d : Decoding} (hs : program.Sound d.store)
    {r : Route} (h : r.Shown d.store x) :
    Tracks (program.decodeInto (depth + 3) x "Route") d (r.read d.rest)
      fun t r => r.Shown t x := by
  obtain ⟨i, hi, hcls, -, first, second, hcorners, ⟨u, hu, huc, -⟩, ⟨v, hv, hvc, -⟩⟩ := h
  have heq := Program.decodeInto_class program_planned route_mem (depth + 2) x
  rw [if_pos route_hasParent] at heq
  rw [show program.decodeInto (depth + 3) x "Route" = _ from heq]
  have hmessage := message_tracks depth hs hi r.message
  refine Tracks.bind (.step hi hmessage) (fun e he => ?_) fun d₁ hd₁ hrest hm => ?_
  · rcases hc : r.message.read d.rest with ⟨m, _ | rest⟩
    · simpa [Route.read, hc] using he
    · simp [hc] at he
  obtain ⟨j, hj, hm⟩ := hm
  have hinto : program.decodeInto (depth + 2) x "Message" d = .ok () d₁ := decodeStep_ok hi hd₁
  have hdecl : ∀ a ∈ program.registry.serialised "Message",
      a ∈ program.registry.allAttributes "Route" := fun a ha =>
    Program.serialised_sub _ _ a (program_planned.serialised_parent route_mem route_hasParent ha)
  have hsteps := own_steps (by rw [serialised_message]; decide) (depth + 2) hs hi (hcls ▸ hdecl)
    hinto
  obtain ⟨j', hj', hk⟩ := hsteps.frame.object x i hi
  cases Option.some.inj (hj.symm.trans hj')
  have harray : j.objectArray "corners" = [first, second] := by
    rw [Instance.objectArray, hk.objectArrays]
    exact hcorners
  have hpoint : ∀ {y o}, d.store.get? y = some o → o.className = "Point" →
      d₁.store.class? y = some "Point" := fun ho hc =>
    hsteps.frame.class? (by simp [Store.class?, ho, hc])
  have hmread : r.message.read d.rest = ⟨(r.message.read d.rest).object, .ok d₁.rest⟩ := by
    rw [← hrest]
  have htrack := corners_track (depth + 1) (hsteps.sound program_planned hs) hj
    (hk.className.trans hcls) harray (hpoint hu huc) (hpoint hv hvc) hm hmread
  have hact := Program.decodeAction_objects program (program.decodeInto (depth + 2)) x j d₁
    (a := cornersField) rfl rfl
  rw [show j.objectArray cornersField.name = _ from harray] at hact
  exact .bind (.step hj (htrack.congr hact)) (fun _ he => he) fun d₂ _ hr hshown => .done hr hshown

end Sample

end PduCompiler
