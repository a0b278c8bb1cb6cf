import PduCompiler.Proofs.Acceptance
import PduCompiler.Proofs.DecodedCounts
import PduCompiler.Proofs.Defaults
import PduCompiler.Proofs.SampleDecoding

/-! Every value of a sample class is shown by some object. The object is made, the numbers are
stored in it and records are added one by one, so a list may have any length and the number of
records that was read last any value. -/

namespace PduCompiler

theorem Store.Frame.set {s : Store} {x : Nat} {i j : Instance} (hi : s.get? x = some i)
    (hk : i.Kept (fun _ => True) j) : Frame (fun z _ => z = x) s (s.set x j) := by
  refine ⟨Nat.le_of_eq (Store.size_set s x j).symm, fun y o ho => ?_⟩
  rw [Store.get?_set]
  by_cases hy : y = x
  · subst hy
    cases Option.some.inj (hi.symm.trans ho)
    refine ⟨j, by simp [hi], hk.mono fun _ _ => rfl⟩
  · exact ⟨o, by simp [hy, ho], .refl o _⟩

namespace Sample

open Program

theorem run_new (ops : List Operation) {name : String} {objects : Array Instance} {ref : Nat}
    (h : (program.build 0 name).toOption = some (objects, ref)) :
    ∃ d : Nat, program.new (program.run ops) name =
        .ok (program.run (ops ++ [.new name]), ref + d) ∧
      (program.run ops).size ≤ ref + d ∧
      ∀ (y : Nat) (o : Instance), objects[y]? = some o →
        (program.run (ops ++ [.new name])).get? (y + d) = some (o.shift d) := by
  obtain ⟨made, hbuild⟩ : ∃ made, program.build 0 name = .ok made := by
    cases hb : program.build 0 name with
    | error e => simp [hb, Except.toOption] at h
    | ok made => exact ⟨made, rfl⟩
  have hs := run_sound program_planned ops
  obtain ⟨x, -, hnew, -, -⟩ := (Ready.of_build hbuild).run_new program_planned ops
  obtain ⟨own, hb, hrun⟩ := new_eq_ok hnew
  obtain ⟨-, hge, -, -⟩ := build_grown program_planned hs hb
  have hborn := Born.of_build program_planned hs hb
  rw [← hrun] at hborn
  obtain ⟨objects', ref', d, hb', rfl, hget⟩ := hborn
  rw [hb'] at h
  cases Option.some.inj h
  exact ⟨d, hnew, hge, hget⟩

theorem new_frame {ops : List Operation} {name : String} {x : Nat}
    (h : program.new (program.run ops) name = .ok (program.run (ops ++ [.new name]), x))
    (writes : Nat → String → Prop) :
    Store.Frame writes (program.run ops) (program.run (ops ++ [.new name])) := by
  obtain ⟨objects, hb, hrun⟩ := new_eq_ok h
  rw [hrun]
  exact (Step.grow hb).frame

theorem run_types {ops : List Operation} {x : Nat} {i o : Instance}
    (hi : (program.run ops).get? x = some i) {objects : Array Instance} {ref : Nat}
    (h : (program.build 0 i.className).toOption = some (objects, ref))
    (ho : objects[ref]? = some o) : i.types = o.types := by
  obtain ⟨objects', ref', o', hb, ho', htypes⟩ := run_typed program_planned ops x i hi
  rw [hb] at h
  cases Option.some.inj h
  cases Option.some.inj (ho.symm.trans ho')
  exact htypes

section

variable {ops : List Operation} {x : Nat} {i : Instance}

theorem run_setUint (hi : (program.run ops).get? x = some i) {f : String} {t : TypeName}
    (ht : i.types.get? f = some t) (w : Word) :
    program.run (ops ++ [.setUint x f w]) =
      (program.run ops).set x (i.setPrim f (t.truncate w)) := by
  rw [run_concat]
  simp [perform, Store.update, hi, Instance.setUint, ht, Except.toOption]

theorem words_written (hi : (program.run ops).get? x = some i) {f g : String} {t u : TypeName}
    (hf : i.types.get? f = some t) (hg : i.types.get? g = some u) {v w : Word}
    (hv : t.truncate v = v) (hw : u.truncate w = w) : ∃ more,
      Store.Frame (fun z _ => z = x) (program.run ops) (program.run more) ∧
      (program.run more).get? x = some ((i.setPrim f v).setPrim g w) := by
  have hset : ∀ {ops' : List Operation} {j : Instance} {h : String} {t' : TypeName} {w' : Word},
      (program.run ops').get? x = some j → j.types.get? h = some t' → t'.truncate w' = w' →
      Store.Frame (fun z _ => z = x) (program.run ops') (program.run (ops' ++ [.setUint x h w'])) ∧
        (program.run (ops' ++ [.setUint x h w'])).get? x = some (j.setPrim h w') := by
    intro ops' j h t' w' hj ht' hw'
    rw [run_setUint hj ht', hw']
    exact ⟨.set hj ⟨rfl, rfl, rfl, fun _ hn => absurd trivial hn⟩, by simp [Store.get?_set, hj]⟩
  obtain ⟨hframe, hget⟩ := hset hi hf hv
  obtain ⟨hframe', hget'⟩ := hset hget hg hw
  exact ⟨_, hframe.trans hframe', hget'⟩

theorem record_written (hi : (program.run ops).get? x = some i) (hcls : i.className = "Record")
    (r : Record) : ∃ more, Store.Frame (fun z _ => z = x) (program.run ops) (program.run more) ∧
      r.Shown (program.run more) x := by
  have htypes : i.types = newRecord.types := run_types hi (hcls ▸ build_record) rfl
  have hkey : i.types.get? "key" = some "uint32" := by rw [htypes]; rfl
  have hflags : i.types.get? "flags" = some "uint8" := by rw [htypes]; rfl
  obtain ⟨more, hframe, hget⟩ := words_written hi hkey hflags
    (TypeName.truncate_ofNat (by decide) r.key.toNat_lt)
    (TypeName.truncate_ofNat (by decide) r.flags.toNat_lt)
  refine ⟨more, hframe, _, hget, hcls, ?_, ?_⟩ <;> simp [Instance.uint_setPrim]

theorem point_written (hi : (program.run ops).get? x = some i) (hcls : i.className = "Point")
    (p : Point) : ∃ more, Store.Frame (fun z _ => z = x) (program.run ops) (program.run more) ∧
      p.Shown (program.run more) x := by
  have htypes : i.types = newPoint.types := run_types hi (hcls ▸ build_point) rfl
  have hx : i.types.get? "x" = some "int16" := by rw [htypes]; rfl
  have hy : i.types.get? "y" = some "int16" := by rw [htypes]; rfl
  obtain ⟨more, hframe, hget⟩ := words_written hi hx hy
    (TypeName.truncate_ofNat (by decide) p.x.toUInt16.toNat_lt)
    (TypeName.truncate_ofNat (by decide) p.y.toUInt16.toNat_lt)
  refine ⟨more, hframe, _, hget, hcls, ?_, ?_⟩ <;> simp [Instance.uint_setPrim]

end

theorem record_made (ops : List Operation) (r : Record) : ∃ more y,
    Store.Frame (fun z _ => (program.run ops).size ≤ z) (program.run ops) (program.run more) ∧
      r.Shown (program.run more) y := by
  obtain ⟨d, hnew, hge, hget⟩ := run_new ops build_record
  obtain ⟨more, hframe, hshown⟩ := record_written (hget 0 newRecord rfl) rfl r
  refine ⟨more, 0 + d, (new_frame hnew _).trans (hframe.mono ?_), hshown⟩
  rintro z _ rfl
  exact hge

section

variable {ops : List Operation} {x : Nat} {i : Instance} {m : Message}

theorem record_appended (hi : (program.run ops).get? x = some i) (hcls : i.className ≠ "Record")
    (hlist : (i.lists.get? "records").isSome = true) (hm : m.Fields (program.run ops) i) {y : Nat}
    {r : Record} (hr : r.Shown (program.run ops) y) : ∃ j,
      Store.Frame (fun z _ => z = x) (program.run ops)
        (program.run (ops ++ [.append x "records" y])) ∧
      (program.run (ops ++ [.append x "records" y])).get? x = some j ∧
      (j.lists.get? "records").isSome = true ∧
      Message.Fields (program.run (ops ++ [.append x "records" y])) j
        { m with records := m.records ++ [r] } := by
  obtain ⟨refs, hrefs⟩ := Option.isSome_iff_exists.mp hlist
  obtain ⟨o, ho⟩ : ∃ o, (program.run ops).get? y = some o := hr.imp fun _ h => h.1
  let j := { i with lists := i.lists.set "records" (refs ++ [y]) }
  have hrun : program.run (ops ++ [.append x "records" y]) = (program.run ops).set x j := by
    rw [run_concat]
    simp [perform, Store.get?_lt ho, Store.update, hi, Instance.append, hrefs, Except.toOption, j]
  have hframe : Store.Frame (fun z _ => z = x) (program.run ops) ((program.run ops).set x j) :=
    .set hi ⟨rfl, rfl, rfl, fun _ h => absurd trivial h⟩
  have hall : List.Forall₂ (Record.Shown (program.run ops)) (i.list "records" ++ [y])
      (m.records ++ [r]) := List.rel_append hm.records (.cons hr .nil)
  -- an object of another class is none of the records
  have hne : ∀ z ∈ i.list "records" ++ [y], z ≠ x := by
    rintro z hz rfl
    obtain ⟨r', -, o', ho', hc', -⟩ := forall₂_of_mem hall hz
    exact hcls (Option.some.inj (hi.symm.trans ho') ▸ hc')
  have hjlist : j.list "records" = i.list "records" ++ [y] := by
    simp [j, Instance.list, Table.get?_set, hrefs]
  rw [hrun]
  refine ⟨j, hframe, by simp [Store.get?_set, hi], by simp [j, Table.get?_set], ?_⟩
  refine ⟨hm.version, hm.numRecords, ?_⟩
  rw [hjlist]
  exact Record.Shown.frames hall hframe fun z hz _ => hne z hz

theorem records_added (rs : List Record) (hi : (program.run ops).get? x = some i)
    (hcls : i.className ≠ "Record") (hlist : (i.lists.get? "records").isSome = true)
    (hm : m.Fields (program.run ops) i) : ∃ more j,
      Store.Frame (fun z _ => z = x ∨ (program.run ops).size ≤ z) (program.run ops)
        (program.run more) ∧
      (program.run more).get? x = some j ∧
      Message.Fields (program.run more) j { m with records := m.records ++ rs } := by
  induction rs generalizing ops i m with
  | nil => exact ⟨ops, i, .refl _ _, hi, by simpa using hm⟩
  | cons r rs ih =>
    obtain ⟨mid, y, hframe, hr⟩ := record_made ops r
    have hold : ∀ {z o}, (program.run ops).get? z = some o → ¬ (program.run ops).size ≤ z :=
      fun ho => Nat.not_le.mpr (Store.get?_lt ho)
    obtain ⟨j, hj, hk⟩ := hframe.object x i hi
    have hmid : m.Fields (program.run mid) j := by
      refine hm.frame hframe hk (fun _ => hold hi) fun z hz _ => ?_
      obtain ⟨r', -, o, ho, -⟩ := forall₂_of_mem hm.records hz
      exact hold ho
    have hjlist : (j.lists.get? "records").isSome = true := by
      have hsame : j.lists.get? "records" = i.lists.get? "records" :=
        hk.agree "records" (hold hi) .list
      rw [hsame]
      exact hlist
    obtain ⟨k, hframe', hk', hklist, hmore⟩ :=
      record_appended hj (hk.className.symm ▸ hcls) hjlist hmid hr
    have hkc : k.className ≠ "Record" := by
      obtain ⟨k', hk'', hkept⟩ := hframe'.object x j hj
      cases Option.some.inj (hk'.symm.trans hk'')
      rw [hkept.className, hk.className]
      exact hcls
    obtain ⟨more, l, hframe'', hl, hfields⟩ := ih hk' hkc hklist hmore
    have hsize := Nat.le_trans hframe.size_le hframe'.size_le
    refine ⟨more, l, ?_, hl, by simpa using hfields⟩
    refine (hframe.mono fun z _ hz => .inr hz).trans
      ((hframe'.mono fun z _ hz => .inl hz).trans (hframe''.mono fun z _ hz => ?_))
    exact hz.imp id (Nat.le_trans hsize)

theorem message_written (hi : (program.run ops).get? x = some i)
    (htypes : i.types = newMessage.types) (hcls : i.className ≠ "Record")
    (hlist : i.lists.get? "records" = some []) (m : Message) : ∃ more j,
      Store.Frame (fun z _ => z = x ∨ (program.run ops).size ≤ z) (program.run ops)
        (program.run more) ∧
      (program.run more).get? x = some j ∧ m.Fields (program.run more) j := by
  have hversion : i.types.get? "version" = some "uint8" := by rw [htypes]; rfl
  have hnum : i.types.get? "numRecords" = some "uint16" := by rw [htypes]; rfl
  obtain ⟨mid, hframe, hget⟩ := words_written hi hversion hnum
    (TypeName.truncate_ofNat (by decide) m.version.toNat_lt)
    (TypeName.truncate_ofNat (by decide) m.numRecords.toNat_lt)
  generalize hj : (i.setPrim "version" _).setPrim "numRecords" _ = j at hget
  have hjlist : j.lists.get? "records" = some [] := by
    rw [← hj]
    exact hlist
  have hfields : Message.Fields (program.run mid) j { m with records := [] } := by
    refine ⟨?_, ?_, ?_⟩
    · simp [← hj, Instance.uint_setPrim]
    · simp [← hj, Instance.uint_setPrim]
    · simp [Instance.list, hjlist]
  have hjcls : j.className ≠ "Record" := by
    rw [← hj]
    exact hcls
  obtain ⟨more, k, hframe', hk, hm⟩ :=
    records_added m.records hget hjcls (by rw [hjlist]; rfl) hfields
  refine ⟨more, k, ?_, hk, hm⟩
  refine (hframe.mono fun z _ hz => .inl hz).trans (hframe'.mono fun z _ hz => ?_)
  exact hz.imp id (Nat.le_trans hframe.size_le)

end

theorem exists_record (r : Record) : ∃ ops x, r.Shown (program.run ops) x := by
  obtain ⟨ops, x, -, h⟩ := record_made [] r
  exact ⟨ops, x, h⟩

theorem exists_point (p : Point) : ∃ ops x, p.Shown (program.run ops) x := by
  obtain ⟨d, -, -, hget⟩ := run_new [] build_point
  obtain ⟨ops, -, h⟩ := point_written (hget 0 newPoint rfl) rfl p
  exact ⟨ops, _, h⟩

theorem exists_message (m : Message) : ∃ ops x, m.Shown (program.run ops) x := by
  obtain ⟨d, -, -, hget⟩ := run_new [] build_message
  have hi := hget 0 newMessage rfl
  have hcls : newMessage.className ≠ "Record" := by decide
  obtain ⟨ops, j, hframe, hj, hm⟩ := message_written hi rfl hcls rfl m
  obtain ⟨j', hj', hk⟩ := hframe.object _ _ hi
  cases Option.some.inj (hj.symm.trans hj')
  exact ⟨ops, _, j, hj, hk.className, hm⟩

theorem exists_route (r : Route) : ∃ ops x, r.Shown (program.run ops) x := by
  obtain ⟨d, -, -, hget⟩ := run_new [] build_route
  generalize [] ++ [Operation.new "Route"] = ops at hget
  obtain ⟨ops₁, hframe₁, hfirst⟩ := point_written (hget 0 newPoint rfl) rfl r.corners.1
  obtain ⟨u, hu, hku⟩ := hframe₁.object _ _ (hget 1 newPoint rfl)
  obtain ⟨ops₂, hframe₂, hsecond⟩ := point_written hu hku.className r.corners.2
  have hframe : Store.Frame (fun z _ => z = 0 + d ∨ z = 1 + d) (program.run ops)
      (program.run ops₂) :=
    (hframe₁.mono fun z _ hz => .inl hz).trans (hframe₂.mono fun z _ hz => .inr hz)
  obtain ⟨i, hi, hk⟩ := hframe.object _ _ (hget 2 newRoute rfl)
  have hapart : ¬ (2 + d = 0 + d ∨ 2 + d = 1 + d) := by omega
  have hlist : i.lists.get? "records" = some [] := hk.agree "records" hapart .list
  have hcls : i.className = "Route" := hk.className
  have htypes : i.types = newRoute.types := run_types hi (hcls ▸ build_route) rfl
  obtain ⟨more, j, hframe₃, hj, hm⟩ :=
    message_written hi htypes (by rw [hcls]; decide) hlist r.message
  obtain ⟨j', hj', hk'⟩ := hframe₃.object _ _ hi
  cases Option.some.inj (hj.symm.trans hj')
  have hcorners : j.objectArray "corners" = [0 + d, 1 + d] := by
    rw [Instance.objectArray, hk'.objectArrays, hk.objectArrays]
    rfl
  have hpoint : ∀ {y : Nat} {p : Point}, p.Shown (program.run ops₂) y → y ≠ 2 + d →
      p.Shown (program.run more) y := by
    intro y p hp hne
    refine hp.frame hframe₃ fun _ hw => hw.elim hne ?_
    obtain ⟨o, ho, -⟩ := hp
    exact Nat.not_le.mpr (Store.get?_lt ho)
  have hfirst' := hfirst.frame hframe₂ fun _ (hw : 0 + d = 1 + d) => by omega
  exact ⟨more, 2 + d, j, hj, hk'.className.trans hcls, hm, 0 + d, 1 + d, hcorners,
    hpoint hfirst' (by omega), hpoint hsecond (by omega)⟩

end Sample

end PduCompiler
