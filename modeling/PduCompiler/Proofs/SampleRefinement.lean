import PduCompiler.Proofs.Framing
import PduCompiler.Proofs.SampleEncoding
import PduCompiler.Proofs.SampleReach

/-! The sample classes do what the machine does with the objects of the sample program that show
their values. -/

namespace PduCompiler.Sample

open Program

structure Codec (α : Type) where
  className : String
  new : α
  appendTo : List UInt8 → α → List UInt8
  size : α → Nat
  read : α → List UInt8 → Reading α
  shown : Store → Nat → α → Prop

def recordCodec : Codec Record :=
  ⟨"Record", {}, Record.appendTo, Record.size, Record.read, Record.Shown⟩

def messageCodec : Codec Message :=
  ⟨"Message", {}, Message.appendTo, Message.size, Message.read, Message.Shown⟩

def pointCodec : Codec Point := ⟨"Point", {}, Point.appendTo, Point.size, Point.read, Point.Shown⟩

def routeCodec : Codec Route := ⟨"Route", {}, Route.appendTo, Route.size, Route.read, Route.Shown⟩

/-- A class and the machine agree on every object that any operations lead to. The machine's sizes
wrap around at 64 bits. -/
structure Codec.Refines {α : Type} (c : Codec α) (p : Program) : Prop where
  /-- Every value is shown by some object, also one with more records than their number tells. -/
  total (a : α) : ∃ ops x, c.shown (p.run ops) x a
  new (ops : List Operation) :
    ∃ t x, p.new (p.run ops) c.className = .ok (t, x) ∧ c.shown t x c.new
  marshal {ops : List Operation} {x : Nat} {a : α} (h : c.shown (p.run ops) x a) :
    ∃ i bytes, (p.run ops).get? x = some i ∧ i.className = c.className ∧
      p.marshal (p.run ops) i = .ok bytes ∧ p.size (p.run ops) i = .ok (wrap (c.size a)) ∧
      ∀ buf, c.appendTo buf a = buf ++ bytes
  unmarshal {ops : List Operation} {x : Nat} {a : α} (h : c.shown (p.run ops) x a)
    (data : List UInt8) :
    match (c.read a data).rest with
    | .ok rest => ∃ t n, p.unmarshal (p.run ops) x data = (t, n, none) ∧ rest = data.drop n ∧
        c.shown t x (c.read a data).object
    | .error _ => ∃ t n e, p.unmarshal (p.run ops) x data = (t, n, some e)

/-- A bit field is got from a record and set in it as in the object, for every value of a byte. -/
def BitsRefine (p : Program) (name : String) (get : Record → UInt8)
    (set : Record → UInt8 → Record) : Prop :=
  ∀ (ops : List Operation) (x : Nat) (r : Record), r.Shown (p.run ops) x →
    ∃ i, (p.run ops).get? x = some i ∧
      p.getBits i name = .ok (BitVec.ofNat 64 (get r).toNat) ∧
      ∀ v : UInt8, ∃ j, p.setBits i name (BitVec.ofNat 64 v.toNat) = .ok j ∧
        (set r v).Shown ((p.run ops).set x j) x

theorem exists_depthOver (s : Store) : ∃ depth, program.depthOver s = depth + 3 := by
  refine ⟨program.depthOver s - 3, ?_⟩
  rw [depthOver, length_plans]
  omega

theorem exists_decodeDepth (s : Store) (bytes : List UInt8) :
    ∃ depth, program.decodeDepth s bytes = depth + 3 := by
  refine ⟨program.decodeDepth s bytes - 3, ?_⟩
  rw [decodeDepth, length_plans]
  omega

theorem Tracks.unmarshal {α : Type} {s : Store} {x : Nat} {i : Instance} {data : List UInt8}
    {r : Reading α} {shows : Store → α → Prop} (hi : s.get? x = some i)
    (h : ∀ depth, Tracks (program.decodeInto (depth + 3) x i.className)
      { store := s, rest := data } r shows) :
    match r.rest with
    | .ok rest => ∃ t n, program.unmarshal s x data = (t, n, none) ∧ rest = data.drop n ∧
        shows t r.object
    | .error _ => ∃ t n e, program.unmarshal s x data = (t, n, some e) := by
  obtain ⟨depth, hdepth⟩ := exists_decodeDepth s data
  have htrack := h depth
  rw [← hdepth] at htrack
  unfold Tracks at htrack
  unfold Program.unmarshal
  cases hr : r.rest with
  | error e =>
    simp only [hr] at htrack ⊢
    obtain ⟨e', d, hd⟩ := htrack
    exact ⟨d.store, d.offset, e', by simp only [hi, hd]⟩
  | ok rest =>
    simp only [hr] at htrack ⊢
    obtain ⟨d, hd, rfl, hshown⟩ := htrack
    have hreads := decodeInto_reads program_planned (program.decodeDepth s data) x i.className
      { store := s, rest := data }
    rw [hd] at hreads
    obtain ⟨bytes, htook, -⟩ := hreads
    have hrest : data = bytes ++ d.rest := htook.rest
    have hoffset : d.offset = bytes.length := htook.offset.trans (Nat.zero_add _)
    exact ⟨d.store, d.offset, by simp only [hi, hd], by rw [hrest, hoffset, List.drop_left], hshown⟩

theorem Codec.refines_of {α : Type} {c : Codec α} {encode : α → List UInt8}
    (hclass : ∀ {s x a}, c.shown s x a → ∃ i, s.get? x = some i ∧ i.className = c.className)
    (htotal : ∀ a, ∃ ops x, c.shown (program.run ops) x a)
    (hnew : ∀ ops, ∃ t x, program.new (program.run ops) c.className = .ok (t, x) ∧
      c.shown t x c.new)
    (hencode : ∀ {s x i a}, program.Sound s → c.shown s x a → s.get? x = some i → ∀ depth,
      program.encode s (depth + 3) i c.className = .ok (encode a))
    (happend : ∀ buf a, c.appendTo buf a = buf ++ encode a)
    (hsize : ∀ a, (encode a).length = c.size a)
    (htracks : ∀ {d x a}, program.Sound d.store → c.shown d.store x a → ∀ depth,
      Tracks (program.decodeInto (depth + 3) x c.className) d (c.read a d.rest)
        fun t a => c.shown t x a) : c.Refines program where
  total := htotal
  new := hnew
  marshal {ops x a} h := by
    have hs := run_sound program_planned ops
    obtain ⟨i, hi, hcls⟩ := hclass h
    obtain ⟨depth, hdepth⟩ := exists_depthOver (program.run ops)
    have hbytes : program.marshal (program.run ops) i = .ok (encode a) := by
      rw [Program.marshal, hdepth, hcls]
      exact hencode hs h hi depth
    have hlength := size_eq_wrap_length program_planned hs program_noRedeclaration hi hbytes
    rw [hsize a] at hlength
    exact ⟨i, encode a, hi, hcls, hbytes, hlength, fun buf => happend buf a⟩
  unmarshal {ops x a} h data := by
    obtain ⟨i, hi, hcls⟩ := hclass h
    refine Tracks.unmarshal hi fun depth => ?_
    rw [hcls]
    exact htracks (run_sound program_planned ops) h depth

theorem record_refines : recordCodec.Refines program := by
  refine Codec.refines_of Record.Shown.class_of exists_record (fun ops => ?_)
    (fun _ h hi depth => h.encode hi (depth + 2)) Record.appendTo_eq Record.length_encode
    fun _ h depth => record_tracks (depth + 2) ?_ _
  · obtain ⟨d, hnew, -, hget⟩ := run_new ops build_record
    exact ⟨_, _, hnew, _, hget 0 newRecord rfl, rfl, rfl, rfl⟩
  · obtain ⟨i, hi, hcls⟩ := h.class_of
    simp [Store.class?, hi, hcls]

theorem point_refines : pointCodec.Refines program := by
  refine Codec.refines_of Point.Shown.class_of exists_point (fun ops => ?_)
    (fun _ h hi depth => h.encode hi (depth + 2)) Point.appendTo_eq Point.length_encode
    fun _ h depth => point_tracks (depth + 2) ?_ _
  · obtain ⟨d, hnew, -, hget⟩ := run_new ops build_point
    exact ⟨_, _, hnew, _, hget 0 newPoint rfl, rfl, rfl, rfl⟩
  · obtain ⟨i, hi, hcls⟩ := h.class_of
    simp [Store.class?, hi, hcls]

theorem message_refines : messageCodec.Refines program := by
  refine Codec.refines_of Message.Shown.class_of exists_message (fun ops => ?_)
    ?_ Message.appendTo_eq Message.length_encode ?_
  · obtain ⟨d, hnew, -, hget⟩ := run_new ops build_message
    exact ⟨_, _, hnew, _, hget 0 newMessage rfl, rfl, rfl, rfl, .nil⟩
  · rintro s x i m hs ⟨i', hi', hcls, hm⟩ hi depth
    cases Option.some.inj (hi.symm.trans hi')
    have hl : recordsField ∈ program.registry.serialised i.className := by
      rw [hcls]
      exact recordsField_mem
    exact hm.encode hs hi hl (depth + 1)
  · rintro d x m hs ⟨i, hi, hcls, -⟩ depth
    have htrack := message_tracks (depth + 1) hs hi m
    unfold Tracks at *
    cases hr : (m.read d.rest).rest with
    | error e =>
      simp only [messageCodec, hr] at htrack ⊢
      exact htrack
    | ok rest =>
      simp only [messageCodec, hr] at htrack ⊢
      obtain ⟨d', hd, hrest, j, hj, hm⟩ := htrack
      have hsteps := own_steps (by rw [serialised_message]; decide) (depth + 3) hs hi
        (fun a ha => hcls ▸ serialised_sub _ _ a ha) hd
      obtain ⟨j', hj', hk⟩ := hsteps.frame.object x i hi
      cases Option.some.inj (hj.symm.trans hj')
      exact ⟨d', hd, hrest, j, hj, hk.className.trans hcls, hm⟩

theorem route_refines : routeCodec.Refines program := by
  refine Codec.refines_of Route.Shown.class_of exists_route (fun ops => ?_)
    (fun hs h hi depth => h.encode hs hi depth) Route.appendTo_eq Route.length_encode
    fun hs h depth => route_tracks depth hs h
  obtain ⟨d, hnew, -, hget⟩ := run_new ops build_route
  have hfirst : Point.Shown _ (0 + d) {} := ⟨_, hget 0 newPoint rfl, rfl, rfl, rfl⟩
  have hsecond : Point.Shown _ (1 + d) {} := ⟨_, hget 1 newPoint rfl, rfl, rfl, rfl⟩
  exact ⟨_, _, hnew, _, hget 2 newRoute rfl, rfl, ⟨rfl, rfl, .nil⟩, _, _, rfl, hfirst, hsecond⟩

theorem word_eq_setWidth (v : UInt8) : BitVec.ofNat 64 v.toNat = v.toBitVec.setWidth 64 := by
  rw [← UInt8.toNat_toBitVec, BitVec.ofNat_toNat]

theorem truncate_uint8 (w : Word) : TypeName.truncate "uint8" w = (w.setWidth 8).setWidth 64 := by
  change BitVec.ofNat 64 (w.toNat % 2 ^ 8) = _
  apply BitVec.eq_of_toNat_eq
  simp

/-- Access to some bits of a byte, as it is carried out on 64-bit words. -/
structure ByteBits (b : BitAccessor) (get : Record → UInt8) (set : Record → UInt8 → Record) :
    Prop where
  field : b.field = "flags"
  key (r : Record) (v : UInt8) : (set r v).key = r.key
  get (r : Record) : b.get (BitVec.ofNat 64 r.flags.toNat) = BitVec.ofNat 64 (get r).toNat
  set (r : Record) (v : UInt8) :
    TypeName.truncate "uint8" (b.set (BitVec.ofNat 64 r.flags.toNat) (BitVec.ofNat 64 v.toNat)) =
      BitVec.ofNat 64 (set r v).flags.toNat

def activeBits : BitAccessor := {
  name := "active", field := "flags", type := "uint8", mask := "0x01", maskValue := 1 }

def priorityBits : BitAccessor := {
  name := "priority", field := "flags", type := "uint8", mask := "0x0E", maskValue := 14
  shift := 1, description := "0 is lowest" }

theorem activeBits_byte : ByteBits activeBits Record.active Record.setActive where
  field := rfl
  key _ _ := rfl
  get r := by
    change (BitVec.ofNat 64 r.flags.toNat &&& 1#64) >>> 0 = _
    rw [word_eq_setWidth, word_eq_setWidth]
    simp only [Record.active, UInt8.toBitVec_and, BitVec.setWidth_and, BitVec.ushiftRight_zero]
    rfl
  set r v := by
    change TypeName.truncate "uint8" ((BitVec.ofNat 64 r.flags.toNat &&& ~~~1#64) |||
      BitVec.ofNat 64 v.toNat <<< 0) = _
    rw [truncate_uint8, word_eq_setWidth, word_eq_setWidth, word_eq_setWidth]
    simp [Record.setActive, BitVec.setWidth_or, BitVec.setWidth_and]

theorem priorityBits_byte : ByteBits priorityBits Record.priority Record.setPriority where
  field := rfl
  key _ _ := rfl
  get r := by
    change (BitVec.ofNat 64 r.flags.toNat &&& 14#64) >>> 1 = _
    rw [word_eq_setWidth, word_eq_setWidth]
    apply BitVec.eq_of_toNat_eq
    simp [Record.priority]
  set r v := by
    change TypeName.truncate "uint8" ((BitVec.ofNat 64 r.flags.toNat &&& ~~~14#64) |||
      BitVec.ofNat 64 v.toNat <<< 1) = _
    rw [truncate_uint8, word_eq_setWidth, word_eq_setWidth, word_eq_setWidth]
    simp [Record.setPriority, BitVec.setWidth_or, BitVec.setWidth_and]

theorem ByteBits.refine {b : BitAccessor} {get : Record → UInt8} {set : Record → UInt8 → Record}
    (h : ByteBits b get set) {name : String}
    (hb : (program.bitField "Record" name).toOption = some b) :
    BitsRefine program name get set := by
  rintro ops x r ⟨i, hi, hcls, hkey, hflags⟩
  have hfield : program.bitField i.className name = .ok b := by
    rw [hcls]
    cases hc : program.bitField "Record" name with
    | error e => simp [hc, Except.toOption] at hb
    | ok b' => simpa [hc, Except.toOption] using hb
  have htype : i.types.get? "flags" = some "uint8" := by
    rw [run_types hi (hcls ▸ build_record) rfl]
    rfl
  refine ⟨i, hi, ?_, fun v => ?_⟩
  · simp only [getBits, hfield, bind, Except.bind, h.field, hflags, h.get]
    rfl
  let j := i.setPrim "flags" (BitVec.ofNat 64 (set r v).flags.toNat)
  refine ⟨j, ?_, j, by simp [Store.get?_set, hi], hcls, ?_, ?_⟩
  · simp only [setBits, hfield, bind, Except.bind, h.field, hflags, Instance.setUint, htype, h.set]
    rfl
  · simp [j, Instance.uint_setPrim, hkey, h.key]
  · simp [j, Instance.uint_setPrim]

theorem bitFields : (program.bitField "Record" "active").toOption = some activeBits ∧
    (program.bitField "Record" "priority").toOption = some priorityBits := by
  decide +kernel

/-- The document has a program, and each of the sample classes refines it: values of the class are
made, written, measured and read as the machine makes, encodes, measures and decodes the objects
that show them, and the bits of a record are those of its object. -/
theorem sample_refines : ∃ p, program? = some p ∧
    recordCodec.Refines p ∧ messageCodec.Refines p ∧ pointCodec.Refines p ∧ routeCodec.Refines p ∧
    BitsRefine p "active" Record.active Record.setActive ∧
    BitsRefine p "priority" Record.priority Record.setPriority :=
  ⟨program, program?_eq, record_refines, message_refines, point_refines, route_refines,
    activeBits_byte.refine bitFields.1, priorityBits_byte.refine bitFields.2⟩

end PduCompiler.Sample
