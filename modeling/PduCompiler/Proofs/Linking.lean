import PduCompiler.Proofs.Sealable

/-! The links of a class, written in place. Attribute after attribute writes its name to the field
that counts it and to the bits it owns, which may come before or after it. Once all have, the class
is as `linkClass` computes it. -/

namespace PduCompiler

def Attribute.writeCount (list : String) (a : Attribute) : Attribute :=
  match a.kind with
  | some (.primitive q) => { a with kind := some (.primitive { q with countFor := list }) }
  | _ => a

def Attribute.writeOwner (a : Attribute) : Attribute :=
  match a.kind with
  | some (.primitive q) =>
    { a with kind := some (.primitive
        { q with bitFields := q.bitFields.map fun b => { b with owner := a.name } }) }
  | _ => a

theorem Attribute.writeCount_other {a : Attribute} (h : ∀ q, a.kind ≠ some (.primitive q))
    (list : String) : a.writeCount list = a := by
  unfold Attribute.writeCount
  split
  · next q hq => exact (h q hq).elim
  · rfl

theorem Attribute.writeOwner_other {a : Attribute} (h : ∀ q, a.kind ≠ some (.primitive q)) :
    a.writeOwner = a := by
  unfold Attribute.writeOwner
  split
  · next q hq => exact (h q hq).elim
  · rfl

def writeFirst (name : String) (write : Attribute → Attribute) : List Attribute → List Attribute
  | [] => []
  | a :: rest => if a.name == name then write a :: rest else a :: writeFirst name write rest

def Attribute.claimCount (a : Attribute) (attributes : List Attribute) : List Attribute :=
  match a.kind with
  | some (.dynamicList field _) => writeFirst field (·.writeCount a.name) attributes
  | _ => attributes

namespace ClassDescription

def linkAt (c : ClassDescription) (i : Nat) : ClassDescription :=
  match c.attributes[i]? with
  | none => c
  | some a => { c with attributes := (a.claimCount c.attributes).modify i Attribute.writeOwner }

def linkInPlace (c : ClassDescription) : ClassDescription :=
  (List.range c.attributes.length).foldl linkAt c

end ClassDescription

namespace Registry

variable {c : ClassDescription}

theorem writeFirst_eq_map {attributes : List Attribute} (hnd : (attributes.map (·.name)).Nodup)
    (name : String) (write : Attribute → Attribute) :
    writeFirst name write attributes =
      attributes.map fun a => if a.name = name then write a else a := by
  induction attributes with
  | nil => rfl
  | cons a rest ih =>
    obtain ⟨hnew, hrest⟩ := List.nodup_cons.mp hnd
    by_cases ha : a.name = name
    · -- no attribute after the first has its name
      have hother : ∀ b ∈ rest, (if b.name = name then write b else b) = b := by
        intro b hb
        have hne : b.name ≠ name := fun he => hnew (List.mem_map.mpr ⟨b, hb, he.trans ha.symm⟩)
        rw [if_neg hne]
      have hkeep := (List.map_congr_left hother).trans (List.map_id' rest)
      simp [writeFirst, ha, hkeep]
    · simp [writeFirst, ha, ih hrest]

def linkPart (done : List Attribute) (own : Bool) (b : Attribute) : Attribute :=
  match b.kind with
  | some (.primitive q) =>
    { b with kind := some (.primitive { q with
        countFor := (countedList? done b.name).getD q.countFor
        bitFields := if own then q.bitFields.map fun f => { f with owner := b.name }
          else q.bitFields }) }
  | _ => b

theorem linkPart_name (done : List Attribute) (own : Bool) (b : Attribute) :
    (linkPart done own b).name = b.name := by
  unfold linkPart
  split <;> rfl

theorem linkPart_other (done : List Attribute) (own : Bool) {b : Attribute}
    (h : ∀ q, b.kind ≠ some (.primitive q)) : linkPart done own b = b := by
  unfold linkPart
  split
  · next q hq => exact (h q hq).elim
  · rfl

theorem linkPart_all (attributes : List Attribute) (b : Attribute) :
    linkPart attributes true b = linkAttribute attributes b := by
  unfold linkPart linkAttribute
  rcases b.kind with _ | k
  · rfl
  · cases k <;> rfl

theorem linkPart_nil (b : Attribute) : linkPart [] false b = b := by
  unfold linkPart
  split
  · next q hq =>
    cases b
    simp_all [countedList?]
  · rfl

theorem countedList?_concat (done : List Attribute) (a : Attribute) (name : String) :
    countedList? (done ++ [a]) name = match a.kind with
      | some (.dynamicList field _) => if field = name then some a.name else countedList? done name
      | _ => countedList? done name := by
  unfold countedList?
  rcases hk : a.kind with _ | k
  · simp [hk]
  · cases k with
    | dynamicList field e =>
      by_cases hf : field = name
      · simp [hk, hf]
      · simp [hk, hf]
    | _ => simp [hk]

theorem linkPart_concat_count (done : List Attribute) (own : Bool) {a : Attribute} {field : String}
    {e : Element} (ha : a.kind = some (.dynamicList field e)) (b : Attribute) :
    linkPart (done ++ [a]) own b =
      if b.name = field then (linkPart done own b).writeCount a.name else linkPart done own b := by
  by_cases hb : ∃ q, b.kind = some (.primitive q)
  · obtain ⟨q, hq⟩ := hb
    by_cases hname : b.name = field
    · simp [linkPart, hq, countedList?_concat, ha, hname, Attribute.writeCount]
    · simp [linkPart, hq, countedList?_concat, ha, hname, Ne.symm hname]
  · have hno : ∀ q, b.kind ≠ some (.primitive q) := fun q hq => hb ⟨q, hq⟩
    rw [linkPart_other _ _ hno, linkPart_other _ _ hno, Attribute.writeCount_other hno, ite_self]

theorem linkPart_concat_other (done : List Attribute) (own : Bool) {a : Attribute}
    (ha : ∀ field e, a.kind ≠ some (.dynamicList field e)) (b : Attribute) :
    linkPart (done ++ [a]) own b = linkPart done own b := by
  have hcount : countedList? (done ++ [a]) b.name = countedList? done b.name := by
    rw [countedList?_concat]
    split
    · next field e hk => exact (ha field e hk).elim
    · rfl
  unfold linkPart
  rw [hcount]

theorem linkPart_writeOwner (done : List Attribute) (b : Attribute) :
    (linkPart done false b).writeOwner = linkPart done true b := by
  by_cases hb : ∃ q, b.kind = some (.primitive q)
  · obtain ⟨q, hq⟩ := hb
    simp [linkPart, hq, Attribute.writeOwner]
  · have hno : ∀ q, b.kind ≠ some (.primitive q) := fun q hq => hb ⟨q, hq⟩
    rw [linkPart_other _ _ hno, linkPart_other _ _ hno, Attribute.writeOwner_other hno]

def LinkedTo (c : ClassDescription) (i : Nat) (attributes : List Attribute) : Prop :=
  ∀ j, attributes[j]? = (c.attributes[j]?).map (linkPart (c.attributes.take i) (decide (j < i)))

theorem LinkedTo.names {i : Nat} {attributes : List Attribute} (h : LinkedTo c i attributes) :
    attributes.map (·.name) = c.attributes.map (·.name) := by
  refine List.ext_getElem? fun j => ?_
  rw [List.getElem?_map, List.getElem?_map, h j, Option.map_map]
  congr 1
  funext b
  exact linkPart_name _ _ b

theorem LinkedTo.claimCount (hnd : (c.attributes.map (·.name)).Nodup) {i : Nat}
    {attributes : List Attribute} (h : LinkedTo c i attributes) (a : Attribute) (j : Nat) :
    (a.claimCount attributes)[j]? =
      (c.attributes[j]?).map (linkPart (c.attributes.take i ++ [a]) (decide (j < i))) := by
  by_cases hlist : ∃ field e, a.kind = some (.dynamicList field e)
  · obtain ⟨field, e, hk⟩ := hlist
    simp only [Attribute.claimCount, hk]
    rw [writeFirst_eq_map (h.names ▸ hnd), List.getElem?_map, h j, Option.map_map]
    congr 1
    funext b
    rw [linkPart_concat_count _ _ hk, Function.comp, linkPart_name]
  · have hno : ∀ field e, a.kind ≠ some (.dynamicList field e) := fun field e hk =>
      hlist ⟨field, e, hk⟩
    have hsame : a.claimCount attributes = attributes := by
      unfold Attribute.claimCount
      split
      · next field e hk => exact (hno field e hk).elim
      · rfl
    rw [hsame, h j]
    congr 1
    funext b
    rw [linkPart_concat_other _ _ hno]

theorem linkPart_claimCount (done : List Attribute) (own : Bool) (a : Attribute) :
    (linkPart done own a).claimCount = a.claimCount := by
  by_cases hq : ∃ q, a.kind = some (.primitive q)
  · obtain ⟨q, hq⟩ := hq
    funext attributes
    simp [Attribute.claimCount, linkPart, hq]
  · rw [linkPart_other _ _ fun q hk => hq ⟨q, hk⟩]

theorem LinkedTo.step (hnd : (c.attributes.map (·.name)).Nodup) {i : Nat}
    {attributes : List Attribute} (h : LinkedTo c i attributes) {a : Attribute}
    (ha : c.attributes[i]? = some a) :
    ClassDescription.linkAt { c with attributes } i =
      { c with attributes := (a.claimCount attributes).modify i Attribute.writeOwner } ∧
    LinkedTo c (i + 1) ((a.claimCount attributes).modify i Attribute.writeOwner) := by
  have hself : attributes[i]? = some (linkPart (c.attributes.take i) false a) := by
    rw [h i, ha]
    simp
  have htake : c.attributes.take (i + 1) = c.attributes.take i ++ [a] := by
    rw [List.take_add_one, ha]
    rfl
  refine ⟨?_, fun j => ?_⟩
  · simp only [ClassDescription.linkAt, hself, linkPart_claimCount]
  · rw [List.getElem?_modify, h.claimCount hnd a j, htake]
    by_cases hij : i = j
    · subst hij
      simp [ha, linkPart_writeOwner]
    · have hlt : decide (j < i + 1) = decide (j < i) := by
        rw [decide_eq_decide]
        omega
      rw [hlt]
      simp [hij]

theorem linkAt_steps (hnd : (c.attributes.map (·.name)).Nodup) (i : Nat)
    (hi : i ≤ c.attributes.length) :
    ∃ attributes, (List.range i).foldl ClassDescription.linkAt c = { c with attributes } ∧
      LinkedTo c i attributes := by
  induction i with
  | zero =>
    refine ⟨c.attributes, rfl, fun j => ?_⟩
    have hsame : linkPart (c.attributes.take 0) (decide (j < 0)) = id := by
      funext b
      simp [linkPart_nil]
    rw [hsame, Option.map_id_fun, id]
  | succ i ih =>
    obtain ⟨attributes, hfold, hlinked⟩ := ih (by omega)
    obtain ⟨a, ha⟩ : ∃ a, c.attributes[i]? = some a := ⟨_, List.getElem?_eq_getElem (by omega)⟩
    obtain ⟨hstep, hlinked'⟩ := hlinked.step hnd ha
    refine ⟨_, ?_, hlinked'⟩
    rw [List.range_succ, List.foldl_append, hfold]
    exact hstep

theorem linkInPlace_eq (hnd : (c.attributes.map (·.name)).Nodup) :
    c.linkInPlace = linkClass c := by
  obtain ⟨attributes, hfold, hlinked⟩ := linkAt_steps hnd c.attributes.length (Nat.le_refl _)
  have hall : attributes = c.attributes.map (linkAttribute c.attributes) := by
    refine List.ext_getElem? fun j => ?_
    rw [hlinked j, List.take_length, List.getElem?_map]
    by_cases hj : j < c.attributes.length
    · simp [hj, linkPart_all]
    · simp [List.getElem?_eq_none (Nat.not_lt.mp hj)]
  rw [ClassDescription.linkInPlace, hfold, hall]
  rfl

theorem linkAt_name (c : ClassDescription) (i : Nat) : (c.linkAt i).name = c.name := by
  unfold ClassDescription.linkAt
  split <;> rfl

theorem linkInPlace_name (c : ClassDescription) : c.linkInPlace.name = c.name := by
  unfold ClassDescription.linkInPlace
  generalize List.range c.attributes.length = l
  induction l generalizing c with
  | nil => rfl
  | cons i l ih => rw [List.foldl_cons, ih, linkAt_name]

end Registry

end PduCompiler
