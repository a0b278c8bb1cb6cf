import PduCompiler.Proofs.Sealable

/-! What sealing says of classes that hold themselves. The search stops at the first cycle below a
class and settles all classes on its way back, so later searches run where parts have not been looked
at. Still a path that is reported is a cycle, and no two reports name the same class. -/

namespace PduCompiler.Registry

open Relation Text

variable {r : Registry} {path settled settled' todo : List String} {name : String}

theorem Searches.names_fresh {found : Option (List String)} {front : List String}
    (h : r.Searches path settled todo settled' found) (hfound : found = some (front ++ [name])) :
    name ∈ path ∨ name ∉ settled ∧ name ∈ settled' := by
  induction h with
  | done => cases hfound
  | closed hon =>
    obtain ⟨-, he⟩ := List.append_inj' (Option.some.inj hfound) rfl
    exact .inl (List.singleton_inj.mp he ▸ hon)
  | skip _ _ _ ih => exact ih hfound
  | found _ hnew _ ih =>
    rcases ih hfound with hin | ⟨hfresh, hbelow⟩
    · rcases List.mem_append.mp hin with hin | hself
      · exact .inl hin
      · rw [List.mem_singleton.mp hself]
        exact .inr ⟨hnew, List.mem_cons_self⟩
    · exact .inr ⟨hfresh, List.mem_cons_of_mem _ hbelow⟩
  | clear _ _ hbelow _ _ ih =>
    rcases ih hfound with hin | ⟨hfresh, hlater⟩
    · exact .inl hin
    · have hold : name ∉ _ := fun hs =>
        hfresh (List.mem_cons_of_mem _ (hbelow.settled_subset hs))
      exact .inr ⟨hold, hlater⟩

theorem Searches.unique {found found' : Option (List String)} {settled₁ settled₂ : List String}
    (h : r.Searches path settled todo settled₁ found)
    (h' : r.Searches path settled todo settled₂ found') : settled₁ = settled₂ ∧ found = found' := by
  induction h generalizing settled₂ found' with
  | done =>
    cases h'
    exact ⟨rfl, rfl⟩
  | closed hon =>
    cases h' with
    | closed => exact ⟨rfl, rfl⟩
    | skip hoff | found hoff | clear hoff => exact absurd hon hoff
  | skip hoff hold _ ih =>
    cases h' with
    | closed hon => exact absurd hon hoff
    | skip _ _ hrest => exact ih hrest
    | found _ hnew | clear _ hnew => exact absurd hold hnew
  | found hoff hnew _ ih =>
    cases h' with
    | closed hon => exact absurd hon hoff
    | skip _ hold => exact absurd hold hnew
    | found _ _ hbelow =>
      obtain ⟨rfl, hc⟩ := ih hbelow
      exact ⟨rfl, hc⟩
    | clear _ _ hbelow =>
      obtain ⟨-, hc⟩ := ih hbelow
      cases hc
  | clear hoff hnew _ _ ih ih' =>
    cases h' with
    | closed hon => exact absurd hon hoff
    | skip _ hold => exact absurd hold hnew
    | found _ _ hbelow =>
      obtain ⟨-, hc⟩ := ih hbelow
      cases hc
    | clear _ _ hbelow hrest =>
      obtain ⟨rfl, -⟩ := ih hbelow
      exact ih' hrest

theorem Rounds.unique {cycles cycles' : List (List String)} (h : r.Rounds settled todo cycles)
    (h' : r.Rounds settled todo cycles') : cycles = cycles' := by
  induction h generalizing cycles' with
  | nil =>
    cases h'
    rfl
  | cons hname _ ih =>
    cases h' with
    | cons hname' hrest =>
      obtain ⟨rfl, rfl⟩ := hname.unique hname'
      rw [ih hrest]

theorem Rounds.names_nodup {cycles : List (List String)} (h : r.Rounds settled todo cycles) :
    (cycles.map List.getLast?).Nodup ∧
      ∀ cycle ∈ cycles, ∀ name, cycle.getLast? = some name → name ∉ settled := by
  induction h with
  | nil => simp
  | @cons settled settled' _ cycles found _ hname _ ih =>
    obtain ⟨hnodup, hfresh⟩ := ih
    have hkept : ∀ cycle ∈ cycles, ∀ name, cycle.getLast? = some name → name ∉ settled :=
      fun cycle hc name hl hs => hfresh cycle hc name hl (hname.settled_subset hs)
    cases found with
    | none => exact ⟨hnodup, hkept⟩
    | some cycle =>
      obtain ⟨-, front, last, rfl, -⟩ := hname.closes rfl fun n _ => .singleton n
      obtain ⟨hnew, hsettled⟩ := (hname.names_fresh rfl).resolve_left List.not_mem_nil
      have hlast : (front ++ [last]).getLast? = some last := List.getLast?_concat
      refine ⟨List.nodup_cons.mpr ⟨fun hin => ?_, hnodup⟩, ?_⟩
      · -- what an earlier search names is settled for the later ones
        obtain ⟨cycle, hc, he⟩ := List.mem_map.mp hin
        exact hfresh cycle hc last (he.trans hlast) hsettled
      · refine List.forall_mem_cons.mpr ⟨fun name hn => ?_, hkept⟩
        rwa [← Option.some.inj (hlast.symm.trans hn)]

/-- A report of a path along which each class holds the next, own and inherited attributes taken
together, and which comes back to the class it names. -/
def Genuine (r : Registry) (e : SealError) : Prop := ∃ front name,
  e.message = "class " ++ quote name ++ " embeds itself: " ++
    String.intercalate " -> " (front ++ [name]) ∧
  (front ++ [name]).IsChain r.Holds ∧ name ∈ front ∧ TransGen r.Holds name name

/-- The search ends by itself, all that it reports is genuine, it names no class twice, and it is
silent only if no class holds itself. -/
theorem Built.reports_genuine (hb : r.Built) (hchecked : ∀ c ∈ r.classes, r.checkClass c = []) :
    (∀ cycles, r.Rounds [] r.names cycles ↔ cycles = r.embeddingCycles) ∧
    r.problems = r.embeddingCycles.map .embedsItself ∧
    (∀ e ∈ r.problems, r.Genuine e) ∧
    (r.embeddingCycles.map List.getLast?).Nodup ∧
    (r.problems = [] ↔ r.HoldsNoSelf) := by
  have hn := hb.names_nodup
  have hnil : r.classes.flatMap r.checkClass = [] := List.flatMap_eq_nil_iff.mpr hchecked
  have hnames : ∀ name inner, r.Embeds name inner → inner ∈ r.names :=
    fun _ _ => hb.embeds_mem hnil
  have hrounds := embeddingCycles_rounds hnames
  have hproblems : r.problems = r.embeddingCycles.map .embedsItself := by rw [problems, hnil]
  refine ⟨fun cycles => ⟨fun h => h.unique hrounds, fun h => h ▸ hrounds⟩, hproblems, ?_,
    hrounds.names_nodup.1, ?_⟩
  · intro e he
    rw [hproblems] at he
    obtain ⟨cycle, hcycle, rfl⟩ := List.mem_map.mp he
    obtain ⟨hchain, front, name, rfl, hname⟩ := hrounds.closes hcycle
    rw [embeds_eq_holds hn] at hchain
    refine ⟨front, name, ?_, hchain, hname, transGen_of_closed hchain hname⟩
    simp only [SealError.message, List.getLastD_concat]
    rfl
  · rw [hproblems, List.map_eq_nil_iff]
    exact ⟨fun h => holdsNoSelf_of_ends hn (ends_of_no_cycles hnames h),
      fun h => h.no_cycles hn hnames⟩

def nest : Registry := .gather [
  { name := "Crate", attributes := [{ name := "content", kind := some (.object "Hull") }] },
  { name := "Hull", attributes := [{ name := "lid", kind := some (.object "Lid") }] },
  { name := "Lid", parent := "Panel" },
  { name := "Panel", parent := "Lid", attributes := [
      { name := "below", kind := some (.fixedList 2 { className := "Hull" }) }] },
  { name := "Mirror", attributes := [
      { name := "front", kind := some (.object "Crate") },
      { name := "back", kind := some (.object "Mirror") }] }]

theorem nest_evaluated : (nest.classes.all fun c => nest.checkClass c == []) = true ∧
    nest.embeddingCycles = [["Crate", "Hull", "Lid", "Hull"], ["Mirror", "Mirror"]] := by
  decide +kernel

theorem nest_reports : nest.Built ∧ (∀ c ∈ nest.classes, nest.checkClass c = []) ∧
    nest.problems =
      [.embedsItself ["Crate", "Hull", "Lid", "Hull"], .embedsItself ["Mirror", "Mirror"]] ∧
    (∀ e ∈ nest.problems, nest.Genuine e) ∧ ¬ nest.HoldsNoSelf := by
  obtain ⟨hall, hcycles⟩ := nest_evaluated
  have hb : nest.Built := gather_built _
  have hchecked : ∀ c ∈ nest.classes, nest.checkClass c = [] := fun c hc =>
    beq_iff_eq.mp (List.all_eq_true.mp hall c hc)
  obtain ⟨-, hproblems, hgenuine, -, hsilent⟩ := hb.reports_genuine hchecked
  rw [hcycles] at hproblems
  exact ⟨hb, hchecked, hproblems, hgenuine, fun hno => by simp [hsilent.mpr hno] at hproblems⟩

end PduCompiler.Registry
