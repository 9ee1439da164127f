import Mathlib.Data.List.Pairwise
import HardwareDesign.Proofs.Reporting

namespace HardwareDesign

namespace Graph

inductive RefersTo (g : Graph) (x : String) : Prop
  | target {m rm symbol id r name} : m ∈ g.top → g.Holds m rm → rm.payload = .module symbol → id ∈ rm.body →
      g.Holds id r → r.payload = .instantiation name x → RefersTo g x
  | hierarchy {id r} : id ∈ g.top → g.Holds id r → r.payload = .hierarchy x → RefersTo g x

def HasModule (g : Graph) (x : String) : Prop :=
  ∃ id ∈ g.top, ∃ r, g.Holds id r ∧ (r.payload = .module x ∨ r.payload = .external x)

variable {g : Graph} {id k : RecordId} {r : Record} {earlier ids : List RecordId} {x : String}

section Names

lemma nodup_names (he : (g.names earlier).Nodup)
    (hnew : ∀ e ∈ withEarlier earlier ids, ∀ x, g.nameOf e.2 = some x → x ∉ g.names e.1) :
    (g.names (earlier ++ ids)).Nodup := by
  induction ids generalizing earlier with
  | nil => simpa using he
  | cons id ids ih =>
    obtain ⟨hid, hids⟩ := List.forall_mem_cons.mp hnew
    rw [← List.singleton_append, ← List.append_assoc]
    refine ih ?_ hids
    rw [names_append, names_singleton]
    cases hn : g.nameOf id with
    | none => simpa using he
    | some x => exact List.concat_eq_append ▸ he.concat (hid x hn)

lemma eq_of_nodup_names (hn : (g.names ids).Nodup) (hid : id ∈ ids) (hk : k ∈ ids) (hx : g.nameOf id = some x)
    (hx' : g.nameOf k = some x) : k = id := by
  have hdiffer := List.pairwise_filterMap.mp hn
  have : Std.Symm fun a b => ∀ y, g.nameOf a = some y → ∀ z, g.nameOf b = some z → y ≠ z :=
    ⟨fun _ _ h y hy z hz => (h z hz y hy).symm⟩
  by_contra hne
  exact hdiffer.forall hk hid hne x hx' x hx rfl

lemma nodup_names_top (hd : g.duplicates = []) : (g.names g.top).Nodup := by
  have hnil : (g.names []).Nodup := List.nodup_nil
  refine nodup_names hnil fun e he x hx hm => ?_
  have hnone : g.duplicatesAt e.1 e.2 = [] := List.flatMap_eq_nil_iff.mp hd e he
  simp [duplicatesAt, hx, hm] at hnone

end Names

section References

lemma RefersTo.mem_references (h : g.RefersTo x) : ∃ d, (x, d) ∈ g.top.flatMap g.referencesAt := by
  simp only [List.mem_flatMap]
  cases h with
  | @target m rm symbol id r name hm hrm hsymbol hid hr htarget =>
    obtain ⟨_, _, body⟩ := rm
    obtain ⟨_, _, _⟩ := r
    obtain rfl := hsymbol
    obtain rfl := htarget
    have hat : g.targetAt symbol id = some (x, .unknownModule symbol name x) := by
      simp only [targetAt, show g.records.find? id = _ from hr]
    have hbody : g.referencesAt m = body.filterMap (g.targetAt symbol) := by
      simp only [referencesAt, show g.records.find? m = _ from hrm]
    exact ⟨_, m, hm, hbody ▸ List.mem_filterMap.mpr ⟨id, hid, hat⟩⟩
  | @hierarchy id r hid hr htop =>
    obtain ⟨_, _, _⟩ := r
    obtain rfl := htop
    refine ⟨.unknownHierarchyTop x, id, hid, ?_⟩
    simp only [referencesAt, show g.records.find? id = _ from hr, List.mem_singleton]

lemma mem_names_of_unknowns (hu : g.unknowns = []) {d : Defect} (hx : (x, d) ∈ g.top.flatMap g.referencesAt) :
    x ∈ g.names g.top := by
  have hnone := List.filterMap_eq_nil_iff.mp hu _ hx
  by_contra hnot
  simp [hnot] at hnone

end References

lemma module_or_external (hx : r.payload.symbolName = some x) :
    r.payload.kind = .module ∨ r.payload.kind = .external ↔ r.payload = .module x ∨ r.payload = .external x := by
  cases hp : r.payload <;> simp_all [Payload.kind, Payload.symbolName]

/-- If the check finds nothing, whatever is referred to is the name of one record of the top level. It is a module if
that record is one; the check does not say so. -/
theorem clean_references (hg : g.Reachable) (hclean : g.validate.issues = []) (hx : g.RefersTo x) :
    ∃ id r, id ∈ g.top ∧ g.Holds id r ∧ r.payload.symbolName = some x ∧
      (∀ k ∈ g.top, g.nameOf k = some x → k = id) ∧
      (g.HasModule x ↔ r.payload.kind = .module ∨ r.payload.kind = .external) := by
  have hdefects : g.duplicates ++ g.unknowns ++ g.records.values.filterMap (dangling g.moduleNames) = [] := by
    rw [← hg.forest.defects_eq, ← causes_validate, hclean, List.map_nil]
  obtain ⟨⟨hd, hu⟩, _⟩ := (List.append_eq_nil_iff.trans (and_congr_left' List.append_eq_nil_iff)).mp hdefects
  obtain ⟨d, hd'⟩ := hx.mem_references
  obtain ⟨id, hid, r, hr, hname⟩ := mem_names.mp (mem_names_of_unknowns hu hd')
  have honce : ∀ k ∈ g.top, g.nameOf k = some x → k = id := fun k hk hk' =>
    eq_of_nodup_names (nodup_names_top hd) hid hk ((nameOf_of_holds hr).trans hname) hk'
  refine ⟨id, r, hid, hr, hname, honce, ?_⟩
  rw [module_or_external hname]
  constructor
  · rintro ⟨k, hk, rk, hrk, hmodule⟩
    have hk' : g.nameOf k = some x := by
      rw [nameOf_of_holds hrk]
      rcases hmodule with hp | hp <;> rw [hp] <;> rfl
    obtain rfl := honce k hk hk'
    exact hrk.unique hr ▸ hmodule
  · exact fun hmodule => ⟨id, hid, r, hr, hmodule⟩

end Graph

namespace Design

def misdirect : Pass Unit :=
  ⟨"misdirect", fun _ => .create none (.register "x" (.int 1)) fun _ =>
    .inspect fun g => .create (some (g.handle ⟨1⟩)) (.instantiation "a" "x") fun _ => .done (.ok (), ())⟩

def misdirected : Design :=
  (((new {} 0).run [.call (.define "m" (.generated fun _ _ => .done)), .call (.addTop ⟨0⟩)]).runPasses
    [misdirect] [] ()).2.2

lemma reachable_misdirected : misdirected.Reachable :=
  (reachable_run {} 0 _).trans (.single (.passes [misdirect] [] ()))

end Design

theorem Graph.clean_references_register :
    Design.misdirected.graph.Reachable ∧ Design.misdirected.graph.validate.issues = [] ∧
      Design.misdirected.graph.RefersTo "x" ∧ ¬ Design.misdirected.graph.HasModule "x" := by
  have hg := Design.reachable_misdirected.graph
  have hclean : Design.misdirected.graph.validate.issues = [] := by decide
  have hm : Design.misdirected.graph.Holds ⟨1⟩ ⟨.module "m", none, [⟨3⟩]⟩ := rfl
  have ha : Design.misdirected.graph.Holds ⟨3⟩ ⟨.instantiation "a" "x", some ⟨1⟩, []⟩ := rfl
  have hx : Design.misdirected.graph.RefersTo "x" := .target (by decide) hm rfl List.mem_cons_self ha rfl
  obtain ⟨id, r, _, hr, _, honce, hmodule⟩ := Graph.clean_references hg hclean hx
  have hregister : Design.misdirected.graph.Holds ⟨2⟩ ⟨.register "x" (.int 1), none, []⟩ := rfl
  obtain rfl : ⟨2⟩ = id := honce ⟨2⟩ (by decide) rfl
  obtain rfl := hregister.unique hr
  exact ⟨hg, hclean, hx, fun hm => by simpa [Payload.kind] using hmodule.mp hm⟩

end HardwareDesign
