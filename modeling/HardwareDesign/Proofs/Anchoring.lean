import HardwareDesign.Proofs.Claiming
import HardwareDesign.Proofs.Finding
import HardwareDesign.Proofs.Rebuilding
import HardwareDesign.Proofs.RecordKeys

/-!
When a node can get a record: one of the nodes on the way up to its root has one. Everything that can be missing is
found missing on the way up, before the first record is made, so a call that fails has made nothing.
-/

namespace HardwareDesign

lemma InstanceTree.describe_root {t : InstanceTree} {i : InstanceId} {n : Node} (hn : t.node i = .ok n)
    (hp : n.parent = none) : t.describe i = .ok "<instance: []>" := by
  have hpath : t.path i = .ok [] := by
    simp only [path, pathUpTo, hn, hp, bind, Except.bind, pure, Except.pure]
  simp only [describe, pathNames, hpath, bind, Except.bind]
  rfl

namespace Design

inductive Anchored (s : Design) : InstanceId → Prop
  | hierarchy {i n x h} : s.tree.node i = .ok n → n.parent = none → s.resolveSymbol n.insideOf = some x →
      s.graph.hierarchies.find? x = some h → Anchored s i
  | remembered {i n p h} : s.tree.node i = .ok n → n.parent = some p → s.records.instances.find? i = some h →
      Anchored s i
  | parent {i n p} : s.tree.node i = .ok n → n.parent = some p → Anchored s p → Anchored s i

def unanchored : Error := .doesNotExist "<instance: []>"

def Atomic {α : Type} (s : Design) (a : Action α) : Prop :=
  ∀ e t, a s = .error e t → t.graph = s.graph ∧ t.placements = s.placements ∧ t.tree = s.tree

variable {s t : Design} {i p : InstanceId} {n : Node} {owner h : Handle} {site : SiteRef} {fuel : Nat}

section Anchors

lemma Anchored.grows (hg : s.graph.Forest) (he : s.Extends t) (h : s.Anchored i) : t.Anchored i := by
  induction h with
  | hierarchy hn hp hx hf =>
    obtain ⟨_, hn', _⟩ := he.node hn
    exact .hierarchy hn' hp (he.symbols hx) (Graph.find?_hierarchies_grows hg he.graph hf)
  | remembered hn hp hf =>
    obtain ⟨_, hn', _⟩ := he.node hn
    exact .remembered hn' hp (he.instances hf)
  | parent hn hp _ ih =>
    obtain ⟨_, hn', _⟩ := he.node hn
    exact .parent hn' hp ih

lemma Scanned.symm (hv : s.Views) (h : s.Scanned t) : t.Scanned s := ⟨h.core.symm, hv⟩

lemma Scanned.placements (h : s.Scanned t) : t.placements = s.placements := congrArg (fun u => u.placements) h.core

lemma Scanned.anchored (hs : s.Coherent) (h : s.Scanned t) : t.Anchored i ↔ s.Anchored i :=
  ⟨.grows (h.coherent hs).forest (h.symm hs.views).grows, .grows hs.forest h.grows⟩

lemma not_anchored_root (hn : s.tree.node i = .ok n) (hp : n.parent = none) {x : String}
    (hx : s.resolveSymbol n.insideOf = some x) (hf : s.graph.hierarchies.find? x = none) : ¬ s.Anchored i := by
  rintro (⟨hm, _, hy, hh⟩ | ⟨hm, hpar, _⟩ | ⟨hm, hpar, _⟩)
  · obtain rfl := Except.ok.inj (hn.symm.trans hm)
    obtain rfl := Option.some.inj (hx.symm.trans hy)
    simp [hf] at hh
  all_goals
    obtain rfl := Except.ok.inj (hn.symm.trans hm)
    simp [hp] at hpar

lemma not_anchored_below (hn : s.tree.node i = .ok n) (hp : n.parent = some p)
    (hf : s.records.instances.find? i = none) (hup : ¬ s.Anchored p) : ¬ s.Anchored i := by
  rintro (⟨hm, hnone, _, _⟩ | ⟨_, _, hh⟩ | ⟨hm, hpar, hq⟩)
  · obtain rfl := Except.ok.inj (hn.symm.trans hm)
    simp [hp] at hnone
  · simp [hf] at hh
  · obtain rfl := Except.ok.inj (hn.symm.trans hm)
    obtain rfl := Option.some.inj (hp.symm.trans hpar)
    exact hup hq

end Anchors

section Recording

lemma doesNotExist_root {α : Type} (hn : s.tree.node i = .ok n) (hp : n.parent = none) :
    doesNotExist (α := α) i s = .error unanchored s := by
  rw [doesNotExist, bind_of_ok (Action.read_ok (InstanceTree.describe_root hn hp))]
  rfl

lemma exists_recordUpTo_below (hs : s.Coherent) {name x : String} (hx : s.resolveSymbol n.insideOf = some x)
    {u : Design} (hup : recordUpTo fuel p s = .ok owner u) :
    ∃ h t, (do
      let owner ← recordUpTo fuel p
      let symbol ← Action.read (·.builtSymbol n.insideOf)
      let h ← nestedRecord owner ⟨symbol, name⟩
      modify (·.setRecord i h)
      return h : Action Handle) s = .ok h t := by
  obtain ⟨howner, hu, hext⟩ := recorded_of_recordUpTo hs hup
  obtain ⟨h, t, hnested⟩ := exists_nestedRecord hu howner.epoch howner.stands.accepts ⟨x, name⟩
  refine ⟨h, t.setRecord i h, ?_⟩
  rw [bind_of_ok hup, bind_of_ok (Action.read_ok (builtSymbol_built (hext.symbols hx))), bind_of_ok hnested]
  rfl

lemma recordUpTo_anchored (hs : s.Coherent) (hn : s.tree.node i = .ok n) (hf : i.index < fuel) :
    s.Anchored i ∧ (∃ h t, recordUpTo fuel i s = .ok h t) ∨
      ¬ s.Anchored i ∧ ∃ t, recordUpTo fuel i s = .error unanchored t ∧ s.Scanned t := by
  induction fuel generalizing s i n with
  | zero => exact absurd hf (Nat.not_lt_zero _)
  | succ fuel ih =>
    rcases hs.shaped.nodes (InstanceTree.node_eq.mp hn).2 with hroot | ⟨name, p, m, _, hc⟩
    · obtain ⟨x, hx⟩ := hs.targets (InstanceTree.node_eq.mp hn).2 (by rw [hroot.kind]; rfl)
      cases hh : s.graph.hierarchies.find? x with
      | some h =>
        exact .inl ⟨.hierarchy hn hroot.parent hx hh, h, _, recordUpTo_root hs hn hroot.parent hx hh fuel⟩
      | none =>
        refine .inr ⟨not_anchored_root hn hroot.parent hx hh, _, ?_, scanned_hierarchies hs.views⟩
        rw [recordUpTo, bind_of_ok (Action.read_ok hn), hroot.parent, hroot.name]
        refine (bind_of_ok (hierarchyRecord_built hs.views hx)).trans ?_
        rw [hh]
        exact doesNotExist_root hn hroot.parent
    · cases hh : s.records.instances.find? i with
      | some h =>
        obtain ⟨t, ht, _⟩ := recordUpTo_remembered hs hn hc.parent hh fuel
        exact .inl ⟨.remembered hn hc.parent hh, h, t, ht⟩
      | none =>
        obtain ⟨x, hx⟩ := hs.targets hc.above hc.insideOf
        obtain ⟨u, hscan, hrun⟩ := recordUpTo_new hs hn hc.parent hc.name hx hh fuel
        have hu := hscan.coherent hs
        have hm : u.tree.node (s.tree.idAt p) = .ok m := hscan.tree.symm ▸ InstanceTree.node_idAt.mpr hc.above
        have hlt : (s.tree.idAt p).index < fuel :=
          Nat.lt_of_lt_of_le (hs.shaped.parent_lt hn hc.parent) (Nat.le_of_lt_succ hf)
        rw [hrun]
        rcases ih hu hm hlt with ⟨hup, owner, v, hv⟩ | ⟨hup, v, hv, hscan'⟩
        · exact .inl ⟨.parent hn hc.parent ((hscan.anchored hs).mp hup),
            exists_recordUpTo_below hu ((hscan.resolveSymbol _).trans hx) hv⟩
        · refine .inr ⟨not_anchored_below hn hc.parent hh (mt (hscan.anchored hs).mpr hup), v, ?_, hscan.trans hscan'⟩
          exact bind_of_error hv

lemma scanned_of_getOrCreateRecord (hs : s.Coherent) {e : Error} (hr : getOrCreateRecord i s = .error e t) :
    s.Scanned t := by
  cases hn : s.tree.node i with
  | error e' =>
    have hstale : getOrCreateRecord i s = .error e' s := bind_of_error (Action.read_error hn)
    cases hstale.symm.trans hr
    exact .refl hs.views
  | ok n =>
    rcases recordUpTo_anchored hs hn (Nat.lt_succ_self _) with ⟨_, h, u, hok⟩ | ⟨_, u, herror, hscan⟩
    · cases hok.symm.trans hr
    · cases herror.symm.trans hr
      exact hscan

end Recording

namespace Atomic

variable {α β : Type}

lemma of_scanned {a : Action α} (h : ∀ e t, a s = .error e t → s.Scanned t) : s.Atomic a :=
  fun e t hr => ⟨(h e t hr).graph, (h e t hr).placements, (h e t hr).tree⟩

lemma read_bind {f : Design → Except Error α} {k : α → Action β} (hk : ∀ a, s.Atomic (k a)) :
    s.Atomic (Action.read f >>= k) := by
  intro e t hr
  cases hf : f s with
  | ok a =>
    rw [bind_of_ok (Action.read_ok hf)] at hr
    exact hk a e t hr
  | error e' =>
    rw [bind_of_error (Action.read_error hf)] at hr
    cases hr
    exact ⟨rfl, rfl, rfl⟩

lemma record_bind (hs : s.Coherent) {k : Handle → Action α}
    (hk : ∀ owner t, getOrCreateRecord i s = .ok owner t → ∃ a u, k owner t = .ok a u) :
    s.Atomic (getOrCreateRecord i >>= k) := by
  refine of_scanned fun e t hr => ?_
  cases hrecord : getOrCreateRecord i s with
  | error e' u =>
    rw [bind_of_error hrecord] at hr
    cases hr
    exact scanned_of_getOrCreateRecord hs hrecord
  | ok owner u =>
    obtain ⟨a, v, hok⟩ := hk owner u hrecord
    rw [bind_of_ok hrecord, hok] at hr
    cases hr

end Atomic

section Calls

variable {payload : Payload}

lemma atomic_addLocations (hs : s.Coherent) : s.Atomic (addLocations i payload) := by
  refine .record_bind hs fun owner t hr => ?_
  obtain ⟨ho, _⟩ := recorded_of_getOrCreateRecord hs hr
  exact ⟨(), _, Action.createIn_bind ho.epoch ho.stands.accepts payload _⟩

lemma atomic_addAttribute (hs : s.Coherent) (name value : String) (subPath : SubPath) :
    s.Atomic (addAttribute i name value subPath) := by
  rw [addAttribute_eq]
  exact atomic_addLocations hs

lemma atomic_payloadsOf {α : Type} (hs : s.Coherent) (f : List Payload → α) :
    s.Atomic (do return f (← payloadsOf i)) := by
  refine .of_scanned fun e t hr => ?_
  cases hrecord : getOrCreateRecord i s with
  | error e' u =>
    have hp : payloadsOf i s = .error e' u := bind_of_error hrecord
    rw [bind_of_error hp] at hr
    cases hr
    exact scanned_of_getOrCreateRecord hs hrecord
  | ok h u =>
    rw [bind_of_ok (payloadsOf_eq hs hrecord)] at hr
    cases hr

lemma atomic_children (hs : s.Coherent) : s.Atomic (children i) := by
  refine .of_scanned fun e t hr => ?_
  cases hn : s.tree.node i with
  | error e' =>
    cases (children_error hn).symm.trans hr
    exact .refl hs.views
  | ok n =>
    cases hc : n.children with
    | some c => cases (children_set hn hc).symm.trans hr
    | none =>
      obtain ⟨u, hscan, hrun⟩ := children_unset hs hn hc
      rw [hrun] at hr
      cases hk : s.kindsFor n with
      | ok kinds =>
        rw [hk] at hr
        cases hr
      | error e' =>
        rw [hk] at hr
        cases hr
        exact hscan

end Calls

/-- Where an instance does not get its record, or cannot be placed, no record has been made for it or for the instances
above it, and the placement database is as it was. Where an instance does not get its children, the tree is as it was,
too. -/
theorem failed_calls_change_nothing (hs : s.Reachable) :
    (∀ i, s.Atomic (getOrCreateRecord i)) ∧ (∀ i l subPath, s.Atomic (place i l subPath)) ∧
      (∀ i v, s.Atomic (placeRegister i v)) ∧
      (∀ i name value subPath, s.Atomic (addAttribute i name value subPath)) ∧ (∀ i, s.Atomic (locations i)) ∧
      (∀ i, s.Atomic (attributes i)) ∧ ∀ i, s.Atomic (children i) := by
  have hc := hs.coherent
  refine ⟨?_, ?_, ?_, ?_, ?_, ?_, ?_⟩
  · exact fun i => .of_scanned fun _ _ => scanned_of_getOrCreateRecord hc
  · exact fun i l subPath => .read_bind fun _ => .read_bind fun _ => atomic_addLocations hc
  · exact fun i v => .read_bind fun _ => .read_bind fun _ => .read_bind fun _ => atomic_addLocations hc
  · exact fun i name value subPath => atomic_addAttribute hc name value subPath
  · exact fun i => atomic_payloadsOf hc _
  · exact fun i => atomic_payloadsOf hc _
  · exact fun i => atomic_children hc

def bereave : Pass Unit where
  name := "bereave"
  run _ := .inspect fun g => .erase (g.handle ⟨8⟩) fun _ =>
    .create (some (g.handle ⟨2⟩)) (.instantiation "y" "X") fun _ => .done (.ok (), ())

def bereft : Design :=
  (recordedFirst.runPasses [bereave] [] ()).2.2.run [
    .call (.placementDatabase none), .call (.root ⟨2⟩), .call (.child ⟨0, 1⟩ "a")]

lemma reachable_bereft : bereft.Reachable := by
  have hrecorded : recordedFirst.Reachable := reachable_run _ _ _
  exact hrecorded.trans (.head (.passes [bereave] [] ()) (reaches_run _ _))

theorem failed_calls_change_nothing_bereft : ∃ t u,
    place ⟨1, 1⟩ ⟨.dsp, 0, 0, 0⟩ none bereft = .error unanchored t ∧ t.graph = bereft.graph ∧
      children ⟨1, 1⟩ bereft = .error (.notFound (.symbol "X")) u ∧ u.tree = bereft.tree := by
  have hplace : place ⟨1, 1⟩ ⟨.dsp, 0, 0, 0⟩ none bereft = .error unanchored _ := rfl
  have hchildren : children ⟨1, 1⟩ bereft = .error (.notFound (.symbol "X")) _ := rfl
  obtain ⟨_, hplaces, _, _, _, _, hall⟩ := failed_calls_change_nothing reachable_bereft
  obtain ⟨hgraph, _⟩ := hplaces _ _ _ _ _ hplace
  obtain ⟨_, _, htree⟩ := hall _ _ _ hchildren
  exact ⟨_, _, hplace, hgraph, hchildren, htree⟩

end Design

end HardwareDesign
