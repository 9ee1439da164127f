import HardwareDesign.Proofs.Paths
import HardwareDesign.Proofs.Planting
import HardwareDesign.Proofs.Runs

/-!
What an instance id stands for. Callers may allocate symbols and install any symbol for any definition here, so the
views of the graph need not agree with it; the instance tree keeps its shape all the same.
-/

namespace HardwareDesign

namespace InstanceTree

structure Hangs (t : InstanceTree) (i : InstanceId) (n : Node) (p : InstanceId) : Prop where
  before : p.index < i.index
  above : ∃ np c name, t.node p = .ok np ∧ np.kind.target = some n.insideOf ∧ n.root = np.root ∧
    np.children = some c ∧ n.name = some name ∧ c.find? name = some i
  alone : ∀ {j m}, t.node j = .ok m → m.parent = n.parent → m.name = n.name → j = i

variable {t : InstanceTree} {i : InstanceId} {n : Node}

lemma Shaped.node_cases (ht : t.Shaped) (hn : t.node i = .ok n) :
    (n.parent = none ∧ n.kind = .root n.insideOf ∧ n.root = i) ∨ ∃ p, n.parent = some p ∧ t.Hangs i n p := by
  obtain ⟨hgen, hat⟩ := node_eq.mp hn
  rcases ht.nodes hat with hroot | ⟨name, p, np, c, hc⟩
  · exact .inl ⟨hroot.parent, hroot.kind, hroot.root.trans (idAt_index hgen)⟩
  · have hfound : c.find? name = some i := idAt_index hgen ▸ hc.found
    refine .inr ⟨t.idAt p, hc.parent, hc.before, ?_, ?_⟩
    · exact ⟨np, c, name, node_idAt.mpr hc.above, hc.insideOf, hc.root, hc.children, hc.name, hfound⟩
    -- a second node below the same parent, under the same name, is what the parent has under that name
    · intro j m hm hparent hname
      obtain ⟨hgen', hat'⟩ := node_eq.mp hm
      rcases ht.nodes hat' with hroot | ⟨name', p', np', c', hc'⟩
      · simp [hroot.parent, hc.parent] at hparent
      · have hp : t.idAt p' = t.idAt p := by
          rw [hc.parent, hc'.parent] at hparent
          exact Option.some.inj hparent
        obtain rfl : p' = p := congrArg InstanceId.index hp
        obtain rfl := Option.some.inj (hc.above.symm.trans hc'.above)
        obtain rfl := Option.some.inj (hc.children.symm.trans hc'.children)
        obtain rfl : name' = name := by
          rw [hc.name, hc'.name] at hname
          exact Option.some.inj hname
        exact Option.some.inj ((idAt_index hgen' ▸ hc'.found).symm.trans hfound)

end InstanceTree

namespace Design

inductive Tending (s : Design) : Design → Prop
  | call (c : Call) : Tending s (s.after c)
  | allocate (d : DefId) : Tending s (endState (allocateSymbol d s))
  | install (i : Installer) (h : Handle) : Tending s (s.install i h)

/-- What ends a generation. Passes that have been run already do nothing. -/
inductive Renewal (s : Design) : Design → Prop
  | invalidate (held : List Handle) : Renewal s (s.invalidate held).2
  | passes {σ : Type} (passes : List (Pass σ)) (held : List Handle) (st : σ) : s.passed = false →
      Renewal s (s.runPasses passes held st).2.2

abbrev Tends : Design → Design → Prop := Relation.ReflTransGen Tending

abbrev Arrives : Design → Design → Prop := Relation.ReflTransGen fun s t => s.Tending t ∨ s.Renewal t

def Attainable (s : Design) : Prop := ∃ config source, (new config source).Arrives s

variable {s t u : Design} {d : DefId} {i j p : InstanceId} {n : Node} {name : String}

lemma Step.arrives (h : s.Step t) : s.Arrives t := by
  cases h with
  | operation o =>
    cases o with
    | call c => exact .single (.inl (.call c))
    | invalidate held => exact .single (.inr (.invalidate held))
  | passes passes held st =>
    cases hp : s.passed with
    | true => rw [runPasses_passed hp passes held st]
    | false => exact .single (.inr (.passes passes held st hp))

lemma Reaches.arrives (h : s.Reaches t) : s.Arrives t := by
  induction h with
  | refl => exact .refl
  | tail _ hstep ih => exact Relation.ReflTransGen.trans ih hstep.arrives

lemma Reachable.attainable (h : s.Reachable) : s.Attainable := by
  obtain ⟨config, source, hr⟩ := h
  exact ⟨config, source, Reaches.arrives hr⟩

section Trees

lemma Tending.planted (h : s.Tending t) (hs : s.Planted) : t.Planted ∧ s.tree.Grows t.tree := by
  cases h with
  | call c => exact (acts_after s c).planted hs
  | allocate d =>
    rw [allocateSymbol]
    cases s.resolveSymbol d with
    | some x => exact ⟨hs, .refl _⟩
    | none =>
      cases s.definition d with
      | error e => exact ⟨hs, .refl _⟩
      | ok definition => exact ⟨hs.congr rfl rfl, .refl _⟩
  | install i h => exact ⟨hs.congr rfl rfl, .refl _⟩

lemma Tends.planted (h : s.Tends t) (hs : s.Planted) : t.Planted ∧ s.tree.Grows t.tree := by
  induction h with
  | refl => exact ⟨hs, .refl _⟩
  | tail _ hstep ih =>
    obtain ⟨ht, hg⟩ := hstep.planted ih.1
    exact ⟨ht, ih.2.trans hg⟩

lemma Renewal.tree (h : s.Renewal t) : t.tree = s.tree.invalidate ∧ t.sites = {} := by
  cases h with
  | invalidate held =>
    obtain ⟨issues, hi⟩ := invalidate_eq s held
    rw [hi]
    exact ⟨rfl, rfl⟩
  | passes passes held st hp =>
    obtain ⟨issues, passed, hdropped⟩ := runPasses_dropped hp passes held st
    rw [hdropped]
    exact ⟨rfl, rfl⟩

lemma Renewal.planted (h : s.Renewal t) : t.Planted := by
  obtain ⟨htree, hsites⟩ := h.tree
  refine ⟨htree ▸ InstanceTree.planted_empty _, ?_⟩
  intro id sites hid
  rw [hsites] at hid
  cases hid

lemma Renewal.generation (h : s.Renewal t) : t.tree.generation = s.tree.generation + 1 := by
  rw [h.tree.1]
  rfl

lemma Arrives.planted (h : s.Arrives t) (hs : s.Planted) : t.Planted ∧ s.tree.generation ≤ t.tree.generation := by
  induction h with
  | refl => exact ⟨hs, Nat.le_refl _⟩
  | tail _ hstep ih =>
    rcases hstep with hstep | hstep
    · obtain ⟨ht, hg⟩ := hstep.planted ih.1
      exact ⟨ht, Nat.le_trans ih.2 (Nat.le_of_eq hg.generation.symm)⟩
    · exact ⟨hstep.planted, Nat.le_trans ih.2 (hstep.generation ▸ Nat.le_succ _)⟩

lemma Attainable.planted (h : s.Attainable) : s.Planted := by
  obtain ⟨config, source, hr⟩ := h
  exact (Arrives.planted hr (planted_new config source)).1

end Trees

section Lookups

lemma root_of_getInstance (hs : s.Planted) (h : getInstance d s = .ok i t) : t.tree.roots.find? d = some i := by
  cases hr : s.tree.roots.find? d with
  | some j =>
    rw [getInstance_of_root hr] at h
    cases h
    exact hr
  | none =>
    rw [getInstance, get_bind, hr] at h
    obtain ⟨x, s₁, hx, h⟩ := ok_of_bind h
    obtain ⟨rfl, -⟩ := Action.of_read (Action.of_guarded hx)
    obtain ⟨j, s₂, ha, h⟩ := ok_of_bind h
    cases Action.of_guarded ha
    obtain ⟨y, s₃, hrooted, h⟩ := ok_of_bind h
    cases h
    have hplanted : ({ s with tree := s.tree.addRoot d } : Design).Planted := ⟨hs.tree.addRoot hr, hs.sites⟩
    have hsilent : Silent { creates := True } { s with tree := s.tree.addRoot d } (rootOnce d) :=
      silent_rootOnce trivial d
    have hacts := hsilent.acts
    rw [hrooted] at hacts
    exact (hacts.planted hplanted).2.roots (Table.find?_insert_self _ _ _)

lemma node_of_children {c : Children} (hs : s.Planted) (h : children i s = .ok c t) :
    ∃ n, t.tree.node i = .ok n ∧ n.children = some c := by
  cases hn : s.tree.node i with
  | error e =>
    rw [children_error hn] at h
    cases h
  | ok n =>
    cases hc : n.children with
    | some c₀ =>
      rw [children_set hn hc] at h
      cases h
      exact ⟨n, hn, hc⟩
    | none =>
      have hnew : ∃ u, s.Acts {} [] u ∧ _ := children_new hn hc
      obtain ⟨u, hu, ⟨e, he⟩ | ⟨htree, kinds, hk, he⟩⟩ := hnew
      · cases he.symm.trans h
      · have hx := (hu.planted hs).1.extensible (htree ▸ hn) hc hk
        have htable := hx.table
        rw [hc] at htable
        cases he.symm.trans h
        exact ⟨_, hx.node_extend, congrArg some htable.symm⟩

lemma node_of_child (hs : s.Planted) (h : child p name s = .ok i t) :
    ∃ n c, t.tree.node p = .ok n ∧ n.children = some c ∧ c.find? name = some i := by
  obtain ⟨c, u, hc, h⟩ := ok_of_bind h
  obtain ⟨n, hn, hchildren⟩ := node_of_children hs hc
  cases hf : c.find? name with
  | some j =>
    rw [hf] at h
    cases h
    exact ⟨n, c, hn, hchildren, hf⟩
  | none =>
    rw [hf] at h
    obtain ⟨text, v, _, h⟩ := ok_of_bind h
    cases h

lemma child_grows {c : Children} (hg : s.tree.Grows t.tree) (hn : s.tree.node p = .ok n) (hc : n.children = some c)
    (hf : c.find? name = some i) : child p name t = .ok i t := by
  obtain ⟨_, hn', hext⟩ := hg.node hn
  obtain ⟨c', rfl, hkeep⟩ := hext hc
  exact child_set hn' rfl (hkeep hf)

lemma folded_of_found {path : List String} (h : s.tree.Found d path i) (hj : s.tree.roots.find? d = some j) :
    path.foldlM (fun k name => child k name) j s = .ok i s := by
  induction h with
  | root hi =>
    obtain rfl := Option.some.inj (hj.symm.trans hi)
    rfl
  | child _ hn hc hf ih =>
    rw [List.foldlM_append, bind_of_ok ih]
    exact bind_of_ok (child_set hn hc hf)

end Lookups

/-- Every operation on an instance refuses it as one of an old generation. A walk asks its visitor first. -/
structure Rejects (s : Design) (i : InstanceId) : Prop where
  node : s.node i = .error (.staleInstance i)
  path : s.tree.path i = .error (.staleInstance i)
  pathNames : s.tree.pathNames i = .error (.staleInstance i)
  describe : s.tree.describe i = .error (.staleInstance i)
  children : children i s = .error (.staleInstance i) s
  child : ∀ name, child i name s = .error (.staleInstance i) s
  record : getOrCreateRecord i s = .error (.staleInstance i) s
  place : ∀ l subPath, place i l subPath s = .error (.staleInstance i) s
  placeRegister : ∀ v, placeRegister i v s = .error (.staleInstance i) s
  locations : locations i s = .error (.staleInstance i) s
  addAttribute : ∀ name value subPath, addAttribute i name value subPath s = .error (.staleInstance i) s
  attributes : attributes i s = .error (.staleInstance i) s
  walk : ∀ {σ : Type} {visit : InstanceId → Walk σ Unit} {depth : Nat} {st st' : σ} {t : Design},
    visit i (s, st) = .ok () (t, st') → s.Arrives t →
      walk visit (depth + 1) i (s, st) = .error (.error (.staleInstance i)) (t, st')

lemma node_stale (hi : i.generation < s.tree.generation) : s.tree.node i = .error (.staleInstance i) := by
  rw [InstanceTree.node, if_neg (Nat.ne_of_lt hi)]

lemma rejects_of_generation (hs : s.Planted) (hi : i.generation < s.tree.generation) : s.Rejects i := by
  have hnode : s.tree.node i = .error (.staleInstance i) := node_stale hi
  have hpath : s.tree.path i = .error (.staleInstance i) := by
    rw [InstanceTree.path, InstanceTree.pathUpTo, hnode]
    rfl
  have hnames : s.tree.pathNames i = .error (.staleInstance i) := by
    rw [InstanceTree.pathNames, hpath]
    rfl
  have hchildren := children_error hnode
  have hrecord : getOrCreateRecord i s = .error (.staleInstance i) s := by
    rw [getOrCreateRecord, recordUpTo]
    exact bind_of_error (Action.read_error hnode)
  have hkind : ∀ allowed action, s.expectKind i allowed action = .error (.staleInstance i) := by
    intro allowed action
    rw [expectKind, Design.node, hnode]
    rfl
  have hpayloads : payloadsOf i s = .error (.staleInstance i) s := bind_of_error hrecord
  refine ⟨hnode, hpath, hnames, ?_, hchildren, ?_, hrecord, ?_, ?_, bind_of_error hpayloads, ?_,
    bind_of_error hpayloads, ?_⟩
  · rw [InstanceTree.describe, hnames]
    rfl
  · exact fun name => bind_of_error hchildren
  · exact fun l subPath => bind_of_error (Action.read_error (hkind _ _))
  · exact fun v => bind_of_error (Action.read_error (hkind _ _))
  · exact fun name value subPath => bind_of_error hrecord
  · intro σ visit depth st st' t hvisit ht
    have hlater := Nat.lt_of_lt_of_le hi (Arrives.planted ht hs).2
    have hend : onWalk (Design.children i) (t, st') = .error (.error (.staleInstance i)) (t, st') := by
      simp only [onWalk, children_error (node_stale hlater)]
    rw [Design.walk, bind_of_ok hvisit]
    exact bind_of_error hend

/-- In one generation an instance id stands for one place in the tree, found again by its path and by the lookup that
answered it. In all later generations it is refused. -/
theorem instances_identified (hs : s.Attainable) :
    (∀ {i n}, s.node i = .ok n →
      (n.parent = none ∧ n.kind = .root n.insideOf ∧ n.root = i) ∨ ∃ p, n.parent = some p ∧ s.tree.Hangs i n p) ∧
      (∀ {i n}, s.node i = .ok n → ∃ ids names, s.tree.path i = .ok ids ∧ s.tree.pathNames i = .ok names ∧
        names.foldlM (fun j name => child j name) n.root s = .ok i s) ∧
      (∀ {d i t u}, getInstance d s = .ok i t → t.Tends u → getInstance d u = .ok i u) ∧
      (∀ {p name i t u}, child p name s = .ok i t → t.Tends u → child p name u = .ok i u) ∧
      ∀ {i n t u v}, s.node i = .ok n → s.Arrives t → t.Renewal u → u.Arrives v → v.Rejects i := by
  have hplanted := hs.planted
  have hshaped := hplanted.tree.toShaped
  refine ⟨hshaped.node_cases, ?_, ?_, ?_, ?_⟩
  · intro i n hn
    obtain ⟨d, names, hi⟩ := hshaped.exists_found hn
    obtain ⟨ids, hids, _⟩ := hi.pathUpTo hshaped (Nat.lt_succ_self _)
    exact ⟨ids, names, hids, hi.pathNames hshaped, folded_of_found hi (hi.find?_root hshaped hn)⟩
  · intro d i t u h hu
    have ht : s.Acts { creates := True } [] _ := (silent_getInstance trivial d).acts
    rw [h] at ht
    exact getInstance_of_root ((hu.planted (ht.planted hplanted).1).2.roots (root_of_getInstance hplanted h))
  · intro p name i t u h hu
    have ht : s.Acts {} [] _ := (silent_child p name).acts
    rw [h] at ht
    obtain ⟨n, c, hn, hc, hf⟩ := node_of_child hplanted h
    exact child_grows (hu.planted (ht.planted hplanted).1).2 hn hc hf
  · intro i n t u v hn ht hu hv
    have hgen := (InstanceTree.node_eq.mp hn).1
    obtain ⟨_, hlt⟩ := Arrives.planted ht hplanted
    obtain ⟨hvp, hle⟩ := Arrives.planted hv hu.planted
    apply rejects_of_generation hvp
    have hnext := hu.generation
    omega

def reinstalled : Design := lateRegister.install ⟨⟨0⟩, "N"⟩ (lateRegister.graph.handle ⟨1⟩)

lemma attainable_reinstalled : reinstalled.Attainable := by
  obtain ⟨config, source, hr⟩ := reachable_lateRegister.attainable
  exact ⟨config, source, .tail hr (.inl (.install _ _))⟩

theorem instances_identified_reinstalled :
    reinstalled.resolveSymbol ⟨0⟩ = some "N" ∧
      (∃ n p, reinstalled.node ⟨1, 0⟩ = .ok n ∧ n.parent = some p ∧ reinstalled.tree.Hangs ⟨1, 0⟩ n p) ∧
      (reinstalled.invalidate []).2.Rejects ⟨1, 0⟩ := by
  obtain ⟨hplace, _, _, _, hstale⟩ := instances_identified attainable_reinstalled
  refine ⟨by decide, ?_, hstale (i := ⟨1, 0⟩) rfl .refl (.invalidate []) .refl⟩
  rcases hplace (i := ⟨1, 0⟩) rfl with ⟨hnone, _⟩ | ⟨p, hp, hhangs⟩
  · cases hnone
  · exact ⟨_, p, rfl, hp, hhangs⟩

end Design

end HardwareDesign
