import HardwareDesign.Proofs.Navigating

namespace HardwareDesign

namespace InstanceTree

inductive Found (t : InstanceTree) (d : DefId) : List String → InstanceId → Prop
  | root {i : InstanceId} : t.roots.find? d = some i → Found t d [] i
  | child {path i n c name j} : Found t d path i → t.node i = .ok n → n.children = some c → c.find? name = some j →
      Found t d (path ++ [name]) j

namespace Found

variable {t t' : InstanceTree} {d e : DefId} {path : List String} {i : InstanceId}

lemma grows (hg : t.Grows t') (h : t.Found d path i) : t'.Found d path i := by
  induction h with
  | root hi => exact .root (hg.roots hi)
  | child _ hn hc hj ih =>
    obtain ⟨_, hn', hext⟩ := hg.node hn
    obtain ⟨c', rfl, hf⟩ := hext hc
    exact .child ih hn' rfl (hf hj)

lemma of_nil (h : t.Found d [] i) : t.roots.find? d = some i := by
  generalize hnil : [] = path at h
  cases h with
  | root hi => exact hi
  | child => simp at hnil

lemma of_concat {name : String} (h : t.Found d (path ++ [name]) i) :
    ∃ p n c, t.Found d path p ∧ t.node p = .ok n ∧ n.children = some c ∧ c.find? name = some i := by
  generalize hpath : path ++ [name] = whole at h
  cases h with
  | root => simp at hpath
  | child hp hn hc hi =>
    obtain ⟨rfl, hname⟩ := List.append_inj' hpath rfl
    obtain rfl := List.singleton_inj.mp hname
    exact ⟨_, _, _, hp, hn, hc, hi⟩

lemma same {j : InstanceId} (h : t.Found d path i) (h' : t.Found d path j) : i = j := by
  induction h generalizing j with
  | root hi => exact Option.some.inj (hi.symm.trans h'.of_nil)
  | child _ hn hc hf ih =>
    obtain ⟨p, _, _, hp, hn', hc', hf'⟩ := h'.of_concat
    obtain rfl := ih hp
    obtain rfl := Except.ok.inj (hn.symm.trans hn')
    obtain rfl := Option.some.inj (hc.symm.trans hc')
    exact Option.some.inj (hf.symm.trans hf')

variable (ht : t.Shaped)
include ht

lemma node (h : t.Found d path i) : ∃ n, t.node i = .ok n := by
  cases h with
  | root hi =>
    obtain ⟨n, hn, _⟩ := ht.node_of_root hi
    exact ⟨n, hn⟩
  | child _ hq hc hj =>
    obtain ⟨n, hn, _⟩ := ht.node_of_child hq hc hj
    exact ⟨n, hn⟩

lemma unique {path' : List String} (h : t.Found d path i) (h' : t.Found e path' i) : d = e ∧ path = path' := by
  induction h generalizing path' with
  | root hi =>
    obtain ⟨n, hn, hp, rfl⟩ := ht.node_of_root hi
    cases h' with
    | root hi' =>
      obtain ⟨m, hm, _, rfl⟩ := ht.node_of_root hi'
      obtain rfl := Except.ok.inj (hn.symm.trans hm)
      exact ⟨rfl, rfl⟩
    | child _ hq hc hj =>
      obtain ⟨m, hm, hp', _⟩ := ht.node_of_child hq hc hj
      obtain rfl := Except.ok.inj (hn.symm.trans hm)
      cases hp.symm.trans hp'
  | child _ hq hc hj ih =>
    obtain ⟨n, hn, hp, hname⟩ := ht.node_of_child hq hc hj
    cases h' with
    | root hi' =>
      obtain ⟨m, hm, hp', _⟩ := ht.node_of_root hi'
      obtain rfl := Except.ok.inj (hn.symm.trans hm)
      cases hp'.symm.trans hp
    | child h' hq' hc' hj' =>
      obtain ⟨m, hm, hp', hname'⟩ := ht.node_of_child hq' hc' hj'
      obtain rfl := Except.ok.inj (hn.symm.trans hm)
      obtain rfl := Option.some.inj (hp.symm.trans hp')
      obtain rfl := Option.some.inj (hname.symm.trans hname')
      obtain ⟨rfl, rfl⟩ := ih h'
      exact ⟨rfl, rfl⟩

lemma pathUpTo {fuel : Nat} (h : t.Found d path i) (hf : i.index < fuel) :
    ∃ ids, t.pathUpTo fuel i = .ok ids ∧ ids.mapM (fun j => return (← t.node j).name.getD "") = .ok path := by
  induction h generalizing fuel with
  | root hi =>
    obtain ⟨fuel, rfl⟩ := Nat.exists_eq_add_of_lt hf
    obtain ⟨n, hn, hp, _⟩ := ht.node_of_root hi
    refine ⟨[], ?_, rfl⟩
    simp only [InstanceTree.pathUpTo, hn, hp, bind, Except.bind, pure, Except.pure]
  | @child path i q c name j _ hq hc hj ih =>
    obtain ⟨fuel, rfl⟩ := Nat.exists_eq_add_of_lt hf
    obtain ⟨n, hn, hp, hname⟩ := ht.node_of_child hq hc hj
    have hlt := ht.parent_lt hn hp
    obtain ⟨ids, hids, hnames⟩ := ih (by omega : i.index < j.index + fuel)
    refine ⟨ids ++ [j], ?_, ?_⟩
    · simp only [InstanceTree.pathUpTo, hn, hp, hids, bind, Except.bind, pure, Except.pure]
    · rw [List.mapM_append, hnames]
      simp [hn, hname, bind, Except.bind, pure, Except.pure]

lemma pathNames (h : t.Found d path i) : t.pathNames i = .ok path := by
  obtain ⟨ids, hids, hnames⟩ := h.pathUpTo ht (Nat.lt_succ_self _)
  rw [InstanceTree.pathNames, InstanceTree.path, hids]
  exact hnames

lemma find?_root {n : Node} (h : t.Found d path i) (hn : t.node i = .ok n) : t.roots.find? d = some n.root := by
  induction h generalizing n with
  | root hi =>
    obtain ⟨m, hm, hp, _⟩ := ht.node_of_root hi
    obtain rfl := Except.ok.inj (hn.symm.trans hm)
    obtain ⟨hgen, hn⟩ := node_eq.mp hn
    rcases ht.nodes hn with hroot | ⟨_, _, _, _, hc⟩
    · rw [hi, hroot.root, idAt_index hgen]
    · simp [hc.parent] at hp
  | child _ hq hc hj ih =>
    obtain ⟨m, hm, hp, _⟩ := ht.node_of_child hq hc hj
    obtain rfl := Except.ok.inj (hn.symm.trans hm)
    rw [ih hq, ht.root_eq hn hp hq]

end Found

lemma Shaped.exists_found {t : InstanceTree} (ht : t.Shaped) {i : InstanceId} {n : Node} (hn : t.node i = .ok n) :
    ∃ d path, t.Found d path i := by
  induction hk : i.index using Nat.strongRecOn generalizing i n with
  | ind k ih =>
    obtain ⟨hgen, hat⟩ := node_eq.mp hn
    rcases ht.nodes hat with hroot | ⟨name, p, np, c, hc⟩
    · exact ⟨n.insideOf, [], .root (idAt_index hgen ▸ hroot.found)⟩
    · have habove := node_idAt.mpr hc.above
      obtain ⟨d, path, hp⟩ := ih p (hk ▸ hc.before) habove rfl
      exact ⟨d, path ++ [name], .child hp habove hc.children (idAt_index hgen ▸ hc.found)⟩

end InstanceTree

namespace Design

variable {resolving : Prop} {s : Design} {d : DefId} {path : List String} {i : InstanceId}

def descend (d : DefId) (path : List String) : GuardedAction InstanceId := do
  path.foldlM (fun i name => (child i name : GuardedAction InstanceId)) (← getInstance d)

lemma keeps_steps (hs : s.Coherent) {above : List String} (hi : s.tree.Found d above i) (path : List String) :
    Keeps resolving s (fun j t => t.tree.Found d (above ++ path) j)
      (path.foldlM (fun i name => (child i name : GuardedAction InstanceId)) i s) := by
  induction path generalizing s above i with
  | nil => exact .pure (by simpa using hi)
  | cons name path ih =>
    rw [List.foldlM_cons]
    apply (keeps_child hs i name).guarded.bind
    rintro j t hc ⟨n, c, hn, hchildren, hj⟩
    obtain ⟨ht, he⟩ := hc.coherent hs
    rw [List.append_cons]
    exact ih ht (.child (hi.grows he.tree) hn hchildren hj)

lemma keeps_descend (hs : s.Coherent) (d : DefId) (path : List String) :
    Keeps resolving s (fun i t => t.tree.Found d path i) (descend d path s) := by
  apply (keeps_getInstance hs d).bind
  intro i t hc hi
  exact keeps_steps (hc.coherent hs).1 (.root hi) path

lemma found_of_descend (hs : s.Coherent) {t : Design} (hi : descend d path s = .ok i t) :
    Changes False s t ∧ t.tree.Found d path i :=
  (keeps_descend hs d path).ended hi

end Design

end HardwareDesign
