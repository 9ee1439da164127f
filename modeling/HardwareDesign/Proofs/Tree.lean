import HardwareDesign.InstanceTree
import HardwareDesign.Proofs.Table

/-!
The shape of the instance tree: a root is found under its definition, and every other node is the child that its
parent has under its name. Nodes only get children, and children tables only get longer.
-/

namespace HardwareDesign.InstanceTree

abbrev At (t : InstanceTree) (k : Nat) (n : Node) : Prop := t.nodes[k]? = some n

def idAt (t : InstanceTree) (k : Nat) : InstanceId := ⟨k, t.generation⟩

structure RootAt (t : InstanceTree) (k : Nat) (n : Node) : Prop where
  name : n.name = none
  parent : n.parent = none
  kind : n.kind = .root n.insideOf
  root : n.root = t.idAt k
  found : t.roots.find? n.insideOf = some (t.idAt k)

structure ChildAt (t : InstanceTree) (k : Nat) (n : Node) (site : String) (p : Nat) (np : Node) (c : Children) :
    Prop where
  name : n.name = some site
  parent : n.parent = some (t.idAt p)
  before : p < k
  above : t.At p np
  insideOf : np.kind.target = some n.insideOf
  root : n.root = np.root
  children : np.children = some c
  found : c.find? site = some (t.idAt k)

structure Shaped (t : InstanceTree) : Prop where
  roots : ∀ {d i}, t.roots.find? d = some i →
    i.generation = t.generation ∧ ∃ n, t.At i.index n ∧ n.parent = none ∧ n.insideOf = d
  nodes : ∀ {k n}, t.At k n → t.RootAt k n ∨ ∃ name p np c, t.ChildAt k n name p np c
  children : ∀ {k n c name j}, t.At k n → n.children = some c → c.find? name = some j →
    j.generation = t.generation ∧ ∃ m, t.At j.index m ∧ m.parent = some (t.idAt k) ∧ m.name = some name

structure Grows (t t' : InstanceTree) : Prop where
  generation : t'.generation = t.generation
  roots : ∀ {d i}, t.roots.find? d = some i → t'.roots.find? d = some i
  nodes : ∀ {k n}, t.At k n → ∃ c, t'.At k { n with children := c } ∧
    ∀ {c₀}, n.children = some c₀ → ∃ c₁, c = some c₁ ∧ ∀ {name j}, c₀.find? name = some j → c₁.find? name = some j

lemma Grows.refl (t : InstanceTree) : t.Grows t :=
  ⟨rfl, fun h => h, fun {_ n} h => ⟨n.children, h, fun {c₀} hc => ⟨c₀, hc, fun hf => hf⟩⟩⟩

lemma Grows.trans {t₁ t₂ t₃ : InstanceTree} (h : t₁.Grows t₂) (h' : t₂.Grows t₃) : t₁.Grows t₃ where
  generation := h'.generation.trans h.generation
  roots hd := h'.roots (h.roots hd)
  nodes := by
    intro k n hn
    obtain ⟨c, hc, hext⟩ := h.nodes hn
    obtain ⟨c', hc', hext'⟩ := h'.nodes hc
    refine ⟨c', hc', ?_⟩
    intro c₀ h₀
    obtain ⟨c₁, rfl, hf⟩ := hext h₀
    obtain ⟨c₂, hc₂, hf'⟩ := hext' rfl
    exact ⟨c₂, hc₂, fun hj => hf' (hf hj)⟩

lemma node_eq {t : InstanceTree} {i : InstanceId} {n : Node} :
    t.node i = .ok n ↔ i.generation = t.generation ∧ t.At i.index n := by
  unfold node
  by_cases hg : i.generation = t.generation
  · cases hn : t.nodes[i.index]? <;> simp [At, hg, hn]
  · simp [hg]

lemma node_idAt {t : InstanceTree} {k : Nat} {n : Node} : t.node (t.idAt k) = .ok n ↔ t.At k n := by
  simp [node_eq, idAt]

lemma Grows.node {t t' : InstanceTree} (h : t.Grows t') {i : InstanceId} {n : Node} (hn : t.node i = .ok n) :
    ∃ c, t'.node i = .ok { n with children := c } ∧ ∀ {c₀}, n.children = some c₀ →
      ∃ c₁, c = some c₁ ∧ ∀ {name j}, c₀.find? name = some j → c₁.find? name = some j := by
  obtain ⟨hgen, hn⟩ := node_eq.mp hn
  obtain ⟨c, hc, hext⟩ := h.nodes hn
  exact ⟨c, node_eq.mpr ⟨hgen.trans h.generation.symm, hc⟩, hext⟩

lemma idAt_index {t : InstanceTree} {i : InstanceId} (h : i.generation = t.generation) : t.idAt i.index = i := by
  obtain ⟨k, g⟩ := i
  exact congrArg _ h.symm

namespace Shaped

variable {t : InstanceTree} {i j p : InstanceId} {n : Node}

lemma node_of_root (ht : t.Shaped) {d : DefId} (hi : t.roots.find? d = some i) :
    ∃ n, t.node i = .ok n ∧ n.parent = none ∧ n.insideOf = d := by
  obtain ⟨hg, n, hn, hp⟩ := ht.roots hi
  exact ⟨n, node_eq.mpr ⟨hg, hn⟩, hp⟩

lemma node_of_child (ht : t.Shaped) {c : Children} {name : String} (hn : t.node i = .ok n) (hc : n.children = some c)
    (hj : c.find? name = some j) : ∃ m, t.node j = .ok m ∧ m.parent = some i ∧ m.name = some name := by
  obtain ⟨hgen, hn⟩ := node_eq.mp hn
  obtain ⟨hg, m, hm, hp, hname⟩ := ht.children hn hc hj
  rw [idAt_index hgen] at hp
  exact ⟨m, node_eq.mpr ⟨hg, hm⟩, hp, hname⟩

lemma parent_lt (ht : t.Shaped) (hn : t.node i = .ok n) (hp : n.parent = some p) : p.index < i.index := by
  rcases ht.nodes (node_eq.mp hn).2 with hroot | ⟨_, q, _, _, hc⟩
  · simp [hroot.parent] at hp
  · obtain rfl : p = t.idAt q := Option.some.inj (hp.symm.trans hc.parent)
    exact hc.before

lemma insideOf (ht : t.Shaped) {m : Node} (hn : t.node i = .ok n) (hp : n.parent = some p) (hm : t.node p = .ok m) :
    m.kind.target = some n.insideOf := by
  rcases ht.nodes (node_eq.mp hn).2 with hroot | ⟨_, q, _, _, hc⟩
  · simp [hroot.parent] at hp
  · obtain rfl : p = t.idAt q := Option.some.inj (hp.symm.trans hc.parent)
    obtain rfl := Except.ok.inj (hm.symm.trans (node_idAt.mpr hc.above))
    exact hc.insideOf

lemma root_eq (ht : t.Shaped) {m : Node} (hn : t.node i = .ok n) (hp : n.parent = some p) (hm : t.node p = .ok m) :
    n.root = m.root := by
  rcases ht.nodes (node_eq.mp hn).2 with hroot | ⟨_, q, _, _, hc⟩
  · simp [hroot.parent] at hp
  · obtain rfl : p = t.idAt q := Option.some.inj (hp.symm.trans hc.parent)
    obtain rfl := Except.ok.inj (hm.symm.trans (node_idAt.mpr hc.above))
    exact hc.root

end Shaped

section Roots

variable {t : InstanceTree} {d : DefId}

def rootNode (t : InstanceTree) (d : DefId) : Node := ⟨none, none, d, t.nextId, .root d, none⟩

lemma at_addRoot {k : Nat} {n : Node} :
    (t.addRoot d).At k n ↔ t.At k n ∨ (k = t.nodes.length ∧ n = t.rootNode d) := by
  simp only [At, addRoot, push, List.getElem?_append]
  by_cases hk : k < t.nodes.length
  · simp [hk, Nat.ne_of_lt hk]
  · have hn : t.nodes[k]? = none := List.getElem?_eq_none (Nat.le_of_not_lt hk)
    rw [if_neg hk, hn]
    by_cases he : k = t.nodes.length
    · simp [he, rootNode, eq_comm]
    · have hs : k - t.nodes.length ≠ 0 := by omega
      simp [he, hs]

lemma addRoot_grows (hn : t.roots.find? d = none) : t.Grows (t.addRoot d) where
  generation := rfl
  roots := by
    intro e i he
    have hne : d ≠ e := by
      rintro rfl
      simp [hn] at he
    exact (Table.find?_insert_of_ne _ _ hne).trans he
  nodes := fun {_ n} h => ⟨n.children, at_addRoot.mpr (.inl h), fun {c₀} hc => ⟨c₀, hc, fun hf => hf⟩⟩

lemma ChildAt.grows {t t' : InstanceTree} (hg : t.Grows t') {k p : Nat} {n n' np : Node} {name : String} {c : Children}
    (h : t.ChildAt k n name p np c) (hc : ∃ x, n' = { n with children := x }) :
    ∃ np' c', t'.ChildAt k n' name p np' c' := by
  obtain ⟨x, rfl⟩ := hc
  obtain ⟨cp, hp, hext⟩ := hg.nodes h.above
  obtain ⟨c', rfl, hf⟩ := hext h.children
  refine ⟨_, c', h.name, ?_, h.before, hp, h.insideOf, h.root, rfl, ?_⟩
  · exact h.parent.trans (by simp [idAt, hg.generation])
  · exact (hf h.found).trans (by simp [idAt, hg.generation])

lemma RootAt.grows {t t' : InstanceTree} (hg : t.Grows t') {k : Nat} {n n' : Node} (h : t.RootAt k n)
    (hc : ∃ x, n' = { n with children := x }) : t'.RootAt k n' := by
  obtain ⟨x, rfl⟩ := hc
  refine ⟨h.name, h.parent, h.kind, h.root.trans ?_, (hg.roots h.found).trans ?_⟩
  · simp [idAt, hg.generation]
  · simp [idAt, hg.generation]

lemma Shaped.addRoot (ht : t.Shaped) (hn : t.roots.find? d = none) : (t.addRoot d).Shaped where
  roots := by
    intro e i he
    have he' : (t.roots.insert d t.nextId).find? e = some i := he
    rw [Table.find?_insert] at he'
    split at he'
    case isTrue hde =>
      obtain rfl := Option.some.inj he'
      exact ⟨rfl, t.rootNode d, at_addRoot.mpr (.inr ⟨rfl, rfl⟩), rfl, hde⟩
    case isFalse =>
      obtain ⟨hgen, n, hnode, hp⟩ := ht.roots he'
      exact ⟨hgen, n, at_addRoot.mpr (.inl hnode), hp⟩
  nodes := by
    intro k n hk
    rcases at_addRoot.mp hk with hk | ⟨rfl, rfl⟩
    · rcases ht.nodes hk with hr | ⟨name, p, np, c, hc⟩
      · exact .inl (hr.grows (addRoot_grows hn) ⟨_, rfl⟩)
      · obtain ⟨np', c', hc'⟩ := hc.grows (addRoot_grows hn) ⟨n.children, rfl⟩
        exact .inr ⟨name, p, np', c', hc'⟩
    · exact .inl ⟨rfl, rfl, rfl, rfl, Table.find?_insert_self _ _ _⟩
  children := by
    intro k n c name j hk hc hf
    rcases at_addRoot.mp hk with hk | ⟨rfl, rfl⟩
    · obtain ⟨hgen, m, hm, hp⟩ := ht.children hk hc hf
      exact ⟨hgen, m, at_addRoot.mpr (.inl hm), hp⟩
    · cases hc

end Roots

section Extension

variable (parent root : InstanceId) (insideOf : DefId)

def childNode (e : String × NodeKind) : Node := ⟨some e.1, some parent, insideOf, root, e.2, none⟩

lemma addChildren_tree (kinds : List (String × NodeKind)) (c : Children) (t : InstanceTree) :
    (addChildren parent root insideOf kinds c t).2 =
      { t with nodes := t.nodes ++ kinds.map (childNode parent root insideOf) } := by
  induction kinds generalizing c t with
  | nil => simp [addChildren]
  | cons e kinds ih =>
    rw [addChildren, ih]
    simp [push, childNode]

lemma addChildren_entries (kinds : List (String × NodeKind)) (c : Children) (t : InstanceTree)
    (hn : (c.keys ++ kinds.map Prod.fst).Nodup) :
    (addChildren parent root insideOf kinds c t).1.entries =
      c.entries ++ (kinds.zipIdx t.nodes.length).map fun e => (e.1.1, t.idAt e.2) := by
  induction kinds generalizing c t with
  | nil => simp [addChildren]
  | cons e kinds ih =>
    have hnot : c.contains e.1 = false := Table.contains_eq_false_of_nodup hn List.mem_cons_self
    have hkeys := Table.keys_insert t.nextId hnot
    rw [addChildren, ih _ _ (by simpa [hkeys] using hn), Table.entries_insert _ hnot]
    simp [push, nextId, idAt]

end Extension

def extend (t : InstanceTree) (i : InstanceId) (n : Node) (d : DefId) (kinds : List (String × NodeKind)) :
    InstanceTree :=
  (addChildren i n.root d kinds (n.children.getD {}) t).2.setChildren i
    (addChildren i n.root d kinds (n.children.getD {}) t).1

structure Extensible (t : InstanceTree) (i : InstanceId) (n : Node) (d : DefId) (kinds : List (String × NodeKind)) :
    Prop where
  generation : i.generation = t.generation
  held : t.At i.index n
  target : kinds ≠ [] → n.kind.target = some d
  names : ((n.children.getD {}).keys ++ kinds.map Prod.fst).Nodup

section Extend

variable {t : InstanceTree} {i : InstanceId} {n : Node} {d : DefId} {kinds : List (String × NodeKind)}

def extended (t : InstanceTree) (n : Node) (kinds : List (String × NodeKind)) : Children :=
  ⟨(n.children.getD {}).entries ++ (kinds.zipIdx t.nodes.length).map fun e => (e.1.1, t.idAt e.2)⟩

lemma Extensible.table (h : t.Extensible i n d kinds) :
    (addChildren i n.root d kinds (n.children.getD {}) t).1 = t.extended n kinds :=
  congrArg Table.mk (addChildren_entries i n.root d kinds (n.children.getD {}) t h.names)

lemma keys_extended : (t.extended n kinds).keys = (n.children.getD {}).keys ++ kinds.map Prod.fst := by
  simp [Table.keys, extended, List.map_map, Function.comp_def]
  conv_rhs => rw [← List.zipIdx_map_fst t.nodes.length kinds, List.map_map]
  rfl

lemma Extensible.nodup (h : t.Extensible i n d kinds) : (t.extended n kinds).keys.Nodup := keys_extended ▸ h.names

lemma mem_extended {name : String} {j : InstanceId} :
    (name, j) ∈ (t.extended n kinds).entries ↔ (name, j) ∈ (n.children.getD {}).entries ∨
      ∃ k kind, kinds[k]? = some (name, kind) ∧ j = t.idAt (t.nodes.length + k) := by
  simp only [extended, List.mem_append, List.mem_map]
  refine or_congr_right ⟨?_, ?_⟩
  · rintro ⟨⟨⟨name', kind⟩, k⟩, hm, he⟩
    obtain ⟨hle, hk⟩ := List.mk_mem_zipIdx_iff_le_and_getElem?_sub.mp hm
    obtain ⟨rfl, rfl⟩ := Prod.mk.inj he
    exact ⟨k - t.nodes.length, kind, hk, by rw [Nat.add_sub_cancel' hle]⟩
  · rintro ⟨k, kind, hk, rfl⟩
    refine ⟨((name, kind), t.nodes.length + k), ?_, rfl⟩
    exact List.mk_mem_zipIdx_iff_le_and_getElem?_sub.mpr ⟨Nat.le_add_right _ _, by simpa using hk⟩

lemma Extensible.at_extend (h : t.Extensible i n d kinds) {k : Nat} {m : Node} :
    (t.extend i n d kinds).At k m ↔
      (∃ m₀, t.At k m₀ ∧ m = { m₀ with children := if k = i.index then some (t.extended n kinds) else m₀.children }) ∨
      ∃ j e, kinds[j]? = some e ∧ k = t.nodes.length + j ∧ m = childNode i n.root d e := by
  have hlt : i.index < t.nodes.length := (List.getElem?_eq_some_iff.mp h.held).1
  have hnodes : (t.extend i n d kinds).nodes = (t.nodes ++ kinds.map (childNode i n.root d)).modify i.index
      fun m => { m with children := some (t.extended n kinds) } := by
    rw [extend, setChildren, h.table, addChildren_tree]
  rw [At, hnodes, List.getElem?_modify, List.getElem?_append]
  by_cases hk : k < t.nodes.length
  · have hno : ¬ ∃ j e, kinds[j]? = some e ∧ k = t.nodes.length + j ∧ m = childNode i n.root d e := by
      rintro ⟨j, e, _, rfl, _⟩
      omega
    rw [if_pos hk, or_iff_left hno, Option.map_eq_map, Option.map_eq_some_iff]
    refine exists_congr fun m₀ => and_congr_right fun _ => ?_
    by_cases hi : k = i.index
    · simp [hi, eq_comm]
    · simp [hi, Ne.symm hi, eq_comm]
  · have hn : t.nodes[k]? = none := List.getElem?_eq_none (Nat.le_of_not_lt hk)
    have hi : i.index ≠ k := by omega
    simp only [hk, if_false, hi, id_map', List.getElem?_map, Option.map_eq_some_iff, At, hn, reduceCtorEq, false_and,
      exists_false, false_or]
    constructor
    · rintro ⟨e, he, rfl⟩
      exact ⟨_, e, he, by omega, rfl⟩
    · rintro ⟨j, e, he, rfl, rfl⟩
      exact ⟨e, by simpa using he, rfl⟩

lemma Extensible.grows (h : t.Extensible i n d kinds) : t.Grows (t.extend i n d kinds) where
  generation := by
    rw [extend, setChildren, addChildren_tree]
  roots := by
    intro e j he
    rw [extend, setChildren, addChildren_tree]
    exact he
  nodes := by
    intro k m hm
    refine ⟨_, h.at_extend.mpr (.inl ⟨m, hm, rfl⟩), ?_⟩
    intro c₀ hc
    by_cases hk : k = i.index
    · subst hk
      obtain rfl : m = n := Option.some.inj (hm.symm.trans h.held)
      refine ⟨t.extended m kinds, if_pos rfl, ?_⟩
      intro name j hf
      refine Table.find?_of_mem h.nodup (mem_extended.mpr (.inl ?_))
      rw [hc]
      exact Table.mem_of_find? hf
    · exact ⟨c₀, (if_neg hk).trans hc, fun hf => hf⟩

lemma Extensible.node_extend (h : t.Extensible i n d kinds) :
    (t.extend i n d kinds).node i = .ok { n with children := some (t.extended n kinds) } := by
  refine node_eq.mpr ⟨h.generation.trans h.grows.generation.symm, h.at_extend.mpr (.inl ⟨n, h.held, ?_⟩)⟩
  simp

lemma extend_roots : (t.extend i n d kinds).roots = t.roots := by
  rw [extend, setChildren, addChildren_tree]

lemma Extensible.childAt_extend (h : t.Extensible i n d kinds) {j : Nat} {name : String} {kind : NodeKind}
    (hj : kinds[j]? = some (name, kind)) :
    (t.extend i n d kinds).ChildAt (t.nodes.length + j) (childNode i n.root d (name, kind)) name i.index
      { n with children := some (t.extended n kinds) } (t.extended n kinds) := by
  have hlt : i.index < t.nodes.length := (List.getElem?_eq_some_iff.mp h.held).1
  have hne : kinds ≠ [] := by
    rintro rfl
    cases hj
  refine ⟨rfl, ?_, by omega, h.at_extend.mpr (.inl ⟨n, h.held, by simp⟩), h.target hne, rfl, rfl, ?_⟩
  · simp [childNode, idAt, h.grows.generation, ← h.generation]
  · apply Table.find?_of_mem h.nodup
    apply mem_extended.mpr
    exact .inr ⟨j, kind, hj, by simp [idAt, h.grows.generation]⟩

lemma Extensible.find?_extended (h : t.Extensible i n d kinds) {name : String} {j : InstanceId}
    (hf : (t.extended n kinds).find? name = some j) :
    (∃ c, n.children = some c ∧ c.find? name = some j) ∨
      ∃ k kind, kinds[k]? = some (name, kind) ∧ j = t.idAt (t.nodes.length + k) := by
  rcases mem_extended.mp (Table.mem_of_find? hf) with hm | hnew
  · cases hc : n.children with
    | none => simp [hc] at hm
    | some c =>
      have hnodup := (List.nodup_append.mp h.names).1
      rw [hc] at hm hnodup
      exact .inl ⟨c, rfl, Table.find?_of_mem hnodup hm⟩
  · exact .inr hnew

lemma Shaped.extend (ht : t.Shaped) (h : t.Extensible i n d kinds) : (t.extend i n d kinds).Shaped where
  roots := by
    intro e j he
    rw [extend_roots] at he
    obtain ⟨hgen, m, hm, hp⟩ := ht.roots he
    exact ⟨hgen.trans h.grows.generation.symm, _, h.at_extend.mpr (.inl ⟨m, hm, rfl⟩), hp⟩
  nodes := by
    intro k m hk
    rcases h.at_extend.mp hk with ⟨m₀, h₀, rfl⟩ | ⟨j, ⟨name, kind⟩, hj, rfl, rfl⟩
    · rcases ht.nodes h₀ with hr | ⟨name, p, np, c, hc⟩
      · exact .inl (hr.grows h.grows ⟨_, rfl⟩)
      · obtain ⟨np', c', hc'⟩ := hc.grows h.grows ⟨_, rfl⟩
        exact .inr ⟨name, p, np', c', hc'⟩
    · exact .inr ⟨name, i.index, _, _, h.childAt_extend hj⟩
  children := by
    intro k m c name j hk hc hf
    have hid : (t.extend i n d kinds).idAt k = t.idAt k := by simp [idAt, h.grows.generation]
    rw [h.grows.generation, hid]
    rcases h.at_extend.mp hk with ⟨m₀, h₀, rfl⟩ | ⟨_, e, _, _, rfl⟩
    · have hold : ∀ {c₀}, m₀.children = some c₀ → c₀.find? name = some j → j.generation = t.generation ∧
          ∃ m, (t.extend i n d kinds).At j.index m ∧ m.parent = some (t.idAt k) ∧ m.name = some name := by
        intro c₀ hc₀ hf₀
        obtain ⟨hgen, x, hx, hp⟩ := ht.children h₀ hc₀ hf₀
        exact ⟨hgen, _, h.at_extend.mpr (.inl ⟨x, hx, rfl⟩), hp⟩
      by_cases hi : k = i.index
      · subst hi
        obtain rfl : m₀ = n := Option.some.inj (h₀.symm.trans h.held)
        obtain rfl : t.extended m₀ kinds = c := by simpa using hc
        rcases h.find?_extended hf with ⟨c₀, hc₀, hf₀⟩ | ⟨x, kind, hx, rfl⟩
        · exact hold hc₀ hf₀
        · refine ⟨rfl, _, h.at_extend.mpr (.inr ⟨x, _, hx, rfl, rfl⟩), ?_, rfl⟩
          exact congrArg some (idAt_index h.generation).symm
      · exact hold ((if_neg hi).symm.trans hc) hf
    · cases hc

end Extend

end HardwareDesign.InstanceTree
