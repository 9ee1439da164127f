import HardwareDesign.Proofs.Tree

namespace HardwareDesign.InstanceTree

variable {t t₀ : InstanceTree} {d : DefId} {name : String} {kind : NodeKind}

lemma mem_materialized {i : InstanceId} :
    i ∈ t.materialized d ↔
      i.generation = t.generation ∧ ∃ n c, t.At i.index n ∧ n.children = some c ∧ n.kind.target = some d := by
  simp only [materialized, List.mem_map, List.mem_filter]
  constructor
  · rintro ⟨⟨n, k⟩, ⟨hm, hc⟩, rfl⟩
    obtain ⟨hc, hd⟩ : n.children.isSome = true ∧ n.kind.target = some d := by simpa using hc
    obtain ⟨c, hc⟩ := Option.isSome_iff_exists.mp hc
    exact ⟨rfl, n, c, List.mk_mem_zipIdx_iff_getElem?.mp hm, hc, hd⟩
  · rintro ⟨hg, n, c, hn, hc, hd⟩
    refine ⟨(n, i.index), ⟨List.mk_mem_zipIdx_iff_getElem?.mpr hn, by simp [hc, hd]⟩, ?_⟩
    exact idAt_index hg

lemma Grows.length_le (h : t₀.Grows t) : t₀.nodes.length ≤ t.nodes.length := by
  by_contra hlt
  have hn : t₀.At t.nodes.length _ := List.getElem?_eq_getElem (Nat.lt_of_not_le hlt)
  obtain ⟨c, hc, _⟩ := h.nodes hn
  exact Nat.lt_irrefl _ (List.getElem?_eq_some_iff.mp hc).1

def withChild (c : Children) (name : String) (j : InstanceId) : Children := ⟨c.entries ++ [(name, j)]⟩

lemma contains_withChild (c : Children) (name : String) (j : InstanceId) :
    (withChild c name j).contains name = true := by
  rw [Table.contains_iff]
  simp [withChild, Table.keys]

structure Attached (t₀ : InstanceTree) (name : String) (kind : NodeKind) (reached : List InstanceId)
    (t : InstanceTree) : Prop where
  grows : t₀.Grows t
  shaped : t.Shaped
  nodes : ∀ {k n}, t.At k n →
    (t₀.nodes.length ≤ k ∧ n.kind = kind ∧ n.children = none) ∨
    ∃ n₀, t₀.At k n₀ ∧ n = { n₀ with children := n.children } ∧
      (t₀.idAt k ∉ reached → n.children = n₀.children) ∧
      (t₀.idAt k ∈ reached → ∃ c j m, n₀.children = some c ∧ n.children = some (withChild c name j) ∧
        t.node j = .ok m ∧ m.kind = kind)

lemma attached_nil (h : t₀.Shaped) : Attached t₀ name kind [] t₀ :=
  ⟨.refl _, h, fun {_ n} hn => .inr ⟨n, hn, rfl, fun _ => rfl, fun hm => by cases hm⟩⟩

lemma Attached.old {reached : List InstanceId} (h : Attached t₀ name kind reached t) {k : Nat} {n₀ : Node}
    (hn : t₀.At k n₀) :
    ∃ n, t.At k n ∧ n = { n₀ with children := n.children } ∧ (t₀.idAt k ∉ reached → n.children = n₀.children) ∧
      (t₀.idAt k ∈ reached → ∃ c j m, n₀.children = some c ∧ n.children = some (withChild c name j) ∧
        t.node j = .ok m ∧ m.kind = kind) := by
  obtain ⟨c, hc, _⟩ := h.grows.nodes hn
  rcases h.nodes hc with ⟨hle, _⟩ | ⟨n₁, h₁, he, hout, hin⟩
  · exact absurd (List.getElem?_eq_some_iff.mp hn).1 (Nat.not_lt.mpr hle)
  · obtain rfl : n₀ = n₁ := Option.some.inj (hn.symm.trans h₁)
    exact ⟨_, hc, he, hout, hin⟩

lemma attachTo_eq_self {i : InstanceId} {n : Node} {c : Children} (hn : t.node i = .ok n) (hc : n.children = some c)
    (hm : c.contains name = true) : attachTo d name kind t i = t := by
  obtain ⟨_, _, _, _, _, _⟩ := n
  subst hc
  simp [attachTo, hn, hm]

lemma attachTo_eq_extend {i : InstanceId} {n : Node} {c : Children} (hn : t.node i = .ok n) (hc : n.children = some c)
    (hm : c.contains name = false) : attachTo d name kind t i = t.extend i n d [(name, kind)] := by
  obtain ⟨_, _, _, _, _, _⟩ := n
  subst hc
  simp [attachTo, hn, hm, extend, addChildren]

section Attach

variable {reached : List InstanceId} {i : InstanceId} {n n₀ : Node} {c₀ : Children}

lemma Attached.again (h : Attached t₀ name kind reached t) (hr : i ∈ reached) :
    Attached t₀ name kind (reached ++ [i]) t := by
  have hsame : ∀ {x}, x ∈ reached ++ [i] ↔ x ∈ reached := by
    intro x
    rw [List.mem_append, List.mem_singleton]
    exact ⟨fun hx => hx.elim id fun hx => hx ▸ hr, .inl⟩
  refine ⟨h.grows, h.shaped, fun hm => ?_⟩
  simpa only [hsame] using h.nodes hm

lemma Extensible.gains (he : t.Extensible i n d [(name, kind)]) (hc : n.children = some c₀) {m : Node}
    (hm : (t.extend i n d [(name, kind)]).At i.index m) :
    ∃ j k, m.children = some (withChild c₀ name j) ∧ (t.extend i n d [(name, kind)]).node j = .ok k ∧
      k.kind = kind := by
  have hnext : (t.extend i n d [(name, kind)]).node (t.idAt t.nodes.length) = .ok (childNode i n.root d (name, kind)) :=
    node_eq.mpr ⟨he.grows.generation.symm, he.at_extend.mpr (.inr ⟨0, _, rfl, rfl, rfl⟩)⟩
  obtain rfl := Option.some.inj (hm.symm.trans (node_eq.mp he.node_extend).2)
  refine ⟨t.idAt t.nodes.length, _, ?_, hnext, rfl⟩
  simp [extended, withChild, hc]

lemma Extensible.node_grows (he : t.Extensible i n d [(name, kind)]) {j : InstanceId} {m : Node}
    (hm : t.node j = .ok m) :
    ∃ k, (t.extend i n d [(name, kind)]).node j = .ok k ∧ k.kind = m.kind := by
  obtain ⟨hg, hm⟩ := node_eq.mp hm
  exact ⟨_, node_eq.mpr ⟨hg.trans he.grows.generation.symm, he.at_extend.mpr (.inl ⟨m, hm, rfl⟩)⟩, rfl⟩

lemma Attached.extend (h : Attached t₀ name kind reached t) (hg : i.generation = t₀.generation)
    (hn₀ : t₀.At i.index n₀) (hc₀ : n₀.children = some c₀) (hc : n.children = some c₀)
    (he : t.Extensible i n d [(name, kind)]) :
    Attached t₀ name kind (reached ++ [i]) (t.extend i n d [(name, kind)]) := by
  refine ⟨h.grows.trans he.grows, h.shaped.extend he, ?_⟩
  intro k m hk
  rcases he.at_extend.mp hk with ⟨m₀, hm₀, rfl⟩ | ⟨j, e, hj, rfl, rfl⟩
  · rcases h.nodes hm₀ with ⟨hle, hkind, hnone⟩ | ⟨n₁, hn₁, hsame, hout, hin⟩
    · have hlt : i.index < t₀.nodes.length := (List.getElem?_eq_some_iff.mp hn₀).1
      have hne : k ≠ i.index := by omega
      exact .inl ⟨hle, hkind, (if_neg hne).trans hnone⟩
    · refine .inr ⟨n₁, hn₁, by rw [hsame], ?_, ?_⟩
      · intro hx
        rw [List.mem_append, List.mem_singleton, not_or] at hx
        have hne : k ≠ i.index := by
          rintro rfl
          exact hx.2 (idAt_index hg)
        exact (if_neg hne).trans (hout hx.1)
      · intro hx
        by_cases hi : k = i.index
        · subst hi
          obtain rfl : n₁ = n₀ := Option.some.inj (hn₁.symm.trans hn₀)
          obtain ⟨j, l, hchildren, hj⟩ := he.gains hc hk
          exact ⟨c₀, j, l, hc₀, hchildren, hj⟩
        · have hx : t₀.idAt k ∈ reached := by
            rcases List.mem_append.mp hx with hx | hx
            · exact hx
            · exact absurd (congrArg InstanceId.index (List.mem_singleton.mp hx)) hi
          obtain ⟨c, j, mj, hc₁, hcm, hj, hkind⟩ := hin hx
          obtain ⟨l, hl, hsame⟩ := he.node_grows hj
          exact ⟨c, j, l, hc₁, (if_neg hi).trans hcm, hl, hsame.trans hkind⟩
  · obtain ⟨rfl, rfl⟩ : j = 0 ∧ e = (name, kind) := by
      cases j with
      | zero => simpa using hj.symm
      | succ j => simp at hj
    exact .inl ⟨h.grows.length_le, rfl, rfl⟩

lemma Attached.attachTo (h : Attached t₀ name kind reached t) (hi : i ∈ t₀.materialized d)
    (hfresh : ∀ {n c}, t₀.At i.index n → n.children = some c → (c.keys ++ [name]).Nodup) :
    Attached t₀ name kind (reached ++ [i]) (t.attachTo d name kind i) := by
  obtain ⟨hg, n₀, c₀, hn₀, hc₀, hd⟩ := mem_materialized.mp hi
  obtain ⟨n, hn, hkeep, hout, hin⟩ := h.old hn₀
  rw [idAt_index hg] at hout hin
  have hgen := hg.trans h.grows.generation.symm
  have hnode : t.node i = .ok n := node_eq.mpr ⟨hgen, hn⟩
  by_cases hr : i ∈ reached
  · obtain ⟨c, j, m, _, hc, _⟩ := hin hr
    rw [attachTo_eq_self hnode hc (contains_withChild c name j)]
    exact h.again hr
  · have hc : n.children = some c₀ := (hout hr).trans hc₀
    have hnodup := hfresh hn₀ hc₀
    have hnew : c₀.contains name = false := Table.contains_eq_false_of_nodup hnodup List.mem_cons_self
    have hd : n.kind.target = some d := by
      rw [hkeep]
      exact hd
    have he : t.Extensible i n d [(name, kind)] := ⟨hgen, hn, fun _ => hd, by simpa [hc] using hnodup⟩
    rw [attachTo_eq_extend hnode hc hnew]
    exact h.extend hg hn₀ hc₀ hc he

end Attach

lemma attached_foldl {reached todo : List InstanceId} (h : Attached t₀ name kind reached t)
    (hm : ∀ i ∈ todo, i ∈ t₀.materialized d)
    (hfresh : ∀ {k n c}, t₀.At k n → n.children = some c → n.kind.target = some d → (c.keys ++ [name]).Nodup) :
    Attached t₀ name kind (reached ++ todo) (todo.foldl (InstanceTree.attachTo d name kind) t) := by
  induction todo generalizing reached t with
  | nil => simpa using h
  | cons i todo ih =>
    have hi := hm i List.mem_cons_self
    have hstep := h.attachTo hi fun hn hc => by
      obtain ⟨_, n₁, _, hn₁, _, hd⟩ := mem_materialized.mp hi
      obtain rfl := Option.some.inj (hn.symm.trans hn₁)
      exact hfresh hn hc hd
    rw [List.foldl_cons, List.append_cons]
    exact ih hstep fun j hj => hm j (List.mem_cons_of_mem _ hj)

lemma attached (ht : t.Shaped)
    (hfresh : ∀ {k n c}, t.At k n → n.children = some c → n.kind.target = some d → (c.keys ++ [name]).Nodup) :
    Attached t name kind (t.materialized d) (t.attach d name kind) :=
  attached_foldl (attached_nil ht) (fun _ hi => hi) hfresh

end HardwareDesign.InstanceTree
