import HardwareDesign.Proofs.Attaching
import HardwareDesign.Proofs.Creating

namespace HardwareDesign.Design

variable {s : Design} {d : DefId} {m : Handle} {name : String} {payload : Payload} {kind : NodeKind}

lemma Coherent.nodup_children (hs : s.Coherent) (hn : (s.siteTable d).contains name = false) {k : Nat} {n : Node}
    {c : Children} (hk : s.tree.At k n) (hc : n.children = some c) (hd : n.kind.target = some d) :
    (c.keys ++ [name]).Nodup := by
  have hkeys : c.keys = (s.siteTable d).keys := keys_of_siteChildren (hs.matched hk hc hd)
  rw [hkeys, ← List.concat_eq_append]
  exact (nodup_keys_siteTable s d).concat (Table.contains_eq_false.mp hn)

lemma moduleOf_filled (hs : s.Coherent) (hf : s.Filling d m) (e : DefId) :
    (s.filled m payload).moduleOf e = s.moduleOf e := by
  have hgraph : (s.filled m payload).graph = s.graph.created payload (some m.record) := rfl
  exact moduleOf_created hs.forest hf.accepts hgraph rfl (fun h => by cases h) e

lemma siteTable_filled (hs : s.Coherent) (hf : s.Filling d m) (hn : (s.siteTable d).contains name = false)
    (hp : payload.symbolName = some name) :
    ((s.filled m payload).siteTable d).entries =
      (s.siteTable d).entries ++ [(name, ⟨name, s.graph.handle s.graph.nextId, .ofPayload payload⟩)] := by
  have hgraph : (s.filled m payload).graph = s.graph.created payload (some m.record) := rfl
  obtain ⟨r, x, hr, hx⟩ := hf.module
  rw [siteTable_of_moduleOf hf.record] at hn ⊢
  rw [siteTable_of_moduleOf ((moduleOf_filled hs hf d).trans hf.record), hgraph,
    Graph.siteTable_created hs.forest hf.accepts hr hx]
  simp only [if_true, Graph.siteEntry, hp, Option.map_some, Table.addEntry]
  rw [Table.insertNew_of_not_contains _ hn, Table.entries_insert _ hn]

lemma siteTable_filled_of_ne (hs : s.Coherent) (hf : s.Filling d m) {e : DefId} (hne : e ≠ d) :
    (s.filled m payload).siteTable e = s.siteTable e := by
  have hgraph : (s.filled m payload).graph = s.graph.created payload (some m.record) := rfl
  apply siteTable_created_of_ne hs.forest hf.accepts hgraph (moduleOf_filled hs hf e)
  intro k r x hk _ _ hid
  exact (hne (moduleOf_injective hs.paired hk hf.record (Option.some.inj hid).symm)).elim

lemma siteTable_sited (e : DefId) :
    (s.sited d m name payload kind).siteTable e = (s.filled m payload).siteTable e :=
  siteTable_congr rfl rfl e

lemma attached_sited (hs : s.Coherent) (hn : (s.siteTable d).contains name = false) :
    s.tree.Attached name kind (s.tree.materialized d) (s.tree.attach d name kind) :=
  InstanceTree.attached hs.shaped (hs.nodup_children hn)

lemma Extends.sited (hs : s.Coherent) (hf : s.Filling d m) (hn : (s.siteTable d).contains name = false) :
    s.Extends (s.sited d m name payload kind) :=
  ⟨hs.forest.grows hf.accepts, (attached_sited hs hn).grows, fun h => h, fun h => h, fun h => h⟩

lemma matched_sited (hs : s.Coherent) (hf : s.Filling d m) (hn : (s.siteTable d).contains name = false)
    (hp : payload.symbolName = some name) (hkind : s.nodeKind (.ofPayload payload) = .ok kind) {k : Nat} {n : Node}
    {c : Children} {e : DefId} (hk : (s.sited d m name payload kind).tree.At k n) (hc : n.children = some c)
    (hd : n.kind.target = some e) :
    List.Forall₂ (s.sited d m name payload kind).SiteChild ((s.sited d m name payload kind).siteTable e).entries
      c.entries := by
  have he : s.Extends (s.sited d m name payload kind) := .sited hs hf hn
  rcases (attached_sited hs hn).nodes hk with ⟨_, _, hnone⟩ | ⟨n₀, h₀, hn₀, hout, hin⟩
  · simp [hnone] at hc
  have hd₀ : n₀.kind.target = some e := by
    rw [hn₀] at hd
    exact hd
  by_cases hm : s.tree.idAt k ∈ s.tree.materialized d
  · obtain ⟨_, n₁, _, h₁, _, hd₁⟩ := InstanceTree.mem_materialized.mp hm
    obtain rfl : n₀ = n₁ := Option.some.inj (h₀.symm.trans h₁)
    obtain rfl : e = d := Option.some.inj (hd₀.symm.trans hd₁)
    obtain ⟨c₀, j, l, hc₀, hc₁, hj, rfl⟩ := hin hm
    obtain rfl := Option.some.inj (hc.symm.trans hc₁)
    rw [siteTable_sited, siteTable_filled hs hf hn hp]
    apply List.rel_append ((hs.matched h₀ hc₀ hd₀).imp fun _ _ => he.siteChild)
    exact .cons ⟨rfl, l, hj, he.nodeKind hkind⟩ .nil
  · have hc₀ : n₀.children = some c := (hout hm).symm.trans hc
    have hne : e ≠ d := by
      rintro rfl
      exact hm (InstanceTree.mem_materialized.mpr ⟨rfl, n₀, c, h₀, hc₀, hd₀⟩)
    rw [siteTable_sited, siteTable_filled_of_ne hs hf hne]
    exact (hs.matched h₀ hc₀ hd₀).imp fun _ _ => he.siteChild

lemma Coherent.sited (hs : s.Coherent) (hf : s.Filling d m) (hn : (s.siteTable d).contains name = false)
    (hp : payload.symbolName = some name) (hb : payload.hasBody = false)
    (hkind : s.nodeKind (.ofPayload payload) = .ok kind) :
    (s.sited d m name payload kind).Coherent ∧ s.Extends (s.sited d m name payload kind) := by
  have ha : s.tree.Attached name kind (s.tree.materialized d) (s.tree.attach d name kind) := attached_sited hs hn
  have he : s.Extends (s.sited d m name payload kind) := .sited hs hf hn
  have hv := Views.filled hs hf hb
  refine ⟨⟨hs.forest.created hf.accepts, hs.paired, ⟨hv.known, hv.hierarchies, hv.sites, hv.nested⟩, ha.shaped,
    ?_, matched_sited hs hf hn hp hkind, hs.carryBacked he rfl⟩, he⟩
  intro k n e hk hd
  rcases ha.nodes hk with ⟨_, rfl, _⟩ | ⟨n₀, h₀, hn₀, _⟩
  · obtain ⟨x, hx⟩ := target_of_nodeKind hs.paired hkind hd
    exact ⟨x, he.symbols hx⟩
  · rw [hn₀] at hd
    exact hs.targets h₀ hd

end HardwareDesign.Design
