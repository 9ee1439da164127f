import HardwareDesign.Proofs.Allocating

namespace HardwareDesign

namespace InstanceTree

structure Planted (t : InstanceTree) : Prop extends Shaped t where
  distinct : ∀ {k n c}, t.At k n → n.children = some c → c.keys.Nodup

variable {t t₀ : InstanceTree} {i : InstanceId} {n : Node} {d : DefId} {name : String} {kind : NodeKind}
  {kinds : List (String × NodeKind)}

lemma planted_empty (generation : Nat) : ({ generation } : InstanceTree).Planted where
  roots h := by cases h
  nodes h := by simp [At] at h
  children h := by simp [At] at h
  distinct h := by simp [At] at h

namespace Planted

lemma addRoot (ht : t.Planted) (hn : t.roots.find? d = none) : (t.addRoot d).Planted where
  toShaped := ht.toShaped.addRoot hn
  distinct := by
    intro k n c hk hc
    rcases at_addRoot.mp hk with hk | ⟨_, rfl⟩
    · exact ht.distinct hk hc
    · cases hc

lemma extend (ht : t.Planted) (h : t.Extensible i n d kinds) : (t.extend i n d kinds).Planted where
  toShaped := ht.toShaped.extend h
  distinct := by
    intro k m c hk hc
    rcases h.at_extend.mp hk with ⟨m₀, h₀, rfl⟩ | ⟨_, _, _, _, rfl⟩
    · by_cases hi : k = i.index
      · obtain rfl : t.extended n kinds = c := by simpa [hi] using hc
        exact h.nodup
      · exact ht.distinct h₀ ((if_neg hi).symm.trans hc)
    · cases hc

lemma attachTo (ht : t.Planted) (hg : t₀.Grows t) (hi : i ∈ t₀.materialized d) :
    (t.attachTo d name kind i).Planted ∧ t.Grows (t.attachTo d name kind i) := by
  obtain ⟨hgen, n, c₀, hn, hc₀, hd⟩ := mem_materialized.mp hi
  obtain ⟨_, hn', hext⟩ := hg.nodes hn
  obtain ⟨c, rfl, _⟩ := hext hc₀
  have hnode := node_eq.mpr ⟨hgen.trans hg.generation.symm, hn'⟩
  cases hm : c.contains name with
  | true =>
    rw [attachTo_eq_self hnode rfl hm]
    exact ⟨ht, .refl t⟩
  | false =>
    rw [attachTo_eq_extend hnode rfl hm]
    have hnames : (c.keys ++ [name]).Nodup :=
      List.concat_eq_append ▸ (ht.distinct hn' rfl).concat (Table.contains_eq_false.mp hm)
    have he : t.Extensible i { n with children := some c } d [(name, kind)] :=
      ⟨hgen.trans hg.generation.symm, hn', fun _ => hd, hnames⟩
    exact ⟨ht.extend he, he.grows⟩

lemma attachTo_foldl {todo : List InstanceId} (ht : t.Planted) (hg : t₀.Grows t)
    (hm : ∀ i ∈ todo, i ∈ t₀.materialized d) :
    (todo.foldl (InstanceTree.attachTo d name kind) t).Planted ∧
      t.Grows (todo.foldl (InstanceTree.attachTo d name kind) t) := by
  induction todo generalizing t with
  | nil => exact ⟨ht, .refl t⟩
  | cons i todo ih =>
    obtain ⟨ht', hg'⟩ : (t.attachTo d name kind i).Planted ∧ _ := ht.attachTo hg (hm i List.mem_cons_self)
    obtain ⟨hend, hgrows⟩ := ih ht' (hg.trans hg') fun j hj => hm j (List.mem_cons_of_mem _ hj)
    exact ⟨hend, hg'.trans hgrows⟩

lemma attach (ht : t.Planted) (d : DefId) (name : String) (kind : NodeKind) :
    (t.attach d name kind).Planted ∧ t.Grows (t.attach d name kind) :=
  ht.attachTo_foldl (.refl t) fun _ hi => hi

end Planted

end InstanceTree

lemma Graph.nodup_keys_sitesIn {g : Graph} {m : Handle} {sites : Sites} (h : g.sitesIn m = .ok sites) :
    sites.keys.Nodup := by
  rw [sitesIn] at h
  obtain ⟨payload, -, h⟩ := except_ok_of_bind h
  cases payload with
  | module x =>
    obtain ⟨named, -, h⟩ := except_ok_of_bind h
    obtain ⟨entries, -, h⟩ := except_ok_of_bind h
    cases h
    exact Table.nodup_keys_ofListFirst entries
  | _ =>
    cases h
    exact List.nodup_nil

namespace Design

structure Planted (s : Design) : Prop where
  tree : s.tree.Planted
  sites : ∀ {id sites}, s.sites.find? id = some sites → sites.keys.Nodup

variable {powers : Powers} {s t : Design} {i : InstanceId} {n : Node} {kinds : List (String × NodeKind)}
  {log : List Allocation}

lemma planted_new (config : Config) (source : Nat) : (new config source).Planted where
  tree := InstanceTree.planted_empty 0
  sites h := by cases h

lemma Planted.congr (hs : s.Planted) (ht : t.tree = s.tree) (hsites : t.sites = s.sites) : t.Planted where
  tree := ht ▸ hs.tree
  sites h := hs.sites (hsites ▸ h)

lemma Planted.extensible (hs : s.Planted) (hn : s.tree.node i = .ok n) (hc : n.children = none)
    (hk : s.Offers n kinds) : s.tree.Extensible i n (n.kind.target.getD n.insideOf) kinds := by
  obtain ⟨hgen, hn⟩ := InstanceTree.node_eq.mp hn
  rcases hk with rfl | ⟨htarget, id, sites, hsites, hkeys⟩
  · exact ⟨hgen, hn, fun hne => (hne rfl).elim, by simp [hc, Table.keys]⟩
  · obtain ⟨d, hd⟩ := Option.isSome_iff_exists.mp htarget
    refine ⟨hgen, hn, fun _ => by simp [hd], ?_⟩
    rw [hkeys]
    simpa [hc, Table.keys] using hs.sites hsites

lemma Acts.planted (h : s.Acts powers log t) (hs : s.Planted) : t.Planted ∧ s.tree.Grows t.tree := by
  induction h with
  | refl => exact ⟨hs, .refl _⟩
  | keep _ ho _ ih =>
    obtain ⟨ht, hg⟩ := ih
    exact ⟨ht.congr (tree_of_outline ho) (sites_of_outline ho), tree_of_outline ho ▸ hg⟩
  | work _ _ _ _ ih => exact ⟨ih.1.congr rfl rfl, ih.2⟩
  | scan _ ih => exact ⟨ih.1.congr rfl rfl, ih.2⟩
  | index _ hm ih =>
    refine ⟨⟨ih.1.tree, ?_⟩, ih.2⟩
    intro id sites hid
    rw [Table.find?_insert] at hid
    split at hid
    case isTrue =>
      obtain rfl := Option.some.inj hid
      exact Graph.nodup_keys_sitesIn hm
    case isFalse => exact ih.1.sites hid
  | forget _ _ ih =>
    refine ⟨⟨ih.1.tree, ?_⟩, ih.2⟩
    intro id sites hid
    rw [Table.find?_erase] at hid
    split at hid
    case isTrue => cases hid
    case isFalse => exact ih.1.sites hid
  | create _ _ _ _ _ ih => exact ⟨ih.1.congr rfl rfl, ih.2⟩
  | hierarchy _ _ _ ih => exact ⟨ih.1.congr rfl rfl, ih.2⟩
  | @build _ _ _ definition _ _ _ _ _ ih =>
    rw [built]
    cases definition.body.isExternal <;> exact ⟨ih.1.congr rfl rfl, ih.2⟩
  | root _ hn ih => exact ⟨⟨ih.1.tree.addRoot hn, ih.1.sites⟩, ih.2.trans (InstanceTree.addRoot_grows hn)⟩
  | expand _ hn hc hk ih =>
    have he := ih.1.extensible hn hc hk
    exact ⟨⟨ih.1.tree.extend he, ih.1.sites⟩, ih.2.trans he.grows⟩
  | attach d name kind _ ih =>
    obtain ⟨htree, hg⟩ := ih.1.tree.attach d name kind
    exact ⟨⟨htree, ih.1.sites⟩, ih.2.trans hg⟩
  | database _ _ _ ih => exact ⟨ih.1.congr rfl rfl, ih.2⟩
  | note _ _ _ _ _ ih => exact ⟨ih.1.congr rfl rfl, ih.2⟩

end Design

end HardwareDesign
