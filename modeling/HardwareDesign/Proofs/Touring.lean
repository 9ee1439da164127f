import HardwareDesign.Proofs.Identity
import HardwareDesign.Proofs.Resting
import HardwareDesign.Proofs.Unfolding

/-!
Tours through the instance tree, which has its children made on the way. Where the static hierarchy ends, a tour does,
and it comes to what the static hierarchy has, whether the tree has had it before or not.
-/

namespace HardwareDesign

namespace InstanceTree

variable {t t' : InstanceTree} {i p : InstanceId}

def Parent (t : InstanceTree) (p i : InstanceId) : Prop := ∃ n, t.node i = .ok n ∧ n.parent = some p

lemma Grows.parent (hg : t.Grows t') (h : t.Parent p i) : t'.Parent p i := by
  obtain ⟨n, hn, hp⟩ := h
  obtain ⟨_, hn', _⟩ := hg.node hn
  exact ⟨_, hn', hp⟩

end InstanceTree

namespace Design

open Relation

/-- Some instances and all that is below them, each with the design as it is when a walk comes there. -/
inductive Tours : Design → List InstanceId → List (InstanceId × Design) → Design → Prop
  | done {s} : Tours s [] [] s
  | next {s i is c t inner u rest v} : children i s = .ok c t → Tours t c.values inner u → Tours u is rest v →
      Tours s (i :: is) ((i, s) :: inner ++ rest) v

variable {s t u v w : Design} {d : DefId} {i j p : InstanceId} {is : List InstanceId}
  {stops : List (InstanceId × Design)} {n : Node} {c : Children}

structure Expands (s t : Design) : Prop where
  coherent : t.Coherent
  graph : t.graph = s.graph
  registry : t.registry = s.registry
  keeps : s.Extends t

namespace Expands

lemma refl (hs : s.Coherent) : s.Expands s := ⟨hs, rfl, rfl, .refl s⟩

lemma trans (h : s.Expands t) (h' : t.Expands u) : s.Expands u :=
  ⟨h'.coherent, h'.graph.trans h.graph, h'.registry.trans h.registry, h.keeps.trans h'.keeps⟩

lemma tree (h : s.Expands t) : s.tree.Grows t.tree := h.keeps.tree

lemma sitesBelow (hs : s.Coherent) (h : s.Expands t) (kind : NodeKind) : t.sitesBelow kind = s.sitesBelow kind := by
  cases hd : kind.target with
  | none => rw [sitesBelow_of_none hd, sitesBelow_of_none hd]
  | some d =>
    rw [sitesBelow_of_target hs hd, sitesBelow_of_target h.coherent hd, siteTable_congr h.graph h.registry]

end Expands

section Children

lemma Coherent.siteChildren (hs : s.Coherent) (hn : s.tree.node i = .ok n) (hc : n.children = some c) :
    List.Forall₂ s.SiteChild (s.sitesBelow n.kind) c.entries := by
  cases hd : n.kind.target with
  | some d =>
    rw [sitesBelow_of_target hs hd]
    exact hs.matched (InstanceTree.node_eq.mp hn).2 hc hd
  | none =>
    rw [sitesBelow_of_none hd]
    suffices hnil : c.entries = [] by
      rw [hnil]
      exact .nil
    refine List.eq_nil_iff_forall_not_mem.mpr fun e he => ?_
    obtain ⟨j, hj⟩ := Table.exists_of_contains (Table.contains_iff.mpr (List.mem_map_of_mem (f := Prod.fst) he))
    obtain ⟨m, hm, hp, _⟩ := hs.shaped.node_of_child hn hc hj
    have htarget := hs.shaped.insideOf hm hp hn
    cases hd.symm.trans htarget

lemma Coherent.keys_children (hs : s.Coherent) (hn : s.tree.node i = .ok n) (hc : n.children = some c) :
    c.keys = (s.sitesBelow n.kind).map Prod.fst ∧ c.keys.Nodup := by
  have hkeys : c.keys = _ := keys_of_siteChildren (hs.siteChildren hn hc)
  exact ⟨hkeys, hkeys ▸ nodup_sitesBelow hs n.kind⟩

lemma Coherent.parent_of_values (hs : s.Coherent) (hn : s.tree.node i = .ok n) (hc : n.children = some c)
    (hj : j ∈ c.values) : s.tree.Parent i j := by
  obtain ⟨name, hf⟩ := Table.exists_find?_of_mem_values (hs.keys_children hn hc).2 hj
  obtain ⟨m, hm, hp, _⟩ := hs.shaped.node_of_child hn hc hf
  exact ⟨m, hm, hp⟩

lemma Expands.mem_values (hs : s.Coherent) (h : s.Expands t) (hn : s.tree.node i = .ok n) (hc : n.children = some c)
    (hj : t.tree.Parent i j) : j ∈ c.values := by
  obtain ⟨m, hm, hp⟩ := hj
  rcases h.coherent.shaped.node_cases hm with ⟨hnone, _⟩ | ⟨q, hq, hhangs⟩
  · cases hp.symm.trans hnone
  · obtain rfl := Option.some.inj (hp.symm.trans hq)
    obtain ⟨_, _, name, hq', _, _, hqc, _, hf⟩ := hhangs.above
    obtain ⟨_, hnode, hext⟩ := h.keeps.node hn
    obtain rfl := Except.ok.inj (hnode.symm.trans hq')
    obtain ⟨c', rfl, hkeep⟩ := hext hc
    obtain rfl := Option.some.inj hqc
    have hkeys : c'.keys = c.keys := by
      rw [(h.coherent.keys_children hnode rfl).1, (hs.keys_children hn hc).1, h.sitesBelow hs]
    have hname : c.contains name = true :=
      Table.contains_iff.mpr (hkeys ▸ Table.contains_iff.mp (Table.contains_of_find? hf))
    obtain ⟨j', hj'⟩ := Table.exists_of_contains hname
    obtain rfl := Option.some.inj (hf.symm.trans (hkeep hj'))
    exact List.mem_map_of_mem (f := Prod.snd) (Table.mem_of_find? hj')

lemma expands_children (hs : s.Coherent) (h : children i s = .ok c t) :
    s.Expands t ∧ ∃ n, t.tree.node i = .ok n ∧ n.children = some c := by
  have hkeeps : Keeps False s _ _ := keeps_children hs i
  obtain ⟨hchanges, hnode⟩ := hkeeps.ended h
  obtain ⟨ht, hext⟩ := hchanges.coherent hs
  have hgraph : (s.after (.children i)).graph = s.graph := graph_of_reads s trivial
  have hrests : s.Rests (s.after (.children i)) := rests_after s id
  rw [Design.after, h] at hgraph hrests
  exact ⟨⟨ht, hgraph, hrests.registry, hext⟩, hnode⟩

lemma kindsFor_eq (hs : s.Coherent) (n : Node) : s.kindsFor n = s.nodeKinds (s.sitesBelow n.kind) := by
  cases hd : n.kind.target with
  | none =>
    simp only [kindsFor, hd, sitesBelow_of_none hd]
    rfl
  | some d => simp only [kindsFor, hd, sitesBelow_of_target hs hd]

lemma exists_children (hs : s.Coherent) (hn : s.tree.node i = .ok n) {kinds : List (String × NodeKind)}
    (hk : s.nodeKinds (s.sitesBelow n.kind) = .ok kinds) : ∃ c t, children i s = .ok c t := by
  cases hc : n.children with
  | some c => exact ⟨c, s, children_set hn hc⟩
  | none =>
    obtain ⟨t, _, hchildren⟩ := children_unset hs hn hc
    rw [kindsFor_eq hs, hk] at hchildren
    exact ⟨_, _, hchildren⟩

end Children

section Touring

namespace Tours

lemma expands (hs : s.Coherent) (h : Tours s is stops v) : s.Expands v := by
  induction h with
  | done => exact .refl hs
  | next hc _ _ ihinner ihrest =>
    obtain ⟨ht, _⟩ := expands_children hs hc
    have hu := ihinner ht.coherent
    exact (ht.trans hu).trans (ihrest hu.coherent)

lemma starts (h : Tours s is stops v) : is ⊆ stops.map Prod.fst := by
  induction h with
  | done => exact List.nil_subset _
  | next _ _ _ _ ih =>
    simp only [List.cons_append, List.map_cons, List.map_append]
    exact List.cons_subset_cons _ (List.subset_append_of_subset_right _ ih)

lemma closed (hs : s.Coherent) (h : Tours s is stops v) (hw : v.Expands w) (hp : p ∈ stops.map Prod.fst)
    (hj : w.tree.Parent p j) : j ∈ stops.map Prod.fst := by
  induction h with
  | done => cases hp
  | next hc hinner hrest ihinner ihrest =>
    obtain ⟨ht, n, hn, hchildren⟩ := expands_children hs hc
    have hu := hinner.expands ht.coherent
    have hv := (hrest.expands hu.coherent).trans hw
    simp only [List.cons_append, List.map_cons, List.map_append, List.mem_cons, List.mem_append] at hp ⊢
    rcases hp with rfl | hp | hp
    -- the children that it had when it was visited are all that it ever gets
    · exact .inr (.inl (hinner.starts ((hu.trans hv).mem_values ht.coherent hn hchildren hj)))
    · exact .inr (.inl (ihinner ht.coherent hv hp))
    · exact .inr (.inr (ihrest hu.coherent hw hp))

lemma parent_before (hs : s.Coherent) (h : Tours s is stops v) {before after : List InstanceId}
    (hj : stops.map Prod.fst = before ++ j :: after) : j ∈ is ∨ ∃ p ∈ before, v.tree.Parent p j := by
  induction h generalizing before after with
  | done => simp at hj
  | @next s i is c t inner u rest v hc hinner hrest ihinner ihrest =>
    obtain ⟨ht, n, hn, hchildren⟩ := expands_children hs hc
    have hu := hinner.expands ht.coherent
    have hv := hrest.expands hu.coherent
    simp only [List.cons_append, List.map_cons, List.map_append] at hj
    cases before with
    | nil => exact .inl ((List.cons.inj hj).1 ▸ List.mem_cons_self)
    | cons k before =>
      obtain ⟨rfl, htail⟩ := List.cons.inj hj
      rcases List.append_eq_append_iff.mp htail with ⟨middle, rfl, hmiddle⟩ | ⟨middle, hmiddle, hafter⟩
      · rcases ihrest hu.coherent hmiddle with hmem | ⟨p, hp, hparent⟩
        · exact .inl (List.mem_cons_of_mem _ hmem)
        · exact .inr ⟨p, List.mem_cons_of_mem _ (List.mem_append_right _ hp), hparent⟩
      -- what is below the first instance ends here, or the other instance is in there
      · cases middle with
        | nil =>
          have hrestart : rest.map Prod.fst = [] ++ j :: after := hafter.symm
          rcases ihrest hu.coherent hrestart with hmem | ⟨p, hp, _⟩
          · exact .inl (List.mem_cons_of_mem _ hmem)
          · cases hp
        | cons k middle =>
          obtain ⟨rfl, -⟩ := List.cons.inj hafter
          rcases ihinner ht.coherent hmiddle with hmem | ⟨p, hp, hparent⟩
          · have hparent := ht.coherent.parent_of_values hn hchildren hmem
            exact .inr ⟨_, List.mem_cons_self, (hu.trans hv).tree.parent hparent⟩
          · exact .inr ⟨p, List.mem_cons_of_mem _ hp, hv.tree.parent hparent⟩

lemma mem_iff (hs : s.Coherent) (h : Tours s is stops v) :
    j ∈ stops.map Prod.fst ↔ ∃ i ∈ is, ReflTransGen v.tree.Parent i j := by
  constructor
  · intro hj
    induction h with
    | done => cases hj
    | @next s i is c t inner u rest v hc hinner hrest ihinner ihrest =>
      obtain ⟨ht, n, hn, hchildren⟩ := expands_children hs hc
      have hu := hinner.expands ht.coherent
      have hv := hrest.expands hu.coherent
      simp only [List.cons_append, List.map_cons, List.map_append, List.mem_cons, List.mem_append] at hj
      rcases hj with rfl | hj | hj
      · exact ⟨_, List.mem_cons_self, .refl⟩
      · obtain ⟨k, hk, hkj⟩ := ihinner ht.coherent hj
        have hparent := (hu.trans hv).tree.parent (ht.coherent.parent_of_values hn hchildren hk)
        exact ⟨i, List.mem_cons_self, .head hparent (ReflTransGen.mono (fun _ _ => hv.tree.parent) _ _ hkj)⟩
      · obtain ⟨k, hk, hkj⟩ := ihrest hu.coherent hj
        exact ⟨k, List.mem_cons_of_mem _ hk, hkj⟩
  · rintro ⟨i, hi, hij⟩
    induction hij with
    | refl => exact h.starts hi
    | tail _ hlast ih => exact h.closed hs (.refl (h.expands hs).coherent) ih hlast

end Tours

end Touring

section Meeting

structure Meets (v : Design) (d : DefId) (path : List String) (stop : InstanceId × Design) : Prop where
  shaped : stop.2.tree.Shaped
  found : stop.2.tree.Found d path stop.1
  grows : stop.2.tree.Grows v.tree

variable {path above : List String} {sites : List (String × Site)} {paths below : List (List String)}
  {children : List (String × InstanceId)}

lemma Meets.later {stop : InstanceId × Design} (h : Meets u d path stop) (hv : u.tree.Grows v.tree) :
    Meets v d path stop :=
  ⟨h.shaped, h.found, h.grows.trans hv⟩

lemma pathNames_of_meets (h : List.Forall₂ (Meets v d) paths stops) :
    (stops.map fun stop => stop.2.tree.pathNames stop.1) = paths.map .ok := by
  induction h with
  | nil => rfl
  | cons hstop _ ih => rw [List.map_cons, List.map_cons, hstop.found.pathNames hstop.shaped, ih]

lemma nodup_of_meets (hv : v.tree.Shaped) (h : List.Forall₂ (Meets v d) paths stops) (hp : paths.Nodup) :
    (stops.map Prod.fst).Nodup := by
  have hfound : List.Forall₂ (v.tree.Found d) paths (stops.map Prod.fst) :=
    List.forall₂_map_right_iff.mpr (h.imp fun _ _ hm => hm.found.grows hm.grows)
  have hunique : Relator.BiUnique (v.tree.Found d) :=
    ⟨fun _ _ _ hi hj => (hi.unique hv hj).2, fun _ _ _ hi hj => hi.same hj⟩
  exact (List.rel_nodup hunique hfound).mp hp

lemma Expands.exists_children (hs : s.Coherent) (hu : s.Expands u) (hb : s.Unfolds (s.sitesBelow n.kind) below)
    (hn : u.tree.node i = .ok n) (hi : u.tree.Found d above i) :
    ∃ c t, Design.children i u = .ok c t ∧ u.Expands t ∧ List.Forall₂ t.SiteChild (s.sitesBelow n.kind) c.entries ∧
      ∀ {name j}, (name, j) ∈ c.entries → t.tree.Found d (above ++ [name]) j := by
  obtain ⟨kinds, hkinds⟩ := hb.kinds
  have hsites := hu.sitesBelow hs n.kind
  rw [← nodeKinds_congr hu.registry, ← hsites] at hkinds
  obtain ⟨c, t, hc⟩ := Design.exists_children hu.coherent hn hkinds
  obtain ⟨ht, m, hm, hchildren⟩ := expands_children hu.coherent hc
  obtain ⟨_, hm', _⟩ := ht.keeps.node hn
  obtain rfl := Except.ok.inj (hm'.symm.trans hm)
  refine ⟨c, t, hc, ht, ?_, fun he => ?_⟩
  · have hchild := ht.coherent.siteChildren hm hchildren
    rwa [ht.sitesBelow hu.coherent, hsites] at hchild
  · have hnodup := (ht.coherent.keys_children hm hchildren).2
    exact .child (hi.grows ht.tree) hm hchildren (Table.find?_of_mem hnodup he)

lemma Unfolds.tours (hs : s.Coherent) (h : s.Unfolds sites paths) (hu : s.Expands u)
    (hc : List.Forall₂ u.SiteChild sites children)
    (hf : ∀ {name j}, (name, j) ∈ children → u.tree.Found d (above ++ [name]) j) :
    ∃ stops v, Tours u (children.map Prod.snd) stops v ∧
      List.Forall₂ (Meets v d) (paths.map (above ++ ·)) stops := by
  induction h generalizing u above children with
  | nil =>
    cases hc
    exact ⟨[], u, .done, .nil⟩
  | @cons name site kind sites below rest hk hbelow _ ihbelow ihrest =>
    cases hc with
    | @cons _ e _ children hchild hrest =>
      obtain ⟨child, j⟩ := e
      obtain rfl : child = name := hchild.name
      obtain ⟨n, hn, hkind⟩ := hchild.kind
      rw [nodeKind_congr hu.registry] at hkind
      obtain rfl := Except.ok.inj (hk.symm.trans hkind)
      have hj := hf List.mem_cons_self
      obtain ⟨c, t, hct, ht, hsites, hfound⟩ := hu.exists_children hs hbelow hn hj
      -- what is below the child comes first, then the other children
      obtain ⟨inner, v, hinner, hmeets⟩ := ihbelow (hu.trans ht) hsites hfound
      have hv := ht.trans (hinner.expands ht.coherent)
      obtain ⟨others, w, hothers, hmeets'⟩ := ihrest (hu.trans hv) (hrest.imp fun _ _ => hv.keeps.siteChild)
        fun he => (hf (List.mem_cons_of_mem _ he)).grows hv.tree
      have hw := (hothers.expands hv.coherent).tree
      refine ⟨(j, u) :: inner ++ others, w, .next hct hinner hothers, ?_⟩
      have hpaths : (([] :: below).map (child :: ·) ++ rest).map (above ++ ·) =
          ((above ++ [child]) :: below.map (above ++ [child] ++ ·)) ++ rest.map (above ++ ·) := by
        simp
      rw [hpaths]
      have hstop : Meets w d (above ++ [child]) (j, u) := ⟨hu.coherent.shaped, hj, hv.tree.trans hw⟩
      exact List.rel_append (.cons hstop (hmeets.imp fun _ _ hm => hm.later hw)) hmeets'

lemma exists_tour (hs : s.Coherent) (hn : s.tree.node i = .ok n) (hi : s.tree.Found d above i)
    (hb : s.Unfolds (s.sitesBelow n.kind) below) :
    ∃ stops v, Tours s [i] stops v ∧ List.Forall₂ (Meets v d) (([] :: below).map (above ++ ·)) stops := by
  obtain ⟨c, t, hc, ht, hsites, hfound⟩ := (Expands.refl hs).exists_children hs hb hn hi
  obtain ⟨inner, v, hinner, hmeets⟩ := hb.tours hs ht hsites hfound
  have hv := ht.trans (hinner.expands ht.coherent)
  have htour : Tours s [i] ((i, s) :: inner) v := by simpa using Tours.next hc hinner .done
  have hroot : Meets v d (above ++ []) (i, s) := ⟨hs.shaped, by rwa [List.append_nil], hv.tree⟩
  exact ⟨(i, s) :: inner, v, htour, .cons hroot hmeets⟩

end Meeting

end Design

end HardwareDesign
