import HardwareDesign.Proofs.Allocating
import HardwareDesign.Proofs.Runs
import HardwareDesign.Proofs.Soundness

/-!
What is remembered of a graph is what a scan of the graph would find, the first record with a key first.
-/

namespace HardwareDesign

namespace Payload

def top? : Payload → Option String
  | hierarchy top => some top
  | _ => none

def site? : Payload → Option SiteRef
  | dynamicInstance site => some site
  | _ => none

end Payload

namespace Graph

variable {κ ν : Type} [DecidableEq κ]

def firstWith (g : Graph) (key : Payload → Option κ) (k : κ) (ids : List RecordId) : Option RecordId :=
  ids.find? fun id => (g.records.find? id).bind (fun r => key r.payload) = some k

variable {g : Graph} {key : Payload → Option κ} {ids : List RecordId} {k : κ} {id : RecordId}

lemma holds_of_firstWith (h : g.firstWith key k ids = some id) :
    id ∈ ids ∧ ∃ r, g.Holds id r ∧ key r.payload = some k := by
  have hkey := List.find?_some h
  rw [decide_eq_true_iff, Option.bind_eq_some_iff] at hkey
  exact ⟨List.mem_of_find?_eq_some h, hkey⟩

lemma find?_entries {f : Handle → Payload → Option (κ × ν)} {v : κ → Handle → Payload → ν}
    (hf : ∀ h p, f h p = (key p).map fun k => (k, v k h p)) (ids : List RecordId) (k : κ) :
    (Table.ofListFirst (g.entries f ids)).find? k =
      (g.firstWith key k ids).bind fun id => (g.records.find? id).map fun r => v k (g.handle id) r.payload := by
  rw [Table.find?_ofListFirst]
  induction ids with
  | nil => rfl
  | cons id ids ih =>
    cases hr : g.records.find? id with
    | none => simpa [entries, firstWith, hr] using ih
    | some r =>
      rw [entries_cons_of_holds f hr, hf]
      cases hk : key r.payload with
      | none => simpa [firstWith, hr, hk] using ih
      | some j =>
        by_cases hj : j = k
        · simp [Table.findIn, firstWith, hr, hk, hj]
        · simpa [Table.findIn, firstWith, hr, hk, hj] using ih

lemma find?_handles {f : Handle → Payload → Option (κ × Handle)} (hf : ∀ h p, f h p = (key p).map fun k => (k, h))
    (ids : List RecordId) (k : κ) :
    (Table.ofListFirst (g.entries f ids)).find? k = (g.firstWith key k ids).map g.handle := by
  rw [find?_entries hf]
  cases h : g.firstWith key k ids with
  | none => rfl
  | some id =>
    obtain ⟨_, r, hr, _⟩ := holds_of_firstWith h
    simp [show g.records.find? id = some r from hr]

lemma find?_namedTop (g : Graph) (x : String) :
    g.namedTop.find? x = (g.firstWith Payload.symbolName x g.top).map g.handle := by
  rw [namedTop_eq]
  exact find?_handles (fun _ _ => rfl) _ _

lemma find?_hierarchies (g : Graph) (x : String) :
    g.hierarchies.find? x = (g.firstWith Payload.top? x g.top).map g.handle := by
  rw [hierarchies_eq]
  exact find?_handles (fun _ p => by cases p <;> rfl) _ _

lemma find?_nestedTable {r : Record} (h : g.Holds id r) (site : SiteRef) :
    (g.nestedTable id).find? site = (g.firstWith Payload.site? site r.body).map g.handle := by
  rw [nestedTable_of_holds h]
  exact find?_handles (fun _ p => by cases p <;> rfl) _ _

lemma find?_siteTable {r : Record} {x : String} (h : g.Holds id r) (hp : r.payload = .module x) (name : String) :
    (g.siteTable id).find? name = (g.firstWith Payload.symbolName name r.body).bind fun k =>
      (g.records.find? k).map fun rk => ⟨name, g.handle k, .ofPayload rk.payload⟩ := by
  rw [siteTable_of_module h hp]
  exact find?_entries (v := fun name h p => (⟨name, h, .ofPayload p⟩ : Site)) (fun _ _ => rfl) _ _

end Graph

lemma Table.keys_ofListFirst {κ ν : Type} [DecidableEq κ] (es : List (κ × ν)) :
    (ofListFirst es).keys = (es.map Prod.fst).eraseDups := by
  induction es using List.reverseRecOn with
  | nil => rfl
  | append_singleton es e ih =>
    rw [ofListFirst_concat, List.map_append, List.eraseDups_append, ← ih]
    cases hc : (ofListFirst es).contains e.1 with
    | true =>
      have hm := contains_ofListFirst.mp hc
      rw [insertNew_of_contains _ hc]
      simp [List.removeAll, hm]
    | false =>
      have hm : e.1 ∉ es.map Prod.fst := fun hm => by simp [contains_ofListFirst.mpr hm] at hc
      rw [insertNew_of_not_contains _ hc, keys_insert _ hc]
      simp [List.removeAll, hm, List.eraseDups_cons]

namespace Design

variable {s : Design}

/-- Each view that is filled is what a scan of the graph finds now. -/
structure Exact (s : Design) : Prop where
  known : ∀ {index}, s.symbols.known = some index → index = s.graph.namedTop ∧
    ∀ x, index.find? x = (s.graph.firstWith Payload.symbolName x s.graph.top).map s.graph.handle
  hierarchies : ∀ {index}, s.records.hierarchies = some index → index = s.graph.hierarchies ∧
    ∀ x, index.find? x = (s.graph.firstWith Payload.top? x s.graph.top).map s.graph.handle
  sites : ∀ {id sites}, s.sites.find? id = some sites → s.graph.sitesIn (s.graph.handle id) = .ok sites ∧
    ∀ {r x}, s.graph.Holds id r → r.payload = .module x → sites.keys = (s.graph.names r.body).eraseDups ∧
      ∀ name, sites.find? name = (s.graph.firstWith Payload.symbolName name r.body).bind fun k =>
        (s.graph.records.find? k).map fun rk => ⟨name, s.graph.handle k, .ofPayload rk.payload⟩
  nested : ∀ {id index}, s.records.nested.find? id = some index →
    s.graph.nestedIn (s.graph.handle id) = .ok index ∧ ∃ r, s.graph.Holds id r ∧
      ∀ site, index.find? site = (s.graph.firstWith Payload.site? site r.body).map s.graph.handle

lemma Views.exact (hv : s.Views) (hg : s.graph.Forest) : s.Exact where
  known := by
    intro index h
    obtain rfl := hv.known h
    exact ⟨rfl, s.graph.find?_namedTop⟩
  hierarchies := by
    intro index h
    obtain rfl := hv.hierarchies h
    exact ⟨rfl, s.graph.find?_hierarchies⟩
  sites := by
    intro id sites h
    obtain ⟨rfl, r, hr⟩ := hv.sites h
    refine ⟨Graph.sitesIn_eq hg (h := s.graph.handle id) rfl hr, ?_⟩
    intro r x hr hp
    refine ⟨?_, Graph.find?_siteTable hr hp⟩
    rw [Graph.siteTable_of_module hr hp, Table.keys_ofListFirst, Graph.keys_siteEntries, Graph.names_eq]
  nested := by
    intro id index h
    obtain ⟨rfl, r, hr, hb⟩ := hv.nested h
    exact ⟨Graph.nestedIn_eq hg (h := s.graph.handle id) rfl hr hb, r, hr, Graph.find?_nestedTable hr⟩

def Live (s : Design) (h : Handle) : Prop := h.epoch = s.graph.epoch ∧ s.graph.contains h.record = true

lemma live_of_holds {h : Handle} {r : Record} (he : h.epoch = s.graph.epoch) (hr : s.graph.Holds h.record r) :
    s.Live h :=
  ⟨he, Table.contains_of_find? hr⟩

lemma live_handle {id : RecordId} {r : Record} (hr : s.graph.Holds id r) : s.Live (s.graph.handle id) :=
  live_of_holds (h := s.graph.handle id) rfl hr

lemma Step.indexed {t : Design} (h : s.Step t) (hg : s.graph.Forest) (hs : s.Indexed) : t.Indexed := by
  cases h with
  | operation o =>
    cases o with
    | call c => exact (acts_after s c).evolves.indexed hs
    | invalidate held =>
      obtain ⟨issues, hi⟩ := invalidate_eq s held
      rw [perform, hi]
      exact ⟨List.nodup_nil, List.nodup_nil, List.nodup_nil⟩
  | passes passes held st =>
    rcases runPasses_eq hg passes held st with hsame | ⟨g, issues, passed, _, hdropped⟩
    · rw [hsame]
      exact hs
    · rw [hdropped]
      exact ⟨List.nodup_nil, List.nodup_nil, List.nodup_nil⟩

lemma Reachable.indexed (h : s.Reachable) : s.Indexed := by
  obtain ⟨config, source, hr⟩ := h
  induction hr with
  | refl => exact ⟨List.nodup_nil, List.nodup_nil, List.nodup_nil⟩
  | tail hrun hstep ih => exact hstep.indexed (Reaches.coherent hrun (coherent_new config source)).1.forest ih

variable {h : Handle}

lemma live_of_namedTop (hm : h ∈ s.graph.namedTop.values) : s.Live h := by
  obtain ⟨x, hf⟩ := Table.exists_find?_of_mem_values (Table.nodup_keys_ofListFirst _) hm
  obtain ⟨hh, _, r, hr, _⟩ := Graph.holds_of_find?_namedTop hf
  exact hh ▸ live_handle hr

lemma live_of_hierarchies (hm : h ∈ s.graph.hierarchies.values) : s.Live h := by
  obtain ⟨x, hf⟩ := Table.exists_find?_of_mem_values (Table.nodup_keys_ofListFirst _) hm
  obtain ⟨hh, _, r, hr, _⟩ := Graph.holds_of_find?_hierarchies hf
  exact hh ▸ live_handle hr

lemma live_of_nestedTable (hg : s.graph.Forest) {p : RecordId} (hn : (s.graph.nestedTable p).keys.Nodup)
    (hm : h ∈ (s.graph.nestedTable p).values) : s.Live h := by
  obtain ⟨site, hf⟩ := Table.exists_find?_of_mem_values hn hm
  obtain ⟨hh, r, hr, _⟩ := Graph.holds_of_find?_nestedTable hg hf
  exact hh ▸ live_handle hr

lemma live_of_siteTable {p : RecordId} {site : Site} (hm : site ∈ (s.graph.siteTable p).values) :
    s.Live site.record := by
  obtain ⟨name, hf⟩ := Table.exists_find?_of_mem_values (Graph.nodup_keys_siteTable _ _) hm
  obtain ⟨id, r, hr, rfl⟩ := Graph.holds_of_find?_siteTable hf
  exact live_handle hr

lemma Reachable.live (hs : s.Reachable) (hm : h ∈ s.cachedHandles) : s.Live h := by
  have hc := hs.coherent
  obtain ⟨hsites, hnested, hinstances⟩ := hs.indexed
  simp only [cachedHandles, List.mem_append, List.mem_flatMap, List.mem_map] at hm
  rcases hm with (((hm | ⟨sites, hm, site, hsite, rfl⟩) | hm) | hm) | ⟨index, hm, hh⟩
  · cases hk : s.symbols.known with
    | none => simp [hk, Table.values] at hm
    | some index =>
      rw [hk, hc.views.known hk] at hm
      exact live_of_namedTop hm
  · obtain ⟨id, hf⟩ := Table.exists_find?_of_mem_values hsites hm
    obtain ⟨rfl, _⟩ := hc.views.sites hf
    exact live_of_siteTable hsite
  · cases hk : s.records.hierarchies with
    | none => simp [hk, Table.values] at hm
    | some index =>
      rw [hk, hc.views.hierarchies hk] at hm
      exact live_of_hierarchies hm
  · obtain ⟨i, hf⟩ := Table.exists_find?_of_mem_values hinstances hm
    obtain ⟨he, hstands⟩ := hc.backed hf
    obtain ⟨r, hr, _⟩ := hstands.holds
    exact live_of_holds he hr
  · obtain ⟨id, hf⟩ := Table.exists_find?_of_mem_values hnested hm
    obtain ⟨rfl, r, hr, _⟩ := hc.views.nested hf
    refine live_of_nestedTable hc.forest ?_ hh
    rw [Graph.nestedTable_of_holds hr]
    exact Table.nodup_keys_ofListFirst _

end Design

end HardwareDesign
