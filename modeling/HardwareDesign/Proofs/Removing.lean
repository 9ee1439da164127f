import HardwareDesign.Proofs.Lasting
import HardwareDesign.Proofs.Outlining

namespace HardwareDesign.Graph

inductive Clears : List RecordId → Records → Records → Prop
  | done {records : Records} : Clears [] records records
  | gone {id waiting} {records left : Records} : records.find? id = none → Clears waiting records left →
      Clears (id :: waiting) records left
  | remove {id r waiting} {records left : Records} : records.find? id = some r →
      Clears (r.body ++ waiting) (records.erase id) left → Clears (id :: waiting) records left

variable {g g' : Graph} {id k : RecordId} {r : Record} {h : Handle} {waiting ids : List RecordId} {records : Records}
  {fuel : Nat}

lemma clears_removeAll (hf : waiting.length + bodyCount records ≤ fuel) :
    Clears waiting records (removeAll fuel waiting records) := by
  induction fuel generalizing waiting records with
  | zero =>
    obtain rfl : waiting = [] := List.eq_nil_of_length_eq_zero (by omega)
    exact .done
  | succ fuel ih =>
    cases waiting with
    | nil => exact .done
    | cons id waiting =>
      rw [List.length_cons] at hf
      cases hr : records.find? id with
      | none =>
        simp only [removeAll, hr]
        exact .gone hr (ih (by omega))
      | some r =>
        -- the body that comes to wait is not counted any more
        have hc := bodyCount_erase hr
        simp only [removeAll, hr]
        exact .remove hr (ih (by rw [List.length_append]; omega))

structure Cut (g : Graph) (id : RecordId) (parent : Option RecordId) (below : List RecordId) (g' : Graph) : Prop where
  contains : ∀ {k}, g'.contains k = true ↔ g.contains k = true ∧ k ≠ id ∧ k ∉ below
  records : ∀ {k r}, g.Holds k r → k ≠ id → k ∉ below →
    g'.Holds k (if parent = some k then { r with body := r.body.filter (· ≠ id) } else r)
  top : g'.top = if parent = none then g.top.filter (· ≠ id) else g.top
  size : g'.size + (below.length + 1) = g.size
  source : g'.source = g.source
  epoch : g'.epoch = g.epoch
  lastId : g'.lastId = g.lastId

section Enclosed

variable (hg : g.Forest) (hr : g.record h = .ok r)
include hr

lemma Forest.mem_enclosed : k ∈ h.record :: hg.outline h.record ↔ g.Encloses h.record k := by
  obtain ⟨_, _, _, hmem⟩ := hg.descendants_outline hr
  rw [List.mem_cons, hmem]
  exact Relation.reflTransGen_iff_eq_or_transGen.symm

lemma Forest.nodup_enclosed : (h.record :: hg.outline h.record).Nodup := by
  obtain ⟨_, _, hnodup, hmem⟩ := hg.descendants_outline hr
  refine List.nodup_cons.mpr ⟨fun hm => ?_, hnodup⟩
  exact Nat.lt_irrefl _ (hg.lt_of_inside ((hmem _).mp hm))

omit hr in
lemma contains_enclosed (hc : g.contains id = true) (he : g.Encloses id k) : g.contains k = true := by
  rcases Relation.reflTransGen_iff_eq_or_transGen.mp he with rfl | hi
  · exact hc
  · obtain ⟨rk, hrk⟩ := Inside.held hi
    exact Table.contains_of_find? hrk

end Enclosed

namespace Pruned

lemma contains_old (hp : g.Pruned id g') (hk : g'.contains k = true) : g.contains k = true := by
  obtain ⟨_, hr⟩ := Table.exists_of_contains hk
  obtain ⟨_, h₀, _⟩ := hp.held hr
  exact Table.contains_of_find? h₀

lemma contains_iff_old (hg : g.Forest) (hp : g.Pruned id g') :
    g'.contains k = true ↔ g.contains k = true ∧ ¬ g.Encloses id k := by
  constructor
  · intro hk
    obtain ⟨r, hr⟩ := Table.exists_of_contains (hp.contains_old hk)
    exact ⟨Table.contains_of_find? hr, (hp.contains_iff hg hr).mp hk⟩
  · rintro ⟨hk, henclosed⟩
    obtain ⟨r, hr⟩ := Table.exists_of_contains hk
    exact (hp.contains_iff hg hr).mpr henclosed

lemma size (hg : g.Forest) (hp : g.Pruned id g') (hn : ids.Nodup)
    (hids : ∀ k, k ∈ ids ↔ g.contains k = true ∧ g.Encloses id k) : g'.size + ids.length = g.size := by
  have hboth : (g'.records.keys ++ ids).Nodup := by
    refine List.nodup_append.mpr ⟨hp.keys, hn, ?_⟩
    rintro k hk _ hk' rfl
    exact ((hp.contains_iff_old hg).mp (Table.contains_iff.mpr hk)).2 ((hids k).mp hk').2
  have hperm : (g'.records.keys ++ ids).Perm g.records.keys := by
    refine (List.perm_ext_iff_of_nodup hboth hg.keys).mpr fun k => ?_
    have hold : k ∈ g'.records.keys ↔ g.contains k = true ∧ ¬ g.Encloses id k :=
      Table.contains_iff.symm.trans (hp.contains_iff_old hg)
    rw [List.mem_append, hold, hids, ← and_or_left, or_comm]
    exact (and_iff_left (em _)).trans Table.contains_iff
  have hlength := hperm.length_eq
  rwa [List.length_append, Table.keys, Table.keys, List.length_map, List.length_map] at hlength

lemma cut (hg : g.Forest) (hr : g.record h = .ok r) (hp : g.Pruned h.record g') :
    g.Cut h.record r.parent (hg.outline h.record) g' := by
  obtain ⟨_, hh⟩ := holds_of_record hr
  have hout : ∀ {k}, k ≠ h.record ∧ k ∉ hg.outline h.record ↔ ¬ g.Encloses h.record k := by
    intro k
    rw [← hg.mem_enclosed hr, List.mem_cons, not_or]
  refine ⟨?_, ?_, ?_, ?_, hp.source, hp.epoch, hp.lastId⟩
  · intro k
    rw [hout]
    exact hp.contains_iff_old hg
  · intro k rk hk hne hnot
    obtain ⟨r', hr'⟩ := Table.exists_of_contains (hp.kept_outside hg hk (hout.mp ⟨hne, hnot⟩))
    obtain ⟨r₀, h₀, rfl⟩ := hp.held hr'
    obtain rfl := hk.unique h₀
    split
    case isTrue => exact hr'
    case isFalse hparent =>
      rw [withoutChild_of_notMem (hg.not_mem_of_parent_ne hh hk hparent)] at hr'
      exact hr'
  · rw [hp.top]
    split
    case isTrue => rfl
    case isFalse hparent =>
      have hnot : h.record ∉ g.top := fun hm => hparent ((hg.linked.top hh).mp hm)
      refine List.filter_eq_self.mpr fun k hk => ?_
      simpa using ne_of_mem_of_not_mem hk hnot
  · refine hp.size hg (hg.nodup_enclosed hr) fun k => ?_
    rw [hg.mem_enclosed hr]
    exact (and_iff_right_of_imp (contains_enclosed (Table.contains_of_find? hh))).symm

end Pruned

/-- A record that a handle is good for is erased, and the erasure comes to its end. It takes away the record and what
is nested in it, which leaves its list, and all else stays as it is. -/
theorem erase_cuts (hg : g.Reachable) (hr : g.record h = .ok r) :
    ∃ below detached g', g.descendants h = .ok (below.map g.handle) ∧ g.detach h.record r.parent = .ok detached ∧
      Clears [h.record] detached.records g'.records ∧ g.erase h = .ok g' ∧ g.Cut h.record r.parent below g' := by
  obtain ⟨detached, hd⟩ := hg.forest.exists_detach (holds_of_record hr).2
  have hfuel : [h.record].length + bodyCount detached.records ≤ bodyCount detached.records + 1 := by
    rw [List.length_singleton]
    omega
  have he : g.erase h = .ok { detached with
      records := removeAll (bodyCount detached.records + 1) [h.record] detached.records } := by
    simp only [erase, hr, hd, bind, Except.bind, pure, Except.pure]
  obtain ⟨hdescendants, _⟩ := hg.forest.descendants_outline hr
  exact ⟨_, detached, _, hdescendants, hd, clears_removeAll hfuel, he, (pruned_of_erase hg.forest he).cut hg.forest hr⟩

theorem erase_cuts_nested :
    nestedTwice.record ⟨⟨2⟩, 0, 0⟩ = .ok ⟨.dynamicInstance ⟨"m", "a"⟩, some ⟨1⟩, [⟨4⟩]⟩ ∧
      ∃ g', nestedTwice.erase ⟨⟨2⟩, 0, 0⟩ = .ok g' ∧ nestedTwice.Cut ⟨2⟩ (some ⟨1⟩) [⟨4⟩] g' := by
  have hr : nestedTwice.record ⟨⟨2⟩, 0, 0⟩ = .ok ⟨.dynamicInstance ⟨"m", "a"⟩, some ⟨1⟩, [⟨4⟩]⟩ := rfl
  obtain ⟨below, _, g', hdescendants, _, _, he, hcut⟩ := erase_cuts reachable_nestedTwice hr
  have hbelow : below.map nestedTwice.handle = [⟨4⟩].map nestedTwice.handle :=
    Except.ok.inj (hdescendants.symm.trans rfl)
  obtain rfl : below = [⟨4⟩] := List.map_injective_iff.mpr (fun _ _ => congrArg Handle.record) hbelow
  exact ⟨hr, g', he, hcut⟩

end HardwareDesign.Graph
