import HardwareDesign.Proofs.Backing
import HardwareDesign.Proofs.Locating

namespace HardwareDesign

namespace Graph

variable {g g' : Graph} {id owner p : RecordId} {r : Record} {payload : Payload} {parent : Option RecordId}
  {sites : List SiteRef}

lemma contents_of_missing (h : g.contains id = false) : g.contents id = [] := by
  simp only [contents, Table.find?_eq_none h]

lemma Grows.payloads (h : g.Grows g') {ids : List RecordId} (hi : g.AllHeld ids) :
    (ids.filterMap fun k => (g'.records.find? k).map (·.payload)) =
      ids.filterMap fun k => (g.records.find? k).map (·.payload) := by
  apply List.filterMap_congr
  intro k hk
  obtain ⟨r, hr⟩ := hi k hk
  obtain ⟨more, hr'⟩ := h.records hr
  rw [show g.records.find? k = some r from hr, show g'.records.find? k = some _ from hr']
  rfl

lemma contents_created (hg : g.Forest) (ha : g.Accepts parent) (payload : Payload) (id : RecordId) :
    (g.created payload parent).contents id = g.contents id ++ if parent = some id then [payload] else [] := by
  cases hheld : g.records.find? id with
  | some r =>
    have hr : g.Holds id r := hheld
    rw [contents_of_holds hr, contents_of_holds (holds_created_of_holds hg ha hr), List.filterMap_append,
      (hg.grows ha).payloads (hg.allHeld_body hr)]
    by_cases hp : parent = some id
    · have hnext : (g.created payload parent).records.find? g.nextId = some _ := holds_created_next hg ha
      simp only [if_pos hp, List.filterMap_cons, List.filterMap_nil, hnext, Option.map_some]
    · simp only [if_neg hp, List.filterMap_nil]
  | none =>
    have hp : parent ≠ some id := by
      rintro rfl
      obtain ⟨r, hr, _⟩ := ha
      cases hheld.symm.trans hr
    have hmissing : g.contains id = false := by simp [contains, Table.contains, hheld]
    rw [contents_of_missing hmissing, if_neg hp]
    cases hnew : (g.created payload parent).records.find? id with
    | none => exact contents_of_missing (by simp [contains, Table.contains, hnew])
    | some r =>
      rcases (holds_created hg ha).mp hnew with ⟨_, rfl⟩ | ⟨_, h₀, _⟩
      · exact contents_of_holds hnew
      · cases hheld.symm.trans h₀

lemma Chain.contents {β : Type} {f : Payload → List β} (hf : ∀ site, f (.dynamicInstance site) = [])
    (h : g.Chain owner sites p g') (hg : g.Forest) (ha : g.Accepts (some owner)) (id : RecordId) :
    (g'.contents id).flatMap f = (g.contents id).flatMap f := by
  induction h with
  | nil => rfl
  | @concat sites q g' site h ih =>
    obtain ⟨hforest, hq⟩ := h.forest hg ha
    rw [contents_created hforest hq, List.flatMap_append, ih]
    split
    case isTrue => simp [hf]
    case isFalse => simp

end Graph

section Outcome

variable {ε σ α β : Type}

def outcome : EStateM.Result ε σ α → Except ε α
  | .ok a _ => .ok a
  | .error e _ => .error e

lemma outcome_map (x : EStateM ε σ α) (f : α → β) (s : σ) :
    outcome ((do return f (← x) : EStateM ε σ β) s) = (outcome (x s)).map f := by
  cases h : x s with
  | ok a t =>
    rw [bind_of_ok h]
    rfl
  | error e t =>
    rw [bind_of_error h]
    rfl

lemma map_append_nil (x : Except ε (List α)) : x.map (· ++ []) = x := by
  simp only [List.append_nil]
  exact congrFun Except.map_id x

end Outcome

namespace Design

variable {β : Type} {f : Payload → List β} {s t u : Design} {i j : InstanceId} {owner h : Handle} {payload : Payload}
  {e : Error} {l : Location}

def shown (s : Design) (f : Payload → List β) (i : InstanceId) : Except Error (List β) :=
  (outcome (payloadsOf i s)).map (·.flatMap f)

lemma outcome_locations (s : Design) (i : InstanceId) : outcome (locations i s) = s.shown Payload.placements i :=
  outcome_map _ _ _

lemma outcome_attributes (s : Design) (i : InstanceId) :
    outcome (attributes i s) = s.shown (fun payload => (attribute? payload).toList) i := by
  simp only [shown, ← List.filterMap_eq_flatMap_toList]
  exact outcome_map _ _ _

section Shown

lemma shown_of_record (hf : ∀ site, f (.dynamicInstance site) = []) (hs : s.Coherent)
    (hr : getOrCreateRecord i s = .ok h t) : s.shown f i = .ok ((s.graph.contents h.record).flatMap f) := by
  obtain ⟨_, _, sites, owner, _, _, ha, hchain⟩ := chain_of_recordUpTo hs (Nat.lt_succ_self _) hr
  -- the records that are made for the reading have nothing to show
  rw [shown, payloadsOf_eq hs hr, ← hchain.contents hf hs.forest ha]
  rfl

lemma shown_of_error (hr : getOrCreateRecord i s = .error e t) : s.shown f i = .error e := by
  rw [shown, payloadsOf, bind_of_error hr]
  rfl

end Shown

section Steady

variable (hsteady : s.Steady t) (hs : s.Coherent) (ht : t.Coherent)
include hsteady hs ht

lemma Steady.record_error (hr : getOrCreateRecord i s = .error e u) : ∃ v, getOrCreateRecord i t = .error e v := by
  cases hn : s.tree.node i with
  | error e' =>
    have hstale : getOrCreateRecord i s = .error e' s := bind_of_error (Action.read_error hn)
    cases hstale.symm.trans hr
    have hn' : t.tree.node i = .error e := hsteady.tree ▸ hn
    exact ⟨t, bind_of_error (Action.read_error hn')⟩
  | ok n =>
    rcases recordUpTo_anchored hs hn (Nat.lt_succ_self _) with ⟨_, _, _, hok⟩ | ⟨hno, _, herror, _⟩
    · cases hok.symm.trans hr
    · cases herror.symm.trans hr
      rcases recordUpTo_anchored ht (hsteady.tree ▸ hn) (Nat.lt_succ_self _) with ⟨ha, _⟩ | ⟨_, v, hv, _⟩
      · exact (hno (hsteady.anchored ha)).elim
      · exact ⟨v, hv⟩

lemma Steady.record_ok {k : Handle} (hr : getOrCreateRecord i s = .ok k u) :
    ∃ k' v, getOrCreateRecord i t = .ok k' v ∧ s.graph.contents k'.record = s.graph.contents k.record := by
  obtain ⟨n, hn⟩ := node_of_getOrCreateRecord hr
  have ha : s.Anchored i := by
    rcases recordUpTo_anchored hs hn (Nat.lt_succ_self _) with ⟨ha, _⟩ | ⟨_, _, herror, _⟩
    · exact ha
    · cases herror.symm.trans hr
  rcases recordUpTo_anchored ht (hsteady.tree ▸ hn) (Nat.lt_succ_self _) with ⟨_, k', v, hv⟩ | ⟨hno, _⟩
  · refine ⟨k', v, hv, ?_⟩
    cases hk : s.graph.contains k.record with
    | true =>
      have hb := (hsteady.backs hk).mpr (backs_of_held hs hr hk)
      obtain ⟨_, _, hrun, hid, _⟩ := hb.recordUpTo ht (Nat.lt_succ_self _)
      cases hv.symm.trans hrun
      rw [hid]
    | false =>
      cases hk' : s.graph.contains k'.record with
      | true =>
        have hb := (hsteady.backs hk').mp (backs_of_held ht hv (hsteady.grows.graph.contains hk'))
        obtain ⟨_, _, hrun, hid, _⟩ := hb.recordUpTo hs (Nat.lt_succ_self _)
        cases hr.symm.trans hrun
        rw [hid]
      | false => rw [Graph.contents_of_missing hk, Graph.contents_of_missing hk']
  · exact (hno (ha.grows hs.forest hsteady.grows)).elim

lemma Steady.shown (hf : ∀ site, f (.dynamicInstance site) = []) {more : RecordId → List β}
    (hmore : ∀ id, (t.graph.contents id).flatMap f = (s.graph.contents id).flatMap f ++ more id) (i : InstanceId) :
    (∃ e, s.shown f i = .error e ∧ t.shown f i = .error e) ∨ ∃ k v ls, getOrCreateRecord i t = .ok k v ∧
      s.shown f i = .ok ls ∧ t.shown f i = .ok (ls ++ more k.record) := by
  cases hr : getOrCreateRecord i s with
  | error e u =>
    obtain ⟨v, hv⟩ := hsteady.record_error hs ht hr
    exact .inl ⟨e, shown_of_error hr, shown_of_error hv⟩
  | ok k u =>
    obtain ⟨k', v, hv, hsame⟩ := hsteady.record_ok hs ht hr
    refine .inr ⟨k', v, _, hv, shown_of_record hf hs hr, ?_⟩
    rw [shown_of_record hf ht hv, hmore, hsame]

end Steady

section Noting

lemma shown_recorded (hf : ∀ site, f (.dynamicInstance site) = []) (hs : s.Coherent)
    (hr : getOrCreateRecord i s = .ok owner t) (j : InstanceId) : t.shown f j = s.shown f j := by
  obtain ⟨_, ht, _⟩ := recorded_of_getOrCreateRecord hs hr
  obtain ⟨hsteady, _⟩ := steady_getOrCreateRecord hs hr
  obtain ⟨_, _, sites, top, _, _, ha, hchain⟩ := chain_of_recordUpTo hs (Nat.lt_succ_self _) hr
  have hmore : ∀ id, (t.graph.contents id).flatMap f = (s.graph.contents id).flatMap f ++ (fun _ => []) id := by
    intro id
    rw [hchain.contents hf hs.forest ha, List.append_nil]
  rcases hsteady.shown hs ht hf hmore j with ⟨e, hsj, htj⟩ | ⟨_, _, ls, _, hsj, htj⟩
  · rw [hsj, htj]
  · rw [hsj, htj, List.append_nil]

lemma shown_noted (hf : ∀ site, f (.dynamicInstance site) = []) (hn : payload.symbolName = none)
    (hb : payload.hasBody = false) (hs : s.Coherent) (hr : getOrCreateRecord i s = .ok owner t) (j : InstanceId) :
    (t.noted owner payload).shown f j = (s.shown f j).map (· ++ if j = i then f payload else []) := by
  obtain ⟨ho, ht, _⟩ := recorded_of_getOrCreateRecord hs hr
  obtain ⟨hnoted, hext⟩ := ht.noted ho.stands hn hb
  have hsteady : t.Steady (t.noted owner payload) := .of_created ht hnoted ho.stands.accepts rfl rfl rfl rfl
  have hmore : ∀ id, ((t.noted owner payload).graph.contents id).flatMap f =
      (t.graph.contents id).flatMap f ++ if owner.record = id then f payload else [] := by
    intro id
    have hgraph : (t.noted owner payload).graph = t.graph.created payload (some owner.record) := rfl
    rw [hgraph, Graph.contents_created ht.forest ho.stands.accepts, List.flatMap_append]
    by_cases hid : owner.record = id
    · simp [hid]
    · simp [hid]
  rw [← shown_recorded hf hs hr]
  rcases hsteady.shown ht hnoted hf hmore j with ⟨e, htj, hj⟩ | ⟨k, v, ls, hk, htj, hj⟩
  · rw [htj, hj]
    rfl
  · have hiff : owner.record = k.record ↔ j = i := by
      constructor
      · intro hid
        obtain ⟨hrec, _, hext'⟩ := recorded_of_getOrCreateRecord hnoted hk
        have hstands := (hext.trans hext').standsFor ho.stands
        exact hrec.stands.unique (hid ▸ hstands)
      · rintro rfl
        obtain ⟨_, hagain⟩ := getOrCreateRecord_again hs hr hnoted hext
        cases hk.symm.trans hagain
        rfl
    rw [htj, hj]
    simp only [hiff]
    rfl

lemma noted_of_addLocations (hs : s.Coherent) (ha : addLocations i payload s = .ok () u) :
    ∃ owner t, getOrCreateRecord i s = .ok owner t ∧ u = t.noted owner payload := by
  obtain ⟨owner, t, hr, _⟩ := ok_of_bind ha
  obtain ⟨ho, _⟩ := recorded_of_getOrCreateRecord hs hr
  cases ha.symm.trans (addLocations_eq hr ho.epoch ho.stands.accepts)
  exact ⟨owner, t, hr, rfl⟩

lemma instanceAt_noted {subPath : SubPath} {x : PlacementIndex} (hs : s.Coherent)
    (hr : getOrCreateRecord i s = .ok owner t) (hn : payload.symbolName = none) (hb : payload.hasBody = false)
    (hx : s.placements = some x) (hm : (l, subPath) ∈ payload.placements) :
    ∃ v, instanceAt l (t.noted owner payload) = .ok (some (i, subPath)) v := by
  obtain ⟨ho, ht, _⟩ := recorded_of_getOrCreateRecord hs hr
  obtain ⟨hnoted, hext⟩ := ht.noted ho.stands hn hb
  obtain ⟨_, _, hkept⟩ := steady_getOrCreateRecord hs hr
  have hdatabase : t.placements = some x := hkept.trans hx
  have hclaim : Table.findIn l (payload.placements.map fun p => (p.1, (⟨t.graph.nextId, p.2⟩ : Claim))).reverse =
      some ⟨t.graph.nextId, subPath⟩ := PlacementIndex.findIn_claims.mpr ⟨rfl, hm⟩
  have hheld : (t.graph.created payload (some owner.record)).Holds t.graph.nextId _ :=
    Graph.holds_created_next ht.forest ho.stands.accepts
  have howner : (t.noted owner payload).ownerAt l = .ok (some (t.graph.handle owner.record, subPath)) := by
    simp only [ownerAt, noted, recordClaims, hdatabase, Option.map_some, PlacementIndex.find?_insertAll]
    rw [hclaim]
    simp only [Option.some_or, Graph.recordOf_of_holds hheld]
    rfl
  obtain ⟨v, hv, _⟩ := resolveNode_of_standsFor (h := t.graph.handle owner.record) hnoted.forest
    (hext.standsFor ho.stands) rfl
  exact ⟨v, instanceAt_of_owner howner hv⟩

end Noting

lemma exists_index (h : s.checkLocation l = .ok ()) : ∃ x, s.placements = some x := by
  cases hx : s.placements with
  | none => simp [checkLocation, hx] at h
  | some x => exact ⟨x, rfl⟩

structure Gains (s t : Design) (i : InstanceId) (ls : List (Location × SubPath))
    (as : List (String × String × SubPath)) : Prop where
  locations : ∃ old, outcome (Design.locations i s) = .ok old ∧ outcome (Design.locations i t) = .ok (old ++ ls)
  attributes : ∃ old, outcome (Design.attributes i s) = .ok old ∧ outcome (Design.attributes i t) = .ok (old ++ as)
  others : ∀ j, j ≠ i → outcome (Design.locations j t) = outcome (Design.locations j s) ∧
    outcome (Design.attributes j t) = outcome (Design.attributes j s)

lemma gains_noted (hs : s.Coherent) (hr : getOrCreateRecord i s = .ok owner t) (hn : payload.symbolName = none)
    (hb : payload.hasBody = false) :
    s.Gains (t.noted owner payload) i payload.placements (attribute? payload).toList := by
  have hlocations := shown_noted (f := Payload.placements) (fun _ => rfl) hn hb hs hr
  have hattributes := shown_noted (f := fun payload => (attribute? payload).toList) (fun _ => rfl) hn hb hs hr
  simp only [← outcome_locations] at hlocations
  simp only [← outcome_attributes] at hattributes
  obtain ⟨_, hl⟩ : ∃ ls, outcome (locations i s) = .ok ls :=
    ⟨_, (outcome_locations s i).trans (shown_of_record (fun _ => rfl) hs hr)⟩
  obtain ⟨_, ha⟩ : ∃ as, outcome (attributes i s) = .ok as :=
    ⟨_, (outcome_attributes s i).trans (shown_of_record (fun _ => rfl) hs hr)⟩
  refine ⟨⟨_, hl, ?_⟩, ⟨_, ha, ?_⟩, fun j hj => ⟨?_, ?_⟩⟩
  · rw [hlocations, hl, if_pos rfl]
    rfl
  · rw [hattributes, ha, if_pos rfl]
    rfl
  · rw [hlocations, if_neg hj, map_append_nil]
  · rw [hattributes, if_neg hj, map_append_nil]

/-- An instance that is placed has the new location after the locations that it had, the location leads back to it, and
nothing else is read of any other instance. The same holds of a register with all its bits, in their order. An attribute
is added to any instance that has a record or gets one. It comes after the attributes of its instance, and changes no
locations. -/
theorem placements_read_back (hs : s.Reachable) :
    (∀ i l subPath t, place i l subPath s = .ok () t →
        s.Gains t i [(l, subPath)] [] ∧ outcome (instanceAt l t) = .ok (some (i, subPath))) ∧
      (∀ i v t, placeRegister i v s = .ok () t →
        s.Gains t i (v.placed.map (·, none)) [] ∧ ∀ l ∈ v.placed, outcome (instanceAt l t) = .ok (some (i, none))) ∧
      ∀ i name value subPath,
        ((∃ t, addAttribute i name value subPath s = .ok () t) ↔ ∃ owner t, getOrCreateRecord i s = .ok owner t) ∧
        ∀ t, addAttribute i name value subPath s = .ok () t → s.Gains t i [] [(name, value, subPath)] := by
  have hc := hs.coherent
  refine ⟨?_, ?_, fun i name value subPath => ?_⟩
  · intro i l subPath t h
    obtain ⟨_, _, hkind, h⟩ := ok_of_bind h
    obtain ⟨rfl, _⟩ := Action.of_read hkind
    obtain ⟨_, _, hcheck, h⟩ := ok_of_bind h
    obtain ⟨rfl, hl⟩ := Action.of_read hcheck
    obtain ⟨owner, u, hr, rfl⟩ := noted_of_addLocations hc h
    obtain ⟨x, hx⟩ := exists_index hl
    have hm : (l, subPath) ∈ (Payload.location l subPath).placements := List.mem_singleton.mpr rfl
    obtain ⟨v, hv⟩ := instanceAt_noted hc hr rfl rfl hx hm
    exact ⟨gains_noted hc hr rfl rfl, congrArg outcome hv⟩
  · intro i v t h
    obtain ⟨_, _, hkind, h⟩ := ok_of_bind h
    obtain ⟨rfl, _⟩ := Action.of_read hkind
    obtain ⟨_, _, hwidth, h⟩ := ok_of_bind h
    obtain ⟨rfl, _⟩ := Action.of_read hwidth
    obtain ⟨_, _, hcheck, h⟩ := ok_of_bind h
    obtain ⟨rfl, hls⟩ := Action.of_read hcheck
    obtain ⟨owner, u, hr, rfl⟩ := noted_of_addLocations hc h
    refine ⟨gains_noted hc hr rfl rfl, fun l hl => ?_⟩
    obtain ⟨x, hx⟩ := exists_index (checkLocations_ok.mp hls l hl)
    have hm : (l, none) ∈ (Payload.registerLocations v).placements := List.mem_map_of_mem hl
    obtain ⟨w, hw⟩ := instanceAt_noted hc hr rfl rfl hx hm
    exact congrArg outcome hw
  · rw [addAttribute_eq]
    refine ⟨addLocations_ok hc, fun t h => ?_⟩
    obtain ⟨owner, u, hr, rfl⟩ := noted_of_addLocations hc h
    exact gains_noted hc hr rfl rfl

def firstBit : Location := ⟨.flipFlop, 1, 0, 0⟩

def lastBit : Location := ⟨.flipFlop, 2, 0, 0⟩

def outerBits : LocationVector := ⟨.int 8, some firstBit :: List.replicate 6 none ++ [some lastBit]⟩

def placedRoot : Design :=
  lateRegister.run [.call (.placementDatabase none), .call (.place ⟨0, 0⟩ nearLocation (some "|a"))]

lemma reachable_placedRoot : placedRoot.Reachable := reachable_lateRegister.trans (reaches_run _ _)

theorem placements_read_back_register : ∃ t u,
    placeRegister ⟨1, 0⟩ outerBits placedRoot = .ok () t ∧
      outcome (locations ⟨0, 0⟩ t) = .ok [(nearLocation, some "|a")] ∧
      outcome (locations ⟨1, 0⟩ t) = .ok [(firstBit, none), (lastBit, none)] ∧
      outcome (instanceAt lastBit t) = .ok (some (⟨1, 0⟩, none)) ∧
      addAttribute ⟨0, 0⟩ "keep" "true" none placedRoot = .ok () u ∧
      outcome (attributes ⟨0, 0⟩ u) = .ok [("keep", "true", none)] ∧
      outcome (locations ⟨0, 0⟩ u) = .ok [(nearLocation, some "|a")] := by
  have hplace : placeRegister ⟨1, 0⟩ outerBits placedRoot = .ok () _ := rfl
  have hrecord : getOrCreateRecord ⟨0, 0⟩ placedRoot = .ok _ _ := rfl
  obtain ⟨_, hregisters, hattributes⟩ := placements_read_back reachable_placedRoot
  obtain ⟨hgains, hat⟩ := hregisters _ _ _ hplace
  obtain ⟨old, hold, hnew⟩ := hgains.locations
  obtain rfl : [] = old := Except.ok.inj hold
  obtain ⟨hroot, _⟩ := hgains.others ⟨0, 0⟩ (by decide)
  obtain ⟨hadded, hshown⟩ := hattributes ⟨0, 0⟩ "keep" "true" none
  obtain ⟨u, hadd⟩ := hadded.mpr ⟨_, _, hrecord⟩
  obtain ⟨⟨placed, hplaced, hstill⟩, ⟨noted, hnoted, hread⟩, _⟩ := hshown u hadd
  obtain rfl : [(nearLocation, some "|a")] = placed := Except.ok.inj hplaced
  obtain rfl : [] = noted := Except.ok.inj hnoted
  exact ⟨_, u, hplace, hroot.trans rfl, hnew, hat _ (by decide), hadd, hread, hstill⟩

end Design

end HardwareDesign
