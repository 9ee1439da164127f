import HardwareDesign.Proofs.Allocating
import HardwareDesign.Proofs.Indexing
import HardwareDesign.Proofs.Restricting
import HardwareDesign.Proofs.RoundTrip

namespace HardwareDesign.Design

structure Claimed (s : Design) : Prop where
  forest : s.graph.Forest
  placed : s.graph.Placed
  current : (s.placements.getD {}).Current s.graph

variable {powers : Powers} {s t u : Design} {log : List Allocation} {i : InstanceId} {owner : Handle}
  {payload : Payload} {l : Location}

lemma claimed_new (config : Config) (source : Nat) : (new config source).Claimed where
  forest := Graph.forest_empty source
  placed _ _ h := by cases h
  current := PlacementIndex.current_empty source

namespace Claimed

lemma congr (h : s.Claimed) (hg : t.graph = s.graph) (hp : t.placements = s.placements) : t.Claimed := by
  obtain ⟨hforest, hplaced, hcurrent⟩ := h
  rw [← hg] at hforest hplaced hcurrent
  exact ⟨hforest, hplaced, hp ▸ hcurrent⟩

lemma derived (h : s.Claimed) (hd : s.graph.Derives Graph.Unplaced t.graph) (hg : t.graph.Forest)
    (hp : t.placements = s.placements) : t.Claimed where
  forest := hg
  placed := h.placed.derived (hd.mono Graph.Unplaced.suits) h.forest hg
  current := hp ▸ h.current.derived hd

end Claimed

structure Unplacing (s t : Design) : Prop where
  claimed : t.Claimed
  derives : s.graph.Derives Graph.Unplaced t.graph
  database : s.placements.isSome → t.placements.isSome

namespace Unplacing

lemma congr (h : s.Unplacing t) (hg : u.graph = t.graph) (hp : u.placements = t.placements) : s.Unplacing u :=
  ⟨h.claimed.congr hg hp, hg ▸ h.derives, hp ▸ h.database⟩

lemma created {parent : Option RecordId} (h : s.Unplacing t) (ha : t.graph.Accepts parent)
    (hu : Graph.Unplaced payload parent) (hg : u.graph = t.graph.created payload parent)
    (hp : u.placements = t.placements) : s.Unplacing u := by
  have hd : t.graph.Derives Graph.Unplaced u.graph := hg ▸ h.claimed.forest.derives ha hu
  have hforest : u.graph.Forest := hg ▸ h.claimed.forest.created ha
  exact ⟨h.claimed.derived hd hforest hp, h.derives.trans hd, hp ▸ h.database⟩

end Unplacing

lemma Acts.invariant {P : Design → Prop} (h : s.Acts powers log t) (hg : s.graph.Forest) (hp : P s)
    (congr : ∀ {u v}, P u → v.graph = u.graph → v.placements = u.placements → P v)
    (created : ∀ {u v payload parent}, P u → u.graph.Forest → u.graph.Accepts parent → Graph.Unplaced payload parent →
      v.graph = u.graph.created payload parent → v.placements = u.placements → P v)
    (database : ∀ {u device index}, P u → u.graph.Forest → u.placements = none →
      PlacementIndex.ofGraph device u.graph = .ok index → P { u with placements := some index })
    (note : ∀ {u owner payload}, powers.places → P u → u.graph.Forest → u.graph.Accepts (some owner.record) →
      P (u.noted owner payload)) : t.graph.Forest ∧ P t := by
  have hcreated : ∀ {u v payload parent}, u.graph.Forest ∧ P u → u.graph.Accepts parent →
      Graph.Unplaced payload parent → v.graph = u.graph.created payload parent → v.placements = u.placements →
      v.graph.Forest ∧ P v :=
    fun hu ha hunplaced hv hplacements => ⟨hv ▸ hu.1.created ha, created hu.2 hu.1 ha hunplaced hv hplacements⟩
  induction h with
  | refl => exact ⟨hg, hp⟩
  | keep _ ho _ ih => exact ⟨graph_of_outline ho ▸ ih.1, congr ih.2 (graph_of_outline ho) (placements_of_outline ho)⟩
  | work _ _ _ _ ih => exact ⟨ih.1, congr ih.2 rfl rfl⟩
  | scan _ ih => exact ⟨ih.1, congr ih.2 rfl rfl⟩
  | index _ _ ih => exact ⟨ih.1, congr ih.2 rfl rfl⟩
  | forget _ _ ih => exact ⟨ih.1, congr ih.2 rfl rfl⟩
  | create _ _ _ hc hplain ih =>
    obtain ⟨_, ha, _, rfl⟩ := Graph.createIn_ok hc
    have ha : Graph.Accepts _ (some _) := ha
    refine hcreated ih ha ⟨hplain.placements, ?_⟩ rfl rfl
    rintro top rfl
    exact hplain.elim
  | hierarchy top _ _ ih => exact hcreated ih (Graph.accepts_top _) ⟨rfl, fun _ _ => rfl⟩ rfl rfl
  | @build _ _ _ definition _ _ _ _ _ ih =>
    refine hcreated ih (Graph.accepts_top _) ⟨?_, fun _ _ => rfl⟩ (built_graph _) ?_
    all_goals cases definition.body.isExternal <;> rfl
  | root _ _ ih => exact ⟨ih.1, congr ih.2 rfl rfl⟩
  | expand _ _ _ _ ih => exact ⟨ih.1, congr ih.2 rfl rfl⟩
  | attach _ _ _ _ ih => exact ⟨ih.1, congr ih.2 rfl rfl⟩
  | database _ hnone hindex ih => exact ⟨ih.1, database ih.2 ih.1 hnone hindex⟩
  | note hplaces _ _ _ hc ih =>
    obtain ⟨_, ha, rfl, rfl⟩ := Graph.createIn_ok hc
    have ha : Graph.Accepts _ (some _) := ha
    exact ⟨ih.1.created ha, note hplaces ih.2 ih.1 ha⟩

lemma Acts.unplacing (h : s.Acts powers log t) (hn : ¬ powers.places) (hs : s.Claimed) : s.Unplacing t := by
  refine (h.invariant (P := s.Unplacing) hs.forest ⟨hs, .refl _, id⟩ ?_ ?_ ?_ fun hp => (hn hp).elim).2
  · exact fun hu hg hp => hu.congr hg hp
  · exact fun hu _ ha hunplaced hg hp => hu.created ha hunplaced hg hp
  · intro u device index hu hg hnone hindex
    obtain ⟨⟨hforest, hplaced, hempty⟩, hd, _⟩ := hu
    rw [hnone] at hempty
    exact ⟨⟨hforest, hplaced, (hempty.remade hforest hplaced hindex).1⟩, hd, fun _ => rfl⟩

section Placing

lemma StandsFor.rooted {id : RecordId} (h : s.StandsFor id i) (hg : s.graph.Forest) (hp : s.graph.Placed) :
    s.graph.Rooted id := by
  induction h with
  | root hr hpay _ _ => exact ⟨_, hg.root_top hr ((hp _ _ hr).1 _ hpay), ⟨_, _, hr, hpay⟩, .refl⟩
  | child hr _ hpar _ _ _ _ ih =>
    obtain ⟨root, htop, hroot, hbelow⟩ := ih
    exact ⟨root, htop, hroot, hbelow.tail ⟨_, hr, hpar⟩⟩

lemma Claimed.noted (h : s.Claimed) (ha : s.graph.Accepts (some owner.record)) (hr : s.graph.Rooted owner.record)
    (hn : ∀ top, payload ≠ .hierarchy top)
    (hfree : ∀ p ∈ payload.placements, s.placements.isSome ∧ s.graph.Free p.1) : (s.noted owner payload).Claimed where
  forest := h.forest.created ha
  placed := by
    have hsuits : s.graph.Suits payload (some owner.record) := ⟨fun top hp => (hn top hp).elim, fun _ => ⟨_, rfl, hr⟩⟩
    exact h.placed.derived (h.forest.derives ha hsuits) h.forest (h.forest.created ha)
  current := by
    have hcurrent := h.current.noted h.forest ha fun p hp => (hfree p hp).2
    cases hp : s.placements with
    | some index => simpa [Design.noted, recordClaims, hp] using hcurrent
    | none =>
      have hempty : payload.placements = [] := by
        apply List.eq_nil_iff_forall_not_mem.mpr
        intro p hm
        simpa [hp] using (hfree p hm).1
      simpa [Design.noted, recordClaims, hp, hempty, PlacementIndex.insertAll] using hcurrent

lemma addLocations_eq (hr : getOrCreateRecord i s = .ok owner t) (he : owner.epoch = t.graph.epoch)
    (ha : t.graph.Accepts (some owner.record)) : addLocations i payload s = .ok () (t.noted owner payload) := by
  rw [addLocations, bind_of_ok hr]
  exact Action.createIn_bind he ha payload _

lemma addLocations_ok (hs : s.Coherent) :
    (∃ t, addLocations i payload s = .ok () t) ↔ ∃ owner t, getOrCreateRecord i s = .ok owner t := by
  constructor
  · rintro ⟨t, ht⟩
    obtain ⟨owner, u, hr, _⟩ := ok_of_bind ht
    exact ⟨owner, u, hr⟩
  · rintro ⟨owner, t, hr⟩
    obtain ⟨ho, _⟩ := recorded_of_getOrCreateRecord hs hr
    exact ⟨_, addLocations_eq hr ho.epoch ho.stands.accepts⟩

lemma addLocations_cases (hs : s.Coherent) (i : InstanceId) (payload : Payload) :
    ∃ t, s.Acts { creates := True } [] t ∧ (endState (addLocations i payload s) = t ∨
      ∃ owner, t.StandsFor owner.record i ∧ endState (addLocations i payload s) = t.noted owner payload) := by
  have hacts : s.Acts { creates := True } [] _ := (silent_getOrCreateRecord trivial i).acts
  cases hr : getOrCreateRecord i s with
  | error e t =>
    rw [hr] at hacts
    refine ⟨t, hacts, .inl ?_⟩
    rw [addLocations, bind_of_error hr]
    rfl
  | ok owner t =>
    rw [hr] at hacts
    obtain ⟨ho, _⟩ := recorded_of_getOrCreateRecord hs hr
    refine ⟨t, hacts, .inr ⟨owner, ho.stands, ?_⟩⟩
    rw [addLocations_eq hr ho.epoch ho.stands.accepts]
    rfl

lemma Claimed.addLocations (hs : s.Coherent) (h : s.Claimed) (hn : ∀ top, payload ≠ .hierarchy top)
    (hfree : ∀ p ∈ payload.placements, s.placements.isSome ∧ s.graph.Free p.1) :
    (endState (addLocations i payload s)).Claimed := by
  obtain ⟨t, hacts, hend⟩ := addLocations_cases hs i payload
  obtain ⟨hclaimed, hd, hdatabase⟩ := hacts.unplacing id h
  rcases hend with hend | ⟨owner, hstands, hend⟩
  · rw [hend]
    exact hclaimed
  · rw [hend]
    refine hclaimed.noted hstands.accepts (hstands.rooted hclaimed.forest hclaimed.placed) hn fun p hp => ?_
    -- the locations were free before the records of the instance were made, and those are for no location
    obtain ⟨hsome, hl⟩ := hfree p hp
    exact ⟨hdatabase hsome, hl.derived hd⟩

lemma checkLocation_ok {x : PlacementIndex} (hx : s.placements = some x) (hstrict : s.config.placement.strict = true) :
    s.checkLocation l = .ok () ↔
      (∀ d, x.device = some d → d.isValid l = true) ∧ x.occupant s.graph l = none := by
  rw [← PlacementIndex.check_ok]
  simp only [checkLocation, hx, hstrict]
  cases x.check s.graph true l <;> simp

lemma checkLocations_ok {ls : List Location} :
    s.checkLocations ls = .ok () ↔ ∀ l ∈ ls, s.checkLocation l = .ok () := by
  induction ls with
  | nil => simp [checkLocations]
  | cons l ls ih =>
    rw [List.forall_mem_cons, ← ih, checkLocations]
    cases s.checkLocation l <;> simp [bind, Except.bind]

lemma Claimed.free_of_checkLocation (hs : s.Claimed) (hstrict : s.config.placement.strict = true)
    (hc : s.checkLocation l = .ok ()) : s.placements.isSome ∧ s.graph.Free l := by
  have hcurrent := hs.current
  cases hp : s.placements with
  | none => simp [checkLocation, hp] at hc
  | some index =>
    rw [hp] at hcurrent
    exact ⟨rfl, hcurrent.free ((checkLocation_ok hp hstrict).mp hc).2⟩

end Placing

section Running

variable {α β : Type}

lemma endState_read {P : Design → Prop} {f : Design → Except Error α} {k : α → Action β} (h : P s)
    (hk : ∀ a, f s = .ok a → P (endState (k a s))) : P (endState ((Action.read f >>= k) s)) := by
  cases hf : f s with
  | ok a =>
    rw [bind_of_ok (Action.read_ok hf)]
    exact hk a hf
  | error e =>
    rw [bind_of_error (Action.read_error hf)]
    exact h

lemma Claimed.after (hs : s.Coherent) (h : s.Claimed) (hstrict : s.config.placement.strict = true) (c : Call) :
    (s.after c).Claimed := by
  cases c with
  | place i l subPath =>
    refine endState_read h fun _ _ => endState_read h fun _ hl => ?_
    refine h.addLocations hs (fun _ hp => by cases hp) fun p hp => ?_
    obtain rfl := List.mem_singleton.mp hp
    exact h.free_of_checkLocation hstrict hl
  | placeRegister i v =>
    refine endState_read h fun _ _ => endState_read h fun _ _ => endState_read h fun _ hl => ?_
    refine h.addLocations hs (fun _ hp => by cases hp) fun p hp => ?_
    obtain ⟨l, hm, rfl⟩ := List.mem_map.mp hp
    exact h.free_of_checkLocation hstrict (checkLocations_ok.mp hl l hm)
  | _ => exact ((acts_after s _).unplacing id h).claimed

lemma Acts.config (h : s.Acts powers log t) : t.config = s.config := by
  induction h with
  | refl => rfl
  | keep _ ho _ ih => exact (congrArg (fun u => u.config) ho).trans ih
  | @build _ _ _ definition _ _ _ _ _ ih =>
    rw [built]
    cases definition.body.isExternal <;> exact ih
  | _ => assumption

lemma Rewritten.claimed (h : s.Rewritten (fun _ => False) t) (hs : s.Claimed) : t.Claimed := by
  have hd : s.graph.Derives Graph.Unplaced t.graph := (h.derives hs.forest).mono False.elim
  obtain ⟨issues, passed, hedits, _⟩ := h
  exact hs.derived hd (hedits.forest hs.forest.nextEpoch) rfl

lemma ReachableWith.claimed (h : s.ReachableWith fun _ => False) (hstrict : s.config.placement.strict = true) :
    s.Claimed := by
  obtain ⟨config, source, hr⟩ := h
  refine ReachesWith.invariant (P := fun u => u.config.placement.strict = true → u.Claimed) hr
    (coherent_new config source) (fun _ => claimed_new config source) ?_ ?_ hstrict
  · intro u hu h c hc
    rw [(acts_after u c).config] at hc
    exact (h hc).after hu hc c
  · intro u v hu hrewrite h hc
    refine hrewrite.claimed (h ?_)
    obtain ⟨issues, passed, _, _⟩ := hrewrite
    exact hc

end Running

end HardwareDesign.Design
