import HardwareDesign.Proofs.Overlooking
import HardwareDesign.Proofs.Reindexing

namespace HardwareDesign

structure Graph.Newest (g : Graph) (l : Location) (c : Claim) : Prop where
  places : g.Places l c
  last : ∀ c', g.Places l c' → c'.record.index ≤ c.record.index

def Graph.Nested (g : Graph) : Prop := ∀ id r, g.Holds id r → r.payload.placements ≠ [] → r.parent ≠ none

def PlacementIndex.Covers (x : PlacementIndex) (l : Location) (c : Claim) : Prop :=
  ∃ c', x.claims.find? l = some c' ∧ (c' = c ∨ c.record.index < c'.record.index)

variable {x y : PlacementIndex} {g g' : Graph} {l : Location} {c : Claim} {payload : Payload}
  {parent : Option RecordId}

namespace Graph

lemma places_created (hg : g.Forest) (ha : g.Accepts parent) :
    (g.created payload parent).Places l c ↔
      c.record = g.nextId ∧ (l, c.subPath) ∈ payload.placements ∨ g.Places l c := by
  constructor
  · rintro ⟨r, hr, hm⟩
    rcases (holds_created hg ha).mp hr with ⟨hid, rfl⟩ | ⟨r₀, h₀, rfl⟩
    · exact .inl ⟨hid, hm⟩
    · exact .inr ⟨r₀, h₀, hm⟩
  · rintro (⟨hid, hm⟩ | ⟨r₀, h₀, hm⟩)
    · exact ⟨_, (holds_created hg ha).mpr (.inl ⟨hid, rfl⟩), hm⟩
    · exact ⟨_, (holds_created hg ha).mpr (.inr ⟨r₀, h₀, rfl⟩), hm⟩

lemma Nested.derived {allowed : Payload → Option RecordId → Prop} (h : g.Nested) (hd : g.Derives allowed g')
    (ha : ∀ {payload parent}, allowed payload parent → payload.placements ≠ [] → parent ≠ none) : g'.Nested := by
  intro id r' hr' hne
  rcases hd.records hr' with ⟨r, hr, hpay, hpar⟩ | ⟨_, hnew⟩
  · exact hpar ▸ h id r hr (hpay ▸ hne)
  · exact ha hnew hne

end Graph

namespace PlacementIndex

lemma Covers.noted (h : x.Covers l c) (hx : x.Known g) :
    (x.insertAll (payload.placements.map fun p => (p.1, ⟨g.nextId, p.2⟩))).Covers l c := by
  obtain ⟨c', hf, hle⟩ := h
  rw [Covers, find?_insertAll]
  cases hnew : Table.findIn l _ with
  | none => exact ⟨c', hf, hle⟩
  | some e =>
    have hlt : c'.record.index < e.record.index := (findIn_claims.mp hnew).1 ▸ Nat.lt_succ_of_le (hx l c' hf).1
    refine ⟨e, rfl, .inr ?_⟩
    rcases hle with rfl | hle
    · exact hlt
    · exact Nat.lt_trans hle hlt

lemma covers_noted (hm : (l, c.subPath) ∈ payload.placements) (hid : c.record = g.nextId) :
    (x.insertAll (payload.placements.map fun p => (p.1, ⟨g.nextId, p.2⟩))).Covers l c :=
  ⟨c, by rw [find?_insertAll, findIn_claims.mpr ⟨hid, hm⟩]; rfl, .inl rfl⟩

end PlacementIndex

namespace Design

variable {s t u v w : Design}

abbrev Erases : Design → Design → Prop := ReachesWith fun _ => False

def Claims (s t : Design) (l : Location) (c : Claim) : Prop := ∃ u, s.Erases u ∧ u.Erases t ∧ u.graph.Places l c

structure Tracked (s : Design) (x : PlacementIndex) : Prop where
  database : s.placements = some x
  known : x.Known s.graph
  covered : ∀ {l c}, s.graph.Places l c → x.Covers l c
  nested : s.graph.Nested

structure Follows (t : Design) (x y : PlacementIndex) : Prop where
  covers : ∀ {l c}, x.Covers l c → y.Covers l c
  fresh : ∀ {l c}, y.claims.find? l = some c → x.claims.find? l = some c ∨ t.graph.Places l c

section Tracking

lemma Tracked.derived (h : s.Tracked x) (hd : s.graph.Derives Graph.Unplaced t.graph)
    (hp : t.placements = s.placements) : t.Tracked x where
  database := hp.trans h.database
  known := h.known.derived hd
  covered hc := h.covered (hc.before hd)
  nested := h.nested.derived hd fun hnew hne => absurd hnew.placements hne

lemma Tracked.noted (h : s.Tracked x) (hg : s.graph.Forest) {owner : Handle}
    (ha : s.graph.Accepts (some owner.record)) :
    (s.noted owner payload).Tracked (x.insertAll (payload.placements.map fun p => (p.1, ⟨s.graph.nextId, p.2⟩))) where
  database := by simp [Design.noted, recordClaims, h.database]
  known := h.known.noted hg ha
  covered hc := by
    rcases (Graph.places_created hg ha).mp hc with ⟨hid, hm⟩ | hold
    · exact PlacementIndex.covers_noted hm hid
    · exact (h.covered hold).noted h.known
  nested := by
    have hd : s.graph.Derives (fun _ parent => parent ≠ none) (s.noted owner payload).graph :=
      hg.derives ha (Option.some_ne_none _)
    exact h.nested.derived hd fun hne _ => hne

lemma Tracked.after (h : s.Tracked x) (hs : s.Coherent) (call : Call) :
    ∃ y, (s.after call).Tracked y ∧ (s.after call).Follows x y := by
  refine ((acts_after s call).invariant (P := fun u => ∃ y, u.Tracked y ∧ u.Follows x y) hs.forest
    ⟨x, h, id, .inl⟩ ?_ ?_ ?_ ?_).2
  · rintro u v ⟨y, hy, hfollows⟩ hgraph hp
    have hd : u.graph.Derives Graph.Unplaced v.graph := hgraph ▸ .refl _
    exact ⟨y, hy.derived hd hp, hfollows.covers, hgraph ▸ hfollows.fresh⟩
  · rintro u v payload parent ⟨y, hy, hfollows⟩ hg ha hunplaced hgraph hp
    have hd : u.graph.Derives Graph.Unplaced v.graph := hgraph ▸ hg.derives ha hunplaced
    refine ⟨y, hy.derived hd hp, hfollows.covers, fun hf => (hfollows.fresh hf).imp_right fun hc => ?_⟩
    exact hgraph ▸ (Graph.places_created hg ha).mpr (.inr hc)
  · rintro u device index ⟨y, hy, _⟩ _ hnone _
    cases hy.database.symm.trans hnone
  · rintro u owner payload _ ⟨y, hy, hfollows⟩ hg ha
    refine ⟨_, hy.noted hg ha, fun hc => (hfollows.covers hc).noted hy.known, fun hf => ?_⟩
    rw [PlacementIndex.find?_insertAll, Option.or_eq_some_iff] at hf
    rcases hf with hnew | ⟨_, hold⟩
    · obtain ⟨hid, hm⟩ := PlacementIndex.findIn_claims.mp hnew
      exact .inr ((Graph.places_created hg ha).mpr (.inl ⟨hid, hm⟩))
    · exact (hfollows.fresh hold).imp_right fun hc => (Graph.places_created hg ha).mpr (.inr hc)

lemma Tracked.rewritten (h : s.Tracked x) (hs : s.Coherent) (hr : s.Rewritten (fun _ => False) t) : t.Tracked x :=
  h.derived ((hr.derives hs.forest).mono False.elim) hr.placements

lemma Tracked.step (h : s.Tracked x) (hs : s.Coherent) (hstep : s.StepWith (fun _ => False) t) :
    ∃ y, t.Tracked y ∧ t.Follows x y := by
  cases hstep with
  | operation o =>
    cases o with
    | call c => exact h.after hs c
    | invalidate held => exact ⟨x, h.rewritten hs (rewritten_invalidate s held), id, .inl⟩
  | passes passes held st hmade =>
    cases hp : s.passed with
    | true =>
      rw [runPasses_passed hp]
      exact ⟨x, h, id, .inl⟩
    | false => exact ⟨x, h.rewritten hs (rewritten_runPasses hs.forest hp hmade), id, .inl⟩

lemma Tracked.run (h : s.Tracked x) (hs : s.Coherent) (hr : s.Erases t) :
    ∃ y, t.Tracked y ∧ (∀ {l c}, x.Covers l c → y.Covers l c) ∧
      ∀ {l c}, y.claims.find? l = some c → x.claims.find? l = some c ∨ s.Claims t l c := by
  induction hr with
  | refl => exact ⟨x, h, id, .inl⟩
  | tail hrun hlast ih =>
    obtain ⟨y, hy, hcovers, hfresh⟩ := ih
    have hu := (Reaches.coherent (ReachesWith.reaches hrun) hs).1
    obtain ⟨z, hz, hfollows⟩ := hy.step hu hlast
    refine ⟨z, hz, fun hc => hfollows.covers (hcovers hc), fun hf => ?_⟩
    rcases hfollows.fresh hf with hold | hnew
    · exact (hfresh hold).imp_right fun ⟨w, hw, hw', hc⟩ => ⟨w, hw, hw'.tail hlast, hc⟩
    · exact .inr ⟨_, hrun.tail hlast, .refl, hnew⟩

end Tracking

section Lookup

variable {device : Option Device}

lemma tracked_since (hu : u.ReachableWith fun _ => False) (hnone : u.placements = none)
    (hfree : ∀ l, u.graph.Free l) (hv : createPlacementDatabase device u = .ok () v) (hr : v.Erases s) :
    ∃ y, s.Tracked y ∧ (∀ {l c}, y.claims.find? l = some c → v.Claims s l c) ∧
      ∀ {l c}, v.Claims s l c → y.Covers l c := by
  have hc := hu.reachable.coherent
  obtain ⟨x, hx⟩ := Graph.placementIndex_ok hc.forest device
  obtain rfl : v = u.withPlacements (some x) := by
    cases (createPlacementDatabase_new hx hnone).symm.trans hv
    rfl
  have htracked : Tracked (u.withPlacements (some x)) x := by
    refine ⟨rfl, .of_ofGraph hc.forest hx, fun h => (hfree _ _ h).elim, fun id r hr hne => ?_⟩
    obtain ⟨p, hp⟩ := List.exists_mem_of_ne_nil _ hne
    exact (hfree p.1 ⟨id, p.2⟩ ⟨r, hr, hp⟩).elim
  have hcoherent : (u.withPlacements (some x)).Coherent := by
    have hstep : u.after (.placementDatabase device) = u.withPlacements (some x) := congrArg endState hv
    exact hstep ▸ (hu.trans (.single (.operation (.call (.placementDatabase device))))).reachable.coherent
  obtain ⟨y, hy, _, hfresh⟩ := htracked.run hcoherent hr
  refine ⟨y, hy, fun hf => (hfresh hf).resolve_left fun hold => ?_, ?_⟩
  · exact hfree _ _ (PlacementIndex.places_of_ofGraph hc.forest hx hold)
  -- a claim is covered at the moment at which it is there, and what is covered then stays so
  · rintro l c ⟨w, hw, hw', hplaces⟩
    obtain ⟨z, hz, _⟩ := htracked.run hcoherent hw
    obtain ⟨y', hy', hcovers, _⟩ := hz.run (Reaches.coherent (ReachesWith.reaches hw) hcoherent).1 hw'
    obtain rfl := Option.some.inj (hy.database.symm.trans hy'.database)
    exact hcovers (hz.covered hplaces)

lemma instanceAt_nobody (hp : s.placements = some x)
    (h : ∀ c, x.claims.find? l = some c → s.graph.contains c.record = false) : instanceAt l s = .ok none s := by
  have howner : s.ownerAt l = .ok none := by
    cases hc : x.claims.find? l with
    | none => simp only [ownerAt, hp, hc]
    | some c =>
      have hgone : s.graph.records.find? c.record = none := by
        simpa [Graph.contains, Table.contains] using h c hc
      simp only [ownerAt, hp, hc, Graph.recordOf, hgone]
  rw [instanceAt, liftM_eq, bind_of_ok (Action.guarded_ok (Action.read_ok howner))]
  rfl

lemma instanceAt_owner (hp : s.placements = some x) (hc : x.claims.find? l = some c) {r : Record} {p : RecordId}
    (hr : s.graph.Holds c.record r) (hpar : r.parent = some p) :
    instanceAt l s = (do return some (← resolveNode (s.graph.handle p), c.subPath)) s := by
  have howner : s.ownerAt l = .ok (some (s.graph.handle p, c.subPath)) := by
    simp only [ownerAt, hp, hc, Graph.recordOf_of_holds hr, hpar, Option.map_some]
  rw [instanceAt, liftM_eq, bind_of_ok (Action.guarded_ok (Action.read_ok howner))]

/-- The database has been made while there were no locations, and passes have erased records only. A location leads to
the record of the latest claim that is left if no later one has ever been made, and to nobody if one has been, or if no
claim is left. -/
theorem lookup_shared (hu : u.ReachableWith fun _ => False) (hnone : u.placements = none)
    (hfree : ∀ l, u.graph.Free l) (hv : createPlacementDatabase device u = .ok () v) (hr : v.Erases s) (l : Location) :
    (s.graph.Free l → instanceAt l s = .ok none s) ∧ ∀ c, s.graph.Newest l c →
      ((∀ c', v.Claims s l c' → c'.record.index ≤ c.record.index) →
        ∃ r p, s.graph.Holds c.record r ∧ r.parent = some p ∧
          instanceAt l s = (do return some (← resolveNode (s.graph.handle p), c.subPath)) s) ∧
      ∀ c', v.Claims s l c' → c.record.index < c'.record.index → instanceAt l s = .ok none s := by
  obtain ⟨y, hy, hclaims, hcovers⟩ := tracked_since hu hnone hfree hv hr
  refine ⟨fun hl => ?_, fun c hc => ⟨fun hlatest => ?_, fun c' hc' hlt => ?_⟩⟩
  · refine instanceAt_nobody hy.database fun c hf => ?_
    exact Bool.eq_false_iff.mpr fun hheld => hl c ((hy.known l c hf).2 hheld)
  · obtain ⟨e, hf, rfl | hlt⟩ := hy.covered hc.places
    · obtain ⟨r, hr, hm⟩ := hc.places
      obtain ⟨p, hpar⟩ := Option.ne_none_iff_exists'.mp (hy.nested _ r hr (List.ne_nil_of_mem hm))
      exact ⟨r, p, hr, hpar, instanceAt_owner hy.database hf hr hpar⟩
    · exact absurd (hlatest e (hclaims hf)) (Nat.not_le_of_lt hlt)
  · -- what the database has is at least as late as the later claim, so it is not among the claims that are left
    obtain ⟨e, hf, hle⟩ := hcovers hc'
    have hlater : c.record.index < e.record.index := by
      rcases hle with rfl | hle
      · exact hlt
      · exact Nat.lt_trans hlt hle
    refine instanceAt_nobody hy.database fun e' hf' => ?_
    obtain rfl := Option.some.inj (hf.symm.trans hf')
    exact Bool.eq_false_iff.mpr fun hheld =>
      absurd (hc.last e ((hy.known l e hf).2 hheld)) (Nat.not_le_of_lt hlater)

end Lookup

def sharedLocation : Location := ⟨.dsp, 0, 0, 0⟩

def eraseLatest : Pass Unit :=
  ⟨"drop", fun _ => .inspect fun g => .erase (g.handle ⟨6⟩) fun _ => .done (.ok (), ())⟩

def lenientRoots : Design :=
  (new { placement := ⟨false⟩ } 0).run [.call (.define "A" .external), .call (.define "B" .external),
    .call (.addTop ⟨0⟩), .call (.addTop ⟨1⟩), .call (.root ⟨0⟩), .call (.root ⟨1⟩)]

def indexedRoots : Design := endState (createPlacementDatabase none lenientRoots)

def sharingRoots : Design :=
  indexedRoots.run [.call (.place ⟨0, 0⟩ sharedLocation none), .call (.place ⟨1, 0⟩ sharedLocation none)]

def survivingRoot : Design := (sharingRoots.runPasses [eraseLatest] [] ()).2.2

theorem lookup_shared_erased : survivingRoot.graph.Newest sharedLocation ⟨⟨5⟩, none⟩ ∧
    indexedRoots.Claims survivingRoot sharedLocation ⟨⟨6⟩, none⟩ ∧
      instanceAt sharedLocation survivingRoot = .ok none survivingRoot := by
  have hleft : ∀ e ∈ survivingRoot.graph.records.entries, e.1.index ≤ 5 := by decide
  have hplain : ∀ e ∈ lenientRoots.graph.records.entries, e.2.payload.placements = [] := by decide
  have hsharing : indexedRoots.Erases sharingRoots := reachesWith_run _ _
  have hpass : sharingRoots.Erases survivingRoot := .single (.passes [eraseLatest] [] () fun _ hm => by cases hm)
  have hreachable : lenientRoots.ReachableWith fun _ => False := ⟨_, _, reachesWith_run _ _⟩
  have hplaces : sharingRoots.graph.Places sharedLocation ⟨⟨6⟩, none⟩ :=
    ⟨⟨.location sharedLocation none, some ⟨4⟩, []⟩, rfl, List.mem_singleton.mpr rfl⟩
  have hclaims : indexedRoots.Claims survivingRoot sharedLocation ⟨⟨6⟩, none⟩ := ⟨_, hsharing, hpass, hplaces⟩
  have hnewest : survivingRoot.graph.Newest sharedLocation ⟨⟨5⟩, none⟩ := by
    refine ⟨⟨⟨.location sharedLocation none, some ⟨3⟩, []⟩, rfl, List.mem_singleton.mpr rfl⟩, ?_⟩
    rintro c' ⟨r, hr, _⟩
    exact hleft _ (Table.mem_of_find? hr)
  have hfree : ∀ l, lenientRoots.graph.Free l := by
    rintro l c ⟨r, hr, hm⟩
    exact List.not_mem_nil (hplain _ (Table.mem_of_find? hr) ▸ hm)
  exact ⟨hnewest, hclaims,
    ((lookup_shared hreachable rfl hfree rfl (hsharing.trans hpass) _).2 _ hnewest).2 _ hclaims (by decide)⟩

end Design

end HardwareDesign
