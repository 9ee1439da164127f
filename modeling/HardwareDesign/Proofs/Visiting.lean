import HardwareDesign.Proofs.Touring

namespace HardwareDesign.Design

open Relation

variable {σ : Type} {visit : InstanceId → Walk σ Unit} {s t u v : Design} {i : InstanceId} {is : List InstanceId}
  {stops inner : List (InstanceId × Design)} {n : Node} {c : Children} {st st' : σ}

def Passive (visit : InstanceId → Walk σ Unit) : Prop := ∀ i p, (endState (visit i p)).1 = p.1

def follow (visit : InstanceId → Walk σ Unit) :
    List (InstanceId × Design) → Design → σ → EStateM.Result WalkFailure (Design × σ) Unit
  | [], t, st => .ok () (t, st)
  | (i, s) :: stops, t, st =>
    match visit i (s, st) with
    | .ok _ p => follow visit stops t p.2
    | .error e p => .error e p

section Following

lemma follow_append (stops more : List (InstanceId × Design)) (t u : Design) (st : σ) :
    follow visit (stops ++ more) t st =
      match follow visit stops u st with
      | .ok _ p => follow visit more t p.2
      | .error e p => .error e p := by
  induction stops generalizing st with
  | nil => rfl
  | cons stop stops ih =>
    rw [List.cons_append, follow, follow]
    cases visit stop.1 (stop.2, st) with
    | ok _ p => exact ih p.2
    | error e p => rfl

lemma design_of_follow {x : Unit} {p : Design × σ} (h : follow visit stops t st = .ok x p) : p.1 = t := by
  induction stops generalizing st with
  | nil =>
    cases h
    rfl
  | cons stop stops ih =>
    rw [follow] at h
    cases hv : visit stop.1 (stop.2, st) with
    | ok _ q =>
      rw [hv] at h
      exact ih h
    | error e q =>
      rw [hv] at h
      cases h

lemma follow_fails {before after : List (InstanceId × Design)} {e : WalkFailure} {p : Design × σ}
    (hbefore : follow visit before u st = .ok () (u, st')) (hi : visit i (u, st') = .error e p) :
    follow visit (before ++ (i, u) :: after) t st = .error e p := by
  rw [follow_append _ _ t u, hbefore]
  simp only [follow, hi]

end Following

section Walking

lemma walk_children (hv : Passive visit) {depth : Nat} (hc : children i s = .ok c t)
    (hinner : ∀ st, c.values.forM (walk visit depth) (t, st) = follow visit inner u st) (st : σ) :
    walk visit (depth + 1) i (s, st) = follow visit ((i, s) :: inner) u st := by
  have hpassive := hv i (s, st)
  rw [walk, follow]
  cases hvisit : visit i (s, st) with
  | error e p => exact bind_of_error hvisit
  | ok x p =>
    rw [hvisit] at hpassive
    obtain ⟨r, st'⟩ := p
    obtain rfl : s = r := hpassive.symm
    have hasked : onWalk (children i) (s, st') = .ok c (t, st') := by simp only [onWalk, hc]
    exact (bind_of_ok hvisit).trans ((bind_of_ok hasked).trans (hinner st'))

lemma Tours.follows (h : Tours s is stops v) :
    ∃ bound, ∀ {σ : Type} {visit : InstanceId → Walk σ Unit}, Passive visit → ∀ {depth}, bound ≤ depth → ∀ st,
      is.forM (walk visit depth) (s, st) = follow visit stops v st := by
  induction h with
  | done => exact ⟨0, fun _ _ _ _ => rfl⟩
  | @next s i is c t inner u rest v hc _ _ ihinner ihrest =>
    obtain ⟨bound, hbound⟩ := ihinner
    obtain ⟨bound', hbound'⟩ := ihrest
    refine ⟨max (bound + 1) bound', fun {σ visit} hv depth hdepth st => ?_⟩
    obtain ⟨k, rfl⟩ : ∃ k, depth = k + 1 := ⟨depth - 1, by omega⟩
    have hfirst := walk_children hv hc (hbound hv (by omega : bound ≤ k)) st
    rw [follow_append _ _ _ u, ← hfirst]
    cases hwalk : walk visit (k + 1) i (s, st) with
    | error e p => exact bind_of_error hwalk
    | ok x p =>
      obtain ⟨r, st'⟩ := p
      obtain rfl : u = r := (design_of_follow (hfirst.symm.trans hwalk)).symm
      exact (bind_of_ok hwalk).trans (hbound' hv (by omega) st')

end Walking

/-- The stops are the instance and all that is below it in the end, each of them once and after its parent, at the
paths that the sites below unfold to. -/
structure Toured (s t : Design) (i : InstanceId) (path : List String) (below : List (List String))
    (stops : List (InstanceId × Design)) : Prop where
  start : s.tree.pathNames i = .ok path
  paths : (stops.map fun stop => stop.2.tree.pathNames stop.1) = (([] :: below).map (path ++ ·)).map .ok
  expands : s.Expands t
  once : (stops.map Prod.fst).Nodup
  all : ∀ {j}, j ∈ stops.map Prod.fst ↔ ReflTransGen t.tree.Parent i j
  after_parent : ∀ {before j after}, stops.map Prod.fst = before ++ j :: after → j = i ∨ ∃ p ∈ before, t.tree.Parent p j

structure Walked (visit : InstanceId → Walk σ Unit) (depth : Nat) (i : InstanceId) (s t : Design)
    (stops : List (InstanceId × Design)) (st : σ) : Prop where
  follows : walk visit depth i (s, st) = follow visit stops t st
  fails : ∀ {before j u after st' e p}, stops = before ++ (j, u) :: after →
    follow visit before u st = .ok () (u, st') → visit j (u, st') = .error e p →
      walk visit depth i (s, st) = .error e p

/-- A walk from a live instance ends, if no module below it contains itself and all targets there are registered. It
visits the instance and everything below it, each of them once and after its parent, at the paths that the sites
unfold to and in their order, whatever part of that the tree has had before. If a visit fails, no other one follows. -/
theorem walk_unfolds (hs : s.Reachable) (hn : s.node i = .ok n)
    (hd : ∀ {d}, n.kind.target = some d → s.Unfoldable d) :
    ∃ path below stops t bound, (∀ paths, s.Unfolds (s.sitesBelow n.kind) paths ↔ paths = below) ∧
      s.Toured t i path below stops ∧
      ∀ {σ : Type} {visit : InstanceId → Walk σ Unit}, Passive visit → ∀ {depth}, bound ≤ depth → ∀ st,
        Walked visit depth i s t stops st := by
  have hs := hs.coherent
  have hn : s.tree.node i = .ok n := hn
  obtain ⟨d, path, hi⟩ := hs.shaped.exists_found hn
  obtain ⟨below, hbelow⟩ := exists_unfolds_below hd
  obtain ⟨stops, t, htour, hmeets⟩ := exists_tour hs hn hi hbelow
  obtain ⟨bound, hbound⟩ := htour.follows
  have ht := htour.expands hs
  refine ⟨path, below, stops, t, bound, fun paths => ⟨fun h => h.unique hbelow, fun h => h ▸ hbelow⟩,
    ⟨hi.pathNames hs.shaped, pathNames_of_meets hmeets, ht, ?_, ?_, ?_⟩, ?_⟩
  · have hnodup := List.nodup_cons.mpr ⟨hbelow.nil_notMem, hbelow.nodup hs (nodup_sitesBelow hs n.kind)⟩
    exact nodup_of_meets ht.coherent.shaped hmeets (hnodup.map (List.append_right_injective path))
  · intro j
    simp [htour.mem_iff hs]
  · intro before j after hj
    exact (htour.parent_before hs hj).imp_left List.eq_of_mem_singleton
  · intro σ visit hv depth hdepth st
    have hwalk : walk visit depth i (s, st) = follow visit stops t st := by
      simpa using hbound hv hdepth st
    refine ⟨hwalk, fun {before j u after st' e p} hstops hbefore hfails => ?_⟩
    rw [hwalk, hstops]
    exact follow_fails hbefore hfails

def shell : Generator := fun _ _ =>
  .request (.instantiate "a" ⟨1⟩) fun _ => .request (.instantiate "a" ⟨1⟩) fun _ => .done

def cell : Generator := fun _ _ => .request (.register "r" (.int 8)) fun _ => .done

def cells : Design :=
  (new {} 0).run [.call (.define "S" (.generated shell)), .call (.define "C" (.generated cell)), .call (.addTop ⟨0⟩),
    .call (.generate none), .call (.root ⟨0⟩), .call (.children ⟨0, 0⟩), .call (.children ⟨2, 0⟩)]

lemma reachable_cells : cells.Reachable := ⟨{}, 0, reaches_run _ _⟩

lemma site_cells : ∀ e ∈ cells.sitesBelow (.module ⟨0⟩), e.2.kind = .module "C" := by decide

lemma site_cell : ∀ e ∈ cells.sitesBelow (.module ⟨1⟩), e.2.kind = .register (.int 8) := by decide

lemma instantiates_cells {e f : DefId} (he : e = ⟨0⟩ ∨ e = ⟨1⟩) (h : cells.Instantiates e f) : e = ⟨0⟩ ∧ f = ⟨1⟩ := by
  obtain ⟨name, site, hm, hk⟩ := h
  rcases he with rfl | rfl
  · rw [site_cells _ hm] at hk
    cases hk
    exact ⟨rfl, rfl⟩
  · rw [site_cell _ hm] at hk
    cases hk

lemma below_cells {e : DefId} (h : ReflTransGen cells.Instantiates ⟨0⟩ e) : e = ⟨0⟩ ∨ e = ⟨1⟩ := by
  induction h with
  | refl => exact .inl rfl
  | tail _ hlast ih => exact .inr (instantiates_cells ih hlast).2

lemma unfoldable_cells : cells.Unfoldable ⟨0⟩ where
  acyclic he hcycle := by
    obtain ⟨f, hfirst, hrest⟩ := TransGen.head'_iff.mp hcycle
    obtain ⟨rfl, rfl⟩ := instantiates_cells (below_cells he) hfirst
    rcases hrest.cases_head with hsame | ⟨_, hnext, _⟩
    · cases hsame
    · cases (instantiates_cells (.inr rfl) hnext).1
  registered he name site hm := by
    rcases below_cells he with rfl | rfl
    · exact ⟨.module ⟨1⟩, site_cells _ hm ▸ rfl⟩
    · exact ⟨.register (.int 8), site_cell _ hm ▸ rfl⟩

lemma unfolds_cells :
    cells.Unfolds (cells.sitesBelow (.root ⟨0⟩)) [["a"], ["a", "r"], ["a_1"], ["a_1", "r"]] := by
  have hcell : cells.Unfolds (cells.sitesBelow (.module ⟨1⟩)) [["r"]] :=
    @Unfolds.cons cells _ _ (.register (.int 8)) _ [] [] rfl .nil .nil
  have hsecond : cells.Unfolds ((cells.sitesBelow (.root ⟨0⟩)).drop 1) [["a_1"], ["a_1", "r"]] :=
    @Unfolds.cons cells _ _ (.module ⟨1⟩) _ [["r"]] [] rfl hcell .nil
  exact @Unfolds.cons cells _ _ (.module ⟨1⟩) _ [["r"]] _ rfl hcell hsecond

def upToThird : InstanceId → Walk Nat Unit := fun _ p =>
  if p.2 = 2 then .error (.error (.custom "third")) (p.1, 3) else .ok () (p.1, p.2 + 1)

theorem walk_unfolds_cells : ∃ (stops : List (InstanceId × Design)) (bound : Nat),
    (stops.map fun stop => stop.2.tree.pathNames stop.1) =
        [[], ["a"], ["a", "r"], ["a_1"], ["a_1", "r"]].map Except.ok ∧
      ⟨3, 0⟩ ∈ stops.map Prod.fst ∧ ∀ depth, bound ≤ depth →
        ∃ t, walk upToThird depth ⟨0, 0⟩ (cells, 0) = .error (.error (.custom "third")) (t, 3) := by
  have hn : cells.node ⟨0, 0⟩ = .ok ⟨none, none, ⟨0⟩, ⟨0, 0⟩, .root ⟨0⟩, some ⟨[("a", ⟨1, 0⟩), ("a_1", ⟨2, 0⟩)]⟩⟩ := rfl
  have hd : ∀ {d}, (NodeKind.root ⟨0⟩).target = some d → cells.Unfoldable d := by
    rintro d ⟨⟩
    exact unfoldable_cells
  obtain ⟨path, below, stops, t, bound, hbelow, htoured, hwalked⟩ := walk_unfolds reachable_cells hn hd
  have hpaths := htoured.paths
  obtain rfl := (hbelow _).mp unfolds_cells
  cases htoured.start.symm.trans (show cells.tree.pathNames ⟨0, 0⟩ = .ok [] from rfl)
  refine ⟨stops, bound, hpaths, ?_, fun depth hdepth => ?_⟩
  · have hsecond : cells.tree.Parent ⟨0, 0⟩ ⟨2, 0⟩ := ⟨_, rfl, rfl⟩
    have hregister : cells.tree.Parent ⟨2, 0⟩ ⟨3, 0⟩ := ⟨_, rfl, rfl⟩
    have hexpands := htoured.expands.tree
    exact htoured.all.mpr (.tail (.single (hexpands.parent hsecond)) (hexpands.parent hregister))
  · have hpassive : Passive upToThird := by
      rintro i ⟨u, count⟩
      by_cases hthird : count = 2 <;> simp [upToThird, hthird, endState]
    obtain ⟨first, stops, rfl, _, hpaths⟩ := List.map_eq_cons_iff.mp hpaths
    obtain ⟨second, stops, rfl, _, hpaths⟩ := List.map_eq_cons_iff.mp hpaths
    obtain ⟨third, stops, rfl, _, hpaths⟩ := List.map_eq_cons_iff.mp hpaths
    obtain ⟨_, hfails⟩ := hwalked hpassive hdepth 0
    exact ⟨third.2, @hfails [first, second] third.1 third.2 stops 2 _ _ rfl rfl rfl⟩

end HardwareDesign.Design
