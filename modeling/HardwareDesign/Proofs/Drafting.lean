import HardwareDesign.Proofs.Draining

namespace HardwareDesign

inductive Program.Converses : Program → List (Request × Answer) → Except Error Unit → Prop
  | done : Converses .done [] (.ok ())
  | fail (e : Error) : Converses (.fail e) [] (.error e)
  | remark {data next exchanges outcome} : Converses next exchanges outcome →
      Converses (.remark data next) exchanges outcome
  | request {r next answer exchanges outcome} : Converses (next answer) exchanges outcome →
      Converses (.request r next) ((r, answer) :: exchanges) outcome

def Event.answer : Event → Option Answer
  | answered a => some a
  | _ => none

namespace Request

def base : Request → Option String
  | instantiate name _ => some name
  | register name _ => some name
  | operation name _ => some name
  | unnamed _ => none

def siteKind (s : Design) : Request → Option SiteKind
  | instantiate _ target => (s.resolveSymbol target).map .module
  | register _ type => some (.register type)
  | operation _ _ => some .operation
  | unnamed _ => none

end Request

/-- The sites that a conversation adds, in order. These names are taken when it begins, and the symbols are those of
the design when it is over. -/
inductive Design.Yields (s : Design) : List String → List (Request × Answer) → List (String × Site) → Prop
  | nil {taken} : Yields s taken [] []
  | named {taken r base name kind h exchanges sites} : r.base = some base → IsFresh taken base name →
      r.siteKind s = some kind → Yields s (name :: taken) exchanges sites →
      Yields s taken ((r, .ok (some name)) :: exchanges) ((name, ⟨name, h, kind⟩) :: sites)
  | unnamed {taken mnemonic exchanges sites} : Yields s taken exchanges sites →
      Yields s taken ((.unnamed mnemonic, .ok none) :: exchanges) sites
  | failed {taken r e exchanges sites} : Yields s taken exchanges sites →
      Yields s taken ((r, .error e) :: exchanges) sites

def finished {ε σ α : Type} : Except ε α → σ → EStateM.Result ε σ α
  | .ok a, s => .ok a s
  | .error e, s => .error e s

lemma Request.siteKind_extends {s t : Design} (he : s.Extends t) {r : Request} {kind : SiteKind}
    (h : r.siteKind s = some kind) : r.siteKind t = some kind := by
  cases r with
  | instantiate name target =>
    obtain ⟨x, hx, rfl⟩ := Option.map_eq_some_iff.mp h
    exact Option.map_eq_some_iff.mpr ⟨x, he.symbols hx, rfl⟩
  | _ => exact h

lemma Design.Yields.congr {s : Design} {taken taken' : List String} {exchanges : List (Request × Answer)}
    {sites : List (String × Site)} (h : s.Yields taken exchanges sites) (ht : ∀ x, x ∈ taken ↔ x ∈ taken') :
    s.Yields taken' exchanges sites := by
  induction h generalizing taken' with
  | nil => exact .nil
  | named hbase hfresh hkind _ ih =>
    exact .named hbase (hfresh.congr ht) hkind (ih fun x => by simp only [List.mem_cons, ht])
  | unnamed _ ih => exact .unnamed (ih ht)
  | failed _ ih => exact .failed (ih ht)

namespace Draft

open Design

variable {d : DefId} {m : Handle} {draft draft' : Draft}

structure Appends (d : DefId) (draft draft' : Draft) (new : List (String × Site)) : Prop where
  own : (draft'.design.siteTable d).entries = (draft.design.siteTable d).entries ++ new
  others : ∀ {e y}, e ≠ d → draft.design.resolveSymbol e = some y →
    draft'.design.siteTable e = draft.design.siteTable e
  names : ∀ name, name ∈ draft'.names.taken ↔ name ∈ new.map Prod.fst ∨ name ∈ draft.names.taken

lemma Appends.refl (d : DefId) (draft : Draft) : Appends d draft draft [] :=
  ⟨(List.append_nil _).symm, fun _ _ => rfl, fun _ => by simp⟩

lemma Appends.trans {draft'' : Draft} {new more : List (String × Site)} (h : Appends d draft draft' new)
    (he : draft.design.Extends draft'.design) (h' : Appends d draft' draft'' more) :
    Appends d draft draft'' (new ++ more) where
  own := by rw [h'.own, h.own, List.append_assoc]
  others hne hy := (h'.others hne (he.symbols hy)).trans (h.others hne hy)
  names name := by
    rw [h'.names, h.names, List.map_append, List.mem_append]
    tauto

lemma Ready.appends_sited (hr : draft.Ready d m) {name : String} {payload : Payload} (kind : NodeKind)
    (hnew : name ∉ draft.names.taken) (hname : payload.symbolName = some name) :
    ∃ h, Appends d draft ⟨draft.design.sited d m name payload kind, ⟨name :: draft.names.taken⟩⟩
      [(name, ⟨name, h, .ofPayload payload⟩)] := by
  have hfree : (draft.design.siteTable d).contains name = false := by
    by_contra h
    exact hnew (hr.names (by simpa using h))
  refine ⟨draft.design.graph.handle draft.design.graph.nextId, ?_, fun hne _ => ?_, fun other => ?_⟩
  · rw [siteTable_sited, siteTable_filled hr.coherent hr.filling hfree hname]
  · rw [siteTable_sited, siteTable_filled_of_ne hr.coherent hr.filling hne]
  · simp

lemma Ready.appends_built (hr : draft.Ready d m) (target : DefId) :
    Appends d draft { draft with design := endState (buildDefinition target draft.design) } [] := by
  have hsame : ∀ {e y}, draft.design.resolveSymbol e = some y →
      (endState (buildDefinition target draft.design)).siteTable e = draft.design.siteTable e := by
    intro e y hy
    cases hx : draft.design.resolveSymbol target with
    | some x => rw [buildDefinition_built hx, endState]
    | none =>
      cases hd : draft.design.definition target with
      | error err => rw [buildDefinition_unknown hx hd, endState]
      | ok definition =>
        rw [buildDefinition_new hx hd]
        exact siteTable_built hr.coherent hx (freshName_not_mem _ definition.name) definition.body.isExternal hy
  obtain ⟨y, hy, _⟩ := moduleOf_eq_some.mp hr.filling.record
  exact ⟨by rw [hsame hy, List.append_nil], fun _ hy => hsame hy, fun _ => by simp⟩

lemma Ready.appends_unnamed (hr : draft.Ready d m) {payload : Payload} (hn : payload.symbolName = none) :
    Appends d draft { draft with design := draft.design.filled m payload } [] := by
  have hsame := siteTable_filled_unnamed hr.coherent hr.filling hn
  exact ⟨by rw [hsame, List.append_nil], fun _ _ => hsame _, fun _ => by simp⟩

structure Responds (d : DefId) (m : Handle) (draft : Draft) (r : Request) (a : Answer) (draft' : Draft) : Prop where
  stepped : Stepped d m draft draft'
  adds : ∃ new, Appends d draft draft' new ∧ ∀ {t exchanges sites}, draft'.design.Extends t →
    t.Yields draft'.names.taken exchanges sites → t.Yields draft.names.taken ((r, a) :: exchanges) (new ++ sites)

lemma Ready.responds_named (hr : draft.Ready d m) {r : Request} {base : String} (hbase : r.base = some base)
    (payload : String → Payload) {kind : NodeKind} (hname : ∀ name, (payload name).symbolName = some name)
    (hb : ∀ name, (payload name).hasBody = false)
    (hk : ∀ name, draft.design.nodeKind (.ofPayload (payload name)) = .ok kind)
    (hkind : ∀ name, r.siteKind draft.design = some (.ofPayload (payload name))) :
    Responds d m draft r (.ok (some (freshName draft.names.taken base)))
      ⟨draft.design.sited d m (freshName draft.names.taken base) (payload (freshName draft.names.taken base)) kind,
        ⟨freshName draft.names.taken base :: draft.names.taken⟩⟩ := by
  have hstep := hr.sited (freshName_not_mem draft.names.taken base) (hname _) (hb _) (hk _)
  obtain ⟨h, hadds⟩ := hr.appends_sited kind (freshName_not_mem draft.names.taken base) (hname _)
  refine ⟨hstep, _, hadds, fun he hsites => ?_⟩
  have hext := (hstep.changes.coherent hr.coherent).2
  exact .named hbase (isFresh_freshName _ base) (Request.siteKind_extends (hext.trans he) (hkind _)) hsites

lemma Ready.responds (hr : draft.Ready d m) (r : Request) :
    ∃ a draft', Responds d m draft r a draft' ∧
      Draft.answer d m r draft = finished a draft' := by
  cases r with
  | instantiate base target =>
    obtain ⟨hstep, hsymbol⟩ := hr.built target
    have happends := hr.appends_built target
    cases hb : buildDefinition target draft.design with
    | error e t =>
      simp only [hb, endState] at hstep happends
      refine ⟨.error e, _, ⟨hstep, [], happends, fun _ hsites => ?_⟩, bind_of_error (onDesign_error hb)⟩
      exact .failed hsites
    | ok x t =>
      simp only [hb, endState] at hstep happends
      have hx := hsymbol hb
      have hk : t.nodeKind (.module x) = .ok (.module target) :=
        nodeKind_module.mpr ⟨target, (hstep.ready.coherent.paired target x).mp hx, rfl⟩
      have hkind : (Request.instantiate base target).siteKind t = some (.module x) :=
        Option.map_eq_some_iff.mpr ⟨x, hx, rfl⟩
      obtain ⟨hstep', new, happends', hadds⟩ := hstep.ready.responds_named (r := .instantiate base target) rfl
        (fun name => .instantiation name x) (fun _ => rfl) (fun _ => rfl) (fun _ => hk) fun _ => hkind
      have hext := (hstep.changes.coherent hr.coherent).2
      refine ⟨_, _, ⟨hstep.trans hstep', new, happends.trans hext happends', hadds⟩, ?_⟩
      exact (bind_of_ok (onDesign_ok hb)).trans (add_eq hstep.ready.filling base (.instantiation · x) _)
  | register base type =>
    exact ⟨_, _, hr.responds_named rfl (fun name => .register name type) (fun _ => rfl) (fun _ => rfl) (fun _ => rfl)
      fun _ => rfl, add_eq hr.filling base _ _⟩
  | operation base mnemonic =>
    exact ⟨_, _, hr.responds_named rfl (fun name => .operation name mnemonic) (fun _ => rfl) (fun _ => rfl)
      (fun _ => rfl) fun _ => rfl, add_eq hr.filling base _ _⟩
  | unnamed mnemonic =>
    have hn : (Payload.operation none mnemonic).symbolName = none := rfl
    have ha : Draft.answer d m (.unnamed mnemonic) draft =
        .ok none { draft with design := draft.design.filled m (.operation none mnemonic) } :=
      bind_of_ok (onDesign_ok (addRecord_eq hr.filling _))
    have hstep := hr.answer (.unnamed mnemonic)
    rw [ha] at hstep
    exact ⟨.ok none, _, ⟨hstep, [], hr.appends_unnamed hn, fun _ hsites => .unnamed hsites⟩, ha⟩

lemma Ready.converses (hr : draft.Ready d m) (program : Program) :
    ∃ exchanges outcome draft' new, program.Converses exchanges outcome ∧
      (Draft.run d m program draft).1.filterMap Event.answer = exchanges.map Prod.snd ∧
      (Draft.run d m program draft).2 = finished outcome draft' ∧ draft.design.Extends draft'.design ∧
      draft'.design.Coherent ∧ Appends d draft draft' new ∧
      draft'.design.Yields draft.names.taken exchanges new := by
  induction program generalizing draft with
  | done =>
    exact ⟨[], .ok (), draft, [], .done, rfl, rfl, .refl _, hr.coherent, .refl d draft, .nil⟩
  | fail e =>
    exact ⟨[], .error e, draft, [], .fail e, rfl, rfl, .refl _, hr.coherent, .refl d draft, .nil⟩
  | remark data next ih =>
    obtain ⟨exchanges, outcome, draft', new, hconv, hevents, hrun, hrest⟩ := ih hr
    exact ⟨exchanges, outcome, draft', new, .remark hconv, hevents, hrun, hrest⟩
  | request r next ih =>
    obtain ⟨a, mid, ⟨hstep, first, happends, hadds⟩, ha⟩ := hr.responds r
    have hext := (hstep.changes.coherent hr.coherent).2
    obtain ⟨exchanges, outcome, draft', new, hconv, hevents, hrun, hext', hc, happends', hadds'⟩ :=
      ih a hstep.ready
    refine ⟨(r, a) :: exchanges, outcome, draft', first ++ new, .request hconv, ?_, ?_, hext.trans hext', hc,
      happends.trans hext happends', hadds hext' hadds'⟩
    · rw [Draft.run, ha]
      cases a <;> exact congrArg _ hevents
    · rw [Draft.run, ha]
      cases a <;> exact hrun

end Draft

namespace Design

variable {s t u : Design} {d : DefId} {m : Handle} {x : String}

lemma Reachable.waiting (hs : s.Reachable) (hd : d ∈ s.queue) :
    ∃ name g, s.definition d = .ok ⟨name, .generated g⟩ := by
  obtain ⟨config, source, hr⟩ := hs
  obtain ⟨taken, events, hrun⟩ := hr.takes
  obtain ⟨hconserved, _⟩ := hrun.conserved (coherent_new config source) (conserved_new config source)
  obtain ⟨_, hexternal⟩ := (hconserved.built d).mp (List.mem_append_left _ hd)
  cases hdef : s.definition d with
  | error e => simp [isExternal, hdef, bind, Except.bind] at hexternal
  | ok definition =>
    rw [isExternal_eq hdef] at hexternal
    obtain ⟨name, body⟩ := definition
    cases body with
    | external => cases hexternal
    | generated g => exact ⟨name, g, rfl⟩

lemma prepare_eq (hs : s.Coherent) {name : String} {g : Generator} (hd : s.definition d = .ok ⟨name, .generated g⟩)
    (hx : s.resolveSymbol d = some x) (hm : s.moduleOf d = some m) {children : List (String × Handle)}
    (hc : s.graph.namedChildren m = .ok children) :
    prepare d s = .ok (some (g, x, m, Names.ofList (children.map Prod.fst))) s.scanSymbols := by
  rw [prepare, bind_of_ok (Action.read_ok hd)]
  refine (bind_of_ok (Action.read_ok (builtSymbol_built hx))).trans ?_
  rw [bind_of_ok (moduleRecord_built hs.views hx), hm]
  exact bind_of_ok (Action.readGraph_ok (s := s.scanSymbols) (f := (·.namedChildren m)) hc)

lemma runGenerator_eq {g : Generator} {names : Names} (hp : prepare d s = .ok (some (g, x, m, names)) t)
    {outcome : Except Error Unit} {draft : Draft}
    (hr : (Draft.run d m (g d x) ⟨t, names⟩).2 = finished outcome draft) :
    runGenerator d s =
      (.started d x :: (Draft.run d m (g d x) ⟨t, names⟩).1, finished outcome draft.design) := by
  rw [runGenerator, hp]
  simp only [hr]
  cases outcome <;> rfl

lemma Coherent.withQueue (hs : s.Coherent) (queue : List DefId) : Coherent { s with queue } :=
  hs.of_eq ⟨hs.views.known, hs.views.hierarchies, hs.views.sites, hs.views.nested⟩ rfl rfl rfl rfl

structure Drafted (s : Design) (queue : List DefId) (d : DefId) (x : String) (g : Generator) (names : List String)
    (exchanges : List (Request × Answer)) (outcome : Except Error Unit) (t : Design) (new : List (String × Site)) :
    Prop where
  converses : (g d x).Converses exchanges outcome
  runs : ∃ events, runGenerator d { s with queue } = (.started d x :: events, finished outcome t) ∧
    events.filterMap Event.answer = exchanges.map Prod.snd
  sites : ∃ before v after w, sitesOf d s = .ok before v ∧ sitesOf d t = .ok after w ∧
    after.entries = before.entries ++ new
  yields : t.Yields names exchanges new
  others : ∀ e y, s.resolveSymbol e = some y → e ≠ d →
    ∃ sites v w, sitesOf e s = .ok sites v ∧ sitesOf e t = .ok sites w

/-- When the generator of a waiting module has been run, to its end or until it fails, the module has the sites that it
had before, and then the ones that the generator has added. Every other module that was built has the sites that it
had. -/
theorem generator_appends (hs : s.Reachable) (hd : d ∈ s.queue) (hm : moduleRecord d s = .ok (some m) u)
    (hp : s.graph.payload m = .ok (.module x)) (queue : List DefId) :
    ∃ name g children exchanges outcome t new,
      s.definition d = .ok ⟨name, .generated g⟩ ∧ s.graph.namedChildren m = .ok children ∧
      s.Drafted queue d x g (children.map Prod.fst) exchanges outcome t new := by
  have hc := hs.coherent
  obtain ⟨name, g, hdef⟩ := hs.waiting hd
  obtain ⟨y, hx⟩ : ∃ y, s.resolveSymbol d = some y := by
    cases hx : s.resolveSymbol d with
    | some y => exact ⟨y, rfl⟩
    | none => cases (moduleRecord_unbuilt hx).symm.trans hm
  have hmodule : s.moduleOf d = some m :=
    (EStateM.Result.ok.inj ((moduleRecord_built hc.views hx).symm.trans hm)).1
  obtain ⟨hepoch, r, hr, hpay⟩ := Graph.holds_of_payload hp
  obtain rfl : x = y := module_of_moduleOf hx hmodule hr hpay
  have hchildren := Graph.namedChildren_eq hc.forest hepoch hr (hpay ▸ rfl)
  have hq := hc.withQueue queue
  have hprepare := prepare_eq hq hdef hx hmodule hchildren
  have hkeeps : Keeps False { s with queue } _ _ := keeps_prepare hq d
  obtain ⟨hready, _⟩ := (hkeeps.post hprepare).2 rfl
  obtain ⟨exchanges, outcome, draft, new, hconv, hevents, hrun, hext, ht, happends, hyields⟩ :=
    hready.converses (g d x)
  have htables : ∀ e, s.siteTable e = Design.siteTable { s with queue }.scanSymbols e :=
    fun e => siteTable_congr rfl rfl e
  obtain ⟨v, hv, _⟩ := sitesOf_built hc hx
  obtain ⟨w, hw, _⟩ := sitesOf_built ht (hext.symbols hx)
  refine ⟨name, g, _, exchanges, outcome, draft.design, new, hdef, hchildren, hconv,
    ⟨_, runGenerator_eq hprepare hrun, hevents⟩, ⟨_, v, _, w, hv, hw, ?_⟩, hyields.congr fun _ => Names.mem_ofList,
    fun e z hz hne => ?_⟩
  · rw [happends.own, htables]
  · obtain ⟨v, hv, _⟩ := sitesOf_built hc hz
    obtain ⟨w, hw, _⟩ := sitesOf_built ht (hext.symbols hz)
    exact ⟨_, v, w, hv, by rw [hw, happends.others hne hz, htables]⟩

def collide : Generator := fun d _ =>
  .request (.register "r" (.int 8)) fun _ => .request (.instantiate "r" d) fun _ => .request (.unnamed "wire") fun _ =>
    .request (.instantiate "r" ⟨7⟩) fun _ => .request (.register "r_1" (.int 1)) fun _ => .fail (.custom "late")

def crowd : Pass Unit :=
  ⟨"crowd", fun _ => .inspect fun g => .create (some (g.handle ⟨1⟩)) (.register "r" (.int 2)) fun _ =>
    .create (some (g.handle ⟨1⟩)) (.operation "r_1" "and") fun _ => .done (.ok (), ())⟩

def waiting : Design := (new {} 0).run [.call (.define "M" (.generated collide)), .call (.addTop ⟨0⟩)]

/-- A pass fills a module before its generator is run, which asks for names that are in use, for an instance of the
module itself, and for an instance of something unknown, and fails in the end. -/
def crowded : Design := (waiting.runPasses [crowd] [] ()).2.2

def filledUp : Design := endState (runGenerator ⟨0⟩ { crowded with queue := [] }).2

theorem generator_appends_crowded : ∃ exchanges t new before v after w,
    (collide ⟨0⟩ "M").Converses exchanges (.error (.custom "late")) ∧
      sitesOf ⟨0⟩ crowded = .ok before v ∧ sitesOf ⟨0⟩ t = .ok after w ∧ after.entries = before.entries ++ new ∧
      t.Yields ["r", "r_1"] exchanges new ∧ before.keys = ["r", "r_1"] ∧
        after.keys = ["r", "r_1", "r_2", "r_3", "r_1_1"] := by
  have hreachable : crowded.Reachable := (reachable_run {} 0 _).trans (.single (.passes [crowd] [] ()))
  have hm : ∃ u, moduleRecord ⟨0⟩ crowded = .ok (some ⟨⟨1⟩, 1, 0⟩) u := ⟨_, rfl⟩
  obtain ⟨u, hm⟩ := hm
  obtain ⟨name, g, children, exchanges, outcome, t, new, hdef, hchildren, hconv, ⟨_, hrun, _⟩,
    ⟨before, v, after, w, hbefore, hafter, hentries⟩, hyields, _⟩ :=
    generator_appends hreachable (d := ⟨0⟩) (List.mem_singleton.mpr rfl) hm rfl []
  have hcollide : crowded.definition ⟨0⟩ = .ok ⟨"M", .generated collide⟩ := rfl
  have hnames : crowded.graph.namedChildren ⟨⟨1⟩, 1, 0⟩ = .ok [("r", ⟨⟨2⟩, 1, 0⟩), ("r_1", ⟨⟨3⟩, 1, 0⟩)] := rfl
  have hfails : (runGenerator ⟨0⟩ { crowded with queue := [] }).2 = .error (.custom "late") filledUp := rfl
  have hkeys : ∃ sites w, sitesOf ⟨0⟩ filledUp = .ok sites w ∧ sites.keys = ["r", "r_1", "r_2", "r_3", "r_1_1"] :=
    ⟨_, _, rfl, by decide⟩
  have hold : ∃ sites w, sitesOf ⟨0⟩ crowded = .ok sites w ∧ sites.keys = ["r", "r_1"] := ⟨_, _, rfl, by decide⟩
  obtain ⟨sites, w', hsites, hkeys⟩ := hkeys
  obtain ⟨sites', v', hsites', hkeys'⟩ := hold
  cases hcollide.symm.trans hdef
  cases hnames.symm.trans hchildren
  rw [hrun] at hfails
  cases outcome with
  | ok _ => cases hfails
  | error e =>
    cases hfails
    cases hsites.symm.trans hafter
    cases hsites'.symm.trans hbefore
    exact ⟨exchanges, filledUp, new, _, v, _, w, hconv, hbefore, hafter, hentries, hyields, hkeys', hkeys⟩

end Design

end HardwareDesign
