import HardwareDesign.Design.Generation
import HardwareDesign.Proofs.Building
import HardwareDesign.Proofs.Navigating

/-!
What a generator does to a design. All names of the sites of its module are taken in its draft, so that each new site
has a name of its own.
-/

namespace HardwareDesign

lemma Graph.hasBody_of_namedChildren {g : Graph} {h : Handle} {r : Record} {children : List (String × Handle)}
    (he : h.epoch = g.epoch) (hr : g.Holds h.record r) (hc : g.namedChildren h = .ok children) :
    r.payload.hasBody = true := by
  by_contra hb
  simp [namedChildren, bodyIds_of_holds he hr, hb, bind, Except.bind] at hc

lemma module_of_named {p : Payload} {x : String} (hn : p.symbolName = some x) (hb : p.hasBody = true) :
    p = .module x := by
  cases p with
  | module y => exact congrArg _ (Option.some.inj hn)
  | hierarchy => cases hn
  | dynamicInstance => cases hn
  | _ => cases hb

namespace Design

inductive Fill (d : DefId) (m : Handle) (s : Design) : Design → Prop
  | build {e x definition} : s.definition e = .ok definition → s.resolveSymbol e = none → x ∉ s.takenSymbols →
      Fill d m s (s.built e x definition.body.isExternal)
  | site {name payload kind} : s.Filling d m → (s.siteTable d).contains name = false →
      payload.symbolName = some name → payload.hasBody = false → s.nodeKind (.ofPayload payload) = .ok kind →
      Fill d m s (s.sited d m name payload kind)
  | unnamed {payload} : s.Filling d m → payload.symbolName = none → payload.hasBody = false →
      Fill d m s (s.filled m payload)

abbrev Fills (d : DefId) (m : Handle) : Design → Design → Prop := Relation.ReflTransGen (Fill d m)

variable {s t : Design} {d : DefId} {m : Handle} {payload : Payload}

lemma Filling.grows (hg : s.graph.Forest) (he : s.Extends t) (hf : s.Filling d m) : t.Filling d m := by
  obtain ⟨r, x, hr, hp⟩ := hf.module
  obtain ⟨_, hr'⟩ := he.graph.records hr
  exact ⟨he.moduleOf hg hf.record, _, x, hr', hp⟩

lemma siteTable_filled_unnamed (hs : s.Coherent) (hf : s.Filling d m) (hn : payload.symbolName = none) (e : DefId) :
    (s.filled m payload).siteTable e = s.siteTable e := by
  have hgraph : (s.filled m payload).graph = s.graph.created payload (some m.record) := rfl
  exact siteTable_created_of_ne hs.forest hf.accepts hgraph (moduleOf_filled hs hf e) fun _ _ _ _ => hn

lemma Fill.change (h : Fill d m s t) : Change False s t := by
  cases h with
  | build hd hx hnew => exact .build hd hx hnew
  | site hf hn hp hb hk => exact .site hf hn hp hb hk
  | unnamed hf hn hb => exact .unnamed hf hn hb

lemma Fills.changes (h : Fills d m s t) : Changes False s t := Relation.ReflTransGen.mono (fun _ _ => Fill.change) _ _ h

lemma fills_buildDefinition (s : Design) (target : DefId) : Fills d m s (endState (buildDefinition target s)) := by
  cases hx : s.resolveSymbol target with
  | some x =>
    rw [buildDefinition_built hx]
    exact .refl
  | none =>
    cases hd : s.definition target with
    | error e =>
      rw [buildDefinition_unknown hx hd]
      exact .refl
    | ok definition =>
      rw [buildDefinition_new hx hd]
      exact .single (.build hd hx (freshName_not_mem s.takenSymbols definition.name))

end Design

namespace Draft

open Design

variable {d : DefId} {m : Handle} {draft : Draft}

structure Ready (d : DefId) (m : Handle) (draft : Draft) : Prop where
  coherent : draft.design.Coherent
  filling : draft.design.Filling d m
  names : ∀ {name}, (draft.design.siteTable d).contains name = true → name ∈ draft.names.taken

structure Stepped (d : DefId) (m : Handle) (draft draft' : Draft) : Prop where
  fills : Fills d m draft.design draft'.design
  ready : draft'.Ready d m
  definitions : draft'.design.definitions = draft.design.definitions

lemma Stepped.trans {a b c : Draft} (h : Stepped d m a b) (h' : Stepped d m b c) : Stepped d m a c :=
  ⟨h.fills.trans h'.fills, h'.ready, h'.definitions.trans h.definitions⟩

lemma Stepped.changes {draft' : Draft} (h : Stepped d m draft draft') : Changes False draft.design draft'.design :=
  h.fills.changes

lemma onDesign_ok {α : Type} {x : Action α} {a : α} {t : Design} (h : x draft.design = .ok a t) :
    onDesign x draft = .ok a { draft with design := t } := by
  simp only [onDesign, h]

lemma onDesign_error {α : Type} {x : Action α} {e : Error} {t : Design} (h : x draft.design = .error e t) :
    onDesign x draft = .error e { draft with design := t } := by
  simp only [onDesign, h]

lemma addRecord_eq {s : Design} (hf : s.Filling d m) (payload : Payload) :
    addRecord m payload s = .ok () (s.filled m payload) :=
  Action.createIn_bind (holds_of_moduleOf hf.record).1 hf.accepts payload _

lemma addSite_eq {s : Design} (hf : s.Filling d m) (name : String) (payload : Payload) (kind : NodeKind) :
    addSite d m name payload kind s = .ok () (s.sited d m name payload kind) :=
  bind_of_ok (addRecord_eq hf payload)

lemma Ready.sited (hr : draft.Ready d m) {name : String} {payload : Payload} {kind : NodeKind}
    (hnew : name ∉ draft.names.taken) (hname : payload.symbolName = some name) (hb : payload.hasBody = false)
    (hk : draft.design.nodeKind (.ofPayload payload) = .ok kind) :
    Stepped d m draft ⟨draft.design.sited d m name payload kind, ⟨name :: draft.names.taken⟩⟩ := by
  have hfree : (draft.design.siteTable d).contains name = false := by
    by_contra h
    exact hnew (hr.names (by simpa using h))
  have hsite : Fill d m draft.design _ := .site hr.filling hfree hname hb hk
  obtain ⟨ht, he⟩ := hsite.change.coherent hr.coherent
  refine ⟨.single hsite, ⟨ht, hr.filling.grows hr.coherent.forest he, ?_⟩, rfl⟩
  intro other h
  rw [siteTable_sited, Table.contains_iff, Table.keys, siteTable_filled hr.coherent hr.filling hfree hname,
    List.map_append, List.mem_append] at h
  rcases h with h | h
  · exact List.mem_cons_of_mem _ (hr.names (Table.contains_iff.mpr h))
  · obtain rfl : other = name := by simpa using h
    exact List.mem_cons_self

lemma add_eq (hf : draft.design.Filling d m) (base : String) (payload : String → Payload) (kind : NodeKind) :
    (do
      let name ← assign base
      onDesign (addSite d m name (payload name) kind)
      return some name : DraftAction (Option String)) draft = .ok (some (freshName draft.names.taken base))
        ⟨draft.design.sited d m (freshName draft.names.taken base) (payload (freshName draft.names.taken base)) kind,
          ⟨freshName draft.names.taken base :: draft.names.taken⟩⟩ := by
  have ha : assign base draft = .ok (freshName draft.names.taken base)
      { draft with names := ⟨freshName draft.names.taken base :: draft.names.taken⟩ } := rfl
  refine (bind_of_ok ha).trans ?_
  exact bind_of_ok (onDesign_ok (addSite_eq hf _ _ _))

lemma Ready.add (hr : draft.Ready d m) (base : String) (payload : String → Payload) {kind : NodeKind}
    (hname : ∀ name, (payload name).symbolName = some name) (hb : ∀ name, (payload name).hasBody = false)
    (hk : ∀ name, draft.design.nodeKind (.ofPayload (payload name)) = .ok kind) :
    ∃ draft', (do
      let name ← assign base
      onDesign (addSite d m name (payload name) kind)
      return some name : DraftAction (Option String)) draft = .ok (some (freshName draft.names.taken base)) draft' ∧
      Stepped d m draft draft' :=
  ⟨_, add_eq hr.filling base payload kind,
    hr.sited (freshName_not_mem draft.names.taken base) (hname _) (hb _) (hk _)⟩

lemma Ready.built (hr : draft.Ready d m) (target : DefId) :
    Stepped d m draft { draft with design := endState (buildDefinition target draft.design) } ∧
      ∀ {x t}, buildDefinition target draft.design = .ok x t → t.resolveSymbol target = some x := by
  have hkeeps : Keeps False _ _ _ := keeps_buildDefinition draft.design target
  refine ⟨⟨fills_buildDefinition _ _, ?_, definitions_buildDefinition _ _⟩, fun h => hkeeps.post h⟩
  obtain ⟨ht, he⟩ := hkeeps.changes.coherent hr.coherent
  refine ⟨ht, hr.filling.grows hr.coherent.forest he, ?_⟩
  intro name h
  apply hr.names
  obtain ⟨y, hy, _⟩ := moduleOf_eq_some.mp hr.filling.record
  cases hx : draft.design.resolveSymbol target with
  | some x =>
    rw [buildDefinition_built hx] at h
    exact h
  | none =>
    cases hd : draft.design.definition target with
    | error e =>
      rw [buildDefinition_unknown hx hd] at h
      exact h
    | ok definition =>
      rw [buildDefinition_new hx hd] at h
      have hfresh := freshName_not_mem draft.design.takenSymbols definition.name
      exact siteTable_built hr.coherent hx hfresh definition.body.isExternal hy ▸ h

lemma Ready.answer_cases (hr : draft.Ready d m) (r : Request) :
    (∃ name draft', answer d m r draft = .ok name draft' ∧ Stepped d m draft draft') ∨
      ∃ target e t, buildDefinition target draft.design = .error e t ∧
        answer d m r draft = .error e { draft with design := t } ∧ Stepped d m draft { draft with design := t } := by
  cases r with
  | instantiate base target =>
    obtain ⟨hstep, hsymbol⟩ := hr.built target
    cases hb : buildDefinition target draft.design with
    | error e t =>
      simp only [hb, endState] at hstep
      exact .inr ⟨target, e, t, hb, bind_of_error (onDesign_error hb), hstep⟩
    | ok x t =>
      simp only [hb, endState] at hstep
      have hx := hsymbol hb
      have hk : t.nodeKind (.module x) = .ok (.module target) := by
        have hd := (hstep.ready.coherent.paired target x).mp hx
        simp only [nodeKind, resolveDefinition, show t.registry.definitionOf x = some target from hd, bind, Except.bind,
          pure, Except.pure]
      obtain ⟨draft', hadd, hstep'⟩ :=
        hstep.ready.add base (fun name => .instantiation name x) (fun _ => rfl) (fun _ => rfl) (fun _ => hk)
      exact .inl ⟨_, draft', (bind_of_ok (onDesign_ok hb)).trans hadd, hstep.trans hstep'⟩
  | register base type =>
    obtain ⟨draft', hadd, hstep⟩ :=
      hr.add base (fun name => .register name type) (fun _ => rfl) (fun _ => rfl) (fun _ => rfl)
    exact .inl ⟨_, draft', hadd, hstep⟩
  | operation base mnemonic =>
    obtain ⟨draft', hadd, hstep⟩ :=
      hr.add base (fun name => .operation name mnemonic) (fun _ => rfl) (fun _ => rfl) (fun _ => rfl)
    exact .inl ⟨_, draft', hadd, hstep⟩
  | unnamed mnemonic =>
    have hn : (Payload.operation none mnemonic).symbolName = none := rfl
    have hunnamed : Fill d m draft.design _ := .unnamed hr.filling hn rfl
    obtain ⟨ht, he⟩ := hunnamed.change.coherent hr.coherent
    refine .inl ⟨none, _, bind_of_ok (onDesign_ok (addRecord_eq hr.filling _)), .single hunnamed, ?_, rfl⟩
    refine ⟨ht, hr.filling.grows hr.coherent.forest he, ?_⟩
    intro name h
    exact hr.names (siteTable_filled_unnamed hr.coherent hr.filling hn d ▸ h)

lemma Ready.answer (hr : draft.Ready d m) (r : Request) : Stepped d m draft (endState (answer d m r draft)) := by
  rcases hr.answer_cases r with ⟨_, _, ha, hstep⟩ | ⟨_, _, _, _, ha, hstep⟩ <;> exact ha ▸ hstep

lemma Ready.run (hr : draft.Ready d m) (program : Program) :
    Stepped d m draft (endState (run d m program draft).2) := by
  induction program generalizing draft with
  | done => exact ⟨.refl, hr, rfl⟩
  | fail e => exact ⟨.refl, hr, rfl⟩
  | remark data next ih =>
    rw [Draft.run]
    exact ih hr
  | request r next ih =>
    have hstep := hr.answer r
    rw [Draft.run]
    cases ha : Draft.answer d m r draft with
    | ok name draft' =>
      rw [ha] at hstep
      exact hstep.trans (ih (.ok name) hstep.ready)
    | error e draft' =>
      rw [ha] at hstep
      exact hstep.trans (ih (.error e) hstep.ready)

end Draft

namespace Design

variable {s t : Design} {d : DefId}

lemma keeps_prepare (hs : s.Coherent) (d : DefId) :
    Keeps False s (fun r t => t.definitions = s.definitions ∧ ∀ {g symbol m names}, r = some (g, symbol, m, names) →
      Draft.Ready d m ⟨t, names⟩ ∧ ∃ name, s.definition d = .ok ⟨name, .generated g⟩) (prepare d s) := by
  rw [prepare]
  refine (Keeps.read (fun s => s.definition d)).bind ?_
  rintro ⟨name, body⟩ _ - ⟨rfl, hd⟩
  cases body with
  | external => exact .pure ⟨rfl, fun h => by cases h⟩
  | generated g =>
    refine (Keeps.read (fun s => s.builtSymbol d)).bind ?_
    rintro symbol _ - ⟨rfl, hx⟩
    have hx := resolveSymbol_of_builtSymbol hx
    have hscan := scanned_scanSymbols hs.views
    apply (congrArg (Keeps False s _) (bind_of_ok (moduleRecord_built hs.views hx))).mpr
    cases hm : s.moduleOf d with
    | none => exact .error (.scan hscan)
    | some m =>
      obtain ⟨hepoch, r, x, hr, hname⟩ := holds_of_moduleOf hm
      refine Keeps.after (.scan hscan) ((Keeps.readGraph (·.namedChildren m)).bind ?_)
      rintro children _ - ⟨rfl, hc⟩
      refine .pure ⟨rfl, ?_⟩
      rintro g' symbol' m' names h
      obtain ⟨rfl, _, rfl, rfl⟩ :
          g = g' ∧ symbol = symbol' ∧ m = m' ∧ Names.ofList (children.map Prod.fst) = names := by simpa using h
      have hb := Graph.hasBody_of_namedChildren hepoch hr hc
      have hmod := module_of_named hname hb
      rw [show s.scanSymbols.graph = s.graph from rfl, Graph.namedChildren_eq hs.forest hepoch hr hb] at hc
      obtain rfl := Except.ok.inj hc
      refine ⟨⟨hscan.coherent hs, Filling.grows hs.forest hscan.grows ⟨hm, r, x, hr, hmod⟩, ?_⟩, name, hd⟩
      intro name hsite
      rw [hscan.siteTable, siteTable_of_moduleOf hm, Graph.siteTable_of_module hr hmod, Table.contains_ofListFirst,
        Graph.keys_siteEntries] at hsite
      exact Names.mem_ofList.mpr hsite

lemma scanned_prepare (hs : s.Coherent) (d : DefId) : s.Scanned (endState (prepare d s)) := by
  rw [prepare]
  cases hd : s.definition d with
  | error e =>
    rw [bind_of_error (Action.read_error hd)]
    exact .refl hs.views
  | ok definition =>
    rw [bind_of_ok (Action.read_ok hd)]
    cases definition.body with
    | external => exact .refl hs.views
    | generated g =>
      cases hx : s.resolveSymbol d with
      | none =>
        dsimp only
        rw [bind_of_error (Action.read_error (builtSymbol_unbuilt hx))]
        exact .refl hs.views
      | some x =>
        have hscan := scanned_scanSymbols hs.views
        dsimp only
        rw [bind_of_ok (Action.read_ok (builtSymbol_built hx)), bind_of_ok (moduleRecord_built hs.views hx)]
        cases s.moduleOf d with
        | none => exact hscan
        | some m =>
          dsimp only [Action.readGraph, bind, EStateM.bind]
          cases s.scanSymbols.graph.namedChildren m <;> exact hscan

lemma fills_runGenerator (hs : s.Coherent) (d : DefId) : ∃ u, s.Scanned u ∧
    (endState (runGenerator d s).2 = u ∨ ∃ m, Fills d m u (endState (runGenerator d s).2)) := by
  have hkeeps := keeps_prepare hs d
  have hscan := scanned_prepare hs d
  rw [runGenerator]
  cases hp : prepare d s with
  | error e t =>
    rw [hp] at hscan
    exact ⟨t, hscan, .inl rfl⟩
  | ok r t =>
    rw [hp] at hkeeps hscan
    refine ⟨t, hscan, ?_⟩
    cases r with
    | none => exact .inl rfl
    | some found =>
      obtain ⟨g, symbol, m, names⟩ := found
      have hrun := ((hkeeps.post rfl).2 rfl).1.run (g d symbol)
      have hend : endState (onDraft (Draft.run d m (g d symbol) ⟨t, names⟩).2) =
          (endState (Draft.run d m (g d symbol) ⟨t, names⟩).2).design := by
        cases (Draft.run d m (g d symbol) ⟨t, names⟩).2 <;> rfl
      simp only [hend]
      exact .inr ⟨m, hrun.fills⟩

lemma changes_runGenerator (hs : s.Coherent) (d : DefId) : Changes False s (endState (runGenerator d s).2) := by
  obtain ⟨u, hscan, hend | ⟨m, hfills⟩⟩ := fills_runGenerator hs d
  · rw [hend]
    exact .scan hscan
  · exact (Changes.scan hscan).trans hfills.changes

lemma changes_generateUpTo (hs : s.Coherent) (n : Nat) : Changes False s (endState (generateUpTo n s).2) := by
  induction n generalizing s with
  | zero => exact .refl
  | succ n ih =>
    rw [generateUpTo]
    cases hq : s.queue with
    | nil => exact .refl
    | cons d queue =>
      have hdequeue : Change False s { s with queue } := .dequeue hq
      obtain ⟨hq', _⟩ := hdequeue.coherent hs
      have hrun := changes_runGenerator hq' d
      have hc := (Changes.one hdequeue).trans hrun
      simp only
      generalize hr : runGenerator d { s with queue } = result at hrun hc ⊢
      obtain ⟨events, r⟩ := result
      cases r with
      | error e t => exact hc
      | ok u t => exact hc.trans (ih (Changes.coherent hc hs).1)

lemma changes_generate (hs : s.Coherent) (limit : Option Nat) : Changes False s (endState (generate limit s).2) := by
  have hc := changes_generateUpTo hs (limit.getD s.definitions.length)
  rw [generate]
  generalize generateUpTo (limit.getD s.definitions.length) s = result at hc ⊢
  obtain ⟨events, r⟩ := result
  cases r with
  | error e t => exact hc
  | ok u t => exact hc

end Design

end HardwareDesign
