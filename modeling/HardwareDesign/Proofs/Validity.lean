import HardwareDesign.Proofs.Runs
import HardwareDesign.Proofs.Soundness

namespace HardwareDesign.Design

variable {resolving : Prop} {s t : Design}

structure Named (s : Design) : Prop where
  sound : s.graph.Sound
  registered : ∀ {d x}, s.resolveSymbol d = some x → x ∈ s.graph.names s.graph.top

lemma named_new (config : Config) (source : Nat) : (new config source).Named :=
  ⟨Graph.sound_empty source, fun h => by cases h⟩

section Created

variable {payload : Payload} {parent : Option RecordId}

lemma Named.created (hs : s.Coherent) (h : s.Named) (ha : s.graph.Accepts parent)
    (hgraph : t.graph = s.graph.created payload parent) (hr : t.registry = s.registry) (hsound : t.graph.Sound) :
    t.Named := by
  refine ⟨hsound, ?_⟩
  intro d x hx
  rw [resolveSymbol_congr hr] at hx
  rw [hgraph]
  exact Graph.mem_names_top_created hs.forest ha (h.registered hx)

lemma Named.sound_unnamed (hs : s.Coherent) (h : s.Named) (ha : s.graph.Accepts parent) (hn : payload.symbolName = none)
    (hb : payload.hasBody = false) : (s.graph.created payload parent).Sound := by
  apply h.sound.created hs.forest ha
  · intro _ x hx
    simp [hn] at hx
  · intro _ _ _ _ x hx
    simp [hn] at hx
  · rintro name target rfl
    cases hn
  · rintro top rfl
    cases hb
  · rintro site rfl
    cases hb

lemma Named.built (hs : s.Coherent) (h : s.Named) {d : DefId} {x : String} (hx : x ∉ s.takenSymbols)
    (external : Bool) : (s.built d x external).Named := by
  obtain ⟨htop, _⟩ := not_taken hs.views hx
  have ha := s.graph.accepts_top
  constructor
  · rw [built_graph]
    apply h.sound.created hs.forest ha
    · intro _ y hy hm
      obtain rfl : x = y := Option.some.inj ((symbolName_modulePayload external).symm.trans hy)
      simp [Graph.mem_names_top.mp hm] at htop
    · intro _ _ hp
      cases hp
    · intro _ _ hp
      cases external <;> cases hp
    · intro _ hp
      cases external <;> cases hp
    · intro _ hp
      cases external <;> cases hp
  · intro e y hy
    rw [resolveSymbol, built_registry, Registry.symbolOf, Registry.add, Table.find?_insert] at hy
    rw [built_graph]
    by_cases hde : d = e
    · obtain rfl : x = y := by simpa [hde] using hy
      refine Graph.mem_names.mpr ⟨_, ?_, _, Graph.holds_created_next hs.forest ha, symbolName_modulePayload external⟩
      simp [Graph.created_top]
    · have he : s.registry.symbols.find? e = some y := by simpa [hde] using hy
      exact Graph.mem_names_top_created hs.forest ha (h.registered he)

lemma Named.sited (hs : s.Coherent) (h : s.Named) {d : DefId} {m : Handle} {name : String} {kind : NodeKind}
    (hf : s.Filling d m) (hn : (s.siteTable d).contains name = false) (hp : payload.symbolName = some name)
    (hb : payload.hasBody = false) (hk : s.nodeKind (.ofPayload payload) = .ok kind) :
    (s.sited d m name payload kind).Named := by
  apply h.created hs hf.accepts (t := s.sited d m name payload kind) rfl rfl
  apply h.sound.created hs.forest hf.accepts
  · intro hparent
    cases hparent
  · intro p r hparent hr x hx hm
    obtain rfl := Option.some.inj hparent
    obtain rfl := Option.some.inj (hp.symm.trans hx)
    obtain ⟨r', y, hr', hmod⟩ := hf.module
    obtain rfl := hr.unique hr'
    rw [siteTable_of_moduleOf hf.record] at hn
    simp [(Graph.mem_names_body hr hmod).mp hm] at hn
  · rintro name' target rfl
    obtain ⟨e, he, _⟩ := nodeKind_module.mp hk
    exact h.registered ((hs.paired e target).mpr he)
  · rintro top rfl
    cases hb
  · rintro site rfl
    cases hb

lemma Named.withHierarchy (hs : s.Coherent) (h : s.Named) {d : DefId} {x : String} (hx : s.resolveSymbol d = some x) :
    (s.withHierarchy d x).Named := by
  have ha := s.graph.accepts_top
  apply h.created hs ha (t := s.withHierarchy d x) rfl rfl
  apply h.sound.created hs.forest ha
  · intro _ y hy
    cases hy
  · intro _ _ hp
    cases hp
  · intro _ _ hp
    cases hp
  · rintro _ ⟨⟩
    exact h.registered hx
  · intro _ hp
    cases hp

lemma exists_site {d : DefId} {x name : String} (hx : s.resolveSymbol d = some x)
    (hsited : (s.siteTable d).contains name = true) :
    ∃ m rm, m ∈ s.graph.top ∧ s.graph.Holds m rm ∧ rm.payload = .module x ∧ name ∈ s.graph.names rm.body := by
  obtain ⟨site, hf⟩ := Table.exists_of_contains hsited
  obtain ⟨m, hm, hf⟩ := moduleOf_of_find?_siteTable hf
  obtain ⟨r, y, hr, hy⟩ := Graph.module_of_find?_siteTable hf
  obtain rfl := module_of_moduleOf hx hm hr hy
  obtain ⟨_, _, htop⟩ := moduleOf_eq_some.mp hm
  obtain ⟨_, hmem, _⟩ := Graph.holds_of_find?_namedTop htop
  exact ⟨m.record, r, hmem, hr, hy, (Graph.mem_names_body hr hy).mpr (Table.contains_of_find? hf)⟩

lemma Named.nested (hs : s.Coherent) (h : s.Named) {i : InstanceId} {n : Node} {owner : Handle} {site : SiteRef}
    (hn : s.Nesting i n owner site) : (s.nested owner site).Named := by
  obtain ⟨p, _, hstands⟩ := hn.owner
  apply h.created hs hstands.accepts (t := s.nested owner site) rfl rfl
  apply h.sound.created hs.forest hstands.accepts
  · intro _ y hy
    cases hy
  · intro _ _ _ _ y hy
    cases hy
  · intro _ _ hp
    cases hp
  · intro _ hp
    cases hp
  · rintro _ ⟨⟩
    exact exists_site hn.symbol hn.sited

lemma Named.noted (hs : s.Coherent) (h : s.Named) {i : InstanceId} {owner : Handle}
    (hi : s.StandsFor owner.record i) (hn : payload.symbolName = none) (hb : payload.hasBody = false) :
    (s.noted owner payload).Named :=
  h.created hs hi.accepts (t := s.noted owner payload) rfl rfl (h.sound_unnamed hs hi.accepts hn hb)

lemma Named.filled (hs : s.Coherent) (h : s.Named) {d : DefId} {m : Handle} (hf : s.Filling d m)
    (hn : payload.symbolName = none) (hb : payload.hasBody = false) : (s.filled m payload).Named :=
  h.created hs hf.accepts (t := s.filled m payload) rfl rfl (h.sound_unnamed hs hf.accepts hn hb)

end Created

lemma Change.named (hc : Change resolving s t) (hs : s.Coherent) (h : s.Named) : t.Named := by
  cases hc with
  | scan hscan =>
    refine ⟨hscan.graph ▸ h.sound, fun hx => ?_⟩
    rw [hscan.graph]
    exact h.registered (hscan.resolveSymbol _ ▸ hx)
  | build _ _ hx => exact h.built hs hx _
  | site hf hn hp hb hk => exact h.sited hs hf hn hp hb hk
  | unnamed hf hn hb => exact h.filled hs hf hn hb
  | hierarchy hx => exact h.withHierarchy hs hx
  | nest hn => exact h.nested hs hn
  | note hi _ hn hb => exact h.noted hs hi hn hb
  | _ => exact ⟨h.sound, h.registered⟩

lemma Named.invalidate (h : s.Named) (held : List Handle) : (s.invalidate held).2.Named := by
  obtain ⟨issues, hi⟩ := invalidate_eq s held
  have hsound := h.sound
  rw [hi]
  exact ⟨⟨hsound.symbols, hsound.bodies, hsound.targets, hsound.hierarchies, hsound.sites⟩, h.registered⟩

lemma Named.run (hs : s.Coherent) (h : s.Named) (ops : List Operation) : (s.run ops).Named :=
  run_invariant hs h (fun hu hc => hc.named hu) Named.invalidate ops

/-- Whatever is asked of a design, in whatever order, and whatever fails: as long as no passes are run, the symbols of
its top level differ, and so do the names in a body; instances, hierarchies and dynamic instances refer to what is
there; and the check finds nothing. -/
theorem validate_run (config : Config) (source : Nat) (ops : List Operation) :
    ((new config source).run ops).graph.Sound ∧ ((new config source).run ops).graph.validate.issues = [] := by
  have hs := coherent_new config source
  have hrun : (new config source).Reaches ((new config source).run ops) := reaches_run _ ops
  have hsound := ((named_new config source).run hs ops).sound
  refine ⟨hsound, ?_⟩
  simp only [Graph.validate, hsound.defects (Reaches.coherent hrun hs).1.forest, List.map_nil]

end HardwareDesign.Design
