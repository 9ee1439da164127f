import HardwareDesign.Proofs.Allocating
import HardwareDesign.Proofs.Naming
import HardwareDesign.Proofs.Runs
import HardwareDesign.Proofs.Soundness

/-!
Sessions: a design with callers who allocate symbols themselves and use the installers late, in any order, or never.
What is taken at any time are the symbols of the top level and those that have been allocated before.
-/

namespace HardwareDesign

def Allocation.installer (a : Allocation) : Installer := ⟨a.definition, a.symbol⟩

def Design.allocationsOf (s : Design) : Operation → List Allocation
  | .call c => s.allocations c
  | .invalidate _ => []

abbrev Graph.symbols (g : Graph) : List String := g.names g.top

def Registry.ofInstallers (installed : List Installer) : Registry :=
  installed.foldl (fun r i => r.add i.definition i.symbol) {}

structure Allocation.FirstFree (a : Allocation) (earlier : List String) : Prop where
  fresh : a.symbol ∉ a.design.graph.symbols ∧ a.symbol ∉ earlier
  first : ∃ definition k, a.design.definition a.definition = .ok definition ∧ a.symbol = candidate definition.name k ∧
    ∀ j < k, candidate definition.name j ∈ a.design.graph.symbols ∨ candidate definition.name j ∈ earlier

/-- The callers hold the installers that they have not used. The symbols that have been allocated and the installers
that have been used are in their order. -/
structure Session where
  design : Design
  held : List Installer := []
  allocated : List Allocation := []
  installed : List Installer := []

namespace Session

variable {x y : Session} {log : List Allocation} {t : Design}

def builds (x : Session) (log : List Allocation) (t : Design) : Session :=
  { x with design := t, allocated := x.allocated ++ log, installed := x.installed ++ log.map (·.installer) }

lemma builds_builds {more : List Allocation} {u : Design} :
    (x.builds log t).builds more u = x.builds (log ++ more) u := by
  simp [builds]

def operate (x : Session) (o : Operation) : Session := x.builds (x.design.allocationsOf o) (x.design.perform o)

def allocate (x : Session) (d : DefId) : Session :=
  { x with
    design := Design.endState (Design.allocateSymbol d x.design)
    held := x.held ++ (x.design.allocation d).map (·.installer)
    allocated := x.allocated ++ x.design.allocation d }

def install (x : Session) (i : Installer) (others : List Installer) (h : Handle) : Session :=
  { x with design := x.design.install i h, held := others, installed := x.installed ++ [i] }

inductive Step (x : Session) : Session → Prop
  | operation (o : Operation) : Step x (x.operate o)
  | passes {σ : Type} (passes : List (Pass σ)) (held : List Handle) (st : σ) :
      Step x { x with design := (x.design.runPasses passes held st).2.2 }
  | allocate (d : DefId) : Step x (x.allocate d)
  | install {before i after} (h : Handle) : x.held = before ++ i :: after → Step x (x.install i (before ++ after) h)

abbrev Reaches : Session → Session → Prop := Relation.ReflTransGen Step

def start (config : Config) (source : Nat) : Session := { design := .new config source }

def Reachable (x : Session) : Prop := ∃ config source, (start config source).Reaches x

def symbols (x : Session) : List String := x.allocated.map (·.symbol)

structure Accounted (x : Session) : Prop where
  forest : x.design.graph.Forest
  complete : ∀ {index}, x.design.symbols.known = some index → ∀ {y}, y ∈ x.design.graph.symbols → y ∈ index.keys
  sound : ∀ {index}, x.design.symbols.known = some index → ∀ {y}, y ∈ index.keys →
    y ∈ x.design.graph.symbols ∨ y ∈ x.symbols
  pending : ∀ {y}, y ∈ x.design.symbols.pending ↔ y ∈ x.held.map (·.symbol)
  registry : x.design.registry = .ofInstallers x.installed
  balance : (x.installed ++ x.held).Perm (x.allocated.map (·.installer))
  firstFree : ∀ {before a}, before ++ [a] <+: x.allocated → a.FirstFree (before.map (·.symbol))

lemma accounted_start (config : Config) (source : Nat) : (start config source).Accounted where
  forest := Graph.forest_empty source
  complete h := by cases h
  sound h := by cases h
  pending := .rfl
  registry := rfl
  balance := .refl _
  firstFree h := by simp [start] at h

end Session

namespace Registry

lemma ofInstallers_concat (installed : List Installer) (i : Installer) :
    ofInstallers (installed ++ [i]) = (ofInstallers installed).add i.definition i.symbol := by
  rw [ofInstallers, List.foldl_append]
  rfl

lemma mem_keys_ofInstallers {installed : List Installer} {y : String} :
    y ∈ (ofInstallers installed).definitions.keys ↔ y ∈ installed.map (·.symbol) := by
  induction installed using List.reverseRecOn with
  | nil => exact .rfl
  | append_singleton installed i ih =>
    rw [ofInstallers_concat, Registry.add, Table.mem_keys_insert, ih]
    simp

lemma symbolOf_concat (installed : List Installer) (i : Installer) (d : DefId) :
    (ofInstallers (installed ++ [i])).symbolOf d =
      if i.definition = d then some i.symbol else (ofInstallers installed).symbolOf d := by
  rw [ofInstallers_concat, symbolOf, Registry.add, Table.find?_insert]
  rfl

lemma mem_of_symbolOf {installed : List Installer} {d : DefId} {y : String}
    (h : (ofInstallers installed).symbolOf d = some y) : ⟨d, y⟩ ∈ installed := by
  induction installed using List.reverseRecOn with
  | nil => cases h
  | append_singleton installed i ih =>
    rw [symbolOf_concat] at h
    by_cases hi : i.definition = d
    · obtain rfl : i.symbol = y := by simpa [hi] using h
      exact List.mem_append_right _ (hi ▸ List.mem_singleton_self i)
    · exact List.mem_append_left _ (ih (by simpa [hi] using h))

end Registry

lemma Graph.symbols_created {g : Graph} {payload : Payload} {parent : Option RecordId} (hg : g.Forest)
    (ha : g.Accepts parent) :
    (g.created payload parent).symbols = g.symbols ++ if parent = none then payload.symbolName.toList else [] := by
  rw [symbols, created_top, names_created_next hg ha hg.allHeld_top]

namespace Session

variable {x y : Session} {log : List Allocation} {t : Design} {b : String}

namespace Accounted

lemma symbols_perm (h : x.Accounted) : ((x.installed ++ x.held).map (·.symbol)).Perm x.symbols := by
  have hsymbols : x.symbols = (x.allocated.map (·.installer)).map (·.symbol) := by
    rw [List.map_map]
    rfl
  rw [hsymbols]
  exact h.balance.map _

lemma allocated_of_pending (h : x.Accounted) (hb : b ∈ x.design.symbols.pending) : b ∈ x.symbols := by
  rw [← h.symbols_perm.mem_iff, List.map_append]
  exact List.mem_append_right _ (h.pending.mp hb)

lemma nodup (h : x.Accounted) : x.symbols.Nodup := by
  have hfresh : ∀ l : List Allocation, l <+: x.allocated → (l.map (·.symbol)).Nodup := by
    intro l
    induction l using List.reverseRecOn with
    | nil => exact fun _ => List.nodup_nil
    | append_singleton l a ih =>
      intro hl
      have hl' : l <+: x.allocated := (List.prefix_append l [a]).trans hl
      rw [List.map_append]
      exact List.concat_eq_append ▸ (ih hl').concat (h.firstFree hl).fresh.2
  exact hfresh _ List.prefix_rfl

section Taken

lemma mem_scanned (h : x.Accounted) (hb : b ∈ x.design.graph.symbols) :
    b ∈ (x.design.symbols.scanned x.design.graph).keys := by
  cases hk : x.design.symbols.known with
  | none => simpa [SymbolTable.scanned, hk, ← Table.contains_iff, ← Graph.mem_names_top] using hb
  | some index => simpa [SymbolTable.scanned, hk] using h.complete hk hb

lemma of_mem_scanned (h : x.Accounted) (hb : b ∈ (x.design.symbols.scanned x.design.graph).keys) :
    b ∈ x.design.graph.symbols ∨ b ∈ x.symbols := by
  cases hk : x.design.symbols.known with
  | none => exact .inl (by simpa [SymbolTable.scanned, hk, ← Table.contains_iff, ← Graph.mem_names_top] using hb)
  | some index => exact h.sound hk (by simpa [SymbolTable.scanned, hk] using hb)

lemma mem_takenSymbols (h : x.Accounted) :
    b ∈ x.design.takenSymbols ↔ b ∈ x.design.graph.symbols ∨ b ∈ x.symbols := by
  have hallocated : b ∈ x.design.symbols.pending ∨ b ∈ x.design.registry.definitions.keys ↔ b ∈ x.symbols := by
    rw [h.pending, h.registry, Registry.mem_keys_ofInstallers, ← h.symbols_perm.mem_iff, List.map_append,
      List.mem_append, or_comm]
  rw [Design.takenSymbols, List.append_assoc, List.mem_append, List.mem_append, hallocated]
  constructor
  · rintro (hb | hb)
    · exact h.of_mem_scanned hb
    · exact .inr hb
  · rintro (hb | hb)
    · exact .inl (h.mem_scanned hb)
    · exact .inr hb

lemma firstFree_fresh (h : x.Accounted) {d : DefId} {definition : Definition}
    (hd : x.design.definition d = .ok definition) :
    (⟨x.design, d, freshName x.design.takenSymbols definition.name⟩ : Allocation).FirstFree x.symbols where
  fresh := by
    have hnot := freshName_not_mem x.design.takenSymbols definition.name
    rwa [h.mem_takenSymbols, not_or] at hnot
  first := ⟨definition, _, hd, rfl, fun _ hj => h.mem_takenSymbols.mp (candidate_taken hj)⟩

lemma firstFree_concat (h : x.Accounted) {a : Allocation} (ha : a.FirstFree x.symbols) {before : List Allocation}
    {b : Allocation} (hb : before ++ [b] <+: x.allocated ++ [a]) : b.FirstFree (before.map (·.symbol)) := by
  rcases List.prefix_concat_iff.mp hb with heq | hold
  · obtain ⟨rfl, hba⟩ := List.append_inj' heq rfl
    obtain rfl := List.singleton_inj.mp hba
    exact ha
  · exact h.firstFree hold

end Taken

section Steps

lemma scan (h : x.Accounted) : ({ x with design := x.design.scanSymbols } : Session).Accounted where
  forest := h.forest
  complete := by
    rintro _ ⟨⟩ b hb
    exact h.mem_scanned hb
  sound := by
    rintro _ ⟨⟩ b hb
    exact h.of_mem_scanned hb
  pending := h.pending
  registry := h.registry
  balance := h.balance
  firstFree := h.firstFree

lemma regraph (h : x.Accounted) (hg : t.graph.Forest) (ht : t.graph.symbols = x.design.graph.symbols)
    (hs : t.symbols = x.design.symbols) (hr : t.registry = x.design.registry) :
    ({ x with design := t } : Session).Accounted where
  forest := hg
  complete := by
    intro index hk b hb
    exact h.complete (hs ▸ hk) (ht ▸ hb)
  sound := by
    intro index hk b hb
    exact ht.symm ▸ h.sound (hs ▸ hk) hb
  pending := by
    intro b
    rw [hs]
    exact h.pending
  registry := hr.trans h.registry
  balance := h.balance
  firstFree := h.firstFree

lemma drop (h : x.Accounted) (hg : t.graph.Forest) (hk : t.symbols.known = none)
    (hp : t.symbols.pending = x.design.symbols.pending) (hr : t.registry = x.design.registry) :
    ({ x with design := t } : Session).Accounted where
  forest := hg
  complete := by
    intro index hindex
    cases hk.symm.trans hindex
  sound := by
    intro index hindex
    cases hk.symm.trans hindex
  pending := by
    intro b
    rw [hp]
    exact h.pending
  registry := hr.trans h.registry
  balance := h.balance
  firstFree := h.firstFree

lemma build (h : x.Accounted) {d : DefId} {definition : Definition} (hd : x.design.definition d = .ok definition)
    (external : Bool) :
    (x.builds [⟨x.design, d, freshName x.design.takenSymbols definition.name⟩]
      (x.design.built d (freshName x.design.takenSymbols definition.name) external)).Accounted := by
  have hfirst := h.firstFree_fresh hd
  generalize freshName x.design.takenSymbols definition.name = b at hfirst ⊢
  have hgraph : (x.design.built d b external).graph.symbols = x.design.graph.symbols ++ [b] := by
    rw [Design.built_graph, Graph.symbols_created h.forest x.design.graph.accepts_top, if_pos rfl,
      Design.symbolName_modulePayload]
    rfl
  have hknown : (x.design.built d b external).symbols.known =
      some ((x.design.symbols.scanned x.design.graph).insert b (x.design.graph.handle x.design.graph.nextId)) := by
    cases external <;> rfl
  have hpending : (x.design.built d b external).symbols.pending =
      (b :: x.design.symbols.pending).filter (· ≠ b) := by
    cases external <;> rfl
  constructor
  · rw [Session.builds, Design.built_graph]
    exact h.forest.created x.design.graph.accepts_top
  · intro index hk c hc
    obtain rfl := Option.some.inj (hknown.symm.trans hk)
    rw [Session.builds, hgraph, List.mem_append, List.mem_singleton] at hc
    exact (Table.mem_keys_insert _).mpr (hc.imp_left h.mem_scanned)
  · intro index hk c hc
    obtain rfl := Option.some.inj (hknown.symm.trans hk)
    rw [Session.builds, hgraph]
    rcases (Table.mem_keys_insert _).mp hc with hc | rfl
    · exact (h.of_mem_scanned hc).imp (List.mem_append_left _) (by simp +contextual [symbols])
    · simp
  · intro c
    have hb : b ∉ x.design.symbols.pending := fun hm => hfirst.fresh.2 (h.allocated_of_pending hm)
    rw [Session.builds, hpending, ← h.pending]
    by_cases hc : c = b
    · simp [hc, hb]
    · simp [hc]
  · rw [Session.builds, Design.built_registry, h.registry]
    exact (Registry.ofInstallers_concat _ ⟨d, b⟩).symm
  · rw [Session.builds, List.map_append, List.append_assoc]
    exact (List.perm_append_comm.append_left _).trans (List.append_assoc _ _ _ ▸ h.balance.append_right _)
  · exact h.firstFree_concat hfirst

lemma reserve (h : x.Accounted) {d : DefId} {definition : Definition} (hd : x.design.definition d = .ok definition) :
    ({ x with
      design := (x.design.reserve definition.name).2
      held := x.held ++ [⟨d, freshName x.design.takenSymbols definition.name⟩]
      allocated := x.allocated ++ [⟨x.design, d, freshName x.design.takenSymbols definition.name⟩] } :
      Session).Accounted where
  forest := h.forest
  complete := h.scan.complete
  sound hk _ hb := (h.scan.sound hk hb).imp_right (by simp +contextual [symbols])
  pending := by
    intro b
    rw [Design.reserve, List.map_append, List.mem_append, ← h.pending]
    simp [Design.scanSymbols, SymbolTable.scan, or_comm]
  registry := h.registry
  balance := by
    rw [← List.append_assoc, List.map_append]
    exact h.balance.append_right _
  firstFree := h.firstFree_concat (h.firstFree_fresh hd)

lemma allocate (h : x.Accounted) (d : DefId) : (x.allocate d).Accounted := by
  rw [Session.allocate]
  cases hx : x.design.resolveSymbol d with
  | some b => simpa [Design.allocation_built hx, Design.allocateSymbol, hx, Design.endState] using h
  | none =>
    cases hd : x.design.definition d with
    | error e => simpa [Design.allocation_unknown hx hd, Design.allocateSymbol, hx, hd, Design.endState] using h
    | ok definition =>
      rw [Design.allocation_new hx hd, Design.allocateSymbol, hx, hd]
      exact h.reserve hd

lemma install (h : x.Accounted) {before after : List Installer} {i : Installer} (hi : x.held = before ++ i :: after)
    (k : Handle) : (x.install i (before ++ after) k).Accounted := by
  have hheld : x.held.Perm (i :: (before ++ after)) := hi ▸ List.perm_middle
  have hfresh : i.symbol ∉ (before ++ after).map (·.symbol) := by
    have hnodup := (h.symbols_perm.nodup_iff.mpr h.nodup)
    rw [List.map_append] at hnodup
    exact (List.nodup_cons.mp ((hheld.map _).nodup_iff.mp hnodup.of_append_right)).1
  have hallocated : i.symbol ∈ x.symbols := by
    rw [← h.symbols_perm.mem_iff, hi]
    simp
  constructor
  · exact h.forest
  · intro index hk b hb
    obtain ⟨index, hold, rfl⟩ := Option.map_eq_some_iff.mp hk
    exact (Table.mem_keys_insert _).mpr (.inl (h.complete hold hb))
  · intro index hk b hb
    obtain ⟨index, hold, rfl⟩ := Option.map_eq_some_iff.mp hk
    rcases (Table.mem_keys_insert _).mp hb with hb | rfl
    · exact h.sound hold hb
    · exact .inr hallocated
  · intro b
    have hmem := (hheld.map (·.symbol)).mem_iff (a := b)
    rw [← h.pending, List.map_cons, List.mem_cons] at hmem
    rw [Session.install, Design.install, SymbolTable.settle, List.mem_filter, hmem]
    by_cases hb : b = i.symbol
    · simpa [hb] using hfresh
    · simp [hb]
  · rw [Session.install, Design.install, h.registry, Registry.ofInstallers_concat]
  · rw [Session.install, List.append_assoc]
    exact (hheld.symm.append_left _).trans h.balance
  · exact h.firstFree

lemma builds (h : x.Accounted) (he : x.design.Evolves log t) : (x.builds log t).Accounted := by
  induction he with
  | refl => simpa [Session.builds] using h
  | quiet _ hg hs hr _ ih => exact ih.regraph (hg ▸ ih.forest) (by rw [hg]; rfl) hs hr
  | scan _ ih => exact ih.scan
  | @create log u owner payload _ _ _ hc ih =>
    obtain ⟨_, haccepts, _, rfl⟩ := Graph.createIn_ok hc
    have ha : u.graph.Accepts (some owner.record) := haccepts
    refine ih.regraph (ih.forest.created ha) ?_ rfl rfl
    exact (Graph.symbols_created ih.forest ha).trans (by simp [Session.builds])
  | @hierarchy log u top _ ih =>
    refine ih.regraph (ih.forest.created u.graph.accepts_top) ?_ rfl rfl
    exact (Graph.symbols_created ih.forest u.graph.accepts_top).trans (by simp [Payload.symbolName, Session.builds])
  | build _ hx hd ih =>
    rw [← builds_builds]
    exact ih.build hd _

end Steps

end Accounted

lemma Step.accounted (hstep : x.Step y) (h : x.Accounted) : y.Accounted := by
  cases hstep with
  | operation o =>
    cases o with
    | call c => exact h.builds (Design.acts_after x.design c).evolves
    | invalidate held =>
      obtain ⟨issues, hi⟩ := Design.invalidate_eq x.design held
      rw [operate, Design.perform, hi, Design.allocationsOf]
      simpa [Session.builds] using h.drop (t := { x.design.dropViews with issues }) h.forest.nextEpoch rfl rfl rfl
  | passes passes held st =>
    rcases Design.runPasses_eq h.forest passes held st with hsame | ⟨g, issues, passed, hg, hdropped⟩
    · rw [hsame]
      exact h
    · rw [hdropped]
      exact h.drop hg rfl rfl rfl
  | allocate d => exact h.allocate d
  | install k hi => exact h.install hi k

lemma Reaches.accounted (hr : x.Reaches y) (h : x.Accounted) : y.Accounted := by
  induction hr with
  | refl => exact h
  | tail _ hstep ih => exact hstep.accounted ih

lemma Reachable.accounted (h : x.Reachable) : x.Accounted := by
  obtain ⟨config, source, hr⟩ := h
  exact hr.accounted (accounted_start config source)

/-- Of all the symbols that are ever allocated, to callers or for definitions that are built, no two are the same, and
each is the first candidate that was free at its time. A definition has no symbol but an allocated one. -/
theorem symbols_unique (h : x.Reachable) :
    x.symbols.Nodup ∧
      (∀ {before a}, before ++ [a] <+: x.allocated → a.FirstFree (before.map (·.symbol))) ∧
      ∀ {d b}, x.design.resolveSymbol d = some b → ∃ a ∈ x.allocated, a.definition = d ∧ a.symbol = b := by
  have h := h.accounted
  refine ⟨h.nodup, h.firstFree, ?_⟩
  intro d b hb
  rw [Design.resolveSymbol, h.registry] at hb
  have hinstalled := List.mem_append_left x.held (Registry.mem_of_symbolOf hb)
  obtain ⟨a, ha, hinstaller⟩ := List.mem_map.mp (h.balance.mem_iff.mp hinstalled)
  exact ⟨a, ha, congrArg Installer.definition hinstaller, congrArg Installer.symbol hinstaller⟩

def builtWhileHeld : Session :=
  (((start {} 0).operate (.call (.define "M" .external))).allocate ⟨0⟩).operate (.call (.addTop ⟨0⟩))

def eraseFirst : Pass Unit := ⟨"erase", fun _ => .inspect fun g => .erase (g.handle ⟨1⟩) fun _ => .done (.ok (), ())⟩

def erasedWhileHeld : Session :=
  { builtWhileHeld with
    design := (builtWhileHeld.design.runPasses [eraseFirst] [] ()).2.2 }
    |>.operate (.call (.define "M" .external)) |>.allocate ⟨1⟩

lemma reachable_builtWhileHeld : builtWhileHeld.Reachable :=
  ⟨{}, 0, .tail (.tail (.single (.operation _)) (.allocate _)) (.operation _)⟩

lemma reachable_erasedWhileHeld : erasedWhileHeld.Reachable := by
  obtain ⟨config, source, hr⟩ := reachable_builtWhileHeld
  exact ⟨config, source, .tail (.tail (.tail hr (.passes [eraseFirst] [] ())) (.operation _)) (.allocate _)⟩

theorem symbols_unique_erased :
    erasedWhileHeld.design.graph.top = [] ∧ erasedWhileHeld.symbols = ["M", "M_1", "M_2"] ∧
      erasedWhileHeld.symbols.Nodup :=
  ⟨by decide, by decide, (symbols_unique reachable_erasedWhileHeld).1⟩

end Session

end HardwareDesign
