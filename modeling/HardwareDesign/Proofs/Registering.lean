import HardwareDesign.Proofs.Sessions

namespace HardwareDesign

namespace Registry

variable {installed more : List Installer} {d : DefId} {b : String}

lemma symbolOf_append (installed more : List Installer) (d : DefId) :
    (ofInstallers (installed ++ more)).symbolOf d =
      ((ofInstallers more).symbolOf d).or ((ofInstallers installed).symbolOf d) := by
  induction more using List.reverseRecOn with
  | nil => simp [ofInstallers, symbolOf, Table.find?, Table.findIn]
  | append_singleton more i ih =>
    rw [← List.append_assoc, symbolOf_concat, symbolOf_concat, ih]
    by_cases hi : i.definition = d <;> simp [hi]

lemma exists_symbolOf {i : Installer} (hi : i ∈ installed) :
    ∃ b, (ofInstallers installed).symbolOf i.definition = some b := by
  induction installed using List.reverseRecOn with
  | nil => cases hi
  | append_singleton installed j ih =>
    rw [symbolOf_concat]
    by_cases hj : j.definition = i.definition
    · exact ⟨j.symbol, if_pos hj⟩
    · rcases List.mem_append.mp hi with hi | hi
      · rw [if_neg hj]
        exact ih hi
      · obtain rfl := List.mem_singleton.mp hi
        exact (hj rfl).elim

lemma symbolOf_eq_none : (ofInstallers installed).symbolOf d = none ↔ ∀ i ∈ installed, i.definition ≠ d := by
  constructor
  · rintro h i hi rfl
    obtain ⟨b, hb⟩ := exists_symbolOf hi
    simp [hb] at h
  · intro h
    cases hb : (ofInstallers installed).symbolOf d with
    | none => rfl
    | some b => exact (h _ (mem_of_symbolOf hb) rfl).elim

lemma definitionOf_iff (hn : (installed.map (·.symbol)).Nodup) :
    (ofInstallers installed).definitionOf b = some d ↔ ⟨d, b⟩ ∈ installed := by
  induction installed using List.reverseRecOn with
  | nil => simp [ofInstallers, definitionOf, Table.find?, Table.findIn]
  | append_singleton installed i ih =>
    rw [List.map_append, List.map_singleton, ← List.concat_eq_append, List.nodup_concat] at hn
    obtain ⟨hfresh, hn⟩ := hn
    have hfind : (ofInstallers (installed ++ [i])).definitionOf b =
        if i.symbol = b then some i.definition else (ofInstallers installed).definitionOf b := by
      rw [ofInstallers_concat, definitionOf, Registry.add, Table.find?_insert]
      rfl
    rw [hfind, List.mem_append, List.mem_singleton]
    by_cases hi : i.symbol = b
    · subst hi
      have hnot : ⟨d, i.symbol⟩ ∉ installed := fun hm => hfresh (List.mem_map_of_mem (f := (·.symbol)) hm)
      cases i
      simp [hnot, eq_comm]
    · have hne : (⟨d, b⟩ : Installer) ≠ i := by
        rintro rfl
        exact hi rfl
      simp [hi, ih hn, hne]

lemma paired_iff (hn : (installed.map (·.symbol)).Nodup) :
    (ofInstallers installed).Paired ↔ (installed.map (·.definition)).Nodup := by
  constructor
  · intro hp
    refine List.Nodup.map_on ?_ hn.of_map
    intro i hi j hj hij
    have hsymbol := fun {k : Installer} (hk : k ∈ installed) =>
      (hp k.definition k.symbol).mpr ((definitionOf_iff hn).mpr hk)
    have hsame : i.symbol = j.symbol := Option.some.inj ((hsymbol hi).symm.trans (hij ▸ hsymbol hj))
    exact List.inj_on_of_nodup_map hn hi hj hsame
  · intro hd d b
    rw [definitionOf_iff hn]
    refine ⟨mem_of_symbolOf, fun hm => ?_⟩
    obtain ⟨c, hc⟩ : ∃ c, (ofInstallers installed).symbolOf d = some c := exists_symbolOf hm
    have hsame : (⟨d, c⟩ : Installer) = ⟨d, b⟩ := List.inj_on_of_nodup_map hd (mem_of_symbolOf hc) hm rfl
    obtain rfl : c = b := congrArg Installer.symbol hsame
    exact hc

end Registry

namespace Session

variable {x y : Session} {d : DefId} {b : String}

lemma Step.installed (h : x.Step y) : x.installed <+: y.installed := by
  cases h with
  | operation o => exact List.prefix_append _ _
  | passes passes held st => exact List.prefix_rfl
  | allocate d => exact List.prefix_rfl
  | install k hi => exact List.prefix_append _ _

lemma Reaches.installed (h : x.Reaches y) : x.installed <+: y.installed := by
  induction h with
  | refl => exact List.prefix_rfl
  | tail _ hstep ih => exact ih.trans hstep.installed

lemma Accounted.nodup_installed (h : x.Accounted) : (x.installed.map (·.symbol)).Nodup := by
  have hnodup := h.symbols_perm.nodup_iff.mpr h.nodup
  rw [List.map_append] at hnodup
  exact hnodup.of_append_left

lemma Accounted.resolveDefinition_iff (h : x.Accounted) :
    x.design.resolveDefinition b = .ok d ↔ ⟨d, b⟩ ∈ x.installed := by
  rw [← Registry.definitionOf_iff h.nodup_installed, ← h.registry, Design.resolveDefinition]
  cases x.design.registry.definitionOf b <;> simp

lemma Accounted.resolveSymbol_eq (h : x.Accounted) (d : DefId) :
    x.design.resolveSymbol d = (Registry.ofInstallers x.installed).symbolOf d := by
  rw [Design.resolveSymbol, h.registry]

lemma Accounted.resolveSymbol_iff (h : y.Accounted) (hr : x.Reaches y) (hx : x.Accounted)
    (hb : x.design.resolveSymbol d = some b) :
    y.design.resolveSymbol d = some b ↔ ∀ i ∈ y.installed.drop x.installed.length, i.definition ≠ d := by
  obtain ⟨more, hmore⟩ := hr.installed
  have hdrop : y.installed.drop x.installed.length = more := by rw [← hmore, List.drop_left]
  have hnodup := h.nodup_installed
  rw [hx.resolveSymbol_eq] at hb
  rw [h.resolveSymbol_eq, hdrop, ← Registry.symbolOf_eq_none]
  rw [← hmore] at hnodup ⊢
  rw [Registry.symbolOf_append, hb]
  cases hc : (Registry.ofInstallers more).symbolOf d with
  | none => simp
  | some c =>
    have hne : c ≠ b := by
      rintro rfl
      rw [List.map_append, List.nodup_append] at hnodup
      have hold := List.mem_map_of_mem (f := (·.symbol)) (Registry.mem_of_symbolOf hb)
      have hnew := List.mem_map_of_mem (f := (·.symbol)) (Registry.mem_of_symbolOf hc)
      exact hnodup.2.2 _ hold _ hnew rfl
    simp [hne]

/-- A symbol leads to its definition for ever, and the symbol of a definition leads back to it. The definition has the
same symbol later on unless another installer of it has been used in between, and the registry pairs symbols and
definitions as long as no definition has been installed twice. -/
theorem registry_pairing (h : x.Reachable) (hr : x.Reaches y) :
    (∀ {d b}, x.design.resolveDefinition b = .ok d → y.design.resolveDefinition b = .ok d) ∧
      (∀ {d b}, x.design.resolveSymbol d = some b → x.design.resolveDefinition b = .ok d ∧
        (y.design.resolveSymbol d = some b ↔ ∀ i ∈ y.installed.drop x.installed.length, i.definition ≠ d)) ∧
      ((∀ d b, y.design.resolveSymbol d = some b ↔ y.design.resolveDefinition b = .ok d) ↔
        (y.installed.map (·.definition)).Nodup) := by
  have hx := h.accounted
  have hy := hr.accounted hx
  refine ⟨?_, ?_, ?_⟩
  · intro d b hb
    exact hy.resolveDefinition_iff.mpr (hr.installed.subset (hx.resolveDefinition_iff.mp hb))
  · intro d b hb
    refine ⟨?_, hy.resolveSymbol_iff hr hx hb⟩
    rw [hx.resolveSymbol_eq] at hb
    exact hx.resolveDefinition_iff.mpr (Registry.mem_of_symbolOf hb)
  · rw [← Registry.paired_iff hy.nodup_installed]
    refine forall₂_congr fun d b => ?_
    rw [hy.resolveSymbol_eq, hy.resolveDefinition_iff, Registry.definitionOf_iff hy.nodup_installed]

def installedTwice : Session := builtWhileHeld.install ⟨⟨0⟩, "M"⟩ [] ⟨⟨1⟩, 0, 0⟩

lemma reaches_installedTwice : builtWhileHeld.Reaches installedTwice := by
  have hheld : builtWhileHeld.held = [] ++ ⟨⟨0⟩, "M"⟩ :: [] := rfl
  exact .single (.install _ hheld)

theorem registry_pairing_twice :
    builtWhileHeld.design.resolveSymbol ⟨0⟩ = some "M_1" ∧ installedTwice.design.resolveSymbol ⟨0⟩ = some "M" ∧
      installedTwice.design.resolveDefinition "M_1" = .ok ⟨0⟩ ∧
      ¬ (installedTwice.installed.map (·.definition)).Nodup := by
  have hbuilt : builtWhileHeld.design.resolveSymbol ⟨0⟩ = some "M_1" := by decide
  obtain ⟨hkept, hbuilt', _⟩ := registry_pairing reachable_builtWhileHeld reaches_installedTwice
  exact ⟨hbuilt, by decide, hkept (hbuilt' hbuilt).1, by decide⟩

end Session

end HardwareDesign
