import HardwareDesign.Proofs.Calls

/-!
What calls do to any design, coherent or not: the acts that they are made of, with the symbols that they allocate on
the way.
-/

namespace HardwareDesign

def Payload.Plain : Payload → Prop
  | hierarchy _ | location _ _ | registerLocations _ => False
  | _ => True

lemma Payload.Plain.placements {p : Payload} (h : p.Plain) : p.placements = [] := by
  cases p with
  | location | registerLocations => exact h.elim
  | _ => rfl

/-- What only some of the calls do. Sites of modules are what is generated. -/
structure Powers where
  works : Prop := False
  creates : Prop := False
  generates : Prop := False
  places : Prop := False

structure Allocation where
  design : Design
  definition : DefId
  symbol : String

namespace Design

def allocation (s : Design) (d : DefId) : List Allocation :=
  match allocateSymbol d s with
  | .ok (some i) _ => [⟨s, d, i.symbol⟩]
  | _ => []

def Indexed (s : Design) : Prop :=
  s.sites.keys.Nodup ∧ s.records.nested.keys.Nodup ∧ s.records.instances.keys.Nodup

lemma Indexed.setNested {s : Design} (owner : RecordId) (index : Table SiteRef Handle) (h : s.Indexed) :
    (s.setNested owner index).Indexed :=
  ⟨h.1, Table.nodup_keys_insert _ _ h.2.1, h.2.2⟩

def outline (s : Design) : Design := { s with tops := [], records := {} }

def Offers (s : Design) (n : Node) (kinds : List (String × NodeKind)) : Prop :=
  kinds = [] ∨ n.kind.target.isSome ∧ ∃ id sites, s.sites.find? id = some sites ∧ kinds.map Prod.fst = sites.keys

/-- The second design comes from the first one by acts, and these are the allocations in between, the oldest one
first. Some acts take a power. -/
inductive Acts (powers : Powers) (s : Design) : List Allocation → Design → Prop
  | refl : Acts powers s [] s
  | keep {log t u} : Acts powers s log t → u.outline = t.outline → (t.Indexed → u.Indexed) → Acts powers s log u
  | work {log t} (definitions : List Definition) (queue : List DefId) : powers.works → Acts powers s log t →
      Acts powers s log { t with definitions, queue }
  | scan {log t} : Acts powers s log t → Acts powers s log t.scanSymbols
  | index {log t m sites} : Acts powers s log t → t.graph.sitesIn m = .ok sites →
      Acts powers s log { t with sites := t.sites.insert m.record sites }
  | forget {log t} (id : RecordId) : Acts powers s log t → Acts powers s log { t with sites := t.sites.erase id }
  | create {log t owner payload h g} : powers.creates → payload.symbolName = none ∨ powers.generates →
      Acts powers s log t → t.graph.createIn owner payload = .ok (h, g) → payload.Plain →
      Acts powers s log { t with graph := g }
  | hierarchy {log t} (top : String) : powers.creates → Acts powers s log t →
      Acts powers s log { t with graph := t.graph.created (.hierarchy top) none }
  | build {log t d definition} : powers.works → powers.creates → Acts powers s log t → t.resolveSymbol d = none →
      t.definition d = .ok definition →
      Acts powers s (log ++ [⟨t, d, freshName t.takenSymbols definition.name⟩])
        (t.built d (freshName t.takenSymbols definition.name) definition.body.isExternal)
  | root {log t d} : Acts powers s log t → t.tree.roots.find? d = none →
      Acts powers s log { t with tree := t.tree.addRoot d }
  | expand {log t i n kinds} : Acts powers s log t → t.tree.node i = .ok n → n.children = none → t.Offers n kinds →
      Acts powers s log (t.expanded i n kinds)
  | attach {log t} (d : DefId) (name : String) (kind : NodeKind) : Acts powers s log t →
      Acts powers s log { t with tree := t.tree.attach d name kind }
  | database {log t device index} : Acts powers s log t → t.placements = none →
      PlacementIndex.ofGraph device t.graph = .ok index → Acts powers s log { t with placements := some index }
  | note {log t owner payload h g} : powers.places → powers.creates → payload.symbolName = none →
      Acts powers s log t → t.graph.createIn owner payload = .ok (h, g) →
      Acts powers s log
        (recordClaims { t with graph := g } (payload.placements.map fun p => (p.1, ⟨h.record, p.2⟩)))

inductive Evolves (s : Design) : List Allocation → Design → Prop
  | refl : Evolves s [] s
  | quiet {log t u} : Evolves s log t → u.graph = t.graph → u.symbols = t.symbols → u.registry = t.registry →
      (t.Indexed → u.Indexed) → Evolves s log u
  | scan {log t} : Evolves s log t → Evolves s log t.scanSymbols
  | create {log t owner payload h g} : Evolves s log t → t.graph.createIn owner payload = .ok (h, g) →
      Evolves s log { t with graph := g }
  | hierarchy {log t} (top : String) : Evolves s log t →
      Evolves s log { t with graph := t.graph.created (.hierarchy top) none }
  | build {log t d definition} : Evolves s log t → t.resolveSymbol d = none → t.definition d = .ok definition →
      Evolves s (log ++ [⟨t, d, freshName t.takenSymbols definition.name⟩])
        (t.built d (freshName t.takenSymbols definition.name) definition.body.isExternal)

variable {powers : Powers} {s t u : Design} {log more : List Allocation}

section Outline

variable (h : t.outline = s.outline)
include h

lemma graph_of_outline : t.graph = s.graph := congrArg (fun u => u.graph) h

lemma symbols_of_outline : t.symbols = s.symbols := congrArg (fun u => u.symbols) h

lemma registry_of_outline : t.registry = s.registry := congrArg (fun u => u.registry) h

lemma sites_of_outline : t.sites = s.sites := congrArg (fun u => u.sites) h

lemma tree_of_outline : t.tree = s.tree := congrArg (fun u => u.tree) h

lemma placements_of_outline : t.placements = s.placements := congrArg (fun u => u.placements) h

end Outline

lemma Evolves.indexed (h : s.Evolves log t) (hs : s.Indexed) : t.Indexed := by
  induction h with
  | refl => exact hs
  | quiet _ _ _ _ hk ih => exact hk ih
  | scan _ ih => exact ih
  | create _ _ ih => exact ih
  | hierarchy _ _ ih => exact ih
  | @build _ _ _ definition _ _ _ ih =>
    rw [built]
    cases definition.body.isExternal <;> exact ih

namespace Acts

lemma trans (h : s.Acts powers log t) (h' : t.Acts powers more u) : s.Acts powers (log ++ more) u := by
  induction h' with
  | refl => simpa using h
  | keep _ ho hk ih => exact ih.keep ho hk
  | work definitions queue hw _ ih => exact ih.work definitions queue hw
  | scan _ ih => exact ih.scan
  | index _ hm ih => exact ih.index hm
  | forget id _ ih => exact ih.forget id
  | create hcreates hn _ hc hp ih => exact ih.create hcreates hn hc hp
  | hierarchy top hcreates _ ih => exact ih.hierarchy top hcreates
  | build hw hcreates _ hx hd ih => simpa only [List.append_assoc] using ih.build hw hcreates hx hd
  | root _ hn ih => exact ih.root hn
  | expand _ hn hc hk ih => exact ih.expand hn hc hk
  | attach d name kind _ ih => exact ih.attach d name kind
  | database _ hp hi ih => exact ih.database hp hi
  | note hplaces hcreates hn _ hc ih => exact ih.note hplaces hcreates hn hc

lemma evolves (h : s.Acts powers log t) : s.Evolves log t := by
  induction h with
  | refl => exact .refl
  | keep _ ho hk ih => exact ih.quiet (graph_of_outline ho) (symbols_of_outline ho) (registry_of_outline ho) hk
  | work _ _ _ _ ih => exact ih.quiet rfl rfl rfl id
  | scan _ ih => exact ih.scan
  | index _ _ ih => exact ih.quiet rfl rfl rfl fun h => ⟨Table.nodup_keys_insert _ _ h.1, h.2⟩
  | forget id _ ih => exact ih.quiet rfl rfl rfl fun h => ⟨Table.nodup_keys_erase _ h.1, h.2⟩
  | create _ _ _ hc _ ih => exact ih.create hc
  | hierarchy top _ _ ih => exact ih.hierarchy top
  | build _ _ _ hx hd ih => exact ih.build hx hd
  | root _ _ ih => exact ih.quiet rfl rfl rfl id
  | expand _ _ _ _ ih => exact ih.quiet rfl rfl rfl id
  | attach _ _ _ _ ih => exact ih.quiet rfl rfl rfl id
  | database _ _ _ ih => exact ih.quiet rfl rfl rfl id
  | note _ _ _ _ hc ih => exact (ih.create hc).quiet rfl rfl rfl id

end Acts

end Design

end HardwareDesign
