import HardwareDesign.Design.Sites

namespace HardwareDesign

structure Draft where
  design : Design
  names : Names

abbrev DraftAction := EStateM Error Draft

namespace Draft

def onDesign {α : Type} (a : Action α) : DraftAction α := fun d =>
  match a d.design with
  | .ok x s => .ok x { d with design := s }
  | .error e s => .error e { d with design := s }

def assign (base : String) : DraftAction String := fun d =>
  let (name, names) := d.names.assign base
  .ok name { d with names }

def addRecord (module : Handle) (payload : Payload) : Action Unit := do
  let _ ← Action.editGraph (·.createIn module payload)
  modify fun s => { s with sites := s.sites.erase module.record }

def addSite (d : DefId) (module : Handle) (name : String) (payload : Payload) (kind : NodeKind) : Action Unit := do
  addRecord module payload
  modify fun s => { s with tree := s.tree.attach d name kind }

def answer (d : DefId) (module : Handle) : Request → DraftAction (Option String)
  | .instantiate base target => do
    let symbol ← onDesign (Design.buildDefinition target)
    let name ← assign base
    onDesign (addSite d module name (.instantiation name symbol) (.module target))
    return some name
  | .register base type => do
    let name ← assign base
    onDesign (addSite d module name (.register name type) (.register type))
    return some name
  | .operation base mnemonic => do
    let name ← assign base
    onDesign (addSite d module name (.operation name mnemonic) .leaf)
    return some name
  | .unnamed mnemonic => do
    onDesign (addRecord module (.operation none mnemonic))
    return none

def run (d : DefId) (module : Handle) : Program → Draft → List Event × EStateM.Result Error Draft Unit
  | .done, draft => ([], .ok () draft)
  | .fail e, draft => ([], .error e draft)
  | .remark data next, draft =>
    let (events, r) := run d module next draft
    (.remark data :: events, r)
  | .request r next, draft =>
    match answer d module r draft with
    | .ok name draft =>
      let (events, r) := run d module (next (.ok name)) draft
      (.answered (.ok name) :: events, r)
    | .error e draft =>
      let (events, r) := run d module (next (.error e)) draft
      (.answered (.error e) :: events, r)

end Draft

namespace Design

def onDraft : EStateM.Result Error Draft Unit → EStateM.Result Error Design Unit
  | .ok u draft => .ok u draft.design
  | .error e draft => .error e draft.design

def prepare (d : DefId) : Action (Option (Generator × String × Handle × Names)) := do
  match (← Action.read (·.definition d)).body with
  | .external => return none
  | .generated g =>
    let symbol ← Action.read (·.builtSymbol d)
    match ← moduleRecord d with
    | none => Action.fail (.notFound (.symbol symbol))
    | some module =>
      let children ← Action.readGraph (·.namedChildren module)
      return some (g, symbol, module, Names.ofList (children.map Prod.fst))

def runGenerator (d : DefId) (s : Design) : List Event × EStateM.Result Error Design Unit :=
  match prepare d s with
  | .error e s => ([], .error e s)
  | .ok none s => ([], .ok () s)
  | .ok (some (g, symbol, module, names)) s =>
    let (events, r) := Draft.run d module (g d symbol) ⟨s, names⟩
    (.started d symbol :: events, onDraft r)

def generateUpTo : Nat → Design → List Event × EStateM.Result Error Design Unit
  | 0, s => ([], .ok () s)
  | n + 1, s =>
    match s.queue with
    | [] => ([], .ok () s)
    | d :: queue =>
      match runGenerator d { s with queue } with
      | (events, .error e s) => (events, .error e s)
      | (events, .ok _ s) =>
        let (more, r) := generateUpTo n s
        (events ++ more, r)

/-- Runs as many generators as the limit says. Each definition is built once, so without a limit there are no more
runs than definitions. Answers how many generators are still waiting. -/
def generate (limit : Option Nat) (s : Design) : List Event × EStateM.Result Error Design Nat :=
  match generateUpTo (limit.getD s.definitions.length) s with
  | (events, .ok _ s) => (events, .ok s.pending s)
  | (events, .error e s) => (events, .error e s)

end Design

end HardwareDesign
