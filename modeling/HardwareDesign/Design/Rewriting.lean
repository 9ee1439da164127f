import HardwareDesign.Graph.Check
import HardwareDesign.Design.Invalidation

namespace HardwareDesign

inductive Edit (α : Type) where
  | done (a : α)
  | inspect (next : Graph → Edit α)
  | create (parent : Option Handle) (payload : Payload) (next : Except GraphError Handle → Edit α)
  | erase (h : Handle) (next : Except GraphError Unit → Edit α)
  | nextEpoch (next : Edit α)

namespace Edit

variable {α β : Type}

def bind : Edit α → (α → Edit β) → Edit β
  | done a, f => f a
  | inspect next, f => inspect fun g => (next g).bind f
  | create parent payload next, f => create parent payload fun r => (next r).bind f
  | erase h next, f => erase h fun r => (next r).bind f
  | nextEpoch next, f => nextEpoch (next.bind f)

instance : Monad Edit where
  pure := done
  bind := bind

def run : Edit α → Graph → α × Graph
  | done a, g => (a, g)
  | inspect next, g => (next g).run g
  | create parent payload next, g =>
    match g.create parent payload with
    | .ok (h, g) => (next (.ok h)).run g
    | .error e => (next (.error e)).run g
  | erase h next, g =>
    match g.erase h with
    | .ok g => (next (.ok ())).run g
    | .error e => (next (.error e)).run g
  | nextEpoch next, g => next.run g.nextEpoch

end Edit

structure Pass (σ : Type) where
  name : String
  run : σ → Edit (Except Error Unit × σ)

namespace Pass

variable {σ : Type}

def runAll : List (Pass σ) → σ → Graph → Except Error Unit × σ × Graph
  | [], st, g => (.ok (), st, g)
  | p :: ps, st, g =>
    match (p.run st).run g with
    | ((.ok _, st), g) => runAll ps st g
    | ((.error e, st), g) => (.error e, st, g)

end Pass

namespace Design

def beforePasses (s : Design) (held : List Handle) : Design :=
  let advised := s.advise (0 < s.pending && s.config.diagnostics.warnPartialGeneration) (.partialGeneration s.pending)
  (advised.invalidate held).2

/-- Only the first run that succeeds has an effect. All views are dropped before the passes run. -/
def runPasses {σ : Type} (passes : List (Pass σ)) (held : List Handle) (st : σ) (s : Design) :
    Except Error Unit × σ × Design :=
  if s.passed then (.ok (), st, s)
  else
    let s := s.beforePasses held
    match Pass.runAll passes st s.graph with
    | (.ok _, st, g) => (.ok (), st, { s with graph := g, passed := true })
    | (.error e, st, g) => (.error e, st, { s with graph := g })

end Design

end HardwareDesign
