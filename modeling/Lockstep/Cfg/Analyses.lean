import Lockstep.Cfg.Loop

/-!
# Analyses of the control flow

A snapshot of what is known about the control flow of a function. A function that has changed
needs a new one.
-/

namespace Lockstep

/-- Graph, dominance and loops of a function. -/
structure Analyses where
  cfg : Cfg
  dom : DomTree
  postDom : DomTree
  loops : LoopForest
  deriving Repr, Inhabited

namespace Analyses

def ofFunc (f : Func) : Analyses :=
  let cfg := Cfg.ofFunc f
  let dom := cfg.dominators
  { cfg, dom, postDom := cfg.postDominators f, loops := .ofCfg cfg dom }

end Analyses

end Lockstep
