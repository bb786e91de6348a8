import Lockstep.Interner
import Lockstep.Context
import Lockstep.Pipeline
import Lockstep.Eval.Run
import Lockstep.Loop.Remainder
import Lockstep.Proofs.Cfg.Reach
import Lockstep.Proofs.Func.Coherent
import Lockstep.Proofs.Func.Extend
import Lockstep.Proofs.Triple
import Lockstep.Proofs.Vector.Stage
import Lockstep.Proofs.Cfg.Tree
import Lockstep.Proofs.Linear.Chain
import Lockstep.Proofs.Vector.Grow
import Lockstep.Proofs.Linear.Straighten
import Lockstep.Proofs.Linear.Branch
import Lockstep.Proofs.Vector.Cascade
import Lockstep.Proofs.Linear.Linearize
import Lockstep.Proofs.Vector.Mask
import Lockstep.Proofs.Loop.Normalize
import Lockstep.Proofs.Pipeline.Uniform
import Lockstep.Proofs.Cfg.Dominance
import Lockstep.Proofs.Cfg.LoopEntry
import Lockstep.Proofs.Eval.Effects
import Lockstep.Proofs.Eval.Rename
import Lockstep.Proofs.Eval.Typing
import Lockstep.Proofs.Func.Typed
import Lockstep.Proofs.Eval.Soundness
import Lockstep.Proofs.Func.Append
import Lockstep.Proofs.Loop.Copy
import Lockstep.Proofs.Loop.MainBound
import Lockstep.Proofs.Func.Refit
import Lockstep.Proofs.Loop.MainCode
import Lockstep.Proofs.Loop.Split
import Lockstep.Proofs.Eval.Lanes
import Lockstep.Proofs.Loop.Overlay
import Lockstep.Proofs.Loop.OverlayRun
import Lockstep.Proofs.Loop.Annotate
import Lockstep.Proofs.Loop.NormalizeRun
import Lockstep.Proofs.Loop.Counted
import Lockstep.Proofs.Loop.CountedRun
import Lockstep.Proofs.Loop.SplitOff
import Lockstep.Proofs.Eval.Frame
import Lockstep.Proofs.Eval.Along
import Lockstep.Proofs.Func.Check
import Lockstep.Proofs.Loop.Turns
import Lockstep.Proofs.Loop.SplitRun
import Lockstep.Proofs.Loop.Trips
import Lockstep.Proofs.Loop.SplitSound
import Lockstep.Proofs.Loop.WidthFits
import Lockstep.Proofs.Loop.CountedTurn
import Lockstep.Proofs.Loop.CountedVisits
import Lockstep.Proofs.Vector.Marker
import Lockstep.Proofs.Loop.TellMask
import Lockstep.Proofs.Loop.SingleExit
import Lockstep.Proofs.Vector.MaskRun
import Lockstep.Proofs.Eval.ActiveLanes
import Lockstep.Proofs.Linear.Guard
import Lockstep.Proofs.Pipeline.Predicated
import Lockstep.Proofs.Pipeline.Returned
import Lockstep.Proofs.Cfg.LoopUnique
import Lockstep.Proofs.Linear.Complete
import Lockstep.Proofs.Linear.Known
import Lockstep.Proofs.Linear.NoDefect
import Lockstep.Proofs.Loop.NormalizeStep
import Lockstep.Proofs.Loop.UniformExits
import Lockstep.Proofs.Cfg.Idom
import Lockstep.Proofs.Cfg.DominatorTree
import Lockstep.Proofs.Cfg.PostDominatorTree
import Lockstep.Proofs.Pipeline.NoDefect
import Lockstep.Proofs.Eval.LaneRun
import Lockstep.Proofs.Vector.CascadeCode
import Lockstep.Proofs.Vector.CascadeLanes
import Lockstep.Proofs.Vector.CascadeRun
import Lockstep.Proofs.Cfg.LoopSearchTotal
import Lockstep.Proofs.Cfg.LoopNesting
import Lockstep.Proofs.Cfg.NaturalLoop
import Lockstep.Proofs.Cfg.EnteredLoop
import Lockstep.Proofs.Pipeline.Failure
import Lockstep.Proofs.Loop.MainTrips
import Lockstep.Proofs.Reduction.Algebra
import Lockstep.Proofs.Reduction.Chain
import Lockstep.Proofs.Reduction.Folded
import Lockstep.Proofs.Reduction.Restart
import Lockstep.Proofs.Reduction.Decompose
import Lockstep.Proofs.Reduction.FoldCode
import Lockstep.Proofs.Reduction.FoldSsa
import Lockstep.Proofs.Reduction.FoldRun
import Lockstep.Proofs.Reduction.FoldAll
import Lockstep.Proofs.Loop.CopyCoherent
import Lockstep.Proofs.Loop.SplitPaths
import Lockstep.Proofs.Loop.SplitSsa
import Lockstep.Proofs.Loop.Recognize
import Lockstep.Proofs.Loop.SplitCounted
import Lockstep.Proofs.Cfg.ReversePostOrder
import Lockstep.Proofs.Linear.ProgramOrder
import Lockstep.Proofs.Vector.MaskRequest
import Lockstep.Proofs.Vector.MaskOnce
import Lockstep.Proofs.Eval.Bits
import Lockstep.Proofs.Eval.RefinedRun
import Lockstep.Proofs.Vector.LowerRun
import Lockstep.Proofs.Vector.Shape
import Lockstep.Proofs.Func.Uses
import Lockstep.Proofs.Func.Arranged
import Lockstep.Proofs.Func.EntryLists
import Lockstep.Proofs.Func.Editing
import Lockstep.Proofs.Cfg.IdomTotal
import Lockstep.Proofs.Vector.Region
import Lockstep.Proofs.Context.Numbers
import Lockstep.Proofs.Cfg.LoopSearchCalls
import Lockstep.Proofs.Eval.Cast
import Lockstep.Proofs.Pipeline.Acyclic
