import Lockstep.Func.Builder
import Lockstep.Func.Uses
import Lockstep.Module
import Lockstep.Vector.Shape

/-!
# Marker functions

A program calls marker functions to look across lanes or to make a promise about a value.
`Markers.declare` finds them in a module by name and declares the missing ones;
`Markers.lower` replaces the calls by what they mean for a single lane.
-/

namespace Lockstep

-- powers and sums are those of the core library, whatever else is imported
attribute [local instance (2000)] instPowNat Zero.ofOfNat0

/-- A function with a meaning across lanes. -/
inductive Marker where
  /-- Whether a truth value holds in some lane. -/
  | any
  /-- Whether a truth value holds in every lane. -/
  | all
  /-- The value of one lane. -/
  | extract
  /-- The lanes in which a truth value holds, as bits. -/
  | ballot
  /-- A value, with a promise about its alignment. -/
  | align
  deriving DecidableEq, Repr, Inhabited

namespace Marker

def list : List Marker := [any, all, extract, ballot, align]

def name : Marker → String
  | any => "rv_any"
  | all => "rv_all"
  | extract => "rv_extract"
  | ballot => "rv_ballot"
  | align => "rv_align"

def ofName? (s : String) : Option Marker := list.find? (·.name == s)

theorem ofName?_name (k : Marker) : ofName? k.name = some k := by cases k <;> decide

def resultShape : Marker → Shape
  | any | all | extract | ballot => .uni
  | align => .unknown

def argShapes : Marker → List Shape
  | any | all => [.vary]
  | extract => [.vary, .uni]
  | ballot => [.vary, .vary]
  | align => [.unknown, .uni]

def arity (k : Marker) : Nat := k.argShapes.length

/-- The declaration of a marker that a module lacks. -/
def decl (k : Marker) : FuncDecl :=
  match k with
  | any | all => { name := k.name, retTy := .bool, params := [.bool] }
  | extract | align => { name := k.name, retTy := .int 32, params := [.int 32, .int 32] }
  | ballot => { name := k.name, retTy := .int 32, params := [.bool, .bool] }

/-- What a call returns in every lane, from the lanes of its arguments. A missing first argument
is undefined. -/
def eval (k : Marker) (width : Nat) (args : List Lanes) : Lanes :=
  let first := args[0]?.getD (.splat width .undefined)
  match k with
  | any => .splat width (.bool (first.any Scalar.isTrue))
  | all => .splat width (.bool (first.all Scalar.isTrue))
  | extract =>
    match Lanes.lane (args[1]?.getD []) 0 with
    | .int x => .splat width (if x < 0 then .undefined else Lanes.lane first x.toInt.toNat)
    | _ => .splat width .undefined
  | ballot =>
    let bits := first.zipIdx.map fun (x, l) => if x.isTrue then (2 : Nat) ^ l else 0
    .splat width (.int (Int64.ofNat bits.sum))
  | align => first

end Marker

/-! ## The markers of a module -/

/-- Which functions of a module are markers, and for each marker the first such function. -/
structure Markers where
  kinds : List (FuncId × Marker) := []
  funcs : List (Marker × FuncId) := []
  deriving DecidableEq, Repr, Inhabited

namespace Markers

/-- The marker that a function is. -/
def kindOf? (m : Markers) (f : FuncId) : Option Marker := m.kinds.lookup f

/-- The function that stands for a marker. -/
def func (m : Markers) (k : Marker) : FuncId := (m.funcs.lookup k).getD 0

/-- Records that a function is a marker; the first function of a marker stands for it. -/
def add (m : Markers) (f : FuncId) (k : Marker) : Markers where
  kinds := m.kinds ++ [(f, k)]
  funcs := if (m.funcs.lookup k).isSome then m.funcs else m.funcs ++ [(k, f)]

/-- The markers that a module declares. -/
def find (m : Module) : Markers :=
  m.ids.foldl (fun r f =>
    match Marker.ofName? (m.name f) with
    | some k => r.add f k
    | none => r) {}

/-- Declares a marker unless there is a function for it. -/
def require (s : Markers × Module) (k : Marker) : Markers × Module :=
  if (s.1.funcs.lookup k).isSome then s
  else
    let (f, m) := s.2.define k.decl
    (s.1.add f k, m)

/-- The markers of a module, in which the missing ones are declared. -/
def declare (m : Module) : Markers × Module := Marker.list.foldl require (find m, m)

/-- The marker that defines a value. -/
def calledBy? (m : Markers) (f : Func) : Value → Option Marker
  | .inst i => (f.inst i).callee?.bind m.kindOf?
  | _ => none

/-! ## Lowering to one lane -/

/-- The attached marker calls, in layout order. -/
def calls (m : Markers) (f : Func) : List (InstId × Marker) :=
  f.attached.filterMap fun i => (m.calledBy? f (.inst i)).map fun k => (i, k)

/-- What a call means for one lane: its first operand, as an integer for a ballot. -/
def lowerCall (f : Func) (call : InstId) (k : Marker) : Func :=
  let operand := (f.inst call).input 0
  let (replacement, f) :=
    match k with
    | .ballot => f.buildAt (.before call) (Build.cast .zext operand (.int 32))
    | _ => (operand, f)
  (f.replaceAllUses (.inst call) replacement).detach call

/-- Replaces all attached marker calls; the number of calls and the function without them. -/
def lower (m : Markers) (f : Func) : Nat × Func :=
  let calls := m.calls f
  (calls.length, calls.foldl (fun f (i, k) => lowerCall f i k) f)

end Markers

end Lockstep
