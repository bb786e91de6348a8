import Lockstep.Eval.Arith
import Lockstep.Vector.Marker

/-!
# Running a function in lock-step

All lanes follow one path through the function: a branch goes where the lanes in which its
condition is defined agree to go. An instruction computes one scalar per lane. A masked load,
store or call acts in the lanes in which its mask is true, in lane order; a call of a marker
looks at all lanes; a call with a uniform result is made once, for the first active lane.
-/

namespace Lockstep

/-! ## Errors -/

/-- Why a run stops without a result. -/
inductive EvalError where
  | argCount (expected found : Nat)
  | width (lanes : Nat)
  | divergentBranch (b : BlockId)
  | undefBranch (b : BlockId)
  | unreachable (b : BlockId)
  | missingIncoming (phi : InstId) (pred : Option BlockId)
  | unsupported (i : InstId) (reason : Unsupported)
  | outOfBounds (address : Int64)
  | unknownCallee (f : FuncId)
  | stepLimit
  deriving DecidableEq, Repr

namespace EvalError

def predText : Option BlockId → String
  | none => "None"
  | some b => "Some(Block(" ++ toString b ++ "))"

def message : EvalError → String
  | argCount expected found =>
    "expected " ++ toString expected ++ " arguments, got " ++ toString found
  | width lanes =>
    toString lanes ++ " lanes requested or passed (expected 1..=" ++ toString Lanes.maxCount
      ++ ", matching the evaluator)"
  | divergentBranch b => "lanes disagree on the branch at the end of " ++ BlockId.text b
  | undefBranch b =>
    "branch condition at the end of " ++ BlockId.text b ++ " is undefined in every lane"
  | unreachable b => "reached `unreachable` in " ++ BlockId.text b
  | missingIncoming phi pred =>
    "phi " ++ (Value.inst phi).text ++ " has no incoming value for " ++ predText pred
  | unsupported i reason => "cannot evaluate " ++ (Value.inst i).text ++ ": " ++ reason.message
  | outOfBounds address =>
    "memory access out of bounds (address " ++ toString address.toInt ++ ")"
  | unknownCallee f => "call to " ++ Func.indexName f ++ ", with no host function to run it"
  | stepLimit => "step limit exceeded"

end EvalError

/-! ## The machine -/

/-- A call of a function outside, made for one lane. -/
structure HostCall where
  callee : FuncId
  args : List Scalar
  deriving DecidableEq, Repr, Inhabited

/-- What functions outside return, which may depend on the calls made before, newest first. -/
abbrev Host := List HostCall → HostCall → Scalar

/-- What a run is given besides function and arguments. -/
structure Setup where
  width : Nat
  /-- The number of blocks that may be executed. -/
  limit : Nat
  /-- Which functions are markers. -/
  marker? : FuncId → Option Marker := fun _ => none
  /-- Which calls are known to have the same result in every lane. -/
  isUniform : InstId → Bool := fun _ => false
  host : Option Host := none

/-- The state of a run. -/
structure Machine where
  params : List Lanes := []
  /-- The last lanes of every instruction, undefined before it runs. -/
  values : Array Lanes := #[]
  memory : Array Scalar
  /-- The blocks executed, newest first. -/
  path : List BlockId := []
  /-- The calls made, newest first. -/
  callLog : List HostCall := []
  deriving Repr, Inhabited

namespace Machine

def trace (m : Machine) : List BlockId := m.path.reverse

def calls (m : Machine) : List HostCall := m.callLog.reverse

/-- How often a block was executed. -/
def visits (m : Machine) (b : BlockId) : Nat := m.path.count b

/-- The lanes that a value has now. -/
def value (m : Machine) (width : Nat) : Value → Lanes
  | .const c => .splat width c.val
  | .param k => m.params[k]?.getD (.splat width .undefined)
  | .inst i => m.values[i]?.getD (.splat width .undefined)

def setValue (m : Machine) (i : InstId) (xs : Lanes) : Machine :=
  { m with values := m.values.setIfInBounds i xs }

end Machine

/-- A part of a run, which changes the machine and may fail. -/
abbrev Run := ExceptT EvalError (StateM Machine)

namespace Run

/-! ## Memory -/

/-- The index of a memory cell. -/
def cellIndex (address : Int64) : Run Nat := do
  let m ← get
  if 0 ≤ address.toInt ∧ address.toInt.toNat < m.memory.size then return address.toInt.toNat
  else throw (.outOfBounds address)

def readCell (address : Int64) : Run Scalar := do
  let k ← cellIndex address
  return (← get).memory[k]?.getD .undefined

def writeCell (address : Int64) (x : Scalar) : Run Unit := do
  let k ← cellIndex address
  modify fun m => { m with memory := m.memory.setIfInBounds k x }

/-! ## Instructions -/

/-- Computes the lanes of an instruction one by one. -/
def lanewise (width : Nat) (i : InstId) (f : Nat → Except Unsupported Scalar) : Run Lanes :=
  match (List.range width).mapM f with
  | .ok xs => return xs
  | .error reason => throw (.unsupported i reason)

/-- Loads in the active lanes that hold an address; the others get an undefined value. -/
def load (width : Nat) (active : Nat → Bool) (addresses : Lanes) : Run Lanes :=
  (List.range width).mapM fun l =>
    match addresses.lane l with
    | .int address => if active l then readCell address else return .undefined
    | _ => return .undefined

/-- Stores from the active lanes that hold an address, in lane order. -/
def store (width : Nat) (active : Nat → Bool) (addresses xs : Lanes) : Run Unit :=
  (List.range width).forM fun l =>
    match addresses.lane l with
    | .int address => if active l then writeCell address (xs.lane l) else return ()
    | _ => return ()

/-- Makes one call outside. -/
def callHost (host : Host) (call : HostCall) : Run Scalar := do
  let m ← get
  set { m with callLog := call :: m.callLog }
  return host m.callLog call

/-- Makes a call once for every active lane. -/
def callLanes (host : Host) (width : Nat) (active : Nat → Bool) (call : Nat → HostCall) :
    Run Lanes :=
  (List.range width).mapM fun l =>
    if active l then callHost host (call l) else return .undefined

/-- Makes a call for the first active lane, and gives its result to every lane. -/
def callOnce (host : Host) (width : Nat) (active : Nat → Bool) (call : Nat → HostCall) :
    Run Lanes :=
  match (List.range width).find? active with
  | some l => do return .splat width (← callHost host (call l))
  | none => return .splat width .undefined

/-- Runs an operation of an instruction on its inputs. -/
def operation (s : Setup) (i : InstId) (code : Opcode) (inputs : List Lanes) (source ty : Ty)
    (active : Nat → Bool) : Run Lanes := do
  let width := s.width
  let input (k : Nat) (l : Nat) := (inputs[k]?.getD []).lane l
  match code with
  | .binary op => lanewise width i fun l => op.eval (input 0 l) (input 1 l) ty
  | .cmp op => lanewise width i fun l => op.eval (input 0 l) (input 1 l) source
  | .select => return (List.range width).map fun l => (input 0 l).choose (input 1 l) (input 2 l)
  | .cast op => lanewise width i fun l => op.eval (input 0 l) source ty
  | .ptrOffset => return (List.range width).map fun l => (input 0 l).addOffset (input 1 l)
  | .load => load width active (inputs[0]?.getD [])
  | .store =>
    store width active (inputs[0]?.getD []) (inputs[1]?.getD [])
    return .splat width .undefined
  | .call callee =>
    match s.marker? callee with
    | some k => return k.eval width inputs
    | none =>
      match s.host with
      | none => throw (.unknownCallee callee)
      | some host =>
        let call (l : Nat) : HostCall := { callee, args := inputs.map (·.lane l) }
        if s.isUniform i then callOnce host width active call
        else callLanes host width active call
  | .extractElement | .insertElement | .shuffleVector | .extractValue _ | .insertValue _ =>
    throw (.unsupported i .aggregate)

/-- Runs an instruction after the phis of its block. -/
def instr (s : Setup) (f : Func) (i : InstId) : Run Unit := do
  let m ← get
  let d := f.inst i
  let mask := d.mask.map (m.value s.width)
  let active (l : Nat) := mask.all fun xs => (xs.lane l).isTrue
  match d.op with
  | .phi _ => throw (.unsupported i .latePhi)
  | .apply code args =>
    let xs ← operation s i code (args.map (m.value s.width)) (f.typeOf (d.input 0)) d.ty active
    modify fun m => m.setValue i xs

/-- Runs the phis of a block: all are read before any of them changes. -/
def phis (s : Setup) (f : Func) (pred : Option BlockId) (b : BlockId) : Run Unit := do
  let m ← get
  let new ← (f.phis b).mapM fun phi =>
    match pred.bind (f.incomingValue? phi) with
    | some v => return (phi, m.value s.width v)
    | none => throw (.missingIncoming phi pred)
  modify fun m => new.foldl (fun m (phi, xs) => m.setValue phi xs) m

/-! ## Control flow -/

/-- The way that the lanes with a defined condition agree on: none if they disagree, and
`some none` if there is no such lane. -/
def agree : Lanes → Option (Option Bool)
  | [] => some none
  | .bool b :: xs =>
    match agree xs with
    | some none => some (some b)
    | some (some c) => if b = c then some (some b) else none
    | none => none
  | _ :: xs => agree xs

/-- Where control goes from a block: to another, or out of the function with a value. -/
def leave (s : Setup) (f : Func) (b : BlockId) : Run (BlockId ⊕ Option Lanes) := do
  let m ← get
  match f.term b with
  | .unreachable => throw (.unreachable b)
  | .ret v => return .inr (v.map (m.value s.width))
  | .br target => return .inl target
  | .brIf cond onTrue onFalse =>
    match agree (m.value s.width cond) with
    | none => throw (.divergentBranch b)
    | some none => throw (.undefBranch b)
    | some (some taken) => return .inl (if taken then onTrue else onFalse)

/-- Runs a block that control enters from `pred`. -/
def block (s : Setup) (f : Func) (pred : Option BlockId) (b : BlockId) :
    Run (BlockId ⊕ Option Lanes) := do
  modify fun m => { m with path := b :: m.path }
  phis s f pred b
  (f.nonPhis b).forM (instr s f)
  leave s f b

/-- Runs blocks until control leaves the function or the steps are used up. -/
def blocks (s : Setup) (f : Func) :
    (steps : Nat) → (pred : Option BlockId) → BlockId → Run (Option Lanes)
  | 0, _, _ => throw .stepLimit
  | steps + 1, pred, b => do
    match ← block s f pred b with
    | .inl next => blocks s f steps (some b) next
    | .inr ret => return ret

/-- The lanes of an argument; a single lane stands for all. -/
def argument (width : Nat) (xs : Lanes) : Except EvalError Lanes :=
  match xs with
  | [x] => .ok (.splat width x)
  | _ => if xs.length = width then .ok xs else .error (.width xs.length)

/-- The arguments of a run, if there can be one. -/
def arguments (s : Setup) (f : Func) (args : List Lanes) : Except EvalError (List Lanes) :=
  if s.width < 1 ∨ Lanes.maxCount < s.width then .error (.width s.width)
  else if args.length ≠ f.params.length then .error (.argCount f.params.length args.length)
  else args.mapM (argument s.width)

end Run

/-- Runs a function from its entry: the result, and the machine at the end. -/
def Func.run (f : Func) (s : Setup) (args : List Lanes) (memory : Array Scalar) :
    Except EvalError (Option Lanes) × Machine :=
  match Run.arguments s f args with
  | .error e => (.error e, { memory })
  | .ok params =>
    let values := Array.replicate f.insts.size (Lanes.splat s.width .undefined)
    Run.blocks s f s.limit none f.entry { params, values, memory }

end Lockstep
