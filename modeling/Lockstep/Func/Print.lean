import Lockstep.Func.Basic

/-!
# The text of a function

Blocks are written in layout order, one instruction a line. The text depends on the function
and on the names of callees, and on nothing else.
-/

namespace Lockstep

/-- Texts separated by commas. -/
def commaSeparated (ts : List String) : String := ", ".intercalate ts

def BlockId.text (b : BlockId) : String := "block" ++ toString b

namespace Opcode

/-- The operation with its arguments and its result type. -/
def text (callee : FuncId → String) (code : Opcode) (args : String) (ty : Ty) : String :=
  match code with
  | .binary op => op.name ++ " " ++ args
  | .cmp op => "cmp." ++ op.name ++ " " ++ args
  | .select => "select " ++ args
  | .cast op => op.name ++ " " ++ args ++ " to " ++ ty.text
  | .ptrOffset => "ptr.offset " ++ args
  | .load => "load " ++ ty.text ++ " " ++ args
  | .store => "store " ++ args
  | .call f => "call " ++ callee f ++ "(" ++ args ++ ")"
  | .extractElement => "extract.element " ++ args
  | .insertElement => "insert.element " ++ args
  | .shuffleVector => "shuffle.vector " ++ args
  | .extractValue index => "extract.value " ++ args ++ ", " ++ toString index
  | .insertValue index => "insert.value " ++ args ++ ", " ++ toString index

end Opcode

def valueList (vs : List Value) : String := commaSeparated (vs.map Value.text)

def Op.text (callee : FuncId → String) (ty : Ty) : Op → String
  | .phi incoming =>
    "phi " ++ ty.text ++ " " ++
      commaSeparated (incoming.map fun (b, v) => "[" ++ BlockId.text b ++ ": " ++ v.text ++ "]")
  | .apply code args => code.text callee (valueList args) ty

/-- An instruction; one without a value has no left-hand side. -/
def Instr.text (callee : FuncId → String) (i : InstId) (d : Instr) : String :=
  (if d.ty = .void then "" else (Value.inst i).text ++ " = ")
    ++ d.op.text callee d.ty
    ++ (match d.mask with
      | some mask => " if " ++ mask.text
      | none => "")

def Terminator.text : Terminator → String
  | .unreachable => "unreachable"
  | .ret none => "ret"
  | .ret (some v) => "ret " ++ v.text
  | .br target => "br " ++ BlockId.text target
  | .brIf cond onTrue onFalse =>
    "br_if " ++ cond.text ++ ", " ++ BlockId.text onTrue ++ ", " ++ BlockId.text onFalse

namespace Func

/-- The name of a function that is known by its index only. -/
def indexName (callee : FuncId) : String := "func" ++ toString callee

def labelText (f : Func) (b : BlockId) : String :=
  match (f.block b).name with
  | some name => BlockId.text b ++ ": // " ++ name
  | none => BlockId.text b ++ ":"

/-- The lines of a block: label, instructions, terminator. -/
def blockLines (f : Func) (callee : FuncId → String) (b : BlockId) : List String :=
  ("  " ++ f.labelText b)
    :: (f.body b).map (fun i => "    " ++ (f.inst i).text callee i)
    ++ ["    " ++ (f.term b).text]

def headerText (f : Func) : String :=
  let params := f.params.zipIdx.map fun (ty, k) => ty.text ++ " " ++ (Value.param k).text
  "func(" ++ commaSeparated params ++ ") -> " ++ f.retTy.text ++ " \x7b"

/-- The text of a function, with a name for every callee. -/
def text (f : Func) (callee : FuncId → String) : String :=
  "\n".intercalate (f.headerText :: f.layout.flatMap (f.blockLines callee) ++ ["\x7d"])

end Func

end Lockstep
