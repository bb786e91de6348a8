import Lockstep.Func.Print
import Lockstep.Interner

/-!
# Interning contexts

A context numbers names, types and constants in the order of their first meeting. A type is made of
numbers of other types, and a constant has the number of its type: whether two types are equal is seen
from their numbers, without a look at their parts. `Context.ty` and `Context.const` read back what a
number stands for.
-/

namespace Lockstep

/-- The number of a type in a context. -/
abbrev TyId := Nat

/-- The number of a constant in a context. -/
abbrev ConstId := Nat

/-- What a type is made of. -/
inductive TyDef where
  | void
  | bool
  | int (width : Nat)
  | float (width : Nat)
  | ptr (pointee : TyId)
  | vector (len : Nat) (elem : TyId)
  | struct (fields : List TyId)
  deriving DecidableEq, Repr, Inhabited

namespace TyDef

def parts : TyDef → List TyId
  | .void | .bool | .int _ | .float _ => []
  | .ptr pointee => [pointee]
  | .vector _ elem => [elem]
  | .struct fields => fields

/-- The type, given its parts. -/
def build (part : TyId → Ty) : TyDef → Ty
  | .void => .void
  | .bool => .bool
  | .int width => .int width
  | .float width => .float width
  | .ptr pointee => .ptr (part pointee)
  | .vector len elem => .vector len (part elem)
  | .struct fields => .struct (fields.map part)

/-- The written form of the type, given those of its parts. -/
def text (part : TyId → String) : TyDef → String
  | .void => "void"
  | .bool => "bool"
  | .int width => "i" ++ toString width
  | .float width => "f" ++ toString width
  | .ptr pointee => "ptr<" ++ part pointee ++ ">"
  | .vector len elem => "<" ++ toString len ++ " x " ++ part elem ++ ">"
  | .struct fields => "\x7b" ++ commaSeparated (fields.map part) ++ "\x7d"

end TyDef

/-- A constant of a type that is given by its number. -/
structure ConstDef where
  ty : TyId
  val : Scalar
  deriving DecidableEq, Repr, Inhabited

/-- The names, types and constants met so far. -/
structure Context where
  names : Interner String := .empty
  types : Interner TyDef := .empty
  consts : Interner ConstDef := .empty
  deriving Inhabited, Repr

namespace Context

/-! ## Reading -/

def HasTy (c : Context) (t : TyId) : Prop := t < c.types.values.length

instance (c : Context) (t : TyId) : Decidable (c.HasTy t) :=
  inferInstanceAs (Decidable (t < c.types.values.length))

def HasConst (c : Context) (k : ConstId) : Prop := k < c.consts.values.length

/-- What `step` makes of a type from what it makes of the parts, no more than `fuel` levels deep. -/
def fold {α : Type} (c : Context) (step : (TyId → α) → TyDef → α) (missing : α) :
    (fuel : Nat) → TyId → α
  | 0, _ => missing
  | fuel + 1, t =>
    match c.types.get? t with
    | some d => step (c.fold step missing fuel) d
    | none => missing

/-- The type with a number. The parts of a type have smaller numbers. -/
def ty (c : Context) (t : TyId) : Ty := c.fold TyDef.build .void (t + 1) t

/-- The written form of the type with a number. -/
def tyText (c : Context) (t : TyId) : String := c.fold TyDef.text "" (t + 1) t

/-- The constant with a number. -/
def const (c : Context) (k : ConstId) : Const :=
  match c.consts.get? k with
  | some d => ⟨c.ty d.ty, d.val⟩
  | none => default

/-- The written form of the constant with a number. -/
def constText (c : Context) (k : ConstId) : String := (c.const k).text

/-! ## Interning -/

def internName (c : Context) (s : String) : Nat × Context :=
  let (n, names) := c.names.intern s
  (n, { c with names })

def internTy (c : Context) (d : TyDef) : TyId × Context :=
  let (t, types) := c.types.intern d
  (t, { c with types })

def internConst (c : Context) (d : ConstDef) : ConstId × Context :=
  let (k, consts) := c.consts.intern d
  (k, { c with consts })

def constBool (c : Context) (b : Bool) : ConstId × Context :=
  let (t, c) := c.internTy .bool
  c.internConst ⟨t, (Const.ofBool b).val⟩

/-- A constant of a type with a number, which `make` makes of the type. -/
def constOf (c : Context) (make : Ty → Const) (t : TyId) : ConstId × Context :=
  c.internConst ⟨t, (make (c.ty t)).val⟩

mutual

/-- Interns a type after its parts. -/
def number (c : Context) : Ty → TyId × Context
  | .void => c.internTy .void
  | .bool => c.internTy .bool
  | .int width => c.internTy (.int width)
  | .float width => c.internTy (.float width)
  | .ptr pointee =>
    let (p, c) := c.number pointee
    c.internTy (.ptr p)
  | .vector len elem =>
    let (e, c) := c.number elem
    c.internTy (.vector len e)
  | .struct fields =>
    let (fs, c) := c.numberAll fields
    c.internTy (.struct fs)

/-- Interns several types in order. -/
def numberAll (c : Context) : List Ty → List TyId × Context
  | [] => ([], c)
  | t :: ts =>
    let (n, c) := c.number t
    let (ns, c) := c.numberAll ts
    (n :: ns, c)

end

/-- Interns constants in order, each after its type. -/
def numberConsts (c : Context) : List Const → List ConstId × Context
  | [] => ([], c)
  | k :: ks =>
    let (t, c) := c.number k.ty
    let (n, c) := c.internConst ⟨t, k.val⟩
    let (ns, c) := c.numberConsts ks
    (n :: ns, c)

/-! ## Requests -/

/-- What a context can be asked to number. -/
inductive Request where
  | name (s : String)
  | ty (d : TyDef)
  /-- A constant, as it stands. -/
  | const (d : ConstDef)
  | bool (b : Bool)
  /-- An integer, wrapped at the width of its type. -/
  | int (t : TyId) (x : Int64)
  /-- A floating-point number, rounded if its type is single precision. -/
  | float (t : TyId) (x : Binary64)
  | undefined (t : TyId)

namespace Request

/-- The types that a request mentions. -/
def types : Request → List TyId
  | .name _ | .bool _ => []
  | .ty d => d.parts
  | .const d => [d.ty]
  | .int t _ | .float t _ | .undefined t => [t]

end Request

/-- The number that a request gets. -/
def answer (c : Context) : Request → Nat × Context
  | .name s => c.internName s
  | .ty d => c.internTy d
  | .const d => c.internConst d
  | .bool b => c.constBool b
  | .int t x => c.constOf (Const.ofInt · x) t
  | .float t x => c.constOf (Const.ofFloat · x) t
  | .undefined t => c.constOf Const.undefined t

/-- Answers a request that mentions types of the context only. -/
def perform (c : Context) (r : Request) : Option (Nat × Context) :=
  if ∀ t ∈ r.types, c.HasTy t then some (c.answer r) else none

/-- Answers requests in order. -/
def performAll (c : Context) : List Request → Option (List Nat × Context)
  | [] => some ([], c)
  | r :: rs => do
    let (n, c) ← c.perform r
    let (ns, c) ← c.performAll rs
    return (n :: ns, c)

end Context

end Lockstep
