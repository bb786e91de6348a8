import Lockstep.Func.Print

/-!
# Modules

A module is a list of functions, which refer to each other by position. A function without a
body is defined elsewhere.
-/

namespace Lockstep

/-- A declared function, with its body if it is defined here. -/
structure FuncDecl where
  name : String
  retTy : Ty
  params : List Ty
  body : Option Func := none
  deriving Repr, Inhabited

/-- The functions of a program. -/
structure Module where
  funcs : Array FuncDecl := #[]
  deriving Repr, Inhabited

namespace Module

def ids (m : Module) : List FuncId := List.range m.funcs.size

def get (m : Module) (f : FuncId) : FuncDecl := m.funcs[f]?.getD default

def name (m : Module) (f : FuncId) : String := (m.get f).name

def body? (m : Module) (f : FuncId) : Option Func := (m.get f).body

/-- The first function with a name. -/
def byName? (m : Module) (name : String) : Option FuncId := m.ids.find? (m.name · == name)

/-- Adds a function at the end. -/
def define (m : Module) (d : FuncDecl) : FuncId × Module :=
  (m.funcs.size, { funcs := m.funcs.push d })

/-- A new function comes after all others, and leaves them as they are. -/
theorem get_define (m : Module) (d : FuncDecl) (f : FuncId) :
    (m.define d).2.get f = if f = m.funcs.size then d else m.get f := by
  unfold define get
  rw [Array.getElem?_push]
  split <;> rfl

/-- The text of a function whose callees belong to the module. -/
def text (m : Module) (f : Func) : String := f.text m.name

end Module

end Lockstep
