/-!
# Types

The types of the intermediate representation, and their text. Types are compared structurally;
`Ty.text` is the only written form of a type.
-/

namespace Lockstep

/-- The type of a value. -/
inductive Ty where
  /-- No value: the type of instructions such as stores. -/
  | void
  | bool
  /-- An integer of `width` bits. Signedness belongs to the operations. -/
  | int (width : Nat)
  /-- A binary floating-point number; the widths 32 and 64 are meaningful. -/
  | float (width : Nat)
  /-- A pointer to `pointee`, counted in memory cells. -/
  | ptr (pointee : Ty)
  | vector (len : Nat) (elem : Ty)
  | struct (fields : List Ty)
  deriving Repr, Inhabited

namespace Ty

/-! ## Equality -/

mutual

/-- Structural equality of types is decidable. -/
def decEq : (a b : Ty) → Decidable (a = b)
  | .void, .void => isTrue rfl
  | .bool, .bool => isTrue rfl
  | .int v, .int w =>
    if h : v = w then isTrue (by rw [h]) else isFalse (by intro e; cases e; exact h rfl)
  | .float v, .float w =>
    if h : v = w then isTrue (by rw [h]) else isFalse (by intro e; cases e; exact h rfl)
  | .ptr s, .ptr t =>
    match decEq s t with
    | isTrue h => isTrue (by rw [h])
    | isFalse h => isFalse (by intro e; cases e; exact h rfl)
  | .vector m s, .vector n t =>
    match decEq s t with
    | isTrue h =>
      if hn : m = n then isTrue (by rw [h, hn])
      else isFalse (by intro e; cases e; exact hn rfl)
    | isFalse h => isFalse (by intro e; cases e; exact h rfl)
  | .struct s, .struct t =>
    match decEqFields s t with
    | isTrue h => isTrue (by rw [h])
    | isFalse h => isFalse (by intro e; cases e; exact h rfl)
  | .void, .bool | .void, .int _ | .void, .float _ | .void, .ptr _ | .void, .vector _ _
  | .void, .struct _ | .bool, .void | .bool, .int _ | .bool, .float _ | .bool, .ptr _
  | .bool, .vector _ _ | .bool, .struct _ | .int _, .void | .int _, .bool | .int _, .float _
  | .int _, .ptr _ | .int _, .vector _ _ | .int _, .struct _ | .float _, .void | .float _, .bool
  | .float _, .int _ | .float _, .ptr _ | .float _, .vector _ _ | .float _, .struct _
  | .ptr _, .void | .ptr _, .bool | .ptr _, .int _ | .ptr _, .float _ | .ptr _, .vector _ _
  | .ptr _, .struct _ | .vector _ _, .void | .vector _ _, .bool | .vector _ _, .int _
  | .vector _ _, .float _ | .vector _ _, .ptr _ | .vector _ _, .struct _ | .struct _, .void
  | .struct _, .bool | .struct _, .int _ | .struct _, .float _ | .struct _, .ptr _
  | .struct _, .vector _ _ => isFalse (by intro e; cases e)

/-- Structural equality of field lists is decidable. -/
def decEqFields : (a b : List Ty) → Decidable (a = b)
  | [], [] => isTrue rfl
  | [], _ :: _ => isFalse (by intro e; cases e)
  | _ :: _, [] => isFalse (by intro e; cases e)
  | s :: ss, t :: ts =>
    match decEq s t, decEqFields ss ts with
    | isTrue h, isTrue hs => isTrue (by rw [h, hs])
    | isFalse h, _ => isFalse (by intro e; cases e; exact h rfl)
    | _, isFalse h => isFalse (by intro e; cases e; exact h rfl)

end

instance : DecidableEq Ty := decEq

/-! ## Text -/

mutual

/-- The written form of a type, such as `ptr<i32>` or `<4 x f32>`. -/
def text : Ty → String
  | .void => "void"
  | .bool => "bool"
  | .int width => "i" ++ toString width
  | .float width => "f" ++ toString width
  | .ptr pointee => "ptr<" ++ pointee.text ++ ">"
  | .vector len elem => "<" ++ toString len ++ " x " ++ elem.text ++ ">"
  | .struct fields => "\x7b" ++ textFields fields ++ "\x7d"

/-- Field types separated by commas. -/
def textFields : List Ty → String
  | [] => ""
  | [t] => t.text
  | t :: u :: ts => t.text ++ ", " ++ textFields (u :: ts)

end

/-! ## Structures -/

/-- Whether a type is a structure. -/
def isStruct : Ty → Bool
  | .struct _ => true
  | _ => false

/-- Whether a type is a nonempty structure whose fields all have one type, which again is
homogeneous if it is a structure. -/
def isHomogeneousStruct : Ty → Bool
  | .struct (first :: rest) =>
    rest.all (decide <| · = first) && (!first.isStruct || first.isHomogeneousStruct)
  | _ => false

/-- Whether a type is a structure, or wraps one through pointers and vectors. -/
def containsStruct : Ty → Bool
  | .struct _ => true
  | .ptr pointee => pointee.containsStruct
  | .vector _ elem => elem.containsStruct
  | _ => false

/-- The width of an integer type, zero for other types. -/
def bitWidth : Ty → Nat
  | .int width => width
  | _ => 0

/-- What a pointer type points to. -/
def pointee? : Ty → Option Ty
  | .ptr pointee => some pointee
  | _ => none

end Ty

end Lockstep
