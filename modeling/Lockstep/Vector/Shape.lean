/-!
# Shapes

How a value varies across the lanes: not known yet, the same in every lane, growing by a stride,
or without any relation. Shapes are ordered from `unknown` up to `varying`, and `Shape.join` gives
the most precise shape above two. An alignment says what divides the value of the first lane.
-/

namespace Lockstep

/-- How a value varies across lanes. -/
inductive Shape where
  | unknown
  | uniform (align : Nat)
  /-- The value of lane `l` is that of lane zero plus `l * stride`. -/
  | strided (stride : Int64) (align : Nat)
  | varying (align : Nat)
  deriving DecidableEq, Repr

namespace Shape

instance : Inhabited Shape := ⟨unknown⟩

/-- The same value in every lane. -/
def uni : Shape := uniform 1

/-- No known relation between lanes. -/
def vary : Shape := varying 1

/-- A stride of zero is a uniform value. -/
def ofStride (stride : Int64) : Shape := if stride = 0 then uni else strided stride 1

/-- Neighbouring lanes hold neighbouring values. -/
def contiguous : Shape := ofStride 1

/-- Replaces the alignment; zero counts as one, and an unknown shape has none. -/
def withAlignment (s : Shape) (align : Nat) : Shape :=
  match s with
  | unknown => unknown
  | uniform _ => uniform (max align 1)
  | strided stride _ => strided stride (max align 1)
  | varying _ => varying (max align 1)

def alignment : Shape → Nat
  | unknown => 1
  | uniform align | strided _ align | varying align => align

def isDefined (s : Shape) : Bool := s != unknown

def isUniform : Shape → Bool
  | uniform _ => true
  | _ => false

def isVarying : Shape → Bool
  | varying _ => true
  | _ => false

/-- The difference between neighbouring lanes, if it is known. -/
def stride? : Shape → Option Int64
  | uniform _ => some 0
  | strided stride _ => some stride
  | unknown | varying _ => none

/-- The alignment that two alignments have in common. -/
def commonAlignment (a b : Nat) : Nat := max (Nat.gcd a b) 1

/-- The most precise shape of a value that has one of two shapes. -/
def join : Shape → Shape → Shape
  | unknown, t => t
  | s, unknown => s
  | uniform a, uniform b => uniform (commonAlignment a b)
  | strided p a, strided q b =>
    if p = q then strided p (commonAlignment a b) else varying (commonAlignment a b)
  | s, t => varying (commonAlignment s.alignment t.alignment)

theorem commonAlignment_comm (a b : Nat) : commonAlignment a b = commonAlignment b a := by
  rw [commonAlignment, commonAlignment, Nat.gcd_comm]

theorem commonAlignment_self {a : Nat} (h : 1 ≤ a) : commonAlignment a a = a := by
  rw [commonAlignment, Nat.gcd_self]
  omega

theorem one_le_commonAlignment (a b : Nat) : 1 ≤ commonAlignment a b := Nat.le_max_right _ _

@[simp] theorem unknown_join (s : Shape) : unknown.join s = s := rfl

@[simp] theorem join_unknown (s : Shape) : s.join unknown = s := by cases s <;> rfl

theorem join_comm (s t : Shape) : s.join t = t.join s := by
  cases s <;> cases t <;> simp only [join, alignment, commonAlignment_comm]
  case strided.strided p a q b =>
    by_cases h : p = q
    · rw [if_pos h, if_pos h.symm, h]
    · rw [if_neg h, if_neg fun e => h e.symm]

theorem join_self {s : Shape} (h : 1 ≤ s.alignment) : s.join s = s := by
  cases s with
  | unknown => rfl
  | uniform a => exact congrArg uniform (commonAlignment_self h)
  | strided p a =>
    show (if p = p then strided p (commonAlignment a a) else _) = strided p a
    rw [if_pos rfl]
    exact congrArg (strided p) (commonAlignment_self h)
  | varying a => exact congrArg varying (commonAlignment_self h)

theorem one_le_alignment_withAlignment (s : Shape) (align : Nat) :
    1 ≤ (s.withAlignment align).alignment := by
  cases s with
  | unknown => exact Nat.le_refl 1
  | _ => exact Nat.le_max_right _ _

/-- A letter, the stride, and the alignment unless it is one. -/
def text (s : Shape) : String :=
  let align := if s.alignment = 1 then "" else "a" ++ toString s.alignment
  match s with
  | unknown => "undef"
  | uniform _ => "U" ++ align
  | strided stride _ => "S" ++ toString stride.toInt ++ align
  | varying _ => "V" ++ align

end Shape

end Lockstep
