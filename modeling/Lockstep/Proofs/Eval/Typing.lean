import Lockstep.Eval.Arith
import Lockstep.Func.Basic

/-!
# Types at run time

A scalar has a type if it is undefined or a value of the type; an integer has to be sign-extended
from the width of its type. Types of floating-point numbers and aggregates are not looked into.

A result of an operation on operands of the right types has the type of the instruction
(`BinOp.hasTy_eval` and the lemmas like it), and over truth values, integers and addresses there is
a result (`BinOp.exists_eval` and the lemmas like it).
-/

namespace Lockstep

/-! ## Scalars -/

/-- A scalar that a value of a type may be. -/
def Scalar.HasTy (x : Scalar) : Ty → Prop
  | .bool => x = .undefined ∨ ∃ b, x = .bool b
  | .int w => x = .undefined ∨ ∃ n, x = .int n ∧ Word.Normal w n
  | .ptr _ => x = .undefined ∨ ∃ n, x = .int n
  | _ => True

/-- The types of truth values, integers and addresses. -/
def Ty.IsPlain : Ty → Prop
  | .bool | .int _ | .ptr _ => True
  | _ => False

/-- The types of integers and addresses. -/
def Ty.IsWord : Ty → Prop
  | .int _ | .ptr _ => True
  | _ => False

instance : (t : Ty) → Decidable t.IsPlain
  | .bool | .int _ | .ptr _ => .isTrue trivial
  | .void | .float _ | .vector _ _ | .struct _ => .isFalse id

instance : (t : Ty) → Decidable t.IsWord
  | .int _ | .ptr _ => .isTrue trivial
  | .bool | .void | .float _ | .vector _ _ | .struct _ => .isFalse id

theorem Ty.IsWord.isPlain {t : Ty} (h : t.IsWord) : t.IsPlain := by
  cases t <;> first | exact h | exact trivial

theorem Ty.IsPlain.cases {t : Ty} (h : t.IsPlain) : t = .bool ∨ t.IsWord := by
  cases t with
  | bool => exact .inl rfl
  | _ => exact .inr h

namespace Scalar

variable {x : Scalar} {ty : Ty}

@[simp] theorem hasTy_undefined (ty : Ty) : undefined.HasTy ty := by
  cases ty <;> first | exact .inl rfl | exact trivial

/-- Nothing is asked of floating-point numbers and aggregates. -/
theorem hasTy_of_not_isPlain (h : ¬ ty.IsPlain) (x : Scalar) : x.HasTy ty := by
  cases ty <;> first | exact trivial | exact absurd trivial h

theorem hasTy_bool (b : Bool) : (Scalar.bool b).HasTy .bool := .inr ⟨b, rfl⟩

/-- A wrapped integer has the type at whose width it is wrapped. -/
theorem hasTy_wrap (h : ty.IsWord) (z : Int) : (Scalar.int (Word.wrap ty.intWidth z)).HasTy ty := by
  cases ty with
  | int w => exact .inr ⟨_, rfl, Word.normal_wrap w z⟩
  | ptr t => exact .inr ⟨_, rfl⟩
  | _ => exact h.elim

theorem HasTy.of_isWord (h : x.HasTy ty) (ht : ty.IsWord) : x = .undefined ∨ ∃ n, x = .int n := by
  cases ty with
  | int w =>
    rcases h with h | ⟨n, h, -⟩
    · exact .inl h
    · exact .inr ⟨n, h⟩
  | ptr t => exact h
  | _ => exact ht.elim

end Scalar

/-! ## Operations -/

namespace BinOp

/-- The types on which a binary operator works. -/
def On (op : BinOp) (ty : Ty) : Prop :=
  match ty with
  | .bool => (op.onBools true true).isSome
  | .int _ | .ptr _ => (op.onInts 64 0 0).isSome
  | _ => False

instance (op : BinOp) : (ty : Ty) → Decidable (op.On ty)
  | .bool => inferInstanceAs (Decidable (_ = true))
  | .int _ | .ptr _ => inferInstanceAs (Decidable (_ = true))
  | .void | .float _ | .vector _ _ | .struct _ => .isFalse id

theorem On.isPlain {op : BinOp} {ty : Ty} (h : op.On ty) : ty.IsPlain := by
  cases ty <;> first | exact trivial | exact h

theorem isSome_onBools {op : BinOp} (h : (op.onBools true true).isSome) (x y : Bool) :
    ∃ z, op.onBools x y = some z := by
  cases op <;> first | exact ⟨_, rfl⟩ | cases h

theorem isSome_onInts {op : BinOp} (h : (op.onInts 64 0 0).isSome) (w : Nat) (x y : Int64) :
    ∃ z, op.onInts w x y = some z := by
  cases op <;> first | exact ⟨_, rfl⟩ | cases h

theorem eval_bools {op : BinOp} {x y z : Bool} (h : op.onBools x y = some z) (ty : Ty) :
    op.eval (.bool x) (.bool y) ty = .ok (.bool z) := by
  simp only [eval, h]

theorem eval_ints {op : BinOp} {ty : Ty} {x y : Int64} {z : Int}
    (h : op.onInts ty.intWidth x y = some z) :
    op.eval (.int x) (.int y) ty = .ok (.int (Word.wrap ty.intWidth z)) := by
  simp only [eval, h]

variable {op : BinOp} {a b v : Scalar} {ty : Ty}

/-- A result has the type of the operands. -/
theorem hasTy_eval (ha : a.HasTy ty) (hb : b.HasTy ty) (h : op.eval a b ty = .ok v) :
    v.HasTy ty := by
  by_cases hp : ty.IsPlain
  · unfold eval at h
    rcases hp.cases with rfl | hw
    · rcases ha with rfl | ⟨x, rfl⟩ <;> rcases hb with rfl | ⟨y, rfl⟩ <;> dsimp only at h
      · cases h
        exact Scalar.hasTy_undefined _
      · cases h
        split <;> simp [Scalar.HasTy]
      · cases h
        split <;> simp [Scalar.HasTy]
      · split at h
        · cases h
          exact Scalar.hasTy_bool _
        · cases h
    · rcases ha.of_isWord hw with rfl | ⟨x, rfl⟩ <;> rcases hb.of_isWord hw with rfl | ⟨y, rfl⟩ <;>
        dsimp only at h
      · cases h
        exact Scalar.hasTy_undefined _
      · cases h
        exact Scalar.hasTy_undefined _
      · cases h
        exact Scalar.hasTy_undefined _
      · split at h
        · cases h
          exact Scalar.hasTy_wrap hw _
        · cases h
  · exact Scalar.hasTy_of_not_isPlain hp v

/-- An operator has a result of the type of its operands. -/
theorem exists_eval (h : op.On ty) (ha : a.HasTy ty) (hb : b.HasTy ty) :
    ∃ v, op.eval a b ty = .ok v ∧ v.HasTy ty := by
  obtain ⟨v, hv⟩ : ∃ v, op.eval a b ty = .ok v := by
    rcases h.isPlain.cases with rfl | hw
    · rcases ha with rfl | ⟨x, rfl⟩ <;> rcases hb with rfl | ⟨y, rfl⟩
      · exact ⟨_, rfl⟩
      · exact ⟨_, rfl⟩
      · exact ⟨_, rfl⟩
      · obtain ⟨z, hz⟩ := isSome_onBools h x y
        exact ⟨.bool z, eval_bools hz _⟩
    · have hop : (op.onInts 64 0 0).isSome := by
        cases ty <;> first | exact h | exact hw.elim
      rcases ha.of_isWord hw with rfl | ⟨x, rfl⟩ <;> rcases hb.of_isWord hw with rfl | ⟨y, rfl⟩
      · exact ⟨_, rfl⟩
      · exact ⟨_, rfl⟩
      · exact ⟨_, rfl⟩
      · obtain ⟨z, hz⟩ := isSome_onInts hop ty.intWidth x y
        exact ⟨_, eval_ints hz⟩
  exact ⟨v, hv, hasTy_eval ha hb hv⟩

end BinOp

namespace CmpOp

/-- The types of the operands that a comparison works on. -/
def On (op : CmpOp) (ty : Ty) : Prop :=
  match ty with
  | .bool => (op.onBools true true).isSome
  | .int _ | .ptr _ => (op.onInts 64 0 0).isSome
  | _ => False

instance (op : CmpOp) : (ty : Ty) → Decidable (op.On ty)
  | .bool => inferInstanceAs (Decidable (_ = true))
  | .int _ | .ptr _ => inferInstanceAs (Decidable (_ = true))
  | .void | .float _ | .vector _ _ | .struct _ => .isFalse id

theorem On.isPlain {op : CmpOp} {ty : Ty} (h : op.On ty) : ty.IsPlain := by
  cases ty <;> first | exact trivial | exact h

theorem isSome_onBools {op : CmpOp} (h : (op.onBools true true).isSome) (x y : Bool) :
    ∃ z, op.onBools x y = some z := by
  cases op <;> first | exact ⟨_, rfl⟩ | cases h

theorem isSome_onInts {op : CmpOp} (h : (op.onInts 64 0 0).isSome) (w : Nat) (x y : Int64) :
    ∃ z, op.onInts w x y = some z := by
  cases op <;> first | exact ⟨_, rfl⟩ | cases h

theorem eval_bools {op : CmpOp} {x y z : Bool} (h : op.onBools x y = some z) (ty : Ty) :
    op.eval (.bool x) (.bool y) ty = .ok (.bool z) := by
  simp only [eval, h]

theorem eval_ints {op : CmpOp} {ty : Ty} {x y : Int64} {z : Bool}
    (h : op.onInts ty.intWidth x y = some z) :
    op.eval (.int x) (.int y) ty = .ok (.bool z) := by
  simp only [eval, h]

variable {op : CmpOp} {a b v : Scalar} {ty : Ty}

/-- A comparison says true or false, or nothing. -/
theorem hasTy_eval (h : op.eval a b ty = .ok v) : v.HasTy .bool := by
  unfold eval at h
  split at h
  · cases h
    exact Scalar.hasTy_undefined _
  · cases h
    exact Scalar.hasTy_undefined _
  all_goals first
    | cases h
    | split at h
      · cases h
        exact Scalar.hasTy_bool _
      · cases h

theorem exists_eval (h : op.On ty) (ha : a.HasTy ty) (hb : b.HasTy ty) :
    ∃ v, op.eval a b ty = .ok v ∧ v.HasTy .bool := by
  obtain ⟨v, hv⟩ : ∃ v, op.eval a b ty = .ok v := by
    rcases h.isPlain.cases with rfl | hw
    · rcases ha with rfl | ⟨x, rfl⟩ <;> rcases hb with rfl | ⟨y, rfl⟩
      · exact ⟨_, rfl⟩
      · exact ⟨_, rfl⟩
      · exact ⟨_, rfl⟩
      · obtain ⟨z, hz⟩ := isSome_onBools h x y
        exact ⟨.bool z, eval_bools hz _⟩
    · have hop : (op.onInts 64 0 0).isSome := by
        cases ty <;> first | exact h | exact hw.elim
      rcases ha.of_isWord hw with rfl | ⟨x, rfl⟩ <;> rcases hb.of_isWord hw with rfl | ⟨y, rfl⟩
      · exact ⟨_, rfl⟩
      · exact ⟨_, rfl⟩
      · exact ⟨_, rfl⟩
      · obtain ⟨z, hz⟩ := isSome_onInts hop ty.intWidth x y
        exact ⟨.bool z, eval_ints hz⟩
  exact ⟨v, hv, hasTy_eval hv⟩

end CmpOp

namespace CastOp

/-- The types between which a conversion works, truth values, integers and addresses. -/
def Between (op : CastOp) (source target : Ty) : Prop :=
  source.IsPlain ∧ target.IsPlain ∧
    match op with
    | zext | sext | bitcast => True
    | trunc => source ≠ .bool
    | sitofp | fptosi => False

instance (op : CastOp) (source target : Ty) : Decidable (op.Between source target) := by
  unfold Between
  cases op <;> infer_instance

theorem hasTy_ofInt {ty : Ty} (h : ty.IsPlain) (z : Int) : (ofInt ty z).HasTy ty := by
  rcases h.cases with rfl | hw
  · exact Scalar.hasTy_bool _
  · have e : ofInt ty z = .int (Word.wrap ty.intWidth z) := by
      cases ty <;> first | rfl | exact hw.elim
    rw [e]
    exact Scalar.hasTy_wrap hw z

theorem hasTy_reinterpretInt {ty : Ty} (h : ty.IsPlain) (x : Int64) :
    (reinterpretInt ty x).HasTy ty := by
  have e : reinterpretInt ty x = ofInt ty x.toInt := by
    cases ty <;> first | rfl | exact h.elim
  rw [e]
  exact hasTy_ofInt h _

/-- The types between which the result of a conversion has its type, floating-point numbers and
aggregates included. -/
def Gives (op : CastOp) (source target : Ty) : Prop :=
  match op with
  | .sitofp => ¬ target.IsPlain
  | .bitcast => source.IsPlain ∨ ¬ target.IsPlain ∨ ∃ w, target = .int w
  | .zext | .sext | .trunc | .fptosi => True

theorem Between.gives {op : CastOp} {source target : Ty} (h : op.Between source target) :
    op.Gives source target := by
  obtain ⟨hs, -, hop⟩ := h
  cases op with
  | sitofp => exact hop.elim
  | bitcast => exact .inl hs
  | _ => trivial

theorem hasTy_eval {op : CastOp} {a v : Scalar} {source target : Ty}
    (hop : op.Gives source target) (ha : a.HasTy source) (h : op.eval a source target = .ok v) :
    v.HasTy target := by
  by_cases hp : target.IsPlain
  · unfold eval at h
    split at h <;> cases h
    all_goals first
      | exact Scalar.hasTy_undefined _
      | exact hasTy_ofInt hp _
      | exact hasTy_reinterpretInt hp _
      | exact absurd hp hop
      | skip
    -- the bits of a double make an integer
    rcases hop with hs | hn | ⟨w, rfl⟩
    · rcases hs.cases with rfl | hw
      · rcases ha with h | ⟨_, h⟩ <;> cases h
      · rcases ha.of_isWord hw with h | ⟨_, h⟩ <;> cases h
    · exact absurd hp hn
    · unfold reinterpretFloat
      split
      · exact hasTy_ofInt hp _
      · exact hasTy_ofInt hp _
      · rename_i h
        exact absurd rfl (h w)
  · exact Scalar.hasTy_of_not_isPlain hp v

theorem exists_eval {op : CastOp} {a : Scalar} {source target : Ty}
    (h : op.Between source target) (ha : a.HasTy source) :
    ∃ v, op.eval a source target = .ok v ∧ v.HasTy target := by
  obtain ⟨v, hv⟩ : ∃ v, op.eval a source target = .ok v := by
    obtain ⟨hs, -, hop⟩ := h
    rcases hs.cases with rfl | hw
    · rcases ha with rfl | ⟨x, rfl⟩
      · exact ⟨_, by cases op <;> rfl⟩
      · cases op with
        | zext | sext | bitcast => exact ⟨_, rfl⟩
        | trunc => exact absurd rfl hop
        | sitofp | fptosi => exact hop.elim
    · rcases ha.of_isWord hw with rfl | ⟨x, rfl⟩
      · exact ⟨_, by cases op <;> rfl⟩
      · cases op with
        | zext | sext | trunc | bitcast => exact ⟨_, rfl⟩
        | sitofp | fptosi => exact hop.elim
  exact ⟨v, hv, hasTy_eval h.gives ha hv⟩

end CastOp

namespace Scalar

theorem hasTy_choose {c x y : Scalar} {ty : Ty} (hx : x.HasTy ty) (hy : y.HasTy ty) :
    (c.choose x y).HasTy ty := by
  unfold choose
  split
  · split
    · exact hx
    · exact hy
  · split
    · exact hx
    · exact hasTy_undefined ty

theorem hasTy_addOffset (x y : Scalar) (ty : Ty) : (x.addOffset y).HasTy (.ptr ty) := by
  unfold addOffset
  split
  · exact .inr ⟨_, rfl⟩
  · exact .inl rfl

end Scalar

end Lockstep
