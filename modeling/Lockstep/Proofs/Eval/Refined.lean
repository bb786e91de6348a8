import Lockstep.Proofs.Eval.Bits
import Lockstep.Proofs.Eval.LaneView
import Lockstep.Proofs.Eval.SingleLane

/-!
# Undefined operands

A scalar is refined by another if it is undefined or the same (`Scalar.RefinedBy`). Operations on
truth values, integers and addresses keep this: with refined operands they give a refined result
(`Run.refinedBy_laneOperation`), and an undefined operand never makes them fail
(`Run.exists_laneOperation`).

A choice between doubles would not keep it: an undefined condition chooses between the two zeros,
which compare as equal, the first, and a defined one may choose the second.
-/

namespace Lockstep

/-! ## Scalars -/

namespace Scalar

/-- An undefined scalar may become any other, and a defined one stays. -/
def RefinedBy (x y : Scalar) : Prop := x = .undefined ∨ y = x

variable {c c' x x' y y' : Scalar} {ty : Ty}

theorem RefinedBy.refl (x : Scalar) : x.RefinedBy x := .inr rfl

theorem RefinedBy.eq (h : x.RefinedBy y) (hx : x ≠ .undefined) : y = x := h.resolve_left hx

theorem HasTy.isFloat (h : x.HasTy ty) (hp : ty.IsPlain) : x.isFloat = false := by
  rcases hp.cases with rfl | hw
  · rcases h with rfl | ⟨b, rfl⟩ <;> rfl
  · rcases h.of_isWord hw with rfl | ⟨n, rfl⟩ <;> rfl

theorem RefinedBy.isFloat (h : x.RefinedBy y) (hy : y.isFloat = false) : x.isFloat = false := by
  rcases h with rfl | rfl
  · rfl
  · exact hy

theorem eq_of_same (hx : x.isFloat = false) (h : x.same y = true) : x = y := by
  unfold same at h
  split at h
  · cases hx
  · exact eq_of_beq h

theorem same_self (hx : x.isFloat = false) : x.same x = true := by
  unfold same
  split
  · cases hx
  · exact beq_self_eq_true x

/-- A choice between the same values needs no condition. -/
theorem choose_self (hx : x.isFloat = false) (c : Scalar) : c.choose x x = x := by
  unfold choose
  split
  · exact ite_self _
  · rw [if_pos (same_self hx)]

theorem refinedBy_choose (hc : c.RefinedBy c') (hx : x.RefinedBy x') (hy : y.RefinedBy y')
    (hfloat : x.isFloat = false) : (c.choose x y).RefinedBy (c'.choose x' y') := by
  by_cases hb : ∃ b, c = .bool b
  · obtain ⟨b, rfl⟩ := hb
    obtain rfl : c' = .bool b := hc.eq nofun
    cases b
    · exact hy
    · exact hx
  · -- without a condition there is a result only if both values are the same defined one
    have hnone : c.choose x y = if x.same y then x else .undefined := by
      unfold choose
      split
      · exact absurd ⟨_, rfl⟩ hb
      · rfl
    rw [hnone]
    split
    · rename_i hsame
      obtain rfl := eq_of_same hfloat hsame
      by_cases hu : x = .undefined
      · exact .inl hu
      · rw [hx.eq hu, hy.eq hu, choose_self hfloat]
        exact .refl x
    · exact .inl rfl

theorem refinedBy_addOffset (hx : x.RefinedBy x') (hy : y.RefinedBy y') :
    (x.addOffset y).RefinedBy (x'.addOffset y') := by
  rcases hx with rfl | rfl
  · exact .inl rfl
  · rcases hy with rfl | rfl
    · exact .inl (by cases x' <;> rfl)
    · exact .refl _

theorem isFloat_choose (hx : x.isFloat = false) (hy : y.isFloat = false) :
    (c.choose x y).isFloat = false := by
  unfold choose
  split
  · split
    · exact hx
    · exact hy
  · split
    · exact hx
    · rfl

theorem isFloat_addOffset (x y : Scalar) : (x.addOffset y).isFloat = false := by
  unfold addOffset
  split <;> rfl

end Scalar

namespace BinOp

variable {op : BinOp} {a a' b b' r r' : Scalar} {ty : Ty}

/-- An undefined operand never makes an operator fail. -/
theorem exists_eval_of_undefined (op : BinOp) (ty : Ty) (h : a = .undefined ∨ b = .undefined) :
    ∃ r, op.eval a b ty = .ok r := by
  rcases h with rfl | rfl
  · cases b <;> exact ⟨_, rfl⟩
  · cases a <;> exact ⟨_, rfl⟩

/-- Whether a truth value decides the result of an operator, whatever the other operand is. -/
def Decides (op : BinOp) (x : Bool) : Prop := op = and ∧ x = false ∨ op = or ∧ x = true

theorem eval_of_decides_left {x : Bool} (hx : op.Decides x) (h : op.eval (.bool x) b ty = .ok r) :
    r = .bool x := by
  cases b with
  | undefined => exact (Except.ok.inj ((congrArg Except.ok (if_pos hx)).symm.trans h)).symm
  | bool y =>
    obtain ⟨rfl, rfl⟩ | ⟨rfl, rfl⟩ := hx
    · cases h
      rfl
    · cases h
      rfl
  | int _ | float _ => cases h

theorem eval_of_decides_right {x : Bool} (hx : op.Decides x) (h : op.eval a (.bool x) ty = .ok r) :
    r = .bool x := by
  cases a with
  | undefined => exact (Except.ok.inj ((congrArg Except.ok (if_pos hx)).symm.trans h)).symm
  | bool y =>
    obtain ⟨rfl, rfl⟩ | ⟨rfl, rfl⟩ := hx
    · cases h
      cases y <;> rfl
    · cases h
      cases y <;> rfl
  | int _ | float _ => cases h

/-- An undefined operand leaves the result undefined, unless the other one decides it. -/
theorem eval_undefined_left (h : op.eval .undefined b ty = .ok r) :
    r = .undefined ∨ ∃ x, b = .bool x ∧ op.Decides x := by
  cases b with
  | bool x =>
    by_cases hx : op.Decides x
    · exact .inr ⟨x, rfl, hx⟩
    · exact .inl (Except.ok.inj ((congrArg Except.ok (if_neg hx)).symm.trans h)).symm
  | undefined | int _ | float _ =>
    cases h
    exact .inl rfl

theorem eval_undefined_right (h : op.eval a .undefined ty = .ok r) :
    r = .undefined ∨ ∃ x, a = .bool x ∧ op.Decides x := by
  cases a with
  | bool x =>
    by_cases hx : op.Decides x
    · exact .inr ⟨x, rfl, hx⟩
    · exact .inl (Except.ok.inj ((congrArg Except.ok (if_neg hx)).symm.trans h)).symm
  | undefined | int _ | float _ =>
    cases h
    exact .inl rfl

/-- If the result does not depend on an undefined operand, then on none in its place. -/
theorem refinedBy_eval (ha : a.RefinedBy a') (hb : b.RefinedBy b') (h : op.eval a b ty = .ok r)
    (h' : op.eval a' b' ty = .ok r') : r.RefinedBy r' := by
  rcases ha with rfl | rfl
  · rcases eval_undefined_left h with hr | ⟨x, rfl, hx⟩
    · exact .inl hr
    · rw [hb.eq nofun] at h'
      rw [eval_of_decides_right hx h, eval_of_decides_right hx h']
      exact .refl _
  · rcases hb with rfl | rfl
    · rcases eval_undefined_right h with hr | ⟨x, rfl, hx⟩
      · exact .inl hr
      · rw [eval_of_decides_left hx h, eval_of_decides_left hx h']
        exact .refl _
    · rw [h] at h'
      cases h'
      exact .refl r

theorem isFloat_eval (ha : a.isFloat = false) (h : op.eval a b ty = .ok r) : r.isFloat = false := by
  unfold eval at h
  split at h
  · split at h
    · cases h
      rfl
    · cases h
  · cases h
    split <;> rfl
  · cases h
    split <;> rfl
  · cases h
    rfl
  · cases h
    rfl
  · split at h
    · cases h
      rfl
    · cases h
  · cases ha
  · cases h

end BinOp

namespace CmpOp

variable {op : CmpOp} {a a' b b' r r' : Scalar} {ty : Ty}

theorem eval_of_undefined (op : CmpOp) (ty : Ty) (h : a = .undefined ∨ b = .undefined) :
    op.eval a b ty = .ok .undefined := by
  rcases h with rfl | rfl
  · rfl
  · cases a <;> rfl

theorem refinedBy_eval (ha : a.RefinedBy a') (hb : b.RefinedBy b') (h : op.eval a b ty = .ok r)
    (h' : op.eval a' b' ty = .ok r') : r.RefinedBy r' := by
  by_cases hu : a = .undefined ∨ b = .undefined
  · rw [eval_of_undefined op ty hu] at h
    cases h
    exact .inl rfl
  · obtain ⟨hau, hbu⟩ := not_or.mp hu
    rw [ha.eq hau, hb.eq hbu, h] at h'
    cases h'
    exact .refl r

end CmpOp

namespace CastOp

variable {op : CastOp} {a a' r r' : Scalar} {source target : Ty}

theorem eval_undefined (op : CastOp) (source target : Ty) :
    op.eval .undefined source target = .ok .undefined := by
  cases op <;> rfl

theorem refinedBy_eval (ha : a.RefinedBy a') (h : op.eval a source target = .ok r)
    (h' : op.eval a' source target = .ok r') : r.RefinedBy r' := by
  rcases ha with rfl | rfl
  · rw [eval_undefined] at h
    cases h
    exact .inl rfl
  · rw [h] at h'
    cases h'
    exact .refl r

theorem isFloat_eval (hop : op ≠ .sitofp) (ht : target.IsPlain) (ha : a.isFloat = false)
    (h : op.eval a source target = .ok r) : r.isFloat = false := by
  unfold eval at h
  split at h <;> cases h
  all_goals first
    | rfl
    | exact (hasTy_ofInt ht _).isFloat ht
    | exact (hasTy_reinterpretInt ht _).isFloat ht
    | exact absurd rfl hop
    | cases ha

end CastOp

/-! ## Operations -/

/-- An operation on truth values, integers and addresses, with the number of its operands. -/
def Opcode.IsPlain (code : Opcode) (arity : Nat) : Prop :=
  match code with
  | .binary _ | .cmp _ | .ptrOffset => arity = 2
  | .select => arity = 3
  | .cast op => arity = 1 ∧ op ≠ .sitofp
  | _ => False

/-- A phi or operation over truth values, integers and addresses. -/
structure Instr.IsPlain (f : Func) (d : Instr) : Prop where
  ty : d.ty.IsPlain
  inputs : ∀ v ∈ d.inputs, v.IsTyped ∧ (f.typeOf v).IsPlain
  code : ∀ code args, d.op = .apply code args → code.IsPlain args.length

/-- A function of phis and operations over truth values, integers and addresses. -/
def Func.IsPlain (f : Func) : Prop := ∀ b, ∀ i ∈ f.body b, (f.inst i).IsPlain f

theorem Opcode.IsPlain.isQuiet {code : Opcode} {n : Nat} (h : code.IsPlain n) :
    code.isQuiet = true := by
  cases code <;> first | rfl | exact h.elim

namespace Run

variable {i : InstId} {code : Opcode} {n : Nat} {source ty : Ty} {a a' : Bool}
  {memory memory' : Array Scalar} {input input' : Nat → Scalar} {x x' : Scalar}

theorem mapError_eq_ok {ε ε' α : Type} {g : ε → ε'} {e : Except ε α} {y : α}
    (h : e.mapError g = .ok y) : e = .ok y := by
  cases e with
  | error _ => cases h
  | ok z =>
    cases h
    rfl

/-- With refined operands an operation gives a refined result. -/
theorem refinedBy_laneOperation (hc : code.IsPlain n) (hin : ∀ k, (input k).RefinedBy (input' k))
    (hfloat : ∀ k < n, (input k).isFloat = false)
    (h : laneOperation i code input source ty a memory = .ok x)
    (h' : laneOperation i code input' source ty a' memory' = .ok x') : x.RefinedBy x' := by
  cases code with
  | binary op => exact BinOp.refinedBy_eval (hin 0) (hin 1) (mapError_eq_ok h) (mapError_eq_ok h')
  | cmp op => exact CmpOp.refinedBy_eval (hin 0) (hin 1) (mapError_eq_ok h) (mapError_eq_ok h')
  | cast op => exact CastOp.refinedBy_eval (hin 0) (mapError_eq_ok h) (mapError_eq_ok h')
  | select =>
    cases h
    cases h'
    refine Scalar.refinedBy_choose (hin 0) (hin 1) (hin 2) (hfloat 1 ?_)
    rw [show n = 3 from hc]
    decide
  | ptrOffset =>
    cases h
    cases h'
    exact Scalar.refinedBy_addOffset (hin 0) (hin 1)
  | _ => exact hc.elim

/-- An undefined operand never makes an operation fail. -/
theorem exists_laneOperation (hc : code.IsPlain n) {k : Nat} (hk : k < n)
    (hu : input k = .undefined) : ∃ x, laneOperation i code input source ty a memory = .ok x := by
  have two : n = 2 → input 0 = .undefined ∨ input 1 = .undefined := by
    rintro rfl
    obtain rfl | rfl : k = 0 ∨ k = 1 := by omega
    · exact .inl hu
    · exact .inr hu
  cases code with
  | binary op =>
    obtain ⟨r, hr⟩ := BinOp.exists_eval_of_undefined op ty (two hc)
    exact ⟨r, congrArg (Except.mapError _) hr⟩
  | cmp op => exact ⟨_, congrArg (Except.mapError _) (CmpOp.eval_of_undefined op source (two hc))⟩
  | cast op =>
    obtain rfl : k = 0 := by
      have : n = 1 := hc.1
      omega
    refine ⟨.undefined, ?_⟩
    show (op.eval (input 0) source ty).mapError _ = _
    rw [hu, CastOp.eval_undefined]
    rfl
  | select | ptrOffset => exact ⟨_, rfl⟩
  | _ => exact hc.elim

/-- Operations that give truth values, integers and addresses give no doubles. -/
theorem isFloat_laneOperation (hc : code.IsPlain n) (hty : ty.IsPlain)
    (hfloat : ∀ k < n, (input k).isFloat = false)
    (h : laneOperation i code input source ty a memory = .ok x) : x.isFloat = false := by
  have first : 0 < n → (input 0).isFloat = false := hfloat 0
  cases code with
  | binary op => exact BinOp.isFloat_eval (first (hc.symm ▸ Nat.two_pos)) (mapError_eq_ok h)
  | cmp op => exact (CmpOp.hasTy_eval (mapError_eq_ok h)).isFloat trivial
  | cast op =>
    exact CastOp.isFloat_eval hc.2 hty (first (hc.1.symm ▸ Nat.one_pos)) (mapError_eq_ok h)
  | select =>
    cases h
    have hn : n = 3 := hc
    exact Scalar.isFloat_choose (hfloat 1 (by omega)) (hfloat 2 (by omega))
  | ptrOffset =>
    cases h
    exact Scalar.isFloat_addOffset _ _
  | _ => exact hc.elim

end Run

end Lockstep
