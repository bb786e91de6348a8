import Lockstep.Proofs.Eval.Typing

/-!
# Well-typed functions

The typing of functions over truth values, integers and addresses. Nothing is said about what a
call returns.

`Func.TypesAgree` asks less: floating-point numbers and aggregates may be there too, and only what
makes the values of a run have their types is asked of the operations.
-/

namespace Lockstep

/-- The types of arguments and result of an operation. -/
def Opcode.Typed (code : Opcode) (args : List Ty) (ty : Ty) : Prop :=
  match code, args with
  | .binary op, [s, t] => s = ty ∧ t = ty ∧ op.On ty
  | .cmp op, [s, t] => t = s ∧ op.On s ∧ ty = .bool
  | .select, [c, s, t] => c = .bool ∧ s = ty ∧ t = ty ∧ ty.IsPlain
  | .cast op, [s] => op.Between s ty
  | .ptrOffset, [s, t] => s = ty ∧ s.pointee?.isSome ∧ t.IsWord
  | .load, [s] => s.pointee?.isSome ∧ ty.IsPlain
  | .store, [s, t] => s.pointee?.isSome ∧ t.IsPlain ∧ ty = .void
  | .call _, _ => True
  | _, _ => False

instance (code : Opcode) (args : List Ty) (ty : Ty) : Decidable (code.Typed args ty) := by
  unfold Opcode.Typed
  split <;> infer_instance

/-- A constant that has its type. -/
def Value.IsTyped : Value → Prop
  | .const c => c.val.HasTy c.ty
  | _ => True

/-- An instruction whose operands have the right types. -/
structure Instr.Typed (f : Func) (d : Instr) : Prop where
  uses : ∀ v ∈ d.uses, v.IsTyped
  mask : ∀ v ∈ d.mask, f.typeOf v = .bool
  phi : ∀ incoming, d.op = .phi incoming → d.ty.IsPlain ∧ ∀ e ∈ incoming, f.typeOf e.2 = d.ty
  apply : ∀ code args, d.op = .apply code args → code.Typed (args.map f.typeOf) d.ty

/-- Arguments and result of an operation go together. -/
def Opcode.TypesAgree (code : Opcode) (args : List Ty) (ty : Ty) : Prop :=
  match code with
  | .binary _ => args = [ty, ty]
  | .cmp _ => ∃ s, args = [s, s] ∧ (ty.IsPlain → ty = .bool)
  | .select => ∃ c, args = [c, ty, ty]
  | .cast op => ∃ s, args = [s] ∧ op.Gives s ty
  | .ptrOffset => ∃ s, args = [ty, s] ∧ (ty.IsPlain → ty.pointee?.isSome)
  | _ => True

theorem Opcode.Typed.typesAgree {code : Opcode} {args : List Ty} {ty : Ty}
    (h : code.Typed args ty) : code.TypesAgree args ty := by
  unfold Opcode.Typed at h
  split at h
  · obtain ⟨rfl, rfl, -⟩ := h
    rfl
  · obtain ⟨rfl, -, rfl⟩ := h
    exact ⟨_, rfl, fun _ => rfl⟩
  · obtain ⟨-, rfl, rfl, -⟩ := h
    exact ⟨_, rfl⟩
  · exact ⟨_, rfl, h.gives⟩
  · obtain ⟨rfl, hp, -⟩ := h
    exact ⟨_, rfl, fun _ => hp⟩
  · trivial
  · trivial
  · trivial
  · exact h.elim

/-- An instruction whose operands and result go together. -/
structure Instr.TypesAgree (f : Func) (d : Instr) : Prop where
  inputs : ∀ v ∈ d.inputs, v.IsTyped
  phi : ∀ incoming, d.op = .phi incoming → ∀ e ∈ incoming, f.typeOf e.2 = d.ty
  apply : ∀ code args, d.op = .apply code args → code.TypesAgree (args.map f.typeOf) d.ty

/-- A function whose types go together. -/
def Func.TypesAgree (f : Func) : Prop := ∀ b, ∀ i ∈ f.body b, (f.inst i).TypesAgree f

/-- A function whose instructions and conditions have the right types. -/
structure Func.WellTyped (f : Func) : Prop where
  inst : ∀ b, ∀ i ∈ f.body b, (f.inst i).Typed f
  cond : ∀ b c t e, f.term b = .brIf c t e → f.typeOf c = .bool

theorem Instr.Typed.typesAgree {f : Func} {d : Instr} (h : d.Typed f) : d.TypesAgree f where
  inputs v hv := h.uses v (List.mem_append_left _ hv)
  phi incoming e := (h.phi incoming e).2
  apply code args e := (h.apply code args e).typesAgree

theorem Func.WellTyped.typesAgree {f : Func} (h : f.WellTyped) : f.TypesAgree := fun b i hi =>
  (h.inst b i hi).typesAgree

instance (f : Func) : Coe f.WellTyped f.TypesAgree := ⟨Func.WellTyped.typesAgree⟩

end Lockstep
