import Lockstep.Proofs.Eval.LaneView
import Lockstep.Proofs.Func.Extend
import Lockstep.Proofs.Func.Typed
import Lockstep.Proofs.Func.WellFormed

/-!
# What is known of values beforehand

Of a run in some lanes it may be known beforehand what some values will be. An operation yields what
it computes from all inputs that agree with what is known of them (`Yields`); that takes less than
knowing all of them, since the masks of the lanes decide what becomes of the rest.
-/

namespace Lockstep

variable {ι : Type}

/-! ## Operations of one lane -/

/-- What an operation without effects computes in one lane. -/
def Opcode.eval (code : Opcode) (input : Nat → Scalar) (source ty : Ty) : Except Unsupported Scalar :=
  match code with
  | .binary op => op.eval (input 0) (input 1) ty
  | .cmp op => op.eval (input 0) (input 1) source
  | .select => .ok ((input 0).choose (input 1) (input 2))
  | .cast op => op.eval (input 0) source ty
  | .ptrOffset => .ok ((input 0).addOffset (input 1))
  | _ => .error .aggregate

theorem Run.laneOperation_eq_eval (i : InstId) {code : Opcode} (hc : code.hasSideEffects = false)
    (input : Nat → Scalar) (source ty : Ty) (active : Bool) (memory : Array Scalar) :
    laneOperation i code input source ty active memory =
      (code.eval input source ty).mapError (.unsupported i) := by
  cases code with
  | load | store | call _ => cases hc
  | _ => rfl

/-- An operation without effects has a result of its type on typed inputs. -/
theorem Opcode.exists_eval {code : Opcode} {tys : List Ty} {ty : Ty} (ht : code.Typed tys ty)
    (hc : code.hasSideEffects = false) {input : Nat → Scalar}
    (hin : ∀ k, (input k).HasTy (tys[k]?.getD .void)) :
    ∃ x, code.eval input (tys[0]?.getD .void) ty = .ok x ∧ x.HasTy ty := by
  have h0 := hin 0
  have h1 := hin 1
  have h2 := hin 2
  unfold Opcode.Typed at ht
  split at ht
  · obtain ⟨rfl, rfl, hon⟩ := ht
    exact BinOp.exists_eval hon h0 h1
  · obtain ⟨rfl, hon, rfl⟩ := ht
    exact CmpOp.exists_eval hon h0 h1
  · obtain ⟨rfl, rfl, rfl, -⟩ := ht
    exact ⟨_, rfl, Scalar.hasTy_choose h1 h2⟩
  · exact CastOp.exists_eval ht h0
  · obtain ⟨rfl, hp, -⟩ := ht
    refine ⟨_, rfl, ?_⟩
    rename_i s t
    cases s with
    | ptr pointee => exact Scalar.hasTy_addOffset _ _ _
    | _ => cases hp
  · cases hc
  · cases hc
  · cases hc
  · cases ht

/-! ## Knowledge -/

/-- What is known of the values in some lanes. -/
structure Knowledge (ι : Type) where
  arg : ι → Nat → Scalar
  inst : ι → InstId → Scalar → Prop

namespace Knowledge

/-- What is known of a value. -/
def Knows (K : Knowledge ι) (l : ι) : Value → Scalar → Prop
  | .const c, x => x = c.val
  | .param k, x => x = K.arg l k
  | .inst i, x => K.inst l i x

/-- What is known of `v` is known of `w`. -/
def Refines (K : Knowledge ι) (v w : Value) : Prop := ∀ l x, K.Knows l v x → K.Knows l w x

/-- Inputs that agree with what is known. -/
structure Feeds (K : Knowledge ι) (f : Func) (l : ι) (args : List Value) (input : Nat → Scalar) :
    Prop where
  hasTy : ∀ k : Nat, (input k).HasTy ((args.map f.typeOf)[k]?.getD .void)
  knows : ∀ (k : Nat) v x, args[k]? = some v → K.Knows l v x → input k = x

/-- Whatever the inputs are that agree with what is known, an operation computes `x`. -/
def Yields (K : Knowledge ι) (f : Func) (l : ι) (code : Opcode) (args : List Value) (ty : Ty)
    (x : Scalar) : Prop :=
  ∀ input, K.Feeds f l args input →
    code.eval input ((args.map f.typeOf)[0]?.getD .void) ty = .ok x

/-- Learns what an instruction yields. -/
def learn (K : Knowledge ι) (i : InstId) (Q : ι → Scalar → Prop) : Knowledge ι where
  arg := K.arg
  inst l j x := j = i ∧ Q l x ∨ j ≠ i ∧ K.inst l j x

/-- What is known of instructions before `n` is the same. -/
structure Extends (K : Knowledge ι) (n : Nat) (K' : Knowledge ι) : Prop where
  arg : K'.arg = K.arg
  inst : ∀ l, ∀ i < n, ∀ x, K'.inst l i x ↔ K.inst l i x

variable {K K' K'' : Knowledge ι} {f g : Func} {l : ι} {v w : Value} {x : Scalar}

theorem Refines.refl (v : Value) : K.Refines v v := fun _ _ h => h

theorem Refines.single (h : K.Refines v w) (u : Value) :
    K.Refines u ((Substitution.single v w).value u) := by
  rw [Substitution.value_single]
  split
  · rename_i e
    exact e ▸ h
  · exact .refl u

theorem Extends.refl (K : Knowledge ι) (n : Nat) : K.Extends n K := ⟨rfl, fun _ _ _ _ => .rfl⟩

theorem Extends.trans {m n : Nat} (hmn : m ≤ n) (h : K.Extends m K') (k : K'.Extends n K'') :
    K.Extends m K'' where
  arg := k.arg.trans h.arg
  inst l i hi x := (k.inst l i (Nat.lt_of_lt_of_le hi hmn) x).trans (h.inst l i hi x)

theorem Extends.knows (h : K.Extends f.insts.size K') (hv : f.Defines v) :
    K'.Knows l v x ↔ K.Knows l v x := by
  cases v with
  | const c => exact .rfl
  | param k =>
    show x = K'.arg l k ↔ x = K.arg l k
    rw [h.arg]
  | inst i => exact h.inst l i hv x

theorem extends_learn (K : Knowledge ι) (n : Nat) (Q : ι → Scalar → Prop) :
    K.Extends n (K.learn n Q) where
  arg := rfl
  inst l i hi x := by simp [learn, Nat.ne_of_lt hi]

theorem inst_learn_self (K : Knowledge ι) (n : Nat) (Q : ι → Scalar → Prop) (l : ι) (x : Scalar) :
    (K.learn n Q).inst l n x ↔ Q l x := by
  simp [learn]

/-- What is known is of the types that the values have, and known for sure. -/
structure Sure (K : Knowledge ι) (f : Func) : Prop where
  hasTy : ∀ l i x, K.inst l i x → x.HasTy (f.inst i).ty
  unique : ∀ l i x y, K.inst l i x → K.inst l i y → x = y
  arg : ∀ l k, (K.arg l k).HasTy (f.typeOf (.param k))

theorem Sure.hasTy_value (h : K.Sure f) (hv : v.IsTyped) (hx : K.Knows l v x) :
    x.HasTy (f.typeOf v) := by
  cases v with
  | const c =>
    obtain rfl : x = c.val := hx
    exact hv
  | param k =>
    obtain rfl : x = K.arg l k := hx
    exact h.arg l k
  | inst i => exact h.hasTy l i x hx

theorem Sure.unique_value (h : K.Sure f) {y : Scalar} (hx : K.Knows l v x) (hy : K.Knows l v y) :
    x = y := by
  cases v with
  | const c => exact Eq.trans hx (Eq.symm hy)
  | param k => exact Eq.trans hx (Eq.symm hy)
  | inst i => exact h.unique l i x y hx hy

/-! ### What operations yield -/

variable {code : Opcode} {args args' : List Value} {ty : Ty}

/-- There are inputs that agree with what is known. -/
theorem Sure.exists_feeds (h : K.Sure f) (l : ι) (ha : ∀ v ∈ args, v.IsTyped) :
    ∃ input, K.Feeds f l args input := by
  classical
  let known (v : Value) : Scalar := if h : ∃ x, K.Knows l v x then h.choose else .undefined
  have hknown : ∀ v x, K.Knows l v x → known v = x := by
    intro v x hx
    have he : ∃ x, K.Knows l v x := ⟨x, hx⟩
    have hk : known v = he.choose := dif_pos he
    rw [hk]
    exact h.unique_value he.choose_spec hx
  refine ⟨fun k => (args[k]?.map known).getD .undefined, fun k => ?_, fun k v x hv hx => ?_⟩
  · rw [List.getElem?_map]
    cases hv : args[k]? with
    | none => trivial
    | some v =>
      show (known v).HasTy (f.typeOf v)
      by_cases he : ∃ x, K.Knows l v x
      · obtain ⟨x, hx⟩ := he
        rw [hknown v x hx]
        exact h.hasTy_value (ha v (List.mem_of_getElem? hv)) hx
      · rw [show known v = .undefined from dif_neg he]
        exact Scalar.hasTy_undefined _
  · rw [hv]
    exact hknown v x hx

/-- Inputs that agree with more agree with less. -/
theorem Feeds.of_refines {input : Nat → Scalar} (h : K'.Feeds g l args' input)
    (hty : args'.map g.typeOf = args.map f.typeOf)
    (hr : ∀ (k : Nat) v, args[k]? = some v → ∃ w, args'[k]? = some w ∧
      ∀ x, K.Knows l v x → K'.Knows l w x) : K.Feeds f l args input where
  hasTy k := hty ▸ h.hasTy k
  knows k v x hv hx := by
    obtain ⟨w, hw, hvw⟩ := hr k v hv
    exact h.knows k w x hw (hvw x hx)

/-- What is yielded is still yielded when more is known of the inputs. -/
theorem Yields.of_refines (h : K.Yields f l code args ty x)
    (hty : args'.map g.typeOf = args.map f.typeOf)
    (hr : ∀ (k : Nat) v, args[k]? = some v → ∃ w, args'[k]? = some w ∧
      ∀ x, K.Knows l v x → K'.Knows l w x) : K'.Yields g l code args' ty x := by
  intro input hin
  rw [hty]
  exact h input (hin.of_refines hty hr)

theorem Sure.unique_yields (h : K.Sure f) (ha : ∀ v ∈ args, v.IsTyped) {y : Scalar}
    (hx : K.Yields f l code args ty x) (hy : K.Yields f l code args ty y) : x = y := by
  obtain ⟨input, hin⟩ := h.exists_feeds l ha
  exact Except.ok.inj ((hx input hin).symm.trans (hy input hin))

theorem Sure.hasTy_yields (h : K.Sure f) (ha : ∀ v ∈ args, v.IsTyped)
    (ht : code.Typed (args.map f.typeOf) ty) (hc : code.hasSideEffects = false)
    (hx : K.Yields f l code args ty x) : x.HasTy ty := by
  obtain ⟨input, hin⟩ := h.exists_feeds l ha
  obtain ⟨y, hy, hyty⟩ := Opcode.exists_eval ht hc hin.hasTy
  exact Except.ok.inj ((hx input hin).symm.trans hy) ▸ hyty

/-! ### Truth values -/

theorem yields_select_true {c a b : Value} (hc : K.Knows l c (.bool true)) (ha : K.Knows l a x) :
    K.Yields f l .select [c, a, b] ty x := by
  intro input hin
  have h0 := hin.knows 0 c _ rfl hc
  have h1 := hin.knows 1 a x rfl ha
  show Except.ok ((input 0).choose (input 1) (input 2)) = _
  rw [h0, h1]
  rfl

theorem yields_select_false {c a b : Value} (hc : K.Knows l c (.bool false)) (hb : K.Knows l b x) :
    K.Yields f l .select [c, a, b] ty x := by
  intro input hin
  have h0 := hin.knows 0 c _ rfl hc
  have h2 := hin.knows 2 b x rfl hb
  show Except.ok ((input 0).choose (input 1) (input 2)) = _
  rw [h0, h2]
  rfl

theorem yields_binary {op : BinOp} {a b : Value} {p q r : Bool} (ha : K.Knows l a (.bool p))
    (hb : K.Knows l b (.bool q)) (hop : op.onBools p q = some r) :
    K.Yields f l (.binary op) [a, b] .bool (.bool r) := by
  intro input hin
  have h0 := hin.knows 0 a _ rfl ha
  have h1 := hin.knows 1 b _ rfl hb
  show op.eval (input 0) (input 1) .bool = _
  rw [h0, h1]
  exact BinOp.eval_bools hop _

/-- Nothing needs to be known of the other operand of a conjunction with a false one. -/
theorem yields_and_false {a b : Value} (ha : K.Knows l a (.bool false)) (hb : f.typeOf b = .bool) :
    K.Yields f l (.binary .and) [a, b] .bool (.bool false) := by
  intro input hin
  have h0 := hin.knows 0 a _ rfl ha
  have h1 : (input 1).HasTy (f.typeOf b) := hin.hasTy 1
  rw [hb] at h1
  show BinOp.eval .and (input 0) (input 1) .bool = _
  rw [h0]
  rcases h1 with h1 | ⟨q, h1⟩
  · rw [h1]
    rfl
  · rw [h1]
    rfl

end Knowledge

end Lockstep
