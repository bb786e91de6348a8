import Lockstep.Proofs.Func.Typed
import Lockstep.Proofs.Func.WellFormed

/-!
# Checking functions

Whether a function is in static single assignment form can be checked with its dominator tree
(`wellFormed_of_checks`). The check asks of unreachable blocks what it asks of the others. Whether a
function is well-typed can be checked block by block (`wellTyped_of_checks`). `Func.Checks` asks for
both.
-/

namespace Lockstep

namespace Func

variable {f : Func} {b : BlockId} {v : Value}

/-- Whether a value may be used in a block, after some of its instructions, as the dominator tree
has it. -/
def isAvailable (f : Func) (dom : DomTree) (b : BlockId) (before : List InstId) : Value → Bool
  | .inst i => before.contains i ||
    f.blockIds.any fun d => d != b && (f.body d).contains i && dom.dominates d b
  | .const _ | .param _ => true

theorem availableAt_of_isAvailable (hf : f.Closed) {before : List InstId}
    (h : f.isAvailable (Analyses.ofFunc f).dom b before v = true) : f.AvailableAt b before v := by
  cases v with
  | inst i =>
    rcases Bool.or_eq_true_iff.mp h with h | h
    · exact .inl (List.contains_iff_mem.mp h)
    · obtain ⟨d, -, h⟩ := List.any_eq_true.mp h
      simp only [Bool.and_eq_true, bne_iff_ne, List.contains_iff_mem] at h
      exact .inr ⟨d, h.1.1, h.1.2, Cfg.dominates_of_dominators hf h.2⟩
  | _ => trivial

/-- What is checked of a block. -/
structure BlockChecks (f : Func) (dom : DomTree) (b : BlockId) : Prop where
  entry : f.entry ∉ (f.term b).targets
  nodup : (f.body b).Nodup
  phis_first : ∀ i ∈ f.nonPhis b, f.isPhi i = false
  phis : ∀ phi ∈ f.phis b, ((f.inst phi).incoming.map Prod.fst).Nodup ∧
    (∀ p ∈ (f.inst phi).incoming.map Prod.fst, b ∈ (f.term p).targets) ∧
    (∀ p < f.blocks.size, b ∈ (f.term p).targets → p ∈ (f.inst phi).incoming.map Prod.fst) ∧
    ∀ e ∈ (f.inst phi).incoming, f.isAvailable dom e.1 (f.body e.1) e.2 = true
  uses : ∀ e ∈ (f.body b).zipIdx, f.isPhi e.1 = false → ∀ v ∈ (f.inst e.1).uses,
    f.isAvailable dom b ((f.body b).take e.2) v = true
  exit : ∀ v ∈ (f.term b).uses, f.isAvailable dom b (f.body b) v = true

theorem blockChecks_iff (f : Func) (dom : DomTree) (b : BlockId) : f.BlockChecks dom b ↔
    f.entry ∉ (f.term b).targets ∧ (f.body b).Nodup ∧ (∀ i ∈ f.nonPhis b, f.isPhi i = false) ∧
    (∀ phi ∈ f.phis b, ((f.inst phi).incoming.map Prod.fst).Nodup ∧
      (∀ p ∈ (f.inst phi).incoming.map Prod.fst, b ∈ (f.term p).targets) ∧
      (∀ p < f.blocks.size, b ∈ (f.term p).targets → p ∈ (f.inst phi).incoming.map Prod.fst) ∧
      ∀ e ∈ (f.inst phi).incoming, f.isAvailable dom e.1 (f.body e.1) e.2 = true) ∧
    (∀ e ∈ (f.body b).zipIdx, f.isPhi e.1 = false → ∀ v ∈ (f.inst e.1).uses,
      f.isAvailable dom b ((f.body b).take e.2) v = true) ∧
    ∀ v ∈ (f.term b).uses, f.isAvailable dom b (f.body b) v = true :=
  ⟨fun h => ⟨h.entry, h.nodup, h.phis_first, h.phis, h.uses, h.exit⟩,
    fun ⟨h1, h2, h3, h4, h5, h6⟩ => ⟨h1, h2, h3, h4, h5, h6⟩⟩

instance (f : Func) (dom : DomTree) (b : BlockId) : Decidable (f.BlockChecks dom b) :=
  decidable_of_iff _ (f.blockChecks_iff dom b).symm

/-- A coherent function whose blocks pass the check is well-formed. -/
theorem wellFormed_of_checks (hf : f.Coherent)
    (h : ∀ b < f.blocks.size, f.BlockChecks (Analyses.ofFunc f).dom b) : f.WellFormed := by
  have hbody : ∀ b, ∀ i ∈ f.body b, f.BlockChecks (Analyses.ofFunc f).dom b := fun b i hi =>
    h b (f.lt_of_mem_body hi)
  refine { hf with
    entry_pred := fun b hb => (h b (f.lt_of_mem_targets hb)).entry hb
    nodup := fun b => ?_
    phis_first := fun b i hi => (hbody b i (mem_body_of_mem_nonPhis hi)).phis_first i hi
    entries := fun b _ phi hphi => ?_
    inst := fun b _ before i after e hi v hv => ?_
    phi := fun b _ phi hphi e he _ => ?_
    exit := fun b hr v hv => availableAt_of_isAvailable hf.toClosed ((h b (hr.lt hf.toClosed)).exit v hv) }
  · by_cases hb : b < f.blocks.size
    · exact (h b hb).nodup
    · rw [body, f.block_of_size_le (Nat.le_of_not_lt hb)]
      exact List.nodup_nil
  · obtain ⟨h1, h2, h3, -⟩ := (hbody b phi (mem_body_of_mem_phis hphi)).phis phi hphi
    exact ⟨h1, h2, fun p hr hp => h3 p (hr.lt hf.toClosed) hp⟩
  · have hmem : (i, before.length) ∈ (f.body b).zipIdx := by
      rw [List.mem_zipIdx_iff_getElem?, e]
      simp
    have hi' : i ∈ f.body b := by rw [e]; simp
    have huse := (hbody b i hi').uses _ hmem hi v hv
    rw [e, List.take_left] at huse
    exact availableAt_of_isAvailable hf.toClosed huse
  · obtain ⟨-, -, -, h4⟩ := (hbody b phi (mem_body_of_mem_phis hphi)).phis phi hphi
    exact availableAt_of_isAvailable hf.toClosed (h4 e he)

end Func

/-! ## Types -/

theorem Scalar.hasTy_iff (x : Scalar) (ty : Ty) : x.HasTy ty ↔ match ty, x with
    | .bool, .undefined | .bool, .bool _ | .int _, .undefined | .ptr _, .undefined
    | .ptr _, .int _ => True
    | .int w, .int n => Word.Normal w n
    | .bool, _ | .int _, _ | .ptr _, _ => False
    | _, _ => True := by
  cases ty <;> cases x <;> simp [HasTy]

instance (x : Scalar) (ty : Ty) : Decidable (x.HasTy ty) :=
  @decidable_of_iff _ _ (x.hasTy_iff ty).symm (by split <;> infer_instance)

instance : (v : Value) → Decidable v.IsTyped
  | .const c => inferInstanceAs (Decidable (c.val.HasTy c.ty))
  | .param _ | .inst _ => .isTrue trivial

theorem Instr.typed_iff (f : Func) (d : Instr) : d.Typed f ↔ (∀ v ∈ d.uses, v.IsTyped) ∧
    (∀ v ∈ d.mask.toList, f.typeOf v = .bool) ∧ match d.op with
      | .phi incoming => d.ty.IsPlain ∧ ∀ e ∈ incoming, f.typeOf e.2 = d.ty
      | .apply code args => code.Typed (args.map f.typeOf) d.ty := by
  constructor
  · rintro ⟨h1, h2, h3, h4⟩
    refine ⟨h1, fun v hv => h2 v (Option.mem_toList.mp hv), ?_⟩
    split
    · exact h3 _ ‹_›
    · exact h4 _ _ ‹_›
  · rintro ⟨h1, h2, h3⟩
    refine ⟨h1, fun v hv => h2 v (Option.mem_toList.mpr hv), fun _ e => ?_, fun _ _ e => ?_⟩
    · rw [e] at h3
      exact h3
    · rw [e] at h3
      exact h3

instance (f : Func) (d : Instr) : Decidable (d.Typed f) :=
  @decidable_of_iff _ _ (d.typed_iff f).symm <| by
    have : Decidable (match d.op with
      | .phi incoming => d.ty.IsPlain ∧ ∀ e ∈ incoming, f.typeOf e.2 = d.ty
      | .apply code args => code.Typed (args.map f.typeOf) d.ty) := by
      split <;> infer_instance
    infer_instance

namespace Func

variable {f : Func}

/-- A function whose blocks pass the check is well-typed. -/
theorem wellTyped_of_checks (h : ∀ b < f.blocks.size, (∀ i ∈ f.body b, (f.inst i).Typed f) ∧
    ∀ v ∈ (f.term b).uses, (f.term b).targets ≠ [] → f.typeOf v = .bool) : f.WellTyped where
  inst b i hi := (h b (f.lt_of_mem_body hi)).1 i hi
  cond b c t e hterm := by
    have hb : t ∈ (f.term b).targets := by rw [hterm]; exact List.mem_cons_self
    refine (h b (f.lt_of_mem_targets hb)).2 c ?_ (List.ne_nil_of_mem hb)
    rw [hterm]
    exact List.mem_singleton_self c

/-- What is checked of a function. -/
structure Checks (f : Func) : Prop where
  coherent : f.Coherent
  blocks : ∀ b < f.blocks.size, f.BlockChecks (Analyses.ofFunc f).dom b
  types : ∀ b < f.blocks.size, (∀ i ∈ f.body b, (f.inst i).Typed f) ∧
    ∀ v ∈ (f.term b).uses, (f.term b).targets ≠ [] → f.typeOf v = .bool
  nodup : ∀ b < f.blocks.size, (f.term b).targets.Nodup

theorem checks_iff (f : Func) : f.Checks ↔ f.Coherent ∧
    (∀ b < f.blocks.size, f.BlockChecks (Analyses.ofFunc f).dom b) ∧
    (∀ b < f.blocks.size, (∀ i ∈ f.body b, (f.inst i).Typed f) ∧
      ∀ v ∈ (f.term b).uses, (f.term b).targets ≠ [] → f.typeOf v = .bool) ∧
    ∀ b < f.blocks.size, (f.term b).targets.Nodup :=
  ⟨fun h => ⟨h.coherent, h.blocks, h.types, h.nodup⟩, fun ⟨h1, h2, h3, h4⟩ => ⟨h1, h2, h3, h4⟩⟩

instance (f : Func) : Decidable f.Checks := decidable_of_iff _ f.checks_iff.symm

theorem Checks.wellFormed (h : f.Checks) : f.WellFormed := wellFormed_of_checks h.coherent h.blocks

theorem Checks.wellTyped (h : f.Checks) : f.WellTyped := wellTyped_of_checks h.types

theorem Checks.nodup_targets (h : f.Checks) (b : BlockId) : (f.term b).targets.Nodup := by
  by_cases hb : b < f.blocks.size
  · exact h.nodup b hb
  · rw [Cfg.term_of_size_le (Nat.le_of_not_lt hb)]
    exact List.nodup_nil

end Func

end Lockstep
