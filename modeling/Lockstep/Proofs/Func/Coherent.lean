import Lockstep.Proofs.Cfg.Reach
import Lockstep.Proofs.Func.Edit

/-!
# Coherent functions

A function is coherent if everything that it mentions exists: branches lead to its blocks, operands
are values of its instructions, the layout lists its blocks, and an attached instruction stands in
the block that it names. Edits keep a function coherent.
-/

namespace Lockstep

namespace Func

/-- Whether a value exists in a function. -/
def Defines (f : Func) : Value → Prop
  | .inst i => i < f.insts.size
  | .const _ | .param _ => True

/-- Whether an instruction stands in some block. -/
def Attached (f : Func) (i : InstId) : Prop := ∃ b, i ∈ f.body b

/-- Everything that a function mentions exists and is where it is said to be. -/
structure Coherent (f : Func) : Prop extends f.Closed where
  layout : ∀ b, b ∈ f.layout ↔ b < f.blocks.size
  inputs : ∀ i, ∀ v ∈ (f.inst i).inputs, f.Defines v
  uses : ∀ b, ∀ v ∈ (f.term b).uses, f.Defines v
  body_lt : ∀ b, ∀ i ∈ f.body b, i < f.insts.size
  placed : ∀ b, ∀ i ∈ f.body b, (f.inst i).block = b

theorem Defines.mono {f f' : Func} (h : f.insts.size ≤ f'.insts.size) {v : Value}
    (hv : f.Defines v) : f'.Defines v := by
  cases v with
  | inst i => exact Nat.lt_of_lt_of_le hv h
  | _ => trivial

/-- A substitution whose results exist. -/
theorem Defines.single {f : Func} {old new v : Value} (hn : f.Defines new) (hv : f.Defines v) :
    f.Defines ((Substitution.single old new).value v) := by
  rw [Substitution.value_single]
  split
  · exact hn
  · exact hv

theorem Coherent.mem_users {f : Func} (hf : f.Coherent) {b : BlockId} {i : InstId}
    (hi : i ∈ f.body b) : .inst i ∈ f.users :=
  f.mem_users_inst.mpr ⟨b, (hf.layout b).mpr (f.lt_of_mem_body hi), hi⟩

theorem Coherent.mem_attached {f : Func} (hf : f.Coherent) {i : InstId} :
    i ∈ f.attached ↔ f.Attached i := by
  constructor
  · intro hi
    obtain ⟨b, -, hi⟩ := List.mem_flatMap.mp hi
    exact ⟨b, hi⟩
  · rintro ⟨b, hi⟩
    exact List.mem_flatMap.mpr ⟨b, (hf.layout b).mpr (f.lt_of_mem_body hi), hi⟩

theorem Coherent.defines_input {f : Func} (hf : f.Coherent) (i : InstId) (k : Nat) :
    f.Defines ((f.inst i).input k) := by
  unfold Instr.input
  cases hv : (f.inst i).inputs[k]? with
  | none => trivial
  | some v => exact hf.inputs i v (List.mem_of_getElem? hv)

theorem Coherent.defines_cond {f : Func} (hf : f.Coherent) {b t e : BlockId} {c : Value}
    (h : f.term b = .brIf c t e) : f.Defines c :=
  hf.uses b c (by rw [h]; exact List.mem_singleton_self c)

theorem Coherent.defines_incoming {f : Func} (hf : f.Coherent) {i : InstId}
    {e : BlockId × Value} (h : e ∈ (f.inst i).incoming) : f.Defines e.2 := by
  refine hf.inputs i e.2 ?_
  unfold Instr.incoming at h
  unfold Instr.inputs Op.inputs
  split at h
  · exact List.mem_map_of_mem h
  · cases h

instance (f : Func) : (v : Value) → Decidable (f.Defines v)
  | .inst i => inferInstanceAs (Decidable (i < f.insts.size))
  | .const _ | .param _ => .isTrue trivial

/-- Coherence is a matter of the blocks and instructions that there are. -/
theorem coherent_iff (f : Func) : f.Coherent ↔ f.entry < f.blocks.size ∧
    (∀ b < f.blocks.size, (∀ t ∈ (f.term b).targets, t < f.blocks.size) ∧
      (∀ v ∈ (f.term b).uses, f.Defines v) ∧
        ∀ i ∈ f.body b, i < f.insts.size ∧ (f.inst i).block = b) ∧
    (∀ b ∈ f.layout, b < f.blocks.size) ∧ (∀ b < f.blocks.size, b ∈ f.layout) ∧
    ∀ i < f.insts.size, ∀ v ∈ (f.inst i).inputs, f.Defines v := by
  constructor
  · intro h
    exact ⟨h.entry_lt, fun b _ => ⟨h.target_lt b, h.uses b, fun i hi =>
      ⟨h.body_lt b i hi, h.placed b i hi⟩⟩, fun b => (h.layout b).mp, fun b => (h.layout b).mpr,
      fun i _ => h.inputs i⟩
  · rintro ⟨h1, h2, h3, h4, h5⟩
    have hbody : ∀ b, ∀ i ∈ f.body b, i < f.insts.size ∧ (f.inst i).block = b :=
      fun b i hi => (h2 b (f.lt_of_mem_body hi)).2.2 i hi
    refine ⟨⟨h1, fun b t ht => (h2 b (f.lt_of_mem_targets ht)).1 t ht⟩,
      fun b => ⟨h3 b, h4 b⟩, fun i v hv => ?_, fun b v hv => ?_, fun b i hi => (hbody b i hi).1,
      fun b i hi => (hbody b i hi).2⟩
    · by_cases hi : i < f.insts.size
      · exact h5 i hi v hv
      · rw [f.inst_of_size_le (Nat.le_of_not_lt hi)] at hv
        cases hv
    · by_cases hb : b < f.blocks.size
      · exact (h2 b hb).2.1 v hv
      · rw [Cfg.term_of_size_le (Nat.le_of_not_lt hb)] at hv
        cases hv

instance (f : Func) : Decidable f.Coherent := decidable_of_iff _ f.coherent_iff.symm

/-! ## Edits -/

variable {f : Func}

theorem Coherent.setTerm (hf : f.Coherent) {b : BlockId} {t : Terminator}
    (ht : ∀ c ∈ t.targets, c < f.blocks.size) (hu : ∀ v ∈ t.uses, f.Defines v) :
    (f.setTerm b t).Coherent where
  entry_lt := by rw [size_blocks_setTerm]; exact hf.entry_lt
  target_lt c x hx := by
    rw [size_blocks_setTerm]
    rw [term_setTerm] at hx
    split at hx
    · exact ht x hx
    · exact hf.target_lt c x hx
  layout c := by rw [size_blocks_setTerm]; exact hf.layout c
  inputs := hf.inputs
  uses c v hv := by
    rw [term_setTerm] at hv
    split at hv
    · exact hu v hv
    · exact hf.uses c v hv
  body_lt c i hi := by rw [body_setTerm] at hi; exact hf.body_lt c i hi
  placed c i hi := by rw [body_setTerm] at hi; exact hf.placed c i hi

theorem Coherent.insertAt (hf : f.Coherent) {b : BlockId} {pos : Nat} {d : Instr}
    (hd : ∀ v ∈ d.inputs, f.Defines v) : (f.insertAt b pos d).2.Coherent where
  entry_lt := by rw [size_blocks_insertAt]; exact hf.entry_lt
  target_lt c x hx := by
    rw [term_insertAt] at hx
    rw [size_blocks_insertAt]
    exact hf.target_lt c x hx
  layout c := by rw [size_blocks_insertAt]; exact hf.layout c
  inputs i v hv := by
    rw [inst_insertAt] at hv
    refine Defines.mono (by rw [size_insts_insertAt]; exact Nat.le_succ _) (f := f) ?_
    split at hv
    · exact hd v hv
    · exact hf.inputs i v hv
  uses c v hv := by
    rw [term_insertAt] at hv
    exact Defines.mono (by rw [size_insts_insertAt]; exact Nat.le_succ _) (hf.uses c v hv)
  body_lt c i hi := by
    rw [size_insts_insertAt]
    rcases mem_body_insertAt f hi with h | ⟨rfl, -⟩
    · exact Nat.lt_succ_of_lt (hf.body_lt c i h)
    · exact Nat.lt_succ_self _
  placed c i hi := by
    rw [inst_insertAt]
    rcases mem_body_insertAt f hi with h | ⟨rfl, rfl⟩
    · rw [if_neg (Nat.ne_of_lt (hf.body_lt c i h))]
      exact hf.placed c i h
    · rw [if_pos rfl]

theorem Coherent.addBlock (hf : f.Coherent) (name : Option String) :
    (f.addBlock name).2.Coherent := by
  have hsize : (f.addBlock name).2.blocks.size = f.blocks.size + 1 := Array.size_push _
  have hterm : ∀ b, (f.addBlock name).2.term b = f.term b ∨
      (f.addBlock name).2.term b = .unreachable := fun b => by
    unfold Func.term
    rw [block_addBlock]
    split
    · exact .inr rfl
    · exact .inl rfl
  constructor
  case toClosed =>
    refine ⟨hsize ▸ Nat.lt_succ_of_lt hf.entry_lt, fun b t ht => ?_⟩
    rcases hterm b with e | e <;> rw [e] at ht
    · exact hsize ▸ Nat.lt_succ_of_lt (hf.target_lt b t ht)
    · cases ht
  case layout =>
    intro b
    show b ∈ f.layout ++ [f.blocks.size] ↔ _
    rw [hsize, List.mem_append, List.mem_singleton, hf.layout]
    exact Nat.lt_succ_iff_lt_or_eq.symm
  case inputs => exact hf.inputs
  case uses =>
    intro b v hv
    rcases hterm b with e | e <;> rw [e] at hv
    · exact hf.uses b v hv
    · cases hv
  case body_lt => exact fun b i hi => hf.body_lt b i (body_addBlock f name b ▸ hi)
  case placed => exact fun b i hi => hf.placed b i (body_addBlock f name b ▸ hi)

theorem Coherent.detach (hf : f.Coherent) (i : InstId) : (f.detach i).Coherent where
  entry_lt := by rw [size_blocks_detach]; exact hf.entry_lt
  target_lt c x hx := by
    rw [term_detach] at hx
    rw [size_blocks_detach]
    exact hf.target_lt c x hx
  layout c := by rw [size_blocks_detach]; exact hf.layout c
  inputs := hf.inputs
  uses c v hv := by rw [term_detach] at hv; exact hf.uses c v hv
  body_lt c j hj := hf.body_lt c j (mem_body_of_detach f hj)
  placed c j hj := hf.placed c j (mem_body_of_detach f hj)

theorem Coherent.modifyIncoming (hf : f.Coherent) {i : InstId}
    {g : List (BlockId × Value) → List (BlockId × Value)}
    (hg : ∀ e ∈ g (f.inst i).incoming, f.Defines e.2) : (f.modifyIncoming i g).Coherent where
  entry_lt := hf.entry_lt
  target_lt := hf.target_lt
  layout := hf.layout
  inputs j v hv := by
    refine Defines.mono (by rw [size_insts_modifyIncoming]) (f := f) ?_
    rw [inst_modifyIncoming] at hv
    split at hv
    · rename_i e
      subst e
      unfold mapIncoming at hv
      split at hv
      · rename_i incoming hop
        obtain ⟨e, he, rfl⟩ := List.mem_map.mp hv
        refine hg e ?_
        unfold Instr.incoming
        rw [hop]
        exact he
      · exact hf.inputs _ v hv
    · exact hf.inputs j v hv
  uses c v hv := Defines.mono (by rw [size_insts_modifyIncoming]) (hf.uses c v hv)
  body_lt c j hj := by rw [size_insts_modifyIncoming]; exact hf.body_lt c j hj
  placed c j hj := by
    rw [inst_modifyIncoming]
    split
    · rw [block_mapIncoming]
      exact hf.placed c j hj
    · exact hf.placed c j hj

theorem Coherent.setIncoming (hf : f.Coherent) {phi : InstId} {pred : BlockId} {v : Value}
    (hv : f.Defines v) : (f.setIncoming phi pred v).Coherent := by
  refine hf.modifyIncoming fun e he => ?_
  rcases mem_setEntry he with he | rfl
  · exact hf.defines_incoming he
  · exact hv

theorem Coherent.removeIncoming (hf : f.Coherent) (phi : InstId) (p : BlockId → Bool) :
    (f.removeIncoming phi p).2.Coherent :=
  hf.modifyIncoming fun _ he => hf.defines_incoming (List.mem_filter.mp he).1

/-- Replacing values by values and blocks by blocks, in one user. -/
theorem Coherent.substUser (hf : f.Coherent) {s : Substitution}
    (hb : ∀ b < f.blocks.size, s.block b < f.blocks.size)
    (hv : ∀ v, f.Defines v → f.Defines (s.value v)) (u : User) : (f.substUser s u).Coherent where
  entry_lt := by rw [size_blocks_substUser]; exact hf.entry_lt
  target_lt c x hx := by
    rw [size_blocks_substUser]
    rw [term_substUser] at hx
    split at hx
    · rw [Terminator.targets_map] at hx
      obtain ⟨y, hy, rfl⟩ := List.mem_map.mp hx
      exact hb y (hf.target_lt c y hy)
    · exact hf.target_lt c x hx
  layout c := by rw [size_blocks_substUser, layout_substUser]; exact hf.layout c
  inputs i v hx := by
    refine Defines.mono (by rw [size_insts_substUser]) (f := f) ?_
    rw [inst_substUser] at hx
    split at hx
    · rw [Instr.inputs_map] at hx
      obtain ⟨w, hw, rfl⟩ := List.mem_map.mp hx
      exact hv w (hf.inputs i w hw)
    · exact hf.inputs i v hx
  uses c v hx := by
    refine Defines.mono (by rw [size_insts_substUser]) (f := f) ?_
    rw [term_substUser] at hx
    split at hx
    · rw [Terminator.uses_map] at hx
      obtain ⟨w, hw, rfl⟩ := List.mem_map.mp hx
      exact hv w (hf.uses c w hw)
    · exact hf.uses c v hx
  body_lt c i hi := by
    rw [body_substUser] at hi
    rw [size_insts_substUser]
    exact hf.body_lt c i hi
  placed c i hi := by
    rw [body_substUser] at hi
    rw [inst_substUser]
    split
    · exact hf.placed c i hi
    · exact hf.placed c i hi

theorem Coherent.substUsers (hf : f.Coherent) {s : Substitution}
    (hb : ∀ b < f.blocks.size, s.block b < f.blocks.size)
    (hv : ∀ v, f.Defines v → f.Defines (s.value v)) (us : List User) :
    (f.substUsers s us).Coherent := by
  induction us generalizing f with
  | nil => exact hf
  | cons u us ih =>
    have hsize := f.size_insts_substUser s u
    refine ih (hf.substUser hb hv u) (by rwa [size_blocks_substUser]) fun v hx => ?_
    exact (hv v (hx.mono hsize.le)).mono hsize.ge

/-- A value is replaced in every terminator. -/
theorem Coherent.term_replaceAllUses (hf : f.Coherent) (old new : Value) (b : BlockId) :
    (f.replaceAllUses old new).term b =
      (f.term b).map id (Substitution.single old new).value := by
  show (f.substUsers (.single old new) f.users).term b = _
  rw [term_substUsers _ _ (Substitution.single_idempotent _ _)]
  split
  · rfl
  · rename_i h
    rw [mem_users_terminator, hf.layout, Nat.not_lt] at h
    rw [Cfg.term_of_size_le h]
    rfl

/-- A value is replaced in every instruction of a block. -/
theorem Coherent.inst_replaceAllUses (hf : f.Coherent) (old new : Value) {b : BlockId} {i : InstId}
    (hi : i ∈ f.body b) : (f.replaceAllUses old new).inst i =
      (f.inst i).map id (Substitution.single old new).value := by
  show (f.substUsers (.single old new) f.users).inst i = _
  rw [inst_substUsers _ _ (Substitution.single_idempotent _ _),
    if_pos (hf.mem_users hi)]
  rfl

theorem Coherent.replaceUses (hf : f.Coherent) {old new : Value} (hn : f.Defines new)
    (us : List User) : (f.substUsers (.single old new) us).Coherent :=
  hf.substUsers (fun _ hb => hb) (fun _ hv => hn.single hv) us

end Func

end Lockstep
