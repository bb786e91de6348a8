import Lockstep.Proofs.Loop.Counted
import Lockstep.Proofs.Loop.MainCode
import Lockstep.Proofs.Loop.CopyCoherent
import Mathlib.Tactic.IntervalCases

/-!
# Splitting off a remainder

Splitting a counted loop takes three steps (`SplitSteps`, `Loop.exists_splitSteps`): the preheader
computes the bound of the main loop, the blocks of the loop get copies that are entered by a
preheader of their own, and the header makes one more test, which leads to that preheader when the
main loop is done. What becomes of blocks, entries of phis and terminators is put together from
there.
-/

namespace Lockstep

namespace CountedLoop

/-- The test that the main loop makes. -/
def mainTest (c : CountedLoop) (bound : InstId) : Instr :=
  plainInstr c.shape.header (.cmp c.stayOp) [.inst c.iv, .inst bound] .bool

end CountedLoop

open CountedLoop

/-! ## A copied instruction -/

theorem Copied.ofMap {f g : Func} {ρ : InstId → InstId} {i : InstId} {d : Instr}
    {β : BlockId → BlockId} (hd : f.inst i = d) {k : BlockId}
    (h : g.inst (ρ i) = { d.map β (·.rename ρ) with block := k }) : Copied f g ρ i where
  op code args e := by
    rw [hd] at e
    rw [h]
    show d.op.map β _ = _
    rw [e]
    rfl
  mask := by
    rw [h, hd]
    rfl

theorem Copied.ofEq {f g : Func} {i : InstId} (h : g.inst i = f.inst i) : Copied f g id i where
  op code args e := by
    rw [id, h, e]
    congr 1
    exact (List.map_id'' (fun v => Value.rename_id v) args).symm
  mask := by
    rw [id, h]
    cases (f.inst i).mask with
    | none => rfl
    | some v => exact congrArg some (Value.rename_id v).symm

/-! ## Operations at the end of a block -/

/-- The function `f'` is `f` with operations at the end of the block `p`, which is left in whatever
way. -/
structure Appends (f : Func) (p : BlockId) (ds : List Instr) (f' : Func) : Prop where
  params : f'.params = f.params
  size_insts : f'.insts.size = f.insts.size + ds.length
  size_blocks : f'.blocks.size = f.blocks.size
  inst : ∀ i < f.insts.size, f'.inst i = f.inst i
  new : ∀ (j : Nat) d, ds[j]? = some d → f'.inst (f.insts.size + j) = { d with block := p }
  body : ∀ b, f'.body b =
    f.body b ++ if b = p then List.range' f.insts.size ds.length else []

namespace Appends

variable {f f' : Func} {p b : BlockId} {ds : List Instr} {i : InstId}

theorem appendAll (hp : p < f.blocks.size) (ds : List Instr) :
    Appends f p ds (f.appendAll p ds) where
  params := Func.params_appendAll f p ds
  size_insts := Func.size_insts_appendAll f p ds
  size_blocks := Func.size_blocks_appendAll f p ds
  inst _ hi := Func.inst_appendAll_of_lt hi
  new _ _ hj := Func.inst_appendAll hj
  body b := by
    rw [Func.body_appendAll hp]
    by_cases e : p = b
    · rw [if_pos e, if_pos e.symm, e]
    · rw [if_neg e, if_neg fun e' => e e'.symm, List.append_nil]

theorem setTerm (h : Appends f p ds f') (b : BlockId) (t : Terminator) :
    Appends f p ds (f'.setTerm b t) where
  params := h.params
  size_insts := h.size_insts
  size_blocks := by rw [Func.size_blocks_setTerm, h.size_blocks]
  inst i hi := by rw [Func.inst_setTerm, h.inst i hi]
  new j d hj := by rw [Func.inst_setTerm, h.new j d hj]
  body b := by rw [Func.body_setTerm, h.body b]

theorem isPhi (h : Appends f p ds f') (hi : i < f.insts.size) : f'.isPhi i = f.isPhi i :=
  congrArg Instr.isPhi (h.inst i hi)

theorem incomingValue? (h : Appends f p ds f') (hi : i < f.insts.size) (q : BlockId) :
    f'.incomingValue? i q = f.incomingValue? i q := by
  unfold Func.incomingValue?
  rw [h.inst i hi]

/-- The new instructions of a block are no phis. -/
theorem isPhi_new (h : Appends f p ds f') (hds : ∀ d ∈ ds, d.isPhi = false)
    (hi : i ∈ if b = p then List.range' f.insts.size ds.length else []) : f'.isPhi i = false := by
  split at hi
  · obtain ⟨hge, hlt⟩ := List.mem_range'_1.mp hi
    obtain ⟨j, rfl⟩ := Nat.exists_eq_add_of_le hge
    have hj : j < ds.length := Nat.lt_of_add_lt_add_left hlt
    have hd := hds _ (List.getElem_mem hj)
    unfold Func.isPhi
    rw [h.new j _ (List.getElem?_eq_getElem hj)]
    exact hd
  · cases hi

theorem phis_eq (h : Appends f p ds f') (hf : ∀ i ∈ f.body b, i < f.insts.size)
    (hds : ∀ d ∈ ds, d.isPhi = false) : f'.phis b = f.phis b ∧ f'.nonPhis b = f.nonPhis b ++
      if b = p then List.range' f.insts.size ds.length else [] := by
  have e := phis_of_body_eq (f := f) (g := f') (ρ := id) (b := b) (c := b)
    (by rw [h.body b, List.map_id]) (fun i hi => h.isPhi (hf i hi)) fun i hi => h.isPhi_new hds hi
  rwa [List.map_id, List.map_id] at e

end Appends

theorem isPhi_mainBoundCode {c : CountedLoop} {p : BlockId} {ty startTy boundTy : Ty}
    {width : Int64} {k : InstId} :
    ∀ d ∈ c.mainBoundCode p ty startTy boundTy width k, d.isPhi = false := by
  intro d hd
  simp only [mainBoundCode, List.mem_cons, List.not_mem_nil, or_false] at hd
  rcases hd with rfl | rfl | rfl | rfl | rfl | rfl | rfl | rfl | rfl | rfl | rfl | rfl <;> rfl

/-- The instructions of the bound use start, bound, constants and each other, in their order. -/
theorem uses_mainBoundCode {c : CountedLoop} {p : BlockId} {ty startTy boundTy : Ty} {width : Int64}
    {k : InstId} {P : Value → Prop} {j : Nat} {d : Instr}
    (hd : (c.mainBoundCode p ty startTy boundTy width k)[j]? = some d) (hs : P c.start)
    (hb : P c.bound) (hconst : ∀ x, P (.const x)) (hnew : ∀ i < j, P (.inst (k + i))) :
    ∀ v ∈ d.uses, P v := by
  intro v hv
  have hlt : j < 12 := (List.getElem?_eq_some_iff.mp hd).1
  interval_cases j <;> cases hd <;>
    simp only [plainInstr, Instr.uses, Instr.inputs, Op.inputs, Option.toList_none, List.append_nil,
      List.mem_cons, List.not_mem_nil, or_false] at hv <;>
    rcases hv with rfl | rfl | rfl <;>
    first
    | exact hs
    | exact hb
    | exact hconst _
    | exact hnew _ (by decide)

theorem laid_of_ssa {f : Func} (hf : f.Ssa) : f.Laid where
  layout := hf.layout
  body_lt := hf.body_lt
  unique _ _ _ ha hb := hf.eq_of_mem_body ha hb
  nodup := hf.nodup

/-- A counted loop can be copied when its preheader computes the bound of the main loop. -/
theorem canCopy {f f1 : Func} {l : Loop} {c : CountedLoop} {ds : List Instr} (hf : f.Ssa)
    (hl : l ∈ (Analyses.ofFunc f).loops.loops) (h : l.IsCounted f c)
    (h1 : Appends f c.shape.preheader ds f1) (hlaid : f1.Laid)
    (hds : ∀ d ∈ ds, d.isPhi = false) : CanCopy f1 l c := by
  obtain ⟨hpre, hrpre, -⟩ := h.singleExit.preheader_mem hf.toClosed hl
  obtain ⟨-, -, hxt, hexit⟩ := h.singleExit.exiting_mem hf.toClosed hl
  have hheader : c.shape.header ∈ l.blocks := by
    rw [h.singleExit.header]
    exact LoopForest.header_mem hl
  refine ⟨hlaid, LoopForest.nodup_blocks hl, fun b hb => ?_, hheader, ?_, hpre, ?_, hexit,
    fun i hi => ?_⟩
  · rw [h1.size_blocks]
    exact (LoopForest.reachable_of_mem hf.toClosed hl hb).lt hf.toClosed
  · rw [h1.size_blocks]
    exact hrpre.lt hf.toClosed
  · rw [h1.size_blocks]
    exact hf.target_lt _ _ hxt
  · have hne : c.shape.header ≠ c.shape.preheader := fun e => hpre (e ▸ hheader)
    rw [(h1.phis_eq (hf.body_lt _) hds).2, if_neg hne, List.append_nil] at hi
    rw [h1.isPhi (hf.body_lt _ _ (Func.mem_body_of_mem_nonPhis hi))]
    exact hf.phis_first _ _ hi

/-! ## The steps of splitting -/

/-- The steps from `f` to `g'`: the preheader computes the bound of the main loop by `ds`, the loop
is copied, and the header makes the test `t`. -/
structure SplitSteps (f : Func) (l : Loop) (c : CountedLoop) (ds : List Instr) (t : Instr)
    (ρ : InstId → InstId) (β : BlockId → BlockId) (pre : BlockId) (f1 g g' : Func) : Prop where
  ssa : f.Ssa
  mem : l ∈ (Analyses.ofFunc f).loops.loops
  counted : l.IsCounted f c
  plain : ∀ d ∈ ds, d.isPhi = false
  plain_test : t.isPhi = false
  bound : Appends f c.shape.preheader ds f1
  term_bound : ∀ b, f1.term b = f.term b
  added : AddedRemainder f1 l c ρ β pre g
  laid : g'.Laid
  coherent : g'.Coherent
  test : Appends g l.header [t] g'
  term_test : ∀ b, g'.term b = if b = l.header then
    .brIf (.inst g.insts.size) c.shape.continueTarget pre else g.term b

namespace SplitSteps

variable {f f1 g g' : Func} {l : Loop} {c : CountedLoop} {ds : List Instr} {t : Instr}
  {ρ : InstId → InstId} {β : BlockId → BlockId} {pre b q : BlockId} {i phi : InstId} {v : Value}

section

variable (S : SplitSteps f l c ds t ρ β pre f1 g g')

include S

theorem header : c.shape.header = l.header :=
  S.counted.singleExit.header

theorem lt_of_mem (hb : b ∈ l.blocks) : b < f.blocks.size :=
  (LoopForest.reachable_of_mem S.ssa.toClosed S.mem hb).lt S.ssa.toClosed

theorem preheader_mem : c.shape.preheader ∉ l.blocks ∧ f.Reachable c.shape.preheader ∧
    l.header ∈ (f.term c.shape.preheader).targets :=
  S.counted.singleExit.preheader_mem S.ssa.toClosed S.mem

theorem preheader_not_mem : c.shape.preheader ∉ l.blocks := S.preheader_mem.1

theorem exit_not_mem : c.shape.exit ∉ l.blocks :=
  (S.counted.singleExit.exiting_mem S.ssa.toClosed S.mem).2.2.2

/-! ### Names -/

theorem pre_eq : pre = f.blocks.size := S.added.pre_eq.trans S.bound.size_blocks

theorem lt_copy (hb : b ∈ l.blocks) : f.blocks.size < β b := by
  rw [← S.bound.size_blocks]
  exact S.added.block_fresh b hb

theorem copy_ne (hq : q ∈ l.blocks) (hb : b < f.blocks.size) : β q ≠ b := fun e =>
  Nat.lt_asymm hb (e ▸ S.lt_copy hq)

theorem copy_injective (hq : q < f.blocks.size) (hb : b < f.blocks.size) (e : β q = β b) :
    q = b := by
  rw [← S.bound.size_blocks] at hq hb
  exact S.added.block_injective q hq.le b hb.le e

theorem copy_of_not_mem (hb : b ∉ l.blocks) : β b = b := S.added.block_out b hb

theorem header_mem : l.header ∈ l.blocks := LoopForest.header_mem S.mem

theorem header_lt : l.header < f.blocks.size := S.lt_of_mem S.header_mem

theorem header_ne_pre : l.header ≠ pre := fun e =>
  absurd (e.trans S.pre_eq) (Nat.ne_of_lt S.header_lt)

theorem preheader_lt : c.shape.preheader < f.blocks.size := S.preheader_mem.2.1.lt S.ssa.toClosed

theorem size_le : f.insts.size + ds.length ≤ g.insts.size :=
  S.bound.size_insts ▸ S.added.size_insts

theorem lt_size (hi : i < f.insts.size) : i < g.insts.size :=
  Nat.lt_of_lt_of_le hi (Nat.le_trans (Nat.le_add_right _ _) S.size_le)

theorem body_bound (hb : b ∈ l.blocks) : f1.body b = f.body b := by
  have hne : b ≠ c.shape.preheader := fun e => S.preheader_not_mem (e ▸ hb)
  rw [S.bound.body, if_neg hne, List.append_nil]

theorem phis_bound (b : BlockId) : f1.phis b = f.phis b :=
  (S.bound.phis_eq (S.ssa.body_lt b) S.plain).1

theorem rename_out (hi : ∀ b ∈ l.blocks, i ∉ f.body b) : ρ i = i :=
  S.added.rename_out i fun b hb => by rw [S.body_bound hb]; exact hi b hb

/-- Instructions outside the loop keep their names. -/
theorem rename_of_mem (hb : b ∉ l.blocks) (hi : i ∈ f.body b) : ρ i = i :=
  S.rename_out fun _ hd hid => hb (S.ssa.eq_of_mem_body hid hi ▸ hd)

/-- The copy of an instruction is new. -/
theorem fresh (hb : b ∈ l.blocks) (hi : i ∈ f.body b) :
    f.insts.size + ds.length ≤ ρ i ∧ ρ i < g.insts.size := by
  rw [← S.body_bound hb] at hi
  exact ⟨S.bound.size_insts ▸ S.added.fresh b hb i hi, S.added.inst_lt b hb i hi⟩

/-- An instruction keeps its name, or its copy comes after the bound of the main loop. -/
theorem rename_cases (hi : i < f.insts.size) :
    ρ i < f.insts.size ∨ f.insts.size + ds.length ≤ ρ i ∧ ρ i < g.insts.size := by
  by_cases hin : ∃ b ∈ l.blocks, i ∈ f.body b
  · obtain ⟨b, hb, hib⟩ := hin
    exact .inr (S.fresh hb hib)
  · have e := S.rename_out fun b hb hib => hin ⟨b, hb, hib⟩
    exact .inl (e.symm ▸ hi)

theorem rename_lt (hi : i < f.insts.size) : ρ i < g.insts.size :=
  (S.rename_cases hi).elim S.lt_size And.right

theorem copied : Renaming f g' ρ where
  params := by rw [S.test.params, S.added.params, S.bound.params]
  lt i hi := by
    rw [S.test.size_insts]
    exact Nat.lt_add_right _ (S.rename_lt hi)
  injective i hi j hj e := by
    have hle : f.insts.size ≤ f1.insts.size := by
      rw [S.bound.size_insts]
      exact Nat.le_add_right _ _
    exact S.added.injective i (Nat.lt_of_lt_of_le hi hle) j (Nat.lt_of_lt_of_le hj hle) e
  ty i hi := by
    rw [S.test.inst _ (S.rename_lt hi)]
    by_cases hin : ∃ b ∈ l.blocks, i ∈ f.body b
    · obtain ⟨b, hb, hib⟩ := hin
      rw [S.added.ty_copy b hb i (by rw [S.body_bound hb]; exact hib), S.bound.inst i hi]
    · rw [S.rename_out fun b hb hib => hin ⟨b, hb, hib⟩, S.added.ty_old i ?_, S.bound.inst i hi]
      rw [S.bound.size_insts]
      exact Nat.lt_add_right _ hi

theorem kept : Renaming f g' id where
  params := S.copied.params
  lt i hi := by
    rw [S.test.size_insts]
    exact Nat.lt_add_right _ (S.lt_size hi)
  injective _ _ _ _ e := e
  ty i hi := by
    rw [id, S.test.inst _ (S.lt_size hi), S.added.ty_old i ?_, S.bound.inst i hi]
    rw [S.bound.size_insts]
    exact Nat.lt_add_right _ hi

/-! ### Blocks -/

theorem isPhi_old (hi : i < f.insts.size) : g'.isPhi i = f.isPhi i := by
  rw [S.test.isPhi (S.lt_size hi), S.added.isPhi_old i ?_, S.bound.isPhi hi]
  rw [S.bound.size_insts]
  exact Nat.lt_add_right _ hi

theorem not_mem_phis (hi : i ∈ f.nonPhis b) : i ∉ f.phis b := by
  intro hp
  have h1 := S.ssa.phis_first b i hi
  rw [Func.isPhi_of_mem_phis hp] at h1
  cases h1

/-- The operations of the preheader are no phis. -/
theorem isPhi_bound
    (hi : i ∈ if b = c.shape.preheader then List.range' f.insts.size ds.length else []) :
    g'.isPhi i = false := by
  have hlt : i < f.insts.size + ds.length := by
    split at hi
    · exact (List.mem_range'_1.mp hi).2
    · cases hi
  rw [S.test.isPhi (Nat.lt_of_lt_of_le hlt S.size_le),
    S.added.isPhi_old i (S.bound.size_insts ▸ hlt), S.bound.isPhi_new S.plain hi]

/-- The test of the main loop is no phi. -/
theorem isPhi_test (hi : i ∈ if b = l.header then [g.insts.size] else []) : g'.isPhi i = false :=
  S.test.isPhi_new (b := b) (fun _ hd => List.mem_singleton.mp hd ▸ S.plain_test) hi

/-- Blocks outside the loop, which keep the names of their instructions. -/
theorem body_outside (hlt : b < f.blocks.size) (hb : b ∉ l.blocks) : g'.body b = f.body b ++
    if b = c.shape.preheader then List.range' f.insts.size ds.length else [] := by
  have hne : b ≠ l.header := fun e => hb (e ▸ S.header_mem)
  rw [S.test.body, if_neg hne, List.append_nil, S.added.body_old b (S.bound.size_blocks ▸ hlt),
    S.bound.body]

theorem inst_outside (hlt : b < f.blocks.size) (hb : b ∉ l.blocks) (hi : i ∈ f.body b)
    (hphi : b = c.shape.exit → i ∉ f.phis b) : g'.inst i = (f.inst i).map id (·.rename ρ) := by
  have hlt' := S.ssa.body_lt b i hi
  rw [S.test.inst i (S.lt_size hlt'), S.added.inst_out b (S.bound.size_blocks ▸ hlt) hb i ?_ ?_,
    S.bound.inst i hlt']
  · rw [S.bound.body]
    exact List.mem_append_left _ hi
  · rw [S.phis_bound]
    exact hphi

theorem outside (hlt : b < f.blocks.size) (hb : b ∉ l.blocks) :
    CopiedBlock f g' ρ b b
      (if b = c.shape.preheader then List.range' f.insts.size ds.length else []) := by
  have hsame : ∀ i ∈ f.body b, ρ i = i := fun i hi => S.rename_of_mem hb hi
  have hbody : g'.body b = (f.body b).map ρ ++
      if b = c.shape.preheader then List.range' f.insts.size ds.length else [] := by
    rw [S.body_outside hlt hb, List.map_congr_left hsame, List.map_id']
  obtain ⟨h1, h2⟩ := phis_of_body_eq hbody
    (fun i hi => by rw [hsame i hi, S.isPhi_old (S.ssa.body_lt b i hi)])
    fun i hi => S.isPhi_bound (b := b) hi
  refine ⟨h1, h2, fun i hi => ?_⟩
  have hi' := Func.mem_body_of_mem_nonPhis hi
  have hg : g'.inst (ρ i) = (f.inst i).map id (·.rename ρ) := by
    rw [hsame i hi', S.inst_outside hlt hb hi' fun _ => S.not_mem_phis hi]
  exact Copied.ofMap rfl hg

/-- Blocks of the loop. -/
theorem body_inside (hb : b ∈ l.blocks) :
    g'.body b = f.body b ++ if b = l.header then [g.insts.size] else [] := by
  rw [S.test.body, S.added.body_old b (S.bound.size_blocks ▸ S.lt_of_mem hb), S.body_bound hb]
  rfl

theorem inst_inside (hb : b ∈ l.blocks) (hi : i ∈ f.body b) : g'.inst i = f.inst i := by
  have hlt := S.ssa.body_lt b i hi
  rw [S.test.inst i (S.lt_size hlt), S.added.inst_in b hb i (by rw [S.body_bound hb]; exact hi),
    S.bound.inst i hlt]

theorem inside (hb : b ∈ l.blocks) :
    CopiedBlock f g' id b b (if b = l.header then [g.insts.size] else []) := by
  have hbody : g'.body b = (f.body b).map id ++ if b = l.header then [g.insts.size] else [] := by
    rw [S.body_inside hb, List.map_id]
  obtain ⟨h1, h2⟩ := phis_of_body_eq hbody
    (fun i hi => S.isPhi_old (S.ssa.body_lt b i hi)) fun i hi => S.isPhi_test (b := b) hi
  exact ⟨h1, h2, fun i hi => Copied.ofEq (S.inst_inside hb (Func.mem_body_of_mem_nonPhis hi))⟩

/-- Copies of the blocks of the loop. -/
theorem body_copies (hb : b ∈ l.blocks) : g'.body (β b) = (f.body b).map ρ := by
  have hne : β b ≠ l.header := S.copy_ne hb S.header_lt
  rw [S.test.body, if_neg hne, List.append_nil, S.added.body_copy b hb, S.body_bound hb]

theorem inst_copies (hb : b ∈ l.blocks) (hi : i ∈ f.body b)
    (hphi : b = c.shape.header → i ∉ f.phis b) :
    ∃ k, g'.inst (ρ i) = { (f.inst i).map β (·.rename ρ) with block := k } := by
  obtain ⟨k, hk⟩ := S.added.inst_copy b hb i (by rw [S.body_bound hb]; exact hi) fun e => by
    rw [S.phis_bound]
    exact hphi e
  rw [← S.test.inst _ (S.fresh hb hi).2, S.bound.inst i (S.ssa.body_lt b i hi)] at hk
  exact ⟨k, hk⟩

theorem isPhi_copy (hb : b ∈ l.blocks) (hi : i ∈ f.body b) : g'.isPhi (ρ i) = f.isPhi i := by
  rw [S.test.isPhi (S.fresh hb hi).2, S.added.isPhi_copy b hb i (by rw [S.body_bound hb]; exact hi),
    S.bound.isPhi (S.ssa.body_lt b i hi)]

theorem copies (hb : b ∈ l.blocks) : CopiedBlock f g' ρ b (β b) [] := by
  have hbody : g'.body (β b) = (f.body b).map ρ ++ [] := by
    rw [S.body_copies hb, List.append_nil]
  obtain ⟨h1, h2⟩ := phis_of_body_eq hbody (fun i hi => S.isPhi_copy hb hi)
    fun i hi => absurd hi List.not_mem_nil
  refine ⟨h1, h2, fun i hi => ?_⟩
  obtain ⟨k, hk⟩ := S.inst_copies hb (Func.mem_body_of_mem_nonPhis hi) fun _ => S.not_mem_phis hi
  exact Copied.ofMap rfl hk

/-! ### Entries of phis -/

/-- The predecessors that a phi names are blocks of the function. -/
theorem lt_of_mem_incoming (hr : f.Reachable b) (hphi : phi ∈ f.phis b)
    (hq : q ∈ (f.inst phi).incoming.map Prod.fst) : q < f.blocks.size :=
  (S.ssa.entries b hr phi hphi).lt q hq

theorem incoming_inside (hb : b ∈ l.blocks) (hphi : phi ∈ f.phis b) (q : BlockId) :
    g'.incomingValue? phi q = f.incomingValue? phi q := by
  unfold Func.incomingValue?
  rw [S.inst_inside hb (Func.mem_body_of_mem_phis hphi)]

/-- The phis of the exit name the copied header instead of the header. -/
theorem entries_exit (hphi : phi ∈ f.phis c.shape.exit) : (g'.inst phi).incoming =
    (Func.renameEntry c.shape.header (β c.shape.header) (f.inst phi).incoming).map
      fun e => (id e.1, e.2.rename ρ) := by
  have hplt := S.ssa.body_lt _ phi (Func.mem_body_of_mem_phis hphi)
  rw [S.test.inst phi (S.lt_size hplt), S.added.inst_exit phi (by rw [S.phis_bound]; exact hphi),
    S.bound.inst phi hplt, Func.incoming_map,
    Func.incoming_mapIncoming (Func.isPhi_of_mem_phis hphi)]

theorem entries_outside (hlt : b < f.blocks.size) (hb : b ∉ l.blocks) (he : b ≠ c.shape.exit)
    (hphi : phi ∈ f.phis b) :
    (g'.inst phi).incoming = (f.inst phi).incoming.map fun e => (id e.1, e.2.rename ρ) := by
  rw [S.inst_outside hlt hb (Func.mem_body_of_mem_phis hphi) fun e => absurd e he,
    Func.incoming_map]

/-- A phi of the copy names the copies of the predecessors. -/
theorem entries_copy (hb : b ∈ l.blocks) (hh : b ≠ c.shape.header) (hphi : phi ∈ f.phis b) :
    (g'.inst (ρ phi)).incoming = (f.inst phi).incoming.map fun e => (β e.1, e.2.rename ρ) := by
  obtain ⟨k, hk⟩ := S.inst_copies hb (Func.mem_body_of_mem_phis hphi) fun e => absurd e hh
  rw [hk]
  exact Func.incoming_map (f.inst phi) β (·.rename ρ)

/-- A phi of the copied header comes from the new preheader with the value of the phi of the
header. -/
theorem entries_header
    (hphi : phi ∈ f.phis c.shape.header) : (g'.inst (ρ phi)).incoming =
      Func.setEntry (Func.renameEntry c.shape.preheader pre
        ((f.inst phi).incoming.map fun e => (β e.1, e.2.rename ρ))) pre (.inst phi) := by
  have hi := Func.mem_body_of_mem_phis hphi
  have hheader : c.shape.header ∈ l.blocks := S.header ▸ S.header_mem
  obtain ⟨k, hk⟩ := S.added.inst_header phi (by rw [S.phis_bound]; exact hphi)
  rw [← S.test.inst _ (S.fresh hheader hi).2, S.bound.inst phi (S.ssa.body_lt _ phi hi)] at hk
  have hphi' : ({ (f.inst phi).map β (·.rename ρ) with block := k } : Instr).isPhi = true :=
    (Instr.isPhi_map _ _ (f.inst phi)).trans (Func.isPhi_of_mem_phis hphi)
  rw [hk, Func.incoming_mapIncoming (by rw [Func.isPhi_mapIncoming]; exact hphi'),
    Func.incoming_mapIncoming hphi']
  exact congrArg (fun x => Func.setEntry (Func.renameEntry _ _ x) _ _)
    (Func.incoming_map (f.inst phi) β (·.rename ρ))

/-- The name of the copied header is none of a predecessor. -/
theorem copy_not_mem_incoming (hr : f.Reachable b) (hphi : phi ∈ f.phis b) (hq : q ∈ l.blocks) :
    β q ∉ (f.inst phi).incoming.map Prod.fst :=
  fun hm => S.copy_ne hq (S.lt_of_mem_incoming hr hphi hm) rfl

/-- A phi of the exit takes from the copy of the header what it took from the header, and other phis
outside the loop take the same as before. -/
theorem incoming_outside (hlt : b < f.blocks.size) (hb : b ∉ l.blocks) (hphi : phi ∈ f.phis b)
    (hr : f.Reachable q) (hq : b ∈ (f.term q).targets) (hv : f.incomingValue? phi q = some v) :
    g'.incomingValue? (ρ phi) (β q) = some (v.rename ρ) := by
  rw [S.rename_of_mem hb (Func.mem_body_of_mem_phis hphi)]
  unfold Func.incomingValue? at hv ⊢
  by_cases he : b = c.shape.exit
  · rw [S.entries_exit (he ▸ hphi), Func.lookup_map_values]
    have hnew := S.copy_not_mem_incoming (hr.step hq) hphi (S.header ▸ S.header_mem)
    have hlook : (Func.renameEntry c.shape.header (β c.shape.header) (f.inst phi).incoming).lookup
        (β q) = some v := by
      by_cases hqh : q = c.shape.header
      · rw [hqh] at hv ⊢
        rw [Func.lookup_renameEntry hnew, hv]
      · -- the loop is left from the header only
        have hql : q ∉ l.blocks := by
          intro hql
          have := (S.counted.singleExit.eq_of_leaving S.ssa.toClosed S.mem hr hql hb hq).1
          exact hqh (this.trans (S.counted.exiting.trans S.header.symm))
        rw [S.added.block_out q hql, Func.lookup_renameEntry_of_ne hqh ?_, hv]
        rintro rfl
        have hmem := Func.mem_incoming (show f.incomingValue? phi _ = _ from hv)
        exact hnew (List.mem_map_of_mem hmem)
    rw [hlook]
    rfl
  · have hql : q ∉ l.blocks := fun hql =>
      he (S.counted.singleExit.eq_of_leaving S.ssa.toClosed S.mem hr hql hb hq).2
    rw [S.entries_outside hlt hb he hphi, S.added.block_out q hql, Func.lookup_map_values, hv]
    rfl

/-- A phi of the copy takes from a copy what the phi takes from the block. -/
theorem incoming_copy (hb : b ∈ l.blocks) (hphi : phi ∈ f.phis b) (hq : q ∈ l.blocks)
    (hv : f.incomingValue? phi q = some v) :
    g'.incomingValue? (ρ phi) (β q) = some (v.rename ρ) := by
  have hr := LoopForest.reachable_of_mem S.ssa.toClosed S.mem hb
  unfold Func.incomingValue? at hv ⊢
  have hmap : ((f.inst phi).incoming.map fun e => (β e.1, e.2.rename ρ)).lookup (β q) =
      some (v.rename ρ) := by
    rw [Func.lookup_map_entries fun x hx e => ?_, hv]
    · rfl
    · exact S.copy_injective (S.lt_of_mem hq) (S.lt_of_mem_incoming hr hphi hx) e
  have hne : β q ≠ pre := by
    rw [S.pre_eq]
    exact Nat.ne_of_gt (S.lt_copy hq)
  by_cases hh : b = c.shape.header
  · rw [S.entries_header (hh ▸ hphi), Func.lookup_setEntry, if_neg ?_,
      Func.lookup_renameEntry_of_ne ?_ ?_, hmap]
    · exact S.copy_ne hq S.preheader_lt
    · exact hne
    · exact hne
  · rw [S.entries_copy hb hh hphi, hmap]

/-- The phis of the copied header start with the values that the phis of the header have. -/
theorem incoming_pre (hphi : phi ∈ f.phis l.header) :
    g'.incomingValue? (ρ phi) pre = some (.inst phi) := by
  unfold Func.incomingValue?
  rw [S.entries_header (S.header ▸ hphi), Func.lookup_setEntry, if_pos rfl]

/-! ### New instructions -/

/-- The preheader computes what it should, if this does not depend on the loop. -/
theorem inst_bound {j : Nat} {d : Instr} (hj : ds[j]? = some d) (hd : d.map id (·.rename ρ) = d) :
    g'.inst (f.insts.size + j) = { d with block := c.shape.preheader } := by
  have hlt : j < ds.length := (List.getElem?_eq_some_iff.mp hj).1
  have hmem : f.insts.size + j ∈ f1.body c.shape.preheader := by
    rw [S.bound.body, if_pos rfl]
    exact List.mem_append_right _ (List.mem_range'_1.mpr ⟨Nat.le_add_right _ _,
      Nat.add_lt_add_left hlt _⟩)
  rw [S.test.inst _ (Nat.lt_of_lt_of_le (Nat.add_lt_add_left hlt _) S.size_le),
    S.added.inst_out _ (S.bound.size_blocks ▸ S.preheader_lt) S.preheader_not_mem _ hmem
      fun _ hp => ?_,
    S.bound.new j d hj]
  · show { d.map id (·.rename ρ) with block := c.shape.preheader } = _
    rw [hd]
  · rw [S.phis_bound] at hp
    exact Nat.not_lt.mpr (Nat.le_add_right _ _)
      (S.ssa.body_lt _ _ (Func.mem_body_of_mem_phis hp))

/-- What the preheader computes does not depend on the loop. -/
theorem rename_start : c.start.rename ρ = c.start ∧ c.bound.rename ρ = c.bound := by
  have hf := S.ssa
  have hout : ∀ v : Value, v.Within (f.DefinedIn (· ∉ l.blocks)) → v.rename ρ = v := by
    intro v hv
    cases v with
    | inst i =>
      obtain ⟨b, hb, hi⟩ := hv
      exact congrArg Value.inst (S.rename_of_mem hb hi)
    | _ => rfl
  obtain ⟨hpre, hrpre, -⟩ := S.preheader_mem
  have hp := (S.counted.path_preheader hf S.mem hrpre.path).mono fun _ => And.right
  exact ⟨hout _ (S.counted.within_start hf S.mem hp hpre),
    hout _ (S.counted.within_bound hf S.mem (LoopForest.path_header hf.toClosed S.mem))⟩

theorem inst_test : g'.inst g.insts.size = { t with block := l.header } :=
  S.test.new 0 t rfl

theorem body_pre : g'.body pre = [] := by
  have hne : pre ≠ l.header := S.header_ne_pre.symm
  rw [S.test.body, if_neg hne, S.added.body_pre]
  rfl

theorem pre_empty : g'.phis pre = [] ∧ g'.nonPhis pre = [] := by
  unfold Func.phis Func.nonPhis
  rw [S.body_pre]
  exact ⟨rfl, rfl⟩

/-! ### Terminators -/

theorem term_outside (hlt : b < f.blocks.size) (hb : b ∉ l.blocks) :
    g'.term b = (f.term b).map id (·.rename ρ) := by
  have hne : b ≠ l.header := fun e => hb (e ▸ S.header_mem)
  rw [S.term_test, if_neg hne, S.added.term_out b (S.bound.size_blocks ▸ hlt) hb, S.term_bound]

theorem term_inside (hb : b ∈ l.blocks) (hne : b ≠ l.header) : g'.term b = f.term b := by
  rw [S.term_test, if_neg hne, S.added.term_in b hb, S.term_bound]

theorem term_header : g'.term l.header = .brIf (.inst g.insts.size) c.shape.continueTarget pre := by
  rw [S.term_test, if_pos rfl]

theorem term_copy (hb : b ∈ l.blocks) : g'.term (β b) = (f.term b).map β (·.rename ρ) := by
  have hne : β b ≠ l.header := S.copy_ne hb S.header_lt
  rw [S.term_test, if_neg hne, S.added.term_copy b hb, S.term_bound]

theorem term_pre : g'.term pre = .br (β l.header) := by
  have hne : pre ≠ l.header := S.header_ne_pre.symm
  rw [S.term_test, if_neg hne, S.added.term_pre, S.header]

end

/-- The code in the preheader. -/
theorem inst_mainBound {ty startTy boundTy : Ty} {width : Int64} {j : Nat} {d : Instr}
    (S : SplitSteps f l c (c.mainBoundCode c.shape.preheader ty startTy boundTy width f.insts.size)
      t ρ β pre f1 g g')
    (hd : (c.mainBoundCode c.shape.preheader ty startTy boundTy width f.insts.size)[j]? = some d) :
    g'.inst (f.insts.size + j) = d := by
  obtain ⟨hs, hb⟩ := S.rename_start
  have hnew : ∀ k, (Value.inst (f.insts.size + k)).rename ρ = .inst (f.insts.size + k) := fun k =>
    congrArg Value.inst <| S.rename_out fun b _ hi =>
      Nat.not_lt.mpr (Nat.le_add_right _ _) (S.ssa.body_lt b _ hi)
  have hconst : ∀ ty x, (Value.ofInt ty x).rename ρ = .ofInt ty x := fun _ _ => rfl
  have hmem := List.mem_of_getElem? hd
  have hkeep : d.map id (·.rename ρ) = d ∧ { d with block := c.shape.preheader } = d := by
    simp only [mainBoundCode, List.mem_cons, List.not_mem_nil, or_false] at hmem
    rcases hmem with rfl | rfl | rfl | rfl | rfl | rfl | rfl | rfl | rfl | rfl | rfl | rfl <;>
      refine ⟨?_, rfl⟩ <;>
      simp only [plainInstr, Instr.map, Op.map, List.map_cons, List.map_nil, Option.map_none, hs, hb,
        hnew, hconst]
  exact (S.inst_bound hd hkeep.1).trans hkeep.2

end SplitSteps

/-! ## Splitting -/

/-- The header with the test of the main loop. -/
def withMainTest (c : CountedLoop) (bound : InstId) (pre : BlockId) (g : Func) : Func :=
  (g.appendAll c.shape.header [c.mainTest bound]).setTerm c.shape.header
    (.brIf (.inst g.insts.size) c.shape.continueTarget pre)

theorem buildMainTest_eq (c : CountedLoop) (k : InstId) (pre : BlockId) (g : Func) :
    (g.buildAt (.blockEnd c.shape.header) do
      let stay ← Build.cmp c.stayOp (.inst c.iv) (.inst k)
      Build.brIf stay c.shape.continueTarget pre).2 = withMainTest c k pre g := rfl

theorem term_withMainTest {c : CountedLoop} {g : Func} (h : c.shape.header < g.blocks.size)
    (k : InstId) (pre b : BlockId) : (withMainTest c k pre g).term b =
      if b = c.shape.header then .brIf (.inst g.insts.size) c.shape.continueTarget pre
      else g.term b := by
  unfold withMainTest
  by_cases e : b = c.shape.header
  · rw [if_pos e, e, Func.term_setTerm, if_pos ⟨rfl, by rwa [Func.size_blocks_appendAll]⟩]
  · rw [if_neg e, Func.term_setTerm_of_ne _ _ fun e' => e e'.symm, Func.term_appendAll]

theorem coherent_withMainTest {c : CountedLoop} {g : Func} {k : InstId} {pre : BlockId}
    (hg : g.Coherent) (hiv : c.iv < g.insts.size) (hk : k < g.insts.size)
    (hcont : c.shape.continueTarget < g.blocks.size) (hpre : pre < g.blocks.size) :
    (withMainTest c k pre g).Coherent := by
  refine Func.Coherent.setTerm (hg.insertAt fun v hv => ?_) (fun t ht => ?_) fun v hv => ?_
  · simp only [mainTest, plainInstr, Instr.inputs, Op.inputs, List.mem_cons, List.not_mem_nil,
      or_false] at hv
    rcases hv with rfl | rfl
    · exact hiv
    · exact hk
  · rw [Func.size_blocks_insertAt]
    rcases List.mem_pair.mp ht with rfl | rfl
    · exact hcont
    · exact hpre
  · obtain rfl := List.mem_singleton.mp hv
    show g.insts.size < (g.insertAt _ _ _).2.insts.size
    rw [Func.size_insts_insertAt]
    exact Nat.lt_succ_self _

variable {f : Func} {l : Loop} {c : CountedLoop} {w : Nat}

theorem Loop.counted_of_splittable {a : Analyses} (h : l.splittable f a = .ok c) :
    l.counted f a = .ok c ∧ ∃ w, (f.inst c.iv).ty = .int w := by
  unfold Loop.splittable at h
  obtain ⟨c', hc, h⟩ := exists_of_bind_eq_ok h
  split at h
  · rename_i w hty
    cases h
    exact ⟨hc, w, hty⟩
  · cases h

theorem Loop.splittable_eq_ok (h : l.splittable f (.ofFunc f) = .ok c) :
    l.IsCounted f c ∧ ∃ w, (f.inst c.iv).ty = .int w :=
  (counted_of_splittable h).imp_left isCounted_of_eq_ok

/-- The bound of the main loop is computed from values that exist. -/
theorem exists_buildMainBound (hf : f.Ssa) (hl : l ∈ (Analyses.ofFunc f).loops.loops)
    (h : l.IsCounted f c) (ty : Ty) (width : Int64) : ∃ made,
      f.buildAt (.blockEnd c.shape.preheader) (c.buildMainBound ty width) =
        ((.inst (f.insts.size + 11), made), f.appendAll c.shape.preheader
          (c.mainBoundCode c.shape.preheader ty (f.typeOf c.start) (f.typeOf c.bound) width
            f.insts.size)) :=
  buildMainBound_eq c ty width (hf.defines_incoming (Func.mem_incoming h.start))
    (h.defines_bound hf hl)

/-- A loop that is split needs no remainder, or goes through the steps. -/
theorem Loop.exists_splitSteps {uniform : List Value} {width tripAlignment : Nat}
    {sp : Loop.Split} (hf : f.Ssa) (hl : l ∈ (Analyses.ofFunc f).loops.loops)
    (h : l.split? f (.ofFunc f) uniform width tripAlignment = some sp) :
    (sp.func = f ∧ sp.loop.remainder = none) ∨ ∃ c w ρ β rem f1 g,
      l.splittable f (.ofFunc f) = .ok c ∧ (f.inst c.iv).ty = .int w ∧ widthFits width w = true ∧
      SplitSteps f l c
        (c.mainBoundCode c.shape.preheader (.int w) (f.typeOf c.start) (f.typeOf c.bound)
          (Int64.ofNat width) f.insts.size)
        (c.mainTest (f.insts.size + 11)) ρ β rem.preheader f1 g sp.func ∧
      sp.loop =
        { header := l.header, mainBound := .inst (f.insts.size + 11), remainder := some rem } ∧
      rem.header = β l.header ∧ rem.blocks = l.blocks.map β := by
  unfold Loop.split? at h
  cases hs : l.splittable f (.ofFunc f) with
  | error e =>
    rw [hs] at h
    cases h
  | ok c =>
    rw [hs] at h
    obtain ⟨hcounted, w, hty⟩ := splittable_eq_ok hs
    dsimp only at h
    rw [hty] at h
    by_cases hfits : widthFits width (Ty.int w).bitWidth = true
    swap
    · rw [Bool.not_eq_true] at hfits
      rw [hfits] at h
      cases h
    rw [hfits, if_neg (by decide)] at h
    by_cases halign : max tripAlignment 1 % width = 0
    · rw [if_pos halign] at h
      cases h
      exact .inl ⟨rfl, rfl⟩
    rw [if_neg halign] at h
    have hplt := (hcounted.singleExit.preheader_mem hf.toClosed hl).2.1.lt hf.toClosed
    obtain ⟨made, hbuild⟩ := exists_buildMainBound hf hl hcounted (.int w) (Int64.ofNat width)
    rw [hbuild] at h
    obtain ⟨f1, hf1⟩ : ∃ f1, f1 = f.appendAll c.shape.preheader
      (c.mainBoundCode c.shape.preheader (.int w) (f.typeOf c.start) (f.typeOf c.bound)
        (Int64.ofNat width) f.insts.size) := ⟨_, rfl⟩
    have happ : Appends f c.shape.preheader (c.mainBoundCode c.shape.preheader (.int w)
      (f.typeOf c.start) (f.typeOf c.bound) (Int64.ofNat width) f.insts.size) f1 :=
        hf1 ▸ Appends.appendAll hplt _
    have hcan := canCopy hf hl hcounted happ (hf1 ▸ (laid_of_ssa hf).appendAll hplt _)
      isPhi_mainBoundCode
    have hterm : ∀ b, f1.term b = f.term b := fun b => hf1 ▸ Func.term_appendAll _ _ _ _
    have hcoh : f1.Coherent := hf1 ▸ hf.toCoherent.appendAll fun j d hd v hv =>
      uses_mainBoundCode (P := (Value.Within (· < f.insts.size + j))) hd
        ((hf.defines_incoming (Func.mem_incoming hcounted.start)).within.mono fun _ hi =>
          Nat.lt_add_right j hi)
        ((hcounted.defines_bound hf hl).within.mono fun _ hi => Nat.lt_add_right j hi)
        (fun _ => trivial) (fun _ hi => Nat.add_lt_add_left hi _) v (List.mem_append_left _ hv)
    have hhlt : c.shape.header < f1.blocks.size := hcan.lt _ hcan.header
    obtain ⟨ρ, β, hadd, hheader, hblocks⟩ := addedRemainder hcan
    have hcohg := coherent_addRemainder hcoh hcan
    rw [← hf1] at h
    generalize c.addRemainder l f1 = r at h hadd hheader hblocks hcohg
    obtain ⟨rem, g⟩ := r
    obtain ⟨g', hg'⟩ : ∃ g', g' = withMainTest c (f.insts.size + 11) rem.preheader g := ⟨_, rfl⟩
    replace hhlt : c.shape.header < g.blocks.size := Nat.lt_trans hhlt hadd.size_blocks
    have htest : Appends g c.shape.header [c.mainTest (f.insts.size + 11)] g' :=
      hg' ▸ (Appends.appendAll hhlt _).setTerm _ _
    have hterm' := hg' ▸ term_withMainTest hhlt (f.insts.size + 11) rem.preheader
    dsimp only at h hheader hblocks hcohg
    have hlaid' : g'.Laid := hg' ▸ laid_of_refits (Func.refits_setTerm _ _ _)
      (hadd.laid.appendAll hhlt _)
    have hcont := hcounted.singleExit.continueTarget_mem hf.toClosed hl
      (hcounted.singleExit.exiting_nodup hf.toClosed hl)
    have hcoh' : g'.Coherent := hg' ▸ coherent_withMainTest hcohg (k := f.insts.size + 11)
      (Nat.lt_of_lt_of_le (hf.body_lt _ _ (Func.mem_body_of_mem_phis (hcounted.iv_mem hf hl)))
        (Nat.le_trans (happ.size_insts ▸ Nat.le_add_right _ _) hadd.size_insts))
      (Nat.lt_of_lt_of_le (happ.size_insts ▸ Nat.lt_succ_self _) hadd.size_insts)
      (Nat.lt_trans (happ.size_blocks ▸ hf.target_lt _ _ hcont.2.1) hadd.size_blocks)
      (hadd.pre_eq ▸ hadd.size_blocks)
    rw [buildMainTest_eq, ← hg'] at h
    cases h
    rw [hcounted.singleExit.header] at hheader htest hterm' ⊢
    exact .inr ⟨c, w, ρ, β, rem, f1, g, rfl, hty, hfits,
      { ssa := hf, mem := hl, counted := hcounted, plain := isPhi_mainBoundCode
        plain_test := rfl, bound := happ, term_bound := hterm, added := hadd
        laid := hlaid', coherent := hcoh', test := htest, term_test := hterm' }, rfl, hheader,
      hblocks⟩

end Lockstep
