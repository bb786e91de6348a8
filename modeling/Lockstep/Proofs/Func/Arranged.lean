import Lockstep.Proofs.Func.Placed
import Lockstep.Proofs.Func.WellFormed

/-!
# Arranged functions

A function is arranged if the layout lists every block once, entry first, if no instruction stands
twice or in a block that it does not name, and if every block starts with its phis. Each edit keeps
a function arranged, an insertion under the condition that it keeps phis first.

Where in a block something is inserted is told by what stands behind the phis (`Func.nonPhis`): an
instruction that is inserted there splits that list, and a new phi leaves it as it is.
-/

namespace Lockstep

namespace Func

variable {f g : Func}

/-! ## Phis first -/

/-- A block consists of phis, and of other instructions behind them. -/
structure PhisFirst (f : Func) (b : BlockId) (ps ns : List InstId) : Prop where
  body : f.body b = ps ++ ns
  isPhi : ∀ i ∈ ps, f.isPhi i = true
  notPhi : ∀ i ∈ ns, f.isPhi i = false

theorem PhisFirst.phis {b : BlockId} {ps ns : List InstId} (h : f.PhisFirst b ps ns) :
    f.phis b = ps := by
  unfold Func.phis
  rw [h.body, List.takeWhile_append_of_pos h.isPhi]
  cases ns with
  | nil => simp
  | cons i ns =>
    rw [List.takeWhile_cons_of_neg (Bool.not_eq_true _ ▸ h.notPhi i List.mem_cons_self),
      List.append_nil]

theorem PhisFirst.nonPhis {b : BlockId} {ps ns : List InstId} (h : f.PhisFirst b ps ns) :
    f.nonPhis b = ns := by
  unfold Func.nonPhis
  rw [h.body, List.dropWhile_append_of_pos h.isPhi]
  cases ns with
  | nil => rfl
  | cons i ns =>
    exact List.dropWhile_cons_of_neg (Bool.not_eq_true _ ▸ h.notPhi i List.mem_cons_self)

/-- The order that edits keep. -/
structure Arranged (f : Func) : Prop extends f.ListsOnce where
  entry_first : f.layout.head? = some f.entry
  mem_layout : ∀ b, b ∈ f.layout ↔ b < f.blocks.size
  phis_first : ∀ b, ∀ i ∈ f.nonPhis b, f.isPhi i = false

theorem Arranged.phisFirst (hf : f.Arranged) (b : BlockId) :
    f.PhisFirst b (f.phis b) (f.nonPhis b) where
  body := (phis_append_nonPhis f b).symm
  isPhi _ hi := isPhi_of_mem_phis hi
  notPhi := hf.phis_first b

theorem Arranged.nodup_blocks (hf : f.Arranged) : (f.blockIds.flatMap f.body).Nodup :=
  hf.nodup_flatMap List.nodup_range

theorem Arranged.mem_nonPhis (hf : f.Arranged) {b : BlockId} {i : InstId} :
    i ∈ f.nonPhis b ↔ i ∈ f.body b ∧ f.isPhi i = false := by
  constructor
  · exact fun hi => ⟨mem_body_of_mem_nonPhis hi, hf.phis_first b i hi⟩
  · rintro ⟨hi, hphi⟩
    rw [← phis_append_nonPhis] at hi
    refine (List.mem_append.mp hi).resolve_left fun hi => ?_
    rw [isPhi_of_mem_phis hi] at hphi
    cases hphi

theorem arranged_new (params : List Ty) (retTy : Ty) : (Func.new params retTy).Arranged := by
  have hbody : ∀ b, (Func.new params retTy).body b = [] := fun b => by
    cases b <;> rfl
  refine ⟨⟨List.nodup_singleton 0, fun b i hi => ?_, fun b => ?_⟩, rfl, fun b => ?_,
    fun b i hi => ?_⟩
  · exact absurd (hbody b ▸ hi) List.not_mem_nil
  · exact hbody b ▸ List.nodup_nil
  · exact List.mem_singleton.trans Nat.lt_one_iff.symm
  · exact absurd (hbody b ▸ mem_body_of_mem_nonPhis hi) List.not_mem_nil

/-! ## Edits that move nothing -/

/-- `g` has the instructions of `f` in the same places, and they name the same blocks. -/
structure InPlace (f g : Func) : Prop extends f.Refits g where
  block : ∀ i, (g.inst i).block = (f.inst i).block

theorem inPlace_modifyIncoming (f : Func) (phi : InstId) (g) :
    f.InPlace (f.modifyIncoming phi g) :=
  ⟨f.refits_modifyIncoming phi g, fun i => f.block_modifyIncoming phi i g⟩

theorem inPlace_replacePhiPred (f : Func) (b old new : BlockId) :
    f.InPlace (f.replacePhiPred b old new) where
  toRefits := f.refits_replacePhiPred b old new
  block i := List.foldlRecOn (motive := fun g : Func => (g.inst i).block = (f.inst i).block) _ _ rfl
    fun g hg phi _ => (g.block_modifyIncoming phi i _).trans hg

theorem inPlace_setTerm (f : Func) (b : BlockId) (t : Terminator) : f.InPlace (f.setTerm b t) :=
  ⟨f.refits_setTerm b t, fun _ => rfl⟩

/-- Setting a mask changes nothing else of an instruction. -/
theorem inst_setMask (f : Func) (i j : InstId) (mask : Option Value) :
    ∃ m, (f.setMask i mask).inst j = { f.inst j with mask := m } := by
  rw [setMask, inst_modifyInst]
  split
  · exact ⟨mask, rfl⟩
  · exact ⟨_, rfl⟩

theorem inPlace_setMask (f : Func) (i : InstId) (mask : Option Value) :
    f.InPlace (f.setMask i mask) where
  params := rfl
  layout := rfl
  size_insts := size_insts_modifyInst f i _
  size_blocks := rfl
  body _ := rfl
  ty j := by
    obtain ⟨m, e⟩ := f.inst_setMask i j mask
    rw [e]
  isPhi j := by
    obtain ⟨m, e⟩ := f.inst_setMask i j mask
    rw [Func.isPhi, e]
    rfl
  block j := by
    obtain ⟨m, e⟩ := f.inst_setMask i j mask
    rw [e]

theorem Arranged.inPlace (hf : f.Arranged) (h : f.InPlace g) : g.Arranged where
  toListsOnce := hf.toListsOnce.refits h.toRefits h.block
  entry_first := h.layout ▸ hf.entry_first
  mem_layout b := by
    rw [h.layout, h.size_blocks]
    exact hf.mem_layout b
  phis_first b i hi := by
    rw [h.isPhi]
    exact hf.phis_first b i (h.nonPhis b ▸ hi)

/-- A new block is empty, and the others are as before. -/
theorem nonPhis_addBlock (f : Func) (name : Option String) (b : BlockId) :
    (f.addBlock name).2.nonPhis b = f.nonPhis b :=
  congrArg (List.dropWhile f.isPhi) (f.body_addBlock name b)

theorem Arranged.addBlock (hf : f.Arranged) (name : Option String) :
    (f.addBlock name).2.Arranged where
  layout := by
    refine List.nodup_append.mpr ⟨hf.layout, List.nodup_singleton _, ?_⟩
    rintro b hb c hc rfl
    exact Nat.lt_irrefl _ (List.mem_singleton.mp hc ▸ (hf.mem_layout b).mp hb)
  placed b i hi := hf.placed b i (body_addBlock f name b ▸ hi)
  nodup b := body_addBlock f name b ▸ hf.nodup b
  entry_first := by
    show (f.layout ++ [f.blocks.size]).head? = _
    rw [List.head?_append, hf.entry_first]
    rfl
  mem_layout b := by
    show b ∈ f.layout ++ [f.blocks.size] ↔ b < (f.blocks.push _).size
    rw [Array.size_push, List.mem_append, List.mem_singleton, hf.mem_layout]
    exact Nat.lt_succ_iff_lt_or_eq.symm
  phis_first b i hi := hf.phis_first b i (nonPhis_addBlock f name b ▸ hi)

/-! ## Detachment -/

theorem Arranged.phisFirst_detach (hf : f.Arranged) (i : InstId) (b : BlockId) :
    (f.detach i).PhisFirst b ((f.phis b).filter (· != i)) ((f.nonPhis b).filter (· != i)) where
  body := by rw [hf.placed.body_detach, ← List.filter_append, phis_append_nonPhis]
  isPhi j hj := (hf.phisFirst b).isPhi j (List.mem_of_mem_filter hj)
  notPhi j hj := (hf.phisFirst b).notPhi j (List.mem_of_mem_filter hj)

theorem Arranged.detach (hf : f.Arranged) (i : InstId) : (f.detach i).Arranged where
  toListsOnce := hf.toListsOnce.detach i
  entry_first := hf.entry_first
  mem_layout b := by
    rw [size_blocks_detach]
    exact hf.mem_layout b
  phis_first b j hj :=
    have h := hf.phisFirst_detach i b
    h.notPhi j (h.nonPhis ▸ hj)

/-! ## Insertion -/

theorem isPhi_insertAt (f : Func) (b : BlockId) (pos : Nat) (d : Instr) (i : InstId) :
    (f.insertAt b pos d).2.isPhi i = if i = f.insts.size then d.isPhi else f.isPhi i := by
  unfold isPhi
  rw [inst_insertAt]
  split <;> rfl

theorem Placed.isPhi_insertAt_of_mem (hf : f.Placed) (b c : BlockId) (pos : Nat) (d : Instr)
    {i : InstId} (hi : i ∈ f.body c) : (f.insertAt b pos d).2.isPhi i = f.isPhi i := by
  rw [isPhi_insertAt, if_neg (Nat.ne_of_lt (hf c i hi).1)]

/-- An instruction that is inserted behind the phis comes between the instructions there. -/
theorem Placed.phisFirst_insertAt (hf : f.Placed) {b : BlockId} {d : Instr}
    (hp : ∀ i ∈ f.nonPhis b, f.isPhi i = false) (hb : b < f.blocks.size) {before after : List InstId}
    (e : f.nonPhis b = before ++ after) (hd : d.isPhi = false) :
    (f.insertAt b (f.phis b ++ before).length d).2.PhisFirst b (f.phis b)
      (before ++ f.insts.size :: after) where
  body := by
    rw [body_insertAt f b b _ d hb, if_pos rfl, ← phis_append_nonPhis, e, ← List.append_assoc,
      insertIdx_length_append, List.append_assoc]
  isPhi i hi := by
    rw [hf.isPhi_insertAt_of_mem b b _ d (mem_body_of_mem_phis hi)]
    exact isPhi_of_mem_phis hi
  notPhi i hi := by
    rcases List.mem_cons.mp (List.perm_middle.mem_iff.mp hi) with rfl | hi
    · rw [isPhi_insertAt, if_pos rfl, hd]
    · rw [← e] at hi
      rw [hf.isPhi_insertAt_of_mem b b _ d (mem_body_of_mem_nonPhis hi)]
      exact hp i hi

section

variable (hf : f.Arranged) (b c : BlockId) (pos : Nat) (d : Instr)

include hf

theorem Arranged.isPhi_insertAt_phis {i : InstId} (hi : i ∈ f.phis c) :
    (f.insertAt b pos d).2.isPhi i = true := by
  rw [hf.placed.isPhi_insertAt_of_mem b c pos d (mem_body_of_mem_phis hi)]
  exact isPhi_of_mem_phis hi

theorem Arranged.isPhi_insertAt_nonPhis {i : InstId} (hi : i ∈ f.nonPhis c) :
    (f.insertAt b pos d).2.isPhi i = false := by
  rw [hf.placed.isPhi_insertAt_of_mem b c pos d (mem_body_of_mem_nonPhis hi)]
  exact hf.phis_first c i hi

variable {b c pos d}

/-- An insertion leaves the other blocks as they are. -/
theorem Arranged.phisFirst_insertAt_of_ne (hbc : b ≠ c) :
    (f.insertAt b pos d).2.PhisFirst c (f.phis c) (f.nonPhis c) where
  body := by rw [body_insertAt_eq, if_neg fun e => hbc e.1, phis_append_nonPhis]
  isPhi _ := hf.isPhi_insertAt_phis b c pos d
  notPhi _ := hf.isPhi_insertAt_nonPhis b c pos d

theorem Arranged.phisFirst_insertAt (hb : b < f.blocks.size) {before after : List InstId}
    (e : f.nonPhis b = before ++ after) (hd : d.isPhi = false) :
    (f.insertAt b (f.phis b ++ before).length d).2.PhisFirst b (f.phis b)
      (before ++ f.insts.size :: after) :=
  hf.placed.phisFirst_insertAt (hf.phis_first b) hb e hd

/-- A new phi comes behind the phis that there are. -/
theorem Arranged.phisFirst_appendPhi (hb : b < f.blocks.size) (ty : Ty)
    (incoming : List (BlockId × Value)) :
    (f.appendPhi b ty incoming).2.PhisFirst b (f.phis b ++ [f.insts.size]) (f.nonPhis b) where
  body := by
    rw [appendPhi, firstNonPhi, body_insertAt f b b _ _ hb, if_pos rfl, ← phis_append_nonPhis,
      insertIdx_length_append, List.append_cons]
  isPhi i hi := by
    rcases List.mem_append.mp hi with hi | hi
    · exact hf.isPhi_insertAt_phis b b _ _ hi
    · rw [appendPhi, isPhi_insertAt, if_pos (List.mem_singleton.mp hi)]
      rfl
  notPhi _ := hf.isPhi_insertAt_nonPhis b b _ _

theorem Arranged.insertAt {ps ns : List InstId} (h : (f.insertAt b pos d).2.PhisFirst b ps ns) :
    (f.insertAt b pos d).2.Arranged where
  toListsOnce := hf.toListsOnce.insertAt b pos d
  entry_first := hf.entry_first
  mem_layout c := by
    rw [layout_insertAt, size_blocks_insertAt]
    exact hf.mem_layout c
  phis_first c i hi := by
    by_cases hbc : b = c
    · subst hbc
      exact h.notPhi i (h.nonPhis ▸ hi)
    · have hc : (f.insertAt b pos d).2.PhisFirst c _ _ := hf.phisFirst_insertAt_of_ne hbc
      exact hc.notPhi i (hc.nonPhis ▸ hi)

/-- A new phi leaves what stands behind the phis, in its own block too. -/
theorem Arranged.nonPhis_appendPhi (hb : b < f.blocks.size) (ty : Ty)
    (incoming : List (BlockId × Value)) (c : BlockId) :
    (f.appendPhi b ty incoming).2.nonPhis c = f.nonPhis c := by
  by_cases hbc : b = c
  · subst hbc
    exact (hf.phisFirst_appendPhi hb ty incoming).nonPhis
  · exact (hf.phisFirst_insertAt_of_ne hbc).nonPhis

end

end Func

end Lockstep
