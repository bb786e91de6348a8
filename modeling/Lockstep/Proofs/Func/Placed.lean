import Lockstep.Proofs.Func.Coherent
import Lockstep.Proofs.Func.Refit

/-!
# Where instructions stand

In a function that is placed, the blocks list instructions that exist and that name their block. An
insertion keeps a function placed, and every edit that leaves instructions where they are. In such a
function an insertion lists the new instruction once, so that nothing gets listed twice (`ListsOnce`).
-/

namespace Lockstep

namespace Func

/-- Whether an instruction exists and names this block. -/
def StandsIn (f : Func) (i : InstId) (b : BlockId) : Prop := i < f.insts.size ∧ (f.inst i).block = b

/-- Whether the blocks list only instructions that stand in them. -/
def Placed (f : Func) : Prop := ∀ b, ∀ i ∈ f.body b, f.StandsIn i b

variable {f g : Func}

theorem Coherent.placed_body (hf : f.Coherent) : f.Placed :=
  fun b i hi => ⟨hf.body_lt b i hi, hf.placed b i hi⟩

theorem standsIn_insertAt (f : Func) (b : BlockId) (pos : Nat) (d : Instr) :
    (f.insertAt b pos d).2.StandsIn f.insts.size b := by
  rw [StandsIn, size_insts_insertAt, inst_insertAt, if_pos rfl]
  exact ⟨Nat.lt_succ_self _, rfl⟩

theorem StandsIn.insertAt {i : InstId} {c : BlockId} (h : f.StandsIn i c) (b : BlockId) (pos : Nat)
    (d : Instr) : (f.insertAt b pos d).2.StandsIn i c := by
  rw [StandsIn, size_insts_insertAt, inst_insertAt, if_neg (Nat.ne_of_lt h.1)]
  exact ⟨Nat.lt_succ_of_lt h.1, h.2⟩

theorem Placed.insertAt (hf : f.Placed) (b : BlockId) (pos : Nat) (d : Instr) :
    (f.insertAt b pos d).2.Placed := by
  intro c i hi
  rcases mem_body_insertAt f hi with hi | ⟨rfl, rfl⟩
  · exact (hf c i hi).insertAt b pos d
  · exact standsIn_insertAt f c pos d

theorem Placed.refits (hf : f.Placed) (h : f.Refits g)
    (hblock : ∀ i, (g.inst i).block = (f.inst i).block) : g.Placed := by
  intro b i hi
  rw [StandsIn, h.size_insts, hblock]
  exact hf b i (h.body b ▸ hi)

/-- A new instruction stands in its block once. -/
theorem Placed.nodup_insertAt (hf : f.Placed) (hn : ∀ b, (f.body b).Nodup) (b : BlockId)
    (pos : Nat) (d : Instr) (c : BlockId) : ((f.insertAt b pos d).2.body c).Nodup := by
  rw [body_insertAt_eq]
  split
  · rename_i hb
    obtain ⟨rfl, -⟩ := hb
    by_cases hp : pos ≤ (f.body b).length
    · refine (List.perm_insertIdx _ _ hp).nodup_iff.mpr (List.nodup_cons.mpr ⟨fun hi => ?_, hn b⟩)
      exact Nat.lt_irrefl _ (hf b _ hi).1
    · rw [List.insertIdx_of_length_lt (Nat.lt_of_not_le hp)]
      exact hn b
  · exact hn c

theorem Placed.body_detach (hf : f.Placed) (i : InstId) (b : BlockId) :
    (f.detach i).body b = (f.body b).filter (· != i) := by
  rw [Func.body_detach]
  split
  · rfl
  · rename_i hb
    refine (List.filter_eq_self.mpr fun j hj => bne_iff_ne.mpr ?_).symm
    rintro rfl
    exact hb (hf b j hj).2

/-- Where an instruction stands first is its position. -/
theorem Placed.positionOf?_eq (hf : f.Placed) {b : BlockId} {i : InstId} {pre post : List InstId}
    (hbody : f.body b = pre ++ i :: post) (hn : i ∉ pre) : f.positionOf? i = some pre.length := by
  have hi : i ∈ f.body b := hbody ▸ List.mem_append_right _ List.mem_cons_self
  unfold positionOf?
  rw [(hf b i hi).2, hbody]
  refine List.idxOf?_eq_some_iff.mpr ⟨by simp, by simp, fun j hj e => hn ?_⟩
  rw [List.getElem_append_left hj] at e
  exact e ▸ List.getElem_mem hj

/-- Whether nothing is listed twice: no block in the layout, and no instruction in its block. -/
structure ListsOnce (f : Func) : Prop where
  layout : f.layout.Nodup
  placed : f.Placed
  nodup : ∀ b, (f.body b).Nodup

/-- Some blocks together list nothing twice. -/
theorem ListsOnce.nodup_flatMap (hf : f.ListsOnce) {bs : List BlockId} (h : bs.Nodup) :
    (bs.flatMap f.body).Nodup := by
  refine List.nodup_flatMap.mpr ⟨fun b _ => hf.nodup b, h.imp fun hne => ?_⟩
  refine List.disjoint_left.mpr fun i hb hc => hne ?_
  exact (hf.placed _ i hb).2.symm.trans (hf.placed _ i hc).2

theorem ListsOnce.insertAt (hf : f.ListsOnce) (b : BlockId) (pos : Nat) (d : Instr) :
    (f.insertAt b pos d).2.ListsOnce where
  layout := hf.layout
  placed := hf.placed.insertAt b pos d
  nodup := hf.placed.nodup_insertAt hf.nodup b pos d

theorem ListsOnce.refits (hf : f.ListsOnce) (h : f.Refits g)
    (hblock : ∀ i, (g.inst i).block = (f.inst i).block) : g.ListsOnce where
  layout := h.layout ▸ hf.layout
  placed := hf.placed.refits h hblock
  nodup b := h.body b ▸ hf.nodup b

theorem ListsOnce.modifyInst (hf : f.ListsOnce) (i : InstId) {g : Instr → Instr}
    (hg : ∀ d, (g d).block = d.block) : (f.modifyInst i g).ListsOnce where
  layout := hf.layout
  placed b j hj := by
    refine ⟨(size_insts_modifyInst ..).symm ▸ (hf.placed b j hj).1, ?_⟩
    rw [inst_modifyInst]
    split
    · exact (hg _).trans (hf.placed b j hj).2
    · exact (hf.placed b j hj).2
  nodup := hf.nodup

theorem ListsOnce.detach (hf : f.ListsOnce) (i : InstId) : (f.detach i).ListsOnce where
  layout := hf.layout
  placed b j hj := hf.placed b j (mem_body_of_detach f hj)
  nodup b := by
    rw [body_detach]
    split
    · exact (hf.nodup b).filter _
    · exact hf.nodup b

/-- Whether the phis of a block have entries only for edges of the graph. -/
def EntersAlong (f : Func) (g : Cfg) (b : BlockId) : Prop :=
  ∀ i ∈ f.body b, ∀ e ∈ (f.inst i).incoming, e.1 ∈ g.preds b

/-! ## Edits in place -/

theorem block_modifyIncoming (f : Func) (i j : InstId) (g) :
    ((f.modifyIncoming i g).inst j).block = (f.inst j).block := by
  rw [inst_modifyIncoming]
  split
  · exact block_mapIncoming _ _
  · rfl

theorem block_substUsers (f : Func) {s : Substitution} (hs : s.Idempotent) (us : List User)
    (j : InstId) : ((f.substUsers s us).inst j).block = (f.inst j).block := by
  rw [inst_substUsers f us hs]
  split <;> rfl

theorem mem_incoming_mapIncoming {g} {d : Instr} {e : BlockId × Value}
    (h : e ∈ (mapIncoming g d).incoming) : e ∈ g d.incoming := by
  obtain ⟨op, ty, mask, b⟩ := d
  cases op with
  | phi incoming => exact h
  | apply code args => exact absurd h List.not_mem_nil

/-- Replacing a value keeps the predecessors of a phi. -/
theorem map_fst_incoming_substUsers (f : Func) {s : Substitution} (hs : s.Idempotent)
    (hb : ∀ b, s.block b = b) (us : List User) (j : InstId) :
    ((f.substUsers s us).inst j).incoming.map Prod.fst = (f.inst j).incoming.map Prod.fst := by
  rw [inst_substUsers f us hs]
  split
  · rw [incoming_map, List.map_map]
    exact List.map_congr_left fun e _ => hb e.1
  · rfl

end Func

end Lockstep
