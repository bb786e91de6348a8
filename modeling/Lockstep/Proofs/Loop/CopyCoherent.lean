import Lockstep.Proofs.Loop.Split

/-!
# Copies in coherent functions

Every edit that adds a remainder keeps a function coherent. While blocks are copied, the copy names
blocks and values that there are (`Copy.Holds`); connecting the copy and replacing values outside
puts nothing else in place of what there was.
-/

namespace Lockstep

namespace Func

variable {f : Func} {b : BlockId}

/-- Code that uses what there is and what it has computed. -/
theorem Coherent.appendAll {ds : List Instr} (hf : f.Coherent)
    (hd : ∀ (j : Nat) d, ds[j]? = some d → ∀ v ∈ d.inputs, v.Within (· < f.insts.size + j)) :
    (f.appendAll b ds).Coherent := by
  induction ds generalizing f with
  | nil => exact hf
  | cons d ds ih =>
    refine ih (hf.insertAt fun v hv => ?_) fun j d' hj v hv => ?_
    · have h := hd 0 d rfl v hv
      cases v <;> exact h
    · show v.Within (· < (f.append b d).2.insts.size + j)
      rw [size_insts_append, Nat.add_right_comm, Nat.add_assoc]
      exact hd (j + 1) d' hj v hv

/-- Changing entries to others with values that there are. -/
theorem Coherent.foldl_modifyIncoming {α : Type} {k : α → InstId}
    {G : α → List (BlockId × Value) → List (BlockId × Value)} (hf : f.Coherent) (l : List α)
    (hG : ∀ a ∈ l, ∀ g : Func, f.Refits g → g.Coherent →
      ∀ e ∈ G a (g.inst (k a)).incoming, g.Defines e.2) :
    (l.foldl (fun f a => f.modifyIncoming (k a) (G a)) f).Coherent :=
  (List.foldlRecOn (motive := fun g => f.Refits g ∧ g.Coherent) l _ ⟨.refl f, hf⟩
    fun g hg a ha => ⟨hg.1.trans (g.refits_modifyIncoming _ _),
      hg.2.modifyIncoming (hG a ha g hg.1 hg.2)⟩).2

theorem Coherent.replacePhiPred (hf : f.Coherent) (b old new : BlockId) :
    (f.replacePhiPred b old new).Coherent :=
  hf.foldl_modifyIncoming (k := id) _ fun phi _ g _ hg e he => by
    obtain ⟨x, hx, rfl⟩ := List.mem_map.mp he
    have hv := hg.defines_incoming hx
    exact hv

end Func

namespace CountedLoop

/-- A copy that names blocks and values of a coherent function. -/
structure Copy.Holds (s : Copy × Func) : Prop where
  coherent : s.2.Coherent
  blocks : ∀ e ∈ s.1.blocks, e.2 < s.2.blocks.size
  values : ∀ e ∈ s.1.values, s.2.Defines e.2

namespace Copy.Holds

variable {s : Copy × Func} {c : Copy} {f g : Func}

theorem start (hf : f.Coherent) : Holds ({}, f) :=
  ⟨hf, fun _ he => absurd he List.not_mem_nil, fun _ he => absurd he List.not_mem_nil⟩

theorem copyInst (h : Holds s) (target : BlockId) (i : InstId) :
    Holds (CountedLoop.copyInst target s i) := by
  have hsize : (s.2.append target (s.2.inst i)).2.insts.size = s.2.insts.size + 1 :=
    Func.size_insts_append _ _ _
  refine ⟨h.coherent.insertAt (h.coherent.inputs i), fun e he => ?_, fun e he => ?_⟩
  · exact (Func.size_blocks_append s.2 target (s.2.inst i)).symm ▸ h.blocks e he
  · rcases List.mem_append.mp he with he | he
    · exact (h.values e he).mono (hsize ▸ Nat.le_succ _)
    · rw [List.mem_singleton.mp he]
      show s.2.insts.size < (s.2.append target (s.2.inst i)).2.insts.size
      rw [hsize]
      exact Nat.lt_succ_self _

theorem copyBlock (h : Holds s) (b : BlockId) : Holds (CountedLoop.copyBlock s b) := by
  have hsize : (s.2.addBlock (some (copyName s.2 b ".rem"))).2.blocks.size = s.2.blocks.size + 1 :=
    Array.size_push _
  refine List.foldlRecOn _ _ (motive := Holds) ?_ fun t ht i _ => ht.copyInst _ i
  refine ⟨h.coherent.addBlock _, fun e he => ?_, h.values⟩
  rcases List.mem_append.mp he with he | he
  · exact hsize ▸ Nat.lt_succ_of_lt (h.blocks e he)
  · rw [List.mem_singleton.mp he]
    exact hsize ▸ Nat.lt_succ_self _

theorem block_lt (h : Holds (c, f)) {b : BlockId} (hb : b < f.blocks.size) :
    c.block b < f.blocks.size := by
  unfold Copy.block
  cases hl : c.blocks.lookup b with
  | none => exact hb
  | some b' =>
    obtain ⟨_, _, e, -⟩ := List.lookup_eq_some_iff.mp hl
    exact h.blocks (b, b') (e ▸ by simp)

theorem defines_value (h : Holds (c, f)) {v : Value} (hv : f.Defines v) :
    f.Defines (c.value v) := by
  unfold Copy.value
  cases hl : c.values.lookup v with
  | none => exact hv
  | some v' =>
    obtain ⟨_, _, e, -⟩ := List.lookup_eq_some_iff.mp hl
    exact h.values (v, v') (e ▸ by simp)

theorem of_size_eq (h : Holds (c, f)) (hg : g.Coherent) (hi : g.insts.size = f.insts.size)
    (hb : g.blocks.size = f.blocks.size) : Holds (c, g) :=
  ⟨hg, fun e he => hb ▸ h.blocks e he, fun e he => (h.values e he).mono hi.ge⟩

theorem connect (h : Holds (c, f)) : Holds (c, c.connect f) := by
  refine List.foldlRecOn (motive := fun g => Holds (c, g)) c.blocks _ ?_ fun g hg e _ => ?_
  · refine List.foldlRecOn (motive := fun g => Holds (c, g)) c.insts _ h fun g hg i _ => ?_
    exact hg.of_size_eq (hg.coherent.substUser (fun _ => hg.block_lt) (fun _ => hg.defines_value) _)
      (g.size_insts_substUser _ _) (g.size_blocks_substUser _ _)
  · refine hg.of_size_eq (hg.coherent.setTerm (fun t ht => ?_) fun v hv => ?_) rfl
      (g.size_blocks_setTerm _ _)
    · rw [Terminator.targets_map] at ht
      obtain ⟨x, hx, rfl⟩ := List.mem_map.mp ht
      exact hg.block_lt (hg.coherent.target_lt _ x hx)
    · rw [Terminator.uses_map] at hv
      obtain ⟨x, hx, rfl⟩ := List.mem_map.mp hv
      exact hg.defines_value (hg.coherent.uses _ x hx)

theorem replaceOutside (h : Holds (c, f)) : (c.replaceOutside f).Coherent :=
  h.coherent.substUsers (s := { value := c.value }) (fun _ hb => hb) (fun _ => h.defines_value) _

end Copy.Holds

/-- Adding a remainder keeps a function coherent. -/
theorem coherent_addRemainder {f : Func} {l : Loop} {c : CountedLoop} (hf : f.Coherent)
    (h : CanCopy f l c) : (c.addRemainder l f).2.Coherent := by
  obtain ⟨cp, g, hfold, hc⟩ :=
    connectedCopy h (some (copyName f c.shape.header ".rem.preheader"))
  rw [addRemainder_eq h hfold hc]
  have hcopy : Copy.Holds (cp, g) := hfold ▸ List.foldlRecOn (motive := Copy.Holds) l.blocks _
    (.start (hf.addBlock _)) fun s hs b _ => hs.copyBlock b
  have H := hcopy.connect
  have hphi : ∀ phi ∈ f.phis c.shape.header, phi < (cp.connect g).insts.size := fun phi hphi =>
    Nat.lt_of_lt_of_le (h.laid.body_lt _ phi (Func.mem_body_of_mem_phis hphi)) hc.size_insts
  generalize cp.connect g = g0 at H hc hphi ⊢
  obtain ⟨g1, hg1⟩ : ∃ g1, g1 = edit c cp f.blocks.size (f.phis c.shape.header) g0 := ⟨_, rfl⟩
  have hr : g0.Refits g1 := hg1 ▸ (edited h hc).refits
  rw [← hg1]
  refine (H.of_size_eq ?_ hr.size_insts hr.size_blocks).replaceOutside
  rw [hg1]
  have hbr : (g0.setTerm f.blocks.size (.br (cp.block c.shape.header))).Coherent := by
    refine H.coherent.setTerm (fun t ht => ?_) fun v hv => absurd hv List.not_mem_nil
    rw [List.mem_singleton.mp ht]
    exact H.block_lt (Nat.lt_trans (h.lt _ h.header) hc.size_blocks)
  refine Func.Coherent.replacePhiPred (Func.Coherent.foldl_modifyIncoming (hbr.replacePhiPred _ _ _)
    _ fun phi hp g' hr' hg' e he => ?_) _ _ _
  rcases Func.mem_setEntry he with he | rfl
  · exact hg'.defines_incoming he
  · show phi < g'.insts.size
    rw [hr'.size_insts, (Func.refits_replacePhiPred _ _ _ _).size_insts]
    exact hphi phi hp

end CountedLoop

end Lockstep
