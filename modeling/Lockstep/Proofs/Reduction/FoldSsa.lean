import Lockstep.Proofs.Eval.Soundness
import Lockstep.Proofs.Reduction.Algebra
import Lockstep.Proofs.Reduction.FoldCode

/-!
# Folding keeps the form of a function

The header of a loop dominates the chains of its reductions, although it may not dominate the loop
(`IsChain.dominates`). So the root is available where the fold is built, and the fold wherever the
value of the latch is: folding keeps static single assignment form and types, and the other chains of
the loop stay chains (`FoldsOnce.foldable`).
-/

namespace Lockstep

namespace Func

/-- Whether two functions have the same edges. -/
def SameEdges (f g : Func) : Prop := ∀ b, (g.term b).targets = (f.term b).targets

variable {f g : Func} {a b : BlockId}

theorem SameEdges.path_iff (h : f.SameEdges g) {P : BlockId → Prop} : g.Path P a b ↔ f.Path P a b := by
  unfold Path
  rw [funext h]

theorem SameEdges.reachable_iff (h : f.SameEdges g) : g.Reachable b ↔ f.Reachable b := by
  unfold Reachable Reaches
  rw [funext h]
  rfl

theorem SameEdges.dominates_iff (h : f.SameEdges g) : g.Dominates a b ↔ f.Dominates a b := by
  unfold Dominates
  rw [h.path_iff]
  rfl

/-- A loop whose header is reached from outside, and comes again. -/
structure Headed (f : Func) (l : Loop) : Prop where
  header_mem : l.header ∈ l.blocks
  path : f.Path (· ∉ l.blocks) f.entry l.header
  again : ∃ b, l.header ∈ (f.term b).targets

theorem headed_of_mem (hf : f.Closed) {l : Loop} (hl : l ∈ (Analyses.ofFunc f).loops.loops) :
    f.Headed l := by
  obtain ⟨b, -, hb⟩ := (LoopForest.isLoop hl).cycle
  exact ⟨LoopForest.header_mem hl, LoopForest.path_header hf hl, b, ((Cfg.mem_succs hf).mp hb).2⟩

theorem Headed.sameEdges {l : Loop} (h : f.Headed l) (he : f.SameEdges g) : g.Headed l := by
  obtain ⟨b, hb⟩ := h.again
  exact ⟨h.header_mem, he.path_iff.mpr h.path, b, (he b).symm ▸ hb⟩

/-- The entry is no block of a loop but as its header. -/
theorem Headed.entry_eq {l : Loop} (h : f.Headed l) (he : f.entry ∈ l.blocks) :
    f.entry = l.header := by
  by_contra hne
  rcases Relation.ReflTransGen.cases_head h.path with e | ⟨c, hc, -⟩
  · exact hne e
  · exact hc.1 he

end Func

/-- Types go together after operands have been replaced by others of their types. -/
theorem Instr.TypesAgree.map {f g : Func} {d : Instr} {σ : Value → Value} (h : d.TypesAgree f)
    (hty : ∀ v ∈ d.inputs, g.typeOf (σ v) = f.typeOf v)
    (htyped : ∀ v ∈ d.inputs, v.IsTyped → (σ v).IsTyped) : (d.map id σ).TypesAgree g := by
  obtain ⟨op, ty, mask, b⟩ := d
  refine ⟨fun v hv => ?_, fun incoming hop e he => ?_, fun code args hop => ?_⟩
  · rw [Instr.inputs_map] at hv
    obtain ⟨w, hw, rfl⟩ := List.mem_map.mp hv
    exact htyped w hw (h.inputs w hw)
  · cases op with
    | apply code args => cases hop
    | phi entries =>
      cases hop
      obtain ⟨e0, he0, rfl⟩ := List.mem_map.mp he
      exact (hty e0.2 (List.mem_map_of_mem he0)).trans (h.phi entries rfl e0 he0)
  · cases op with
    | phi entries => cases hop
    | apply code' args' =>
      cases hop
      have hargs : (args'.map σ).map g.typeOf = args'.map f.typeOf := by
        rw [List.map_map]
        exact List.map_congr_left hty
      rw [hargs]
      exact h.apply code args' rfl

/-- So do those of a phi after it has got another value of its type. -/
theorem Instr.TypesAgree.setEntry {f g : Func} {d : Instr} {w : Value} (h : d.TypesAgree f)
    (hphi : d.isPhi = true) (hty : ∀ v ∈ d.inputs, g.typeOf v = f.typeOf v) (hw : w.IsTyped)
    (hwty : g.typeOf w = d.ty) (pred : BlockId) :
    (Func.mapIncoming (Func.setEntry · pred w) d).TypesAgree g := by
  obtain ⟨op, ty, mask, b⟩ := d
  cases op with
  | apply code args => cases hphi
  | phi entries =>
    refine ⟨fun v hv => ?_, ?_, nofun⟩
    · obtain ⟨e, he, rfl⟩ := List.mem_map.mp hv
      rcases Func.mem_setEntry he with he | rfl
      · exact h.inputs _ (List.mem_map_of_mem he)
      · exact hw
    · rintro _ ⟨⟩ e he
      rcases Func.mem_setEntry he with he | rfl
      · exact (hty e.2 (List.mem_map_of_mem he)).trans (h.phi entries rfl e he)
      · exact hwty

namespace Reduction

variable {f g : Func} {l : Loop} {r : Reduction} {b : BlockId} {e i : InstId}

/-! ## The header dominates the chain -/

/-- An update takes up an element. -/
theorem IsChain.exists_input (hc : r.IsChain f l) (hi : i ∈ r.elements) (hp : f.isPhi i = false) :
    ∃ e ∈ r.elements, .inst e ∈ (f.inst i).inputs := by
  obtain ⟨-, args, hop, hcount⟩ := hc.update i hi hp
  obtain ⟨v, hv⟩ := List.exists_mem_of_length_pos (hcount ▸ Nat.zero_lt_one)
  obtain ⟨e, he, rfl⟩ := any_contains_iff.mp (List.mem_filter.mp hv).2
  refine ⟨e, he, ?_⟩
  rw [Run.inputs_of_op hop]
  exact (List.mem_filter.mp hv).1

/-- If no element has been passed on the way to a block, there is none in it. -/
theorem IsChain.not_mem_of_passed (hf : f.Ssa) (hh : f.Headed l) (hc : r.IsChain f l)
    {D : BlockId → Prop} (hD : ∀ d, D d → ∀ e ∈ r.elements, e ∉ f.body d)
    (hp : f.Path D f.entry b) (hb : b ≠ l.header) {before after : List InstId}
    (hsplit : f.body b = before ++ after) : ∀ e ∈ r.elements, e ∉ before := by
  have hr := Cfg.reachable_of_path hp
  have hpassed : ∀ e ∈ r.elements, ¬ f.DefinedIn D e := fun e he ⟨d, hd, hed⟩ => hD d hd e he hed
  induction before using List.reverseRecOn generalizing after with
  | nil => exact fun _ _ => List.not_mem_nil
  | append_singleton before i ih =>
    rw [List.append_assoc] at hsplit
    have ih := ih hsplit
    intro e he hmem
    rcases List.mem_append.mp hmem with hmem | hmem
    · exact ih e he hmem
    obtain rfl := List.mem_singleton.mp hmem
    have hbody : e ∈ f.body b := hsplit ▸ List.mem_append_right _ List.mem_cons_self
    cases hphi : f.isPhi e with
    | false =>
      obtain ⟨e', he', huse⟩ := hc.exists_input he hphi
      rcases (hf.inst b hr before e after hsplit hphi _ (List.mem_append_left _ huse)).within hp
        with h | h
      · exact hpassed e' he' h
      · exact ih e' he' h
    | true =>
      have hroot : e ≠ r.phi := fun h => hb (hf.eq_of_mem_body (h ▸ hbody)
        (Func.mem_body_of_mem_phis hc.phi_mem))
      have hmem : e ∈ f.phis b := hf.mem_phis hbody hphi
      by_cases hentry : f.entry = b
      · obtain ⟨d, hd, hed⟩ := hc.mem e he
        obtain rfl := hf.eq_of_mem_body hed hbody
        exact hb (hentry ▸ hh.entry_eq (hentry ▸ hd))
      · obtain ⟨x, hpx, hx, hxb⟩ := hp.exists_last hentry
        obtain ⟨v, hv, havail⟩ := hf.exists_incoming (Cfg.reachable_of_path hpx) hxb hmem
        obtain ⟨e', he', rfl⟩ := (hc.phi e he hroot hphi).2 v (Run.mem_inputs_of_incomingValue? hv)
        exact hpassed e' he' (havail.within_end hpx hx)

/-- The header of a loop dominates the chains of its reductions. -/
theorem IsChain.dominates (hf : f.Ssa) (hh : f.Headed l) (hc : r.IsChain f l) (he : e ∈ r.elements)
    (hb : e ∈ f.body b) : f.Dominates l.header b := by
  intro hp
  by_contra hne
  -- no block on a path without the header has an element
  have hpath : f.Path (fun d => ∀ e ∈ r.elements, e ∉ f.body d) f.entry b := by
    refine hp.induct (R := f.Path (fun d => ∀ e ∈ r.elements, e ∉ f.body d) f.entry) (.refl _)
      fun x y hx hpx hxy => hpx.tail ?_ hxy
    exact hc.not_mem_of_passed hf hh (fun _ hd => hd) hpx hx (List.append_nil _).symm
  exact hc.not_mem_of_passed hf hh (fun _ hd => hd) hpath hne (List.append_nil _).symm e he hb

/-! ## The value of the latch -/

/-- The root has one entry from inside the loop and one from outside. -/
theorem Search.latchValue?_cases {entries : List (BlockId × Value)} {v : Value}
    (h : Search.latchValue? l entries = some v) : ∃ p ∈ l.blocks, ∃ q, q ∉ l.blocks ∧ ∃ w,
      entries = [(p, v), (q, w)] ∨ entries = [(q, w), (p, v)] := by
  unfold Search.latchValue? at h
  split at h
  · rename_i a va b vb
    split at h
    · rename_i ha hb
      cases h
      exact ⟨a, List.contains_iff_mem.mp ha, b, fun hm => by simp [Loop.contains, hm] at hb, vb, .inl rfl⟩
    · rename_i ha hb
      cases h
      exact ⟨b, List.contains_iff_mem.mp hb, a, fun hm => by simp [Loop.contains, hm] at ha, va, .inr rfl⟩
    · cases h
  · cases h

/-- What the root takes from outside is not computed in the loop. -/
theorem IsChain.block_not_mem (hf : f.Ssa) (hh : f.Headed l) (hc : r.IsChain f l) {q : BlockId}
    (hq : q ∉ l.blocks) {j : InstId} (hv : f.incomingValue? r.phi q = some (.inst j)) :
    (f.inst j).block ∉ l.blocks := by
  intro hj
  obtain ⟨y, hy⟩ := hh.again
  -- control comes to the header from outside, by the entry of `q`
  obtain ⟨x, hpx, hx, hxh⟩ := hh.path.exists_last fun e => hf.entry_pred y (e ▸ hy)
  have hr := Cfg.reachable_of_path hpx
  obtain ⟨v, hvx, havail⟩ := hf.exists_incoming hr hxh hc.phi_mem
  obtain ⟨p, hp, q', hq', w, e⟩ := Search.latchValue?_cases hc.latch_value
  have hout : ∀ z, z ∉ l.blocks → ∀ v, f.incomingValue? r.phi z = some v → v = w := by
    intro z hz v hv
    have hzp : (z == p) = false := beq_eq_false_iff_ne.mpr fun e => hz (e ▸ hp)
    unfold Func.incomingValue? at hv
    rcases e with e | e <;> rw [e] at hv <;> cases hzq : z == q' <;>
      simp [List.lookup_cons, hzp, hzq] at hv <;> exact hv.symm
  obtain rfl := (hout x hx v hvx).trans (hout q hq _ hv).symm
  rcases havail with hmem | ⟨d, hne, hmem, hdom⟩
  · exact hx (hf.placed x j hmem ▸ hj)
  · have hd : d ∈ l.blocks := hf.placed d j hmem ▸ hj
    exact hne (hdom (hpx.mono fun z hz e => hz (e ▸ hd))).symm

/-! ## What a fold changes -/

/-- A reduction of a function that can be folded, with its neutral element, and the value that the root
takes from the loop. -/
structure Foldable (r : Reduction) (f : Func) (l : Loop) (n : Const) (pred : BlockId)
    (latch : InstId) : Prop where
  ssa : f.Ssa
  typesAgree : f.TypesAgree
  headed : f.Headed l
  chain : r.IsChain f l
  isFloat : r.kind.isFloat = false
  neutral : r.kind.neutral? (f.inst r.phi).ty = some n
  latch_value : r.latchValue = .inst latch
  pred_mem : pred ∈ l.blocks
  incoming : f.incomingValue? r.phi pred = some (.inst latch)

variable {n : Const} {pred : BlockId} {latch : InstId}

namespace Foldable

variable (F : r.Foldable f l n pred latch)

include F

theorem latch_mem : latch ∈ r.elements := by
  obtain ⟨e, he, h⟩ := F.chain.latch
  rw [F.latch_value] at h
  cases h
  exact he

theorem exists_latch_block : ∃ b ∈ l.blocks, latch ∈ f.body b := F.chain.mem latch F.latch_mem

theorem root_lt : r.phi < f.insts.size :=
  F.ssa.body_lt _ _ (Func.mem_body_of_mem_phis F.chain.phi_mem)

theorem latch_lt : latch < f.insts.size := by
  obtain ⟨b, -, hb⟩ := F.exists_latch_block
  exact F.ssa.body_lt b latch hb

theorem ty_latch : (f.inst latch).ty = (f.inst r.phi).ty := by
  obtain ⟨incoming, hop, hmem⟩ := Run.op_of_mem_incoming (Func.mem_incoming F.incoming)
  exact (F.typesAgree _ _ (Func.mem_body_of_mem_phis F.chain.phi_mem)).phi incoming hop _ hmem

/-- The root is no element of another chain. -/
theorem root_not_mem {r' : Reduction} (hc : r'.IsChain f l) (hne : r'.phi ≠ r.phi) :
    r.phi ∉ r'.elements := fun h =>
  (hc.phi r.phi h (Ne.symm hne) (Func.isPhi_of_mem_phis F.chain.phi_mem)).1
    (Func.mem_body_of_mem_phis F.chain.phi_mem)

/-- The value of the latch is no element of another chain, since the root takes it. -/
theorem latch_not_mem {r' : Reduction} (hc : r'.IsChain f l) (hne : r'.phi ≠ r.phi) :
    latch ∉ r'.elements := fun h =>
  F.root_not_mem hc hne (hc.user l.header F.headed.header_mem r.phi
    (Func.mem_body_of_mem_phis F.chain.phi_mem) latch h
    (List.mem_append_left _ (Run.mem_inputs_of_incomingValue? F.incoming)))

end Foldable

namespace FoldsOnce

variable (h : r.FoldsOnce f g l n pred latch)

include h

theorem sameEdges (hf : f.Coherent) : f.SameEdges g := by
  intro b
  by_cases hb : b ∈ f.layout
  · rw [h.term b hb, Terminator.targets_map, List.map_id]
  · rw [hf.layout, Nat.not_lt] at hb
    rw [Cfg.term_of_size_le hb, Cfg.term_of_size_le (h.size_blocks ▸ hb)]

/-- A block that has the value of the latch has the fold behind it, and the others are as they were. -/
theorem exists_body (hf : f.Ssa) (b : BlockId) : latch ∉ f.body b ∧ g.body b = f.body b ∨
    ∃ before after, f.body b = before ++ after ∧ g.body b = before ++ f.insts.size :: after ∧
      latch ∈ before ∧ ∀ i ∈ f.phis b, i ∈ before := by
  have hg := g.phis_append_nonPhis b
  rw [h.phis, h.nonPhis] at hg
  have hsplit := f.phis_append_nonPhis b
  have hn : (f.phis b ++ f.nonPhis b).Nodup := hsplit ▸ hf.nodup b
  by_cases hphi : latch ∈ f.phis b
  · have hnot : latch ∉ f.nonPhis b := fun h => List.disjoint_of_nodup_append hn hphi h
    rw [if_pos hphi, flatMap_withFold_of_not_mem hnot] at hg
    exact .inr ⟨_, _, hsplit.symm, hg.symm, hphi, fun _ => id⟩
  · rw [if_neg hphi, List.nil_append] at hg
    by_cases hop : latch ∈ f.nonPhis b
    · obtain ⟨before, after, e⟩ := List.append_of_mem hop
      have hn' : (before ++ latch :: after).Nodup := e ▸ (List.nodup_append.mp hn).2.1
      rw [e, flatMap_withFold hn'] at hg
      refine .inr ⟨f.phis b ++ (before ++ [latch]), after, ?_, ?_, by simp, fun i hi => by simp [hi]⟩
      · rw [← hsplit, e]
        simp
      · rw [← hg]
        simp
    · rw [flatMap_withFold_of_not_mem hop, hsplit] at hg
      refine .inl ⟨fun hmem => ?_, hg.symm⟩
      rw [← hsplit] at hmem
      exact (List.mem_append.mp hmem).elim hphi hop

theorem mem_body (hf : f.Ssa) {b : BlockId} {i : InstId} (hi : i ∈ f.body b) : i ∈ g.body b := by
  rcases h.exists_body hf b with ⟨-, e⟩ | ⟨before, after, e, e', -⟩
  · exact e ▸ hi
  · rw [e] at hi
    rw [e']
    exact (List.mem_append.mp hi).elim (List.mem_append_left _) fun hi =>
      List.mem_append_right _ (List.mem_cons_of_mem _ hi)

theorem fold_mem_body (hf : f.Ssa) {b : BlockId} (hb : latch ∈ f.body b) :
    f.insts.size ∈ g.body b := by
  rcases h.exists_body hf b with ⟨hnot, -⟩ | ⟨before, after, -, e', -⟩
  · exact absurd hb hnot
  · rw [e']
    simp

theorem of_mem_body (hf : f.Ssa) {b : BlockId} {i : InstId} (hi : i ∈ g.body b) :
    i ∈ f.body b ∨ i = f.insts.size ∧ latch ∈ f.body b := by
  rcases h.exists_body hf b with ⟨-, e⟩ | ⟨before, after, e, e', hlatch, -⟩
  · exact .inl (e ▸ hi)
  · rw [e'] at hi
    rw [e]
    rcases List.mem_append.mp hi with hi | hi
    · exact .inl (List.mem_append_left _ hi)
    · rcases List.mem_cons.mp hi with rfl | hi
      · exact .inr ⟨rfl, List.mem_append_left _ hlatch⟩
      · exact .inl (List.mem_append_right _ hi)

/-- What stands before an instruction: what stood before it, and before the fold the phis and the value
of the latch. -/
theorem of_body_eq (hf : f.Ssa) {b : BlockId} {i : InstId} {pre post : List InstId}
    (e : g.body b = pre ++ i :: post) :
    (∃ before after, f.body b = before ++ i :: after ∧ ∀ j ∈ before, j ∈ pre) ∨
      i = f.insts.size ∧ latch ∈ pre ∧ (∀ j ∈ f.phis b, j ∈ pre) ∧
        ∃ after, f.body b = pre ++ after := by
  rcases h.exists_body hf b with ⟨-, e'⟩ | ⟨before, after, ef, e', hlatch, hphis⟩
  · exact .inl ⟨pre, post, e' ▸ e, fun _ => id⟩
  · rw [e'] at e
    rcases append_eq_append_cons e with ⟨rest, rfl, rfl⟩ | ⟨mid, rfl, emid⟩
    · refine .inl ⟨pre, rest ++ after, ?_, fun _ => id⟩
      rw [ef, List.append_assoc]
      rfl
    · rcases List.cons_eq_append_iff.mp emid with ⟨rfl, e2⟩ | ⟨mid', rfl, rfl⟩
      · obtain ⟨rfl, rfl⟩ := List.cons.inj e2
        rw [List.append_nil]
        exact .inr ⟨rfl, hlatch, hphis, _, ef⟩
      · refine .inl ⟨before ++ mid', post, ?_, fun j hj => ?_⟩
        · rw [ef, List.append_assoc]
        · rcases List.mem_append.mp hj with hj | hj
          · exact List.mem_append_left _ hj
          · exact List.mem_append_right _ (List.mem_cons_of_mem _ hj)

/-! ## Static single assignment form -/

variable {c : BlockId} {before before' : List InstId} {v : Value}

theorem availableAt (hf : f.Ssa) (hsub : ∀ i ∈ before, i ∈ before') (hv : f.AvailableAt b before v) :
    g.AvailableAt b before' v :=
  hv.mono fun j hj => hj.imp (hsub j) fun ⟨d, hne, hjd, hdom⟩ =>
    ⟨d, hne, h.mem_body hf hjd, (h.sameEdges hf.toCoherent).dominates_iff.mpr hdom⟩

/-- The fold is available where the value of the latch is, if it stands before as well. -/
theorem availableAt_fold (hf : f.Ssa) (hfold : latch ∈ before → f.insts.size ∈ before')
    (hv : f.AvailableAt b before (.inst latch)) : g.AvailableAt b before' (.inst f.insts.size) :=
  Or.imp hfold (fun ⟨d, hne, hd, hdom⟩ =>
    ⟨d, hne, h.fold_mem_body hf hd, (h.sameEdges hf.toCoherent).dominates_iff.mpr hdom⟩) hv

theorem availableAt_standIn (hf : f.Ssa) (hsub : ∀ i ∈ before, i ∈ before')
    (hfold : c ∉ l.blocks → latch ∈ before → f.insts.size ∈ before')
    (hv : f.AvailableAt b before v) :
    g.AvailableAt b before' ((r.standIn l n latch f.insts.size c).value v) := by
  by_cases hc : c ∈ l.blocks
  · rw [standIn_of_mem hc, Substitution.value_single]
    split
    · trivial
    · exact h.availableAt hf hsub hv
  · rw [standIn_of_not_mem hc, Substitution.value_single]
    split
    · rename_i hlatch
      exact h.availableAt_fold hf (hfold hc) (hlatch ▸ hv)
    · exact h.availableAt hf hsub hv

theorem availableAt_end (hf : f.Ssa) (hv : f.AvailableAt b (f.body b) v) :
    g.AvailableAt b (g.body b) ((r.standIn l n latch f.insts.size c).value v) :=
  h.availableAt_standIn hf (fun _ => h.mem_body hf) (fun _ => h.fold_mem_body hf) hv

theorem map_fst_incoming (F : r.Foldable f l n pred latch) (hb : i ∈ f.body b) :
    (g.inst i).incoming.map Prod.fst = (f.inst i).incoming.map Prod.fst := by
  by_cases hi : i = r.phi
  · subst hi
    have hmem := List.mem_map_of_mem (f := Prod.fst) (Func.mem_incoming F.incoming)
    rw [h.root, Func.incoming_mapIncoming (Func.isPhi_of_mem_phis F.chain.phi_mem),
      Func.map_fst_setEntry _ hmem]
  · rw [h.inst b i hb hi, Func.incoming_map, List.map_map]
    rfl

/-- Folding keeps static single assignment form. -/
theorem ssa (F : r.Foldable f l n pred latch) : g.Ssa where
  toCoherent := h.coherent
  entry_pred b := by
    rw [h.sameEdges F.ssa.toCoherent b]
    exact F.ssa.entry_pred b
  nodup := h.nodup
  phis_first := h.phis_first
  entries b hr phi hphi := by
    have hedges := h.sameEdges F.ssa.toCoherent
    rw [h.phis] at hphi
    have hentries := F.ssa.entries b (hedges.reachable_iff.mp hr) phi hphi
    have hfst := h.map_fst_incoming F (Func.mem_body_of_mem_phis hphi)
    refine ⟨hfst ▸ hentries.nodup, fun p hp => ?_, fun p hp hb => ?_⟩
    · rw [h.size_blocks]
      exact hentries.lt p (hfst ▸ hp)
    · rw [hfst]
      exact hentries.complete p (hedges.reachable_iff.mp hp) (hedges p ▸ hb)
  inst b hr pre i post e hphi v hv := by
    have hr := (h.sameEdges F.ssa.toCoherent).reachable_iff.mp hr
    rcases h.of_body_eq F.ssa e with ⟨before, after, ef, hsub⟩ | ⟨rfl, hlatch, hphis, after, ef⟩
    · -- an instruction that was there uses what stands for what it used
      have hi : i ∈ f.body b := ef ▸ List.mem_append_right _ List.mem_cons_self
      have hroot : i ≠ r.phi := by
        rintro rfl
        rw [Func.isPhi, h.root] at hphi
        rw [Func.isPhi_mapIncoming] at hphi
        cases hphi.symm.trans (Func.isPhi_of_mem_phis F.chain.phi_mem)
      rw [Func.isPhi, h.inst b i hi hroot, Instr.isPhi_map] at hphi
      rw [h.inst b i hi hroot, Instr.uses_map] at hv
      obtain ⟨w, hw, rfl⟩ := List.mem_map.mp hv
      refine h.availableAt_standIn F.ssa hsub (fun hb hlatch => ?_)
        (F.ssa.inst b hr before i after ef hphi w hw)
      -- outside the loop the latch value stands in another block
      obtain ⟨c, hc, hlc⟩ := F.exists_latch_block
      have hlb : latch ∈ f.body b := ef ▸ List.mem_append_left _ hlatch
      exact absurd (F.ssa.eq_of_mem_body hlb hlc ▸ hc) hb
    · -- the fold uses the root and the value of the latch
      obtain ⟨c, -, hfold⟩ := h.fold
      rw [hfold] at hv
      rcases List.mem_pair.mp hv with rfl | rfl
      · have hlb : latch ∈ f.body b := ef ▸ List.mem_append_left _ hlatch
        by_cases hb : l.header = b
        · exact .inl (hphis _ (hb ▸ F.chain.phi_mem))
        · exact .inr ⟨l.header, hb, h.mem_body F.ssa (Func.mem_body_of_mem_phis F.chain.phi_mem),
            (h.sameEdges F.ssa.toCoherent).dominates_iff.mpr
              (F.chain.dominates F.ssa F.headed F.latch_mem hlb)⟩
      · exact .inl hlatch
  phi b hr phi hphi e he hre hb := by
    have hedges := h.sameEdges F.ssa.toCoherent
    rw [h.phis] at hphi
    have havail := F.ssa.phi b (hedges.reachable_iff.mp hr) phi hphi
    have hre := hedges.reachable_iff.mp hre
    rw [hedges] at hb
    by_cases hroot : phi = r.phi
    · subst hroot
      rw [h.root] at he
      rcases Func.mem_setEntry (Func.mem_incoming_mapIncoming he) with he | rfl
      · exact h.availableAt F.ssa (fun _ => h.mem_body F.ssa) (havail e he hre hb)
      · exact h.availableAt_fold F.ssa (h.fold_mem_body F.ssa)
          (havail _ (Func.mem_incoming F.incoming) hre hb)
    · rw [h.inst b phi (Func.mem_body_of_mem_phis hphi) hroot, Func.incoming_map] at he
      obtain ⟨e0, he0, rfl⟩ := List.mem_map.mp he
      exact h.availableAt_end F.ssa (havail e0 he0 hre hb)
  exit b hr v hv := by
    have hr := (h.sameEdges F.ssa.toCoherent).reachable_iff.mp hr
    rw [h.term b ((F.ssa.layout b).mpr (hr.lt F.ssa.toClosed)), Terminator.uses_map] at hv
    obtain ⟨w, hw, rfl⟩ := List.mem_map.mp hv
    exact h.availableAt_end F.ssa (F.ssa.exit b hr w hw)

/-! ## Types -/

theorem typeOf (hv : f.Defines v) : g.typeOf v = f.typeOf v := by
  cases v with
  | const c => rfl
  | param k =>
    show g.params[k]?.getD .void = f.params[k]?.getD .void
    rw [h.params]
  | inst i => exact h.ty i hv

theorem ty_fold : (g.inst f.insts.size).ty = (f.inst r.phi).ty := by
  obtain ⟨b, -, hfold⟩ := h.fold
  rw [hfold]

theorem typeOf_standIn (F : r.Foldable f l n pred latch) (hv : f.Defines v) :
    g.typeOf ((r.standIn l n latch f.insts.size c).value v) = f.typeOf v := by
  by_cases hc : c ∈ l.blocks
  · rw [standIn_of_mem hc, Substitution.value_single]
    split
    · rename_i hroot
      rw [hroot]
      exact ReductionKind.ty_neutral F.isFloat F.neutral
    · exact h.typeOf hv
  · rw [standIn_of_not_mem hc, Substitution.value_single]
    split
    · rename_i hlatch
      rw [hlatch]
      exact (h.ty_fold).trans F.ty_latch.symm
    · exact h.typeOf hv

omit h in
theorem isTyped_standIn (F : r.Foldable f l n pred latch) {fold : InstId} (hv : v.IsTyped) :
    ((r.standIn l n latch fold c).value v).IsTyped := by
  by_cases hc : c ∈ l.blocks
  · rw [standIn_of_mem hc, Substitution.value_single]
    split
    · show n.val.HasTy n.ty
      rw [ReductionKind.ty_neutral F.isFloat F.neutral]
      exact ReductionKind.hasTy_neutral F.isFloat F.neutral
    · exact hv
  · rw [standIn_of_not_mem hc, Substitution.value_single]
    split
    · trivial
    · exact hv

theorem typesAgree (F : r.Foldable f l n pred latch) : g.TypesAgree := by
  intro b i hi
  rcases h.of_mem_body F.ssa hi with hi | ⟨rfl, -⟩
  · by_cases hroot : i = r.phi
    · subst hroot
      rw [h.root]
      exact (F.typesAgree b _ hi).setEntry (w := .inst f.insts.size)
        (Func.isPhi_of_mem_phis F.chain.phi_mem) (fun v hv => h.typeOf (F.ssa.inputs _ v hv)) trivial
        h.ty_fold pred
    · rw [h.inst b i hi hroot]
      exact (F.typesAgree b i hi).map
        (fun v hv => h.typeOf_standIn F (F.ssa.inputs i v hv)) fun v _ hv => isTyped_standIn F hv
  · obtain ⟨b, -, hfold⟩ := h.fold
    rw [hfold]
    refine ⟨fun v hv => ?_, nofun, ?_⟩
    · rcases List.mem_pair.mp hv with rfl | rfl <;> trivial
    · rintro _ _ ⟨⟩
      show [g.typeOf (.inst r.phi), g.typeOf (.inst latch)] = _
      rw [show g.typeOf (.inst r.phi) = _ from h.ty _ F.root_lt,
        show g.typeOf (.inst latch) = _ from h.ty _ F.latch_lt, F.ty_latch]

/-! ## The other chains -/

omit h in
/-- What stands for a value is no other instruction but the fold. -/
theorem of_standIn_eq_inst {fold : InstId} (he : e ≠ fold)
    (hv : (r.standIn l n latch fold c).value v = .inst e) : v = .inst e := by
  by_cases hc : c ∈ l.blocks
  · rw [standIn_of_mem hc, Substitution.value_single] at hv
    split at hv
    · cases hv
    · exact hv
  · rw [standIn_of_not_mem hc, Substitution.value_single] at hv
    split at hv
    · exact absurd (Value.inst.inj hv).symm he
    · exact hv

theorem of_mem_uses (hi : i ∈ f.body b) (he : e ≠ f.insts.size) (hv : .inst e ∈ (g.inst i).uses) :
    .inst e ∈ (f.inst i).uses := by
  by_cases hroot : i = r.phi
  · subst hroot
    rw [h.root] at hv
    rcases List.mem_append.mp hv with hv | hv
    · exact List.mem_append_left _ ((Func.mem_inputs_setEntry hv).resolve_right fun h =>
        he (Value.inst.inj h))
    · rw [Func.mask_mapIncoming] at hv
      exact List.mem_append_right _ hv
  · rw [h.inst b i hi hroot, Instr.uses_map] at hv
    obtain ⟨w, hw, hwe⟩ := List.mem_map.mp hv
    exact of_standIn_eq_inst he hwe ▸ hw

theorem of_mem_term_uses (hb : b ∈ f.layout) (he : e ≠ f.insts.size) (hv : .inst e ∈ (g.term b).uses) :
    .inst e ∈ (f.term b).uses := by
  rw [h.term b hb, Terminator.uses_map] at hv
  obtain ⟨w, hw, hwe⟩ := List.mem_map.mp hv
  exact of_standIn_eq_inst he hwe ▸ hw

variable {r' : Reduction}

/-- The root of another chain stays as it is. -/
theorem inst_root (F : r.Foldable f l n pred latch) (hc : r'.IsChain f l) (hne : r'.phi ≠ r.phi) :
    g.inst r'.phi = f.inst r'.phi := by
  have hbody := Func.mem_body_of_mem_phis hc.phi_mem
  rw [h.inst _ _ hbody hne, standIn_of_mem F.headed.header_mem]
  refine Func.map_inst_eq_self (Func.value_single_of_not_mem fun huse => ?_)
  have hmem := F.chain.user _ F.headed.header_mem _ hbody _ F.chain.phi_element huse
  exact (F.chain.phi _ hmem hne (Func.isPhi_of_mem_phis hc.phi_mem)).1 hbody

/-- The other chains of the loop stay chains. -/
theorem isChain (F : r.Foldable f l n pred latch) (hc : r'.IsChain f l) (hne : r'.phi ≠ r.phi) :
    r'.IsChain g l := by
  have hroot := F.root_not_mem hc hne
  have hlatch := F.latch_not_mem hc hne
  have hlt : ∀ e ∈ r'.elements, e ≠ f.insts.size := fun e he => by
    obtain ⟨b, -, hb⟩ := hc.mem e he
    exact Nat.ne_of_lt (F.ssa.body_lt b e hb)
  -- the elements are in the loop, where the neutral element stands for the root
  have hinst : ∀ i ∈ r'.elements, g.inst i =
      (f.inst i).map id (Substitution.single (.inst r.phi) (.const n)).value := fun i hi => by
    obtain ⟨b, hb, hib⟩ := hc.mem i hi
    rw [h.inst b i hib fun e => hroot (e ▸ hi), standIn_of_mem hb]
  have hphi : ∀ i ∈ r'.elements, g.isPhi i = f.isPhi i := fun i hi => by
    rw [Func.isPhi, hinst i hi, Instr.isPhi_map, Func.isPhi]
  have hold : ∀ b, ∀ i ∈ r'.elements, i ∈ g.body b → i ∈ f.body b := fun b i hi hib =>
    (h.of_mem_body F.ssa hib).resolve_right fun e => hlt i hi e.1
  constructor
  case phi_mem => exact h.phis l.header ▸ hc.phi_mem
  case phi_element => exact hc.phi_element
  case mem =>
    intro i hi
    obtain ⟨b, hb, hib⟩ := hc.mem i hi
    exact ⟨b, hb, h.mem_body F.ssa hib⟩
  case phi =>
    intro i hi hne' hp
    obtain ⟨hout, hin⟩ := hc.phi i hi hne' (hphi i hi ▸ hp)
    refine ⟨fun hmem => hout (hold _ i hi hmem), fun v hv => ?_⟩
    rw [hinst i hi, Instr.inputs_map] at hv
    obtain ⟨w, hw, rfl⟩ := List.mem_map.mp hv
    obtain ⟨e, he, rfl⟩ := hin w hw
    refine ⟨e, he, ?_⟩
    rw [Substitution.value_single, if_neg fun e' => hroot ((Value.inst.inj e' : e = r.phi) ▸ he)]
  case update =>
    intro i hi hp
    obtain ⟨hmask, args, hop, hcount⟩ := hc.update i hi (hphi i hi ▸ hp)
    rw [hinst i hi]
    refine ⟨?_, args.map (Substitution.single (.inst r.phi) (.const n)).value, ?_, ?_⟩
    · show (f.inst i).mask.map _ = none
      rw [hmask]
      rfl
    · show (f.inst i).op.map _ _ = _
      rw [hop]
      rfl
    · rw [List.filter_map, List.length_map, ← hcount]
      refine congrArg (fun p => (List.filter p args).length) (funext fun v => ?_)
      rw [Function.comp_apply, Substitution.value_single]
      split
      · rename_i e
        rw [e]
        exact (Bool.eq_false_iff.mpr fun h => hroot (List.contains_iff_mem.mp h)).symm
      · rfl
  case user =>
    intro b hb i hib e he huse
    rcases h.of_mem_body F.ssa hib with hib | ⟨rfl, -⟩
    · exact hc.user b hb i hib e he (h.of_mem_uses hib (hlt e he) huse)
    · obtain ⟨b, -, hfold⟩ := h.fold
      rw [hfold] at huse
      rcases List.mem_pair.mp huse with e' | e' <;> cases e'
      · exact absurd he hroot
      · exact absurd he hlatch
  case exit =>
    intro b hb e he huse
    by_cases hbl : b ∈ f.layout
    · exact hc.exit b hb e he (h.of_mem_term_uses hbl (hlt e he) huse)
    · rw [F.ssa.layout, Nat.not_lt] at hbl
      rw [Cfg.term_of_size_le (h.size_blocks ▸ hbl)] at huse
      cases huse
  case observed =>
    intro u hu hout e he huse
    cases u with
    | terminator b =>
      have hb : b ∈ f.layout := h.layout ▸ g.mem_users_terminator.mp hu
      exact hc.observed (.terminator b) (f.mem_users_terminator.mpr hb) hout e he
        (h.of_mem_term_uses hb (hlt e he) huse)
    | inst i =>
      obtain ⟨b, -, hib⟩ := g.mem_users_inst.mp hu
      have hblock : g.userBlock (.inst i) = b := h.coherent.placed b i hib
      rcases h.of_mem_body F.ssa hib with hib' | ⟨rfl, hlb⟩
      · refine hc.observed (.inst i) (F.ssa.mem_users hib') ?_ e he (h.of_mem_uses hib' (hlt e he) huse)
        rwa [Func.userBlock, F.ssa.placed b i hib', ← hblock]
      · obtain ⟨c, hc', hlc⟩ := F.exists_latch_block
        rw [hblock, F.ssa.eq_of_mem_body hlb hlc] at hout
        exact absurd hc' hout
  case latch => exact hc.latch
  case latch_value =>
    rw [h.inst_root F hc hne]
    exact hc.latch_value

end FoldsOnce

end Reduction

/-- The region knows the value of the latch of a chain. -/
theorem Stage.exists_regionLatch {s : Stage} {l : Loop} {r : Reduction} (hf : s.func.Ssa)
    (hh : s.func.Headed l) (hc : r.IsChain s.func l) (hin : s.info.inRegion = l.contains) :
    ∃ pred latch, s.regionLatch? r.phi = some (pred, latch) ∧ pred ∈ l.blocks ∧
      s.func.incomingValue? r.phi pred = some (.inst latch) ∧ r.latchValue = .inst latch := by
  obtain ⟨latch, hlatch, hv⟩ := hc.latch
  obtain ⟨b, hb, hlb⟩ := hc.mem latch hlatch
  have hdef : ∀ j, s.info.definesValue s.func (.inst j) = true ↔ (s.func.inst j).block ∈ l.blocks := by
    intro j
    show s.info.inRegion _ = true ↔ _
    rw [hin]
    exact List.contains_iff_mem
  have hlatchDef : s.info.definesValue s.func (.inst latch) = true :=
    (hdef latch).mpr (hf.placed b latch hlb ▸ hb)
  obtain ⟨p, hp, q, hq, w, e⟩ := Reduction.Search.latchValue?_cases hc.latch_value
  have hpq : (p == q) = false := beq_eq_false_iff_ne.mpr fun e => hq (e ▸ hp)
  have hqp : (q == p) = false := beq_eq_false_iff_ne.mpr fun e => hq (e ▸ hp)
  rw [hv] at e
  have hsome : ((Value.inst latch).inst?.filter fun _ =>
      s.info.definesValue s.func (.inst latch)) = some latch :=
    Option.filter_eq_some_iff.mpr ⟨rfl, hlatchDef⟩
  refine ⟨p, latch, ?_, hp, ?_, hv⟩
  · unfold Stage.regionLatch?
    rcases e with e | e <;> rw [e]
    · dsimp only
      rw [hsome]
    · -- the value from outside comes first, and is none of the region
      have hw : (w.inst?.filter fun _ => s.info.definesValue s.func w) = none := by
        cases w with
        | inst j =>
          refine Option.filter_eq_none_iff.mpr fun _ _ hin => ?_
          refine hc.block_not_mem hf hh hq (j := j) ?_ ((hdef j).mp hin)
          simp [Func.incomingValue?, e]
        | _ => rfl
      dsimp only
      rw [hw, hsome]
  · unfold Func.incomingValue?
    rcases e with e | e <;> simp [e, List.lookup_cons, hpq]

end Lockstep
