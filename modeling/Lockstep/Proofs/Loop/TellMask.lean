import Lockstep.Proofs.Loop.Annotate
import Lockstep.Proofs.Loop.Normalize

/-!
# Masks tell where control goes

In a single lane the mask of a block is true whenever control is in the block, and the mask of an
edge tells whether control takes the edge. Making masks keeps a stage so (`Traced`): the phi of a
block with several predecessors is complete once the masks of its edges have been made.
-/

namespace Lockstep

/-- What the mask of an edge tells: that the edge may be taken and, unless the edge leaves a loop,
that no other one is. -/
def TellsEdge (f : Func) (anyFn : FuncId) (leaves : BlockId → BlockId → Prop) (γ : Overlay)
    (p q : BlockId) (v : Value) : Prop :=
  ∃ φ, Tells f anyFn γ p (γ.ops p) v φ ∧ φ q = true ∧
    (¬ leaves p q → ∀ n ∈ (f.term p).targets, φ n = true → n = q)

variable {f t : Func} {anyFn : FuncId} {leaves : BlockId → BlockId → Prop} {γ γ' γ'' : Overlay}
  {b p q : BlockId} {u v : Value} {φ ψ : BlockId → Bool} {fresh : List InstId}

theorem TellsEdge.mono (h : TellsEdge f anyFn leaves γ p q v) (hle : γ.Le γ') :
    TellsEdge f anyFn leaves γ' p q v := by
  obtain ⟨φ, htells, hφ⟩ := h
  exact ⟨φ, (htells.mono hle).mono_ops (hle.ops_prefix p), hφ⟩

/-- A mask that tells something at the end of a block was computed before that block is left. -/
theorem TellsEdge.dominates (h : TellsEdge f anyFn leaves γ p q v) (hA : Annotates f anyFn γ t)
    (hf : f.WellFormed) (hp : f.Reachable p) {i : InstId} (hi : v = .inst i) :
    i < γ.size ∧ f.Dominates (γ.code i).block p := by
  obtain ⟨φ, htells, -⟩ := h
  exact hA.dominates hf htells hp hi

/-! ## Operations that tell something -/

/-- `γ'` has some more operations than `γ`. -/
structure Overlay.MoreOps (γ γ' : Overlay) : Prop extends γ.Grows γ' where
  phis : γ'.phis = γ.phis

theorem Overlay.MoreOps.refl (γ : Overlay) : γ.MoreOps γ := ⟨.refl γ, rfl⟩

theorem Overlay.MoreOps.trans (h : γ.MoreOps γ') (h' : γ'.MoreOps γ'') : γ.MoreOps γ'' :=
  ⟨h.toGrows.trans h'.toGrows, h'.phis.trans h.phis⟩

theorem targets_ne_nil (h : ∃ c onTrue onFalse, f.term b = .brIf c onTrue onFalse) :
    (f.term b).targets ≠ [] := by
  obtain ⟨c, onTrue, onFalse, e⟩ := h
  rw [e]
  exact List.cons_ne_nil _ _

/-- What was built at the end of a block tells `φ`. -/
def BuildsTold (f : Func) (anyFn : FuncId) (γ : Overlay) (b : BlockId) (r : Value × Builder)
    (φ : BlockId → Bool) : Prop :=
  r.2.point = .blockEnd b ∧ ∃ γ', γ.MoreOps γ' ∧ Annotates f anyFn γ' r.2.func ∧
    Tells f anyFn γ' b (γ'.ops b) r.1 φ

section

variable (hA : Annotates f anyFn γ t)
  (hbranch : ∃ c onTrue onFalse, f.term b = .brIf c onTrue onFalse)

theorem BuildsTold.pure (hA : Annotates f anyFn γ t) (h : Tells f anyFn γ b (γ.ops b) v φ) :
    BuildsTold f anyFn γ b ((pure v : Build Value) ⟨t, .blockEnd b⟩) φ :=
  ⟨rfl, γ, .refl γ, hA, h⟩

include hA hbranch

/-- A gate that is built tells what it computes. -/
theorem exists_gateOverlay {o : Op} (ty : Ty) (hgate : IsGate f anyFn γ b (γ.ops b) o) :
    ∃ γ', γ.MoreOps γ' ∧ γ'.ops b = γ.ops b ++ [t.insts.size] ∧
      (t.insts.size < γ'.size ∧ (γ'.code t.insts.size).block = b) ∧
      γ'.code t.insts.size = { op := o, ty, block := b } ∧
      Annotates f anyFn γ' (t.append b { op := o, ty, block := b }).2 := by
  obtain ⟨c, onTrue, onFalse, hb⟩ := hbranch
  have hlt : b < f.blocks.size := f.lt_of_mem_targets (c := onTrue) (by rw [hb]; exact List.mem_cons_self)
  have hself : (γ.addOp b { op := o, ty, block := b }).code t.insts.size = { op := o, ty, block := b } := by
    rw [hA.size]
    exact γ.code_define_self _
  refine ⟨γ.addOp b { op := o, ty, block := b }, ⟨γ.grows_addOp _ b, rfl⟩, ?_, ⟨?_, ?_⟩, hself,
    hA.append hlt ⟨c, onTrue, onFalse, hb⟩ rfl rfl hgate⟩
  · rw [hA.size]
    exact if_pos rfl
  · rw [hA.size]
    exact Nat.lt_succ_self _
  · rw [hself]

theorem buildsTold_not (h : Tells f anyFn γ b (γ.ops b) v φ) :
    BuildsTold f anyFn γ b (Build.not v ⟨t, .blockEnd b⟩) fun n => !φ n := by
  unfold Build.not
  cases hv : v.bool? with
  | some x =>
    refine .pure hA (.congr (targets_ne_nil hbranch) hv h (.const b _ !x) fun n _ e => ?_)
    rw [e]
  | none =>
    obtain ⟨γ', hm, hops, hlt, hcode, hA'⟩ :=
      exists_gateOverlay hA hbranch (t.typeOf v) (.not h)
    refine ⟨rfl, γ', hm, hA', ?_⟩
    rw [hops]
    exact .not hlt (by rw [hcode]) (h.mono hm.toLe)

theorem buildsTold_and (hu : Tells f anyFn γ b (γ.ops b) u φ) (hv : Tells f anyFn γ b (γ.ops b) v ψ) :
    BuildsTold f anyFn γ b (Build.and u v ⟨t, .blockEnd b⟩) fun n => φ n && ψ n := by
  unfold Build.and
  split
  · rename_i hx
    refine .pure hA (.congr (targets_ne_nil hbranch) hx hu hv fun n _ e => ?_)
    rw [e, Bool.true_and]
  · split
    · rename_i hx
      refine .pure hA (.congr (targets_ne_nil hbranch) hx hv hu fun n _ e => ?_)
      rw [e, Bool.and_true]
    · obtain ⟨γ', hm, hops, hlt, hcode, hA'⟩ :=
        exists_gateOverlay hA hbranch (t.typeOf u) (.and hu hv)
      refine ⟨rfl, γ', hm, hA', ?_⟩
      rw [hops]
      exact .and hlt (by rw [hcode]) (hu.mono hm.toLe) (hv.mono hm.toLe)

/-- The condition of an edge is narrowed to the lanes that take it. -/
theorem buildsTold_narrowed (hu : Tells f anyFn γ b (γ.ops b) u φ)
    (hv : Tells f anyFn γ b (γ.ops b) v ψ) (positive : Prop) [Decidable positive] :
    ∃ γ', γ.MoreOps γ' ∧ Annotates f anyFn γ' (Stage.narrowed v u positive ⟨t, .blockEnd b⟩).2.func ∧
      Tells f anyFn γ' b (γ'.ops b) (Stage.narrowed v u positive ⟨t, .blockEnd b⟩).1.2
        fun n => φ n && if positive then ψ n else !ψ n := by
  rw [Stage.narrowed_apply]
  have htaken : BuildsTold f anyFn γ b (Stage.takenBy v positive ⟨t, .blockEnd b⟩) fun n =>
      if positive then ψ n else !ψ n := by
    unfold Stage.takenBy
    by_cases hp : positive
    · simp only [if_pos hp]
      exact .pure hA hv
    · simp only [if_neg hp]
      exact buildsTold_not hA hbranch hv
  obtain ⟨hpoint, γ1, hm1, hA1, htells1⟩ := htaken
  rcases hr : Stage.takenBy v positive ⟨t, .blockEnd b⟩ with ⟨taken, t1, point1⟩
  rw [hr] at hpoint hA1 htells1
  cases hpoint
  have hand := buildsTold_and hA1 hbranch ((hu.mono hm1.toLe).mono_ops (hm1.ops_prefix b)) htells1
  obtain ⟨-, γ2, hm2, hA2, htells2⟩ := hand
  exact ⟨γ2, hm1.trans hm2, hA2, htells2⟩

end

/-! ## Stages -/

/-- A stage whose function has an overlay, and whose masks tell what they should. All phis but those
in `fresh` are complete. -/
structure Traced (f : Func) (anyFn : FuncId) (leaves : BlockId → BlockId → Prop)
    (fresh : List InstId) (γ : Overlay) (s : Stage) : Prop where
  annotates : Annotates f anyFn γ s.func
  complete : ∀ b, ∀ i ∈ γ.phis b, i ∉ fresh → γ.Complete f anyFn b i
  block : ∀ b m, s.masks.block? b = some m → Tells f anyFn γ b [] m fun _ => true
  edge : ∀ p q m, s.masks.edge? p q = some m → TellsEdge f anyFn leaves γ p q m

namespace Traced

variable {s s' : Stage}

/-- A stage with more operations. -/
theorem moreOps (h : Traced f anyFn leaves fresh γ s) (hm : γ.MoreOps γ')
    (hA : Annotates f anyFn γ' t) : Traced f anyFn leaves fresh γ' { s with func := t } where
  annotates := hA
  complete b i hi hfresh := by
    rw [hm.phis] at hi
    exact (h.complete b i hi hfresh).mono (h.annotates.phis b i hi).2.1 hm.toGrows
  block b m hb := (h.block b m hb).mono hm.toLe
  edge p q m he := (h.edge p q m he).mono hm.toLe

theorem setInfo (h : Traced f anyFn leaves fresh γ s) (info : VectorInfo) :
    Traced f anyFn leaves fresh γ { s with info } :=
  ⟨h.annotates, h.complete, h.block, h.edge⟩

theorem setEdgeMask (h : Traced f anyFn leaves fresh γ s) (hv : TellsEdge f anyFn leaves γ p q v) :
    Traced f anyFn leaves fresh γ { s with masks := s.masks.setEdge p q v } where
  annotates := h.annotates
  complete := h.complete
  block := h.block
  edge x y m hm := by
    have hm : (s.masks.setEdge p q v).edge? x y = some m := hm
    rw [Masks.edge?_setEdge] at hm
    split at hm
    · rename_i e
      cases hm
      cases e
      exact hv
    · exact h.edge x y m hm

theorem setBlockMask (h : Traced f anyFn leaves fresh γ s)
    (hv : Tells f anyFn γ b [] v fun _ => true) : Traced f anyFn leaves fresh γ
      { s with info := s.info.setPredicate b v, masks := s.masks.setBlock b v } where
  annotates := h.annotates
  complete := h.complete
  block c m hm := by
    have hm : (s.masks.setBlock b v).block? c = some m := hm
    rw [Masks.block?_setBlock] at hm
    split at hm
    · rename_i e
      cases hm
      rw [e]
      exact hv
    · exact h.block c m hm
  edge := h.edge

/-- A new phi is complete later. -/
theorem appendPhi (h : Traced f anyFn leaves fresh γ s) (hf : f.WellFormed)
    (hb : b < f.blocks.size) (hne : b ≠ f.entry) (ty : Ty) (incoming : List (BlockId × Value))
    (isMask : Bool) : Traced f anyFn leaves (s.func.insts.size :: fresh)
      (γ.addPhi b isMask { op := .phi incoming, ty, block := b })
      { s with func := (s.func.appendPhi b ty incoming).2 } where
  annotates := h.annotates.appendPhi hf hb hne ty incoming isMask
  complete c i hi hfresh := by
    have hg := γ.grows_addPhi { op := .phi incoming, ty, block := b } b isMask
    have hold : i ∈ γ.phis c := by
      have hi : i ∈ if c = b then γ.phis b ++ [γ.size] else γ.phis c := hi
      split at hi
      · rename_i hc
        rcases List.mem_append.mp hi with hi | hi
        · exact hc ▸ hi
        · rw [List.mem_singleton.mp hi, ← h.annotates.size] at hfresh
          exact absurd List.mem_cons_self hfresh
      · exact hi
    exact (h.complete c i hold fun hmem => hfresh (List.mem_cons_of_mem _ hmem)).mono
      (h.annotates.phis c i hold).2.1 hg
  block c m hm := (h.block c m hm).mono (γ.grows_addPhi _ b isMask).toLe
  edge x y m hm := (h.edge x y m hm).mono (γ.grows_addPhi _ b isMask).toLe

/-- A phi that is not complete gets an entry. -/
theorem setIncoming (h : Traced f anyFn leaves fresh γ s) {phi : InstId} (hphi : phi ∈ γ.phis b)
    (hfresh : phi ∈ fresh) (pred : BlockId) (v : Value) :
    Traced f anyFn leaves fresh (γ.setIncoming phi pred v)
      { s with func := s.func.setIncoming phi pred v } where
  annotates := h.annotates.setIncoming hphi pred v
  complete c i hi hout := by
    have hle := γ.le_setIncoming phi pred v
    intro p hr hp
    obtain ⟨w, hw, htrue⟩ := h.complete c i hi hout p hr hp
    refine ⟨w, ?_, fun hmask => ?_⟩
    · show (if phi = i then Func.mapIncoming _ (γ.code i) else γ.code i).incoming.lookup p = some w
      rw [if_neg fun (e : phi = i) => hout (e ▸ hfresh), hw]
    · obtain ⟨φ, htells, hφ⟩ := htrue hmask
      exact ⟨φ, htells.mono hle, hφ⟩
  block c m hm := (h.block c m hm).mono (γ.le_setIncoming phi pred v)
  edge x y m hm := (h.edge x y m hm).mono (γ.le_setIncoming phi pred v)

/-- Uses of a value after its loop are redirected. -/
theorem replaceUses (h : Traced f anyFn leaves fresh γ s) {τ : Tracked}
    (hτ : IsTracked f anyFn γ τ) {users : List User}
    (hu : ∀ u ∈ users, s.func.userBlock u ∉ τ.loop.blocks) :
    Traced f anyFn leaves fresh (γ.addTracked τ)
      { s with func := s.func.substUsers (.single (.inst τ.value) (.inst τ.choice)) users } where
  annotates := h.annotates.replaceUses hτ hu
  complete c i hi hout := (h.complete c i hi hout).mono (h.annotates.phis c i hi).2.1
    (γ.grows_addTracked τ)
  block c m hm := (h.block c m hm).mono (γ.grows_addTracked τ).toLe
  edge x y m hm := (h.edge x y m hm).mono (γ.grows_addTracked τ).toLe

theorem setTerm (h : Traced f anyFn leaves fresh γ s) {c c' : Value}
    {onTrue onFalse onTrue' onFalse' : BlockId} (hb : f.term b = .brIf c onTrue onFalse)
    (ht : ∀ n, n = onTrue ∨ n = onFalse ↔ n = onTrue' ∨ n = onFalse')
    (hc : Tells f anyFn γ b (γ.ops b) c' fun n => n == onTrue') :
    Traced f anyFn leaves fresh γ { s with func := s.func.setTerm b (.brIf c' onTrue' onFalse') } :=
  ⟨h.annotates.setTerm hb ht hc, h.complete, h.block, h.edge⟩

/-- Phis that have become complete are not fresh any more. -/
theorem completed {fresh' : List InstId} (h : Traced f anyFn leaves fresh γ s)
    (hphi : ∀ i ∈ fresh, i ∈ fresh' ∨ ∀ b, i ∈ γ.phis b → γ.Complete f anyFn b i) :
    Traced f anyFn leaves fresh' γ s where
  annotates := h.annotates
  complete c i hi hout := by
    by_cases hmem : i ∈ fresh
    · exact (hphi i hmem).resolve_left hout c hi
    · exact h.complete c i hi hmem
  block := h.block
  edge := h.edge

end Traced

/-- Entries may be set in phis that came later. -/
theorem Overlay.Grows.setIncoming (h : γ.Grows γ') {phi : InstId} (hphi : γ.size ≤ phi)
    (pred : BlockId) (v : Value) : γ.Grows (γ'.setIncoming phi pred v) where
  toLe := h.toLe.trans (γ'.le_setIncoming phi pred v)
  kept i hi := by
    show (if phi = i then _ else γ'.code i) = _
    rw [if_neg fun (e : phi = i) => Nat.not_lt_of_le hphi (e ▸ hi), h.kept i hi]
  masks := h.masks

namespace Overlay

theorem code_setIncoming_of_ne {phi i : InstId} (h : phi ≠ i) (pred : BlockId) (v : Value) :
    (γ.setIncoming phi pred v).code i = γ.code i :=
  if_neg h

theorem isPhi_setIncoming (phi i : InstId) (pred : BlockId) (v : Value) :
    ((γ.setIncoming phi pred v).code i).isPhi = (γ.code i).isPhi := by
  show (if phi = i then Func.mapIncoming _ (γ.code i) else γ.code i).isPhi = _
  split
  · exact Func.isPhi_mapIncoming _ _
  · rfl

/-- The entries of a phi after one was set. -/
theorem lookup_setIncoming {phi : InstId} (hphi : (γ.code phi).isPhi = true) (pred : BlockId)
    (v : Value) (p : BlockId) : ((γ.setIncoming phi pred v).code phi).incoming.lookup p =
      if p = pred then some v else (γ.code phi).incoming.lookup p := by
  show (if phi = phi then Func.mapIncoming _ (γ.code phi) else γ.code phi).incoming.lookup p = _
  rw [if_pos rfl, Func.incoming_mapIncoming hphi, Func.lookup_setEntry]

end Overlay

/-! ## Masks of edges -/

namespace Stage

/-- A computation that gives a value with `R`, while the overlay grows. -/
def GivesTold (f : Func) (anyFn : FuncId) (leaves : BlockId → BlockId → Prop)
    (m : StateM Stage Value) (R : Overlay → Value → Prop) : Prop :=
  ∀ γ fresh, Triple (Traced f anyFn leaves fresh γ) m fun v s =>
    ∃ γ', γ.Grows γ' ∧ Traced f anyFn leaves fresh γ' s ∧ R γ' v

/-- Where the function has a branch there was one before uses were redirected, with the same
targets, and its condition tells which of them comes next. -/
theorem tells_cond (hA : Annotates f anyFn γ t) {c : Value} {onTrue onFalse : BlockId}
    (h : t.term b = .brIf c onTrue onFalse) :
    (∃ c' onTrue' onFalse', f.term b = .brIf c' onTrue' onFalse') ∧
      (∀ n ∈ (f.term b).targets, n = onTrue ∨ n = onFalse) ∧
      Tells f anyFn γ b (γ.ops b) c fun n => n == onTrue := by
  have hterm := hA.term b
  rw [h] at hterm
  generalize f.term b = u at hterm
  cases hterm with
  | @brIf c' _ onTrue' onFalse' _ _ ht htells =>
    refine ⟨⟨c', onTrue', onFalse', rfl⟩, fun n hn => (ht n).mp ?_, htells⟩
    simpa [Terminator.targets] using hn

/-- Where the function has no branch there was none before, and there is at most one target. -/
theorem eq_of_not_branch (hA : Annotates f anyFn γ t)
    (h : ∀ c onTrue onFalse, t.term b ≠ .brIf c onTrue onFalse) {n n' : BlockId}
    (hn : n ∈ (f.term b).targets) (hn' : n' ∈ (f.term b).targets) : n = n' := by
  have hterm := hA.term b
  generalize f.term b = u at hterm hn hn'
  generalize t.term b = u' at hterm h
  cases hterm with
  | unreachable => cases hn
  | ret _ => cases hn
  | br target => rw [List.mem_singleton.mp hn, List.mem_singleton.mp hn']
  | brIf _ _ => exact absurd rfl (h _ _ _)

theorem givesTold_edgeMaskBy {blockMask : BlockId → StateM Stage Value}
    (hb : ∀ b, f.Reachable b → GivesTold f anyFn leaves (blockMask b) fun γ v =>
      Tells f anyFn γ b [] v fun _ => true)
    (hp : f.Reachable p) (hq : q ∈ (f.term p).targets) :
    GivesTold f anyFn leaves (edgeMaskBy blockMask p q) fun γ v =>
      TellsEdge f anyFn leaves γ p q v := by
  intro γ₀ fresh
  let Told (R : Overlay → Prop) (s : Stage) : Prop :=
    ∃ γ, γ₀.Grows γ ∧ Traced f anyFn leaves fresh γ s ∧ R γ
  unfold edgeMaskBy
  refine Triple.bind Triple.get fun t => ?_
  split
  · rename_i mask hmask
    refine Triple.pure ?_
    rintro s ⟨rfl, hs⟩
    exact ⟨γ₀, .refl γ₀, hs, hs.edge p q mask hmask⟩
  refine Triple.bind ((hb p hp γ₀ fresh).mono (fun s hs => hs.2) fun _ _ hs => hs) fun predMask => ?_
  refine Triple.bind Triple.get fun t => ?_
  have hend : ∀ mask, Triple (Told fun γ => TellsEdge f anyFn leaves γ p q mask) (do
      setEdgeMask p q mask
      return mask) fun m => Told fun γ => TellsEdge f anyFn leaves γ p q m := by
    refine fun mask => Triple.bind (R := fun _ => Told fun γ => TellsEdge f anyFn leaves γ p q mask)
      (triple_setEdgeMask ?_) fun _ => Triple.pure fun s hs => hs
    rintro s ⟨γ, hg, hs, hm⟩
    exact ⟨γ, hg, hs.setEdgeMask hm, hm⟩
  split
  · rename_i cond onTrue onFalse hterm
    refine Triple.bind (R := fun r => Told fun γ => TellsEdge f anyFn leaves γ p q r.2) ?_ fun r => ?_
    · rintro s r s' ⟨rfl, γ, hg, hs, hm⟩ e
      obtain ⟨hbranch, htargets, hcond⟩ := tells_cond hs.annotates hterm
      obtain ⟨γ', hmore, hA, htells⟩ := buildsTold_narrowed hs.annotates hbranch
        (hm.mono_ops List.nil_prefix) hcond (onTrue = q)
      have e : build (.blockEnd p) (narrowed cond predMask (onTrue = q)) t = (r, s') := e
      cases e
      refine ⟨γ', hg.trans hmore.toGrows, hs.moreOps hmore hA, _, htells, ?_, fun _ n hn h => ?_⟩
      · by_cases e : onTrue = q
        · simp [e]
        · have hne : q ≠ onTrue := fun h => e h.symm
          simp [e, hne]
      · by_cases e : onTrue = q
        · simpa [e] using h
        · have hne : n ≠ onTrue := by simpa [e] using h
          have hn := (htargets n hn).resolve_left hne
          have hq := (htargets q hq).resolve_left fun h => e h.symm
          rw [hn, hq]
    · obtain ⟨taken, mask⟩ := r
      dsimp only
      refine Triple.bind (triple_forIn_setShape ?_) fun _ => hend mask
      rintro v - - s ⟨γ, hg, hs, hm⟩
      exact ⟨γ, hg, hs.setInfo _, hm⟩
  · rename_i hterm
    refine Triple.bind (Triple.pure ?_) hend
    rintro s ⟨rfl, γ, hg, hs, hm⟩
    refine ⟨γ, hg, hs, _, hm.mono_ops List.nil_prefix, rfl, fun _ n hn _ => ?_⟩
    exact eq_of_not_branch hs.annotates hterm hn hq

/-! ## Masks of blocks -/

/-- Control comes into a block with one predecessor from there, before the block. -/
theorem not_dominates_of_preds (hf : f.Closed) (hne : b ≠ f.entry)
    (hpreds : (Cfg.ofFunc f).preds b = [p]) : ¬ f.Dominates b p := by
  intro hdom
  have hmem : p ∈ (Cfg.ofFunc f).preds b := by rw [hpreds]; exact List.mem_singleton_self p
  obtain ⟨hr, hp⟩ := (Cfg.mem_preds hf).mp hmem
  obtain ⟨c, rfl, hpath⟩ := (hr.step hp).path.exists_first (· = b) rfl
  cases hpath with
  | refl => exact hne rfl
  | @tail x _ hx e =>
    have hxp : x ∈ (Cfg.ofFunc f).preds c :=
      (Cfg.mem_preds hf).mpr ⟨Cfg.reachable_of_path hx, e.2⟩
    rw [hpreds] at hxp
    obtain rfl := List.mem_singleton.mp hxp
    have hx : f.Path (fun y => y ≠ c) f.entry x := PathIn.mono hx fun y hy => hy.2
    exact e.1.2 (hdom hx)

/-- The mask of the only edge into a block is true in the block. -/
theorem tells_of_pred (hf : f.WellFormed) (hA : Annotates f anyFn γ t) (hne : b ≠ f.entry)
    (hpreds : (Cfg.ofFunc f).preds b = [p]) (h : TellsEdge f anyFn leaves γ p b v) :
    Tells f anyFn γ b [] v fun _ => true := by
  have hmem : p ∈ (Cfg.ofFunc f).preds b := by rw [hpreds]; exact List.mem_singleton_self p
  obtain ⟨hr, -⟩ := (Cfg.mem_preds hf.toClosed).mp hmem
  have hdom := fun i hi => h.dominates (i := i) hA hf hr hi
  obtain ⟨φ, htells, hφ, -⟩ := h
  have heq : ∀ x, f.Reachable x → b ∈ (f.term x).targets → x = p := by
    intro x hx hxb
    have hxp := (Cfg.mem_preds hf.toClosed).mpr ⟨hx, hxb⟩
    rw [hpreds] at hxp
    exact List.mem_singleton.mp hxp
  refine .region (· = b) (fun _ => φ) rfl (fun e => hne e.symm) (fun i hi => ?_) ?_ ?_
  · obtain ⟨hlt, hd⟩ := hdom i hi
    refine ⟨hlt, fun e => not_dominates_of_preds hf.toClosed hne hpreds (e ▸ hd)⟩
  · rintro x c hx - hc rfl
    obtain rfl := heq x hx hc
    exact htells
  · rintro x c - - - rfl
    exact hφ

/-- A phi of `b` that is a mask and has entries for the edges from `done`, which tell what they
should. -/
def PhiOfEdges (f : Func) (anyFn : FuncId) (leaves : BlockId → BlockId → Prop) (γ₀ : Overlay)
    (fresh : List InstId) (b : BlockId) (phi : InstId) (done : List BlockId) (s : Stage) : Prop :=
  ∃ γ, γ₀.Grows γ ∧ Traced f anyFn leaves (phi :: fresh) γ s ∧ (b, phi) ∈ γ.maskPhis ∧
    γ₀.size ≤ phi ∧ ∀ p ∈ done, ∃ v, (γ.code phi).incoming.lookup p = some v ∧
      TellsEdge f anyFn leaves γ p b v

/-- The masks of the edges from some predecessors become the entries of a phi. -/
theorem triple_phiOfEdges {blockMask : BlockId → StateM Stage Value} {γ₀ : Overlay} {phi : InstId}
    (hb : ∀ b, f.Reachable b → GivesTold f anyFn leaves (blockMask b) fun γ v =>
      Tells f anyFn γ b [] v fun _ => true)
    {preds : List BlockId} (hpreds : ∀ p ∈ preds, f.Reachable p ∧ b ∈ (f.term p).targets) :
    Triple (PhiOfEdges f anyFn leaves γ₀ fresh b phi [])
      (forIn preds PUnit.unit fun p _ => do
        let mask ← edgeMaskBy blockMask p b
        modifyFunc (·.setIncoming phi p mask)
        pure (.yield PUnit.unit))
      fun _ => PhiOfEdges f anyFn leaves γ₀ fresh b phi preds := by
  refine (Triple.forIn (J := fun rest s => ∃ done, preds = done ++ rest ∧
    PhiOfEdges f anyFn leaves γ₀ fresh b phi done s) preds ?_).mono
      (fun s hs => ⟨[], rfl, hs⟩) ?_
  · rintro p rest hp
    obtain ⟨hr, hq⟩ := hpreds p hp
    refine Triple.bind (R := fun m s => ∃ done, preds = done ++ p :: rest ∧ ∃ γ, γ₀.Grows γ ∧
      Traced f anyFn leaves (phi :: fresh) γ s ∧ (b, phi) ∈ γ.maskPhis ∧ γ₀.size ≤ phi ∧
        TellsEdge f anyFn leaves γ p b m ∧ ∀ p ∈ done, ∃ v,
          (γ.code phi).incoming.lookup p = some v ∧ TellsEdge f anyFn leaves γ p b v) ?_ fun m => ?_
    · rintro s m s' ⟨done, e, γ, hg, hs, hmask, hphi, hentries⟩ em
      obtain ⟨γ', hg', hs', hm⟩ := givesTold_edgeMaskBy hb hr hq γ (phi :: fresh) s m s' hs em
      refine ⟨done, e, γ', hg.trans hg', hs', hg'.maskPhis _ hmask, hphi, hm, fun x hx => ?_⟩
      obtain ⟨v, hv, htells⟩ := hentries x hx
      have hlt := (hs.annotates.phis b phi (hs.annotates.maskPhis _ hmask)).2.1
      exact ⟨v, by rw [hg'.kept phi hlt, hv], htells.mono hg'.toLe⟩
    · refine Triple.bind (R := fun _ s => ∃ done, preds = done ++ rest ∧
        PhiOfEdges f anyFn leaves γ₀ fresh b phi done s) (triple_modifyFunc ?_)
          fun _ => Triple.pure fun s hs => ⟨rfl, hs⟩
      rintro s ⟨done, e, γ, hg, hs, hmask, hphi, hm, hentries⟩
      have hmem := hs.annotates.maskPhis _ hmask
      have hle := γ.le_setIncoming phi p m
      have hlookup := Overlay.lookup_setIncoming (hs.annotates.phis b phi hmem).2.2.1 p m
      refine ⟨done ++ [p], by rw [e, List.append_assoc]; rfl, _, hg.setIncoming hphi p m,
        hs.setIncoming hmem List.mem_cons_self p m, hmask, hphi, fun x hx => ?_⟩
      rw [hlookup]
      split
      · rename_i hxp
        exact ⟨m, rfl, hxp ▸ hm.mono hle⟩
      · rename_i hxp
        have hx := (List.mem_append.mp hx).resolve_right fun h => hxp (List.mem_singleton.mp h)
        obtain ⟨v, hv, htells⟩ := hentries x hx
        exact ⟨v, hv, htells.mono hle⟩
  · rintro _ s ⟨done, e, h⟩
    rw [List.append_nil] at e
    exact e ▸ h

theorem givesTold_blockMaskWithin (hf : f.WellFormed) (fuel : Nat) (b : BlockId)
    (hb : f.Reachable b) : GivesTold f anyFn leaves (blockMaskWithin (.ofFunc f) fuel b) fun γ v =>
      Tells f anyFn γ b [] v fun _ => true := by
  induction fuel generalizing b with
  | zero => exact fun γ fresh => Triple.pure fun s hs => ⟨γ, .refl γ, hs, .const b [] true⟩
  | succ fuel ih =>
    intro γ₀ fresh
    let Told (R : Overlay → Prop) (s : Stage) : Prop :=
      ∃ γ, γ₀.Grows γ ∧ Traced f anyFn leaves fresh γ s ∧ R γ
    have hset : ∀ mask, Triple (Told fun γ => Tells f anyFn γ b [] mask fun _ => true) (do
        setBlockMask b mask
        return mask) fun m => Told fun γ => Tells f anyFn γ b [] m fun _ => true := by
      refine fun mask => Triple.bind (R := fun _ => Told fun γ => Tells f anyFn γ b [] mask fun _ => true)
        (triple_setBlockMask ?_) fun _ => Triple.pure fun s hs => hs
      rintro s ⟨γ, hg, hs, hm⟩
      exact ⟨γ, hg, hs.setBlockMask hm, hm⟩
    have htrue : Triple (Traced f anyFn leaves fresh γ₀) (do
        setBlockMask b (.ofBool true)
        return .ofBool true) fun m => Told fun γ => Tells f anyFn γ b [] m fun _ => true :=
      (hset (.ofBool true)).mono (fun s hs => ⟨γ₀, .refl γ₀, hs, .const b [] true⟩) fun _ _ hs => hs
    unfold blockMaskWithin
    refine Triple.bind Triple.get fun t => ?_
    split
    · rename_i mask hmask
      refine Triple.pure ?_
      rintro s ⟨rfl, hs⟩
      exact ⟨γ₀, .refl γ₀, hs, hs.block b mask hmask⟩
    split
    · exact htrue.mono (fun s hs => hs.2) fun _ _ hs => hs
    have hpred : ∀ p ∈ (Cfg.ofFunc f).preds b, f.Reachable p ∧ b ∈ (f.term p).targets :=
      fun p hp => (Cfg.mem_preds hf.toClosed).mp hp
    have hne : ∀ p ∈ (Cfg.ofFunc f).preds b, b ≠ f.entry := fun p hp e =>
      hf.entry_pred p (e ▸ (hpred p hp).2)
    split
    · exact htrue.mono (fun s hs => hs.2) fun _ _ hs => hs
    · rename_i p hpreds
      have hmem : p ∈ (Cfg.ofFunc f).preds b := by rw [hpreds]; exact List.mem_singleton_self p
      obtain ⟨hr, hp⟩ := hpred p hmem
      refine Triple.bind ((givesTold_edgeMaskBy ih hr hp γ₀ fresh).mono (fun s hs => hs.2) ?_) hset
      rintro m s ⟨γ, hg, hs, hm⟩
      exact ⟨γ, hg, hs, tells_of_pred hf hs.annotates (hne p hmem) hpreds hm⟩
    · rename_i hnil hone
      -- the phi is there, and is a mask, while the masks of the edges are made
      refine Triple.bind (R := fun phi s => PhiOfEdges f anyFn leaves γ₀ fresh b phi [] s)
        (triple_appendPhi ?_) fun phi => ?_
      · rintro s ⟨rfl, hs⟩
        obtain ⟨p, hp⟩ := List.exists_mem_of_ne_nil _ hnil
        have hlt : b < f.blocks.size := hf.target_lt p b (hpred p hp).2
        refine ⟨_, γ₀.grows_addPhi _ b true, hs.appendPhi hf hlt (hne p hp) .bool [] true, ?_, ?_,
          ?_⟩
        · rw [hs.annotates.size]
          exact List.mem_cons_self
        · exact Nat.le_of_eq hs.annotates.size.symm
        · exact fun _ h => absurd h List.not_mem_nil
      refine Triple.bind (R := fun _ s => PhiOfEdges f anyFn leaves γ₀ fresh b phi [] s)
        (triple_setShape ?_) fun _ => ?_
      · rintro s ⟨γ, hg, hs, h⟩
        exact ⟨γ, hg, hs.setInfo _, h⟩
      refine Triple.bind (R := fun _ s => PhiOfEdges f anyFn leaves γ₀ fresh b phi [] s)
        (triple_setBlockMask ?_) fun _ => ?_
      · rintro s ⟨γ, hg, hs, hmask, h⟩
        exact ⟨γ, hg, hs.setBlockMask (.phi hmask), hmask, h⟩
      refine Triple.bind (triple_phiOfEdges ih hpred) fun _ => Triple.pure ?_
      rintro s ⟨γ, hg, hs, hmask, -, hentries⟩
      refine ⟨γ, hg, hs.completed fun i hi => ?_, .phi hmask⟩
      refine (List.mem_cons.mp hi).symm.imp_right ?_
      rintro rfl c hc p hr hp
      obtain rfl := hs.annotates.eq_of_mem_phis hc (hs.annotates.maskPhis _ hmask)
      obtain ⟨v, hv, φ, htells, hφ, -⟩ := hentries p ((Cfg.mem_preds hf.toClosed).mpr ⟨hr, hp⟩)
      exact ⟨v, hv, fun _ => ⟨φ, htells, hφ⟩⟩

/-- The mask of a reachable block is true in the block. -/
theorem givesTold_blockMask (hf : f.WellFormed) (hb : f.Reachable b) :
    GivesTold f anyFn leaves (blockMask (.ofFunc f) b) fun γ v =>
      Tells f anyFn γ b [] v fun _ => true :=
  givesTold_blockMaskWithin hf _ b hb

/-- The mask of an edge tells that control takes it. -/
theorem givesTold_edgeMask (hf : f.WellFormed) (hp : f.Reachable p) (hq : q ∈ (f.term p).targets) :
    GivesTold f anyFn leaves (edgeMask (.ofFunc f) p q) fun γ v => TellsEdge f anyFn leaves γ p q v :=
  givesTold_edgeMaskBy (fun _ hb => givesTold_blockMask hf hb) hp hq

end Stage

end Lockstep
