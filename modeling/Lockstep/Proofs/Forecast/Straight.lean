import Lockstep.Proofs.Forecast.Steady
import Lockstep.Proofs.Linear.Linearize

/-!
# Straight code with known values

Making a branch straight keeps a stage steady: lanes that come to the branch then run through all blocks
of its chain. So does making all branches straight.
-/

namespace Lockstep

variable {ι : Type} {D : Doings ι} {P : ι → List BlockId} {K : Knowledge ι} {t : Stage} {b join : BlockId}
  {cs : List BlockId}

namespace Stage

theorem links_single (cs : List BlockId) (join : BlockId) :
    (cs.map Chain.single).zip (((cs.map Chain.single).drop 1).map ChainNode.entry ++ [join]) =
      (Func.links cs join).map fun p => (Chain.single p.1, p.2) := by
  have hentry : ((cs.map Chain.single).drop 1).map ChainNode.entry = cs.drop 1 := by
    rw [← List.map_drop, List.map_map]
    exact List.map_id _
  rw [hentry, Func.links, List.zip_map_left]
  rfl

theorem triple_knownBlockMask : TripleOk (· = t) (knownBlockMask b) fun m u =>
    u = t ∧ t.masks.block? b = some m := by
  rintro s m u rfl e
  exact (knownBlockMask_eq_ok e).symm

/-- The nodes of a chain of blocks are made to lead to each other. -/
theorem triple_linkAll {mask : Value} (l : List (BlockId × BlockId)) :
    TripleOk (· = t)
      (ForIn.forIn (l.map fun p => (Chain.single p.1, p.2)) PUnit.unit fun p _ => do
        redirect p.1 p.2
        setEdgeMask p.1.exit p.2 mask
        return ForInStep.yield PUnit.unit : StageM PUnit)
      fun _ u => u = l.foldl (linked mask) t := by
  refine (TripleOk.forIn (J := fun rest u => ∃ todo : List (BlockId × BlockId),
    rest = todo.map (fun p => (Chain.single p.1, p.2)) ∧
      todo.foldl (linked mask) u = l.foldl (linked mask) t) _ ?_).mono ?_ ?_
  · rintro p rest - u r u' ⟨todo, e, hfold⟩ hrun
    rcases todo with - | ⟨q, todo⟩
    · cases e
    · obtain ⟨rfl, rfl⟩ := List.cons.inj e
      cases hrun
      exact ⟨rfl, todo, rfl, hfold⟩
  · rintro u rfl
    exact ⟨l, rfl, rfl⟩
  · rintro _ u ⟨todo, e, hfold⟩
    rw [List.map_eq_nil_iff.mp e.symm] at hfold
    exact hfold

/-- The ways that control comes into the blocks of phis. -/
def phiWays (t : Stage) (P : ι → List BlockId) (phi : InstId) : Way ι :=
  t.func.way P (t.func.inst phi).block

/-- A stage on the way to the graph with a straight branch: of the blocks of the chain only those of `left`
still have phis. -/
structure Clearing (D : Doings ι) (P : ι → List BlockId) (t : Stage) (cs : List BlockId) (b join : BlockId)
    (mask : Value) (left : List BlockId) (u : Stage) : Prop where
  known : ∃ K, u.Bypassing D P t.func cs b join mask (t.phiWays P) K
  none : ∀ c ∈ cs, c ≠ b → c ∈ left ∨ u.func.phis c = []
  old : ∀ c phi, phi ∈ u.func.phis c → phi ∈ t.func.phis c

theorem phiWays_of_mem {c : BlockId} {phi : InstId} (ht : t.func.Coherent) (h : phi ∈ t.func.phis c) :
    t.phiWays P phi = t.func.way P c := by
  rw [phiWays, ht.placed c phi (Func.mem_body_of_mem_phis h)]

/-- The phis of one more block of the chain are merged. -/
theorem Clearing.mergePhis {u u' : Stage} {c : BlockId} {left : List BlockId} {mask : Value}
    (hf : t.func.Bypass D P cs b join) (ht : t.func.Coherent) (hc : c ∈ cs) (hcb : c ≠ b)
    (h : Clearing D P t cs b join mask (c :: left) u) (e : mergePhis c u = (.ok (), u')) :
    Clearing D P t cs b join mask left u' := by
  obtain ⟨K, hu⟩ := h.known
  obtain ⟨K', h1, h2, h3⟩ := mergePhis_spec hf hc hcb hu
    (fun phi hphi => phiWays_of_mem ht (h.old c phi hphi)) e
  refine ⟨⟨K', h1⟩, fun d hd hdb => ?_, fun d phi hphi => h.old d phi (h3 d phi hphi)⟩
  rcases h.none d hd hdb with hd | hd
  · rcases List.mem_cons.mp hd with rfl | hd
    · exact .inr h2
    · exact .inl hd
  · refine .inr (List.eq_nil_iff_forall_not_mem.mpr fun phi hphi => ?_)
    have := h3 d phi hphi
    rw [hd] at this
    cases this

/-- The phis of the blocks after the branch are merged. -/
theorem triple_clear {mask : Value} {rest : List BlockId} (hf : t.func.Bypass D P cs b join)
    (ht : t.func.Coherent) (hrest : cs = b :: rest) :
    TripleOk (Clearing D P t cs b join mask rest)
      (ForIn.forIn (rest.map Chain.single) PUnit.unit fun node _ => do
        if node.loop.isNone = true then Stage.mergePhis node.entry
        return ForInStep.yield PUnit.unit : StageM PUnit)
      fun _ => Clearing D P t cs b join mask [] := by
  refine (TripleOk.forIn (J := fun left u => ∃ todo : List BlockId, left = todo.map Chain.single ∧
    Clearing D P t cs b join mask todo u) _ ?_).mono (fun u hu => ⟨rest, rfl, hu⟩) ?_
  · rintro node tail hnode u r u' ⟨todo, e, hu⟩ hrun
    rcases todo with - | ⟨c, todo⟩
    · cases e
    · obtain ⟨rfl, rfl⟩ := List.cons.inj e
      obtain ⟨c', hc, hcc⟩ := List.mem_map.mp hnode
      have hcc : c' = c := congrArg ChainNode.entry hcc
      subst hcc
      obtain ⟨_, v, h1, h2⟩ := exists_of_bind_run_eq_ok hrun
      cases h2
      refine ⟨rfl, todo, rfl, hu.mergePhis hf ht (hrest ▸ List.mem_cons_of_mem _ hc) ?_ h1⟩
      rintro rfl
      exact (List.nodup_cons.mp (hrest ▸ hf.span.nodup)).1 hc
  · rintro _ u ⟨todo, e, hu⟩
    rwa [List.map_eq_nil_iff.mp e.symm] at hu

/-- Making a branch straight keeps everything known, along the graph that it gives. -/
theorem triple_linearizeBranch_steady {v : Value} {x y : BlockId} (hD : D.func.Coherent)
    (h : Steady D P K t) (hb : t.func.term b = .brIf v x y) :
    TripleOk (· = t) (linearizeBranch (.ofFunc t.func) b) fun _ u => ∃ P' K', Steady D P' K' u := by
  have hcode := h.foretold.runs.code
  have hc := hcode.coherent.toClosed
  unfold linearizeBranch
  split
  · rename_i join hjoin
    refine TripleOk.bind TripleOk.get fun t' => ?_
    refine TripleOk.bind triple_liftExcept fun bs => TripleOk.assume fun hbs => ?_
    refine TripleOk.bind triple_liftExcept fun ns => TripleOk.assume fun hns => ?_
    refine TripleOk.bind triple_liftExcept fun order => TripleOk.assume fun horder => ?_
    have hcomputed : Chain.Computed t'.info t.func b join bs ns order := ⟨hjoin, hbs, hns, horder⟩
    obtain ⟨cs, hchain, hspan, hnodes⟩ := hcomputed.exists_span hc h.acyclic
    choose P' hP' using fun l => hspan.exists_detour hc h.acyclic (h.course l)
    obtain ⟨rest, hrest⟩ := hspan.exists_cons
    obtain ⟨pre, last, hlast⟩ : ∃ pre last, cs = pre ++ [last] := by
      rcases List.eq_nil_or_concat cs with e | ⟨pre, last, e⟩
      · rw [hrest] at e
        cases e
      · exact ⟨pre, last, by rw [e, List.concat_eq_append]⟩
    rw [hchain]
    have hf : t.func.Bypass D P cs b join :=
      ⟨hD, h.foretold.blocks, hc, h.acyclic, hspan, h.course⟩
    refine TripleOk.bind ((triple_knownBlockMask (t := t) (b := b)).mono (fun u hu => hu.2)
      fun m u hu => hu) fun mask => TripleOk.assume fun hmask => ?_
    have hstart : Clearing D P t cs b join mask rest t := by
      refine ⟨⟨K, h.foretold.regraph (fun b => hf.reachable_iff)
        (fun a b => hspan.dominates_reroute hc h.acyclic), .refl _, hmask,
        fun c hc => h.marked c ((h.reachable c).mp hc)⟩, fun c hm hcb => .inl ?_,
        fun _ _ hphi => hphi⟩
      rw [hrest] at hm
      exact (List.mem_cons.mp hm).resolve_left hcb
    refine TripleOk.bind (R := fun _ => Clearing D P t cs b join mask []) ?_ fun _ => ?_
    · rw [show (cs.map Chain.single).drop 1 = rest.map Chain.single by rw [hrest]; rfl]
      exact (triple_clear hf hcode.coherent hrest).mono (fun u hu => hu ▸ hstart) fun _ u hu => hu
    -- there are no loops
    refine TripleOk.bind (R := fun _ => Clearing D P t cs b join mask []) ?_ fun _ => ?_
    · refine TripleOk.forIn (J := fun _ => Clearing D P t cs b join mask []) _ ?_
      rintro ⟨prev, node⟩ tail hmem
      obtain ⟨c, -, rfl⟩ := List.mem_map.mp (List.mem_of_mem_drop (List.of_mem_zip hmem).2)
      exact TripleOk.pure fun u hu => ⟨rfl, hu⟩
    rw [show (cs.map Chain.single).getLast? = some (Chain.single last) by rw [hlast]; simp]
    dsimp only
    refine TripleOk.bind (R := fun _ u => ∃ s0 ways K, Clearing D P t cs b join mask [] s0 ∧
      Converging D P P' t.func cs b join mask s0 (t.phiWays P) [] ways K u) ?_ fun _ => ?_
    · rintro u ⟨⟩ u' hu e
      obtain ⟨K, hK⟩ := hu.known
      obtain ⟨ways, K', hfun⟩ := funnelPhis_spec hf hlast hP' hnodes hK
        (fun phi hphi => phiWays_of_mem hcode.coherent (hu.old join phi hphi)) e
      exact ⟨u, ways, K', hu, hfun⟩
    refine TripleOk.bind (R := fun _ u => ∃ P' K', Steady D P' K' u) ?_ fun _ =>
      TripleOk.pure fun u hu => hu
    rintro u a u' ⟨s0, ways, K', hs0, hfun⟩ e
    rw [links_single] at e
    obtain rfl := triple_linkAll _ u a u' rfl e
    refine ⟨P', K', hfun.steady hf hP'
      (fun c phi hphi => phiWays_of_mem hcode.coherent (hs0.old c phi hphi))
      (fun c hm hcb => (hs0.none c hm hcb).resolve_left List.not_mem_nil) h.reachable h.sublist
      fun l hl => h.foretold.branch l b v x y hb hl⟩
  · exact TripleOk.throw

/-- So does making all branches of a list straight. -/
theorem triple_linearizeBranches_steady (hD : D.func.Coherent) (bs : List BlockId) :
    TripleOk (fun u => ∃ P K, Steady D P K u) (bs.foldlM linearizeIfDivergent {}) fun _ u =>
      ∃ P K, Steady D P K u := by
  refine TripleOk.foldlM (J := fun _ _ u => ∃ P K, Steady D P K u) bs ?_ _
  intro b rest stats _
  unfold linearizeIfDivergent
  refine TripleOk.bind TripleOk.get fun s => ?_
  split
  · rename_i hdiv
    obtain ⟨-, v, x, y, hterm, -⟩ := isDivergentBranch_iff.mp hdiv
    refine TripleOk.bind (R := fun _ u => ∃ P K, Steady D P K u) ?_ fun _ =>
      TripleOk.pure fun u hu => hu
    rintro u n u' ⟨rfl, P, K, hu⟩ e
    exact triple_linearizeBranch_steady hD hu hterm s n u' rfl e
  · exact TripleOk.pure fun u hu => hu.2

end Stage

end Lockstep
