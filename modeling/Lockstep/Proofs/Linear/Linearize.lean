import Lockstep.Proofs.Linear.Branch
import Lockstep.Proofs.Vector.Cascade

/-!
# Linearization leaves uniform branches

After all branches of the list have been straightened, no reachable block of the region ends in a
divergent branch, unless a phi that was recorded as uniform has been lost (`Straight`). Masking
effects and making calls lane by lane keep it so.
-/

namespace Lockstep

namespace Stage

variable {s t : Stage} {R : BlockId → Prop}

/-! ## The list of branches -/

theorem triple_linearizeIfDivergent {region : Option Region} {rest : List BlockId}
    {stats : LinearizeStats} {b : BlockId} :
    TripleOk (Straightening s R region (b :: rest)) (linearizeIfDivergent stats b) fun _ =>
      Straightening s R region rest := by
  unfold linearizeIfDivergent
  refine TripleOk.bind TripleOk.get fun t => ?_
  split
  · refine TripleOk.bind (R := fun _ => Straightening s R region rest) ?_ fun n =>
      TripleOk.pure fun u hu => hu
    rintro u n u' ⟨rfl, hu⟩ e
    exact triple_linearizeBranch hu t n u' rfl e
  · rename_i hd
    refine TripleOk.pure ?_
    rintro u ⟨rfl, hu⟩
    refine { hu with branches := fun c hR hc => (hu.branches c hR hc).imp_left fun hmem => ?_ }
    rcases List.mem_cons.mp hmem with rfl | hmem
    · exact absurd hc hd
    · exact hmem

/-- At the start, all branches that are divergent are to come. -/
theorem Straightening.start (hv : t.Valid) (hl : Later s t) :
    Straightening s t.func.Reachable t.info.region
      ((Cfg.ofFunc t.func).rpo.reverse.filter t.isDivergentBranch) t where
  valid := hv
  later := hl
  region := rfl
  entry := t.func.reachable_entry
  lt b hb := hb.lt hv.func.toClosed
  closed b hb c hbc := hb.step hbc
  branches b hb hd := by
    left
    rw [List.mem_filter, List.mem_reverse, Cfg.mem_rpo hv.func.toClosed]
    exact ⟨hb, hd⟩

/-- Straightening all branches that are divergent at the start leaves none to come. -/
theorem triple_linearizeBranches (hv : t.Valid) (hl : Later s t) :
    TripleOk (· = t) (((Cfg.ofFunc t.func).rpo.reverse.filter t.isDivergentBranch).foldlM
      linearizeIfDivergent {}) fun _ =>
        Straightening s t.func.Reachable t.info.region [] := by
  rintro u n u' rfl e
  exact TripleOk.foldlM (J := fun l (_ : LinearizeStats) u' =>
    Straightening s u.func.Reachable u.info.region l u') _
    (fun b rest stats _ => triple_linearizeIfDivergent) {} u n u' (.start hv hl) e

/-! ## What holds afterwards -/

/-- A closed set of blocks that holds the entry has no divergent branch of the region, unless a phi
that was recorded as uniform has been lost. -/
structure Straight (s : Stage) (R : BlockId → Prop) (t : Stage) : Prop where
  size : s.func.insts.size ≤ t.func.insts.size
  entry : R t.func.entry
  lt : ∀ b, R b → b < t.func.blocks.size
  closed : ∀ b, R b → ∀ c ∈ (t.func.term b).targets, R c
  branches : ∀ b, R b → t.isDivergentBranch b = true → Lost s t

theorem Straightening.straight {region : Option Region} (h : Straightening s R region [] t) :
    Straight s R t where
  size := h.later.size
  entry := h.entry
  lt := h.lt
  closed := h.closed
  branches b hR hd := (h.branches b hR hd).resolve_left List.not_mem_nil

theorem Lost.mono {u : Stage} (h : Lost s t)
    (ht : ∀ i < s.func.insts.size, u.func.Attached i → t.func.Attached i) : Lost s u := by
  obtain ⟨p, h1, h2, h3, h4⟩ := h
  exact ⟨p, h1, h2, h3, fun h5 => h4 (ht p (s.func.lt_of_isPhi h1) h5)⟩

/-- A reachable block of the region asks a uniform question. -/
theorem Straight.isUniform (h : Straight s R t) {b x y : BlockId} {c : Value}
    (hb : t.func.Reachable b) (hr : t.info.inRegion b = true) (ht : t.func.term b = .brIf c x y)
    (hl : ¬ Lost s t) : t.info.isUniform c = true := by
  by_contra hc
  refine hl (h.branches b (hb.closed h.entry h.closed) ?_)
  exact isDivergentBranch_iff.mpr ⟨hr, c, x, y, ht, by simpa using hc⟩

/-! ## Masking effects -/

/-- A change that neither moves an instruction nor touches a terminator. -/
theorem Straight.congr {u : Stage} (h : Straight s R t)
    (hs : u.func.insts.size = t.func.insts.size) (hb : u.func.blocks.size = t.func.blocks.size)
    (hbody : ∀ b, u.func.body b = t.func.body b) (hterm : ∀ b, u.func.term b = t.func.term b)
    (hi : u.info = t.info) : Straight s R u where
  size := hs ▸ h.size
  entry := h.entry
  lt b hR := hb ▸ h.lt b hR
  closed b hR c hc := h.closed b hR c (hterm b ▸ hc)
  branches b hR hd := by
    rw [isDivergentBranch_iff, hterm, hi, ← isDivergentBranch_iff] at hd
    refine (h.branches b hR hd).mono ?_
    rintro i - ⟨c, hc⟩
    exact ⟨c, hbody c ▸ hc⟩

/-- Every instruction of a block is there, and names the block. -/
def IsPlaced (t : Stage) : Prop :=
  ∀ b, ∀ i ∈ t.func.body b, i < t.func.insts.size ∧ (t.func.inst i).block = b

/-- Masking effects changes the masks of single instructions, and nothing else of them. -/
theorem triple_maskEffects_of {markers : Markers} {K : Stage → Prop}
    (hK : ∀ t i (g : Instr → Instr), (∀ d, ∃ mask, g d = { d with mask }) → K t →
      K { t with func := t.func.modifyInst i g }) :
    Triple K (maskEffects markers) fun _ => K := by
  unfold maskEffects
  refine Triple.bind Triple.get fun t => ?_
  refine (Triple.forM (J := fun _ => K) t.func.layout ?_).mono (fun u hu => hu.2) fun _ u hu => hu
  rintro b tail -
  unfold maskBlock
  refine Triple.bind Triple.get fun u => ?_
  split
  · split
    · exact Triple.pure fun w hw => hw.2
    · split
      · exact Triple.pure fun w hw => hw.2
      · refine Triple.bind (R := fun _ => K) ?_ fun _ => Triple.pure fun w hw => hw
        refine (Triple.forIn (J := fun _ => K) _ ?_).mono (fun w hw => hw.2) fun _ w hw => hw
        rintro i tail -
        refine Triple.bind (triple_modifyFunc (Q := fun _ => K) fun w hw =>
          hK w i _ (fun d => ?_) hw) fun _ => Triple.pure fun w hw => ⟨rfl, hw⟩
        split
        · exact ⟨_, rfl⟩
        · exact ⟨d.mask, rfl⟩
  · exact Triple.pure fun w hw => hw.2

theorem triple_maskEffects {markers : Markers} :
    Triple (fun t => Straight s R t ∧ IsPlaced t) (maskEffects markers)
      fun _ t => Straight s R t ∧ IsPlaced t := by
  refine triple_maskEffects_of ?_
  rintro t i g hg ⟨ht, hp⟩
  have hsize : (t.func.modifyInst i g).insts.size = t.func.insts.size := Array.size_modify ..
  refine ⟨ht.congr hsize rfl (fun b => rfl) (fun b => rfl) rfl, fun b j hj => ?_⟩
  obtain ⟨h1, h2⟩ := hp b j hj
  refine ⟨hsize.symm ▸ h1, ?_⟩
  rw [Func.inst_modifyInst]
  split
  · obtain ⟨mask, hmask⟩ := hg (t.func.inst j)
    rw [hmask]
    exact h2
  · exact h2

/-! ## Calls lane by lane -/

/-- The instructions of a list are there, and stand in blocks of the region. -/
def InRegion (calls : List InstId) (t : Stage) : Prop :=
  ∀ i ∈ calls, i < t.func.insts.size ∧ t.info.inRegion (t.func.inst i).block = true

/-- The terminators that a cascade in the place of a block has. -/
def IsCascadeTerm (f : Func) (c : Cascade) (b : BlockId) (made : List Value) (x : BlockId)
    (t : Terminator) : Prop :=
  c.IsInner x t ∨ x = b ∧ t = .br (c.test 0) ∨ x = c.finish ∧ t = f.term b ∨ c.IsTest made x t

/-- A cascade in the place of a block of the region makes no branch divergent. -/
theorem Straight.cascade {u : Stage} {c : Cascade} {b : BlockId} {made : List Value}
    (h : Straight s R t) (hb : b < t.func.blocks.size) (hreg : t.info.inRegion b = true)
    (hr : t.func.Rewired (· ∈ c.blocks) (IsCascadeTerm t.func c b made) u.func)
    (hfresh : ∀ x ∈ c.blocks, t.func.blocks.size ≤ x ∧ x < u.func.blocks.size)
    (hu : ∀ v, t.info.isUniform v = true → u.info.isUniform v = true)
    (hmade : ∀ v ∈ made, u.info.isUniform v = true)
    (hregion : ∀ x, u.info.inRegion x = true ↔ t.info.inRegion x = true ∨ x ∈ c.blocks) :
    Straight s (fun x => R x ∨ R b ∧ x ∈ c.blocks) u := by
  have hold : ∀ x, R x → x ∉ c.blocks := fun x hR hx =>
    absurd (h.lt x hR) (Nat.not_lt.mpr (hfresh x hx).1)
  have hlost : Lost s t → Lost s u := fun hl =>
    hl.mono fun i hi ha => hr.attached i (Nat.lt_of_lt_of_le hi h.size) ha
  refine ⟨Nat.le_trans h.size hr.insts, .inl h.entry, fun x hx => ?_, fun x hx y hy => ?_,
    fun x hx hd => ?_⟩
  · rcases hx with hR | ⟨-, hx⟩
    · exact Nat.lt_of_lt_of_le (h.lt x hR) hr.blocks
    · exact (hfresh x hx).2
  · rcases hr.term x with e | ht
    · rw [e] at hy
      rcases hx with hR | ⟨-, hx⟩
      · exact .inl (h.closed x hR y hy)
      · rw [Cfg.term_of_size_le (hfresh x hx).1] at hy
        cases hy
    rcases ht with ⟨hxc, z, hz, e⟩ | ⟨rfl, e⟩ | ⟨rfl, e⟩ | ⟨hxc, v, -, z, hz, w, hw, e⟩
    · rw [e] at hy
      rw [List.mem_singleton.mp hy]
      exact .inr ⟨(hx.resolve_left fun hR => hold x hR hxc).1, hz⟩
    · rw [e] at hy
      rw [List.mem_singleton.mp hy]
      exact .inr ⟨hx.elim id fun hx => hx.1, c.test_mem_blocks 0⟩
    · rw [e] at hy
      have hR := (hx.resolve_left fun hR => hold _ hR c.finish_mem_blocks).1
      exact .inl (h.closed b hR y hy)
    · rw [e] at hy
      refine .inr ⟨(hx.resolve_left fun hR => hold x hR hxc).1, ?_⟩
      rcases List.mem_pair.mp hy with rfl | rfl
      · exact hz
      · exact hw
  · obtain ⟨hin, cond, y, z, hterm, hcu⟩ := isDivergentBranch_iff.mp hd
    have hcond : t.info.isUniform cond = false := by
      by_contra hc
      rw [hu cond (by simpa using hc)] at hcu
      cases hcu
    rcases hr.term x with e | ht
    · rw [e] at hterm
      rcases hx with hR | ⟨-, hx⟩
      · have hin' := ((hregion x).mp hin).resolve_right (hold x hR)
        exact hlost (h.branches x hR
          (isDivergentBranch_iff.mpr ⟨hin', cond, y, z, hterm, hcond⟩))
      · rw [Cfg.term_of_size_le (hfresh x hx).1] at hterm
        cases hterm
    rcases ht with ⟨-, z, -, e⟩ | ⟨-, e⟩ | ⟨rfl, e⟩ | ⟨-, v, hv, z, -, w, -, e⟩
    · rw [e] at hterm
      cases hterm
    · rw [e] at hterm
      cases hterm
    · rw [e] at hterm
      have hR := (hx.resolve_left fun hR => hold _ hR c.finish_mem_blocks).1
      exact hlost (h.branches b hR
        (isDivergentBranch_iff.mpr ⟨hreg, cond, y, z, hterm, hcond⟩))
    · rw [e] at hterm
      cases hterm
      rw [hmade _ hv] at hcu
      cases hcu

/-- What a cascade does to a function, from the making of its blocks to the filling in of its
lanes. -/
theorem rewired_cascade {f f' : Func} {width : Nat} {b : BlockId} {pos : Nat}
    {made : List Value} (hb : b < f.blocks.size)
    (h : ((Cascade.create f width).1.split (Cascade.create f width).2 b pos).Rewired
      (· ∈ (Cascade.create f width).1.blocks) ((Cascade.create f width).1.IsTest made) f') :
    f.Rewired (· ∈ (Cascade.create f width).1.blocks)
        (IsCascadeTerm f (Cascade.create f width).1 b made) f' ∧
      ∀ x ∈ (Cascade.create f width).1.blocks, f.blocks.size ≤ x ∧ x < f'.blocks.size := by
  obtain ⟨hcreate, hfresh⟩ := Cascade.rewired_create f width
  generalize (Cascade.create f width).1 = c at *
  generalize (Cascade.create f width).2 = g at *
  have hterm : g.term b = f.term b :=
    (hcreate.term b).resolve_right fun hi => Nat.not_lt.mpr (hfresh b hi.1).1 hb
  have hsplit := Cascade.rewired_split c g b pos
  constructor
  · refine (hcreate.mono (fun _ hx => hx) fun x y hxy => .inl hxy).trans
      ((hsplit.mono (fun _ hx => hx) fun x y hxy => ?_).trans
        (h.mono (fun _ hx => hx) fun x y hxy => .inr (.inr (.inr hxy))))
    rw [hterm] at hxy
    rcases hxy with hxy | hxy
    · exact .inr (.inl hxy)
    · exact .inr (.inr (.inl hxy))
  · exact fun x hx => ⟨(hfresh x hx).1,
      Nat.lt_of_lt_of_le (hfresh x hx).2 (Nat.le_trans hsplit.blocks h.blocks)⟩

theorem triple_scalarizeCall {markers : Markers} {call : InstId} {rest : List InstId} :
    TripleOk (fun t => (∃ R, Straight s R t) ∧ InRegion (call :: rest) t)
      (scalarizeCall markers call) fun _ t => (∃ R, Straight s R t) ∧ InRegion rest t := by
  have hrest : ∀ t, InRegion (call :: rest) t → InRegion rest t :=
    fun t h i hi => h i (List.mem_cons_of_mem _ hi)
  unfold scalarizeCall
  refine TripleOk.bind TripleOk.get fun t => ?_
  dsimp only
  split
  · split
    · split
      · exact TripleOk.pure fun u hu => ⟨hu.2.1, hrest u hu.2.2⟩
      · split
        · rename_i pos hpos
          have hb : (t.func.inst call).block < t.func.blocks.size := by
            obtain ⟨hlt, -, -⟩ := List.idxOf?_eq_some_iff.mp hpos
            exact Func.lt_of_mem_body t.func (List.getElem_mem hlt)
          refine TripleOk.bind (R := fun _ u => u = { t with
            func := (Cascade.create t.func t.info.width).1.split
              (Cascade.create t.func t.info.width).2 (t.func.inst call).block pos } ∧
              (∃ R, Straight s R t) ∧ InRegion (call :: rest) t) ?_ fun _ => ?_
          · rintro u a u' ⟨rfl, hu⟩ e
            cases e
            exact ⟨rfl, hu⟩
          refine TripleOk.assume fun ⟨⟨R, hR⟩, hreg⟩ => ?_
          refine TripleOk.bind (TripleOk.lift triple_buildCascade) fun made => ?_
          refine TripleOk.bind (R := fun _ u => (∃ R, Straight s R u) ∧ InRegion rest u)
            (TripleOk.lift ?_) fun _ => TripleOk.pure fun u hu => hu
          rintro u a u' ⟨hinfo, hrew⟩ e
          have hrec := triple_recordCascade u a u' rfl e
          obtain ⟨hr, hfresh⟩ := rewired_cascade hb hrew
          rw [← hrec.func] at hr hfresh
          have hregion := hrec.region
          have huni := hrec.uniform
          rw [hinfo] at hregion huni
          refine ⟨⟨_, hR.cascade hb (hreg call List.mem_cons_self).2 hr hfresh huni hrec.made
            hregion⟩, fun i hi => ?_⟩
          obtain ⟨hlt, hin⟩ := hrest t hreg i hi
          refine ⟨Nat.lt_of_lt_of_le hlt hr.insts, ?_⟩
          rw [hregion]
          exact (hr.placed i hlt).imp_left fun e => by rw [e]; exact hin
        · exact TripleOk.throw
    · exact TripleOk.pure fun u hu => ⟨hu.2.1, hrest u hu.2.2⟩
  · exact TripleOk.throw

theorem inRegion_maskedCalls {markers : Markers} (h : IsPlaced t) :
    InRegion (maskedCalls markers t) t := by
  intro i hi
  obtain ⟨hi, -⟩ := List.mem_filter.mp hi
  obtain ⟨b, hb, hi⟩ := List.mem_flatMap.mp hi
  obtain ⟨h1, h2⟩ := h b i hi
  exact ⟨h1, h2 ▸ (List.mem_filter.mp hb).2⟩

/-! ## The whole linearization -/

/-- A linearization that succeeds leaves no divergent branch, unless a phi that was recorded as
uniform has been lost. -/
theorem triple_linearize {markers : Markers} {config : Config} (hv : t.Valid)
    (hl : Later s t) :
    TripleOk (· = t) (linearize markers config) fun _ u => ∃ R, Straight s R u := by
  unfold linearize
  refine TripleOk.bind TripleOk.get fun t' => ?_
  refine TripleOk.bind (R := fun _ u => Straight s t.func.Reachable u ∧ IsPlaced u) ?_ fun n => ?_
  · rintro u n u' ⟨rfl, rfl⟩ e
    have h := triple_linearizeBranches hv hl t' n u' rfl e
    exact ⟨h.straight, fun b i hi => ⟨h.valid.func.body_lt b i hi, h.valid.func.placed b i hi⟩⟩
  refine TripleOk.bind (TripleOk.lift triple_maskEffects) fun _ => ?_
  have hend : ∀ k, TripleOk (fun u => ∃ R, Straight s R u) (do
      modifyFunc Func.relayout
      return { n with scalarizedCalls := k } : StageM LinearizeStats)
      fun _ u => ∃ R, Straight s R u := by
    refine fun k => TripleOk.bind (TripleOk.lift (triple_modifyFunc
      (Q := fun _ u => ∃ R, Straight s R u) ?_)) fun _ => TripleOk.pure fun u hu => hu
    rintro u ⟨R, hu⟩
    exact ⟨R, hu.congr rfl rfl (fun b => rfl) (fun b => rfl) rfl⟩
  split
  · refine TripleOk.bind ?_ hend
    unfold scalarizeCalls
    refine TripleOk.bind TripleOk.get fun u => ?_
    refine (TripleOk.foldlM (J := fun l (_ : Nat) u => (∃ R, Straight s R u) ∧ InRegion l u) _ ?_
      0).mono ?_ fun _ u hu => hu.1
    · intro call tail m hmem
      exact TripleOk.bind triple_scalarizeCall fun b => TripleOk.pure fun w hw => hw
    · rintro w ⟨rfl, hw, hp⟩
      exact ⟨⟨_, hw⟩, inRegion_maskedCalls hp⟩
  · exact TripleOk.bind (TripleOk.pure fun u hu => ⟨_, hu.1⟩) hend

end Stage

end Lockstep
