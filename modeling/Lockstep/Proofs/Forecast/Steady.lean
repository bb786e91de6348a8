import Lockstep.Proofs.Forecast.Funnel

/-!
# Stages between branches

Between the branches that are made straight, what is known of the code is true along its own graph. When
the blocks of a chain are made to follow each other, that is the graph that was in view.
-/

namespace Lockstep

variable {ι : Type}

/-! ## Terminators -/

theorem Instr.Typed.congr {f f' : Func} {d : Instr} (h : Instr.Typed f d)
    (hf : f'.typeOf = f.typeOf) : Instr.Typed f' d where
  uses := h.uses
  mask v hv := hf ▸ h.mask v hv
  phi incoming hop := hf ▸ h.phi incoming hop
  apply code args hop := hf ▸ h.apply code args hop

namespace Func

variable {f f' g : Func} {a b c : BlockId} {i : InstId} {v : Value} {t : Terminator}

theorem Refits.atEnd (h : f.Refits f') : g.AtEnd f' b v ↔ g.AtEnd f b v := by
  unfold AtEnd
  simp only [h.body]

theorem Refits.before (h : f.Refits f') : g.Before f' b i v ↔ g.Before f b i v := by
  unfold Before
  simp only [h.body]

theorem typeOf_setTerm (f : Func) (a : BlockId) (t : Terminator) :
    (f.setTerm a t).typeOf = f.typeOf := by
  funext v
  cases v <;> rfl

theorem inst_reroute (f : Func) (cs : List BlockId) (join : BlockId) (i : InstId) :
    (f.reroute cs join).inst i = f.inst i := by
  unfold reroute
  generalize links cs join = l
  induction l generalizing f with
  | nil => rfl
  | cons p l ih => exact ih (f.setTerm p.1 (.br p.2))

theorem typeOf_reroute (f : Func) (cs : List BlockId) (join : BlockId) (v : Value) :
    (f.reroute cs join).typeOf v = f.typeOf v := by
  cases v with
  | const c => rfl
  | param k =>
    show (f.reroute cs join).params[k]?.getD .void = f.params[k]?.getD .void
    rw [(refits_reroute f cs join).params]
  | inst i => exact congrArg Instr.ty (inst_reroute f cs join i)

theorem Supports.setBr (h : g.Supports f) (hc : c < f.blocks.size) (a : BlockId) :
    g.Supports (f.setTerm a (.br c)) where
  coherent := h.coherent.setTerm (fun x hx => List.mem_singleton.mp hx ▸ hc) fun v hv => by cases hv
  typed := by
    refine ⟨fun b i hi => ?_, fun b v x y e => ?_⟩
    · rw [body_setTerm] at hi
      exact (h.typed.inst b i hi).congr (typeOf_setTerm f a (.br c))
    · rw [term_setTerm] at e
      split at e
      · cases e
      · exact h.typed.cond b v x y e
  noMask b i hi := h.noMask b i (by rwa [body_setTerm] at hi)
  nodup b := by
    rw [body_setTerm]
    exact h.nodup b
  phisFirst b i hi := h.phisFirst b i (by rwa [(refits_setTerm f a (.br c)).nonPhis] at hi)
  uses b hb i hi hphi v hv :=
    (refits_setTerm f a (.br c)).before.mpr (h.uses b hb i (by rwa [body_setTerm] at hi) hphi v hv)
  entries b hb phi hphi e he hr :=
    (refits_setTerm f a (.br c)).atEnd.mpr
      (h.entries b hb phi (by rwa [(refits_setTerm f a (.br c)).phis] at hphi) e he hr)
  exit b hb v hv := by
    rw [term_setTerm] at hv
    split at hv
    · cases hv
    · exact (refits_setTerm f a (.br c)).atEnd.mpr (h.exit b hb v hv)

end Func

namespace Doings

variable {D : Doings ι} {g f : Func} {ways ways' : InstId → Way ι} {K : Knowledge ι} {c : BlockId}

theorem Runs.setBr (h : D.Runs g ways K f) (hc : c < f.blocks.size) (a : BlockId) :
    D.Runs g ways K (f.setTerm a (.br c)) where
  code := h.code.setBr hc a
  sure := ⟨h.sure.hasTy, h.sure.unique, h.sure.arg⟩
  size := h.size
  known := h.known
  params := h.params
  start := by
    rw [(Func.refits_setTerm f a (.br c)).phis]
    exact h.start
  pure b i hi code args hop hpure l x hx := by
    rw [Func.body_setTerm] at hi
    exact (h.pure b i hi code args hop hpure l x hx).of_refines (by rw [Func.typeOf_setTerm])
      fun _ v hv => ⟨v, hv, fun _ hk => hk⟩
  phis b hb phi hphi :=
    h.phis b hb phi (by rwa [(Func.refits_setTerm f a (.br c)).phis] at hphi)
  effects b := by
    rw [Func.body_setTerm]
    exact h.effects b
  effect b i hi := h.effect b i (by rwa [Func.body_setTerm] at hi)

/-- Blocks that are made to follow each other change nothing of what is known along a given graph. -/
theorem Runs.setBrs (h : D.Runs g ways K f) {l : List (BlockId × BlockId)}
    (hl : ∀ p ∈ l, p.2 < f.blocks.size) :
    D.Runs g ways K (l.foldl (fun f p => f.setTerm p.1 (.br p.2)) f) := by
  induction l generalizing f with
  | nil => exact h
  | cons p l ih =>
    refine ih (h.setBr (hl p List.mem_cons_self) p.1) fun q hq => ?_
    rw [Func.size_blocks_setTerm]
    exact hl q (List.mem_cons_of_mem _ hq)

end Doings

/-- What is known of a phi along a way is known along another with the same edges. -/
theorem Knowledge.Enters.congr {K : Knowledge ι} {R : BlockId → Prop} {w w' : Way ι} {phi : InstId}
    {incoming : List (BlockId × Value)} (h : K.Enters R w phi incoming)
    (hp : ∀ p, w'.pred p ↔ w.pred p) (ht : ∀ l p, w.pred p → (w'.taken l p ↔ w.taken l p))
    (hv : ∀ l, w'.visited l ↔ w.visited l) : K.Enters R w' phi incoming where
  nodup := h.nodup
  pred e he := (hp e.1).mpr (h.pred e he)
  complete p hr hpr := h.complete p hr ((hp p).mp hpr)
  taken l e he htk := h.taken l e he ((ht l e.1 (h.pred e he)).mp htk)
  away l hl := h.away l fun hvl => hl ((hv l).mpr hvl)

/-! ## Blocks that follow each other -/

/-- A function that follows another still does when the same blocks are made to follow each other. -/
theorem Func.Follows.reroute {f f' : Func} {cs : List BlockId} {branch join : BlockId}
    (h : f.Follows f') (hspan : f.Span branch join cs) (hc : f.Closed)
    (hs : f'.blocks.size = f.blocks.size) : (f.reroute cs join).Follows (f'.reroute cs join) := by
  intro b
  by_cases hb : b ∈ cs
  · obtain ⟨d, hd⟩ := Func.exists_link hb join
    rw [hspan.term_reroute hc hd, Func.term_reroute hspan.nodup (fun x hx => hs ▸
      (hspan.reachable_of_mem hx).lt hc) hd]
    exact ⟨id, rfl⟩
  · rw [Func.term_reroute_of_not_mem hb, Func.term_reroute_of_not_mem hb]
    exact h b

section Masks

variable {D : Doings ι} {P P' : ι → List BlockId} {g f : Func} {K : Knowledge ι} {b p c : BlockId}
  {mask : Value}

theorem Doings.BlockMask.reroute (h : D.BlockMask g f K b mask) (cs : List BlockId) (join : BlockId) :
    D.BlockMask g (f.reroute cs join) K b mask where
  lt := (Func.refits_reroute f cs join).size_blocks ▸ h.lt
  reachable := h.reachable
  isTyped := h.isTyped
  typeOf := (Func.typeOf_reroute f cs join mask).trans h.typeOf
  atEnd := (Func.refits_reroute f cs join).atEnd.mpr h.atEnd
  before i hi heff := by
    rw [(Func.refits_reroute f cs join).body] at hi
    rw [Func.isEffect, Func.inst_reroute] at heff
    exact (Func.refits_reroute f cs join).before.mpr (h.before i hi heff)
  knows := h.knows

theorem EdgeMask.reroute (h : EdgeMask P g f K p c mask) (cs : List BlockId) (join : BlockId)
    (ht : ∀ l, [p, c] <:+: P' l ↔ [p, c] <:+: P l) : EdgeMask P' g (f.reroute cs join) K p c mask where
  reachable := h.reachable
  isTyped := h.isTyped
  typeOf := (Func.typeOf_reroute f cs join mask).trans h.typeOf
  atEnd := (Func.refits_reroute f cs join).atEnd.mpr h.atEnd
  knows l := by
    obtain ⟨q, h1, h2⟩ := h.knows l
    exact ⟨q, h1, h2.trans (ht l).symm⟩

end Masks

/-! ## Linked blocks -/

namespace Stage

/-- A block that is made to lead to another. -/
def linked (mask : Value) (s : Stage) (p : BlockId × BlockId) : Stage :=
  { s with
    func := s.func.setTerm p.1 (.br p.2)
    masks := s.masks.setEdge p.1 p.2 mask }

variable {s : Stage} {mask : Value} {l : List (BlockId × BlockId)} {p c : BlockId}

theorem func_foldl_linked (mask : Value) (s : Stage) (l : List (BlockId × BlockId)) :
    (l.foldl (linked mask) s).func = l.foldl (fun f p => f.setTerm p.1 (.br p.2)) s.func := by
  induction l generalizing s with
  | nil => rfl
  | cons p l ih => exact ih (linked mask s p)

theorem info_foldl_linked (mask : Value) (s : Stage) (l : List (BlockId × BlockId)) :
    (l.foldl (linked mask) s).info = s.info := by
  induction l generalizing s with
  | nil => rfl
  | cons p l ih => exact ih (linked mask s p)

theorem block?_foldl_linked (mask : Value) (s : Stage) (l : List (BlockId × BlockId)) (b : BlockId) :
    (l.foldl (linked mask) s).masks.block? b = s.masks.block? b := by
  induction l generalizing s with
  | nil => rfl
  | cons p l ih => exact ih (linked mask s p)

theorem edge?_foldl_linked (mask : Value) (s : Stage) (l : List (BlockId × BlockId)) (p c : BlockId) :
    (l.foldl (linked mask) s).masks.edge? p c = some mask ∧ (p, c) ∈ l ∨
      (l.foldl (linked mask) s).masks.edge? p c = s.masks.edge? p c ∧ (p, c) ∉ l := by
  induction l generalizing s with
  | nil => exact .inr ⟨rfl, List.not_mem_nil⟩
  | cons q l ih =>
    rcases ih (s := linked mask s q) with ⟨h1, h2⟩ | ⟨h1, h2⟩
    · exact .inl ⟨h1, List.mem_cons_of_mem _ h2⟩
    · rw [List.foldl_cons, h1]
      change (s.masks.setEdge q.1 q.2 mask).edge? p c = _ ∧ _ ∨
        (s.masks.setEdge q.1 q.2 mask).edge? p c = _ ∧ _
      rw [Masks.edge?_setEdge]
      by_cases hq : (p, c) = (q.1, q.2)
      · rw [if_pos hq]
        exact .inl ⟨rfl, List.mem_cons.mpr (.inl hq)⟩
      · rw [if_neg hq]
        exact .inr ⟨rfl, fun hm => (List.mem_cons.mp hm).elim hq h2⟩

/-! ## Steady stages -/

/-- A stage of which everything is known along its own graph, where lanes take given paths. -/
structure Steady (D : Doings ι) (P : ι → List BlockId) (K : Knowledge ι) (t : Stage) : Prop where
  foretold : t.Foretold D P t.func (fun phi => t.func.way P (t.func.inst phi).block) K
  acyclic : t.func.Acyclic
  course : ∀ l, t.func.Course (P l)
  sublist : ∀ l, (D.trace l).Sublist (P l)
  reachable : ∀ b, t.func.Reachable b ↔ D.func.Reachable b
  marked : ∀ b, D.func.Reachable b → (t.masks.block? b).isSome = true

variable {D : Doings ι} {P P' : ι → List BlockId} {f : Func} {cs pre : List BlockId}
  {branch join b last : BlockId} {ways ways0 : InstId → Way ι} {K : Knowledge ι} {s0 : Stage}

/-- A stage whose function follows the graph in view is steady. -/
theorem Foretold.steady {g : Func} (h : Foretold D P g ways K s) (hs : g.Follows s.func)
    (hways : ∀ c, g.Reachable c → ∀ phi ∈ s.func.phis c, ways phi = g.way P c) (hg : g.Acyclic)
    (hcourse : ∀ l, g.Course (P l)) (hsub : ∀ l, (D.trace l).Sublist (P l))
    (hreachable : ∀ b, g.Reachable b ↔ D.func.Reachable b)
    (hmarked : ∀ b, D.func.Reachable b → (s.masks.block? b).isSome = true) : Steady D P K s := by
  have hfore := h.regraph (fun b => hs.reachable_iff) fun a b => hs.dominates
  refine ⟨{ hfore with runs := { hfore.runs with phis := fun c hc phi hphi => ?_ } }, hs.acyclic hg,
    fun l => hs.course (hcourse l), hsub, fun b => hs.reachable_iff.trans (hreachable b), hmarked⟩
  have henter := hfore.runs.phis c hc phi hphi
  rw [hways c (hs.reachable_iff.mp hc) phi hphi] at henter
  rw [h.runs.code.coherent.placed c phi (Func.mem_body_of_mem_phis hphi)]
  exact henter.congr (fun p => hs.edge) (fun _ _ _ => .rfl) fun _ => .rfl

namespace Converging

variable (hf : f.Bypass D P cs branch join)

include hf

/-- The phis that are left are known by the ways along the new graph. -/
theorem enters {phi : InstId} (hP : ∀ l, f.Detour cs branch join (P l) (P' l))
    (h : Converging D P P' f cs branch join mask s0 ways0 [] ways K s)
    (hways0 : ∀ c, ∀ phi ∈ s0.func.phis c, ways0 phi = f.way P c)
    (hnone : ∀ c ∈ cs, c ≠ branch → s0.func.phis c = []) (hc : (f.reroute cs join).Reachable c)
    (hphi : phi ∈ s.func.phis c) :
    K.Enters (f.reroute cs join).Reachable ((f.reroute cs join).way P' c) phi
      (s.func.inst phi).incoming := by
  have henter := h.bypassing.foretold.runs.phis c hc phi hphi
  by_cases hcj : c = join
  · subst hcj
    rwa [h.done phi hphi List.not_mem_nil] at henter
  · have hb : c ∈ cs → c = branch := by
      intro hm
      by_contra hne
      exact absurd (h.old c phi hphi) (by rw [hnone c hm hne]; exact List.not_mem_nil)
    rw [h.other c hcj phi hphi, hways0 c phi (h.old c phi hphi)] at henter
    refine henter.congr (fun p => (hf.edge_into hb hcj).1)
      (fun l p hp => (hP l).edge p c ((hf.edge_into hb hcj).2 hp)) fun l => ?_
    show c ∈ P' l ↔ c ∈ P l
    by_cases hm : c ∈ cs
    · rw [hb hm]
      exact (hP l).inside branch hf.span.mem
    · exact (hP l).outside c hm

/-- Only blocks outside the chain have a choice once those of the chain follow each other. -/
theorem of_term_eq_brIf (h : s.Bypassing D P f cs branch join mask ways K) {v : Value} {x y : BlockId}
    (e : (s.func.reroute cs join).term b = .brIf v x y) : b ∉ cs ∧ s.func.term b = .brIf v x y := by
  by_cases hb : b ∈ cs
  · obtain ⟨d, hd⟩ := Func.exists_link hb join
    have hlt : ∀ x ∈ cs, x < s.func.blocks.size := fun x hx => by
      rw [h.foretold.blocks, ← hf.blocks]
      exact (hf.span.reachable_of_mem hx).lt hf.closed
    rw [Func.term_reroute hf.span.nodup hlt hd] at e
    cases e
  · exact ⟨hb, by rwa [Func.term_reroute_of_not_mem hb] at e⟩

/-- Once the blocks of the chain follow each other, everything is known along the new paths. -/
theorem foretold_linked (hP : ∀ l, f.Detour cs branch join (P l) (P' l))
    (h : Converging D P P' f cs branch join mask s0 ways0 [] ways K s)
    (hways0 : ∀ c, ∀ phi ∈ s0.func.phis c, ways0 phi = f.way P c)
    (hnone : ∀ c ∈ cs, c ≠ branch → s0.func.phis c = [])
    (hbranch : ∀ l, branch ∈ P l ↔ branch ∈ D.trace l)
    (hs : (f.reroute cs join).Follows (s.func.reroute cs join)) :
    ((Func.links cs join).foldl (linked mask) s).Foretold D P' (f.reroute cs join)
      (fun phi => (f.reroute cs join).way P' (s.func.inst phi).block) K := by
  have hfore := h.bypassing.foretold
  have hrefits := Func.refits_reroute s.func cs join
  have hfunc : ((Func.links cs join).foldl (linked mask) s).func = s.func.reroute cs join :=
    func_foldl_linked mask s _
  constructor
  case runs =>
    have hlt : ∀ p ∈ Func.links cs join, p.2 < s.func.blocks.size := by
      intro p hp
      rw [hfore.blocks, ← hf.blocks]
      rcases (Func.mem_of_link hp).2 with e | hmem
      · rw [e]
        exact (hf.span.reachable.reaches hf.span.reaches_join).lt hf.closed
      · exact (hf.span.reachable_of_mem hmem).lt hf.closed
    have hruns : D.Runs (f.reroute cs join) ways K (s.func.reroute cs join) := hfore.runs.setBrs hlt
    rw [hfunc]
    refine { hruns with phis := fun c hc phi hphi => ?_ }
    rw [hrefits.phis] at hphi
    rw [Func.inst_reroute, hfore.runs.code.coherent.placed c phi (Func.mem_body_of_mem_phis hphi)]
    exact enters hf hP h hways0 hnone hc hphi
  case blocks =>
    rw [hfunc, hrefits.size_blocks]
    exact hfore.blocks
  case region =>
    rw [info_foldl_linked]
    exact hfore.region
  case blockMask =>
    intro c m hm
    rw [block?_foldl_linked] at hm
    rw [hfunc]
    exact (hfore.blockMask c m hm).reroute cs join
  case predicate =>
    intro c
    rw [info_foldl_linked, block?_foldl_linked]
    exact hfore.predicate c
  case edgeMask =>
    intro p c m hpc he
    rw [hfunc] at he ⊢
    rcases edge?_foldl_linked mask s (Func.links cs join) p c with ⟨e, hl⟩ | ⟨e, hl⟩
    · rw [e] at hpc
      obtain rfl := Option.some.inj hpc
      have hp := (Func.mem_of_link hl).1
      exact ((hfore.blockMask branch mask h.bypassing.mask).reroute cs join).edgeMask
        (hf.reachable_iff.mpr (hf.span.reachable_of_mem hp))
        (hf.span.dominates_reroute hf.closed hf.acyclic (hf.span.dominates p hp))
        fun l => ((hP l).link p c hl).trans (hbranch l)
    · rw [e] at hpc
      have hpe := ((hf.span.edge_reroute hf.closed).mp (hs.edge.mp he)).resolve_left hl
      exact (hfore.edgeMask p c m hpc (h.bypassing.edge.mpr hpe.2)).reroute cs join
        fun l => (hP l).edge p c hpe.1
  case uniform =>
    intro v hv
    rw [info_foldl_linked] at hv
    rw [hfunc]
    obtain ⟨h1, h2⟩ := hfore.uniform v hv
    exact ⟨h1.mono (Nat.le_of_eq hrefits.size_insts.symm), h2⟩
  case cond =>
    intro l b v x y ht c hbc
    rw [hfunc] at ht
    obtain ⟨hb, ht⟩ := of_term_eq_brIf hf h.bypassing ht
    exact hfore.cond l b v x y ht c (((hP l).edge b c hb).mp hbc)
  case branch =>
    intro l b v x y ht hb
    rw [hfunc] at ht
    obtain ⟨hbc, ht⟩ := of_term_eq_brIf hf h.bypassing ht
    exact hfore.branch l b v x y ht (((hP l).outside b hbc).mp hb)
  case returns =>
    intro b v hv
    obtain ⟨w, hw, hrel⟩ := hfore.returns b v hv
    refine ⟨w, ?_, hrel⟩
    rw [hfunc, Func.term_reroute_of_not_mem, hw]
    -- from such a block control does not get to the join
    intro hb
    obtain ⟨c, hbc, -⟩ := hf.span.leads_join hf.closed hf.acyclic hb
    have hbc := h.bypassing.edge.mpr hbc
    rw [Func.Edge, hw] at hbc
    cases hbc

/-- A stage is steady again once the blocks of the chain follow each other. -/
theorem steady (hP : ∀ l, f.Detour cs branch join (P l) (P' l))
    (h : Converging D P P' f cs branch join mask s0 ways0 [] ways K s)
    (hways0 : ∀ c, ∀ phi ∈ s0.func.phis c, ways0 phi = f.way P c)
    (hnone : ∀ c ∈ cs, c ≠ branch → s0.func.phis c = [])
    (hreachable : ∀ b, f.Reachable b ↔ D.func.Reachable b)
    (hsub : ∀ l, (D.trace l).Sublist (P l)) (hbranch : ∀ l, branch ∈ P l → branch ∈ D.trace l) :
    Steady D P' K ((Func.links cs join).foldl (linked mask) s) := by
  have hsize : s.func.blocks.size = f.blocks.size :=
    h.bypassing.foretold.blocks.trans hf.blocks.symm
  have hs := h.bypassing.follows.reroute hf.span hf.closed hsize
  have hfore := foretold_linked hf hP h hways0 hnone
    (fun l => ⟨hbranch l, fun hm => (hsub l).subset hm⟩) hs
  have hfunc : ((Func.links cs join).foldl (linked mask) s).func = s.func.reroute cs join :=
    func_foldl_linked mask s _
  refine hfore.steady (hfunc ▸ hs) (fun c _ phi hphi => ?_)
    (hf.span.acyclic_reroute hf.closed hf.acyclic) (fun l => (hP l).course)
    (fun l => (hsub l).trans (hP l).sublist) (fun b => hf.reachable_iff.trans (hreachable b))
    fun b hb => ?_
  · rw [hfunc, (Func.refits_reroute s.func cs join).phis] at hphi
    rw [h.bypassing.foretold.runs.code.coherent.placed c phi (Func.mem_body_of_mem_phis hphi)]
  · rw [block?_foldl_linked]
    exact h.bypassing.marked b ((hreachable b).mpr hb)

end Converging

end Stage

end Lockstep
