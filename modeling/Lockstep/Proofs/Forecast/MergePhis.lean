import Lockstep.Proofs.Forecast.Incoming

/-!
# The phis of a straightened block

While a branch is bypassed, the phis of the blocks between it and the join are replaced by merges, and
those of the join get one way in. What is known of the code stays true of it along the graph to come.
-/

namespace Lockstep

variable {ι : Type}

/-- A branch that is bypassed: the graph, the paths of the lanes in it, and the chain of the branch. -/
structure Func.Bypass (D : Doings ι) (P : ι → List BlockId) (f : Func) (cs : List BlockId)
    (branch join : BlockId) : Prop where
  coherent : D.func.Coherent
  blocks : f.blocks.size = D.func.blocks.size
  closed : f.Closed
  acyclic : f.Acyclic
  span : f.Span branch join cs
  course : ∀ l, f.Course (P l)

/-- A stage on the way to a graph in which a branch leads through the blocks of a chain to the join. -/
structure Stage.Bypassing (D : Doings ι) (P : ι → List BlockId) (f : Func) (cs : List BlockId)
    (branch join : BlockId) (mask : Value) (ways : InstId → Way ι) (K : Knowledge ι) (s : Stage) : Prop
    where
  foretold : s.Foretold D P (f.reroute cs join) ways K
  follows : f.Follows s.func
  mask : s.masks.block? branch = some mask
  marked : ∀ c, f.Reachable c → (s.masks.block? c).isSome = true

variable {D : Doings ι} {P : ι → List BlockId} {f : Func} {cs : List BlockId} {branch join b p : BlockId}
  {mask v : Value} {ways : InstId → Way ι} {K K' : Knowledge ι} {s s' : Stage} {phi : InstId}

namespace Func.Bypass

variable (hf : f.Bypass D P cs branch join)

include hf

theorem reachable_iff : (f.reroute cs join).Reachable b ↔ f.Reachable b :=
  hf.span.reachable_reroute hf.closed

/-- A predecessor of a block of the chain after the branch stands before it in the chain. -/
theorem dominates_pred (hb : b ∈ cs) (hne : b ≠ branch) (hp : f.Reachable p) (hpb : f.Edge p b) :
    (f.reroute cs join).Dominates p b ∧ p ≠ b := by
  have hmem := hf.span.pred_mem hf.closed hf.acyclic hb hne hp hpb
  obtain ⟨pre, post, e⟩ := List.append_of_mem hmem
  refine ⟨?_, hf.acyclic.ne_of_edge hp hpb⟩
  rcases hf.span.forward pre p post e b hpb with rfl | hpost
  · exact absurd hb hf.span.join_not_mem
  · exact hf.span.dominates_after hf.closed hf.acyclic e hpost

/-- Neither a block of the chain after the branch nor the join dominates the branch. -/
theorem not_dominates (hb : b ∈ cs ∧ b ≠ branch ∨ b = join) :
    ¬ (f.reroute cs join).Dominates b branch := by
  obtain ⟨rest, e⟩ := hf.span.exists_cons
  have hx : b ∈ rest ∨ b = join := by
    rcases hb with ⟨hb, hne⟩ | hb
    · rw [e] at hb
      exact .inl ((List.mem_cons.mp hb).resolve_left hne)
    · exact .inr hb
  intro hd
  have hleads := hf.span.leads_after hf.closed (show cs = [] ++ branch :: rest from e) hx
  exact (hf.span.acyclic_reroute hf.closed hf.acyclic).not_leads_of_dominates
    (hf.reachable_iff.mpr hf.span.reachable) hd hleads

theorem ne_entry (hb : b ∈ cs) (hne : b ≠ branch) : b ≠ f.entry := by
  rintro rfl
  exact hne (hf.span.dominates _ hb (.refl _))

/-- A lane that comes by a block other than the entry takes an edge into it. -/
theorem exists_taken {l : ι} (hne : b ≠ f.entry) (hb : b ∈ P l) :
    ∃ p, f.Reachable p ∧ f.Edge p b ∧ [p, b] <:+: P l := by
  obtain ⟨p, hp⟩ := exists_pair hb (by
    rw [(hf.course l).start]
    exact fun e => hne (Option.some.inj e).symm)
  exact ⟨p, (hf.course l).reachable (mem_of_pair hp).1, (hf.course l).edge hp, hp⟩

/-- A lane takes one of the edges into a block, or knows of all that comes into it what it knows of a
phi. -/
theorem taken_or_knows {l : ι} {x : Scalar} {es : List (BlockId × Value)} (hne : b ≠ f.entry)
    (h : K.Enters (f.reroute cs join).Reachable (f.way P b) phi es) (hx : K.inst l phi x) :
    (∃ e ∈ es, [e.1, b] <:+: P l) ∨ ∀ e ∈ es, K.Knows l e.2 x := by
  by_cases hvisit : b ∈ P l
  · obtain ⟨p, hp, hpb, htaken⟩ := hf.exists_taken hne hvisit
    obtain ⟨e, he, rfl⟩ := List.mem_map.mp (h.complete p (hf.reachable_iff.mpr hp) hpb)
    exact .inl ⟨e, he, htaken⟩
  · exact .inr fun e he => h.away l hvisit e he x hx

end Func.Bypass

namespace Stage.Bypassing

variable (h : s.Bypassing D P f cs branch join mask ways K)

include h

theorem edge {a c : BlockId} : s.func.Edge a c ↔ f.Edge a c := h.follows.edge

theorem widen (hm : Made s s') (he : s.func.Widens s'.func)
    (hfore : s'.Foretold D P (f.reroute cs join) ways K') :
    s'.Bypassing D P f cs branch join mask ways K' where
  foretold := hfore
  follows := h.follows.trans he.follows
  mask := by rw [hm.masks]; exact h.mask
  marked := by rw [hm.masks]; exact h.marked

theorem replaced (hf : f.Bypass D P cs branch join) (hb : b ∈ cs ∧ b ≠ branch ∨ b = join)
    (k : (f.reroute cs join).Replaceable s.func b phi v fun i =>
      .inst phi ∈ (s.func.inst i).inputs ∨ s.func.isEffect i = true)
    (hv : K.Refines (.inst phi) v) :
    (s.replaced phi v).Bypassing D P f cs branch join mask ways K where
  foretold := h.foretold.replaced k hv
  follows := h.follows.trans (Func.follows_substPhi h.foretold.runs.code.coherent phi v)
  mask := by
    have hm := h.foretold.blockMask branch mask h.mask
    change (s.masks.replace s.func.layout (.inst phi) v).block? branch = some mask
    rw [block?_replace, h.mask]
    split
    · show some _ = _
      rw [Substitution.value_single, if_neg]
      rintro rfl
      obtain ⟨d, hd, hdom⟩ := hm.atEnd
      obtain rfl := k.body_eq h.foretold.runs.code.coherent hd
      exact hf.not_dominates hb hdom
    · rfl
  marked c hc := by
    change ((s.masks.replace s.func.layout (.inst phi) v).block? c).isSome = true
    rw [block?_replace]
    split
    · rw [Option.isSome_map]
      exact h.marked c hc
    · exact h.marked c hc

end Stage.Bypassing

namespace Stage

/-! ## Values for phis -/

/-- A value for a phi of a block, made at a draft. -/
structure Stands (σ : Site ι) (d : Draft ι) (e : InstId × Value) : Prop where
  usable : d.Usable σ (d.func.inst e.1).ty e.2
  refines : d.known.Refines (.inst e.1) e.2

/-- The operands of merges are no phis of the block. -/
def noPhi (s : Stage) (b : BlockId) (v : Value) : Prop := ∀ phi ∈ s.func.phis b, v ≠ .inst phi

/-- The draft at the first instruction of a block that is no phi. -/
def draftAt (s : Stage) (K : Knowledge ι) (b : BlockId) : Draft ι := ⟨s.func, K, s.func.firstNonPhi b⟩

/-- A stage while the phis of a block are merged: the phis `rest` are to come. -/
structure Merging (D : Doings ι) (P : ι → List BlockId) (f : Func) (cs : List BlockId)
    (branch join : BlockId) (mask : Value) (ways : InstId → Way ι) (s0 : Stage) (K0 : Knowledge ι)
    (b : BlockId) (rest : List InstId) (r : List (InstId × Value) × InsertPoint) (s : Stage)
    (d : Draft ι) : Prop where
  bypassing : s.Bypassing D P f cs branch join mask ways d.known
  stands : Builder.On { func := s.func, point := r.2 } b d
  good : d.Good ⟨D, f.reroute cs join, ways, b, s0.noPhi b⟩
  later : (s0.draftAt K0 b).Later ⟨D, f.reroute cs join, ways, b, s0.noPhi b⟩ d
  merged : ∀ e ∈ r.1, Stands ⟨D, f.reroute cs join, ways, b, s0.noPhi b⟩ d e
  phis : r.1.map Prod.fst ++ rest = s0.func.phis b

/-- What is available from above the block can be an operand of a merge. -/
theorem Merging.ready_of_fromAbove {s0 : Stage} {K0 : Knowledge ι} {rest : List InstId}
    {r : List (InstId × Value) × InsertPoint} {d : Draft ι} {u : Value}
    (h : Merging D P f cs branch join mask ways s0 K0 b rest r s d)
    (hu : (f.reroute cs join).FromAbove d.func b u) :
    (f.reroute cs join).ReadyAt d.func b d.pos u ∧ s0.noPhi b u := by
  refine ⟨hu.readyAt _, ?_⟩
  rintro psi hpsi rfl
  obtain ⟨c, hcb, hc, -⟩ := hu
  have hmem := (h.later.widens.body b).subset (Func.mem_body_of_mem_phis hpsi)
  exact hcb (h.good.runs.code.coherent.eq_of_mem_body hc hmem)

/-- The phis of a block are known by the edges that a lane takes into it. -/
theorem Merging.step {s0 : Stage} {K0 : Knowledge ι} {rest : List InstId}
    {merged : List (InstId × Value)} {point next : InsertPoint} {d : Draft ι}
    (hf : f.Bypass D P cs branch join) (hb : b ∈ cs) (hne : b ≠ branch)
    (h0 : s0.Bypassing D P f cs branch join mask ways K0)
    (hways : ∀ phi ∈ s0.func.phis b, ways phi = f.way P b)
    (h : Merging D P f cs branch join mask ways s0 K0 b (phi :: rest) (merged, point) s d)
    (e : mergeIncoming point (s.func.inst phi).incoming b s = (.ok (v, next), s')) :
    ∃ d', Merging D P f cs branch join mask ways s0 K0 b rest (merged ++ [(phi, v)], next) s' d' := by
  have hcode0 := h0.foretold.runs.code
  have hfunc : s.func = d.func := h.stands.func
  have hcode := h.good.runs.code
  have hphi0 : phi ∈ s0.func.phis b := by
    rw [← h.phis]
    exact List.mem_append_right _ List.mem_cons_self
  have hlt : ∀ psi ∈ s0.func.phis b, psi < s0.func.insts.size := fun psi hpsi =>
    hcode0.coherent.body_lt b psi (Func.mem_body_of_mem_phis hpsi)
  have hphi : phi ∈ s.func.phis b := hfunc ▸ (h.later.mem_phis_iff hcode0 hcode).mpr hphi0
  have hbr := hf.span.reachable_of_mem hb
  have henter := h.bypassing.foretold.runs.phis b (hf.reachable_iff.mpr hbr) phi hphi
  rw [hways phi hphi0] at henter
  have hedge : ∀ e ∈ (s.func.inst phi).incoming, s.func.Edge e.1 b := fun e he =>
    h.bypassing.edge.mpr (henter.pred e he)
  have hincoming : (s.func.inst phi).incoming ≠ [] := by
    obtain ⟨p, hp, hpb⟩ := Func.exists_pred hbr (hf.ne_entry hb hne)
    intro hnil
    have := henter.complete p (hf.reachable_iff.mpr hp) hpb
    rw [hnil] at this
    cases this
  have hready : ∀ e ∈ (s.func.inst phi).incoming, (f.reroute cs join).Reachable e.1 → ∀ u,
      (f.reroute cs join).AtEnd d.func e.1 u →
        (f.reroute cs join).ReadyAt d.func b d.pos u ∧ s0.noPhi b u := by
    intro e he hr u hu
    obtain ⟨hdom, hpne⟩ := hf.dominates_pred hb hne (hf.reachable_iff.mp hr) (henter.pred e he)
    exact h.ready_of_fromAbove (hu.fromAbove hr hdom hpne)
  obtain ⟨d', hat, hgood, hlater, husable, hmade, hfore, hk⟩ := exists_merge hf.coherent
    h.bypassing.foretold h.stands h.good (isPlain_of_mem_phis h.bypassing.foretold.runs.code hphi)
    (fun e he => entry_of_mem h.bypassing.foretold.runs.code (hf.reachable_iff.mpr hbr) hphi he) hincoming
    hedge hready e
  have hfunc' : s'.func = d'.func := hat.func
  have hdef : ∀ psi ∈ s0.func.phis b, d.func.Defines (.inst psi) := fun psi hpsi =>
    Nat.lt_of_lt_of_le (hlt psi hpsi) h.later.widens.size
  have hinst : ∀ psi ∈ s0.func.phis b, d'.func.inst psi = d.func.inst psi := fun psi hpsi =>
    hlater.widens.inst psi (hdef psi hpsi)
  refine ⟨d', ?_, hat, hgood, h.later.trans hlater, fun e he => ?_, ?_⟩
  · exact h.bypassing.widen hmade (by rw [hfunc, hfunc']; exact hlater.widens) hfore
  · rcases List.mem_append.mp he with he | he
    · have hold := h.merged e he
      have hmem : e.1 ∈ s0.func.phis b := by
        rw [← h.phis]
        exact List.mem_append_left _ (List.mem_map_of_mem he)
      refine ⟨?_, fun l x hx => ?_⟩
      · rw [hinst e.1 hmem]
        exact hlater.usable h.good hold.usable
      · refine (hlater.knows h.good hold.usable).mpr (hold.refines l x ?_)
        exact (hlater.extends_.knows (hdef e.1 hmem)).mp hx
    · obtain rfl := List.mem_singleton.mp he
      refine ⟨?_, fun l x hx => ?_⟩
      · rw [hinst phi hphi0, ← hfunc]
        exact husable
      · have hx : d.known.inst l phi x := (hlater.extends_.knows (hdef phi hphi0)).mp hx
        exact hk l x (fun e he ht => henter.taken l e he ht x hx)
          (hf.taken_or_knows (hf.ne_entry hb hne) henter hx)
  · rw [List.map_append, List.append_assoc]
    exact h.phis

/-- The instructions that see a phi of their block: those that use it, and the effects, which the mask of
the block has to guard. -/
def sees (s : Stage) (phi i : InstId) : Prop :=
  .inst phi ∈ (s.func.inst i).inputs ∨ s.func.isEffect i = true

/-- A stage while the phis of a block are replaced: those of `rest` are to come. -/
structure Replacing (D : Doings ι) (P : ι → List BlockId) (f : Func) (cs : List BlockId)
    (branch join : BlockId) (mask : Value) (ways : InstId → Way ι) (K : Knowledge ι) (s0 : Stage)
    (b : BlockId) (rest : List (InstId × Value)) (s : Stage) : Prop where
  bypassing : s.Bypassing D P f cs branch join mask ways K
  phis : ∀ phi, phi ∈ s.func.phis b ↔ phi ∈ rest.map Prod.fst
  nodup : (rest.map Prod.fst).Nodup
  replaces : ∀ e ∈ rest, (f.reroute cs join).Replaceable s.func b e.1 e.2 (s.sees e.1)
  refines : ∀ e ∈ rest, K.Refines (.inst e.1) e.2
  noPhi : ∀ e ∈ rest, s0.noPhi b e.2
  old : ∀ c phi, phi ∈ s.func.phis c → phi ∈ s0.func.phis c

theorem Replacing.step {s0 : Stage} {rest : List (InstId × Value)} (hf : f.Bypass D P cs branch join)
    (hb : b ∈ cs ∧ b ≠ branch ∨ b = join)
    (h : Replacing D P f cs branch join mask ways K s0 b ((phi, v) :: rest) s) :
    Replacing D P f cs branch join mask ways K s0 b rest (s.replaced phi v) := by
  have k := h.replaces (phi, v) List.mem_cons_self
  have hcode := h.bypassing.foretold.runs.code
  have hphis := fun c => (hcode.phis_substPhi (Func.isPhi_of_mem_phis k.mem) v c).1
  obtain ⟨hnot, hnodup⟩ := List.nodup_cons.mp h.nodup
  have hmem0 : ∀ e ∈ (phi, v) :: rest, e.1 ∈ s0.func.phis b := fun e he =>
    h.old b e.1 ((h.phis e.1).mpr (List.mem_map_of_mem he))
  have hne : ∀ e ∈ rest, e.1 ≠ phi := by
    intro e he heq
    exact hnot (List.mem_map.mpr ⟨e, he, heq⟩)
  refine ⟨h.bypassing.replaced hf hb k (h.refines _ List.mem_cons_self), fun psi => ?_, hnodup,
    fun e he => ?_, fun e he => h.refines e (List.mem_cons_of_mem _ he),
    fun e he => h.noPhi e (List.mem_cons_of_mem _ he), fun c psi hpsi => ?_⟩
  · rw [show (s.replaced phi v).func.phis b = _ from hphis b, List.mem_filter, h.phis, bne_iff_ne,
      List.map_cons, List.mem_cons]
    constructor
    · rintro ⟨hmem, hpsi⟩
      exact hmem.resolve_left hpsi
    · intro hmem
      refine ⟨.inr hmem, ?_⟩
      rintro rfl
      exact hnot hmem
  · have he' := List.mem_cons_of_mem (phi, v) he
    refine Func.Replaceable.substPhi hcode k (h.replaces e he') (hne e he)
      (h.noPhi e he' phi (hmem0 (phi, v) List.mem_cons_self)) fun i hi hl => ?_
    rcases hl with hl | hl
    · left
      have hbody := Func.mem_body_of_mem_nonPhis hi
      change .inst e.1 ∈ ((s.func.substPhi phi v).inst i).inputs at hl
      rw [Func.inst_substPhi_of_mem hcode.coherent hbody, Instr.inputs_map] at hl
      obtain ⟨u, hu, hue⟩ := List.mem_map.mp hl
      rw [Substitution.value_single] at hue
      split at hue
      · exact absurd hue (h.noPhi (phi, v) List.mem_cons_self e.1 (hmem0 e he'))
      · exact hue ▸ hu
    · right
      rw [← Func.isEffect_substPhi s.func phi v i]
      exact hl
  · have hpsi : psi ∈ (s.func.phis c).filter (· != phi) := hphis c ▸ hpsi
    exact h.old c psi (List.mem_filter.mp hpsi).1

/-- Whatever sees a phi of the block was there before the merges, and stands after all of them. -/
theorem Merging.mem_drop_of_sees {s0 : Stage} {K0 : Knowledge ι} {rest : List InstId}
    {r : List (InstId × Value) × InsertPoint} {d : Draft ι} {i : InstId}
    (hf : f.Bypass D P cs branch join) (h0 : s0.Bypassing D P f cs branch join mask ways K0)
    (h : Merging D P f cs branch join mask ways s0 K0 b rest r s d) (hphi : phi ∈ s0.func.phis b)
    (hi : i ∈ s.func.nonPhis b) (hsees : s.sees phi i) : i ∈ (d.func.body b).drop d.pos := by
  have hcode0 := h0.foretold.runs.code
  have hfunc : s.func = d.func := h.stands.func
  have hwide : s0.func.Widens s.func := hfunc ▸ h.later.widens
  obtain ⟨hbody, hnot⟩ := h.bypassing.foretold.runs.code.mem_nonPhis_iff.mp hi
  have hlt : i < s0.func.insts.size := by
    by_contra hge
    rcases hsees with hin | heff
    · rw [hfunc] at hin
      exact h.later.inputs i (Nat.le_of_not_lt hge) _ hin phi hphi rfl
    · have hD := h.bypassing.foretold.runs.isEffect_lt hbody heff
      exact hge (Nat.lt_of_lt_of_le (hf.coherent.body_lt b i hD) h0.foretold.runs.size)
  have hi0 : i ∈ s0.func.nonPhis b := by
    refine hcode0.mem_nonPhis_iff.mpr ⟨hwide.old b i hbody hlt, ?_⟩
    rwa [Func.isPhi, hwide.inst i hlt] at hnot
  rw [h.later.rest]
  show i ∈ (s0.func.body b).drop (s0.func.firstNonPhi b)
  conv => rw [← s0.func.phis_append_nonPhis b]
  rw [Func.firstNonPhi, List.drop_left]
  exact hi0

/-- When all values are made, they can stand in for the phis. -/
theorem Merging.replacing {s0 : Stage} {K0 : Knowledge ι} {r : List (InstId × Value) × InsertPoint}
    {d : Draft ι} (hf : f.Bypass D P cs branch join) (hb : b ∈ cs)
    (h0 : s0.Bypassing D P f cs branch join mask ways K0)
    (h : Merging D P f cs branch join mask ways s0 K0 b [] r s d) :
    Replacing D P f cs branch join mask ways d.known s0 b r.1 s := by
  have hcode0 := h0.foretold.runs.code
  have hfunc : s.func = d.func := h.stands.func
  have hcode : (f.reroute cs join).Supports s.func := h.bypassing.foretold.runs.code
  have hphis : r.1.map Prod.fst = s0.func.phis b := by
    have := h.phis
    rwa [List.append_nil] at this
  have hsame : ∀ c psi, psi ∈ s.func.phis c ↔ psi ∈ s0.func.phis c := by
    intro c psi
    rw [hfunc]
    exact h.later.mem_phis_iff hcode0 (hfunc ▸ hcode)
  have hmem : ∀ e ∈ r.1, e.1 ∈ s0.func.phis b := fun e he => hphis ▸ List.mem_map_of_mem he
  have hno : ∀ e ∈ r.1, s0.noPhi b e.2 := fun e he => (h.merged e he).usable.allowed
  refine ⟨h.bypassing, fun psi => ?_, ?_, fun e he => ?_, fun e he => (h.merged e he).refines, hno,
    fun c psi => (hsame c psi).mp⟩
  · rw [hphis]
    exact hsame b psi
  · rw [hphis]
    exact (hcode0.nodup b).sublist ((s0.func.phis_append_nonPhis b) ▸ List.sublist_append_left _ _)
  · have hu := (h.merged e he).usable
    refine ⟨(hsame b e.1).mpr (hmem e he), hf.reachable_iff.mpr (hf.span.reachable_of_mem hb),
      hu.isTyped, ?_, hno e he e.1 (hmem e he), hfunc ▸ hu.ready.atEnd, fun i hi hsees => ?_⟩
    · rw [hfunc]
      exact hu.typeOf
    · have hafter := h.mem_drop_of_sees hf h0 (hmem e he) hi hsees
      rw [hfunc]
      refine Value.Within.mono hu.ready fun j hj => hj.imp_left fun hj => ?_
      rw [← List.take_append_drop d.pos (d.func.body b)]
      exact (List.singleton_sublist.mpr hj).append (List.singleton_sublist.mpr hafter)

/-- Replacing the phis of a block of the chain by merges. -/
theorem mergePhis_spec {K0 : Knowledge ι} {s0 : Stage} (hf : f.Bypass D P cs branch join) (hb : b ∈ cs)
    (hne : b ≠ branch) (h0 : s0.Bypassing D P f cs branch join mask ways K0)
    (hways : ∀ phi ∈ s0.func.phis b, ways phi = f.way P b) (e : mergePhis b s0 = (.ok (), s')) :
    ∃ K, s'.Bypassing D P f cs branch join mask ways K ∧ s'.func.phis b = [] ∧
      ∀ c phi, phi ∈ s'.func.phis c → phi ∈ s0.func.phis c := by
  have hcode0 := h0.foretold.runs.code
  have hstart : Merging D P f cs branch join mask ways s0 K0 b (s0.func.phis b) ([], .afterPhis b) s0
      (s0.draftAt K0 b) := by
    refine ⟨h0, ⟨rfl, rfl, .inr (.inl rfl)⟩, ⟨h0.foretold.runs, ⟨?_, Nat.le_refl _, ?_⟩, ?_⟩, .refl _ _,
      fun e he => absurd he List.not_mem_nil, List.nil_append _⟩
    · show b < s0.func.blocks.size
      rw [h0.foretold.blocks, ← hf.blocks]
      exact (hf.span.reachable_of_mem hb).lt hf.closed
    · show s0.func.firstNonPhi b ≤ (s0.func.body b).length
      rw [← s0.func.phis_append_nonPhis b, List.length_append, Func.firstNonPhi]
      exact Nat.le_add_right _ _
    · rintro i hi psi hpsi e
      cases e
      exact absurd (hcode0.coherent.body_lt b i (Func.mem_body_of_mem_phis hpsi)) (Nat.not_lt.mpr hi)
  have htriple : TripleOk (· = s0) (mergePhis b) fun _ s' => ∃ K,
      Replacing D P f cs branch join mask ways K s0 b [] s' := by
    unfold mergePhis
    refine TripleOk.bind TripleOk.get fun t => ?_
    refine TripleOk.bind (R := fun r s => ∃ d, Merging D P f cs branch join mask ways s0 K0 b [] r s d)
      ?_ fun r => ?_
    · refine (TripleOk.foldlM (J := fun rest r s => ∃ d,
        Merging D P f cs branch join mask ways s0 K0 b rest r s d) (t.func.phis b) ?_ _).mono ?_
        fun r s hs => hs
      · rintro phi rest ⟨merged, point⟩ -
        refine TripleOk.bind TripleOk.get fun u => ?_
        rintro s r s2 ⟨rfl, d, hd⟩ e
        obtain ⟨⟨v, next⟩, s1, h1, h2⟩ := exists_of_bind_run_eq_ok e
        cases h2
        exact hd.step hf hb hne h0 hways h1
      · rintro s ⟨rfl, rfl⟩
        exact ⟨_, hstart⟩
    · refine TripleOk.bind (R := fun _ s => ∃ K,
        Replacing D P f cs branch join mask ways K s0 b [] s) ?_ fun _ => TripleOk.pure fun s hs => hs
      refine (TripleOk.forIn (J := fun rest s => ∃ K,
        Replacing D P f cs branch join mask ways K s0 b rest s) r.1 ?_).mono ?_ fun _ s hs => hs
      · rintro ⟨phi, v⟩ rest -
        refine TripleOk.bind (R := fun _ s => ∃ K,
          Replacing D P f cs branch join mask ways K s0 b rest s) (TripleOk.lift ?_) fun _ =>
          TripleOk.pure fun s hs => ⟨rfl, hs⟩
        rintro s _ s2 ⟨K, hs⟩ e
        rw [replacePhi_apply] at e
        cases e
        exact ⟨K, hs.step hf (.inl ⟨hb, hne⟩)⟩
      · rintro s ⟨d, hd⟩
        exact ⟨_, hd.replacing hf hb h0⟩
  obtain ⟨K, hK⟩ := htriple s0 () s' rfl e
  refine ⟨K, hK.bypassing, ?_, hK.old⟩
  exact List.eq_nil_iff_forall_not_mem.mpr fun psi hpsi => absurd ((hK.phis psi).mp hpsi) List.not_mem_nil

end Stage

end Lockstep
