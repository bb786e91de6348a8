import Lockstep.Proofs.Linear.Branch
import Lockstep.Proofs.Linear.Group

/-!
# Merges find their masks

Merging phis asks for the masks of the edges that the phis have entries for. Where they are known at
the start (`Informed`), they are known whenever a branch is made straight, although that gives phis
entries for edges that have no mask yet: such an edge gets one before the next branch is looked at, and
no phi is merged twice in between (`tripleAll_linearizeBranch`).
-/

namespace Lockstep

namespace Func

/-- The blocks that an instruction has entries for; only a phi has any. -/
def sources (f : Func) (i : InstId) : List BlockId := (f.inst i).incoming.map Prod.fst

variable {f g : Func} {i phi : InstId} {b p pred : BlockId} {v : Value}

theorem sources_of_isPhi_eq_false (h : f.isPhi i = false) : f.sources i = [] := by
  unfold sources Instr.incoming
  unfold isPhi Instr.isPhi Op.isPhi at h
  cases hop : (f.inst i).op with
  | phi incoming =>
    rw [hop] at h
    cases h
  | apply code args => rfl

theorem mem_sources_modifyIncoming {g : List (BlockId × Value) → List (BlockId × Value)}
    (h : p ∈ (f.modifyIncoming phi g).sources i) :
    p ∈ f.sources i ∨ i = phi ∧ p ∈ (g (f.inst phi).incoming).map Prod.fst := by
  unfold sources at h
  rw [inst_modifyIncoming] at h
  split at h
  · rename_i e
    obtain ⟨x, hx, rfl⟩ := List.mem_map.mp h
    exact .inr ⟨e.symm, List.mem_map_of_mem (e ▸ mem_incoming_mapIncoming hx)⟩
  · exact .inl h

theorem mem_sources_setIncoming (h : p ∈ (f.setIncoming phi pred v).sources i) :
    p ∈ f.sources i ∨ i = phi ∧ p = pred := by
  rcases mem_sources_modifyIncoming h with h | ⟨rfl, h⟩
  · exact .inl h
  · obtain ⟨e, he, rfl⟩ := List.mem_map.mp h
    rcases mem_setEntry he with he | rfl
    · exact .inl (List.mem_map_of_mem he)
    · exact .inr ⟨rfl, rfl⟩

theorem mem_sources_removeIncoming {gone : BlockId → Bool}
    (h : p ∈ (f.removeIncoming phi gone).2.sources i) : p ∈ f.sources i := by
  rcases mem_sources_modifyIncoming h with h | ⟨rfl, h⟩
  · exact h
  · obtain ⟨e, he, rfl⟩ := List.mem_map.mp h
    exact List.mem_map_of_mem (List.mem_filter.mp he).1

end Func

namespace Stage

variable {R : BlockId → Prop} {pending : List (BlockId × BlockId)} {t u : Stage} {b c : BlockId}
  {i phi : InstId} {v : Value}

/-! ## What is known -/

/-- Whether the masks are known of the edges that the phis of a block have entries for, but for the
edges that are `pending`. -/
def KnowsEntries (t : Stage) (pending : List (BlockId × BlockId)) (b : BlockId) : Prop :=
  ∀ i ∈ t.func.body b, ∀ p ∈ t.func.sources i,
    (t.masks.edge? p b).isSome = true ∨ (p, b) ∈ pending

/-- Whether a phi stands in a block, and the masks of the edges that it has entries for are known. -/
def KnowsPhi (t : Stage) (b : BlockId) (phi : InstId) : Prop :=
  t.func.StandsIn phi b ∧ ∀ p ∈ t.func.sources phi, (t.masks.edge? p b).isSome = true

/-- The masks that straightening asks for are known of the blocks with `R`. -/
structure Informed (R : BlockId → Prop) (pending : List (BlockId × BlockId)) (t : Stage) : Prop where
  once : t.func.ListsOnce
  block : ∀ b, R b → (t.masks.block? b).isSome = true
  entries : ∀ b, R b → t.KnowsEntries pending b

theorem KnowsEntries.knowsPhi (h : t.KnowsEntries [] b) (ht : t.func.ListsOnce)
    (hi : i ∈ t.func.body b) : t.KnowsPhi b i :=
  ⟨ht.placed b i hi, fun p hp => (h i hi p hp).resolve_right List.not_mem_nil⟩

/-! ## What keeps it known -/

/-- From `t` to `u` no phi has got an entry and no mask has been lost. -/
structure KeepsKnown (t u : Stage) : Prop where
  once : t.func.ListsOnce → u.func.ListsOnce
  standsIn : ∀ {i b}, t.func.StandsIn i b → u.func.StandsIn i b
  body : ∀ {i b p}, i ∈ u.func.body b → p ∈ u.func.sources i → i ∈ t.func.body b
  sources : ∀ {i p}, p ∈ u.func.sources i → p ∈ t.func.sources i
  block : ∀ {b}, (t.masks.block? b).isSome = true → (u.masks.block? b).isSome = true
  edge : ∀ {p q}, (t.masks.edge? p q).isSome = true → (u.masks.edge? p q).isSome = true

theorem KnowsEntries.keeps (h : t.KnowsEntries pending b) (k : KeepsKnown t u) :
    u.KnowsEntries pending b :=
  fun i hi p hp => (h i (k.body hi hp) p (k.sources hp)).imp_left k.edge

theorem KnowsPhi.keeps (h : t.KnowsPhi b i) (k : KeepsKnown t u) : u.KnowsPhi b i :=
  ⟨k.standsIn h.1, fun p hp => k.edge (h.2 p (k.sources hp))⟩

theorem Informed.keeps (h : Informed R pending t) (k : KeepsKnown t u) : Informed R pending u where
  once := k.once h.once
  block b hb := k.block (h.block b hb)
  entries b hb := (h.entries b hb).keeps k

theorem Grows.keepsKnown (h : Grows t u) : KeepsKnown t u where
  once := h.func.listsOnce
  standsIn hi := ⟨Nat.lt_of_lt_of_le hi.1 h.func.size, h.func.inst _ hi.1 ▸ hi.2⟩
  body {i b p} hi hp := by
    by_cases hlt : i < t.func.insts.size
    · exact h.func.old b i hi hlt
    · rw [Func.sources_of_isPhi_eq_false (h.func.fresh i (Nat.le_of_not_lt hlt))] at hp
      exact absurd hp List.not_mem_nil
  sources {i p} hp := by
    by_cases hlt : i < t.func.insts.size
    · rwa [Func.sources, h.func.inst i hlt] at hp
    · rw [Func.sources_of_isPhi_eq_false (h.func.fresh i (Nat.le_of_not_lt hlt))] at hp
      exact absurd hp List.not_mem_nil
  block hb := h.masks ▸ hb
  edge hp := h.masks ▸ hp

theorem keepsKnown_replaced (t : Stage) (phi : InstId) (v : Value) :
    KeepsKnown t (t.replaced phi v) := by
  have hsingle := Substitution.single_idempotent (.inst phi) v
  have hrefits := t.func.refits_substUsers hsingle t.func.users
  have hblock := t.func.block_substUsers hsingle t.func.users
  refine ⟨fun h => (h.refits hrefits hblock).detach phi, fun {i b} hi => ?_,
    fun hi _ => body_replaced_subset hi, fun {i p} hp => ?_, fun {b} hb => ?_, fun {p q} hp => ?_⟩
  · exact ⟨(size_insts_replaced t phi v).symm ▸ hi.1, (hblock i).trans hi.2⟩
  · have hp : p ∈ ((t.func.substUsers (.single (.inst phi) v) t.func.users).inst i).incoming.map
        Prod.fst := hp
    rwa [Func.map_fst_incoming_substUsers _ hsingle fun _ => rfl] at hp
  · show ((t.masks.replace _ _ _).block? b).isSome = true
    rw [block?_replace]
    split
    · rwa [Option.isSome_map]
    · exact hb
  · show ((t.masks.replace _ _ _).edge? p q).isSome = true
    rw [edge?_replace, Option.isSome_map]
    exact hp

theorem keepsKnown_removeIncoming (t : Stage) (phi : InstId) (gone : BlockId → Bool) :
    KeepsKnown t { t with func := (t.func.removeIncoming phi gone).2 } where
  once h := h.refits (Func.refits_modifyIncoming _ _ _) (Func.block_modifyIncoming _ _ · _)
  standsIn hi := ⟨(Func.size_insts_modifyIncoming _ _ _).symm ▸ hi.1,
    (Func.block_modifyIncoming _ _ _ _).trans hi.2⟩
  body hi _ := hi
  sources hp := Func.mem_sources_removeIncoming hp
  block hb := hb
  edge hp := hp

theorem keepsKnown_setTerm (t : Stage) (b : BlockId) (term : Terminator) :
    KeepsKnown t { t with func := t.func.setTerm b term } where
  once h := h.refits (Func.refits_setTerm _ _ _) fun _ => rfl
  standsIn hi := hi
  body hi _ := by
    rwa [Func.body_setTerm] at hi
  sources hp := hp
  block hb := hb
  edge hp := hp

/-! ## New entries -/

/-- A phi may get an entry for an edge that is pending. -/
theorem Informed.setIncoming (h : Informed R pending t) {pred : BlockId}
    (hphi : t.func.StandsIn phi b) (hp : (pred, b) ∈ pending) :
    Informed R pending { t with func := t.func.setIncoming phi pred v } where
  once := h.once.refits (Func.refits_modifyIncoming _ _ _) (Func.block_modifyIncoming _ _ · _)
  block := h.block
  entries c hc i hi p hip := by
    have hi : i ∈ t.func.body c := hi
    rcases Func.mem_sources_setIncoming hip with hip | ⟨rfl, rfl⟩
    · exact h.entries c hc i hi p hip
    · obtain rfl : c = b := (h.once.placed c i hi).2.symm.trans hphi.2
      exact .inr hp

/-- The phis of another block are not concerned. -/
theorem KnowsEntries.setIncoming (h : t.KnowsEntries pending c) (ht : t.func.ListsOnce)
    {pred : BlockId} (hphi : t.func.StandsIn phi b) (hc : c ≠ b) :
    ({ t with func := t.func.setIncoming phi pred v } : Stage).KnowsEntries pending c := by
  intro i hi p hip
  have hi : i ∈ t.func.body c := hi
  rcases Func.mem_sources_setIncoming hip with hip | ⟨rfl, rfl⟩
  · exact h i hi p hip
  · exact absurd ((ht.placed c i hi).2.symm.trans hphi.2) hc

/-- Another phi is not concerned. -/
theorem KnowsPhi.setIncoming (h : t.KnowsPhi b i) {pred : BlockId} (hi : i ≠ phi) :
    ({ t with func := t.func.setIncoming phi pred v } : Stage).KnowsPhi b i := by
  refine ⟨⟨(Func.size_insts_modifyIncoming _ _ _).symm ▸ h.1.1,
    (Func.block_modifyIncoming _ _ _ _).trans h.1.2⟩, fun p hp => ?_⟩
  rcases Func.mem_sources_setIncoming hp with hp | ⟨rfl, -⟩
  · exact h.2 p hp
  · exact absurd rfl hi

/-- An edge that gets its mask is no longer pending. -/
theorem Informed.setEdgeMask {p q : BlockId} (h : Informed R ((p, q) :: pending) t) (mask : Value) :
    Informed R pending { t with masks := t.masks.setEdge p q mask } where
  once := h.once
  block := h.block
  entries c hc i hi x hx := by
    show ((t.masks.setEdge p q mask).edge? x c).isSome = true ∨ _
    rw [Masks.edge?_setEdge]
    split
    · exact .inl rfl
    · rename_i hne
      exact (h.entries c hc i hi x hx).imp_right fun hmem =>
        (List.mem_cons.mp hmem).resolve_left hne

theorem Informed.mono {pending' : List (BlockId × BlockId)} (h : Informed R pending t)
    (hp : ∀ e ∈ pending, e ∈ pending') : Informed R pending' t where
  once := h.once
  block := h.block
  entries b hb i hi p hip := (h.entries b hb i hi p hip).imp_right (hp _)

/-! ## Merging -/

/-- Where the masks are known, merging does not fail. -/
theorem tripleAll_mergeIncoming_known (ht : t.Valid) {point : InsertPoint}
    {incoming : List (BlockId × Value)} (hi : ∀ e ∈ incoming, t.func.Defines e.2)
    (hk : ∀ p ∈ incoming.map Prod.fst, (t.masks.edge? p b).isSome = true) :
    TripleAll (Grows t) (mergeIncoming point incoming b)
      (fun r u => Grows t u ∧ u.func.Defines r.1) fun e _ => e.Expected := by
  refine (tripleAll_mergeIncoming ht hi b).mono_error ?_
  rintro e _ ⟨p, hp, -, hnone⟩
  have hsome := hk p hp
  rw [hnone] at hsome
  cases hsome

/-- Merging the phis of a block keeps what is known. -/
theorem tripleAll_mergePhis (hb : R b) :
    TripleAll (fun t => t.Valid ∧ Informed R [] t) (mergePhis b)
      (fun _ t => t.Valid ∧ Informed R [] t) fun e _ => e.Expected := by
  let Known (t : Stage) : Prop := t.Valid ∧ Informed R [] t
  unfold mergePhis
  refine TripleAll.bind TripleAll.get fun t => ?_
  refine TripleAll.bind (R := fun (r : List (InstId × Value) × InsertPoint) u =>
    Known u ∧ ∀ e ∈ r.1, u.func.Defines e.2) ?_ fun r => ?_
  · refine (TripleAll.foldlM (J := fun l (r : List (InstId × Value) × InsertPoint) u =>
      Known u ∧ (∀ i ∈ l, u.KnowsPhi b i) ∧ ∀ e ∈ r.1, u.func.Defines e.2) (t.func.phis b)
      ?_ _).mono ?_ fun r u hu => ⟨hu.1, hu.2.2⟩
    · rintro phi tail ⟨merged, point⟩ -
      refine TripleAll.bind TripleAll.get fun u => ?_
      refine TripleAll.of_eq ?_
      rintro w ⟨rfl, ⟨hvalid, hu⟩, hphis, hmerged⟩
      refine TripleAll.bind ((tripleAll_mergeIncoming_known hvalid
        (fun e he => hvalid.func.defines_incoming he)
        (hphis phi List.mem_cons_self).2).mono ?_ fun _ w hw => hw) fun r => TripleAll.pure ?_
      · rintro w rfl
        exact .refl hvalid.func
      rintro w ⟨hg, hv⟩
      refine ⟨⟨hg.valid hvalid, hu.keeps hg.keepsKnown⟩,
        fun i hi => (hphis i (List.mem_cons_of_mem _ hi)).keeps hg.keepsKnown, fun e he => ?_⟩
      rcases List.mem_append.mp he with he | he
      · exact hg.func.defines (hmerged e he)
      · rw [List.mem_singleton.mp he]
        exact hv
    · rintro u ⟨rfl, hvalid, hu⟩
      exact ⟨⟨hvalid, hu⟩, fun i hi => (hu.entries b hb).knowsPhi hu.once
        (List.takeWhile_subset _ hi), fun e he => absurd he List.not_mem_nil⟩
  · refine TripleAll.bind (R := fun _ => Known) ?_ fun _ => TripleAll.pure fun u hu => hu
    refine (TripleAll.forIn (J := fun l u => Known u ∧ ∀ e ∈ l, u.func.Defines e.2) r.1 ?_).mono
      (fun u hu => hu) fun _ u hu => hu.1
    rintro ⟨phi, v⟩ tail -
    refine TripleAll.bind (R := fun _ u => Known u ∧ ∀ e ∈ tail, u.func.Defines e.2)
      (TripleAll.lift ?_) fun _ => TripleAll.pure fun u hu => ⟨rfl, hu⟩
    rintro u _ u' ⟨⟨hvalid, hu⟩, hl⟩ e
    rw [replacePhi_apply] at e
    cases e
    refine ⟨⟨hvalid.replaced phi (hl _ List.mem_cons_self), hu.keeps (keepsKnown_replaced u phi v)⟩,
      fun e he => (hl e (List.mem_cons_of_mem _ he)).mono ?_⟩
    rw [size_insts_replaced]

/-! ## Funnelling -/

/-- What holds while the phis of a block `b` get their new ways in: of the phis that are left, and of
the blocks with `C`, all is known. -/
structure Funnelling (R C : BlockId → Prop) (pending : List (BlockId × BlockId)) (b : BlockId)
    (left : List InstId) (t : Stage) : Prop where
  valid : t.Valid
  informed : Informed R pending t
  others : ∀ c, C c → t.KnowsEntries [] c
  nodup : left.Nodup
  phis : ∀ i ∈ left, t.KnowsPhi b i

variable {C : BlockId → Prop} {left : List InstId}

theorem Funnelling.keeps (h : Funnelling R C pending b left t) (hu : u.Valid)
    (k : KeepsKnown t u) : Funnelling R C pending b left u where
  valid := hu
  informed := h.informed.keeps k
  others c hc := (h.others c hc).keeps k
  nodup := h.nodup
  phis i hi := (h.phis i hi).keeps k

theorem Funnelling.setIncoming (h : Funnelling R C pending b (phi :: left) t) {pred : BlockId}
    (hC : ∀ c, C c → c ≠ b) (hp : (pred, b) ∈ pending) (hv : t.func.Defines v) :
    Funnelling R C pending b left { t with func := t.func.setIncoming phi pred v } := by
  obtain ⟨hnew, hnodup⟩ := List.nodup_cons.mp h.nodup
  have hphi := (h.phis phi List.mem_cons_self).1
  have hsize := Func.size_insts_modifyIncoming t.func phi (Func.setEntry · pred v)
  refine ⟨⟨h.valid.func.setIncoming hv, fun c m hm => ?_, fun x y m hm => ?_⟩,
    h.informed.setIncoming hphi hp,
    fun c hc => (h.others c hc).setIncoming h.informed.once hphi (hC c hc), hnodup, fun i hi => ?_⟩
  · exact (h.valid.block c m hm).mono (Nat.le_of_eq hsize.symm)
  · exact (h.valid.edge x y m hm).mono (Nat.le_of_eq hsize.symm)
  · exact (h.phis i (List.mem_cons_of_mem _ hi)).setIncoming fun e => hnew (e ▸ hi)

theorem tripleAll_dropSinglePhi :
    TripleAll (Funnelling R C pending b left) (dropSinglePhi phi)
      (fun _ => Funnelling R C pending b left) fun e _ => e.Expected := by
  unfold dropSinglePhi
  refine TripleAll.bind TripleAll.get fun t => ?_
  split
  · rename_i v hv
    refine TripleAll.lift ?_
    rintro u _ u' ⟨rfl, ht⟩ e
    rw [replacePhi_apply] at e
    cases e
    have hdef := ht.valid.func.inputs phi v (by rw [hv]; exact List.mem_singleton_self v)
    exact ht.keeps (ht.valid.replaced phi hdef) (keepsKnown_replaced t phi v)
  · exact TripleAll.pure fun u hu => hu.2

/-- The phis of a block get one way in instead of several, along an edge that is pending. -/
theorem tripleAll_funnelPhis {pred : BlockId} {gone : BlockId → Bool} {always : Bool}
    {after : InstId → StageM Unit} (hC : ∀ c, C c → c ≠ b) (hp : (pred, b) ∈ pending)
    (hafter : ∀ left phi, TripleAll (Funnelling R C pending b left) (after phi)
      (fun _ => Funnelling R C pending b left) fun e _ => e.Expected) :
    TripleAll (fun t => (t.Valid ∧ Informed R pending t) ∧ (∀ c, C c → t.KnowsEntries [] c) ∧
        t.KnowsEntries [] b) (funnelPhis b pred gone always after)
      (fun _ t => (t.Valid ∧ Informed R pending t) ∧ ∀ c, C c → t.KnowsEntries [] c)
      fun e _ => e.Expected := by
  let J := Funnelling R C pending b
  unfold funnelPhis
  refine TripleAll.bind TripleAll.get fun t => ?_
  refine TripleAll.bind (R := fun _ => J []) ?_ fun _ => TripleAll.pure fun u hu =>
    ⟨⟨hu.valid, hu.informed⟩, hu.others⟩
  refine (TripleAll.forIn (J := J) (t.func.phis b) ?_).mono ?_ fun _ u hu => hu
  · rintro phi tail -
    refine TripleAll.bind TripleAll.get fun u => ?_
    dsimp only
    let removed := (u.func.removeIncoming phi gone).1
    let Removed (w : Stage) : Prop := J (phi :: tail) w ∧ (∀ e ∈ removed, w.func.Defines e.2) ∧
      ∀ p ∈ removed.map Prod.fst, (w.masks.edge? p b).isSome = true
    refine TripleAll.bind (R := fun _ => Removed) (TripleAll.modify ?_) fun _ => ?_
    · rintro w ⟨rfl, hw⟩
      have hsub : ∀ e ∈ removed, e ∈ (u.func.inst phi).incoming :=
        fun e he => (List.mem_filter.mp he).1
      have hdef : ∀ e ∈ (u.func.inst phi).incoming, u.func.Defines e.2 :=
        fun e he => hw.valid.func.defines_incoming he
      have hsize := Func.size_insts_modifyIncoming u.func phi
        fun incoming => incoming.filter fun e => !gone e.1
      have hcoherent := hw.valid.func.modifyIncoming (i := phi)
        (g := fun incoming => incoming.filter fun e => !gone e.1)
        fun e he => hdef e (List.mem_filter.mp he).1
      refine ⟨hw.keeps ⟨hcoherent, fun c m hm => ?_, fun x y m hm => ?_⟩
        (keepsKnown_removeIncoming u phi gone), fun e he => ?_, fun p hp => ?_⟩
      · exact (hw.valid.block c m hm).mono (Nat.le_of_eq hsize.symm)
      · exact (hw.valid.edge x y m hm).mono (Nat.le_of_eq hsize.symm)
      · exact (hdef e (hsub e he)).mono (Nat.le_of_eq hsize.symm)
      · obtain ⟨e, he, rfl⟩ := List.mem_map.mp hp
        exact (hw.phis phi List.mem_cons_self).2 e.1 (List.mem_map_of_mem (hsub e he))
    split
    · refine TripleAll.bind (R := fun r w => J (phi :: tail) w ∧ w.func.Defines r.1)
        (TripleAll.of_eq ?_) fun r => ?_
      · rintro w ⟨hw, hdef, hknown⟩
        refine (tripleAll_mergeIncoming_known hw.valid hdef hknown).mono ?_ ?_
        · rintro w' rfl
          exact .refl hw.valid.func
        · exact fun r w' h => ⟨hw.keeps (h.1.valid hw.valid) h.1.keepsKnown, h.2⟩
      · refine TripleAll.bind (R := fun _ => J tail) (TripleAll.lift (triple_modifyFunc ?_))
          fun _ => TripleAll.bind (hafter tail phi) fun _ => TripleAll.pure fun w hw => ⟨rfl, hw⟩
        rintro w ⟨hw, hv⟩
        exact hw.setIncoming hC hp hv
    · refine TripleAll.pure ?_
      rintro w ⟨hw, -⟩
      exact ⟨rfl, hw.valid, hw.informed, hw.others, (List.nodup_cons.mp hw.nodup).2,
        fun i hi => hw.phis i (List.mem_cons_of_mem _ hi)⟩
  · rintro u ⟨rfl, ⟨hvalid, hu⟩, hC, hb⟩
    refine ⟨hvalid, hu, hC, ?_, fun i hi => hb.knowsPhi hu.once (List.takeWhile_subset _ hi)⟩
    exact (List.takeWhile_sublist _).nodup (hu.once.nodup b)

/-! ## One branch -/

theorem tripleAll_liftExcept {α : Type} {P : Stage → Prop} {x : Except VectorizeError α}
    (h : ∀ e, x = .error e → e.Expected) :
    TripleAll P (linearizeBranch.liftExcept x) (fun a t => P t ∧ x = .ok a) fun e _ =>
      e.Expected := by
  cases x with
  | ok a => exact TripleAll.pure fun t ht => ⟨ht, rfl⟩
  | error e => exact TripleAll.throw fun t _ => h e rfl

/-- The edges along which nodes are made to lead to blocks. -/
def newEdges (pairs : List (ChainNode × BlockId)) : List (BlockId × BlockId) :=
  pairs.map fun p => (p.1.exit, p.2)

/-- An edge gets its mask when it is made. -/
theorem tripleAll_redirectAll {mask : Value} (pairs : List (ChainNode × BlockId)) :
    TripleAll (Informed R (newEdges pairs))
      (ForIn.forIn pairs PUnit.unit fun p _ => do
        redirect p.1 p.2
        setEdgeMask p.1.exit p.2 mask
        return ForInStep.yield PUnit.unit : StageM PUnit)
      (fun _ => Informed R []) fun e _ => e.Expected := by
  refine TripleAll.forIn (J := fun l => Informed R (newEdges l)) pairs ?_
  rintro p tail -
  refine TripleAll.bind (R := fun _ => Informed R (newEdges (p :: tail)))
    (TripleAll.lift (triple_redirect fun t ht => ht.keeps (keepsKnown_setTerm t _ _))) fun _ => ?_
  refine TripleAll.bind (TripleAll.lift (triple_setEdgeMask (Q := fun _ => Informed R (newEdges tail))
    fun t ht => ht.setEdgeMask mask)) fun _ => ?_
  exact TripleAll.pure fun t ht => ⟨rfl, ht⟩

/-- What holds while the loops of a chain get one way in each: of the loops that are left, and of the
join, all is known. -/
structure LoopsLeft (R : BlockId → Prop) (pending : List (BlockId × BlockId)) (join : BlockId)
    (left : List (ChainNode × ChainNode)) (t : Stage) : Prop where
  valid : t.Valid
  informed : Informed R pending t
  join : t.KnowsEntries [] join
  loops : ∀ p ∈ left, p.2.loop.isSome = true → t.KnowsEntries [] p.2.entry
  apart : (left.map Prod.snd).Pairwise Chain.Apart

theorem LoopsLeft.tail {join : BlockId} {p : ChainNode × ChainNode}
    {tail : List (ChainNode × ChainNode)} (h : LoopsLeft R pending join (p :: tail) t) :
    LoopsLeft R pending join tail t where
  valid := h.valid
  informed := h.informed
  join := h.join
  loops q hq := h.loops q (List.mem_cons_of_mem _ hq)
  apart := (List.pairwise_cons.mp h.apart).2

/-- A loop is entered from the node before it, which leads to it later. -/
theorem tripleAll_funnelLoop {join : BlockId} {prev node : ChainNode}
    {tail : List (ChainNode × ChainNode)} {gone : BlockId → Bool}
    (hloop : node.loop.isSome = true) (hne : node.entry ≠ join)
    (hp : (prev.exit, node.entry) ∈ pending) :
    TripleAll (LoopsLeft R pending join ((prev, node) :: tail))
      (funnelPhis node.entry prev.exit gone true fun _ => return)
      (fun _ => LoopsLeft R pending join tail) fun e _ => e.Expected := by
  -- what has to stay known: the join, and the loops that are still to come
  let C (c : BlockId) : Prop := c = join ∨ ∃ p ∈ tail, p.2.loop.isSome = true ∧ p.2.entry = c
  refine TripleAll.of_eq fun t ht => ?_
  have hnode := (List.pairwise_cons.mp ht.apart).1
  refine (tripleAll_funnelPhis (C := C) (fun c hc => ?_) hp fun left phi =>
    TripleAll.pure fun u hu => hu).mono ?_ fun _ u hu =>
      ⟨hu.1.1, hu.1.2, hu.2 join (.inl rfl), fun p hp hl => hu.2 _ (.inr ⟨p, hp, hl, rfl⟩),
        ht.tail.apart⟩
  · rcases hc with rfl | ⟨p, hp, hl, rfl⟩
    · exact hne.symm
    · exact fun e => hnode p.2 (List.mem_map_of_mem hp) hloop hl e.symm
  · rintro u rfl
    refine ⟨⟨ht.valid, ht.informed⟩, fun c hc => ?_, ht.loops _ List.mem_cons_self hloop⟩
    rcases hc with rfl | ⟨p, hp, hl, rfl⟩
    · exact ht.join
    · exact ht.tail.loops p hp hl

/-- Making a branch straight keeps what is known, and does not fail for want of it. -/
theorem tripleAll_linearizeBranch {s : Stage} {region : Option Region} {rest : List BlockId}
    (ht : Straightening s R region (b :: rest) t) (hi : Informed R [] t) :
    TripleAll (· = t) (linearizeBranch (.ofFunc t.func) b) (fun _ => Informed R []) fun e _ =>
      e.Expected := by
  unfold linearizeBranch
  have hc := ht.valid.func.toClosed
  split
  · rename_i join hjoin
    obtain ⟨hreach, hjoin⟩ := Cfg.reachable_of_postDom_parent? hc hjoin
    have hR : ∀ x, t.func.Reachable x → R x := fun x => ht.reachable
    refine TripleAll.bind TripleAll.get fun t' => ?_
    refine TripleAll.bind (tripleAll_liftExcept fun e => Chain.expected_of_blocks) fun bs =>
      TripleAll.assume fun hbs => ?_
    refine TripleAll.bind (tripleAll_liftExcept fun e => Chain.expected_of_nodes) fun ns =>
      TripleAll.assume fun hns => ?_
    refine TripleAll.bind (tripleAll_liftExcept fun e => Chain.expected_of_order hc hreach hbs hns)
      fun order => TripleAll.assume fun horder => ?_
    have hgood := (Chain.good_nodes (LoopForest.nesting_ofCfg _ _) hns).1
    have hnode : ∀ n ∈ order.map ns.get, Chain.IsNode (Analyses.ofFunc t.func).loops bs b n :=
      fun n hn => hgood.isNode n ((Chain.mem_chain horder n).mp hn)
    have hentry : ∀ n ∈ order.map ns.get, R n.entry := fun n hn =>
      hR _ ((Cfg.mem_rpo hc).mp (Chain.of_mem_blocks hbs (hnode n hn).1).1)
    have hapart := Chain.apart_chain hns horder
    generalize order.map ns.get = chain at hnode hentry hapart ⊢
    refine TripleAll.bind (R := fun mask u => u = t) ?_ fun mask => ?_
    · refine ((tripleAll_knownBlockMask ht.valid b).mono (fun u hu => hu.2)
        fun _ u hu => hu.1).mono_error ?_
      rintro e _ ⟨-, hnone⟩
      have hsome := hi.block b (hR b hreach)
      rw [hnone] at hsome
      cases hsome
    refine TripleAll.bind (R := fun _ u => u.Valid ∧ Informed R [] u) ?_ fun _ => ?_
    · refine (TripleAll.forIn (J := fun _ u => u.Valid ∧ Informed R [] u) _ ?_).mono ?_
        fun _ u hu => hu
      · intro node tail hn
        split
        · exact TripleAll.bind (tripleAll_mergePhis (hentry node (List.mem_of_mem_drop hn)))
            fun _ => TripleAll.pure fun u hu => ⟨rfl, hu⟩
        · exact TripleAll.pure fun u hu => ⟨rfl, hu⟩
      · rintro u rfl
        exact ⟨ht.valid, hi⟩
    let pending := newEdges (links chain join)
    have hsnd : (chain.zip (chain.drop 1)).map Prod.snd = chain.drop 1 :=
      List.map_snd_zip (List.length_drop ▸ Nat.sub_le _ _)
    refine TripleAll.bind (R := fun _ => LoopsLeft R pending join []) ?_ fun _ => ?_
    · refine (TripleAll.forIn (J := LoopsLeft R pending join) _ ?_).mono ?_ fun _ u hu => hu
      · rintro ⟨prev, node⟩ tail hp
        dsimp only
        have hn : node ∈ chain := List.mem_of_mem_drop (List.of_mem_zip hp).2
        split
        · rename_i hloop
          have hloop : node.loop.isSome = true := by rw [hloop]; rfl
          exact TripleAll.bind (tripleAll_funnelLoop hloop
            (Chain.entry_ne_join hbs (hnode node hn) hloop)
            (List.mem_map_of_mem (mem_links_of_zip join hp))) fun _ =>
              TripleAll.pure fun u hu => ⟨rfl, hu⟩
        · exact TripleAll.pure fun u hu => ⟨rfl, hu.tail⟩
      · rintro u ⟨hv, hu⟩
        refine ⟨hv, hu.mono fun e he => absurd he List.not_mem_nil, hu.entries join (hR join hjoin),
          fun p hp _ => hu.entries _ (hentry _ (List.mem_of_mem_drop (List.of_mem_zip hp).2)), ?_⟩
        rw [hsnd]
        exact hapart.sublist (List.drop_sublist 1 chain)
    have hlast : TripleAll (Informed R pending) (do
        ForIn.forIn (links chain join) PUnit.unit fun p _ => do
          redirect p.1 p.2
          setEdgeMask p.1.exit p.2 mask
          return ForInStep.yield PUnit.unit
        return chain.length : StageM Nat) (fun _ => Informed R []) fun e _ => e.Expected :=
      TripleAll.bind (tripleAll_redirectAll _) fun _ => TripleAll.pure fun u hu => hu
    split
    · rename_i last hlast?
      have hlink : (last.exit, join) ∈ pending :=
        List.mem_map_of_mem (mem_links_of_getLast? join hlast?)
      refine TripleAll.bind ((tripleAll_funnelPhis (C := fun _ => False) (fun c hc => hc.elim) hlink
        fun left phi => tripleAll_dropSinglePhi).mono ?_ fun _ u hu => hu.1.2) fun _ => hlast
      exact fun u hu => ⟨⟨hu.valid, hu.informed⟩, fun c hc => hc.elim, hu.join⟩
    · exact hlast.mono (fun u hu => hu.informed) fun _ u hu => hu
  · exact TripleAll.throw fun u _ reason e => by cases e

end Stage

end Lockstep
