import Lockstep.Proofs.Func.Append
import Lockstep.Proofs.Func.Refit
import Lockstep.Proofs.Loop.OverlayRun

/-!
# Edits of a function with an overlay

For every edit that normalizing loops makes, the overlay of the function that results: a phi or an
operation is added, a phi gets an entry, uses after a loop are redirected to a choice, and an exit
test asks another question.
-/

namespace Lockstep

variable {f t : Func} {anyFn : FuncId} {γ γ' : Overlay} {b : BlockId}

/-! ## More in an overlay -/

namespace Overlay

theorem Sees.mono {v w : Value} (h : γ.Sees b v w) (hle : γ.Le γ') : γ'.Sees b v w :=
  Relation.ReflTransGen.mono (fun _ _ ⟨τ, hτ, e⟩ => ⟨τ, hle.tracked τ hτ, e⟩) _ _ h

theorem SeesOp.mono {o o' : Op} (h : γ.SeesOp b o o') (hle : γ.Le γ') : γ'.SeesOp b o o' := by
  cases h with
  | phi h => exact .phi (h.imp fun _ _ e => ⟨e.1, e.2.mono hle⟩)
  | apply h => exact .apply (h.imp fun _ _ e => e.mono hle)

theorem relMono {R R' : Value → Value → Prop} (hr : ∀ v w, R v w → R' v w) {x y : Option Value}
    (h : Option.Rel R x y) : Option.Rel R' x y := by
  cases h with
  | none => exact .none
  | some h => exact .some (hr _ _ h)

theorem SeesInstr.mono {d d' : Instr} (h : γ.SeesInstr d d') (hle : γ.Le γ') :
    γ'.SeesInstr d d' where
  ty := h.ty
  block := h.block
  op := h.op.mono hle
  mask := relMono (fun _ _ e => e.mono hle) h.mask

theorem SeesTerm.mono {u u' : Terminator} (h : γ.SeesTerm f anyFn b u u') (hle : γ.Le γ') :
    γ'.SeesTerm f anyFn b u u' := by
  cases h with
  | unreachable => exact .unreachable
  | ret h => exact .ret (relMono (fun _ _ e => e.mono hle) h)
  | br target => exact .br target
  | brIf ht h => exact .brIf ht ((h.mono hle).mono_ops (hle.ops_prefix b))

end Overlay

theorem IsGate.mono {before : List InstId} {o : Op} (h : IsGate f anyFn γ b before o)
    (hle : γ.Le γ') : IsGate f anyFn γ' b before o := by
  cases h with
  | not h => exact .not (h.mono hle)
  | and hu hv => exact .and (hu.mono hle) (hv.mono hle)
  | any h => exact .any (h.mono hle)
  | select args => exact .select args

theorem IsAdded.mono {before : List InstId} {i : InstId} (h : IsAdded f anyFn γ b before i)
    (hle : γ.Le γ') : IsAdded f anyFn γ' b before i := by
  have e : γ'.code i = γ.code i := hle.code i h.lt (Annotates.isPhi_of_gate h.gate)
  exact
    { new := h.new
      lt := Nat.lt_of_lt_of_le h.lt hle.size
      block := e ▸ h.block
      mask := e ▸ h.mask
      gate := e ▸ h.gate.mono hle
      branch := h.branch }

theorem IsTracked.mono {τ : Tracked} (h : IsTracked f anyFn γ τ) (hle : γ.Le γ') :
    IsTracked f anyFn γ' τ where
  mem := h.mem
  singleExit := h.singleExit
  lt := ⟨Nat.lt_of_lt_of_le h.lt.1 hle.size, Nat.lt_of_lt_of_le h.lt.2 hle.size⟩
  value := by rw [hle.block _ h.lt.1]; exact h.value
  ty := by rw [hle.ty _ h.lt.1, hle.ty _ h.lt.2]; exact h.ty
  choice := by
    obtain ⟨before, after, leaves, held, φ, e, hop, htells, hφ, hvalue⟩ := h.choice
    obtain ⟨more, e', hmore⟩ := hle.ops τ.shape.exiting
    refine ⟨before, after ++ more, leaves, held, φ, by rw [e', e, List.append_assoc]; rfl, ?_,
      htells.mono hle, hφ, fun hmem => ?_⟩
    · rw [hle.code _ h.lt.2 (by rw [Instr.isPhi, hop]; rfl), hop]
    · rw [← List.cons_append] at hmem
      rcases List.mem_append.mp hmem with hmem | hmem
      · exact hvalue hmem
      · exact Nat.not_lt_of_le (hmore _ hmem) h.lt.1

theorem Overlay.Complete.mono {i : InstId} (h : γ.Complete f anyFn b i) (hi : i < γ.size)
    (hg : γ.Grows γ') : γ'.Complete f anyFn b i := by
  intro p hr hp
  obtain ⟨v, hv, htrue⟩ := h p hr hp
  refine ⟨v, by rw [hg.kept i hi]; exact hv, fun hmask => ?_⟩
  obtain ⟨φ, htells, hφ⟩ := htrue (hg.masks _ hmask hi)
  exact ⟨φ, (htells.mono hg.toLe).mono_ops (hg.ops_prefix p), hφ⟩

/-! ## New phis and operations -/

theorem Func.mapIncoming_of_isPhi_eq_false (g : List (BlockId × Value) → List (BlockId × Value))
    {d : Instr} (h : d.isPhi = false) : Func.mapIncoming g d = d := by
  obtain ⟨op, ty, mask, block⟩ := d
  cases op with
  | phi incoming => cases h
  | apply code args => rfl

namespace Overlay

/-- Adds an instruction that no block lists. -/
def define (γ : Overlay) (d : Instr) : Overlay where
  size := γ.size + 1
  code i := if i = γ.size then d else γ.code i
  phis := γ.phis
  ops := γ.ops
  maskPhis := γ.maskPhis
  tracked := γ.tracked

/-- Adds a phi to a block, which may be a mask. -/
def addPhi (γ : Overlay) (b : BlockId) (isMask : Bool) (d : Instr) : Overlay :=
  { γ.define d with
    phis := fun c => if c = b then γ.phis b ++ [γ.size] else γ.phis c
    maskPhis := if isMask then (b, γ.size) :: γ.maskPhis else γ.maskPhis }

/-- Adds an operation to the end of a block. -/
def addOp (γ : Overlay) (b : BlockId) (d : Instr) : Overlay :=
  { γ.define d with ops := fun c => if c = b then γ.ops b ++ [γ.size] else γ.ops c }

/-- Gives a phi an entry. -/
def setIncoming (γ : Overlay) (phi : InstId) (pred : BlockId) (v : Value) : Overlay :=
  { γ with
    code := fun i =>
      if phi = i then Func.mapIncoming (Func.setEntry · pred v) (γ.code i) else γ.code i }

/-- Redirects the uses of a value after a loop. -/
def addTracked (γ : Overlay) (τ : Tracked) : Overlay := { γ with tracked := τ :: γ.tracked }

variable (γ) (d : Instr)

theorem code_define_self : (γ.define d).code γ.size = d := if_pos rfl

theorem code_define_of_lt {i : InstId} (h : i < γ.size) : (γ.define d).code i = γ.code i :=
  if_neg (Nat.ne_of_lt h)

theorem grows_addPhi (b : BlockId) (isMask : Bool) : γ.Grows (γ.addPhi b isMask d) where
  size := Nat.le_succ _
  block i hi := congrArg Instr.block (γ.code_define_of_lt d hi)
  ty i hi := congrArg Instr.ty (γ.code_define_of_lt d hi)
  code i hi _ := γ.code_define_of_lt d hi
  ops c := ⟨[], (List.append_nil _).symm, nofun⟩
  maskPhis e he := by
    cases isMask
    · exact he
    · exact List.mem_cons_of_mem _ he
  tracked τ hτ := hτ
  kept i hi := γ.code_define_of_lt d hi
  masks e he hlt := by
    cases isMask
    · exact he
    · rcases List.mem_cons.mp he with rfl | he
      · exact absurd hlt (Nat.lt_irrefl _)
      · exact he

theorem grows_addOp (b : BlockId) : γ.Grows (γ.addOp b d) where
  size := Nat.le_succ _
  block i hi := congrArg Instr.block (γ.code_define_of_lt d hi)
  ty i hi := congrArg Instr.ty (γ.code_define_of_lt d hi)
  code i hi _ := γ.code_define_of_lt d hi
  ops c := by
    by_cases hc : c = b
    · refine ⟨[γ.size], ?_, fun i hi => Nat.le_of_eq (List.mem_singleton.mp hi).symm⟩
      rw [hc]
      exact if_pos rfl
    · exact ⟨[], by rw [List.append_nil]; exact if_neg hc, nofun⟩
  maskPhis e he := he
  tracked τ hτ := hτ
  kept i hi := γ.code_define_of_lt d hi
  masks e he _ := he

theorem le_setIncoming (phi : InstId) (pred : BlockId) (v : Value) :
    γ.Le (γ.setIncoming phi pred v) where
  size := Nat.le_refl _
  block i _ := by
    show (if phi = i then Func.mapIncoming _ (γ.code i) else γ.code i).block = _
    split
    · exact Func.block_mapIncoming _ _
    · rfl
  ty i _ := by
    show (if phi = i then Func.mapIncoming _ (γ.code i) else γ.code i).ty = _
    split
    · exact Func.ty_mapIncoming _ _
    · rfl
  code i _ hp := by
    show (if phi = i then Func.mapIncoming _ (γ.code i) else γ.code i) = _
    split
    · exact Func.mapIncoming_of_isPhi_eq_false _ hp
    · rfl
  ops _ := ⟨[], (List.append_nil _).symm, nofun⟩
  maskPhis _ h := h
  tracked _ h := h

theorem grows_addTracked (τ : Tracked) : γ.Grows (γ.addTracked τ) where
  size := Nat.le_refl _
  block _ _ := rfl
  ty _ _ := rfl
  code _ _ _ := rfl
  ops _ := ⟨[], (List.append_nil _).symm, nofun⟩
  maskPhis _ h := h
  tracked _ h := List.mem_cons_of_mem _ h
  kept _ _ := rfl
  masks _ h _ := h

end Overlay

namespace Annotates

variable {d : Instr}

/-- An instruction that is added reads as it was added, and the others as before. -/
theorem seen_define (h : Annotates f anyFn γ t) {t' : Func} (hle : γ.Le γ')
    (hcode : γ'.code = (γ.define d).code)
    (ht : ∀ i, t'.inst i = if i = t.insts.size then d else t.inst i) :
    ∀ i < γ.size + 1, γ'.SeesInstr (γ'.code i) (t'.inst i) := by
  intro i hi
  rw [hcode, ht, h.size]
  rcases Nat.lt_succ_iff_lt_or_eq.mp hi with hi | rfl
  · rw [γ.code_define_of_lt d hi, if_neg (Nat.ne_of_lt hi)]
    exact (h.seen i hi).mono hle
  · rw [γ.code_define_self, if_pos rfl]
    exact .refl γ' d

theorem appendPhi (h : Annotates f anyFn γ t) (hf : f.WellFormed) (hb : b < f.blocks.size)
    (hne : b ≠ f.entry) (ty : Ty) (incoming : List (BlockId × Value)) (isMask : Bool) :
    Annotates f anyFn (γ.addPhi b isMask { op := .phi incoming, ty, block := b })
      (t.appendPhi b ty incoming).2 := by
  generalize hd : ({ op := .phi incoming, ty, block := b } : Instr) = d
  have hdb : d.block = b := by rw [← hd]
  have hg := γ.grows_addPhi d b isMask
  have happ : (t.appendPhi b ty incoming).2 = (t.insertAt b (t.firstNonPhi b) d).2 := by rw [← hd]; rfl
  have hpos : t.firstNonPhi b = (f.phis b ++ γ.phis b).length := by
    rw [Func.firstNonPhi, (h.phis_eq hf b).1]
  -- the phis of a block are the ones before, and the new one
  have hphis : ∀ c, ∀ i ∈ (γ.addPhi b isMask d).phis c, i ∈ γ.phis c ∨ i = γ.size ∧ c = b := by
    intro c i hi
    have hi : i ∈ if c = b then γ.phis b ++ [γ.size] else γ.phis c := hi
    by_cases hc : c = b
    · subst hc
      rw [if_pos rfl] at hi
      rcases List.mem_append.mp hi with hi | hi
      · exact .inl hi
      · exact .inr ⟨List.mem_singleton.mp hi, rfl⟩
    · rw [if_neg hc] at hi
      exact .inl hi
  rw [happ]
  exact
    { params := h.params
      blocks := (Func.size_blocks_insertAt _ _ _ _).trans h.blocks
      size := (Func.size_insts_insertAt _ _ _ _).trans (congrArg (· + 1) h.size)
      le := Nat.le_succ_of_le h.le
      old := fun i hi => (hg.kept i (Nat.lt_of_lt_of_le hi h.le)).trans (h.old i hi)
      body := fun c => by
        show (t.insertAt _ _ _).2.body c =
          (f.phis c ++ if c = b then γ.phis b ++ [γ.size] else γ.phis c) ++ (f.nonPhis c ++ γ.ops c)
        rw [t.body_insertAt b c _ d (h.blocks ▸ hb)]
        by_cases hc : b = c
        · subst hc
          rw [if_pos rfl, if_pos rfl, hpos, h.body b, insertIdx_length_append, h.size]
          simp
        · rw [if_neg hc, if_neg fun e => hc e.symm, h.body c]
      phis := fun c i hi => by
        rcases hphis c i hi with hi | ⟨rfl, rfl⟩
        · obtain ⟨h1, h2, h3, h4, h5⟩ := h.phis c i hi
          rw [hg.kept i h2]
          exact ⟨h1, Nat.lt_succ_of_lt h2, h3, h4, h5⟩
        · refine ⟨h.le, Nat.lt_succ_self _, ?_, ?_, hne⟩
          · show ((γ.define d).code γ.size).isPhi = true
            rw [γ.code_define_self, ← hd]
            rfl
          · show ((γ.define d).code γ.size).block = c
            rw [γ.code_define_self, hdb]
      ops := fun c before i after e => (h.ops c before i after e).mono hg.toLe
      nodup := fun c => by
        refine ⟨?_, (h.nodup c).2⟩
        show (if c = b then γ.phis b ++ [γ.size] else γ.phis c).Nodup
        split
        · refine List.Nodup.append (h.nodup b).1 (List.nodup_singleton _) fun i hi hi' => ?_
          rw [List.mem_singleton.mp hi'] at hi
          exact Nat.lt_irrefl _ (h.phis b _ hi).2.1
        · exact (h.nodup c).1
      seen := h.seen_define hg.toLe rfl fun i => by
        rw [Func.inst_insertAt, ← hdb]
      term := fun c => by
        rw [Func.term_insertAt]
        exact (h.term c).mono hg.toLe
      maskPhis := fun e he => by
        have hmem : e ∈ γ.maskPhis ∨ e = (b, γ.size) := by
          cases isMask
          · exact .inl he
          · exact (List.mem_cons.mp he).symm
        show e.2 ∈ if e.1 = b then γ.phis b ++ [γ.size] else γ.phis e.1
        rcases hmem with hmem | rfl
        · have := h.maskPhis e hmem
          split
          · rename_i hc
            exact List.mem_append_left _ (hc ▸ this)
          · exact this
        · rw [if_pos rfl]
          exact List.mem_append_right _ (List.mem_singleton_self _)
      tracked := fun τ hτ => (h.tracked τ hτ).mono hg.toLe }

/-- An operation that asks only what is told is added to the end of a branch. -/
theorem append (h : Annotates f anyFn γ t) (hb : b < f.blocks.size)
    (hbranch : ∃ c onTrue onFalse, f.term b = .brIf c onTrue onFalse) (hd : d.block = b)
    (hmask : d.mask = none) (hgate : IsGate f anyFn γ b (γ.ops b) d.op) :
    Annotates f anyFn (γ.addOp b d) (t.append b d).2 := by
  have hg := γ.grows_addOp d b
  have hself : (γ.addOp b d).code γ.size = d := γ.code_define_self d
  exact
    { params := h.params
      blocks := (Func.size_blocks_append _ _ _).trans h.blocks
      size := (Func.size_insts_append _ _ _).trans (congrArg (· + 1) h.size)
      le := Nat.le_succ_of_le h.le
      old := fun i hi => (hg.kept i (Nat.lt_of_lt_of_le hi h.le)).trans (h.old i hi)
      body := fun c => by
        rw [t.body_append b c d (h.blocks ▸ hb)]
        show _ = (f.phis c ++ γ.phis c) ++ (f.nonPhis c ++ if c = b then γ.ops b ++ [γ.size] else γ.ops c)
        by_cases hc : b = c
        · subst hc
          rw [if_pos rfl, if_pos rfl, h.body b, h.size]
          simp
        · rw [if_neg hc, if_neg fun e => hc e.symm, h.body c]
      phis := fun c i hi => by
        obtain ⟨h1, h2, h3, h4, h5⟩ := h.phis c i hi
        rw [hg.kept i h2]
        exact ⟨h1, Nat.lt_succ_of_lt h2, h3, h4, h5⟩
      ops := fun c before i after e => by
        have e : (if c = b then γ.ops b ++ [γ.size] else γ.ops c) = before ++ i :: after := e
        by_cases hc : c = b
        · subst hc
          rw [if_pos rfl] at e
          rcases append_cons_eq_append_singleton e.symm with ⟨rfl, rfl⟩ | ⟨after', e⟩
          · exact
              { new := h.le
                lt := Nat.lt_succ_self _
                block := by rw [hself, hd]
                mask := by rw [hself, hmask]
                gate := by rw [hself]; exact hgate.mono hg.toLe
                branch := hbranch }
          · exact (h.ops c before i after' e).mono hg.toLe
        · rw [if_neg hc] at e
          exact (h.ops c before i after e).mono hg.toLe
      nodup := fun c => by
        refine ⟨(h.nodup c).1, ?_⟩
        show (if c = b then γ.ops b ++ [γ.size] else γ.ops c).Nodup
        split
        · refine List.Nodup.append (h.nodup b).2 (List.nodup_singleton _) fun i hi hi' => ?_
          rw [List.mem_singleton.mp hi'] at hi
          obtain ⟨_, hadd⟩ := h.mem_ops hi
          exact Nat.lt_irrefl _ hadd.lt
        · exact (h.nodup c).2
      seen := h.seen_define hg.toLe rfl fun i => by
        rw [Func.inst_append, ← hd]
      term := fun c => by
        rw [Func.term_append]
        exact (h.term c).mono hg.toLe
      maskPhis := h.maskPhis
      tracked := fun τ hτ => (h.tracked τ hτ).mono hg.toLe }

/-! ## Entries of phis -/

theorem forall₂_setEntry {R : Value → Value → Prop} {l l' : List (BlockId × Value)}
    (h : List.Forall₂ (fun e e' => e'.1 = e.1 ∧ R e.2 e'.2) l l') {v : Value} (hv : R v v)
    (pred : BlockId) : List.Forall₂ (fun e e' => e'.1 = e.1 ∧ R e.2 e'.2)
      (Func.setEntry l pred v) (Func.setEntry l' pred v) := by
  induction h with
  | nil => exact .cons ⟨rfl, hv⟩ .nil
  | @cons e e' l l' he ht ih =>
    obtain ⟨p, x⟩ := e
    obtain ⟨p', y⟩ := e'
    obtain ⟨rfl, hxy⟩ := he
    unfold Func.setEntry
    split
    · exact .cons ⟨rfl, hv⟩ ht
    · exact .cons ⟨rfl, hxy⟩ ih

theorem setIncoming (h : Annotates f anyFn γ t) {phi : InstId} (hphi : phi ∈ γ.phis b)
    (pred : BlockId) (v : Value) :
    Annotates f anyFn (γ.setIncoming phi pred v) (t.setIncoming phi pred v) := by
  have hle := γ.le_setIncoming phi pred v
  have hnew := (h.phis b phi hphi).1
  exact
    { params := h.params
      blocks := h.blocks
      size := (Func.size_insts_modifyIncoming _ _ _).trans h.size
      le := h.le
      old := fun i hi => by
        show (if phi = i then _ else γ.code i) = _
        rw [if_neg fun (e : phi = i) => Nat.not_lt_of_le hnew (e ▸ hi), h.old i hi]
      body := fun c => (Func.body_modifyIncoming _ _ _ _).trans (h.body c)
      phis := fun c i hi => by
        obtain ⟨h1, h2, h3, h4, h5⟩ := h.phis c i hi
        refine ⟨h1, h2, ?_, by rw [hle.block i h2, h4], h5⟩
        show (if phi = i then Func.mapIncoming _ (γ.code i) else γ.code i).isPhi = true
        split
        · rw [Func.isPhi_mapIncoming, h3]
        · exact h3
      ops := fun c before i after e => (h.ops c before i after e).mono hle
      nodup := h.nodup
      seen := fun i hi => by
        have hseen := h.seen i hi
        show Overlay.SeesInstr _ (if phi = i then Func.mapIncoming _ (γ.code i) else γ.code i)
          ((t.modifyIncoming phi _).inst i)
        rw [Func.inst_modifyIncoming]
        split
        swap
        · exact hseen.mono hle
        refine
          { ty := by rw [Func.ty_mapIncoming, Func.ty_mapIncoming, hseen.ty]
            block := by rw [Func.block_mapIncoming, Func.block_mapIncoming, hseen.block]
            op := ?_
            mask := by
              rw [Func.block_mapIncoming, Func.mask_mapIncoming, Func.mask_mapIncoming]
              exact Overlay.relMono (fun _ _ e => e.mono hle) hseen.mask }
        have hop := hseen.op
        rw [Func.block_mapIncoming]
        unfold Func.mapIncoming
        generalize γ.code i = d at hop ⊢
        generalize t.inst i = d' at hop ⊢
        obtain ⟨o, ty, mask, block⟩ := d
        obtain ⟨o', ty', mask', block'⟩ := d'
        cases hop with
        | phi hl => exact .phi (forall₂_setEntry (hl.imp fun _ _ e => ⟨e.1, e.2.mono hle⟩) .refl pred)
        | apply hargs => exact .apply (hargs.imp fun _ _ e => e.mono hle)
      term := fun c => by
        show Overlay.SeesTerm f anyFn _ c _ ((t.modifyIncoming phi _).term c)
        rw [Func.term_modifyIncoming]
        exact (h.term c).mono hle
      maskPhis := h.maskPhis
      tracked := fun τ hτ => (h.tracked τ hτ).mono hle }

/-! ## Redirected uses -/

/-- What a user after the loop sees of a value once its uses are redirected. -/
theorem sees_single {τ : Tracked} (hτ : τ ∈ γ'.tracked) (hb : b ∉ τ.loop.blocks) {v w : Value}
    (h : γ'.Sees b v w) :
    γ'.Sees b v ((Substitution.single (.inst τ.value) (.inst τ.choice)).value w) := by
  rw [Substitution.value_single]
  split
  · rename_i e
    exact h.tail ⟨τ, hτ, hb, e, rfl⟩
  · exact h

/-- Uses of a value after its loop are redirected to its choice. -/
theorem replaceUses (h : Annotates f anyFn γ t) {τ : Tracked}
    (hτ : IsTracked f anyFn γ τ) {users : List User}
    (hu : ∀ u ∈ users, t.userBlock u ∉ τ.loop.blocks) :
    Annotates f anyFn (γ.addTracked τ)
      (t.substUsers (.single (.inst τ.value) (.inst τ.choice)) users) := by
  have hg := γ.grows_addTracked τ
  have hmem : τ ∈ (γ.addTracked τ).tracked := List.mem_cons_self
  have hsingle := Substitution.single_idempotent (.inst τ.value) (.inst τ.choice)
  exact
    { params := (Func.refits_substUsers t hsingle users).params.trans h.params
      blocks := (Func.size_blocks_substUsers _ _ _).trans h.blocks
      size := (Func.size_insts_substUsers _ _ _).trans h.size
      le := h.le
      old := h.old
      body := fun c => (Func.body_substUsers _ _ _ _).trans (h.body c)
      phis := h.phis
      ops := fun c before i after e => (h.ops c before i after e).mono hg.toLe
      nodup := h.nodup
      seen := fun i hi => by
        have hseen := (h.seen i hi).mono hg.toLe
        rw [Func.inst_substUsers _ _ hsingle]
        split
        swap
        · exact hseen
        rename_i hmemu
        have hb : (γ.code i).block ∉ τ.loop.blocks := by
          rw [← hseen.block]
          exact hu _ hmemu
        refine { ty := hseen.ty, block := hseen.block, op := ?_, mask := ?_ }
        · have hop := hseen.op
          show Overlay.SeesOp _ (γ.code i).block (γ.code i).op ((t.inst i).op.map _ _)
          generalize (t.inst i).op = o' at hop ⊢
          generalize (γ.code i).op = o at hop ⊢
          cases hop with
          | phi hl =>
            refine .phi (List.forall₂_map_right_iff.mpr (hl.imp fun e e' he => ?_))
            exact ⟨he.1, sees_single hmem hb he.2⟩
          | apply hargs =>
            refine .apply (List.forall₂_map_right_iff.mpr (hargs.imp fun v w hvw => ?_))
            exact sees_single hmem hb hvw
        · have hmask := hseen.mask
          show Option.Rel _ (γ.code i).mask ((t.inst i).mask.map _)
          generalize (t.inst i).mask = k' at hmask ⊢
          generalize (γ.code i).mask = k at hmask ⊢
          cases hmask with
          | none => exact .none
          | some hvw => exact .some (sees_single hmem hb hvw)
      term := fun c => by
        have hterm := (h.term c).mono hg.toLe
        rw [Func.term_substUsers _ _ hsingle]
        split
        swap
        · exact hterm
        rename_i hmemu
        have hb : c ∉ τ.loop.blocks := hu _ hmemu
        generalize t.term c = u' at hterm ⊢
        generalize f.term c = u at hterm ⊢
        cases hterm with
        | unreachable => exact .unreachable
        | ret hv =>
          cases hv with
          | none => exact .ret .none
          | some hvw => exact .ret (.some (sees_single hmem hb hvw))
        | br target => exact .br target
        | brIf ht htells =>
          refine .brIf ht ?_
          rw [Substitution.value_single]
          split
          · rename_i e
            exact .seen hmem hb (e ▸ htells)
          · exact htells
      maskPhis := h.maskPhis
      tracked := fun τ' hτ' => by
        rcases List.mem_cons.mp hτ' with rfl | hτ'
        · exact hτ.mono hg.toLe
        · exact (h.tracked τ' hτ').mono hg.toLe }

/-! ## Exit tests -/

/-- A branch may ask another question that has the same answer. -/
theorem setTerm (h : Annotates f anyFn γ t) {c c' : Value} {onTrue onFalse onTrue' onFalse' : BlockId}
    (hb : f.term b = .brIf c onTrue onFalse)
    (ht : ∀ n, n = onTrue ∨ n = onFalse ↔ n = onTrue' ∨ n = onFalse')
    (hc : Tells f anyFn γ b (γ.ops b) c' fun n => n == onTrue') :
    Annotates f anyFn γ (t.setTerm b (.brIf c' onTrue' onFalse')) :=
  { h with
    blocks := (Func.size_blocks_setTerm _ _ _).trans h.blocks
    body := fun x => (Func.body_setTerm _ _ _ _).trans (h.body x)
    term := fun x => by
      rw [Func.term_setTerm]
      split
      · rename_i e
        obtain ⟨rfl, -⟩ := e
        rw [hb]
        exact .brIf ht hc
      · exact h.term x }

end Annotates

end Lockstep
