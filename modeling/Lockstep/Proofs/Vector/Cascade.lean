import Lockstep.Proofs.Func.Coherent
import Lockstep.Proofs.Vector.Stage
import Lockstep.Vector.Cascade

/-!
# Cascades

What a cascade does to the blocks that were there, and which branches it makes: its blocks lead to
each other, its tests ask for the values that were made for them, and only its end takes over the
terminator of the block that was split.
-/

namespace Lockstep

namespace Func

/-- `f'` differs from `f` in that instructions and blocks were added, that instructions moved to
blocks in `B`, and in terminators that `T` allows. No instruction that was in no block has come
into one. -/
structure Rewired (f : Func) (B : BlockId → Prop) (T : BlockId → Terminator → Prop) (f' : Func) :
    Prop where
  insts : f.insts.size ≤ f'.insts.size
  blocks : f.blocks.size ≤ f'.blocks.size
  placed : ∀ i < f.insts.size, (f'.inst i).block = (f.inst i).block ∨ B (f'.inst i).block
  attached : ∀ i < f.insts.size, f'.Attached i → f.Attached i
  term : ∀ b, f'.term b = f.term b ∨ T b (f'.term b)

variable {f f' f'' : Func} {B : BlockId → Prop} {T T' : BlockId → Terminator → Prop}

theorem Rewired.refl (f : Func) : f.Rewired B T f :=
  ⟨Nat.le_refl _, Nat.le_refl _, fun _ _ => .inl rfl, fun _ _ h => h, fun _ => .inl rfl⟩

theorem Rewired.mono {B' : BlockId → Prop} (h : f.Rewired B T f') (hB : ∀ b, B b → B' b)
    (hT : ∀ b t, T b t → T' b t) : f.Rewired B' T' f' where
  insts := h.insts
  blocks := h.blocks
  placed i hi := (h.placed i hi).imp_right (hB _)
  attached := h.attached
  term b := (h.term b).imp_right (hT b _)

theorem Rewired.trans (h : f.Rewired B T f') (k : f'.Rewired B T f'') : f.Rewired B T f'' where
  insts := Nat.le_trans h.insts k.insts
  blocks := Nat.le_trans h.blocks k.blocks
  placed i hi := by
    rcases k.placed i (Nat.lt_of_lt_of_le hi h.insts) with e | hB
    · rw [e]
      exact h.placed i hi
    · exact .inr hB
  attached i hi ha := h.attached i hi (k.attached i (Nat.lt_of_lt_of_le hi h.insts) ha)
  term b := by
    rcases k.term b with e | ht
    · rw [e]
      exact h.term b
    · exact .inr ht

theorem rewired_addBlock (f : Func) (name : Option String) : f.Rewired B T (f.addBlock name).2 where
  insts := Nat.le_refl _
  blocks := by
    show f.blocks.size ≤ (f.blocks.push _).size
    rw [Array.size_push]
    exact Nat.le_succ _
  placed _ _ := .inl rfl
  attached := by
    rintro i - ⟨b, hb⟩
    rw [body, block_addBlock] at hb
    split at hb
    · cases hb
    · exact ⟨b, hb⟩
  term b := by
    left
    rw [term, block_addBlock]
    split
    · rename_i e
      rw [e, Cfg.term_of_size_le (Nat.le_refl _)]
    · rfl

theorem rewired_setTerm (f : Func) {b : BlockId} {t : Terminator} (ht : T b t) :
    f.Rewired B T (f.setTerm b t) where
  insts := Nat.le_refl _
  blocks := by rw [size_blocks_setTerm]
  placed _ _ := .inl rfl
  attached := by
    rintro i - ⟨c, hc⟩
    rw [body_setTerm] at hc
    exact ⟨c, hc⟩
  term c := by
    rw [term_setTerm]
    split
    · rename_i e
      exact .inr (e.1 ▸ ht)
    · exact .inl rfl

theorem rewired_insertAt (f : Func) (b : BlockId) (pos : Nat) (d : Instr) :
    f.Rewired B T (f.insertAt b pos d).2 where
  insts := by rw [size_insts_insertAt]; exact Nat.le_succ _
  blocks := by rw [size_blocks_insertAt]
  placed i hi := by
    left
    rw [inst_insertAt, if_neg (Nat.ne_of_lt hi)]
  attached := by
    rintro i hi ⟨c, hc⟩
    rcases mem_body_insertAt f hc with h | ⟨rfl, -⟩
    · exact ⟨c, h⟩
    · exact absurd hi (Nat.lt_irrefl _)
  term c := .inl (term_insertAt f b pos d c)

theorem rewired_setBody (f : Func) {b c : BlockId} {is : List InstId}
    (hi : ∀ i ∈ is, i ∈ f.body c) : f.Rewired B T (f.setBody b is) where
  insts := Nat.le_refl _
  blocks := by rw [size_blocks_setBody]
  placed _ _ := .inl rfl
  attached := by
    rintro i - ⟨x, hx⟩
    rw [body_setBody_eq] at hx
    split at hx
    · exact ⟨c, hi i hx⟩
    · exact ⟨x, hx⟩
  term x := .inl (term_setBody f b x is)

theorem rewired_modifyInst (f : Func) (i : InstId) {g : Instr → Instr}
    (hg : ∀ d, (g d).block = d.block ∨ B (g d).block) : f.Rewired B T (f.modifyInst i g) where
  insts := by
    show f.insts.size ≤ (f.insts.modify i g).size
    rw [Array.size_modify]
  blocks := Nat.le_refl _
  placed j _ := by
    rw [inst_modifyInst]
    split
    · exact hg _
    · exact .inl rfl
  attached _ _ h := h
  term _ := .inl rfl

/-- A fold of rewirings is one. -/
theorem rewired_foldl {α : Type} {g : Func → α → Func} (l : List α)
    (h : ∀ f, ∀ x ∈ l, Rewired f B T (g f x)) (f : Func) : f.Rewired B T (l.foldl g f) := by
  induction l generalizing f with
  | nil => exact .refl f
  | cons x l ih =>
    exact (h f x List.mem_cons_self).trans
      (ih (fun f y hy => h f y (List.mem_cons_of_mem _ hy)) (g f x))

theorem rewired_modifyIncoming (f : Func) (i : InstId)
    (g : List (BlockId × Value) → List (BlockId × Value)) : f.Rewired B T (f.modifyIncoming i g) :=
  f.rewired_modifyInst i fun d => by
    left
    split <;> rfl

theorem rewired_replacePhiPred (f : Func) (b old new : BlockId) :
    f.Rewired B T (f.replacePhiPred b old new) :=
  rewired_foldl _ (fun f _ _ => f.rewired_modifyIncoming _ _) f

end Func

namespace Cascade

variable {f : Func} {c : Cascade}

theorem test_mem_blocks (c : Cascade) (lane : Nat) : c.test lane ∈ c.blocks := by
  unfold test blocks
  cases h : c.conds[lane]? with
  | none => simp
  | some b => simp [List.mem_of_getElem? h]

theorem finish_mem_blocks (c : Cascade) : c.finish ∈ c.blocks := by simp [blocks]

theorem mem_blocks_of_mem_lanes {p : BlockId × BlockId} (h : p ∈ c.lanes) :
    p.1 ∈ c.blocks ∧ p.2 ∈ c.blocks := by
  have h1 : p.1 ∈ c.conds := List.mem_map_of_mem h
  have h2 : p.2 ∈ c.masked := List.mem_map_of_mem h
  simp [blocks, h1, h2]

/-! ## Making the blocks -/

/-- What is known of blocks that were just made for lanes. -/
structure AddedLanes (f : Func) (r : List (BlockId × BlockId) × Func) : Prop where
  rewired : f.Rewired (fun _ => False) (fun _ _ => False) r.2
  fresh : ∀ p ∈ r.1, f.blocks.size ≤ p.1 ∧ f.blocks.size ≤ p.2
  lt : ∀ p ∈ r.1, p.1 < r.2.blocks.size ∧ p.2 < r.2.blocks.size

theorem AddedLanes.addLane {r : List (BlockId × BlockId) × Func} (h : AddedLanes f r)
    (lane : Nat) :
    AddedLanes f (r.1 ++ [(Cascade.addLane r.2 lane).1], (Cascade.addLane r.2 lane).2) := by
  have hsize : (Cascade.addLane r.2 lane).2.blocks.size = r.2.blocks.size + 2 := by
    simp [Cascade.addLane, Func.addBlock]
  have hids : (Cascade.addLane r.2 lane).1 = (r.2.blocks.size, r.2.blocks.size + 1) := by
    simp [Cascade.addLane, Func.addBlock]
  have hle := h.rewired.blocks
  refine ⟨h.rewired.trans ((r.2.rewired_addBlock _).trans (Func.rewired_addBlock _ _)),
    fun p hp => ?_, fun p hp => ?_⟩
  · rcases List.mem_append.mp hp with hp | hp
    · exact h.fresh p hp
    · rw [List.mem_singleton.mp hp, hids]
      exact ⟨hle, Nat.le_succ_of_le hle⟩
  · rw [hsize]
    rcases List.mem_append.mp hp with hp | hp
    · exact ⟨Nat.lt_add_right 2 (h.lt p hp).1, Nat.lt_add_right 2 (h.lt p hp).2⟩
    · rw [List.mem_singleton.mp hp, hids]
      exact ⟨Nat.lt_add_of_pos_right (by decide), Nat.lt_succ_self _⟩

theorem addedLanes_foldl (lanes : List Nat) {r : List (BlockId × BlockId) × Func}
    (h : AddedLanes f r) :
    AddedLanes f (lanes.foldl (fun (lanes, f) lane =>
      let (blocks, f) := Cascade.addLane f lane
      (lanes ++ [blocks], f)) r) := by
  induction lanes generalizing r with
  | nil => exact h
  | cons lane lanes ih => exact ih (h.addLane lane)

/-- A branch from one block of a cascade to another. -/
def IsInner (c : Cascade) (b : BlockId) (t : Terminator) : Prop :=
  b ∈ c.blocks ∧ ∃ d ∈ c.blocks, t = .br d

/-- Making a cascade adds blocks that lead to each other. -/
theorem rewired_create (f : Func) (width : Nat) :
    f.Rewired (· ∈ (create f width).1.blocks) (create f width).1.IsInner (create f width).2 ∧
      ∀ b ∈ (create f width).1.blocks, f.blocks.size ≤ b ∧ b < (create f width).2.blocks.size := by
  have h := addedLanes_foldl (f := f) (List.range width) (r := ([], f))
    ⟨.refl f, fun p hp => (by cases hp), fun p hp => (by cases hp)⟩
  unfold create
  generalize List.foldl _ _ (List.range width) = r at h ⊢
  obtain ⟨lanes, f'⟩ := r
  obtain ⟨hrew, hfresh, hlt⟩ := h
  dsimp only at hrew hfresh hlt ⊢
  have hsize : (f'.addBlock (some "cascade_end")).2.blocks.size = f'.blocks.size + 1 := by
    simp [Func.addBlock]
  have hid : (f'.addBlock (some "cascade_end")).1 = f'.blocks.size := rfl
  have hle : ∀ b ∈ ({ lanes, finish := (f'.addBlock (some "cascade_end")).1 } : Cascade).blocks,
      f.blocks.size ≤ b ∧ b < f'.blocks.size + 1 := by
    intro b hb
    rw [hid] at hb
    rcases List.mem_append.mp hb with hb | hb
    · rcases List.mem_append.mp hb with hb | hb
      · obtain ⟨p, hp, rfl⟩ := List.mem_map.mp hb
        exact ⟨(hfresh p hp).1, Nat.lt_succ_of_lt (hlt p hp).1⟩
      · obtain ⟨p, hp, rfl⟩ := List.mem_map.mp hb
        exact ⟨(hfresh p hp).2, Nat.lt_succ_of_lt (hlt p hp).2⟩
    · rw [List.mem_singleton.mp hb]
      exact ⟨hrew.blocks, Nat.lt_succ_self _⟩
  generalize ({ lanes, finish := (f'.addBlock (some "cascade_end")).1 } : Cascade) = c at hle ⊢
  have hterms : (f'.addBlock (some "cascade_end")).2.Rewired (· ∈ c.blocks) c.IsInner
      (c.masked.zipIdx.foldl (fun f x => f.setTerm x.1 (.br (c.test (x.2 + 1))))
        (f'.addBlock (some "cascade_end")).2) := by
    refine Func.rewired_foldl _ (fun g x hx => ?_) _
    obtain ⟨b, lane⟩ := x
    refine g.rewired_setTerm ⟨?_, _, c.test_mem_blocks (lane + 1), rfl⟩
    have hb : b ∈ c.masked := List.mem_of_getElem? (List.mem_zipIdx_iff_getElem?.mp hx)
    simp [blocks, hb]
  refine ⟨?_, fun b hb => ⟨(hle b hb).1, Nat.lt_of_lt_of_le (hle b hb).2 ?_⟩⟩
  · refine (hrew.mono ?_ ?_).trans ((f'.rewired_addBlock _).trans hterms)
    · exact fun _ h => h.elim
    · exact fun _ _ h => h.elim
  · rw [← hsize]
    exact hterms.blocks

/-! ## Splitting a block -/

theorem body_foldl_modifyInst (g : Instr → Instr) (is : List InstId) (f : Func) (b : BlockId) :
    (is.foldl (fun f i => f.modifyInst i g) f).body b = f.body b := by
  induction is generalizing f with
  | nil => rfl
  | cons i is ih => rw [List.foldl_cons, ih, Func.body_modifyInst]

/-- Moving the instructions after a position to the end of the cascade. -/
theorem rewired_move {T : BlockId → Terminator → Prop} (c : Cascade) (f : Func) (b : BlockId)
    (pos : Nat) :
    f.Rewired (· ∈ c.blocks) T ((((f.body b).drop (pos + 1)).foldl (fun f i =>
      f.modifyInst i fun d => { d with block := c.finish })
        (f.setBody b ((f.body b).take pos))).setBody c.finish ((f.body b).drop (pos + 1))) := by
  have hfold := (f.rewired_setBody (B := (· ∈ c.blocks)) (T := T) (b := b) (c := b)
    fun i hi => List.mem_of_mem_take hi).trans
    (Func.rewired_foldl ((f.body b).drop (pos + 1)) (fun g i _ =>
      g.rewired_modifyInst i (g := fun d => { d with block := c.finish })
        fun d => .inr c.finish_mem_blocks) (f.setBody b ((f.body b).take pos)))
  refine ⟨hfold.insts, ?_, hfold.placed, ?_, fun x => ?_⟩
  · rw [Func.size_blocks_setBody]
    exact hfold.blocks
  · rintro i - ⟨x, hx⟩
    rw [Func.body_setBody_eq] at hx
    split at hx
    · exact ⟨b, List.mem_of_mem_drop hx⟩
    · rw [body_foldl_modifyInst, Func.body_setBody_eq] at hx
      split at hx
      · exact ⟨b, List.mem_of_mem_take hx⟩
      · exact ⟨x, hx⟩
  · rw [Func.term_setBody]
    exact hfold.term x

/-- Splitting a block lets it lead into the cascade, and the end of the cascade take over. -/
theorem rewired_split (c : Cascade) (f : Func) (b : BlockId) (pos : Nat) :
    f.Rewired (· ∈ c.blocks)
      (fun x t => x = b ∧ t = .br (c.test 0) ∨ x = c.finish ∧ t = f.term b)
      (c.split f b pos) := by
  refine (rewired_move c f b pos).trans ?_
  refine (Func.rewired_setTerm _ (.inl ⟨rfl, rfl⟩)).trans ?_
  refine (Func.rewired_foldl (f.term b).targets (fun g succ _ =>
    g.rewired_replacePhiPred succ b c.finish) _).trans ?_
  exact Func.rewired_setTerm _ (.inr ⟨rfl, rfl⟩)

/-! ## Filling in the lanes -/

/-- A test of the cascade for a value that was made for it. -/
def IsTest (c : Cascade) (made : List Value) (b : BlockId) (t : Terminator) : Prop :=
  b ∈ c.blocks ∧ ∃ v ∈ made, ∃ x ∈ c.blocks, ∃ y ∈ c.blocks, t = .brIf v x y

theorem IsTest.mono {made made' : List Value} {b : BlockId} {t : Terminator}
    (h : c.IsTest made b t) (hm : ∀ v ∈ made, v ∈ made') : c.IsTest made' b t := by
  obtain ⟨hb, v, hv, h⟩ := h
  exact ⟨hb, v, hm v hv, h⟩

/-- What holds while lanes are filled in: the point is at the end of a block of the cascade. -/
structure Filling (c : Cascade) (f : Func) (made : List Value) (b : Builder) : Prop where
  rewired : f.Rewired (· ∈ c.blocks) (c.IsTest made) b.func
  point : ∃ x ∈ c.blocks, b.point = .blockEnd x

theorem triple_apply {made : List Value} {code : Opcode} {args : List Value} {ty : Ty} :
    Triple (c.Filling f made) (Build.apply code args ty) fun _ => c.Filling f made := by
  rintro b v b' ⟨hr, x, hx, hp⟩ e
  cases e
  refine ⟨hr.trans (Func.rewired_insertAt _ _ _ _), x, hx, ?_⟩
  show Builder.advance b.point _ = _
  rw [hp]
  rfl

theorem Filling.mono {made made' : List Value} {b : Builder} (h : c.Filling f made b)
    (hm : ∀ v ∈ made, v ∈ made') : c.Filling f made' b where
  rewired := h.rewired.mono (fun _ hb => hb) fun _ _ ht => ht.mono hm
  point := h.point

theorem triple_switchTo {made : List Value} {x : BlockId} (hx : x ∈ c.blocks) :
    Triple (c.Filling f made) (Build.switchTo x) fun _ => c.Filling f made :=
  Triple.modify fun _ hb => ⟨hb.rewired, x, hx, rfl⟩

theorem triple_brIf {made : List Value} {v : Value} {x y : BlockId} (hx : x ∈ c.blocks)
    (hy : y ∈ c.blocks) :
    Triple (c.Filling f made) (Build.brIf v x y) fun _ => c.Filling f (made ++ [v]) := by
  refine Triple.modify fun b hb => ?_
  have hb : c.Filling f (made ++ [v]) b := hb.mono fun w hw => List.mem_append_left _ hw
  obtain ⟨hr, z, hz, hp⟩ := hb
  refine ⟨hr.trans (Func.rewired_setTerm _ ⟨?_, v, ?_, x, hx, y, hy, rfl⟩), z, hz, hp⟩
  · show b.currentBlock ∈ c.blocks
    rw [Builder.currentBlock, hp]
    exact hz
  · exact List.mem_append_right _ (List.mem_singleton_self v)

/-- Filling in a lane makes a test for a value that it returns. -/
theorem triple_buildLane {done : List Value} {next cond masked : BlockId} (markers : Markers)
    (isUniform : Value → Bool) (d : Instr) (callee : FuncId) (mask : Value) (lane : Nat) (hcond : cond ∈ c.blocks) (hmasked : masked ∈ c.blocks)
    (hnext : next ∈ c.blocks) :
    Triple (c.Filling f done)
      (buildLane markers isUniform d callee mask next lane cond masked)
      fun made => c.Filling f (done ++ made) := by
  unfold buildLane
  refine Triple.bind (triple_switchTo hcond) fun _ => ?_
  refine Triple.bind triple_apply fun active => ?_
  refine Triple.bind (triple_brIf hmasked hnext) fun _ => ?_
  refine Triple.bind (triple_switchTo hmasked) fun _ => ?_
  refine Triple.bind (R := fun _ => c.Filling f (done ++ [active])) ?_ fun args => ?_
  · refine Triple.mapM (J := fun _ _ => c.Filling f (done ++ [active])) _ ?_ []
    rintro v tail vs -
    split
    · exact Triple.pure fun b hb => hb
    · refine Triple.bind (R := fun _ => c.Filling f (done ++ [active])) ?_ fun ty =>
        triple_apply
      exact Triple.bind Triple.get fun _ => Triple.pure fun b hb => hb.2
  · refine Triple.bind triple_apply fun call => Triple.pure fun b hb => ?_
    refine hb.mono fun v hv => ?_
    rcases List.mem_append.mp hv with hv | hv
    · exact List.mem_append_left _ hv
    · rw [List.mem_singleton.mp hv]
      exact List.mem_append_right _ List.mem_cons_self

end Cascade

namespace Stage

/-- Filling in all lanes makes tests for the values that it returns; nothing else changes. -/
theorem triple_buildCascade {t : Stage} {markers : Markers} {c : Cascade} {d : Instr}
    {callee : FuncId} {mask : Value} :
    Triple (· = t) (buildCascade markers c d callee mask) fun made u =>
      u.info = t.info ∧ t.func.Rewired (· ∈ c.blocks) (c.IsTest made) u.func := by
  unfold buildCascade
  refine Triple.bind Triple.get fun t' => ?_
  refine Triple.bind (R := fun made u => u.info = t.info ∧
    t.func.Rewired (· ∈ c.blocks) (c.IsTest made.flatten) u.func) ?_ fun made =>
    Triple.pure fun u hu => hu
  refine (Triple.mapM (J := fun _ (made : List (List Value)) u => u.info = t.info ∧
    t.func.Rewired (· ∈ c.blocks) (c.IsTest made.flatten) u.func) c.lanes.zipIdx ?_ []).mono ?_
    fun made u hu => hu
  · rintro ⟨⟨cond, masked⟩, lane⟩ tail done hmem u r u' ⟨hinfo, hr⟩ e
    have hlane := Cascade.mem_blocks_of_mem_lanes
      (List.mem_of_getElem? (List.mem_zipIdx_iff_getElem?.mp hmem))
    have hfill : c.Filling t.func done.flatten ⟨u.func, .blockEnd cond⟩ := ⟨hr, cond, hlane.1, rfl⟩
    have h := Cascade.triple_buildLane markers t'.info.isUniform d callee mask lane hlane.1 hlane.2
      (c.test_mem_blocks (lane + 1)) _ _ _ hfill rfl
    cases e
    refine ⟨hinfo, ?_⟩
    rw [List.flatten_append, List.flatten_singleton]
    exact h.rewired
  · rintro u ⟨rfl, rfl⟩
    exact ⟨rfl, .refl _⟩

/-! ## Recording a cascade -/

/-- What is known after a cascade has been recorded: some values have become uniform, and the
blocks of the cascade belong to the region. -/
structure Recorded (c : Cascade) (made : List Value) (t u : Stage) : Prop where
  func : u.func = t.func
  uniform : ∀ v, t.info.isUniform v = true → u.info.isUniform v = true
  made : ∀ v ∈ made, u.info.isUniform v = true
  region : ∀ b, u.info.inRegion b = true ↔ t.info.inRegion b = true ∨ b ∈ c.blocks

theorem isUniform_setShape_uni (v : VectorInfo) (x y : Value) :
    (v.setShape x .uni).isUniform y = (v.isUniform y || x == y) := by
  rw [VectorInfo.isUniform, VectorInfo.shape_setShape, VectorInfo.isUniform]
  by_cases hxy : y = x
  · subst hxy
    cases y <;> simp [Value.isConst, VectorInfo.shape, Shape.uni, Shape.isUniform]
  · have hf : (x == y) = false := beq_eq_false_iff_ne.mpr fun e => hxy e.symm
    rw [if_neg fun e => hxy e.1, hf, Bool.or_false]

theorem inRegion_addBlock (v : VectorInfo) (b x : BlockId) :
    (v.addBlock b).inRegion x = (v.inRegion x || x == b) := by
  unfold VectorInfo.inRegion VectorInfo.addBlock
  cases v.region with
  | none => rfl
  | some r => exact Region.contains_addBlock r b x

/-- Recording a cascade makes one value after the other uniform, and then one block after the other a
block of the region that is not divergent. `J` is what is known with the values and the blocks that
are left. -/
theorem triple_recordCascade_of {J : List Value → List BlockId → Stage → Prop} {c : Cascade}
    {b : BlockId} {made : List Value}
    (hvalue : ∀ v vs, v ∈ made → ∀ u, J (v :: vs) c.blocks u →
      J vs c.blocks { u with info := u.info.setShape v .uni })
    (hblock : ∀ new bs u, J [] (new :: bs) u →
      J [] bs { u with info := (u.info.addBlock new).setDivergent new false })
    (hmask : ∀ new mask u, J [] [] u → J [] [] { u with info := u.info.setPredicate new mask }) :
    Triple (J made c.blocks) (recordCascade c b made) fun _ => J [] [] := by
  unfold recordCascade
  refine Triple.bind (R := fun _ => J made c.blocks)
    (Triple.get.mono (fun _ h => h) fun _ _ h => h.2) fun _ => ?_
  refine Triple.bind (R := fun _ => J [] c.blocks)
    (Triple.forIn (J := fun vs => J vs c.blocks) made fun v vs hv => ?_) fun _ => ?_
  · exact Triple.yield (triple_setShape (hvalue v vs hv))
  refine Triple.bind (R := fun _ => J [] [])
    (Triple.forIn (J := J []) c.blocks fun new bs _ => ?_) fun _ => ?_
  · exact Triple.yield (triple_modifyInfo (hblock new bs))
  split
  · rename_i mask _
    refine Triple.forIn (J := fun _ => J [] []) _ fun new _ _ => ?_
    exact Triple.yield (triple_modifyInfo (hmask new mask))
  · exact Triple.pure fun _ hu => hu

theorem triple_recordCascade {t : Stage} {c : Cascade} {b : BlockId} {made : List Value} :
    Triple (· = t) (recordCascade c b made) fun _ => Recorded c made t := by
  let J (vs : List Value) (bs : List BlockId) (u : Stage) : Prop := u.func = t.func ∧
    (∀ v, t.info.isUniform v = true → u.info.isUniform v = true) ∧
    (∀ v ∈ made, v ∈ vs ∨ u.info.isUniform v = true) ∧
    ∃ past, c.blocks = past ++ bs ∧
      ∀ x, u.info.inRegion x = true ↔ t.info.inRegion x = true ∨ x ∈ past
  refine (triple_recordCascade_of (J := J) ?_ ?_ fun _ _ _ hu => hu).mono ?_ ?_
  · rintro v vs - u ⟨hf, hu, hm, hr⟩
    refine ⟨hf, fun w hw => ?_, fun w hw => ?_, hr⟩
    · rw [isUniform_setShape_uni, hu w hw, Bool.true_or]
    · rw [isUniform_setShape_uni, Bool.or_eq_true, beq_iff_eq]
      rcases hm w hw with h | h
      · exact (List.mem_cons.mp h).elim (fun e => .inr (.inr e.symm)) .inl
      · exact .inr (.inl h)
  · rintro new bs u ⟨hf, hu, hm, past, hpast, hr⟩
    refine ⟨hf, hu, hm, past ++ [new], by rw [hpast]; simp, fun x => ?_⟩
    show ((u.info.addBlock new).inRegion x = true) ↔ _
    rw [inRegion_addBlock, Bool.or_eq_true, hr, List.mem_append, List.mem_singleton, beq_iff_eq]
    exact or_assoc
  · rintro u rfl
    exact ⟨rfl, fun _ hv => hv, fun _ hv => .inl hv, [], rfl, fun x => by simp⟩
  · rintro _ u ⟨hf, hu, hm, past, hpast, hr⟩
    rw [List.append_nil] at hpast
    exact ⟨hf, hu, fun v hv => (hm v hv).resolve_left List.not_mem_nil, hpast ▸ hr⟩

end Stage

end Lockstep
