import Lockstep.Proofs.Func.Append
import Lockstep.Proofs.Func.Refit
import Lockstep.Proofs.Func.WellFormed
import Lockstep.Proofs.Vector.Standing

/-!
# A block that is split by a cascade

The blocks of a cascade are numbered from the end of the function on (`Cascade.numbered`), and those of
its lanes are empty at first. Splitting a block at an operation opens it (`Func.Opened`): what comes
before the operation stays, what comes behind it moves to the end of the cascade together with the
terminator, and the phis of the successors, of which the block itself may be one, name the end of the
cascade in its place (`opened_split`).
-/

namespace Lockstep

namespace Cascade

variable {f : Func} {n width k : Nat}

/-! ## The blocks of a cascade -/

/-- A cascade whose blocks are numbered from `n` on. -/
def numbered (n width : Nat) : Cascade where
  lanes := (List.range width).map fun k => (n + 2 * k, n + 2 * k + 1)
  finish := n + 2 * width

theorem conds_numbered (n width : Nat) :
    (numbered n width).conds = (List.range width).map fun k => n + 2 * k := by
  unfold conds numbered
  rw [List.map_map]
  rfl

theorem masked_numbered (n width : Nat) :
    (numbered n width).masked = (List.range width).map fun k => n + 2 * k + 1 := by
  unfold masked numbered
  rw [List.map_map]
  rfl

theorem test_numbered (hk : k ≤ width) : (numbered n width).test k = n + 2 * k := by
  unfold test
  rw [conds_numbered, List.getElem?_map]
  by_cases h : k < width
  · rw [List.getElem?_range h]
    rfl
  · obtain rfl : k = width := by omega
    rw [List.getElem?_eq_none (by rw [List.length_range])]
    rfl

theorem zipIdx_numbered (n width : Nat) : (numbered n width).lanes.zipIdx =
    (List.range width).map fun k => ((n + 2 * k, n + 2 * k + 1), k) := by
  refine List.ext_getElem? fun k => ?_
  unfold numbered
  rw [List.getElem?_zipIdx, List.getElem?_map, List.getElem?_map, Option.map_map]
  by_cases h : k < width
  · rw [List.getElem?_range h]
    simp
  · rw [List.getElem?_eq_none (by rw [List.length_range]; omega)]
    rfl

/-- The blocks of `width` lanes, added one after the other. -/
theorem foldl_addLane (f : Func) (width : Nat) :
    let r := (List.range width).foldl (fun (lanes, f) lane =>
      let (blocks, f) := addLane f lane
      (lanes ++ [blocks], f)) (([] : List (BlockId × BlockId)), f)
    r.1 = (numbered f.blocks.size width).lanes ∧ r.2.blocks.size = f.blocks.size + 2 * width ∧
      r.2.params = f.params := by
  induction width with
  | zero => exact ⟨rfl, rfl, rfl⟩
  | succ width ih =>
    rw [List.range_succ, List.foldl_append]
    generalize List.foldl _ _ (List.range width) = r at ih ⊢
    obtain ⟨lanes, g⟩ := r
    obtain ⟨h1, h2, h3⟩ := ih
    dsimp only at h1 h2 h3
    have hsize : (addLane g width).2.blocks.size = g.blocks.size + 2 := by
      simp [addLane, Func.addBlock]
    have hids : (addLane g width).1 = (f.blocks.size + 2 * width, f.blocks.size + 2 * width + 1) := by
      simp [addLane, Func.addBlock, h2]
    refine ⟨?_, ?_, h3⟩
    · show lanes ++ [(addLane g width).1] = _
      rw [h1, hids]
      unfold numbered
      rw [List.range_succ, List.map_append]
      rfl
    · show (addLane g width).2.blocks.size = _
      rw [hsize, h2]
      omega

/-- What making the blocks of a cascade comes to. -/
theorem create_eq (f : Func) (width : Nat) : ∃ g : Func,
    g.blocks.size = f.blocks.size + 2 * width + 1 ∧ g.params = f.params ∧
      create f width = (numbered f.blocks.size width,
        (numbered f.blocks.size width).masked.zipIdx.foldl (fun g e =>
          g.setTerm e.1 (.br ((numbered f.blocks.size width).test (e.2 + 1)))) g) := by
  obtain ⟨h1, h2, h3⟩ := foldl_addLane f width
  unfold create
  generalize List.foldl _ _ (List.range width) = r at h1 h2 h3 ⊢
  obtain ⟨lanes, g⟩ := r
  dsimp only at h1 h2 h3
  have hc : ({ lanes, finish := (g.addBlock (some "cascade_end")).1 } : Cascade) =
      numbered f.blocks.size width := by
    unfold Func.addBlock
    dsimp only
    rw [h1, h2]
    rfl
  refine ⟨(g.addBlock (some "cascade_end")).2, ?_, h3, ?_⟩
  · simp [Func.addBlock, h2]
  · rw [← hc]

theorem fst_create (f : Func) (width : Nat) : (create f width).1 = numbered f.blocks.size width := by
  obtain ⟨g, -, -, h⟩ := create_eq f width
  rw [h]

theorem size_blocks_create (f : Func) (width : Nat) :
    (create f width).2.blocks.size = f.blocks.size + 2 * width + 1 := by
  obtain ⟨g, hg, -, h⟩ := create_eq f width
  rw [h, ← hg]
  exact List.foldlRecOn (motive := fun h : Func => h.blocks.size = g.blocks.size) _ _ rfl
    fun h hh e _ => (h.size_blocks_setTerm _ _).trans hh

theorem params_create (f : Func) (width : Nat) : (create f width).2.params = f.params := by
  obtain ⟨g, -, hg, h⟩ := create_eq f width
  rw [h, ← hg]
  exact List.foldlRecOn (motive := fun h : Func => h.params = g.params) _ _ rfl fun h hh _ _ => hh

/-- The block that makes the call of a lane leads to the next one. -/
theorem term_create_masked (f : Func) (hk : k < width) :
    (create f width).2.term (f.blocks.size + 2 * k + 1) = .br (f.blocks.size + 2 * (k + 1)) := by
  obtain ⟨g, hg, -, h⟩ := create_eq f width
  have hmem : (f.blocks.size + 2 * k + 1, k) ∈ (numbered f.blocks.size width).masked.zipIdx := by
    rw [List.mem_zipIdx_iff_getElem?, masked_numbered, List.getElem?_map, List.getElem?_range hk]
    rfl
  have hn : ((numbered f.blocks.size width).masked.zipIdx.map Prod.fst).Nodup := by
    rw [List.zipIdx_map_fst, masked_numbered]
    refine List.nodup_range.map fun i j e => ?_
    have e : f.blocks.size + 2 * i + 1 = f.blocks.size + 2 * j + 1 := e
    omega
  rw [h, ← test_numbered (Nat.succ_le_of_lt hk)]
  exact Func.term_foldl_setTerm (k := Prod.fst)
    (t := fun e => .br ((numbered f.blocks.size width).test (e.2 + 1))) hn hmem g
    (show f.blocks.size + 2 * k + 1 < g.blocks.size by omega)

/-- The terminators that there are stay. -/
theorem term_create_of_lt (f : Func) (width : Nat) {b : BlockId} (hb : b < f.blocks.size) :
    (create f width).2.term b = f.term b := by
  obtain ⟨hr, hge⟩ := rewired_create f width
  exact (hr.term b).resolve_right fun h => Nat.not_le.mpr hb (hge b h.1).1

end Cascade

/-! ## A block that is opened -/

/-- The same instruction, in whatever block, with whatever entries if it is a phi. -/
structure Instr.SameCode (d d' : Instr) : Prop where
  ty : d'.ty = d.ty
  mask : d'.mask = d.mask
  isPhi : d'.isPhi = d.isPhi
  op : ∀ code args, d.op = .apply code args → d'.op = .apply code args

theorem Instr.SameCode.refl (d : Instr) : d.SameCode d := ⟨rfl, rfl, rfl, fun _ _ h => h⟩

theorem Instr.SameCode.trans {d d' d'' : Instr} (h : d.SameCode d') (k : d'.SameCode d'') :
    d.SameCode d'' where
  ty := k.ty.trans h.ty
  mask := k.mask.trans h.mask
  isPhi := k.isPhi.trans h.isPhi
  op code args e := k.op code args (h.op code args e)

theorem Instr.sameCode_mapIncoming (g : List (BlockId × Value) → List (BlockId × Value)) (d : Instr) :
    d.SameCode (Func.mapIncoming g d) where
  ty := Func.ty_mapIncoming g d
  mask := Func.mask_mapIncoming g d
  isPhi := Func.isPhi_mapIncoming g d
  op code args e := by
    unfold Func.mapIncoming
    rw [e]
    exact e

/-- Phis are in front of an operation, or there are none behind it. -/
theorem span_append_cons {α : Type} {p : α → Bool} {x : α} (hx : p x = false) (l l' : List α) :
    (l ++ x :: l').takeWhile p = l.takeWhile p ∧
      (l ++ x :: l').dropWhile p = l.dropWhile p ++ x :: l' := by
  induction l with
  | nil => simp [hx]
  | cons y l ih =>
    by_cases hy : p y = true
    · simp [hy, ih.1, ih.2]
    · simp [hy]

theorem span_congr {α : Type} {p q : α → Bool} {l : List α} (h : ∀ x ∈ l, p x = q x) :
    l.takeWhile p = l.takeWhile q ∧ l.dropWhile p = l.dropWhile q := by
  induction l with
  | nil => exact ⟨rfl, rfl⟩
  | cons x l ih =>
    obtain ⟨ih1, ih2⟩ := ih fun y hy => h y (List.mem_cons_of_mem _ hy)
    rw [List.takeWhile_cons, List.takeWhile_cons, List.dropWhile_cons, List.dropWhile_cons,
      h x List.mem_cons_self, ih1, ih2]
    exact ⟨rfl, rfl⟩

/-- A block that lists the same instructions. -/
theorem Func.phis_of_same {f g : Func} {x : BlockId} (hbody : g.body x = f.body x)
    (hp : ∀ i ∈ f.body x, g.isPhi i = f.isPhi i) :
    g.phis x = f.phis x ∧ g.nonPhis x = f.nonPhis x := by
  unfold Func.phis Func.nonPhis
  rw [hbody]
  exact span_congr hp

/-- A block that lists what comes before an operation has the same phis. -/
theorem Func.phis_of_before {f g : Func} {x : BlockId} {i : InstId} {post : List InstId}
    (hbody : f.body x = g.body x ++ i :: post) (hi : f.isPhi i = false)
    (hp : ∀ i ∈ f.body x, g.isPhi i = f.isPhi i) :
    g.phis x = f.phis x ∧ f.nonPhis x = g.nonPhis x ++ i :: post := by
  have hspan := span_congr (l := g.body x) fun j hj => hp j (by
    rw [hbody]
    exact List.mem_append_left _ hj)
  obtain ⟨h1, h2⟩ := span_append_cons hi (g.body x) post
  unfold Func.phis Func.nonPhis
  rw [hbody, h1, h2, hspan.1, hspan.2]
  exact ⟨rfl, rfl⟩

namespace Func

/-- `g` is `f` with the block `b` opened: it ends after `pre`, and leads to blocks numbered from the
end of `f` on, of which the last goes on with `post`. -/
structure Opened (f : Func) (b : BlockId) (pre post : List InstId) (width : Nat) (g : Func) :
    Prop where
  params : g.params = f.params
  blocks : g.blocks.size = f.blocks.size + 2 * width + 1
  insts : f.insts.size ≤ g.insts.size
  same : ∀ i < f.insts.size, (f.inst i).SameCode (g.inst i)
  incoming : ∀ x, ∀ phi ∈ f.phis x, (g.inst phi).incoming =
    if x ∈ (f.term b).targets then
      renameEntry b (f.blocks.size + 2 * width) (f.inst phi).incoming
    else (f.inst phi).incoming
  body : ∀ x < f.blocks.size, g.body x = if x = b then pre else f.body x
  body_finish : g.body (f.blocks.size + 2 * width) = post
  term : ∀ x < f.blocks.size, g.term x = if x = b then .br f.blocks.size else f.term x
  term_finish : g.term (f.blocks.size + 2 * width) = f.term b

variable {f g g' : Func} {b : BlockId} {pre post : List InstId} {width : Nat} {call : InstId}

/-- A block that is opened stays so while the blocks in between grow. -/
theorem Opened.grown {B : BlockId → Prop} (h : f.Opened b pre post width g) (hg : g.GrownIn B g')
    (hB : ∀ x, B x → f.blocks.size ≤ x ∧ x < f.blocks.size + 2 * width) :
    f.Opened b pre post width g' := by
  have hold : ∀ x < f.blocks.size, ¬ B x := fun x hx hb => Nat.not_le.mpr hx (hB x hb).1
  have hfinish : ¬ B (f.blocks.size + 2 * width) := fun hb => Nat.lt_irrefl _ (hB _ hb).2
  have hinst : ∀ i < f.insts.size, g'.inst i = g.inst i := fun i hi =>
    hg.inst i (Nat.lt_of_lt_of_le hi h.insts)
  refine ⟨hg.params.trans h.params, hg.blocks.trans h.blocks, Nat.le_trans h.insts hg.insts,
    fun i hi => ?_, fun x phi hphi => ?_, fun x hx => ?_, ?_, fun x hx => ?_, ?_⟩
  · rw [hinst i hi]
    exact h.same i hi
  · rw [hinst phi (lt_of_isPhi f (isPhi_of_mem_phis hphi))]
    exact h.incoming x phi hphi
  · rw [hg.body (hold x hx)]
    exact h.body x hx
  · rw [hg.body hfinish, h.body_finish]
  · rw [hg.term (hold x hx)]
    exact h.term x hx
  · rw [hg.term hfinish, h.term_finish]

section

variable (h : f.Opened b pre post width g) (hf : f.WellFormed)

include h hf

theorem Opened.isPhi {x : BlockId} {i : InstId} (hi : i ∈ f.body x) : g.isPhi i = f.isPhi i :=
  (h.same i (hf.body_lt x i hi)).isPhi

/-- The other blocks have the phis and operations that they had. -/
theorem Opened.phis_of_ne {x : BlockId} (hx : x < f.blocks.size) (hne : x ≠ b) :
    g.phis x = f.phis x ∧ g.nonPhis x = f.nonPhis x := by
  have hbody := h.body x hx
  rw [if_neg hne] at hbody
  exact phis_of_same hbody fun i hi => h.isPhi hf hi

variable (hbody : f.body b = pre ++ call :: post) (hcall : f.isPhi call = false)

include hbody hcall

/-- The block that is opened keeps its phis, and the operations before the one where it is split. -/
theorem Opened.phis_opened : g.phis b = f.phis b ∧ f.nonPhis b = g.nonPhis b ++ call :: post := by
  have hb : b < f.blocks.size := f.lt_of_mem_body (i := call) (by rw [hbody]; simp)
  have hpre := h.body b hb
  rw [if_pos rfl] at hpre
  exact phis_of_before (by rw [hpre, hbody]) hcall fun i hi => h.isPhi hf hi

/-- The end has no phis. -/
theorem Opened.phis_finish : g.phis (f.blocks.size + 2 * width) = [] ∧
    g.nonPhis (f.blocks.size + 2 * width) = post := by
  have hops : ∀ i ∈ post, g.isPhi i = false := by
    intro i hi
    have hmem : i ∈ f.nonPhis b := by
      rw [(h.phis_opened hf hbody hcall).2]
      exact List.mem_append_right _ (List.mem_cons_of_mem _ hi)
    rw [h.isPhi hf (mem_body_of_mem_nonPhis hmem), hf.phis_first b i hmem]
  have hspan := span_congr (q := fun _ => false) hops
  unfold Func.phis Func.nonPhis
  rw [h.body_finish, hspan.1, hspan.2]
  cases post <;> exact ⟨rfl, rfl⟩

end

end Func

namespace Cascade

open Func

variable {f : Func} {b : BlockId} {pre post : List InstId} {width : Nat} {call : InstId}

/-- A function in which `post` has moved from a block to the end of a cascade, before the entries of
phis are renamed. -/
structure Moved (f : Func) (b : BlockId) (pre post : List InstId) (width : Nat) (g : Func) : Prop where
  params : g.params = f.params
  blocks : g.blocks.size = f.blocks.size + 2 * width + 1
  insts : g.insts.size = f.insts.size
  same : ∀ i < f.insts.size, (f.inst i).SameCode (g.inst i)
  incoming : ∀ i < f.insts.size, (g.inst i).incoming = (f.inst i).incoming
  body : ∀ x, g.body x =
    if x = f.blocks.size + 2 * width then post else if x = b then pre else f.body x
  term : ∀ x < f.blocks.size, g.term x = if x = b then .br f.blocks.size else f.term x

theorem Moved.phis {g : Func} (h : Moved f b pre post width g) (hf : f.WellFormed)
    (hbody : f.body b = pre ++ call :: post) (hcall : f.isPhi call = false) {x : BlockId}
    (hx : x < f.blocks.size) : g.phis x = f.phis x := by
  have hp : ∀ i ∈ f.body x, g.isPhi i = f.isPhi i := fun i hi => (h.same i (hf.body_lt x i hi)).isPhi
  have hne : x ≠ f.blocks.size + 2 * width :=
    Nat.ne_of_lt (Nat.lt_of_lt_of_le hx (Nat.le_add_right _ _))
  have hx := h.body x
  rw [if_neg hne] at hx
  by_cases e : x = b
  · rw [if_pos e] at hx
    exact (phis_of_before (by rw [hx, e, hbody]) hcall hp).1
  · rw [if_neg e] at hx
    exact (phis_of_same hx hp).1

theorem Moved.nodup {g : Func} (h : Moved f b pre post width g) (hf : f.WellFormed)
    (hbody : f.body b = pre ++ call :: post) (x : BlockId) : (g.body x).Nodup := by
  have hn := hf.nodup b
  rw [hbody] at hn
  rw [h.body]
  split
  · exact (List.nodup_cons.mp (List.nodup_append.mp hn).2.1).2
  split
  · exact (List.nodup_append.mp hn).1
  · exact hf.nodup x

/-- Renaming the entries of phis, and giving the end of the cascade its terminator. -/
theorem Moved.opened {g : Func} (h : Moved f b pre post width g) (hf : f.WellFormed)
    (hbody : f.body b = pre ++ call :: post) (hcall : f.isPhi call = false) :
    f.Opened b pre post width
      (((f.term b).targets.foldl (fun g x => g.replacePhiPred x b (f.blocks.size + 2 * width))
        g).setTerm (f.blocks.size + 2 * width) (f.term b)) := by
  let finish := f.blocks.size + 2 * width
  let g' := (f.term b).targets.foldl (fun g x => g.replacePhiPred x b finish) g
  have hr : g.Refits g' := refits_foldl_replacePhiPred b finish (f.term b).targets g
  have hterm : ∀ x, g'.term x = g.term x := term_foldl_replacePhiPred b finish (f.term b).targets g
  have hinst : ∀ i, (g'.setTerm finish (f.term b)).inst i = if ∃ x ∈ (f.term b).targets, i ∈ g.phis x
      then mapIncoming (renameEntry b finish) (g.inst i) else g.inst i :=
    inst_foldl_replacePhiPred b finish _ (h.nodup hf hbody)
  have hlt : ∀ x ∈ (f.term b).targets, x < f.blocks.size := fun x hx => hf.target_lt b x hx
  have hne : ∀ x < f.blocks.size, x ≠ finish := fun x hx =>
    Nat.ne_of_lt (Nat.lt_of_lt_of_le hx (Nat.le_add_right _ _))
  have hfinish : finish < g'.blocks.size := by
    rw [hr.size_blocks, h.blocks]
    exact Nat.lt_succ_self _
  refine ⟨hr.params.trans h.params, ?_, ?_, fun i hi => ?_, fun x phi hphi => ?_, fun x hx => ?_,
    ?_, fun x hx => ?_, ?_⟩
  · rw [size_blocks_setTerm, hr.size_blocks, h.blocks]
  · rw [size_insts_setTerm, hr.size_insts, h.insts]
  · rw [hinst]
    split
    · exact (h.same i hi).trans (Instr.sameCode_mapIncoming _ _)
    · exact h.same i hi
  · have hi := f.lt_of_isPhi (isPhi_of_mem_phis hphi)
    have hx := f.lt_of_mem_body (mem_body_of_mem_phis hphi)
    have hp : (g.inst phi).isPhi = true := (h.same phi hi).isPhi.trans (isPhi_of_mem_phis hphi)
    rw [hinst]
    by_cases hxt : x ∈ (f.term b).targets
    · rw [if_pos hxt, if_pos ⟨x, hxt, by rwa [h.phis hf hbody hcall hx]⟩, incoming_mapIncoming hp,
        h.incoming phi hi]
    · rw [if_neg hxt, if_neg, h.incoming phi hi]
      rintro ⟨y, hy, hphiy⟩
      rw [h.phis hf hbody hcall (hlt y hy)] at hphiy
      have e := hf.eq_of_mem_body (mem_body_of_mem_phis hphi) (mem_body_of_mem_phis hphiy)
      exact hxt (e ▸ hy)
  · rw [body_setTerm, hr.body, h.body, if_neg (hne x hx)]
  · rw [body_setTerm, hr.body, h.body, if_pos rfl]
  · rw [term_setTerm_of_ne _ _ (Ne.symm (hne x hx)), hterm, h.term x hx]
  · rw [term_setTerm, if_pos ⟨rfl, hfinish⟩]

/-- Splitting a block at an operation opens it. -/
theorem opened_split (hf : f.WellFormed) (hbody : f.body b = pre ++ call :: post)
    (hcall : f.isPhi call = false) : f.Opened b pre post width
      ((numbered f.blocks.size width).split (create f width).2 b pre.length) := by
  obtain ⟨hinsts, hbodies⟩ := same_create f width
  have hblocks := size_blocks_create f width
  have hparams := params_create f width
  have hterms := fun x hx => term_create_of_lt f width (b := x) hx
  generalize (create f width).2 = f1 at hinsts hbodies hblocks hparams hterms ⊢
  have hb : b < f.blocks.size := f.lt_of_mem_body (i := call) (by rw [hbody]; simp)
  have hb1 : b < f1.blocks.size := hblocks ▸ Nat.lt_succ_of_lt (Nat.lt_add_right _ hb)
  have hfinish : (numbered f.blocks.size width).finish = f.blocks.size + 2 * width := rfl
  have hc1 : (numbered f.blocks.size width).finish < f1.blocks.size := by
    rw [hfinish, hblocks]
    exact Nat.lt_succ_self _
  have hinst : ∀ i < f.insts.size,
      ((numbered f.blocks.size width).move f1 b pre.length).inst i =
        if i ∈ (f1.body b).drop (pre.length + 1) then
          { f.inst i with block := (numbered f.blocks.size width).finish } else f.inst i := by
    intro i hi
    have h : f1.inst i = f.inst i := by
      unfold Func.inst
      rw [hinsts]
    rw [inst_move _ (by rw [hinsts]; exact hi), h]
  rw [split_eq, hfinish, test_numbered (Nat.zero_le _), hterms b hb]
  refine Moved.opened ⟨?_, ?_, ?_, fun i hi => ?_, fun i hi => ?_, fun x => ?_, fun x hx => ?_⟩
    hf hbody hcall
  · exact (params_move _).trans hparams
  · rw [size_blocks_setTerm, size_blocks_move, hblocks]
  · rw [size_insts_setTerm, size_insts_move, hinsts]
  · rw [inst_setTerm, hinst i hi]
    split <;> exact ⟨rfl, rfl, rfl, fun _ _ h => h⟩
  · rw [inst_setTerm, hinst i hi]
    split <;> rfl
  · rw [body_setTerm, body_move hb1 hc1, hbodies, hbodies, hbody, hfinish]
    simp
  · rw [term_setTerm, size_blocks_move, term_move, hterms x hx]
    by_cases e : b = x
    · rw [if_pos ⟨e, hb1⟩, if_pos e.symm]
      rfl
    · rw [if_neg fun h => e h.1, if_neg fun h => e h.symm]

/-- Splitting a block leaves all blocks but this one and the end of the cascade alone. -/
theorem split_of_ne {c : Cascade} {x : BlockId} (pos : Nat) (hb : b < f.blocks.size)
    (hc : c.finish < f.blocks.size) (hx : x ≠ b) (hxc : x ≠ c.finish) :
    (c.split f b pos).body x = f.body x ∧ (c.split f b pos).term x = f.term x := by
  rw [split_eq]
  constructor
  · rw [body_setTerm, (refits_foldl_replacePhiPred _ _ _ _).body, body_setTerm, body_move hb hc,
      if_neg hxc, if_neg hx]
  · rw [term_setTerm_of_ne _ _ hxc.symm, term_foldl_replacePhiPred, term_setTerm_of_ne _ _ hx.symm,
      term_move]

/-- The blocks of the lanes are still empty. -/
theorem lane_split (hb : b < f.blocks.size) (pos : Nat) {k : Nat} (hk : k < width) :
    ((numbered f.blocks.size width).split (create f width).2 b pos).body (f.blocks.size + 2 * k) = [] ∧
    ((numbered f.blocks.size width).split (create f width).2 b pos).body
      (f.blocks.size + 2 * k + 1) = [] ∧
    ((numbered f.blocks.size width).split (create f width).2 b pos).term
      (f.blocks.size + 2 * k + 1) = .br (f.blocks.size + 2 * (k + 1)) := by
  have hsize := size_blocks_create f width
  have hb1 : b < (create f width).2.blocks.size :=
    hsize ▸ Nat.lt_succ_of_lt (Nat.lt_add_right _ hb)
  have hfinish : (numbered f.blocks.size width).finish < (create f width).2.blocks.size :=
    hsize ▸ Nat.lt_succ_self _
  have hlane : ∀ x, f.blocks.size ≤ x → x < f.blocks.size + 2 * width →
      ((numbered f.blocks.size width).split (create f width).2 b pos).body x = [] ∧
        ((numbered f.blocks.size width).split (create f width).2 b pos).term x =
          (create f width).2.term x := by
    intro x hx hlt
    have hempty : f.body x = [] := by
      rw [Func.body, f.block_of_size_le hx]
      rfl
    have h := split_of_ne pos hb1 hfinish (Nat.ne_of_gt (Nat.lt_of_lt_of_le hb hx)) (Nat.ne_of_lt hlt)
    rwa [(same_create f width).2, hempty] at h
  have h1 : f.blocks.size + 2 * k < f.blocks.size + 2 * width := by omega
  have h2 : f.blocks.size + 2 * k + 1 < f.blocks.size + 2 * width := by omega
  refine ⟨(hlane _ (Nat.le_add_right _ _) h1).1, ?_⟩
  rw [← term_create_masked f hk]
  exact hlane _ (Nat.le_trans (Nat.le_add_right _ _) (Nat.le_succ _)) h2

end Cascade

end Lockstep
