import Lockstep.Loop.Remainder
import Lockstep.Proofs.Func.Append
import Lockstep.Proofs.Func.Refit
import Lockstep.Proofs.Eval.Rename

/-!
# Copies of blocks

`copyBlock` adds a copy of a block, with copies of its instructions. `CopyOf f done c g` says that
`g` is `f` with copies of the blocks `done`, as recorded in `c`: what was there is unchanged, and a
copied instruction differs from the original in its block only.
-/

namespace Lockstep

namespace CountedLoop

/-- Numbers of instructions as values. -/
def instPair (e : InstId × InstId) : Value × Value := (.inst e.1, .inst e.2)

/-- What copying blocks gives. -/
structure CopyOf (f : Func) (done : List BlockId) (c : Copy) (g : Func)
    (pairs : List (InstId × InstId)) : Prop where
  params : g.params = f.params
  layout : ∀ b, b ∈ g.layout ↔ b < g.blocks.size
  size_blocks : f.blocks.size ≤ g.blocks.size
  size_insts : f.insts.size ≤ g.insts.size
  block : ∀ b < f.blocks.size, g.block b = f.block b
  inst : ∀ i < f.insts.size, g.inst i = f.inst i
  keys : c.blocks.map Prod.fst = done
  fresh_block : ∀ e ∈ c.blocks, f.blocks.size ≤ e.2 ∧ e.2 < g.blocks.size
  nodup_block : (c.blocks.map Prod.snd).Nodup
  new_block : ∀ b, f.blocks.size ≤ b → b < g.blocks.size → b ∈ c.blocks.map Prod.snd
  values : c.values = pairs.map instPair
  value_keys : pairs.map Prod.fst = done.flatMap f.body
  fresh_inst : ∀ e ∈ pairs, f.insts.size ≤ e.2 ∧ e.2 < g.insts.size
  nodup_inst : (pairs.map Prod.snd).Nodup
  copied : ∀ e ∈ pairs, g.inst e.2 = { f.inst e.1 with block := (g.inst e.2).block }
  body : ∀ e ∈ c.blocks, List.Forall₂ (fun i j => (i, j) ∈ pairs) (f.body e.1) (g.body e.2)

variable {f g : Func} {done : List BlockId} {c : Copy} {pairs : List (InstId × InstId)}

theorem CopyOf.start (f : Func) (hl : ∀ b, b ∈ f.layout ↔ b < f.blocks.size) :
    CopyOf f [] {} f [] where
  params := rfl
  layout := hl
  size_blocks := Nat.le_refl _
  size_insts := Nat.le_refl _
  block _ _ := rfl
  inst _ _ := rfl
  keys := rfl
  fresh_block _ he := absurd he List.not_mem_nil
  nodup_block := List.nodup_nil
  new_block _ h1 h2 := absurd h2 (Nat.not_lt.mpr h1)
  values := rfl
  value_keys := rfl
  fresh_inst _ he := absurd he List.not_mem_nil
  nodup_inst := List.nodup_nil
  copied _ he := absurd he List.not_mem_nil
  body _ he := absurd he List.not_mem_nil

/-- Copying instructions to a block appends copies of them. -/
theorem foldl_copyInst (is : List InstId) (target : BlockId) (c : Copy) (f : Func)
    (h : ∀ i ∈ is, i < f.insts.size) :
    is.foldl (copyInst target) (c, f) =
      ({ c with values := c.values ++ (is.zip (List.range' f.insts.size is.length)).map instPair },
        f.appendAll target (is.map f.inst)) := by
  induction is generalizing c f with
  | nil =>
    show (c, f) = ({ c with values := c.values ++ [] }, f)
    rw [List.append_nil]
  | cons i is ih =>
    have hsize : (f.append target (f.inst i)).2.insts.size = f.insts.size + 1 :=
      Func.size_insts_append f target _
    have hinst : ∀ j ∈ is, (f.append target (f.inst i)).2.inst j = f.inst j := by
      intro j hj
      rw [Func.inst_append, if_neg (Nat.ne_of_lt (h j (List.mem_cons_of_mem _ hj)))]
    have hstep : copyInst target (c, f) i = ({ c with values := c.values ++
        [(.inst i, .inst f.insts.size)] }, (f.append target (f.inst i)).2) := rfl
    rw [List.foldl_cons, hstep, ih _ _ fun j hj => by
      rw [hsize]
      exact Nat.lt_succ_of_lt (h j (List.mem_cons_of_mem _ hj))]
    rw [hsize, List.map_congr_left hinst, List.append_assoc]
    rfl

theorem forall₂_zip (is : List InstId) (k : Nat) (P : List (InstId × InstId))
    (h : ∀ e ∈ is.zip (List.range' k is.length), e ∈ P) :
    List.Forall₂ (fun i j => (i, j) ∈ P) is (List.range' k is.length) := by
  induction is generalizing k with
  | nil => exact .nil
  | cons i is ih =>
    rw [List.length_cons, List.range'_succ] at h ⊢
    exact .cons (h _ List.mem_cons_self) (ih _ fun e he => h e (List.mem_cons_of_mem _ he))

/-- What a copy of a block adds. -/
def copyPairs (f g : Func) (b : BlockId) : List (InstId × InstId) :=
  (f.body b).zip (List.range' g.insts.size (f.body b).length)

theorem copyBlock_eq (h : CopyOf f done c g pairs) (hf : f.Laid) {b : BlockId} (hb : b < f.blocks.size) :
    copyBlock (c, g) b =
      ({ blocks := c.blocks ++ [(b, g.blocks.size)]
         values := c.values ++ (copyPairs f g b).map instPair },
        (g.addBlock (some (copyName g b ".rem"))).2.appendAll g.blocks.size
          ((f.body b).map f.inst)) := by
  have hbody : (g.addBlock (some (copyName g b ".rem"))).2.body b = f.body b := by
    unfold Func.body
    rw [Func.block_addBlock, if_neg (Nat.ne_of_lt (Nat.lt_of_lt_of_le hb h.size_blocks)),
      h.block b hb]
  show ((g.addBlock (some (copyName g b ".rem"))).2.body b).foldl (copyInst g.blocks.size)
    ({ c with blocks := c.blocks ++ [(b, g.blocks.size)] },
      (g.addBlock (some (copyName g b ".rem"))).2) = _
  have hlt : ∀ i ∈ f.body b, i < (g.addBlock (some (copyName g b ".rem"))).2.insts.size :=
    fun i hi => Nat.lt_of_lt_of_le (hf.body_lt b i hi) h.size_insts
  rw [hbody, foldl_copyInst _ _ _ _ hlt]
  have hinst : ∀ i ∈ f.body b, (g.addBlock (some (copyName g b ".rem"))).2.inst i = f.inst i :=
    fun i hi => h.inst i (hf.body_lt b i hi)
  rw [List.map_congr_left hinst]
  rfl

theorem snd_of_mem_zip_range' {is : List InstId} {k : Nat} {e : InstId × InstId}
    (h : e ∈ is.zip (List.range' k is.length)) :
    ∃ j, is[j]? = some e.1 ∧ e.2 = k + j ∧ j < is.length := by
  obtain ⟨j, hj⟩ := List.mem_iff_getElem?.mp h
  obtain ⟨h1, h2⟩ := List.getElem?_zip_eq_some.mp hj
  have hlt : j < is.length := (List.getElem?_eq_some_iff.mp h1).1
  rw [List.getElem?_range' hlt, Nat.one_mul] at h2
  exact ⟨j, h1, (Option.some.inj h2).symm, hlt⟩

/-- Copying one more block. -/
theorem CopyOf.copyBlock (h : CopyOf f done c g pairs) (hf : f.Laid) {b : BlockId} (hb : b < f.blocks.size) :
    CopyOf f (done ++ [b]) (copyBlock (c, g) b).1 (copyBlock (c, g) b).2
      (pairs ++ copyPairs f g b) := by
  rw [copyBlock_eq h hf hb]
  have hsb : (g.addBlock (some (copyName g b ".rem"))).2.blocks.size = g.blocks.size + 1 :=
    Array.size_push _
  have hnew : g.blocks.size < (g.addBlock (some (copyName g b ".rem"))).2.blocks.size := by
    rw [hsb]
    exact Nat.lt_succ_self _
  have hsi : (g.addBlock (some (copyName g b ".rem"))).2.insts.size = g.insts.size := rfl
  have hlen : ((f.body b).map f.inst).length = (f.body b).length := List.length_map _
  have hold : ∀ x < g.blocks.size,
      ((g.addBlock (some (copyName g b ".rem"))).2.appendAll g.blocks.size
        ((f.body b).map f.inst)).block x = g.block x := by
    intro x hx
    rw [Func.block_appendAll_of_ne _ (Nat.ne_of_lt hx).symm, Func.block_addBlock,
      if_neg (Nat.ne_of_lt hx)]
  have hinst : ∀ i < g.insts.size,
      ((g.addBlock (some (copyName g b ".rem"))).2.appendAll g.blocks.size
        ((f.body b).map f.inst)).inst i = g.inst i :=
    fun i hi => Func.inst_appendAll_of_lt hi
  constructor
  case params =>
    rw [Func.params_appendAll]
    exact h.params
  case layout =>
    intro x
    rw [Func.layout_appendAll, Func.size_blocks_appendAll, hsb]
    show x ∈ g.layout ++ [g.blocks.size] ↔ _
    rw [List.mem_append, List.mem_singleton, h.layout]
    exact Nat.lt_succ_iff_lt_or_eq.symm
  case size_blocks =>
    rw [Func.size_blocks_appendAll, hsb]
    exact Nat.le_succ_of_le h.size_blocks
  case size_insts =>
    rw [Func.size_insts_appendAll]
    exact Nat.le_trans h.size_insts (Nat.le_add_right _ _)
  case block =>
    intro x hx
    rw [hold x (Nat.lt_of_lt_of_le hx h.size_blocks), h.block x hx]
  case inst =>
    intro i hi
    rw [hinst i (Nat.lt_of_lt_of_le hi h.size_insts), h.inst i hi]
  case keys =>
    rw [List.map_append, h.keys]
    rfl
  case fresh_block =>
    intro e he
    rw [Func.size_blocks_appendAll, hsb]
    rcases List.mem_append.mp he with he | he
    · have := h.fresh_block e he
      exact ⟨this.1, Nat.lt_succ_of_lt this.2⟩
    · cases List.mem_singleton.mp he
      exact ⟨h.size_blocks, Nat.lt_succ_self _⟩
  case nodup_block =>
    rw [List.map_append, List.nodup_append]
    refine ⟨h.nodup_block, List.nodup_singleton _, ?_⟩
    rintro x hx y hy rfl
    obtain ⟨e, he, rfl⟩ := List.mem_map.mp hx
    exact Nat.lt_irrefl _ (List.mem_singleton.mp hy ▸ (h.fresh_block e he).2)
  case new_block =>
    intro x h1 h2
    rw [Func.size_blocks_appendAll, hsb] at h2
    rw [List.map_append, List.mem_append]
    rcases Nat.lt_succ_iff_lt_or_eq.mp h2 with h2 | rfl
    · exact .inl (h.new_block x h1 h2)
    · exact .inr (List.mem_singleton_self _)
  case values =>
    show c.values ++ _ = _
    rw [h.values, List.map_append]
  case value_keys =>
    rw [List.map_append, h.value_keys, List.flatMap_append, List.flatMap_singleton]
    congr 1
    exact List.map_fst_zip (by rw [List.length_range'])
  case fresh_inst =>
    intro e he
    rw [Func.size_insts_appendAll, hsi, hlen]
    rcases List.mem_append.mp he with he | he
    · have := h.fresh_inst e he
      exact ⟨this.1, Nat.lt_of_lt_of_le this.2 (Nat.le_add_right _ _)⟩
    · obtain ⟨j, -, e2, hj⟩ := snd_of_mem_zip_range' he
      rw [e2]
      exact ⟨Nat.le_trans h.size_insts (Nat.le_add_right _ _), Nat.add_lt_add_left hj _⟩
  case nodup_inst =>
    rw [List.map_append, List.nodup_append]
    have hsnd : (copyPairs f g b).map Prod.snd = List.range' g.insts.size (f.body b).length :=
      List.map_snd_zip (by rw [List.length_range'])
    refine ⟨h.nodup_inst, by rw [hsnd]; exact List.nodup_range', ?_⟩
    rintro x hx y hy rfl
    obtain ⟨e, he, rfl⟩ := List.mem_map.mp hx
    rw [hsnd, List.mem_range'_1] at hy
    exact absurd (h.fresh_inst e he).2 (Nat.not_lt.mpr hy.1)
  case copied =>
    intro e he
    rcases List.mem_append.mp he with he | he
    · rw [hinst e.2 (h.fresh_inst e he).2]
      exact h.copied e he
    · obtain ⟨j, e1, e2, hj⟩ := snd_of_mem_zip_range' he
      have hget : ((f.body b).map f.inst)[j]? = some (f.inst e.1) := by
        rw [List.getElem?_map, e1]
        rfl
      rw [e2, ← hsi, Func.inst_appendAll hget]
  case body =>
    intro e he
    rcases List.mem_append.mp he with he | he
    · have hlt := (h.fresh_block e he).2
      have hb : ((g.addBlock (some (copyName g b ".rem"))).2.appendAll g.blocks.size
          ((f.body b).map f.inst)).body e.2 = g.body e.2 := congrArg Block.insts (hold e.2 hlt)
      rw [hb]
      exact (h.body e he).imp fun i j hij => List.mem_append_left _ hij
    · cases List.mem_singleton.mp he
      rw [Func.body_appendAll hnew, if_pos rfl, hsi, hlen]
      have hempty : (g.addBlock (some (copyName g b ".rem"))).2.body g.blocks.size = [] := by
        unfold Func.body
        rw [Func.block_addBlock, if_pos rfl]
      rw [hempty, List.nil_append]
      exact forall₂_zip _ _ _ fun e he => List.mem_append_right _ he

/-- Copying blocks. -/
theorem CopyOf.foldl (h : CopyOf f done c g pairs) (hf : f.Laid) (bs : List BlockId)
    (hb : ∀ b ∈ bs, b < f.blocks.size) :
    ∃ pairs', CopyOf f (done ++ bs) (bs.foldl CountedLoop.copyBlock (c, g)).1
      (bs.foldl CountedLoop.copyBlock (c, g)).2 pairs' := by
  induction bs generalizing done c g pairs with
  | nil => exact ⟨pairs, by rwa [List.append_nil]⟩
  | cons b bs ih =>
    obtain ⟨pairs', h'⟩ := ih (h.copyBlock hf (hb b List.mem_cons_self))
      fun x hx => hb x (List.mem_cons_of_mem _ hx)
    rw [List.append_assoc] at h'
    exact ⟨pairs', h'⟩

/-! ## Names of copies -/

/-- The copy of an instruction, or the instruction if it has none. -/
def Copy.inst (c : Copy) (i : InstId) : InstId := (c.value (.inst i)).inst?.getD i

theorem lookup_instPair (pairs : List (InstId × InstId)) (i : InstId) :
    (pairs.map instPair).lookup (.inst i) = (pairs.lookup i).map .inst := by
  induction pairs with
  | nil => rfl
  | cons e pairs ih =>
    obtain ⟨a, b⟩ := e
    rw [List.map_cons]
    show ((Value.inst a, Value.inst b) :: _).lookup _ = _
    rw [List.lookup_cons, List.lookup_cons, ih]
    by_cases h : i = a
    · subst h
      simp
    · have h1 : (i == a) = false := beq_eq_false_iff_ne.mpr h
      have h2 : (Value.inst i == Value.inst a) = false :=
        beq_eq_false_iff_ne.mpr fun e => h (Value.inst.inj e)
      simp only [h1, h2]

theorem lookup_instPair_of_not_inst (pairs : List (InstId × InstId)) {v : Value}
    (h : v.inst? = none) : (pairs.map instPair).lookup v = none := by
  rw [List.lookup_eq_none_iff]
  intro e he
  obtain ⟨p, -, rfl⟩ := List.mem_map.mp he
  have hne : v ≠ (instPair p).1 := by
    rintro rfl
    cases h
  exact bne_iff_ne.mpr hne

theorem CopyOf.value_inst (h : CopyOf f done c g pairs) (i : InstId) :
    c.value (.inst i) = .inst ((pairs.lookup i).getD i) := by
  unfold Copy.value
  rw [h.values, lookup_instPair]
  cases pairs.lookup i <;> rfl

theorem CopyOf.inst_eq (h : CopyOf f done c g pairs) (i : InstId) :
    c.inst i = (pairs.lookup i).getD i := by
  unfold Copy.inst
  rw [h.value_inst]
  rfl

theorem CopyOf.value_eq (h : CopyOf f done c g pairs) (v : Value) :
    c.value v = v.rename c.inst := by
  cases v with
  | inst i => rw [h.value_inst, ← h.inst_eq]; rfl
  | const _ | param _ =>
    unfold Copy.value
    rw [h.values, lookup_instPair_of_not_inst _ rfl]
    rfl

/-- The instructions of the blocks that were copied have copies. -/
theorem CopyOf.inst_mem (h : CopyOf f done c g pairs) {b : BlockId} (hb : b ∈ done) {i : InstId}
    (hi : i ∈ f.body b) : (i, c.inst i) ∈ pairs := by
  have hmem : i ∈ pairs.map Prod.fst := by
    rw [h.value_keys]
    exact List.mem_flatMap.mpr ⟨b, hb, hi⟩
  cases hl : pairs.lookup i with
  | none =>
    obtain ⟨e, he, rfl⟩ := List.mem_map.mp hmem
    exact absurd (List.lookup_eq_none_iff.mp hl e he) (by simp)
  | some j =>
    rw [h.inst_eq, hl]
    obtain ⟨l, l', e, -⟩ := List.lookup_eq_some_iff.mp hl
    rw [e]
    exact List.mem_append_right _ List.mem_cons_self

/-- Other instructions have none. -/
theorem CopyOf.inst_of_not_mem (h : CopyOf f done c g pairs) {i : InstId}
    (hi : ∀ b ∈ done, i ∉ f.body b) : c.inst i = i := by
  have hl : pairs.lookup i = none := by
    rw [List.lookup_eq_none_iff]
    intro e he
    have hne : i ≠ e.1 := by
      rintro rfl
      have hmem : e.1 ∈ pairs.map Prod.fst := List.mem_map_of_mem he
      rw [h.value_keys] at hmem
      obtain ⟨b, hb, hib⟩ := List.mem_flatMap.mp hmem
      exact hi b hb hib
    exact bne_iff_ne.mpr hne
  rw [h.inst_eq, hl]
  rfl

theorem CopyOf.block_mem (h : CopyOf f done c g pairs) {b : BlockId} (hb : b ∈ done) :
    (b, c.block b) ∈ c.blocks := by
  rw [← h.keys] at hb
  unfold Copy.block
  cases hl : c.blocks.lookup b with
  | none =>
    obtain ⟨e, he, rfl⟩ := List.mem_map.mp hb
    exact absurd (List.lookup_eq_none_iff.mp hl e he) (by simp)
  | some b' =>
    obtain ⟨l, l', e, -⟩ := List.lookup_eq_some_iff.mp hl
    rw [e]
    exact List.mem_append_right _ List.mem_cons_self

theorem CopyOf.block_of_not_mem (h : CopyOf f done c g pairs) {b : BlockId} (hb : b ∉ done) :
    c.block b = b := by
  have hl : c.blocks.lookup b = none := by
    rw [List.lookup_eq_none_iff]
    intro e he
    have hne : b ≠ e.1 := by
      rintro rfl
      exact hb (by rw [← h.keys]; exact List.mem_map_of_mem he)
    exact bne_iff_ne.mpr hne
  unfold Copy.block
  rw [hl]
  rfl

/-- Different blocks have different names, the copies included. -/
theorem CopyOf.block_injective (h : CopyOf f done c g pairs) {a b : BlockId}
    (ha : a < f.blocks.size) (hb : b < f.blocks.size) (e : c.block a = c.block b) : a = b := by
  by_cases hda : a ∈ done
  · have ma := h.block_mem hda
    by_cases hdb : b ∈ done
    · have mb := h.block_mem hdb
      have := List.inj_on_of_nodup_map h.nodup_block ma mb e
      exact congrArg Prod.fst this
    · have := (h.fresh_block _ ma).1
      rw [e, h.block_of_not_mem hdb] at this
      exact absurd hb (Nat.not_lt.mpr this)
  · rw [h.block_of_not_mem hda] at e
    by_cases hdb : b ∈ done
    · have := (h.fresh_block _ (h.block_mem hdb)).1
      rw [← e] at this
      exact absurd ha (Nat.not_lt.mpr this)
    · rwa [h.block_of_not_mem hdb] at e

theorem CopyOf.inst_injective (h : CopyOf f done c g pairs) {i j : InstId}
    (hi : i < f.insts.size) (hj : j < f.insts.size) (e : c.inst i = c.inst j) : i = j := by
  have hcase : ∀ k, (k, c.inst k) ∈ pairs ∨ c.inst k = k := by
    intro k
    by_cases hk : ∃ b ∈ done, k ∈ f.body b
    · obtain ⟨b, hb, hk⟩ := hk
      exact .inl (h.inst_mem hb hk)
    · exact .inr (h.inst_of_not_mem fun b hb hkb => hk ⟨b, hb, hkb⟩)
  rcases hcase i with mi | ei <;> rcases hcase j with mj | ej
  · exact congrArg Prod.fst (List.inj_on_of_nodup_map h.nodup_inst mi mj e)
  · have := (h.fresh_inst _ mi).1
    rw [e, ej] at this
    exact absurd hj (Nat.not_lt.mpr this)
  · have := (h.fresh_inst _ mj).1
    rw [← e, ei] at this
    exact absurd hi (Nat.not_lt.mpr this)
  · rw [← ei, ← ej, e]

/-- The copy of a block lists the copies of its instructions. -/
theorem CopyOf.body_eq (h : CopyOf f done c g pairs) (hf : f.Laid) (hd : done.Nodup)
    {b : BlockId} (hb : b ∈ done) : g.body (c.block b) = (f.body b).map c.inst := by
  have hkeys : (pairs.map Prod.fst).Nodup := by
    rw [h.value_keys]
    refine List.nodup_flatMap.mpr ⟨fun b _ => hf.nodup b, hd.imp fun {a b} hab => ?_⟩
    intro i hi hj
    exact hab (hf.unique a b i hi hj)
  have hbody := h.body _ (h.block_mem hb)
  have hall : ∀ i ∈ f.body b, (i, c.inst i) ∈ pairs := fun i hi => h.inst_mem hb hi
  have h2 := (List.forall₂_and_left _ _).mpr ⟨hall, hbody⟩
  have h3 : List.Forall₂ (fun i j => c.inst i = j) (f.body b) (g.body (c.block b)) :=
    h2.imp fun i j hij => by
      have e : (i, c.inst i) = (i, j) := List.inj_on_of_nodup_map hkeys hij.1 hij.2 rfl
      exact congrArg Prod.snd e
  exact (List.forall₂_eq_eq_eq ▸ List.forall₂_map_left_iff.mpr h3 :
    (f.body b).map c.inst = g.body (c.block b)).symm

/-! ## Connecting copies -/

theorem CopyOf.substitution_eq (h : CopyOf f done c g pairs) :
    c.substitution = { value := (·.rename c.inst), block := c.block } := by
  unfold Copy.substitution
  rw [funext h.value_eq]

theorem CopyOf.idempotent (h : CopyOf f done c g pairs) (hf : f.Laid) (hd : ∀ b ∈ done, b < f.blocks.size) :
    c.substitution.Idempotent := by
  rw [h.substitution_eq]
  constructor
  · intro v
    cases v with
    | inst i =>
      show Value.inst (c.inst (c.inst i)) = .inst (c.inst i)
      by_cases hi : ∃ b ∈ done, i ∈ f.body b
      · obtain ⟨b, hb, hi⟩ := hi
        have hge := (h.fresh_inst _ (h.inst_mem hb hi)).1
        rw [h.inst_of_not_mem fun x _ hx => Nat.not_lt.mpr hge (hf.body_lt x _ hx)]
      · have e := h.inst_of_not_mem fun b hb hib => hi ⟨b, hb, hib⟩
        rw [e, e]
    | _ => rfl
  · intro b
    show c.block (c.block b) = c.block b
    by_cases hb : b ∈ done
    · have hge := (h.fresh_block _ (h.block_mem hb)).1
      rw [h.block_of_not_mem fun hx => Nat.not_lt.mpr hge (hd _ hx)]
    · rw [h.block_of_not_mem hb, h.block_of_not_mem hb]

theorem CopyOf.insts_eq (h : CopyOf f done c g pairs) : c.insts = pairs.map Prod.snd := by
  unfold Copy.insts
  rw [h.values, List.filterMap_map, ← List.filterMap_eq_map]
  rfl

/-- Terminators set one after the other, each from another block. -/
theorem term_foldl_setTerm (F : Terminator → Terminator) {bs : List (BlockId × BlockId)} {g : Func}
    (hlt : ∀ e ∈ bs, e.2 < g.blocks.size) (hn : (bs.map Prod.snd).Nodup)
    (hd : ∀ e ∈ bs, e.1 ∉ bs.map Prod.snd) :
    (∀ e ∈ bs, (bs.foldl (fun f e => f.setTerm e.2 (F (f.term e.1))) g).term e.2 =
      F (g.term e.1)) ∧
    ∀ x ∉ bs.map Prod.snd,
      (bs.foldl (fun f e => f.setTerm e.2 (F (f.term e.1))) g).term x = g.term x := by
  induction bs generalizing g with
  | nil => exact ⟨fun e he => absurd he List.not_mem_nil, fun _ _ => rfl⟩
  | cons e bs ih =>
    rw [List.map_cons, List.nodup_cons] at hn
    have hd' : ∀ x ∈ bs, x.1 ≠ e.2 ∧ x.1 ∉ bs.map Prod.snd := fun x hx =>
      not_or.mp (List.mem_cons.not.mp (hd x (List.mem_cons_of_mem _ hx)))
    have hlt' : ∀ x ∈ bs, x.2 < (g.setTerm e.2 (F (g.term e.1))).blocks.size := fun x hx => by
      rw [Func.size_blocks_setTerm]
      exact hlt x (List.mem_cons_of_mem _ hx)
    obtain ⟨h1, h2⟩ := ih hlt' hn.2 fun x hx => (hd' x hx).2
    rw [List.foldl_cons]
    constructor
    · intro x hx
      rcases List.mem_cons.mp hx with rfl | hx
      · rw [h2 _ hn.1, Func.term_setTerm, if_pos ⟨rfl, hlt _ List.mem_cons_self⟩]
      · rw [h1 x hx, Func.term_setTerm_of_ne _ _ (hd' x hx).1.symm]
    · intro x hx
      rw [List.map_cons, List.mem_cons, not_or] at hx
      rw [h2 x hx.2, Func.term_setTerm_of_ne _ _ (Ne.symm hx.1)]

/-- What connecting copies changes: the operands of the copies, and their terminators. -/
structure Connected (f g : Func) (done : List BlockId) (c : Copy)
    (pairs : List (InstId × InstId)) (g' : Func) : Prop where
  refits : g.Refits g'
  inst : ∀ e ∈ pairs, g'.inst e.2 = (g.inst e.2).map c.block (·.rename c.inst)
  inst_other : ∀ j, j ∉ pairs.map Prod.snd → g'.inst j = g.inst j
  term : ∀ b ∈ done, g'.term (c.block b) = (f.term b).map c.block (·.rename c.inst)
  term_other : ∀ x, x ∉ c.blocks.map Prod.snd → g'.term x = g.term x

theorem CopyOf.connect (h : CopyOf f done c g pairs) (hf : f.Laid) (hd : ∀ b ∈ done, b < f.blocks.size) :
    Connected f g done c pairs (c.connect g) := by
  have hs := h.idempotent hf hd
  have hfirst : ∀ e ∈ c.blocks, e.1 < f.blocks.size ∧ e.1 ∉ c.blocks.map Prod.snd := by
    intro e he
    have hlt := hd e.1 (by rw [← h.keys]; exact List.mem_map_of_mem he)
    refine ⟨hlt, fun hmem => ?_⟩
    obtain ⟨x, hx, e1⟩ := List.mem_map.mp hmem
    exact Nat.not_lt.mpr (h.fresh_block x hx).1 (e1 ▸ hlt)
  have e1 : c.insts.foldl (fun f i => f.substUser c.substitution (.inst i)) g =
      g.substUsers c.substitution (c.insts.map .inst) := by
    unfold Func.substUsers
    rw [List.foldl_map]
  have e2 : c.connect g = c.blocks.foldl (fun f e => f.setTerm e.2
      ((fun t => t.map c.block c.value) (f.term e.1)))
      (g.substUsers c.substitution (c.insts.map .inst)) := by
    rw [← e1]
    rfl
  have hr : g.Refits (g.substUsers c.substitution (c.insts.map .inst)) :=
    g.refits_substUsers hs _
  have hr' : (g.substUsers c.substitution (c.insts.map .inst)).Refits (c.connect g) := by
    rw [e2]
    exact Func.refits_foldl (fun f e => f.refits_setTerm _ _) _ _
  have hinst : ∀ j, (c.connect g).inst j =
      (g.substUsers c.substitution (c.insts.map .inst)).inst j := by
    intro j
    rw [e2]
    generalize g.substUsers c.substitution (c.insts.map .inst) = g1
    clear e2 hr hr' hfirst
    induction c.blocks generalizing g1 with
    | nil => rfl
    | cons e bs ih => rw [List.foldl_cons, ih, Func.inst_setTerm]
  have hmem : ∀ j, User.inst j ∈ c.insts.map User.inst ↔ j ∈ pairs.map Prod.snd := by
    intro j
    rw [h.insts_eq]
    exact List.mem_map_of_injective fun a b e => User.inst.inj e
  have hterm := term_foldl_setTerm (fun t => t.map c.block c.value)
    (g := g.substUsers c.substitution (c.insts.map .inst))
    (fun e he => by rw [hr.size_blocks]; exact (h.fresh_block e he).2) h.nodup_block
    fun e he => (hfirst e he).2
  have hother : ∀ x, (g.substUsers c.substitution (c.insts.map .inst)).term x = g.term x := by
    intro x
    rw [Func.term_substUsers g _ hs, if_neg]
    intro hx
    obtain ⟨i, -, e⟩ := List.mem_map.mp hx
    cases e
  rw [← e2] at hterm
  refine ⟨hr.trans hr', fun e he => ?_, fun j hj => ?_, fun b hb => ?_, fun x hx => ?_⟩
  · rw [hinst, Func.inst_substUsers g _ hs, if_pos ((hmem _).mpr (List.mem_map_of_mem he)),
      h.substitution_eq]
  · rw [hinst, Func.inst_substUsers g _ hs, if_neg fun e => hj ((hmem j).mp e)]
  · have hb' := h.block_mem hb
    have := hterm.1 _ hb'
    dsimp only at this
    rw [this, hother, funext h.value_eq]
    congr 1
    exact congrArg Block.term (h.block b (hd b hb))
  · rw [hterm.2 x hx, hother]

/-! ## Replacement outside -/

theorem CopyOf.eq_of_mem_blocks (h : CopyOf f done c g pairs) (hd : done.Nodup)
    {e : BlockId × BlockId} (he : e ∈ c.blocks) : e.1 ∈ done ∧ e.2 = c.block e.1 := by
  have hdone : e.1 ∈ done := by
    rw [← h.keys]
    exact List.mem_map_of_mem he
  have hn : (c.blocks.map Prod.fst).Nodup := by rwa [h.keys]
  have e' : e = (e.1, c.block e.1) := List.inj_on_of_nodup_map hn he (h.block_mem hdone) rfl
  exact ⟨hdone, congrArg Prod.snd e'⟩

/-- Copying keeps every instruction in one place. -/
theorem CopyOf.laid (h : CopyOf f done c g pairs) (hf : f.Laid) (hd : done.Nodup) : g.Laid := by
  have hbody : ∀ b < f.blocks.size, g.body b = f.body b :=
    fun b hb => congrArg Block.insts (h.block b hb)
  -- every block is an old one or a copy
  have hcase : ∀ b i, i ∈ g.body b → (b < f.blocks.size ∧ i ∈ f.body b) ∨
      ∃ a ∈ done, b = c.block a ∧ ∃ j ∈ f.body a, i = c.inst j := by
    intro b i hi
    by_cases hb : b < f.blocks.size
    · exact .inl ⟨hb, hbody b hb ▸ hi⟩
    · obtain ⟨e, he, rfl⟩ := List.mem_map.mp
        (h.new_block b (Nat.le_of_not_lt hb) (g.lt_of_mem_body hi))
      obtain ⟨hdone, hbk⟩ := h.eq_of_mem_blocks hd he
      rw [hbk, h.body_eq hf hd hdone] at hi
      obtain ⟨j, hj, rfl⟩ := List.mem_map.mp hi
      exact .inr ⟨e.1, hdone, hbk, j, hj, rfl⟩
  refine ⟨h.layout, fun b i hi => ?_, fun b b' i hb hb' => ?_, fun b => ?_⟩
  · rcases hcase b i hi with ⟨-, hi⟩ | ⟨a, ha, -, j, hj, rfl⟩
    · exact Nat.lt_of_lt_of_le (hf.body_lt b i hi) h.size_insts
    · exact (h.fresh_inst _ (h.inst_mem ha hj)).2
  · rcases hcase b i hb with ⟨-, h1⟩ | ⟨a, ha, rfl, j, hj, rfl⟩
    · rcases hcase b' i hb' with ⟨-, h2⟩ | ⟨a, ha, rfl, j, hj, rfl⟩
      · exact hf.unique b b' i h1 h2
      · exact absurd (hf.body_lt b _ h1) (Nat.not_lt.mpr (h.fresh_inst _ (h.inst_mem ha hj)).1)
    · rcases hcase b' _ hb' with ⟨-, h2⟩ | ⟨a', ha', rfl, j', hj', e⟩
      · exact absurd (hf.body_lt b' _ h2) (Nat.not_lt.mpr (h.fresh_inst _ (h.inst_mem ha hj)).1)
      · have := h.inst_injective (hf.body_lt a j hj) (hf.body_lt a' j' hj') e
        subst this
        rw [hf.unique a a' j hj hj']
  · by_cases hb : b < f.blocks.size
    · rw [hbody b hb]
      exact hf.nodup b
    · by_cases hbg : b < g.blocks.size
      · obtain ⟨e, he, rfl⟩ := List.mem_map.mp (h.new_block b (Nat.le_of_not_lt hb) hbg)
        obtain ⟨hdone, hbk⟩ := h.eq_of_mem_blocks hd he
        rw [hbk, h.body_eq hf hd hdone]
        refine (hf.nodup e.1).map_on fun i hi j hj e => ?_
        exact h.inst_injective (hf.body_lt _ i hi) (hf.body_lt _ j hj) e
      · rw [Func.body, g.block_of_size_le (Nat.le_of_not_lt hbg)]
        exact List.nodup_nil

/-- What replacing values outside changes: operands and terminators of the blocks that are
neither copied nor copies. -/
structure ReplacedOutside (c : Copy) (g g' : Func) : Prop where
  refits : g.Refits g'
  inst_inside : ∀ e ∈ c.blocks, ∀ b, b = e.1 ∨ b = e.2 → ∀ j ∈ g.body b, g'.inst j = g.inst j
  term_inside : ∀ e ∈ c.blocks, ∀ b, b = e.1 ∨ b = e.2 → g'.term b = g.term b
  inst_outside : ∀ b < g.blocks.size, (∀ e ∈ c.blocks, b ≠ e.1 ∧ b ≠ e.2) →
    ∀ j ∈ g.body b, g'.inst j = (g.inst j).map id (·.rename c.inst)
  term_outside : ∀ b < g.blocks.size, (∀ e ∈ c.blocks, b ≠ e.1 ∧ b ≠ e.2) →
    g'.term b = (g.term b).map id (·.rename c.inst)

/-- The blocks that are neither copied nor copies. -/
def Copy.outside (c : Copy) (g : Func) : List BlockId :=
  g.layout.filter fun b => !(c.blocks.any fun (old, new) => old == b || new == b)

theorem mem_outside (hg : g.Laid) {b : BlockId} :
    b ∈ c.outside g ↔ b < g.blocks.size ∧ ∀ e ∈ c.blocks, b ≠ e.1 ∧ b ≠ e.2 := by
  unfold Copy.outside
  rw [List.mem_filter, hg.layout, Bool.not_eq_true', ← Bool.not_eq_true, List.any_eq_true]
  refine and_congr_right fun _ => ?_
  constructor
  · intro h e he
    refine not_or.mp fun hb => h ⟨e, he, ?_⟩
    rcases hb with rfl | rfl <;> simp
  · rintro h ⟨e, he, hb⟩
    rcases Bool.or_eq_true_iff.mp hb with hb | hb
    · exact (h e he).1 (eq_of_beq hb).symm
    · exact (h e he).2 (eq_of_beq hb).symm

theorem CopyOf.replaceOutside (h : CopyOf f done c g pairs) (hf : f.Laid)
    (hd : ∀ b ∈ done, b < f.blocks.size) {g8 : Func} (h8 : g8.Laid) :
    ReplacedOutside c g8 (c.replaceOutside g8) := by
  have hs : Substitution.Idempotent { value := c.value } :=
    ⟨(h.idempotent hf hd).value, fun _ => rfl⟩
  have hval : c.value = (·.rename c.inst) := funext h.value_eq
  have e9 : c.replaceOutside g8 =
      g8.substUsers { value := c.value } ((c.outside g8).flatMap g8.blockUsers) := rfl
  have hinst : ∀ b j, j ∈ g8.body b → (User.inst j ∈ (c.outside g8).flatMap g8.blockUsers ↔
      b ∈ c.outside g8) := by
    intro b j hj
    rw [List.mem_flatMap]
    constructor
    · rintro ⟨x, hx, hjx⟩
      have hjx : j ∈ g8.body x := by simpa [Func.blockUsers] using hjx
      rwa [h8.unique b x j hj hjx]
    · intro hb
      exact ⟨b, hb, by simpa [Func.blockUsers] using hj⟩
  have hterm : ∀ b, User.terminator b ∈ (c.outside g8).flatMap g8.blockUsers ↔
      b ∈ c.outside g8 := by
    intro b
    rw [List.mem_flatMap]
    constructor
    · rintro ⟨x, hx, hbx⟩
      have hbx : b = x := by simpa [Func.blockUsers] using hbx
      rwa [hbx]
    · intro hb
      exact ⟨b, hb, by simp [Func.blockUsers]⟩
  have hnot : ∀ {b : BlockId} {e : BlockId × BlockId}, e ∈ c.blocks → b = e.1 ∨ b = e.2 →
      b ∉ c.outside g8 := by
    intro b e he hb hout
    have hb' := ((mem_outside h8).mp hout).2 e he
    exact hb.elim hb'.1 hb'.2
  rw [e9]
  refine ⟨g8.refits_substUsers hs _, fun e he b hb j hj => ?_, fun e he b hb => ?_,
    fun b hlt hb j hj => ?_, fun b hlt hb => ?_⟩
  · rw [Func.inst_substUsers g8 _ hs, if_neg fun hm => hnot he hb ((hinst b j hj).mp hm)]
  · rw [Func.term_substUsers g8 _ hs, if_neg fun hm => hnot he hb ((hterm b).mp hm)]
  · rw [Func.inst_substUsers g8 _ hs,
      if_pos ((hinst b j hj).mpr ((mem_outside h8).mpr ⟨hlt, hb⟩)), hval]
  · rw [Func.term_substUsers g8 _ hs,
      if_pos ((hterm b).mpr ((mem_outside h8).mpr ⟨hlt, hb⟩)), hval]

end CountedLoop

end Lockstep
