import Lockstep.Proofs.Func.Edit
import Mathlib.Data.List.Nodup

/-!
# Appending instructions

`Func.appendAll` appends instructions to a block, one after the other. The new instructions get the
numbers after those that there are.
-/

namespace Lockstep

namespace Func

/-- Appends instructions to a block. -/
def appendAll (f : Func) (b : BlockId) (ds : List Instr) : Func :=
  ds.foldl (fun f d => (f.append b d).2) f

variable {f : Func} {b c : BlockId} {ds : List Instr}

theorem appendAll_cons (f : Func) (b : BlockId) (d : Instr) (ds : List Instr) :
    f.appendAll b (d :: ds) = (f.append b d).2.appendAll b ds := rfl

@[simp] theorem size_insts_append (f : Func) (b : BlockId) (d : Instr) :
    (f.append b d).2.insts.size = f.insts.size + 1 := size_insts_insertAt f b _ d

@[simp] theorem size_blocks_append (f : Func) (b : BlockId) (d : Instr) :
    (f.append b d).2.blocks.size = f.blocks.size := size_blocks_insertAt f b _ d

theorem body_append (f : Func) (b c : BlockId) (d : Instr) (hb : b < f.blocks.size) :
    (f.append b d).2.body c = if b = c then f.body b ++ [f.insts.size] else f.body c := by
  rw [append, body_insertAt f b c _ d hb, List.insertIdx_length_self]

@[simp] theorem term_append (f : Func) (b : BlockId) (d : Instr) (c : BlockId) :
    (f.append b d).2.term c = f.term c := term_insertAt f b _ d c

theorem block_append_of_ne (f : Func) {b c : BlockId} (d : Instr) (h : b ≠ c) :
    (f.append b d).2.block c = f.block c := by
  show ((f.insertAt b _ d).2).block c = _
  unfold insertAt setBody
  dsimp only
  rw [block_modifyBlock, if_neg fun e => h e.1]
  rfl

theorem inst_append (f : Func) (b : BlockId) (d : Instr) (i : InstId) :
    (f.append b d).2.inst i = if i = f.insts.size then { d with block := b } else f.inst i :=
  inst_insertAt f b _ d i

@[simp] theorem size_insts_appendAll (f : Func) (b : BlockId) (ds : List Instr) :
    (f.appendAll b ds).insts.size = f.insts.size + ds.length := by
  induction ds generalizing f with
  | nil => rfl
  | cons d ds ih =>
    rw [appendAll_cons, ih, size_insts_append, List.length_cons]
    omega

@[simp] theorem size_blocks_appendAll (f : Func) (b : BlockId) (ds : List Instr) :
    (f.appendAll b ds).blocks.size = f.blocks.size := by
  induction ds generalizing f with
  | nil => rfl
  | cons d ds ih => rw [appendAll_cons, ih, size_blocks_append]

@[simp] theorem layout_appendAll (f : Func) (b : BlockId) (ds : List Instr) :
    (f.appendAll b ds).layout = f.layout := by
  induction ds generalizing f with
  | nil => rfl
  | cons d ds ih =>
    rw [appendAll_cons, ih]
    rfl

@[simp] theorem params_appendAll (f : Func) (b : BlockId) (ds : List Instr) :
    (f.appendAll b ds).params = f.params := by
  induction ds generalizing f with
  | nil => rfl
  | cons d ds ih =>
    rw [appendAll_cons, ih]
    rfl

@[simp] theorem term_appendAll (f : Func) (b : BlockId) (ds : List Instr) (c : BlockId) :
    (f.appendAll b ds).term c = f.term c := by
  induction ds generalizing f with
  | nil => rfl
  | cons d ds ih => rw [appendAll_cons, ih, term_append]

theorem block_appendAll_of_ne (ds : List Instr) (h : b ≠ c) :
    (f.appendAll b ds).block c = f.block c := by
  induction ds generalizing f with
  | nil => rfl
  | cons d ds ih => rw [appendAll_cons, ih, block_append_of_ne f d h]

theorem inst_appendAll_of_lt {i : InstId} (hi : i < f.insts.size) :
    (f.appendAll b ds).inst i = f.inst i := by
  induction ds generalizing f with
  | nil => rfl
  | cons d ds ih =>
    rw [appendAll_cons, ih (by rw [size_insts_append]; exact Nat.lt_succ_of_lt hi), inst_append,
      if_neg (Nat.ne_of_lt hi)]

theorem inst_appendAll {j : Nat} {d : Instr} (hj : ds[j]? = some d) :
    (f.appendAll b ds).inst (f.insts.size + j) = { d with block := b } := by
  induction ds generalizing f j with
  | nil => cases hj
  | cons d' ds ih =>
    rw [appendAll_cons]
    cases j with
    | zero =>
      cases hj
      rw [inst_appendAll_of_lt (by rw [size_insts_append]; exact Nat.lt_succ_self _), inst_append,
        if_pos (Nat.add_zero _)]
    | succ j =>
      have h := ih (f := (f.append b d').2) (j := j) hj
      rw [size_insts_append] at h
      rw [← h]
      congr 1
      show f.insts.size + (j + 1) = f.insts.size + 1 + j
      omega

theorem body_appendAll (hb : b < f.blocks.size) (ds : List Instr) (c : BlockId) :
    (f.appendAll b ds).body c =
      if b = c then f.body b ++ List.range' f.insts.size ds.length else f.body c := by
  induction ds generalizing f with
  | nil =>
    split
    · rename_i h
      rw [← h]
      exact (List.append_nil _).symm
    · rfl
  | cons d ds ih =>
    rw [appendAll_cons, ih (by rw [size_blocks_append]; exact hb), body_append _ _ _ _ hb,
      if_pos rfl, size_insts_append]
    split
    · rw [List.length_cons, List.range'_succ, List.append_assoc]
      rfl
    · rename_i h
      rw [body_append _ _ _ _ hb, if_neg h]

/-! ## Where instructions stand -/

/-- Every instruction stands in at most one place, and the layout lists the blocks. -/
structure Laid (f : Func) : Prop where
  layout : ∀ b, b ∈ f.layout ↔ b < f.blocks.size
  body_lt : ∀ b, ∀ i ∈ f.body b, i < f.insts.size
  unique : ∀ b c i, i ∈ f.body b → i ∈ f.body c → b = c
  nodup : ∀ b, (f.body b).Nodup

theorem Laid.appendAll (h : f.Laid) (hb : b < f.blocks.size) (ds : List Instr) :
    (f.appendAll b ds).Laid where
  layout c := by rw [layout_appendAll, size_blocks_appendAll]; exact h.layout c
  body_lt c i hi := by
    rw [size_insts_appendAll]
    rw [body_appendAll hb] at hi
    split at hi
    · rcases List.mem_append.mp hi with hi | hi
      · exact Nat.lt_of_lt_of_le (h.body_lt b i hi) (Nat.le_add_right _ _)
      · exact (List.mem_range'_1.mp hi).2
    · exact Nat.lt_of_lt_of_le (h.body_lt c i hi) (Nat.le_add_right _ _)
  unique := by
    have hcase : ∀ c i, i ∈ (f.appendAll b ds).body c →
        i ∈ f.body c ∨ (b = c ∧ f.insts.size ≤ i) := by
      intro c i hi
      rw [body_appendAll hb] at hi
      split at hi
      · rename_i e
        rcases List.mem_append.mp hi with hi | hi
        · exact .inl (e ▸ hi)
        · exact .inr ⟨e, (List.mem_range'_1.mp hi).1⟩
      · exact .inl hi
    intro c d i hc hd
    rcases hcase c i hc with h1 | ⟨rfl, h1⟩ <;> rcases hcase d i hd with h2 | ⟨e2, h2⟩
    · exact h.unique c d i h1 h2
    · exact absurd (h.body_lt c i h1) (Nat.not_lt.mpr h2)
    · exact absurd (h.body_lt d i h2) (Nat.not_lt.mpr h1)
    · exact e2
  nodup c := by
    rw [body_appendAll hb]
    split
    · refine List.nodup_append.mpr ⟨h.nodup b, List.nodup_range', ?_⟩
      rintro i hi j hj rfl
      exact Nat.not_lt.mpr (List.mem_range'_1.mp hj).1 (h.body_lt b i hi)
    · exact h.nodup c

theorem Laid.addBlock (h : f.Laid) (name : Option String) : (f.addBlock name).2.Laid where
  layout c := by
    show c ∈ f.layout ++ [f.blocks.size] ↔ c < (f.blocks.push _).size
    rw [Array.size_push, List.mem_append, List.mem_singleton, h.layout]
    exact Nat.lt_succ_iff_lt_or_eq.symm
  body_lt c i hi := by
    rw [body_addBlock] at hi
    exact h.body_lt c i hi
  unique c d i hc hd := by
    rw [body_addBlock] at hc hd
    exact h.unique c d i hc hd
  nodup c := by
    rw [body_addBlock]
    exact h.nodup c

/-! ## Growing in some blocks -/

/-- `g'` is `g` with more instructions, in blocks in `B`. -/
structure GrownIn (B : BlockId → Prop) (g g' : Func) : Prop where
  params : g'.params = g.params
  blocks : g'.blocks.size = g.blocks.size
  insts : g.insts.size ≤ g'.insts.size
  inst : ∀ i < g.insts.size, g'.inst i = g.inst i
  block : ∀ x, ¬ B x → g'.block x = g.block x

variable {B B' : BlockId → Prop} {g g' g'' : Func}

theorem GrownIn.refl (g : Func) : g.GrownIn B g :=
  ⟨rfl, rfl, Nat.le_refl _, fun _ _ => rfl, fun _ _ => rfl⟩

theorem GrownIn.trans (h : g.GrownIn B g') (k : g'.GrownIn B g'') : g.GrownIn B g'' where
  params := k.params.trans h.params
  blocks := k.blocks.trans h.blocks
  insts := Nat.le_trans h.insts k.insts
  inst i hi := (k.inst i (Nat.lt_of_lt_of_le hi h.insts)).trans (h.inst i hi)
  block x hx := (k.block x hx).trans (h.block x hx)

theorem GrownIn.mono (h : g.GrownIn B g') (hB : ∀ x, B x → B' x) : g.GrownIn B' g' :=
  { h with block := fun x hx => h.block x fun hb => hx (hB x hb) }

theorem GrownIn.body (h : g.GrownIn B g') {x : BlockId} (hx : ¬ B x) : g'.body x = g.body x :=
  congrArg Block.insts (h.block x hx)

theorem GrownIn.term (h : g.GrownIn B g') {x : BlockId} (hx : ¬ B x) : g'.term x = g.term x :=
  congrArg Block.term (h.block x hx)

theorem grownIn_appendAll (g : Func) {b : BlockId} (hb : B b) (ds : List Instr) :
    g.GrownIn B (g.appendAll b ds) where
  params := params_appendAll g b ds
  blocks := size_blocks_appendAll g b ds
  insts := by rw [size_insts_appendAll]; exact Nat.le_add_right _ _
  inst _ hi := inst_appendAll_of_lt hi
  block x hx := block_appendAll_of_ne ds fun e => hx (e ▸ hb)

theorem grownIn_setTerm (g : Func) {b : BlockId} (hb : B b) (t : Terminator) :
    g.GrownIn B (g.setTerm b t) where
  params := rfl
  blocks := size_blocks_setTerm g b t
  insts := Nat.le_refl _
  inst _ _ := rfl
  block x hx := by
    rw [setTerm, block_modifyBlock, if_neg]
    rintro ⟨rfl, -⟩
    exact hx hb

end Func

end Lockstep
