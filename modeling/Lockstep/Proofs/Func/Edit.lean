import Lockstep.Func.Builder
import Lockstep.Func.Uses
import Mathlib.Data.List.Basic

/-!
# What an edit changes

For every edit of a function the views that it changes, and those that it leaves alone:

1. single entries, insertion and detachment;
2. the bookkeeping of phis;
3. substitution in a list of users, which for an idempotent substitution happens once.
-/

namespace Lockstep

theorem insertIdx_length_append {α : Type} (l l' : List α) (x : α) :
    (l ++ l').insertIdx l.length x = l ++ x :: l' := by
  induction l with
  | nil => rfl
  | cons a l ih => rw [List.cons_append, List.length_cons, List.insertIdx_succ_cons, ih]; rfl

namespace Func

variable (f : Func)

/-! ## Entries -/

theorem block_of_size_le {b : BlockId} (h : f.blocks.size ≤ b) : f.block b = default := by
  show (f.blocks[b]?).getD default = default
  rw [Array.getElem?_eq_none h]
  rfl

theorem inst_of_size_le {i : InstId} (h : f.insts.size ≤ i) : f.inst i = default := by
  show (f.insts[i]?).getD default = default
  rw [Array.getElem?_eq_none h]
  rfl

/-- A block with instructions is a block of the function. -/
theorem lt_of_mem_body {b : BlockId} {i : InstId} (h : i ∈ f.body b) : b < f.blocks.size := by
  by_contra hb
  rw [body, f.block_of_size_le (Nat.le_of_not_lt hb)] at h
  cases h

/-- A block with a target is a block of the function. -/
theorem lt_of_mem_targets {b c : BlockId} (h : c ∈ (f.term b).targets) : b < f.blocks.size := by
  by_contra hb
  rw [term, f.block_of_size_le (Nat.le_of_not_lt hb)] at h
  cases h

/-- An operation is no phi. -/
theorem isPhi_of_op {i : InstId} {code : Opcode} {args : List Value}
    (h : (f.inst i).op = .apply code args) : f.isPhi i = false := by
  unfold isPhi Instr.isPhi
  rw [h]
  rfl

theorem lt_of_isPhi {i : InstId} (h : f.isPhi i = true) : i < f.insts.size := by
  by_contra hi
  rw [isPhi, f.inst_of_size_le (Nat.le_of_not_lt hi)] at h
  cases h

@[simp] theorem size_blocks_modifyInst (i : InstId) (g : Instr → Instr) :
    (f.modifyInst i g).blocks.size = f.blocks.size := rfl

@[simp] theorem size_insts_modifyBlock (b : BlockId) (g : Block → Block) :
    (f.modifyBlock b g).insts.size = f.insts.size := rfl

@[simp] theorem body_modifyInst (i : InstId) (g : Instr → Instr) (b : BlockId) :
    (f.modifyInst i g).body b = f.body b := rfl

@[simp] theorem term_modifyInst (i : InstId) (g : Instr → Instr) (b : BlockId) :
    (f.modifyInst i g).term b = f.term b := rfl

/-- Changes of an instruction that keep the default change it wherever it is. -/
theorem inst_modifyInst' {i j : InstId} {g : Instr → Instr} (hg : g default = default) :
    (f.modifyInst i g).inst j = if i = j then g (f.inst j) else f.inst j := by
  rw [inst_modifyInst]
  by_cases h : i = j
  · subst h
    by_cases hi : i < f.insts.size
    · rw [if_pos ⟨rfl, hi⟩, if_pos rfl]
    · rw [if_neg fun e => hi e.2, if_pos rfl, f.inst_of_size_le (Nat.le_of_not_lt hi), hg]
  · rw [if_neg fun e => h e.1, if_neg h]

/-- Changes of a block that keep the default change it wherever it is. -/
theorem block_modifyBlock' {b c : BlockId} {g : Block → Block} (hg : g default = default) :
    (f.modifyBlock b g).block c = if b = c then g (f.block c) else f.block c := by
  rw [block_modifyBlock]
  by_cases h : b = c
  · subst h
    by_cases hb : b < f.blocks.size
    · rw [if_pos ⟨rfl, hb⟩, if_pos rfl]
    · rw [if_neg fun e => hb e.2, if_pos rfl, f.block_of_size_le (Nat.le_of_not_lt hb), hg]
  · rw [if_neg fun e => h e.1, if_neg h]

/-! ## Terminators and bodies -/

@[simp] theorem layout_setTerm (b : BlockId) (t : Terminator) :
    (f.setTerm b t).layout = f.layout := rfl

@[simp] theorem inst_setTerm (b : BlockId) (t : Terminator) (i : InstId) :
    (f.setTerm b t).inst i = f.inst i := rfl

@[simp] theorem size_blocks_setTerm (b : BlockId) (t : Terminator) :
    (f.setTerm b t).blocks.size = f.blocks.size := size_blocks_modifyBlock _ _ _

@[simp] theorem size_insts_setTerm (b : BlockId) (t : Terminator) :
    (f.setTerm b t).insts.size = f.insts.size := rfl

theorem term_setTerm (b c : BlockId) (t : Terminator) :
    (f.setTerm b t).term c = if b = c ∧ b < f.blocks.size then t else f.term c := by
  rw [term, setTerm, block_modifyBlock]
  split <;> rfl

theorem term_setTerm_of_ne {b c : BlockId} (t : Terminator) (h : b ≠ c) :
    (f.setTerm b t).term c = f.term c := by
  rw [term_setTerm, if_neg fun e => h e.1]

@[simp] theorem layout_setBody (b : BlockId) (is : List InstId) :
    (f.setBody b is).layout = f.layout := rfl

@[simp] theorem inst_setBody (b : BlockId) (is : List InstId) (i : InstId) :
    (f.setBody b is).inst i = f.inst i := rfl

@[simp] theorem size_blocks_setBody (b : BlockId) (is : List InstId) :
    (f.setBody b is).blocks.size = f.blocks.size := size_blocks_modifyBlock _ _ _

@[simp] theorem size_insts_setBody (b : BlockId) (is : List InstId) :
    (f.setBody b is).insts.size = f.insts.size := rfl

theorem body_setBody_eq (b c : BlockId) (is : List InstId) :
    (f.setBody b is).body c = if b = c ∧ b < f.blocks.size then is else f.body c := by
  rw [body, setBody, block_modifyBlock]
  split <;> rfl

/-! ## Insertion -/

/-- A new block is empty. -/
theorem body_addBlock (name : Option String) (b : BlockId) :
    (f.addBlock name).2.body b = f.body b := by
  rw [body, block_addBlock]
  split
  · rename_i e
    rw [body, e, f.block_of_size_le (Nat.le_refl _)]
    rfl
  · rfl

@[simp] theorem size_insts_insertAt (b : BlockId) (pos : Nat) (d : Instr) :
    (f.insertAt b pos d).2.insts.size = f.insts.size + 1 := by
  show (f.insts.push _).size = _
  rw [Array.size_push]

@[simp] theorem size_blocks_insertAt (b : BlockId) (pos : Nat) (d : Instr) :
    (f.insertAt b pos d).2.blocks.size = f.blocks.size := size_blocks_modifyBlock _ _ _

@[simp] theorem fst_insertAt (b : BlockId) (pos : Nat) (d : Instr) :
    (f.insertAt b pos d).1 = f.insts.size := rfl

@[simp] theorem term_insertAt (b : BlockId) (pos : Nat) (d : Instr) (c : BlockId) :
    (f.insertAt b pos d).2.term c = f.term c :=
  term_setBody { f with insts := f.insts.push { d with block := b } } b c _

theorem body_insertAt_eq (b c : BlockId) (pos : Nat) (d : Instr) :
    (f.insertAt b pos d).2.body c =
      if b = c ∧ b < f.blocks.size then (f.body b).insertIdx pos f.insts.size else f.body c :=
  body_setBody_eq { f with insts := f.insts.push { d with block := b } } b c _

/-- An insertion attaches the new instruction in its block, and nothing else. -/
theorem mem_body_insertAt {b c : BlockId} {pos : Nat} {d : Instr} {j : InstId}
    (h : j ∈ (f.insertAt b pos d).2.body c) : j ∈ f.body c ∨ j = f.insts.size ∧ c = b := by
  rw [body_insertAt_eq] at h
  split at h
  · rename_i hb
    obtain ⟨rfl, -⟩ := hb
    by_cases hp : pos ≤ (f.body b).length
    · rcases (List.mem_insertIdx hp).mp h with e | h
      · exact .inr ⟨e, rfl⟩
      · exact .inl h
    · rw [List.insertIdx_of_length_lt (Nat.lt_of_not_le hp)] at h
      exact .inl h
  · exact .inl h

/-- An insertion keeps what is attached where it is. -/
theorem mem_body_insertAt_of_mem {b c : BlockId} {pos : Nat} {d : Instr} {j : InstId}
    (h : j ∈ f.body c) : j ∈ (f.insertAt b pos d).2.body c := by
  rw [body_insertAt_eq]
  split
  · rename_i hb
    obtain ⟨rfl, -⟩ := hb
    by_cases hp : pos ≤ (f.body b).length
    · exact (List.mem_insertIdx hp).mpr (.inr h)
    · rw [List.insertIdx_of_length_lt (Nat.lt_of_not_le hp)]
      exact h
  · exact h

/-! ## Detachment -/

@[simp] theorem layout_detach (i : InstId) : (f.detach i).layout = f.layout := rfl

@[simp] theorem inst_detach (i j : InstId) : (f.detach i).inst j = f.inst j := rfl

@[simp] theorem size_insts_detach (i : InstId) : (f.detach i).insts.size = f.insts.size := rfl

@[simp] theorem size_blocks_detach (i : InstId) : (f.detach i).blocks.size = f.blocks.size :=
  size_blocks_setBody _ _ _

@[simp] theorem term_detach (i : InstId) (c : BlockId) : (f.detach i).term c = f.term c :=
  term_setBody _ _ _ _

theorem body_detach (i : InstId) (c : BlockId) :
    (f.detach i).body c =
      if (f.inst i).block = c then (f.body c).filter (· != i) else f.body c := by
  rw [detach, body_setBody_eq]
  by_cases h : (f.inst i).block = c
  · subst h
    by_cases hb : (f.inst i).block < f.blocks.size
    · rw [if_pos ⟨rfl, hb⟩, if_pos rfl]
    · rw [if_neg fun e => hb e.2, if_pos rfl, body, f.block_of_size_le (Nat.le_of_not_lt hb)]
      rfl
  · rw [if_neg fun e => h e.1, if_neg h]

theorem mem_body_of_detach {i j : InstId} {c : BlockId} (h : j ∈ (f.detach i).body c) :
    j ∈ f.body c := by
  rw [body_detach] at h
  split at h
  · exact (List.mem_filter.mp h).1
  · exact h

/-! ## Phis -/

@[simp] theorem layout_modifyIncoming (i : InstId) (g) :
    (f.modifyIncoming i g).layout = f.layout := rfl

@[simp] theorem size_blocks_modifyIncoming (i : InstId) (g) :
    (f.modifyIncoming i g).blocks.size = f.blocks.size := rfl

@[simp] theorem size_insts_modifyIncoming (i : InstId) (g) :
    (f.modifyIncoming i g).insts.size = f.insts.size := size_insts_modifyInst _ _ _

@[simp] theorem body_modifyIncoming (i : InstId) (g) (b : BlockId) :
    (f.modifyIncoming i g).body b = f.body b := rfl

@[simp] theorem term_modifyIncoming (i : InstId) (g) (b : BlockId) :
    (f.modifyIncoming i g).term b = f.term b := rfl

/-- An instruction with its entries changed, if it is a phi. -/
def mapIncoming (g : List (BlockId × Value) → List (BlockId × Value)) (d : Instr) : Instr :=
  match d.op with
  | .phi incoming => { d with op := .phi (g incoming) }
  | .apply _ _ => d

theorem inst_modifyIncoming (i j : InstId) (g) :
    (f.modifyIncoming i g).inst j = if i = j then mapIncoming g (f.inst j) else f.inst j :=
  f.inst_modifyInst' (g := mapIncoming g) rfl

@[simp] theorem isPhi_mapIncoming (g) (d : Instr) : (mapIncoming g d).isPhi = d.isPhi := by
  unfold mapIncoming Instr.isPhi
  split
  · rename_i h
    rw [h]
    rfl
  · rfl

@[simp] theorem block_mapIncoming (g) (d : Instr) : (mapIncoming g d).block = d.block := by
  unfold mapIncoming
  split <;> rfl

@[simp] theorem ty_mapIncoming (g) (d : Instr) : (mapIncoming g d).ty = d.ty := by
  unfold mapIncoming
  split <;> rfl

@[simp] theorem mask_mapIncoming (g) (d : Instr) : (mapIncoming g d).mask = d.mask := by
  unfold mapIncoming
  split <;> rfl

@[simp] theorem callee?_mapIncoming (g) (d : Instr) : (mapIncoming g d).callee? = d.callee? := by
  obtain ⟨op, ty, mask, block⟩ := d
  cases op <;> rfl

theorem incoming_mapIncoming {g} {d : Instr} (h : d.isPhi = true) :
    (mapIncoming g d).incoming = g d.incoming := by
  obtain ⟨op, ty, mask, block⟩ := d
  cases op with
  | phi incoming => rfl
  | apply code args => cases h

theorem mem_setEntry {incoming : List (BlockId × Value)} {pred : BlockId} {v : Value}
    {e : BlockId × Value} (h : e ∈ setEntry incoming pred v) : e ∈ incoming ∨ e = (pred, v) := by
  induction incoming with
  | nil => exact .inr (List.mem_singleton.mp h)
  | cons c rest ih =>
    unfold setEntry at h
    split at h
    · rename_i hc
      rcases List.mem_cons.mp h with rfl | h
      · exact .inr (by rw [hc])
      · exact .inl (List.mem_cons_of_mem _ h)
    · rcases List.mem_cons.mp h with rfl | h
      · exact .inl List.mem_cons_self
      · exact (ih h).imp_left (List.mem_cons_of_mem _)

theorem mem_inputs_setEntry {d : Instr} {pred : BlockId} {v w : Value}
    (h : v ∈ (mapIncoming (setEntry · pred w) d).inputs) : v ∈ d.inputs ∨ v = w := by
  obtain ⟨op, ty, mask, b⟩ := d
  cases op with
  | apply code args => exact .inl h
  | phi incoming =>
    obtain ⟨e, he, rfl⟩ := List.mem_map.mp h
    rcases mem_setEntry he with he | rfl
    · exact .inl (List.mem_map_of_mem he)
    · exact .inr rfl

end Func

/-! ## Substitution -/

namespace Substitution

/-- Applied twice, a substitution does what it does once. -/
structure Idempotent (s : Substitution) : Prop where
  value : ∀ v, s.value (s.value v) = s.value v
  block : ∀ b, s.block (s.block b) = s.block b

theorem single_idempotent (old new : Value) : (single old new).Idempotent where
  value v := by
    show (if (if v = old then new else v) = old then new else _) = _
    by_cases h : v = old
    · subst h
      by_cases hn : new = v
      · subst hn; simp [single]
      · simp [single]
    · simp [single, h]
  block _ := rfl

theorem value_single (old new v : Value) :
    (single old new).value v = if v = old then new else v := rfl

end Substitution

section Maps

variable (β β' : BlockId → BlockId) (σ σ' : Value → Value)

theorem Op.map_comp (o : Op) : (o.map β σ).map β' σ' = o.map (β' ∘ β) (σ' ∘ σ) := by
  cases o <;> simp [Op.map]

theorem Instr.map_comp (d : Instr) : (d.map β σ).map β' σ' = d.map (β' ∘ β) (σ' ∘ σ) := by
  obtain ⟨op, ty, mask, block⟩ := d
  simp [Instr.map, Op.map_comp]

theorem Terminator.map_comp (t : Terminator) :
    (t.map β σ).map β' σ' = t.map (β' ∘ β) (σ' ∘ σ) := by
  cases t <;> simp [Terminator.map]

theorem Instr.map_id (d : Instr) : d.map id id = d := by
  obtain ⟨op, ty, mask, block⟩ := d
  cases op <;> simp [Instr.map, Op.map]

theorem Terminator.map_id (t : Terminator) : t.map id id = t := by
  cases t <;> simp [Terminator.map]

end Maps

theorem Instr.map_map {s : Substitution} (hs : s.Idempotent) (d : Instr) :
    (d.map s.block s.value).map s.block s.value = d.map s.block s.value := by
  rw [Instr.map_comp]
  exact congrArg₂ (fun β σ => d.map β σ) (funext hs.block) (funext hs.value)

theorem Terminator.map_map {s : Substitution} (hs : s.Idempotent) (t : Terminator) :
    (t.map s.block s.value).map s.block s.value = t.map s.block s.value := by
  rw [Terminator.map_comp]
  exact congrArg₂ (fun β σ => t.map β σ) (funext hs.block) (funext hs.value)

@[simp] theorem Instr.isPhi_map (block : BlockId → BlockId) (value : Value → Value) (d : Instr) :
    (d.map block value).isPhi = d.isPhi := by
  obtain ⟨op, ty, mask, b⟩ := d
  cases op <;> rfl

@[simp] theorem Instr.callee?_map (block : BlockId → BlockId) (value : Value → Value) (d : Instr) :
    (d.map block value).callee? = d.callee? := by
  obtain ⟨op, ty, mask, b⟩ := d
  cases op with
  | phi _ => rfl
  | apply code args => cases code <;> rfl

/-- A call is a call of its inputs. -/
theorem Instr.op_of_callee? {d : Instr} {callee : FuncId} (h : d.callee? = some callee) :
    d.op = .apply (.call callee) d.inputs := by
  unfold callee? at h
  split at h
  · rename_i f args hop
    cases h
    rw [inputs, hop]
    rfl
  · cases h

/-! ## Masks -/

/-- An instruction has a mask afterwards if it had one, and the same one unless that was computed by
an instruction, which may have been replaced. -/
structure Instr.KeepsMask (d d' : Instr) : Prop where
  isSome : d'.mask.isSome = d.mask.isSome
  fixed : ∀ v, d.mask = some v → v.inst? = none → d'.mask = some v

theorem Instr.KeepsMask.of_eq {d d' : Instr} (h : d'.mask = d.mask) : d.KeepsMask d' :=
  ⟨by rw [h], fun _ hv _ => h.trans hv⟩

theorem Instr.KeepsMask.trans {d d' d'' : Instr} (h : d.KeepsMask d') (k : d'.KeepsMask d'') :
    d.KeepsMask d'' :=
  ⟨k.isSome.trans h.isSome, fun v hv hi => k.fixed v (h.fixed v hv hi) hi⟩

/-- Replacing what an instruction computes. -/
theorem Instr.keepsMask_map_single (d : Instr) (i : InstId) (new : Value) :
    d.KeepsMask (d.map id (Substitution.single (.inst i) new).value) where
  isSome := Option.isSome_map
  fixed v hv hi := by
    show d.mask.map _ = some v
    have hne : v ≠ .inst i := by
      rintro rfl
      cases hi
    rw [hv, Option.map_some, Substitution.value_single, if_neg hne]

theorem Op.inputs_map (block : BlockId → BlockId) (value : Value → Value) (o : Op) :
    (o.map block value).inputs = o.inputs.map value := by
  cases o with
  | phi incoming => simp [Op.map, Op.inputs, Function.comp_def]
  | apply code args => rfl

theorem Instr.inputs_map (block : BlockId → BlockId) (value : Value → Value) (d : Instr) :
    (d.map block value).inputs = d.inputs.map value :=
  Op.inputs_map block value d.op

theorem Instr.uses_map (block : BlockId → BlockId) (value : Value → Value) (d : Instr) :
    (d.map block value).uses = d.uses.map value := by
  unfold Instr.uses
  rw [Instr.inputs_map, List.map_append]
  cases d with
  | mk op ty mask block => cases mask <;> rfl

theorem Terminator.targets_map (block : BlockId → BlockId) (value : Value → Value)
    (t : Terminator) : (t.map block value).targets = t.targets.map block := by
  cases t <;> rfl

theorem Terminator.uses_map (block : BlockId → BlockId) (value : Value → Value)
    (t : Terminator) : (t.map block value).uses = t.uses.map value := by
  cases t with
  | ret v => cases v <;> rfl
  | _ => rfl

namespace Func

variable (f : Func) (s : Substitution)

@[simp] theorem layout_substUser (u : User) : (f.substUser s u).layout = f.layout := by
  cases u <;> rfl

@[simp] theorem size_insts_substUser (u : User) :
    (f.substUser s u).insts.size = f.insts.size := by
  cases u with
  | inst i => exact size_insts_modifyInst _ _ _
  | terminator b => rfl

@[simp] theorem size_blocks_substUser (u : User) :
    (f.substUser s u).blocks.size = f.blocks.size := by
  cases u with
  | inst i => rfl
  | terminator b => exact size_blocks_modifyBlock _ _ _

@[simp] theorem body_substUser (u : User) (c : BlockId) :
    (f.substUser s u).body c = f.body c := by
  cases u with
  | inst i => rfl
  | terminator b =>
    rw [body, substUser, block_modifyBlock]
    split <;> rfl

theorem inst_substUser (u : User) (j : InstId) :
    (f.substUser s u).inst j =
      if u = .inst j then (f.inst j).map s.block s.value else f.inst j := by
  cases u with
  | inst i =>
    rw [substUser, inst_modifyInst' f (g := fun d => d.map s.block s.value) rfl]
    simp only [User.inst.injEq]
  | terminator b => rw [if_neg (by intro e; cases e)]; rfl

theorem term_substUser (u : User) (c : BlockId) :
    (f.substUser s u).term c =
      if u = .terminator c then (f.term c).map s.block s.value else f.term c := by
  cases u with
  | inst i => rw [if_neg (by intro e; cases e)]; rfl
  | terminator b =>
    rw [term, substUser, block_modifyBlock' f
      (g := fun d => { d with term := d.term.map s.block s.value }) rfl]
    simp only [User.terminator.injEq]
    split <;> rfl

section Users

variable (us : List User)

/-- Applies a substitution to some users, one after the other. -/
def substUsers (us : List User) : Func := us.foldl (·.substUser s) f

@[simp] theorem layout_substUsers : (f.substUsers s us).layout = f.layout := by
  unfold substUsers
  induction us generalizing f with
  | nil => rfl
  | cons u us ih => rw [List.foldl_cons, ih, layout_substUser]

@[simp] theorem size_insts_substUsers : (f.substUsers s us).insts.size = f.insts.size := by
  unfold substUsers
  induction us generalizing f with
  | nil => rfl
  | cons u us ih => rw [List.foldl_cons, ih, size_insts_substUser]

@[simp] theorem size_blocks_substUsers : (f.substUsers s us).blocks.size = f.blocks.size := by
  unfold substUsers
  induction us generalizing f with
  | nil => rfl
  | cons u us ih => rw [List.foldl_cons, ih, size_blocks_substUser]

@[simp] theorem body_substUsers (c : BlockId) : (f.substUsers s us).body c = f.body c := by
  unfold substUsers
  induction us generalizing f with
  | nil => rfl
  | cons u us ih => rw [List.foldl_cons, ih, body_substUser]

variable {s} in
/-- An idempotent substitution replaces in every user of the list, however often it occurs. -/
theorem inst_substUsers (hs : s.Idempotent) (j : InstId) :
    (f.substUsers s us).inst j =
      if .inst j ∈ us then (f.inst j).map s.block s.value else f.inst j := by
  unfold substUsers
  induction us generalizing f with
  | nil => rfl
  | cons u us ih =>
    rw [List.foldl_cons, ih, inst_substUser]
    by_cases hu : u = .inst j
    · subst hu
      simp only [if_true, List.mem_cons_self]
      split
      · exact Instr.map_map hs _
      · rfl
    · rw [if_neg hu]
      have : (.inst j ∈ u :: us) ↔ .inst j ∈ us := by
        rw [List.mem_cons]
        exact or_iff_right fun e => hu e.symm
      simp only [this]

variable {s} in
theorem term_substUsers (hs : s.Idempotent) (c : BlockId) :
    (f.substUsers s us).term c =
      if .terminator c ∈ us then (f.term c).map s.block s.value else f.term c := by
  unfold substUsers
  induction us generalizing f with
  | nil => rfl
  | cons u us ih =>
    rw [List.foldl_cons, ih, term_substUser]
    by_cases hu : u = .terminator c
    · subst hu
      simp only [if_true, List.mem_cons_self]
      split
      · exact Terminator.map_map hs _
      · rfl
    · rw [if_neg hu]
      have : (.terminator c ∈ u :: us) ↔ .terminator c ∈ us := by
        rw [List.mem_cons]
        exact or_iff_right fun e => hu e.symm
      simp only [this]

end Users

/-! ## Masks of instructions -/

/-- All instructions keep their masks, and new ones have none. -/
def KeepsMasks (f g : Func) : Prop := ∀ i, (f.inst i).KeepsMask (g.inst i)

variable {f} {g : Func}

theorem KeepsMasks.of_eq (h : ∀ i, (g.inst i).mask = (f.inst i).mask) : f.KeepsMasks g :=
  fun i => .of_eq (h i)

theorem KeepsMasks.refl (f : Func) : f.KeepsMasks f := .of_eq fun _ => rfl

theorem KeepsMasks.trans {h : Func} (hfg : f.KeepsMasks g) (hgh : g.KeepsMasks h) :
    f.KeepsMasks h :=
  fun i => (hfg i).trans (hgh i)

theorem keepsMasks_insertAt (f : Func) (b : BlockId) (pos : Nat) {d : Instr}
    (hd : d.mask = none) : f.KeepsMasks (f.insertAt b pos d).2 := by
  refine .of_eq fun i => ?_
  rw [inst_insertAt]
  split
  · rename_i hi
    rw [f.inst_of_size_le (Nat.le_of_eq hi.symm)]
    exact hd
  · rfl

theorem keepsMasks_modifyIncoming (f : Func) (phi : InstId) (g) :
    f.KeepsMasks (f.modifyIncoming phi g) := by
  refine .of_eq fun i => ?_
  rw [inst_modifyIncoming]
  split
  · exact mask_mapIncoming _ _
  · rfl

theorem keepsMasks_substUsers (f : Func) (i : InstId) (new : Value) (us : List User) :
    f.KeepsMasks (f.substUsers (.single (.inst i) new) us) := by
  intro j
  rw [inst_substUsers _ _ (Substitution.single_idempotent _ _)]
  split
  · exact Instr.keepsMask_map_single _ _ _
  · exact .of_eq rfl

/-! ## Users -/

variable (f)

theorem mem_users_terminator {b : BlockId} : .terminator b ∈ f.users ↔ b ∈ f.layout := by
  simp [users, blockUsers]

theorem mem_users_inst {i : InstId} : .inst i ∈ f.users ↔ ∃ b ∈ f.layout, i ∈ f.body b := by
  simp [users, blockUsers]

end Func

namespace UseMap

@[simp] theorem mem_record {users : List User} {u x : User} :
    x ∈ record users u ↔ x ∈ users ∨ x = u := by
  unfold record
  split
  · rename_i h
    constructor
    · exact .inl
    · rintro (h | rfl)
      · exact h
      · exact List.mem_of_getLast? h
  · simp

theorem mem_usersOf_add {m : UseMap} {v w : Value} {u x : User} :
    x ∈ (m.add v u).usersOf w ↔ x ∈ m.usersOf w ∨ x = u ∧ w = v := by
  rw [usersOf_add]
  by_cases h : w = v <;> simp [h]

theorem mem_usersOf_addAll {vs : List Value} {m : UseMap} {w : Value} {u x : User} :
    x ∈ (vs.foldl (fun m v => m.add v u) m).usersOf w ↔ x ∈ m.usersOf w ∨ x = u ∧ w ∈ vs := by
  induction vs generalizing m with
  | nil => simp
  | cons v vs ih =>
    rw [List.foldl_cons, ih, mem_usersOf_add, List.mem_cons]
    tauto

/-- The users of a value are those that use it. -/
theorem mem_usersOf_compute {f : Func} {v : Value} {u : User} :
    u ∈ (compute f).usersOf v ↔ u ∈ f.users ∧ v ∈ f.usedBy u := by
  have h : ∀ (us : List User) (m : UseMap),
      u ∈ (us.foldl (fun m u => (f.usedBy u).foldl (fun m v => m.add v u) m) m).usersOf v ↔
        u ∈ m.usersOf v ∨ u ∈ us ∧ v ∈ f.usedBy u := by
    intro us
    induction us with
    | nil => simp
    | cons x us ih =>
      intro m
      rw [List.foldl_cons, ih, mem_usersOf_addAll, List.mem_cons]
      constructor
      · rintro ((h | ⟨rfl, hv⟩) | ⟨hu, hv⟩)
        · exact .inl h
        · exact .inr ⟨.inl rfl, hv⟩
        · exact .inr ⟨.inr hu, hv⟩
      · rintro (h | ⟨rfl | hu, hv⟩)
        · exact .inl (.inl h)
        · exact .inl (.inr ⟨rfl, hv⟩)
        · exact .inr ⟨hu, hv⟩
  have hempty : u ∉ empty.usersOf v := List.not_mem_nil
  exact (h f.users empty).trans (or_iff_right hempty)

/-- A value that something uses has a user. -/
theorem numUsers_pos {f : Func} {u : User} {v : Value} (hu : u ∈ f.users) (hv : v ∈ f.usedBy u) :
    0 < (compute f).numUsers v :=
  List.length_pos_of_mem (mem_usersOf_compute.mpr ⟨hu, hv⟩)

end UseMap

end Lockstep
