import Lockstep.Func.Basic

/-!
# Editing functions

Inserting and detaching instructions, and the bookkeeping of phis. Every edit keeps the phis of
a block in front and an attached instruction in the block that it names.
-/

namespace Lockstep

namespace Func

/-! ## Single entries -/

def modifyBlock (f : Func) (b : BlockId) (g : Block → Block) : Func :=
  { f with blocks := f.blocks.modify b g }

def modifyInst (f : Func) (i : InstId) (g : Instr → Instr) : Func :=
  { f with insts := f.insts.modify i g }

@[simp] theorem layout_modifyBlock (f : Func) (b : BlockId) (g : Block → Block) :
    (f.modifyBlock b g).layout = f.layout := rfl

@[simp] theorem layout_modifyInst (f : Func) (i : InstId) (g : Instr → Instr) :
    (f.modifyInst i g).layout = f.layout := rfl

@[simp] theorem inst_modifyBlock (f : Func) (b : BlockId) (g : Block → Block) (i : InstId) :
    (f.modifyBlock b g).inst i = f.inst i := rfl

@[simp] theorem block_modifyInst (f : Func) (i : InstId) (g : Instr → Instr) (b : BlockId) :
    (f.modifyInst i g).block b = f.block b := rfl

theorem block_modifyBlock (f : Func) (b c : BlockId) (g : Block → Block) :
    (f.modifyBlock b g).block c =
      if b = c ∧ b < f.blocks.size then g (f.block c) else f.block c := by
  unfold block modifyBlock
  rw [Array.getElem?_modify]
  by_cases h : b = c
  · subst h
    by_cases hb : b < f.blocks.size <;> simp [hb]
  · simp [h]

theorem inst_modifyInst (f : Func) (i j : InstId) (g : Instr → Instr) :
    (f.modifyInst i g).inst j =
      if i = j ∧ i < f.insts.size then g (f.inst j) else f.inst j := by
  unfold inst modifyInst
  rw [Array.getElem?_modify]
  by_cases h : i = j
  · subst h
    by_cases hi : i < f.insts.size <;> simp [hi]
  · simp [h]

@[simp] theorem size_blocks_modifyBlock (f : Func) (b : BlockId) (g : Block → Block) :
    (f.modifyBlock b g).blocks.size = f.blocks.size := Array.size_modify

@[simp] theorem size_insts_modifyInst (f : Func) (i : InstId) (g : Instr → Instr) :
    (f.modifyInst i g).insts.size = f.insts.size := Array.size_modify

def setTerm (f : Func) (b : BlockId) (t : Terminator) : Func :=
  f.modifyBlock b fun d => { d with term := t }

def setBody (f : Func) (b : BlockId) (insts : List InstId) : Func :=
  f.modifyBlock b fun d => { d with insts }

def setMask (f : Func) (i : InstId) (mask : Option Value) : Func :=
  f.modifyInst i fun d => { d with mask }

theorem body_setBody (f : Func) (b c : BlockId) (insts : List InstId) (h : b < f.blocks.size) :
    (f.setBody b insts).body c = if b = c then insts else f.body c := by
  rw [body, setBody, block_modifyBlock]
  by_cases hbc : b = c
  · rw [if_pos ⟨hbc, h⟩, if_pos hbc]
  · rw [if_neg fun e => hbc e.1, if_neg hbc, body]

@[simp] theorem term_setBody (f : Func) (b c : BlockId) (insts : List InstId) :
    (f.setBody b insts).term c = f.term c := by
  rw [term, setBody, block_modifyBlock]
  split <;> rfl

@[simp] theorem body_setTerm (f : Func) (b c : BlockId) (t : Terminator) :
    (f.setTerm b t).body c = f.body c := by
  rw [body, setTerm, block_modifyBlock]
  split <;> rfl

/-! ## Blocks and instructions -/

/-- Defines an empty block at the end of the layout. -/
def addBlock (f : Func) (name : Option String) : BlockId × Func :=
  let b := f.blocks.size
  (b, { f with blocks := f.blocks.push { name }, layout := f.layout ++ [b] })

/-- Defines an instruction in a block, at a position of its instructions. -/
def insertAt (f : Func) (b : BlockId) (pos : Nat) (d : Instr) : InstId × Func :=
  let i := f.insts.size
  let f := { f with insts := f.insts.push { d with block := b } }
  (i, f.setBody b ((f.body b).insertIdx pos i))

/-- A new block comes after all others, and leaves them as they are. -/
theorem block_addBlock (f : Func) (name : Option String) (c : BlockId) :
    (f.addBlock name).2.block c = if c = f.blocks.size then { name } else f.block c := by
  unfold addBlock block
  rw [Array.getElem?_push]
  split <;> rfl

@[simp] theorem inst_addBlock (f : Func) (name : Option String) (i : InstId) :
    (f.addBlock name).2.inst i = f.inst i := rfl

/-- A new instruction comes after all others, and leaves them as they are. -/
theorem inst_insertAt (f : Func) (b : BlockId) (pos : Nat) (d : Instr) (i : InstId) :
    (f.insertAt b pos d).2.inst i =
      if i = f.insts.size then { d with block := b } else f.inst i := by
  unfold insertAt
  show ((f.insts.push { d with block := b })[i]?).getD default = _
  rw [Array.getElem?_push]
  split <;> rfl

theorem body_insertAt (f : Func) (b c : BlockId) (pos : Nat) (d : Instr)
    (h : b < f.blocks.size) :
    (f.insertAt b pos d).2.body c =
      if b = c then (f.body b).insertIdx pos f.insts.size else f.body c :=
  body_setBody { f with insts := f.insts.push { d with block := b } } b c _ h

@[simp] theorem layout_insertAt (f : Func) (b : BlockId) (pos : Nat) (d : Instr) :
    (f.insertAt b pos d).2.layout = f.layout := rfl

/-- Defines an instruction right before the terminator of a block. -/
def append (f : Func) (b : BlockId) (d : Instr) : InstId × Func :=
  f.insertAt b (f.body b).length d

/-- Defines a phi after the phis that a block already has. -/
def appendPhi (f : Func) (b : BlockId) (ty : Ty) (incoming : List (BlockId × Value)) :
    InstId × Func :=
  f.insertAt b (f.firstNonPhi b) { op := .phi incoming, ty, block := b }

/-- Takes an instruction out of its block; its definition and its uses stay. -/
def detach (f : Func) (i : InstId) : Func :=
  let b := (f.inst i).block
  f.setBody b ((f.body b).filter (· != i))

/-! ## Phis -/

/-- Replaces the value of the first entry with this predecessor, or adds an entry. -/
def setEntry (incoming : List (BlockId × Value)) (pred : BlockId) (v : Value) :
    List (BlockId × Value) :=
  match incoming with
  | [] => [(pred, v)]
  | (b, w) :: rest => if b = pred then (b, v) :: rest else (b, w) :: setEntry rest pred v

theorem lookup_setEntry (incoming : List (BlockId × Value)) (pred b : BlockId) (v : Value) :
    (setEntry incoming pred v).lookup b = if b = pred then some v else incoming.lookup b := by
  induction incoming with
  | nil =>
    by_cases hb : b = pred
    · simp [setEntry, hb]
    · have hf : (b == pred) = false := beq_eq_false_iff_ne.mpr hb
      simp [setEntry, List.lookup_cons, hf, hb]
  | cons e rest ih =>
    obtain ⟨c, w⟩ := e
    unfold setEntry
    by_cases hc : c = pred
    · subst hc
      by_cases hb : b = c
      · simp [hb]
      · have hf : (b == c) = false := beq_eq_false_iff_ne.mpr hb
        simp [List.lookup_cons, hf, hb]
    · rw [if_neg hc, List.lookup_cons, List.lookup_cons, ih]
      by_cases hb : b = c
      · subst hb
        simp [hc]
      · have hf : (b == c) = false := beq_eq_false_iff_ne.mpr hb
        simp [hf]

/-- Changes the entries of a phi; no other instruction has any. -/
def modifyIncoming (f : Func) (phi : InstId)
    (g : List (BlockId × Value) → List (BlockId × Value)) : Func :=
  f.modifyInst phi fun d =>
    match d.op with
    | .phi incoming => { d with op := .phi (g incoming) }
    | .apply _ _ => d

/-- Sets the value that a phi takes on entry from `pred`. -/
def setIncoming (f : Func) (phi : InstId) (pred : BlockId) (v : Value) : Func :=
  f.modifyIncoming phi (setEntry · pred v)

/-- Takes out the entries of a phi whose predecessor satisfies `p`, and returns them. -/
def removeIncoming (f : Func) (phi : InstId) (p : BlockId → Bool) :
    List (BlockId × Value) × Func :=
  ((f.inst phi).incoming.filter fun e => p e.1,
    f.modifyIncoming phi fun incoming => incoming.filter fun e => !p e.1)

/-- Renames a predecessor in all phis of a block. -/
def replacePhiPred (f : Func) (b old new : BlockId) : Func :=
  (f.phis b).foldl (fun f phi =>
    f.modifyIncoming phi fun incoming =>
      incoming.map fun (c, v) => (if c = old then new else c, v)) f

end Func

end Lockstep
