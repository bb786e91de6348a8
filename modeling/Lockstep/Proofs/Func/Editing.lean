import Lockstep.Func.Builder
import Lockstep.Proofs.Func.Arranged
import Lockstep.Proofs.Func.EntryLists

/-!
# Sequences of edits

`Edit` has the edits of a function, `Edited f t` says that edits have made `f` of a new function,
and `Builder.Session` is the use of a builder whose point is set once.

1. The point of a builder splits what stands behind the phis of its block (`Builder.At`), an
   insertion puts the new instruction at the end of the first part, and the point stays behind it.
2. Every edit keeps a function arranged, and keeps the entries of phis in two lists of one length.
3. So does every sequence of edits, and what one builder inserts stands together in its order.
-/

namespace Lockstep

/-! ## Points -/

/-- Whether a builder may insert at a point: its block exists, its instruction stands in a block and
is no phi. -/
def Func.Fits (f : Func) : InsertPoint → Prop
  | .blockEnd b | .afterPhis b => b < f.blocks.size
  | .before i | .after i => i ∈ f.body (f.inst i).block ∧ f.isPhi i = false

instance (f : Func) : (point : InsertPoint) → Decidable (f.Fits point)
  | .blockEnd b | .afterPhis b => inferInstanceAs (Decidable (b < f.blocks.size))
  | .before i | .after i =>
    inferInstanceAs (Decidable (i ∈ f.body (f.inst i).block ∧ f.isPhi i = false))

/-- Whether a point is at the end of `before` and the start of `after`, which together stand behind
the phis of its block. -/
def InsertPoint.Splits (before after : List InstId) : InsertPoint → Prop
  | .blockEnd _ => after = []
  | .afterPhis _ => before = []
  | .before i => after.head? = some i
  | .after i => before.getLast? = some i

namespace Builder

/-- Where the point of a builder is among the instructions behind the phis of its block. -/
structure At (s : Builder) (before after : List InstId) : Prop where
  lt : s.currentBlock < s.func.blocks.size
  nonPhis : s.func.nonPhis s.currentBlock = before ++ after
  splits : s.point.Splits before after

variable {s s' : Builder} {before after : List InstId}

theorem exists_at (hf : s.func.Arranged) (h : s.func.Fits s.point) :
    ∃ before after, s.At before after := by
  obtain ⟨f, point⟩ := s
  cases point with
  | blockEnd b => exact ⟨_, [], h, (List.append_nil _).symm, rfl⟩
  | afterPhis b => exact ⟨[], _, h, rfl, rfl⟩
  | before i =>
    obtain ⟨pre, post, e⟩ := List.append_of_mem (hf.mem_nonPhis.mpr h)
    exact ⟨pre, i :: post, f.lt_of_mem_body h.1, e, rfl⟩
  | after i =>
    obtain ⟨pre, post, e⟩ := List.append_of_mem (hf.mem_nonPhis.mpr h)
    exact ⟨pre ++ [i], post, f.lt_of_mem_body h.1, e.trans (List.append_cons ..),
      List.getLast?_concat⟩

/-- The instruction of the point stands behind the phis. -/
theorem At.fits (h : s.At before after) (hf : s.func.Arranged) : s.func.Fits s.point := by
  obtain ⟨f, point⟩ := s
  cases point with
  | blockEnd b => exact h.lt
  | afterPhis b => exact h.lt
  | before i =>
    refine hf.mem_nonPhis.mp ?_
    exact h.nonPhis ▸ List.mem_append_right _ (List.mem_of_mem_head? h.splits)
  | after i =>
    refine hf.mem_nonPhis.mp ?_
    exact h.nonPhis ▸ List.mem_append_left _ (List.mem_of_getLast? h.splits)

theorem At.body (h : s.At before after) :
    s.func.body s.currentBlock = s.func.phis s.currentBlock ++ before ++ after := by
  rw [← s.func.phis_append_nonPhis, h.nonPhis, List.append_assoc]

/-- The position is found by a search for the instruction of the point. -/
theorem At.position (h : s.At before after) (hf : s.func.Arranged) :
    s.position = (s.func.phis s.currentBlock ++ before).length := by
  have hbody := h.body
  have hn := hf.nodup s.currentBlock
  obtain ⟨f, point⟩ := s
  cases point with
  | blockEnd b =>
    obtain rfl : after = [] := h.splits
    rw [List.append_nil] at hbody
    exact congrArg List.length hbody
  | afterPhis b =>
    obtain rfl : before = [] := h.splits
    rw [List.append_nil]
    rfl
  | before i =>
    -- an instruction stands once, so the search finds it at the point
    obtain ⟨post, rfl⟩ := List.head?_eq_some_iff.mp h.splits
    rw [hbody] at hn
    show (f.positionOf? i).getD _ = _
    rw [hf.placed.positionOf?_eq hbody (notMem_of_nodup_middle hn).1]
    rfl
  | after i =>
    obtain ⟨pre, rfl⟩ := List.getLast?_eq_some_iff.mp h.splits
    rw [← List.append_assoc, List.append_assoc, List.singleton_append] at hbody
    rw [hbody] at hn
    show ((f.positionOf? i).map (· + 1)).getD 0 = _
    rw [hf.placed.positionOf?_eq hbody (notMem_of_nodup_middle hn).1]
    show (_ ++ pre).length + 1 = (_ ++ (pre ++ [i])).length
    simp only [List.length_append, List.length_singleton, Nat.add_assoc]

/-- The next instruction goes into the same block. -/
theorem currentBlock_insert (h : s.func.Fits s.point) (hf : s.func.Placed) (op : Op) (ty : Ty) :
    (s.insert op ty).2.currentBlock = s.currentBlock := by
  obtain ⟨f, point⟩ := s
  cases point with
  | blockEnd b => rfl
  | afterPhis b => exact (f.standsIn_insertAt b _ _).2
  | before i => exact ((hf _ i h.1).insertAt _ _ _).2
  | after i => exact (f.standsIn_insertAt _ _ _).2

theorem At.phisFirst_insert (h : s.At before after) (hf : s.func.Arranged) {op : Op}
    (hop : op.isPhi = false) (ty : Ty) : (s.insert op ty).2.func.PhisFirst s.currentBlock
      (s.func.phis s.currentBlock) (before ++ s.func.insts.size :: after) := by
  have hp := hf.phisFirst_insertAt h.lt h.nonPhis (d := { op, ty, block := s.currentBlock }) hop
  rwa [← h.position hf] at hp

/-- After an insertion the new instruction stands right before the point. -/
theorem At.insert (h : s.At before after) (hf : s.func.Arranged) {op : Op}
    (hop : op.isPhi = false) (ty : Ty) :
    (s.insert op ty).2.At (before ++ [(s.insert op ty).1]) after := by
  have hblock := currentBlock_insert (h.fits hf) hf.placed op ty
  refine ⟨?_, ?_, ?_⟩
  · rw [hblock]
    exact (Func.size_blocks_insertAt ..).symm ▸ h.lt
  · rw [hblock, (h.phisFirst_insert hf hop ty).nonPhis, List.append_assoc]
    rfl
  · -- a point after something has moved on to the new instruction, the others have not moved
    obtain ⟨f, point⟩ := s
    cases point with
    | blockEnd b => exact h.splits
    | afterPhis b => exact List.getLast?_concat
    | before i => exact h.splits
    | after i => exact List.getLast?_concat

end Builder

/-! ## Edits -/

/-- An edit of a function. The insertion of an instruction with a mask is an insertion, and then the
mask is set. -/
inductive Edit where
  | addBlock (name : Option String)
  | append (b : BlockId) (d : Instr)
  | appendPhi (b : BlockId) (ty : Ty) (incoming : List (BlockId × Value))
  | detach (i : InstId)
  | setIncoming (phi : InstId) (pred : BlockId) (v : Value)
  | removeIncoming (phi : InstId) (p : BlockId → Bool)
  | replacePhiPred (b old new : BlockId)
  | setTerm (b : BlockId) (t : Terminator)
  | setMask (i : InstId) (mask : Option Value)
  /-- An insertion by a builder. -/
  | insert (point : InsertPoint) (op : Op) (ty : Ty)

namespace Edit

def apply (f : Func) : Edit → Func
  | .addBlock name => (f.addBlock name).2
  | .append b d => (f.append b d).2
  | .appendPhi b ty incoming => (f.appendPhi b ty incoming).2
  | .detach i => f.detach i
  | .setIncoming phi pred v => f.setIncoming phi pred v
  | .removeIncoming phi p => (f.removeIncoming phi p).2
  | .replacePhiPred b old new => f.replacePhiPred b old new
  | .setTerm b t => f.setTerm b t
  | .setMask i mask => f.setMask i mask
  | .insert point op ty => (Builder.insert ⟨f, point⟩ op ty).2.func

/-- What an edit may be asked to do: blocks exist, phis are made as phis, points fit. -/
def Allowed (f : Func) : Edit → Prop
  | .append b d => b < f.blocks.size ∧ d.isPhi = false
  | .appendPhi b _ _ => b < f.blocks.size
  | .insert point op _ => f.Fits point ∧ op.isPhi = false
  | _ => True

instance (f : Func) : (e : Edit) → Decidable (e.Allowed f)
  | .append b d => inferInstanceAs (Decidable (b < f.blocks.size ∧ d.isPhi = false))
  | .appendPhi b _ _ => inferInstanceAs (Decidable (b < f.blocks.size))
  | .insert point op _ => inferInstanceAs (Decidable (f.Fits point ∧ op.isPhi = false))
  | .addBlock _ | .detach _ | .setIncoming .. | .removeIncoming .. | .replacePhiPred ..
  | .setTerm .. | .setMask .. => .isTrue trivial

/-- What an edit does to the entry lists of the phis. -/
def onTable (f : Func) (t : EntryTable) : Edit → EntryTable
  | .appendPhi _ _ incoming => Function.update t f.insts.size (.ofPairs incoming)
  | .setIncoming phi pred v => t.modify phi (·.set pred v)
  | .removeIncoming phi p => t.modify phi (·.removeFrom p 0)
  | .replacePhiPred b old new =>
    (f.phis b).foldl (fun t phi => t.modify phi (·.rename old new)) t
  | _ => t

variable {f : Func} {t : EntryTable} {e : Edit}

/-- Every edit keeps a function arranged. -/
theorem arranged (hf : f.Arranged) (he : e.Allowed f) : (e.apply f).Arranged := by
  cases e with
  | addBlock name => exact hf.addBlock name
  | append b d =>
    have hp := hf.phisFirst_insertAt he.1 (List.append_nil _).symm he.2
    rw [f.phis_append_nonPhis] at hp
    exact hf.insertAt hp
  | appendPhi b ty incoming => exact hf.insertAt (hf.phisFirst_appendPhi he ty incoming)
  | detach i => exact hf.detach i
  | setIncoming phi pred v => exact hf.inPlace (f.inPlace_modifyIncoming phi _)
  | removeIncoming phi p => exact hf.inPlace (f.inPlace_modifyIncoming phi _)
  | replacePhiPred b old new => exact hf.inPlace (f.inPlace_replacePhiPred b old new)
  | setTerm b t => exact hf.inPlace (f.inPlace_setTerm b t)
  | setMask i mask => exact hf.inPlace (f.inPlace_setMask i mask)
  | insert point op ty =>
    obtain ⟨before, after, h⟩ := Builder.exists_at (s := ⟨f, point⟩) hf he.1
    exact hf.insertAt (h.phisFirst_insert hf he.2 ty)

end Edit

/-- Every edit does to the entry lists what it does to the entries. -/
theorem EntryTable.Records.edit {f : Func} {t : EntryTable} (h : t.Records f) {e : Edit}
    (he : e.Allowed f) : EntryTable.Records (e.onTable f t) (e.apply f) := by
  cases e with
  | addBlock name => exact h
  | append b d => exact h.insertAt b _ he.2
  | appendPhi b ty incoming => exact h.appendPhi b ty incoming
  | detach i => exact h
  | setIncoming phi pred v => exact h.setIncoming phi pred v
  | removeIncoming phi p => exact h.removeIncoming phi p
  | replacePhiPred b old new => exact h.replacePhiPred b old new
  | setTerm b t => exact h
  | setMask i mask => exact h.setMask i mask
  | insert point op ty => exact h.insertAt _ _ he.2

/-! ## Sequences of edits -/

/-- `Edited f t` says that edits have made `f` of a new function, and have left the entry lists `t`
for its phis. -/
inductive Edited : Func → EntryTable → Prop
  | new (params : List Ty) (retTy : Ty) : Edited (.new params retTy) fun _ => {}
  | edit {f : Func} {t : EntryTable} (h : Edited f t) (e : Edit) (he : e.Allowed f) :
    Edited (e.apply f) (e.onTable f t)

theorem Edited.arranged {f : Func} {t : EntryTable} (h : Edited f t) : f.Arranged := by
  induction h with
  | new params retTy => exact Func.arranged_new params retTy
  | edit _ e he ih => exact Edit.arranged ih he

theorem Edited.records {f : Func} {t : EntryTable} (h : Edited f t) : t.Records f := by
  induction h with
  | new params retTy =>
    intro i hi
    exact absurd ((Func.new params retTy).lt_of_isPhi hi) (Nat.not_lt_zero i)
  | edit _ e he ih => exact ih.edit he

/-! ## One builder -/

/-- Whether an edit takes no instruction out and puts none behind the phis of a block. -/
def Edit.Aside : Edit → Prop
  | .append .. | .detach _ | .insert .. => False
  | _ => True

/-- Points in `f` are where they are in `g`. -/
structure Func.KeepsPoints (f g : Func) : Prop where
  size_blocks : f.blocks.size ≤ g.blocks.size
  nonPhis : ∀ b, g.nonPhis b = f.nonPhis b
  block : ∀ i < f.insts.size, (g.inst i).block = (f.inst i).block

theorem Func.InPlace.keepsPoints {f g : Func} (h : f.InPlace g) : f.KeepsPoints g where
  size_blocks := Nat.le_of_eq h.size_blocks.symm
  nonPhis := h.nonPhis
  block i _ := h.block i

theorem Edit.Aside.keepsPoints {f : Func} (hf : f.Arranged) {e : Edit} (hs : e.Aside)
    (he : e.Allowed f) : f.KeepsPoints (e.apply f) := by
  cases e with
  | addBlock name =>
    exact ⟨Array.size_push .. ▸ Nat.le_succ _, f.nonPhis_addBlock name, fun _ _ => rfl⟩
  | appendPhi b ty incoming =>
    refine ⟨Nat.le_of_eq (f.size_blocks_insertAt ..).symm, hf.nonPhis_appendPhi he ty incoming, ?_⟩
    exact fun i hi => congrArg Instr.block ((f.inst_insertAt ..).trans (if_neg (Nat.ne_of_lt hi)))
  | setIncoming phi pred v => exact (f.inPlace_modifyIncoming phi _).keepsPoints
  | removeIncoming phi p => exact (f.inPlace_modifyIncoming phi _).keepsPoints
  | replacePhiPred b old new => exact (f.inPlace_replacePhiPred b old new).keepsPoints
  | setTerm b t => exact (f.inPlace_setTerm b t).keepsPoints
  | setMask i mask => exact (f.inPlace_setMask i mask).keepsPoints
  | append b d => exact hs.elim
  | detach i => exact hs.elim
  | insert point op ty => exact hs.elim

namespace Builder

variable {s s' : Builder} {before after ids : List InstId}

theorem currentBlock_keepsPoints (h : s.func.Fits s.point) (hf : s.func.Placed) {g : Func}
    (hg : s.func.KeepsPoints g) : currentBlock { s with func := g } = s.currentBlock := by
  obtain ⟨f, point⟩ := s
  cases point with
  | blockEnd b => rfl
  | afterPhis b => rfl
  | before i => exact hg.block i (hf _ i h.1).1
  | after i => exact hg.block i (hf _ i h.1).1

theorem At.keepsPoints (h : s.At before after) (hf : s.func.Arranged) {g : Func}
    (hg : s.func.KeepsPoints g) : At { s with func := g } before after := by
  have hblock := currentBlock_keepsPoints (h.fits hf) hf.placed hg
  refine ⟨?_, ?_, h.splits⟩
  · exact hblock ▸ Nat.lt_of_lt_of_le h.lt hg.size_blocks
  · rw [hblock]
    exact (hg.nonPhis _).trans h.nonPhis

/-- `Session s ids s'` says that from `s` on a builder has inserted `ids` one after the other, its
point never set anew, and is now `s'`. Blocks and phis may have been added meanwhile, entries of
phis changed, and terminators and masks set. -/
inductive Session (s : Builder) : List InstId → Builder → Prop
  | start : Session s [] s
  | insert {ids : List InstId} {s' : Builder} (h : Session s ids s') (op : Op) (ty : Ty)
    (hop : op.isPhi = false) :
    Session s (ids ++ [(s'.insert op ty).1]) (s'.insert op ty).2
  | aside {ids : List InstId} {s' : Builder} (h : Session s ids s') (e : Edit) (hs : e.Aside)
    (he : e.Allowed s'.func) : Session s ids { s' with func := e.apply s'.func }

/-- What one builder does is a sequence of edits, and puts the new instructions where its point was
at the start. -/
theorem Session.at (h : Session s ids s') {t : EntryTable} (ht : Edited s.func t)
    (hat : s.At before after) : (∃ u, Edited s'.func u) ∧ s'.currentBlock = s.currentBlock ∧
      s'.At (before ++ ids) after := by
  induction h with
  | start => exact ⟨⟨t, ht⟩, rfl, (List.append_nil before).symm ▸ hat⟩
  | insert _ op ty hop ih =>
    -- the point fits at every insertion, because it stays where the one before has left it
    obtain ⟨⟨u, hu⟩, hblock, hat'⟩ := ih
    have hfits := hat'.fits hu.arranged
    refine ⟨⟨u, hu.edit (.insert _ op ty) ⟨hfits, hop⟩⟩, ?_, ?_⟩
    · exact (currentBlock_insert hfits hu.arranged.placed op ty).trans hblock
    · rw [← List.append_assoc]
      exact hat'.insert hu.arranged hop ty
  | aside _ e hs he ih =>
    obtain ⟨⟨u, hu⟩, hblock, hat'⟩ := ih
    have hk := hs.keepsPoints hu.arranged he
    refine ⟨⟨_, hu.edit e he⟩, ?_, hat'.keepsPoints hu.arranged hk⟩
    exact (currentBlock_keepsPoints (hat'.fits hu.arranged) hu.arranged.placed hk).trans hblock

end Builder

/-- After every sequence of edits the function is arranged, no instruction stands twice in its
blocks, and the predecessors and values of a phi, kept in two lists, are of one number and pair up
to its entries. What a builder inserts from then on, its point set once, stands together and in
order in the block where the point was. -/
theorem Edited.arranged_matched_contiguous {f : Func} {t : EntryTable} (h : Edited f t) :
    f.Arranged ∧ (f.blockIds.flatMap f.body).Nodup ∧
      (∀ phi, f.isPhi phi = true → (t phi).preds.length = (t phi).values.length ∧
        (f.inst phi).incoming = (t phi).preds.zip (t phi).values ∧
          (f.inst phi).inputs = (t phi).values) ∧
        ∀ point, f.Fits point → ∀ ids s, Builder.Session ⟨f, point⟩ ids s →
          (∃ u, Edited s.func u) ∧ s.currentBlock = Builder.currentBlock ⟨f, point⟩ ∧
            ∃ before after,
              f.body s.currentBlock = f.phis s.currentBlock ++ (before ++ after) ∧
                s.func.body s.currentBlock =
                  s.func.phis s.currentBlock ++ (before ++ ids ++ after) := by
  refine ⟨h.arranged, h.arranged.nodup_blocks, fun phi hphi => ?_, fun point hfit ids s hs => ?_⟩
  · rw [h.records phi hphi]
    exact ⟨EntryLists.length_ofPairs _, (EntryLists.zip_ofPairs _).symm,
      (EntryLists.values_ofPairs hphi).symm⟩
  · obtain ⟨before, after, hat⟩ := Builder.exists_at (s := ⟨f, point⟩) h.arranged hfit
    obtain ⟨hu, hblock, hat'⟩ := hs.at h hat
    refine ⟨hu, hblock, before, after, ?_, ?_⟩
    · rw [hblock, ← hat.nonPhis, f.phis_append_nonPhis]
    · rw [← hat'.nonPhis, s.func.phis_append_nonPhis]

/-- A counter in a block of its own, made by edits. -/
def counterSketch : Func :=
  [.addBlock (some "loop"), .setTerm 0 (.br 1),
    .appendPhi 1 (.int 32) [(0, .ofInt (.int 32) 0)],
    .append 1 ⟨.apply (.binary .add) [.inst 0, .ofInt (.int 32) 1], .int 32, none, 1⟩,
    .setIncoming 0 1 (.inst 1)].foldl Edit.apply (.new [] .void)

theorem edited_counterSketch : ∃ t, Edited counterSketch t :=
  ⟨_, (((((Edited.new [] .void).edit (.addBlock (some "loop")) (by decide)).edit
    (.setTerm 0 (.br 1)) (by decide)).edit
    (.appendPhi 1 (.int 32) [(0, .ofInt (.int 32) 0)]) (by decide)).edit
    (.append 1 ⟨.apply (.binary .add) [.inst 0, .ofInt (.int 32) 1], .int 32, none, 1⟩)
      (by decide)).edit (.setIncoming 0 1 (.inst 1)) (by decide)⟩

/-- A builder puts a choice and a load behind the phi of the counter; between the two a second phi
is added. -/
theorem Edited.arranged_matched_contiguous_counterSketch :
    counterSketch.Arranged ∧ counterSketch.Fits (.afterPhis 1) ∧
      ∃ s, Builder.Session ⟨counterSketch, .afterPhis 1⟩ [2, 4] s ∧ ∃ before after,
        s.func.body s.currentBlock = s.func.phis s.currentBlock ++ (before ++ [2, 4] ++ after) := by
  obtain ⟨t, ht⟩ := edited_counterSketch
  have h := ht.arranged_matched_contiguous
  have hfits : counterSketch.Fits (.afterPhis 1) := by decide
  have hs : Builder.Session ⟨counterSketch, .afterPhis 1⟩ [2, 4] _ :=
    ((Builder.Session.start.insert (.apply .select []) .bool rfl).aside
      (.appendPhi 1 .bool []) trivial (by decide)).insert (.apply .load [.inst 0]) (.int 32) rfl
  obtain ⟨-, -, before, after, -, hbody⟩ := h.2.2.2 _ hfits _ _ hs
  exact ⟨h.1, hfits, _, hs, before, after, hbody⟩

end Lockstep
