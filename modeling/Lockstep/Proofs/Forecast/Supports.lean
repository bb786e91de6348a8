import Lockstep.Proofs.Forecast.Knowledge
import Lockstep.Proofs.Cfg.Acyclic
import Lockstep.Proofs.Func.Arranged
import Lockstep.Proofs.Loop.SingleExit
import Mathlib.Data.List.InsertIdx

/-!
# Graphs that support code

While branches are made straight, values are already available along the graph to come. `g.Supports f`
says of the code of `f` that it is in static single assignment form and well-typed where dominance is
that of the graph of `g`; for `g = f` that follows from the function being well-formed. Every edit that
is made on the way to that graph is one that it supports.
-/

namespace Lockstep

namespace Func

/-! ## Availability -/

/-- Whether a value is available at the end of a block. -/
def AtEnd (g f : Func) (b : BlockId) : Value → Prop :=
  Value.Within fun i => ∃ d, i ∈ f.body d ∧ g.Dominates d b

/-- Whether a value is available from another block. -/
def FromAbove (g f : Func) (b : BlockId) : Value → Prop :=
  Value.Within fun i => ∃ d, d ≠ b ∧ i ∈ f.body d ∧ g.Dominates d b

/-- Whether a value is available at an instruction of a block. -/
def Before (g f : Func) (b : BlockId) (i : InstId) : Value → Prop :=
  Value.Within fun j => [j, i].Sublist (f.body b) ∨ ∃ d, d ≠ b ∧ j ∈ f.body d ∧ g.Dominates d b

/-- Whether a value is available at a position of a block. -/
def ReadyAt (g f : Func) (b : BlockId) (pos : Nat) : Value → Prop :=
  Value.Within fun j => j ∈ (f.body b).take pos ∨ ∃ d, d ≠ b ∧ j ∈ f.body d ∧ g.Dominates d b

/-- Code in static single assignment form along the graph of `g`, well-typed and without masks. -/
structure Supports (g f : Func) : Prop where
  coherent : f.Coherent
  typed : f.WellTyped
  noMask : ∀ b, ∀ i ∈ f.body b, (f.inst i).mask = none
  nodup : ∀ b, (f.body b).Nodup
  phisFirst : ∀ b, ∀ i ∈ f.nonPhis b, f.isPhi i = false
  uses : ∀ b, g.Reachable b → ∀ i ∈ f.body b, f.isPhi i = false → ∀ v ∈ (f.inst i).inputs,
    g.Before f b i v
  entries : ∀ b, g.Reachable b → ∀ phi ∈ f.phis b, ∀ e ∈ (f.inst phi).incoming,
    g.Reachable e.1 → g.AtEnd f e.1 e.2
  exit : ∀ b, g.Reachable b → ∀ v ∈ (f.term b).uses, g.AtEnd f b v

variable {f f' g : Func} {b c : BlockId} {i j : InstId} {v w : Value} {pos : Nat}

theorem FromAbove.before (h : g.FromAbove f b v) (i : InstId) : g.Before f b i v :=
  h.mono fun _ h => .inr h

theorem FromAbove.readyAt (h : g.FromAbove f b v) (pos : Nat) : g.ReadyAt f b pos v :=
  h.mono fun _ h => .inr h

theorem FromAbove.atEnd (h : g.FromAbove f b v) : g.AtEnd f b v :=
  h.mono fun _ ⟨d, _, hd⟩ => ⟨d, hd⟩

/-- What is available at the end of a block is available in the blocks that it strictly dominates. -/
theorem AtEnd.fromAbove (h : g.AtEnd f b v) (hb : g.Reachable b) (hd : g.Dominates b c) (hne : b ≠ c) :
    g.FromAbove f c v := by
  refine Value.Within.mono h fun i hi => ?_
  obtain ⟨d, hi, hdb⟩ := hi
  refine ⟨d, ?_, hi, hdb.trans hd⟩
  rintro rfl
  exact hne (Dominates.antisymm hb hdb hd).symm

theorem AtEnd.of_dominates (h : g.AtEnd f b v) (hd : g.Dominates b c) : g.AtEnd f c v :=
  h.mono fun _ ⟨d, hi, hdb⟩ => ⟨d, hi, hdb.trans hd⟩

/-- What is available along one graph is available along another with the same dominance. -/
theorem AtEnd.regraph {g' : Func} (hd : ∀ a b, g.Dominates a b → g'.Dominates a b)
    (h : g.AtEnd f b v) : g'.AtEnd f b v :=
  h.mono fun _ ⟨d, hi, hdb⟩ => ⟨d, hi, hd d b hdb⟩

theorem Before.regraph {g' : Func} (hd : ∀ a b, g.Dominates a b → g'.Dominates a b)
    (h : g.Before f b i v) : g'.Before f b i v :=
  h.mono fun _ hj => hj.imp_right fun ⟨d, hne, hi, hdb⟩ => ⟨d, hne, hi, hd d b hdb⟩

theorem AtEnd.defines (hf : f.Coherent) (h : g.AtEnd f b v) : f.Defines v := by
  cases v with
  | inst i =>
    obtain ⟨d, hi, -⟩ := h
    exact hf.body_lt d i hi
  | _ => trivial

theorem ReadyAt.atEnd (h : g.ReadyAt f b pos v) : g.AtEnd f b v := by
  refine Value.Within.mono h fun i hi => ?_
  rcases hi with hi | ⟨d, -, hi⟩
  · exact ⟨b, List.mem_of_mem_take hi, .refl g b⟩
  · exact ⟨d, hi⟩

theorem AtEnd.readyAt (h : g.AtEnd f b v) : g.ReadyAt f b (f.body b).length v := by
  refine Value.Within.mono h fun i hi => ?_
  obtain ⟨d, hi, hd⟩ := hi
  by_cases hdb : d = b
  · subst hdb
    exact .inl (by rwa [List.take_length])
  · exact .inr ⟨d, hdb, hi, hd⟩

theorem ReadyAt.mono {pos' : Nat} (h : g.ReadyAt f b pos v)
    (hsub : ∀ j ∈ (f.body b).take pos, j ∈ (f'.body b).take pos')
    (hmem : ∀ d, ∀ j ∈ f.body d, j ∈ f'.body d) : g.ReadyAt f' b pos' v :=
  Value.Within.mono h fun j hj => hj.imp (hsub j) fun ⟨d, hne, hj, hd⟩ => ⟨d, hne, hmem d j hj, hd⟩

/-! ## More code -/

/-- The code of `f'` is that of `f` with more instructions. -/
structure Widens (f f' : Func) : Prop where
  size : f.insts.size ≤ f'.insts.size
  inst : ∀ i < f.insts.size, f'.inst i = f.inst i
  blocks : f'.blocks.size = f.blocks.size
  layout : f'.layout = f.layout
  params : f'.params = f.params
  term : ∀ b, f'.term b = f.term b
  body : ∀ b, (f.body b).Sublist (f'.body b)
  old : ∀ b, ∀ i ∈ f'.body b, i < f.insts.size → i ∈ f.body b

theorem Widens.refl (f : Func) : f.Widens f where
  size := Nat.le_refl _
  inst _ _ := rfl
  blocks := rfl
  layout := rfl
  params := rfl
  term _ := rfl
  body _ := .refl _
  old _ _ h _ := h

section Widens

variable (he : f.Widens f')

include he

theorem Widens.trans {f'' : Func} (k : f'.Widens f'') : f.Widens f'' where
  size := Nat.le_trans he.size k.size
  inst i hi := (k.inst i (Nat.lt_of_lt_of_le hi he.size)).trans (he.inst i hi)
  blocks := k.blocks.trans he.blocks
  layout := k.layout.trans he.layout
  params := k.params.trans he.params
  term b := (k.term b).trans (he.term b)
  body b := (he.body b).trans (k.body b)
  old b i h hi := he.old b i (k.old b i h (Nat.lt_of_lt_of_le hi he.size)) hi

theorem AtEnd.widen (h : g.AtEnd f b v) : g.AtEnd f' b v :=
  h.mono fun _ ⟨d, hi, hd⟩ => ⟨d, (he.body d).subset hi, hd⟩

theorem Before.widen (h : g.Before f b i v) : g.Before f' b i v :=
  h.mono fun _ hj => hj.imp (fun hs => hs.trans (he.body b))
    fun ⟨d, hne, hj, hd⟩ => ⟨d, hne, (he.body d).subset hj, hd⟩

theorem Widens.defines (hv : f.Defines v) : f'.Defines v := hv.mono he.size

theorem Widens.typeOf (hv : f.Defines v) : f'.typeOf v = f.typeOf v := by
  cases v with
  | const c => rfl
  | param k =>
    show f'.params[k]?.getD .void = f.params[k]?.getD .void
    rw [he.params]
  | inst i =>
    show (f'.inst i).ty = (f.inst i).ty
    rw [he.inst i hv]

theorem Widens.map_typeOf {args : List Value} (ha : ∀ v ∈ args, f.Defines v) :
    args.map f'.typeOf = args.map f.typeOf :=
  List.map_congr_left fun v hv => he.typeOf (ha v hv)

theorem Widens.typed {d : Instr} (hd : d.Typed f) (hdef : ∀ v ∈ d.inputs, f.Defines v)
    (hm : d.mask = none) : d.Typed f' where
  uses := hd.uses
  mask v hv := by
    rw [hm] at hv
    cases hv
  phi incoming hop := by
    obtain ⟨h1, h2⟩ := hd.phi incoming hop
    refine ⟨h1, fun e hmem => ?_⟩
    rw [he.typeOf (hdef e.2 ?_)]
    · exact h2 e hmem
    · rw [Instr.inputs, hop]
      exact List.mem_map.mpr ⟨e, hmem, rfl⟩
  apply code args hop := by
    rw [he.map_typeOf fun v hv => hdef v (by rw [Instr.inputs, hop]; exact hv)]
    exact hd.apply code args hop

end Widens

theorem widens_insertAt (f : Func) (b : BlockId) (pos : Nat) (d : Instr) :
    f.Widens (f.insertAt b pos d).2 where
  size := by rw [size_insts_insertAt]; exact Nat.le_succ _
  inst i hi := by rw [inst_insertAt, if_neg (Nat.ne_of_lt hi)]
  blocks := size_blocks_insertAt f b pos d
  layout := rfl
  params := rfl
  term := term_insertAt f b pos d
  body c := by
    rw [body_insertAt_eq]
    split
    · rename_i h
      obtain ⟨rfl, -⟩ := h
      exact List.sublist_insertIdx _ _ _
    · exact .refl _
  old c i h hi := by
    rcases mem_body_insertAt f h with h | ⟨rfl, -⟩
    · exact h
    · exact absurd hi (Nat.lt_irrefl _)

/-! ## Inserting an operation -/

theorem insertIdx_eq {α : Type} {l : List α} (x : α) (h : pos ≤ l.length) :
    l.insertIdx pos x = l.take pos ++ x :: l.drop pos := by
  induction l generalizing pos with
  | nil =>
    obtain rfl := Nat.le_zero.mp h
    rfl
  | cons y l ih =>
    cases pos with
    | zero => rfl
    | succ pos => rw [List.insertIdx_succ_cons, ih (Nat.le_of_succ_le_succ h)]; rfl

/-- Where an operation may be inserted into a block. -/
structure IsSlot (f : Func) (b : BlockId) (pos : Nat) : Prop where
  lt : b < f.blocks.size
  phis : (f.phis b).length ≤ pos
  le : pos ≤ (f.body b).length

/-- Something may be inserted at the end of a block. -/
theorem isSlot_end (hb : b < f.blocks.size) : f.IsSlot b (f.body b).length where
  lt := hb
  phis := by
    conv_rhs => rw [← f.phis_append_nonPhis b]
    rw [List.length_append]
    exact Nat.le_add_right _ _
  le := Nat.le_refl _

/-- An operation without effects whose operands are typed and available. -/
structure Admits (g f : Func) (b : BlockId) (pos : Nat) (code : Opcode) (args : List Value) (ty : Ty) :
    Prop where
  pure : code.hasSideEffects = false
  typed : code.Typed (args.map f.typeOf) ty
  args : ∀ v ∈ args, v.IsTyped ∧ g.ReadyAt f b pos v

theorem body_insertAt_slot (hs : f.IsSlot b pos) (d : Instr) :
    (f.insertAt b pos d).2.body b = (f.body b).take pos ++ f.insts.size :: (f.body b).drop pos := by
  rw [body_insertAt f b b pos d hs.lt, if_pos rfl, insertIdx_eq _ hs.le]

theorem body_insertAt_of_ne (hb : b < f.blocks.size) (hne : b ≠ c) (pos : Nat) (d : Instr) :
    (f.insertAt b pos d).2.body c = f.body c := by
  rw [body_insertAt f b c pos d hb, if_neg hne]

theorem isPhi_insertAt_of_not_phi (f : Func) (b : BlockId) (pos : Nat) {d : Instr}
    (hd : d.isPhi = false) (i : InstId) : (f.insertAt b pos d).2.isPhi i = f.isPhi i := by
  rw [isPhi_insertAt]
  split
  · rename_i e
    rw [isPhi, f.inst_of_size_le (Nat.le_of_eq e.symm)]
    exact hd
  · rfl

/-- The phis of a block stay in front. -/
theorem phis_of_body {xs ys : List InstId} (hbody : f.body b = xs ++ ys)
    (hxs : ∀ i ∈ xs, f.isPhi i = true) (hys : ∀ i ∈ ys, f.isPhi i = false) :
    f.phis b = xs ∧ f.nonPhis b = ys := by
  unfold phis nonPhis
  rw [hbody, List.takeWhile_append_of_pos hxs, List.dropWhile_append_of_pos hxs]
  cases ys with
  | nil => simp
  | cons y ys =>
    have hy := hys y List.mem_cons_self
    simp [hy]

/-- The phis of a block, and what stands between them and a slot. -/
theorem take_slot (hs : f.IsSlot b pos) :
    (f.body b).take pos = f.phis b ++ (f.nonPhis b).take (pos - (f.phis b).length) := by
  conv_lhs => rw [← f.phis_append_nonPhis b]
  rw [List.take_append, List.take_of_length_le hs.phis]

theorem drop_slot (hs : f.IsSlot b pos) :
    (f.body b).drop pos = (f.nonPhis b).drop (pos - (f.phis b).length) := by
  conv_lhs => rw [← f.phis_append_nonPhis b]
  rw [List.drop_append, List.drop_of_length_le hs.phis, List.nil_append]

theorem phis_insertAt (hf : ∀ b, ∀ i ∈ f.nonPhis b, f.isPhi i = false) (hs : f.IsSlot b pos)
    {d : Instr} (hd : d.isPhi = false) (c : BlockId) :
    (f.insertAt b pos d).2.phis c = f.phis c ∧
      ∀ i ∈ (f.insertAt b pos d).2.nonPhis c, f.isPhi i = false := by
  have hphi := f.isPhi_insertAt_of_not_phi b pos hd
  by_cases hbc : b = c
  · subst hbc
    have hbody := body_insertAt_slot hs d
    rw [take_slot hs, drop_slot hs, List.append_assoc] at hbody
    have hrest : ∀ i ∈ (f.nonPhis b).take (pos - (f.phis b).length) ++
        f.insts.size :: (f.nonPhis b).drop (pos - (f.phis b).length), f.isPhi i = false := by
      intro i hi
      rcases List.mem_append.mp hi with hi | hi
      · exact hf b i (List.mem_of_mem_take hi)
      rcases List.mem_cons.mp hi with rfl | hi
      · rw [isPhi, f.inst_of_size_le (Nat.le_refl _)]
        rfl
      · exact hf b i (List.mem_of_mem_drop hi)
    obtain ⟨h1, h2⟩ := phis_of_body hbody
      (fun i hi => (hphi i).trans (isPhi_of_mem_phis hi)) fun i hi => (hphi i).trans (hrest i hi)
    exact ⟨h1, fun i hi => hrest i (h2 ▸ hi)⟩
  · have hbody := body_insertAt_of_ne hs.lt hbc pos d
    have hsplit := (f.phis_append_nonPhis c).symm
    obtain ⟨h1, h2⟩ := phis_of_body (hbody.trans hsplit)
      (fun i hi => (hphi i).trans (isPhi_of_mem_phis hi)) fun i hi => (hphi i).trans (hf c i hi)
    exact ⟨h1, fun i hi => hf c i (h2 ▸ hi)⟩

theorem IsSlot.insertAt (hf : ∀ b, ∀ i ∈ f.nonPhis b, f.isPhi i = false) (hs : f.IsSlot b pos)
    {d : Instr} (hd : d.isPhi = false) : (f.insertAt b pos d).2.IsSlot b (pos + 1) where
  lt := by
    rw [size_blocks_insertAt]
    exact hs.lt
  phis := by
    rw [(phis_insertAt hf hs hd b).1]
    exact Nat.le_succ_of_le hs.phis
  le := by
    have := hs.le
    rw [body_insertAt_slot hs]
    simp
    omega

theorem ReadyAt.insertAt (hs : f.IsSlot b pos) (d : Instr) (h : g.ReadyAt f b pos v) :
    g.ReadyAt (f.insertAt b pos d).2 b (pos + 1) v := by
  refine h.mono (fun j hj => ?_) fun c j hj => mem_body_insertAt_of_mem f hj
  rw [body_insertAt_slot hs, List.take_append]
  exact List.mem_append_left _ (by rwa [List.take_take, Nat.min_eq_right (Nat.le_succ _)])

theorem readyAt_insertAt_self (hs : f.IsSlot b pos) (d : Instr) :
    g.ReadyAt (f.insertAt b pos d).2 b (pos + 1) (.inst f.insts.size) := by
  refine .inl ?_
  rw [body_insertAt_slot hs, List.take_append, List.length_take, Nat.min_eq_left hs.le,
    Nat.add_sub_cancel_left]
  simp

theorem Supports.mem_phis_iff (h : g.Supports f) : i ∈ f.phis b ↔ i ∈ f.body b ∧ f.isPhi i = true := by
  refine ⟨fun hi => ⟨mem_body_of_mem_phis hi, isPhi_of_mem_phis hi⟩, fun ⟨hi, hphi⟩ => ?_⟩
  rw [← f.phis_append_nonPhis b] at hi
  rcases List.mem_append.mp hi with hi | hi
  · exact hi
  · rw [h.phisFirst b i hi] at hphi
    cases hphi

theorem Supports.mem_nonPhis_iff (h : g.Supports f) :
    i ∈ f.nonPhis b ↔ i ∈ f.body b ∧ f.isPhi i = false := by
  refine ⟨fun hi => ⟨mem_body_of_mem_nonPhis hi, h.phisFirst b i hi⟩, fun ⟨hi, hphi⟩ => ?_⟩
  rw [← f.phis_append_nonPhis b] at hi
  rcases List.mem_append.mp hi with hi | hi
  · rw [isPhi_of_mem_phis hi] at hphi
    cases hphi
  · exact hi

/-- Code with more instructions is supported if the new ones are. -/
theorem Supports.widen (h : g.Supports f) (he : f.Widens f') (hc : f'.Coherent)
    (hn : ∀ b, (f'.body b).Nodup) (hp : ∀ b, ∀ i ∈ f'.nonPhis b, f'.isPhi i = false)
    (hnew : ∀ b, ∀ i ∈ f'.body b, f.insts.size ≤ i → (f'.inst i).Typed f' ∧ (f'.inst i).mask = none)
    (huse : ∀ b, ∀ i ∈ f'.body b, f.insts.size ≤ i → f'.isPhi i = false → ∀ v ∈ (f'.inst i).inputs,
      g.Before f' b i v)
    (hphi : ∀ b, ∀ phi ∈ f'.phis b, f.insts.size ≤ phi → (f'.inst phi).incoming = []) :
    g.Supports f' where
  coherent := hc
  typed := by
    refine ⟨fun b i hi => ?_, fun b v x y hv => ?_⟩
    · by_cases hlt : i < f.insts.size
      · have hi := he.old b i hi hlt
        rw [he.inst i hlt]
        exact he.typed (h.typed.inst b i hi) (h.coherent.inputs i) (h.noMask b i hi)
      · exact (hnew b i hi (Nat.le_of_not_lt hlt)).1
    · rw [he.term] at hv
      rw [he.typeOf (h.coherent.defines_cond hv)]
      exact h.typed.cond b v x y hv
  noMask b i hi := by
    by_cases hlt : i < f.insts.size
    · rw [he.inst i hlt]
      exact h.noMask b i (he.old b i hi hlt)
    · exact (hnew b i hi (Nat.le_of_not_lt hlt)).2
  nodup := hn
  phisFirst := hp
  uses b hb i hi hphi v hv := by
    by_cases hlt : i < f.insts.size
    · rw [isPhi, he.inst i hlt] at hphi
      rw [he.inst i hlt] at hv
      exact (h.uses b hb i (he.old b i hi hlt) hphi v hv).widen he
    · exact huse b i hi (Nat.le_of_not_lt hlt) hphi v hv
  entries b hb phi hmem e hin hr := by
    by_cases hlt : phi < f.insts.size
    · have hbody := he.old b phi (mem_body_of_mem_phis hmem) hlt
      have htrue := isPhi_of_mem_phis hmem
      rw [isPhi, he.inst phi hlt] at htrue
      rw [he.inst phi hlt] at hin
      exact (h.entries b hb phi (h.mem_phis_iff.mpr ⟨hbody, htrue⟩) e hin hr).widen he
    · rw [hphi b phi hmem (Nat.le_of_not_lt hlt)] at hin
      cases hin
  exit b hb v hv := by
    rw [he.term] at hv
    exact (h.exit b hb v hv).widen he

theorem Supports.regraph {g' : Func} (h : g.Supports f) (hr : ∀ b, g'.Reachable b → g.Reachable b)
    (hd : ∀ a b, g.Dominates a b → g'.Dominates a b) : g'.Supports f where
  coherent := h.coherent
  typed := h.typed
  noMask := h.noMask
  nodup := h.nodup
  phisFirst := h.phisFirst
  uses b hb i hi hphi v hv := (h.uses b (hr b hb) i hi hphi v hv).regraph hd
  entries b hb phi hphi e he hre := (h.entries b (hr b hb) phi hphi e he (hr e.1 hre)).regraph hd
  exit b hb v hv := (h.exit b (hr b hb) v hv).regraph hd

/-- Phis of before are phis. -/
theorem Supports.mem_phis_widen (h : g.Supports f) (h' : g.Supports f') (he : f.Widens f')
    (hi : i < f.insts.size) : i ∈ f'.phis b ↔ i ∈ f.phis b := by
  rw [h'.mem_phis_iff, h.mem_phis_iff, isPhi, he.inst i hi]
  exact and_congr_left fun _ => ⟨fun hmem => he.old b i hmem hi, fun hmem => (he.body b).subset hmem⟩

/-- A function with an operation inserted. -/
def insertOp (f : Func) (b : BlockId) (pos : Nat) (code : Opcode) (args : List Value) (ty : Ty) :
    Func :=
  (f.insertAt b pos { op := .apply code args, ty, block := b }).2

variable {code : Opcode} {args : List Value} {ty : Ty}

@[simp] theorem size_insertOp : (f.insertOp b pos code args ty).insts.size = f.insts.size + 1 :=
  size_insts_insertAt _ _ _ _

theorem inst_insertOp_self : (f.insertOp b pos code args ty).inst f.insts.size =
    { op := .apply code args, ty, block := b } := by
  rw [insertOp, inst_insertAt, if_pos rfl]

theorem widens_insertOp (f : Func) (b : BlockId) (pos : Nat) (code : Opcode) (args : List Value)
    (ty : Ty) : f.Widens (f.insertOp b pos code args ty) :=
  widens_insertAt _ _ _ _

theorem of_mem_body_insertOp (h : i ∈ (f.insertOp b pos code args ty).body c)
    (hi : f.insts.size ≤ i) (hf : f.Coherent) : i = f.insts.size ∧ b = c := by
  rcases mem_body_insertAt f h with h | ⟨rfl, rfl⟩
  · exact absurd (hf.body_lt c i h) (Nat.not_lt.mpr hi)
  · exact ⟨rfl, rfl⟩

/-- Code stays supported when an operation is inserted whose operands are available. -/
theorem Supports.insertOp (h : g.Supports f) (hs : f.IsSlot b pos)
    (hadmits : g.Admits f b pos code args ty) : g.Supports (f.insertOp b pos code args ty) := by
  have he := f.widens_insertOp b pos code args ty
  have hdef : ∀ v ∈ args, f.Defines v := fun v hv => (hadmits.args v hv).2.atEnd.defines h.coherent
  refine h.widen he (h.coherent.insertAt hdef) (h.coherent.placed_body.nodup_insertAt h.nodup b pos _)
    (fun c i hi => ?_) (fun c i hi hle => ?_) (fun c i hi hle _ v hv => ?_) fun c phi hphi hle => ?_
  · rw [Func.insertOp, isPhi_insertAt_of_not_phi f b pos rfl]
    exact (phis_insertAt h.phisFirst hs rfl c).2 i hi
  · obtain ⟨rfl, rfl⟩ := of_mem_body_insertOp hi hle h.coherent
    rw [inst_insertOp_self]
    refine ⟨?_, rfl⟩
    constructor
    case uses =>
      intro v hv
      exact (hadmits.args v (by simpa [Instr.uses, Instr.inputs, Op.inputs] using hv)).1
    case mask =>
      intro v hv
      cases hv
    case phi =>
      intro incoming hop
      cases hop
    case apply =>
      intro code' args' hop
      cases hop
      rw [he.map_typeOf hdef]
      exact hadmits.typed
  · obtain ⟨rfl, rfl⟩ := of_mem_body_insertOp hi hle h.coherent
    rw [inst_insertOp_self] at hv
    refine Value.Within.mono (hadmits.args v hv).2 fun j hj => ?_
    rcases hj with hj | ⟨d, hne, hj, hd⟩
    · refine .inl ?_
      rw [Func.insertOp, body_insertAt_slot hs]
      exact (List.singleton_sublist.mpr hj).append (List.singleton_sublist.mpr List.mem_cons_self)
    · exact .inr ⟨d, hne, (he.body d).subset hj, hd⟩
  · obtain ⟨rfl, -⟩ := of_mem_body_insertOp (mem_body_of_mem_phis hphi) hle h.coherent
    rw [inst_insertOp_self]
    rfl

/-! ## Adding a phi -/

theorem body_appendPhi (hb : b < f.blocks.size) (ty : Ty) (incoming : List (BlockId × Value)) :
    (f.appendPhi b ty incoming).2.body b = f.phis b ++ f.insts.size :: f.nonPhis b := by
  have hle : f.firstNonPhi b ≤ (f.body b).length := by
    rw [← f.phis_append_nonPhis b, List.length_append, firstNonPhi]
    omega
  rw [appendPhi, body_insertAt f b b _ _ hb, if_pos rfl, insertIdx_eq _ hle]
  conv_lhs => rw [← f.phis_append_nonPhis b]
  rw [firstNonPhi, List.take_left, List.drop_left]

theorem isPhi_appendPhi (i : InstId) (ty : Ty) (incoming : List (BlockId × Value)) :
    (f.appendPhi b ty incoming).2.isPhi i = (decide (i = f.insts.size) || f.isPhi i) := by
  rw [isPhi, appendPhi, inst_insertAt]
  split
  · rename_i e
    simp [e, Instr.isPhi, Op.isPhi]
  · rename_i e
    simp [e, isPhi]

/-- Code stays supported when a phi is added that has no entries yet. -/
theorem Supports.appendPhi (h : g.Supports f) (hb : b < f.blocks.size) (hty : ty.IsPlain) :
    g.Supports (f.appendPhi b ty []).2 ∧
      (∀ c, (f.appendPhi b ty []).2.phis c = f.phis c ++ if b = c then [f.insts.size] else []) := by
  have hbody := body_appendPhi hb ty []
  have hnonPhis : ∀ c, ∀ i ∈ f.nonPhis c, (f.appendPhi b ty []).2.isPhi i = false := by
    intro c i hi
    rw [isPhi_appendPhi, h.phisFirst c i hi, Bool.or_false, decide_eq_false_iff_not]
    exact Nat.ne_of_lt (h.coherent.body_lt c i (mem_body_of_mem_nonPhis hi))
  have hsplit : ∀ c, (f.appendPhi b ty []).2.phis c = (f.phis c ++ if b = c then [f.insts.size] else []) ∧
      (f.appendPhi b ty []).2.nonPhis c = f.nonPhis c := by
    intro c
    refine phis_of_body ?_ (fun i hi => ?_) (hnonPhis c)
    · by_cases hbc : b = c
      · subst hbc
        rw [hbody, if_pos rfl, List.append_assoc]
        rfl
      · rw [if_neg hbc, List.append_nil, f.phis_append_nonPhis, Func.appendPhi,
          body_insertAt_of_ne hb hbc]
    · rw [isPhi_appendPhi]
      rcases List.mem_append.mp hi with hi | hi
      · rw [isPhi_of_mem_phis hi, Bool.or_true]
      · split at hi
        · rw [List.mem_singleton.mp hi, decide_eq_true rfl, Bool.true_or]
        · cases hi
  have hnew : ∀ c, ∀ i ∈ (f.appendPhi b ty []).2.body c, f.insts.size ≤ i →
      (f.appendPhi b ty []).2.inst i = { op := .phi [], ty, block := b } := by
    intro c i hi hle
    rcases mem_body_insertAt f hi with hi | ⟨rfl, rfl⟩
    · exact absurd (h.coherent.body_lt c i hi) (Nat.not_lt.mpr hle)
    · rw [Func.appendPhi, inst_insertAt, if_pos rfl]
  refine ⟨h.widen (f.widens_insertAt b _ _) (h.coherent.insertAt fun v hv => by cases hv)
    (h.coherent.placed_body.nodup_insertAt h.nodup b _ _) (fun c i hi => ?_) (fun c i hi hle => ?_)
    (fun c i hi hle hphi => ?_) fun c phi hphi hle => ?_, fun c => (hsplit c).1⟩
  · exact hnonPhis c i ((hsplit c).2 ▸ hi)
  · rw [hnew c i hi hle]
    refine ⟨?_, rfl⟩
    constructor
    case uses =>
      intro v hv
      cases hv
    case mask =>
      intro v hv
      cases hv
    case phi =>
      intro incoming hop
      cases hop
      exact ⟨hty, fun e he => by cases he⟩
    case apply =>
      intro code' args' hop
      cases hop
  · rw [isPhi, hnew c i hi hle] at hphi
    cases hphi
  · rw [hnew c phi (mem_body_of_mem_phis hphi) hle]
    rfl

end Func

end Lockstep
