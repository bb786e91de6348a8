import Lockstep.Proofs.Func.Placed

/-!
# Functions with more instructions

`Extends f f'` says that `f'` is `f` with instructions inserted that are no phis: what was there is
unchanged. Every builder that inserts operations extends its function, and keeps it coherent if its
operands exist (`Built`).
-/

namespace Lockstep

namespace Func

/-- `f'` is `f` with operations inserted into its blocks. -/
structure Extends (f f' : Func) : Prop where
  size : f.insts.size ≤ f'.insts.size
  inst : ∀ i < f.insts.size, f'.inst i = f.inst i
  blocks : f'.blocks.size = f.blocks.size
  layout : f'.layout = f.layout
  params : f'.params = f.params
  term : ∀ b, f'.term b = f.term b
  body : ∀ b, (f.body b).Sublist (f'.body b)
  old : ∀ b, ∀ i ∈ f'.body b, i < f.insts.size → i ∈ f.body b
  fresh : ∀ i, f.insts.size ≤ i → f'.isPhi i = false
  keepsMasks : f.KeepsMasks f'
  listsOnce : f.ListsOnce → f'.ListsOnce

variable {f f' f'' : Func}

theorem Extends.refl (f : Func) : f.Extends f where
  size := Nat.le_refl _
  inst _ _ := rfl
  blocks := rfl
  layout := rfl
  params := rfl
  term _ := rfl
  body _ := List.Sublist.refl _
  old _ _ h _ := h
  fresh i hi := by
    rw [isPhi, f.inst_of_size_le hi]
    rfl
  keepsMasks := .refl f
  listsOnce h := h

theorem Extends.isPhi (h : f.Extends f') (i : InstId) : f'.isPhi i = f.isPhi i := by
  by_cases hi : i < f.insts.size
  · rw [Func.isPhi, Func.isPhi, h.inst i hi]
  · have hi := Nat.le_of_not_lt hi
    rw [h.fresh i hi, (Extends.refl f).fresh i hi]

theorem Extends.trans (h : f.Extends f') (k : f'.Extends f'') : f.Extends f'' where
  size := Nat.le_trans h.size k.size
  inst i hi := (k.inst i (Nat.lt_of_lt_of_le hi h.size)).trans (h.inst i hi)
  blocks := k.blocks.trans h.blocks
  layout := k.layout.trans h.layout
  params := k.params.trans h.params
  term b := (k.term b).trans (h.term b)
  body b := (h.body b).trans (k.body b)
  old b i hi hlt := h.old b i (k.old b i hi (Nat.lt_of_lt_of_le hlt h.size)) hlt
  fresh i hi := (k.isPhi i).trans (h.fresh i hi)
  keepsMasks := h.keepsMasks.trans k.keepsMasks
  listsOnce hf := k.listsOnce (h.listsOnce hf)

theorem Extends.insertAt (f : Func) (b : BlockId) (pos : Nat) {d : Instr} (hd : d.isPhi = false)
    (hm : d.mask = none) : f.Extends (f.insertAt b pos d).2 where
  size := by rw [size_insts_insertAt]; exact Nat.le_succ _
  inst i hi := by rw [inst_insertAt, if_neg (Nat.ne_of_lt hi)]
  blocks := size_blocks_insertAt f b pos d
  layout := rfl
  params := rfl
  term c := term_insertAt f b pos d c
  body c := by
    rw [body_insertAt_eq]
    split
    · rename_i hb
      obtain ⟨rfl, -⟩ := hb
      exact List.sublist_insertIdx _ _ _
    · exact List.Sublist.refl _
  old c i hi hlt := by
    rcases mem_body_insertAt f hi with h | ⟨rfl, -⟩
    · exact h
    · exact absurd hlt (Nat.lt_irrefl _)
  fresh i hi := by
    rw [Func.isPhi, inst_insertAt]
    split
    · exact hd
    · rw [f.inst_of_size_le hi]
      rfl
  keepsMasks := f.keepsMasks_insertAt b pos hm
  listsOnce hf := hf.insertAt b pos d

theorem Extends.defines (h : f.Extends f') {v : Value} (hv : f.Defines v) : f'.Defines v :=
  hv.mono h.size

/-- What was attached once is attached in an extension, and of what was there only that. -/
theorem Extends.attached (h : f.Extends f') {i : InstId} (hi : i < f.insts.size) :
    f'.Attached i ↔ f.Attached i := by
  constructor
  · rintro ⟨b, hb⟩
    exact ⟨b, h.old b i hb hi⟩
  · rintro ⟨b, hb⟩
    exact ⟨b, (h.body b).mem hb⟩

end Func

/-! ## Builders -/

/-- What building a value from `b` gives: a value that exists in an extension of the function. -/
structure Built (b : Builder) (r : Value × Builder) : Prop where
  extends_ : b.func.Extends r.2.func
  coherent : r.2.func.Coherent
  defines : r.2.func.Defines r.1

namespace Build

variable {b : Builder} {x y z : Value}

theorem built_pure (hb : b.func.Coherent) (hx : b.func.Defines x) :
    Built b ((pure x : Build Value) b) :=
  ⟨.refl _, hb, hx⟩

theorem built_apply (hb : b.func.Coherent) (code : Opcode) {args : List Value}
    (ha : ∀ v ∈ args, b.func.Defines v) (ty : Ty) : Built b (apply code args ty b) where
  extends_ := .insertAt b.func _ _ rfl rfl
  coherent := hb.insertAt ha
  defines := by
    show b.func.insts.size < (b.func.insertAt _ _ _).2.insts.size
    rw [Func.size_insts_insertAt]
    exact Nat.lt_succ_self _

theorem built_binary (hb : b.func.Coherent) (op : BinOp) (hx : b.func.Defines x)
    (hy : b.func.Defines y) : Built b (binary op x y b) :=
  built_apply hb _ (by simp [hx, hy]) _

theorem built_and (hb : b.func.Coherent) (hx : b.func.Defines x) (hy : b.func.Defines y) :
    Built b (and x y b) := by
  unfold Build.and
  split
  · exact built_pure hb hy
  · split
    · exact built_pure hb hx
    · exact built_binary hb _ hx hy

theorem built_or (hb : b.func.Coherent) (hx : b.func.Defines x) (hy : b.func.Defines y) :
    Built b (or x y b) := by
  unfold Build.or
  split
  · exact built_pure hb hy
  · split
    · exact built_pure hb hx
    · exact built_binary hb _ hx hy

theorem built_not (hb : b.func.Coherent) (hx : b.func.Defines x) : Built b (not x b) := by
  unfold Build.not
  cases x.bool? with
  | some c => exact built_pure hb trivial
  | none => exact built_binary hb _ hx trivial

theorem built_select (hb : b.func.Coherent) (hx : b.func.Defines x) (hy : b.func.Defines y)
    (hz : b.func.Defines z) : Built b (select x y z b) := by
  unfold Build.select
  split
  · exact built_pure hb hy
  · exact built_apply hb _ (by simp [hx, hy, hz]) _

end Build

end Lockstep
