import Lockstep.Proofs.Func.Edit
import Mathlib.Data.List.Nodup

/-!
# Edits that keep instructions in place

`Refits f g` says that `g` has the instructions of `f` in the same places, with the same types, and
phis where phis were. Operands, entries of phis and terminators may differ. Renaming predecessors,
changing entries, replacing values and setting terminators are of this kind, and for each of them
the instructions and terminators afterwards are given.
-/

namespace Lockstep

namespace Func

/-- The instructions of two functions stand in the same places. -/
structure Refits (f g : Func) : Prop where
  params : g.params = f.params
  layout : g.layout = f.layout
  size_insts : g.insts.size = f.insts.size
  size_blocks : g.blocks.size = f.blocks.size
  body : ∀ b, g.body b = f.body b
  ty : ∀ i, (g.inst i).ty = (f.inst i).ty
  isPhi : ∀ i, g.isPhi i = f.isPhi i

variable {f g h : Func}

theorem Refits.refl (f : Func) : f.Refits f :=
  ⟨rfl, rfl, rfl, rfl, fun _ => rfl, fun _ => rfl, fun _ => rfl⟩

theorem Refits.trans (h1 : f.Refits g) (h2 : g.Refits h) : f.Refits h where
  params := h2.params.trans h1.params
  layout := h2.layout.trans h1.layout
  size_insts := h2.size_insts.trans h1.size_insts
  size_blocks := h2.size_blocks.trans h1.size_blocks
  body b := (h2.body b).trans (h1.body b)
  ty i := (h2.ty i).trans (h1.ty i)
  isPhi i := (h2.isPhi i).trans (h1.isPhi i)

theorem Refits.phis (h : f.Refits g) (b : BlockId) : g.phis b = f.phis b := by
  unfold Func.phis
  rw [h.body, funext h.isPhi]

theorem Refits.nonPhis (h : f.Refits g) (b : BlockId) : g.nonPhis b = f.nonPhis b := by
  unfold Func.nonPhis
  rw [h.body, funext h.isPhi]

theorem refits_foldl {α : Type} {F : Func → α → Func} (hF : ∀ (f : Func) a, f.Refits (F f a))
    (l : List α) (f : Func) : f.Refits (l.foldl F f) := by
  induction l generalizing f with
  | nil => exact .refl f
  | cons a l ih => exact (hF f a).trans (ih (F f a))

/-! ## Terminators -/

theorem refits_setTerm (f : Func) (b : BlockId) (t : Terminator) : f.Refits (f.setTerm b t) where
  params := rfl
  layout := rfl
  size_insts := rfl
  size_blocks := size_blocks_setTerm f b t
  body c := body_setTerm f b c t
  ty _ := rfl
  isPhi _ := rfl

section

variable {α : Type} {k : α → BlockId} {t : α → Terminator} {l : List α}

theorem term_foldl_setTerm_of_not_mem {b : BlockId} (hb : b ∉ l.map k) (f : Func) :
    (l.foldl (fun f a => f.setTerm (k a) (t a)) f).term b = f.term b := by
  induction l generalizing f with
  | nil => rfl
  | cons a l ih =>
    rw [List.map_cons, List.mem_cons, not_or] at hb
    rw [List.foldl_cons, ih hb.2, term_setTerm_of_ne _ _ (Ne.symm hb.1)]

/-- Terminators set in several blocks. -/
theorem term_foldl_setTerm (hn : (l.map k).Nodup) {a : α} (ha : a ∈ l) (f : Func)
    (hlt : k a < f.blocks.size) :
    (l.foldl (fun f a => f.setTerm (k a) (t a)) f).term (k a) = t a := by
  induction l generalizing f with
  | nil => cases ha
  | cons x l ih =>
    rw [List.map_cons, List.nodup_cons] at hn
    rw [List.foldl_cons]
    rcases List.mem_cons.mp ha with rfl | ha
    · rw [term_foldl_setTerm_of_not_mem hn.1, term_setTerm, if_pos ⟨rfl, hlt⟩]
    · exact ih hn.2 ha _ (by rw [size_blocks_setTerm]; exact hlt)

end

/-! ## Values -/

theorem refits_substUsers (f : Func) {s : Substitution} (hs : s.Idempotent) (us : List User) :
    f.Refits (f.substUsers s us) where
  params := by
    unfold substUsers
    induction us generalizing f with
    | nil => rfl
    | cons u us ih =>
      rw [List.foldl_cons, ih]
      cases u <;> rfl
  layout := layout_substUsers f s us
  size_insts := size_insts_substUsers f s us
  size_blocks := size_blocks_substUsers f s us
  body := body_substUsers f s us
  ty i := by
    rw [inst_substUsers f us hs]
    split <;> rfl
  isPhi i := by
    unfold Func.isPhi
    rw [inst_substUsers f us hs]
    split
    · exact Instr.isPhi_map _ _ _
    · rfl

/-! ## Entries of phis -/

theorem refits_modifyIncoming (f : Func) (i : InstId) (g) : f.Refits (f.modifyIncoming i g) where
  params := rfl
  layout := rfl
  size_insts := size_insts_modifyIncoming f i g
  size_blocks := rfl
  body _ := rfl
  ty j := by
    rw [inst_modifyIncoming]
    split
    · exact ty_mapIncoming g _
    · rfl
  isPhi j := by
    unfold Func.isPhi
    rw [inst_modifyIncoming]
    split
    · exact isPhi_mapIncoming g _
    · rfl

variable {α : Type} {k : α → InstId}
  {G : α → List (BlockId × Value) → List (BlockId × Value)} {l : List α}

theorem inst_foldl_modifyIncoming_of_not_mem {j : InstId} (hj : j ∉ l.map k) (f : Func) :
    (l.foldl (fun f a => f.modifyIncoming (k a) (G a)) f).inst j = f.inst j := by
  induction l generalizing f with
  | nil => rfl
  | cons a l ih =>
    rw [List.map_cons, List.mem_cons, not_or] at hj
    rw [List.foldl_cons, ih hj.2, inst_modifyIncoming, if_neg (Ne.symm hj.1)]

/-- Entries changed in several phis. -/
theorem inst_foldl_modifyIncoming (hn : (l.map k).Nodup) {a : α} (ha : a ∈ l) (f : Func) :
    (l.foldl (fun f a => f.modifyIncoming (k a) (G a)) f).inst (k a) =
      mapIncoming (G a) (f.inst (k a)) := by
  induction l generalizing f with
  | nil => cases ha
  | cons x l ih =>
    rw [List.map_cons, List.nodup_cons] at hn
    rw [List.foldl_cons]
    rcases List.mem_cons.mp ha with rfl | ha
    · rw [inst_foldl_modifyIncoming_of_not_mem hn.1, inst_modifyIncoming, if_pos rfl]
    · have hne : k x ≠ k a := fun e => hn.1 (by rw [e]; exact List.mem_map_of_mem ha)
      rw [ih hn.2 ha, inst_modifyIncoming, if_neg hne]

theorem term_foldl_modifyIncoming (l : List α) (f : Func) (b : BlockId) :
    (l.foldl (fun f a => f.modifyIncoming (k a) (G a)) f).term b = f.term b := by
  induction l generalizing f with
  | nil => rfl
  | cons a l ih => rw [List.foldl_cons, ih, term_modifyIncoming]

theorem refits_replacePhiPred (f : Func) (b old new : BlockId) :
    f.Refits (f.replacePhiPred b old new) :=
  refits_foldl (fun f _ => f.refits_modifyIncoming _ _) _ f

@[simp] theorem term_replacePhiPred (f : Func) (b old new c : BlockId) :
    (f.replacePhiPred b old new).term c = f.term c :=
  term_foldl_modifyIncoming (k := id) _ f c

/-- Entries with one predecessor renamed. -/
def renameEntry (old new : BlockId) (incoming : List (BlockId × Value)) :
    List (BlockId × Value) :=
  incoming.map fun (c, v) => (if c = old then new else c, v)

theorem inst_replacePhiPred {b : BlockId} (hn : (f.body b).Nodup) (old new : BlockId)
    (j : InstId) : (f.replacePhiPred b old new).inst j =
      if j ∈ f.phis b then mapIncoming (renameEntry old new) (f.inst j) else f.inst j := by
  have hphis : ((f.phis b).map id).Nodup := by
    rw [List.map_id]
    exact hn.sublist (List.takeWhile_sublist _)
  split
  · rename_i hj
    exact inst_foldl_modifyIncoming (k := id) (G := fun _ => renameEntry old new) hphis hj f
  · rename_i hj
    exact inst_foldl_modifyIncoming_of_not_mem (k := id) (by rwa [List.map_id]) f

theorem refits_foldl_replacePhiPred (old new : BlockId) (ts : List BlockId) (f : Func) :
    f.Refits (ts.foldl (fun f b => f.replacePhiPred b old new) f) :=
  refits_foldl (fun f b => f.refits_replacePhiPred b old new) ts f

theorem term_foldl_replacePhiPred (old new : BlockId) (ts : List BlockId) (f : Func) (b : BlockId) :
    (ts.foldl (fun f b => f.replacePhiPred b old new) f).term b = f.term b :=
  List.foldlRecOn (motive := fun g : Func => g.term b = f.term b) _ _ rfl
    fun g hg x _ => (g.term_replacePhiPred x old new b).trans hg

theorem renameEntry_comp_self (old new : BlockId) :
    renameEntry old new ∘ renameEntry old new = renameEntry old new := by
  funext incoming
  unfold renameEntry
  rw [Function.comp_apply, List.map_map]
  refine List.map_congr_left fun e _ => ?_
  by_cases he : e.1 = old
  · simp [he]
  · simp [he]

theorem mapIncoming_mapIncoming (g h : List (BlockId × Value) → List (BlockId × Value)) (d : Instr) :
    mapIncoming g (mapIncoming h d) = mapIncoming (g ∘ h) d := by
  unfold mapIncoming
  cases hop : d.op with
  | phi incoming => rfl
  | apply code args => simp [hop]

/-- A predecessor renamed in the phis of several blocks. -/
theorem inst_foldl_replacePhiPred (old new : BlockId) (ts : List BlockId)
    (hn : ∀ b, (f.body b).Nodup) (j : InstId) :
    (ts.foldl (fun f b => f.replacePhiPred b old new) f).inst j =
      if ∃ b ∈ ts, j ∈ f.phis b then mapIncoming (renameEntry old new) (f.inst j)
      else f.inst j := by
  induction ts generalizing f with
  | nil => exact (if_neg (by simp)).symm
  | cons b ts ih =>
    have hr := f.refits_replacePhiPred b old new
    have hn' : ∀ x, ((f.replacePhiPred b old new).body x).Nodup := fun x => by
      rw [hr.body]
      exact hn x
    rw [List.foldl_cons, ih hn', inst_replacePhiPred (hn b)]
    simp only [hr.phis, List.exists_mem_cons_iff]
    by_cases hb : j ∈ f.phis b
    · by_cases hts : ∃ x ∈ ts, j ∈ f.phis x
      · rw [if_pos hts, if_pos hb, if_pos (.inl hb), mapIncoming_mapIncoming,
          renameEntry_comp_self]
      · rw [if_neg hts, if_pos hb, if_pos (.inl hb)]
    · by_cases hts : ∃ x ∈ ts, j ∈ f.phis x
      · rw [if_pos hts, if_neg hb, if_pos (.inr hts)]
      · rw [if_neg hts, if_neg hb, if_neg (not_or.mpr ⟨hb, hts⟩)]

/-! ## Looking up entries -/

theorem map_fst_renameEntry (old new : BlockId) (incoming : List (BlockId × Value)) :
    (renameEntry old new incoming).map Prod.fst =
      (incoming.map Prod.fst).map fun x => if x = old then new else x := by
  unfold renameEntry
  rw [List.map_map, List.map_map]
  rfl

/-- Renaming a predecessor confuses no two, unless one has the new name. -/
theorem eq_of_renamed_eq {old new x y : BlockId} (hx : x ≠ new) (hy : y ≠ new)
    (h : (if x = old then new else x) = if y = old then new else y) : x = y := by
  grind

/-- Setting an entry that there is keeps the predecessors. -/
theorem map_fst_setEntry {incoming : List (BlockId × Value)} {pred : BlockId} (v : Value)
    (h : pred ∈ incoming.map Prod.fst) :
    (setEntry incoming pred v).map Prod.fst = incoming.map Prod.fst := by
  induction incoming with
  | nil => cases h
  | cons e rest ih =>
    unfold setEntry
    split
    · rfl
    · rename_i hne
      rw [List.map_cons, List.map_cons, ih (((List.mem_cons.mp h).resolve_left fun e => hne e.symm))]

theorem lookup_renameEntry_of_ne {old new q : BlockId} (h1 : q ≠ old) (h2 : q ≠ new)
    (incoming : List (BlockId × Value)) :
    (renameEntry old new incoming).lookup q = incoming.lookup q := by
  induction incoming with
  | nil => rfl
  | cons e rest ih =>
    obtain ⟨c, v⟩ := e
    unfold renameEntry at ih ⊢
    rw [List.map_cons, List.lookup_cons, List.lookup_cons, ih]
    by_cases hc : c = old
    · subst hc
      simp only [if_true, beq_eq_false_iff_ne.mpr h1, beq_eq_false_iff_ne.mpr h2]
    · simp only [if_neg hc]

/-- The renamed predecessor has the entry, if the new one had none. -/
theorem lookup_renameEntry {old new : BlockId} {incoming : List (BlockId × Value)}
    (h : new ∉ incoming.map Prod.fst) :
    (renameEntry old new incoming).lookup new = incoming.lookup old := by
  induction incoming with
  | nil => rfl
  | cons e rest ih =>
    obtain ⟨c, v⟩ := e
    rw [List.map_cons, List.mem_cons, not_or] at h
    unfold renameEntry at ih ⊢
    rw [List.map_cons, List.lookup_cons, List.lookup_cons, ih h.2]
    by_cases hc : c = old
    · subst hc
      simp
    · have h1 : (new == c) = false := beq_eq_false_iff_ne.mpr h.1
      have h2 : (old == c) = false := beq_eq_false_iff_ne.mpr fun e => hc e.symm
      simp only [if_neg hc, h1, h2]

/-- Entries whose predecessors and values are renamed, if no two predecessors get one name. -/
theorem lookup_map_entries {β : BlockId → BlockId} {σ : Value → Value} {q : BlockId}
    {incoming : List (BlockId × Value)}
    (hβ : ∀ c ∈ incoming.map Prod.fst, β q = β c → q = c) :
    (incoming.map fun e => (β e.1, σ e.2)).lookup (β q) = (incoming.lookup q).map σ := by
  induction incoming with
  | nil => rfl
  | cons e rest ih =>
    obtain ⟨c, v⟩ := e
    rw [List.map_cons, List.lookup_cons, List.lookup_cons,
      ih fun x hx => hβ x (List.mem_cons_of_mem _ hx)]
    by_cases hq : q = c
    · subst hq
      simp
    · have h1 : (β q == β c) = false :=
        beq_eq_false_iff_ne.mpr fun e => hq (hβ c List.mem_cons_self e)
      have h2 : (q == c) = false := beq_eq_false_iff_ne.mpr hq
      simp only [h1, h2]

/-- Entries whose values are renamed. -/
theorem lookup_map_values (σ : Value → Value) (q : BlockId) (incoming : List (BlockId × Value)) :
    (incoming.map fun e => (id e.1, σ e.2)).lookup q = (incoming.lookup q).map σ :=
  @lookup_map_entries id σ q incoming fun _ _ e => e

theorem incoming_map (d : Instr) (β : BlockId → BlockId) (σ : Value → Value) :
    (d.map β σ).incoming = d.incoming.map fun e => (β e.1, σ e.2) := by
  obtain ⟨op, ty, mask, b⟩ := d
  cases op <;> rfl

end Func

end Lockstep
