import Lockstep.Proofs.Cfg.Dominance
import Lockstep.Proofs.Func.Coherent
import Mathlib.Data.List.TakeWhile

/-!
# Well-formed functions

A function is well-formed if it is coherent and in static single assignment form: control never
comes back to the entry, every block starts with its phis, a phi has one entry for each predecessor,
and a value is used only where its definition dominates. Only blocks that are reachable count.
`Func.Ssa` is the same without a word on what a phi has for blocks that are no predecessors; no run
reads such an entry.

Where a value is available, its definition has been passed on every path (`AvailableAt.within`).
-/

namespace Lockstep

/-- What a list without repetitions holds stands in one place. -/
theorem notMem_of_nodup_middle {α : Type} {l l' : List α} {a : α} (h : (l ++ a :: l').Nodup) :
    a ∉ l ∧ a ∉ l' := by
  rw [List.nodup_middle, List.nodup_cons, List.mem_append, not_or] at h
  exact h.1

/-- A value that depends on no instructions but those in `S`. -/
def Value.Within (S : InstId → Prop) : Value → Prop
  | .inst i => S i
  | .const _ | .param _ => True

theorem Value.Within.mono {S S' : InstId → Prop} {v : Value} (h : v.Within S)
    (hs : ∀ i, S i → S' i) : v.Within S' := by
  cases v with
  | inst i => exact hs i h
  | _ => trivial

namespace Func

/-- A value that exists depends on no instructions but those there are. -/
theorem Defines.within {f : Func} {v : Value} (h : f.Defines v) : v.Within (· < f.insts.size) := by
  cases v <;> exact h

/-- The instructions of the blocks with `D`. -/
def DefinedIn (f : Func) (D : BlockId → Prop) (i : InstId) : Prop := ∃ d, D d ∧ i ∈ f.body d

/-- Whether a value may be used in a block, after some of its instructions. -/
def AvailableAt (f : Func) (b : BlockId) (before : List InstId) : Value → Prop :=
  Value.Within fun i => i ∈ before ∨ ∃ d, d ≠ b ∧ i ∈ f.body d ∧ f.Dominates d b

/-- A phi has one entry for each predecessor of its block. -/
structure PhiEntries (f : Func) (b : BlockId) (phi : InstId) : Prop where
  nodup : ((f.inst phi).incoming.map Prod.fst).Nodup
  pred : ∀ p ∈ (f.inst phi).incoming.map Prod.fst, b ∈ (f.term p).targets
  complete : ∀ p, f.Reachable p → b ∈ (f.term p).targets →
    p ∈ (f.inst phi).incoming.map Prod.fst

/-- Static single assignment form. -/
structure WellFormed (f : Func) : Prop extends f.Coherent where
  entry_pred : ∀ b, f.entry ∉ (f.term b).targets
  nodup : ∀ b, (f.body b).Nodup
  phis_first : ∀ b, ∀ i ∈ f.nonPhis b, f.isPhi i = false
  entries : ∀ b, f.Reachable b → ∀ phi ∈ f.phis b, f.PhiEntries b phi
  inst : ∀ b, f.Reachable b → ∀ before i after, f.body b = before ++ i :: after →
    f.isPhi i = false → ∀ v ∈ (f.inst i).uses, f.AvailableAt b before v
  phi : ∀ b, f.Reachable b → ∀ phi ∈ f.phis b, ∀ e ∈ (f.inst phi).incoming,
    f.Reachable e.1 → f.AvailableAt e.1 (f.body e.1) e.2
  exit : ∀ b, f.Reachable b → ∀ v ∈ (f.term b).uses, f.AvailableAt b (f.body b) v

/-- A phi has one entry for each predecessor that is reachable. What it has for other blocks is never
read. -/
structure PhiInputs (f : Func) (b : BlockId) (phi : InstId) : Prop where
  nodup : ((f.inst phi).incoming.map Prod.fst).Nodup
  lt : ∀ p ∈ (f.inst phi).incoming.map Prod.fst, p < f.blocks.size
  complete : ∀ p, f.Reachable p → b ∈ (f.term p).targets →
    p ∈ (f.inst phi).incoming.map Prod.fst

/-- Static single assignment form, with phis that may have entries for other blocks than the
predecessors. -/
structure Ssa (f : Func) : Prop extends f.Coherent where
  entry_pred : ∀ b, f.entry ∉ (f.term b).targets
  nodup : ∀ b, (f.body b).Nodup
  phis_first : ∀ b, ∀ i ∈ f.nonPhis b, f.isPhi i = false
  entries : ∀ b, f.Reachable b → ∀ phi ∈ f.phis b, f.PhiInputs b phi
  inst : ∀ b, f.Reachable b → ∀ before i after, f.body b = before ++ i :: after →
    f.isPhi i = false → ∀ v ∈ (f.inst i).uses, f.AvailableAt b before v
  phi : ∀ b, f.Reachable b → ∀ phi ∈ f.phis b, ∀ e ∈ (f.inst phi).incoming,
    f.Reachable e.1 → b ∈ (f.term e.1).targets → f.AvailableAt e.1 (f.body e.1) e.2
  exit : ∀ b, f.Reachable b → ∀ v ∈ (f.term b).uses, f.AvailableAt b (f.body b) v

variable {f : Func}

theorem WellFormed.ssa (hf : f.WellFormed) : f.Ssa :=
  { hf with
    entries := fun b hr phi hphi =>
      have h := hf.entries b hr phi hphi
      ⟨h.nodup, fun p hp => f.lt_of_mem_targets (h.pred p hp), h.complete⟩
    phi := fun b hr phi hphi e he hre _ => hf.phi b hr phi hphi e he hre }

/-- The value that a phi takes is the one of an entry. -/
theorem mem_incoming {phi : InstId} {p : BlockId} {v : Value}
    (h : f.incomingValue? phi p = some v) : (p, v) ∈ (f.inst phi).incoming := by
  obtain ⟨l, l', e, -⟩ := List.lookup_eq_some_iff.mp h
  rw [e]
  exact List.mem_append_right _ List.mem_cons_self

/-- If a phi has one entry for each block, it takes the values of its entries. -/
theorem incomingValue?_of_mem {phi : InstId} {e : BlockId × Value}
    (hn : ((f.inst phi).incoming.map Prod.fst).Nodup) (he : e ∈ (f.inst phi).incoming) :
    f.incomingValue? phi e.1 = some e.2 := by
  unfold incomingValue?
  generalize (f.inst phi).incoming = entries at hn he
  induction entries with
  | nil => cases he
  | cons x rest ih =>
    rw [List.map_cons, List.nodup_cons] at hn
    rcases List.mem_cons.mp he with rfl | he
    · exact List.lookup_cons_self
    · have hne : (e.1 == x.1) = false :=
        beq_eq_false_iff_ne.mpr fun heq => hn.1 (heq ▸ List.mem_map_of_mem he)
      rw [List.lookup_cons, hne]
      exact ih hn.2 he

/-- Along every edge there is a value for a phi. -/
theorem PhiInputs.exists_incomingValue {b p : BlockId} {phi : InstId} (h : f.PhiInputs b phi)
    (hp : f.Reachable p) (hb : b ∈ (f.term p).targets) : ∃ v, f.incomingValue? phi p = some v := by
  obtain ⟨⟨q, v⟩, he, rfl⟩ := List.mem_map.mp (h.complete p hp hb)
  cases hv : f.incomingValue? phi q with
  | some w => exact ⟨w, rfl⟩
  | none => simpa using List.lookup_eq_none_iff.mp hv _ he

/-- Such a function is well-formed if its phis have entries for predecessors only. -/
theorem Ssa.wellFormed (hf : f.Ssa)
    (hpred : ∀ b, f.Reachable b → ∀ phi ∈ f.phis b, ∀ p ∈ (f.inst phi).incoming.map Prod.fst,
      b ∈ (f.term p).targets) : f.WellFormed :=
  { hf with
    entries := fun b hr phi hphi =>
      have h := hf.entries b hr phi hphi
      ⟨h.nodup, hpred b hr phi hphi, h.complete⟩
    phi := fun b hr phi hphi e he hre =>
      hf.phi b hr phi hphi e he hre (hpred b hr phi hphi e.1 (List.mem_map_of_mem he)) }

instance : Coe f.WellFormed f.Ssa := ⟨WellFormed.ssa⟩

theorem DefinedIn.mono {D D' : BlockId → Prop} {i : InstId} (h : f.DefinedIn D i)
    (hd : ∀ d, D d → D' d) : f.DefinedIn D' i := by
  obtain ⟨d, hD, hi⟩ := h
  exact ⟨d, hd d hD, hi⟩

/-- On every path to a block, the definitions of the values available there have been passed. -/
theorem AvailableAt.within {D : BlockId → Prop} {b : BlockId} {before : List InstId} {v : Value}
    (hp : f.Path D f.entry b) (h : f.AvailableAt b before v) :
    v.Within fun i => f.DefinedIn D i ∨ i ∈ before := by
  refine Value.Within.mono h fun i hi => ?_
  rcases hi with hi | ⟨d, hne, hi, hdom⟩
  · exact .inr hi
  · by_cases hD : D d
    · exact .inl ⟨d, hD, hi⟩
    · exact absurd (hdom (hp.mono fun x hx e => hD (e ▸ hx))).symm hne

/-- What is available at the end of a block has been passed once the block has. -/
theorem AvailableAt.within_end {D : BlockId → Prop} {b : BlockId} {v : Value}
    (hp : f.Path D f.entry b) (hb : D b) (h : f.AvailableAt b (f.body b) v) :
    v.Within (f.DefinedIn D) := by
  refine (h.within hp).mono fun i hi => ?_
  rcases hi with hi | hi
  · exact hi
  · exact ⟨b, hb, hi⟩

/-- A block is its phis and then its operations. -/
theorem phis_append_nonPhis (f : Func) (b : BlockId) : f.phis b ++ f.nonPhis b = f.body b :=
  List.takeWhile_append_dropWhile

theorem mem_body_of_mem_phis {b : BlockId} {i : InstId} (h : i ∈ f.phis b) : i ∈ f.body b := by
  rw [← phis_append_nonPhis]
  exact List.mem_append_left _ h

theorem mem_body_of_mem_nonPhis {b : BlockId} {i : InstId} (h : i ∈ f.nonPhis b) :
    i ∈ f.body b := by
  rw [← phis_append_nonPhis]
  exact List.mem_append_right _ h

theorem isPhi_of_mem_phis {b : BlockId} {i : InstId} (h : i ∈ f.phis b) : f.isPhi i = true :=
  List.mem_takeWhile_imp h

/-- The phis of a block stand in front. -/
theorem Ssa.mem_phis (hf : f.Ssa) {b : BlockId} {i : InstId} (hi : i ∈ f.body b)
    (hp : f.isPhi i = true) : i ∈ f.phis b := by
  rw [← phis_append_nonPhis] at hi
  refine (List.mem_append.mp hi).resolve_right fun h => ?_
  rw [hf.phis_first b i h] at hp
  cases hp

/-- What is no phi stands behind them. -/
theorem mem_nonPhis {b : BlockId} {i : InstId} (hi : i ∈ f.body b) (hp : f.isPhi i = false) :
    i ∈ f.nonPhis b := by
  rw [← phis_append_nonPhis] at hi
  refine (List.mem_append.mp hi).resolve_left fun h => ?_
  rw [isPhi_of_mem_phis h] at hp
  cases hp

/-- What an operation uses has been passed when the operations before it have run. -/
theorem Ssa.within_inst (hf : f.Ssa) {D : BlockId → Prop} {b : BlockId}
    (hr : f.Reachable b) (hp : f.Path D f.entry b) {before after : List InstId} {i : InstId}
    (e : f.nonPhis b = before ++ i :: after) {v : Value} (hv : v ∈ (f.inst i).uses) :
    v.Within fun j => (f.DefinedIn D j ∨ j ∈ f.phis b) ∨ j ∈ before := by
  have hi : i ∈ f.nonPhis b := by rw [e]; simp
  have hbody : f.body b = (f.phis b ++ before) ++ i :: after := by
    rw [← phis_append_nonPhis, e, List.append_assoc]
  have h := hf.inst b hr _ i after hbody (hf.phis_first b i hi) v hv
  refine (h.within hp).mono fun j hj => ?_
  rcases hj with hj | hj
  · exact .inl (.inl hj)
  · rcases List.mem_append.mp hj with hj | hj
    · exact .inl (.inr hj)
    · exact .inr hj

/-- An operation uses only instructions that stand in a block. -/
theorem Ssa.attached_of_uses (hf : f.Ssa) {b : BlockId} (hr : f.Reachable b) {i j : InstId}
    (hi : i ∈ f.nonPhis b) (hj : Value.inst j ∈ (f.inst i).uses) : f.Attached j := by
  obtain ⟨before, after, e⟩ := List.append_of_mem (mem_body_of_mem_nonPhis hi)
  rcases hf.inst b hr before i after e (hf.phis_first b i hi) _ hj with h | ⟨d, -, h, -⟩
  · exact ⟨b, by rw [e]; exact List.mem_append_left _ h⟩
  · exact ⟨d, h⟩

/-- An instruction stands in one block only. -/
theorem Coherent.eq_of_mem_body (hf : f.Coherent) {b c : BlockId} {i : InstId}
    (hb : i ∈ f.body b) (hc : i ∈ f.body c) : b = c :=
  (hf.placed b i hb).symm.trans (hf.placed c i hc)

/-! ## The order of what is available -/

/-- Only instructions of blocks are available. -/
theorem AvailableAt.attached {b : BlockId} {before after : List InstId} {i : InstId}
    (e : f.body b = before ++ after) (h : f.AvailableAt b before (.inst i)) : f.Attached i := by
  rcases h with h | ⟨d, -, h, -⟩
  · exact ⟨b, e ▸ List.mem_append_left _ h⟩
  · exact ⟨d, h⟩

/-- What is available in a reachable block stands in one. -/
theorem Coherent.reachable_of_availableAt (hf : f.Coherent) {b c : BlockId} {before after : List InstId}
    {i : InstId} (hr : f.Reachable b) (e : f.body b = before ++ after) (hi : i ∈ f.body c)
    (h : f.AvailableAt b before (.inst i)) : f.Reachable c := by
  rcases h with h | ⟨d, -, hd, hdom⟩
  · exact hf.eq_of_mem_body (e ▸ List.mem_append_left _ h) hi ▸ hr
  · exact hf.eq_of_mem_body hd hi ▸ hdom.reachable hr

/-- An instruction is not available where it stands. -/
theorem Ssa.not_availableAt (hf : f.Ssa) {b : BlockId} {before after : List InstId} {i : InstId}
    (e : f.body b = before ++ i :: after) : ¬ f.AvailableAt b before (.inst i) := by
  rintro (h | ⟨d, hne, h, -⟩)
  · exact (notMem_of_nodup_middle (e ▸ hf.nodup b)).1 h
  · exact hne (hf.eq_of_mem_body h (e ▸ List.mem_append_right _ List.mem_cons_self))

/-- When control comes to a block, no instruction of the block is available. -/
theorem Coherent.not_availableAt_nil (hf : f.Coherent) {b : BlockId} {i : InstId}
    (hi : i ∈ f.body b) : ¬ f.AvailableAt b [] (.inst i) := by
  rintro (h | ⟨d, hne, h, -⟩)
  · cases h
  · exact hne (hf.eq_of_mem_body h hi)

/-- What is available to an available instruction is available as well. -/
theorem Ssa.availableAt_trans (hf : f.Ssa) {b c : BlockId} (hr : f.Reachable b)
    {before after pre post : List InstId} {i : InstId} {v : Value} (eb : f.body b = before ++ after)
    (ec : f.body c = pre ++ i :: post) (hi : f.AvailableAt b before (.inst i))
    (hv : f.AvailableAt c pre v) : f.AvailableAt b before v := by
  have hic : i ∈ f.body c := ec ▸ List.mem_append_right _ List.mem_cons_self
  refine hv.mono fun j hj => ?_
  rcases hi with hi | ⟨d, hne, hid, hdom⟩
  · -- the instruction stands earlier in the same block
    obtain rfl := hf.eq_of_mem_body hic (eb ▸ List.mem_append_left _ hi)
    obtain ⟨x, y, rfl⟩ := List.append_of_mem hi
    obtain ⟨hpre, hpost⟩ := notMem_of_nodup_middle (ec ▸ hf.nodup c)
    rw [ec, List.append_assoc] at eb
    obtain ⟨rfl, -⟩ := (List.append_cons_inj_of_notMem hpre hpost).mp eb
    exact hj.imp_left (List.mem_append_left _)
  · obtain rfl := hf.eq_of_mem_body hic hid
    rcases hj with hj | ⟨d, -, hjd, hdd⟩
    · exact .inr ⟨c, hne, ec ▸ List.mem_append_left _ hj, hdom⟩
    · refine .inr ⟨d, ?_, hjd, hdd.trans hdom⟩
      rintro rfl
      exact hne (Dominates.antisymm hr hdom hdd)

/-- What is available when control has come to a block is available at the end of the block before. -/
theorem AvailableAt.pred {p b : BlockId} {v : Value} (h : f.AvailableAt b [] v)
    (hb : b ∈ (f.term p).targets) : f.AvailableAt p (f.body p) v := by
  refine h.mono fun j hj => ?_
  obtain ⟨d, hne, hjd, hdom⟩ := hj.resolve_left List.not_mem_nil
  by_cases hd : d = p
  · exact .inl (hd ▸ hjd)
  · exact .inr ⟨d, hd, hjd, hdom.pred hne.symm hb⟩

/-- Nothing that an instruction computes is available at the entry. -/
theorem not_availableAt_entry (i : InstId) : ¬ f.AvailableAt f.entry [] (.inst i) := by
  rintro (h | ⟨d, hne, -, hdom⟩)
  · cases h
  · exact hne (hdom (.refl _)).symm

/-- After some more instructions these are available, and what was. -/
theorem availableAt_append {b : BlockId} {before l : List InstId} {i : InstId} :
    f.AvailableAt b (before ++ l) (.inst i) ↔ i ∈ l ∨ f.AvailableAt b before (.inst i) := by
  show _ ∨ _ ↔ _ ∨ _ ∨ _
  rw [List.mem_append]
  tauto

/-- What has been passed on every path through a block is available at its end. -/
theorem Coherent.availableAt_end (hf : f.Coherent) {b : BlockId} (hr : f.Reachable b) {v : Value}
    (h : ∀ D, f.Path D f.entry b → D b → v.Within (f.DefinedIn D)) :
    f.AvailableAt b (f.body b) v := by
  cases v with
  | inst i =>
    obtain ⟨d, -, hi⟩ := h (fun _ => True) hr.path trivial
    by_cases e : d = b
    · exact .inl (e ▸ hi)
    · refine .inr ⟨d, e, hi, fun hp => ?_⟩
      obtain ⟨d', hne, hi'⟩ := h (· ≠ d) hp (Ne.symm e)
      exact absurd (hf.eq_of_mem_body hi' hi) hne
  | const _ | param _ => trivial

/-- The value that a phi takes along an edge is available at the end of its source. -/
theorem Ssa.available_incoming (hf : f.Ssa) {b p : BlockId} (hp : f.Reachable p)
    (hb : b ∈ (f.term p).targets) {phi : InstId} (hphi : phi ∈ f.phis b) {v : Value}
    (hv : f.incomingValue? phi p = some v) : f.AvailableAt p (f.body p) v :=
  hf.phi b (hp.step hb) phi hphi (p, v) (mem_incoming hv) hp hb

/-- Along every edge there is a value for a phi, which is available at the end of its source. -/
theorem Ssa.exists_incoming (hf : f.Ssa) {b p : BlockId} (hp : f.Reachable p)
    (hb : b ∈ (f.term p).targets) {phi : InstId} (hphi : phi ∈ f.phis b) :
    ∃ v, f.incomingValue? phi p = some v ∧ f.AvailableAt p (f.body p) v := by
  obtain ⟨v, hv⟩ := (hf.entries b (hp.step hb) phi hphi).exists_incomingValue hp hb
  exact ⟨v, hv, hf.available_incoming hp hb hphi hv⟩

end Func

end Lockstep
