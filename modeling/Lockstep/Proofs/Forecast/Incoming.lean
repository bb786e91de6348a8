import Lockstep.Proofs.Forecast.Foretold

/-!
# Merging what comes into a block

The values of a phi that come along some edges, merged by the masks of the edges, are known as the phi is
in every lane that takes one of the edges.
-/

namespace Lockstep

variable {ι : Type}

namespace Stage

variable {s s' : Stage} {point next : InsertPoint} {b : BlockId} {v : Value}

theorem knownEdgeMask_eq_ok {p q : BlockId} {m : Value} (e : knownEdgeMask p q s = (.ok m, s')) :
    s.masks.edge? p q = some m ∧ s' = s := by
  unfold knownEdgeMask at e
  obtain ⟨t, u, ht, e⟩ := exists_of_bind_run_eq_ok e
  cases ht
  cases h : s.masks.edge? p q with
  | some mask =>
    simp only [h] at e
    cases e
    exact ⟨rfl, rfl⟩
  | none =>
    simp only [h] at e
    cases e

theorem knownBlockMask_eq_ok {m : Value} (e : knownBlockMask b s = (.ok m, s')) :
    s.masks.block? b = some m ∧ s' = s := by
  unfold knownBlockMask at e
  obtain ⟨t, u, ht, e⟩ := exists_of_bind_run_eq_ok e
  cases ht
  cases h : s.masks.block? b with
  | some mask =>
    simp only [h] at e
    cases e
    exact ⟨rfl, rfl⟩
  | none =>
    simp only [h] at e
    cases e

/-- A merge of values by the masks of their edges, all of which are there. -/
theorem mergeIncoming_eq_ok {incoming : List (BlockId × Value)}
    (e : mergeIncoming point incoming b s = (.ok (v, next), s')) :
    ∃ keyed, List.Forall₂ (fun e k => s.masks.edge? e.1 b = some k.1 ∧ k.2 = e.2) incoming keyed ∧
      merge point keyed s = ((v, next), s') := by
  obtain ⟨keyed, s1, h1, h2⟩ := exists_of_bind_run_eq_ok e
  have hstep : ∀ x ∈ incoming, ∀ (y : Value × Value) (s' : Stage),
      (do return (← knownEdgeMask x.1 b, x.2) : StageM (Value × Value)) s = (.ok y, s') →
      s' = s ∧ s.masks.edge? x.1 b = some y.1 ∧ y.2 = x.2 := by
    intro x _ y s' h
    obtain ⟨m, s2, h3, h4⟩ := exists_of_bind_run_eq_ok h
    obtain ⟨h5, h6⟩ := knownEdgeMask_eq_ok h3
    rw [h6] at h4
    cases h4
    exact ⟨rfl, h5, rfl⟩
  obtain ⟨hall, hs1⟩ := (mapM_run_eq_ok_iff fun x hx y s' h => (hstep x hx y s' h).1).mp h1
  rw [hs1] at h2
  refine ⟨keyed, ?_, ?_⟩
  · exact forall₂_imp_of_mem hall fun x hx y h => (hstep x hx y s h).2
  · have hrun : (liftM (merge point keyed) : StageM (Value × InsertPoint)) s =
        (.ok (merge point keyed s).1, (merge point keyed s).2) := rfl
    rw [show (liftM (merge point keyed) : StageM (Value × InsertPoint)) s = _ from h2] at hrun
    cases hm : merge point keyed s with
    | mk r s2 =>
      rw [hm] at hrun
      cases hrun
      rfl

variable {D : Doings ι} {P : ι → List BlockId} {g : Func} {ways : InstId → Way ι} {S : Value → Prop}
  {K : Knowledge ι} {d : Draft ι} {c : BlockId} {phi : InstId} {incoming : List (BlockId × Value)}
  {f : Func} {ty : Ty}

/-- An entry of a phi whose value is available where control comes from. -/
structure Entry (g f : Func) (ty : Ty) (e : BlockId × Value) : Prop where
  isTyped : e.2.IsTyped
  typeOf : f.typeOf e.2 = ty
  atEnd : g.Reachable e.1 → g.AtEnd f e.1 e.2

theorem isPlain_of_mem_phis (h : g.Supports f) (hphi : phi ∈ f.phis c) : (f.inst phi).ty.IsPlain := by
  have htrue := Func.isPhi_of_mem_phis hphi
  cases hop : (f.inst phi).op with
  | phi entries => exact ((h.typed.inst c phi (Func.mem_body_of_mem_phis hphi)).phi entries hop).1
  | apply code args =>
    rw [Func.isPhi_of_op _ hop] at htrue
    cases htrue

theorem entry_of_mem (h : g.Supports f) (hc : g.Reachable c) (hphi : phi ∈ f.phis c)
    {e : BlockId × Value} (he : e ∈ (f.inst phi).incoming) : Entry g f (f.inst phi).ty e where
  isTyped := (Func.typed_entry (h.typed.inst c phi (Func.mem_body_of_mem_phis hphi)) he).1
  typeOf := (Func.typed_entry (h.typed.inst c phi (Func.mem_body_of_mem_phis hphi)) he).2
  atEnd := h.entries c hc phi hphi e he

/-- Values that come along edges into a block, merged at a place where they are available, are known by
the edge that a lane takes, and where all of them are. -/
theorem exists_merge (hD : D.func.Coherent) (h : Foretold D P g ways d.known s)
    (hB : Builder.On { func := s.func, point } b d) (hd : d.Good ⟨D, g, ways, b, S⟩)
    (hplain : ty.IsPlain) (hentry : ∀ e ∈ incoming, Entry g s.func ty e) (hne : incoming ≠ [])
    (hedge : ∀ e ∈ incoming, s.func.Edge e.1 c)
    (hready : ∀ e ∈ incoming, g.Reachable e.1 → ∀ u, g.AtEnd d.func e.1 u →
      g.ReadyAt d.func b d.pos u ∧ S u)
    (e : mergeIncoming point incoming c s = (.ok (v, next), s')) :
    ∃ d', Builder.On { func := s'.func, point := next } b d' ∧ d'.Good ⟨D, g, ways, b, S⟩ ∧
      d.Later ⟨D, g, ways, b, S⟩ d' ∧ d'.Usable ⟨D, g, ways, b, S⟩ ty v ∧
      Made s s' ∧ Foretold D P g ways d'.known s' ∧
      ∀ l x, (∀ e ∈ incoming, [e.1, c] <:+: P l → d.known.Knows l e.2 x) →
        (∃ e ∈ incoming, [e.1, c] <:+: P l) ∨ (∀ e ∈ incoming, d.known.Knows l e.2 x) →
          d'.known.Knows l v x := by
  obtain ⟨keyed, hkeyed, hmerge⟩ := mergeIncoming_eq_ok e
  have hfunc : s.func = d.func := hB.func
  have hmask : ∀ k ∈ keyed, ∃ e ∈ incoming, s.masks.edge? e.1 c = some k.1 ∧ k.2 = e.2 ∧
      EdgeMask P g s.func d.known e.1 c k.1 := by
    intro k hk
    obtain ⟨e, he, h1, h2⟩ := exists_mem_of_forall₂ hkeyed hk
    exact ⟨e, he, h1, h2, h.edgeMask e.1 c k.1 h1 (hedge e he)⟩
  have hof : ∀ e ∈ incoming, ∃ k ∈ keyed, k.2 = e.2 ∧ EdgeMask P g s.func d.known e.1 c k.1 := by
    intro e he
    obtain ⟨k, hk, h1, h2⟩ := exists_mem_of_forall₂ hkeyed.flip he
    exact ⟨k, hk, h2, h.edgeMask e.1 c k.1 h1 (hedge e he)⟩
  have husable : ∀ k ∈ keyed, d.Usable ⟨D, g, ways, b, S⟩ .bool k.1 ∧
      d.Usable ⟨D, g, ways, b, S⟩ ty k.2 := by
    intro k hk
    obtain ⟨e, he, -, h2, hm⟩ := hmask k hk
    obtain ⟨h3, h4⟩ := hready e he hm.reachable k.1 (hfunc ▸ hm.atEnd)
    have hent := hentry e he
    obtain ⟨h5, h6⟩ := hready e he hm.reachable e.2 (hfunc ▸ hent.atEnd hm.reachable)
    rw [h2]
    exact ⟨⟨hm.isTyped, hfunc ▸ hm.typeOf, h3, h4⟩, ⟨hent.isTyped, hfunc ▸ hent.typeOf, h5, h6⟩⟩
  have hne' : keyed ≠ [] := by
    rintro rfl
    cases hkeyed
    exact hne rfl
  obtain ⟨d', v', next', s2, hrun, hat, hgood, hlater, hu, hmade, huni, hk⟩ :=
    merge_spec hne' hplain hB hd (hfunc ▸ h.uniform) husable
  rw [hmerge] at hrun
  cases hrun
  have hfunc' : s'.func = d'.func := hat.func
  refine ⟨d', hat, hgood, hlater, hu, hmade, ?_, fun l x hx h => ?_⟩
  · exact h.widen hmade (by rw [hfunc, hfunc']; exact hlater.widens) (hfunc ▸ hlater.extends_)
      (hfunc' ▸ hgood.runs) (hfunc' ▸ huni) hD
  · refine hk l x (fun k hk => ?_) ?_
    · obtain ⟨e, he, -, h2, hm⟩ := hmask k hk
      obtain ⟨q, h3, h4⟩ := hm.knows l
      exact ⟨q, h3, fun hq => h2 ▸ hx e he (h4.mp hq)⟩
    · rcases h with ⟨e, he, ht⟩ | h
      · obtain ⟨k, hk, -, hm⟩ := hof e he
        obtain ⟨q, h3, h4⟩ := hm.knows l
        exact .inl ⟨k, hk, h4.mpr ht ▸ h3⟩
      · refine .inr fun k hk => ?_
        obtain ⟨e, he, -, h2, -⟩ := hmask k hk
        exact h2 ▸ h e he

end Stage

end Lockstep
