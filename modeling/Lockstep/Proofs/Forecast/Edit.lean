import Lockstep.Proofs.Forecast.Code

/-!
# Edits of code with known values

The four edits that make a function straight keep what is known of its values: inserting an operation,
of which is known what it yields; adding a phi; changing the entries of a phi; and replacing a phi by a
value of which everything is known that is known of the phi.
-/

namespace Lockstep

variable {ι : Type}

namespace Knowledge

variable {K : Knowledge ι} {f f' : Func} {Q : ι → Scalar → Prop} {l : ι} {i : InstId} {x : Scalar}

/-- What is known stays sure when something is learnt of a new instruction. -/
theorem Sure.learn (h : K.Sure f) (hp : f'.params = f.params)
    (hold : ∀ i, i ≠ f.insts.size → f'.inst i = f.inst i)
    (hty : ∀ l x, Q l x → x.HasTy (f'.inst f.insts.size).ty) (hQ : ∀ l x y, Q l x → Q l y → x = y) :
    (K.learn f.insts.size Q).Sure f' where
  hasTy l i x hx := by
    rcases hx with ⟨rfl, hx⟩ | ⟨hi, hx⟩
    · exact hty l x hx
    · rw [hold i hi]
      exact h.hasTy l i x hx
  unique l i x y hx hy := by
    rcases hx with ⟨rfl, hx⟩ | ⟨hi, hx⟩
    · rcases hy with ⟨-, hy⟩ | ⟨hne, -⟩
      · exact hQ l x y hx hy
      · exact absurd rfl hne
    · rcases hy with ⟨rfl, -⟩ | ⟨-, hy⟩
      · exact absurd rfl hi
      · exact h.unique l i x y hx hy
  arg l k := by
    show (K.arg l k).HasTy (f'.params[k]?.getD .void)
    rw [hp]
    exact h.arg l k

end Knowledge

/-- An entry for a block that has none yet comes last. -/
theorem Func.setEntry_of_not_mem {p : BlockId} {incoming : List (BlockId × Value)}
    (h : p ∉ incoming.map Prod.fst) (v : Value) : Func.setEntry incoming p v = incoming ++ [(p, v)] := by
  induction incoming with
  | nil => rfl
  | cons e rest ih =>
    obtain ⟨c, w⟩ := e
    rw [List.map_cons, List.mem_cons, not_or] at h
    rw [Func.setEntry, if_neg fun e => h.1 e.symm, ih h.2]
    rfl

/-- One more entry, from a block that had none. -/
theorem Knowledge.Enters.setEntry {K : Knowledge ι} {R : BlockId → Prop} {w : Way ι} {phi : InstId}
    {incoming : List (BlockId × Value)} {p : BlockId} {v : Value} {pred : BlockId → Prop}
    (h : K.Enters R w phi incoming) (hp : p ∉ incoming.map Prod.fst)
    (hpred : ∀ q, pred q ↔ w.pred q ∨ q = p)
    (ht : ∀ l, w.taken l p → ∀ x, K.inst l phi x → K.Knows l v x)
    (ha : ∀ l, ¬ w.visited l → ∀ x, K.inst l phi x → K.Knows l v x) :
    K.Enters R { w with pred } phi (Func.setEntry incoming p v) := by
  rw [Func.setEntry_of_not_mem hp]
  refine ⟨?_, fun e he => ?_, fun q hq hw => ?_, fun l e he htaken x hx => ?_, fun l hl e he x hx => ?_⟩
  · rw [List.map_append]
    exact h.nodup.append (List.nodup_singleton p) (List.disjoint_singleton.mpr hp)
  · rcases List.mem_append.mp he with he | he
    · exact (hpred e.1).mpr (.inl (h.pred e he))
    · exact (hpred e.1).mpr (.inr (congrArg Prod.fst (List.mem_singleton.mp he)))
  · rw [List.map_append, List.mem_append]
    exact ((hpred q).mp hw).imp (h.complete q hq) List.mem_singleton.mpr
  · rcases List.mem_append.mp he with he | he
    · exact h.taken l e he htaken x hx
    · obtain rfl := List.mem_singleton.mp he
      exact ht l htaken x hx
  · rcases List.mem_append.mp he with he | he
    · exact h.away l hl e he x hx
    · obtain rfl := List.mem_singleton.mp he
      exact ha l hl x hx

namespace Doings

variable {D : Doings ι} {g f : Func} {ways ways' : InstId → Way ι} {K : Knowledge ι} {b : BlockId}
  {i phi : InstId} {v : Value} {l : ι} {x : Scalar} {pos : Nat} {code : Opcode} {args : List Value}
  {ty : Ty}

/-! ## Inserting an operation -/

/-- What is known after an operation is inserted. -/
def afterOp (K : Knowledge ι) (f : Func) (code : Opcode) (args : List Value) (ty : Ty) : Knowledge ι :=
  K.learn f.insts.size fun l => K.Yields f l code args ty

theorem extends_afterOp (K : Knowledge ι) (f : Func) (code : Opcode) (args : List Value) (ty : Ty) :
    K.Extends f.insts.size (afterOp K f code args ty) :=
  K.extends_learn _ _

theorem knows_afterOp : (afterOp K f code args ty).Knows l (.inst f.insts.size) x ↔
    K.Yields f l code args ty x :=
  K.inst_learn_self _ _ _ _

theorem Runs.insertOp (h : D.Runs g ways K f) (hs : f.IsSlot b pos)
    (hadmits : g.Admits f b pos code args ty) :
    D.Runs g ways (afterOp K f code args ty) (f.insertOp b pos code args ty) := by
  have he := f.widens_insertOp b pos code args ty
  have hself : (f.insertOp b pos code args ty).inst f.insts.size = _ := f.inst_insertOp_self
  have htyped : ∀ v ∈ args, v.IsTyped := fun v hv => (hadmits.args v hv).1
  have hdef : ∀ v ∈ args, f.Defines v := fun v hv => (hadmits.args v hv).2.atEnd.defines h.code.coherent
  have hsure : (afterOp K f code args ty).Sure (f.insertOp b pos code args ty) := by
    refine h.sure.learn he.params (fun i hi => ?_) (fun l x hx => ?_) fun l x y hx hy => ?_
    · rw [Func.insertOp, Func.inst_insertAt, if_neg hi]
    · rw [hself]
      exact h.sure.hasTy_yields htyped hadmits.typed hadmits.pure hx
    · exact h.sure.unique_yields htyped hx hy
  refine h.widen he (h.code.insertOp hs hadmits) (extends_afterOp K f code args ty) hsure
    (fun _ _ => rfl) (fun c i hi hle => ?_) fun c hc psi hpsi hle => ?_
  · obtain ⟨rfl, rfl⟩ := Func.of_mem_body_insertOp hi hle h.code.coherent
    refine ⟨?_, fun code' args' hop l x hx => ?_⟩
    · rw [Func.isEffect, hself]
      exact hadmits.pure
    · rw [hself] at hop ⊢
      cases hop
      exact (knows_afterOp.mp hx).widen he (extends_afterOp K f code args ty) hdef
  · obtain ⟨rfl, -⟩ := Func.of_mem_body_insertOp (Func.mem_body_of_mem_phis hpsi) hle h.code.coherent
    have := Func.isPhi_of_mem_phis hpsi
    rw [Func.isPhi, hself] at this
    cases this

/-! ## Adding a phi -/

theorem Runs.appendPhi (h : D.Runs g ways K f) (hb : b < f.blocks.size) (hne : b ≠ f.entry)
    (hty : ty.IsPlain) {Q : ι → Scalar → Prop} (hQty : ∀ l x, Q l x → x.HasTy ty) (hQ : ∀ l x y, Q l x → Q l y → x = y)
    {w : Way ι} (hw : ∀ p, g.Reachable p → ¬ w.pred p) :
    D.Runs g (Function.update ways f.insts.size w) (K.learn f.insts.size Q)
      (f.appendPhi b ty []).2 := by
  have he := f.widens_insertAt b (f.firstNonPhi b) { op := .phi [], ty, block := b }
  have hself : (f.appendPhi b ty []).2.inst f.insts.size = { op := .phi [], ty, block := b } := by
    rw [Func.appendPhi, Func.inst_insertAt, if_pos rfl]
  have hlt : ∀ c, ∀ i ∈ (f.appendPhi b ty []).2.body c, f.insts.size ≤ i → i = f.insts.size := by
    intro c i hi hle
    rcases Func.mem_body_insertAt f hi with hi | ⟨rfl, -⟩
    · exact absurd (h.code.coherent.body_lt c i hi) (Nat.not_lt.mpr hle)
    · rfl
  refine h.widen he (h.code.appendPhi hb hty).1 (K.extends_learn _ _)
    (h.sure.learn he.params (fun i hi => ?_) (fun l x hx => ?_) hQ)
    (fun i hi => Function.update_of_ne (Nat.ne_of_lt hi) _ _) (fun c i hi hle => ?_)
    fun c hc psi hpsi hle => ?_
  · rw [Func.appendPhi, Func.inst_insertAt, if_neg hi]
  · rw [hself]
    exact hQty l x hx
  · obtain rfl := hlt c i hi hle
    refine ⟨?_, fun code args hop => ?_⟩
    · rw [Func.isEffect, hself]
      rfl
    · rw [hself] at hop
      cases hop
  · obtain rfl := hlt c psi (Func.mem_body_of_mem_phis hpsi) hle
    rw [hself, Function.update_self]
    refine ⟨?_, List.nodup_nil, fun e he => absurd he List.not_mem_nil, fun p hr hp => absurd hp (hw p hr),
      fun l e he => absurd he List.not_mem_nil, fun l _ e he => absurd he List.not_mem_nil⟩
    rcases Func.mem_body_insertAt f (Func.mem_body_of_mem_phis hpsi) with hi | ⟨-, rfl⟩
    · exact absurd (h.code.coherent.body_lt c _ hi) (Nat.lt_irrefl _)
    · exact hne

/-! ## Changing entries -/

theorem Runs.modifyIncoming (h : D.Runs g ways K f) (hphi : f.isPhi phi = true) {G}
    (hG : ∀ e ∈ G (f.inst phi).incoming, e ∈ (f.inst phi).incoming ∨
      e.2.IsTyped ∧ f.typeOf e.2 = (f.inst phi).ty ∧ g.AtEnd f e.1 e.2)
    (hways : ∀ i, i ≠ phi → ways' i = ways i)
    (hent : ∀ b, g.Reachable b → phi ∈ f.phis b →
      K.Enters g.Reachable (ways' phi) phi (G (f.inst phi).incoming)) :
    D.Runs g ways' K (f.modifyIncoming phi G) where
  code := h.code.modifyIncoming hG
  sure := by
    refine ⟨fun l i x hx => ?_, h.sure.unique, h.sure.arg⟩
    show x.HasTy ((f.modifyIncoming phi G).typeOf (.inst i))
    rw [Func.typeOf_modifyIncoming]
    exact h.sure.hasTy l i x hx
  size := by
    rw [Func.size_insts_modifyIncoming]
    exact h.size
  known := h.known
  params := h.params
  start := by
    rw [(Func.refits_modifyIncoming f phi G).phis]
    exact h.start
  pure b i hi code args hop hpure l x hx := by
    have hnot := Func.isPhi_of_op _ hop
    rw [Func.isPhi_modifyIncoming] at hnot
    rw [Func.inst_modifyIncoming_of_not_isPhi hnot] at hop ⊢
    exact (h.pure b i hi code args hop hpure l x hx).of_refines
      (by rw [Func.typeOf_modifyIncoming]) fun _ v hv => ⟨v, hv, fun _ hx => hx⟩
  phis b hb psi hpsi := by
    rw [(Func.refits_modifyIncoming f phi G).phis] at hpsi
    by_cases hne : psi = phi
    · subst hne
      rw [Func.inst_modifyIncoming, if_pos rfl, Func.incoming_mapIncoming hphi]
      exact hent b hb hpsi
    · rw [hways psi hne, Func.inst_modifyIncoming, if_neg fun e => hne e.symm]
      exact h.phis b hb psi hpsi
  effects b := by
    rw [← h.effects b]
    exact List.filter_congr fun i _ => Func.isEffect_modifyIncoming f phi G i
  effect b i hi heff := by
    rw [Func.isEffect_modifyIncoming] at heff
    rw [Func.inst_modifyIncoming_of_not_isPhi (Func.isPhi_of_isEffect heff)]
    exact h.effect b i hi heff

/-! ## Replacing a phi -/

theorem Runs.substPhi (h : D.Runs g ways K f)
    (k : g.Replaceable f b phi v fun i => .inst phi ∈ (f.inst i).inputs)
    (hv : K.Refines (.inst phi) v) : D.Runs g ways K (f.substPhi phi v) where
  code := h.code.substPhi k
  sure := by
    refine ⟨fun l i x hx => ?_, h.sure.unique, fun l n => ?_⟩
    · rw [Func.ty_substPhi]
      exact h.sure.hasTy l i x hx
    · rw [Func.typeOf_substPhi]
      exact h.sure.arg l n
  size := by
    rw [Func.size_insts_substPhi]
    exact h.size
  known := h.known
  params := (Func.refits_substUsers f (Substitution.single_idempotent (.inst phi) v) f.users).params.trans
    h.params
  start := by
    rw [(h.code.phis_substPhi (Func.isPhi_of_mem_phis k.mem) v _).1, List.filter_eq_nil_iff]
    intro psi hpsi
    have hpsi : psi ∈ f.phis f.entry := hpsi
    rw [h.start] at hpsi
    cases hpsi
  pure c i hi code args hop hpure l x hx := by
    have hi := ((Func.mem_body_substPhi h.code.coherent).mp hi).1
    rw [Func.inst_substPhi_of_mem h.code.coherent hi] at hop ⊢
    cases hd : (f.inst i).op with
    | phi incoming =>
      rw [Instr.map, hd] at hop
      cases hop
    | apply code' args' =>
      rw [Instr.map, hd] at hop
      cases hop
      refine (h.pure c i hi code args' hd hpure l x hx).of_refines ?_ fun n u hu => ?_
      · rw [Func.typeOf_substPhi, List.map_map]
        exact List.map_congr_left fun u _ => k.typeOf_single
      · exact ⟨_, by rw [List.getElem?_map, hu]; rfl, hv.single u l⟩
  phis c hc psi hpsi := by
    rw [(h.code.phis_substPhi (Func.isPhi_of_mem_phis k.mem) v c).1] at hpsi
    have hpsi := (List.mem_filter.mp hpsi).1
    have henter := h.phis c hc psi hpsi
    rw [Func.inst_substPhi_of_mem h.code.coherent (Func.mem_body_of_mem_phis hpsi), Func.incoming_map]
    have hkeys : ((f.inst psi).incoming.map fun e => (id e.1,
        (Substitution.single (.inst phi) v).value e.2)).map Prod.fst =
          (f.inst psi).incoming.map Prod.fst := by
      rw [List.map_map]
      rfl
    refine ⟨hkeys ▸ henter.nodup, fun e he => ?_, fun p hR hp => hkeys ▸ henter.complete p hR hp,
      fun l e he ht x hx => ?_, fun l hnv e he x hx => ?_⟩
    · obtain ⟨e', hmem, rfl⟩ := List.mem_map.mp he
      exact henter.pred e' hmem
    · obtain ⟨e', hmem, rfl⟩ := List.mem_map.mp he
      exact hv.single e'.2 l x (henter.taken l e' hmem ht x hx)
    · obtain ⟨e', hmem, rfl⟩ := List.mem_map.mp he
      exact hv.single e'.2 l x (henter.away l hnv e' hmem x hx)
  effects c := by
    have hphi := Func.isPhi_of_mem_phis k.mem
    rw [← h.effects c, Func.body_substPhi h.code.coherent, List.filter_filter]
    refine List.filter_congr fun i hi => ?_
    rw [Func.isEffect_substPhi]
    cases heff : f.isEffect i with
    | false => rfl
    | true =>
      rw [Bool.true_and, bne_iff_ne]
      rintro rfl
      rw [Func.isPhi_of_isEffect heff] at hphi
      cases hphi
  effect c i hi heff := by
    have hi := ((Func.mem_body_substPhi h.code.coherent).mp hi).1
    have hinst : (f.substPhi phi v).inst i = _ := Func.inst_substPhi_of_mem h.code.coherent hi
    rw [Func.isEffect_substPhi] at heff
    obtain ⟨code, args, args', h1, h2, h3, h4⟩ := h.effect c i hi heff
    refine ⟨code, args, args'.map (Substitution.single (.inst phi) v).value, h1, ?_, ?_, fun l hl => ?_⟩
    · rw [hinst, Instr.map, h2]
      rfl
    · rw [hinst]
      exact h3
    · exact List.forall₂_map_left_iff.mpr ((h4 l hl).imp fun u x hx => hv.single u l x hx)

end Doings

end Lockstep
