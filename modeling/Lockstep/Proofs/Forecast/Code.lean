import Lockstep.Proofs.Forecast.Replace

/-!
# Code with known values

What is known of the values of a function agrees with its code: an instruction without effects yields
what is known of it, a phi is known by the entry of the way that a lane takes, and the effects are those
of another function in the same order, with arguments known in the lanes that take part.
-/

namespace Lockstep

variable {ι : Type}

/-! ## Phis -/

/-- How control comes into a block: from which blocks it may, from which it does in a lane, and in
which lanes it comes at all. -/
structure Way (ι : Type) where
  pred : BlockId → Prop
  taken : ι → BlockId → Prop
  visited : ι → Prop

/-- How control comes into a block along the edges of a function, where lanes take given paths. -/
def Func.way (f : Func) (P : ι → List BlockId) (b : BlockId) : Way ι where
  pred p := f.Edge p b
  taken l p := [p, b] <:+: P l
  visited l := b ∈ P l

/-- What is known of a phi is known of the entry that a lane takes, and of every entry where a lane does
not come by. -/
structure Knowledge.Enters (K : Knowledge ι) (R : BlockId → Prop) (w : Way ι) (phi : InstId)
    (incoming : List (BlockId × Value)) : Prop where
  nodup : (incoming.map Prod.fst).Nodup
  pred : ∀ e ∈ incoming, w.pred e.1
  complete : ∀ p, R p → w.pred p → p ∈ incoming.map Prod.fst
  taken : ∀ l, ∀ e ∈ incoming, w.taken l e.1 → ∀ x, K.inst l phi x → K.Knows l e.2 x
  away : ∀ l, ¬ w.visited l → ∀ e ∈ incoming, ∀ x, K.inst l phi x → K.Knows l e.2 x

/-! ## Code -/

/-- Whether an instruction reads or changes anything beyond its arguments. -/
def Func.isEffect (f : Func) (i : InstId) : Bool := (f.inst i).op.hasSideEffects

namespace Func

variable {f : Func} {i : InstId}

theorem isPhi_of_isEffect (h : f.isEffect i = true) : f.isPhi i = false := by
  unfold isEffect at h
  unfold isPhi Instr.isPhi
  cases hop : (f.inst i).op with
  | phi incoming =>
    rw [hop] at h
    cases h
  | apply code args => rfl

theorem isEffect_modifyIncoming (f : Func) (phi : InstId) (G) (i : InstId) :
    (f.modifyIncoming phi G).isEffect i = f.isEffect i := by
  unfold isEffect
  rw [inst_modifyIncoming]
  split
  · unfold mapIncoming
    split
    · rename_i hop
      rw [hop]
      rfl
    · rfl
  · rfl

theorem isEffect_substPhi (f : Func) (phi : InstId) (v : Value) (i : InstId) :
    (f.substPhi phi v).isEffect i = f.isEffect i := by
  unfold isEffect
  rw [inst_substPhi]
  split
  · unfold Instr.map
    cases (f.inst i).op <;> rfl
  · rfl

end Func

/-- What lanes do in a function: the blocks that each comes by, and the arguments of its effects. -/
structure Doings (ι : Type) where
  func : Func
  trace : ι → List BlockId
  args : ι → InstId → List Scalar
  known : Knowledge ι

namespace Doings

/-- Code with known values, whose effects are those of the doings. -/
structure Runs (D : Doings ι) (g : Func) (ways : InstId → Way ι) (K : Knowledge ι) (f : Func) : Prop where
  code : g.Supports f
  sure : K.Sure f
  size : D.func.insts.size ≤ f.insts.size
  known : D.known.Extends D.func.insts.size K
  params : f.params = D.func.params
  start : f.phis f.entry = []
  pure : ∀ b, ∀ i ∈ f.body b, ∀ code args, (f.inst i).op = .apply code args →
    code.hasSideEffects = false → ∀ l x, K.inst l i x → K.Yields f l code args (f.inst i).ty x
  phis : ∀ b, g.Reachable b → ∀ phi ∈ f.phis b,
    K.Enters g.Reachable (ways phi) phi (f.inst phi).incoming
  effects : ∀ b, (f.body b).filter f.isEffect = (D.func.body b).filter D.func.isEffect
  effect : ∀ b, ∀ i ∈ f.body b, f.isEffect i = true → ∃ code args args',
    (D.func.inst i).op = .apply code args ∧ (f.inst i).op = .apply code args' ∧
      (f.inst i).ty = (D.func.inst i).ty ∧
        ∀ l, b ∈ D.trace l → List.Forall₂ (K.Knows l) args' (D.args l i)

variable {D : Doings ι} {g f f' : Func} {ways ways' : InstId → Way ι} {K K' : Knowledge ι}
  {b c : BlockId} {i phi : InstId} {v : Value} {l : ι} {x : Scalar} {pos : Nat}

/-- Another graph with the same reachable blocks, in which what dominated still does. -/
theorem Runs.regraph {g' : Func} (h : D.Runs g ways K f) (hr : ∀ b, g'.Reachable b ↔ g.Reachable b)
    (hd : ∀ a b, g.Dominates a b → g'.Dominates a b) : D.Runs g' ways K f :=
  { h with
    code := h.code.regraph (fun b => (hr b).mp) hd
    phis := fun b hb phi hphi => by
      have k := h.phis b ((hr b).mp hb) phi hphi
      exact ⟨k.nodup, k.pred, fun p hp => k.complete p ((hr p).mp hp), k.taken, k.away⟩ }

theorem Runs.isEffect_lt (h : D.Runs g ways K f) (hi : i ∈ f.body b) (he : f.isEffect i = true) :
    i ∈ D.func.body b := by
  have hmem : i ∈ (f.body b).filter f.isEffect := List.mem_filter.mpr ⟨hi, he⟩
  rw [h.effects b] at hmem
  exact (List.mem_filter.mp hmem).1

end Doings

/-! ## More code -/

theorem forall₂_imp_of_mem {α β : Type} {R S : α → β → Prop} {xs : List α} {ys : List β}
    (h : List.Forall₂ R xs ys) (hRS : ∀ a ∈ xs, ∀ b, R a b → S a b) : List.Forall₂ S xs ys := by
  induction h with
  | nil => exact .nil
  | cons hab _ ih =>
    exact .cons (hRS _ List.mem_cons_self _ hab) (ih fun a ha => hRS a (List.mem_cons_of_mem _ ha))

namespace Func

variable {f f' : Func}

theorem Widens.isEffect_eq (he : f.Widens f') {i : InstId} (hi : i < f.insts.size) :
    f'.isEffect i = f.isEffect i := by
  unfold isEffect
  rw [he.inst i hi]

theorem Widens.filter_body (he : f.Widens f') (hf : f.Coherent) (hn : ∀ b, (f'.body b).Nodup)
    (b : BlockId) : (f'.body b).filter (fun i => decide (i < f.insts.size)) = f.body b := by
  have hsub : (f.body b).Sublist ((f'.body b).filter (fun i => decide (i < f.insts.size))) := by
    have := (he.body b).filter (fun i => decide (i < f.insts.size))
    rwa [List.filter_eq_self.mpr fun i hi => decide_eq_true (hf.body_lt b i hi)] at this
  refine (hsub.eq_of_length_le ?_).symm
  refine (((hn b).filter _).subperm fun i hi => ?_).length_le
  obtain ⟨hi, hlt⟩ := List.mem_filter.mp hi
  exact he.old b i hi (of_decide_eq_true hlt)

/-- Instructions without effects change none of the effects of a block. -/
theorem Widens.filter_isEffect (he : f.Widens f') (hf : f.Coherent) (hn : ∀ b, (f'.body b).Nodup)
    (hnew : ∀ b, ∀ i ∈ f'.body b, f.insts.size ≤ i → f'.isEffect i = false) (b : BlockId) :
    (f'.body b).filter f'.isEffect = (f.body b).filter f.isEffect := by
  rw [← he.filter_body hf hn b, List.filter_filter]
  refine List.filter_congr fun i hi => ?_
  by_cases hlt : i < f.insts.size
  · rw [he.isEffect_eq hlt, decide_eq_true hlt, Bool.and_true]
  · rw [hnew b i hi (Nat.le_of_not_lt hlt), decide_eq_false hlt, Bool.and_false]

end Func

namespace Knowledge

variable {K K' : Knowledge ι} {f f' : Func} {l : ι} {x : Scalar} {code : Opcode} {args : List Value}
  {ty : Ty}

/-- More code and more knowledge change nothing for operands that were there. -/
theorem Yields.widen (he : f.Widens f') (hK : K.Extends f.insts.size K')
    (ha : ∀ v ∈ args, f.Defines v) (h : K.Yields f l code args ty x) : K'.Yields f' l code args ty x :=
  h.of_refines (he.map_typeOf ha) fun _ v hv =>
    ⟨v, hv, fun _ hx => (hK.knows (ha v (List.mem_of_getElem? hv))).mpr hx⟩

theorem Enters.widen {R : BlockId → Prop} {w : Way ι} {phi : InstId}
    {incoming : List (BlockId × Value)} (hK : K.Extends f.insts.size K') (hphi : phi < f.insts.size)
    (hd : ∀ e ∈ incoming, f.Defines e.2) (h : K.Enters R w phi incoming) :
    K'.Enters R w phi incoming where
  nodup := h.nodup
  pred := h.pred
  complete := h.complete
  taken l e he ht x hx := (hK.knows (hd e he)).mpr (h.taken l e he ht x ((hK.inst l phi hphi x).mp hx))
  away l hv e he x hx := (hK.knows (hd e he)).mpr (h.away l hv e he x ((hK.inst l phi hphi x).mp hx))

end Knowledge

namespace Doings

variable {D : Doings ι} {g f f' : Func} {ways ways' : InstId → Way ι} {K K' : Knowledge ι}
  {b c : BlockId} {i phi : InstId} {v : Value} {l : ι} {x : Scalar} {pos : Nat}

/-- More code keeps what is known if more is known only of the new instructions, which have no effects
and are phis that agree with their ways or yield what is known of them. -/
theorem Runs.widen (h : D.Runs g ways K f) (he : f.Widens f') (hc : g.Supports f')
    (hK : K.Extends f.insts.size K') (hs : K'.Sure f') (hways : ∀ i < f.insts.size, ways' i = ways i)
    (hnew : ∀ b, ∀ i ∈ f'.body b, f.insts.size ≤ i → f'.isEffect i = false ∧
      ∀ code args, (f'.inst i).op = .apply code args →
        ∀ l x, K'.inst l i x → K'.Yields f' l code args (f'.inst i).ty x)
    (hphi : ∀ b, g.Reachable b → ∀ phi ∈ f'.phis b, f.insts.size ≤ phi →
      b ≠ f.entry ∧ K'.Enters g.Reachable (ways' phi) phi (f'.inst phi).incoming) :
    D.Runs g ways' K' f' where
  code := hc
  sure := hs
  size := Nat.le_trans h.size he.size
  known := h.known.trans h.size hK
  params := he.params.trans h.params
  start := by
    refine List.eq_nil_iff_forall_not_mem.mpr fun phi hmem => ?_
    by_cases hlt : phi < f.insts.size
    · have hbody := he.old _ phi (Func.mem_body_of_mem_phis hmem) hlt
      have htrue := Func.isPhi_of_mem_phis hmem
      rw [Func.isPhi, he.inst phi hlt] at htrue
      have hold : phi ∈ f.phis f.entry := h.code.mem_phis_iff.mpr ⟨hbody, htrue⟩
      rw [h.start] at hold
      cases hold
    · exact (hphi _ (Func.reachable_entry g) phi hmem (Nat.le_of_not_lt hlt)).1 rfl
  pure b i hi code args hop hpure l x hx := by
    by_cases hlt : i < f.insts.size
    · have hmem := he.old b i hi hlt
      rw [he.inst i hlt] at hop ⊢
      refine Knowledge.Yields.widen he hK (fun v hv => h.code.coherent.inputs i v ?_)
        (h.pure b i hmem code args hop hpure l x ((hK.inst l i hlt x).mp hx))
      rw [Instr.inputs, hop]
      exact hv
    · exact (hnew b i hi (Nat.le_of_not_lt hlt)).2 code args hop l x hx
  phis b hb phi hmem := by
    by_cases hlt : phi < f.insts.size
    · have hbody := he.old b phi (Func.mem_body_of_mem_phis hmem) hlt
      have htrue := Func.isPhi_of_mem_phis hmem
      rw [Func.isPhi, he.inst phi hlt] at htrue
      rw [hways phi hlt, he.inst phi hlt]
      exact (h.phis b hb phi (h.code.mem_phis_iff.mpr ⟨hbody, htrue⟩)).widen hK hlt
        fun e he => h.code.coherent.defines_incoming he
    · exact (hphi b hb phi hmem (Nat.le_of_not_lt hlt)).2
  effects b := (he.filter_isEffect h.code.coherent hc.nodup (fun b i hi hle => (hnew b i hi hle).1) b).trans
    (h.effects b)
  effect b i hi heff := by
    by_cases hlt : i < f.insts.size
    · have hmem := he.old b i hi hlt
      rw [he.isEffect_eq hlt] at heff
      obtain ⟨code, args, args', h1, h2, h3, h4⟩ := h.effect b i hmem heff
      refine ⟨code, args, args', h1, by rw [he.inst i hlt]; exact h2, by rw [he.inst i hlt]; exact h3,
        fun l hl => forall₂_imp_of_mem (h4 l hl) fun v hv x hx => (hK.knows ?_).mpr hx⟩
      refine h.code.coherent.inputs i v ?_
      rw [Instr.inputs, h2]
      exact hv
    · rw [(hnew b i hi (Nat.le_of_not_lt hlt)).1] at heff
      cases heff

end Doings

end Lockstep
