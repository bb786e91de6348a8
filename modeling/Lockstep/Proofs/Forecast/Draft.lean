import Lockstep.Proofs.Forecast.Edit

/-!
# Building on code with known values

What a builder makes at a place of a block keeps what is known of the code. A draft is the code so far,
what is known of it, and the position of the next instruction; the operations of truth values and the
choice between two values yield what is known of their operands.
-/

namespace Lockstep

variable {ι : Type}

/-! ## Drafts -/

/-- Code in the making: the function, what is known of its values, and where the next instruction
goes. -/
structure Draft (ι : Type) where
  func : Func
  known : Knowledge ι
  pos : Nat

/-- Where code is made: what the lanes do, the graph and the ways that the code keeps to, the block, and
the operands that new instructions may have. -/
structure Site (ι : Type) where
  doings : Doings ι
  graph : Func
  ways : InstId → Way ι
  block : BlockId
  allowed : Value → Prop

/-- What is known of a value is known of it in every lane. -/
def Knowledge.Common (K : Knowledge ι) (v : Value) : Prop :=
  ∀ l l' x, K.Knows l v x → K.Knows l' v x

theorem Knowledge.Yields.common {K : Knowledge ι} {f : Func} {l : ι} {code : Opcode}
    {args : List Value} {ty : Ty} {x : Scalar} (h : K.Yields f l code args ty x)
    (hc : ∀ v ∈ args, K.Common v) (l' : ι) : K.Yields f l' code args ty x :=
  fun input hin => h input ⟨hin.hasTy, fun k v x hv hx =>
    hin.knows k v x hv (hc v (List.mem_of_getElem? hv) l l' x hx)⟩

theorem Knowledge.Extends.common {K K' : Knowledge ι} {f : Func} (h : K.Extends f.insts.size K')
    {v : Value} (hv : f.Defines v) : K'.Common v ↔ K.Common v := by
  simp only [Knowledge.Common, h.knows hv]

/-- A builder that stands where the draft goes on. -/
structure Builder.On (B : Builder) (b : BlockId) (d : Draft ι) : Prop where
  func : B.func = d.func
  position : B.position = d.pos
  point : B.point = .blockEnd b ∨ B.point = .afterPhis b ∨ ∃ i ∈ B.func.body b, B.point = .after i

namespace Draft

/-- Code with known values and a place in it. -/
structure Good (σ : Site ι) (d : Draft ι) : Prop where
  runs : σ.doings.Runs σ.graph σ.ways d.known d.func
  slot : d.func.IsSlot σ.block d.pos
  fresh : ∀ i, d.func.insts.size ≤ i → σ.allowed (.inst i)

/-- More code, made at the place: what was available there still is, what follows is the same. -/
structure Later (σ : Site ι) (d d' : Draft ι) : Prop where
  widens : d.func.Widens d'.func
  extends_ : d.known.Extends d.func.insts.size d'.known
  ready : ∀ v, σ.graph.ReadyAt d.func σ.block d.pos v → σ.graph.ReadyAt d'.func σ.block d'.pos v
  rest : (d'.func.body σ.block).drop d'.pos = (d.func.body σ.block).drop d.pos
  inputs : ∀ i, d.func.insts.size ≤ i → ∀ v ∈ (d'.func.inst i).inputs, σ.allowed v
  isPhi : ∀ i, d.func.insts.size ≤ i → d'.func.isPhi i = false

/-- A value of a type that can be an operand at the place. -/
structure Usable (σ : Site ι) (d : Draft ι) (ty : Ty) (v : Value) : Prop where
  isTyped : v.IsTyped
  typeOf : d.func.typeOf v = ty
  ready : σ.graph.ReadyAt d.func σ.block d.pos v
  allowed : σ.allowed v

variable {σ : Site ι} {d d' d'' : Draft ι} {ty : Ty} {v : Value} {l : ι} {x : Scalar}

theorem Usable.defines (h : d.Usable σ ty v) (hd : d.Good σ) : d.func.Defines v :=
  h.ready.atEnd.defines hd.runs.code.coherent

theorem Later.refl (σ : Site ι) (d : Draft ι) : d.Later σ d where
  widens := .refl _
  extends_ := .refl _ _
  ready _ h := h
  rest := rfl
  inputs i hi v hv := by
    rw [d.func.inst_of_size_le hi] at hv
    cases hv
  isPhi i hi := by
    rw [Func.isPhi, d.func.inst_of_size_le hi]
    rfl

theorem Later.trans (h : d.Later σ d') (k : d'.Later σ d'') : d.Later σ d'' where
  widens := h.widens.trans k.widens
  extends_ := h.extends_.trans h.widens.size k.extends_
  ready v hv := k.ready v (h.ready v hv)
  rest := k.rest.trans h.rest
  inputs i hi v hv := by
    by_cases hlt : i < d'.func.insts.size
    · rw [k.widens.inst i hlt] at hv
      exact h.inputs i hi v hv
    · exact k.inputs i (Nat.le_of_not_lt hlt) v hv
  isPhi i hi := by
    by_cases hlt : i < d'.func.insts.size
    · rw [Func.isPhi, k.widens.inst i hlt]
      exact h.isPhi i hi
    · exact k.isPhi i (Nat.le_of_not_lt hlt)

theorem Later.usable (h : d.Later σ d') (hd : d.Good σ) (hv : d.Usable σ ty v) : d'.Usable σ ty v where
  isTyped := hv.isTyped
  typeOf := (h.widens.typeOf (hv.defines hd)).trans hv.typeOf
  ready := h.ready v hv.ready
  allowed := hv.allowed

theorem Later.knows (h : d.Later σ d') (hd : d.Good σ) (hv : d.Usable σ ty v) :
    d'.known.Knows l v x ↔ d.known.Knows l v x :=
  h.extends_.knows (hv.defines hd)

/-- No phis are made. -/
theorem Later.mem_phis_iff {g : Func} {c : BlockId} {phi : InstId} (h : d.Later σ d')
    (hd : g.Supports d.func) (hd' : g.Supports d'.func) :
    phi ∈ d'.func.phis c ↔ phi ∈ d.func.phis c := by
  by_cases hlt : phi < d.func.insts.size
  · exact hd.mem_phis_widen hd' h.widens hlt
  · refine ⟨fun hmem => ?_, fun hmem => ?_⟩
    · have := Func.isPhi_of_mem_phis hmem
      rw [h.isPhi phi (Nat.le_of_not_lt hlt)] at this
      cases this
    · exact absurd (hd.coherent.body_lt c phi (Func.mem_body_of_mem_phis hmem)) hlt

/-- The draft with an operation. -/
def insertOp (d : Draft ι) (b : BlockId) (code : Opcode) (args : List Value) (ty : Ty) : Draft ι where
  func := d.func.insertOp b d.pos code args ty
  known := Doings.afterOp d.known d.func code args ty
  pos := d.pos + 1

section Insert

variable {code : Opcode} {args : List Value}

theorem admits (hpure : code.hasSideEffects = false) (htyped : code.Typed (args.map d.func.typeOf) ty)
    (ha : ∀ v ∈ args, ∃ t, d.Usable σ t v) :
    σ.graph.Admits d.func σ.block d.pos code args ty where
  pure := hpure
  typed := htyped
  args v hv := by
    obtain ⟨t, h⟩ := ha v hv
    exact ⟨h.isTyped, h.ready⟩

variable (hd : d.Good σ) (hpure : code.hasSideEffects = false)
  (htyped : code.Typed (args.map d.func.typeOf) ty) (ha : ∀ v ∈ args, ∃ t, d.Usable σ t v)

include hd

theorem body_insertOp : (d.insertOp σ.block code args ty).func.body σ.block =
    (d.func.body σ.block).take d.pos ++ d.func.insts.size :: (d.func.body σ.block).drop d.pos :=
  Func.body_insertAt_slot hd.slot _

include ha in
theorem later_insertOp : d.Later σ (d.insertOp σ.block code args ty) where
  widens := Func.widens_insertOp _ _ _ _ _ _
  extends_ := Doings.extends_afterOp _ _ _ _ _
  ready v hv := hv.insertAt hd.slot _
  rest := by
    rw [body_insertOp hd]
    show List.drop (d.pos + 1) _ = _
    rw [List.drop_append, List.length_take, Nat.min_eq_left hd.slot.le,
      List.drop_of_length_le (by rw [List.length_take]; omega), Nat.add_sub_cancel_left]
    rfl
  inputs i hi v hv := by
    by_cases h : i = d.func.insts.size
    · subst h
      rw [insertOp, Func.inst_insertOp_self] at hv
      obtain ⟨t, hu⟩ := ha v hv
      exact hu.allowed
    · rw [insertOp, Func.insertOp, Func.inst_insertAt, if_neg h, d.func.inst_of_size_le hi] at hv
      cases hv
  isPhi i hi := by
    rw [insertOp, Func.insertOp, Func.isPhi_insertAt_of_not_phi _ _ _ rfl, Func.isPhi,
      d.func.inst_of_size_le hi]
    rfl

include hpure htyped ha

theorem good_insertOp : (d.insertOp σ.block code args ty).Good σ where
  runs := hd.runs.insertOp hd.slot (admits hpure htyped ha)
  slot := hd.slot.insertAt hd.runs.code.phisFirst rfl
  fresh i hi := by
    rw [insertOp, Func.size_insertOp] at hi
    exact hd.fresh i (Nat.le_of_succ_le hi)

omit hpure htyped ha in
theorem usable_insertOp :
    (d.insertOp σ.block code args ty).Usable σ ty (.inst d.func.insts.size) where
  isTyped := trivial
  typeOf := by
    show ((d.insertOp σ.block code args ty).func.inst _).ty = ty
    rw [insertOp, Func.inst_insertOp_self]
  ready := Func.readyAt_insertAt_self hd.slot _
  allowed := hd.fresh _ (Nat.le_refl _)

end Insert

end Draft

/-! ## Builders -/

theorem idxOf?_middle {α : Type} [BEq α] [LawfulBEq α] {xs ys : List α} {x : α} (h : x ∉ xs) :
    (xs ++ x :: ys).idxOf? x = some xs.length := by
  induction xs with
  | nil => simp [List.idxOf?_cons]
  | cons y xs ih =>
    have hne : (y == x) = false := by
      rw [beq_eq_false_iff_ne]
      rintro rfl
      exact h List.mem_cons_self
    rw [List.cons_append, List.idxOf?_cons, hne, ih fun hx => h (List.mem_cons_of_mem _ hx)]
    simp

namespace Builder

variable {σ : Site ι} {d : Draft ι} {B : Builder} {ty : Ty} {code : Opcode} {args : List Value}

theorem position_blockEnd {b : BlockId} (h : B.point = .blockEnd b) :
    B.position = (B.func.body b).length := by
  unfold Builder.position
  rw [h]

theorem position_after {i : InstId} (h : B.point = .after i) :
    B.position = ((B.func.positionOf? i).map (· + 1)).getD 0 := by
  unfold Builder.position
  rw [h]

theorem On.currentBlock (h : B.On σ.block d) (hd : d.Good σ) : B.currentBlock = σ.block := by
  rcases h.point with hp | hp | ⟨i, hi, hp⟩
  · simp [Builder.currentBlock, hp]
  · simp [Builder.currentBlock, hp]
  · simp only [Builder.currentBlock, hp]
    rw [h.func] at hi ⊢
    exact hd.runs.code.coherent.placed _ i hi

theorem On.insert (h : B.On σ.block d) (hd : d.Good σ) (code : Opcode) (args : List Value) (ty : Ty) :
    (B.insert (.apply code args) ty).1 = d.func.insts.size ∧
      (B.insert (.apply code args) ty).2.On σ.block (d.insertOp σ.block code args ty) := by
  have hfunc : (B.insert (.apply code args) ty).2.func = d.func.insertOp σ.block d.pos code args ty := by
    show (B.func.insertAt B.currentBlock B.position _).2 = _
    rw [h.currentBlock hd, h.position, h.func]
    rfl
  have hbody : (d.insertOp σ.block code args ty).func.body σ.block = _ := Draft.body_insertOp hd
  have hmem : d.func.insts.size ∈ (d.func.insertOp σ.block d.pos code args ty).body σ.block := by
    rw [show (d.func.insertOp σ.block d.pos code args ty).body σ.block = _ from hbody]
    simp
  have hnew : (B.insert (.apply code args) ty).1 = d.func.insts.size := by
    show B.func.insts.size = _
    rw [h.func]
  have hpoint : (B.insert (.apply code args) ty).2.point = advance B.point d.func.insts.size := by
    rw [← hnew]
    rfl
  have hafter : (B.insert (.apply code args) ty).2.point = .after d.func.insts.size →
      (B.insert (.apply code args) ty).2.position = d.pos + 1 := by
    intro hp
    have hblock : ((d.func.insertOp σ.block d.pos code args ty).inst d.func.insts.size).block =
        σ.block := by rw [Func.inst_insertOp_self]
    rw [position_after hp, hfunc, Func.positionOf?, hblock]
    rw [show (d.func.insertOp σ.block d.pos code args ty).body σ.block = _ from hbody,
      idxOf?_middle fun hi => absurd
        (hd.runs.code.coherent.body_lt _ _ (List.mem_of_mem_take hi)) (Nat.lt_irrefl _),
      List.length_take, Nat.min_eq_left hd.slot.le]
    rfl
  refine ⟨hnew, hfunc, ?_, ?_⟩
  · rcases h.point with hp | hp | ⟨i, hi, hp⟩
    · have hlen : d.pos = (d.func.body σ.block).length := by
        rw [← h.position, position_blockEnd hp, h.func]
      rw [hp] at hpoint
      rw [position_blockEnd hpoint, hfunc]
      rw [show (d.func.insertOp σ.block d.pos code args ty).body σ.block = _ from hbody]
      show _ = d.pos + 1
      simp [hlen]
    · exact hafter (by rw [hpoint, hp]; rfl)
    · exact hafter (by rw [hpoint, hp]; rfl)
  · rcases h.point with hp | hp | ⟨i, hi, hp⟩
    · exact .inl (by rw [hpoint, hp]; rfl)
    · exact .inr (.inr ⟨_, hfunc ▸ hmem, by rw [hpoint, hp]; rfl⟩)
    · exact .inr (.inr ⟨_, hfunc ▸ hmem, by rw [hpoint, hp]; rfl⟩)

end Builder

/-! ## What is built -/

/-- A builder made a value from some inputs, of which `Φ` holds. -/
def Draft.Makes (σ : Site ι) (d : Draft ι) (ty : Ty) (inputs : List Value) (r : Value × Builder)
    (Φ : Knowledge ι → Value → Prop) : Prop :=
  ∃ d' : Draft ι, r.2.On σ.block d' ∧ d'.Good σ ∧ d.Later σ d' ∧ d'.Usable σ ty r.1 ∧
    ((∀ u ∈ inputs, d'.known.Common u) → d'.known.Common r.1) ∧ Φ d'.known r.1

theorem Value.eq_of_bool? {v : Value} {p : Bool} (h : v.bool? = some p) :
    ∃ ty, v = .const ⟨ty, .bool p⟩ := by
  unfold Value.bool? at h
  split at h
  · cases h
    exact ⟨_, rfl⟩
  · cases h

theorem Knowledge.knows_of_bool? {K : Knowledge ι} {v : Value} {p : Bool} (h : v.bool? = some p)
    {l : ι} {x : Scalar} : K.Knows l v x ↔ x = .bool p := by
  obtain ⟨ty, rfl⟩ := v.eq_of_bool? h
  exact .rfl

namespace Build

variable {σ : Site ι} {d : Draft ι} {B : Builder} {ty : Ty} {code : Opcode} {args inputs : List Value}
  {x y z : Value} {Φ : Knowledge ι → Value → Prop}

theorem makes_pure (hB : B.On σ.block d) (hd : d.Good σ) (hx : d.Usable σ ty x) (hmem : x ∈ inputs)
    (hΦ : Φ d.known x) : d.Makes σ ty inputs ((pure x : Build Value) B) Φ :=
  ⟨d, hB, hd, .refl σ d, hx, fun h => h x hmem, hΦ⟩

theorem makes_apply (hB : B.On σ.block d) (hd : d.Good σ) (hpure : code.hasSideEffects = false)
    (htyped : code.Typed (args.map d.func.typeOf) ty) (ha : ∀ v ∈ args, ∃ t, d.Usable σ t v)
    (hin : ∀ v ∈ args, v ∈ inputs ∨ v.isConst = true)
    (hΦ : ∀ (K : Knowledge ι) v, (∀ l x, d.known.Yields d.func l code args ty x → K.Knows l v x) →
      Φ K v) :
    d.Makes σ ty inputs (apply code args ty B) Φ := by
  obtain ⟨hnew, hat⟩ := hB.insert hd code args ty
  have hres : apply code args ty B =
      (.inst (B.insert (.apply code args) ty).1, (B.insert (.apply code args) ty).2) := rfl
  have hlater : d.Later σ (d.insertOp σ.block code args ty) := Draft.later_insertOp hd ha
  rw [hres, hnew]
  refine ⟨_, hat, Draft.good_insertOp hd hpure htyped ha, hlater, Draft.usable_insertOp hd,
    fun hc l l' x hx => ?_, hΦ _ _ fun l x hx => Doings.knows_afterOp.mpr hx⟩
  refine Doings.knows_afterOp.mpr ((Doings.knows_afterOp.mp hx).common (fun v hv => ?_) l')
  rcases hin v hv with hmem | hconst
  · obtain ⟨t, hu⟩ := ha v hv
    exact (hlater.extends_.common (hu.defines hd)).mp (hc v hmem)
  · cases v with
    | const c => exact fun _ _ _ h => h
    | _ => cases hconst

theorem makes_binary (hB : B.On σ.block d) (hd : d.Good σ) {op : BinOp}
    (hop : (op.onBools true true).isSome) (hx : d.Usable σ .bool x) (hy : d.Usable σ .bool y)
    (hin : ∀ v ∈ [x, y], v ∈ inputs ∨ v.isConst = true)
    (hΦ : ∀ (K : Knowledge ι) v,
      (∀ l w, d.known.Yields d.func l (.binary op) [x, y] .bool w → K.Knows l v w) → Φ K v) :
    d.Makes σ .bool inputs (binary op x y B) Φ := by
  have hres : binary op x y B = apply (.binary op) [x, y] (B.func.typeOf x) B := rfl
  rw [hres, hB.func, hx.typeOf]
  refine makes_apply hB hd rfl ?_ ?_ hin hΦ
  · show d.func.typeOf x = .bool ∧ d.func.typeOf y = .bool ∧ op.On .bool
    exact ⟨hx.typeOf, hy.typeOf, hop⟩
  · simp only [List.mem_cons, List.not_mem_nil, or_false]
    rintro v (rfl | rfl)
    · exact ⟨_, hx⟩
    · exact ⟨_, hy⟩

theorem makes_and (hB : B.On σ.block d) (hd : d.Good σ) (hx : d.Usable σ .bool x)
    (hy : d.Usable σ .bool y) :
    d.Makes σ .bool [x, y] (and x y B) fun K v => ∀ l,
      (∀ p q, d.known.Knows l x (.bool p) → d.known.Knows l y (.bool q) →
        K.Knows l v (.bool (p && q))) ∧
      (d.known.Knows l x (.bool false) → K.Knows l v (.bool false)) := by
  unfold Build.and
  split
  · rename_i h
    refine makes_pure hB hd hy (by simp) fun l => ⟨fun p q hp hq => ?_, fun hp => ?_⟩
    · cases (Knowledge.knows_of_bool? h).mp hp
      exact hq
    · cases (Knowledge.knows_of_bool? h).mp hp
  · split
    · rename_i h
      refine makes_pure hB hd hx (by simp) fun l => ⟨fun p q hp hq => ?_, fun hp => hp⟩
      cases (Knowledge.knows_of_bool? h).mp hq
      rw [Bool.and_true]
      exact hp
    · refine makes_binary hB hd rfl hx hy (fun v hv => .inl hv) fun K v hK l =>
        ⟨fun p q hp hq => hK l _ ?_, fun hp => hK l _ ?_⟩
      · exact Knowledge.yields_binary hp hq rfl
      · exact Knowledge.yields_and_false hp hy.typeOf

theorem makes_or (hB : B.On σ.block d) (hd : d.Good σ) (hx : d.Usable σ .bool x)
    (hy : d.Usable σ .bool y) :
    d.Makes σ .bool [x, y] (or x y B) fun K v => ∀ l p q, d.known.Knows l x (.bool p) →
      d.known.Knows l y (.bool q) → K.Knows l v (.bool (p || q)) := by
  unfold Build.or
  split
  · rename_i h
    refine makes_pure hB hd hy (by simp) fun l p q hp hq => ?_
    cases (Knowledge.knows_of_bool? h).mp hp
    exact hq
  · split
    · rename_i h
      refine makes_pure hB hd hx (by simp) fun l p q hp hq => ?_
      cases (Knowledge.knows_of_bool? h).mp hq
      rw [Bool.or_false]
      exact hp
    · exact makes_binary hB hd rfl hx hy (fun v hv => .inl hv) fun K v hK l p q hp hq =>
        hK l _ (Knowledge.yields_binary hp hq rfl)

theorem makes_not (hB : B.On σ.block d) (hd : d.Good σ) (hx : d.Usable σ .bool x)
    (hconst : ∀ p, σ.allowed (.ofBool p)) :
    d.Makes σ .bool [x] (not x B) fun K v => ∀ l p, d.known.Knows l x (.bool p) →
      K.Knows l v (.bool !p) := by
  have husable : ∀ p, d.Usable σ .bool (.ofBool p) := fun p =>
    ⟨Scalar.hasTy_bool p, rfl, trivial, hconst p⟩
  unfold Build.not
  cases h : x.bool? with
  | some p =>
    refine ⟨d, hB, hd, .refl σ d, husable _, fun _ _ _ _ h => h, fun l q hq => ?_⟩
    cases (Knowledge.knows_of_bool? h).mp hq
    rfl
  | none =>
    refine makes_binary hB hd rfl hx (husable true) (fun v hv => ?_) fun K v hK l p hp => ?_
    · simp only [List.mem_cons, List.not_mem_nil, or_false] at hv
      rcases hv with rfl | rfl
      · exact .inl List.mem_cons_self
      · exact .inr rfl
    · refine hK l _ (Knowledge.yields_binary (q := true) hp rfl ?_)
      simp [BinOp.onBools]

theorem makes_select (hB : B.On σ.block d) (hd : d.Good σ) (hplain : ty.IsPlain)
    (hx : d.Usable σ .bool x) (hy : d.Usable σ ty y) (hz : d.Usable σ ty z) :
    d.Makes σ ty [x, y, z] (select x y z B) fun K v => ∀ l w,
      (d.known.Knows l x (.bool true) → d.known.Knows l y w → K.Knows l v w) ∧
      (d.known.Knows l x (.bool false) → d.known.Knows l z w → K.Knows l v w) := by
  unfold Build.select
  by_cases h : y = z
  · subst h
    rw [if_pos rfl]
    exact makes_pure hB hd hy (by simp) fun l w => ⟨fun _ h => h, fun _ h => h⟩
  · have hres : (do
        if y = z then return y
        apply .select [x, y, z] (← typeOf y) : Build Value) B =
          apply .select [x, y, z] (B.func.typeOf y) B := by
      rw [if_neg h]
      rfl
    rw [hres, hB.func, hy.typeOf]
    refine makes_apply hB hd rfl ?_ ?_ (fun v hv => .inl hv) fun K v hK l w =>
      ⟨fun hc hw => hK l w ?_, fun hc hw => hK l w ?_⟩
    · show d.func.typeOf x = .bool ∧ d.func.typeOf y = ty ∧ d.func.typeOf z = ty ∧ ty.IsPlain
      exact ⟨hx.typeOf, hy.typeOf, hz.typeOf, hplain⟩
    · simp only [List.mem_cons, List.not_mem_nil, or_false]
      rintro v (rfl | rfl | rfl)
      · exact ⟨_, hx⟩
      · exact ⟨_, hy⟩
      · exact ⟨_, hz⟩
    · exact Knowledge.yields_select_true hc hw
    · exact Knowledge.yields_select_false hc hw

end Build

end Lockstep
