import Lockstep.Linear.Merge
import Lockstep.Proofs.Forecast.Draft

/-!
# Merges of known values

Of a merge is known in a lane what is known of a value whose edge mask is set there, or of all values if
no mask is. Shapes are recorded as uniform only for values of which the same is known in every lane.
-/

namespace Lockstep

variable {ι : Type}

/-! ## Chains of choices -/

/-- A built value of which the same is known in every lane if that is so for its inputs. -/
structure Draft.Records (d : Draft ι) (b : Merge.Built) : Prop where
  value : d.func.Defines b.value
  inputs : ∀ u ∈ b.inputs, d.func.Defines u
  common : (∀ u ∈ b.inputs, d.known.Common u) → d.known.Common b.value

variable {σ : Site ι} {d d' : Draft ι} {B : Builder} {ty : Ty} {acc : Value}

theorem Draft.Later.records (h : d.Later σ d') {b : Merge.Built} (hb : d.Records b) : d'.Records b where
  value := h.widens.defines hb.value
  inputs u hu := h.widens.defines (hb.inputs u hu)
  common hc := (h.extends_.common hb.value).mpr
    (hb.common fun u hu => (h.extends_.common (hb.inputs u hu)).mp (hc u hu))

/-- What a chain of built values gives. -/
structure Draft.Chains (σ : Site ι) (d : Draft ι) (ty : Ty) (r : (Value × List Merge.Built) × Builder)
    (d' : Draft ι) : Prop where
  stands : r.2.On σ.block d'
  good : d'.Good σ
  later : d.Later σ d'
  usable : d'.Usable σ ty r.1.1
  records : ∀ b ∈ r.1.2, d'.Records b

theorem Merge.chains_disjunction {masks : List Value} (hB : B.On σ.block d) (hd : d.Good σ)
    (hacc : d.Usable σ .bool acc) (hm : ∀ m ∈ masks, d.Usable σ .bool m) :
    ∃ d', d.Chains σ .bool (disjunction acc masks B) d' ∧ ∀ l p (q : Value → Bool),
      d.known.Knows l acc (.bool p) → (∀ m ∈ masks, d.known.Knows l m (.bool (q m))) →
        d'.known.Knows l (disjunction acc masks B).1.1 (.bool (p || masks.any q)) := by
  induction masks generalizing acc d B with
  | nil =>
    refine ⟨d, ⟨hB, hd, .refl σ d, hacc, fun b hb => absurd hb List.not_mem_nil⟩, fun l p q hp _ => ?_⟩
    rw [List.any_nil, Bool.or_false]
    exact hp
  | cons mask masks ih =>
    have hmask := hm mask List.mem_cons_self
    obtain ⟨d1, hB1, hd1, hl1, hu1, hc1, hk1⟩ := Build.makes_or hB hd hacc hmask
    have hrest : ∀ m ∈ masks, d1.Usable σ .bool m := fun m hmem =>
      hl1.usable hd (hm m (List.mem_cons_of_mem _ hmem))
    obtain ⟨d2, hch, hk2⟩ := ih hB1 hd1 hu1 hrest
    have hrec : d1.Records { value := (Build.or acc mask B).1, inputs := [acc, mask] } := by
      refine ⟨hu1.defines hd1, ?_, hc1⟩
      simp only [List.mem_cons, List.not_mem_nil, or_false]
      rintro u (rfl | rfl)
      · exact (hl1.usable hd hacc).defines hd1
      · exact (hl1.usable hd hmask).defines hd1
    refine ⟨d2, ⟨hch.stands, hch.good, hl1.trans hch.later, hch.usable, fun b hb => ?_⟩,
      fun l p q hp hq => ?_⟩
    · rcases List.mem_cons.mp hb with rfl | hb
      · exact hch.later.records hrec
      · exact hch.records b hb
    · rw [List.any_cons, ← Bool.or_assoc]
      refine hk2 l (p || q mask) q (hk1 l p _ hp (hq mask List.mem_cons_self)) fun m hmem => ?_
      exact (hl1.knows hd (hm m (List.mem_cons_of_mem _ hmem))).mpr (hq m (List.mem_cons_of_mem _ hmem))

/-- Each value is known to be `x` in a lane where its mask is set. -/
def Knowledge.Guards (K : Knowledge ι) (l : ι) (x : Scalar) (e : Value × Value) : Prop :=
  ∃ q, K.Knows l e.1 (.bool q) ∧ (q = true → K.Knows l e.2 x)

/-- What is known of a value that is merged from values with their masks. -/
def Knowledge.Merges (K : Knowledge ι) (incoming : List (Value × Value)) (K' : Knowledge ι)
    (v : Value) : Prop :=
  ∀ l x, (∀ e ∈ incoming, K.Guards l x e) →
    (∃ e ∈ incoming, K.Knows l e.1 (.bool true)) ∨ (∀ e ∈ incoming, K.Knows l e.2 x) → K'.Knows l v x

theorem Merge.chains_choices {incoming : List (Value × Value)} (hplain : ty.IsPlain)
    (hB : B.On σ.block d) (hd : d.Good σ) (hacc : d.Usable σ ty acc)
    (hm : ∀ e ∈ incoming, d.Usable σ .bool e.1 ∧ d.Usable σ ty e.2) :
    ∃ d', d.Chains σ ty (choices acc incoming B) d' ∧ ∀ l x,
      (∀ e ∈ incoming, d.known.Guards l x e) →
      (∃ e ∈ incoming, d.known.Knows l e.1 (.bool true)) ∨ d.known.Knows l acc x →
        d'.known.Knows l (choices acc incoming B).1.1 x := by
  induction incoming generalizing acc d B with
  | nil =>
    refine ⟨d, ⟨hB, hd, .refl σ d, hacc, fun b hb => absurd hb List.not_mem_nil⟩, fun l x _ h => ?_⟩
    rcases h with ⟨e, he, -⟩ | h
    · cases he
    · exact h
  | cons e rest ih =>
    obtain ⟨mask, v⟩ := e
    obtain ⟨hmask, hv⟩ := hm (mask, v) List.mem_cons_self
    obtain ⟨d1, hB1, hd1, hl1, hu1, hc1, hk1⟩ := Build.makes_select hB hd hplain hmask hv hacc
    have hrest : ∀ e ∈ rest, d1.Usable σ .bool e.1 ∧ d1.Usable σ ty e.2 := fun e hmem =>
      (hm e (List.mem_cons_of_mem _ hmem)).imp (hl1.usable hd) (hl1.usable hd)
    obtain ⟨d2, hch, hk2⟩ := ih hB1 hd1 hu1 hrest
    have hrec : d1.Records { value := (Build.select mask v acc B).1, inputs := [mask, v, acc] } := by
      refine ⟨hu1.defines hd1, ?_, hc1⟩
      simp only [List.mem_cons, List.not_mem_nil, or_false]
      rintro u (rfl | rfl | rfl)
      · exact (hl1.usable hd hmask).defines hd1
      · exact (hl1.usable hd hv).defines hd1
      · exact (hl1.usable hd hacc).defines hd1
    refine ⟨d2, ⟨hch.stands, hch.good, hl1.trans hch.later, hch.usable, fun b hb => ?_⟩,
      fun l x hg h => ?_⟩
    · rcases List.mem_cons.mp hb with rfl | hb
      · exact hch.later.records hrec
      · exact hch.records b hb
    · have hknows : ∀ e ∈ rest, ∀ w, (d1.known.Knows l e.1 w ↔ d.known.Knows l e.1 w) ∧
          (d1.known.Knows l e.2 w ↔ d.known.Knows l e.2 w) := fun e hmem w =>
        ⟨hl1.knows hd (hm e (List.mem_cons_of_mem _ hmem)).1,
          hl1.knows hd (hm e (List.mem_cons_of_mem _ hmem)).2⟩
      refine hk2 l x (fun e hmem => ?_) ?_
      · obtain ⟨q, h1, h2⟩ := hg e (List.mem_cons_of_mem _ hmem)
        exact ⟨q, (hknows e hmem _).1.mpr h1, fun hq => (hknows e hmem _).2.mpr (h2 hq)⟩
      · obtain ⟨q, h1, h2⟩ := hg (mask, v) List.mem_cons_self
        cases q with
        | true => exact .inr ((hk1 l x).1 h1 (h2 rfl))
        | false =>
          rcases h with ⟨e, he, het⟩ | h
          · rcases List.mem_cons.mp he with rfl | he
            · cases hd.runs.sure.unique_value h1 het
            · exact .inl ⟨e, he, (hknows e he _).1.mpr het⟩
          · exact .inr ((hk1 l x).2 h1 h)

/-! ## Shapes -/

namespace Stage

/-- Of a value whose shape is recorded as uniform the same is known in every lane. -/
def UniformKnown (s : Stage) (f : Func) (K : Knowledge ι) : Prop :=
  ∀ v, s.info.isUniform v = true → f.Defines v ∧ K.Common v

/-- Only shapes differ. -/
structure Reshaped (s s' : Stage) : Prop where
  func : s'.func = s.func
  masks : s'.masks = s.masks
  width : s'.info.width = s.info.width
  region : s'.info.region = s.info.region
  predicates : s'.info.predicates = s.info.predicates
  divergence : s'.info.divergence = s.info.divergence

theorem Reshaped.refl (s : Stage) : Reshaped s s := ⟨rfl, rfl, rfl, rfl, rfl, rfl⟩

theorem Reshaped.trans {s s' s'' : Stage} (h : Reshaped s s') (k : Reshaped s' s'') : Reshaped s s'' :=
  ⟨k.func.trans h.func, k.masks.trans h.masks, k.width.trans h.width, k.region.trans h.region,
    k.predicates.trans h.predicates, k.divergence.trans h.divergence⟩

theorem reshaped_setShape (s : Stage) (v : Value) (shape : Shape) :
    Reshaped s (setShape v shape s).2 := ⟨rfl, rfl, rfl, rfl, rfl, rfl⟩

variable {s : Stage} {f : Func} {K : Knowledge ι}

theorem UniformKnown.common_of_shape (h : s.UniformKnown f K) {xs : List Value}
    (hx : (s.info.shapeOfInputs xs).isUniform = true) : ∀ u ∈ xs, K.Common u := by
  unfold VectorInfo.shapeOfInputs at hx
  split at hx
  · rename_i hall
    exact fun u hu => (h u (List.all_eq_true.mp hall u hu)).2
  · cases hx

theorem UniformKnown.setShape (h : s.UniformKnown f K) {v : Value} {shape : Shape}
    (hv : shape.isUniform = true → f.Defines v ∧ K.Common v) :
    (Stage.setShape v shape s).2.UniformKnown f K := by
  intro w hw
  change (s.info.setShape v shape).isUniform w = true at hw
  unfold VectorInfo.isUniform at hw
  rw [VectorInfo.shape_setShape] at hw
  split at hw
  · rename_i e
    obtain ⟨rfl, -⟩ := e
    exact hv hw
  · exact h w hw

theorem UniformKnown.widen {f' : Func} {K' : Knowledge ι} (h : s.UniformKnown f K)
    (he : f.Widens f') (hK : K.Extends f.insts.size K') : s.UniformKnown f' K' := fun v hv =>
  ⟨he.defines (h v hv).1, (hK.common (h v hv).1).mpr (h v hv).2⟩

theorem recordShape_spec {built : Merge.Built} (hd : d.Records built)
    (h : s.UniformKnown d.func d.known) :
    Reshaped s (Merge.recordShape built s).2 ∧
      (Merge.recordShape built s).2.UniformKnown d.func d.known := by
  by_cases hc : (built.value.inst?.isSome && !built.inputs.contains built.value) = true
  · have hrun : (Merge.recordShape built s).2 =
        (Stage.setShape built.value (s.info.shapeOfInputs built.inputs) s).2 := by
      unfold Merge.recordShape
      rw [if_pos hc]
      rfl
    rw [hrun]
    exact ⟨reshaped_setShape _ _ _, h.setShape fun hu =>
      ⟨hd.value, hd.common (h.common_of_shape hu)⟩⟩
  · have hrun : (Merge.recordShape built s).2 = s := by
      unfold Merge.recordShape
      rw [if_neg hc]
      rfl
    rw [hrun]
    exact ⟨.refl s, h⟩

theorem recordShapes_spec {built : List Merge.Built} (hd : ∀ b ∈ built, d.Records b)
    (h : s.UniformKnown d.func d.known) :
    Reshaped s (built.forM Merge.recordShape s).2 ∧
      (built.forM Merge.recordShape s).2.UniformKnown d.func d.known := by
  induction built generalizing s with
  | nil => exact ⟨.refl s, h⟩
  | cons b built ih =>
    obtain ⟨h1, h2⟩ := recordShape_spec (hd b List.mem_cons_self) h
    obtain ⟨h3, h4⟩ := ih (fun b hb => hd b (List.mem_cons_of_mem _ hb)) h2
    have hrun : (List.forM (b :: built) Merge.recordShape s).2 =
        (built.forM Merge.recordShape (Merge.recordShape b s).2).2 := rfl
    rw [hrun]
    exact ⟨h1.trans h3, h4⟩

/-! ## Merges -/

/-- What is the same after code was made: all but the function and shapes. -/
structure Made (s s' : Stage) : Prop where
  masks : s'.masks = s.masks
  width : s'.info.width = s.info.width
  region : s'.info.region = s.info.region
  predicates : s'.info.predicates = s.info.predicates
  divergence : s'.info.divergence = s.info.divergence

theorem chains_merge {incoming : List (Value × Value)} {last : Value × Value} (hplain : ty.IsPlain)
    (hlast : incoming.getLast? = some last) (hB : B.On σ.block d) (hd : d.Good σ)
    (hin : ∀ e ∈ incoming, d.Usable σ .bool e.1 ∧ d.Usable σ ty e.2) :
    ∃ d', d.Chains σ ty (Merge.choices last.2 incoming.dropLast.reverse B) d' ∧
      d.known.Merges incoming d'.known (Merge.choices last.2 incoming.dropLast.reverse B).1.1 := by
  have hmem := List.mem_of_getLast? hlast
  have hsplit : incoming = incoming.dropLast ++ [last] := (List.dropLast_append_getLast? last hlast).symm
  have hsub : ∀ e ∈ incoming.dropLast.reverse, e ∈ incoming := fun e he =>
    List.mem_of_mem_dropLast (List.mem_reverse.mp he)
  obtain ⟨d', hch, hk⟩ := Merge.chains_choices hplain hB hd (hin last hmem).2 fun e he => hin e (hsub e he)
  refine ⟨d', hch, fun l x hg h => hk l x (fun e he => hg e (hsub e he)) ?_⟩
  rcases h with ⟨e, he, ht⟩ | h
  · rw [hsplit] at he
    rcases List.mem_append.mp he with he | he
    · exact .inl ⟨e, List.mem_reverse.mpr he, ht⟩
    · obtain rfl := List.mem_singleton.mp he
      obtain ⟨q, h1, h2⟩ := hg e hmem
      cases hd.runs.sure.unique_value h1 ht
      exact .inr (h2 rfl)
  · exact .inr (h last hmem)

theorem chains_mergeMasks {first : Value} {masks : List Value} (hB : B.On σ.block d) (hd : d.Good σ)
    (hin : ∀ m ∈ first :: masks, d.Usable σ .bool m) :
    ∃ d', d.Chains σ .bool (Merge.disjunction first masks B) d' ∧
      d.known.Merges ((first :: masks).map fun m => (m, m)) d'.known
        (Merge.disjunction first masks B).1.1 := by
  obtain ⟨d', hch, hk⟩ := Merge.chains_disjunction hB hd (hin first List.mem_cons_self)
    fun m hm => hin m (List.mem_cons_of_mem _ hm)
  refine ⟨d', hch, fun l x hg h => ?_⟩
  have hmem : ∀ m ∈ first :: masks, (m, m) ∈ (first :: masks).map fun m => (m, m) := fun m hm =>
    List.mem_map.mpr ⟨m, hm, rfl⟩
  have hflag : ∀ m ∈ first :: masks, ∃ q, d.known.Knows l m (.bool q) := fun m hm =>
    (hg _ (hmem m hm)).imp fun q hq => hq.1
  classical
  let flag (m : Value) : Bool := decide (d.known.Knows l m (.bool true))
  have hknows : ∀ m ∈ first :: masks, d.known.Knows l m (.bool (flag m)) := by
    intro m hm
    obtain ⟨q, hq⟩ := hflag m hm
    cases q with
    | true => rwa [show flag m = true from decide_eq_true hq]
    | false =>
      have hnot : ¬ d.known.Knows l m (.bool true) := fun ht => by
        cases hd.runs.sure.unique_value hq ht
      rwa [show flag m = false from decide_eq_false hnot]
  have hres := hk l (flag first) flag (hknows first List.mem_cons_self)
    fun m hm => hknows m (List.mem_cons_of_mem _ hm)
  have hany : (flag first || masks.any flag) = (first :: masks).any flag := rfl
  rw [hany] at hres
  suffices hx : x = .bool ((first :: masks).any flag) by rwa [hx]
  cases hf : (first :: masks).any flag with
  | true =>
    obtain ⟨m, hm, ht⟩ := List.any_eq_true.mp hf
    have ht : d.known.Knows l m (.bool true) := of_decide_eq_true ht
    obtain ⟨q, h1, h2⟩ := hg _ (hmem m hm)
    cases hd.runs.sure.unique_value h1 ht
    exact hd.runs.sure.unique_value (h2 rfl) ht
  | false =>
    have hnone : ∀ m ∈ first :: masks, flag m = false := fun m hm => by
      simpa using List.any_eq_false.mp hf m hm
    rcases h with ⟨e, he, ht⟩ | h
    · obtain ⟨m, hm, rfl⟩ := List.mem_map.mp he
      have := hnone m hm
      rw [show flag m = true from decide_eq_true ht] at this
      cases this
    · have hfirst := hknows first List.mem_cons_self
      rw [hnone first List.mem_cons_self] at hfirst
      exact hd.runs.sure.unique_value (h _ (hmem first List.mem_cons_self)) hfirst

/-- Pairs of equal parts are given by their first parts. -/
theorem map_fst_pair {incoming : List (Value × Value)} (h : ∀ e ∈ incoming, e.1 = e.2) :
    (incoming.map Prod.fst).map (fun m => (m, m)) = incoming := by
  conv_rhs => rw [← List.map_id incoming]
  rw [List.map_map]
  exact List.map_congr_left fun e he => Prod.ext rfl (h e he)

/-- A merge of values that are not all the same is a chain of what is built. -/
theorem exists_chain {point : InsertPoint} {m0 first : Value} {rest : List (Value × Value)}
    {last : Value × Value} (hlast : ((m0, first) :: rest).getLast? = some last) (hplain : ty.IsPlain)
    (hB : Builder.On { func := s.func, point } σ.block d) (hd : d.Good σ)
    (hin : ∀ e ∈ (m0, first) :: rest, d.Usable σ .bool e.1 ∧ d.Usable σ ty e.2)
    (hall : ¬ ((m0, first) :: rest).all (fun e => e.2 == last.2) = true) :
    ∃ r d', d.Chains σ ty r d' ∧ d.known.Merges ((m0, first) :: rest) d'.known r.1.1 ∧
      merge point ((m0, first) :: rest) s =
        ((r.1.1, r.2.point), (r.1.2.forM Merge.recordShape { s with func := r.2.func }).2) := by
  by_cases hmasks : ((m0, first) :: rest).all (fun e => e.1 == e.2) = true
  · have heq : ∀ e ∈ (m0, first) :: rest, e.1 = e.2 := fun e he =>
      eq_of_beq (List.all_eq_true.mp hmasks e he)
    obtain rfl : m0 = first := heq _ List.mem_cons_self
    obtain rfl : ty = .bool := by
      obtain ⟨h1, h2⟩ := hin (m0, m0) List.mem_cons_self
      exact h2.typeOf.symm.trans h1.typeOf
    have hpairs : (m0 :: rest.map Prod.fst).map (fun m => (m, m)) = (m0, m0) :: rest :=
      map_fst_pair heq
    obtain ⟨d', hch, hk⟩ := @chains_mergeMasks _ _ _ _ m0 (rest.map Prod.fst) hB hd fun m hm =>
      (hin (m, m) (hpairs ▸ List.mem_map_of_mem hm)).1
    refine ⟨_, d', hch, hpairs ▸ hk, ?_⟩
    unfold merge
    rw [hlast]
    dsimp only
    rw [if_neg hall, if_pos hmasks]
    rfl
  · obtain ⟨d', hch, hk⟩ := chains_merge hplain hlast hB hd hin
    refine ⟨_, d', hch, hk, ?_⟩
    unfold merge
    rw [hlast]
    dsimp only
    rw [if_neg hall, if_neg hmasks]
    rfl

/-- What a merge of values with their masks gives. -/
theorem merge_spec {point : InsertPoint} {incoming : List (Value × Value)} (hne : incoming ≠ [])
    (hplain : ty.IsPlain) (hB : Builder.On { func := s.func, point } σ.block d) (hd : d.Good σ)
    (hu : s.UniformKnown d.func d.known)
    (hin : ∀ e ∈ incoming, d.Usable σ .bool e.1 ∧ d.Usable σ ty e.2) :
    ∃ d' v next s', merge point incoming s = ((v, next), s') ∧
      Builder.On { func := s'.func, point := next } σ.block d' ∧ d'.Good σ ∧ d.Later σ d' ∧
      d'.Usable σ ty v ∧ Made s s' ∧ s'.UniformKnown d'.func d'.known ∧
      d.known.Merges incoming d'.known v := by
  obtain ⟨⟨m0, first⟩, rest, rfl⟩ := List.exists_cons_of_ne_nil hne
  obtain ⟨⟨mk, last⟩, hlast⟩ : ∃ e, ((m0, first) :: rest).getLast? = some e :=
    ⟨_, List.getLast?_eq_some_getLast hne⟩
  have hmemlast := List.mem_of_getLast? hlast
  by_cases hall : ((m0, first) :: rest).all (fun e => e.2 == last) = true
  · have hrun : merge point ((m0, first) :: rest) s = ((last, point), s) := by
      unfold merge
      rw [hlast]
      dsimp only
      rw [if_pos hall]
      rfl
    have hsame : ∀ e ∈ (m0, first) :: rest, e.2 = last := fun e he =>
      eq_of_beq (List.all_eq_true.mp hall e he)
    refine ⟨d, last, point, s, hrun, hB, hd, .refl σ d, (hin _ hmemlast).2, ⟨rfl, rfl, rfl, rfl, rfl⟩, hu,
      fun l x hg h => ?_⟩
    rcases h with ⟨e, he, ht⟩ | h
    · obtain ⟨q, h1, h2⟩ := hg e he
      cases hd.runs.sure.unique_value h1 ht
      exact hsame e he ▸ h2 rfl
    · exact h _ hmemlast
  · obtain ⟨r, d', hch, hk, hrun⟩ := exists_chain hlast hplain hB hd hin hall
    obtain ⟨h1, h2⟩ := recordShapes_spec (s := { s with func := r.2.func }) hch.records
      (UniformKnown.widen (s := { s with func := r.2.func }) hu hch.later.widens hch.later.extends_)
    refine ⟨d', _, _, _, hrun, ?_, hch.good, hch.later, hch.usable,
      ⟨h1.masks, h1.width, h1.region, h1.predicates, h1.divergence⟩, h2, hk⟩
    rw [h1.func]
    exact hch.stands

end Stage

end Lockstep
