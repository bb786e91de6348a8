import Lockstep.Linear.Merge
import Lockstep.Proofs.Func.Extend
import Lockstep.Proofs.Vector.Stage

/-!
# Stages that grow

Three relations between stages:

* `Valid` stages have a coherent function, in which all masks exist;
* `Grows s t` says that `t` is `s` with operations inserted and shapes given to them;
* `Later s t` says what survives every rewriting: phis that are recorded as uniform have been so all
  along, nothing that was taken out of its block has come back, and masked instructions are masked.
-/

namespace Lockstep

namespace Stage

/-- The function is coherent, and all masks exist in it. -/
structure Valid (s : Stage) : Prop where
  func : s.func.Coherent
  block : ∀ b m, s.masks.block? b = some m → s.func.Defines m
  edge : ∀ p q m, s.masks.edge? p q = some m → s.func.Defines m

/-- What no rewriting undoes. -/
structure Later (s t : Stage) : Prop where
  size : s.func.insts.size ≤ t.func.insts.size
  uniform : ∀ i, t.func.isPhi i = true → t.info.isUniform (.inst i) = true →
    s.func.isPhi i = true ∧ s.info.isUniform (.inst i) = true
  attached : ∀ i < s.func.insts.size, t.func.Attached i → s.func.Attached i
  keepsMasks : s.func.KeepsMasks t.func

theorem Later.refl (s : Stage) : Later s s :=
  ⟨Nat.le_refl _, fun _ h1 h2 => ⟨h1, h2⟩, fun _ _ h => h, .refl _⟩

theorem Later.trans {s t u : Stage} (h : Later s t) (k : Later t u) : Later s u where
  size := Nat.le_trans h.size k.size
  uniform i h1 h2 := by
    obtain ⟨h3, h4⟩ := k.uniform i h1 h2
    exact h.uniform i h3 h4
  attached i hi ha := h.attached i hi (k.attached i (Nat.lt_of_lt_of_le hi h.size) ha)
  keepsMasks := h.keepsMasks.trans k.keepsMasks

/-- Some phi that was recorded as uniform is no longer in its block. -/
def Lost (s t : Stage) : Prop :=
  ∃ p, s.func.isPhi p = true ∧ s.info.isUniform (.inst p) = true ∧ s.func.Attached p ∧
    ¬ t.func.Attached p

theorem Lost.later {s t u : Stage} (h : Lost s t) (hst : Later s t) (k : Later t u) :
    Lost s u := by
  obtain ⟨p, h1, h2, h3, h4⟩ := h
  refine ⟨p, h1, h2, h3, fun h5 => h4 (k.attached p ?_ h5)⟩
  exact Nat.lt_of_lt_of_le (s.func.lt_of_isPhi h1) hst.size

/-- `t` is `s` with operations inserted, and with shapes for the values that they compute. -/
structure Grows (s t : Stage) : Prop where
  func : s.func.Extends t.func
  coherent : t.func.Coherent
  masks : t.masks = s.masks
  region : t.info.region = s.info.region
  predicates : t.info.predicates = s.info.predicates
  divergence : t.info.divergence = s.info.divergence
  shape : ∀ v, s.func.Defines v → t.info.shape v = s.info.shape v

theorem Grows.refl {s : Stage} (h : s.func.Coherent) : Grows s s :=
  ⟨.refl _, h, rfl, rfl, rfl, rfl, fun _ _ => rfl⟩

theorem Grows.trans {s t u : Stage} (h : Grows s t) (k : Grows t u) : Grows s u where
  func := h.func.trans k.func
  coherent := k.coherent
  masks := k.masks.trans h.masks
  region := k.region.trans h.region
  predicates := k.predicates.trans h.predicates
  divergence := k.divergence.trans h.divergence
  shape v hv := (k.shape v (h.func.defines hv)).trans (h.shape v hv)

theorem Grows.valid {s t : Stage} (h : Grows s t) (hs : s.Valid) : t.Valid where
  func := h.coherent
  block b m hm := by rw [h.masks] at hm; exact h.func.defines (hs.block b m hm)
  edge p q m hm := by rw [h.masks] at hm; exact h.func.defines (hs.edge p q m hm)

theorem Grows.later {s t : Stage} (h : Grows s t) : Later s t where
  size := h.func.size
  uniform i h1 h2 := by
    rw [h.func.isPhi] at h1
    refine ⟨h1, ?_⟩
    have hi := s.func.lt_of_isPhi h1
    rwa [VectorInfo.isUniform, h.shape (.inst i) hi] at h2
  attached i hi ha := (h.func.attached hi).mp ha
  keepsMasks := h.func.keepsMasks

/-- Giving a shape to a value that is not there yet. -/
theorem Grows.setShape {s t : Stage} (h : Grows s t) {v : Value} (hv : ¬ s.func.Defines v)
    (shape : Shape) : Grows s { t with info := t.info.setShape v shape } where
  func := h.func
  coherent := h.coherent
  masks := h.masks
  region := h.region
  predicates := h.predicates
  divergence := h.divergence
  shape w hw := by
    show (t.info.setShape v shape).shape w = _
    have hne : w ≠ v := by
      rintro rfl
      exact hv hw
    rw [VectorInfo.shape_setShape, if_neg (fun e => hne e.1)]
    exact h.shape w hw

/-- Building a value at a point. -/
theorem Grows.build {s t : Stage} (h : Grows s t) {f : Func} (hf : t.func.Extends f)
    (hc : f.Coherent) : Grows s { t with func := f } where
  func := h.func.trans hf
  coherent := hc
  masks := h.masks
  region := h.region
  predicates := h.predicates
  divergence := h.divergence
  shape := h.shape

end Stage

/-! ## Merges -/

/-- What building several values from `b` gives: all that was built is new, or one of its own
inputs. -/
structure BuiltAll (b : Builder) (r : (Value × List Merge.Built) × Builder) : Prop where
  extends_ : b.func.Extends r.2.func
  coherent : r.2.func.Coherent
  defines : r.2.func.Defines r.1.1
  fresh : ∀ m ∈ r.1.2, m.value ∈ m.inputs ∨ ¬ b.func.Defines m.value

namespace Merge

theorem fresh_of_ne {f : Func} {v : Value} {i : InstId} (hv : v = .inst i) (h : f.insts.size ≤ i) :
    ¬ f.Defines v := by
  subst hv
  exact Nat.not_lt.mpr h

/-- A disjunction is one of its operands, or new. -/
theorem or_mem_or_fresh (x y : Value) (b : Builder) :
    (Build.or x y b).1 ∈ [x, y] ∨ ¬ b.func.Defines (Build.or x y b).1 := by
  unfold Build.or
  split
  · exact .inl (List.mem_cons_of_mem _ List.mem_cons_self)
  · split
    · exact .inl List.mem_cons_self
    · exact .inr (fresh_of_ne rfl (Nat.le_refl _))

/-- A choice is one of its operands, or new. -/
theorem select_mem_or_fresh (x y z : Value) (b : Builder) :
    (Build.select x y z b).1 ∈ [x, y, z] ∨ ¬ b.func.Defines (Build.select x y z b).1 := by
  unfold Build.select
  split
  · exact .inl (List.mem_cons_of_mem _ List.mem_cons_self)
  · exact .inr (fresh_of_ne rfl (Nat.le_refl _))

theorem built_disjunction (masks : List Value) (acc : Value) (b : Builder)
    (hb : b.func.Coherent) (ha : b.func.Defines acc) (hm : ∀ m ∈ masks, b.func.Defines m) :
    BuiltAll b (disjunction acc masks b) := by
  induction masks generalizing acc b with
  | nil => exact ⟨.refl _, hb, ha, fun m h => by cases h⟩
  | cons m masks ih =>
    have h1 := Build.built_or hb ha (hm m List.mem_cons_self)
    have h2 := ih (Build.or acc m b).1 (Build.or acc m b).2 h1.coherent h1.defines
      fun v hv => h1.extends_.defines (hm v (List.mem_cons_of_mem _ hv))
    refine ⟨h1.extends_.trans h2.extends_, h2.coherent, h2.defines, fun v hv => ?_⟩
    rcases List.mem_cons.mp hv with rfl | hv
    · exact or_mem_or_fresh acc m b
    · exact (h2.fresh v hv).imp_right fun h e => h (h1.extends_.defines e)

theorem built_choices (keyed : List (Value × Value)) (acc : Value) (b : Builder)
    (hb : b.func.Coherent) (ha : b.func.Defines acc)
    (hk : ∀ e ∈ keyed, b.func.Defines e.1 ∧ b.func.Defines e.2) :
    BuiltAll b (choices acc keyed b) := by
  induction keyed generalizing acc b with
  | nil => exact ⟨.refl _, hb, ha, fun m h => by cases h⟩
  | cons e keyed ih =>
    obtain ⟨mask, v⟩ := e
    obtain ⟨hmask, hv⟩ := hk (mask, v) List.mem_cons_self
    have h1 := Build.built_select hb hmask hv ha
    have h2 := ih (Build.select mask v acc b).1 (Build.select mask v acc b).2 h1.coherent
      h1.defines fun e he =>
        ⟨h1.extends_.defines (hk e (List.mem_cons_of_mem _ he)).1,
          h1.extends_.defines (hk e (List.mem_cons_of_mem _ he)).2⟩
    refine ⟨h1.extends_.trans h2.extends_, h2.coherent, h2.defines, fun w hw => ?_⟩
    rcases List.mem_cons.mp hw with rfl | hw
    · exact select_mem_or_fresh mask v acc b
    · exact (h2.fresh w hw).imp_right fun h e => h (h1.extends_.defines e)

end Merge

namespace Stage

/-- Building several values at a point. -/
theorem triple_buildOn {s : Stage} {point : InsertPoint} {m : Build (Value × List Merge.Built)}
    (hm : ∀ t, Grows s t → BuiltAll ⟨t.func, point⟩ (m ⟨t.func, point⟩)) :
    Triple (Grows s) (buildOn point m) fun r t =>
      Grows s t ∧ t.func.Defines r.1.1 ∧
        ∀ x ∈ r.1.2, x.value ∈ x.inputs ∨ ¬ s.func.Defines x.value := by
  intro t r t' ht e
  have h := hm t ht
  cases e
  refine ⟨ht.build h.extends_ h.coherent, h.defines, fun x hx => ?_⟩
  exact (h.fresh x hx).imp_right fun h e => h (ht.func.defines e)

theorem triple_recordShape {s : Stage} {x : Merge.Built} {v : Value}
    (hx : x.value ∈ x.inputs ∨ ¬ s.func.Defines x.value) :
    Triple (fun t => Grows s t ∧ t.func.Defines v) (Merge.recordShape x)
      fun _ t => Grows s t ∧ t.func.Defines v := by
  unfold Merge.recordShape
  split
  · rename_i h
    refine Triple.bind Triple.get fun t => triple_setShape ?_
    rintro t' ⟨-, ht, hv⟩
    refine ⟨ht.setShape (hx.resolve_left fun hmem => ?_) _, hv⟩
    rw [List.contains_iff_mem.mpr hmem] at h
    simp at h
  · exact Triple.pure fun _ h => h

/-- A merge inserts operations, and its result exists. -/
theorem triple_merge {s : Stage} {point : InsertPoint} {incoming : List (Value × Value)}
    (hi : ∀ e ∈ incoming, s.func.Defines e.1 ∧ s.func.Defines e.2) :
    Triple (Grows s) (merge point incoming) fun r t => Grows s t ∧ t.func.Defines r.1 := by
  unfold merge
  split
  · rename_i m last m' first rest hlast
    have hfst : s.func.Defines first := (hi (m', first) List.mem_cons_self).2
    have hlst : s.func.Defines last := (hi (m, last) (List.mem_of_getLast? hlast)).2
    split
    · exact Triple.pure fun t ht => ⟨ht, ht.func.defines hlst⟩
    · refine Triple.bind (triple_buildOn fun t ht => ?_) fun r => ?_
      · split
        · refine Merge.built_disjunction _ _ _ ht.coherent (ht.func.defines hfst) fun v hv => ?_
          obtain ⟨e, he, rfl⟩ := List.mem_map.mp hv
          exact ht.func.defines (hi e (List.mem_cons_of_mem _ he)).1
        · refine Merge.built_choices _ _ _ ht.coherent (ht.func.defines hlst) fun e he => ?_
          have he := hi e (List.mem_of_mem_dropLast (List.mem_reverse.mp he))
          exact ⟨ht.func.defines he.1, ht.func.defines he.2⟩
      · obtain ⟨⟨v, built⟩, next⟩ := r
        refine Triple.bind (R := fun _ t => Grows s t ∧ t.func.Defines v) ?_ fun _ =>
          Triple.pure fun t ht => ht
        refine (Triple.forM (J := fun l t => (Grows s t ∧ t.func.Defines v) ∧
          ∀ x ∈ l, x.value ∈ x.inputs ∨ ¬ s.func.Defines x.value) built ?_).mono
          (fun t ht => ⟨⟨ht.1, ht.2.1⟩, ht.2.2⟩) (fun _ t ht => ht.1)
        rintro x rest - t a t' ⟨ht, hx⟩ e
        exact ⟨triple_recordShape (hx x List.mem_cons_self) t a t' ht e,
          fun y hy => hx y (List.mem_cons_of_mem _ hy)⟩
  · exact Triple.pure fun t ht => ⟨ht, trivial⟩

end Stage

end Lockstep
