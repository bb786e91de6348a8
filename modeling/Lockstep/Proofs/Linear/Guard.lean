import Lockstep.Proofs.Linear.Linearize

/-!
# Guarding effects

`maskEffects` guards every effect in a block of the region with the predicate of the block, unless
that is always true (`triple_maskEffects_guarded`). An instruction that has a mask is left alone, and
nothing but masks changes.
-/

namespace Lockstep

namespace Stage

variable {markers : Markers} {s t : Stage} {b : BlockId} {i : InstId} {d : Instr} {v : VectorInfo}

/-! ## Guards -/

/-- What the effects of a block are guarded with: in the region the predicate of the block, unless
that is always true. -/
def guard? (v : VectorInfo) (b : BlockId) : Option Value :=
  if v.inRegion b then (v.predicate? b).filter fun mask => mask.bool? ≠ some true else none

/-- An effect without a mask gets one. -/
def guardedBy (markers : Markers) (mask : Value) (d : Instr) : Instr :=
  if needsMask markers d && d.mask.isNone then { d with mask := some mask } else d

/-- An instruction as it is when its block has been guarded. -/
def guardedIn (markers : Markers) (v : VectorInfo) (b : BlockId) (d : Instr) : Instr :=
  (guard? v b).elim d fun mask => guardedBy markers mask d

theorem guardedBy_of_isSome (mask : Value) (hm : d.mask.isSome = true) :
    guardedBy markers mask d = d := by
  refine if_neg fun h => ?_
  rw [Bool.and_eq_true, Option.isNone_iff_eq_none] at h
  rw [h.2] at hm
  cases hm

theorem guardedBy_guardedBy (mask : Value) :
    guardedBy markers mask (guardedBy markers mask d) = guardedBy markers mask d := by
  by_cases h : (needsMask markers d && d.mask.isNone) = true
  · have e : guardedBy markers mask d = { d with mask := some mask } := if_pos h
    rw [e]
    exact guardedBy_of_isSome mask rfl
  · have e : guardedBy markers mask d = d := if_neg h
    rw [e, e]

/-- Guarding twice is guarding once. -/
theorem guardedIn_guardedIn :
    guardedIn markers v b (guardedIn markers v b d) = guardedIn markers v b d := by
  unfold guardedIn
  cases guard? v b with
  | none => rfl
  | some mask => exact guardedBy_guardedBy mask

theorem op_guardedIn : (guardedIn markers v b d).op = d.op := by
  unfold guardedIn guardedBy
  cases guard? v b with
  | none => rfl
  | some mask =>
    dsimp only [Option.elim]
    split <;> rfl

theorem needsMask_guardedIn :
    needsMask markers (guardedIn markers v b d) = needsMask markers d := by
  unfold needsMask Instr.callee?
  rw [op_guardedIn]

/-- An instruction that has a mask keeps it. -/
theorem guardedIn_of_isSome (hm : d.mask.isSome = true) : guardedIn markers v b d = d := by
  unfold guardedIn
  cases guard? v b with
  | none => rfl
  | some mask => exact guardedBy_of_isSome mask hm

/-- An effect without a mask is guarded by the predicate, or that is always true. -/
theorem mask_guardedIn_of_none {mask : Value} (hr : v.inRegion b = true)
    (hp : v.predicate? b = some mask) (hd : needsMask markers d = true) (hm : d.mask = none) :
    mask.bool? = some true ∨ (guardedIn markers v b d).mask = some mask := by
  by_cases ht : mask.bool? = some true
  · exact .inl ht
  · right
    have hg : guard? v b = some mask := by
      rw [guard?, if_pos hr, hp]
      exact Option.filter_eq_some_iff.mpr ⟨rfl, by simpa using ht⟩
    rw [guardedIn, hg]
    show (guardedBy markers mask d).mask = some mask
    rw [guardedBy, hd, hm]
    rfl

/-! ## One block -/

/-- The instructions in `done` have been guarded by a mask, and nothing else has been done. -/
structure GuardedAs (g : Instr → Instr) (done : List InstId) (s t : Stage) : Prop where
  info : t.info = s.info
  blocks : t.func.blocks = s.func.blocks
  inst : ∀ j, t.func.inst j = if j ∈ done then g (s.func.inst j) else s.func.inst j

theorem GuardedAs.refl {g : Instr → Instr} (s : Stage) : GuardedAs g [] s s :=
  ⟨rfl, rfl, fun _ => (if_neg List.not_mem_nil).symm⟩

/-- One more instruction is guarded; it does not matter if it has been already. -/
theorem GuardedAs.modifyInst {g : Instr → Instr} {done : List InstId} (h : GuardedAs g done s t)
    (hg : ∀ d, g (g d) = g d) (hdefault : g default = default) (i : InstId) :
    GuardedAs g (done ++ [i]) s { t with func := t.func.modifyInst i g } where
  info := h.info
  blocks := h.blocks
  inst j := by
    show (t.func.modifyInst i g).inst j = _
    rw [Func.inst_modifyInst' _ hdefault, h.inst]
    by_cases hij : i = j
    · subst hij
      rw [if_pos rfl, if_pos (List.mem_append_right _ (List.mem_singleton_self i))]
      split
      · exact hg _
      · rfl
    · have hmem : j ∈ done ++ [i] ↔ j ∈ done := by
        rw [List.mem_append, List.mem_singleton]
        exact or_iff_left fun h => hij h.symm
      rw [if_neg hij]
      simp only [hmem]

theorem triple_maskBlock (u : Stage) : Triple (· = u) (maskBlock markers b) fun _ =>
    GuardedAs (guardedIn markers u.info b) (u.func.body b) u := by
  have hnone (hg : guard? u.info b = none) : ∀ t, t = u →
      GuardedAs (guardedIn markers u.info b) (u.func.body b) u t := by
    rintro t rfl
    refine ⟨rfl, rfl, fun j => ?_⟩
    rw [guardedIn, hg]
    exact (ite_self _).symm
  unfold maskBlock
  refine Triple.bind (R := fun w t => t = u ∧ w = u)
    (Triple.get.mono (fun _ h => h) fun w t h => ⟨h.2, h.1.trans h.2⟩)
    fun w => Triple.assume fun hw => ?_
  subst hw
  split
  · rename_i hr
    split
    · rename_i hp
      exact Triple.pure (hnone (by rw [guard?, if_pos hr, hp]; rfl))
    rename_i mask hp
    split
    · rename_i ht
      refine Triple.pure (hnone ?_)
      rw [guard?, if_pos hr, hp]
      exact Option.filter_eq_none_iff.mpr fun a ha => by cases ha; simpa using ht
    · rename_i ht
      have hg : guardedIn markers w.info b = guardedBy markers mask := by
        have hguard : guard? w.info b = some mask := by
          rw [guard?, if_pos hr, hp]
          exact Option.filter_eq_some_iff.mpr ⟨rfl, by simpa using ht⟩
        funext d
        rw [guardedIn, hguard]
        rfl
      let Done (rest : List InstId) (x : Stage) : Prop := ∃ done, w.func.body b = done ++ rest ∧
        GuardedAs (guardedBy markers mask) done w x
      refine Triple.bind (R := fun _ => Done []) ?_ fun _ => Triple.pure ?_
      · refine (Triple.forIn (J := Done) _ fun i rest hi => ?_).mono ?_ fun _ x hx => hx
        · refine Triple.bind (triple_modifyFunc (Q := fun _ => Done rest) ?_)
            fun _ => Triple.pure fun x hx => ⟨rfl, hx⟩
          rintro x ⟨done, e, hx⟩
          exact ⟨done ++ [i], by rw [e, List.append_assoc]; rfl,
            hx.modifyInst (fun _ => guardedBy_guardedBy mask) rfl i⟩
        · rintro x rfl
          exact ⟨[], rfl, .refl x⟩
      · rintro x ⟨done, e, hx⟩
        rw [List.append_nil] at e
        rw [hg, e]
        exact hx
  · rename_i hr
    exact Triple.pure (hnone (if_neg hr))

/-! ## All blocks -/

/-- The instructions of some blocks have been guarded, and nothing else has been done. -/
structure Guarded (markers : Markers) (done : List BlockId) (s t : Stage) : Prop where
  info : t.info = s.info
  blocks : t.func.blocks = s.func.blocks
  inst : ∀ b, ∀ i ∈ s.func.body b, t.func.inst i =
    if b ∈ done then guardedIn markers s.info b (s.func.inst i) else s.func.inst i

theorem Guarded.body {done : List BlockId} (h : Guarded markers done s t) (b : BlockId) :
    t.func.body b = s.func.body b := by
  unfold Func.body Func.block
  rw [h.blocks]

theorem Guarded.maskBlock {u : Stage} {done : List BlockId} (h : Guarded markers done s t)
    (hs : s.func.Coherent)
    (hu : GuardedAs (guardedIn markers t.info b) (t.func.body b) t u) :
    Guarded markers (done ++ [b]) s u where
  info := hu.info.trans h.info
  blocks := hu.blocks.trans h.blocks
  inst c i hi := by
    rw [hu.inst, h.inst c i hi, h.info, h.body]
    by_cases hcb : c = b
    · subst hcb
      rw [if_pos hi, if_pos (List.mem_append_right _ (List.mem_singleton_self c))]
      split
      · exact guardedIn_guardedIn
      · rfl
    · have hout : i ∉ s.func.body b := fun h =>
        hcb ((hs.placed c i hi).symm.trans (hs.placed b i h))
      have hmem : c ∈ done ++ [b] ↔ c ∈ done := by
        rw [List.mem_append, List.mem_singleton]
        exact or_iff_left hcb
      rw [if_neg hout]
      simp only [hmem]

/-- Guarding effects guards the instructions of all blocks. -/
theorem triple_maskEffects_guarded (hs : s.func.Coherent) :
    Triple (· = s) (maskEffects markers) fun _ => Guarded markers s.func.layout s := by
  let Done (rest : List BlockId) (t : Stage) : Prop :=
    ∃ done, s.func.layout = done ++ rest ∧ Guarded markers done s t
  unfold maskEffects
  refine Triple.bind (R := fun w t => t = s ∧ w = s)
    (Triple.get.mono (fun _ h => h) fun w t h => ⟨h.2, h.1.trans h.2⟩)
    fun w => Triple.assume fun hw => ?_
  subst hw
  refine (Triple.forM (J := Done) _ fun b rest hb => ?_).mono ?_ ?_
  · rintro t _ u ⟨done, e, ht⟩ h
    exact ⟨done ++ [b], by rw [e, List.append_assoc]; rfl,
      ht.maskBlock hs (triple_maskBlock t t _ u rfl h)⟩
  · rintro t rfl
    exact ⟨[], rfl, rfl, rfl, fun b i hi => (if_neg List.not_mem_nil).symm⟩
  · rintro _ t ⟨done, e, ht⟩
    rw [List.append_nil] at e
    exact e ▸ ht

end Stage

end Lockstep
