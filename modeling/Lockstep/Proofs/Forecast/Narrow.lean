import Lockstep.Proofs.Forecast.Foretold
import Lockstep.Proofs.Vector.Mask

/-!
# Masks of edges with known values

The mask of an edge is known in every lane if the mask of its source is, and the branch condition in the
lanes that come by the source.
-/

namespace Lockstep

variable {ι : Type}

/-! ## Narrowed masks -/

namespace Build

variable {σ : Site ι} {d : Draft ι} {B : Builder} {cond mask : Value}

/-- What is built for an edge: the condition under which it is taken, and the mask. -/
structure Narrows (σ : Site ι) (d : Draft ι) (cond mask : Value) (positive : Bool)
    (r : (Value × Value) × Builder) (d' : Draft ι) : Prop where
  stands : r.2.On σ.block d'
  good : d'.Good σ
  later : d.Later σ d'
  usable : d'.Usable σ .bool r.1.2
  common : (∀ u ∈ [mask, cond], d.known.Common u) →
    ∀ v ∈ [r.1.1, r.1.2], d'.func.Defines v ∧ d'.known.Common v
  knows : ∀ l, (d.known.Knows l mask (.bool false) → d'.known.Knows l r.1.2 (.bool false)) ∧
    ∀ q, d.known.Knows l mask (.bool true) → d.known.Knows l cond (.bool q) →
      d'.known.Knows l r.1.2 (.bool (q == positive))

theorem makes_takenBy (hB : B.On σ.block d) (hd : d.Good σ) (hc : d.Usable σ .bool cond)
    (hconst : ∀ p, σ.allowed (.ofBool p)) (positive : Prop) [Decidable positive] :
    d.Makes σ .bool [cond] (Stage.takenBy cond positive B) fun K v => ∀ l q,
      d.known.Knows l cond (.bool q) → K.Knows l v (.bool (q == decide positive)) := by
  unfold Stage.takenBy
  by_cases hp : positive
  · rw [if_pos hp]
    refine makes_pure hB hd hc (List.mem_singleton_self cond) fun l q hq => ?_
    rwa [decide_eq_true hp, beq_true]
  · rw [if_neg hp]
    obtain ⟨d', h1, h2, h3, h4, h5, h6⟩ := makes_not hB hd hc hconst
    refine ⟨d', h1, h2, h3, h4, h5, fun l q hq => ?_⟩
    rw [decide_eq_false hp, beq_false]
    exact h6 l q hq

theorem exists_narrows (hB : B.On σ.block d) (hd : d.Good σ) (hc : d.Usable σ .bool cond)
    (hm : d.Usable σ .bool mask) (hconst : ∀ p, σ.allowed (.ofBool p)) (positive : Prop)
    [Decidable positive] : ∃ d', Narrows σ d cond mask (decide positive)
      (Stage.narrowed cond mask positive B) d' := by
  rw [Stage.narrowed_apply]
  obtain ⟨d1, hB1, hd1, hl1, hu1, hc1, hk1⟩ := makes_takenBy hB hd hc hconst positive
  have hm1 := hl1.usable hd hm
  obtain ⟨d2, hB2, hd2, hl2, hu2, hc2, hk2⟩ := makes_and hB1 hd1 hm1 hu1
  refine ⟨d2, hB2, hd2, hl1.trans hl2, hu2, fun hin => ?_, fun l => ⟨fun hf => ?_, fun q ht hq => ?_⟩⟩
  · have hcond : d.known.Common cond := hin cond (by simp)
    have hmask : d.known.Common mask := hin mask (by simp)
    have hall := hl1.trans hl2
    have hcond2 : d2.known.Common cond := (hall.extends_.common (hc.defines hd)).mpr hcond
    have hmask2 : d2.known.Common mask := (hall.extends_.common (hm.defines hd)).mpr hmask
    have htaken1 : d1.known.Common (Stage.takenBy cond positive B).1 := by
      refine hc1 fun u hu => ?_
      rw [List.mem_singleton.mp hu]
      exact (hl1.extends_.common (hc.defines hd)).mpr hcond
    have htaken2 : d2.known.Common (Stage.takenBy cond positive B).1 :=
      (hl2.extends_.common (hu1.defines hd1)).mpr htaken1
    intro v hv
    rcases List.mem_pair.mp hv with rfl | rfl
    · exact ⟨(hl2.usable hd1 hu1).defines hd2, htaken2⟩
    · refine ⟨hu2.defines hd2, hc2 fun u hu => ?_⟩
      rcases List.mem_pair.mp hu with rfl | rfl
      · exact hmask2
      · exact htaken2
  · exact (hk2 l).2 ((hl1.knows hd hm).mpr hf)
  · have := (hk2 l).1 true _ ((hl1.knows hd hm).mpr ht) (hk1 l q hq)
    rwa [Bool.true_and] at this

end Build

namespace Stage

variable {D : Doings ι} {P : ι → List BlockId} {g : Func} {ways : InstId → Way ι} {K : Knowledge ι}
  {t : Stage} {b p c : BlockId} {m v : Value}

theorem Foretold.setShape (h : Foretold D P g ways K t) {shape : Shape}
    (hv : shape.isUniform = true → t.func.Defines v ∧ K.Common v) :
    Foretold D P g ways K { t with info := t.info.setShape v shape } :=
  { h with uniform := h.uniform.setShape hv }

theorem Foretold.setEdgeMask (h : Foretold D P g ways K t)
    (hm : t.func.Edge p c → EdgeMask P g t.func K p c m) :
    Foretold D P g ways K { t with masks := t.masks.setEdge p c m } :=
  { h with
    edgeMask := fun q d n hn he => by
      change (t.masks.setEdge p c m).edge? q d = some n at hn
      rw [Masks.edge?_setEdge] at hn
      split at hn
      · rename_i e
        cases e
        cases hn
        exact hm he
      · exact h.edgeMask q d n hn he }

theorem Foretold.setBlockMask (h : Foretold D P g ways K t) (hm : D.BlockMask g t.func K b m) :
    Foretold D P g ways K
      { t with info := t.info.setPredicate b m, masks := t.masks.setBlock b m } :=
  { h with
    blockMask := fun c n hn => by
      change (t.masks.setBlock b m).block? c = some n at hn
      rw [Masks.block?_setBlock] at hn
      split at hn
      · rename_i e
        cases hn
        exact e ▸ hm
      · exact h.blockMask c n hn
    predicate := fun c => by
      show (t.info.setPredicate b m).predicate? c = (t.masks.setBlock b m).block? c
      rw [VectorInfo.predicate?_setPredicate, Masks.block?_setBlock, h.predicate c] }

end Stage

end Lockstep
