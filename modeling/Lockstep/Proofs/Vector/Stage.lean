import Lockstep.Proofs.Triple
import Lockstep.Vector.Stage

/-!
# Triples of the steps of a stage
-/

namespace Lockstep

/-- Whether an error is not the report of a broken invariant. -/
def VectorizeError.Expected (e : VectorizeError) : Prop := ∀ reason, e ≠ .bug reason

namespace Stage

variable {P : Stage → Prop}

theorem triple_modifyFunc {g : Func → Func} {Q : Unit → Stage → Prop}
    (h : ∀ s, P s → Q () { s with func := g s.func }) : Triple P (modifyFunc g) Q :=
  Triple.modify h

/-- What is known after an edit is that it has been made. -/
theorem triple_modifyFunc_bind {α : Type} {g : Func → Func} {k : StateM Stage α}
    {Q : α → Stage → Prop} (h : Triple (fun t => ∃ s, P s ∧ t = { s with func := g s.func }) k Q) :
    Triple P (modifyFunc g >>= fun _ => k) Q :=
  Triple.bind (triple_modifyFunc fun s hs => ⟨s, hs, rfl⟩) fun _ => h

theorem triple_modifyInfo {g : VectorInfo → VectorInfo} {Q : Unit → Stage → Prop}
    (h : ∀ s, P s → Q () { s with info := g s.info }) : Triple P (modifyInfo g) Q :=
  Triple.modify h

theorem triple_setShape {v : Value} {shape : Shape} {Q : Unit → Stage → Prop}
    (h : ∀ s, P s → Q () { s with info := s.info.setShape v shape }) :
    Triple P (setShape v shape) Q :=
  Triple.modify h

/-- Recording a shape for some of the values. -/
theorem triple_forIn_setShape {vs : List Value} {p : Value → Bool} {shape : Shape}
    (h : ∀ v ∈ vs, p v = true → ∀ s, P s → P { s with info := s.info.setShape v shape }) :
    Triple P (ForIn.forIn vs PUnit.unit fun v _ =>
      if p v = true then do
        setShape v shape
        pure (.yield PUnit.unit)
      else pure (.yield PUnit.unit)) fun _ => P := by
  refine Triple.forIn (J := fun _ => P) vs fun v rest hv => ?_
  split
  · rename_i hp
    exact Triple.yield (triple_setShape (h v hv hp))
  · exact Triple.pure fun s hs => ⟨rfl, hs⟩

theorem triple_setEdgeMask {pred succ : BlockId} {mask : Value} {Q : Unit → Stage → Prop}
    (h : ∀ s, P s → Q () { s with masks := s.masks.setEdge pred succ mask }) :
    Triple P (setEdgeMask pred succ mask) Q :=
  Triple.modify h

theorem triple_setBlockMask {b : BlockId} {mask : Value} {Q : Unit → Stage → Prop}
    (h : ∀ s, P s → Q ()
      { s with info := s.info.setPredicate b mask, masks := s.masks.setBlock b mask }) :
    Triple P (setBlockMask b mask) Q := by
  intro s a s' hs e
  cases e
  exact h s hs

theorem triple_appendPhi {b : BlockId} {ty : Ty} {incoming : List (BlockId × Value)}
    {Q : InstId → Stage → Prop}
    (h : ∀ s, P s → Q s.func.insts.size
      { s with func := (s.func.appendPhi b ty incoming).2 }) :
    Triple P (appendPhi b ty incoming) Q := by
  intro s a s' hs e
  cases e
  exact h s hs

end Stage

end Lockstep
