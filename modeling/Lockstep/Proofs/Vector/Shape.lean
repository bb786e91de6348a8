import Lockstep.Vector.Shape
import Mathlib.Data.Nat.GCD.Basic
import Mathlib.Order.BoundedOrder.Lattice
import Mathlib.Order.Bounds.Basic

/-!
# The order of shapes

One shape is below another if it says no less: the unknown shape is below all others, an alignment
may give way to one that divides it, and any relation between lanes may be given up. This is a
partial order. The shapes that an analysis forms, by setting alignments and joining, are those with
positive alignments and without a stride of zero (`formed_iff`), and on them `Shape.join` gives the
least upper bound. They are a semilattice from `unknown` up to `vary`, so that the order in which an
analysis joins its shapes does not matter.
-/

namespace Lockstep

namespace Shape

variable {s t u : Shape} {a b c : Nat}

/-! ## The order -/

/-- The first shape says no less about the lanes than the second. -/
inductive Below : Shape → Shape → Prop where
  | unknown (t : Shape) : Below unknown t
  | uniform {a b : Nat} (h : b ∣ a) : Below (uniform a) (uniform b)
  | strided (p : Int64) {a b : Nat} (h : b ∣ a) : Below (strided p a) (strided p b)
  | varying {s : Shape} {b : Nat} (hs : s ≠ unknown) (h : b ∣ s.alignment) : Below s (varying b)

theorem Below.refl : (s : Shape) → s.Below s
  | .unknown => .unknown _
  | .uniform a => .uniform (Nat.dvd_refl a)
  | .strided p a => .strided p (Nat.dvd_refl a)
  | .varying a => .varying (by simp) (Nat.dvd_refl a)

theorem Below.trans (hst : s.Below t) (htu : t.Below u) : s.Below u := by
  cases hst with
  | unknown => exact .unknown u
  | uniform h =>
    cases htu with
    | uniform k => exact .uniform (Nat.dvd_trans k h)
    | varying _ k => exact .varying (by simp) (Nat.dvd_trans k h)
  | strided p h =>
    cases htu with
    | strided _ k => exact .strided p (Nat.dvd_trans k h)
    | varying _ k => exact .varying (by simp) (Nat.dvd_trans k h)
  | varying hs h =>
    cases htu with
    | varying _ k => exact .varying hs (Nat.dvd_trans k h)

theorem Below.antisymm (hst : s.Below t) (hts : t.Below s) : s = t := by
  cases hst with
  | unknown => cases hts with | unknown => rfl
  | uniform h => cases hts with | uniform k => rw [Nat.dvd_antisymm k h]
  | strided p h => cases hts with | strided _ k => rw [Nat.dvd_antisymm k h]
  | varying _ h =>
    cases hts with
    | varying _ k => exact congrArg Shape.varying (Nat.dvd_antisymm k h)

/-- Shapes are ordered by what they say, the most precise first. -/
instance : PartialOrder Shape where
  le := Below
  le_refl := Below.refl
  le_trans _ _ _ := Below.trans
  le_antisymm _ _ := Below.antisymm

/-! ## Upper bounds -/

theorem commonAlignment_dvd_left (ha : 1 ≤ a) (b : Nat) : commonAlignment a b ∣ a := by
  have hpos : 0 < Nat.gcd a b := Nat.gcd_pos_of_pos_left b ha
  rw [commonAlignment, Nat.max_eq_left hpos]
  exact Nat.gcd_dvd_left a b

/-- What divides two alignments divides the one that they have in common. -/
theorem dvd_commonAlignment (ha : 1 ≤ a) (hca : c ∣ a) (hcb : c ∣ b) : c ∣ commonAlignment a b := by
  have hpos : 0 < Nat.gcd a b := Nat.gcd_pos_of_pos_left b ha
  rw [commonAlignment, Nat.max_eq_left hpos]
  exact Nat.dvd_gcd hca hcb

/-- The join of known shapes is known, and is aligned as both are. -/
theorem alignment_join (hs : s ≠ unknown) (ht : t ≠ unknown) : s.join t ≠ unknown ∧
    (s.join t).alignment = commonAlignment s.alignment t.alignment := by
  cases s <;> cases t
  case strided.strided p a q b =>
    rw [join]
    split <;> exact ⟨by simp, rfl⟩
  all_goals first | exact absurd rfl hs | exact absurd rfl ht | exact ⟨by simp [join], rfl⟩

theorem le_join_left (hs : 1 ≤ s.alignment) (t : Shape) : s ≤ s.join t := by
  have hdvd : ∀ b, commonAlignment s.alignment b ∣ s.alignment := commonAlignment_dvd_left hs
  cases s with
  | unknown => exact .unknown t
  | uniform a =>
    cases t with
    | unknown => exact le_refl _
    | uniform b => exact .uniform (hdvd b)
    | strided _ b | varying b => exact .varying (by simp) (hdvd b)
  | strided p a =>
    cases t with
    | unknown => exact le_refl _
    | strided q b =>
      rw [join]
      split
      · exact .strided p (hdvd b)
      · exact .varying (by simp) (hdvd b)
    | uniform b | varying b => exact .varying (by simp) (hdvd b)
  | varying a =>
    cases t with
    | unknown => exact le_refl _
    | uniform b | strided _ b | varying b => exact .varying (by simp) (hdvd b)

theorem le_join_right (s : Shape) (ht : 1 ≤ t.alignment) : t ≤ s.join t :=
  join_comm t s ▸ le_join_left ht s

/-- No shape above two others is more precise than their join. -/
theorem join_le (hs : 1 ≤ s.alignment) (hsu : s ≤ u) (htu : t ≤ u) : s.join t ≤ u := by
  cases hsu with
  | unknown => exact htu
  | uniform h =>
    cases htu with
    | unknown => exact .uniform h
    | uniform k => exact .uniform (dvd_commonAlignment hs h k)
  | strided p h =>
    cases htu with
    | unknown => exact .strided p h
    | strided _ k =>
      rw [join, if_pos rfl]
      exact .strided p (dvd_commonAlignment hs h k)
  | varying hne h =>
    cases htu with
    | unknown =>
      rw [join_unknown]
      exact .varying hne h
    | varying hne' k =>
      obtain ⟨hjoin, halign⟩ := alignment_join hne hne'
      exact .varying hjoin (halign ▸ dvd_commonAlignment hs h k)

/-! ## The shapes of an analysis -/

/-- A shape that is made from the basic ones by setting alignments and joining. -/
inductive Formed : Shape → Prop where
  | unknown : Formed unknown
  | uni : Formed uni
  | vary : Formed vary
  | ofStride (p : Int64) : Formed (ofStride p)
  | contiguous : Formed contiguous
  | withAlignment {s : Shape} (align : Nat) : Formed s → Formed (s.withAlignment align)
  | join {s t : Shape} : Formed s → Formed t → Formed (s.join t)

/-- Whether the alignment is positive and the stride, if there is one, not zero. -/
structure Valid (s : Shape) : Prop where
  one_le_alignment : 1 ≤ s.alignment
  stride_ne_zero : ∀ a, s ≠ strided 0 a

theorem valid_ofStride (p : Int64) : (ofStride p).Valid := by
  unfold ofStride
  split
  · exact ⟨Nat.le_refl 1, fun _ h => by cases h⟩
  · rename_i hp
    exact ⟨Nat.le_refl 1, fun _ h => hp (by injection h)⟩

theorem Valid.withAlignment (h : s.Valid) (align : Nat) : (s.withAlignment align).Valid where
  one_le_alignment := one_le_alignment_withAlignment s align
  stride_ne_zero a e := by
    cases s with
    | strided p b =>
      injection e with hp
      exact h.stride_ne_zero b (by rw [hp])
    | _ => cases e

theorem Valid.join (hs : s.Valid) (ht : t.Valid) : (s.join t).Valid := by
  by_cases hsu : s = .unknown
  · rwa [hsu, unknown_join]
  by_cases htu : t = .unknown
  · rwa [htu, join_unknown]
  obtain ⟨-, halign⟩ := alignment_join hsu htu
  refine ⟨halign ▸ one_le_commonAlignment _ _, fun c e => ?_⟩
  -- what is below a stride of zero has a stride of zero
  have hle : s ≤ strided 0 c := e ▸ le_join_left hs.one_le_alignment t
  cases hle with
  | unknown => exact hsu rfl
  | strided _ _ => exact hs.stride_ne_zero _ rfl

theorem Formed.valid (h : s.Formed) : s.Valid := by
  induction h with
  | unknown => exact ⟨Nat.le_refl 1, fun _ h => by cases h⟩
  | uni => exact valid_ofStride 0
  | vary => exact ⟨Nat.le_refl 1, fun _ h => by cases h⟩
  | ofStride p => exact valid_ofStride p
  | contiguous => exact valid_ofStride 1
  | withAlignment align _ ih => exact ih.withAlignment align
  | join _ _ ihs iht => exact ihs.join iht

theorem Valid.formed (h : s.Valid) : s.Formed := by
  have hmax : max s.alignment 1 = s.alignment := Nat.max_eq_left h.one_le_alignment
  cases s with
  | unknown => exact .unknown
  | uniform a =>
    have e : uni.withAlignment a = uniform a := congrArg uniform hmax
    exact e ▸ Formed.uni.withAlignment a
  | strided p a =>
    have hp : p ≠ 0 := fun e => h.stride_ne_zero a (by rw [e])
    have e : (Shape.ofStride p).withAlignment a = strided p a := by
      rw [Shape.ofStride, if_neg hp]
      exact congrArg (strided p) hmax
    exact e ▸ (Formed.ofStride p).withAlignment a
  | varying a =>
    have e : Shape.vary.withAlignment a = varying a := congrArg varying hmax
    exact e ▸ Formed.vary.withAlignment a

theorem formed_iff : s.Formed ↔ s.Valid := ⟨Formed.valid, Valid.formed⟩

/-- The shapes of an analysis, from the unknown one up to the one that says nothing. -/
instance : SemilatticeSup {s : Shape // s.Formed} where
  sup s t := ⟨s.1.join t.1, s.2.join t.2⟩
  le_sup_left s t := le_join_left s.2.valid.one_le_alignment t.1
  le_sup_right s t := le_join_right s.1 t.2.valid.one_le_alignment
  sup_le s _ _ hsu htu := join_le s.2.valid.one_le_alignment hsu htu

instance : BoundedOrder {s : Shape // s.Formed} where
  bot := ⟨.unknown, .unknown⟩
  bot_le s := Below.unknown s.1
  top := ⟨.vary, .vary⟩
  le_top s := by
    show s.1.Below Shape.vary
    by_cases h : s.1 = .unknown
    · rw [h]
      exact .unknown _
    · exact .varying h (Nat.one_dvd _)

/-- Joining gives the least upper bound of two shapes of an analysis. Hence it does not matter in
which order shapes are joined or how often, and less precise shapes have a less precise join. -/
theorem isLUB_join_of_formed (hs : s.Formed) (ht : t.Formed) (hu : u.Formed) :
    1 ≤ s.alignment ∧ (∀ a, s ≠ strided 0 a) ∧ (s.join t).Formed ∧ IsLUB {s, t} (s.join t) ∧
      s.join t = t.join s ∧ (s.join t).join u = s.join (t.join u) ∧ s.join s = s ∧
      ∀ s' t', s'.Formed → t'.Formed → s ≤ s' → t ≤ t' → s.join t ≤ s'.join t' := by
  have hpos := hs.valid.one_le_alignment
  let x : {s : Shape // s.Formed} := ⟨s, hs⟩
  let y : {s : Shape // s.Formed} := ⟨t, ht⟩
  let z : {s : Shape // s.Formed} := ⟨u, hu⟩
  have hassoc : (s.join t).join u = s.join (t.join u) := congrArg Subtype.val (sup_assoc x y z)
  refine ⟨hpos, hs.valid.stride_ne_zero, hs.join ht, ⟨?_, fun v hv => ?_⟩, join_comm s t, hassoc,
    join_self hpos, fun s' t' hs' ht' hss htt => ?_⟩
  · rintro v (rfl | rfl)
    · exact le_join_left hpos t
    · exact le_join_right s ht.valid.one_le_alignment
  · exact join_le hpos (hv (.inl rfl)) (hv (.inr rfl))
  · have h : x ⊔ y ≤ ⟨s', hs'⟩ ⊔ ⟨t', ht'⟩ := sup_le_sup hss htt
    exact h

/-- Lanes two apart that start at a multiple of 8 or of 12 start at a multiple of 4; joined with a
uniform multiple of 6, only an even start is left. -/
theorem isLUB_join_of_formed_stride :
    ((strided 2 8).Formed ∧ (strided 2 12).Formed ∧ (uniform 6).Formed) ∧
      (strided 2 8).join (strided 2 12) = strided 2 4 ∧
      IsLUB {strided 2 8, strided 2 12} (strided 2 4) ∧
      (strided 2 8).join ((strided 2 12).join (uniform 6)) = varying 2 := by
  have h8 : (strided 2 8).Formed := (Formed.ofStride 2).withAlignment 8
  have h12 : (strided 2 12).Formed := (Formed.ofStride 2).withAlignment 12
  have h6 : (uniform 6).Formed := Formed.uni.withAlignment 6
  have hjoin : (strided 2 8).join (strided 2 12) = strided 2 4 := by decide
  obtain ⟨-, -, -, hlub, -, hassoc, -⟩ := isLUB_join_of_formed h8 h12 h6
  refine ⟨⟨h8, h12, h6⟩, hjoin, hjoin ▸ hlub, ?_⟩
  rw [← hassoc, hjoin]
  decide

end Shape

end Lockstep
