import Lockstep.Proofs.Triple
import Mathlib.Data.List.Forall2

/-!
# Relating two computations

`Simulates P x y Q` says of two computations, run from states related by `P`, that if `x` does not
fail then neither does `y`, and that their results and states at the end are related by `Q`. The
rules follow the ways to put computations together, as those for triples do.
-/

namespace Lockstep

variable {σ τ ε δ α α' β β' : Type}

/-- What `x` does from states related by `P`, `y` does as well, up to `Q`. -/
def Simulates (P : σ → τ → Prop) (x : ExceptT ε (StateM σ) α) (y : ExceptT δ (StateM τ) β)
    (Q : α → β → σ → τ → Prop) : Prop :=
  ∀ s t a s', P s t → x s = (.ok a, s') → ∃ b t', y t = (.ok b, t') ∧ Q a b s' t'

variable {P P' : σ → τ → Prop} {Q : α → β → σ → τ → Prop}

/-! ## How two computations go on -/

/-- A computation that does not fail has a first part that does not fail. -/
theorem exists_of_bind_run_eq_ok {x : ExceptT ε (StateM σ) α} {k : α → ExceptT ε (StateM σ) β}
    {s s' : σ} {b : β} (h : (x >>= k) s = (.ok b, s')) :
    ∃ a s1, x s = (.ok a, s1) ∧ k a s1 = (.ok b, s') := by
  rcases hx : x s with ⟨r, s1⟩
  cases r with
  | ok a =>
    refine ⟨a, s1, rfl, ?_⟩
    rw [← h]
    show _ = (match x s with | (r, s) => ExceptT.bindCont k r s)
    rw [hx]
    rfl
  | error e =>
    have h' : (x >>= k) s = (.error e, s1) := by
      show (match x s with | (r, s) => ExceptT.bindCont k r s) = _
      rw [hx]
      rfl
    rw [h'] at h
    cases h

theorem bind_run_eq {x : ExceptT ε (StateM σ) α} {k : α → ExceptT ε (StateM σ) β}
    {s s1 : σ} {a : α} (h : x s = (.ok a, s1)) : (x >>= k) s = k a s1 := by
  show (match x s with | (r, s) => ExceptT.bindCont k r s) = _
  rw [h]
  rfl

theorem bind_run_eq_error {x : ExceptT ε (StateM σ) α} {k : α → ExceptT ε (StateM σ) β}
    {s s1 : σ} {e : ε} (h : x s = (.error e, s1)) : (x >>= k) s = (.error e, s1) := by
  show (match x s with | (r, s) => ExceptT.bindCont k r s) = _
  rw [h]
  rfl

theorem exists_mem_of_forall₂ {R : α → β → Prop} {l : List α} {l' : List β}
    (h : List.Forall₂ R l l') {y : β} (hy : y ∈ l') : ∃ x ∈ l, R x y := by
  induction h with
  | nil => cases hy
  | @cons a b l l' hab _ ih =>
    rcases List.mem_cons.mp hy with rfl | hy
    · exact ⟨a, List.mem_cons_self, hab⟩
    · obtain ⟨x, hx, hxy⟩ := ih hy
      exact ⟨x, List.mem_cons_of_mem _ hx, hxy⟩

/-- A map whose function leaves the state as it is. -/
theorem mapM_run_eq_ok_iff {f : α → ExceptT ε (StateM σ) β} {l : List α} {s s' : σ} {ys : List β}
    (hf : ∀ x ∈ l, ∀ y s', f x s = (.ok y, s') → s' = s) :
    l.mapM f s = (.ok ys, s') ↔ List.Forall₂ (fun x y => f x s = (.ok y, s)) l ys ∧ s' = s := by
  induction l generalizing ys s' with
  | nil =>
    rw [List.mapM_nil]
    constructor
    · intro h
      cases h
      exact ⟨.nil, rfl⟩
    · rintro ⟨h, rfl⟩
      cases h
      rfl
  | cons x l ih =>
    have hl := fun x hx => hf x (List.mem_cons_of_mem _ hx)
    rw [List.mapM_cons]
    constructor
    · intro h
      obtain ⟨y, s1, hx, h1⟩ := exists_of_bind_run_eq_ok h
      have e1 := hf x List.mem_cons_self y s1 hx
      rw [e1] at hx h1
      obtain ⟨zs, s2, hzs, h2⟩ := exists_of_bind_run_eq_ok h1
      obtain ⟨hys, e2⟩ := (ih hl).mp hzs
      rw [e2] at h2
      cases h2
      exact ⟨.cons hx hys, rfl⟩
    · rintro ⟨h, rfl⟩
      cases h with
      | cons hx hys =>
        rw [bind_run_eq hx, bind_run_eq ((ih hl).mpr ⟨hys, rfl⟩)]
        rfl

/-! ## Rules -/

theorem Simulates.pure {a : α} {b : β} (h : ∀ s t, P s t → Q a b s t) :
    Simulates P (Pure.pure a : ExceptT ε (StateM σ) α) (Pure.pure b : ExceptT δ (StateM τ) β) Q := by
  intro s t a' s' hp e
  cases e
  exact ⟨b, t, rfl, h s t hp⟩

theorem Simulates.bind {R : α' → β' → σ → τ → Prop} {x : ExceptT ε (StateM σ) α'}
    {y : ExceptT δ (StateM τ) β'} {k : α' → ExceptT ε (StateM σ) α}
    {k' : β' → ExceptT δ (StateM τ) β} (hx : Simulates P x y R)
    (hk : ∀ a b, Simulates (R a b) (k a) (k' b) Q) : Simulates P (x >>= k) (y >>= k') Q := by
  intro s t a s' hp e
  obtain ⟨a1, s1, ha, e⟩ := exists_of_bind_run_eq_ok e
  obtain ⟨b1, t1, hb, hr⟩ := hx s t a1 s1 hp ha
  rw [bind_run_eq hb]
  exact hk a1 b1 s1 t1 a s' hr e

theorem Simulates.mono {R : α → β → σ → τ → Prop} {x : ExceptT ε (StateM σ) α}
    {y : ExceptT δ (StateM τ) β} (h : Simulates P' x y R) (hp : ∀ s t, P s t → P' s t)
    (hq : ∀ a b s t, R a b s t → Q a b s t) : Simulates P x y Q := by
  intro s t a s' hs e
  obtain ⟨b, t', hb, hr⟩ := h s t a s' (hp s t hs) e
  exact ⟨b, t', hb, hq a b s' t' hr⟩

/-- What holds whatever the states are may be assumed. -/
theorem Simulates.assume {p : Prop} {x : ExceptT ε (StateM σ) α} {y : ExceptT δ (StateM τ) β}
    (h : p → Simulates P x y Q) : Simulates (fun s t => p ∧ P s t) x y Q :=
  fun s t a s' hs => h hs.1 s t a s' hs.2

theorem Simulates.get : Simulates P (MonadState.get : ExceptT ε (StateM σ) σ)
    (MonadState.get : ExceptT δ (StateM τ) τ) fun a b s t => (a = s ∧ b = t) ∧ P s t := by
  intro s t a s' hp e
  cases e
  exact ⟨t, t, rfl, ⟨rfl, rfl⟩, hp⟩

theorem Simulates.modify {g : σ → σ} {g' : τ → τ} {Q : PUnit → PUnit → σ → τ → Prop}
    (h : ∀ s t, P s t → Q ⟨⟩ ⟨⟩ (g s) (g' t)) :
    Simulates P (modify g : ExceptT ε (StateM σ) PUnit) (modify g' : ExceptT δ (StateM τ) PUnit)
      Q := by
  intro s t a s' hp e
  cases e
  exact ⟨⟨⟩, g' t, rfl, h s t hp⟩

/-- A computation that fails is simulated by every other. -/
theorem Simulates.throw {e : ε} {y : ExceptT δ (StateM τ) β} :
    Simulates P (MonadExcept.throw e : ExceptT ε (StateM σ) α) y Q := by
  intro s t a s' _ h
  cases h

/-- Loops over two lists of the same length, under an invariant of the elements left. -/
theorem Simulates.forM {J : List α' → List β' → σ → τ → Prop}
    {f : α' → ExceptT ε (StateM σ) PUnit} {g : β' → ExceptT δ (StateM τ) PUnit} {l : List α'}
    {l' : List β'} {C : α' → β' → Prop} (hl : List.Forall₂ C l l')
    (h : ∀ x y rest rest', x ∈ l → C x y → Simulates (J (x :: rest) (y :: rest')) (f x) (g y)
      fun _ _ => J rest rest') :
    Simulates (J l l') (l.forM f) (l'.forM g) fun _ _ => J [] [] := by
  induction hl with
  | nil => exact Simulates.pure fun _ _ hp => hp
  | @cons x y l l' hxy hl ih =>
    show Simulates _ (f x >>= fun _ => l.forM f) (g y >>= fun _ => l'.forM g) _
    exact Simulates.bind (h x y l l' List.mem_cons_self hxy) fun _ _ =>
      ih fun x y rest rest' hx => h x y rest rest' (List.mem_cons_of_mem _ hx)

/-- Maps over two lists whose results are related one by one, under an invariant. -/
theorem Simulates.mapM {J : σ → τ → Prop} {D : α → β → Prop}
    {f : α' → ExceptT ε (StateM σ) α} {g : β' → ExceptT δ (StateM τ) β} {l : List α'}
    {l' : List β'} {C : α' → β' → Prop} (hl : List.Forall₂ C l l')
    (h : ∀ x y, x ∈ l → C x y → Simulates J (f x) (g y) fun a b s t => D a b ∧ J s t) :
    Simulates J (l.mapM f) (l'.mapM g) fun as bs s t => List.Forall₂ D as bs ∧ J s t := by
  induction hl with
  | nil =>
    rw [List.mapM_nil, List.mapM_nil]
    exact Simulates.pure fun _ _ hp => ⟨.nil, hp⟩
  | @cons x y l l' hxy hl ih =>
    rw [List.mapM_cons, List.mapM_cons]
    refine Simulates.bind (h x y List.mem_cons_self hxy) fun a b => Simulates.assume fun hab => ?_
    refine Simulates.bind (ih fun x y hx => h x y (List.mem_cons_of_mem _ hx)) fun as bs =>
      Simulates.assume fun habs => ?_
    exact Simulates.pure fun _ _ hp => ⟨.cons hab habs, hp⟩

end Lockstep
