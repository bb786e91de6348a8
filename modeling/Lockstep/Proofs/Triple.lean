import Mathlib.Data.List.Forall2

/-!
# Triples

`Triple P m Q` says that `m`, run from a state with `P`, ends with a result and a state with `Q`;
`TripleOk P m Q` says so of the runs of `m` that do not fail, and `TripleAll P m Q E` says of the
others that they fail with an error and a state with `E`. There is one rule for each way to put a
computation together; a loop is run under an invariant of the elements that are left.
-/

namespace Lockstep

variable {σ ε α β γ : Type}

/-! ## Results that may be errors -/

theorem exists_of_bind_eq_ok {x : Except ε α} {f : α → Except ε β} {b : β}
    (h : (x >>= f) = .ok b) : ∃ a, x = .ok a ∧ f a = .ok b := by
  cases x with
  | error e => cases h
  | ok a => exact ⟨a, rfl, h⟩

/-- Of two computations one after the other, the first fails or the second. -/
theorem of_bind_eq_error {x : Except ε α} {f : α → Except ε β} {e : ε}
    (h : (x >>= f) = .error e) : x = .error e ∨ ∃ a, x = .ok a ∧ f a = .error e := by
  cases x with
  | error e' =>
    cases h
    exact .inl rfl
  | ok a => exact .inr ⟨a, rfl, h⟩

/-- A fold that succeeds keeps an invariant of the elements that are left. -/
theorem of_foldlM_eq_ok {J : List α → β → Prop} {f : β → α → Except ε β} {l : List α} {b r : β}
    (h : l.foldlM f b = .ok r) (hb : J l b)
    (hf : ∀ x rest b b', x ∈ l → f b x = .ok b' → J (x :: rest) b → J rest b') : J [] r := by
  induction l generalizing b with
  | nil =>
    cases h
    exact hb
  | cons x l ih =>
    rw [List.foldlM_cons] at h
    obtain ⟨b', hx, h⟩ := exists_of_bind_eq_ok h
    exact ih h (hf x l b b' List.mem_cons_self hx hb)
      fun y rest b b' hy => hf y rest b b' (List.mem_cons_of_mem _ hy)

/-- Two computations one after the other succeed as others do whose successes are theirs. -/
theorem bind_eq_ok_of_imp {x x' : Except ε α} {f f' : α → Except ε β} {b : β}
    (h : (x >>= f) = .ok b) (hx : ∀ a, x = .ok a → x' = .ok a)
    (hf : ∀ a, f a = .ok b → f' a = .ok b) : (x' >>= f') = .ok b := by
  obtain ⟨a, ha, h⟩ := exists_of_bind_eq_ok h
  rw [hx a ha]
  exact hf a h

/-- A fold succeeds as another does whose steps succeed with less. -/
theorem foldlM_eq_ok_of_imp {f f' : β → α → Except ε β} {l : List α} {b r : β}
    (h : l.foldlM f b = .ok r) (hf : ∀ b x b', f b x = .ok b' → f' b x = .ok b') :
    l.foldlM f' b = .ok r := by
  induction l generalizing b with
  | nil => exact h
  | cons x l ih =>
    rw [List.foldlM_cons] at h ⊢
    exact bind_eq_ok_of_imp h (hf b x) fun b' h => ih h

/-- What a map that succeeds gives comes from the elements of the list. -/
theorem exists_of_mem_mapM {f : α → Except ε β} {l : List α} {ys : List β}
    (h : l.mapM f = .ok ys) : ∀ y ∈ ys, ∃ x ∈ l, f x = .ok y := by
  induction l generalizing ys with
  | nil =>
    rw [List.mapM_nil] at h
    cases h
    intro y hy
    cases hy
  | cons x l ih =>
    rw [List.mapM_cons] at h
    obtain ⟨y, hx, h⟩ := exists_of_bind_eq_ok h
    obtain ⟨ys', hl, h⟩ := exists_of_bind_eq_ok h
    cases h
    intro z hz
    rcases List.mem_cons.mp hz with rfl | hz
    · exact ⟨x, List.mem_cons_self, hx⟩
    · obtain ⟨w, hw, e⟩ := ih hl z hz
      exact ⟨w, List.mem_cons_of_mem _ hw, e⟩

/-- A map that succeeds gives something for every element of the list. -/
theorem exists_mem_of_mem_mapM {f : α → Except ε β} {l : List α} {ys : List β}
    (h : l.mapM f = .ok ys) {x : α} (hx : x ∈ l) : ∃ y ∈ ys, f x = .ok y := by
  induction l generalizing ys with
  | nil => cases hx
  | cons w l ih =>
    rw [List.mapM_cons] at h
    obtain ⟨y, hw, h⟩ := exists_of_bind_eq_ok h
    obtain ⟨ys', hl, h⟩ := exists_of_bind_eq_ok h
    cases h
    rcases List.mem_cons.mp hx with rfl | hx
    · exact ⟨y, List.mem_cons_self, hw⟩
    · obtain ⟨z, hz, e⟩ := ih hl hx
      exact ⟨z, List.mem_cons_of_mem _ hz, e⟩

theorem mapM_eq_ok_iff {f : α → Except ε β} {l : List α} {ys : List β} :
    l.mapM f = .ok ys ↔ List.Forall₂ (fun x y => f x = .ok y) l ys := by
  induction l generalizing ys with
  | nil =>
    rw [List.mapM_nil]
    constructor
    · intro h
      cases h
      exact .nil
    · intro h
      cases h
      rfl
  | cons x l ih =>
    rw [List.mapM_cons]
    constructor
    · intro h
      obtain ⟨y, hy, h⟩ := exists_of_bind_eq_ok h
      obtain ⟨zs, hzs, h⟩ := exists_of_bind_eq_ok h
      cases h
      exact .cons hy (ih.mp hzs)
    · intro h
      cases h with
      | cons hy hys =>
        rw [hy, ih.mpr hys]
        rfl

/-- A map fails where one of the elements does. -/
theorem exists_of_mapM_eq_error {f : α → Except ε β} {l : List α} {e : ε}
    (h : l.mapM f = .error e) : ∃ x ∈ l, f x = .error e := by
  induction l with
  | nil => cases h
  | cons x l ih =>
    rw [List.mapM_cons] at h
    rcases of_bind_eq_error h with hx | ⟨y, -, h⟩
    · exact ⟨x, List.mem_cons_self, hx⟩
    rcases of_bind_eq_error h with hl | ⟨ys, -, h⟩
    · obtain ⟨z, hz, e⟩ := ih hl
      exact ⟨z, List.mem_cons_of_mem _ hz, e⟩
    · cases h

/-- A fold fails where one of its steps does. -/
theorem exists_of_foldlM_eq_error {f : β → α → Except ε β} {l : List α} {b : β} {e : ε}
    (h : l.foldlM f b = .error e) : ∃ b, ∃ x ∈ l, f b x = .error e := by
  induction l generalizing b with
  | nil => cases h
  | cons x l ih =>
    rw [List.foldlM_cons] at h
    rcases of_bind_eq_error h with hx | ⟨b', -, h⟩
    · exact ⟨b, x, List.mem_cons_self, hx⟩
    · obtain ⟨c, z, hz, e⟩ := ih h
      exact ⟨c, z, List.mem_cons_of_mem _ hz, e⟩

/-! ## Triples -/

/-- A run of `m` from `P` ends in `Q`. -/
def Triple (P : σ → Prop) (m : StateM σ α) (Q : α → σ → Prop) : Prop :=
  ∀ s a s', P s → m s = (a, s') → Q a s'

/-- A run of `m` from `P` that does not fail ends in `Q`. -/
def TripleOk (P : σ → Prop) (m : ExceptT ε (StateM σ) α) (Q : α → σ → Prop) : Prop :=
  ∀ s a s', P s → m s = (.ok a, s') → Q a s'

variable {P P' : σ → Prop} {Q : β → σ → Prop}

/-! ## Computations that cannot fail -/

theorem Triple.pure {b : β} (h : ∀ s, P s → Q b s) : Triple P (Pure.pure b) Q := by
  intro s a s' hs e
  cases e
  exact h s hs

theorem Triple.bind {R : α → σ → Prop} {m : StateM σ α} {k : α → StateM σ β}
    (hm : Triple P m R) (hk : ∀ a, Triple (R a) (k a) Q) : Triple P (m >>= k) Q := by
  intro s b s' hs e
  rcases hms : m s with ⟨a, s1⟩
  have h : (m >>= k) s = k a s1 := by
    show (match m s with | (a, s) => k a s) = _
    rw [hms]
  exact hk a s1 b s' (hm s a s1 hs hms) (h ▸ e)

theorem Triple.mono {R : β → σ → Prop} {m : StateM σ β} (hm : Triple P' m R)
    (hp : ∀ s, P s → P' s) (hq : ∀ b s, R b s → Q b s) : Triple P m Q :=
  fun s b s' hs e => hq b s' (hm s b s' (hp s hs) e)

/-- What holds whatever the state is may be assumed. -/
theorem Triple.assume {p : Prop} {m : StateM σ β} (h : p → Triple P m Q) :
    Triple (fun s => P s ∧ p) m Q :=
  fun s b s' hs e => h hs.2 s b s' hs.1 e

theorem Triple.get : Triple P MonadState.get fun t s => t = s ∧ P s := by
  intro s a s' hs e
  cases e
  exact ⟨rfl, hs⟩

theorem Triple.modify {g : σ → σ} {Q : Unit → σ → Prop} (h : ∀ s, P s → Q () (g s)) :
    Triple P (modify g) Q := by
  intro s a s' hs e
  cases e
  exact h s hs

/-- A loop over a list whose body never stops it. -/
theorem Triple.forIn {J : List α → σ → Prop}
    {f : α → PUnit → StateM σ (ForInStep PUnit)} (l : List α)
    (h : ∀ x rest, x ∈ l →
      Triple (J (x :: rest)) (f x ⟨⟩) fun r s => r = .yield ⟨⟩ ∧ J rest s) :
    Triple (J l) (ForIn.forIn l PUnit.unit f) fun _ => J [] := by
  induction l with
  | nil => exact Triple.pure fun _ hs => hs
  | cons x l ih =>
    rw [List.forIn_cons]
    refine Triple.bind (h x l List.mem_cons_self) fun r => ?_
    rintro s a s' ⟨rfl, hs⟩ e
    exact ih (fun y rest hy => h y rest (List.mem_cons_of_mem _ hy)) s a s' hs e

/-- The body of a loop that goes on. -/
theorem Triple.yield {J : σ → Prop} {m : StateM σ α} (h : Triple P m fun _ => J) :
    Triple P (m >>= fun _ => Pure.pure (ForInStep.yield PUnit.unit)) fun r s =>
      r = .yield ⟨⟩ ∧ J s :=
  h.bind fun _ => .pure fun _ hs => ⟨rfl, hs⟩

theorem Triple.forM {J : List α → σ → Prop} {f : α → StateM σ PUnit} (l : List α)
    (h : ∀ x rest, x ∈ l → Triple (J (x :: rest)) (f x) fun _ => J rest) :
    Triple (J l) (l.forM f) fun _ => J [] := by
  induction l with
  | nil => exact Triple.pure fun _ hs => hs
  | cons x l ih =>
    show Triple _ (f x >>= fun _ => l.forM f) _
    exact Triple.bind (h x l List.mem_cons_self) fun _ =>
      ih fun y rest hy => h y rest (List.mem_cons_of_mem _ hy)

/-- A map over a list, under an invariant of the elements left and the results so far. -/
theorem Triple.mapM {J : List α → List β → σ → Prop} {f : α → StateM σ β} (l : List α)
    (h : ∀ x rest done, x ∈ l →
      Triple (J (x :: rest) done) (f x) fun y => J rest (done ++ [y])) (done : List β) :
    Triple (J l done) (l.mapM f) fun ys => J [] (done ++ ys) := by
  induction l generalizing done with
  | nil =>
    rw [List.mapM_nil]
    exact Triple.pure fun _ hs => by rwa [List.append_nil]
  | cons x l ih =>
    rw [List.mapM_cons]
    refine Triple.bind (h x l done List.mem_cons_self) fun y => ?_
    refine Triple.bind (ih (fun y rest done hy => h y rest done (List.mem_cons_of_mem _ hy))
      (done ++ [y])) fun ys => ?_
    exact Triple.pure fun _ hs => by rwa [List.append_assoc] at hs

/-! ## Computations that may fail -/

theorem TripleOk.pure {b : β} (h : ∀ s, P s → Q b s) :
    TripleOk P (Pure.pure b : ExceptT ε (StateM σ) β) Q := by
  intro s a s' hs e
  cases e
  exact h s hs

theorem TripleOk.bind {R : α → σ → Prop} {m : ExceptT ε (StateM σ) α}
    {k : α → ExceptT ε (StateM σ) β}
    (hm : TripleOk P m R) (hk : ∀ a, TripleOk (R a) (k a) Q) : TripleOk P (m >>= k) Q := by
  intro s b s' hs e
  rcases hms : m s with ⟨r, s1⟩
  cases r with
  | ok a =>
    have h : (m >>= k) s = k a s1 := by
      show (match m s with | (r, s) => ExceptT.bindCont k r s) = _
      rw [hms]
      rfl
    exact hk a s1 b s' (hm s a s1 hs hms) (h ▸ e)
  | error x =>
    have h : (m >>= k) s = (.error x, s1) := by
      show (match m s with | (r, s) => ExceptT.bindCont k r s) = _
      rw [hms]
      rfl
    rw [h] at e
    cases e

theorem TripleOk.mono {R : β → σ → Prop} {m : ExceptT ε (StateM σ) β} (hm : TripleOk P' m R)
    (hp : ∀ s, P s → P' s) (hq : ∀ b s, R b s → Q b s) : TripleOk P m Q :=
  fun s b s' hs e => hq b s' (hm s b s' (hp s hs) e)

/-- What holds whatever the state is may be assumed. -/
theorem TripleOk.assume {p : Prop} {m : ExceptT ε (StateM σ) β} (h : p → TripleOk P m Q) :
    TripleOk (fun s => P s ∧ p) m Q :=
  fun s b s' hs e => h hs.2 s b s' hs.1 e

/-- What two triples say of the same run. -/
theorem TripleOk.and {m : ExceptT ε (StateM σ) β} {Q' : β → σ → Prop} (h : TripleOk P m Q)
    (h' : TripleOk P' m Q') :
    TripleOk (fun s => P s ∧ P' s) m fun a s => Q a s ∧ Q' a s :=
  fun s a s' hs e => ⟨h s a s' hs.1 e, h' s a s' hs.2 e⟩

theorem TripleOk.lift {m : StateM σ β} (hm : Triple P m Q) :
    TripleOk P (liftM m : ExceptT ε (StateM σ) β) Q := by
  intro s b s' hs e
  rcases hms : m s with ⟨a, s1⟩
  have h : (liftM m : ExceptT ε (StateM σ) β) s = (.ok a, s1) := by
    show (match m s with | (a, s) => (Except.ok a, s)) = _
    rw [hms]
  rw [h] at e
  cases e
  exact hm s b s' hs hms

theorem TripleOk.throw {e : ε} :
    TripleOk P (MonadExcept.throw e : ExceptT ε (StateM σ) β) Q := by
  intro s a s' _ h
  cases h

theorem TripleOk.get :
    TripleOk P (MonadState.get : ExceptT ε (StateM σ) σ) fun t s => t = s ∧ P s := by
  intro s a s' hs e
  cases e
  exact ⟨rfl, hs⟩

/-- What is known of the state is known of what has been read of it. -/
theorem TripleOk.get_bind {k : σ → ExceptT ε (StateM σ) β} (h : ∀ s, P s → TripleOk (· = s) (k s) Q) :
    TripleOk P (MonadState.get >>= k) Q :=
  fun s b s' hs e => h s hs s b s' rfl e

theorem TripleOk.modify {g : σ → σ} {Q : Unit → σ → Prop}
    (h : ∀ s, P s → Q () (g s)) :
    TripleOk P (modify g : ExceptT ε (StateM σ) PUnit) Q := by
  intro s a s' hs e
  cases e
  exact h s hs

theorem TripleOk.forIn {J : List α → σ → Prop}
    {f : α → PUnit → ExceptT ε (StateM σ) (ForInStep PUnit)} (l : List α)
    (h : ∀ x rest, x ∈ l →
      TripleOk (J (x :: rest)) (f x ⟨⟩) fun r s => r = .yield ⟨⟩ ∧ J rest s) :
    TripleOk (J l) (ForIn.forIn l PUnit.unit f) fun _ => J [] := by
  induction l with
  | nil => exact TripleOk.pure fun _ hs => hs
  | cons x l ih =>
    rw [List.forIn_cons]
    refine TripleOk.bind (h x l List.mem_cons_self) fun r => ?_
    rintro s a s' ⟨rfl, hs⟩ e
    exact ih (fun y rest hy => h y rest (List.mem_cons_of_mem _ hy)) s a s' hs e

theorem TripleOk.foldlM {J : List α → γ → σ → Prop}
    {f : γ → α → ExceptT ε (StateM σ) γ} (l : List α)
    (h : ∀ x rest acc, x ∈ l → TripleOk (J (x :: rest) acc) (f acc x) (J rest)) (acc : γ) :
    TripleOk (J l acc) (l.foldlM f acc) (J []) := by
  induction l generalizing acc with
  | nil => exact TripleOk.pure fun _ hs => hs
  | cons x l ih =>
    rw [List.foldlM_cons]
    exact TripleOk.bind (h x l acc List.mem_cons_self) fun acc =>
      ih (fun y rest acc hy => h y rest acc (List.mem_cons_of_mem _ hy)) acc

/-- A map over a list, under an invariant of the elements left and the results so far. -/
theorem TripleOk.mapM {J : List α → List β → σ → Prop}
    {f : α → ExceptT ε (StateM σ) β} (l : List α)
    (h : ∀ x rest done, x ∈ l →
      TripleOk (J (x :: rest) done) (f x) fun y => J rest (done ++ [y])) (done : List β) :
    TripleOk (J l done) (l.mapM f) fun ys => J [] (done ++ ys) := by
  induction l generalizing done with
  | nil =>
    rw [List.mapM_nil]
    exact TripleOk.pure fun _ hs => by rw [List.append_nil]; exact hs
  | cons x l ih =>
    rw [List.mapM_cons]
    refine TripleOk.bind (h x l done List.mem_cons_self) fun y => ?_
    refine TripleOk.bind (ih (fun y rest done hy => h y rest done (List.mem_cons_of_mem _ hy))
      (done ++ [y])) fun ys => ?_
    exact TripleOk.pure fun _ hs => by rw [List.append_assoc] at hs; exact hs

/-! ## Computations and their failures -/

/-- A run of `m` from `P` ends in `Q`, or it fails with `E`. -/
structure TripleAll (P : σ → Prop) (m : ExceptT ε (StateM σ) α) (Q : α → σ → Prop)
    (E : ε → σ → Prop) : Prop where
  ok : TripleOk P m Q
  error : ∀ s e s', P s → m s = (.error e, s') → E e s'

namespace TripleAll

variable {E : ε → σ → Prop}

theorem lift {m : StateM σ β} (hm : Triple P m Q) :
    TripleAll P (liftM m : ExceptT ε (StateM σ) β) Q E where
  ok := .lift hm
  error s e s' _ h := by
    have h' : (liftM m : ExceptT ε (StateM σ) β) s = (.ok (m s).1, (m s).2) := rfl
    rw [h'] at h
    cases h

theorem pure {b : β} (h : ∀ s, P s → Q b s) :
    TripleAll P (Pure.pure b : ExceptT ε (StateM σ) β) Q E where
  ok := .pure h
  error s e s' _ h := by cases h

theorem get : TripleAll P (MonadState.get : ExceptT ε (StateM σ) σ) (fun t s => t = s ∧ P s) E where
  ok := .get
  error s e s' _ h := by cases h

theorem modify {g : σ → σ} {Q : Unit → σ → Prop} (h : ∀ s, P s → Q () (g s)) :
    TripleAll P (modify g : ExceptT ε (StateM σ) PUnit) Q E where
  ok := .modify h
  error s e s' _ h := by cases h

theorem set {t : σ} {Q : PUnit → σ → Prop} (h : ∀ s, P s → Q ⟨⟩ t) :
    TripleAll P (MonadStateOf.set t : ExceptT ε (StateM σ) PUnit) Q E where
  ok s a s' hs e := by
    cases e
    exact h s hs
  error s e s' _ h := by cases h

theorem throw {e : ε} (h : ∀ s, P s → E e s) :
    TripleAll P (MonadExcept.throw e : ExceptT ε (StateM σ) β) Q E where
  ok := .throw
  error s e' s' hs h' := by
    cases h'
    exact h s hs

theorem bind {R : α → σ → Prop} {m : ExceptT ε (StateM σ) α} {k : α → ExceptT ε (StateM σ) β}
    (hm : TripleAll P m R E) (hk : ∀ a, TripleAll (R a) (k a) Q E) : TripleAll P (m >>= k) Q E where
  ok := hm.ok.bind fun a => (hk a).ok
  error s e s' hs h := by
    rcases hms : m s with ⟨r, s1⟩
    have hbind : (m >>= k) s = ExceptT.bindCont k r s1 := by
      show (match m s with | (r, s) => ExceptT.bindCont k r s) = _
      rw [hms]
    rw [hbind] at h
    cases r with
    | ok a => exact (hk a).error s1 e s' (hm.ok s a s1 hs hms) h
    | error x =>
      cases h
      exact hm.error s _ _ hs hms

theorem mono {R : β → σ → Prop} {m : ExceptT ε (StateM σ) β} (hm : TripleAll P' m R E)
    (hp : ∀ s, P s → P' s) (hq : ∀ b s, R b s → Q b s) : TripleAll P m Q E where
  ok := hm.ok.mono hp hq
  error s e s' hs h := hm.error s e s' (hp s hs) h

/-- A run may be looked at from the state that it starts in. -/
theorem of_eq {m : ExceptT ε (StateM σ) β} (h : ∀ s, P s → TripleAll (· = s) m Q E) :
    TripleAll P m Q E where
  ok s a s' hs e := (h s hs).ok s a s' rfl e
  error s e s' hs he := (h s hs).error s e s' rfl he

/-- A computation may look at the state that it starts from. -/
theorem get_bind {k : σ → ExceptT ε (StateM σ) β} (h : ∀ s, P s → TripleAll (· = s) (k s) Q E) :
    TripleAll P (MonadState.get >>= k) Q E where
  ok s a s' hs e := (h s hs).ok s a s' rfl e
  error s e s' hs he := (h s hs).error s e s' rfl he

/-- Less may be said of the failures. -/
theorem mono_error {E' : ε → σ → Prop} {m : ExceptT ε (StateM σ) β} (hm : TripleAll P m Q E)
    (h : ∀ e s, E e s → E' e s) : TripleAll P m Q E' where
  ok := hm.ok
  error s e s' hs he := h e s' (hm.error s e s' hs he)

/-- What holds whatever the state is may be assumed. -/
theorem assume {p : Prop} {m : ExceptT ε (StateM σ) β} (h : p → TripleAll P m Q E) :
    TripleAll (fun s => P s ∧ p) m Q E where
  ok := .assume fun hp => (h hp).ok
  error s e s' hs he := (h hs.2).error s e s' hs.1 he

/-- What another triple says of the runs that do not fail. -/
theorem and {m : ExceptT ε (StateM σ) β} {Q' : β → σ → Prop} (h : TripleAll P m Q E)
    (h' : TripleOk P' m Q') :
    TripleAll (fun s => P s ∧ P' s) m (fun a s => Q a s ∧ Q' a s) E where
  ok := h.ok.and h'
  error s e s' hs he := h.error s e s' hs.1 he

theorem forIn {J : List α → σ → Prop}
    {f : α → PUnit → ExceptT ε (StateM σ) (ForInStep PUnit)} (l : List α)
    (h : ∀ x rest, x ∈ l →
      TripleAll (J (x :: rest)) (f x ⟨⟩) (fun r s => r = .yield ⟨⟩ ∧ J rest s) E) :
    TripleAll (J l) (ForIn.forIn l PUnit.unit f) (fun _ => J []) E := by
  induction l with
  | nil => exact pure fun _ hs => hs
  | cons x l ih =>
    rw [List.forIn_cons]
    refine bind (h x l List.mem_cons_self) fun r => ?_
    have hl := ih fun y rest hy => h y rest (List.mem_cons_of_mem _ hy)
    refine ⟨?_, ?_⟩
    · rintro s a s' ⟨rfl, hs⟩ e
      exact hl.ok s a s' hs e
    · rintro s a s' ⟨rfl, hs⟩ e
      exact hl.error s a s' hs e

theorem forM {J : List α → σ → Prop} {f : α → ExceptT ε (StateM σ) PUnit} (l : List α)
    (h : ∀ x rest, x ∈ l → TripleAll (J (x :: rest)) (f x) (fun _ => J rest) E) :
    TripleAll (J l) (l.forM f) (fun _ => J []) E := by
  induction l with
  | nil => exact pure fun _ hs => hs
  | cons x l ih =>
    show TripleAll _ (f x >>= fun _ => l.forM f) _ _
    exact bind (h x l List.mem_cons_self) fun _ =>
      ih fun y rest hy => h y rest (List.mem_cons_of_mem _ hy)

theorem foldlM {J : List α → γ → σ → Prop}
    {f : γ → α → ExceptT ε (StateM σ) γ} (l : List α)
    (h : ∀ x rest acc, x ∈ l → TripleAll (J (x :: rest) acc) (f acc x) (J rest) E) (acc : γ) :
    TripleAll (J l acc) (l.foldlM f acc) (J []) E := by
  induction l generalizing acc with
  | nil => exact pure fun _ hs => hs
  | cons x l ih =>
    rw [List.foldlM_cons]
    exact bind (h x l acc List.mem_cons_self) fun acc =>
      ih (fun y rest acc hy => h y rest acc (List.mem_cons_of_mem _ hy)) acc

theorem mapM {J : List α → List β → σ → Prop}
    {f : α → ExceptT ε (StateM σ) β} (l : List α)
    (h : ∀ x rest done, x ∈ l →
      TripleAll (J (x :: rest) done) (f x) (fun y => J rest (done ++ [y])) E) (done : List β) :
    TripleAll (J l done) (l.mapM f) (fun ys => J [] (done ++ ys)) E := by
  induction l generalizing done with
  | nil =>
    rw [List.mapM_nil]
    exact pure fun _ hs => by rw [List.append_nil]; exact hs
  | cons x l ih =>
    rw [List.mapM_cons]
    refine bind (h x l done List.mem_cons_self) fun y => ?_
    refine bind (ih (fun y rest done hy => h y rest done (List.mem_cons_of_mem _ hy))
      (done ++ [y])) fun ys => ?_
    exact pure fun _ hs => by rw [List.append_assoc] at hs; exact hs

end TripleAll

end Lockstep
