import Lockstep.Context
import Mathlib.Data.List.Nodup

/-!
# Sound contexts

No two numbers of a context stand for the same, and the parts of a type have smaller numbers than the
type (`Sound`). Hence a type is read off its number part by part (`Sound.ty_eq`), what a number stands
for stays the same when the context grows (`Sound.ty_of_grows`), and, by induction on the numbers,
types that are equal have one number (`Sound.ty_inj`). A type that is interned after its parts is read
back from its number (`Sound.number`).
-/

namespace Lockstep

/-! ## One interner -/

namespace Interner

variable {α : Type} {t : Interner α} {x : α} {i j : Nat}

theorem lt_of_get?_eq_some (h : t.get? i = some x) : i < t.values.length :=
  (List.getElem?_eq_some_iff.mp h).1

theorem exists_get?_eq_some (h : i < t.values.length) : ∃ x, t.get? i = some x :=
  ⟨_, List.getElem?_eq_getElem h⟩

theorem eq_of_get?_eq_some (h : t.values.Nodup) (hi : t.get? i = some x) (hj : t.get? j = some x) :
    i = j := by
  obtain ⟨hi', ei⟩ := List.getElem?_eq_some_iff.mp hi
  obtain ⟨hj', ej⟩ := List.getElem?_eq_some_iff.mp hj
  exact (h.getElem_inj_iff).mp (ei.trans ej.symm)

variable [DecidableEq α]

/-- A new value comes after all others. -/
theorem values_intern (t : Interner α) (x : α) : (t.intern x).2.values = t.values ∨
    x ∉ t.values ∧ (t.intern x).2.values = t.values ++ [x] := by
  cases h : t.values.idxOf? x with
  | some n => exact .inl (by rw [intern_eq_of_some h])
  | none => exact .inr ⟨List.idxOf?_eq_none_iff.mp h, by rw [intern_eq_of_none h]⟩

theorem nodup_intern (h : t.values.Nodup) (x : α) : (t.intern x).2.values.Nodup := by
  rcases values_intern t x with e | ⟨hx, e⟩
  · rwa [e]
  · rw [e, ← List.concat_eq_append]
    exact h.concat hx

/-- A number is an old one, or it stands for the new value. -/
theorem get?_of_get?_intern {y : α} (h : (t.intern x).2.get? i = some y) :
    t.get? i = some y ∨ i = t.values.length ∧ y = x := by
  rcases values_intern t x with e | ⟨-, e⟩
  · rw [get?, e] at h
    exact .inl h
  · rw [get?, e] at h
    rcases Nat.lt_trichotomy i t.values.length with hlt | rfl | hgt
    · rw [List.getElem?_append_left hlt] at h
      exact .inl h
    · rw [List.getElem?_concat_length] at h
      exact .inr ⟨rfl, (Option.some.inj h).symm⟩
    · rw [List.getElem?_eq_none (by simp; omega)] at h
      cases h

end Interner

/-! ## Types from their parts -/

namespace TyDef

variable {f g : TyId → Ty} {d e : TyDef}

theorem build_congr (h : ∀ p ∈ d.parts, f p = g p) : d.build f = d.build g := by
  cases d with
  | ptr p => exact congrArg Ty.ptr (h p List.mem_cons_self)
  | vector n p => exact congrArg (Ty.vector n) (h p List.mem_cons_self)
  | struct ps => exact congrArg Ty.struct (List.map_congr_left h)
  | _ => rfl

theorem text_congr {f g : TyId → String} (h : ∀ p ∈ d.parts, f p = g p) : d.text f = d.text g := by
  cases d with
  | ptr p => simp only [text, h p List.mem_cons_self]
  | vector n p => simp only [text, h p List.mem_cons_self]
  | struct ps => rw [text, text, List.map_congr_left (show ∀ p ∈ ps, f p = g p from h)]
  | _ => rfl

/-- Where different parts are different types, so are the types made of them. -/
theorem eq_of_build_eq (h : ∀ p ∈ d.parts, ∀ q ∈ e.parts, f p = f q → p = q)
    (he : d.build f = e.build f) : d = e := by
  cases d <;> cases e <;> simp only [build, Ty.int.injEq, Ty.float.injEq, Ty.ptr.injEq,
    Ty.vector.injEq, Ty.struct.injEq, reduceCtorEq] at he
  case void.void => rfl
  case bool.bool => rfl
  case int.int => rw [he]
  case float.float => rw [he]
  case ptr.ptr p q => rw [h p List.mem_cons_self q List.mem_cons_self he]
  case vector.vector m p n q => rw [he.1, h p List.mem_cons_self q List.mem_cons_self he.2]
  case struct.struct ps qs =>
    refine congrArg TyDef.struct (List.ext_getElem? fun i => ?_)
    have hi := congrArg (·[i]?) he
    simp only [List.getElem?_map] at hi
    cases hp : ps[i]? with
    | none => cases hq : qs[i]? <;> simp_all
    | some p =>
      cases hq : qs[i]? with
      | none => simp_all
      | some q =>
        rw [hp, hq] at hi
        rw [h p (List.mem_of_getElem? hp) q (List.mem_of_getElem? hq) (Option.some.inj hi)]

end TyDef

theorem Ty.textFields_eq : ∀ ts : List Ty, textFields ts = commaSeparated (ts.map text)
  | [] => rfl
  | [t] => by simp [textFields, commaSeparated]
  | t :: u :: ts => by
    rw [textFields, textFields_eq (u :: ts)]
    simp [commaSeparated]

/-- The text of a type is made of those of its parts. -/
theorem TyDef.text_build (f : TyId → Ty) (d : TyDef) :
    (d.build f).text = d.text fun p => (f p).text := by
  cases d with
  | struct ps =>
    show "\x7b" ++ Ty.textFields (ps.map f) ++ "\x7d" = _
    rw [Ty.textFields_eq, List.map_map]
    rfl
  | _ => rfl

namespace Context

variable {c c' c'' : Context} {t u : TyId} {m n : Nat} {d : TyDef} {e : ConstDef} {t' : Ty}

/-! ## Contexts that grow -/

/-- What numbers stand for in `c` they stand for in `c'`. -/
structure Grows (c c' : Context) : Prop where
  names : ∀ n s, c.names.get? n = some s → c'.names.get? n = some s
  types : ∀ t d, c.types.get? t = some d → c'.types.get? t = some d
  consts : ∀ k e, c.consts.get? k = some e → c'.consts.get? k = some e

theorem Grows.refl (c : Context) : c.Grows c where
  names _ _ h := h
  types _ _ h := h
  consts _ _ h := h

theorem Grows.trans (h : c.Grows c') (k : c'.Grows c'') : c.Grows c'' where
  names n s hn := k.names n s (h.names n s hn)
  types t d ht := k.types t d (h.types t d ht)
  consts n e hn := k.consts n e (h.consts n e hn)

theorem Grows.hasTy (h : c.Grows c') (ht : c.HasTy t) : c'.HasTy t := by
  obtain ⟨d, hd⟩ := Interner.exists_get?_eq_some ht
  exact Interner.lt_of_get?_eq_some (h.types t d hd)

theorem Grows.hasConst (h : c.Grows c') (hn : c.HasConst n) : c'.HasConst n := by
  obtain ⟨e, he⟩ := Interner.exists_get?_eq_some hn
  exact Interner.lt_of_get?_eq_some (h.consts n e he)

theorem grows_internName (c : Context) (s : String) : c.Grows (c.internName s).2 :=
  { Grows.refl c with names := fun _ _ h => Interner.get?_intern_of_eq_some h s }

theorem grows_internTy (c : Context) (d : TyDef) : c.Grows (c.internTy d).2 :=
  { Grows.refl c with types := fun _ _ h => Interner.get?_intern_of_eq_some h d }

theorem grows_internConst (c : Context) (e : ConstDef) : c.Grows (c.internConst e).2 :=
  { Grows.refl c with consts := fun _ _ h => Interner.get?_intern_of_eq_some h e }

/-- No two numbers stand for the same, and what a type or a constant is made of has been numbered
before. -/
structure Sound (c : Context) : Prop where
  types_nodup : c.types.values.Nodup
  consts_nodup : c.consts.values.Nodup
  older : ∀ t d, c.types.get? t = some d → ∀ p ∈ d.parts, p < t
  typed : ∀ k e, c.consts.get? k = some e → c.HasTy e.ty

theorem sound_empty : Sound {} where
  types_nodup := List.nodup_nil
  consts_nodup := List.nodup_nil
  older t d h := by cases h
  typed k e h := by cases h

theorem Sound.internName (h : c.Sound) (s : String) : (c.internName s).2.Sound :=
  ⟨h.types_nodup, h.consts_nodup, h.older, h.typed⟩

theorem Sound.internTy (h : c.Sound) (hd : ∀ p ∈ d.parts, c.HasTy p) :
    (c.internTy d).2.Sound where
  types_nodup := Interner.nodup_intern h.types_nodup d
  consts_nodup := h.consts_nodup
  older t e he p hp := by
    rcases Interner.get?_of_get?_intern he with he | ⟨rfl, rfl⟩
    · exact h.older t e he p hp
    · exact hd p hp
  typed k e he := (grows_internTy c d).hasTy (h.typed k e he)

theorem Sound.internConst (h : c.Sound) (he : c.HasTy e.ty) : (c.internConst e).2.Sound where
  types_nodup := h.types_nodup
  consts_nodup := Interner.nodup_intern h.consts_nodup e
  older := h.older
  typed k e' he' := by
    rcases Interner.get?_of_get?_intern he' with he' | ⟨-, rfl⟩
    · exact h.typed k e' he'
    · exact he

/-! ## What a number stands for -/

section Fold

variable {α : Type} {step : (TyId → α) → TyDef → α} {missing : α}
  (hstep : ∀ (d : TyDef) (f g : TyId → α), (∀ p ∈ d.parts, f p = g p) → step f d = step g d)

include hstep

/-- Going deeper than the number of a type makes no difference. -/
theorem Sound.fold_of_lt (h : c.Sound) {fuel : Nat} (hf : t < fuel) :
    c.fold step missing fuel t = c.fold step missing (t + 1) t := by
  induction t using Nat.strongRecOn generalizing fuel with
  | ind t ih =>
    obtain ⟨fuel, rfl⟩ := Nat.exists_eq_add_one_of_ne_zero (Nat.ne_zero_of_lt hf)
    rw [fold, fold]
    cases hd : c.types.get? t with
    | none => rfl
    | some d =>
      refine hstep d _ _ fun p hp => ?_
      have hpt := h.older t d hd p hp
      rw [ih p hpt (Nat.lt_of_lt_of_le hpt (Nat.le_of_lt_succ hf)), ih p hpt hpt]

theorem Sound.fold_eq (h : c.Sound) (hd : c.types.get? t = some d) :
    c.fold step missing (t + 1) t = step (fun p => c.fold step missing (p + 1) p) d := by
  rw [fold, hd]
  exact hstep d _ _ fun p hp => h.fold_of_lt hstep (h.older t d hd p hp)

end Fold

/-- A type is made of its parts. -/
theorem Sound.ty_eq (h : c.Sound) (hd : c.types.get? t = some d) : c.ty t = d.build c.ty :=
  h.fold_eq (fun _ _ _ => TyDef.build_congr) hd

/-- The text of a type is made of those of its parts. -/
theorem Sound.tyText_eq (h : c.Sound) (hd : c.types.get? t = some d) :
    c.tyText t = d.text c.tyText :=
  h.fold_eq (fun _ _ _ => TyDef.text_congr) hd

theorem Sound.hasTy_of_mem_parts (h : c.Sound) (hd : c.types.get? t = some d) {p : TyId}
    (hp : p ∈ d.parts) : c.HasTy p :=
  Nat.lt_trans (h.older t d hd p hp) (Interner.lt_of_get?_eq_some hd)

/-- The text of a number is that of the type. -/
theorem Sound.tyText_eq_text (h : c.Sound) (ht : c.HasTy t) : c.tyText t = (c.ty t).text := by
  induction t using Nat.strongRecOn with
  | ind t ih =>
    obtain ⟨d, hd⟩ := Interner.exists_get?_eq_some ht
    rw [h.tyText_eq hd, h.ty_eq hd, TyDef.text_build]
    exact TyDef.text_congr fun p hp => ih p (h.older t d hd p hp) (h.hasTy_of_mem_parts hd hp)

/-- The types of a context stay when it grows. -/
theorem Sound.ty_of_grows (h : c.Sound) (h' : c'.Sound) (hg : c.Grows c') (ht : c.HasTy t) :
    c'.ty t = c.ty t := by
  induction t using Nat.strongRecOn with
  | ind t ih =>
    obtain ⟨d, hd⟩ := Interner.exists_get?_eq_some ht
    rw [h'.ty_eq (hg.types t d hd), h.ty_eq hd]
    exact TyDef.build_congr fun p hp => ih p (h.older t d hd p hp) (h.hasTy_of_mem_parts hd hp)

/-- Different numbers stand for different types. -/
theorem Sound.ty_inj (h : c.Sound) (ht : c.HasTy t) (hu : c.HasTy u) (e : c.ty t = c.ty u) :
    t = u := by
  induction t using Nat.strongRecOn generalizing u with
  | ind t ih =>
    obtain ⟨d, hd⟩ := Interner.exists_get?_eq_some ht
    obtain ⟨d', hd'⟩ := Interner.exists_get?_eq_some hu
    rw [h.ty_eq hd, h.ty_eq hd'] at e
    have hparts : d = d' := TyDef.eq_of_build_eq (fun p hp q hq =>
      ih p (h.older t d hd p hp) (h.hasTy_of_mem_parts hd hp) (h.hasTy_of_mem_parts hd' hq)) e
    exact Interner.eq_of_get?_eq_some h.types_nodup hd (hparts ▸ hd')

theorem const_eq (he : c.consts.get? n = some e) : c.const n = ⟨c.ty e.ty, e.val⟩ := by
  rw [const, he]

theorem Sound.const_of_grows (h : c.Sound) (h' : c'.Sound) (hg : c.Grows c') (hn : c.HasConst n) :
    c'.const n = c.const n := by
  obtain ⟨e, he⟩ := Interner.exists_get?_eq_some hn
  rw [const_eq he, const_eq (hg.consts n e he), h.ty_of_grows h' hg (h.typed n e he)]

/-- Different numbers stand for different constants. -/
theorem Sound.const_inj (h : c.Sound) (hm : c.HasConst m) (hn : c.HasConst n)
    (e : c.const m = c.const n) : m = n := by
  obtain ⟨a, ha⟩ := Interner.exists_get?_eq_some hm
  obtain ⟨b, hb⟩ := Interner.exists_get?_eq_some hn
  rw [const_eq ha, const_eq hb] at e
  obtain ⟨hty, hval⟩ := Const.mk.inj e
  have hab : a = b := by
    obtain ⟨t, x⟩ := a
    obtain ⟨u, y⟩ := b
    obtain rfl : t = u := h.ty_inj (h.typed m _ ha) (h.typed n _ hb) hty
    rw [show x = y from hval]
  exact Interner.eq_of_get?_eq_some h.consts_nodup ha (hab ▸ hb)

/-! ## Whole types -/

/-- `c'` is sound, grown from `c`, and reads `t` from `n`. -/
structure Numbered (c c' : Context) (n : TyId) (t : Ty) : Prop where
  sound : c'.Sound
  grows : c.Grows c'
  hasTy : c'.HasTy n
  ty_eq : c'.ty n = t

theorem Sound.numbered_internTy (h : c.Sound) (hd : ∀ p ∈ d.parts, c.HasTy p) :
    c.Numbered (c.internTy d).2 (c.internTy d).1 (d.build c.ty) := by
  have hg := grows_internTy c d
  have hs := h.internTy hd
  have hget : (c.internTy d).2.types.get? (c.internTy d).1 = some d := Interner.get?_intern _ d
  refine ⟨hs, hg, Interner.lt_of_get?_eq_some hget, ?_⟩
  rw [hs.ty_eq hget]
  exact TyDef.build_congr fun p hp => h.ty_of_grows hs hg (hd p hp)

/-- A type without parts can always be interned. -/
theorem Sound.numbered_leaf (h : c.Sound) (hd : d.parts = []) :
    c.Numbered (c.internTy d).2 (c.internTy d).1 (d.build c.ty) :=
  h.numbered_internTy fun _ hp => absurd (hd ▸ hp) List.not_mem_nil

theorem Numbered.of_grows (h : c'.Numbered c'' n t') (hg : c.Grows c') : c.Numbered c'' n t' :=
  { h with grows := hg.trans h.grows }

/-- A type is interned around its only part. -/
theorem Numbered.around (h : c.Numbered c' n t') (hd : d.parts = [n]) :
    c.Numbered (c'.internTy d).2 (c'.internTy d).1 (d.build fun _ => t') := by
  have heq : ∀ p ∈ d.parts, p = n := fun p hp => List.mem_singleton.mp (hd ▸ hp)
  have hp := h.sound.numbered_internTy (d := d) fun p hp => heq p hp ▸ h.hasTy
  rw [TyDef.build_congr fun p hp => (congrArg c'.ty (heq p hp)).trans h.ty_eq] at hp
  exact hp.of_grows h.grows

mutual

/-- A type that is interned after its parts is read back. -/
theorem Sound.number {c : Context} (h : c.Sound) (t : Ty) :
    c.Numbered (c.number t).2 (c.number t).1 t := by
  cases t with
  | void => exact h.numbered_leaf (d := .void) rfl
  | bool => exact h.numbered_leaf (d := .bool) rfl
  | int w => exact h.numbered_leaf (d := .int w) rfl
  | float w => exact h.numbered_leaf (d := .float w) rfl
  | ptr t => exact (h.number t).around (d := .ptr (c.number t).1) rfl
  | vector len t => exact (h.number t).around (d := .vector len (c.number t).1) rfl
  | struct ts =>
    obtain ⟨hs, hg, hall, e⟩ := h.numberAll ts
    have hp := hs.numbered_internTy (d := .struct (c.numberAll ts).1) hall
    rw [TyDef.build, e] at hp
    exact hp.of_grows hg

/-- The same of several types. -/
theorem Sound.numberAll {c : Context} (h : c.Sound) (ts : List Ty) : (c.numberAll ts).2.Sound ∧
    c.Grows (c.numberAll ts).2 ∧ (∀ n ∈ (c.numberAll ts).1, (c.numberAll ts).2.HasTy n) ∧
      (c.numberAll ts).1.map (c.numberAll ts).2.ty = ts := by
  match ts with
  | [] => exact ⟨h, .refl c, fun n hn => absurd hn List.not_mem_nil, rfl⟩
  | t :: ts =>
    have ht := h.number t
    obtain ⟨hs, hg, hall, e⟩ := ht.sound.numberAll ts
    refine ⟨hs, ht.grows.trans hg, fun n hn => ?_, ?_⟩
    · rcases List.mem_cons.mp hn with rfl | hn
      · exact hg.hasTy ht.hasTy
      · exact hall n hn
    · exact congrArg₂ List.cons ((ht.sound.ty_of_grows hs hg ht.hasTy).trans ht.ty_eq) e

end

/-- A constant of a type with a number is read back. -/
theorem Sound.const_internConst (h : c.Sound) (he : c.HasTy e.ty) :
    (c.internConst e).2.HasConst (c.internConst e).1 ∧
      (c.internConst e).2.const (c.internConst e).1 = ⟨c.ty e.ty, e.val⟩ := by
  have hget : (c.internConst e).2.consts.get? (c.internConst e).1 = some e := Interner.get?_intern _ e
  refine ⟨Interner.lt_of_get?_eq_some hget, ?_⟩
  rw [const_eq hget, h.ty_of_grows (h.internConst he) (grows_internConst c e) he]

/-- Constants that are interned after their types are read back. -/
theorem Sound.numberConsts (h : c.Sound) (ks : List Const) : (c.numberConsts ks).2.Sound ∧
    c.Grows (c.numberConsts ks).2 ∧
      (c.numberConsts ks).1.map (c.numberConsts ks).2.const = ks := by
  induction ks generalizing c with
  | nil => exact ⟨h, .refl c, rfl⟩
  | cons k ks ih =>
    have ht := h.number k.ty
    have hk := ht.sound.internConst (e := ⟨(c.number k.ty).1, k.val⟩) ht.hasTy
    obtain ⟨hn, e⟩ := ht.sound.const_internConst (e := ⟨(c.number k.ty).1, k.val⟩) ht.hasTy
    obtain ⟨hs, hg, eks⟩ := ih hk
    refine ⟨hs, (ht.grows.trans (grows_internConst _ _)).trans hg, ?_⟩
    refine congrArg₂ List.cons ((hk.const_of_grows hs hg hn).trans (e.trans ?_)) eks
    rw [ht.ty_eq]

end Context

end Lockstep
