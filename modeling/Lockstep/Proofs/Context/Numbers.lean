import Lockstep.Proofs.Context.Sound
import Lockstep.Proofs.Context.Text
import Mathlib.Data.List.Forall2

/-!
# Numbers of types and constants

Every request leaves a context sound and gets a number that stands for what was asked for, also when
the context has grown (`Sound.performAll`). With the texts being unambiguous, numbers, types and texts
tell the same types apart, and numbers and texts the same constants (`numbers_exact`).
-/

namespace Lockstep

namespace Context

variable {c c' c'' : Context} {t : TyId} {n : Nat}

/-! ## Requests -/

/-- The number `n` stands for the constant that `make` makes of the type `t`. -/
structure IsConstOf (c : Context) (n : ConstId) (make : Ty → Const) (t : TyId) : Prop where
  hasTy : c.HasTy t
  hasConst : c.HasConst n
  const_eq : c.const n = make (c.ty t)

theorem IsConstOf.grows {make : Ty → Const} (hn : c.IsConstOf n make t) (h : c.Sound)
    (h' : c'.Sound) (hg : c.Grows c') : c'.IsConstOf n make t where
  hasTy := hg.hasTy hn.hasTy
  hasConst := hg.hasConst hn.hasConst
  const_eq := by
    rw [h.const_of_grows h' hg hn.hasConst, h.ty_of_grows h' hg hn.hasTy, hn.const_eq]

/-- The number `n` stands for what `r` asks for. -/
def Answers (c : Context) (n : Nat) : Request → Prop
  | .name s => c.names.get? n = some s
  | .ty d => c.types.get? n = some d
  | .const e => c.consts.get? n = some e
  | .bool b => c.HasConst n ∧ c.const n = .ofBool b
  | .int t x => c.IsConstOf n (Const.ofInt · x) t
  | .float t x => c.IsConstOf n (Const.ofFloat · x) t
  | .undefined t => c.IsConstOf n Const.undefined t

theorem Answers.grows {r : Request} (hr : c.Answers n r) (h : c.Sound) (h' : c'.Sound)
    (hg : c.Grows c') : c'.Answers n r := by
  cases r with
  | name s => exact hg.names n s hr
  | ty d => exact hg.types n d hr
  | const e => exact hg.consts n e hr
  | bool b => exact ⟨hg.hasConst hr.1, (h.const_of_grows h' hg hr.1).trans hr.2⟩
  | int t x => exact IsConstOf.grows hr h h' hg
  | float t x => exact IsConstOf.grows hr h h' hg
  | undefined t => exact IsConstOf.grows hr h h' hg

theorem ty_ofInt (ty : Ty) (x : Int64) : (Const.ofInt ty x).ty = ty := by
  unfold Const.ofInt
  split <;> rfl

theorem ty_ofFloat (ty : Ty) (x : Binary64) : (Const.ofFloat ty x).ty = ty := by
  unfold Const.ofFloat
  split <;> rfl

/-- A constant that keeps its type is interned. -/
theorem Sound.constOf {make : Ty → Const} (h : c.Sound) (ht : c.HasTy t)
    (hmake : (make (c.ty t)).ty = c.ty t) : (c.constOf make t).2.Sound ∧
      c.Grows (c.constOf make t).2 ∧ (c.constOf make t).2.IsConstOf (c.constOf make t).1 make t := by
  have hs : (c.constOf make t).2.Sound := h.internConst ht
  have hg : c.Grows (c.constOf make t).2 := grows_internConst c _
  obtain ⟨hn, e⟩ := h.const_internConst (e := ⟨t, (make (c.ty t)).val⟩) ht
  refine ⟨hs, hg, hg.hasTy ht, hn, ?_⟩
  rw [h.ty_of_grows hs hg ht]
  exact e.trans (congrArg (Const.mk · (make (c.ty t)).val) hmake.symm)

/-- An answer is right, and leaves the context sound. -/
theorem Sound.answer {r : Request} (h : c.Sound) (hr : ∀ t ∈ r.types, c.HasTy t) :
    (c.answer r).2.Sound ∧ c.Grows (c.answer r).2 ∧ (c.answer r).2.Answers (c.answer r).1 r := by
  cases r with
  | name s => exact ⟨h.internName s, grows_internName c s, Interner.get?_intern _ s⟩
  | ty d => exact ⟨h.internTy hr, grows_internTy c d, Interner.get?_intern _ d⟩
  | const e =>
    exact ⟨h.internConst (hr e.ty List.mem_cons_self), grows_internConst c e,
      Interner.get?_intern _ e⟩
  | bool b =>
    have ht := h.numbered_leaf (d := .bool) rfl
    obtain ⟨hn, e⟩ := ht.sound.const_internConst (e := ⟨_, (Const.ofBool b).val⟩) ht.hasTy
    refine ⟨ht.sound.internConst ht.hasTy, ht.grows.trans (grows_internConst _ _), hn, e.trans ?_⟩
    rw [ht.ty_eq]
    rfl
  | int t x => exact h.constOf (hr t List.mem_cons_self) (ty_ofInt _ x)
  | float t x => exact h.constOf (hr t List.mem_cons_self) (ty_ofFloat _ x)
  | undefined t => exact h.constOf (hr t List.mem_cons_self) rfl

theorem isSome_perform_iff {r : Request} :
    (c.perform r).isSome ↔ ∀ t ∈ r.types, c.HasTy t := by
  unfold Context.perform
  split
  · rename_i ht
    exact iff_of_true rfl ht
  · rename_i ht
    exact iff_of_false Bool.false_ne_true ht

theorem Sound.perform {r : Request} (h : c.Sound) (hr : c.perform r = some (n, c')) :
    c'.Sound ∧ c.Grows c' ∧ c'.Answers n r := by
  unfold Context.perform at hr
  split at hr
  · rename_i ht
    obtain ⟨rfl, rfl⟩ := Prod.mk.inj (Option.some.inj hr)
    exact h.answer ht
  · cases hr

theorem performAll_cons {r : Request} {rs : List Request} {ns : List Nat}
    (h : c.performAll (r :: rs) = some (ns, c'')) : ∃ n c' ns', c.perform r = some (n, c') ∧
      c'.performAll rs = some (ns', c'') ∧ ns = n :: ns' := by
  rw [performAll] at h
  obtain ⟨⟨n, c'⟩, hr, h⟩ := Option.bind_eq_some_iff.mp h
  obtain ⟨⟨ns', c₂⟩, hrs, h⟩ := Option.bind_eq_some_iff.mp h
  obtain ⟨rfl, rfl⟩ := Prod.mk.inj (Option.some.inj h)
  exact ⟨n, c', ns', hr, hrs, rfl⟩

/-- Answers to several requests are right in the end. -/
theorem Sound.performAll {rs : List Request} {ns : List Nat} (h : c.Sound)
    (hrs : c.performAll rs = some (ns, c')) :
    c'.Sound ∧ c.Grows c' ∧ List.Forall₂ (fun r n => c'.Answers n r) rs ns := by
  induction rs generalizing c ns with
  | nil =>
    obtain ⟨rfl, rfl⟩ := Prod.mk.inj (Option.some.inj hrs)
    exact ⟨h, .refl c, .nil⟩
  | cons r rs ih =>
    obtain ⟨n, c₁, ns', hr, hrest, rfl⟩ := performAll_cons hrs
    obtain ⟨h₁, hg₁, hn⟩ := h.perform hr
    obtain ⟨h', hg', hns⟩ := ih h₁ hrest
    exact ⟨h', hg₁.trans hg', .cons (hn.grows h₁ h' hg') hns⟩

/-- A request for a truth value, an integer or an undefined value. -/
def Request.IsPlain : Request → Prop
  | .bool _ | .int _ _ | .undefined _ => True
  | .name _ | .ty _ | .const _ | .float _ _ => False

theorem Answers.plain {r : Request} (hr : r.IsPlain) (h : c.Answers n r) :
    c.HasConst n ∧ (c.const n).Plain := by
  cases r with
  | bool b => exact ⟨h.1, h.2 ▸ Const.plain_ofBool b⟩
  | int t x => exact ⟨h.hasConst, h.const_eq ▸ Const.plain_ofInt _ x⟩
  | undefined t => exact ⟨h.hasConst, h.const_eq ▸ Const.plain_undefined _⟩
  | name s => exact hr.elim
  | ty d => exact hr.elim
  | const e => exact hr.elim
  | float t x => exact hr.elim

/-- Everything that numbers of `c` stand for they stand for in `c'`. -/
structure Keeps (c c' : Context) : Prop extends c.Grows c' where
  ty : ∀ t, c.HasTy t → c'.ty t = c.ty t ∧ c'.tyText t = c.tyText t
  const : ∀ n, c.HasConst n → c'.const n = c.const n ∧ c'.constText n = c.constText n

theorem Sound.keeps (h : c.Sound) (h' : c'.Sound) (hg : c.Grows c') : c.Keeps c' :=
  { hg with
    ty := fun t ht => by
      have e := h.ty_of_grows h' hg ht
      exact ⟨e, by rw [h'.tyText_eq_text (hg.hasTy ht), h.tyText_eq_text ht, e]⟩
    const := fun n hn => by
      have e := h.const_of_grows h' hg hn
      exact ⟨e, congrArg Const.text e⟩ }

/-- After any requests, the numbers of a context are exact. Any request for what is made of types with
numbers is answered; the numbers keep what they stand for, whatever is requested later; each of them
stands for what was requested; a type and its text are made of its parts and their texts; two types
have the same number if they are equal, and if they have the same text; and two constants that are
truth values, integers or undefined have the same number if they have the same text. -/
theorem numbers_exact {rs : List Request} {ns : List Nat}
    (h : performAll {} rs = some (ns, c)) :
    (∀ r, (c.perform r).isSome ↔ ∀ t ∈ r.types, c.HasTy t) ∧
    (∀ rs' ns' c', c.performAll rs' = some (ns', c') → c.Keeps c') ∧
    ns.length = rs.length ∧
    (∀ (i : Nat) r n, rs[i]? = some r → ns[i]? = some n → c.Answers n r) ∧
    (∀ t d, c.types.get? t = some d → c.ty t = d.build c.ty ∧ c.tyText t = d.text c.tyText) ∧
    (∀ t u, c.HasTy t → c.HasTy u →
      (t = u ↔ c.ty t = c.ty u) ∧ (t = u ↔ c.tyText t = c.tyText u)) ∧
    ∀ (i j : Nat) (r r' : Request) (m n : ConstId), rs[i]? = some r → rs[j]? = some r' →
      r.IsPlain → r'.IsPlain → ns[i]? = some m → ns[j]? = some n →
        (m = n ↔ c.constText m = c.constText n) := by
  obtain ⟨hs, -, hall⟩ := sound_empty.performAll h
  have hanswers : ∀ (i : Nat) r n, rs[i]? = some r → ns[i]? = some n → c.Answers n r := by
    intro i r n hr hn
    obtain ⟨hi, rfl⟩ := List.getElem?_eq_some_iff.mp hr
    obtain ⟨hi', rfl⟩ := List.getElem?_eq_some_iff.mp hn
    exact hall.get hi hi'
  refine ⟨fun r => isSome_perform_iff, fun rs' ns' c' h' => ?_, hall.length_eq.symm, hanswers,
    fun t d hd => ⟨hs.ty_eq hd, hs.tyText_eq hd⟩,
    fun t u ht hu => ⟨⟨fun e => e ▸ rfl, hs.ty_inj ht hu⟩, ?_⟩,
    fun i j r r' m n hr hr' hp hp' hm hn => ⟨fun e => e ▸ rfl, fun e => ?_⟩⟩
  · obtain ⟨hs', hg, -⟩ := hs.performAll h'
    exact hs.keeps hs' hg
  · rw [hs.tyText_eq_text ht, hs.tyText_eq_text hu, Ty.text_injective.eq_iff]
    exact ⟨fun e => e ▸ rfl, hs.ty_inj ht hu⟩
  · obtain ⟨hm, hmp⟩ := (hanswers i r m hr hm).plain hp
    obtain ⟨hn, hnp⟩ := (hanswers j r' n hr' hn).plain hp'
    exact hs.const_inj hm hn (Const.eq_of_text_eq hmp hnp e)

/-- A truth value, an integer and two structures, one of them empty. Wrapped at eight bits 261 is 5, and
has its number. -/
theorem numbers_exact_wrapped : ∃ c : Context,
    performAll {} [.ty .bool, .ty (.int 8), .ty (.struct []), .ty (.struct [0, 1]), .int 1 5,
      .int 1 261, .undefined 1, .bool true] = some ([0, 1, 2, 3, 0, 0, 1, 2], c) ∧
    c.ty 3 = .struct [.bool, .int 8] ∧ c.tyText 2 ≠ c.tyText 3 ∧ c.constText 0 ≠ c.constText 1 := by
  have h : performAll {} [.ty .bool, .ty (.int 8), .ty (.struct []), .ty (.struct [0, 1]), .int 1 5,
      .int 1 261, .undefined 1, .bool true] = some ([0, 1, 2, 3, 0, 0, 1, 2], ⟨⟨[]⟩,
        ⟨[.bool, .int 8, .struct [], .struct [0, 1]]⟩,
        ⟨[⟨1, .int 5⟩, ⟨1, .undefined⟩, ⟨0, .bool true⟩]⟩⟩) := rfl
  obtain ⟨-, -, -, -, -, htypes, hconsts⟩ := numbers_exact h
  refine ⟨_, h, rfl, fun e => ?_, fun e => ?_⟩
  · exact absurd ((htypes 2 3 (by decide) (by decide)).2.mpr e) (by decide)
  · exact absurd ((hconsts 4 6 _ _ 0 1 rfl rfl trivial trivial rfl rfl).mpr e) (by decide)

end Context

end Lockstep
