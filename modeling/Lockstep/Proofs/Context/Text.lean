import Lockstep.Func.Basic
import Mathlib.Data.List.Basic

/-!
# Texts of types and constants

Types and constants are told apart by their texts. A number is read as far as its digits go, and
nothing that comes after a number starts with a digit (`NoDigit`); a type is known by its first
character, and its parts stand between characters that end them. Hence what comes first in a text can
be read off it (`Ty.text_append_inj`), whatever comes after.
-/

namespace Lockstep

/-! ## Numbers -/

/-- No number goes on at the start of a text. -/
def NoDigit (r : List Char) : Prop := ∀ c ∈ r.head?, c.isDigit = false

theorem noDigit_nil : NoDigit [] := fun _ h => nomatch h

theorem noDigit_cons {c : Char} {r : List Char} (h : c.isDigit = false) : NoDigit (c :: r) :=
  fun _ e => Option.some.inj e ▸ h

theorem takeWhile_noDigit {r : List Char} (h : NoDigit r) : r.takeWhile Char.isDigit = [] := by
  cases r with
  | nil => rfl
  | cons c r => rw [List.takeWhile_cons, h c rfl]; rfl

theorem toList_toString_nat (n : Nat) : (toString n).toList = Nat.toDigits 10 n := Nat.toList_repr

theorem eq_of_toList_toString {m n : Nat} (h : (toString m).toList = (toString n).toList) : m = n := by
  rw [toList_toString_nat, toList_toString_nat] at h
  have hv := congrArg (Nat.ofDigitChars 10 · 0) h
  simpa [Nat.ofDigitChars_toDigits] using hv

theorem isDigit_of_mem {n : Nat} {c : Char} (h : c ∈ (toString n).toList) : c.isDigit = true :=
  Nat.isDigit_of_mem_toDigits (by decide) (by decide) (toList_toString_nat n ▸ h)

theorem takeWhile_number (n : Nat) {r : List Char} (h : NoDigit r) :
    ((toString n).toList ++ r).takeWhile Char.isDigit = (toString n).toList := by
  rw [List.takeWhile_append_of_pos fun _ hc => isDigit_of_mem hc, takeWhile_noDigit h,
    List.append_nil]

/-- A number at the start of a text can be read off it. -/
theorem number_append_inj {m n : Nat} {r s : List Char} (hr : NoDigit r) (hs : NoDigit s)
    (h : (toString m).toList ++ r = (toString n).toList ++ s) : m = n ∧ r = s := by
  have hd : (toString m).toList = (toString n).toList := by
    rw [← takeWhile_number m hr, h, takeWhile_number n hs]
  exact ⟨eq_of_toList_toString hd, List.append_cancel_left (hd ▸ h)⟩

theorem exists_number_eq_cons (n : Nat) :
    ∃ c l, (toString n).toList = c :: l ∧ c.isDigit = true := by
  cases h : (toString n).toList with
  | nil =>
    rw [toList_toString_nat] at h
    exact absurd h Nat.toDigits_ne_nil
  | cons c l => exact ⟨c, l, rfl, isDigit_of_mem (h ▸ List.mem_cons_self)⟩

theorem toList_toString_ofNat (n : Nat) : (toString (Int.ofNat n)).toList = (toString n).toList := rfl

theorem toList_toString_negSucc (n : Nat) :
    (toString (Int.negSucc n)).toList = '-' :: (toString (n + 1)).toList := by
  show ("-" ++ toString (n + 1)).toList = _
  rw [String.toList_append]
  rfl

/-- A number starts with a digit. -/
theorem number_append_ne {n : Nat} {c : Char} {r s : List Char} (hc : c.isDigit = false) :
    (toString n).toList ++ r ≠ c :: s := by
  obtain ⟨d, l, h, hd⟩ := exists_number_eq_cons n
  rw [h]
  intro e
  rw [(List.cons.inj e).1, hc] at hd
  cases hd

/-- The same of a number with a sign. -/
theorem integer_append_inj {x y : Int} {r s : List Char} (hr : NoDigit r) (hs : NoDigit s)
    (h : (toString x).toList ++ r = (toString y).toList ++ s) : x = y ∧ r = s := by
  cases x with
  | ofNat m =>
    rw [toList_toString_ofNat] at h
    cases y with
    | ofNat n =>
      obtain ⟨rfl, e⟩ := number_append_inj hr hs h
      exact ⟨rfl, e⟩
    | negSucc n =>
      rw [toList_toString_negSucc] at h
      exact absurd h (number_append_ne rfl)
  | negSucc m =>
    rw [toList_toString_negSucc] at h
    cases y with
    | ofNat n => exact absurd h.symm (number_append_ne rfl)
    | negSucc n =>
      rw [toList_toString_negSucc] at h
      obtain ⟨e, rfl⟩ := number_append_inj hr hs (List.cons.inj h).2
      exact ⟨congrArg Int.negSucc (Nat.succ.inj e), rfl⟩

/-- An integer starts with a digit or a sign. -/
theorem integer_append_ne {x : Int} {c : Char} {r s : List Char} (hc : c.isDigit = false)
    (hsign : c ≠ '-') : (toString x).toList ++ r ≠ c :: s := by
  cases x with
  | ofNat n =>
    rw [toList_toString_ofNat]
    exact number_append_ne hc
  | negSucc n =>
    rw [toList_toString_negSucc]
    exact fun e => hsign (List.cons.inj e).1.symm

/-! ## Types -/

namespace Ty

/-- The first character of the text of a type. -/
def initial : Ty → Char
  | .void => 'v'
  | .bool => 'b'
  | .int _ => 'i'
  | .float _ => 'f'
  | .ptr _ => 'p'
  | .vector _ _ => '<'
  | .struct _ => '\x7b'

theorem isDigit_initial (t : Ty) : t.initial.isDigit = false := by cases t <;> rfl

theorem initial_ne_close (t : Ty) : t.initial ≠ '\x7d' := by cases t <;> simp [initial]

theorem toList_int (w : Nat) : (int w).text.toList = 'i' :: (toString w).toList := by
  rw [text, String.toList_append]
  rfl

theorem toList_float (w : Nat) : (float w).text.toList = 'f' :: (toString w).toList := by
  rw [text, String.toList_append]
  rfl

theorem toList_ptr (t : Ty) :
    (ptr t).text.toList = 'p' :: 't' :: 'r' :: '<' :: (t.text.toList ++ ['>']) := by
  rw [text, String.toList_append, String.toList_append, List.append_assoc]
  rfl

theorem toList_vector (n : Nat) (t : Ty) : (vector n t).text.toList =
    '<' :: ((toString n).toList ++ ' ' :: 'x' :: ' ' :: (t.text.toList ++ ['>'])) := by
  rw [text, String.toList_append, String.toList_append, String.toList_append, String.toList_append,
    List.append_assoc, List.append_assoc, List.append_assoc]
  rfl

theorem toList_struct (ts : List Ty) :
    (struct ts).text.toList = '\x7b' :: ((textFields ts).toList ++ ['\x7d']) := by
  rw [text, String.toList_append, String.toList_append, List.append_assoc]
  rfl

theorem toList_fields_cons (t u : Ty) (ts : List Ty) :
    (textFields (t :: u :: ts)).toList =
      t.text.toList ++ ',' :: ' ' :: (textFields (u :: ts)).toList := by
  rw [textFields, String.toList_append, String.toList_append, List.append_assoc]
  rfl

theorem exists_toList_eq_cons (t : Ty) : ∃ l, t.text.toList = t.initial :: l := by
  cases t with
  | void => exact ⟨_, rfl⟩
  | bool => exact ⟨_, rfl⟩
  | int w => exact ⟨_, toList_int w⟩
  | float w => exact ⟨_, toList_float w⟩
  | ptr t => exact ⟨_, toList_ptr t⟩
  | vector n t => exact ⟨_, toList_vector n t⟩
  | struct ts => exact ⟨_, toList_struct ts⟩

theorem exists_fields_eq_cons (t : Ty) (ts : List Ty) :
    ∃ l, (textFields (t :: ts)).toList = t.initial :: l := by
  obtain ⟨l, hl⟩ := t.exists_toList_eq_cons
  cases ts with
  | nil => exact ⟨l, hl⟩
  | cons u ts => exact ⟨_, by rw [toList_fields_cons, hl, List.cons_append]⟩

theorem noDigit_text (t : Ty) : NoDigit t.text.toList := by
  obtain ⟨l, hl⟩ := t.exists_toList_eq_cons
  rw [hl]
  exact noDigit_cons t.isDigit_initial

/-- Types whose texts start a text have the same first character. -/
theorem initial_eq {t u : Ty} {r s : List Char} (h : t.text.toList ++ r = u.text.toList ++ s) :
    t.initial = u.initial := by
  obtain ⟨l, hl⟩ := t.exists_toList_eq_cons
  obtain ⟨l', hl'⟩ := u.exists_toList_eq_cons
  rw [hl, hl'] at h
  exact (List.cons.inj h).1

/-- An empty list of fields is followed by the brace, any other by a type. -/
theorem close_ne_fields {t : Ty} {ts : List Ty} {r s : List Char} :
    '\x7d' :: r ≠ (textFields (t :: ts)).toList ++ s := by
  obtain ⟨l, hl⟩ := exists_fields_eq_cons t ts
  rw [hl]
  exact fun e => t.initial_ne_close (List.cons.inj e).1.symm

mutual

/-- A type at the start of a text can be read off it, if no number goes on after it. -/
theorem text_append_inj (t u : Ty) {r s : List Char} (hr : NoDigit r) (hs : NoDigit s)
    (h : t.text.toList ++ r = u.text.toList ++ s) : t = u ∧ r = s := by
  have hi := initial_eq h
  -- the first character leaves one kind of type
  cases t with
  | void =>
    cases u with
    | void => exact ⟨rfl, List.append_cancel_left h⟩
    | _ => simp [initial] at hi
  | bool =>
    cases u with
    | bool => exact ⟨rfl, List.append_cancel_left h⟩
    | _ => simp [initial] at hi
  | int v =>
    cases u with
    | int w =>
      simp only [toList_int, List.cons_append, List.cons.injEq, true_and] at h
      obtain ⟨rfl, e⟩ := number_append_inj hr hs h
      exact ⟨rfl, e⟩
    | _ => simp [initial] at hi
  | float v =>
    cases u with
    | float w =>
      simp only [toList_float, List.cons_append, List.cons.injEq, true_and] at h
      obtain ⟨rfl, e⟩ := number_append_inj hr hs h
      exact ⟨rfl, e⟩
    | _ => simp [initial] at hi
  | ptr t =>
    cases u with
    | ptr u =>
      simp only [toList_ptr, List.cons_append, List.append_assoc, List.nil_append, List.cons.injEq,
        true_and] at h
      obtain ⟨rfl, e⟩ := text_append_inj t u (noDigit_cons rfl) (noDigit_cons rfl) h
      exact ⟨rfl, (List.cons.inj e).2⟩
    | _ => simp [initial] at hi
  | vector m t =>
    cases u with
    | vector n u =>
      simp only [toList_vector, List.cons_append, List.append_assoc, List.nil_append,
        List.cons.injEq, true_and] at h
      obtain ⟨rfl, helem⟩ := number_append_inj (noDigit_cons rfl) (noDigit_cons rfl) h
      simp only [List.cons.injEq, true_and] at helem
      obtain ⟨rfl, e⟩ := text_append_inj t u (noDigit_cons rfl) (noDigit_cons rfl) helem
      exact ⟨rfl, (List.cons.inj e).2⟩
    | _ => simp [initial] at hi
  | struct ts =>
    cases u with
    | struct us =>
      simp only [toList_struct, List.cons_append, List.append_assoc, List.nil_append,
        List.cons.injEq, true_and] at h
      obtain ⟨rfl, e⟩ := textFields_append_inj ts us h
      exact ⟨rfl, e⟩
    | _ => simp [initial] at hi

/-- The same of fields up to the closing brace. -/
theorem textFields_append_inj (ts us : List Ty) {r s : List Char}
    (h : (textFields ts).toList ++ '\x7d' :: r = (textFields us).toList ++ '\x7d' :: s) :
    ts = us ∧ r = s := by
  match ts, us with
  | [], [] => exact ⟨rfl, (List.cons.inj h).2⟩
  | [], u :: us => exact absurd h close_ne_fields
  | t :: ts, [] => exact absurd h.symm close_ne_fields
  | [t], [u] =>
    obtain ⟨rfl, e⟩ := text_append_inj t u (noDigit_cons rfl) (noDigit_cons rfl) h
    exact ⟨rfl, (List.cons.inj e).2⟩
  | [t], u :: w :: us =>
    -- a brace is no comma
    simp only [toList_fields_cons, List.append_assoc, List.cons_append] at h
    obtain ⟨-, e⟩ := text_append_inj t u (noDigit_cons rfl) (noDigit_cons rfl) h
    exact absurd (List.cons.inj e).1 (by decide)
  | t :: v :: ts, [u] =>
    simp only [toList_fields_cons, List.append_assoc, List.cons_append] at h
    obtain ⟨-, e⟩ := text_append_inj t u (noDigit_cons rfl) (noDigit_cons rfl) h
    exact absurd (List.cons.inj e).1 (by decide)
  | t :: v :: ts, u :: w :: us =>
    simp only [toList_fields_cons, List.append_assoc, List.cons_append] at h
    obtain ⟨rfl, hrest⟩ := text_append_inj t u (noDigit_cons rfl) (noDigit_cons rfl) h
    simp only [List.cons.injEq, true_and] at hrest
    obtain ⟨e, rfl⟩ := textFields_append_inj (v :: ts) (w :: us) hrest
    exact ⟨by rw [e], rfl⟩

end

theorem text_injective : Function.Injective text := fun t u h =>
  (text_append_inj t u noDigit_nil noDigit_nil (congrArg (·.toList ++ []) h)).1

end Ty

/-! ## Constants -/

namespace Const

/-- A constant that is no floating-point number, and of the type `bool` if it is a truth value. -/
def Plain (c : Const) : Prop :=
  match c.val with
  | .undefined | .int _ => True
  | .bool _ => c.ty = .bool
  | .float _ => False

theorem plain_ofBool (b : Bool) : (ofBool b).Plain := rfl

theorem plain_ofInt (ty : Ty) (x : Int64) : (ofInt ty x).Plain := by
  unfold ofInt
  split <;> trivial

theorem plain_undefined (ty : Ty) : (undefined ty).Plain := trivial

theorem toList_undefined (t : Ty) : (mk t .undefined).text.toList =
    'u' :: 'n' :: 'd' :: 'e' :: 'f' :: '.' :: t.text.toList := by
  rw [text, String.toList_append]
  rfl

theorem toList_int (t : Ty) (x : Int64) :
    (mk t (.int x)).text.toList = (toString x.toInt).toList ++ t.text.toList := by
  rw [text, String.toList_append]

theorem toList_bool (t : Ty) (b : Bool) : (mk t (.bool b)).text.toList =
    if b then ['t', 'r', 'u', 'e'] else ['f', 'a', 'l', 's', 'e'] := by
  cases b <;> simp [text]

theorem undefined_ne_bool {t u : Ty} {b : Bool} :
    (mk t .undefined).text.toList ≠ (mk u (.bool b)).text.toList := by
  rw [toList_undefined, toList_bool]
  cases b <;> simp

theorem undefined_ne_int {t u : Ty} {x : Int64} :
    (mk t .undefined).text.toList ≠ (mk u (.int x)).text.toList := by
  rw [toList_undefined, toList_int]
  exact (integer_append_ne rfl (by decide)).symm

theorem bool_ne_int {t u : Ty} {b : Bool} {x : Int64} :
    (mk t (.bool b)).text.toList ≠ (mk u (.int x)).text.toList := by
  rw [toList_bool, toList_int]
  cases b
  · exact (integer_append_ne rfl (by decide)).symm
  · exact (integer_append_ne rfl (by decide)).symm

/-- Constants that are no floating-point numbers are told apart by their texts. -/
theorem eq_of_text_eq {c d : Const} (hc : c.Plain) (hd : d.Plain) (h : c.text = d.text) : c = d := by
  obtain ⟨t, x⟩ := c
  obtain ⟨u, y⟩ := d
  have h := congrArg String.toList h
  cases x with
  | undefined =>
    cases y with
    | undefined =>
      simp only [toList_undefined, List.cons.injEq, true_and] at h
      rw [Ty.text_injective (String.toList_injective h)]
    | bool b => exact absurd h undefined_ne_bool
    | int y => exact absurd h undefined_ne_int
    | float y => exact hd.elim
  | bool b =>
    cases y with
    | undefined => exact absurd h.symm undefined_ne_bool
    | bool b' =>
      obtain rfl : t = .bool := hc
      obtain rfl : u = .bool := hd
      rw [toList_bool, toList_bool] at h
      cases b <;> cases b' <;> simp at h ⊢
    | int y => exact absurd h bool_ne_int
    | float y => exact hd.elim
  | int x =>
    cases y with
    | undefined => exact absurd h.symm undefined_ne_int
    | bool b => exact absurd h.symm bool_ne_int
    | int y =>
      rw [toList_int, toList_int] at h
      obtain ⟨hx, ht⟩ := integer_append_inj t.noDigit_text u.noDigit_text h
      rw [Int64.toInt_inj.mp hx, Ty.text_injective (String.toList_injective ht)]
    | float y => exact hd.elim
  | float x => exact hc.elim

end Const

end Lockstep
