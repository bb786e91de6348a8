/-!
# Interning

An interner numbers the distinct values that it has met, in the order of their first meeting.
A number stays valid and keeps its value, whatever is interned later.
-/

namespace Lockstep

/-- The values met so far; the number of a value is its position. -/
structure Interner (α : Type) where
  values : List α
  deriving Repr

namespace Interner

variable {α : Type}

def empty : Interner α := ⟨[]⟩

instance : Inhabited (Interner α) := ⟨empty⟩

/-- The value with a number. -/
def get? (t : Interner α) (n : Nat) : Option α := t.values[n]?

/-- The number of a value, which is new if the value has not been met before. -/
def intern [DecidableEq α] (t : Interner α) (x : α) : Nat × Interner α :=
  match t.values.idxOf? x with
  | some n => (n, t)
  | none => (t.values.length, ⟨t.values ++ [x]⟩)

theorem intern_eq_of_some [DecidableEq α] {t : Interner α} {x : α} {n : Nat}
    (h : t.values.idxOf? x = some n) : t.intern x = (n, t) := by
  unfold intern
  rw [h]

theorem intern_eq_of_none [DecidableEq α] {t : Interner α} {x : α}
    (h : t.values.idxOf? x = none) : t.intern x = (t.values.length, ⟨t.values ++ [x]⟩) := by
  unfold intern
  rw [h]

/-- The number of a value leads back to it. -/
theorem get?_intern [DecidableEq α] (t : Interner α) (x : α) :
    (t.intern x).2.get? (t.intern x).1 = some x := by
  cases h : t.values.idxOf? x with
  | some n =>
    obtain ⟨hn, hx, _⟩ := List.idxOf?_eq_some_iff.mp h
    rw [intern_eq_of_some h]
    show t.values[n]? = some x
    rw [List.getElem?_eq_getElem hn, hx]
  | none =>
    rw [intern_eq_of_none h]
    show (t.values ++ [x])[t.values.length]? = some x
    simp

/-- A number keeps its value, whatever is interned later. -/
theorem get?_intern_of_eq_some [DecidableEq α] {t : Interner α} {n : Nat} {y : α}
    (h : t.get? n = some y) (x : α) : (t.intern x).2.get? n = some y := by
  cases hx : t.values.idxOf? x with
  | some m => rw [intern_eq_of_some hx]; exact h
  | none =>
    obtain ⟨hn, _⟩ := List.getElem?_eq_some_iff.mp h
    rw [intern_eq_of_none hx]
    show (t.values ++ [x])[n]? = some y
    rw [List.getElem?_append_left hn]
    exact h

/-- A value that has been met keeps its number. -/
theorem intern_intern [DecidableEq α] (t : Interner α) (x : α) :
    ((t.intern x).2.intern x).1 = (t.intern x).1 := by
  cases h : t.values.idxOf? x with
  | some n => rw [intern_eq_of_some h, intern_eq_of_some h]
  | none =>
    have hx : x ∉ t.values := List.idxOf?_eq_none_iff.mp h
    rw [intern_eq_of_none h]
    refine congrArg Prod.fst (intern_eq_of_some ?_)
    rw [List.idxOf?_eq_some_iff]
    refine ⟨by simp, by simp, fun j hj => ?_⟩
    rw [List.getElem_append_left hj]
    exact fun e => hx (e ▸ List.getElem_mem hj)

/-- The numbers of several values, interned in order. -/
def internAll [DecidableEq α] (t : Interner α) : List α → List Nat × Interner α
  | [] => ([], t)
  | x :: xs =>
    let (n, t) := t.intern x
    let (ns, t) := t.internAll xs
    (n :: ns, t)

/-- For each value the position of the first value in the list with the same number. -/
def firstWithSameNumber [DecidableEq α] (xs : List α) : List Nat :=
  let (ns, _) := (empty : Interner α).internAll xs
  ns.map fun n => (ns.idxOf? n).getD 0

end Interner

end Lockstep
