/-!
# Tables

A finite map as a list of entries with distinct keys, newest first. `Table.get?` is its view:
`get?_set` and `get?_erase` say what each change does to it.
-/

namespace Lockstep

/-- A finite map from `κ` to `α`. -/
structure Table (κ α : Type) where
  entries : List (κ × α)
  deriving Repr, DecidableEq

namespace Table

variable {κ α : Type}

def empty : Table κ α := ⟨[]⟩

instance : Inhabited (Table κ α) := ⟨empty⟩

variable [DecidableEq κ]

def get? (t : Table κ α) (k : κ) : Option α := t.entries.lookup k

def getD (t : Table κ α) (k : κ) (d : α) : α := (t.get? k).getD d

def contains (t : Table κ α) (k : κ) : Bool := (t.get? k).isSome

def erase (t : Table κ α) (k : κ) : Table κ α := ⟨t.entries.filter fun e => !decide (e.1 = k)⟩

def set (t : Table κ α) (k : κ) (v : α) : Table κ α := ⟨(k, v) :: (t.erase k).entries⟩

/-- Changes the value at a key, if there is one. -/
def modify (t : Table κ α) (k : κ) (g : α → α) : Table κ α :=
  ⟨t.entries.map fun e => if e.1 = k then (e.1, g e.2) else e⟩

/-- Changes every value. -/
def mapValues (t : Table κ α) (g : α → α) : Table κ α := ⟨t.entries.map fun e => (e.1, g e.2)⟩

@[simp] theorem get?_empty (k : κ) : (empty : Table κ α).get? k = none := rfl

theorem get?_erase (t : Table κ α) (k j : κ) :
    (t.erase k).get? j = if j = k then none else t.get? j := by
  obtain ⟨es⟩ := t
  unfold get? erase
  induction es with
  | nil => simp
  | cons e es ih =>
    obtain ⟨i, v⟩ := e
    by_cases hik : i = k
    · subst hik
      by_cases hji : j = i
      · subst hji; simpa using ih
      · have hb : (j == i) = false := by simpa using hji
        simp only [List.filter_cons, List.lookup_cons, hb]
        simpa [hji] using ih
    · by_cases hji : j = i
      · subst hji; simp [hik]
      · have hb : (j == i) = false := by simpa using hji
        simp only [List.filter_cons, List.lookup_cons, hb]
        simpa [hik, List.lookup_cons, hb] using ih

theorem get?_set (t : Table κ α) (k j : κ) (v : α) :
    (t.set k v).get? j = if j = k then some v else t.get? j := by
  by_cases h : j = k
  · subst h; simp [get?, set]
  · have hb : (j == k) = false := by simpa using h
    have := get?_erase t k j
    simp only [h, if_false] at this ⊢
    rw [← this]
    simp [get?, set, List.lookup_cons, hb]

@[simp] theorem get?_set_self (t : Table κ α) (k : κ) (v : α) : (t.set k v).get? k = some v := by
  simp [get?_set]

theorem get?_mapValues (t : Table κ α) (g : α → α) (k : κ) :
    (t.mapValues g).get? k = (t.get? k).map g := by
  obtain ⟨es⟩ := t
  unfold get? mapValues
  induction es with
  | nil => simp
  | cons e es ih =>
    obtain ⟨i, v⟩ := e
    by_cases h : k = i
    · subst h; simp
    · have hb : (k == i) = false := by simpa using h
      simpa [List.lookup_cons, hb] using ih

theorem get?_modify (t : Table κ α) (k j : κ) (g : α → α) :
    (t.modify k g).get? j = if j = k then (t.get? j).map g else t.get? j := by
  obtain ⟨es⟩ := t
  unfold get? modify
  induction es with
  | nil => simp
  | cons e es ih =>
    obtain ⟨i, v⟩ := e
    by_cases hji : j = i
    · subst hji
      by_cases hjk : j = k <;> simp [hjk]
    · have hb : (j == i) = false := by simpa using hji
      by_cases hik : i = k
      · subst hik; simpa [List.lookup_cons, hb, hji] using ih
      · simpa [List.lookup_cons, hb, hik] using ih

end Table

end Lockstep
