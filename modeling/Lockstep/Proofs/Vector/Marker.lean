import Lockstep.Vector.Marker
import Mathlib.Data.List.Nodup

/-!
# Declared markers

The record of the markers of a module is kept while the functions of the module are gone through and
while missing markers are added, each function in its turn. At any time it agrees with the names of
the functions that had their turn (`Registered`): a function is the marker that has its name, and the
first function of a name stands for the marker. `declare_exact` says what comes out: every marker has
a function, functions that were there stay as they are, and declaring the markers again changes
nothing.
-/

namespace Lockstep

namespace Marker

theorem ofName?_eq_some_iff {s : String} {k : Marker} : ofName? s = some k ↔ s = k.name := by
  refine ⟨fun h => ?_, fun h => h ▸ ofName?_name k⟩
  have hk := List.find?_some h
  exact (beq_iff_eq.mp hk).symm

theorem name_injective : Function.Injective name := fun k _ h =>
  Option.some.inj ((ofName?_name k).symm.trans (ofName?_eq_some_iff.mpr h))

theorem mem_list (k : Marker) : k ∈ list := by cases k <;> decide

theorem nodup_list : list.Nodup := by decide

@[simp] theorem name_decl (k : Marker) : k.decl.name = k.name := by cases k <;> rfl

end Marker

namespace Module

variable {M M' : Module}

theorem eq_of_toList_funcs (h : M.funcs.toList = M'.funcs.toList) : M = M' := by
  obtain ⟨funcs⟩ := M
  obtain ⟨funcs'⟩ := M'
  exact congrArg Module.mk (Array.toList_inj.mp h)

theorem name_of_byName? {s : String} {f : FuncId} (h : M.byName? s = some f) :
    f < M.funcs.size ∧ M.name f = s := by
  have hname := List.find?_some h
  exact ⟨List.mem_range.mp (List.mem_of_find?_eq_some h), beq_iff_eq.mp hname⟩

end Module

namespace Markers

/-- The record agrees with the names of the first `n` functions. -/
structure Registered (name : FuncId → String) (n : Nat) (m : Markers) : Prop where
  kind : ∀ f k, m.kindOf? f = some k ↔ f < n ∧ name f = k.name
  func : ∀ k, m.funcs.lookup k = (List.range n).find? (name · == k.name)

variable {name name' : FuncId → String} {n : Nat} {m : Markers} {M : Module}
  {s : Markers × Module}

/-! ## One function more -/

theorem kindOf?_add (m : Markers) (f g : FuncId) (k : Marker) :
    (m.add f k).kindOf? g = ((m.kindOf? g).or (if g = f then some k else none)) := by
  show (m.kinds ++ [(f, k)]).lookup g = _
  rw [List.lookup_append, List.lookup_cons]
  by_cases h : g = f
  · rw [if_pos h, beq_iff_eq.mpr h]
    rfl
  · rw [if_neg h, beq_eq_false_iff_ne.mpr h]
    rfl

theorem lookup_funcs_add (m : Markers) (f : FuncId) (k k' : Marker) :
    (m.add f k).funcs.lookup k' = (m.funcs.lookup k').or (if k' = k then some f else none) := by
  show (if (m.funcs.lookup k).isSome then m.funcs else m.funcs ++ [(k, f)]).lookup k' = _
  by_cases hk : (m.funcs.lookup k).isSome
  · rw [if_pos hk]
    by_cases h : k' = k
    · obtain ⟨g, hg⟩ := Option.isSome_iff_exists.mp hk
      rw [h, hg]
      rfl
    · rw [if_neg h, Option.or_none]
  · rw [if_neg hk, List.lookup_append, List.lookup_cons]
    by_cases h : k' = k
    · rw [if_pos h, beq_iff_eq.mpr h]
    · rw [if_neg h, beq_eq_false_iff_ne.mpr h]
      rfl

theorem find?_range_succ (p : Nat → Bool) (n : Nat) :
    (List.range (n + 1)).find? p = ((List.range n).find? p).or (if p n then some n else none) := by
  rw [List.range_succ, List.find?_append, List.find?_cons]
  cases p n <;> rfl

theorem find?_range_congr {p q : Nat → Bool} (h : ∀ f < n, p f = q f) :
    (List.range n).find? p = (List.range n).find? q := by
  induction n with
  | zero => rfl
  | succ n ih =>
    rw [find?_range_succ, find?_range_succ, ih fun f hf => h f (Nat.lt_succ_of_lt hf),
      h n (Nat.lt_succ_self n)]

theorem Registered.kindOf?_eq_none (h : Registered name n m) {f : FuncId} (hf : n ≤ f) :
    m.kindOf? f = none :=
  Option.eq_none_iff_forall_ne_some.mpr fun k hk => Nat.not_lt_of_le hf ((h.kind f k).mp hk).1

/-- The names of later functions do not matter. -/
theorem Registered.congr (h : Registered name n m) (hs : ∀ f < n, name' f = name f) :
    Registered name' n m where
  kind f k := (h.kind f k).trans (and_congr_right fun hf => by rw [hs f hf])
  func k := (h.func k).trans (find?_range_congr fun f hf => by rw [hs f hf])

/-- The next function is a marker. -/
theorem Registered.add {k : Marker} (h : Registered name n m) (hk : name n = k.name) :
    Registered name (n + 1) (m.add n k) where
  kind f k' := by
    rw [kindOf?_add]
    by_cases hf : f = n
    · subst hf
      rw [h.kindOf?_eq_none (Nat.le_refl f), if_pos rfl, Option.none_or, Option.some_inj, hk,
        Marker.name_injective.eq_iff]
      exact (and_iff_right (Nat.lt_succ_self f)).symm
    · rw [if_neg hf, Option.or_none, h.kind]
      exact and_congr_left fun _ => (Nat.lt_succ_iff_lt_or_eq.trans (or_iff_left hf)).symm
  func k' := by
    have heq : (k.name == k'.name) = true ↔ k' = k := by
      rw [beq_iff_eq, Marker.name_injective.eq_iff, eq_comm]
    rw [lookup_funcs_add, h.func, find?_range_succ, hk]
    simp only [heq]

/-- The next function is no marker. -/
theorem Registered.skip (h : Registered name n m) (hk : Marker.ofName? (name n) = none) :
    Registered name (n + 1) m := by
  have hne : ∀ k : Marker, name n ≠ k.name := fun k e => by
    rw [Marker.ofName?_eq_some_iff.mpr e] at hk
    cases hk
  refine ⟨fun f k => (h.kind f k).trans (and_congr_left fun hf => ?_), fun k => ?_⟩
  · have hfn : f ≠ n := fun e => hne k (e ▸ hf)
    exact (Nat.lt_succ_iff_lt_or_eq.trans (or_iff_left hfn)).symm
  · rw [h.func, find?_range_succ, if_neg (by simpa using hne k), Option.or_none]

/-! ## All functions of a module -/

theorem registered_find (M : Module) : Registered M.name M.funcs.size (find M) := by
  unfold find Module.ids
  generalize M.funcs.size = n
  induction n with
  | zero => exact ⟨fun f k => by simp [kindOf?], fun k => rfl⟩
  | succ n ih =>
    rw [List.range_succ, List.foldl_append, List.foldl_cons, List.foldl_nil]
    split
    · rename_i k hk
      exact ih.add (Marker.ofName?_eq_some_iff.mp hk)
    · rename_i hk
      exact ih.skip hk

/-! ## Missing markers -/

/-- The record agrees with the names of all functions of a module. -/
abbrev Agrees (s : Markers × Module) : Prop := Registered s.2.name s.2.funcs.size s.1

theorem Agrees.lookup_funcs (h : Agrees s) (k : Marker) :
    s.1.funcs.lookup k = s.2.byName? k.name := h.func k

/-- A marker that has a function is not declared. -/
theorem require_of_isSome {k : Marker} (hk : (s.1.funcs.lookup k).isSome) : require s k = s :=
  if_pos hk

/-- Any other marker is declared after all functions. -/
theorem require_of_not_isSome {k : Marker} (hk : ¬ (s.1.funcs.lookup k).isSome) :
    require s k = (s.1.add s.2.funcs.size k, { funcs := s.2.funcs.push k.decl }) := if_neg hk

theorem lookup_require (s : Markers × Module) (k k' : Marker) :
    (require s k).1.funcs.lookup k' =
      (s.1.funcs.lookup k').or (if k' = k then some s.2.funcs.size else none) := by
  by_cases hk : (s.1.funcs.lookup k).isSome
  · rw [require_of_isSome hk]
    by_cases h : k' = k
    · obtain ⟨f, hf⟩ := Option.isSome_iff_exists.mp hk
      rw [h, hf]
      rfl
    · rw [if_neg h, Option.or_none]
  · rw [require_of_not_isSome hk]
    exact lookup_funcs_add s.1 s.2.funcs.size k k'

theorem Agrees.require (h : Agrees s) (k : Marker) : Agrees (require s k) := by
  by_cases hk : (s.1.funcs.lookup k).isSome
  · rwa [require_of_isSome hk]
  · have hname : ∀ f, Module.name { funcs := s.2.funcs.push k.decl } f =
        if f = s.2.funcs.size then k.name else s.2.name f := fun f => by
      rw [← Marker.name_decl k]
      exact (congrArg FuncDecl.name (Module.get_define s.2 k.decl f)).trans (apply_ite _ _ _ _)
    rw [require_of_not_isSome hk]
    show Registered _ (s.2.funcs.push k.decl).size _
    rw [Array.size_push]
    refine (h.congr fun f hf => ?_).add ?_
    · rw [hname, if_neg (Nat.ne_of_lt hf)]
    · rw [hname, if_pos rfl]

theorem toList_require (h : Agrees s) (k : Marker) :
    (Markers.require s k).2.funcs.toList =
      s.2.funcs.toList ++ if (s.2.byName? k.name).isNone then [k.decl] else [] := by
  rw [← h.lookup_funcs]
  by_cases hk : (s.1.funcs.lookup k).isSome
  · rw [require_of_isSome hk]
    obtain ⟨f, hf⟩ := Option.isSome_iff_exists.mp hk
    rw [hf]
    exact (List.append_nil _).symm
  · rw [require_of_not_isSome hk, Option.not_isSome_iff_eq_none.mp hk]
    exact Array.toList_push

theorem Agrees.foldl_require (l : List Marker) (h : Agrees s) : Agrees (l.foldl Markers.require s) := by
  induction l generalizing s with
  | nil => exact h
  | cons k l ih => exact ih (h.require k)

/-- Of the markers in a list those are declared, each once, that no function is named after. -/
theorem toList_foldl_require {l : List Marker} (hl : l.Nodup) (h : Agrees s) :
    (l.foldl Markers.require s).2.funcs.toList = s.2.funcs.toList ++
      (l.filter fun k => (s.2.byName? k.name).isNone).map Marker.decl := by
  induction l generalizing s with
  | nil => rw [List.foldl_nil, List.filter_nil, List.map_nil, List.append_nil]
  | cons k l ih =>
    obtain ⟨hk, hl⟩ := List.nodup_cons.mp hl
    -- a function that is named after `k` is not named after a later marker
    have hlater : ∀ k' ∈ l, (Markers.require s k).2.byName? k'.name = s.2.byName? k'.name := by
      intro k' hk'
      have hne : k' ≠ k := fun e => hk (e ▸ hk')
      rw [← (h.require k).lookup_funcs, ← h.lookup_funcs, lookup_require, if_neg hne, Option.or_none]
    rw [List.foldl_cons, ih hl (h.require k), toList_require h,
      List.filter_congr fun k' hk' => by rw [hlater k' hk'], List.append_assoc, List.filter_cons]
    split <;> rfl

theorem isSome_lookup_foldl_require (l : List Marker) (s : Markers × Module) (k : Marker) :
    ((l.foldl Markers.require s).1.funcs.lookup k).isSome = true ↔
      k ∈ l ∨ (s.1.funcs.lookup k).isSome = true := by
  induction l generalizing s with
  | nil => simp
  | cons k' l ih =>
    rw [List.foldl_cons, ih, lookup_require, List.mem_cons, Option.isSome_or]
    by_cases h : k = k' <;> simp [h]

/-! ## Declaring -/

theorem agrees_declare (M : Module) : Agrees (declare M) := by
  have h : Agrees (find M, M) := registered_find M
  unfold declare
  exact h.foldl_require Marker.list

theorem lookup_declare (M : Module) (k : Marker) :
    (declare M).1.funcs.lookup k = some ((declare M).1.func k) := by
  have hsome : ((declare M).1.funcs.lookup k).isSome = true := by
    unfold declare
    exact (isSome_lookup_foldl_require _ _ k).mpr (.inl (Marker.mem_list k))
  obtain ⟨f, hf⟩ := Option.isSome_iff_exists.mp hsome
  rw [func, hf, Option.getD_some]

theorem byName?_declare (M : Module) (k : Marker) :
    (declare M).2.byName? k.name = some ((declare M).1.func k) :=
  ((agrees_declare M).lookup_funcs k).symm.trans (lookup_declare M k)

/-- What stands for a declared marker is the marker. -/
theorem kindOf?_func_declare (M : Module) (k : Marker) :
    (declare M).1.kindOf? ((declare M).1.func k) = some k :=
  ((agrees_declare M).kind _ k).mpr (Module.name_of_byName? (byName?_declare M k))

/-- The declared functions are those of the module and, after them, one for each marker that none of
them is named after. -/
theorem toList_declare (M : Module) :
    (declare M).2.funcs.toList = M.funcs.toList ++
      (Marker.list.filter fun k => (M.byName? k.name).isNone).map Marker.decl := by
  have h : Agrees (find M, M) := registered_find M
  unfold declare
  exact toList_foldl_require Marker.nodup_list h

/-- A module in which a function is named after every marker stays as it is. -/
theorem declare_declare (M : Module) : (declare (declare M).2).2 = (declare M).2 := by
  have hnone : (Marker.list.filter fun k => ((declare M).2.byName? k.name).isNone) = [] :=
    List.filter_eq_nil_iff.mpr fun k _ => by rw [byName?_declare]; simp
  have h := toList_declare (declare M).2
  rw [hnone, List.map_nil, List.append_nil] at h
  exact Module.eq_of_toList_funcs h

/-- Markers are known by the names of functions. Declaring them leaves the functions of a module as
they are and adds one for each marker that none of them is named after; a function is a marker if it
is named after it; the first function that is named after a marker stands for it; and declaring the
markers again changes neither the module nor what is known about its functions. -/
theorem declare_exact (M : Module) :
    (declare M).2.funcs.toList = M.funcs.toList ++
      (Marker.list.filter fun k => (M.byName? k.name).isNone).map Marker.decl ∧
    (∀ f k, (declare M).1.kindOf? f = some k ↔
      f < (declare M).2.funcs.size ∧ (declare M).2.name f = k.name) ∧
    (∀ k, (declare M).1.funcs.lookup k = some ((declare M).1.func k) ∧
      (declare M).2.byName? k.name = some ((declare M).1.func k)) ∧
    (declare (declare M).2).2 = (declare M).2 ∧
    (∀ f, (declare (declare M).2).1.kindOf? f = (declare M).1.kindOf? f) ∧
    ∀ k, (declare (declare M).2).1.func k = (declare M).1.func k := by
  have hagain : Registered (declare M).2.name (declare M).2.funcs.size (declare (declare M).2).1 := by
    have h := agrees_declare (declare M).2
    rwa [Agrees, declare_declare] at h
  refine ⟨toList_declare M, (agrees_declare M).kind,
    fun k => ⟨lookup_declare M k, byName?_declare M k⟩, declare_declare M, fun f => ?_, fun k => ?_⟩
  · exact Option.ext fun k => (hagain.kind f k).trans ((agrees_declare M).kind f k).symm
  · have h := byName?_declare (declare M).2 k
    rw [declare_declare] at h
    exact Option.some.inj (h.symm.trans (byName?_declare M k))

/-- Of two functions that are named after a marker, both are the marker and the first one stands for
it; the other four markers are added. -/
example : (declare { funcs := #[{ name := "rv_all", retTy := .bool, params := [] },
      { name := "main", retTy := .void, params := [] },
      { name := "rv_all", retTy := .void, params := [], body := some default }] }).1 =
    { kinds := [(0, .all), (2, .all), (3, .any), (4, .extract), (5, .ballot), (6, .align)]
      funcs := [(.all, 0), (.any, 3), (.extract, 4), (.ballot, 5), (.align, 6)] } := by decide

end Markers

end Lockstep
