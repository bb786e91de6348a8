import Lockstep.Proofs.Eval.Settled
import Lockstep.Proofs.Forecast.Code

/-!
# Lanes that share a memory

Lanes keep apart if no cell that one of them writes is read or written by another. When they run their
effects in a common memory, a cell that no other lane writes holds for a lane what it would hold if the
lane were alone (`Shares`). Loads and stores keep that (`Shares.load`, `Shares.store`).
-/

namespace Lockstep

open Run

variable {ι : Type}

namespace Doings

/-- The effects of a block. -/
def effectsOf (D : Doings ι) (b : BlockId) : List InstId := (D.func.body b).filter D.func.isEffect

/-- A lane reads or writes a cell. -/
def Touches (D : Doings ι) (l : ι) (k : Nat) : Prop :=
  ∃ b ∈ D.trace l, ∃ i ∈ D.effectsOf b, ∃ a xs, D.args l i = .int a :: xs ∧ a.toInt.toNat = k

/-- A lane writes a cell. -/
def Writes (D : Doings ι) (l : ι) (k : Nat) : Prop :=
  ∃ b ∈ D.trace l, ∃ i ∈ D.effectsOf b, (∃ args, (D.func.inst i).op = .apply .store args) ∧
    ∃ a xs, D.args l i = .int a :: xs ∧ a.toInt.toNat = k

/-- No lane writes a cell that another one reads or writes. -/
def Apart (D : Doings ι) : Prop := ∀ l l' k, l ≠ l' → D.Writes l k → ¬ D.Touches l' k

/-- The memory that a lane on its own has after some effects. -/
def memoryOf (D : Doings ι) (l : ι) (is : List InstId) (memory : Array Scalar) : Array Scalar :=
  replay D.func (D.args l) is memory

/-- Each lane on its own gets from the memory `start` to `ends`, with what is known of it. -/
structure Plays (D : Doings ι) (start : Array Scalar) (ends : ι → Array Scalar) : Prop where
  address : ∀ l b i, b ∈ D.trace l → i ∈ D.effectsOf b → ∀ addr xs, D.args l i = addr :: xs →
    Addresses true addr start
  load : ∀ l pre b post before i after, D.trace l = pre ++ b :: post →
    D.effectsOf b = before ++ i :: after → ∀ args, (D.func.inst i).op = .apply .load args →
      ∀ addr, D.args l i = [addr] → D.known.inst l i
        (loadLane true addr (D.memoryOf l (pre.flatMap D.effectsOf ++ before) start))
  store : ∀ l i x args, (D.func.inst i).op = .apply .store args → D.known.inst l i x → x = .undefined
  away : ∀ l i x b, i ∈ D.func.body b → D.known.inst l i x → b ∈ D.trace l
  ends : ∀ l, ends l = D.memoryOf l ((D.trace l).flatMap D.effectsOf) start

/-- Lanes that keep apart in plain code, where each on its own gets from the memory `start` to `ends`. -/
structure Separate (D : Doings ι) (start : Array Scalar) (ends : ι → Array Scalar) : Prop
    extends D.Plays start ends where
  coherent : D.func.Coherent
  plain : D.func.Plain
  apart : D.Apart

/-- A common memory in which each lane finds what it would find on its own after the effects `past`. -/
structure Shares (D : Doings ι) (start : Array Scalar) (past : ι → List InstId) (memory : Array Scalar) :
    Prop where
  size : memory.size = start.size
  cell : ∀ l k, (∀ l', l' ≠ l → ¬ D.Writes l' k) → memory[k]? = (D.memoryOf l (past l) start)[k]?

variable {D : Doings ι} {start memory : Array Scalar} {past past' : ι → List InstId} {l : ι} {i : InstId}
  {b : BlockId} {k : Nat}

theorem size_memoryOf (D : Doings ι) (l : ι) (is : List InstId) (memory : Array Scalar) :
    (D.memoryOf l is memory).size = memory.size := size_replay _ _ _

theorem memoryOf_append (l : ι) (is : List InstId) (i : InstId) (memory : Array Scalar) :
    D.memoryOf l (is ++ [i]) memory = commit D.func i (D.args l i) (D.memoryOf l is memory) :=
  replay_append _ _ _ _

theorem shares_start (D : Doings ι) (memory : Array Scalar) : D.Shares memory (fun _ => []) memory :=
  ⟨rfl, fun _ _ _ => rfl⟩

/-- A lane reads in the common memory what it would read on its own. -/
theorem Shares.loadLane_eq (h : D.Shares start past memory) (hapart : D.Apart) (hb : b ∈ D.trace l)
    (hi : i ∈ D.effectsOf b) {addr : Scalar} {xs : List Scalar} (hargs : D.args l i = addr :: xs) :
    loadLane true addr memory = loadLane true addr (D.memoryOf l (past l) start) := by
  cases addr with
  | int a =>
    show memory[a.toInt.toNat]?.getD _ = (D.memoryOf l (past l) start)[a.toInt.toNat]?.getD _
    rw [h.cell l a.toInt.toNat fun l' hne hw => hapart l' l _ hne hw ⟨b, hb, i, hi, a, xs, hargs, rfl⟩]
  | _ => rfl

/-- After a load each lane still finds what it would find on its own. -/
theorem Shares.load (h : D.Shares start past memory) {args : List Value}
    (hop : (D.func.inst i).op = .apply .load args)
    (hpast : ∀ l, past' l = past l ∨ past' l = past l ++ [i]) : D.Shares start past' memory where
  size := h.size
  cell l k hk := by
    rw [h.cell l k hk]
    rcases hpast l with e | e
    · rw [e]
    · rw [e, memoryOf_append]
      unfold commit
      rw [hop]

/-- A lane on its own changes only the cells that it writes. -/
theorem memoryOf_of_not_writes (hk : ¬ D.Writes l k) {is : List InstId}
    (his : ∀ i ∈ is, ∃ b ∈ D.trace l, i ∈ D.effectsOf b) :
    (D.memoryOf l is memory)[k]? = memory[k]? := by
  induction is generalizing memory with
  | nil => rfl
  | cons i is ih =>
    refine (ih fun j hj => his j (List.mem_cons_of_mem _ hj)).trans ?_
    show (commit D.func i (D.args l i) memory)[k]? = memory[k]?
    unfold commit
    split
    · rename_i args addr x hop hargs
      refine getElem?_storeLane fun a _ ha e => hk ?_
      obtain ⟨b, hb, hi⟩ := his i List.mem_cons_self
      exact ⟨b, hb, i, hi, ⟨args, hop⟩, a, [x], ha ▸ hargs, e⟩
    · rfl

/-- When all effects are done, a cell that no other lane writes holds what the lane leaves there. -/
theorem Shares.ends {ends : ι → Array Scalar}
    (h : D.Shares start (fun l => (D.trace l).flatMap D.effectsOf) memory) (hp : D.Plays start ends)
    (hk : ∀ l', l' ≠ l → ¬ D.Writes l' k) : memory[k]? = (ends l)[k]? := by
  rw [hp.ends, h.cell l k hk]

/-- A cell that no lane writes is unchanged. -/
theorem Shares.unchanged [Nonempty ι]
    (h : D.Shares start (fun l => (D.trace l).flatMap D.effectsOf) memory)
    (hk : ∀ l, ¬ D.Writes l k) : memory[k]? = start[k]? := by
  have l : ι := Classical.arbitrary ι
  rw [h.cell l k fun l' _ => hk l']
  refine memoryOf_of_not_writes (hk l) fun i hi => ?_
  obtain ⟨b, hb, hi⟩ := List.mem_flatMap.mp hi
  exact ⟨b, hb, hi⟩

end Doings

/-! ## Along a common way -/

/-- Of a list without repetitions a sublist is what is left of it. -/
theorem filter_mem_of_sublist {α : Type} [DecidableEq α] {xs ys : List α} (h : xs.Sublist ys)
    (hn : ys.Nodup) : ys.filter (· ∈ xs) = xs := by
  induction h with
  | slnil => rfl
  | @cons xs ys a h ih =>
    obtain ⟨ha, hn⟩ := List.nodup_cons.mp hn
    rw [List.filter_cons_of_neg (by simpa using fun e => ha (h.subset e)), ih hn]
  | @cons_cons xs ys a h ih =>
    obtain ⟨ha, hn⟩ := List.nodup_cons.mp hn
    rw [List.filter_cons_of_pos (by simp)]
    refine congrArg (a :: ·) (Eq.trans (List.filter_congr fun x hx => ?_) (ih hn))
    simp [show x ≠ a from fun e => ha (e ▸ hx)]

namespace Doings

variable {D : Doings ι} {pre post : List BlockId} {b c : BlockId} {es : List InstId} {i : InstId} {l : ι}

/-- The effects of a lane when all lanes have come through the blocks `pre` and the effects `es` of a
block. -/
def passed (D : Doings ι) (pre : List BlockId) (b : BlockId) (es : List InstId) (l : ι) : List InstId :=
  (pre.filter (· ∈ D.trace l)).flatMap D.effectsOf ++ if b ∈ D.trace l then es else []

theorem passed_start (D : Doings ι) (b : BlockId) : D.passed [] b [] = fun _ => [] := by
  funext l
  exact ite_self _

theorem passed_append (pre : List BlockId) (b : BlockId) (es : List InstId) (i : InstId) (l : ι) :
    D.passed pre b (es ++ [i]) l =
      if b ∈ D.trace l then D.passed pre b es l ++ [i] else D.passed pre b es l := by
  unfold passed
  split
  · exact (List.append_assoc _ _ _).symm
  · rfl

/-- When a block is left its effects are done. -/
theorem passed_block (pre : List BlockId) (b c : BlockId) :
    D.passed pre b (D.effectsOf b) = D.passed (pre ++ [b]) c [] := by
  funext l
  unfold passed
  rw [ite_self, List.append_nil, List.filter_append, List.flatMap_append]
  by_cases hb : b ∈ D.trace l
  · simp [hb]
  · simp [hb]

/-- At the end all effects of a lane are done. -/
theorem passed_all {P : List BlockId} (h : (D.trace l).Sublist P) (hn : P.Nodup) (c : BlockId) :
    D.passed P c [] l = (D.trace l).flatMap D.effectsOf := by
  unfold passed
  rw [ite_self, List.append_nil, filter_mem_of_sublist h hn]

/-- A lane that comes by a block has done there what it had done on its own. -/
theorem exists_passed (h : (D.trace l).Sublist (pre ++ b :: post)) (hn : (pre ++ b :: post).Nodup)
    (hb : b ∈ D.trace l) (es : List InstId) : ∃ pre' post', D.trace l = pre' ++ b :: post' ∧
      D.passed pre b es l = pre'.flatMap D.effectsOf ++ es := by
  refine ⟨pre.filter (· ∈ D.trace l), post.filter (· ∈ D.trace l), ?_, ?_⟩
  · rw [← List.filter_cons_of_pos (p := (· ∈ D.trace l)) (by simpa using hb), ← List.filter_append,
      filter_mem_of_sublist h hn]
  · unfold passed
    rw [if_pos hb]

end Doings

/-! ## Lanes in a row -/

namespace Doings

variable {W : Nat} {D : Doings (Fin W)} {start memory : Array Scalar} {past past' : Fin W → List InstId}
  {i : InstId} {b : BlockId}

/-- So it does after a store, which all lanes make that come by. -/
theorem Shares.store (h : D.Shares start past memory) {args : List Value}
    (hop : (D.func.inst i).op = .apply .store args) (hi : i ∈ D.effectsOf b) {active : Nat → Bool}
    {addresses xs : Lanes} (hactive : ∀ l : Fin W, active l = true ↔ b ∈ D.trace l)
    (hargs : ∀ l : Fin W, b ∈ D.trace l → D.args l i = [addresses.lane l, xs.lane l])
    (hpast : ∀ l, past' l = if b ∈ D.trace l then past l ++ [i] else past l) :
    D.Shares start past' (storeLanes active addresses xs (List.range W) memory) where
  size := (size_storeLanes _ _).trans h.size
  cell l k hk := by
    rw [getElem?_storeLanes List.nodup_range (List.mem_range.mpr l.isLt)
      (h.size.trans (D.size_memoryOf l (past l) start).symm) (h.cell l k hk), hpast]
    · split
      · rename_i hb
        rw [memoryOf_append, (hactive l).mpr hb, hargs l hb]
        unfold commit
        rw [hop]
      · rename_i hb
        rw [Bool.eq_false_iff.mpr fun e => hb ((hactive l).mp e)]
        rfl
    · intro l' hl' hne a hact ha e
      have hlt := List.mem_range.mp hl'
      have hb := (hactive ⟨l', hlt⟩).mp hact
      refine hk ⟨l', hlt⟩ (fun e => hne (congrArg Fin.val e))
        ⟨b, hb, i, hi, ⟨args, hop⟩, a, [xs.lane l'], ?_, e⟩
      rw [hargs ⟨l', hlt⟩ hb, ha]

end Doings

end Lockstep
