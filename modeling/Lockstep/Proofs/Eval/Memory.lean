import Lockstep.Proofs.Eval.LaneView

/-!
# Memory

A load and a store succeed if the address of every active lane is that of a cell. Then each active
lane has read its cell (`instr_load_eq_ok_iff`), or the active lanes have written one after the other
(`instr_store_eq_ok_iff`).
-/

namespace Lockstep

/-- Whether an address is that of a cell. -/
def Cell (memory : Array Scalar) (address : Int64) : Prop :=
  0 ≤ address.toInt ∧ address.toInt.toNat < memory.size

/-- An active lane that holds an address holds that of a cell. -/
def Addresses (active : Bool) (address : Scalar) (memory : Array Scalar) : Prop :=
  ∀ a, active = true → address = .int a → Cell memory a

theorem Cell.of_size {M N : Array Scalar} {a : Int64} (h : M.size = N.size) (hc : Cell M a) :
    Cell N a := ⟨hc.1, h ▸ hc.2⟩

theorem Addresses.of_size {M N : Array Scalar} {active : Bool} {address : Scalar}
    (h : M.size = N.size) (ha : Addresses active address M) : Addresses active address N :=
  fun a hact e => (ha a hact e).of_size h

/-- What a load of one lane gives. -/
def loadLane (active : Bool) (address : Scalar) (memory : Array Scalar) : Scalar :=
  match active, address with
  | true, .int a => memory[a.toInt.toNat]?.getD .undefined
  | _, _ => .undefined

/-- What a store of one lane makes of the memory. -/
def storeLane (active : Bool) (address x : Scalar) (memory : Array Scalar) : Array Scalar :=
  match active, address with
  | true, .int a => memory.setIfInBounds a.toInt.toNat x
  | _, _ => memory

theorem size_storeLane (active : Bool) (address x : Scalar) (memory : Array Scalar) :
    (storeLane active address x memory).size = memory.size := by
  unfold storeLane
  split
  · exact Array.size_setIfInBounds
  · rfl

/-- A store changes no cell but the one it is made to. -/
theorem getElem?_storeLane {active : Bool} {address x : Scalar} {memory : Array Scalar} {k : Nat}
    (h : ∀ a, active = true → address = .int a → a.toInt.toNat ≠ k) :
    (storeLane active address x memory)[k]? = memory[k]? := by
  unfold storeLane
  split
  · rename_i a
    rw [Array.getElem?_setIfInBounds, if_neg (h a rfl rfl)]
  · rfl

/-- Where memories agree before a store, they agree after it. -/
theorem getElem?_storeLane_congr {active : Bool} {address x : Scalar} {M N : Array Scalar} {k : Nat}
    (hsize : M.size = N.size) (h : M[k]? = N[k]?) :
    (storeLane active address x M)[k]? = (storeLane active address x N)[k]? := by
  unfold storeLane
  split
  · rw [Array.getElem?_setIfInBounds, Array.getElem?_setIfInBounds, hsize, h]
  · exact h

namespace Run

variable {m m' : Machine} {width : Nat} {active : Nat → Bool} {addresses xs : Lanes}

theorem cellIndex_run (address : Int64) (m : Machine) : cellIndex address m =
    (if 0 ≤ address.toInt ∧ address.toInt.toNat < m.memory.size then .ok address.toInt.toNat
      else .error (.outOfBounds address), m) := by
  unfold cellIndex
  refine (bind_run_eq (a := m) rfl).trans ?_
  split <;> rfl

theorem writeCell_eq_ok_iff {address : Int64} {x : Scalar} : writeCell address x m = (.ok (), m') ↔
    Cell m.memory address ∧
      m' = { m with memory := m.memory.setIfInBounds address.toInt.toNat x } := by
  have hindex := cellIndex_run address m
  unfold writeCell
  by_cases h : 0 ≤ address.toInt ∧ address.toInt.toNat < m.memory.size
  · rw [if_pos h] at hindex
    rw [bind_run_eq hindex]
    exact ⟨fun e => ⟨h, (congrArg Prod.snd e).symm⟩, fun e => e.2 ▸ rfl⟩
  · rw [if_neg h] at hindex
    rw [bind_run_eq_error hindex]
    refine ⟨fun e => ?_, fun e => absurd e.1 h⟩
    cases congrArg Prod.fst e

/-- What the lanes of a list make of the memory when they store one after the other. -/
def storeLanes (active : Nat → Bool) (addresses xs : Lanes) (ls : List Nat) (memory : Array Scalar) :
    Array Scalar :=
  ls.foldl (fun M l => storeLane (active l) (addresses.lane l) (xs.lane l) M) memory

theorem size_storeLanes (ls : List Nat) (memory : Array Scalar) :
    (storeLanes active addresses xs ls memory).size = memory.size := by
  induction ls generalizing memory with
  | nil => rfl
  | cons l ls ih => exact (ih _).trans (size_storeLane ..)

theorem storeLane_eq_ok_iff {act : Bool} {addr x : Scalar} :
    (match addr with
      | .int address => if act then writeCell address x else return ()
      | _ => return () : Run Unit) m = (.ok (), m') ↔
      Addresses act addr m.memory ∧
        m' = { m with memory := storeLane act addr x m.memory } := by
  have hskip : (pure () : Run Unit) m = (.ok (), m') ↔ m' = { m with memory := m.memory } :=
    ⟨fun h => (congrArg Prod.snd h).symm, fun h => h ▸ rfl⟩
  cases addr with
  | int a =>
    cases act with
    | true =>
      refine writeCell_eq_ok_iff.trans (and_congr_left fun _ => ⟨fun h b _ e => ?_, fun h => h a rfl rfl⟩)
      cases e
      exact h
    | false => exact hskip.trans ⟨fun h => ⟨fun _ h => (by cases h), h⟩, fun h => h.2⟩
  | _ =>
    cases act <;> exact hskip.trans ⟨fun h => ⟨fun _ _ h => (by cases h), h⟩, fun h => h.2⟩

theorem storeLanes_eq_ok_iff {ls : List Nat} :
    (ls.forM fun l =>
      (match addresses.lane l with
        | .int address => if active l then writeCell address (xs.lane l) else return ()
        | _ => return () : Run Unit)) m = (.ok (), m') ↔
      (∀ l ∈ ls, Addresses (active l) (addresses.lane l) m.memory) ∧
        m' = { m with memory := storeLanes active addresses xs ls m.memory } := by
  induction ls generalizing m with
  | nil =>
    exact ⟨fun h => ⟨fun l hl => (by cases hl), (congrArg Prod.snd h).symm⟩, fun h => by rw [h.2]; rfl⟩
  | cons l ls ih =>
    rw [List.forM_eq_forM, List.forM_cons]
    constructor
    · intro h
      obtain ⟨⟨⟩, m1, h1, h2⟩ := exists_of_bind_run_eq_ok h
      obtain ⟨hl, rfl⟩ := storeLane_eq_ok_iff.mp h1
      obtain ⟨hls, rfl⟩ := ih.mp h2
      refine ⟨fun l' hl' => ?_, rfl⟩
      rcases List.mem_cons.mp hl' with rfl | hl'
      · exact hl
      · exact (hls l' hl').of_size (size_storeLane ..)
    · rintro ⟨hcells, rfl⟩
      refine (bind_run_eq (storeLane_eq_ok_iff.mpr ⟨hcells l List.mem_cons_self, rfl⟩)).trans ?_
      exact ih.mpr ⟨fun l' hl' => (hcells l' (List.mem_cons_of_mem _ hl')).of_size
        (size_storeLane ..).symm, rfl⟩

theorem getElem?_storeLanes_of_ne {ls : List Nat} {memory : Array Scalar} {k : Nat}
    (h : ∀ l ∈ ls, ∀ a, active l = true → addresses.lane l = .int a → a.toInt.toNat ≠ k) :
    (storeLanes active addresses xs ls memory)[k]? = memory[k]? := by
  induction ls generalizing memory with
  | nil => rfl
  | cons l ls ih =>
    exact (ih fun l' hl' => h l' (List.mem_cons_of_mem _ hl')).trans
      (getElem?_storeLane fun a hact ha => h l List.mem_cons_self a hact ha)

/-- In a cell to which no other lane stores there is what a lane has stored. -/
theorem getElem?_storeLanes {ls : List Nat} (hn : ls.Nodup) {l : Nat} (hl : l ∈ ls)
    {M N : Array Scalar} {k : Nat} (hsize : M.size = N.size) (hk : M[k]? = N[k]?)
    (h : ∀ l' ∈ ls, l' ≠ l → ∀ a, active l' = true → addresses.lane l' = .int a →
      a.toInt.toNat ≠ k) :
    (storeLanes active addresses xs ls M)[k]? =
      (storeLane (active l) (addresses.lane l) (xs.lane l) N)[k]? := by
  obtain ⟨pre, post, rfl⟩ := List.append_of_mem hl
  obtain ⟨hpre, hpost⟩ := notMem_of_nodup_middle hn
  unfold storeLanes
  rw [List.foldl_append, List.foldl_cons]
  have hlater (N : Array Scalar) : (storeLanes active addresses xs post N)[k]? = N[k]? :=
    getElem?_storeLanes_of_ne fun l' hl' => h l' (by simp [hl']) fun e => hpost (e ▸ hl')
  refine (hlater _).trans ?_
  refine getElem?_storeLane_congr ((size_storeLanes pre M).trans hsize) ?_
  refine (getElem?_storeLanes_of_ne fun l' hl' => ?_).trans hk
  exact h l' (by simp [hl']) fun e => hpre (e ▸ hl')

/-- A store succeeds if all active lanes hold addresses of cells. -/
theorem store_eq_ok_iff : store width active addresses xs m = (.ok (), m') ↔
    (∀ l < width, Addresses (active l) (addresses.lane l) m.memory) ∧
      m' = { m with memory := storeLanes active addresses xs (List.range width) m.memory } := by
  refine storeLanes_eq_ok_iff.trans (and_congr_left fun _ => ?_)
  exact forall_congr' fun l => by rw [List.mem_range]

/-! ## Instructions -/

theorem loadLane_eq_ok_iff {act : Bool} {addr x : Scalar} {memory : Array Scalar} :
    (match addr with
      | .int address => if act then readLane memory address else .ok .undefined
      | _ => .ok .undefined : Except EvalError Scalar) = .ok x ↔
      Addresses act addr memory ∧ x = loadLane act addr memory := by
  have hskip : (.ok .undefined : Except EvalError Scalar) = .ok x ↔ x = .undefined :=
    ⟨fun h => (Except.ok.inj h).symm, fun h => h ▸ rfl⟩
  cases addr with
  | int a =>
    cases act with
    | true =>
      show readLane memory a = _ ↔ _
      unfold readLane
      split
      · rename_i hc
        refine ⟨fun h => ⟨fun b _ e => ?_, (Except.ok.inj h).symm⟩, fun h => congrArg _ h.2.symm⟩
        cases e
        exact hc
      · rename_i hc
        exact ⟨fun h => (by cases h), fun h => absurd (h.1 a rfl rfl) hc⟩
    | false => exact hskip.trans ⟨fun h => ⟨fun _ h => (by cases h), h⟩, fun h => h.2⟩
  | _ =>
    cases act <;> exact hskip.trans ⟨fun h => ⟨fun _ _ h => (by cases h), h⟩, fun h => h.2⟩

variable {s : Setup} {f : Func} {i : InstId} {p v : Value}

theorem instr_load_eq_ok_iff (hw : 0 < s.width) (hop : (f.inst i).op = .apply .load [p]) :
    instr s f i m = (.ok (), m') ↔
      (∀ l < s.width, Addresses (Run.active s.width m (f.inst i).mask l) ((m.value s.width p).lane l)
        m.memory) ∧
      ∃ xs : Lanes, xs.length = s.width ∧
        (∀ l < s.width, xs.lane l = loadLane (Run.active s.width m (f.inst i).mask l)
          ((m.value s.width p).lane l) m.memory) ∧ m' = m.setValue i xs := by
  have hlane : ∀ (l : Nat) x, laneResult s.width f i .load [p] m l = .ok x ↔ _ := fun l x =>
    loadLane_eq_ok_iff
  rw [instr_eq_ok_iff hw hop rfl]
  constructor
  · rintro ⟨xs, ⟨hlen, h⟩, rfl⟩
    exact ⟨fun l hl => ((hlane l _).mp (h l hl)).1, xs, hlen, fun l hl => ((hlane l _).mp (h l hl)).2, rfl⟩
  · rintro ⟨ha, xs, hlen, h, rfl⟩
    exact ⟨xs, ⟨hlen, fun l hl => (hlane l _).mpr ⟨ha l hl, h l hl⟩⟩, rfl⟩

theorem instr_store_eq_ok_iff (hop : (f.inst i).op = .apply .store [p, v]) :
    instr s f i m = (.ok (), m') ↔
      (∀ l < s.width, Addresses (Run.active s.width m (f.inst i).mask l) ((m.value s.width p).lane l)
        m.memory) ∧
      m' = Machine.setValue { m with
        memory := storeLanes (Run.active s.width m (f.inst i).mask) (m.value s.width p)
          (m.value s.width v) (List.range s.width) m.memory } i (.splat s.width .undefined) := by
  rw [instr_apply hop]
  constructor
  · intro e
    obtain ⟨xs, m1, hx, e⟩ := exists_of_bind_run_eq_ok e
    obtain ⟨⟨⟩, m2, h2, hx⟩ := exists_of_bind_run_eq_ok hx
    cases hx
    cases e
    obtain ⟨ha, rfl⟩ := store_eq_ok_iff.mp h2
    exact ⟨ha, rfl⟩
  · rintro ⟨ha, rfl⟩
    refine (bind_run_eq (a := Lanes.splat s.width .undefined) ?_).trans rfl
    exact (bind_run_eq (store_eq_ok_iff.mpr ⟨ha, rfl⟩)).trans rfl

end Run

end Lockstep
