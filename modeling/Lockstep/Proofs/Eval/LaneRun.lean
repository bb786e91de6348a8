import Lockstep.Proofs.Eval.Along
import Lockstep.Proofs.Eval.Lanes
import Lockstep.Proofs.Eval.LaneView

/-!
# Lock-step runs and runs of single lanes

A run of several lanes of a function without stores and calls is the runs of its lanes, made
together. If it returns, each lane on its own goes the same way and returns its part of the result,
unless it comes to a branch whose condition is undefined there. If each lane on its own returns, the
lanes together return if they all go the same way, and otherwise stop at the first branch at which
they part (`run_lanes`). What carries the induction over the blocks is that the machine of a lane is
the view that the lane has of the common machine.
-/

namespace Lockstep

namespace Lanes

theorem lane_mem {xs : Lanes} {l : Nat} (hl : l < xs.length) : xs.lane l ∈ xs := by
  unfold lane
  rw [List.getElem?_eq_getElem hl]
  exact List.getElem_mem hl

theorem exists_lane {xs : Lanes} {x : Scalar} (h : x ∈ xs) : ∃ l < xs.length, xs.lane l = x := by
  obtain ⟨l, hl, rfl⟩ := List.mem_iff_getElem.mp h
  refine ⟨l, hl, ?_⟩
  unfold lane
  rw [List.getElem?_eq_getElem hl]
  rfl

/-- The lanes of single-lane values together. -/
def stack (n : Nat) (ys : Nat → Lanes) : Lanes := (List.range n).map fun l => (ys l).lane 0

theorem stack_lane {xs : Lanes} {n : Nat} (h : xs.length = n) :
    stack n (fun l => [xs.lane l]) = xs := by
  refine List.ext_getElem ?_ fun l h1 h2 => ?_
  · rw [stack, List.length_map, List.length_range, h]
  · simp [stack, lane, h2]

end Lanes

namespace Run

/-! ## Agreement -/

/-- What the lanes of a condition agree on. -/
theorem agree_spec (xs : Lanes) :
    match agree xs with
    | none => .bool true ∈ xs ∧ .bool false ∈ xs
    | some none => ∀ b, .bool b ∉ xs
    | some (some b) => .bool b ∈ xs ∧ .bool (!b) ∉ xs := by
  induction xs with
  | nil => exact fun _ => List.not_mem_nil
  | cons x xs ih =>
    cases x with
    | bool c =>
      unfold agree
      cases hxs : agree xs with
      | none =>
        rw [hxs] at ih
        exact ⟨List.mem_cons_of_mem _ ih.1, List.mem_cons_of_mem _ ih.2⟩
      | some way =>
        rw [hxs] at ih
        cases way with
        | none => simpa using ih (!c)
        | some d =>
          obtain ⟨h1, h2⟩ := ih
          dsimp only
          by_cases hcd : c = d
          · subst hcd
            rw [if_pos rfl]
            exact ⟨List.mem_cons_self, by simpa using h2⟩
          · rw [if_neg hcd]
            cases c <;> cases d <;> simp_all
    | _ =>
      unfold agree
      cases hxs : agree xs with
      | none => simpa [hxs] using ih
      | some way =>
        cases way with
        | none => simpa [hxs] using ih
        | some d => simpa [hxs] using ih

theorem eq_of_agree_of_mem {xs : Lanes} {b c : Bool} (h : agree xs = some (some b))
    (hc : .bool c ∈ xs) : c = b := by
  have hspec := agree_spec xs
  rw [h] at hspec
  by_contra hne
  obtain rfl : c = !b := by cases b <;> cases c <;> simp_all
  exact hspec.2 hc

theorem agree_eq_some {xs : Lanes} {b : Bool} (hb : .bool b ∈ xs)
    (h : ∀ c, .bool c ∈ xs → c = b) : agree xs = some (some b) := by
  have hspec := agree_spec xs
  cases hxs : agree xs with
  | none =>
    rw [hxs] at hspec
    have := h true hspec.1
    have := h false hspec.2
    simp_all
  | some way =>
    rw [hxs] at hspec
    cases way with
    | none => exact absurd hb (hspec b)
    | some c => rw [h c hspec.1]

theorem agree_eq_none {xs : Lanes} (ht : .bool true ∈ xs) (hf : .bool false ∈ xs) :
    agree xs = none := by
  have hspec := agree_spec xs
  cases hxs : agree xs with
  | none => rfl
  | some way =>
    rw [hxs] at hspec
    cases way with
    | none => exact absurd ht (hspec true)
    | some c => cases c <;> simp_all

/-! ## The end of a block -/

variable {s : Setup} {f : Func} {m m' : Machine} {width l : Nat} {t : Terminator} {b : BlockId}

/-- The part of a way out that lane `l` sees. -/
def laneOut (l : Nat) (r : BlockId ⊕ Option Lanes) : BlockId ⊕ Option Lanes :=
  r.map id (Option.map fun xs => [xs.lane l])

/-- Where all lanes go together each goes, unless its condition is undefined. -/
theorem wayOut_lane (hm : m.Full width) (hl : l < width) {r : BlockId ⊕ Option Lanes}
    (h : wayOut width t b m = .ok r) :
    wayOut 1 t b (m.lane l) = .ok (laneOut l r) ∨
      wayOut 1 t b (m.lane l) = .error (.undefBranch b) := by
  cases t with
  | unreachable => cases h
  | ret v =>
    cases h
    left
    cases v with
    | none => rfl
    | some v =>
      show Except.ok (Sum.inr (some ((m.lane l).value 1 v))) = _
      rw [Machine.value_lane hl]
      rfl
  | br target =>
    cases h
    exact .inl rfl
  | brIf cond onTrue onFalse =>
    unfold wayOut at h ⊢
    dsimp only at h ⊢
    rw [Machine.value_lane hl]
    cases hagree : agree (m.value width cond) with
    | none =>
      rw [hagree] at h
      cases h
    | some way =>
      rw [hagree] at h
      cases way with
      | none => cases h
      | some taken =>
        cases h
        cases hx : (m.value width cond).lane l with
        | bool c =>
          have hmem : .bool c ∈ m.value width cond := by
            rw [← hx]
            exact Lanes.lane_mem (by rw [hm.value cond]; exact hl)
          obtain rfl := eq_of_agree_of_mem hagree hmem
          exact .inl rfl
        | _ => exact .inr rfl

/-- If each lane goes on, they go on together, or part at a branch. -/
theorem wayOut_lanes (hw : 0 < width) (hm : m.Full width)
    (hall : ∀ l < width, ∃ r, wayOut 1 t b (m.lane l) = .ok r) :
    (∃ r, wayOut width t b m = .ok r) ∨
      wayOut width t b m = .error (.divergentBranch b) ∧ ∃ cond x y, t = .brIf cond x y ∧
        (∃ l < width, wayOut 1 t b (m.lane l) = .ok (.inl x)) ∧
        ∃ l < width, wayOut 1 t b (m.lane l) = .ok (.inl y) := by
  cases t with
  | unreachable =>
    obtain ⟨r, h⟩ := hall 0 hw
    cases h
  | ret v => exact .inl ⟨_, rfl⟩
  | br target => exact .inl ⟨_, rfl⟩
  | brIf cond onTrue onFalse =>
    have hlen := hm.value cond
    have hlane : ∀ l < width, ∃ c, (m.value width cond).lane l = .bool c := by
      intro l hl
      obtain ⟨r, h⟩ := hall l hl
      unfold wayOut at h
      dsimp only at h
      rw [Machine.value_lane hl] at h
      cases hx : (m.value width cond).lane l with
      | bool c => exact ⟨c, rfl⟩
      | _ =>
        rw [hx] at h
        cases h
    have hgo : ∀ c, .bool c ∈ m.value width cond → ∃ l < width,
        wayOut 1 (.brIf cond onTrue onFalse) b (m.lane l) = .ok (.inl (if c then onTrue else onFalse)) := by
      intro c hc
      obtain ⟨l, hl, hx⟩ := Lanes.exists_lane hc
      rw [hlen] at hl
      refine ⟨l, hl, ?_⟩
      unfold wayOut
      dsimp only
      rw [Machine.value_lane hl, hx]
      rfl
    obtain ⟨c, hc⟩ := hlane 0 hw
    have hmem : .bool c ∈ m.value width cond := by
      rw [← hc]
      exact Lanes.lane_mem (by rw [hlen]; exact hw)
    by_cases hother : .bool (!c) ∈ m.value width cond
    · right
      have hboth : .bool true ∈ m.value width cond ∧ .bool false ∈ m.value width cond := by
        cases c
        · exact ⟨hother, hmem⟩
        · exact ⟨hmem, hother⟩
      refine ⟨?_, cond, onTrue, onFalse, rfl, hgo true hboth.1, hgo false hboth.2⟩
      unfold wayOut
      dsimp only
      rw [agree_eq_none hboth.1 hboth.2]
    · left
      have hagree : agree (m.value width cond) = some (some c) := by
        refine agree_eq_some hmem fun d hd => ?_
        by_contra hne
        obtain rfl : d = !c := by cases c <;> cases d <;> simp_all
        exact hother hd
      unfold wayOut
      dsimp only
      rw [hagree]
      exact ⟨_, rfl⟩

theorem block_of_work {pred : Option BlockId} (h : work s f pred b m = (.ok (), m')) :
    block s f pred b m = (wayOut s.width (f.term b) b m', m') := by
  obtain ⟨_, m0, h0, h⟩ := exists_of_bind_run_eq_ok h
  cases h0
  obtain ⟨_, m1, h1, h2⟩ := exists_of_bind_run_eq_ok h
  refine (bind_run_eq rfl).trans ((bind_run_eq h1).trans ((bind_run_eq h2).trans ?_))
  exact leave_apply s f b m'

theorem full_work {pred : Option BlockId} (hm : m.Full s.width)
    (h : work s f pred b m = (.ok (), m')) : m'.Full s.width := by
  obtain ⟨_, m0, h0, h⟩ := exists_of_bind_run_eq_ok h
  cases h0
  obtain ⟨_, m1, h1, h2⟩ := exists_of_bind_run_eq_ok h
  have hvisit : ({ m with path := b :: m.path } : Machine).Full s.width := hm.ofEq rfl rfl
  exact full_instrs (full_phis hvisit h1) h2

theorem trace_work {pred : Option BlockId} (h : work s f pred b m = (.ok (), m')) :
    m'.trace = m.trace ++ [b] := by
  obtain ⟨_, m0, h0, h⟩ := exists_of_bind_run_eq_ok h
  cases h0
  obtain ⟨_, m1, h1, h2⟩ := exists_of_bind_run_eq_ok h
  obtain ⟨new, -, rfl⟩ := phis_eq_ok_iff.mp h1
  unfold Machine.trace
  rw [path_instrs h2, Machine.path_setPhis, List.reverse_cons]

/-! ## Runs -/

/-- All of the first `n` lists begin with `p`, and two of them differ right after it. -/
structure PartAfter (n : Nat) (t : Nat → List BlockId) (p : List BlockId) : Prop where
  shared : ∀ l < n, p <+: t l
  part : ∃ l < n, ∃ k < n, ∃ x y, x ≠ y ∧ p ++ [x] <+: t l ∧ p ++ [y] <+: t k

/-- The blocks of a run come after those before it, and begin with the block that it starts with. -/
theorem exists_trace_blocks {steps : Nat} {pred : Option BlockId} {ret : Option Lanes}
    (e : blocks s f steps pred b m = (.ok ret, m')) :
    ∃ rest, m'.trace = m.trace ++ [b] ++ rest := by
  induction steps generalizing pred b m with
  | zero => cases e
  | succ steps ih =>
    obtain ⟨r, m2, e1, e⟩ := exists_of_bind_run_eq_ok e
    cases r with
    | inr ret' =>
      cases e
      exact ⟨[], by rw [trace_block e1, List.append_nil]⟩
    | inl n =>
      obtain ⟨rest, h⟩ := ih e
      exact ⟨n :: rest, by rw [h, trace_block e1, List.append_assoc _ [n], List.singleton_append]⟩

section

variable (hw : 0 < s.width) (hq : ∀ b, ∀ i ∈ f.body b, (f.inst i).op.isQuiet = true)

include hw hq

/-- What lanes do together each does on its own, unless it comes to a branch whose condition is
undefined there. -/
theorem blocks_lane {steps : Nat} {pred : Option BlockId} {ret : Option Lanes} (hm : m.Full s.width)
    (e : blocks s f steps pred b m = (.ok ret, m')) (hl : l < s.width) :
    blocks s.single f steps pred b (m.lane l) =
        (.ok (ret.map fun xs => [xs.lane l]), m'.lane l) ∨
      ∃ c n, blocks s.single f steps pred b (m.lane l) = (.error (.undefBranch c), n) := by
  induction steps generalizing pred b m with
  | zero => cases e
  | succ steps ih =>
    obtain ⟨r, m2, e1, e⟩ := exists_of_bind_run_eq_ok e
    obtain ⟨hwork, hway⟩ := block_eq_ok_iff_work.mp e1
    have hblock := block_of_work ((splits_work hw (hq b) m).lane m2 hwork l hl)
    rcases wayOut_lane (full_work hm hwork) hl hway with hlane | hlane
    · have e1' : block s.single f pred b (m.lane l) = (.ok (laneOut l r), m2.lane l) :=
        hblock.trans (congrArg (·, m2.lane l) hlane)
      cases r with
      | inr ret' =>
        cases e
        exact .inl (bind_run_eq e1')
      | inl n =>
        rcases ih (full_work hm hwork) e with h | ⟨c, k, h⟩
        · exact .inl ((bind_run_eq e1').trans h)
        · exact .inr ⟨c, k, (bind_run_eq e1').trans h⟩
    · exact .inr ⟨b, m2.lane l, bind_run_eq_error (hblock.trans (congrArg (·, m2.lane l) hlane))⟩

/-- If each lane returns on its own, the lanes return together, or stop where they part. -/
theorem blocks_lanes (hn : ∀ b, (f.term b).targets.Nodup) {steps : Nat} {pred : Option BlockId}
    (hm : m.Full s.width) {rets : Nat → Option Lanes} {ends : Nat → Machine}
    (hall : ∀ l < s.width, blocks s.single f steps pred b (m.lane l) = (.ok (rets l), ends l)) :
    (∃ ret m', blocks s f steps pred b m = (.ok ret, m')) ∨
      ∃ p c m', blocks s f steps pred b m = (.error (.divergentBranch c), m') ∧
        PartAfter s.width (fun l => (ends l).trace) (p ++ [c]) := by
  induction steps generalizing pred b m with
  | zero => cases hall 0 hw
  | succ steps ih =>
    have hblocks : ∀ l < s.width, ∃ r n, block s.single f pred b (m.lane l) = (.ok r, n) := by
      intro l hl
      obtain ⟨r, n, h, -⟩ := exists_of_bind_run_eq_ok (hall l hl)
      exact ⟨r, n, h⟩
    have hsplits : Splits s.width (work s f pred b) (work s.single f pred b) m :=
      splits_work hw (hq b) m
    obtain ⟨m2, hwork⟩ := hsplits.all fun l hl => by
      obtain ⟨r, n, h⟩ := hblocks l hl
      exact ⟨n, (block_eq_ok_iff_work.mp h).1⟩
    have hfull := full_work hm hwork
    have hblock : ∀ l < s.width,
        block s.single f pred b (m.lane l) = (wayOut 1 (f.term b) b (m2.lane l), m2.lane l) :=
      fun l hl => block_of_work (hsplits.lane m2 hwork l hl)
    have hout : ∀ l < s.width, ∃ r, wayOut 1 (f.term b) b (m2.lane l) = .ok r := by
      intro l hl
      obtain ⟨r, n, h⟩ := hblocks l hl
      rw [hblock l hl] at h
      exact ⟨r, (Prod.mk.inj h).1⟩
    have htrace : m2.trace = m.trace ++ [b] := trace_work hwork
    -- where a lane goes on, its run does
    have hrest : ∀ l < s.width, ∀ n, wayOut 1 (f.term b) b (m2.lane l) = .ok (.inl n) →
        blocks s.single f steps (some b) n (m2.lane l) = (.ok (rets l), ends l) := by
      intro l hl n h
      have := hall l hl
      unfold blocks at this
      rw [bind_run_eq ((hblock l hl).trans (Prod.ext h rfl))] at this
      exact this
    rcases wayOut_lanes hw hfull hout with ⟨r, hr⟩ | ⟨hr, cond, x, y, ht, hx, hy⟩
    · have e1 : block s f pred b m = (.ok r, m2) := (block_of_work hwork).trans (Prod.ext hr rfl)
      cases r with
      | inr ret => exact .inl ⟨ret, m2, bind_run_eq e1⟩
      | inl n =>
        have hnext : ∀ l < s.width, wayOut 1 (f.term b) b (m2.lane l) = .ok (.inl n) := by
          intro l hl
          rcases wayOut_lane hfull hl hr with h | h
          · exact h
          · obtain ⟨r, h'⟩ := hout l hl
            rw [h] at h'
            cases h'
        rcases ih hfull fun l hl => hrest l hl n (hnext l hl) with ⟨ret, m', h⟩ | ⟨p, c, m', h, hp⟩
        · exact .inl ⟨ret, m', (bind_run_eq e1).trans h⟩
        · exact .inr ⟨p, c, m', (bind_run_eq e1).trans h, hp⟩
    · have e1 : block s f pred b m = (.error (.divergentBranch b), m2) :=
        (block_of_work hwork).trans (Prod.ext hr rfl)
      obtain ⟨lx, hlx, hx⟩ := hx
      obtain ⟨ly, hly, hy⟩ := hy
      obtain ⟨restx, hx⟩ := exists_trace_blocks (hrest lx hlx x hx)
      obtain ⟨resty, hy⟩ := exists_trace_blocks (hrest ly hly y hy)
      have hxy : x ≠ y := by
        have := hn b
        rw [ht] at this
        simpa [Terminator.targets] using this
      refine .inr ⟨m.trace, b, m2, bind_run_eq_error e1, ?_, lx, hlx, ly, hly, x, y, hxy, ?_, ?_⟩
      · intro l hl
        obtain ⟨rest, h⟩ := exists_trace_blocks (hall l hl)
        exact ⟨rest, h.symm⟩
      · exact ⟨restx, by rw [hx, ← htrace]; rfl⟩
      · exact ⟨resty, by rw [hy, ← htrace]; rfl⟩

omit hq hw in
/-- What a run returns has all its lanes. -/
theorem length_of_blocks {steps : Nat} {pred : Option BlockId} {ret : Option Lanes}
    (hm : m.Full s.width) (e : blocks s f steps pred b m = (.ok ret, m')) :
    ∀ xs ∈ ret, xs.length = s.width := by
  induction steps generalizing pred b m with
  | zero => cases e
  | succ steps ih =>
    obtain ⟨r, m2, e1, e⟩ := exists_of_bind_run_eq_ok e
    obtain ⟨hwork, hway⟩ := block_eq_ok_iff_work.mp e1
    have hfull := full_work hm hwork
    cases r with
    | inl n => exact ih hfull e
    | inr ret' =>
      cases e
      obtain ⟨v, -, rfl⟩ := ret_of_wayOut hway
      intro xs hxs
      obtain ⟨v, -, rfl⟩ := Option.map_eq_some_iff.mp hxs
      exact hfull.value v

end

/-! ## The arguments -/

/-- The arguments that lane `l` gets. -/
def laneArgs (args : List Lanes) (l : Nat) : List Lanes := args.map fun xs => [xs.lane l]

theorem argument_of_length {xs : Lanes} (h : xs.length = width) : argument width xs = .ok xs := by
  unfold argument
  split
  · subst h
    rfl
  · rw [if_pos h]

/-- Arguments with all their lanes are taken as they are. -/
theorem arguments_of_length {args : List Lanes} (h1 : 1 ≤ s.width) (h16 : s.width ≤ Lanes.maxCount)
    (hlen : args.length = f.params.length) (hargs : ∀ xs ∈ args, xs.length = s.width) :
    arguments s f args = .ok args := by
  unfold arguments
  rw [if_neg (by omega), if_neg (by omega), mapM_eq_ok_iff, List.forall₂_same]
  exact fun xs hxs => argument_of_length (hargs xs hxs)

theorem length_of_arguments {args params : List Lanes} (h : arguments s f args = .ok params) :
    args.length = f.params.length := by
  unfold arguments at h
  by_contra hne
  rw [if_pos hne] at h
  split at h <;> cases h

theorem arguments_laneArgs {args : List Lanes} (hlen : args.length = f.params.length) (l : Nat) :
    arguments s.single f (laneArgs args l) = .ok (laneArgs args l) := by
  refine arguments_of_length (Nat.le_refl 1) (by decide : 1 ≤ Lanes.maxCount) ?_ ?_
  · rw [laneArgs, List.length_map, hlen]
  · intro xs hxs
    obtain ⟨ys, -, rfl⟩ := List.mem_map.mp hxs
    rfl

/-- A lane starts with its view of the machine that all start with. -/
theorem lane_startMachine (hl : l < s.width) (f : Func) (args : List Lanes) (memory : Array Scalar) :
    (startMachine s f args memory).lane l = startMachine s.single f (laneArgs args l) memory := by
  unfold startMachine Machine.lane
  rw [Array.map_replicate, Lanes.lane_splat _ hl]
  rfl

/-! ## Runs of several lanes -/

/-- `p` is the longest list with which all of the first `n` lists begin. -/
structure LongestShared (n : Nat) (t : Nat → List BlockId) (p : List BlockId) : Prop where
  shared : ∀ l < n, p <+: t l
  longest : ∀ q, (∀ l < n, q <+: t l) → q <+: p

theorem PartAfter.longestShared {n : Nat} {t : Nat → List BlockId} {p : List BlockId}
    (h : PartAfter n t p) : LongestShared n t p where
  shared := h.shared
  longest q hq := by
    obtain ⟨l, hl, k, hk, x, y, hxy, hx, hy⟩ := h.part
    by_cases hlen : q.length ≤ p.length
    · exact List.prefix_of_prefix_length_le (hq l hl) (h.shared l hl) hlen
    -- a longer list would go on with both `x` and `y`
    · have hlong : ∀ z, (p ++ [z]).length ≤ q.length := fun z => by
        rw [List.length_append, List.length_singleton]
        omega
      have hqx := List.prefix_of_prefix_length_le hx (hq l hl) (hlong x)
      have hqy := List.prefix_of_prefix_length_le hy (hq k hk) (hlong y)
      have hle : (p ++ [x]).length ≤ (p ++ [y]).length := by simp
      have he := (List.prefix_of_prefix_length_le hqx hqy hle).eq_of_length (by simp)
      exact absurd (by simpa using he) hxy

theorem PartAfter.exists_ne {n : Nat} {t : Nat → List BlockId} {p : List BlockId}
    (h : PartAfter n t p) : ¬ ∀ l < n, t l = t 0 := by
  intro heq
  obtain ⟨l, hl, k, hk, x, y, hxy, hx, hy⟩ := h.part
  rw [heq l hl] at hx
  rw [heq k hk] at hy
  have hle : (p ++ [x]).length ≤ (p ++ [y]).length := by simp
  have he := (List.prefix_of_prefix_length_le hx hy hle).eq_of_length (by simp)
  exact hxy (by simpa using he)

/-- The values that single lanes return, as one with all lanes. -/
def stackRet (n : Nat) (rets : Nat → Option Lanes) : Option Lanes :=
  (rets 0).map fun _ => Lanes.stack n fun l => (rets l).getD []

theorem stackRet_lane {n : Nat} {ret : Option Lanes} (hlen : ∀ xs ∈ ret, xs.length = n)
    {rets : Nat → Option Lanes} (hn : 0 < n)
    (h : ∀ l < n, rets l = ret.map fun xs => [xs.lane l]) : stackRet n rets = ret := by
  unfold stackRet
  rw [h 0 hn]
  cases ret with
  | none => rfl
  | some xs =>
    have hstack : Lanes.stack n (fun l => (rets l).getD []) = Lanes.stack n fun l => [xs.lane l] := by
      refine List.map_congr_left fun l hl => ?_
      show Lanes.lane ((rets l).getD []) 0 = _
      rw [h l (List.mem_range.mp hl)]
      rfl
    show some (Lanes.stack n fun l => (rets l).getD []) = _
    rw [hstack, Lanes.stack_lane (hlen xs rfl)]

end Run

open Run

/-- Lock-step execution is execution lane by lane, in a function that neither stores nor calls. If
the lanes return together, each lane on its own goes through the same blocks and returns its part of
the result, or fails at a branch on an undefined condition. If each lane returns on its own and
conditional branches have two different targets, the lanes return together, with what they return on
their own, if they go through the same blocks; otherwise they stop at the last block of the longest
way that all of them share, because they disagree on the branch there. -/
theorem Func.run_lanes {s : Setup} {f : Func} (hq : ∀ b, ∀ i ∈ f.body b, (f.inst i).op.isQuiet = true)
    (h1 : 1 ≤ s.width) (h16 : s.width ≤ Lanes.maxCount) {args : List Lanes}
    (hargs : ∀ xs ∈ args, xs.length = s.width) (memory : Array Scalar) :
    (∀ ret m, f.run s args memory = (.ok ret, m) → ∀ l < s.width,
      (∃ n, f.run s.single (laneArgs args l) memory =
          (.ok (ret.map fun xs => [xs.lane l]), n) ∧ n.trace = m.trace) ∨
        ∃ b n, f.run s.single (laneArgs args l) memory = (.error (.undefBranch b), n)) ∧
    ((∀ b, (f.term b).targets.Nodup) → ∀ (rets : Nat → Option Lanes) (ends : Nat → Machine),
      (∀ l < s.width, f.run s.single (laneArgs args l) memory = (.ok (rets l), ends l)) →
      ((∀ l < s.width, (ends l).trace = (ends 0).trace) → ∃ m,
        f.run s args memory = (.ok (stackRet s.width rets), m) ∧ m.trace = (ends 0).trace) ∧
      ((¬ ∀ l < s.width, (ends l).trace = (ends 0).trace) → ∃ p b m,
        f.run s args memory = (.error (.divergentBranch b), m) ∧
          LongestShared s.width (fun l => (ends l).trace) (p ++ [b]))) := by
  have hrun : args.length = f.params.length → ∀ l < s.width,
      f.run s.single (laneArgs args l) memory =
        Run.blocks s.single f s.limit none f.entry ((startMachine s f args memory).lane l) := by
    intro hlen l hl
    rw [Func.run_eq (arguments_laneArgs hlen l), lane_startMachine hl]
    rfl
  have hfull : (startMachine s f args memory).Full s.width := full_start hargs _ memory
  constructor
  · intro ret m e l hl
    obtain ⟨params, hp⟩ := Func.exists_arguments e
    have hlen := length_of_arguments hp
    rw [Func.run_eq (arguments_of_length h1 h16 hlen hargs)] at e
    rw [hrun hlen l hl]
    rcases blocks_lane h1 hq hfull e hl with h | h
    · exact .inl ⟨m.lane l, h, rfl⟩
    · exact .inr h
  · intro hn rets ends hall
    obtain ⟨params, hp⟩ := Func.exists_arguments (hall 0 h1)
    have hlen : args.length = f.params.length := by
      have := length_of_arguments hp
      rwa [laneArgs, List.length_map] at this
    have hblocks : ∀ l < s.width, Run.blocks s.single f s.limit none f.entry
        ((startMachine s f args memory).lane l) = (.ok (rets l), ends l) := by
      intro l hl
      rw [← hrun hlen l hl]
      exact hall l hl
    rw [Func.run_eq (arguments_of_length h1 h16 hlen hargs)]
    rcases blocks_lanes h1 hq hn hfull hblocks with ⟨ret, m, e⟩ | ⟨p, b, m, e, hpart⟩
    · have hlane : ∀ l < s.width, rets l = (ret.map fun xs => [xs.lane l]) ∧ ends l = m.lane l := by
        intro l hl
        rcases blocks_lane h1 hq hfull e hl with h | ⟨c, n, h⟩
        · rw [hblocks l hl] at h
          obtain ⟨h2, h3⟩ := Prod.mk.inj h
          exact ⟨Except.ok.inj h2, h3⟩
        · rw [hblocks l hl] at h
          cases h
      have hstack := stackRet_lane (length_of_blocks hfull e) h1 fun l hl => (hlane l hl).1
      refine ⟨fun _ => ⟨m, by rw [hstack]; exact e, by rw [(hlane 0 h1).2]; rfl⟩, fun hne => ?_⟩
      refine absurd (fun l hl => ?_) hne
      rw [(hlane l hl).2, (hlane 0 h1).2]
      rfl
    · exact ⟨fun heq => absurd heq hpart.exists_ne, fun _ => ⟨p, b, m, e, hpart.longestShared⟩⟩

/-- What the instructions of a table and the one read past its end satisfy, all satisfy. -/
theorem forall_inst {f : Func} {P : Instr → Prop} (h : ∀ i < f.insts.size, P (f.inst i))
    (hd : P default) (i : InstId) : P (f.inst i) := by
  by_cases hi : i < f.insts.size
  · exact h i hi
  · rw [f.inst_of_size_le (Nat.le_of_not_lt hi)]
    exact hd

theorem forall_term {f : Func} {P : Terminator → Prop} (h : ∀ b < f.blocks.size, P (f.term b))
    (hd : P .unreachable) (b : BlockId) : P (f.term b) := by
  by_cases hb : b < f.blocks.size
  · exact h b hb
  · rw [Cfg.term_of_size_le (Nat.le_of_not_lt hb)]
    exact hd

/-- Counts up to the first parameter, and loads the cell that the counter points to in the lanes in
which the second is true. -/
def countTo : Func where
  params := [.int 32, .bool, .ptr (.int 32)]
  retTy := .int 32
  blocks := #[
    { term := .br 1 },
    { insts := [0, 1, 2, 3, 4], term := .brIf (.inst 4) 1 2 },
    { term := .ret (some (.inst 2)) }]
  insts := #[
    { op := .phi [(0, .ofInt (.int 32) 0), (1, .inst 3)], ty := .int 32, block := 1 },
    { op := .apply .ptrOffset [.param 2, .inst 0], ty := .ptr (.int 32), block := 1 },
    { op := .apply .load [.inst 1], ty := .int 32, mask := some (.param 1), block := 1 },
    { op := .apply (.binary .add) [.inst 0, .ofInt (.int 32) 1], ty := .int 32, block := 1 },
    { op := .apply (.cmp .slt) [.inst 3, .param 0], ty := .bool, block := 1 }]
  layout := [0, 1, 2]

/-- Two lanes that count to `bound`, of which the first loads. -/
def countToArgs (bound : Lanes) : List Lanes :=
  [bound, [.bool true, .bool false], [.int 0, .int 0]]

/-- What lane `l` does on its own. -/
def countToLane (bound : Lanes) (l : Nat) : Except EvalError (Option Lanes) × Machine :=
  countTo.run { width := 1, limit := 9 } (laneArgs (countToArgs bound) l) #[.int 7, .int 8]

theorem isQuiet_countTo (i : InstId) : (countTo.inst i).op.isQuiet = true :=
  forall_inst (P := fun d => d.op.isQuiet = true) (by decide) (by decide) i

theorem length_of_mem_countToArgs (x y : Scalar) : ∀ xs ∈ countToArgs [x, y], xs.length = 2 := by
  simp [countToArgs]

/-- Where both lanes count to two, the first returns what it loads last, the second nothing. -/
theorem countToLane_same : ∀ l < 2, countToLane [.int 2, .int 2] l =
    (.ok (some [Lanes.lane [.int 8, .undefined] l]), (countToLane [.int 2, .int 2] l).2) := by
  intro l hl
  obtain rfl | rfl : l = 0 ∨ l = 1 := by omega
  · exact Prod.ext (by decide +kernel) rfl
  · exact Prod.ext (by decide +kernel) rfl

theorem countToLane_apart : ∀ l < 2, countToLane [.int 1, .int 2] l =
    (.ok (some [Lanes.lane [.int 7, .undefined] l]), (countToLane [.int 1, .int 2] l).2) := by
  intro l hl
  obtain rfl | rfl : l = 0 ∨ l = 1 := by omega
  · exact Prod.ext (by decide +kernel) rfl
  · exact Prod.ext (by decide +kernel) rfl

/-- Lanes that count equally far return together, and lanes that do not part at the loop. -/
theorem run_lanes_countTo :
    (∀ b, ∀ i ∈ countTo.body b, (countTo.inst i).op.isQuiet = true) ∧
    (∀ b, (countTo.term b).targets.Nodup) ∧
    (∃ m, countTo.run { width := 2, limit := 9 } (countToArgs [.int 2, .int 2]) #[.int 7, .int 8] =
      (.ok (some [.int 8, .undefined]), m)) ∧
    ∃ p b m, countTo.run { width := 2, limit := 9 } (countToArgs [.int 1, .int 2]) #[.int 7, .int 8] =
      (.error (.divergentBranch b), m) ∧
        LongestShared 2 (fun l => (countToLane [.int 1, .int 2] l).2.trace) (p ++ [b]) := by
  have hq : ∀ b, ∀ i ∈ countTo.body b, (countTo.inst i).op.isQuiet = true :=
    fun _ i _ => isQuiet_countTo i
  have hn : ∀ b, (countTo.term b).targets.Nodup :=
    forall_term (P := fun t => t.targets.Nodup) (by decide) (by decide)
  obtain ⟨-, hsame⟩ := @Func.run_lanes { width := 2, limit := 9 } countTo hq (by decide) (by decide)
    (countToArgs [.int 2, .int 2]) (length_of_mem_countToArgs _ _) #[.int 7, .int 8]
  obtain ⟨-, hapart⟩ := @Func.run_lanes { width := 2, limit := 9 } countTo hq (by decide) (by decide)
    (countToArgs [.int 1, .int 2]) (length_of_mem_countToArgs _ _) #[.int 7, .int 8]
  have htrace : ∀ l < 2, (countToLane [.int 2, .int 2] l).2.trace =
      (countToLane [.int 2, .int 2] 0).2.trace := by
    intro l hl
    obtain rfl | rfl : l = 0 ∨ l = 1 := by omega
    · rfl
    · decide +kernel
  have hne : ¬ ∀ l < 2, (countToLane [.int 1, .int 2] l).2.trace =
      (countToLane [.int 1, .int 2] 0).2.trace := by decide +kernel
  obtain ⟨m, h, -⟩ := (hsame hn _ _ countToLane_same).1 htrace
  exact ⟨hq, hn, ⟨m, h⟩, (hapart hn _ _ countToLane_apart).2 hne⟩

/-- A branch with the same target both ways. -/
def branchNowhere : Func where
  params := [.bool]
  retTy := .void
  blocks := #[{ term := .brIf (.param 0) 1 1 }, { term := .ret none }]
  insts := #[]
  layout := [0, 1]

/-- The two targets have to be different: lanes that disagree on a branch stop there even if each of
them goes the same way. -/
theorem run_branchNowhere :
    (∀ b, ∀ i ∈ branchNowhere.body b, (branchNowhere.inst i).op.isQuiet = true) ∧
      (∀ l < 2, ∃ m, branchNowhere.run { width := 1, limit := 9 }
        (laneArgs [[.bool true, .bool false]] l) #[] = (.ok none, m) ∧ m.trace = [0, 1]) ∧
      ∃ m, branchNowhere.run { width := 2, limit := 9 } [[.bool true, .bool false]] #[] =
        (.error (.divergentBranch 0), m) := by
  refine ⟨fun b i _ => ?_, fun l hl => ?_, _, rfl⟩
  · exact forall_inst (P := fun d => d.op.isQuiet = true) (by decide) (by decide) i
  obtain rfl | rfl : l = 0 ∨ l = 1 := by omega
  · exact ⟨_, rfl, rfl⟩
  · exact ⟨_, rfl, rfl⟩

end Lockstep
