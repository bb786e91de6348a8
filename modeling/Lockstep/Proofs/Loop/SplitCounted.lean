import Lockstep.Proofs.Func.Check
import Lockstep.Proofs.Loop.Recognize
import Lockstep.Proofs.Loop.SplitSsa

/-!
# Both halves of a split loop are counted

After a remainder has been split off, the analysis of the new function finds the main loop, with the
blocks of the loop, and the remainder, with their copies (`SplitSteps.shapes_main`,
`SplitSteps.shapes_copy`). Both are recognized as counted loops: the main loop as before, with the
bound that the preheader computes, and the remainder with the bound of the loop, starting with the
induction variable of the main loop (`Loop.counted_halves_of_split`).
-/

namespace Lockstep

namespace SplitSteps

variable {f f1 g g' : Func} {l m r : Loop} {c : CountedLoop} {ds : List Instr} {t : Instr}
  {ρ : InstId → InstId} {β : BlockId → BlockId} {pre a b x y : BlockId} {i phi : InstId} {v : Value}

/-- The shape of the main loop, which is left to the new preheader. -/
def mainShape (l : Loop) (c : CountedLoop) (pre : BlockId) (test : InstId) : SingleExitLoop where
  header := l.header
  preheader := c.shape.preheader
  latch := c.shape.latch
  exiting := l.header
  exit := pre
  continueTarget := c.shape.continueTarget
  cond := .inst test
  stayOnTrue := true

/-- The shape of the remainder, which is left to the exit of the loop. -/
def copyShape (l : Loop) (c : CountedLoop) (ρ : InstId → InstId) (β : BlockId → BlockId)
    (pre : BlockId) : SingleExitLoop where
  header := β l.header
  preheader := pre
  latch := β c.shape.latch
  exiting := β l.header
  exit := c.shape.exit
  continueTarget := β c.shape.continueTarget
  cond := c.shape.cond.rename ρ
  stayOnTrue := c.shape.stayOnTrue

section

variable (S : SplitSteps f l c ds t ρ β pre f1 g g')

include S

theorem latch_mem : c.shape.latch ∈ l.blocks ∧ l.header ∈ (f.term c.shape.latch).targets :=
  have h := S.counted.singleExit.latch_mem S.ssa.toClosed S.mem
  ⟨h.1, h.2.2⟩

theorem eq_latch (hx : x ∈ l.blocks) (h : l.header ∈ (f.term x).targets) : x = c.shape.latch := by
  rcases S.counted.singleExit.eq_of_entering S.ssa.toClosed S.mem (S.reachable hx) h with
    ⟨-, hout⟩ | ⟨e, -⟩
  · exact absurd hx hout
  · exact e

/-- A path in the loop is still there. -/
theorem path_kept (hp : f.Path (· ∈ l.blocks) a b) (hb : b ∈ l.blocks) :
    g'.Path (· ∈ l.blocks) a b := by
  induction hp with
  | refl => exact .refl _
  | tail _ e ih =>
    exact (ih e.1).tail e.1 (S.mem_targets_iff.mpr (.kept (S.lt_of_mem e.1) e.2 fun _ => hb))

theorem latch_kept : l.header ∈ (g'.term c.shape.latch).targets :=
  S.mem_targets_iff.mpr (.kept (S.lt_of_mem S.latch_mem.1) S.latch_mem.2 fun _ => S.header_mem)

theorem latch_copied : β l.header ∈ (g'.term (β c.shape.latch)).targets :=
  S.mem_targets_iff.mpr (.copy S.latch_mem.1 S.header_mem S.latch_mem.2)

theorem not_copy (hb : b < f.blocks.size) : ¬ ∃ x ∈ l.blocks, b = β x := by
  rintro ⟨x, hx, rfl⟩
  exact Nat.lt_asymm hb (S.lt_copy hx)

/-- The blocks of the loop are the main loop. -/
theorem shapes_main : (mainShape l c pre g.insts.size).Shapes g' (· ∈ l.blocks) where
  entry := by
    show f.entry ∉ l.blocks
    exact S.counted.singleExit.entry_not_mem S.ssa.toClosed S.mem S.ssa.entry_pred
  header := S.header_mem
  outside := S.preheader_not_mem
  reachable b hb := S.reachable_new (S.reachable hb)
  entering x y hr hx hy h := by
    rcases S.edge_to_old (S.lt_of_mem hy) h with ⟨hlt, h⟩ | ⟨-, rfl⟩
    · exact S.eq_of_entering (S.reachable_old hr hlt) hx hy h
    · exact absurd hy S.exit_not_mem
  back b hb := S.path_kept (S.path_header_of_loop hb).2 S.header_mem
  cycle := ⟨_, S.latch_mem.1, S.latch_kept⟩
  preheader_br := by
    have hpre := S.preheader_mem
    show g'.term c.shape.preheader = .br l.header
    rw [S.term_outside (hpre.2.1.lt S.ssa.toClosed) hpre.1, S.counted.singleExit.entering_eq.2]
    rfl
  latch := S.latch_mem.1
  latch_edge := S.latch_kept
  eq_latch x hx h := by
    rcases S.edge_from_loop hx h with ⟨-, h⟩ | ⟨-, e⟩
    · exact S.eq_latch hx h
    · exact absurd e S.header_ne_pre
  exiting := rfl
  exit h := absurd S.pre_eq (Nat.ne_of_lt (S.lt_of_mem h))
  exit_edge := S.mem_targets_iff.mpr .leave
  leaving x y hx hy h := (S.edge_from_loop hx h).resolve_left fun h => hy h.1
  term := ⟨_, _, S.term_header, (beq_self_eq_true pre).symm, rfl⟩

/-- The copies of the blocks are the remainder. -/
theorem shapes_copy : (copyShape l c ρ β pre).Shapes g' (fun b => ∃ x ∈ l.blocks, b = β x) where
  entry := S.not_copy S.ssa.entry_lt
  header := ⟨_, S.header_mem, rfl⟩
  outside := fun ⟨x, hx, e⟩ => S.copy_ne_pre (S.lt_of_mem hx) e.symm
  reachable := by
    rintro _ ⟨x, hx, rfl⟩
    exact S.reachable_copy hx
  entering := by
    rintro x _ hr hx ⟨b, hb, rfl⟩ h
    rcases S.edge_to_copy hb h with ⟨rfl, rfl⟩ | ⟨a, ha, rfl, -⟩
    · exact ⟨rfl, rfl⟩
    · exact absurd ⟨a, ha, rfl⟩ hx
  back := by
    rintro _ ⟨x, hx, rfl⟩
    exact S.path_of_loop (S.path_header_of_loop hx).2 S.header_mem
  cycle := ⟨_, ⟨_, S.latch_mem.1, rfl⟩, S.latch_copied⟩
  preheader_br := S.term_pre
  latch := ⟨_, S.latch_mem.1, rfl⟩
  latch_edge := S.latch_copied
  eq_latch := by
    rintro _ ⟨x, hx, rfl⟩ h
    rcases S.edge_from_copy hx h with ⟨b, hb, e, h⟩ | ⟨-, e⟩
    · obtain rfl := S.copy_injective S.header_lt (S.lt_of_mem hb) e
      exact congrArg β (S.eq_latch hx h)
    · exact absurd e (S.copy_ne S.header_mem S.exit_edge.2)
  exiting := rfl
  exit := S.not_copy S.exit_edge.2
  exit_edge := S.mem_targets_iff.mpr .exit
  leaving := by
    rintro _ y ⟨x, hx, rfl⟩ hy h
    rcases S.edge_from_copy hx h with ⟨b, hb, rfl, -⟩ | ⟨rfl, rfl⟩
    · exact absurd ⟨b, hb, rfl⟩ hy
    · exact ⟨rfl, rfl⟩
  term := by
    obtain ⟨onTrue, onFalse, hterm, hstay, hcont⟩ := S.counted.singleExit.term
    rw [S.counted.exiting] at hterm
    refine ⟨β onTrue, β onFalse, ?_, ?_, ?_⟩
    · show g'.term (β l.header) = _
      rw [S.term_copy S.header_mem, hterm]
      rfl
    · have hlt : onFalse < f.blocks.size :=
        S.ssa.target_lt l.header _ (by rw [hterm]; simp [Terminator.targets])
      have hexit := S.copy_of_not_mem S.exit_not_mem
      refine hstay.trans (Bool.eq_iff_iff.mpr ?_)
      rw [beq_iff_eq, beq_iff_eq]
      constructor
      · rintro rfl
        exact hexit
      · intro e
        exact S.copy_injective hlt S.exit_edge.2 (e.trans hexit.symm)
    · show β c.shape.continueTarget = if c.shape.stayOnTrue then β onTrue else β onFalse
      rw [hcont]
      exact apply_ite β _ _ _

/-! ## The remainder -/

theorem mem_body_renamed (hi : i ∈ f.body b) : ρ i ∈ g'.body (β b) := by
  by_cases hb : b ∈ l.blocks
  · exact S.mem_body_copy hb hi
  · rw [S.rename_of_mem hb hi, S.copy_of_not_mem hb]
    exact S.mem_body_old hi

/-- The phis of the header, and no other values, have phis of the copied header as copies. -/
theorem phiOf?_copied (hi : i ∈ f.nonPhis l.header) (k : Nat) :
    Loop.phiOf? g' (β l.header) (((f.inst i).input k).rename ρ) =
      (Loop.phiOf? f l.header ((f.inst i).input k)).map ρ := by
  cases hv : (f.inst i).input k with
  | const _ | param _ => rfl
  | inst j =>
    obtain ⟨d, hj⟩ := S.ssa.attached_of_uses (S.reachable S.header_mem) hi
      (List.mem_append_left _ (Instr.mem_inputs_of_input hv))
    have hcopy := S.coherent.placed _ _ (S.mem_body_renamed hj)
    have hplaced := S.ssa.placed _ _ hj
    unfold Loop.phiOf?
    dsimp only [Value.rename]
    rw [hcopy, hplaced]
    by_cases e : d = l.header
    · subst e
      rw [S.isPhi_copy S.header_mem hj]
      by_cases hphi : f.isPhi j = true
      · rw [if_pos ⟨rfl, hphi⟩, if_pos ⟨rfl, hphi⟩]
        rfl
      · rw [if_neg fun h => hphi h.2, if_neg fun h => hphi h.2]
        rfl
    · have hne : β d ≠ β l.header := fun h =>
        e (S.copy_injective (f.lt_of_mem_body hj) S.header_lt h)
      rw [if_neg fun h => hne h.1, if_neg fun h => e h.1]
      rfl

/-- The bound is not computed in the copy. -/
theorem isInvariant_copy (hB : ∀ b, b ∈ r.blocks ↔ ∃ x ∈ l.blocks, b = β x) :
    r.isInvariant g' c.bound = true := by
  have hinv := S.counted.invariant
  have havail := S.counted.available_bound S.ssa S.mem
  cases hb : c.bound with
  | const _ | param _ => rfl
  | inst k =>
    rw [hb] at hinv havail
    obtain ⟨d, hk⟩ : ∃ d, k ∈ f.body d := by
      rcases havail with h | ⟨d, -, h, -⟩
      · exact ⟨_, h⟩
      · exact ⟨d, h⟩
    have hout : (f.inst k).block ∉ l.blocks := by simpa [Loop.isInvariant, Loop.contains] using hinv
    have hplaced := S.coherent.placed _ _ (S.mem_body_old hk)
    have hnot : (g'.inst k).block ∉ r.blocks := by
      rw [hplaced, hB]
      exact S.not_copy (f.lt_of_mem_body hk)
    simpa [Loop.isInvariant, Loop.contains] using hnot

/-- The remainder is recognized: it goes on from the main loop to the bound of the loop. -/
theorem counted_copy (hr : r.IsSingleExit g' (.ofFunc g') (copyShape l c ρ β pre))
    (hB : ∀ b, b ∈ r.blocks ↔ ∃ x ∈ l.blocks, b = β x) :
    r.IsCounted g'
      { c with shape := copyShape l c ρ β pre, iv := ρ c.iv, start := .inst c.iv } where
  singleExit := hr
  exiting := hr.header
  latch_ne e := S.counted.latch_ne (S.copy_injective (S.lt_of_mem S.latch_mem.1) S.header_lt
    (e.trans hr.header.symm))
  latch_br := by
    obtain ⟨target, ht⟩ := S.counted.latch_br
    refine ⟨β target, ?_⟩
    show g'.term (β c.shape.latch) = _
    rw [S.term_copy S.latch_mem.1, ht]
    rfl
  stayTest := by
    obtain ⟨i, hi⟩ := S.counted.test
    have hmem := (S.counted.mem_of_isExitTest S.ssa S.mem hi).2
    have hcond : (copyShape l c ρ β pre).cond = .inst (ρ i) := congrArg (Value.rename ρ) hi.cond
    have h := Loop.stayTest?_of_copied hi.cond hcond rfl ((S.copies S.header_mem).ops i hmem)
      (fun k => by rw [S.header]; exact S.phiOf?_copied hmem k) S.counted.stayTest
    rwa [S.rename_start.2] at h
  stayOp := S.counted.stayOp
  invariant := S.isInvariant_copy hB
  start := S.incoming_pre (S.counted.iv_mem S.ssa S.mem)
  step := by
    obtain ⟨j, added, hnext, hadd, hstep, hin, hmem⟩ := S.counted.exists_next S.ssa S.mem
    refine ⟨.inst (ρ j), added.rename ρ,
      S.incoming_copy S.header_mem (S.counted.iv_mem S.ssa S.mem) S.latch_mem.1 hnext,
      Loop.increment?_of_copied ((S.copies hin).ops j hmem) (fun _ => ?_) (fun v hv e => ?_) hadd,
      ?_⟩
    · rw [hB, S.coherent.placed _ _ (S.mem_body_copy hin (Func.mem_body_of_mem_nonPhis hmem))]
      exact ⟨_, hin, rfl⟩
    · cases v with
      | const _ | param _ => cases e
      | inst k =>
        have hiv := S.ssa.body_lt _ _ (Func.mem_body_of_mem_phis (S.counted.iv_mem S.ssa S.mem))
        have hk : k < f.insts.size := S.ssa.inputs j _ hv
        exact congrArg Value.inst (S.copied.injective k hk _ hiv (Value.inst.inj e))
    · cases added with
      | const _ => exact hstep
      | param _ | inst _ => cases hstep
  step_pos := S.counted.step_pos

end

/-- The main loop is recognized: it goes on to the bound that the preheader computes. -/
theorem counted_main {ty startTy boundTy : Ty} {width : Int64}
    (S : SplitSteps f l c (c.mainBoundCode c.shape.preheader ty startTy boundTy width f.insts.size)
      (c.mainTest (f.insts.size + 11)) ρ β pre f1 g g')
    (hm : m.IsSingleExit g' (.ofFunc g') (mainShape l c pre g.insts.size))
    (hB : ∀ b, b ∈ m.blocks ↔ b ∈ l.blocks) :
    m.IsCounted g' { c with
      shape := mainShape l c pre g.insts.size, bound := .inst (f.insts.size + 11) } where
  singleExit := hm
  exiting := hm.header
  latch_ne e := S.counted.latch_ne (e.trans hm.header.symm)
  latch_br := by
    obtain ⟨target, ht⟩ := S.counted.latch_br
    exact ⟨target, (S.term_inside S.latch_mem.1 S.counted.latch_ne).trans ht⟩
  stayTest := by
    have hiv := S.counted.iv_mem S.ssa S.mem
    have hbody := S.mem_body_old (Func.mem_body_of_mem_phis hiv)
    have hcmp : Loop.comparison? g' (.inst g.insts.size) =
        some (c.stayOp, .inst c.iv, .inst (f.insts.size + 11)) := by
      unfold Loop.comparison?
      dsimp only
      rw [S.inst_test]
      rfl
    have hphi : Loop.phiOf? g' l.header (.inst c.iv) = some c.iv := by
      refine if_pos ⟨S.coherent.placed _ _ hbody, ?_⟩
      rw [S.isPhi_old (S.ssa.body_lt _ _ (Func.mem_body_of_mem_phis hiv))]
      exact Func.isPhi_of_mem_phis hiv
    unfold Loop.stayTest? mainShape
    dsimp only
    rw [hcmp]
    dsimp only [Option.bind_eq_bind, Option.bind_some]
    rw [hphi]
    rfl
  stayOp := S.counted.stayOp
  invariant := by
    have hblock : (g'.inst (f.insts.size + 11)).block = c.shape.preheader := by
      rw [S.inst_mainBound (j := 11) rfl]
      rfl
    have hout : (g'.inst (f.insts.size + 11)).block ∉ m.blocks := by
      rw [hblock, hB]
      exact S.preheader_not_mem
    simpa [Loop.isInvariant, Loop.contains] using hout
  start := (S.incoming_inside S.header_mem (S.counted.iv_mem S.ssa S.mem) _).trans S.counted.start
  step := by
    obtain ⟨j, added, hnext, hadd, hstep, hin, hmem⟩ := S.counted.exists_next S.ssa S.mem
    have hj := Func.mem_body_of_mem_nonPhis hmem
    have hkeep := Loop.increment?_of_copied (m := m) ((S.inside hin).ops j hmem)
      (fun _ => by rw [id, S.inst_inside hin hj, hB]; exact hin)
      (fun v _ e => v.rename_id.symm.trans e) hadd
    rw [Value.rename_id] at hkeep
    exact ⟨.inst j, added,
      (S.incoming_inside S.header_mem (S.counted.iv_mem S.ssa S.mem) _).trans hnext, hkeep, hstep⟩
  step_pos := S.counted.step_pos

end SplitSteps

/-! ## The halves of a split loop -/

/-- The blocks of the remainder are new, and start with copies of the phis and operations of the
blocks of the loop. -/
structure RemainderLoop.IsCopy (rem : RemainderLoop) (f g : Func) (l : Loop) (ρ : InstId → InstId)
    (β : BlockId → BlockId) : Prop where
  header : rem.header = β l.header
  blocks : rem.blocks = l.blocks.map β
  fresh : ∀ b ∈ l.blocks, f.blocks.size ≤ β b
  copied : ∀ b ∈ l.blocks, CopiedBlock f g ρ b (β b) []

/-- A new analysis finds a loop with this header and these blocks, and recognizes it as counted. -/
def Func.HasCountedLoop (f : Func) (header : BlockId) (blocks : List BlockId) (c : CountedLoop) :
    Prop :=
  ∃ l ∈ (Analyses.ofFunc f).loops.loops, l.header = header ∧ (∀ b, b ∈ l.blocks ↔ b ∈ blocks) ∧
    l.counted f (.ofFunc f) = .ok c

namespace Loop

variable {f : Func} {l : Loop} {uniform : List Value} {width tripAlignment : Nat} {sp : Loop.Split}
  {rem : RemainderLoop}

/-- Splitting a loop keeps a function in static single assignment form, and both halves are counted
loops again: the main loop as before with the bound of the main loop, and the remainder, which goes
on from the induction variable of the main loop to the bound of the loop. If phis have entries for
predecessors only, they still do, unless the loop is entered from blocks that are not reachable: no
edge comes from these to the copies. -/
theorem counted_halves_of_split (hf : f.Ssa) (hl : l ∈ (Analyses.ofFunc f).loops.loops)
    (h : l.split? f (.ofFunc f) uniform width tripAlignment = some sp)
    (hrem : sp.loop.remainder = some rem) :
    sp.func.Ssa ∧
    (f.WellFormed → (∀ b ∈ l.blocks, ∀ phi ∈ f.phis b,
        ∀ p ∈ (f.inst phi).incoming.map Prod.fst, f.Reachable p) → sp.func.WellFormed) ∧
    (∃ ρ β, rem.IsCopy f sp.func l ρ β) ∧
    ∃ c main rest, l.counted f (.ofFunc f) = .ok c ∧
      (sp.func.HasCountedLoop l.header l.blocks main ∧ sp.loop.header = l.header ∧
        main.iv = c.iv ∧ main.start = c.start ∧ main.step = c.step ∧ main.stayOp = c.stayOp ∧
        main.bound = sp.loop.mainBound) ∧
      sp.func.HasCountedLoop rem.header rem.blocks rest ∧
        rest.shape.preheader = rem.preheader ∧ rest.start = .inst main.iv ∧ rest.step = c.step ∧
        rest.stayOp = c.stayOp ∧ rest.bound = c.bound := by
  rcases exists_splitSteps hf hl h with ⟨-, hnone⟩ | ⟨c, w, ρ, β, rem', f1, g, hc, -, -, S, hloop,
    hheader, hblocks⟩
  · rw [hrem] at hnone
    cases hnone
  rw [hloop] at hrem ⊢
  cases hrem
  have hssa := S.ssa_split
  obtain ⟨m, hm, hmheader, hmB, hmain⟩ := S.shapes_main.exists_isSingleExit hssa.toClosed
  obtain ⟨r, hr, hrheader, hrB, hrest⟩ := S.shapes_copy.exists_isSingleExit hssa.toClosed
  have hrB' : ∀ b, b ∈ r.blocks ↔ b ∈ rem.blocks := fun b => by
    rw [hrB, hblocks, List.mem_map]
    exact exists_congr fun x => and_congr_right fun _ => eq_comm
  refine ⟨hssa, fun hwf hin => hssa.wellFormed fun b hr phi hphi p hp =>
      S.mem_targets_of_key hwf hin hr hphi hp,
    ⟨ρ, β, hheader, hblocks, fun b hb => (S.lt_copy hb).le, fun b hb => S.copies hb⟩,
    c, _, _, (counted_of_splittable hc).1,
    ⟨⟨m, hm, hmheader, hmB, (S.counted_main hmain hmB).eq_ok⟩, rfl, rfl, rfl, rfl, rfl, rfl⟩,
    ⟨r, hr, hrheader.trans hheader.symm, hrB', (S.counted_copy hrest hrB).eq_ok⟩,
    rfl, rfl, rfl, rfl, rfl⟩

/-! ## An example -/

/-- A loop that counts up to the argument, inside a loop that adds the count to another counter. -/
def countNested : Func where
  params := [.int 32]
  retTy := .int 32
  blocks := #[
    { term := .br 1 },
    { insts := [0, 1], term := .brIf (.inst 1) 2 6 },
    { term := .br 3 },
    { insts := [2, 3], term := .brIf (.inst 3) 4 5 },
    { insts := [4], term := .br 3 },
    { insts := [5], term := .br 1 },
    { term := .ret (some (.inst 0)) }]
  insts := #[
    { op := .phi [(0, .ofInt (.int 32) 0), (5, .inst 5)], ty := .int 32, block := 1 },
    { op := .apply (.cmp .slt) [.inst 0, .param 0], ty := .bool, block := 1 },
    { op := .phi [(2, .ofInt (.int 32) 0), (4, .inst 4)], ty := .int 32, block := 3 },
    { op := .apply (.cmp .slt) [.inst 2, .param 0], ty := .bool, block := 3 },
    { op := .apply (.binary .add) [.inst 2, .ofInt (.int 32) 1], ty := .int 32, block := 4 },
    { op := .apply (.binary .add) [.inst 0, .inst 2], ty := .int 32, block := 5 }]
  layout := [0, 1, 2, 3, 4, 5, 6]

/-- The halves of the inner loop are counted loops. -/
theorem counted_halves_countNested : ∃ l ∈ (Analyses.ofFunc countNested).loops.loops,
    ∃ sp ∈ l.split? countNested (.ofFunc countNested) [] 2 1, ∃ rem ∈ sp.loop.remainder,
    sp.func.WellFormed ∧ ∃ main rest, sp.func.HasCountedLoop 3 [3, 4] main ∧
      main.bound = sp.loop.mainBound ∧ sp.func.HasCountedLoop rem.header rem.blocks rest ∧
      rest.start = .inst main.iv ∧ rest.bound = .param 0 := by
  have hchecks : countNested.Checks ∧ ∃ l ∈ (Analyses.ofFunc countNested).loops.loops,
      l.header = 3 ∧ l.blocks = [3, 4] ∧
      (∀ b ∈ l.blocks, ∀ phi ∈ countNested.phis b,
        ∀ p ∈ (countNested.inst phi).incoming.map Prod.fst, p ∈ (Cfg.ofFunc countNested).rpo) ∧
      (∃ c ∈ (l.counted countNested (.ofFunc countNested)).toOption, c.bound = .param 0) ∧
      ∃ sp ∈ l.split? countNested (.ofFunc countNested) [] 2 1, sp.loop.remainder.isSome := by
    decide +kernel
  obtain ⟨hf, l, hl, hheader, hblocks, hin, ⟨c, hc, hbound⟩, sp, hsp, hsome⟩ := hchecks
  obtain ⟨rem, hrem⟩ := Option.isSome_iff_exists.mp hsome
  obtain ⟨-, hwf, -, c', main, rest, hc', ⟨hmain, -, -, -, -, -, hmb⟩, hrest, -, hstart, -, -,
    hb⟩ := counted_halves_of_split hf.wellFormed.ssa hl hsp hrem
  rw [hc'] at hc
  cases hc
  rw [hheader, hblocks] at hmain
  refine ⟨l, hl, sp, hsp, rem, hrem, hwf hf.wellFormed fun b hb phi hphi p hp => ?_, main, rest,
    hmain, hmb, hrest, hstart, hb.trans hbound⟩
  exact (Cfg.mem_rpo hf.wellFormed.toClosed).mp (hin b hb phi hphi p hp)

end Loop

end Lockstep
