import Lockstep.Proofs.Loop.Copy

/-!
# What adding a remainder gives

`AddedRemainder f l c ρ β g` says what `g` is after a remainder has been added to `f`: where the
copies of instructions (`ρ`) and blocks (`β`) stand, and what has become of instructions and
terminators in the loop, in its copy and outside.
-/

namespace Lockstep

namespace CountedLoop

/-- What the blocks of a loop have to be like for a copy of them to be added. -/
structure CanCopy (f : Func) (l : Loop) (c : CountedLoop) : Prop where
  laid : f.Laid
  nodup : l.blocks.Nodup
  lt : ∀ b ∈ l.blocks, b < f.blocks.size
  header : c.shape.header ∈ l.blocks
  preheader_lt : c.shape.preheader < f.blocks.size
  preheader : c.shape.preheader ∉ l.blocks
  exit_lt : c.shape.exit < f.blocks.size
  exit : c.shape.exit ∉ l.blocks
  phis_first : ∀ i ∈ f.nonPhis c.shape.header, f.isPhi i = false

/-- The names of copies: `ρ` of instructions, and `β` of blocks. -/
structure CopyNames (f : Func) (l : Loop) (ρ : InstId → InstId) (β : BlockId → BlockId) :
    Prop where
  rename_out : ∀ i, (∀ b ∈ l.blocks, i ∉ f.body b) → ρ i = i
  fresh : ∀ b ∈ l.blocks, ∀ i ∈ f.body b, f.insts.size ≤ ρ i
  injective : ∀ i < f.insts.size, ∀ j < f.insts.size, ρ i = ρ j → i = j
  block_out : ∀ b, b ∉ l.blocks → β b = b
  block_fresh : ∀ b ∈ l.blocks, f.blocks.size < β b
  block_injective : ∀ a ≤ f.blocks.size, ∀ b ≤ f.blocks.size, β a = β b → a = b

/-- The function `g` is `f` with the copy `cp` of a loop. -/
structure ConnectedCopy (f : Func) (l : Loop) (cp : Copy) (g : Func) : Prop extends
    CopyNames f l cp.inst cp.block where
  laid : g.Laid
  params : g.params = f.params
  size_blocks : f.blocks.size < g.blocks.size
  size_insts : f.insts.size ≤ g.insts.size
  inst_lt : ∀ b ∈ l.blocks, ∀ i ∈ f.body b, cp.inst i < g.insts.size
  body_old : ∀ b < f.blocks.size, g.body b = f.body b
  body_copy : ∀ b ∈ l.blocks, g.body (cp.block b) = (f.body b).map cp.inst
  body_pre : g.body f.blocks.size = []
  block_lt : ∀ b ∈ l.blocks, cp.block b < g.blocks.size
  block_cases : ∀ b < g.blocks.size, b ≤ f.blocks.size ∨ ∃ a ∈ l.blocks, b = cp.block a
  inst_old : ∀ i < f.insts.size, g.inst i = f.inst i
  inst_copy : ∀ b ∈ l.blocks, ∀ i ∈ f.body b, ∃ k, g.inst (cp.inst i) =
    { (f.inst i).map cp.block (·.rename cp.inst) with block := k }
  term_old : ∀ b < f.blocks.size, g.term b = f.term b
  term_copy : ∀ b ∈ l.blocks, g.term (cp.block b) = (f.term b).map cp.block (·.rename cp.inst)
  value : ∀ v, cp.value v = v.rename cp.inst
  block_mem : ∀ b ∈ l.blocks, (b, cp.block b) ∈ cp.blocks
  outside : ∀ b ≤ f.blocks.size, b ∉ l.blocks → ∀ e ∈ cp.blocks, b ≠ e.1 ∧ b ≠ e.2
  replace : ∀ g', g.Refits g' → ReplacedOutside cp g' (cp.replaceOutside g')

/-- What `g` is after a remainder has been added to `f`, `pre` being the new preheader. -/
structure AddedRemainder (f : Func) (l : Loop) (c : CountedLoop) (ρ : InstId → InstId)
    (β : BlockId → BlockId) (pre : BlockId) (g : Func) : Prop extends CopyNames f l ρ β where
  laid : g.Laid
  params : g.params = f.params
  pre_eq : pre = f.blocks.size
  size_blocks : f.blocks.size < g.blocks.size
  size_insts : f.insts.size ≤ g.insts.size
  inst_lt : ∀ b ∈ l.blocks, ∀ i ∈ f.body b, ρ i < g.insts.size
  body_old : ∀ b < f.blocks.size, g.body b = f.body b
  body_copy : ∀ b ∈ l.blocks, g.body (β b) = (f.body b).map ρ
  body_pre : g.body pre = []
  block_lt : ∀ b ∈ l.blocks, β b < g.blocks.size
  block_cases : ∀ b < g.blocks.size, b ≤ f.blocks.size ∨ ∃ a ∈ l.blocks, b = β a
  ty_old : ∀ i < f.insts.size, (g.inst i).ty = (f.inst i).ty
  ty_copy : ∀ b ∈ l.blocks, ∀ i ∈ f.body b, (g.inst (ρ i)).ty = (f.inst i).ty
  isPhi_old : ∀ i < f.insts.size, g.isPhi i = f.isPhi i
  isPhi_copy : ∀ b ∈ l.blocks, ∀ i ∈ f.body b, g.isPhi (ρ i) = f.isPhi i
  inst_in : ∀ b ∈ l.blocks, ∀ i ∈ f.body b, g.inst i = f.inst i
  inst_out : ∀ b < f.blocks.size, b ∉ l.blocks → ∀ i ∈ f.body b,
    (b = c.shape.exit → i ∉ f.phis b) → g.inst i = (f.inst i).map id (·.rename ρ)
  inst_exit : ∀ i ∈ f.phis c.shape.exit, g.inst i =
    (Func.mapIncoming (Func.renameEntry c.shape.header (β c.shape.header)) (f.inst i)).map id
      (·.rename ρ)
  inst_copy : ∀ b ∈ l.blocks, ∀ i ∈ f.body b, (b = c.shape.header → i ∉ f.phis b) →
    ∃ k, g.inst (ρ i) = { (f.inst i).map β (·.rename ρ) with block := k }
  inst_header : ∀ i ∈ f.phis c.shape.header, ∃ k, g.inst (ρ i) =
    Func.mapIncoming (fun incoming => Func.setEntry incoming pre (.inst i))
      (Func.mapIncoming (Func.renameEntry c.shape.preheader pre)
        { (f.inst i).map β (·.rename ρ) with block := k })
  term_in : ∀ b ∈ l.blocks, g.term b = f.term b
  term_out : ∀ b < f.blocks.size, b ∉ l.blocks → g.term b = (f.term b).map id (·.rename ρ)
  term_copy : ∀ b ∈ l.blocks, g.term (β b) = (f.term b).map β (·.rename ρ)
  term_pre : g.term pre = .br (β c.shape.header)

variable {f : Func} {l : Loop} {c : CountedLoop}

theorem filter_isPhi_eq_phis {b : BlockId} (h : ∀ i ∈ f.nonPhis b, f.isPhi i = false) :
    (f.body b).filter f.isPhi = f.phis b := by
  rw [← Func.phis_append_nonPhis, List.filter_append]
  have h1 : (f.phis b).filter f.isPhi = f.phis b :=
    List.filter_eq_self.mpr fun i hi => Func.isPhi_of_mem_phis hi
  have h2 : (f.nonPhis b).filter f.isPhi = [] :=
    List.filter_eq_nil_iff.mpr fun i hi => by rw [h i hi]; exact Bool.false_ne_true
  rw [h1, h2, List.append_nil]

theorem laid_of_refits {g h : Func} (hr : g.Refits h) (hg : g.Laid) : h.Laid where
  layout b := by rw [hr.layout, hr.size_blocks]; exact hg.layout b
  body_lt b i hi := by
    rw [hr.body] at hi
    rw [hr.size_insts]
    exact hg.body_lt b i hi
  unique a b i ha hb := by
    rw [hr.body] at ha hb
    exact hg.unique a b i ha hb
  nodup b := by rw [hr.body]; exact hg.nodup b

/-- Copying the blocks of a loop, behind a new block, and connecting the copies. -/
theorem connectedCopy (h : CanCopy f l c) (name : Option String) : ∃ cp g,
    l.blocks.foldl copyBlock (({} : Copy), (f.addBlock name).2) = (cp, g) ∧
      ConnectedCopy f l cp (cp.connect g) := by
  obtain ⟨f2, hf2⟩ : ∃ f2, f2 = (f.addBlock name).2 := ⟨_, rfl⟩
  have hl2 : f2.Laid := hf2 ▸ h.laid.addBlock _
  have hsize2 : f2.blocks.size = f.blocks.size + 1 := by
    rw [hf2]
    exact Array.size_push _
  have hbody2 : ∀ b, f2.body b = f.body b := fun b => hf2 ▸ f.body_addBlock _ b
  have hinst2 : ∀ i, f2.inst i = f.inst i := fun i => hf2 ▸ rfl
  have hinsts2 : f2.insts.size = f.insts.size := hf2 ▸ rfl
  have hterm2 : ∀ b < f.blocks.size, f2.term b = f.term b := by
    intro b hb
    rw [hf2, Func.term, Func.block_addBlock, if_neg (Nat.ne_of_lt hb)]
    rfl
  have hlt2 : ∀ b < f.blocks.size, b < f2.blocks.size := fun b hb =>
    hsize2 ▸ Nat.lt_succ_of_lt hb
  have hdone2 : ∀ b ∈ l.blocks, b < f2.blocks.size := fun b hb => hlt2 b (h.lt b hb)
  obtain ⟨pairs, hcopy⟩ := (CopyOf.start f2 hl2.layout).foldl hl2 l.blocks hdone2
  rw [List.nil_append] at hcopy
  rw [← hf2]
  rcases hfold : l.blocks.foldl copyBlock ({}, f2) with ⟨cp, g⟩
  rw [hfold] at hcopy
  refine ⟨cp, g, rfl, ?_⟩
  have hg : g.Laid := hcopy.laid hl2 h.nodup
  have hconn := hcopy.connect hl2 hdone2
  have hpairs : ∀ b ∈ l.blocks, ∀ i ∈ f.body b, (i, cp.inst i) ∈ pairs := fun b hb i hi =>
    hcopy.inst_mem hb (hbody2 b ▸ hi)
  have hfresh : ∀ b ∈ l.blocks, f.blocks.size < cp.block b := by
    intro b hb
    have := (hcopy.fresh_block _ (hcopy.block_mem hb)).1
    rw [hsize2] at this
    exact this
  have hnot : ∀ b ≤ f.blocks.size, b ∉ cp.blocks.map Prod.snd := by
    intro b hb hmem
    obtain ⟨e, he, rfl⟩ := List.mem_map.mp hmem
    have := (hcopy.fresh_block e he).1
    rw [hsize2] at this
    exact Nat.not_lt.mpr hb this
  have hle : ∀ b ≤ f.blocks.size, b < f2.blocks.size := fun b hb => hsize2 ▸ Nat.lt_succ_of_le hb
  constructor
  case toCopyNames =>
    constructor
    · intro i hi
      exact hcopy.inst_of_not_mem fun b hb => hbody2 b ▸ hi b hb
    · exact fun b hb i hi => hinsts2 ▸ (hcopy.fresh_inst _ (hpairs b hb i hi)).1
    · exact fun i hi j hj => hcopy.inst_injective (hinsts2 ▸ hi) (hinsts2 ▸ hj)
    · exact fun b hb => hcopy.block_of_not_mem hb
    · exact hfresh
    · exact fun a ha b hb => hcopy.block_injective (hle a ha) (hle b hb)
  case laid => exact laid_of_refits hconn.refits hg
  case params => exact hconn.refits.params.trans (hcopy.params.trans (hf2 ▸ rfl))
  case size_blocks =>
    rw [hconn.refits.size_blocks]
    have hle := hcopy.size_blocks
    rw [hsize2] at hle
    exact hle
  case size_insts =>
    rw [hconn.refits.size_insts]
    exact hinsts2 ▸ hcopy.size_insts
  case inst_lt =>
    intro b hb i hi
    rw [hconn.refits.size_insts]
    exact (hcopy.fresh_inst _ (hpairs b hb i hi)).2
  case body_old =>
    intro b hb
    rw [hconn.refits.body, ← hbody2]
    exact congrArg Block.insts (hcopy.block b (hlt2 b hb))
  case body_copy =>
    intro b hb
    rw [hconn.refits.body, hcopy.body_eq hl2 h.nodup hb, hbody2]
  case body_pre =>
    have hsame : g.body f.blocks.size = f2.body f.blocks.size :=
      congrArg Block.insts (hcopy.block _ (hle _ (Nat.le_refl _)))
    rw [hconn.refits.body, hsame, hbody2, Func.body, f.block_of_size_le (Nat.le_refl _)]
    rfl
  case block_lt =>
    intro b hb
    rw [hconn.refits.size_blocks]
    exact (hcopy.fresh_block _ (hcopy.block_mem hb)).2
  case block_cases =>
    intro b hb
    rw [hconn.refits.size_blocks] at hb
    rcases Nat.lt_or_ge f.blocks.size b with hlt | hle
    · obtain ⟨e, he, rfl⟩ := List.mem_map.mp (hcopy.new_block b (hsize2 ▸ hlt) hb)
      obtain ⟨hdone, hbk⟩ := hcopy.eq_of_mem_blocks h.nodup he
      exact .inr ⟨e.1, hdone, hbk⟩
    · exact .inl hle
  case inst_old =>
    intro i hi
    rw [hconn.inst_other i, hcopy.inst i (hinsts2 ▸ hi), hinst2]
    intro hmem
    obtain ⟨e, he, rfl⟩ := List.mem_map.mp hmem
    exact Nat.not_lt.mpr (hinsts2 ▸ (hcopy.fresh_inst e he).1) hi
  case inst_copy =>
    intro b hb i hi
    have e1 := hconn.inst _ (hpairs b hb i hi)
    have e2 := hcopy.copied _ (hpairs b hb i hi)
    dsimp only at e1 e2
    rw [hinst2] at e2
    rw [e1, e2]
    exact ⟨_, rfl⟩
  case term_old =>
    intro b hb
    rw [hconn.term_other b (hnot b (Nat.le_of_lt hb)), ← hterm2 b hb]
    exact congrArg Block.term (hcopy.block b (hlt2 b hb))
  case term_copy =>
    intro b hb
    rw [hconn.term b hb, hterm2 b (h.lt b hb)]
  case value => exact hcopy.value_eq
  case block_mem => exact fun b hb => hcopy.block_mem hb
  case outside =>
    intro b hb hbl e he
    refine ⟨fun e1 => hbl (e1 ▸ (hcopy.eq_of_mem_blocks h.nodup he).1), ?_⟩
    rintro rfl
    exact hnot _ hb (List.mem_map_of_mem he)
  case replace =>
    exact fun g' hr => hcopy.replaceOutside hl2 hdone2 (laid_of_refits (hconn.refits.trans hr) hg)

/-- The edits that make a connected copy the remainder. -/
structure Edited (f : Func) (c : CountedLoop) (cp : Copy) (g g' : Func) : Prop where
  refits : g.Refits g'
  /-- Instructions other than the phis of the new header and of the exit. -/
  inst : ∀ j, (∀ i ∈ f.phis c.shape.header, j ≠ cp.inst i) → j ∉ f.phis c.shape.exit →
    g'.inst j = g.inst j
  header : ∀ i ∈ f.phis c.shape.header, g'.inst (cp.inst i) =
    Func.mapIncoming (fun incoming => Func.setEntry incoming f.blocks.size (.inst i))
      (Func.mapIncoming (Func.renameEntry c.shape.preheader f.blocks.size) (g.inst (cp.inst i)))
  exit : ∀ i ∈ f.phis c.shape.exit, g'.inst i =
    Func.mapIncoming (Func.renameEntry c.shape.header (cp.block c.shape.header)) (g.inst i)
  term : ∀ b, b ≠ f.blocks.size → g'.term b = g.term b
  term_pre : g'.term f.blocks.size = .br (cp.block c.shape.header)

/-- The edits in question. -/
def edit (c : CountedLoop) (cp : Copy) (pre : BlockId) (phis : List InstId) (g : Func) : Func :=
  (phis.foldl (fun g phi => g.modifyIncoming (cp.inst phi) (Func.setEntry · pre (.inst phi)))
    ((g.setTerm pre (.br (cp.block c.shape.header))).replacePhiPred (cp.block c.shape.header)
      c.shape.preheader pre)).replacePhiPred c.shape.exit c.shape.header (cp.block c.shape.header)

theorem ConnectedCopy.phis_eq {cp : Copy} {g : Func} (h : CanCopy f l c)
    (hc : ConnectedCopy f l cp g) :
    g.phis c.shape.exit = f.phis c.shape.exit ∧
      g.phis (cp.block c.shape.header) = (f.phis c.shape.header).map cp.inst := by
  constructor
  · have e := (phis_of_body_eq (f := f) (g := g) (ρ := id) (b := c.shape.exit)
      (c := c.shape.exit) (e := []) ?_ (fun i hi => ?_) fun i hi => absurd hi
      List.not_mem_nil).1
    · rwa [List.map_id] at e
    · rw [hc.body_old _ h.exit_lt, List.map_id, List.append_nil]
    · unfold Func.isPhi
      rw [id, hc.inst_old i (h.laid.body_lt _ i hi)]
  · refine (phis_of_body_eq (e := []) ?_ (fun i hi => ?_) fun i hi => absurd hi
      List.not_mem_nil).1
    · rw [hc.body_copy _ h.header, List.append_nil]
    · obtain ⟨k, hk⟩ := hc.inst_copy _ h.header i hi
      unfold Func.isPhi
      rw [hk]
      exact Instr.isPhi_map _ _ (f.inst i)

theorem edited {cp : Copy} {g : Func} (h : CanCopy f l c) (hc : ConnectedCopy f l cp g) :
    Edited f c cp g (edit c cp f.blocks.size (f.phis c.shape.header) g) := by
  obtain ⟨hexit, hheader⟩ := hc.phis_eq h
  obtain ⟨nh, hnh⟩ : ∃ nh, nh = cp.block c.shape.header := ⟨_, rfl⟩
  obtain ⟨g1, hg1⟩ : ∃ g1, g1 = g.setTerm f.blocks.size (.br nh) := ⟨_, rfl⟩
  obtain ⟨g2, hg2⟩ : ∃ g2, g2 = g1.replacePhiPred nh c.shape.preheader f.blocks.size := ⟨_, rfl⟩
  obtain ⟨g3, hg3⟩ : ∃ g3, g3 = (f.phis c.shape.header).foldl (fun g phi =>
    g.modifyIncoming (cp.inst phi) (Func.setEntry · f.blocks.size (.inst phi))) g2 := ⟨_, rfl⟩
  obtain ⟨g4, hg4⟩ : ∃ g4, g4 = g3.replacePhiPred c.shape.exit c.shape.header nh := ⟨_, rfl⟩
  have hr1 : g.Refits g1 := hg1 ▸ g.refits_setTerm _ _
  have hr2 : g.Refits g2 := hr1.trans (hg2 ▸ g1.refits_replacePhiPred _ _ _)
  have hr3 : g.Refits g3 :=
    hr2.trans (hg3 ▸ Func.refits_foldl (fun g _ => g.refits_modifyIncoming _ _) _ g2)
  have hr4 : g.Refits g4 := hr3.trans (hg4 ▸ g3.refits_replacePhiPred _ _ _)
  have hphis1 : g1.phis nh = (f.phis c.shape.header).map cp.inst := by
    rw [hr1.phis, hnh, hheader]
  have hphis3 : g3.phis c.shape.exit = f.phis c.shape.exit := by rw [hr3.phis, hexit]
  have hi1 : ∀ j, g1.inst j = g.inst j := fun j => hg1 ▸ Func.inst_setTerm _ _ _ _
  have hi2 := fun j => Func.inst_replacePhiPred (f := g1) (b := nh)
    ((laid_of_refits hr1 hc.laid).nodup nh) c.shape.preheader f.blocks.size j
  rw [← hg2, hphis1] at hi2
  have hn : ((f.phis c.shape.header).map cp.inst).Nodup := by
    rw [← hheader]
    exact (hc.laid.nodup _).sublist (List.takeWhile_sublist _)
  have hi4 := fun j => Func.inst_replacePhiPred (f := g3) (b := c.shape.exit)
    ((laid_of_refits hr3 hc.laid).nodup c.shape.exit) c.shape.header nh j
  rw [← hg4, hphis3] at hi4
  -- the copies of the phis of the header are no phis of the exit
  have hne : ∀ i ∈ f.phis c.shape.header, cp.inst i ∉ f.phis c.shape.exit := by
    intro i hi hj
    exact Nat.not_lt.mpr (hc.fresh _ h.header i (Func.mem_body_of_mem_phis hi))
      (h.laid.body_lt _ _ (Func.mem_body_of_mem_phis hj))
  have hg4' : edit c cp f.blocks.size (f.phis c.shape.header) g = g4 := by
    rw [hg4, hg3, hg2, hg1, hnh]
    rfl
  have hterm : ∀ b, g4.term b = g1.term b := by
    intro b
    rw [hg4, Func.term_replacePhiPred, hg3]
    rw [Func.term_foldl_modifyIncoming (k := cp.inst), hg2, Func.term_replacePhiPred]
  rw [hg4']
  refine ⟨hr4, fun j hj hje => ?_, fun i hi => ?_, fun i hi => ?_, fun b hb => ?_, ?_⟩
  · have hjh : j ∉ (f.phis c.shape.header).map cp.inst := by
      intro hmem
      obtain ⟨i, hi, rfl⟩ := List.mem_map.mp hmem
      exact hj i hi rfl
    rw [hi4, if_neg hje, hg3, Func.inst_foldl_modifyIncoming_of_not_mem hjh, hi2, if_neg hjh, hi1]
  · rw [hi4, if_neg (hne i hi), hg3, Func.inst_foldl_modifyIncoming (k := cp.inst) hn hi, hi2,
      if_pos (List.mem_map_of_mem hi), hi1]
  · have hjh : i ∉ (f.phis c.shape.header).map cp.inst := by
      intro hmem
      obtain ⟨k, hk, rfl⟩ := List.mem_map.mp hmem
      exact hne k hk hi
    rw [hi4, if_pos hi, hg3, Func.inst_foldl_modifyIncoming_of_not_mem hjh, hi2, if_neg hjh, hi1,
      hnh]
  · rw [hterm, hg1, Func.term_setTerm_of_ne _ _ hb.symm]
  · rw [hterm, hg1, Func.term_setTerm, if_pos ⟨rfl, hc.size_blocks⟩, hnh]

/-- The copy of a phi is found by the value that stands for the phi. -/
theorem ConnectedCopy.setIncoming_eq {cp : Copy} {g : Func} (hc : ConnectedCopy f l cp g)
    (pre : BlockId) :
    (fun (g : Func) (phi : InstId) => match cp.value (.inst phi) with
      | .inst new => g.setIncoming new pre (.inst phi)
      | _ => g) = fun g phi => g.modifyIncoming (cp.inst phi)
        (Func.setEntry · pre (.inst phi)) := by
  funext g phi
  rw [hc.value]
  rfl

/-- Adding a remainder is copying, connecting, editing and replacing. -/
theorem addRemainder_eq (h : CanCopy f l c) {cp : Copy} {g : Func}
    (hfold : l.blocks.foldl copyBlock (({} : Copy),
      (f.addBlock (some (copyName f c.shape.header ".rem.preheader"))).2) = (cp, g))
    (hc : ConnectedCopy f l cp (cp.connect g)) :
    c.addRemainder l f =
      ({ preheader := f.blocks.size, header := cp.block c.shape.header
         blocks := l.blocks.map cp.block },
        cp.replaceOutside (edit c cp f.blocks.size (f.phis c.shape.header) (cp.connect g))) := by
  obtain ⟨g1, hg1⟩ : ∃ g1, g1 = ((cp.connect g).setTerm f.blocks.size
    (.br (cp.block c.shape.header))).replacePhiPred (cp.block c.shape.header)
      c.shape.preheader f.blocks.size := ⟨_, rfl⟩
  have hr : (cp.connect g).Refits g1 := by
    rw [hg1]
    exact (Func.refits_setTerm _ _ _).trans (Func.refits_replacePhiPred _ _ _ _)
  have hphis : (g1.body c.shape.header).filter g1.isPhi = f.phis c.shape.header := by
    rw [hr.body, hc.body_old _ (h.lt _ h.header), ← filter_isPhi_eq_phis h.phis_first]
    refine List.filter_congr fun i hi => ?_
    rw [hr.isPhi]
    unfold Func.isPhi
    rw [hc.inst_old i (h.laid.body_lt _ i hi)]
  have hrun : (c.addRemainder l f) = (fun (r : Copy × Func) =>
      let g1 := ((r.1.connect r.2).setTerm f.blocks.size (.br (r.1.block c.shape.header)))
        |>.replacePhiPred (r.1.block c.shape.header) c.shape.preheader f.blocks.size
      let g2 := ((g1.body c.shape.header).filter g1.isPhi).foldl (fun g phi =>
        match r.1.value (.inst phi) with
        | .inst new => g.setIncoming new f.blocks.size (.inst phi)
        | _ => g) g1
      ({ preheader := f.blocks.size, header := r.1.block c.shape.header
         blocks := l.blocks.map r.1.block },
        r.1.replaceOutside (g2.replacePhiPred c.shape.exit c.shape.header
          (r.1.block c.shape.header)))) (l.blocks.foldl copyBlock (({} : Copy),
        (f.addBlock (some (copyName f c.shape.header ".rem.preheader"))).2)) := rfl
  rw [hrun, hfold]
  dsimp only
  rw [← hg1, hphis, hc.setIncoming_eq, hg1]
  rfl

/-- Adding a remainder adds copies that have their places, and nothing else. -/
theorem addedRemainder (h : CanCopy f l c) : ∃ ρ β,
    AddedRemainder f l c ρ β (c.addRemainder l f).1.preheader (c.addRemainder l f).2 ∧
      (c.addRemainder l f).1.header = β c.shape.header ∧
        (c.addRemainder l f).1.blocks = l.blocks.map β := by
  obtain ⟨cp, g, hfold, hc⟩ :=
    connectedCopy h (some (copyName f c.shape.header ".rem.preheader"))
  rw [addRemainder_eq h hfold hc]
  obtain ⟨g0, hg0⟩ : ∃ g0, g0 = cp.connect g := ⟨_, rfl⟩
  rw [← hg0] at hc ⊢
  obtain ⟨g1, hg1⟩ : ∃ g1, g1 = edit c cp f.blocks.size (f.phis c.shape.header) g0 := ⟨_, rfl⟩
  have he : Edited f c cp g0 g1 := hg1 ▸ edited h hc
  rw [← hg1]
  obtain ⟨g2, hg2⟩ : ∃ g2, g2 = cp.replaceOutside g1 := ⟨_, rfl⟩
  have hr : ReplacedOutside cp g1 g2 := hg2 ▸ hc.replace g1 he.refits
  rw [← hg2]
  have hrefits : g0.Refits g2 := he.refits.trans hr.refits
  have hbody : ∀ b, g1.body b = g0.body b := he.refits.body
  have hlt1 : ∀ b ≤ f.blocks.size, b < g1.blocks.size := fun b hb =>
    he.refits.size_blocks ▸ Nat.lt_of_le_of_lt hb hc.size_blocks
  -- instructions of the function are no copies
  have hold : ∀ i < f.insts.size, ∀ j ∈ f.phis c.shape.header, i ≠ cp.inst j := by
    rintro i hi j hj rfl
    exact Nat.not_lt.mpr (hc.fresh _ h.header j (Func.mem_body_of_mem_phis hj)) hi
  have hexit : ∀ b ∈ l.blocks, ∀ i ∈ f.body b, i ∉ f.phis c.shape.exit := fun b hb i hi hp =>
    h.exit (h.laid.unique b _ i hi (Func.mem_body_of_mem_phis hp) ▸ hb)
  have hcopy : ∀ b ∈ l.blocks, ∀ i ∈ f.body b, cp.inst i ∈ g1.body (cp.block b) := by
    intro b hb i hi
    rw [hbody, hc.body_copy b hb]
    exact List.mem_map_of_mem hi
  have hcopied : ∀ b ∈ l.blocks, ∀ i ∈ f.body b, g2.inst (cp.inst i) = g1.inst (cp.inst i) :=
    fun b hb i hi => hr.inst_inside _ (hc.block_mem b hb) _ (.inr rfl) _ (hcopy b hb i hi)
  have hout : ∀ b < f.blocks.size, b ∉ l.blocks → ∀ i ∈ f.body b,
      g2.inst i = (g1.inst i).map id (·.rename cp.inst) := by
    intro b hb hbl i hi
    refine hr.inst_outside b (hlt1 b (Nat.le_of_lt hb)) (hc.outside b (Nat.le_of_lt hb) hbl) i ?_
    rw [hbody, hc.body_old b hb]
    exact hi
  have hpre : f.blocks.size ∉ l.blocks := fun hb => Nat.lt_irrefl _ (h.lt _ hb)
  refine ⟨cp.inst, cp.block, ?_, rfl, rfl⟩
  constructor
  case toCopyNames => exact hc.toCopyNames
  case laid => exact laid_of_refits hrefits hc.laid
  case params => exact hrefits.params.trans hc.params
  case pre_eq => rfl
  case size_blocks => exact hrefits.size_blocks ▸ hc.size_blocks
  case size_insts => exact hrefits.size_insts ▸ hc.size_insts
  case inst_lt => exact fun b hb i hi => hrefits.size_insts ▸ hc.inst_lt b hb i hi
  case body_old => exact fun b hb => (hrefits.body b).trans (hc.body_old b hb)
  case body_copy => exact fun b hb => (hrefits.body _).trans (hc.body_copy b hb)
  case body_pre => exact (hrefits.body _).trans hc.body_pre
  case block_lt => exact fun b hb => hrefits.size_blocks ▸ hc.block_lt b hb
  case block_cases => exact fun b hb => hc.block_cases b (hrefits.size_blocks ▸ hb)
  case ty_old => exact fun i hi => (hrefits.ty i).trans (congrArg Instr.ty (hc.inst_old i hi))
  case ty_copy =>
    intro b hb i hi
    obtain ⟨k, hk⟩ := hc.inst_copy b hb i hi
    rw [hrefits.ty, hk]
    rfl
  case isPhi_old =>
    exact fun i hi => (hrefits.isPhi i).trans (congrArg Instr.isPhi (hc.inst_old i hi))
  case isPhi_copy =>
    intro b hb i hi
    obtain ⟨k, hk⟩ := hc.inst_copy b hb i hi
    rw [hrefits.isPhi, Func.isPhi, hk]
    exact Instr.isPhi_map _ _ (f.inst i)
  case inst_in =>
    intro b hb i hi
    have hi1 : i ∈ g1.body b := by rw [hbody, hc.body_old b (h.lt b hb)]; exact hi
    have hlt := h.laid.body_lt b i hi
    rw [hr.inst_inside _ (hc.block_mem b hb) _ (.inl rfl) i hi1, he.inst i (hold i hlt)
      (hexit b hb i hi), hc.inst_old i hlt]
  case inst_out =>
    intro b hb hbl i hi hne
    have hlt := h.laid.body_lt b i hi
    have hexit : i ∉ f.phis c.shape.exit := fun hp =>
      hne (h.laid.unique b _ i hi (Func.mem_body_of_mem_phis hp))
        (h.laid.unique b _ i hi (Func.mem_body_of_mem_phis hp) ▸ hp)
    rw [hout b hb hbl i hi, he.inst i (hold i hlt) hexit, hc.inst_old i hlt]
  case inst_exit =>
    intro i hi
    have hbody := Func.mem_body_of_mem_phis hi
    rw [hout _ h.exit_lt h.exit i hbody, he.exit i hi, hc.inst_old i (h.laid.body_lt _ i hbody)]
  case inst_copy =>
    intro b hb i hi hne
    obtain ⟨k, hk⟩ := hc.inst_copy b hb i hi
    refine ⟨k, ?_⟩
    have hlt := h.laid.body_lt b i hi
    have hnew : ∀ j ∈ f.phis c.shape.header, cp.inst i ≠ cp.inst j := by
      intro j hj e
      have hjb := Func.mem_body_of_mem_phis hj
      cases hc.injective i hlt j (h.laid.body_lt _ j hjb) e
      exact hne (h.laid.unique b _ i hi hjb) (h.laid.unique b _ i hi hjb ▸ hj)
    have hexit : cp.inst i ∉ f.phis c.shape.exit := fun hp =>
      Nat.not_lt.mpr (hc.fresh b hb i hi) (h.laid.body_lt _ _ (Func.mem_body_of_mem_phis hp))
    rw [hcopied b hb i hi, he.inst _ hnew hexit, hk]
  case inst_header =>
    intro i hi
    have hbody := Func.mem_body_of_mem_phis hi
    obtain ⟨k, hk⟩ := hc.inst_copy _ h.header i hbody
    refine ⟨k, ?_⟩
    rw [hcopied _ h.header i hbody, he.header i hi, hk]
  case term_in =>
    intro b hb
    rw [hr.term_inside _ (hc.block_mem b hb) b (.inl rfl), he.term b (Nat.ne_of_lt (h.lt b hb)),
      hc.term_old b (h.lt b hb)]
  case term_out =>
    intro b hb hbl
    rw [hr.term_outside b (hlt1 b (Nat.le_of_lt hb)) (hc.outside b (Nat.le_of_lt hb) hbl),
      he.term b (Nat.ne_of_lt hb), hc.term_old b hb]
  case term_copy =>
    intro b hb
    rw [hr.term_inside _ (hc.block_mem b hb) _ (.inr rfl),
      he.term _ (Nat.ne_of_gt (hc.block_fresh b hb)), hc.term_copy b hb]
  case term_pre =>
    rw [hr.term_outside _ (hlt1 _ (Nat.le_refl _)) (hc.outside _ (Nat.le_refl _) hpre), he.term_pre]
    rfl

end CountedLoop

end Lockstep
