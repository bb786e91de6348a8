import Lockstep.Proofs.Func.Refit

/-!
# Uses and the two ways to replace a value

`UseMap.compute` lists the users of a value block by block (`usersOf_compute`): in each block the
instructions that have it as an input or as their mask, and the terminator behind them. If the
layout lists every block once, and the blocks every instruction once, no user comes twice.

Replacing a value in some of its users changes these users and nothing else, each of them wherever
it uses the value (`replaceUsesWhere_eq_rewrite`). The pass over all users does the same as the
replacement in all users that were collected (`replaceAllUses_eq`).
-/

namespace Lockstep

/-! ## Collecting users -/

namespace UseMap

variable {m : UseMap} {v w : Value} {u : User} {users : List User}

theorem record_record (users : List User) (u : User) :
    record (record users u) u = record users u := by
  have h : (record users u).getLast? = some u := by
    unfold record
    split
    · assumption
    · exact List.getLast?_concat
  rw [record, if_pos h]

theorem record_of_notMem (h : u ∉ users) : record users u = users ++ [u] := by
  rw [record, if_neg fun e => h (List.mem_of_getLast? e)]

/-- A user that uses a value several times is recorded once. -/
theorem usersOf_addAll (vs : List Value) (m : UseMap) (u : User) (w : Value) :
    (vs.foldl (fun m v => m.add v u) m).usersOf w =
      if w ∈ vs then record (m.usersOf w) u else m.usersOf w := by
  induction vs generalizing m with
  | nil => rfl
  | cons v vs ih =>
    rw [List.foldl_cons, ih, usersOf_add]
    by_cases hv : w = v
    · subst hv
      simp [record_record]
    · simp [hv]

end UseMap

/-- A block is its name, its instructions and its terminator. -/
theorem Block.eq_of_parts {d e : Block} (hn : d.name = e.name) (hi : d.insts = e.insts)
    (ht : d.term = e.term) : d = e := by
  obtain ⟨name, insts, term⟩ := d
  cases hn; cases hi; cases ht
  rfl

namespace Func

variable {f : Func} {old new v : Value}

/-- The users of a value in a block: the instructions that have it as an input or as their mask, and
the terminator behind them. -/
def usersIn (f : Func) (v : Value) (b : BlockId) : List User :=
  ((f.body b).filter fun i => v ∈ (f.inst i).inputs ∨ (f.inst i).mask = some v).map .inst ++
    if v ∈ (f.term b).uses then [.terminator b] else []

theorem filter_blockUsers (f : Func) (v : Value) (b : BlockId) :
    (f.blockUsers b).filter (fun u => v ∈ f.usedBy u) = f.usersIn v b := by
  have hinst : (fun u => decide (v ∈ f.usedBy u)) ∘ User.inst =
      fun i => decide (v ∈ (f.inst i).inputs ∨ (f.inst i).mask = some v) := by
    funext i
    simp [usedBy, Instr.uses]
  rw [blockUsers, List.filter_append, List.filter_map, hinst, usersIn]
  congr 1
  by_cases h : v ∈ (f.term b).uses <;> simp [usedBy, h]

theorem filter_users (f : Func) (v : Value) :
    f.users.filter (fun u => v ∈ f.usedBy u) = f.layout.flatMap (f.usersIn v) := by
  rw [users, List.filter_flatMap]
  exact congrArg (f.layout.flatMap ·) (funext fun b => f.filter_blockUsers v b)

/-- No block twice, and no instruction twice: no user twice. -/
theorem nodup_users (hl : f.layout.Nodup) (ha : f.attached.Nodup) : f.users.Nodup := by
  obtain ⟨hbody, hdisj⟩ := List.nodup_flatMap.mp ha
  have hne := hdisj.and hl
  refine List.nodup_flatMap.mpr ⟨fun b hb => ?_, hne.imp ?_⟩
  · refine List.nodup_append.mpr ⟨(hbody b hb).map fun _ _ e => User.inst.inj e,
      List.nodup_singleton _, fun u hu t ht e => ?_⟩
    obtain ⟨i, -, rfl⟩ := List.mem_map.mp hu
    cases e.trans (List.mem_singleton.mp ht)
  · rintro b c ⟨hbc, hne⟩ u hub huc
    rcases List.mem_append.mp hub with hu | hu <;> rcases List.mem_append.mp huc with hu' | hu'
    · obtain ⟨i, hi, rfl⟩ := List.mem_map.mp hu
      obtain ⟨j, hj, e⟩ := List.mem_map.mp hu'
      exact hbc hi (User.inst.inj e ▸ hj)
    · obtain ⟨i, -, rfl⟩ := List.mem_map.mp hu
      cases List.mem_singleton.mp hu'
    · obtain ⟨i, -, rfl⟩ := List.mem_map.mp hu'
      cases List.mem_singleton.mp hu
    · cases List.mem_singleton.mp hu
      cases List.mem_singleton.mp hu'
      exact hne rfl

/-- The users of a value, in the order of the layout. -/
theorem usersOf_compute (hl : f.layout.Nodup) (ha : f.attached.Nodup) (v : Value) :
    (UseMap.compute f).usersOf v = f.layout.flatMap (f.usersIn v) := by
  -- what is collected so far comes first, and no later user is in it
  have h : ∀ (us : List User) (m : UseMap), us.Nodup → (∀ u ∈ us, u ∉ m.usersOf v) →
      (us.foldl (fun m u => (f.usedBy u).foldl (fun m v => m.add v u) m) m).usersOf v =
        m.usersOf v ++ us.filter (fun u => v ∈ f.usedBy u) := by
    intro us
    induction us with
    | nil => exact fun m _ _ => (List.append_nil _).symm
    | cons u us ih =>
      intro m hn hnew
      obtain ⟨hu, hn⟩ := List.nodup_cons.mp hn
      have hm := UseMap.usersOf_addAll (f.usedBy u) m u v
      rw [UseMap.record_of_notMem (hnew u List.mem_cons_self)] at hm
      rw [List.foldl_cons, ih _ hn, hm, List.filter_cons]
      · by_cases hv : v ∈ f.usedBy u <;> simp [hv]
      · intro x hx
        rw [hm]
        have hx' := hnew x (List.mem_cons_of_mem _ hx)
        split
        · rw [List.mem_append, List.mem_singleton]
          rintro (h | rfl)
          · exact hx' h
          · exact hu hx
        · exact hx'
  have hcompute := h f.users .empty (nodup_users hl ha) fun u _ => List.not_mem_nil
  exact hcompute.trans (f.filter_users v)

/-! ## Replacing -/

/-- A function in which the users with `S` use `new` wherever they used `old`. -/
def rewrite (f : Func) (old new : Value) (S : User → Bool) : Func :=
  let value v := if v = old then new else v
  { f with
    blocks := f.blocks.mapIdx fun b d =>
      if S (.terminator b) then { d with term := d.term.map id value } else d
    insts := f.insts.mapIdx fun i d => if S (.inst i) then d.map id value else d }

theorem inst_rewrite (f : Func) (old new : Value) (S : User → Bool) (i : InstId) :
    (f.rewrite old new S).inst i =
      if S (.inst i) then (f.inst i).map id (Substitution.single old new).value else f.inst i := by
  show ((f.insts.mapIdx _)[i]?).getD default = _
  rw [Array.getElem?_mapIdx, inst]
  cases f.insts[i]? with
  | none => exact (ite_self default).symm
  | some d => rfl

theorem block_rewrite (f : Func) (old new : Value) (S : User → Bool) (b : BlockId) :
    (f.rewrite old new S).block b =
      if S (.terminator b) then
        { f.block b with term := (f.term b).map id (Substitution.single old new).value }
      else f.block b := by
  show ((f.blocks.mapIdx _)[b]?).getD default = _
  rw [Array.getElem?_mapIdx, block, term, block]
  cases f.blocks[b]? with
  | none => exact (ite_self default).symm
  | some d => rfl

/-- The users with `S` use `new` in all places where they used `old`, in the same order, and the
others what they used. -/
theorem usedBy_rewrite (f : Func) (old new : Value) (S : User → Bool) (u : User) :
    (f.rewrite old new S).usedBy u =
      if S u then (f.usedBy u).map fun v => if v = old then new else v else f.usedBy u := by
  cases u with
  | inst i =>
    rw [usedBy, inst_rewrite, usedBy]
    split
    · exact Instr.uses_map _ _ _
    · rfl
  | terminator b =>
    rw [usedBy, term, block_rewrite, usedBy]
    split
    · exact Terminator.uses_map _ _ _
    · rfl

/-- Functions are equal if they have the same parts. -/
theorem eq_of_parts {f g : Func} (hp : f.params = g.params) (hr : f.retTy = g.retTy)
    (hl : f.layout = g.layout) (hb : f.blocks.size = g.blocks.size)
    (hi : f.insts.size = g.insts.size) (hblock : ∀ b, f.block b = g.block b)
    (hinst : ∀ i, f.inst i = g.inst i) : f = g := by
  obtain ⟨params, retTy, blocks, insts, layout⟩ := f
  obtain ⟨params', retTy', blocks', insts', layout'⟩ := g
  obtain rfl : blocks = blocks' := Array.ext hb fun b h1 h2 => by
    have h := hblock b
    simpa [block, Array.getElem?_eq_getElem h1, Array.getElem?_eq_getElem h2] using h
  obtain rfl : insts = insts' := Array.ext hi fun i h1 h2 => by
    have h := hinst i
    simpa [inst, Array.getElem?_eq_getElem h1, Array.getElem?_eq_getElem h2] using h
  cases hp; cases hr; cases hl
  rfl

theorem retTy_substUsers (f : Func) (s : Substitution) (us : List User) :
    (f.substUsers s us).retTy = f.retTy := by
  unfold substUsers
  induction us generalizing f with
  | nil => rfl
  | cons u us ih =>
    rw [List.foldl_cons, ih]
    cases u <;> rfl

theorem name_substUsers (f : Func) (s : Substitution) (us : List User) (b : BlockId) :
    ((f.substUsers s us).block b).name = (f.block b).name := by
  unfold substUsers
  induction us generalizing f with
  | nil => rfl
  | cons u us ih =>
    rw [List.foldl_cons, ih]
    cases u with
    | inst i => rfl
    | terminator c =>
      rw [substUser, block_modifyBlock]
      split <;> rfl

/-- Replacing a value in some users, one after the other, changes each of them once. -/
theorem substUsers_single_eq_rewrite (f : Func) (old new : Value) (us : List User) :
    f.substUsers (.single old new) us = f.rewrite old new fun u => u ∈ us := by
  have hs := Substitution.single_idempotent old new
  have hrefits := f.refits_substUsers hs us
  refine eq_of_parts hrefits.params (f.retTy_substUsers _ us) hrefits.layout
    (hrefits.size_blocks.trans (Array.size_mapIdx ..).symm)
    (hrefits.size_insts.trans (Array.size_mapIdx ..).symm) (fun b => ?_) fun i => ?_
  · have hterm := f.term_substUsers us hs b
    rw [block_rewrite]
    refine Block.eq_of_parts ?_ ?_ ?_
    · rw [name_substUsers]
      split <;> rfl
    · refine (hrefits.body b).trans ?_
      split <;> rfl
    · refine hterm.trans ?_
      simp only [decide_eq_true_eq]
      split <;> rfl
  · rw [inst_substUsers f us hs, inst_rewrite]
    simp only [decide_eq_true_eq]
    rfl

/-- The users of the value that are accepted change, and nothing else. -/
theorem replaceUsesWhere_eq_rewrite (f : Func) (old new : Value) (p : User → Bool) :
    f.replaceUsesWhere old new p =
      f.rewrite old new fun u => u ∈ (UseMap.compute f).usersOf old ∧ p u := by
  refine (f.substUsers_single_eq_rewrite old new _).trans ?_
  exact congrArg (f.rewrite old new) (funext fun u => decide_eq_decide.mpr List.mem_filter)

/-! ## Replacing everywhere -/

/-- An instruction stays as it is if what it uses does. -/
theorem map_inst_eq_self {d : Instr} {value : Value → Value} (h : ∀ v ∈ d.uses, value v = v) :
    d.map id value = d := by
  obtain ⟨op, ty, mask, b⟩ := d
  have hmask : mask.map value = mask := by
    cases mask with
    | none => rfl
    | some v => exact congrArg some (h v (List.mem_append_right _ List.mem_cons_self))
  have hop : op.map id value = op := by
    have hin : ∀ v ∈ op.inputs, value v = v := fun v hv => h v (List.mem_append_left _ hv)
    cases op with
    | phi incoming =>
      refine congrArg Op.phi ((List.map_congr_left fun e he => ?_).trans (List.map_id _))
      exact Prod.ext rfl (hin e.2 (List.mem_map_of_mem he))
    | apply code args =>
      exact congrArg (Op.apply code) ((List.map_congr_left hin).trans (List.map_id _))
  show ({ op := op.map id value, ty, mask := mask.map value, block := b } : Instr) = _
  rw [hop, hmask]

theorem map_term_eq_self {t : Terminator} {value : Value → Value}
    (h : ∀ v ∈ t.uses, value v = v) : t.map id value = t := by
  cases t with
  | unreachable | br target => rfl
  | ret v =>
    cases v with
    | none => rfl
    | some v => exact congrArg (Terminator.ret ∘ some) (h v List.mem_cons_self)
  | brIf cond onTrue onFalse =>
    exact congrArg (Terminator.brIf · onTrue onFalse) (h cond List.mem_cons_self)

/-- Nothing changes where the value does not occur. -/
theorem value_single_of_not_mem {vs : List Value} (h : old ∉ vs) :
    ∀ v ∈ vs, (Substitution.single old new).value v = v := by
  intro v hv
  rw [Substitution.value_single, if_neg]
  rintro rfl
  exact h hv

theorem refits_replaceUsesWhere (f : Func) (old new : Value) (p : User → Bool) :
    f.Refits (f.replaceUsesWhere old new p) :=
  f.refits_substUsers (Substitution.single_idempotent old new) _

/-- In an attached instruction that is accepted the value is replaced. -/
theorem inst_replaceUsesWhere {p : User → Bool} {i : InstId} (hi : .inst i ∈ f.users) :
    (f.replaceUsesWhere old new p).inst i =
      if p (.inst i) then (f.inst i).map id (Substitution.single old new).value else f.inst i := by
  rw [replaceUsesWhere_eq_rewrite, inst_rewrite]
  by_cases hold : old ∈ (f.inst i).uses
  · have hmem : .inst i ∈ (UseMap.compute f).usersOf old := UseMap.mem_usersOf_compute.mpr ⟨hi, hold⟩
    simp only [hmem, true_and, decide_eq_true_eq]
  · rw [map_inst_eq_self (value_single_of_not_mem hold)]
    exact (ite_self _).trans (ite_self _).symm

/-- In a terminator that is accepted the value is replaced. -/
theorem term_replaceUsesWhere {p : User → Bool} {b : BlockId} (hb : b ∈ f.layout) :
    (f.replaceUsesWhere old new p).term b =
      if p (.terminator b) then (f.term b).map id (Substitution.single old new).value
      else f.term b := by
  rw [replaceUsesWhere_eq_rewrite, term, block_rewrite]
  by_cases hold : old ∈ (f.term b).uses
  · have hmem : .terminator b ∈ (UseMap.compute f).usersOf old :=
      UseMap.mem_usersOf_compute.mpr ⟨f.mem_users_terminator.mpr hb, hold⟩
    simp only [hmem, true_and, decide_eq_true_eq]
    split <;> rfl
  · rw [map_term_eq_self (value_single_of_not_mem hold), ite_self]
    split <;> rfl

theorem rewrite_congr {S S' : User → Bool} (h : ∀ u, old ∈ f.usedBy u → S u = S' u) :
    f.rewrite old new S = f.rewrite old new S' := by
  have hsize : ∀ T, (f.rewrite old new T).blocks.size = f.blocks.size ∧
      (f.rewrite old new T).insts.size = f.insts.size :=
    fun _ => ⟨Array.size_mapIdx .., Array.size_mapIdx ..⟩
  refine eq_of_parts rfl rfl rfl ((hsize S).1.trans (hsize S').1.symm)
    ((hsize S).2.trans (hsize S').2.symm) (fun b => ?_) fun i => ?_
  · rw [block_rewrite, block_rewrite]
    by_cases hold : old ∈ f.usedBy (.terminator b)
    · rw [h _ hold]
    · rw [map_term_eq_self (value_single_of_not_mem hold)]
      exact (ite_self _).trans (ite_self _).symm
  · rw [inst_rewrite, inst_rewrite]
    by_cases hold : old ∈ f.usedBy (.inst i)
    · rw [h _ hold]
    · rw [map_inst_eq_self (value_single_of_not_mem hold)]
      exact (ite_self _).trans (ite_self _).symm

/-- The pass over all users does no more than to replace the value in its users. -/
theorem replaceAllUses_eq (f : Func) (old new : Value) :
    f.replaceAllUses old new = f.replaceUsesWhere old new fun _ => true := by
  refine (f.substUsers_single_eq_rewrite old new f.users).trans ?_
  rw [replaceUsesWhere_eq_rewrite]
  refine rewrite_congr fun u hu => decide_eq_decide.mpr ?_
  rw [UseMap.mem_usersOf_compute]
  exact ⟨fun h => ⟨⟨h, hu⟩, rfl⟩, fun h => h.1.1⟩

/-- The collected users of a value are its users in the order of the layout, each once. Replacing
the value in those that a filter accepts, asked about the function as it was, changes these wherever
they use it, and nothing else. The pass over all users is the replacement that accepts every
user. -/
theorem usersOf_and_replacements (f : Func) (hl : f.layout.Nodup) (ha : f.attached.Nodup)
    (old new : Value) (p : Func → User → Bool) :
    (∀ v, (UseMap.compute f).usersOf v = f.layout.flatMap (f.usersIn v) ∧
      ((UseMap.compute f).usersOf v).Nodup) ∧
    f.replaceUsesWhere old new (p f) =
      f.rewrite old new (fun u => u ∈ (UseMap.compute f).usersOf old ∧ p f u) ∧
    (∀ u, (f.replaceUsesWhere old new (p f)).usedBy u =
      if u ∈ (UseMap.compute f).usersOf old ∧ p f u then
        (f.usedBy u).map fun v => if v = old then new else v
      else f.usedBy u) ∧
    f.replaceAllUses old new = f.replaceUsesWhere old new fun _ => true := by
  have hrewrite := f.replaceUsesWhere_eq_rewrite old new (p f)
  refine ⟨fun v => ⟨usersOf_compute hl ha v, ?_⟩, hrewrite, fun u => ?_,
    f.replaceAllUses_eq old new⟩
  · rw [usersOf_compute hl ha, ← filter_users]
    exact (nodup_users hl ha).filter _
  · rw [hrewrite, usedBy_rewrite]
    simp only [decide_eq_true_eq]

end Func

/-- A sum is stored under a mask, and taken up by a phi from both sides. -/
def storedSum : Func where
  params := [.bool, .int 32, .ptr (.int 32)]
  retTy := .int 32
  blocks := #[
    { insts := [0, 1], term := .br 1 },
    { insts := [2], term := .brIf (.param 0) 1 2 },
    { term := .ret (some (.inst 0)) }]
  insts := #[
    { op := .apply (.binary .add) [.param 1, .param 1], ty := .int 32, block := 0 },
    { op := .apply .store [.param 2, .inst 0], ty := .void, mask := some (.param 0), block := 0 },
    { op := .phi [(0, .inst 0), (1, .inst 0)], ty := .int 32, block := 1 }]
  layout := [0, 1, 2]

/-- The phi uses the sum twice and is a user once; the store and the branch use the mask. Replaced
outside of block 1, the sum stays in the phi. -/
theorem usersOf_and_replacements_storedSum :
    (storedSum.layout.Nodup ∧ storedSum.attached.Nodup) ∧
      (UseMap.compute storedSum).usersOf (.inst 0) = [.inst 1, .inst 2, .terminator 2] ∧
      (UseMap.compute storedSum).usersOf (.param 0) = [.inst 1, .terminator 1] ∧
      ((storedSum.replaceUsesWhere (.inst 0) (.param 1) fun u => storedSum.userBlock u != 1).usedBy
        (.inst 1) = [.param 2, .param 1, .param 0] ∧
      (storedSum.replaceUsesWhere (.inst 0) (.param 1) fun u => storedSum.userBlock u != 1).usedBy
        (.inst 2) = [.inst 0, .inst 0]) := by
  have hl : storedSum.layout.Nodup := by decide
  have ha : storedSum.attached.Nodup := by decide
  obtain ⟨husers, -, huses, -⟩ := storedSum.usersOf_and_replacements hl ha (.inst 0) (.param 1)
    fun g u => g.userBlock u != 1
  refine ⟨⟨hl, ha⟩, (husers (.inst 0)).1.trans (by decide), (husers (.param 0)).1.trans (by decide),
    (huses (.inst 1)).trans (by decide), (huses (.inst 2)).trans (by decide)⟩

end Lockstep
