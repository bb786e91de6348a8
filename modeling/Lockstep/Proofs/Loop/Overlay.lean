import Lockstep.Proofs.Func.WellFormed
import Lockstep.Proofs.Loop.SingleExit

/-!
# Masks and trackers over a function

Normalizing loops lays phis and operations over a function: masks of blocks and edges, trackers of
the values that are used after a loop, and new exit tests. An `Overlay` lists them as they were
inserted, before any use of a value is redirected to a choice that tracks it.

What a mask means in a single lane is said by `Tells`: in a block, once some of the operations added
to it have run, a value tells whether `φ` holds of the block that control goes to next. A value that
tells so at every edge into a set of blocks tells so in all of them, if none of them computes it
(`Tells.region`); the masks that a loop carries around are told that way. `Annotates` relates an
overlay to the function that results.
-/

namespace Lockstep

/-- A value of a loop, and the choice at the end of the exiting block that tracks it. -/
structure Tracked where
  loop : Loop
  shape : SingleExitLoop
  value : InstId
  choice : InstId

/-- What is added to a function. -/
structure Overlay where
  /-- The number of instructions, the old ones included. -/
  size : Nat
  /-- The instructions as they were inserted. -/
  code : InstId → Instr
  /-- The phis added to a block, behind its own. -/
  phis : BlockId → List InstId
  /-- The operations added to the end of a block. -/
  ops : BlockId → List InstId
  /-- The phis that are true whenever control is in their block. -/
  maskPhis : List (BlockId × InstId)
  tracked : List Tracked

/-! ## What values tell -/

/-- In a block, after the operations `ops` that were added to it, a value tells whether `φ` holds of
the block that comes next. `anyFn` is the function that asks whether a lane is on. -/
inductive Tells (f : Func) (anyFn : FuncId) (γ : Overlay) :
    BlockId → List InstId → Value → (BlockId → Bool) → Prop
  | const (b : BlockId) (ops : List InstId) (x : Bool) :
    Tells f anyFn γ b ops (.ofBool x) fun _ => x
  /-- The condition of a branch tells whether its first target comes next. -/
  | cond {b onTrue onFalse : BlockId} {ops : List InstId} {c : Value}
    (h : f.term b = .brIf c onTrue onFalse) : Tells f anyFn γ b ops c fun n => n == onTrue
  /-- After a loop a choice tells what the value does that it tracks. -/
  | seen {b : BlockId} {ops : List InstId} {φ : BlockId → Bool} {τ : Tracked}
    (hτ : τ ∈ γ.tracked) (hb : b ∉ τ.loop.blocks) (h : Tells f anyFn γ b ops (.inst τ.value) φ) :
    Tells f anyFn γ b ops (.inst τ.choice) φ
  | phi {b : BlockId} {ops : List InstId} {i : InstId} (h : (b, i) ∈ γ.maskPhis) :
    Tells f anyFn γ b ops (.inst i) fun _ => true
  /-- What is true on every edge into a set of blocks is true in the set. -/
  | region {b : BlockId} {ops : List InstId} {v : Value} (R : BlockId → Prop)
    (φ : BlockId → BlockId → Bool) (hb : R b) (he : ¬ R f.entry)
    (hv : ∀ i, v = .inst i → i < γ.size ∧ ¬ R (γ.code i).block)
    (h : ∀ p c, f.Reachable p → ¬ R p → c ∈ (f.term p).targets → R c →
      Tells f anyFn γ p (γ.ops p) v (φ p))
    (hφ : ∀ p c, f.Reachable p → ¬ R p → c ∈ (f.term p).targets → R c → φ p c = true) :
    Tells f anyFn γ b ops v fun _ => true
  | not {b : BlockId} {before after : List InstId} {i : InstId} {v : Value} {φ : BlockId → Bool}
    (hi : i < γ.size ∧ (γ.code i).block = b)
    (hop : (γ.code i).op = .apply (.binary .xor) [v, .ofBool true])
    (h : Tells f anyFn γ b before v φ) :
    Tells f anyFn γ b (before ++ i :: after) (.inst i) fun n => !φ n
  | and {b : BlockId} {before after : List InstId} {i : InstId} {u v : Value}
    {φ ψ : BlockId → Bool} (hi : i < γ.size ∧ (γ.code i).block = b)
    (hop : (γ.code i).op = .apply (.binary .and) [u, v])
    (hu : Tells f anyFn γ b before u φ) (hv : Tells f anyFn γ b before v ψ) :
    Tells f anyFn γ b (before ++ i :: after) (.inst i) fun n => φ n && ψ n
  | any {b : BlockId} {before after : List InstId} {i : InstId} {v : Value} {φ : BlockId → Bool}
    (hi : i < γ.size ∧ (γ.code i).block = b)
    (hop : (γ.code i).op = .apply (.call anyFn) [v]) (h : Tells f anyFn γ b before v φ) :
    Tells f anyFn γ b (before ++ i :: after) (.inst i) φ
  /-- Only the targets of the block matter that what a constant tells allows. -/
  | congr {b : BlockId} {ops : List InstId} {c v : Value} {x : Bool} {χ φ ψ : BlockId → Bool}
    (hb : (f.term b).targets ≠ []) (hx : c.bool? = some x) (hc : Tells f anyFn γ b ops c χ) (h : Tells f anyFn γ b ops v φ)
    (e : ∀ n ∈ (f.term b).targets, χ n = x → ψ n = φ n) : Tells f anyFn γ b ops v ψ

namespace Overlay

/-- `γ'` has all that `γ` has, and what is added to it is new; the entries of phis may differ. -/
structure Le (γ γ' : Overlay) : Prop where
  size : γ.size ≤ γ'.size
  block : ∀ i < γ.size, (γ'.code i).block = (γ.code i).block
  ty : ∀ i < γ.size, (γ'.code i).ty = (γ.code i).ty
  code : ∀ i < γ.size, (γ.code i).isPhi = false → γ'.code i = γ.code i
  ops : ∀ b, ∃ more, γ'.ops b = γ.ops b ++ more ∧ ∀ i ∈ more, γ.size ≤ i
  maskPhis : ∀ e ∈ γ.maskPhis, e ∈ γ'.maskPhis
  tracked : ∀ τ ∈ γ.tracked, τ ∈ γ'.tracked

/-- `γ'` has all that `γ` has, and nothing of it differs. -/
structure Grows (γ γ' : Overlay) : Prop extends γ.Le γ' where
  kept : ∀ i < γ.size, γ'.code i = γ.code i
  masks : ∀ e ∈ γ'.maskPhis, e.2 < γ.size → e ∈ γ.maskPhis

variable {γ γ' γ'' : Overlay}

theorem Le.refl (γ : Overlay) : γ.Le γ where
  size := Nat.le_refl _
  block _ _ := rfl
  ty _ _ := rfl
  code _ _ _ := rfl
  ops _ := ⟨[], (List.append_nil _).symm, nofun⟩
  maskPhis _ h := h
  tracked _ h := h

theorem Le.trans (h : γ.Le γ') (h' : γ'.Le γ'') : γ.Le γ'' where
  size := Nat.le_trans h.size h'.size
  block i hi := (h'.block i (Nat.lt_of_lt_of_le hi h.size)).trans (h.block i hi)
  ty i hi := (h'.ty i (Nat.lt_of_lt_of_le hi h.size)).trans (h.ty i hi)
  code i hi hp := by
    have e := h.code i hi hp
    exact (h'.code i (Nat.lt_of_lt_of_le hi h.size) (by rw [e, hp])).trans e
  ops b := by
    obtain ⟨more, e, hm⟩ := h.ops b
    obtain ⟨more', e', hm'⟩ := h'.ops b
    refine ⟨more ++ more', by rw [e', e, List.append_assoc], fun i hi => ?_⟩
    rcases List.mem_append.mp hi with hi | hi
    · exact hm i hi
    · exact Nat.le_trans h.size (hm' i hi)
  maskPhis e he := h'.maskPhis e (h.maskPhis e he)
  tracked τ hτ := h'.tracked τ (h.tracked τ hτ)

theorem Grows.refl (γ : Overlay) : γ.Grows γ where
  toLe := .refl γ
  kept _ _ := rfl
  masks _ h _ := h

theorem Grows.trans (h : γ.Grows γ') (h' : γ'.Grows γ'') : γ.Grows γ'' where
  toLe := h.toLe.trans h'.toLe
  kept i hi := (h'.kept i (Nat.lt_of_lt_of_le hi h.size)).trans (h.kept i hi)
  masks e he hlt := h.masks e (h'.masks e he (Nat.lt_of_lt_of_le hlt h.size)) hlt

theorem Le.ops_prefix (h : γ.Le γ') (b : BlockId) : γ.ops b <+: γ'.ops b := by
  obtain ⟨more, e, -⟩ := h.ops b
  exact ⟨more, e.symm⟩

end Overlay

namespace Tells

variable {f : Func} {anyFn : FuncId} {γ γ' : Overlay} {b : BlockId} {ops : List InstId}
  {v : Value} {φ : BlockId → Bool}

/-- What is told stays so when more operations run. -/
theorem append (h : Tells f anyFn γ b ops v φ) (more : List InstId) :
    Tells f anyFn γ b (ops ++ more) v φ := by
  induction h with
  | const b ops x => exact const b _ x
  | cond h => exact cond h
  | seen hτ hb _ ih => exact seen hτ hb ih
  | phi h => exact phi h
  | region R φ hb he hv h hφ _ => exact region R φ hb he hv h hφ
  | not hi hop h _ =>
    rw [List.append_assoc]
    exact not hi hop h
  | and hi hop hu hv _ _ =>
    rw [List.append_assoc]
    exact and hi hop hu hv
  | any hi hop h _ =>
    rw [List.append_assoc]
    exact any hi hop h
  | congr hb hx _ _ e ihc ih => exact congr hb hx ihc ih e

theorem mono_ops {ops' : List InstId} (h : Tells f anyFn γ b ops v φ) (hp : ops <+: ops') :
    Tells f anyFn γ b ops' v φ := by
  obtain ⟨more, rfl⟩ := hp
  exact h.append more

/-- What is told stays so when more is added. -/
theorem mono (h : Tells f anyFn γ b ops v φ) (hle : γ.Le γ') : Tells f anyFn γ' b ops v φ := by
  have hcode : ∀ {i b}, i < γ.size ∧ (γ.code i).block = b → i < γ'.size ∧ (γ'.code i).block = b :=
    fun hi => ⟨Nat.lt_of_lt_of_le hi.1 hle.size, (hle.block _ hi.1).trans hi.2⟩
  have hop : ∀ {i c args}, i < γ.size → (γ.code i).op = .apply c args →
      (γ'.code i).op = .apply c args := by
    intro i c args hi hop
    rw [hle.code i hi (by rw [Instr.isPhi, hop]; rfl), hop]
  induction h with
  | const b ops x => exact const b _ x
  | cond h => exact cond h
  | seen hτ hb _ ih => exact seen (hle.tracked _ hτ) hb ih
  | phi h => exact phi (hle.maskPhis _ h)
  | region R φ hb he hv _ hφ ih =>
    refine region R φ hb he (fun i hi => ?_) (fun p c hr hp hc hR => ?_) hφ
    · obtain ⟨hlt, hout⟩ := hv i hi
      exact ⟨Nat.lt_of_lt_of_le hlt hle.size, by rwa [hle.block i hlt]⟩
    · exact (ih p c hr hp hc hR).mono_ops (hle.ops_prefix p)
  | not hi h _ ih => exact not (hcode hi) (hop hi.1 h) ih
  | and hi h _ _ ihu ihv => exact and (hcode hi) (hop hi.1 h) ihu ihv
  | any hi h _ ih => exact any (hcode hi) (hop hi.1 h) ih
  | congr hb hx _ _ e ihc ih => exact congr hb hx ihc ih e

/-- Only the targets of the block matter. -/
theorem congr_targets {ψ : BlockId → Bool} (h : Tells f anyFn γ b ops v φ)
    (hb : (f.term b).targets ≠ []) (e : ∀ n ∈ (f.term b).targets, ψ n = φ n) :
    Tells f anyFn γ b ops v ψ :=
  congr hb (c := .ofBool true) rfl (const b ops true) h fun n hn _ => e n hn

end Tells

/-! ## Redirected uses -/

namespace Overlay

/-- What is seen in a block where `v` stood before uses were redirected. -/
def Sees (γ : Overlay) (b : BlockId) : Value → Value → Prop :=
  Relation.ReflTransGen fun v w =>
    ∃ τ ∈ γ.tracked, b ∉ τ.loop.blocks ∧ v = .inst τ.value ∧ w = .inst τ.choice

/-- An operation with redirected operands. -/
inductive SeesOp (γ : Overlay) (b : BlockId) : Op → Op → Prop
  | phi {l l' : List (BlockId × Value)}
    (h : List.Forall₂ (fun e e' => e'.1 = e.1 ∧ γ.Sees b e.2 e'.2) l l') :
    SeesOp γ b (.phi l) (.phi l')
  | apply {code : Opcode} {args args' : List Value} (h : List.Forall₂ (γ.Sees b) args args') :
    SeesOp γ b (.apply code args) (.apply code args')

/-- An instruction with redirected operands. -/
structure SeesInstr (γ : Overlay) (d d' : Instr) : Prop where
  ty : d'.ty = d.ty
  block : d'.block = d.block
  op : SeesOp γ d.block d.op d'.op
  mask : Option.Rel (γ.Sees d.block) d.mask d'.mask

theorem SeesOp.refl (γ : Overlay) (b : BlockId) (o : Op) : SeesOp γ b o o := by
  cases o with
  | phi l => exact .phi (List.forall₂_same.mpr fun e _ => ⟨rfl, .refl⟩)
  | apply code args => exact .apply (List.forall₂_same.mpr fun v _ => .refl)

theorem SeesInstr.refl (γ : Overlay) (d : Instr) : SeesInstr γ d d where
  ty := rfl
  block := rfl
  op := .refl γ _ _
  mask := by
    cases d.mask with
    | none => exact .none
    | some v => exact .some .refl

/-- How control leaves a block after uses were redirected. A branch may ask another question that
has the same answer. -/
inductive SeesTerm (f : Func) (anyFn : FuncId) (γ : Overlay) (b : BlockId) :
    Terminator → Terminator → Prop
  | unreachable : SeesTerm f anyFn γ b .unreachable .unreachable
  | ret {v v' : Option Value} (h : Option.Rel (γ.Sees b) v v') :
    SeesTerm f anyFn γ b (.ret v) (.ret v')
  | br (target : BlockId) : SeesTerm f anyFn γ b (.br target) (.br target)
  | brIf {c c' : Value} {onTrue onFalse onTrue' onFalse' : BlockId}
    (ht : ∀ n, n = onTrue ∨ n = onFalse ↔ n = onTrue' ∨ n = onFalse')
    (h : Tells f anyFn γ b (γ.ops b) c' fun n => n == onTrue') :
    SeesTerm f anyFn γ b (.brIf c onTrue onFalse) (.brIf c' onTrue' onFalse')

end Overlay

/-! ## Overlays of a function -/

/-- What an operation that is added does; the questions it asks are answered before. -/
inductive IsGate (f : Func) (anyFn : FuncId) (γ : Overlay) (b : BlockId) (before : List InstId) :
    Op → Prop
  | not {v : Value} {φ : BlockId → Bool} (h : Tells f anyFn γ b before v φ) :
    IsGate f anyFn γ b before (.apply (.binary .xor) [v, .ofBool true])
  | and {u v : Value} {φ ψ : BlockId → Bool} (hu : Tells f anyFn γ b before u φ)
    (hv : Tells f anyFn γ b before v ψ) :
    IsGate f anyFn γ b before (.apply (.binary .and) [u, v])
  | any {v : Value} {φ : BlockId → Bool} (h : Tells f anyFn γ b before v φ) :
    IsGate f anyFn γ b before (.apply (.call anyFn) [v])
  | select (args : List Value) : IsGate f anyFn γ b before (.apply .select args)

/-- An operation that is added to a block. -/
structure IsAdded (f : Func) (anyFn : FuncId) (γ : Overlay) (b : BlockId) (before : List InstId)
    (i : InstId) : Prop where
  new : f.insts.size ≤ i
  lt : i < γ.size
  block : (γ.code i).block = b
  mask : (γ.code i).mask = none
  gate : IsGate f anyFn γ b before (γ.code i).op
  branch : ∃ c onTrue onFalse, f.term b = .brIf c onTrue onFalse

/-- A choice takes the value that it tracks in the iteration in which the loop is left. -/
structure IsTracked (f : Func) (anyFn : FuncId) (γ : Overlay) (τ : Tracked) : Prop where
  mem : τ.loop ∈ (Analyses.ofFunc f).loops.loops
  singleExit : τ.loop.IsSingleExit f (.ofFunc f) τ.shape
  lt : τ.value < γ.size ∧ τ.choice < γ.size
  value : (γ.code τ.value).block ∈ τ.loop.blocks
  ty : (γ.code τ.choice).ty = (γ.code τ.value).ty
  choice : ∃ before after leaves held φ,
    γ.ops τ.shape.exiting = before ++ τ.choice :: after ∧
    (γ.code τ.choice).op = .apply .select [leaves, .inst τ.value, held] ∧
    Tells f anyFn γ τ.shape.exiting before leaves φ ∧ φ τ.shape.exit = true ∧
    τ.value ∉ τ.choice :: after

/-- `t` is `f` with an overlay, after some uses were redirected to choices. -/
structure Annotates (f : Func) (anyFn : FuncId) (γ : Overlay) (t : Func) : Prop where
  params : t.params = f.params
  blocks : t.blocks.size = f.blocks.size
  size : t.insts.size = γ.size
  le : f.insts.size ≤ γ.size
  old : ∀ i < f.insts.size, γ.code i = f.inst i
  body : ∀ b, t.body b = (f.phis b ++ γ.phis b) ++ (f.nonPhis b ++ γ.ops b)
  phis : ∀ b, ∀ i ∈ γ.phis b, f.insts.size ≤ i ∧ i < γ.size ∧ (γ.code i).isPhi = true ∧
    (γ.code i).block = b ∧ b ≠ f.entry
  ops : ∀ b before i after, γ.ops b = before ++ i :: after → IsAdded f anyFn γ b before i
  nodup : ∀ b, (γ.phis b).Nodup ∧ (γ.ops b).Nodup
  seen : ∀ i < γ.size, γ.SeesInstr (γ.code i) (t.inst i)
  term : ∀ b, γ.SeesTerm f anyFn b (f.term b) (t.term b)
  maskPhis : ∀ e ∈ γ.maskPhis, e.2 ∈ γ.phis e.1
  tracked : ∀ τ ∈ γ.tracked, IsTracked f anyFn γ τ

/-- A phi has an entry for every edge to its block. If it is a mask, the entries are true on their
edges. -/
def Overlay.Complete (f : Func) (anyFn : FuncId) (γ : Overlay) (b : BlockId) (i : InstId) : Prop :=
  ∀ p, f.Reachable p → b ∈ (f.term p).targets → ∃ v, (γ.code i).incoming.lookup p = some v ∧
    ((b, i) ∈ γ.maskPhis → ∃ φ, Tells f anyFn γ p (γ.ops p) v φ ∧ φ b = true)

namespace Annotates

variable {f t : Func} {anyFn : FuncId} {γ : Overlay} {b : BlockId} {ops : List InstId}
  {v w : Value} {φ : BlockId → Bool}

theorem mem_ops (h : Annotates f anyFn γ t) {i : InstId} (hi : i ∈ γ.ops b) :
    ∃ before, IsAdded f anyFn γ b before i := by
  obtain ⟨before, after, e⟩ := List.append_of_mem hi
  exact ⟨before, h.ops b before i after e⟩

/-- A phi is added to one block only. -/
theorem eq_of_mem_phis (h : Annotates f anyFn γ t) {c : BlockId} {i : InstId} (hb : i ∈ γ.phis b)
    (hc : i ∈ γ.phis c) : b = c := by
  obtain ⟨-, -, -, hb, -⟩ := h.phis b i hb
  obtain ⟨-, -, -, hc, -⟩ := h.phis c i hc
  exact hb.symm.trans hc

/-- Old instructions keep their blocks. -/
theorem block_of_mem_body (h : Annotates f anyFn γ t) (hf : f.Coherent) {i : InstId}
    (hi : i ∈ f.body b) : i < γ.size ∧ (γ.code i).block = b := by
  have hlt := hf.body_lt b i hi
  refine ⟨Nat.lt_of_lt_of_le hlt h.le, ?_⟩
  rw [h.old i hlt]
  exact hf.placed b i hi

/-- Every instruction of a block names the block. -/
theorem block_of_mem (h : Annotates f anyFn γ t) (hf : f.Coherent) {i : InstId}
    (hi : i ∈ t.body b) : i < γ.size ∧ (γ.code i).block = b := by
  rw [h.body] at hi
  rcases List.mem_append.mp hi with hi | hi <;> rcases List.mem_append.mp hi with hi | hi
  · exact h.block_of_mem_body hf (Func.mem_body_of_mem_phis hi)
  · obtain ⟨-, hlt, -, hblock, -⟩ := h.phis b i hi
    exact ⟨hlt, hblock⟩
  · exact h.block_of_mem_body hf (Func.mem_body_of_mem_nonPhis hi)
  · obtain ⟨_, hadd⟩ := h.mem_ops hi
    exact ⟨hadd.lt, hadd.block⟩

/-- What tells something in a block has been computed on every path to it. -/
theorem dominates (h : Annotates f anyFn γ t) (hf : f.WellFormed)
    (ht : Tells f anyFn γ b ops v φ) (hb : f.Reachable b) {i : InstId} (hv : v = .inst i) :
    i < γ.size ∧ f.Dominates (γ.code i).block b := by
  induction ht generalizing i with
  | const b ops x => cases hv
  | @cond b onTrue onFalse ops c hc =>
    subst hv
    have havail := hf.exit b hb (.inst i) (by rw [hc]; exact List.mem_singleton_self _)
    rcases havail with hi | ⟨d, -, hi, hd⟩
    · obtain ⟨hlt, e⟩ := h.block_of_mem_body hf.toCoherent hi
      exact ⟨hlt, e ▸ .refl f _⟩
    · obtain ⟨hlt, e⟩ := h.block_of_mem_body hf.toCoherent hi
      exact ⟨hlt, e ▸ hd⟩
  | @seen b ops φ τ hτ hout _ ih =>
    cases hv
    obtain ⟨-, hdom⟩ := ih hb rfl
    have hk := h.tracked τ hτ
    obtain ⟨before, after, -, -, -, e, -⟩ := hk.choice
    have hblock := (h.ops _ _ _ _ e).block
    refine ⟨hk.lt.2, hblock ▸ ?_⟩
    exact hk.singleExit.exiting_dominates hf.toClosed hk.mem hk.value hout hdom
  | phi hmem =>
    cases hv
    obtain ⟨-, hlt, -, hblock, -⟩ := h.phis _ _ (h.maskPhis _ hmem)
    exact ⟨hlt, hblock ▸ .refl f _⟩
  | @region b ops v R φ hR he hout _ hφ ih =>
    refine ⟨(hout i hv).1, fun hp => ?_⟩
    -- the last edge of the path that leads into the region
    rcases hp.avoid_or_last (fun x => ¬ R x) with h1 | ⟨x, y, hx, hne, hxR, hy, h1⟩
    · rcases Relation.ReflTransGen.cases_head h1 with e | ⟨c, e, -⟩
      · exact absurd (e ▸ hR) he
      · exact absurd e.1.2 (fun hn => hn he)
    · have hyR : R y := by
        rcases Relation.ReflTransGen.cases_head h1 with e | ⟨c, e, -⟩
        · exact e ▸ hR
        · exact not_not.mp e.1.2
      have hxr := Cfg.reachable_of_path hx
      exact absurd ((ih x y hxr hxR hy hyR hxr hv).2 hx) hne
  | not hi _ _ _ =>
    cases hv
    exact ⟨hi.1, hi.2 ▸ .refl f _⟩
  | and hi _ _ _ _ _ =>
    cases hv
    exact ⟨hi.1, hi.2 ▸ .refl f _⟩
  | any hi _ _ _ =>
    cases hv
    exact ⟨hi.1, hi.2 ▸ .refl f _⟩
  | congr _ _ _ _ _ _ ih => exact ih hb hv

end Annotates

end Lockstep
