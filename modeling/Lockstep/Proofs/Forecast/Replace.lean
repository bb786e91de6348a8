import Lockstep.Proofs.Forecast.Supports

/-!
# Changing and replacing phis

Code stays supported when the entries of a phi change, if the values of new entries are available where
control comes from, and when a phi is replaced by a value, if the value is available at the end of its
block and before those instructions of the block that use the phi.
-/

namespace Lockstep

namespace Func

variable {f g : Func} {b c : BlockId} {i j phi : InstId} {u v : Value} {d : Instr}

/-! ## Entries -/

theorem mapIncoming_of_not_isPhi {G} {d : Instr} (h : d.isPhi = false) : mapIncoming G d = d := by
  obtain ⟨op, ty, mask, block⟩ := d
  cases op with
  | phi incoming => cases h
  | apply code args => rfl

theorem typeOf_modifyIncoming (f : Func) (phi : InstId) (G) :
    (f.modifyIncoming phi G).typeOf = f.typeOf := by
  funext v
  cases v with
  | inst i =>
    show ((f.modifyIncoming phi G).inst i).ty = (f.inst i).ty
    rw [inst_modifyIncoming]
    split
    · exact ty_mapIncoming G _
    · rfl
  | _ => rfl

theorem isPhi_modifyIncoming (f : Func) (phi : InstId) (G) (i : InstId) :
    (f.modifyIncoming phi G).isPhi i = f.isPhi i := by
  rw [isPhi, inst_modifyIncoming]
  split
  · exact isPhi_mapIncoming G _
  · rfl

/-- Other instructions than the phi stay as they are. -/
theorem inst_modifyIncoming_of_not_isPhi {G} (h : f.isPhi i = false) :
    (f.modifyIncoming phi G).inst i = f.inst i := by
  rw [inst_modifyIncoming]
  split
  · exact mapIncoming_of_not_isPhi h
  · rfl

theorem mem_incoming_modifyIncoming {G} {e : BlockId × Value}
    (h : e ∈ ((f.modifyIncoming phi G).inst i).incoming) :
    e ∈ (f.inst i).incoming ∨ i = phi ∧ e ∈ G (f.inst phi).incoming := by
  rw [inst_modifyIncoming] at h
  split at h
  · rename_i hi
    subst hi
    exact .inr ⟨rfl, mem_incoming_mapIncoming h⟩
  · exact .inl h

theorem typed_mapIncoming {d : Instr} (hd : d.Typed f) {G}
    (hG : ∀ e ∈ G d.incoming, e.2.IsTyped ∧ f.typeOf e.2 = d.ty) : (mapIncoming G d).Typed f := by
  obtain ⟨op, ty, mask, block⟩ := d
  cases op with
  | apply code args => exact hd
  | phi incoming =>
    constructor
    case uses =>
      intro v hv
      rcases List.mem_append.mp hv with hv | hv
      · obtain ⟨e, he, rfl⟩ := List.mem_map.mp hv
        exact (hG e he).1
      · exact hd.uses v (List.mem_append_right _ hv)
    case mask => exact hd.mask
    case phi =>
      intro incoming' hop
      cases hop
      exact ⟨(hd.phi incoming rfl).1, fun e he => (hG e he).2⟩
    case apply =>
      intro code args hop
      cases hop

theorem typed_entry {d : Instr} (hd : d.Typed f) {e : BlockId × Value} (he : e ∈ d.incoming) :
    e.2.IsTyped ∧ f.typeOf e.2 = d.ty := by
  obtain ⟨op, ty, mask, block⟩ := d
  cases op with
  | apply code args => cases he
  | phi incoming =>
    exact ⟨hd.uses _ (List.mem_append_left _ (List.mem_map.mpr ⟨e, he, rfl⟩)),
      (hd.phi incoming rfl).2 e he⟩

/-- Code stays supported when the entries of a phi change. -/
theorem Supports.modifyIncoming (h : g.Supports f) {G}
    (hG : ∀ e ∈ G (f.inst phi).incoming, e ∈ (f.inst phi).incoming ∨
      e.2.IsTyped ∧ f.typeOf e.2 = (f.inst phi).ty ∧ g.AtEnd f e.1 e.2) :
    g.Supports (f.modifyIncoming phi G) where
  coherent := by
    refine h.coherent.modifyIncoming fun e he => ?_
    rcases hG e he with he | ⟨-, -, he⟩
    · exact h.coherent.defines_incoming he
    · exact he.defines h.coherent
  typed := by
    refine ⟨fun b i hi => ?_, fun b c x y hc => ?_⟩
    · have hold := h.typed.inst b i hi
      have htyped : ((f.modifyIncoming phi G).inst i).Typed f := by
        rw [inst_modifyIncoming]
        split
        · rename_i e
          subst e
          refine typed_mapIncoming hold fun e he => ?_
          rcases hG e he with he | ⟨h1, h2, -⟩
          · exact typed_entry hold he
          · exact ⟨h1, h2⟩
        · exact hold
      have hty := typeOf_modifyIncoming f phi G
      exact ⟨htyped.uses, fun v hv => by rw [hty]; exact htyped.mask v hv,
        fun incoming hop => by rw [hty]; exact htyped.phi incoming hop,
        fun code args hop => by rw [hty]; exact htyped.apply code args hop⟩
    · rw [typeOf_modifyIncoming]
      exact h.typed.cond b c x y hc
  noMask b i hi := by
    rw [inst_modifyIncoming]
    split
    · rw [mask_mapIncoming]
      exact h.noMask b i hi
    · exact h.noMask b i hi
  nodup := h.nodup
  phisFirst b i hi := by
    rw [(refits_modifyIncoming f phi G).nonPhis] at hi
    rw [isPhi_modifyIncoming]
    exact h.phisFirst b i hi
  uses b hb i hi hphi v hv := by
    rw [isPhi_modifyIncoming] at hphi
    rw [inst_modifyIncoming_of_not_isPhi hphi] at hv
    exact h.uses b hb i hi hphi v hv
  entries b hb psi hpsi e he hr := by
    rw [(refits_modifyIncoming f phi G).phis] at hpsi
    rcases mem_incoming_modifyIncoming he with he | ⟨rfl, he⟩
    · exact h.entries b hb psi hpsi e he hr
    · rcases hG e he with he | ⟨-, -, he⟩
      · exact h.entries b hb psi hpsi e he hr
      · exact he
  exit := h.exit

/-! ## Replacement -/

/-- Replaceable a phi by a value and detaches it. -/
def substPhi (f : Func) (phi : InstId) (v : Value) : Func := (f.replaceAllUses (.inst phi) v).detach phi

section Subst

variable (f phi v)

@[simp] theorem size_insts_substPhi : (f.substPhi phi v).insts.size = f.insts.size :=
  size_insts_substUsers _ _ _

@[simp] theorem size_blocks_substPhi : (f.substPhi phi v).blocks.size = f.blocks.size := by
  rw [substPhi, size_blocks_detach]
  exact size_blocks_substUsers _ _ _

theorem inst_substPhi (i : InstId) : (f.substPhi phi v).inst i =
    if .inst i ∈ f.users then (f.inst i).map id (Substitution.single (.inst phi) v).value
    else f.inst i := by
  rw [substPhi, inst_detach]
  exact inst_substUsers _ _ (Substitution.single_idempotent _ _) _

theorem ty_substPhi (i : InstId) : ((f.substPhi phi v).inst i).ty = (f.inst i).ty := by
  rw [inst_substPhi]
  split <;> rfl

theorem isPhi_substPhi (i : InstId) : (f.substPhi phi v).isPhi i = f.isPhi i := by
  rw [isPhi, inst_substPhi]
  split
  · exact Instr.isPhi_map _ _ _
  · rfl

theorem typeOf_substPhi : (f.substPhi phi v).typeOf = f.typeOf := by
  funext u
  cases u with
  | inst i => exact ty_substPhi f phi v i
  | const c => rfl
  | param k =>
    show (f.substPhi phi v).params[k]?.getD .void = _
    rw [show (f.substPhi phi v).params = f.params from
      (refits_substUsers f (Substitution.single_idempotent (.inst phi) v) f.users).params]
    rfl

end Subst

/-- Every attached instruction sees the new value. -/
theorem inst_substPhi_of_mem (hf : f.Coherent) (hi : i ∈ f.body b) : (f.substPhi phi v).inst i =
    (f.inst i).map id (Substitution.single (.inst phi) v).value := by
  rw [inst_substPhi, if_pos (hf.mem_users hi)]

theorem term_substPhi (hf : f.Coherent) (phi : InstId) (v : Value) (b : BlockId) :
    (f.substPhi phi v).term b = (f.term b).map id (Substitution.single (.inst phi) v).value := by
  rw [substPhi, term_detach]
  show (f.substUsers _ f.users).term b = _
  rw [term_substUsers _ _ (Substitution.single_idempotent _ _)]
  split
  · rfl
  · rename_i h
    rw [mem_users_terminator, hf.layout, Nat.not_lt] at h
    rw [Cfg.term_of_size_le h]
    rfl

theorem edge_substPhi (hf : f.Coherent) (phi : InstId) (v : Value) :
    (f.substPhi phi v).Edge b c ↔ f.Edge b c := by
  rw [Edge, term_substPhi hf, Terminator.targets_map, List.map_id]

theorem body_substPhi (hf : f.Coherent) (phi : InstId) (v : Value) (c : BlockId) :
    (f.substPhi phi v).body c = (f.body c).filter (· != phi) := by
  have hblock : ((f.replaceAllUses (.inst phi) v).inst phi).block = (f.inst phi).block :=
    block_substUsers f (Substitution.single_idempotent _ _) f.users phi
  have hbody : (f.replaceAllUses (.inst phi) v).body c = f.body c := body_substUsers f _ f.users c
  rw [substPhi, body_detach, hblock, hbody]
  split
  · rfl
  · rename_i hne
    refine (List.filter_eq_self.mpr fun i hi => ?_).symm
    rw [bne_iff_ne]
    rintro rfl
    exact hne (hf.placed c i hi)

theorem mem_body_substPhi (hf : f.Coherent) :
    i ∈ (f.substPhi phi v).body c ↔ i ∈ f.body c ∧ i ≠ phi := by
  rw [body_substPhi hf, List.mem_filter, bne_iff_ne]

section Supports

variable (h : g.Supports f)

include h

theorem Supports.phis_substPhi (hphi : f.isPhi phi = true) (v : Value) (c : BlockId) :
    (f.substPhi phi v).phis c = (f.phis c).filter (· != phi) ∧
      (f.substPhi phi v).nonPhis c = f.nonPhis c := by
  have hrest : (f.nonPhis c).filter (· != phi) = f.nonPhis c := by
    refine List.filter_eq_self.mpr fun i hi => ?_
    rw [bne_iff_ne]
    rintro rfl
    rw [h.phisFirst c i hi] at hphi
    cases hphi
  refine phis_of_body ?_ (fun i hi => ?_) fun i hi => ?_
  · rw [body_substPhi h.coherent, ← f.phis_append_nonPhis c, List.filter_append, hrest]
  · rw [isPhi_substPhi]
    exact isPhi_of_mem_phis (List.mem_filter.mp hi).1
  · rw [isPhi_substPhi]
    exact h.phisFirst c i hi

theorem Supports.atEnd_substPhi (hv : g.AtEnd f b u) (hne : u ≠ .inst phi) :
    g.AtEnd (f.substPhi phi v) b u := by
  cases u with
  | inst j =>
    obtain ⟨d, hj, hd⟩ := hv
    exact ⟨d, (mem_body_substPhi h.coherent).mpr ⟨hj, fun e => hne (e ▸ rfl)⟩, hd⟩
  | _ => trivial

theorem Supports.before_substPhi (hv : g.Before f b i u) (hne : u ≠ .inst phi) (hi : i ≠ phi) :
    g.Before (f.substPhi phi v) b i u := by
  cases u with
  | inst j =>
    have hj : j ≠ phi := fun e => hne (e ▸ rfl)
    rcases hv with hs | ⟨d, hdb, hjd, hd⟩
    · left
      rw [body_substPhi h.coherent]
      have := hs.filter (· != phi)
      rwa [List.filter_eq_self.mpr (by simp [hj, hi])] at this
    · exact .inr ⟨d, hdb, (mem_body_substPhi h.coherent).mpr ⟨hjd, hj⟩, hd⟩
  | _ => trivial

end Supports

/-- Where a value may replace a phi of a block: it has the type of the phi, and is available at the end
of the block and before the instructions `late` of the block. -/
structure Replaceable (g f : Func) (b : BlockId) (phi : InstId) (v : Value) (late : InstId → Prop) :
    Prop where
  mem : phi ∈ f.phis b
  reachable : g.Reachable b
  isTyped : v.IsTyped
  typeOf : f.typeOf v = (f.inst phi).ty
  ne : v ≠ .inst phi
  atEnd : g.AtEnd f b v
  before : ∀ i ∈ f.nonPhis b, late i → g.Before f b i v

namespace Replaceable

variable {late : InstId → Prop} (k : g.Replaceable f b phi v late)

include k

theorem body_eq (hf : f.Coherent) (hc : phi ∈ f.body c) : c = b :=
  (hf.placed c phi hc).symm.trans (hf.placed b phi (mem_body_of_mem_phis k.mem))

theorem single_ne : (Substitution.single (.inst phi) v).value u ≠ .inst phi := by
  rw [Substitution.value_single]
  split
  · exact k.ne
  · assumption

theorem typeOf_single : f.typeOf ((Substitution.single (.inst phi) v).value u) = f.typeOf u := by
  rw [Substitution.value_single]
  split
  · rename_i e
    rw [e]
    exact k.typeOf
  · rfl

theorem isTyped_single (hu : u.IsTyped) : ((Substitution.single (.inst phi) v).value u).IsTyped := by
  rw [Substitution.value_single]
  split
  · exact k.isTyped
  · exact hu

theorem atEnd_single (h : g.Supports f) (hu : g.AtEnd f c u) :
    g.AtEnd (f.substPhi phi v) c ((Substitution.single (.inst phi) v).value u) := by
  refine h.atEnd_substPhi ?_ k.single_ne
  rw [Substitution.value_single]
  split
  · rename_i e
    subst e
    obtain ⟨d, hd, hdc⟩ := hu
    obtain rfl := k.body_eq h.coherent hd
    exact k.atEnd.of_dominates hdc
  · exact hu

theorem before_single (h : g.Supports f) (hi : i ∈ f.nonPhis c) (hu : g.Before f c i u)
    (hlate : u = .inst phi → late i) :
    g.Before (f.substPhi phi v) c i ((Substitution.single (.inst phi) v).value u) := by
  have hne : i ≠ phi := by
    rintro rfl
    have := isPhi_of_mem_phis k.mem
    rw [h.phisFirst c i hi] at this
    cases this
  refine h.before_substPhi ?_ k.single_ne hne
  rw [Substitution.value_single]
  split
  · rename_i e
    subst e
    rcases hu with hu | ⟨d, hdc, hd, hdom⟩
    · obtain rfl := k.body_eq h.coherent (hu.subset (List.mem_cons_self (a := phi)))
      exact k.before i hi (hlate rfl)
    · obtain rfl := k.body_eq h.coherent hd
      exact (k.atEnd.fromAbove k.reachable hdom hdc).before i
  · exact hu

theorem typed (hd : Instr.Typed f d) :
    Instr.Typed (f.substPhi phi v) (d.map id (Substitution.single (.inst phi) v).value) := by
  have hty := f.typeOf_substPhi phi v
  have htypes : ∀ args : List Value, (args.map (Substitution.single (.inst phi) v).value).map f.typeOf =
      args.map f.typeOf := fun args => by
    rw [List.map_map]
    exact List.map_congr_left fun u _ => k.typeOf_single
  obtain ⟨op, ty, mask, block⟩ := d
  constructor
  case uses =>
    intro u hu
    rcases List.mem_append.mp hu with hu | hu
    · rw [Instr.inputs_map] at hu
      obtain ⟨w, hw, rfl⟩ := List.mem_map.mp hu
      exact k.isTyped_single (hd.uses w (List.mem_append_left _ hw))
    · cases mask with
      | none => cases hu
      | some w =>
        obtain rfl := List.mem_singleton.mp hu
        exact k.isTyped_single (hd.uses w (List.mem_append_right _ List.mem_cons_self))
  case mask =>
    intro u hu
    cases mask with
    | none => cases hu
    | some w =>
      obtain rfl : _ = u := Option.some.inj hu
      rw [hty, k.typeOf_single]
      exact hd.mask w rfl
  case phi =>
    intro incoming hop
    cases op with
    | apply code args => cases hop
    | phi incoming' =>
      cases hop
      obtain ⟨h1, h2⟩ := hd.phi incoming' rfl
      refine ⟨h1, fun e he => ?_⟩
      obtain ⟨e', he', rfl⟩ := List.mem_map.mp he
      rw [hty]
      exact k.typeOf_single.trans (h2 e' he')
  case apply =>
    intro code args hop
    cases op with
    | phi incoming => cases hop
    | apply code' args' =>
      cases hop
      rw [hty, htypes]
      exact hd.apply _ args' rfl

end Replaceable

theorem coherent_substPhi (hf : f.Coherent) (hv : f.Defines v) : (f.substPhi phi v).Coherent :=
  (hf.replaceUses hv f.users).detach phi

/-- Code stays supported when a phi is replaced. -/
theorem Supports.substPhi (h : g.Supports f)
    (k : g.Replaceable f b phi v fun i => .inst phi ∈ (f.inst i).inputs) :
    g.Supports (f.substPhi phi v) where
  coherent := coherent_substPhi h.coherent (k.atEnd.defines h.coherent)
  typed := by
    refine ⟨fun c i hi => ?_, fun c w x y hw => ?_⟩
    · have hi := ((mem_body_substPhi h.coherent).mp hi).1
      rw [inst_substPhi_of_mem h.coherent hi]
      exact k.typed (h.typed.inst c i hi)
    · rw [term_substPhi h.coherent] at hw
      rw [typeOf_substPhi]
      cases ht : f.term c with
      | brIf w' x' y' =>
        rw [ht] at hw
        cases hw
        exact k.typeOf_single.trans (h.typed.cond c w' _ _ ht)
      | _ =>
        rw [ht] at hw
        cases hw
  noMask c i hi := by
    have hi := ((mem_body_substPhi h.coherent).mp hi).1
    rw [inst_substPhi_of_mem h.coherent hi]
    show (f.inst i).mask.map _ = none
    rw [h.noMask c i hi]
    rfl
  nodup c := by
    rw [body_substPhi h.coherent]
    exact (h.nodup c).filter _
  phisFirst c i hi := by
    rw [(h.phis_substPhi (isPhi_of_mem_phis k.mem) v c).2] at hi
    rw [isPhi_substPhi]
    exact h.phisFirst c i hi
  uses c hc i hi hphi u hu := by
    have hi := ((mem_body_substPhi h.coherent).mp hi).1
    rw [isPhi_substPhi] at hphi
    have hnon : i ∈ f.nonPhis c := by
      rw [← f.phis_append_nonPhis c] at hi
      rcases List.mem_append.mp hi with hi | hi
      · rw [isPhi_of_mem_phis hi] at hphi
        cases hphi
      · exact hi
    rw [inst_substPhi_of_mem h.coherent hi, Instr.inputs_map] at hu
    obtain ⟨w, hw, rfl⟩ := List.mem_map.mp hu
    exact k.before_single h hnon (h.uses c hc i hi hphi w hw) fun e => e ▸ hw
  entries c hc psi hpsi e he hr := by
    rw [(h.phis_substPhi (isPhi_of_mem_phis k.mem) v c).1] at hpsi
    have hpsi := (List.mem_filter.mp hpsi).1
    rw [inst_substPhi_of_mem h.coherent (mem_body_of_mem_phis hpsi), incoming_map] at he
    obtain ⟨e', he', rfl⟩ := List.mem_map.mp he
    exact k.atEnd_single h (h.entries c hc psi hpsi e' he' hr)
  exit c hc u hu := by
    rw [term_substPhi h.coherent, Terminator.uses_map] at hu
    obtain ⟨w, hw, rfl⟩ := List.mem_map.mp hu
    exact k.atEnd_single h (h.exit c hc w hw)

/-- After one phi is replaced, another still can be. -/
theorem Replaceable.substPhi {psi : InstId} {w : Value} (h : g.Supports f) {late late' : InstId → Prop}
    (k : g.Replaceable f b phi v late) (k' : g.Replaceable f b psi w late') (hne : psi ≠ phi)
    (hw : w ≠ .inst phi) {late'' : InstId → Prop} (hlate : ∀ i ∈ f.nonPhis b, late'' i → late' i) :
    g.Replaceable (f.substPhi phi v) b psi w late'' where
  mem := by
    rw [(h.phis_substPhi (isPhi_of_mem_phis k.mem) v b).1]
    exact List.mem_filter.mpr ⟨k'.mem, bne_iff_ne.mpr hne⟩
  reachable := k'.reachable
  isTyped := k'.isTyped
  typeOf := by
    rw [typeOf_substPhi, ty_substPhi]
    exact k'.typeOf
  ne := k'.ne
  atEnd := h.atEnd_substPhi k'.atEnd hw
  before i hi hl := by
    rw [(h.phis_substPhi (isPhi_of_mem_phis k.mem) v b).2] at hi
    refine h.before_substPhi (k'.before i hi (hlate i hi hl)) hw ?_
    rintro rfl
    have := isPhi_of_mem_phis k.mem
    rw [h.phisFirst b i hi] at this
    cases this

end Func

end Lockstep
