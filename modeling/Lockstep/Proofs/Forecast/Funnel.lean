import Lockstep.Proofs.Forecast.MergePhis

/-!
# The phis of the join of a straightened branch

A phi of the join gets one way in for all the ways that lead through the chain of the branch: their values
are merged at the end of the chain. Where no other way is left, the merge stands in for the phi.
-/

namespace Lockstep

variable {ι : Type}

variable {D : Doings ι} {P P' : ι → List BlockId} {f : Func} {cs pre : List BlockId}
  {branch join b p last : BlockId} {mask v : Value} {ways ways' : InstId → Way ι} {K K' : Knowledge ι}
  {s s' s0 : Stage} {phi : InstId}

theorem Func.link_last (e : cs = pre ++ [last]) (join : BlockId) : (last, join) ∈ links cs join :=
  mem_links_iff.mpr (.inr ⟨pre, e, rfl⟩)

/-- A phi with a single operand has a single entry. -/
theorem Func.exists_incoming_eq {f : Func} (hphi : f.isPhi phi = true) (hin : (f.inst phi).inputs = [v]) :
    ∃ p, (f.inst phi).incoming = [(p, v)] := by
  unfold Func.isPhi Instr.isPhi at hphi
  unfold Instr.inputs at hin
  unfold Instr.incoming
  cases hop : (f.inst phi).op with
  | apply code args =>
    rw [hop] at hphi
    cases hphi
  | phi entries =>
    rw [hop] at hin
    obtain ⟨x, rfl, hx⟩ := List.map_eq_singleton_iff.mp hin
    exact ⟨x.1, by rw [← hx]⟩

namespace Func.Bypass

variable (hf : f.Bypass D P cs branch join)

include hf

/-- Every block of the chain dominates its last one. -/
theorem dominates_last (e : cs = pre ++ [last]) (hb : b ∈ cs) : (f.reroute cs join).Dominates b last := by
  rw [e] at hb
  rcases List.mem_append.mp hb with hb | hb
  · obtain ⟨xs, ys, rfl⟩ := List.append_of_mem hb
    have e' : cs = xs ++ b :: (ys ++ [last]) := by rw [e]; simp
    exact hf.span.dominates_after hf.closed hf.acyclic e' (by simp)
  · obtain rfl := List.mem_singleton.mp hb
    exact .refl _ _

/-- Into blocks other than the join and those after the branch lead the same edges. -/
theorem edge_into (hb : b ∈ cs → b = branch) (hne : b ≠ join) :
    ((f.reroute cs join).Edge p b ↔ f.Edge p b) ∧ (f.Edge p b → p ∉ cs) := by
  have hout : f.Edge p b → p ∉ cs := by
    intro hpb hp
    obtain ⟨pre, post, e⟩ := List.append_of_mem hp
    have hpost := (hf.span.forward pre p post e b hpb).resolve_left hne
    exact hf.span.ne_branch_of_mem_post e hpost (hb (by rw [e]; simp [hpost]))
  refine ⟨?_, hout⟩
  rw [hf.span.edge_reroute hf.closed]
  refine ⟨fun h => h.elim (fun hl => ?_) And.right, fun h => .inr ⟨hout h, h⟩⟩
  rcases Func.mem_links_iff.mp hl with ⟨pre, post, e⟩ | ⟨-, -, e⟩
  · have e' : cs = pre ++ p :: (b :: post) := e
    exact absurd (hb (by rw [e]; simp)) (hf.span.ne_branch_of_mem_post e' List.mem_cons_self)
  · exact absurd e hne

/-- Of the blocks of the chain only the last leads to the join in the end. -/
theorem edge_join (e : cs = pre ++ [last]) :
    (f.reroute cs join).Edge p join ↔ p = last ∨ p ∉ cs ∧ f.Edge p join := by
  rw [hf.span.edge_reroute hf.closed]
  refine or_congr_left ⟨fun h => ?_, fun h => h ▸ link_last e join⟩
  rcases mem_links_iff.mp h with ⟨xs, ys, hxy⟩ | ⟨xs, hx, -⟩
  · exact absurd (by rw [hxy]; simp) hf.span.join_not_mem
  · rw [e] at hx
    exact ((List.append_inj' hx rfl).2 ▸ List.mem_singleton_self p : p ∈ [last]) |> List.mem_singleton.mp

/-- Some block of the chain leads to the join. -/
theorem exists_edge_join : ∃ p ∈ cs, f.Reachable p ∧ f.Edge p join := by
  obtain ⟨p, hp, hpj⟩ : ∃ p, f.Path (· ∈ cs) branch p ∧ p ∈ cs ∧ f.Edge p join := by
    rcases Relation.ReflTransGen.cases_tail hf.span.path_join with h | ⟨p, hp, hpj⟩
    · exact absurd (h ▸ hf.span.mem) hf.span.join_not_mem
    · exact ⟨p, hp, hpj⟩
  exact ⟨p, hpj.1, hf.span.reachable_of_mem hpj.1, hpj.2⟩

/-- A lane that comes to the branch takes an edge from the chain to the join. -/
theorem exists_taken_join {l : ι} (hb : branch ∈ P l) :
    ∃ p ∈ cs, f.Reachable p ∧ f.Edge p join ∧ [p, join] <:+: P l := by
  obtain ⟨A, B, C, hp⟩ := hf.span.exists_passage hf.closed hf.acyclic (hf.course l) hb
  rcases List.eq_nil_or_concat B with rfl | ⟨B, p, rfl⟩
  · cases hp.head
  · have hpair : [p, join] <:+: P l := ⟨A ++ B, C, by rw [hp.eq]; simp⟩
    exact ⟨p, hp.along p (by simp), (hf.course l).reachable (mem_of_pair hpair).1,
      (hf.course l).edge hpair, hpair⟩

theorem join_ne_entry : join ≠ f.entry := fun e => hf.span.entry_ne_join hf.closed hf.acyclic e.symm

theorem reachable_join : (f.reroute cs join).Reachable join :=
  hf.reachable_iff.mpr (hf.span.reachable.reaches hf.span.reaches_join)

end Func.Bypass

/-! ## Ways from outside the chain -/

/-- The ways into a block that do not come from a chain. -/
def Way.outside (w : Way ι) (cs : List BlockId) : Way ι := { w with pred := fun p => w.pred p ∧ p ∉ cs }

variable {gone : BlockId → Bool}

theorem Knowledge.Enters.outside {R : BlockId → Prop} {w : Way ι} {es : List (BlockId × Value)}
    (h : K.Enters R w phi es) (hgone : ∀ x, gone x = true ↔ x ∈ cs) :
    K.Enters R (w.outside cs) phi (es.filter fun x => !gone x.1) := by
  have hmem : ∀ x, x ∈ es.filter (fun x => !gone x.1) ↔ x ∈ es ∧ x.1 ∉ cs := fun x => by
    rw [List.mem_filter, Bool.not_eq_true', ← Bool.not_eq_true, hgone]
  refine ⟨h.nodup.sublist ((List.filter_sublist).map _),
    fun x hx => ⟨h.pred x ((hmem x).mp hx).1, ((hmem x).mp hx).2⟩, fun p hp hpred => ?_,
    fun l x hx => h.taken l x ((hmem x).mp hx).1, fun l hl x hx => h.away l hl x ((hmem x).mp hx).1⟩
  obtain ⟨x, hx, rfl⟩ := List.mem_map.mp (h.complete p hp hpred.1)
  exact List.mem_map_of_mem ((hmem x).mpr ⟨hx, hpred.2⟩)

theorem Doings.Runs.removeIncoming {g h : Func} (hr : D.Runs g ways K h) (hphi : h.isPhi phi = true)
    (hgone : ∀ x, gone x = true ↔ x ∈ cs) :
    D.Runs g (Function.update ways phi ((ways phi).outside cs)) K (h.removeIncoming phi gone).2 := by
  refine hr.modifyIncoming hphi (fun x hx => .inl (List.mem_filter.mp hx).1)
    (fun i hi => Function.update_of_ne hi _ _) fun c hc hmem => ?_
  rw [Function.update_self]
  exact (hr.phis c hc phi hmem).outside hgone

/-- A value that stands in for all that comes along the chain comes from its last block. -/
theorem Func.Bypass.enters_join (hf : f.Bypass D P cs branch join) (hcs : cs = pre ++ [last])
    (hP : ∀ l, f.Detour cs branch join (P l) (P' l)) {es : List (BlockId × Value)}
    (h : K.Enters (f.reroute cs join).Reachable ((f.way P join).outside cs) phi es)
    (hv : ∀ l x, K.inst l phi x → branch ∈ P l ∨ join ∉ P l → K.Knows l v x) :
    K.Enters (f.reroute cs join).Reachable ((f.reroute cs join).way P' join) phi
      (setEntry es last v) := by
  have hkeep : last ∉ es.map Prod.fst := by
    intro hmem
    obtain ⟨x, hx, rfl⟩ := List.mem_map.mp hmem
    exact (h.pred x hx).2 (hcs ▸ by simp)
  have hset := setEntry_of_not_mem hkeep v
  refine ⟨?_, fun x hx => ?_, fun p hp hpred => ?_, fun l x hx ht w hw => ?_, fun l hl x hx w hw => ?_⟩
  · rw [hset, List.map_append]
    exact h.nodup.append (List.nodup_singleton _) (List.disjoint_singleton.mpr hkeep)
  · rcases mem_setEntry hx with hx | rfl
    · exact (hf.edge_join hcs).mpr (.inr ⟨(h.pred x hx).2, (h.pred x hx).1⟩)
    · exact (hf.edge_join hcs).mpr (.inl rfl)
  · rw [hset, List.map_append]
    rcases (hf.edge_join hcs).mp hpred with rfl | ⟨hpcs, hpj⟩
    · exact List.mem_append_right _ (List.mem_singleton_self _)
    · exact List.mem_append_left _ (h.complete p hp ⟨hpj, hpcs⟩)
  · rcases mem_setEntry hx with hx | rfl
    · exact h.taken l x hx (((hP l).edge x.1 join (h.pred x hx).2).mp ht) w hw
    · exact hv l w hw (.inl (((hP l).link last join (link_last hcs join)).mp ht))
  · have hl : join ∉ P l := fun hmem => hl (((hP l).outside join hf.span.join_not_mem).mpr hmem)
    rcases mem_setEntry hx with hx | rfl
    · exact h.away l hl x hx w hw
    · exact hv l w hw (.inr hl)

namespace Stage

/-! ## The phis of the join -/

theorem Bypassing.modifyIncoming (h : s.Bypassing D P f cs branch join mask ways K) {G}
    (hr : D.Runs (f.reroute cs join) ways' K (s.func.modifyIncoming phi G)) :
    ({ s with func := s.func.modifyIncoming phi G } : Stage).Bypassing D P f cs branch join mask
      ways' K where
  foretold := h.foretold.modifyIncoming hr
  follows := h.follows.trans (.refl _)
  mask := h.mask
  marked := h.marked

/-- A stage while the phis of the join get one way in: those of `rest` are to come. -/
structure Converging (D : Doings ι) (P P' : ι → List BlockId) (f : Func) (cs : List BlockId)
    (branch join : BlockId) (mask : Value) (s0 : Stage) (ways0 : InstId → Way ι) (rest : List InstId)
    (ways : InstId → Way ι) (K : Knowledge ι) (s : Stage) : Prop where
  bypassing : s.Bypassing D P f cs branch join mask ways K
  todo : ∀ phi ∈ rest, phi ∈ s.func.phis join ∧ ways phi = f.way P join
  done : ∀ phi ∈ s.func.phis join, phi ∉ rest → ways phi = (f.reroute cs join).way P' join
  other : ∀ c, c ≠ join → ∀ phi ∈ s.func.phis c, ways phi = ways0 phi
  old : ∀ c phi, phi ∈ s.func.phis c → phi ∈ s0.func.phis c
  nodup : rest.Nodup

variable {ways0 : InstId → Way ι} {rest : List InstId}

/-- Some value comes to a phi of the join along the chain. -/
theorem Converging.removed_ne_nil (hf : f.Bypass D P cs branch join)
    (hgone : ∀ x, gone x = true ↔ x ∈ cs)
    (h : Converging D P P' f cs branch join mask s0 ways0 (phi :: rest) ways K s) :
    (s.func.removeIncoming phi gone).1 ≠ [] := by
  obtain ⟨hphi, hway⟩ := h.todo phi List.mem_cons_self
  have henter := h.bypassing.foretold.runs.phis join hf.reachable_join phi hphi
  rw [hway] at henter
  obtain ⟨p, hp, hpr, hpj⟩ := hf.exists_edge_join
  obtain ⟨x, hx, rfl⟩ := List.mem_map.mp (henter.complete p (hf.reachable_iff.mpr hpr) hpj)
  exact List.ne_nil_of_mem (List.mem_filter.mpr ⟨hx, (hgone x.1).mpr hp⟩)

/-- The values that come to a phi of the join along the chain are merged at the end of the chain. -/
theorem Bypassing.exists_merged {next : InsertPoint} {s1 s2 : Stage} (hf : f.Bypass D P cs branch join)
    (hcs : cs = pre ++ [last]) (hgone : ∀ x, gone x = true ↔ x ∈ cs)
    (h : s.Bypassing D P f cs branch join mask ways K) (hphi : phi ∈ s.func.phis join)
    (hway : ways phi = f.way P join) (hne : (s.func.removeIncoming phi gone).1 ≠ [])
    (h1 : s1 = { s with func := (s.func.removeIncoming phi gone).2 })
    (e : mergeIncoming (.blockEnd last) (s.func.removeIncoming phi gone).1 join s1 = (.ok (v, next), s2)) :
    ∃ K', s2.Bypassing D P f cs branch join mask (Function.update ways phi ((f.way P join).outside cs)) K' ∧
      s2.func.inst phi = (s.func.removeIncoming phi gone).2.inst phi ∧
      (∀ c psi, psi ∈ s2.func.phis c ↔ psi ∈ s.func.phis c) ∧
      Entry (f.reroute cs join) s2.func (s.func.inst phi).ty (last, v) ∧
      ∀ l x, K'.inst l phi x → branch ∈ P l ∨ join ∉ P l → K'.Knows l v x := by
  have hlast : last ∈ cs := by
    rw [hcs]
    simp
  have hcode := h.foretold.runs.code
  have henter := h.foretold.runs.phis join hf.reachable_join phi hphi
  rw [hway] at henter
  have hes : ∀ x, x ∈ (s.func.removeIncoming phi gone).1 ↔ x ∈ (s.func.inst phi).incoming ∧ x.1 ∈ cs :=
    fun x => by rw [Func.removeIncoming, List.mem_filter, hgone]
  -- the stage without the values that come along the chain
  have hb1 : s1.Bypassing D P f cs branch join mask
      (Function.update ways phi ((f.way P join).outside cs)) K := by
    rw [h1, ← hway]
    exact h.modifyIncoming (h.foretold.runs.removeIncoming (Func.isPhi_of_mem_phis hphi) hgone)
  have hfore1 := hb1.foretold
  have hcode1 := hfore1.runs.code
  have hphis1 : ∀ c, s1.func.phis c = s.func.phis c := by
    rw [h1]
    exact (Func.refits_modifyIncoming s.func phi _).phis
  have hentry : ∀ x ∈ (s.func.removeIncoming phi gone).1,
      Entry (f.reroute cs join) s1.func (s.func.inst phi).ty x := by
    intro x hx
    have k := entry_of_mem hcode hf.reachable_join hphi ((hes x).mp hx).1
    rw [h1]
    exact ⟨k.isTyped, (congrFun (Func.typeOf_modifyIncoming s.func phi _) x.2).trans k.typeOf, k.atEnd⟩
  have hlt : last < s1.func.blocks.size := by
    rw [hfore1.blocks, ← hf.blocks]
    exact (hf.span.reachable_of_mem hlast).lt hf.closed
  -- the merge at the end of the chain
  obtain ⟨d2, hat, hgood, hlater, husable, hmade, hfore2, hk⟩ := exists_merge
    (d := ⟨s1.func, K, (s1.func.body last).length⟩) (S := fun _ => True) hf.coherent hfore1
    ⟨rfl, rfl, .inl rfl⟩ ⟨hfore1.runs, Func.isSlot_end hlt, fun _ _ => trivial⟩
    (isPlain_of_mem_phis hcode hphi) hentry hne
    (fun x hx => hb1.edge.mpr (henter.pred x ((hes x).mp hx).1))
    (fun x hx _ u hu => ⟨(hu.of_dominates (hf.dominates_last hcs ((hes x).mp hx).2)).readyAt, trivial⟩) e
  have hfunc : s2.func = d2.func := hat.func
  have hphilt : phi < s1.func.insts.size :=
    hcode1.coherent.body_lt join phi (Func.mem_body_of_mem_phis (hphis1 join ▸ hphi))
  refine ⟨d2.known, hb1.widen hmade (hfunc ▸ hlater.widens) hfore2, ?_, fun c psi => ?_,
    ⟨husable.isTyped, hfunc ▸ husable.typeOf, fun _ => hfunc ▸ husable.ready.atEnd⟩, fun l x hx hl => ?_⟩
  · rw [hfunc, hlater.widens.inst phi hphilt, h1]
  · rw [hfunc, hlater.mem_phis_iff hcode1 hgood.runs.code]
    exact hphis1 c ▸ .rfl
  · have hx := (hlater.extends_.inst l phi hphilt x).mp hx
    refine hk l x (fun y hy hty => henter.taken l y ((hes y).mp hy).1 hty x hx) ?_
    rcases hl with hbranch | haway
    · obtain ⟨p, hp, hpr, hpj, hpair⟩ := hf.exists_taken_join hbranch
      obtain ⟨y, hy, rfl⟩ := List.mem_map.mp (henter.complete p (hf.reachable_iff.mpr hpr) hpj)
      exact .inl ⟨y, (hes y).mpr ⟨hy, hp⟩, hpair⟩
    · exact .inr fun y hy => henter.away l haway y ((hes y).mp hy).1 x hx

/-- The merge of the values that come to a phi of the join along the chain becomes the one value that comes
from the end of the chain. -/
theorem Converging.funnel {next : InsertPoint} {s1 s2 : Stage} (hf : f.Bypass D P cs branch join)
    (hcs : cs = pre ++ [last]) (hP : ∀ l, f.Detour cs branch join (P l) (P' l))
    (hgone : ∀ x, gone x = true ↔ x ∈ cs)
    (h : Converging D P P' f cs branch join mask s0 ways0 (phi :: rest) ways K s)
    (h1 : s1 = { s with func := (s.func.removeIncoming phi gone).2 })
    (e : mergeIncoming (.blockEnd last) (s.func.removeIncoming phi gone).1 join s1 = (.ok (v, next), s2)) :
    ∃ ways' K', Converging D P P' f cs branch join mask s0 ways0 rest ways' K'
      { s2 with func := s2.func.setIncoming phi last v } ∧
      phi ∈ (s2.func.setIncoming phi last v).phis join := by
  obtain ⟨hphi, hway⟩ := h.todo phi List.mem_cons_self
  obtain ⟨hnot, hnodup⟩ := List.nodup_cons.mp h.nodup
  have hisPhi := Func.isPhi_of_mem_phis hphi
  have hcode := h.bypassing.foretold.runs.code
  obtain ⟨K', hb2, hinst, hmem, hentry, hv⟩ := h.bypassing.exists_merged hf hcs hgone hphi hway
    (h.removed_ne_nil hf hgone) h1 e
  have hphi2 := (hmem join phi).mpr hphi
  have henter := hb2.foretold.runs.phis join hf.reachable_join phi hphi2
  rw [Function.update_self] at henter
  have hty : (s2.func.inst phi).ty = (s.func.inst phi).ty := by
    rw [hinst, Func.removeIncoming, Func.inst_modifyIncoming, if_pos rfl, Func.ty_mapIncoming]
  have hlr : (f.reroute cs join).Reachable last :=
    hf.reachable_iff.mpr (hf.span.reachable_of_mem (hcs ▸ by simp))
  have hruns : D.Runs (f.reroute cs join) (Function.update ways phi ((f.reroute cs join).way P' join)) K'
      (s2.func.setIncoming phi last v) := by
    refine hb2.foretold.runs.modifyIncoming (Func.isPhi_of_mem_phis hphi2) (fun x hx => ?_)
      (fun i hi => by rw [Function.update_of_ne hi, Function.update_of_ne hi]) fun c _ _ => ?_
    · refine (Func.mem_setEntry hx).imp_right fun hx => ?_
      subst hx
      exact ⟨hentry.isTyped, hentry.typeOf.trans hty.symm, hentry.atEnd hlr⟩
    · rw [Function.update_self]
      exact hf.enters_join hcs hP henter hv
  have hmem3 : ∀ c psi, psi ∈ (s2.func.setIncoming phi last v).phis c ↔ psi ∈ s.func.phis c := by
    intro c psi
    rw [← hmem c psi, Func.setIncoming, (Func.refits_modifyIncoming s2.func phi _).phis]
  refine ⟨_, K', ⟨hb2.modifyIncoming hruns, fun psi hpsi => ?_, fun psi hpsi hnr => ?_,
    fun c hc psi hpsi => ?_, fun c psi hpsi => h.old c psi ((hmem3 c psi).mp hpsi), hnodup⟩,
    (hmem3 join phi).mpr hphi⟩
  · obtain ⟨k1, k2⟩ := h.todo psi (List.mem_cons_of_mem _ hpsi)
    have hpe : psi ≠ phi := fun e => hnot (e ▸ hpsi)
    exact ⟨(hmem3 join psi).mpr k1, (Function.update_of_ne hpe _ _).trans k2⟩
  · by_cases hpe : psi = phi
    · subst hpe
      exact Function.update_self _ _ _
    · rw [Function.update_of_ne hpe]
      exact h.done psi ((hmem3 join psi).mp hpsi) fun hm => hnr ((List.mem_cons.mp hm).resolve_left hpe)
  · have hm := (hmem3 c psi).mp hpsi
    have hpe : psi ≠ phi := by
      rintro rfl
      exact hc (hcode.coherent.eq_of_mem_body (Func.mem_body_of_mem_phis hm)
        (Func.mem_body_of_mem_phis hphi))
    rw [Function.update_of_ne hpe]
    exact h.other c hc psi hm

/-- A phi of the join with a single way in is replaced by the value that comes along it. -/
theorem Converging.drop (hf : f.Bypass D P cs branch join) (hcs : cs = pre ++ [last])
    (hP : ∀ l, f.Detour cs branch join (P l) (P' l))
    (h : Converging D P P' f cs branch join mask s0 ways0 rest ways K s)
    (hphi : phi ∈ s.func.phis join) (hnot : phi ∉ rest) (hin : (s.func.inst phi).inputs = [v]) :
    Converging D P P' f cs branch join mask s0 ways0 rest ways K (s.replaced phi v) := by
  have hlast : last ∈ cs := by
    rw [hcs]
    simp
  have hlr : (f.reroute cs join).Reachable last := hf.reachable_iff.mpr (hf.span.reachable_of_mem hlast)
  have hcode := h.bypassing.foretold.runs.code
  have henter := h.bypassing.foretold.runs.phis join hf.reachable_join phi hphi
  rw [h.done phi hphi hnot] at henter
  obtain ⟨p, hincoming⟩ := Func.exists_incoming_eq (Func.isPhi_of_mem_phis hphi) hin
  have hp : p = last := by
    have := henter.complete last hlr ((hf.edge_join hcs).mpr (.inl rfl))
    rw [hincoming] at this
    exact (List.mem_singleton.mp this).symm
  subst hp
  have hpreds : ∀ q, f.Reachable q → f.Edge q join → q ∈ cs := by
    intro q hq hqj
    by_contra hqcs
    have := henter.complete q (hf.reachable_iff.mpr hq) ((hf.edge_join hcs).mpr (.inr ⟨hqcs, hqj⟩))
    rw [hincoming] at this
    exact hqcs (List.mem_singleton.mp this ▸ hlast)
  have hmem : (p, v) ∈ (s.func.inst phi).incoming := by
    rw [hincoming]
    exact List.mem_singleton_self _
  have k := entry_of_mem hcode hf.reachable_join hphi hmem
  have habove := (k.atEnd hlr).fromAbove hlr
    (hf.span.dominates_join hf.closed hf.acyclic hcs hpreds) (hf.span.ne_join hlast)
  have hrep : (f.reroute cs join).Replaceable s.func join phi v (s.sees phi) := by
    refine ⟨hphi, hf.reachable_join, k.isTyped, k.typeOf, ?_, habove.atEnd, fun i _ _ => habove.before i⟩
    rintro rfl
    obtain ⟨c, hc, hcm, -⟩ := habove
    exact hc ((hcode.coherent.placed c phi hcm).symm.trans
      (hcode.coherent.placed join phi (Func.mem_body_of_mem_phis hphi)))
  have href : K.Refines (.inst phi) v := by
    intro l x hx
    by_cases hvisit : join ∈ P' l
    · obtain ⟨q, hq⟩ := exists_pair hvisit (by
        rw [(hP l).course.start]
        exact fun e => hf.join_ne_entry (Option.some.inj e).symm)
      have hqr := (hP l).course.reachable (mem_of_pair hq).1
      have hkey := henter.complete q hqr ((hP l).course.edge hq)
      rw [hincoming] at hkey
      obtain rfl : q = p := List.mem_singleton.mp hkey
      exact henter.taken l (q, v) hmem hq x hx
    · exact henter.away l hvisit (p, v) hmem x hx
  have hphis := fun c => (hcode.phis_substPhi (Func.isPhi_of_mem_phis hphi) v c).1
  have hold : ∀ c psi, psi ∈ (s.replaced phi v).func.phis c → psi ∈ s.func.phis c ∧ psi ≠ phi := by
    intro c psi hpsi
    have hpsi : psi ∈ (s.func.phis c).filter (· != phi) := hphis c ▸ hpsi
    exact ⟨(List.mem_filter.mp hpsi).1, bne_iff_ne.mp (List.mem_filter.mp hpsi).2⟩
  refine ⟨h.bypassing.replaced hf (.inr rfl) hrep href, fun psi hpsi => ?_,
    fun psi hpsi hnr => h.done psi (hold join psi hpsi).1 hnr,
    fun c hc psi hpsi => h.other c hc psi (hold c psi hpsi).1,
    fun c psi hpsi => h.old c psi (hold c psi hpsi).1, h.nodup⟩
  obtain ⟨k1, k2⟩ := h.todo psi hpsi
  refine ⟨?_, k2⟩
  rw [show (s.replaced phi v).func.phis join = _ from hphis join]
  refine List.mem_filter.mpr ⟨k1, bne_iff_ne.mpr ?_⟩
  rintro rfl
  exact hnot hpsi

theorem dropSinglePhi_eq_ok (e : dropSinglePhi phi s = (.ok (), s')) :
    (∃ v, (s.func.inst phi).inputs = [v] ∧ s' = s.replaced phi v) ∨ s' = s := by
  unfold dropSinglePhi at e
  obtain ⟨t, s1, h1, e⟩ := exists_of_bind_run_eq_ok e
  cases h1
  rcases hin : (s.func.inst phi).inputs with _ | ⟨v, _ | ⟨w, rest⟩⟩
  · rw [hin] at e
    cases e
    exact .inr rfl
  · rw [hin] at e
    have hrun : (liftM (replacePhi phi v) : StageM Unit) s = (.ok (), s.replaced phi v) := by
      show (Except.ok (replacePhi phi v s).1, (replacePhi phi v s).2) = _
      rw [replacePhi_apply]
    cases hrun.symm.trans e
    exact .inl ⟨v, rfl, rfl⟩
  · rw [hin] at e
    cases e
    exact .inr rfl

/-- All phis of the join get one way in. -/
theorem funnelPhis_spec {K0 : Knowledge ι} (hf : f.Bypass D P cs branch join)
    (hcs : cs = pre ++ [last]) (hP : ∀ l, f.Detour cs branch join (P l) (P' l))
    (hgone : ∀ x, gone x = true ↔ x ∈ cs) (h0 : s0.Bypassing D P f cs branch join mask ways0 K0)
    (hways : ∀ phi ∈ s0.func.phis join, ways0 phi = f.way P join)
    (e : funnelPhis join last gone false dropSinglePhi s0 = (.ok (), s')) :
    ∃ ways K, Converging D P P' f cs branch join mask s0 ways0 [] ways K s' := by
  have hcode0 := h0.foretold.runs.code
  have hstart : Converging D P P' f cs branch join mask s0 ways0 (s0.func.phis join) ways0 K0 s0 :=
    ⟨h0, fun phi hphi => ⟨hphi, hways phi hphi⟩, fun phi hphi hn => absurd hphi hn, fun _ _ _ _ => rfl,
      fun _ _ h => h, (hcode0.nodup join).sublist
        ((s0.func.phis_append_nonPhis join) ▸ List.sublist_append_left _ _)⟩
  have htriple : TripleOk (· = s0) (funnelPhis join last gone false dropSinglePhi) fun _ s' =>
      ∃ ways K, Converging D P P' f cs branch join mask s0 ways0 [] ways K s' := by
    unfold funnelPhis
    refine TripleOk.bind TripleOk.get fun t => ?_
    refine TripleOk.bind (R := fun _ s => ∃ ways K,
      Converging D P P' f cs branch join mask s0 ways0 [] ways K s) ?_ fun _ => TripleOk.pure fun s hs => hs
    refine (TripleOk.forIn (J := fun rest s => ∃ ways K,
      Converging D P P' f cs branch join mask s0 ways0 rest ways K s) (t.func.phis join) ?_).mono ?_
      fun _ s hs => hs
    · rintro phi rest - s r s' ⟨ways, K, h⟩ e
      obtain ⟨u, s1, h1, e⟩ := exists_of_bind_run_eq_ok e
      cases h1
      obtain ⟨_, s1, h1, e⟩ := exists_of_bind_run_eq_ok e
      cases h1
      have hne := h.removed_ne_nil hf hgone
      have hcond : (false || !((s.func.inst phi).incoming.filter fun e => gone e.1).isEmpty) = true := by
        simpa [Func.removeIncoming] using hne
      rw [if_pos hcond] at e
      obtain ⟨⟨v, next⟩, s2, h2, e⟩ := exists_of_bind_run_eq_ok e
      obtain ⟨_, s3, h3, e⟩ := exists_of_bind_run_eq_ok e
      cases h3
      obtain ⟨ways', K', h', hphi⟩ := h.funnel hf hcs hP hgone rfl h2
      obtain ⟨_, s4, h4, e⟩ := exists_of_bind_run_eq_ok e
      cases e
      refine ⟨rfl, ways', K', ?_⟩
      rcases dropSinglePhi_eq_ok h4 with ⟨w, hw, rfl⟩ | rfl
      · exact h'.drop hf hcs hP hphi (List.nodup_cons.mp h.nodup).1 hw
      · exact h'
    · rintro s ⟨rfl, rfl⟩
      exact ⟨ways0, K0, hstart⟩
  exact htriple s0 () s' rfl e

end Stage

end Lockstep
