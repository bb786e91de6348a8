import Lockstep.Proofs.Cfg.Acyclic
import Lockstep.Proofs.Func.WellFormed
import Lockstep.Proofs.Linear.ProgramOrder

/-!
# The chain of a branch in a graph without cycles

Without cycles every node of a chain is a single block (`Computed.get_eq_single`), and the order that the
chain is put in is one of blocks in which every edge goes forward (`Computed.exists_span`).
-/

namespace Lockstep

namespace Func

/-- The blocks between a branch and its join, in an order in which every edge goes forward. -/
structure Span (f : Func) (branch join : BlockId) (cs : List BlockId) : Prop where
  nodup : cs.Nodup
  mem : branch ∈ cs
  forward : ∀ pre b post, cs = pre ++ b :: post → ∀ c, f.Edge b c → c = join ∨ c ∈ post
  path : ∀ b ∈ cs, f.Path (· ∈ cs) branch b
  dominates : ∀ b ∈ cs, f.Dominates branch b
  join_not_mem : join ∉ cs
  reachable : f.Reachable branch
  exit : f.ReachesExit branch
  postDominates : f.PostDominates join branch

end Func

namespace Chain

/-- A block as a node. -/
def single (b : BlockId) : ChainNode := { entry := b, exit := b }

variable {f : Func} {v : VectorInfo} {branch join b : BlockId} {bs : List BlockId} {ns : Nodes}
  {l : List Nat} {n : Nat}

theorem eq_single {node : ChainNode} (hl : node.loop = none) (he : node.exit = node.entry) :
    node = single node.entry := by
  cases node
  cases hl
  cases he
  rfl

theorem covers_single {c : BlockId} : Covers (single b) c ↔ c = b := .rfl

namespace Computed

variable (h : Computed v f branch join bs ns l) (hc : f.Closed) (hf : f.Acyclic)

include h hc hf

/-- Without loops every node is a single block. -/
theorem get_eq_single (hn : n < ns.size) : ns.get n = single (ns.get n).entry := by
  rcases (h.isNode hn).single_or_loop with ⟨hl, hexit⟩ | ⟨k, hk, -⟩
  · exact eq_single hl hexit
  · rw [hf.loops_eq_nil hc] at hk
    cases hk

theorem covers_iff (hn : n < ns.size) : Covers (ns.get n) b ↔ b = (ns.get n).entry := by
  rw [h.get_eq_single hc hf hn]
  exact covers_single

theorem exists_entry (hb : b ∈ bs) : ∃ n ∈ l, (ns.get n).entry = b := by
  obtain ⟨n, hn, hcov⟩ := h.exists_node hb
  exact ⟨n, (mem_order h.order n).mpr hn, ((h.covers_iff hc hf hn).mp hcov).symm⟩

/-- The chain of a branch in a graph without cycles is a span. -/
theorem exists_span : ∃ cs, l.map ns.get = cs.map single ∧ f.Span branch join cs ∧
    ∀ b, ns.nodeOf.contains b = true ↔ b ∈ cs := by
  have hlt : ∀ {n}, n ∈ l → n < ns.size := fun hn => (mem_order h.order _).mp hn
  have hentry : ∀ {n}, n ∈ l → Covers (ns.get n) (ns.get n).entry := fun hn =>
    (h.isNode (hlt hn)).covers_entry
  have hmem : ∀ b, b ∈ l.map (fun n => (ns.get n).entry) ↔ b ∈ bs := by
    intro b
    rw [List.mem_map]
    constructor
    · rintro ⟨n, hn, rfl⟩
      exact (h.isNode (hlt hn)).1
    · exact fun hb => h.exists_entry hc hf hb
  obtain ⟨hr, -⟩ := Cfg.reachable_of_postDom_parent? hc h.parent
  have hpd := ((Cfg.postDominators_exact hc).2.2 branch join).mp h.parent
  refine ⟨l.map fun n => (ns.get n).entry, ?_, ?_, fun b => ?_⟩
  · rw [List.map_map]
    exact List.map_congr_left fun n hn => h.get_eq_single hc hf (hlt hn)
  · constructor
    case nodup =>
      refine (List.nodup_map_iff_inj_on (nodup_order h.order)).mpr fun m hm n hn e => ?_
      exact h.grouped.eq_of_covers (hlt hm) (hlt hn) (hentry hm) (e ▸ hentry hn)
    case mem =>
      obtain ⟨k, hk, e⟩ := h.exists_branchNode hc
      refine (hmem branch).mpr ?_
      have hbranch := (h.isNode hk).1
      rwa [e] at hbranch
    case forward =>
      intro pre b post e c hbc
      obtain ⟨pre', l', rfl, -, e'⟩ := List.map_eq_append_iff.mp e
      obtain ⟨n, post', rfl, rfl, rfl⟩ := List.map_eq_cons_iff.mp e'
      have hn : n ∈ pre' ++ n :: post' := by simp
      have hbs := (hmem _).mp (List.mem_map_of_mem hn)
      have hsucc := (Cfg.mem_succs hc).mpr ⟨h.reachable_of_mem hc hbs, hbc⟩
      refine (closed_of_blocks hc hr h.blocks _ hbs c hsucc).imp_right fun hcs => ?_
      obtain ⟨m, hm, rfl⟩ := h.exists_entry hc hf hcs
      have hne : n ≠ m := fun e => hf.ne_of_edge (h.reachable_of_mem hc hbs) hbc (by rw [e])
      have hidx := h.idxOf_lt_of_edge hc (hlt hn) (hlt hm) hne (hentry hn) (hentry hm) hbc
      obtain ⟨hpre, -⟩ := notMem_of_nodup_middle (nodup_order h.order)
      rcases List.mem_append.mp hm with hm | hm
      · rw [List.idxOf_append_of_notMem hpre, List.idxOf_append_of_mem hm] at hidx
        have := List.idxOf_lt_length_of_mem hm
        omega
      · exact List.mem_map_of_mem ((List.mem_cons.mp hm).resolve_left hne.symm)
    case path =>
      exact fun b hb => (h.path_of_mem hc ((hmem b).mp hb)).mono fun x hx => (hmem x).mpr hx
    case dominates => exact fun b hb => h.dominates_of_mem hc ((hmem b).mp hb)
    case join_not_mem => exact fun hj => h.join_notMem hc ((hmem join).mp hj)
    case reachable => exact hr
    case exit => exact hpd.1.2.1.2
    case postDominates => exact hpd.1.2.2
  · rw [hmem, Table.contains, Option.isSome_iff_exists]
    constructor
    · rintro ⟨n, hn⟩
      obtain ⟨hn, hcov⟩ := h.grouped.get?_iff.mp hn
      exact (h.isNode hn).mem_of_covers hcov
    · intro hb
      obtain ⟨n, hn, hcov⟩ := h.exists_node hb
      exact ⟨n, h.grouped.get?_iff.mpr ⟨hn, hcov⟩⟩

end Computed

end Chain

end Lockstep
