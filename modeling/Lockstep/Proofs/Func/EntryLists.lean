import Lockstep.Proofs.Func.Arranged
import Mathlib.Data.List.InsertIdx

/-!
# The entries of a phi as two lists

A phi may be kept as a list of predecessors and a list of operands, so that every change of its
entries updates the two by position. `EntryLists` has these updates. Each of them does to the lists
what the edit of a function does to the list of pairs (`EntryTable.Records`), and so it leaves no
predecessor without a value.
-/

namespace Lockstep

/-- The predecessors of a phi and its values. -/
structure EntryLists where
  preds : List BlockId := []
  values : List Value := []
  deriving DecidableEq, Repr, Inhabited

namespace EntryLists

/-- The two halves of a list of entries. -/
def ofPairs (incoming : List (BlockId × Value)) : EntryLists :=
  ⟨incoming.unzip.1, incoming.unzip.2⟩

/-- Replaces the value that stands where the predecessor does, or adds one to each list. -/
def set (l : EntryLists) (pred : BlockId) (v : Value) : EntryLists :=
  match l.preds.idxOf? pred with
  | some k => { l with values := l.values.set k v }
  | none => ⟨l.preds ++ [pred], l.values ++ [v]⟩

/-- Walks over the predecessors from position `k` on, and takes those that satisfy `p` out of both
lists; after a removal the next predecessor stands at the same position. -/
def removeFrom (p : BlockId → Bool) (l : EntryLists) (k : Nat) : EntryLists :=
  if h : k < l.preds.length then
    if p l.preds[k] then removeFrom p ⟨l.preds.eraseIdx k, l.values.eraseIdx k⟩ k
    else removeFrom p l (k + 1)
  else l
termination_by l.preds.length - k
decreasing_by
  · show (l.preds.eraseIdx k).length - k < _
    rw [List.length_eraseIdx_of_lt h]
    omega
  · omega

/-- Renames a predecessor. -/
def rename (l : EntryLists) (old new : BlockId) : EntryLists :=
  { l with preds := l.preds.map fun c => if c = old then new else c }

variable (incoming : List (BlockId × Value))

theorem length_ofPairs : (ofPairs incoming).preds.length = (ofPairs incoming).values.length := by
  rw [ofPairs, List.unzip_eq_map, List.length_map, List.length_map]

theorem zip_ofPairs : (ofPairs incoming).preds.zip (ofPairs incoming).values = incoming :=
  List.zip_unzip incoming

theorem values_ofPairs {d : Instr} (h : d.isPhi = true) :
    (ofPairs d.incoming).values = d.inputs := by
  obtain ⟨op, ty, mask, block⟩ := d
  cases op with
  | phi incoming => exact congrArg Prod.snd List.unzip_eq_map
  | apply code args => cases h

theorem ofPairs_cons (e : BlockId × Value) :
    ofPairs (e :: incoming) = ⟨e.1 :: (ofPairs incoming).preds, e.2 :: (ofPairs incoming).values⟩ :=
  rfl

theorem ofPairs_eraseIdx (k : Nat) : ofPairs (incoming.eraseIdx k) =
    ⟨(ofPairs incoming).preds.eraseIdx k, (ofPairs incoming).values.eraseIdx k⟩ := by
  simp only [ofPairs, List.unzip_eq_map, List.eraseIdx_map]

theorem set_ofPairs (pred : BlockId) (v : Value) :
    (ofPairs incoming).set pred v = ofPairs (Func.setEntry incoming pred v) := by
  induction incoming with
  | nil => rfl
  | cons e rest ih =>
    obtain ⟨c, w⟩ := e
    unfold set at ih ⊢
    rw [ofPairs_cons, List.idxOf?_cons, Func.setEntry]
    by_cases hc : c = pred
    · rw [if_pos (beq_iff_eq.mpr hc), if_pos hc]
      rfl
    · rw [if_neg (mt beq_iff_eq.mp hc), if_neg hc, ofPairs_cons, ← ih]
      cases (ofPairs rest).preds.idxOf? pred <;> rfl

/-- The walk from a position on is a filter on what comes from there. -/
theorem removeFrom_ofPairs (p : BlockId → Bool) (k : Nat) :
    (ofPairs incoming).removeFrom p k =
      ofPairs (incoming.take k ++ (incoming.drop k).filter fun e => !p e.1) := by
  generalize hl : ofPairs incoming = l
  fun_induction removeFrom p l k generalizing incoming with
  | case1 l k h hp ih =>
    -- the entry at `k` is gone, and what stood behind it has moved up
    subst hl
    have hk : k < incoming.length := by simpa [ofPairs] using h
    have hp' : p incoming[k].1 = true := by simpa [ofPairs] using hp
    have htake : (incoming.take k).length = k := List.length_take_of_le (Nat.le_of_lt hk)
    rw [ih (incoming.eraseIdx k) (ofPairs_eraseIdx incoming k), List.eraseIdx_eq_take_drop_succ,
      List.take_left' htake, List.drop_left' htake, List.drop_eq_getElem_cons hk,
      List.filter_cons_of_neg (by simp [hp'])]
  | case2 l k h hp ih =>
    subst hl
    have hk : k < incoming.length := by simpa [ofPairs] using h
    have hp' : p incoming[k].1 = false := by simpa [ofPairs] using hp
    rw [ih incoming rfl, List.take_succ_eq_append_getElem hk, List.drop_eq_getElem_cons hk,
      List.filter_cons_of_pos (by simp [hp']), List.append_assoc, List.singleton_append]
  | case3 l k h =>
    subst hl
    have hk : incoming.length ≤ k := by simpa [ofPairs] using h
    rw [List.take_of_length_le hk, List.drop_of_length_le hk, List.filter_nil, List.append_nil]

theorem rename_ofPairs (old new : BlockId) :
    (ofPairs incoming).rename old new = ofPairs (Func.renameEntry old new incoming) := by
  simp only [ofPairs, rename, Func.renameEntry, List.unzip_eq_map, List.map_map]
  rfl

end EntryLists

/-! ## The entry lists of a function -/

/-- The entry lists of all phis. What it has for other instructions does not count. -/
abbrev EntryTable := InstId → EntryLists

namespace EntryTable

/-- Changes the lists of one phi. -/
def modify (t : EntryTable) (phi : InstId) (g : EntryLists → EntryLists) : EntryTable :=
  Function.update t phi (g (t phi))

/-- Whether the lists are those of the phis of a function. -/
def Records (t : EntryTable) (f : Func) : Prop :=
  ∀ i, f.isPhi i = true → t i = .ofPairs (f.inst i).incoming

variable {t : EntryTable} {f : Func}

/-- A change of the entries of a phi, made on the lists. -/
theorem Records.modify (h : t.Records f) (phi : InstId) {G : EntryLists → EntryLists}
    {g : List (BlockId × Value) → List (BlockId × Value)}
    (hG : ∀ incoming, G (.ofPairs incoming) = .ofPairs (g incoming)) :
    (t.modify phi G).Records (f.modifyIncoming phi g) := by
  intro i hi
  rw [(f.refits_modifyIncoming phi g).isPhi] at hi
  rw [EntryTable.modify, Function.update_apply, Func.inst_modifyIncoming]
  by_cases e : i = phi
  · subst e
    rw [if_pos rfl, if_pos rfl, h i hi, hG, Func.incoming_mapIncoming hi]
  · rw [if_neg e, if_neg fun e' => e e'.symm]
    exact h i hi

/-- A new instruction that is no phi has no entries. -/
theorem Records.insertAt (h : t.Records f) (b : BlockId) (pos : Nat) {d : Instr}
    (hd : d.isPhi = false) : t.Records (f.insertAt b pos d).2 := by
  intro i hi
  rw [Func.isPhi_insertAt] at hi
  rw [Func.inst_insertAt]
  split at hi
  · rw [hd] at hi
    cases hi
  · rename_i hne
    rw [if_neg hne]
    exact h i hi

theorem Records.appendPhi (h : t.Records f) (b : BlockId) (ty : Ty)
    (incoming : List (BlockId × Value)) :
    Records (Function.update t f.insts.size (.ofPairs incoming))
      (f.appendPhi b ty incoming).2 := by
  intro i hi
  rw [Func.appendPhi, Func.isPhi_insertAt] at hi
  rw [Function.update_apply, Func.appendPhi, Func.inst_insertAt]
  split at hi
  · rename_i heq
    rw [if_pos heq, if_pos heq]
    rfl
  · rename_i hne
    rw [if_neg hne, if_neg hne]
    exact h i hi

theorem Records.setIncoming (h : t.Records f) (phi : InstId) (pred : BlockId) (v : Value) :
    Records (t.modify phi (·.set pred v)) (f.setIncoming phi pred v) :=
  h.modify phi fun incoming => EntryLists.set_ofPairs incoming pred v

theorem Records.removeIncoming (h : t.Records f) (phi : InstId) (p : BlockId → Bool) :
    Records (t.modify phi (·.removeFrom p 0)) (f.removeIncoming phi p).2 :=
  h.modify phi fun incoming => EntryLists.removeFrom_ofPairs incoming p 0

theorem Records.replacePhiPred (h : t.Records f) (b old new : BlockId) :
    Records ((f.phis b).foldl (fun t phi => t.modify phi (·.rename old new)) t)
      (f.replacePhiPred b old new) := by
  unfold Func.replacePhiPred
  generalize f.phis b = phis
  induction phis generalizing f t with
  | nil => exact h
  | cons phi phis ih =>
    exact ih (h.modify phi fun incoming => EntryLists.rename_ofPairs incoming old new)

theorem Records.setMask (h : t.Records f) (i : InstId) (mask : Option Value) :
    t.Records (f.setMask i mask) := by
  intro j hj
  obtain ⟨m, e⟩ := f.inst_setMask i j mask
  rw [(f.inPlace_setMask i mask).isPhi] at hj
  rw [e]
  exact h j hj

end EntryTable

end Lockstep
