import Lockstep.Proofs.Func.Placed
import Lockstep.Proofs.Func.WellFormed
import Lockstep.Vector.Marker
import Mathlib.Data.List.Pairwise

/-!
# Functions without their marker calls

A lowering collects the marker calls of a function, and then replaces them one after the other. A
`Replacement` records which value stands for a value, and which code for an instruction. A call is
replaced by its first operand and by no code, or, if it is a ballot, by a conversion of the operand.
The operand may be another call, which has been replaced before or will be later; every step
replaces in what the steps before have put in the place of the function's values
(`Lowered.replace`). By induction on the calls the function is at last lowered with none left
(`Markers.exists_lowered`).
-/

namespace Lockstep

/-! ## One instruction replaced -/

theorem flatMap_ite_of_notMem {α : Type} [DecidableEq α] {l : List α} {a : α} (new : List α)
    (h : a ∉ l) : (l.flatMap fun x => if x = a then new else [x]) = l := by
  induction l with
  | nil => rfl
  | cons x l ih =>
    rw [List.mem_cons, not_or] at h
    rw [List.flatMap_cons, ih h.2, if_neg (Ne.symm h.1)]
    rfl

theorem filter_ne_eq_flatMap {α : Type} [DecidableEq α] (l : List α) (a : α) :
    l.filter (· != a) = l.flatMap fun x => if x = a then [] else [x] := by
  induction l with
  | nil => rfl
  | cons x l ih => by_cases h : x = a <;> simp [h, ih]

namespace Func

/-- In `g` there is some code in the place of an instruction of `f`, and a value in the place of
what the instruction computes. -/
structure Replaces (f : Func) (c : InstId) (code : List InstId) (v : Value) (g : Func) : Prop where
  coherent : g.Coherent
  once : g.ListsOnce
  params : g.params = f.params
  size : f.insts.size ≤ g.insts.size
  ty : ∀ i < f.insts.size, (g.inst i).ty = (f.inst i).ty
  term : ∀ b, g.term b = (f.term b).map id (Substitution.single (.inst c) v).value
  body : ∀ b, g.body b = (f.body b).flatMap fun i => if i = c then code else [i]
  inst : ∀ b, ∀ i ∈ f.body b, i ≠ c →
    g.inst i = (f.inst i).map id (Substitution.single (.inst c) v).value

variable {f : Func} {b : BlockId} {c : InstId} {v : Value}

theorem Replaces.typeOf {g : Func} {code : List InstId} (h : f.Replaces c code v g) {x : Value}
    (hx : f.Defines x) : g.typeOf x = f.typeOf x := by
  cases x with
  | const _ => rfl
  | param k =>
    show g.params[k]?.getD .void = f.params[k]?.getD .void
    rw [h.params]
  | inst i => exact h.ty i hx

/-- An instruction is taken out, and a value stands for what it computes. -/
theorem replaces_detach (hf : f.Coherent) (ho : f.ListsOnce) (hc : c ∈ f.body b)
    (hv : f.Defines v) : f.Replaces c [] v ((f.replaceAllUses (.inst c) v).detach c) := by
  have hs := Substitution.single_idempotent (.inst c) v
  have hrefits : f.Refits (f.replaceAllUses (.inst c) v) := refits_substUsers f hs _
  have hblock := f.block_substUsers hs f.users
  exact {
    coherent := (hf.replaceUses hv _).detach c
    once := (ho.refits hrefits hblock).detach c
    params := hrefits.params
    size := hrefits.size_insts.ge
    ty := fun i _ => hrefits.ty i
    term := fun x => (term_detach ..).trans (hf.term_replaceAllUses _ _ x)
    body := fun x => by
      rw [body_detach, hrefits.body, ← filter_ne_eq_flatMap]
      split
      · rfl
      · rename_i hx
        refine (List.filter_eq_self.mpr fun i hi => bne_iff_ne.mpr ?_).symm
        rintro rfl
        exact hx ((hblock i).trans (hf.placed x i hi))
    inst := fun x i hi _ => hf.inst_replaceAllUses _ _ hi }

/-- What is inserted before an instruction stands with it in its place. -/
theorem Coherent.body_insertAt_before (hf : f.Coherent) (ho : f.ListsOnce) {pre post : List InstId}
    (hbody : f.body b = pre ++ c :: post) (d : Instr) (x : BlockId) :
    (f.insertAt b pre.length d).2.body x =
      (f.body x).flatMap fun i => if i = c then [f.insts.size, c] else [i] := by
  have hc : c ∈ f.body b := hbody ▸ List.mem_append_right _ List.mem_cons_self
  obtain ⟨hpre, hpost⟩ := notMem_of_nodup_middle (hbody ▸ ho.nodup b)
  rw [body_insertAt f b x _ d (f.lt_of_mem_body hc)]
  split
  · rename_i hx
    rw [← hx, hbody, insertIdx_length_append, List.flatMap_append, List.flatMap_cons,
      flatMap_ite_of_notMem _ hpre, flatMap_ite_of_notMem _ hpost, if_pos rfl]
    rfl
  · rename_i hx
    exact (flatMap_ite_of_notMem _ fun h => hx (hf.eq_of_mem_body hc h)).symm

/-- An instruction makes place for another, which stands for what it computes. -/
theorem replaces_insertAt (hf : f.Coherent) (ho : f.ListsOnce) {pre post : List InstId}
    (hbody : f.body b = pre ++ c :: post) {d : Instr} (hd : ∀ v ∈ d.inputs, f.Defines v) {g : Func}
    (hg : g =
      ((f.insertAt b pre.length d).2.replaceAllUses (.inst c) (.inst f.insts.size)).detach c) :
    f.Replaces c [f.insts.size] (.inst f.insts.size) g ∧ f.insts.size < g.insts.size ∧
      g.inst f.insts.size = { d with block := b }.map id
        (Substitution.single (.inst c) (.inst f.insts.size)).value := by
  have hc : c ∈ f.body b := hbody ▸ List.mem_append_right _ List.mem_cons_self
  have hlt := hf.body_lt b c hc
  have hsize : f.insts.size < (f.insertAt b pre.length d).2.insts.size := by
    rw [size_insts_insertAt]
    exact Nat.lt_succ_self _
  have hcode := hf.body_insertAt_before ho hbody d
  have hnew : f.insts.size ∈ (f.insertAt b pre.length d).2.body b := by
    rw [hcode]
    exact List.mem_flatMap.mpr ⟨c, hc, by rw [if_pos rfl]; exact List.mem_cons_self⟩
  have h := replaces_detach (hf.insertAt hd) (ho.insertAt b pre.length d)
    (mem_body_insertAt_of_mem f hc) (v := .inst f.insts.size) hsize
  rw [← hg] at h
  refine ⟨?_, Nat.lt_of_lt_of_le hsize h.size, ?_⟩
  · exact {
      coherent := h.coherent
      once := h.once
      params := h.params
      size := Nat.le_trans hsize.le h.size
      ty := fun i hi => by
        rw [h.ty i (Nat.lt_trans hi hsize), inst_insertAt, if_neg (Nat.ne_of_lt hi)]
      term := fun x => by rw [h.term, term_insertAt]
      body := fun x => by
        rw [h.body, hcode, List.flatMap_assoc]
        refine congrArg (List.flatMap · (f.body x)) (funext fun i => ?_)
        split
        · rw [List.flatMap_cons, if_neg (Nat.ne_of_gt hlt), List.flatMap_cons, if_pos rfl]
          rfl
        · rename_i hi
          rw [List.flatMap_cons, if_neg hi]
          rfl
      inst := fun x i hi hne => by
        rw [h.inst x i (mem_body_insertAt_of_mem f hi) hne, inst_insertAt,
          if_neg (Nat.ne_of_lt (hf.body_lt x i hi))] }
  · rw [h.inst b _ hnew (Nat.ne_of_gt hlt), inst_insertAt, if_pos rfl]

end Func

/-! ## What stands in the place of values and instructions -/

/-- Which value stands for a value, and which code for an instruction. -/
structure Replacement where
  value : Value → Value := id
  code : InstId → List InstId := fun i => [i]

namespace Replacement

/-- Puts some code in the place of an instruction, and a value in the place of what it computes,
wherever they stand for something already. -/
def replace (r : Replacement) (c : InstId) (new : List InstId) (v : Value) : Replacement where
  value := (Substitution.single (.inst c) v).value ∘ r.value
  code i := (r.code i).flatMap fun j => if j = c then new else [j]

variable {r : Replacement} {c i : InstId} {new : List InstId} {v x : Value}

theorem value_replace_of_eq (h : r.value x = .inst c) : (r.replace c new v).value x = v :=
  if_pos h

theorem value_replace_of_ne (h : r.value x ≠ .inst c) :
    (r.replace c new v).value x = r.value x :=
  if_neg h

theorem code_replace_self (h : r.code c = [c]) : (r.replace c new v).code c = new := by
  show (r.code c).flatMap _ = new
  rw [h, List.flatMap_singleton, if_pos rfl]

theorem code_replace_of_notMem (h : c ∉ r.code i) : (r.replace c new v).code i = r.code i :=
  flatMap_ite_of_notMem new h

end Replacement

/-- The conversion that stands in the place of a ballot of one lane. -/
def ballotBit (v : Value) (b : BlockId) : Instr where
  op := .apply (.cast .zext) [v]
  ty := .int 32
  block := b

/-- What has become of an attached instruction, if the marker calls but the pending ones are
replaced. -/
inductive Place (m : Markers) (f : Func) (pending : List InstId) (g : Func) (r : Replacement)
    (i : InstId) : Prop
  /-- It is there still, and uses what stands for the values that it used. -/
  | kept (hcall : m.calledBy? f (.inst i) = none ∨ i ∈ pending) (hcode : r.code i = [i])
      (hvalue : r.value (.inst i) = .inst i) (hinst : g.inst i = (f.inst i).map id r.value)
  /-- Its first operand stands for it. -/
  | dropped (k : Marker) (hcall : m.calledBy? f (.inst i) = some k) (hk : k ≠ .ballot)
      (hdone : i ∉ pending) (hcode : r.code i = [])
      (hvalue : r.value (.inst i) = r.value ((f.inst i).input 0))
  /-- A conversion of its first operand stands for it. -/
  | extended (z : InstId) (hcall : m.calledBy? f (.inst i) = some .ballot) (hdone : i ∉ pending)
      (hnew : f.insts.size ≤ z) (hlt : z < g.insts.size) (hcode : r.code i = [z])
      (hvalue : r.value (.inst i) = .inst z)
      (hinst : g.inst z = ballotBit (r.value ((f.inst i).input 0)) (f.inst i).block)

/-- `g` is `f` in which all marker calls but the pending ones are replaced. What is available in `f`
at some place is so in what stands in that place in `g`. -/
structure Lowered (m : Markers) (f : Func) (pending : List InstId) (g : Func) (r : Replacement) :
    Prop where
  coherent : g.Coherent
  once : g.ListsOnce
  params : g.params = f.params
  size : f.insts.size ≤ g.insts.size
  term : ∀ b, g.term b = (f.term b).map id r.value
  body : ∀ b, g.body b = (f.body b).flatMap r.code
  fixed : ∀ v : Value, v.inst? = none → r.value v = v
  defines : ∀ v, f.Defines v → g.Defines (r.value v)
  typeOf : ∀ v, f.Defines v → g.typeOf (r.value v) = f.typeOf v
  place : ∀ i, f.Attached i → Place m f pending g r i
  available : ∀ b before after, f.Reachable b → f.body b = before ++ after → ∀ v,
    f.AvailableAt b before v →
      (r.value v).Within fun j => ∃ i, f.AvailableAt b before (.inst i) ∧ j ∈ r.code i

theorem Instr.input_eq_of_getElem? {d : Instr} {k : Nat} {v : Value} (h : d.inputs[k]? = some v) :
    d.input k = v := by
  unfold input
  rw [h]
  rfl

/-- A marker call is no phi. -/
theorem isPhi_of_calledBy? {m : Markers} {f : Func} {i : InstId} {k : Marker}
    (h : m.calledBy? f (.inst i) = some k) : f.isPhi i = false := by
  obtain ⟨callee, hcallee, -⟩ := Option.bind_eq_some_iff.mp h
  exact f.isPhi_of_op (Instr.op_of_callee? hcallee)

namespace Lowered

variable {m : Markers} {f g g' : Func} {pending new : List InstId} {r : Replacement}
  {b b' : BlockId} {c i i' j : InstId} {v : Value}

theorem mem_body (h : Lowered m f pending g r) (hi : i ∈ f.body b) (hj : j ∈ r.code i) :
    j ∈ g.body b := by
  rw [h.body]
  exact List.mem_flatMap.mpr ⟨i, hi, hj⟩

/-- Code stands in the place of one instruction. -/
theorem eq_of_mem_code (h : Lowered m f pending g r) (hi : f.Attached i) (hi' : f.Attached i')
    (hj : j ∈ r.code i) (hj' : j ∈ r.code i') : i = i' := by
  obtain ⟨b, hi⟩ := hi
  obtain ⟨b', hi'⟩ := hi'
  obtain rfl := h.coherent.eq_of_mem_body (h.mem_body hi hj) (h.mem_body hi' hj')
  have hn := h.once.nodup b
  rw [h.body, List.nodup_flatMap] at hn
  have : Std.Symm (Function.onFun List.Disjoint r.code) := ⟨fun _ _ hd => hd.symm⟩
  by_contra hne
  exact hn.2.forall hi hi' hne hj hj'

/-- What is available does not stand for what an instruction computes that is not available. -/
theorem value_ne_of_mem_code (h : Lowered m f pending g r) (hr : f.Reachable b)
    {before after : List InstId} (hbody : f.body b = before ++ after)
    (hv : f.AvailableAt b before v) (hi : f.Attached i)
    (hout : ¬ f.AvailableAt b before (.inst i)) (hj : j ∈ r.code i) :
    r.value v ≠ .inst j := by
  intro e
  have hwithin := h.available b before after hr hbody v hv
  rw [e] at hwithin
  obtain ⟨i', hi', hj'⟩ := hwithin
  exact hout (h.eq_of_mem_code (hi'.attached hbody) hi hj' hj ▸ hi')

/-- A call that is pending is there still. -/
theorem of_pending (h : Lowered m f pending g r) (hc : f.Attached c) (hp : c ∈ pending) :
    r.code c = [c] ∧ r.value (.inst c) = .inst c ∧ g.inst c = (f.inst c).map id r.value := by
  cases h.place c hc with
  | kept _ hcode hvalue hinst => exact ⟨hcode, hvalue, hinst⟩
  | dropped _ _ _ hdone => exact absurd hp hdone
  | extended _ _ hdone => exact absurd hp hdone

/-- The first operand of an instruction that is there still. -/
theorem input_map (h : Lowered m f pending g r) (d : Instr) :
    (d.map id r.value).input 0 = r.value (d.input 0) := by
  unfold Instr.input
  rw [Instr.inputs_map, List.getElem?_map]
  cases d.inputs[0]? with
  | none => exact (h.fixed _ rfl).symm
  | some v => rfl

/-! ### One call replaced -/

/-- What has become of the other instructions when one more call is replaced. -/
theorem place_replace (hf : f.WellFormed) (h : Lowered m f (c :: pending) g r) (hc : f.Attached c)
    (hg : g.Replaces c new v g') (hi : f.Attached i) (hne : i ≠ c) :
    Place m f pending g' (r.replace c new v) i := by
  obtain ⟨hcode, -, -⟩ := h.of_pending hc List.mem_cons_self
  have hcode' : (r.replace c new v).code i = r.code i :=
    Replacement.code_replace_of_notMem fun hmem =>
      hne (h.eq_of_mem_code hi hc hmem (hcode ▸ List.mem_cons_self))
  obtain ⟨b, hb⟩ := hi
  cases h.place i ⟨b, hb⟩ with
  | kept hcall hi hvalue hinst =>
    have hmem : i ∈ g.body b := h.mem_body hb (hi ▸ List.mem_cons_self)
    refine .kept (hcall.imp_right fun hp => (List.mem_cons.mp hp).resolve_left hne)
      (hcode'.trans hi) ?_ ?_
    · rw [Replacement.value_replace_of_ne, hvalue]
      rw [hvalue]
      exact fun e => hne (Value.inst.inj e)
    · rw [hg.inst b i hmem hne, hinst, Instr.map_comp]
      rfl
  | dropped k hcall hk hdone hi hvalue =>
    refine .dropped k hcall hk (fun hp => hdone (List.mem_cons_of_mem _ hp)) (hcode'.trans hi) ?_
    exact congrArg (Substitution.single (.inst c) v).value hvalue
  | extended z hcall hdone hnew hlt hi hvalue hinst =>
    have hmem : z ∈ g.body b := h.mem_body hb (hi ▸ List.mem_cons_self)
    have hz : z ≠ c := by
      obtain ⟨b, hc⟩ := hc
      exact Nat.ne_of_gt (Nat.lt_of_lt_of_le (hf.body_lt b c hc) hnew)
    refine .extended z hcall (fun hp => hdone (List.mem_cons_of_mem _ hp)) hnew
      (Nat.lt_of_lt_of_le hlt hg.size) (hcode'.trans hi) ?_ ?_
    · rw [Replacement.value_replace_of_ne, hvalue]
      rw [hvalue]
      exact fun e => hz (Value.inst.inj e)
    · rw [hg.inst b z hmem hz, hinst]
      rfl

/-- One more call is replaced. -/
theorem replace (hf : f.WellFormed) (h : Lowered m f (c :: pending) g r) (hc : f.Attached c)
    (hg : g.Replaces c new v g') (hdef : g'.Defines v) (hty : g'.typeOf v = (f.inst c).ty)
    (hplace : Place m f pending g' (r.replace c new v) c)
    (havail : ∀ b before after, f.Reachable b → f.body b = before ++ after →
      f.AvailableAt b before (.inst c) → v.Within fun j =>
        ∃ i, f.AvailableAt b before (.inst i) ∧ j ∈ (r.replace c new v).code i) :
    Lowered m f pending g' (r.replace c new v) where
  coherent := hg.coherent
  once := hg.once
  params := hg.params.trans h.params
  size := Nat.le_trans h.size hg.size
  term b := by
    rw [hg.term, h.term, Terminator.map_comp]
    rfl
  body b := by
    rw [hg.body, h.body, List.flatMap_assoc]
    rfl
  fixed x hx := by
    rw [Replacement.value_replace_of_ne, h.fixed x hx]
    rw [h.fixed x hx]
    rintro rfl
    cases hx
  defines x hx := by
    by_cases e : r.value x = .inst c
    · rw [Replacement.value_replace_of_eq e]
      exact hdef
    · rw [Replacement.value_replace_of_ne e]
      exact (h.defines x hx).mono hg.size
  typeOf x hx := by
    obtain ⟨-, -, hinst⟩ := h.of_pending hc List.mem_cons_self
    have hold := h.typeOf x hx
    by_cases e : r.value x = .inst c
    · rw [Replacement.value_replace_of_eq e, hty, ← hold, e]
      exact (congrArg Instr.ty hinst).symm
    · rw [Replacement.value_replace_of_ne e, ← hold]
      exact hg.typeOf (h.defines x hx)
  place i hi := by
    by_cases e : i = c
    · exact e ▸ hplace
    · exact place_replace hf h hc hg hi e
  available b before after hr hbody x hx := by
    obtain ⟨hcode, -, -⟩ := h.of_pending hc List.mem_cons_self
    have hold := h.available b before after hr hbody x hx
    by_cases e : r.value x = .inst c
    · rw [Replacement.value_replace_of_eq e]
      rw [e] at hold
      obtain ⟨i, hi, hmem⟩ := hold
      obtain rfl := h.eq_of_mem_code (hi.attached hbody) hc hmem (hcode ▸ List.mem_cons_self)
      exact havail b before after hr hbody hi
    · rw [Replacement.value_replace_of_ne e]
      cases hv : r.value x with
      | inst j =>
        rw [hv] at hold e
        obtain ⟨i, hi, hmem⟩ := hold
        refine ⟨i, hi, List.mem_flatMap.mpr ⟨j, hmem, ?_⟩⟩
        rw [if_neg fun hj => e (congrArg Value.inst hj)]
        exact List.mem_cons_self
      | _ => trivial

/-- The value of an operand stands where it is available for whatever is replaced by it. -/
theorem available_input (hf : f.WellFormed) (h : Lowered m f (c :: pending) g r) (hc : f.Attached c)
    (hphi : f.isPhi c = false) (hv : v ∈ (f.inst c).uses) {before after : List InstId}
    (hr : f.Reachable b) (hbody : f.body b = before ++ after)
    (havail : f.AvailableAt b before (.inst c)) : (r.value v).Within fun j =>
      ∃ i, f.AvailableAt b before (.inst i) ∧ j ∈ (r.replace c new (r.value v)).code i := by
  obtain ⟨hcode, -, -⟩ := h.of_pending hc List.mem_cons_self
  obtain ⟨d, hd⟩ := hc
  obtain ⟨pre, post, e⟩ := List.append_of_mem hd
  have hrd := hf.reachable_of_availableAt hr hbody hd havail
  have hpre : f.AvailableAt d pre v := hf.inst d hrd pre c post e hphi v hv
  refine (h.available d pre (c :: post) hrd e v hpre).mono fun j hj => ?_
  obtain ⟨i, hi, hj⟩ := hj
  refine ⟨i, hf.ssa.availableAt_trans hr hbody e havail hi, ?_⟩
  rwa [Replacement.code_replace_of_notMem]
  -- the call is not available to its own operand
  intro hmem
  obtain rfl := h.eq_of_mem_code (hi.attached e) ⟨d, hd⟩ hmem (hcode ▸ List.mem_cons_self)
  exact hf.ssa.not_availableAt e hi

/-- What the first operand of a pending call has become. -/
theorem input_of_pending (h : Lowered m f pending g r) (hc : f.Attached c) (hp : c ∈ pending)
    (hv : (f.inst c).inputs[0]? = some v) : (g.inst c).input 0 = r.value v := by
  obtain ⟨-, -, hinst⟩ := h.of_pending hc hp
  rw [hinst, h.input_map, Instr.input_eq_of_getElem? hv]

/-- One more ballot is lowered. -/
theorem lowerCall_ballot (hf : f.WellFormed) (h : Lowered m f (c :: pending) g r)
    (hc : c ∈ f.body b) (hn : c ∉ pending) (hk : m.calledBy? f (.inst c) = some .ballot)
    (hv : (f.inst c).inputs[0]? = some v) (hty : (f.inst c).ty = .int 32) :
    ∃ r', Lowered m f pending (Markers.lowerCall g c .ballot) r' := by
  obtain ⟨hcode, hvalue, -⟩ := h.of_pending ⟨b, hc⟩ List.mem_cons_self
  have hoperand := h.input_of_pending ⟨b, hc⟩ List.mem_cons_self hv
  have hdef : g.Defines (r.value v) :=
    h.defines v (hf.inputs c v (List.mem_of_getElem? hv))
  have hcg : c ∈ g.body b := h.mem_body hc (hcode ▸ List.mem_cons_self)
  obtain ⟨pre, post, e⟩ := List.append_of_mem hcg
  have hpos := h.once.placed.positionOf?_eq e (notMem_of_nodup_middle (e ▸ h.once.nodup b)).1
  have hcall : Markers.lowerCall g c .ballot =
      ((g.insertAt b pre.length (ballotBit (r.value v) b)).2.replaceAllUses (.inst c)
        (.inst g.insts.size)).detach c := by
    show ((g.insertAt (g.inst c).block ((g.positionOf? c).getD _)
      (ballotBit ((g.inst c).input 0) (g.inst c).block)).2.replaceAllUses _ _).detach c = _
    rw [h.coherent.placed b c hcg, hpos, hoperand]
    rfl
  have hinputs : ∀ x ∈ (ballotBit (r.value v) b).inputs, g.Defines x := fun x hx =>
    List.mem_singleton.mp hx ▸ hdef
  obtain ⟨hg, hlt, hnew⟩ := Func.replaces_insertAt h.coherent h.once e hinputs hcall
  refine ⟨_, h.replace hf ⟨b, hc⟩ hg hlt ?_ (.extended g.insts.size hk hn h.size hlt
    (Replacement.code_replace_self hcode) (Replacement.value_replace_of_eq hvalue) ?_) ?_⟩
  · exact (congrArg Instr.ty hnew).trans hty.symm
  · rw [hnew, Instr.input_eq_of_getElem? hv, hf.placed b c hc]
    rfl
  · intro b' before after _ _ havail
    exact ⟨c, havail, by rw [Replacement.code_replace_self hcode]; exact List.mem_cons_self⟩

/-- One more call is dropped. -/
theorem lowerCall_of_ne (hf : f.WellFormed) (h : Lowered m f (c :: pending) g r)
    (hc : c ∈ f.body b) (hn : c ∉ pending) {k : Marker} (hk : m.calledBy? f (.inst c) = some k)
    (hb : k ≠ .ballot) (hv : (f.inst c).inputs[0]? = some v) (hty : (f.inst c).ty = f.typeOf v) :
    ∃ r', Lowered m f pending (Markers.lowerCall g c k) r' := by
  obtain ⟨hcode, hvalue, -⟩ := h.of_pending ⟨b, hc⟩ List.mem_cons_self
  have hmem : v ∈ (f.inst c).inputs := List.mem_of_getElem? hv
  have hdef : g.Defines (r.value v) := h.defines v (hf.inputs c v hmem)
  have hcall : Markers.lowerCall g c k = (g.replaceAllUses (.inst c) (r.value v)).detach c := by
    rw [← h.input_of_pending ⟨b, hc⟩ List.mem_cons_self hv]
    cases k with
    | ballot => exact absurd rfl hb
    | any | all | extract | align => rfl
  have hg := Func.replaces_detach h.coherent h.once
    (h.mem_body hc (hcode ▸ List.mem_cons_self)) hdef
  rw [← hcall] at hg
  refine ⟨_, h.replace hf ⟨b, hc⟩ hg (hdef.mono hg.size) ?_ (.dropped k hk hb hn
    (Replacement.code_replace_self hcode) ?_) ?_⟩
  · rw [hg.typeOf hdef, h.typeOf v (hf.inputs c v hmem), hty]
  · rw [Replacement.value_replace_of_eq hvalue, Instr.input_eq_of_getElem? hv]
    by_cases e : r.value v = .inst c
    · rw [Replacement.value_replace_of_eq e]
    · rw [Replacement.value_replace_of_ne e]
  · intro b' before after hr hbody havail
    exact h.available_input hf ⟨b, hc⟩ (isPhi_of_calledBy? hk) (List.mem_append_left _ hmem) hr
      hbody havail

/-- One more call is lowered. -/
theorem lowerCall (hf : f.WellFormed) (h : Lowered m f (c :: pending) g r) (hc : c ∈ f.body b)
    (hn : c ∉ pending) {k : Marker} (hk : m.calledBy? f (.inst c) = some k)
    (hv : (f.inst c).inputs[0]? = some v)
    (hty : (f.inst c).ty = if k = .ballot then .int 32 else f.typeOf v) :
    ∃ r', Lowered m f pending (Markers.lowerCall g c k) r' := by
  by_cases hb : k = .ballot
  · rw [if_pos hb] at hty
    subst hb
    exact h.lowerCall_ballot hf hc hn hk hv hty
  · rw [if_neg hb] at hty
    exact h.lowerCall_of_ne hf hc hn hk hb hv hty

/-! ### No call left -/

/-- A function without pending calls has no marker calls. -/
theorem calledBy?_eq_none (h : Lowered m f [] g r) (hj : j ∈ g.body b) :
    m.calledBy? g (.inst j) = none := by
  rw [h.body] at hj
  obtain ⟨i, hi, hj⟩ := List.mem_flatMap.mp hj
  cases h.place i ⟨b, hi⟩ with
  | kept hcall hcode _ hinst =>
    rw [hcode] at hj
    obtain rfl := List.mem_singleton.mp hj
    show (g.inst j).callee?.bind m.kindOf? = none
    rw [hinst, Instr.callee?_map]
    exact hcall.resolve_right List.not_mem_nil
  | dropped k _ _ _ hcode =>
    rw [hcode] at hj
    cases hj
  | extended z _ _ _ _ hcode _ hinst =>
    rw [hcode] at hj
    obtain rfl := List.mem_singleton.mp hj
    show (g.inst j).callee?.bind m.kindOf? = none
    rw [hinst]
    rfl

/-- A phi stays, and what is in the place of another instruction is no phi. -/
theorem isPhi_of_mem_code (h : Lowered m f [] g r) (hi : f.Attached i) (hj : j ∈ r.code i) :
    g.isPhi j = f.isPhi i := by
  cases h.place i hi with
  | kept _ hcode _ hinst =>
    rw [hcode] at hj
    obtain rfl := List.mem_singleton.mp hj
    unfold Func.isPhi
    rw [hinst, Instr.isPhi_map]
  | dropped k _ _ _ hcode =>
    rw [hcode] at hj
    cases hj
  | extended z hcall _ _ _ hcode _ hinst =>
    rw [hcode] at hj
    obtain rfl := List.mem_singleton.mp hj
    rw [isPhi_of_calledBy? hcall, Func.isPhi, hinst]
    rfl

/-- What is no marker call is there still. -/
theorem of_not_call (h : Lowered m f pending g r) (hi : f.Attached i)
    (hcall : m.calledBy? f (.inst i) = none) :
    r.code i = [i] ∧ r.value (.inst i) = .inst i ∧ g.inst i = (f.inst i).map id r.value := by
  cases h.place i hi with
  | kept _ hcode hvalue hinst => exact ⟨hcode, hvalue, hinst⟩
  | dropped _ hcall' => cases hcall.symm.trans hcall'
  | extended _ hcall' => cases hcall.symm.trans hcall'

/-- A phi is there still. -/
theorem of_isPhi (h : Lowered m f pending g r) (hi : f.Attached i) (hphi : f.isPhi i = true) :
    r.code i = [i] ∧ r.value (.inst i) = .inst i ∧ g.inst i = (f.inst i).map id r.value := by
  refine h.of_not_call hi (Option.eq_none_iff_forall_ne_some.mpr fun k hk => ?_)
  rw [isPhi_of_calledBy? hk] at hphi
  cases hphi

/-- The phis of a block stay, and every other instruction makes place for its code. -/
theorem phis (hf : f.WellFormed) (h : Lowered m f [] g r) (b : BlockId) :
    g.phis b = f.phis b ∧ g.nonPhis b = (f.nonPhis b).flatMap r.code := by
  have hphis : (f.phis b).flatMap r.code = f.phis b := by
    have hcode : ∀ i ∈ f.phis b, r.code i = [i] := fun i hi =>
      (h.of_isPhi ⟨b, Func.mem_body_of_mem_phis hi⟩ (Func.isPhi_of_mem_phis hi)).1
    rw [List.flatMap_congr hcode, List.flatMap_singleton']
  have hpos : ∀ i ∈ f.phis b, g.isPhi i = true := by
    intro i hi
    have hbody : f.Attached i := ⟨b, Func.mem_body_of_mem_phis hi⟩
    have hphi := Func.isPhi_of_mem_phis hi
    rw [← hphi]
    exact h.isPhi_of_mem_code hbody ((h.of_isPhi hbody hphi).1 ▸ List.mem_cons_self)
  have hneg : ∀ j ∈ (f.nonPhis b).flatMap r.code, g.isPhi j = false := by
    intro j hj
    obtain ⟨i, hi, hj⟩ := List.mem_flatMap.mp hj
    rw [h.isPhi_of_mem_code ⟨b, Func.mem_body_of_mem_nonPhis hi⟩ hj]
    exact hf.phis_first b i hi
  have hbody : g.body b = f.phis b ++ (f.nonPhis b).flatMap r.code := by
    rw [h.body, ← Func.phis_append_nonPhis, List.flatMap_append, hphis]
  unfold Func.phis Func.nonPhis at *
  rw [hbody, List.takeWhile_append_of_pos hpos, List.dropWhile_append_of_pos hpos]
  generalize ((f.body b).dropWhile f.isPhi).flatMap r.code = rest at hneg
  cases rest with
  | nil => exact ⟨List.append_nil _, rfl⟩
  | cons j rest =>
    have hj : ¬ g.isPhi j = true := by
      rw [hneg j List.mem_cons_self]
      exact Bool.false_ne_true
    rw [List.takeWhile_cons_of_neg hj, List.dropWhile_cons_of_neg hj]
    exact ⟨List.append_nil _, rfl⟩

end Lowered

/-! ## All calls -/

namespace Markers

variable {m : Markers} {f g : Func} {r : Replacement}

/-- Every marker call has a first operand, whose type it has, or that of a ballot. -/
def CallsTyped (m : Markers) (f : Func) : Prop :=
  ∀ e ∈ m.calls f, ∃ v, (f.inst e.1).inputs[0]? = some v ∧
    (f.inst e.1).ty = if e.2 = .ballot then .int 32 else f.typeOf v

theorem mem_calls {e : InstId × Marker} :
    e ∈ m.calls f ↔ e.1 ∈ f.attached ∧ m.calledBy? f (.inst e.1) = some e.2 := by
  obtain ⟨c, k⟩ := e
  simp [calls]

theorem map_fst_calls (m : Markers) (f : Func) : (m.calls f).map Prod.fst =
    f.attached.filter fun i => (m.calledBy? f (.inst i)).isSome := by
  unfold calls
  induction f.attached with
  | nil => rfl
  | cons i l ih => cases h : m.calledBy? f (.inst i) <;> simp [h, ih]

theorem length_calls (m : Markers) (f : Func) :
    (m.calls f).length = f.attached.countP fun i => (m.calledBy? f (.inst i)).isSome := by
  rw [← List.length_map Prod.fst, map_fst_calls, List.countP_eq_length_filter]

/-- Before the first call is replaced, everything stands for itself. -/
theorem lowered_start (hf : f.WellFormed) (hlayout : f.layout.Nodup) :
    Lowered m f ((m.calls f).map Prod.fst) f {} where
  coherent := hf.toCoherent
  once := ⟨hlayout, hf.placed_body, hf.nodup⟩
  params := rfl
  size := Nat.le_refl _
  term b := (Terminator.map_id _).symm
  body b := (List.flatMap_singleton' _).symm
  fixed _ _ := rfl
  defines _ hv := hv
  typeOf _ _ := rfl
  place i hi := by
    refine .kept ?_ rfl rfl (Instr.map_id _).symm
    rw [map_fst_calls, List.mem_filter]
    cases m.calledBy? f (.inst i) with
    | none => exact .inl rfl
    | some k => exact .inr ⟨hf.mem_attached.mpr hi, rfl⟩
  available b before after _ _ v hv := by
    cases v with
    | inst i => exact ⟨i, hv, List.mem_cons_self⟩
    | _ => trivial

/-- Calls that are pending are lowered one by one. -/
theorem exists_lowered_foldl (hf : f.WellFormed) (ht : m.CallsTyped f) {l : List (InstId × Marker)}
    (hl : ∀ e ∈ l, e ∈ m.calls f) (hn : (l.map Prod.fst).Nodup)
    (h : Lowered m f (l.map Prod.fst) g r) :
    ∃ r', Lowered m f [] (l.foldl (fun f (i, k) => lowerCall f i k) g) r' := by
  induction l generalizing g r with
  | nil => exact ⟨r, h⟩
  | cons e l ih =>
    obtain ⟨hmem, hk⟩ := mem_calls.mp (hl e List.mem_cons_self)
    obtain ⟨b, hb⟩ := hf.mem_attached.mp hmem
    obtain ⟨v, hv, hty⟩ := ht e (hl e List.mem_cons_self)
    obtain ⟨hnot, hn⟩ := List.nodup_cons.mp hn
    obtain ⟨r1, h1⟩ := h.lowerCall hf hb hnot hk hv hty
    exact ih (fun e he => hl e (List.mem_cons_of_mem _ he)) hn h1

/-- A lowering replaces all marker calls. -/
theorem exists_lowered (hf : f.WellFormed) (hlayout : f.layout.Nodup) (ht : m.CallsTyped f) :
    ∃ r, Lowered m f [] (m.lower f).2 r := by
  have hstart := lowered_start (m := m) hf hlayout
  refine exists_lowered_foldl hf ht (fun _ he => he) ?_ hstart
  rw [map_fst_calls]
  exact (hstart.once.nodup_flatMap hlayout).filter _

end Markers

end Lockstep
