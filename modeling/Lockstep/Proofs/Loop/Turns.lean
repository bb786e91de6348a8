import Lockstep.Loop.Remainder

/-!
# Turns of loops

The blocks that a run executes say how often a loop was entered, and how many turns it made each
time (`turns`). After a remainder has been split off, main loop and remainder share the turns
(`Shares`). On the way, control is in the main loop (`InMain`) or in the remainder (`InRemainder`).
-/

namespace Lockstep

/-- The parts of a trace that lie in a loop, one for each time that the loop was entered. -/
def entries (blocks trace : List BlockId) : List (List BlockId) :=
  (trace.splitOnP fun b => !blocks.contains b).filter fun entry => !entry.isEmpty

/-- How often control went on in the loop from its header. In the last block of an entry it left
the loop. -/
def stays (header : BlockId) (entry : List BlockId) : Nat := entry.dropLast.count header

/-- The numbers of turns that a loop made, one for each time that it was entered. -/
def turns (header : BlockId) (blocks trace : List BlockId) : List Nat :=
  (entries blocks trace).map (stays header)

section

variable {header b q : BlockId} {blocks entry t : List BlockId}

theorem turns_concat (hb : b ∉ blocks) :
    turns header blocks (t ++ [b]) = turns header blocks t := by
  unfold turns entries
  rw [List.splitOnP_append_cons t [] (by simpa using hb), List.filter_append]
  exact congrArg _ (List.append_nil _)

theorem turns_append (he : ∀ x ∈ entry, x ∉ blocks) :
    turns header blocks (t ++ entry) = turns header blocks t := by
  induction entry generalizing t with
  | nil => rw [List.append_nil]
  | cons x entry ih =>
    rw [List.append_cons, ih fun y hy => he y (List.mem_cons_of_mem _ hy)]
    exact turns_concat (he x List.mem_cons_self)

/-- The entry in which control left the loop last. -/
theorem turns_entry (hq : q ∉ blocks) (he : ∀ x ∈ entry, x ∈ blocks) (hb : b ∈ blocks) :
    turns header blocks (t ++ q :: (entry ++ [b])) =
      turns header blocks t ++ [entry.count header] := by
  have hne : (entry ++ [b]).isEmpty = false := by simp
  have hall : ∀ x ∈ entry ++ [b], (!blocks.contains x) = false := by
    intro x hx
    have hx : x ∈ blocks := by
      rcases List.mem_append.mp hx with hx | hx
      · exact he x hx
      · exact List.mem_singleton.mp hx ▸ hb
    simpa using hx
  unfold turns entries
  rw [List.splitOnP_append_cons t _ (by simpa using hq), List.splitOnP_eq_singleton hall,
    List.filter_append, List.map_append]
  simp [stays]

end

/-! ## Sharing turns -/

/-- Whenever the loop makes some turns, the main loop makes the part of them that `E` says, and the
remainder makes the rest. -/
def Shares (E : Nat → Nat → Prop) (l : Loop) (rem : RemainderLoop) (t t' : List BlockId) : Prop :=
  ∃ es : List (Nat × Nat), (∀ e ∈ es, E e.1 e.2) ∧
    turns l.header l.blocks t = es.map Prod.fst ∧ turns l.header l.blocks t' = es.map Prod.snd ∧
      turns rem.header rem.blocks t' = es.map fun e => e.1 - e.2

/-- The loop has been entered, and its header has been passed `v` times. -/
def InMain (E : Nat → Nat → Prop) (l : Loop) (rem : RemainderLoop) (v : Nat)
    (t t' : List BlockId) : Prop :=
  ∃ a a' q entry, Shares E l rem a a' ∧ q ∉ l.blocks ∧ q ∉ rem.blocks ∧
    (∀ x ∈ entry, x ∈ l.blocks) ∧ entry.count l.header = v ∧ t = a ++ q :: entry ∧
      t' = a' ++ q :: entry

/-- The loop has been entered, its header has been passed `v` times, and the main loop was left after
`k` turns. -/
def InRemainder (E : Nat → Nat → Prop) (l : Loop) (rem : RemainderLoop) (k v : Nat)
    (t t' : List BlockId) : Prop :=
  ∃ a a' q entry main rest, Shares E l rem a a' ∧ q ∉ l.blocks ∧ q ∉ rem.blocks ∧
    (∀ x ∈ entry, x ∈ l.blocks) ∧ (∀ x ∈ main, x ∈ l.blocks) ∧ (∀ x ∈ rest, x ∈ rem.blocks) ∧
      entry.count l.header = v ∧ main.count l.header = k ∧ rest.count rem.header + k = v ∧
        t = a ++ q :: entry ∧ t' = a' ++ q :: (main ++ l.header :: rem.preheader :: rest)

/-- The remainder shares no block with the loop. -/
structure Apart (l : Loop) (rem : RemainderLoop) : Prop where
  header : l.header ∈ l.blocks
  header' : rem.header ∈ rem.blocks
  blocks : ∀ b ∈ l.blocks, b ∉ rem.blocks
  preheader : rem.preheader ∉ l.blocks
  preheader' : rem.preheader ∉ rem.blocks

section

variable {E : Nat → Nat → Prop} {l : Loop} {rem : RemainderLoop} {b q b' : BlockId} {v k : Nat}
  {t t' : List BlockId}

theorem Shares.nil : Shares E l rem [] [] := ⟨[], nofun, rfl, rfl, rfl⟩

theorem Shares.visit (h : Shares E l rem t t') (hb : b ∉ l.blocks) (hb' : b ∉ rem.blocks) :
    Shares E l rem (t ++ [b]) (t' ++ [b]) := by
  obtain ⟨es, he, h1, h2, h3⟩ := h
  exact ⟨es, he, (turns_concat hb).trans h1, (turns_concat hb).trans h2, (turns_concat hb').trans h3⟩

theorem Shares.enter (h : Shares E l rem t t') (hb : b ∉ l.blocks) (hb' : b ∉ rem.blocks) :
    InMain E l rem 0 (t ++ [b]) (t' ++ [b]) :=
  ⟨t, t', b, [], h, hb, hb', nofun, rfl, rfl, rfl⟩

theorem count_concat (entry : List BlockId) (b header : BlockId) :
    (entry ++ [b]).count header =
      if b = header then entry.count header + 1 else entry.count header := by
  rw [List.count_append, List.count_singleton]
  by_cases h : b = header <;> simp [h]

theorem mem_concat {blocks entry : List BlockId} (he : ∀ x ∈ entry, x ∈ blocks) (hb : b ∈ blocks) :
    ∀ x ∈ entry ++ [b], x ∈ blocks := by
  intro x hx
  rcases List.mem_append.mp hx with hx | hx
  · exact he x hx
  · exact List.mem_singleton.mp hx ▸ hb

theorem InMain.visit (h : InMain E l rem v t t') (hb : b ∈ l.blocks) :
    InMain E l rem (if b = l.header then v + 1 else v) (t ++ [b]) (t' ++ [b]) := by
  obtain ⟨a, a', q, entry, hs, hq, hq', he, hv, rfl, rfl⟩ := h
  refine ⟨a, a', q, entry ++ [b], hs, hq, hq', mem_concat he hb, ?_, ?_, ?_⟩
  · rw [count_concat, hv]
  · rw [List.append_assoc, List.cons_append]
  · rw [List.append_assoc, List.cons_append]

/-- The main loop is left from the header. -/
theorem InMain.leave (h : InMain E l rem v t t') :
    InRemainder E l rem v v t (t' ++ [l.header] ++ [rem.preheader]) := by
  obtain ⟨a, a', q, entry, hs, hq, hq', he, hv, rfl, rfl⟩ := h
  refine ⟨a, a', q, entry, entry, [], hs, hq, hq', he, he, nofun, hv, hv, Nat.zero_add _, rfl, ?_⟩
  simp

theorem InRemainder.le (h : InRemainder E l rem k v t t') : k ≤ v := by
  obtain ⟨a, a', q, entry, main, rest, -, -, -, -, -, -, -, -, hrest, -⟩ := h
  exact hrest ▸ Nat.le_add_left _ _

theorem InRemainder.visit (h : InRemainder E l rem k v t t') (hb : b ∈ l.blocks)
    (hb' : b' ∈ rem.blocks) (heq : b' = rem.header ↔ b = l.header) :
    InRemainder E l rem k (if b = l.header then v + 1 else v) (t ++ [b]) (t' ++ [b']) := by
  obtain ⟨a, a', q, entry, main, rest, hs, hq, hq', he, hm, hr, hv, hk, hrest, rfl, rfl⟩ := h
  refine ⟨a, a', q, entry ++ [b], main, rest ++ [b'], hs, hq, hq', mem_concat he hb, hm,
    mem_concat hr hb', ?_, hk, ?_, ?_, ?_⟩
  · rw [count_concat, hv]
  · rw [count_concat]
    by_cases e : b = l.header
    · rw [if_pos (heq.mpr e), if_pos e]
      omega
    · rw [if_neg fun e' => e (heq.mp e'), if_neg e]
      exact hrest
  · simp
  · simp

/-- The loop is left from the copy of the header. -/
theorem InRemainder.leave (h : InRemainder E l rem k v t t') (hd : Apart l rem) (hE : E v k) :
    Shares E l rem (t ++ [l.header]) (t' ++ [rem.header]) := by
  obtain ⟨a, a', q, entry, main, rest, ⟨es, hes, h1, h2, h3⟩, hq, hq', he, hm, hr, hv, hk, hrest,
    rfl, rfl⟩ := h
  refine ⟨es ++ [(v, k)], fun e hmem => ?_, ?_, ?_, ?_⟩
  · rcases List.mem_append.mp hmem with hmem | hmem
    · exact hes e hmem
    · rw [List.mem_singleton.mp hmem]
      exact hE
  · rw [List.append_assoc, List.cons_append, turns_entry hq he hd.header, h1, hv, List.map_append]
    rfl
  · have e : a' ++ q :: (main ++ l.header :: rem.preheader :: rest) ++ [rem.header] =
        a' ++ q :: (main ++ [l.header]) ++ rem.preheader :: (rest ++ [rem.header]) := by simp
    rw [e, turns_append, turns_entry hq hm hd.header, h2, hk, List.map_append]
    · rfl
    · intro x hx
      rcases List.mem_cons.mp hx with rfl | hx
      · exact hd.preheader
      · exact fun hxl => hd.blocks x hxl (mem_concat hr hd.header' x hx)
  · have e : a' ++ q :: (main ++ l.header :: rem.preheader :: rest) ++ [rem.header] =
        a' ++ q :: (main ++ [l.header]) ++ rem.preheader :: (rest ++ [rem.header]) := by simp
    rw [e, turns_entry hd.preheader' hr hd.header', turns_append, h3, List.map_append]
    · have hsub : rest.count rem.header = v - k := by omega
      rw [hsub]
      rfl
    · intro x hx
      rcases List.mem_cons.mp hx with rfl | hx
      · exact hq'
      · exact hd.blocks x (mem_concat hm hd.header x hx)

end

end Lockstep
