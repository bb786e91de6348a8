import Lockstep.Func.Edit

/-!
# Uses and their replacement

A user is an attached instruction or a terminator. `UseMap.compute` collects the users of every
value in one pass over the layout; the two ways to replace a value are by a snapshot of its
users (`Func.replaceUsesWhere`) and by a pass over all users (`Func.replaceAllUses`).
-/

namespace Lockstep

/-- Something that uses values. -/
inductive User where
  | inst (i : InstId)
  | terminator (b : BlockId)
  deriving DecidableEq, Repr, Inhabited

namespace Func

/-- The block a use happens in; for a phi the block of the phi. -/
def userBlock (f : Func) : User → BlockId
  | .inst i => (f.inst i).block
  | .terminator b => b

/-- The values that a user uses. -/
def usedBy (f : Func) : User → List Value
  | .inst i => (f.inst i).uses
  | .terminator b => (f.term b).uses

/-- The users in a block: its instructions, then its terminator. -/
def blockUsers (f : Func) (b : BlockId) : List User :=
  (f.body b).map .inst ++ [.terminator b]

/-- All users, in layout order. -/
def users (f : Func) : List User := f.layout.flatMap f.blockUsers

end Func

/-! ## The map from values to users -/

/-- The users of every value, in the order in which the values were first met. -/
structure UseMap where
  entries : List (Value × List User)
  deriving DecidableEq, Repr, Inhabited

namespace UseMap

def empty : UseMap := ⟨[]⟩

/-- A user that uses a value several times in a row is recorded once. -/
def record (users : List User) (u : User) : List User :=
  if users.getLast? = some u then users else users ++ [u]

/-- Records a use in a list of entries. -/
def recordIn (v : Value) (u : User) : List (Value × List User) → List (Value × List User)
  | [] => [(v, [u])]
  | (w, users) :: rest =>
    if w = v then (w, record users u) :: rest else (w, users) :: recordIn v u rest

/-- Records that `u` uses `v`. -/
def add (m : UseMap) (v : Value) (u : User) : UseMap := ⟨recordIn v u m.entries⟩

/-- All uses of a function. -/
def compute (f : Func) : UseMap :=
  f.users.foldl (fun m u => (f.usedBy u).foldl (fun m v => m.add v u) m) empty

/-- The users of a value. -/
def usersOf (m : UseMap) (v : Value) : List User := (m.entries.lookup v).getD []

def numUsers (m : UseMap) (v : Value) : Nat := (m.usersOf v).length

theorem lookup_recordIn (v w : Value) (u : User) (entries : List (Value × List User)) :
    ((recordIn v u entries).lookup w).getD [] =
      if w = v then record ((entries.lookup w).getD []) u else (entries.lookup w).getD [] := by
  induction entries with
  | nil =>
    by_cases h : w = v
    · simp [recordIn, record, h]
    · have hf : (w == v) = false := beq_eq_false_iff_ne.mpr h
      simp [recordIn, List.lookup_cons, hf, h]
  | cons e rest ih =>
    obtain ⟨x, users⟩ := e
    unfold recordIn
    by_cases hx : x = v
    · subst hx
      by_cases h : w = x
      · simp [h]
      · have hf : (w == x) = false := beq_eq_false_iff_ne.mpr h
        simp [List.lookup_cons, hf, h]
    · rw [if_neg hx, List.lookup_cons, List.lookup_cons]
      by_cases h : w = x
      · subst h
        simp [hx]
      · have hf : (w == x) = false := beq_eq_false_iff_ne.mpr h
        simpa [hf] using ih

/-- Recording a use changes the users of the value that is used, and of no other. -/
theorem usersOf_add (m : UseMap) (v w : Value) (u : User) :
    (m.add v u).usersOf w = if w = v then record (m.usersOf w) u else m.usersOf w :=
  lookup_recordIn v w u m.entries

end UseMap

/-! ## Replacement -/

/-- A simultaneous replacement of values and blocks. -/
structure Substitution where
  value : Value → Value := id
  block : BlockId → BlockId := id

namespace Substitution

/-- Replaces one value. -/
def single (old new : Value) : Substitution where
  value v := if v = old then new else v

/-- Replaces the values and blocks that stand first in the pairs; a later pair wins. -/
def ofPairs (values : List (Value × Value)) (blocks : List (BlockId × BlockId)) :
    Substitution where
  value v := (values.reverse.lookup v).getD v
  block b := (blocks.reverse.lookup b).getD b

end Substitution

namespace Func

/-- Applies a substitution to what one user uses. -/
def substUser (f : Func) (s : Substitution) : User → Func
  | .inst i => f.modifyInst i (·.map s.block s.value)
  | .terminator b => f.modifyBlock b fun d => { d with term := d.term.map s.block s.value }

/-- Applies a substitution to all users. -/
def subst (f : Func) (s : Substitution) : Func := f.users.foldl (·.substUser s) f

/-- Replaces a value in its users that satisfy `p`; the users are fixed beforehand. -/
def replaceUsesWhere (f : Func) (old new : Value) (p : User → Bool) : Func :=
  (((UseMap.compute f).usersOf old).filter p).foldl (·.substUser (.single old new)) f

/-- Replaces a value everywhere. -/
def replaceAllUses (f : Func) (old new : Value) : Func := f.subst (.single old new)

end Func

end Lockstep
