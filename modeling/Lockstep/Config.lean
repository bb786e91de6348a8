/-!
# Configuration

The switches of the pipeline, and their reading from text. The text is a JSON object from names
to truth values, in which each switch may occur once and a missing one keeps its default, or an
array of truth values in the order of the switches.
-/

namespace Lockstep

/-- Which stages of the pipeline run. -/
structure Config where
  structOpt : Bool := true
  srov : Bool := true
  irPolish : Bool := true
  reductionOpt : Bool := true
  controlFlow : Bool := true
  /-- Whether masked calls are made lane by lane. -/
  cascadeCalls : Bool := false
  deriving DecidableEq, Repr, Inhabited

namespace Config

/-- The switches with their names, in order. -/
def switches (c : Config) : List (String × Bool) :=
  [("struct_opt", c.structOpt), ("srov", c.srov), ("ir_polish", c.irPolish),
    ("reduction_opt", c.reductionOpt), ("control_flow", c.controlFlow),
    ("cascade_calls", c.cascadeCalls)]

/-- Sets the switch with a name, if there is one. -/
def set? (c : Config) (name : String) (b : Bool) : Option Config :=
  match name with
  | "struct_opt" => some { c with structOpt := b }
  | "srov" => some { c with srov := b }
  | "ir_polish" => some { c with irPolish := b }
  | "reduction_opt" => some { c with reductionOpt := b }
  | "control_flow" => some { c with controlFlow := b }
  | "cascade_calls" => some { c with cascadeCalls := b }
  | _ => none

/-! ## Tokens -/

/-- A token of the text. -/
inductive Token where
  | openBrace | closeBrace | openBracket | closeBracket | comma | colon
  | bool (b : Bool)
  | str (s : String)
  deriving DecidableEq, Repr

/-- The value of a hexadecimal digit. -/
def hexDigit? (c : Char) : Option Nat :=
  if '0' ≤ c ∧ c ≤ '9' then some (c.toNat - '0'.toNat)
  else if 'a' ≤ c ∧ c ≤ 'f' then some (c.toNat - 'a'.toNat + 10)
  else if 'A' ≤ c ∧ c ≤ 'F' then some (c.toNat - 'A'.toNat + 10)
  else none

/-- The character of a four-digit escape. A surrogate is refused, since no switch has a name
outside the basic plane. -/
def escaped? (a b c d : Char) : Option Char := do
  let n := ((← hexDigit? a) * 16 + (← hexDigit? b)) * 256 + (← hexDigit? c) * 16 + (← hexDigit? d)
  if 0xd800 ≤ n ∧ n < 0xe000 then none else some (Char.ofNat n)

/-- The character of a one-letter escape. -/
def escape? : Char → Option Char
  | '"' => some '"'
  | '\\' => some '\\'
  | '/' => some '/'
  | 'b' => some '\x08'
  | 'f' => some '\x0c'
  | 'n' => some '\n'
  | 'r' => some '\r'
  | 't' => some '\t'
  | _ => none

/-- Splits a text into tokens. The first argument holds the characters of a string that is open,
newest first. -/
def tokens? : Option (List Char) → List Char → Option (List Token)
  | none, [] => some []
  | some _, [] => none
  | none, 't' :: 'r' :: 'u' :: 'e' :: cs => (tokens? none cs).map (.bool true :: ·)
  | none, 'f' :: 'a' :: 'l' :: 's' :: 'e' :: cs => (tokens? none cs).map (.bool false :: ·)
  | none, '\x7b' :: cs => (tokens? none cs).map (.openBrace :: ·)
  | none, '\x7d' :: cs => (tokens? none cs).map (.closeBrace :: ·)
  | none, '[' :: cs => (tokens? none cs).map (.openBracket :: ·)
  | none, ']' :: cs => (tokens? none cs).map (.closeBracket :: ·)
  | none, ',' :: cs => (tokens? none cs).map (.comma :: ·)
  | none, ':' :: cs => (tokens? none cs).map (.colon :: ·)
  | none, '"' :: cs => tokens? (some []) cs
  | none, c :: cs => if c = ' ' ∨ c = '\t' ∨ c = '\n' ∨ c = '\r' then tokens? none cs else none
  | some open_, '"' :: cs => (tokens? none cs).map (.str (String.ofList open_.reverse) :: ·)
  | some open_, '\\' :: 'u' :: a :: b :: c :: d :: cs =>
    match escaped? a b c d with
    | some e => tokens? (some (e :: open_)) cs
    | none => none
  | some open_, '\\' :: c :: cs =>
    match escape? c with
    | some e => tokens? (some (e :: open_)) cs
    | none => none
  | some open_, c :: cs => if c < ' ' ∨ c = '\\' then none else tokens? (some (c :: open_)) cs

/-! ## Reading -/

/-- The members of an object after its opening brace, of which there is at least one. -/
def members? : List Token → Option (List (String × Bool))
  | [.str name, .colon, .bool b, .closeBrace] => some [(name, b)]
  | .str name :: .colon :: .bool b :: .comma :: rest => (members? rest).map ((name, b) :: ·)
  | _ => none

/-- The elements of an array after its opening bracket, of which there is at least one. -/
def elements? : List Token → Option (List Bool)
  | [.bool b, .closeBracket] => some [b]
  | .bool b :: .comma :: rest => (elements? rest).map (b :: ·)
  | _ => none

/-- Sets switches that are named one after the other, each at most once. -/
def setAll? (c : Config) : List (String × Bool) → Option Config
  | [] => some c
  | (name, b) :: rest =>
    if rest.any (·.1 == name) then none
    else
      match c.set? name b with
      | some c => setAll? c rest
      | none => none

/-- The settings of a list of tokens. -/
def ofTokens? : List Token → Option Config
  | [.openBrace, .closeBrace] | [.openBracket, .closeBracket] => some {}
  | .openBrace :: rest => do setAll? {} (← members? rest)
  | .openBracket :: rest => do
    let bs ← elements? rest
    let names := (switches {}).map Prod.fst
    if names.length < bs.length then none else setAll? {} (names.zip bs)
  | _ => none

/-- Reads a configuration. -/
def ofText? (s : String) : Option Config := do ofTokens? (← tokens? none s.toList)

end Config

end Lockstep
