import Weft.Doc.Basic

/-!
# Reading documents

Scripts and listings are read from documents by type. An integer may be given as decimal text,
bytes as hexadecimal text; long texts and bytes may be given in parts, a part repeated by pairing it
with a count. A document of the wrong shape is refused with what was expected in its place.
-/

namespace Weft

/-- A reading that may refuse its document. -/
abbrev Reading := Except String

/-- A type whose values can be read from documents. -/
class Read (α : Type) where
  /-- The value that a document stands for. -/
  read : Doc → Reading α

export Read (read)

namespace Doc

/-- The value of a field that has to be there. -/
def get (key : String) (d : Doc) : Reading Doc :=
  match d.get? key with
  | some v => .ok v
  | none => .error key

/-- A field of a record. -/
def field (α : Type) [Read α] (key : String) (d : Doc) : Reading α := do
  read (← d.get key)

/-- A field of a record, or a value in its place. -/
def fieldD {α : Type} [Read α] (key : String) (default : α) (d : Doc) : Reading α :=
  match d.get? key with
  | some v => read v
  | none => .ok default

/-- A field of a record if it is there. -/
def field? (α : Type) [Read α] (key : String) (d : Doc) : Reading (Option α) :=
  match d.get? key with
  | some v => do return some (← read v)
  | none => .ok none

/-- The items of a list. -/
def items : Doc → Reading (List Doc)
  | list ds => .ok ds
  | _ => .error "list"

/-- The integer that a number or a decimal text stands for. -/
def toInt : Doc → Reading Int
  | num n => .ok n
  | text s =>
    match s.toInt? with
    | some n => .ok n
    | none => .error "integer"
  | _ => .error "integer"

/-- The value of a hexadecimal digit in lower case. -/
def hexDigit (c : Char) : Reading Nat :=
  if '0' ≤ c ∧ c ≤ '9' then .ok (c.toNat - 48)
  else if 'a' ≤ c ∧ c ≤ 'f' then .ok (c.toNat - 87)
  else .error "hexadecimal digit"

/-- The number that a hexadecimal text stands for. -/
def toBits : Doc → Reading Nat
  | text s => s.toList.foldlM (fun n c => do return n * 16 + (← hexDigit c)) 0
  | _ => .error "hexadecimal text"

/-- The bytes of pairs of digits, behind those of `acc`, which is in reverse. -/
def hexPairs : List Char → List UInt8 → Reading (List UInt8)
  | [], acc => .ok acc.reverse
  | [_], _ => .error "pair of digits"
  | a :: b :: rest, acc => do
    hexPairs rest (UInt8.ofNat ((← hexDigit a) * 16 + (← hexDigit b)) :: acc)

/-- A document in parts: a single one, or a list of parts, each alone or with a count. -/
def parts : Doc → Reading (List (String × Nat))
  | text s => .ok [(s, 1)]
  | list ds => ds.mapM fun
    | text s => .ok (s, 1)
    | list [text s, n] => do return (s, (← n.toInt).toNat)
    | _ => .error "part"
  | _ => .error "text"

end Doc

instance : Read Doc := ⟨.ok⟩

instance : Read Int := ⟨Doc.toInt⟩

instance : Read Nat := ⟨fun d => do return (← d.toInt).toNat⟩

instance : Read UInt8 := ⟨fun d => do return UInt8.ofInt (← d.toInt)⟩

instance : Read UInt16 := ⟨fun d => do return UInt16.ofInt (← d.toInt)⟩

instance : Read UInt32 := ⟨fun d => do return UInt32.ofInt (← d.toInt)⟩

instance : Read Int8 := ⟨fun d => do return Int8.ofInt (← d.toInt)⟩

instance : Read Int16 := ⟨fun d => do return Int16.ofInt (← d.toInt)⟩

instance : Read Int32 := ⟨fun d => do return Int32.ofInt (← d.toInt)⟩

instance : Read Int64 := ⟨fun d => do return Int64.ofInt (← d.toInt)⟩

instance : Read Bool where
  read
    | .bool b => .ok b
    | _ => .error "truth value"

instance : Read String where
  read d := do
    return String.join ((← d.parts).flatMap fun p => List.replicate p.2 p.1)

instance : Read (List UInt8) where
  read d := do
    let pieces ← (← d.parts).mapM fun p => do
      return (List.replicate p.2 (← Doc.hexPairs p.1.toList [])).flatten
    return pieces.flatten

/-- The items of a list, each read by its type. -/
def Doc.each (α : Type) [Read α] (d : Doc) : Reading (List α) := do
  (← d.items).mapM read

/-- A field of a record as a list, if it is there. -/
def Doc.each? (α : Type) [Read α] (key : String) (d : Doc) : Reading (Option (List α)) :=
  match d.get? key with
  | some items => some <$> items.each α
  | none => return none

/-- A field of a record as a list, empty if it is missing. -/
def Doc.eachOf (α : Type) [Read α] (key : String) (d : Doc) : Reading (List α) :=
  return (← d.each? α key).getD []

instance {α β : Type} [Read α] [Read β] : Read (α × β) where
  read
    | .list [a, b] => do return (← read a, ← read b)
    | _ => .error "pair"

end Weft
