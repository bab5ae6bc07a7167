import Weft.Call.Value
import Weft.ClassFile.Constant
import Weft.Doc.Read

/-!
# Values and literals in scripts

A value or a literal is written as a list of its kind and content; floating point numbers by their
bits.
-/

namespace Weft

/-- The literal of a kind and its content. -/
def Literal.ofKind : String → Doc → Reading Literal
  | "int", d => return .int (← read d)
  | "long", d => return .long (← read d)
  | "float", d => return .float (UInt32.ofNat (← d.toBits))
  | "double", d => return .double (UInt64.ofNat (← d.toBits))
  | "string", d => return .string (← read d)
  | _, _ => .error "literal"

instance : Read Literal where
  read
    | .list [.text kind, d] => Literal.ofKind kind d
    | _ => .error "literal"

mutual

/-- The value that a document stands for. -/
def Value.ofDoc? : Doc → Option (Reading Value)
  | .list [.text "void"] => some (.ok .void)
  | .list [.text "null"] => some (.ok .null)
  | .list [.text "array", .list items] => some (.array <$> Value.ofDocs items)
  | .list [.text "bool", d] => some (.bool <$> read d)
  | .list [.text "char", d] => some (.char <$> read d)
  | .list [.text "byte", d] => some (.byte <$> read d)
  | .list [.text "short", d] => some (.short <$> read d)
  | .list [.text "int", d] => some (.int <$> read d)
  | .list [.text "long", d] => some (.long <$> read d)
  | .list [.text "float", d] => some do return .float (UInt32.ofNat (← d.toBits))
  | .list [.text "double", d] => some do return .double (UInt64.ofNat (← d.toBits))
  | .list [.text "str", d] => some (.str <$> read d)
  | .list [.text "ref", d] => some do return .ref ⟨← read d⟩
  | _ => none

/-- The values that documents stand for. -/
def Value.ofDocs : List Doc → Reading (List Value)
  | [] => .ok []
  | d :: ds => do
    match Value.ofDoc? d with
    | some v => return (← v) :: (← Value.ofDocs ds)
    | none => throw "value"

end

instance : Read Value where
  read d := (Value.ofDoc? d).getD (.error "value")

end Weft
