/-!
# Documents

Structured text without a notation of its own: truth values, integers, texts, bytes, lists and
records. Values of the library describe themselves as documents, and scripts are read from them.
-/

namespace Weft

/-- A structured text. -/
inductive Doc where
  | null
  | bool (value : Bool)
  | num (value : Int)
  | text (value : String)
  | blob (bytes : List UInt8)
  | list (items : List Doc)
  | record (fields : List (String × Doc))

namespace Doc

instance : Inhabited Doc := ⟨null⟩

/-- The value of a field of a record, unless it is missing or null. -/
def get? (key : String) : Doc → Option Doc
  | record fields =>
    match (fields.find? (·.1 == key)).map (·.2) with
    | some null => none
    | value => value
  | _ => none

mutual

/-- The document with its texts and its bytes changed; the keys of records stay. -/
def map (text : String → String) (blob : List UInt8 → List UInt8) : Doc → Doc
  | .text s => .text (text s)
  | .blob bytes => .blob (blob bytes)
  | .list items => .list (mapItems text blob items)
  | .record fields => .record (mapFields text blob fields)
  | d => d

/-- The documents with their texts and their bytes changed. -/
def mapItems (text : String → String) (blob : List UInt8 → List UInt8) : List Doc → List Doc
  | [] => []
  | d :: ds => d.map text blob :: mapItems text blob ds

/-- The fields with their texts and their bytes changed. -/
def mapFields (text : String → String) (blob : List UInt8 → List UInt8) :
    List (String × Doc) → List (String × Doc)
  | [] => []
  | (key, d) :: rest => (key, d.map text blob) :: mapFields text blob rest

end

end Doc

end Weft
