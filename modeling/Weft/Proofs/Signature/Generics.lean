import Weft.Proofs.Signature.Descriptors
import Weft.Signature.Generic

/-!
# Generic signatures are read faithfully

The grammar of reference types in generic signatures, as syntax trees. A tree has a text, a depth
and a meaning, and a field signature that is the text of a tree is read as its meaning if the tree
is less than fifty deep, and refused otherwise.
-/

namespace Weft

/-! ## The grammar -/

/-- A name without separators. -/
structure Identifier where
  text : String
  nonempty : text.toList ≠ []
  plain : ∀ c ∈ text.toList, c ∉ ['.', ';', '[', '/', '<', '>', ':']

/-- The name behind those of its packages. -/
def Identifier.inPackages (name : Identifier) : List Identifier → String
  | [] => name.text
  | package :: packages => package.text ++ "/" ++ name.inPackages packages

mutual

/-- A reference type in a generic signature. -/
inductive ReferenceSignature where
  | ofClass (packages : List Identifier) (name : Identifier) (arguments : List ArgumentSignature)
      (inner : List InnerSignature)
  | typeVariable (name : Identifier)
  | primitiveArray (component : Primitive)
  | array (component : ReferenceSignature)

/-- An inner class, behind the class that it belongs to. -/
inductive InnerSignature where
  | mk (name : Identifier) (arguments : List ArgumentSignature)

/-- A type argument. -/
inductive ArgumentSignature where
  | any
  | upper (bound : ReferenceSignature)
  | lower (bound : ReferenceSignature)
  | exact (type : ReferenceSignature)

end

/-! ### Texts -/

/-- The texts of arguments between angle brackets, or nothing for no arguments. -/
def ArgumentSignature.bracketed (arguments : List ArgumentSignature) (texts : String) : String :=
  if arguments.isEmpty then "" else "<" ++ texts ++ ">"

mutual

/-- The text of the type. -/
def ReferenceSignature.text : ReferenceSignature → String
  | .ofClass packages name arguments inner =>
    "L" ++ name.inPackages packages ++
      ArgumentSignature.bracketed arguments (argumentTexts arguments) ++ innerTexts inner ++ ";"
  | .typeVariable name => "T" ++ name.text ++ ";"
  | .primitiveArray component => "[" ++ component.code.toString
  | .array component => "[" ++ component.text

/-- The texts of the inner classes, each after a dot. -/
def innerTexts : List InnerSignature → String
  | [] => ""
  | .mk name arguments :: inner =>
    "." ++ name.text ++ ArgumentSignature.bracketed arguments (argumentTexts arguments) ++
      innerTexts inner

/-- The text of the argument. -/
def ArgumentSignature.text : ArgumentSignature → String
  | .any => "*"
  | .upper bound => "+" ++ bound.text
  | .lower bound => "-" ++ bound.text
  | .exact type => type.text

/-- The texts of the arguments, one behind the other. -/
def argumentTexts : List ArgumentSignature → String
  | [] => ""
  | a :: as => a.text ++ argumentTexts as

end

/-! ### Depths -/

mutual

/-- The number of reference types that nest in the type, itself counted. -/
def ReferenceSignature.depth : ReferenceSignature → Nat
  | .ofClass _ _ arguments inner => max (argumentDepth arguments) (innerDepth inner) + 1
  | .typeVariable _ => 1
  | .primitiveArray _ => 1
  | .array component => component.depth + 1

/-- The number of reference types that nest in the arguments of inner classes. -/
def innerDepth : List InnerSignature → Nat
  | [] => 0
  | .mk _ arguments :: inner => max (argumentDepth arguments) (innerDepth inner)

/-- The number of reference types that nest in the argument. -/
def ArgumentSignature.depth : ArgumentSignature → Nat
  | .any => 0
  | .upper bound => bound.depth
  | .lower bound => bound.depth
  | .exact type => type.depth

/-- The number of reference types that nest in some argument. -/
def argumentDepth : List ArgumentSignature → Nat
  | [] => 0
  | a :: as => max a.depth (argumentDepth as)

end

/-! ### Meanings -/

/-- The name of the innermost class, each inner class after a dollar sign. -/
def InnerSignature.rawName (outer : String) : List InnerSignature → String
  | [] => outer
  | .mk name _ :: inner => rawName (outer ++ "$" ++ name.text) inner

namespace GenericType

/-- The class with those arguments, plain if there are none. -/
def ofRaw (raw : ClassName) : List TypeArgument → GenericType
  | [] => .plain (.reference raw)
  | a :: as => .parameterized raw (a :: as)

/-- So many dimensions of arrays, held at the largest count, over a type that is no array. -/
def dimensioned : Nat → GenericType → GenericType
  | 0, element => element
  | n + 1, .plain element => .plain (.array (UInt8.ofNat (min (n + 1) 255)) element)
  | n + 1, element => .array (UInt8.ofNat (min (n + 1) 255)) element

end GenericType

mutual

/-- What so many dimensions of arrays over the type are, its variables without bounds. -/
def ReferenceSignature.meaningUnder : Nat → ReferenceSignature → GenericType
  | n, .ofClass packages name arguments inner =>
    .dimensioned n (.ofRaw ⟨InnerSignature.rawName (name.inPackages packages) inner⟩
      (lastMeanings (argumentMeanings arguments) inner))
  | n, .typeVariable name => .dimensioned n (.typeVariable name.text [])
  | n, .primitiveArray component => .dimensioned (n + 1) (.plain (.primitive component))
  | n, .array component => component.meaningUnder (n + 1)

/-- The arguments of the last inner class, or those that stand before it if there is none. -/
def lastMeanings : List TypeArgument → List InnerSignature → List TypeArgument
  | before, [] => before
  | _, .mk _ arguments :: inner => lastMeanings (argumentMeanings arguments) inner

/-- What the argument is. -/
def ArgumentSignature.meaning : ArgumentSignature → TypeArgument
  | .any => .any
  | .upper bound => .upper (bound.meaningUnder 0)
  | .lower bound => .lower (bound.meaningUnder 0)
  | .exact type => .exact (type.meaningUnder 0)

/-- What the arguments are. -/
def argumentMeanings : List ArgumentSignature → List TypeArgument
  | [] => []
  | a :: as => a.meaning :: argumentMeanings as

end

/-- What the type is, its variables without bounds. -/
def ReferenceSignature.meaning (t : ReferenceSignature) : GenericType :=
  t.meaningUnder 0

/-! ## Reading -/

/-- The scanner stands before those characters, as many bytes from the end as they have. -/
structure Scanner.At (s : Scanner) (cs : List Char) : Prop where
  whole : s.tail = []
  here : s.rest = cs
  left : s.pos + (String.ofList cs).utf8ByteSize = s.length

namespace Scanner

variable {s : Scanner} {c : Char} {cs ds : List Char}

theorem at_ofText (text : String) : (ofText text).At text.toList where
  whole := rfl
  here := rfl
  left := by simp [ofText]

theorem At.before (h : s.At (c :: cs)) (ascii : c.toNat < 0x80) : Scan.Before s c cs :=
  ⟨h.whole, h.here, ascii⟩

theorem At.length_lt_fuel (h : s.At cs) : cs.length < s.fuel := by
  have := Scan.length_le_utf8ByteSize cs
  have := h.left
  unfold fuel
  omega

theorem At.skip (h : s.At (ds ++ cs)) :
    At { s with pos := s.pos + (String.ofList ds).utf8ByteSize, tail := [], rest := cs } cs where
  whole := rfl
  here := rfl
  left := by
    have := h.left
    rw [String.ofList_append, String.utf8ByteSize_append] at this
    show s.pos + _ + _ = s.length
    omega

theorem At.next (h : s.At (c :: cs)) (ascii : c.toNat < 0x80) :
    At { s with pos := s.pos + 1, rest := cs } cs where
  whole := h.whole
  here := rfl
  left := by
    have := h.left
    rw [String.ofList_cons, String.utf8ByteSize_append, String.utf8ByteSize_singleton,
      Char.utf8Size_eq_one_iff.2
        (by simpa [UInt32.le_iff_toNat_le] using Nat.le_of_lt_succ ascii)] at this
    show s.pos + 1 + _ = s.length
    omega

end Scanner

namespace Scan

variable {α β : Type} {levels depth depth' : Nat} {a : α} {b : β} {c : Char}
  {cs ds es rest : List Char}

/-- From before `cs` the scan comes to stand before `ds` and answers the value, or refuses nesting
if that is `depth` levels deep and there are fewer of them. -/
def Reads (levels : Nat) (scan : Scan α) (cs ds : List Char) (depth : Nat) (a : α) : Prop :=
  ∀ s : Scanner, s.At cs →
    if depth ≤ levels then ∃ s', scan s = .ok a s' ∧ s'.At ds
    else ∃ s', scan s = .error (.recursionLimit nestingLimit) s'

namespace Reads

theorem of_flat {scan : Scan α} (h : ∀ s : Scanner, s.At cs → ∃ s', scan s = .ok a s' ∧ s'.At ds) :
    Reads levels scan cs ds 0 a := fun s stands => by
  rw [if_pos (Nat.zero_le levels)]
  exact h s stands

theorem pure (a : α) : Reads levels (Pure.pure a) cs cs 0 a :=
  of_flat fun s stands => ⟨s, rfl, stands⟩

theorem bind {x : Scan α} {f : α → Scan β} (h : Reads levels x cs ds depth a)
    (h' : Reads levels (f a) ds es depth' b) :
    Reads levels (x >>= f) cs es (max depth depth') b := by
  intro s stands
  have first := h s stands
  by_cases low : depth ≤ levels
  · rw [if_pos low] at first
    obtain ⟨t, first, stands'⟩ := first
    have second := h' t stands'
    by_cases low' : depth' ≤ levels
    · rw [if_pos (by omega)]
      rw [if_pos low'] at second
      obtain ⟨s', second, stands''⟩ := second
      exact ⟨s', bind_eq_ok.2 ⟨a, t, first, second⟩, stands''⟩
    · rw [if_neg (by omega)]
      rw [if_neg low'] at second
      obtain ⟨s', second⟩ := second
      exact ⟨s', step_bind_eq_error.2 (.inr ⟨a, t, first, second⟩)⟩
  · rw [if_neg (by omega)]
    rw [if_neg low] at first
    obtain ⟨s', first⟩ := first
    exact ⟨s', step_bind_error first⟩

/-- A step that reads no type, and what comes after it. -/
theorem step {x : Scan α} {f : α → Scan β} (h : Reads levels x cs ds 0 a)
    (h' : Reads levels (f a) ds es depth b) : Reads levels (x >>= f) cs es depth b :=
  Nat.zero_max depth ▸ h.bind h'

/-- A part that reads types, and what is done with it. -/
theorem close {x : Scan α} {f : α → Scan β} (h : Reads levels x cs ds depth a)
    (h' : Reads levels (f a) ds es 0 b) : Reads levels (x >>= f) cs es depth b :=
  Nat.max_zero depth ▸ h.bind h'

theorem next (ascii : c.toNat < 0x80) : Reads levels Scan.next (c :: cs) cs 0 c :=
  of_flat fun _ stands => ⟨_, (stands.before ascii).next_eq, stands.next ascii⟩

theorem peek (ascii : c.toNat < 0x80) : Reads levels Scan.peek (c :: cs) (c :: cs) 0 c :=
  of_flat fun s stands => ⟨s, (stands.before ascii).peek_eq, stands⟩

theorem expect (ascii : c.toNat < 0x80) : Reads levels (Scan.expect c) (c :: cs) cs 0 () :=
  of_flat fun _ stands => ⟨_, (stands.before ascii).expect_eq, stands.next ascii⟩

theorem accept (ascii : c.toNat < 0x80) : Reads levels (Scan.accept c) (c :: cs) cs 0 true := by
  refine (peek ascii).step ?_
  rw [if_pos (beq_self_eq_true c)]
  exact (next ascii).step (pure true)

theorem accept_other {d : Char} (ascii : c.toNat < 0x80) (other : c ≠ d) :
    Reads levels (Scan.accept d) (c :: cs) (c :: cs) 0 false := by
  refine (peek ascii).step ?_
  rw [if_neg (by simpa using other)]
  exact pure false

theorem identifier {stops name : List Char} (stops_mem : c ∈ stops) (some : name ≠ [])
    (plain : ∀ d ∈ name, d ∉ stops) :
    Reads levels (Scan.identifier stops) (name ++ c :: rest) (c :: rest) 0 (String.ofList name) :=
  of_flat fun _ stands => ⟨_, identifier_eq stops_mem some plain stands.here, stands.skip⟩

/-- A scan that takes its fuel from where it stands has more of it than there are characters. -/
theorem fueled {f : Nat → Scan α}
    (h : ∀ fuel, cs.length < fuel → Reads levels (f fuel) cs ds depth a) :
    Reads levels (do f (← get).fuel) cs ds depth a := fun s stands =>
  h s.fuel stands.length_lt_fuel s stands

/-- One level more is read by a scan that needs a level and has one fewer left for its parts. -/
theorem deeper {scan : Nat → Scan α} (none : scan 0 = throw (.recursionLimit nestingLimit))
    (some : ∀ levels, Reads levels (scan (levels + 1)) cs ds depth a) (levels : Nat) :
    Reads levels (scan levels) cs ds (depth + 1) a := by
  intro s stands
  cases levels with
  | zero =>
    rw [if_neg (Nat.not_succ_le_zero depth), none]
    exact ⟨s, rfl⟩
  | succ levels =>
    simp only [Nat.succ_le_succ_iff]
    exact some levels s stands

theorem untilStop_nil {stop : Char} {item : Scan α} {fuel : Nat} {acc : List α}
    (ascii : stop.toNat < 0x80) :
    Reads levels (untilStop.go stop item (fuel + 1) acc) (stop :: rest) (stop :: rest) 0
      acc.reverse := by
  refine (peek ascii).step ?_
  rw [if_pos (beq_self_eq_true stop)]
  exact pure _

theorem untilStop_cons {stop : Char} {item : Scan α} {fuel : Nat} {acc as : List α}
    (ascii : c.toNat < 0x80) (other : c ≠ stop) (first : Reads levels item (c :: cs) ds depth a)
    (others : Reads levels (untilStop.go stop item fuel (a :: acc)) ds es depth' as) :
    Reads levels (untilStop.go stop item (fuel + 1) acc) (c :: cs) es (max depth depth') as := by
  refine (peek ascii).step ?_
  rw [if_neg (by simpa using other)]
  exact first.bind others

end Reads

end Scan

/-! ### Names -/

namespace Identifier

theorem plain_of_subset (name : Identifier) {stops : List Char}
    (known : stops ⊆ ['.', ';', '[', '/', '<', '>', ':']) : ∀ c ∈ name.text.toList, c ∉ stops :=
  fun c mem stop => name.plain c mem (known stop)

theorem inPackages_nonempty (name : Identifier) (packages : List Identifier) :
    (name.inPackages packages).toList ≠ [] := by
  cases packages with
  | nil => exact name.nonempty
  | cons package packages => simp [inPackages]

theorem inPackages_plain (name : Identifier) (packages : List Identifier) :
    ∀ c ∈ (name.inPackages packages).toList, c ∉ ['<', '.', ';'] := by
  have known : ['<', '.', ';'] ⊆ ['.', ';', '[', '/', '<', '>', ':'] := by decide
  induction packages with
  | nil => exact name.plain_of_subset known
  | cons package packages ih =>
    intro c mem
    simp only [inPackages, String.toList_append, List.mem_append] at mem
    rcases mem with (mem | mem) | mem
    · exact package.plain_of_subset known c mem
    · obtain rfl : c = '/' := by simpa using mem
      decide
    · exact ih c mem

end Identifier

theorem InnerSignature.rawName_plain {outer : String}
    (plain : ∀ c ∈ outer.toList, c ∉ ['<', '.', ';']) (inner : List InnerSignature) :
    ∀ c ∈ (rawName outer inner).toList, c ∉ ['<', '.', ';'] := by
  induction inner generalizing outer with
  | nil => exact plain
  | cons part inner ih =>
    obtain ⟨name, arguments⟩ := part
    refine ih fun c mem => ?_
    simp only [String.toList_append, List.mem_append] at mem
    rcases mem with (mem | mem) | mem
    · exact plain c mem
    · obtain rfl : c = '$' := by simpa using mem
      decide
    · exact name.plain_of_subset (by decide) c mem

theorem ClassName.ofText_plain {text : String} (plain : ∀ c ∈ text.toList, c ∉ ['<', '.', ';']) :
    ofText text = ⟨text⟩ :=
  ofText_of_last (fun mem => plain '.' mem (by decide)) fun last =>
    plain ';' (List.mem_of_getLast? last) (by decide)

/-! ### First characters -/

theorem ReferenceSignature.text_head (t : ReferenceSignature) :
    ∃ c cs, t.text.toList = c :: cs ∧ c ∈ ['L', 'T', '['] := by
  cases t with
  | ofClass => exact ⟨'L', _, by simp [text]; rfl, by decide⟩
  | typeVariable => exact ⟨'T', _, by simp [text]; rfl, by decide⟩
  | primitiveArray => exact ⟨'[', _, by simp [text]; rfl, by decide⟩
  | array => exact ⟨'[', _, by simp [text]; rfl, by decide⟩

theorem ArgumentSignature.text_head (a : ArgumentSignature) :
    ∃ c cs, a.text.toList = c :: cs ∧ c ∈ ['*', '+', '-', 'L', 'T', '['] := by
  cases a with
  | any => exact ⟨'*', [], by simp [text], by decide⟩
  | upper => exact ⟨'+', _, by simp [text]; rfl, by decide⟩
  | lower => exact ⟨'-', _, by simp [text]; rfl, by decide⟩
  | exact t =>
    obtain ⟨c, cs, head, mem⟩ := t.text_head
    have known : ['L', 'T', '['] ⊆ ['*', '+', '-', 'L', 'T', '['] := by decide
    exact ⟨c, cs, by rw [text, head], known mem⟩

/-- What follows the arguments of a class in its text. -/
theorem innerTexts_head (inner : List InnerSignature) (rest : List Char) :
    ∃ c cs, (innerTexts inner).toList ++ ';' :: rest = c :: cs ∧ c ∈ ['.', ';'] := by
  cases inner with
  | nil => exact ⟨';', rest, by simp [innerTexts], by decide⟩
  | cons part inner =>
    obtain ⟨name, arguments⟩ := part
    exact ⟨'.', _, by simp [innerTexts]; rfl, by decide⟩

/-- What follows the name of a class in its text. -/
theorem bracketed_head (arguments : List ArgumentSignature) (texts : String)
    (inner : List InnerSignature) (rest : List Char) :
    ∃ c cs, (ArgumentSignature.bracketed arguments texts).toList ++
      ((innerTexts inner).toList ++ ';' :: rest) = c :: cs ∧ c ∈ ['<', '.', ';'] := by
  obtain ⟨c, cs, head, mem⟩ := innerTexts_head inner rest
  rw [head]
  cases arguments with
  | nil =>
    exact ⟨c, cs, by simp [ArgumentSignature.bracketed], List.mem_cons_of_mem _ mem⟩
  | cons a arguments =>
    exact ⟨'<', _, by simp [ArgumentSignature.bracketed]; rfl, by decide⟩

/-! ### Arrays -/

/-- The type is an array. -/
def GenericType.isArray : GenericType → Bool
  | .plain (.array ..) | .array .. => true
  | _ => false

theorem GenericType.ofRaw_isArray (raw : ClassName) (arguments : List TypeArgument) :
    (ofRaw raw arguments).isArray = false := by
  cases arguments <;> rfl

theorem GenericType.arrayOver_dimensioned (n : Nat) {t : GenericType} (h : t.isArray = false) :
    Scan.arrayOver (t.dimensioned n) = t.dimensioned (n + 1) := by
  cases n with
  | zero =>
    cases t with
    | plain type => cases type with
      | array => cases h
      | _ => rfl
    | array => cases h
    | _ => rfl
  | succ n =>
    have counted : JType.addDimensions (UInt8.ofNat (min (n + 1) 255)) 1 =
        UInt8.ofNat (min (n + 2) 255) := by
      unfold JType.addDimensions
      rw [UInt8.toNat_ofNat_of_lt' (by simp only [UInt8.size]; omega)]
      congr 1
      show min (min (n + 1) 255 + 1) 255 = _
      omega
    cases t with
    | plain type => exact congrArg (fun k => plain (.array k type)) counted
    | array => cases h
    | parameterized raw arguments => exact congrArg (array · (.parameterized raw arguments)) counted
    | typeVariable name bounds => exact congrArg (array · (.typeVariable name bounds)) counted
    | unknown => exact congrArg (array · .unknown) counted

theorem ReferenceSignature.arrayOver_meaningUnder (n : Nat) (t : ReferenceSignature) :
    Scan.arrayOver (t.meaningUnder n) = t.meaningUnder (n + 1) := by
  match n, t with
  | n, .ofClass .. => exact GenericType.arrayOver_dimensioned n (GenericType.ofRaw_isArray _ _)
  | n, .typeVariable _ => exact GenericType.arrayOver_dimensioned n rfl
  | n, .primitiveArray _ => exact GenericType.arrayOver_dimensioned (n + 1) rfl
  | n, .array component => exact arrayOver_meaningUnder (n + 1) component

/-! ### Productions -/

namespace Scan.Reads

variable {levels depth depth' fuel : Nat} {c : Char} {cs ds rest : List Char}
  {reference : Scan GenericType} {t : GenericType}

theorem word (name : Identifier) {stops : List Char} (mem : c ∈ stops)
    (known : stops ⊆ ['.', ';', '[', '/', '<', '>', ':']) :
    Reads levels (Scan.identifier stops) (name.text.toList ++ c :: rest) (c :: rest) 0
      name.text := by
  have read : Reads levels (Scan.identifier stops) (name.text.toList ++ c :: rest) _ _ _ :=
    identifier mem name.nonempty (name.plain_of_subset known)
  rwa [String.ofList_toList] at read

theorem argument_any : Reads levels (argument reference) ('*' :: cs) cs 0 .any :=
  (peek (by decide)).step ((next (by decide)).step (pure _))

theorem argument_upper (h : Reads levels reference cs ds depth t) :
    Reads levels (argument reference) ('+' :: cs) ds depth (.upper t) :=
  (peek (by decide)).step ((next (by decide)).step (h.close (pure _)))

theorem argument_lower (h : Reads levels reference cs ds depth t) :
    Reads levels (argument reference) ('-' :: cs) ds depth (.lower t) :=
  (peek (by decide)).step ((next (by decide)).step (h.close (pure _)))

theorem argument_exact (head : c ∈ ['L', 'T', '['])
    (h : Reads levels reference (c :: cs) ds depth t) :
    Reads levels (argument reference) (c :: cs) ds depth (.exact t) := by
  simp only [List.mem_cons, List.not_mem_nil, or_false] at head
  rcases head with rfl | rfl | rfl <;> exact (peek (by decide)).step (h.close (pure _))

theorem argumentList {item : Scan TypeArgument} {arguments : List ArgumentSignature}
    (follow : c ∈ ['.', ';'])
    (items : ∀ fuel rest, (argumentTexts arguments).toList.length < fuel →
      Reads levels (untilStop.go '>' item fuel []) ((argumentTexts arguments).toList ++ '>' :: rest)
        ('>' :: rest) (argumentDepth arguments) (argumentMeanings arguments)) :
    Reads levels (Scan.argumentList item)
      ((ArgumentSignature.bracketed arguments (argumentTexts arguments)).toList ++ c :: cs)
      (c :: cs) (argumentDepth arguments) (argumentMeanings arguments) := by
  cases arguments with
  | nil =>
    simp only [List.mem_cons, List.not_mem_nil, or_false] at follow
    rcases follow with rfl | rfl <;> exact (accept_other (by decide) (by decide)).step (pure _)
  | cons a arguments =>
    have text : (ArgumentSignature.bracketed (a :: arguments)
        (argumentTexts (a :: arguments))).toList ++ c :: cs = '<' ::
          ((argumentTexts (a :: arguments)).toList ++ '>' :: c :: cs) := by
      simp [ArgumentSignature.bracketed]
    rw [text]
    refine (accept (by decide)).step ?_
    refine Reads.close (fueled fun fuel enough => items fuel (c :: cs) ?_) ?_
    · rw [List.length_append] at enough
      omega
    · exact (expect (by decide)).step (pure _)

theorem innerClasses_nil {arguments : Scan (List TypeArgument)} {name : String}
    {before : List TypeArgument} :
    Reads levels (innerClasses arguments (fuel + 1) name before) (';' :: rest) (';' :: rest) 0
      (name, before) :=
  (accept_other (by decide) (by decide)).step (pure _)

theorem innerClasses_cons {arguments : Scan (List TypeArgument)}
    {before own last : List TypeArgument} {name raw : String} {inner : Identifier}
    (follow : c ∈ ['<', '.', ';'])
    (first : Reads levels arguments (c :: cs) ds depth own)
    (others : Reads levels (innerClasses arguments fuel (name ++ "$" ++ inner.text) own) ds rest
      depth' (raw, last)) :
    Reads levels (innerClasses arguments (fuel + 1) name before)
      ('.' :: (inner.text.toList ++ c :: cs)) rest (max depth depth') (raw, last) :=
  (accept (by decide)).step ((word inner follow (by decide)).step (first.bind others))

theorem classType {name raw : String} {own last : List TypeArgument} (some : name.toList ≠ [])
    (plain : ∀ d ∈ name.toList, d ∉ ['<', '.', ';'])
    (plain' : ∀ d ∈ raw.toList, d ∉ ['<', '.', ';'])
    (follow : c ∈ ['<', '.', ';'])
    (first : Reads levels (Scan.argumentList (argument reference)) (c :: cs) ds depth own)
    (others : ∀ fuel, ds.length < fuel →
      Reads levels (innerClasses (Scan.argumentList (argument reference)) fuel name own) ds
        (';' :: rest) depth' (raw, last)) :
    Reads levels (Scan.classType reference) (name.toList ++ c :: cs) rest (max depth depth')
      (.ofRaw ⟨raw⟩ last) := by
  refine (identifier follow some plain).step ?_
  rw [String.ofList_toList]
  refine first.bind (fueled (f := fun fuel =>
    innerClasses (Scan.argumentList (argument reference)) fuel name own >>= _)
    fun fuel enough => (others fuel enough).close ?_)
  refine (expect (by decide)).step ?_
  rw [ClassName.ofText_plain plain']
  cases last with
  | nil => exact pure _
  | cons a last => exact pure _

theorem javaType_reference (head : c ∈ ['L', 'T', '['])
    (h : Reads levels reference (c :: cs) ds depth t) :
    Reads levels (javaType reference) (c :: cs) ds depth t := by
  simp only [List.mem_cons, List.not_mem_nil, or_false] at head
  rcases head with rfl | rfl | rfl <;> exact (peek (by decide)).step h

theorem javaType_primitive (p : Primitive) :
    Reads levels (javaType reference) (p.code :: cs) cs 0 (.plain (.primitive p)) := by
  have ascii := p.code_plain.1
  have other : (p.code = 'L' || p.code = 'T' || p.code = '[') = false := by cases p <;> decide
  refine (peek ascii).step ?_
  rw [other]
  refine (next ascii).step ?_
  rw [Primitive.ofCode?_code]
  exact pure _

end Scan.Reads

/-! ### Trees -/

open Scan

/-- The text of the type is read as its meaning. -/
def ReferenceSignature.Read (t : ReferenceSignature) : Prop :=
  ∀ levels rest,
    Reads levels (referenceWithin levels) (t.text.toList ++ rest) rest t.depth t.meaning

/-- The text of the argument is read as its meaning. -/
def ArgumentSignature.Read (a : ArgumentSignature) : Prop :=
  ∀ levels rest,
    Reads levels (argument (referenceWithin levels)) (a.text.toList ++ rest) rest a.depth a.meaning

/-- The texts of the arguments are read as their meanings, behind those read before. -/
def ArgumentSignature.AllRead (arguments : List ArgumentSignature) : Prop :=
  ∀ levels fuel acc rest, (argumentTexts arguments).toList.length < fuel →
    Reads levels (untilStop.go '>' (argument (referenceWithin levels)) fuel acc)
      ((argumentTexts arguments).toList ++ '>' :: rest) ('>' :: rest) (argumentDepth arguments)
      (acc.reverse ++ argumentMeanings arguments)

/-- The texts of the inner classes are read as the names and the last arguments, behind a class. -/
def InnerSignature.AllRead (inner : List InnerSignature) : Prop :=
  ∀ levels fuel outer before rest, (innerTexts inner).toList.length < fuel →
    Reads levels (innerClasses (argumentList (argument (referenceWithin levels))) fuel outer before)
      ((innerTexts inner).toList ++ ';' :: rest) (';' :: rest) (innerDepth inner)
      (rawName outer inner, lastMeanings before inner)

namespace ArgumentSignature

theorem AllRead.nil : AllRead [] := by
  rintro levels (_ | fuel) acc rest enough
  · cases enough
  · rw [argumentMeanings, List.append_nil]
    exact Reads.untilStop_nil (by decide)

theorem AllRead.cons {a : ArgumentSignature} {arguments : List ArgumentSignature} (h : a.Read)
    (h' : AllRead arguments) : AllRead (a :: arguments) := by
  intro levels fuel acc rest enough
  have first := h levels ((argumentTexts arguments).toList ++ '>' :: rest)
  obtain ⟨c, cs, head, mem⟩ := a.text_head
  rw [argumentTexts, String.toList_append, head, List.length_append, List.length_cons] at enough
  -- each argument has a character at least, so the fuel lasts for one round
  obtain ⟨fuel, rfl⟩ : ∃ n, fuel = n + 1 := ⟨fuel - 1, by omega⟩
  have others := h' levels fuel (a.meaning :: acc) rest (by omega)
  rw [List.reverse_cons, List.append_assoc, List.singleton_append] at others
  rw [argumentTexts, String.toList_append, List.append_assoc, head]
  rw [head] at first
  simp only [List.mem_cons, List.not_mem_nil, or_false] at mem
  refine Reads.untilStop_cons ?_ ?_ first others
  · rcases mem with rfl | rfl | rfl | rfl | rfl | rfl <;> decide
  · rcases mem with rfl | rfl | rfl | rfl | rfl | rfl <;> decide

theorem AllRead.bracketed {arguments : List ArgumentSignature} (h : AllRead arguments)
    (levels : Nat) (inner : List InnerSignature) (rest : List Char) :
    Reads levels (argumentList (argument (referenceWithin levels)))
      ((ArgumentSignature.bracketed arguments (argumentTexts arguments)).toList ++
        ((innerTexts inner).toList ++ ';' :: rest))
      ((innerTexts inner).toList ++ ';' :: rest) (argumentDepth arguments)
      (argumentMeanings arguments) := by
  obtain ⟨c, cs, head, mem⟩ := innerTexts_head inner rest
  rw [head]
  exact Reads.argumentList mem fun fuel rest enough => h levels fuel [] rest enough

theorem Read.any : Read .any := fun _ _ => Reads.argument_any

theorem Read.upper {bound : ReferenceSignature} (h : bound.Read) : Read (.upper bound) := by
  intro levels rest
  rw [text, String.toList_append]
  exact Reads.argument_upper (h levels rest)

theorem Read.lower {bound : ReferenceSignature} (h : bound.Read) : Read (.lower bound) := by
  intro levels rest
  rw [text, String.toList_append]
  exact Reads.argument_lower (h levels rest)

theorem Read.exact {type : ReferenceSignature} (h : type.Read) : Read (.exact type) := by
  intro levels rest
  have read := h levels rest
  obtain ⟨c, cs, head, mem⟩ := type.text_head
  rw [head] at read
  rw [text, head]
  exact Reads.argument_exact mem read

end ArgumentSignature

namespace InnerSignature

theorem AllRead.nil : AllRead [] := by
  rintro levels (_ | fuel) outer before rest enough
  · cases enough
  · exact Reads.innerClasses_nil

theorem AllRead.cons {name : Identifier} {arguments : List ArgumentSignature}
    {inner : List InnerSignature} (h : ArgumentSignature.AllRead arguments) (h' : AllRead inner) :
    AllRead (.mk name arguments :: inner) := by
  intro levels fuel outer before rest enough
  have first := h.bracketed levels inner rest
  obtain ⟨c, cs, head, mem⟩ := bracketed_head arguments (argumentTexts arguments) inner rest
  simp only [innerTexts, String.toList_append, List.length_append] at enough
  obtain ⟨fuel, rfl⟩ : ∃ n, fuel = n + 1 := ⟨fuel - 1, by omega⟩
  simp only [innerTexts, String.toList_append, List.append_assoc, head]
  rw [head] at first
  exact Reads.innerClasses_cons mem first
    (h' levels fuel (outer ++ "$" ++ name.text) (argumentMeanings arguments) rest (by
      have : ".".toList.length = 1 := rfl
      omega))

end InnerSignature

namespace ReferenceSignature

theorem Read.ofClass {packages : List Identifier} {name : Identifier}
    {arguments : List ArgumentSignature} {inner : List InnerSignature}
    (h : ArgumentSignature.AllRead arguments) (h' : InnerSignature.AllRead inner) :
    Read (.ofClass packages name arguments inner) := by
  intro levels rest
  obtain ⟨c, cs, head, mem⟩ := bracketed_head arguments (argumentTexts arguments) inner rest
  have chars : (text (.ofClass packages name arguments inner)).toList ++ rest =
      'L' :: ((name.inPackages packages).toList ++ c :: cs) := by
    simp [text, ← head]
  rw [chars]
  refine Reads.deeper rfl (fun levels => (Reads.next (by decide)).step ?_) levels
  have first := h.bracketed levels inner rest
  have plain := name.inPackages_plain packages
  rw [head] at first
  refine Reads.classType (name.inPackages_nonempty packages) plain
    (InnerSignature.rawName_plain plain inner) mem first fun fuel enough => ?_
  rw [List.length_append] at enough
  exact h' levels fuel _ _ rest (by omega)

theorem Read.typeVariable (name : Identifier) : Read (.typeVariable name) := by
  intro levels rest
  have chars : (text (.typeVariable name)).toList ++ rest =
      'T' :: (name.text.toList ++ ';' :: rest) := by simp [text]
  rw [chars]
  refine Reads.deeper rfl (fun levels => (Reads.next (by decide)).step ?_) levels
  exact (Reads.word name (List.mem_singleton_self ';') (by decide)).step
    ((Reads.expect (by decide)).step (.pure _))

theorem Read.primitiveArray (component : Primitive) : Read (.primitiveArray component) := by
  intro levels rest
  have chars : (text (.primitiveArray component)).toList ++ rest =
      '[' :: component.code :: rest := by simp [text]
  rw [chars]
  refine Reads.deeper rfl (fun levels => (Reads.next (by decide)).step ?_) levels
  refine (Reads.javaType_primitive component).step ?_
  exact .pure _

theorem Read.array {component : ReferenceSignature} (h : component.Read) :
    Read (.array component) := by
  intro levels rest
  obtain ⟨c, cs, head, mem⟩ := component.text_head
  have chars : (text (.array component)).toList ++ rest = '[' :: c :: (cs ++ rest) := by
    simp [text, head]
  rw [chars]
  refine Reads.deeper rfl (fun levels => (Reads.next (by decide)).step ?_) levels
  have read := h levels rest
  rw [head] at read
  refine (Reads.javaType_reference mem read).close ?_
  rw [meaning, arrayOver_meaningUnder]
  exact .pure _

end ReferenceSignature

mutual

theorem ReferenceSignature.read : ∀ t : ReferenceSignature, t.Read
  | .ofClass _ _ arguments inner =>
    .ofClass (ArgumentSignature.allRead arguments) (InnerSignature.allRead inner)
  | .typeVariable name => .typeVariable name
  | .primitiveArray component => .primitiveArray component
  | .array component => .array component.read

theorem InnerSignature.allRead : ∀ inner : List InnerSignature,
    InnerSignature.AllRead inner
  | [] => .nil
  | .mk _ arguments :: inner =>
    .cons (ArgumentSignature.allRead arguments) (InnerSignature.allRead inner)

theorem ArgumentSignature.read : ∀ a : ArgumentSignature, a.Read
  | .any => .any
  | .upper bound => .upper bound.read
  | .lower bound => .lower bound.read
  | .exact type => .exact type.read

theorem ArgumentSignature.allRead : ∀ arguments : List ArgumentSignature,
    ArgumentSignature.AllRead arguments
  | [] => .nil
  | a :: arguments => .cons a.read (ArgumentSignature.allRead arguments)

end

/-- A field signature that is the text of a type is read as its meaning, with the bounds of its
variables resolved, if fewer than fifty references nest in it, and is refused otherwise. -/
theorem GenericType.ofText_referenceSignature (outer : List TypeParameter)
    (t : ReferenceSignature) :
    GenericType.ofText outer t.text =
      if t.depth < 50 then .ok (TypeScope.resolve ⟨outer, []⟩ t.meaning)
      else .error (.recursionLimit 50) := by
  have stands : (Scanner.ofText t.text).At (t.text.toList ++ []) := by
    rw [List.append_nil]
    exact Scanner.at_ofText t.text
  have read := t.read (nestingLimit - 1) [] _ stands
  by_cases low : t.depth < 50
  · rw [if_pos (show t.depth ≤ nestingLimit - 1 from Nat.le_of_lt_succ low)] at read
    obtain ⟨s', done, left⟩ := read
    have whole : fieldSignature outer (.ofText t.text) =
        .ok (TypeScope.resolve ⟨outer, []⟩ t.meaning) s' :=
      bind_eq_ok.2 ⟨_, s', done, bind_eq_ok.2 ⟨(), s', finish_eq_ok left.whole left.here, rfl⟩⟩
    rw [if_pos low]
    exact parse_eq_ok.2 ⟨s', whole⟩
  · rw [if_neg (show ¬t.depth ≤ nestingLimit - 1 from fun le => low (Nat.lt_succ_of_le le))] at read
    obtain ⟨s', refused⟩ := read
    rw [if_neg low]
    exact parse_eq_error.2 ⟨s', step_bind_error refused⟩

end Weft
