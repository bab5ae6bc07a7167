import Weft.Proofs.Signature.Generics

/-!
# The bounds of type variables

A class signature is resolved part by part, by rules that expand a variable into the bounds of its
declaration. The rules give every part exactly one answer however the declarations refer to each
other, since a variable is not expanded inside its own bounds. In the answer exactly the variables
that are met again inside their own bounds and those that are declared nowhere have the unknown
bound, and no bound of a wildcard holds a wildcard.
-/

namespace Weft

/-! ## Places in a type -/

/-- The type of an argument, if it has one. -/
def TypeArgument.type? : TypeArgument → Option GenericType
  | .any => none
  | .upper bound => some bound
  | .lower bound => some bound
  | .exact type => some type

namespace GenericType

/-- A type that stands inside the bounds of the variables `active` has a part that stands inside
those of further variables, the innermost first. -/
inductive Occurs : List String → GenericType → List String → GenericType → Prop
  | here {active : List String} (t : GenericType) : Occurs active t active t
  | component {active active' : List String} {n : UInt8} {c u : GenericType}
    (h : Occurs active c active' u) : Occurs active (.array n c) active' u
  | argument {active active' : List String} {raw : ClassName} {args : List TypeArgument}
    {a : TypeArgument} {t u : GenericType} (mem : a ∈ args) (type : a.type? = some t)
    (h : Occurs active t active' u) : Occurs active (.parameterized raw args) active' u
  | bound {active active' : List String} {name : String} {bounds : List GenericType}
    {b u : GenericType} (mem : b ∈ bounds) (h : Occurs (name :: active) b active' u) :
    Occurs active (.typeVariable name bounds) active' u

/-- A wildcard is an argument of the type or of a part, outside the bounds of variables. -/
def HasWildcard (t : GenericType) : Prop :=
  ∃ raw args, Occurs [] t [] (.parameterized raw args) ∧ ∃ a ∈ args, a.isWildcard = true

end GenericType

/-! ## The rules of resolution -/

namespace TypeScope

mutual

/-- What a type is resolved to inside the bounds of the variables `active`. -/
inductive Resolves (scope : TypeScope) : List String → GenericType → GenericType → Prop
  | plain {active : List String} (type : JType) : Resolves scope active (.plain type) (.plain type)
  | unknown {active : List String} : Resolves scope active .unknown .unknown
  | parameterized {active : List String} {raw : ClassName} {as bs : List TypeArgument}
    (h : ResolvesArguments scope active as bs) :
    Resolves scope active (.parameterized raw as) (.parameterized raw bs)
  | array {active : List String} {n : UInt8} {c d : GenericType} (h : Resolves scope active c d) :
    Resolves scope active (.array n c) (.array n d)
  | recursive {active : List String} {name : String} {bounds : List GenericType}
    (mem : name ∈ active) :
    Resolves scope active (.typeVariable name bounds) (.typeVariable name [.unknown])
  | declared {active : List String} {name : String} {p : TypeParameter}
    {bounds resolved : List GenericType} (fresh : name ∉ active)
    (first : scope.inner.find? (·.name == name) = some p)
    (h : ResolvesAll scope (name :: active) p.bounds resolved) :
    Resolves scope active (.typeVariable name bounds) (.typeVariable name resolved)
  | enclosing {active : List String} {name : String} {p : TypeParameter}
    {bounds : List GenericType} (fresh : name ∉ active)
    (absent : scope.inner.find? (·.name == name) = none)
    (first : scope.outer.find? (·.name == name) = some p) :
    Resolves scope active (.typeVariable name bounds) (.typeVariable name p.bounds)
  | undeclared {active : List String} {name : String} {bounds : List GenericType}
    (fresh : name ∉ active) (absent : scope.inner.find? (·.name == name) = none)
    (absent' : scope.outer.find? (·.name == name) = none) :
    Resolves scope active (.typeVariable name bounds) (.typeVariable name [.unknown])

/-- What an argument is resolved to. -/
inductive ResolvesArgument (scope : TypeScope) : List String → TypeArgument → TypeArgument → Prop
  | any {active : List String} : ResolvesArgument scope active .any .any
  | exact {active : List String} {t r : GenericType} (h : Resolves scope active t r) :
    ResolvesArgument scope active (.exact t) (.exact r)
  | upper {active : List String} {t r : GenericType} (flat : ¬ t.HasWildcard)
    (h : Resolves scope active t r) : ResolvesArgument scope active (.upper t) (.upper r)
  | lower {active : List String} {t r : GenericType} (flat : ¬ t.HasWildcard)
    (h : Resolves scope active t r) : ResolvesArgument scope active (.lower t) (.lower r)
  | upperUnknown {active : List String} {t : GenericType} (nested : t.HasWildcard) :
    ResolvesArgument scope active (.upper t) (.upper .unknown)
  | lowerUnknown {active : List String} {t : GenericType} (nested : t.HasWildcard) :
    ResolvesArgument scope active (.lower t) (.lower .unknown)

/-- What arguments are resolved to. -/
inductive ResolvesArguments (scope : TypeScope) :
    List String → List TypeArgument → List TypeArgument → Prop
  | nil {active : List String} : ResolvesArguments scope active [] []
  | cons {active : List String} {a b : TypeArgument} {as bs : List TypeArgument}
    (head : ResolvesArgument scope active a b) (tail : ResolvesArguments scope active as bs) :
    ResolvesArguments scope active (a :: as) (b :: bs)

/-- What types are resolved to. -/
inductive ResolvesAll (scope : TypeScope) :
    List String → List GenericType → List GenericType → Prop
  | nil {active : List String} : ResolvesAll scope active [] []
  | cons {active : List String} {t r : GenericType} {ts rs : List GenericType}
    (head : Resolves scope active t r) (tail : ResolvesAll scope active ts rs) :
    ResolvesAll scope active (t :: ts) (r :: rs)

end

end TypeScope

/-! ## Wildcards -/

namespace GenericType

variable {active active' : List String} {t u : GenericType}

theorem Occurs.suffix (h : Occurs active t active' u) : active <:+ active' := by
  induction h with
  | here => exact List.suffix_rfl
  | component _ ih => exact ih
  | argument _ _ _ ih => exact ih
  | bound _ _ ih => exact (List.suffix_cons _ _).trans ih

/-- Some argument is a wildcard or has a type that contains one. -/
theorem anyWildcard_of_mem {args : List TypeArgument} {a : TypeArgument} (mem : a ∈ args)
    (wild : a.isWildcard = true ∨ ∃ t, a.type? = some t ∧ t.containsWildcard = true) :
    anyWildcard args = true := by
  induction args with
  | nil => cases mem
  | cons b args ih =>
    rcases List.mem_cons.1 mem with rfl | mem'
    · cases a with
      | exact type =>
        rcases wild with wild | ⟨t, same, inside⟩
        · cases wild
        · cases same
          rw [anyWildcard, inside, Bool.true_or]
      | _ => rfl
    · cases b with
      | exact type => rw [anyWildcard, ih mem', Bool.or_true]
      | _ => rfl

theorem containsWildcard_of_occurs {raw : ClassName} {args : List TypeArgument} {a : TypeArgument}
    (h : Occurs active t active' u) (same : active' = active) (whole : u = .parameterized raw args)
    (mem : a ∈ args) (wild : a.isWildcard = true) : t.containsWildcard = true := by
  induction h with
  | here =>
    subst whole
    exact anyWildcard_of_mem mem (.inl wild)
  | component _ ih => exact ih same whole
  | argument mem' type _ ih => exact anyWildcard_of_mem mem' (.inr ⟨_, type, ih same whole⟩)
  | bound _ h =>
    -- inside bounds the variable has been added for good
    have longer := h.suffix.length_le
    rw [same] at longer
    exact absurd longer (by simp)

mutual

theorem occurs_of_containsWildcard : ∀ t : GenericType, t.containsWildcard = true →
    ∃ raw args, Occurs active t active (.parameterized raw args) ∧ ∃ a ∈ args, a.isWildcard = true
  | .parameterized raw args, h => by
    rcases occurs_of_anyWildcard args h with ⟨a, mem, wild⟩ | ⟨t, mem, raw', args', occurs, wild⟩
    · exact ⟨raw, args, .here _, a, mem, wild⟩
    · exact ⟨raw', args', .argument mem rfl occurs, wild⟩
  | .array n component, h => by
    obtain ⟨raw, args, occurs, wild⟩ := occurs_of_containsWildcard component h
    exact ⟨raw, args, .component occurs, wild⟩

theorem occurs_of_anyWildcard : ∀ as : List TypeArgument, anyWildcard as = true →
    (∃ a ∈ as, a.isWildcard = true) ∨ ∃ t, .exact t ∈ as ∧
      ∃ raw args, Occurs active t active (.parameterized raw args) ∧ ∃ a ∈ args, a.isWildcard = true
  | .exact type :: rest, h => by
    rw [anyWildcard, Bool.or_eq_true] at h
    rcases h with inside | h
    · exact .inr ⟨type, List.mem_cons_self, occurs_of_containsWildcard type inside⟩
    · rcases occurs_of_anyWildcard rest h with ⟨a, mem, wild⟩ | ⟨t, mem, occurs⟩
      · exact .inl ⟨a, List.mem_cons_of_mem _ mem, wild⟩
      · exact .inr ⟨t, List.mem_cons_of_mem _ mem, occurs⟩
  | .any :: _, _ => .inl ⟨_, List.mem_cons_self, rfl⟩
  | .upper _ :: _, _ => .inl ⟨_, List.mem_cons_self, rfl⟩
  | .lower _ :: _, _ => .inl ⟨_, List.mem_cons_self, rfl⟩

end

/-- The check for wildcards finds those outside the bounds of variables. -/
theorem containsWildcard_iff : t.containsWildcard = true ↔ t.HasWildcard := by
  constructor
  · exact occurs_of_containsWildcard t
  · rintro ⟨raw, args, occurs, a, mem, wild⟩
    exact containsWildcard_of_occurs occurs rfl rfl mem wild

mutual

/-- The bounds of variables have nothing to do with the wildcards outside them. -/
theorem containsWildcard_withBounds (bounds : String → List GenericType) :
    ∀ t : GenericType, (t.withBounds bounds).containsWildcard = t.containsWildcard
  | .plain _ => rfl
  | .parameterized _ args => anyWildcard_withBounds bounds args
  | .typeVariable _ _ => rfl
  | .array _ component => containsWildcard_withBounds bounds component
  | .unknown => rfl

theorem anyWildcard_withBounds (bounds : String → List GenericType) :
    ∀ as : List TypeArgument, anyWildcard (argumentsWithBounds bounds as) = anyWildcard as
  | [] => rfl
  | .exact type :: rest => by
    show (_ || _) = (_ || _)
    rw [containsWildcard_withBounds bounds type, anyWildcard_withBounds bounds rest]
  | .any :: _ => rfl
  | .upper bound :: _ => by
    rw [argumentsWithBounds, TypeArgument.withBounds]
    split <;> rfl
  | .lower bound :: _ => by
    rw [argumentsWithBounds, TypeArgument.withBounds]
    split <;> rfl

end

end GenericType

/-! ## One answer for every type -/

namespace TypeScope

variable {scope : TypeScope} {active : List String} {name : String} {p : TypeParameter}
  {levels levels' : Nat}

/-- The declarations that can still be expanded inside the bounds of the variables `active`. -/
def remaining (scope : TypeScope) (active : List String) : List TypeParameter :=
  scope.inner.filter fun p => !active.contains p.name

/-- An expansion uses a declaration up. -/
theorem length_remaining_cons (fresh : name ∉ active)
    (first : scope.inner.find? (·.name == name) = some p) :
    (scope.remaining (name :: active)).length < (scope.remaining active).length := by
  have same : p.name = name := by simpa using List.find?_some first
  have fewer : scope.remaining (name :: active) =
      (scope.remaining active).filter fun p => p.name != name := by
    rw [remaining, remaining, List.filter_filter]
    refine List.filter_congr fun q _ => ?_
    simp only [List.contains_cons, Bool.not_or, bne]
  rw [fewer, List.length_filter_lt_length_iff_exists]
  refine ⟨p, List.mem_filter.2 ⟨List.mem_of_find?_eq_some first, ?_⟩, by simp [same]⟩
  simpa [same] using fresh

theorem length_remaining_le (scope : TypeScope) (active : List String) :
    (scope.remaining active).length ≤ scope.inner.length :=
  List.length_filter_le _ _

/-- Levels beyond the declarations that can still be expanded make no difference. -/
theorem bounds_levels (enough : (scope.remaining active).length < levels)
    (enough' : (scope.remaining active).length < levels') :
    scope.bounds levels active = scope.bounds levels' active := by
  induction levels generalizing levels' active with
  | zero => exact absurd enough (Nat.not_lt_zero _)
  | succ levels ih =>
    obtain ⟨levels', rfl⟩ := Nat.exists_eq_succ_of_ne_zero (Nat.ne_zero_of_lt enough')
    funext name
    simp only [bounds]
    split
    · rfl
    · rename_i fresh
      split
      · rename_i p first
        -- on either side the bounds are expanded with one declaration and one level less
        have fewer := length_remaining_cons (by simpa using fresh) first
        rw [ih (show _ < levels by omega) (show _ < levels' by omega)]
      · rfl

/-- The bounds of a variable as resolution gives them. -/
def boundsIn (scope : TypeScope) (active : List String) : String → List GenericType :=
  scope.bounds (scope.inner.length + 1) active

theorem resolveIn_eq (t : GenericType) :
    scope.resolveIn active t = t.withBounds (scope.boundsIn active) := rfl

theorem boundsIn_of_mem (mem : name ∈ active) : scope.boundsIn active name = [.unknown] := by
  unfold boundsIn bounds
  rw [if_pos (by simpa using mem)]

theorem boundsIn_declared (fresh : name ∉ active)
    (first : scope.inner.find? (·.name == name) = some p) :
    scope.boundsIn active name = p.bounds.map (scope.resolveIn (name :: active)) := by
  have fewer := length_remaining_cons fresh first
  have most := length_remaining_le scope active
  have deeper : scope.bounds scope.inner.length (name :: active) = scope.boundsIn (name :: active) :=
    bounds_levels (by omega) (by omega)
  unfold boundsIn bounds
  rw [if_neg (by simpa using fresh), first, deeper]
  rfl

theorem boundsIn_enclosing (fresh : name ∉ active)
    (absent : scope.inner.find? (·.name == name) = none) : scope.boundsIn active name =
      match scope.outer.find? (·.name == name) with
      | some p => p.bounds
      | none => [.unknown] := by
  unfold boundsIn bounds
  rw [if_neg (by simpa using fresh)]
  split
  · rename_i p first
    cases first.symm.trans absent
  · rfl

mutual

theorem Resolves.eq {active : List String} {t r : GenericType} :
    scope.Resolves active t r → r = scope.resolveIn active t
  | .plain _ => rfl
  | .unknown => rfl
  | .parameterized h => by
    rw [resolveIn_eq, GenericType.withBounds, h.eq]
  | .array h => by
    rw [resolveIn_eq, GenericType.withBounds, h.eq]
    rfl
  | .recursive mem => by
    rw [resolveIn_eq, GenericType.withBounds, boundsIn_of_mem mem]
  | .declared fresh first h => by
    rw [resolveIn_eq, GenericType.withBounds, boundsIn_declared fresh first, h.eq]
  | .enclosing fresh absent first => by
    rw [resolveIn_eq, GenericType.withBounds, boundsIn_enclosing fresh absent, first]
  | .undeclared fresh absent absent' => by
    rw [resolveIn_eq, GenericType.withBounds, boundsIn_enclosing fresh absent, absent']

theorem ResolvesArgument.eq {active : List String} {a b : TypeArgument} :
    scope.ResolvesArgument active a b → b = a.withBounds (scope.boundsIn active)
  | .any => rfl
  | .exact h => by
    rw [TypeArgument.withBounds, h.eq]
    rfl
  | .upper flat h => by
    rw [TypeArgument.withBounds, if_neg (GenericType.containsWildcard_iff.not.2 flat), h.eq]
    rfl
  | .lower flat h => by
    rw [TypeArgument.withBounds, if_neg (GenericType.containsWildcard_iff.not.2 flat), h.eq]
    rfl
  | .upperUnknown nested => by
    rw [TypeArgument.withBounds, if_pos (GenericType.containsWildcard_iff.2 nested)]
  | .lowerUnknown nested => by
    rw [TypeArgument.withBounds, if_pos (GenericType.containsWildcard_iff.2 nested)]

theorem ResolvesArguments.eq {active : List String} {as bs : List TypeArgument} :
    scope.ResolvesArguments active as bs → bs = argumentsWithBounds (scope.boundsIn active) as
  | .nil => rfl
  | .cons head tail => by
    rw [argumentsWithBounds, head.eq, tail.eq]

theorem ResolvesAll.eq {active : List String} {ts rs : List GenericType} :
    scope.ResolvesAll active ts rs → rs = ts.map (scope.resolveIn active)
  | .nil => rfl
  | .cons head tail => by
    rw [List.map_cons, head.eq, tail.eq]

end

/-- Every declaration that can be expanded further is answered. -/
def Expands (scope : TypeScope) (active : List String) : Prop :=
  ∀ name p, name ∉ active → scope.inner.find? (·.name == name) = some p →
    scope.ResolvesAll (name :: active) p.bounds (p.bounds.map (scope.resolveIn (name :: active)))

mutual

theorem Expands.resolves {active : List String} (h : scope.Expands active) :
    ∀ t : GenericType, scope.Resolves active t (scope.resolveIn active t)
  | .plain type => .plain type
  | .unknown => .unknown
  | .parameterized _ args => .parameterized (h.resolvesArguments args)
  | .array _ component => .array (h.resolves component)
  | .typeVariable name bounds => by
    rw [resolveIn_eq, GenericType.withBounds]
    by_cases mem : name ∈ active
    · rw [boundsIn_of_mem mem]
      exact .recursive mem
    · cases first : scope.inner.find? (·.name == name) with
      | some p =>
        rw [boundsIn_declared mem first]
        exact .declared mem first (h name p mem first)
      | none =>
        rw [boundsIn_enclosing mem first]
        cases around : scope.outer.find? (·.name == name) with
        | some p => exact .enclosing mem first around
        | none => exact .undeclared mem first around

theorem Expands.resolvesArgument {active : List String} (h : scope.Expands active) :
    ∀ a : TypeArgument, scope.ResolvesArgument active a (a.withBounds (scope.boundsIn active))
  | .any => .any
  | .exact type => .exact (h.resolves type)
  | .upper bound => by
    rw [TypeArgument.withBounds]
    split
    · rename_i nested
      exact .upperUnknown (GenericType.containsWildcard_iff.1 nested)
    · rename_i flat
      exact .upper (GenericType.containsWildcard_iff.not.1 flat) (h.resolves bound)
  | .lower bound => by
    rw [TypeArgument.withBounds]
    split
    · rename_i nested
      exact .lowerUnknown (GenericType.containsWildcard_iff.1 nested)
    · rename_i flat
      exact .lower (GenericType.containsWildcard_iff.not.1 flat) (h.resolves bound)

theorem Expands.resolvesArguments {active : List String} (h : scope.Expands active) :
    ∀ as : List TypeArgument,
      scope.ResolvesArguments active as (argumentsWithBounds (scope.boundsIn active) as)
  | [] => .nil
  | a :: as => .cons (h.resolvesArgument a) (h.resolvesArguments as)

end

theorem resolvesAll_of_each {ts : List GenericType} {f : GenericType → GenericType}
    (each : ∀ t ∈ ts, scope.Resolves active t (f t)) : scope.ResolvesAll active ts (ts.map f) := by
  induction ts with
  | nil => exact .nil
  | cons t ts ih =>
    exact .cons (each t List.mem_cons_self) (ih fun u mem => each u (List.mem_cons_of_mem t mem))

/-- Expansions come to an end, each using a declaration up. -/
theorem expands (scope : TypeScope) (active : List String) : scope.Expands active := by
  -- each type is done by recursion on it, each expansion by what is left to expand
  generalize same : (scope.remaining active).length = n
  induction n using Nat.strongRecOn generalizing active with
  | ind n ih =>
    intro name p fresh first
    have fewer := length_remaining_cons fresh first
    exact resolvesAll_of_each fun t _ => (ih _ (same ▸ fewer) (name :: active) rfl).resolves t

/-- The rules have exactly one answer for a type, and resolution gives it. -/
theorem resolves_iff {t r : GenericType} :
    scope.Resolves active t r ↔ r = scope.resolveIn active t := by
  constructor
  · exact Resolves.eq
  · rintro rfl
    exact (scope.expands active).resolves t

theorem resolvesAll_iff {ts rs : List GenericType} :
    scope.ResolvesAll active ts rs ↔ rs = ts.map (scope.resolveIn active) := by
  constructor
  · exact ResolvesAll.eq
  · rintro rfl
    exact resolvesAll_of_each fun t _ => resolves_iff.2 rfl

/-! ## What occurs in an answer -/

variable {active' : List String} {t r u : GenericType}

theorem ResolvesAll.mem {ts rs : List GenericType} (h : scope.ResolvesAll active ts rs) (mem : r ∈ rs) :
    ∃ t ∈ ts, scope.Resolves active t r := by
  rw [resolvesAll_iff] at h
  subst h
  obtain ⟨t, mem', rfl⟩ := List.mem_map.1 mem
  exact ⟨t, mem', resolves_iff.2 rfl⟩

theorem ResolvesArguments.mem {as bs : List TypeArgument} {b : TypeArgument}
    (h : scope.ResolvesArguments active as bs) (mem : b ∈ bs) :
    ∃ a ∈ as, scope.ResolvesArgument active a b := by
  induction bs generalizing as with
  | nil => cases mem
  | cons c bs ih =>
    cases h with
    | @cons _ a _ as _ head tail =>
      rcases List.mem_cons.1 mem with rfl | mem
      · exact ⟨a, List.mem_cons_self, head⟩
      · obtain ⟨a', mem, related⟩ := ih tail mem
        exact ⟨a', List.mem_cons_of_mem a mem, related⟩

theorem ResolvesArgument.type {a b : TypeArgument} (h : scope.ResolvesArgument active a b)
    (type : b.type? = some r) : ∃ t, scope.Resolves active t r := by
  cases h with
  | any => cases type
  | exact h | upper _ h | lower _ h =>
    cases type
    exact ⟨_, h⟩
  | upperUnknown | lowerUnknown =>
    cases type
    exact ⟨_, .unknown⟩

/-- What occurs in an answer is an answer where it stands. -/
theorem Resolves.occurs (outer : scope.outer = []) (h : scope.Resolves active t r)
    (occurs : r.Occurs active active' u) : ∃ v, scope.Resolves active' v u := by
  induction occurs generalizing t with
  | here => exact ⟨t, h⟩
  | component _ ih =>
    cases h with
    | array h => exact ih h
  | argument mem type _ ih =>
    cases h with
    | parameterized h =>
      obtain ⟨a, -, related⟩ := h.mem mem
      obtain ⟨t, h⟩ := related.type type
      exact ih h
  | bound mem _ ih =>
    cases h with
    | recursive | undeclared =>
      rw [List.mem_singleton] at mem
      subst mem
      exact ih .unknown
    | declared _ _ h =>
      obtain ⟨t, -, h⟩ := h.mem mem
      exact ih h
    | enclosing _ _ first =>
      rw [outer] at first
      cases first

/-- An answer has wildcards where the type has them. -/
theorem Resolves.hasWildcard_iff (h : scope.Resolves active t r) : r.HasWildcard ↔ t.HasWildcard := by
  rw [h.eq, resolveIn_eq, ← GenericType.containsWildcard_iff, GenericType.containsWildcard_withBounds,
    GenericType.containsWildcard_iff]

theorem not_hasWildcard_unknown : ¬ GenericType.HasWildcard .unknown := by
  rw [← GenericType.containsWildcard_iff]
  decide

theorem ResolvesArgument.flat {a b : TypeArgument} {bound : GenericType}
    (h : scope.ResolvesArgument active a b) (wild : b.isWildcard = true)
    (type : b.type? = some bound) : ¬ bound.HasWildcard := by
  cases h with
  | any => cases type
  | exact => cases wild
  | upper flat h | lower flat h =>
    cases type
    rwa [h.hasWildcard_iff]
  | upperUnknown | lowerUnknown =>
    cases type
    exact not_hasWildcard_unknown

end TypeScope

/-! ## One parameter -/

/-- A name of one character. -/
def Identifier.ofChar (c : Char) (plain : c ∉ ['.', ';', '[', '/', '<', '>', ':']) : Identifier where
  text := String.singleton c
  nonempty := by simp
  plain := by simpa using plain

namespace Scan.Reads

theorem typeParameter (parameter : Identifier) (bound : ReferenceSignature) (rest : List Char) :
    Reads (nestingLimit - 1) Scan.typeParameter
      (parameter.text.toList ++ ':' :: (bound.text.toList ++ '>' :: rest)) ('>' :: rest) bound.depth
      ⟨parameter.text, [bound.meaning]⟩ := by
  obtain ⟨d, ds, head, mem⟩ := bound.text_head
  have first : d.toNat < 0x80 ∧ (decide (d = ':') || decide (d = '>')) = false := by
    simp only [List.mem_cons, List.not_mem_nil, or_false] at mem
    rcases mem with rfl | rfl | rfl <;> decide
  have read := bound.read (nestingLimit - 1) ('>' :: rest)
  rw [head, List.cons_append] at read ⊢
  refine (word parameter (by decide) (by decide)).step ((expect (by decide)).step ?_)
  refine (peek first.1).step ?_
  rw [first.2]
  refine read.close ((pure _).step ?_)
  refine fueled (f := fun fuel => Scan.typeParameter.furtherBounds fuel [bound.meaning] >>= _)
    fun fuel enough => ?_
  obtain ⟨fuel, rfl⟩ := Nat.exists_eq_succ_of_ne_zero (Nat.ne_zero_of_lt enough)
  have stop : Reads (nestingLimit - 1) (Scan.accept ':') ('>' :: rest) ('>' :: rest) 0 false :=
    accept_other (by decide) (by decide)
  have none : Reads (nestingLimit - 1) (Scan.typeParameter.furtherBounds (fuel + 1) [bound.meaning])
      ('>' :: rest) ('>' :: rest) 0 [bound.meaning] := stop.step (pure _)
  exact none.step (pure _)

theorem typeParameters {parameter : Identifier} (bound : ReferenceSignature) (rest : List Char)
    {c : Char} {cs : List Char} (head : parameter.text.toList = c :: cs) (ascii : c.toNat < 0x80) :
    Reads (nestingLimit - 1) Scan.typeParameters
      ('<' :: (parameter.text.toList ++ ':' :: (bound.text.toList ++ '>' :: rest))) rest bound.depth
      [⟨parameter.text, [bound.meaning]⟩] := by
  have item := typeParameter parameter bound rest
  have other : c ≠ '>' := by
    rintro rfl
    exact parameter.plain '>' (head ▸ List.mem_cons_self) (by decide)
  rw [head, List.cons_append] at item ⊢
  have items : Reads (nestingLimit - 1) (manyUntil '>' Scan.typeParameter)
      (c :: (cs ++ ':' :: (bound.text.toList ++ '>' :: rest))) ('>' :: rest) bound.depth
      [⟨parameter.text, [bound.meaning]⟩] := by
    refine fueled fun fuel enough => ?_
    obtain ⟨fuel, rfl⟩ : ∃ n, fuel = n + 2 := ⟨fuel - 2, by simp at enough; omega⟩
    have none : Reads (nestingLimit - 1)
        (untilStop.go '>' Scan.typeParameter (fuel + 1) [⟨parameter.text, [bound.meaning]⟩])
        ('>' :: rest) ('>' :: rest) 0 [⟨parameter.text, [bound.meaning]⟩] :=
      untilStop_nil (by decide)
    exact Nat.max_zero bound.depth ▸ untilStop_cons ascii other item none
  exact (accept (by decide)).step (items.close ((expect (by decide)).step (pure _)))

theorem manyToEnd_nil {α : Type} {levels : Nat} {item : Scan α} :
    Reads levels (manyToEnd item) [] [] 0 [] := by
  refine fueled fun fuel enough => of_flat fun s stands => ⟨s, ?_, stands⟩
  obtain ⟨fuel, rfl⟩ := Nat.exists_eq_succ_of_ne_zero (Nat.ne_zero_of_lt enough)
  have ended : s.atEnd = true := by simp [Scanner.atEnd, stands.whole, stands.here]
  unfold untilEnd untilEnd.go
  rw [step_get_bind, if_pos ended]
  rfl

end Scan.Reads

/-! ## Class signatures -/

namespace ClassSignature

/-- The declarations that the parts of a class signature can refer to. -/
def scope (read : ClassSignature) : TypeScope := { inner := read.typeParameters }

/-- The class signature with each part resolved. -/
def resolved (read : ClassSignature) : ClassSignature :=
  ⟨read.scope.parameters, read.scope.resolve read.superclass, read.interfaces.map read.scope.resolve⟩

/-- The parts of a class signature are what those of another are resolved to. -/
structure ResolvesTo (read c : ClassSignature) : Prop where
  typeParameters : List.Forall₂
    (fun p q => q.name = p.name ∧ read.scope.ResolvesAll [p.name] p.bounds q.bounds)
    read.typeParameters c.typeParameters
  superclass : read.scope.Resolves [] read.superclass c.superclass
  interfaces : read.scope.ResolvesAll [] read.interfaces c.interfaces

/-- A part of the class signature stands inside the bounds of the variables `active`, or of those and
a parameter that is the last of them. -/
inductive Occurs (c : ClassSignature) : List String → GenericType → Prop
  | typeParameter {p : TypeParameter} {b u : GenericType} {active : List String}
    (mem : p ∈ c.typeParameters) (bound : b ∈ p.bounds) (h : b.Occurs [p.name] active u) :
    Occurs c active u
  | superclass {u : GenericType} {active : List String} (h : c.superclass.Occurs [] active u) :
    Occurs c active u
  | interface {i u : GenericType} {active : List String} (mem : i ∈ c.interfaces)
    (h : i.Occurs [] active u) : Occurs c active u

variable {read c : ClassSignature} {active : List String}

/-- The rules have exactly one answer for a class signature. -/
theorem resolvesTo_iff : read.ResolvesTo c ↔ c = read.resolved := by
  constructor
  · rintro ⟨parameters, superclass, interfaces⟩
    have same := map_eq_of_forall₂ (g := id)
      (f := fun p => ⟨p.name, p.bounds.map (read.scope.resolveIn [p.name])⟩) parameters <| by
        rintro p ⟨name, bounds⟩ ⟨rfl, h⟩
        exact congrArg (TypeParameter.mk p.name) h.eq
    rw [List.map_id] at same
    cases c
    exact congr (congr (congrArg mk same) superclass.eq) interfaces.eq
  · rintro rfl
    refine ⟨?_, TypeScope.resolves_iff.2 rfl, TypeScope.resolvesAll_iff.2 rfl⟩
    refine List.forall₂_map_right_iff.2 (List.forall₂_same.2 fun p _ => ⟨rfl, ?_⟩)
    exact TypeScope.resolvesAll_iff.2 rfl

/-- What occurs in the answer is an answer where it stands. -/
theorem ResolvesTo.occurs (h : read.ResolvesTo c) {u : GenericType} (occurs : c.Occurs active u) :
    ∃ v, read.scope.Resolves active v u := by
  cases occurs with
  | typeParameter mem bound occurs =>
    obtain ⟨p, -, same, h⟩ := forall₂_mem_right h.typeParameters mem
    obtain ⟨t, -, h⟩ := h.mem bound
    exact (same ▸ h).occurs rfl occurs
  | superclass occurs => exact h.superclass.occurs rfl occurs
  | interface mem occurs =>
    obtain ⟨t, -, h⟩ := h.interfaces.mem mem
    exact h.occurs rfl occurs

end ClassSignature

/-! ## Signatures as they are read -/

/-- The declaration has bounds, none of them unknown. -/
structure TypeParameter.Bounded (p : TypeParameter) : Prop where
  nonempty : p.bounds ≠ []
  known : ∀ b ∈ p.bounds, b ≠ .unknown

namespace Scan

variable {s s' : Scanner} {t : GenericType}

/-- A class signature before it is resolved. -/
def classDeclaration : Scan ClassSignature := do
  let declared ← typeParameters
  let superclass ← referenceType
  let interfaces ← manyToEnd referenceType
  return ⟨declared, superclass, interfaces⟩

theorem classSignature_eq : classSignature = ClassSignature.resolved <$> classDeclaration := by
  simp [classSignature, classDeclaration, ClassSignature.resolved, ClassSignature.scope]

theorem parse_map {α β : Type} (f : α → β) (scan : Scan α) (text : String) :
    (f <$> scan).parse text = (scan.parse text).map f := by
  cases read : scan (.ofText text) with
  | ok a s =>
    have done : (f <$> scan) (.ofText text) = .ok (f a) s := by
      show EStateM.map f scan (.ofText text) = _
      rw [EStateM.map, read]
    rw [parse_eq_ok.2 ⟨s, read⟩, parse_eq_ok.2 ⟨s, done⟩]
    rfl
  | error e s =>
    have failed : (f <$> scan) (.ofText text) = .error e s := by
      show EStateM.map f scan (.ofText text) = _
      rw [EStateM.map, read]
    rw [parse_eq_error.2 ⟨s, read⟩, parse_eq_error.2 ⟨s, failed⟩]
    rfl

theorem arrayOver_known (t : GenericType) : arrayOver t ≠ .unknown := by
  cases t <;> nofun

theorem classType_known {reference : Scan GenericType} (h : classType reference s = .ok t s') :
    t ≠ .unknown := by
  obtain ⟨outer, s₁, -, h⟩ := bind_eq_ok.1 h
  obtain ⟨first, s₂, -, h⟩ := bind_eq_ok.1 h
  rw [step_get_bind] at h
  obtain ⟨⟨name, args⟩, s₃, -, h⟩ := bind_eq_ok.1 h
  obtain ⟨⟨⟩, s₄, -, h⟩ := bind_eq_ok.1 h
  split at h
  · obtain ⟨rfl, rfl⟩ := step_pure_eq_ok.1 h
    nofun
  · obtain ⟨rfl, rfl⟩ := step_pure_eq_ok.1 h
    nofun

/-- No type is read as unknown. -/
theorem referenceWithin_known {levels : Nat} (h : referenceWithin levels s = .ok t s') :
    t ≠ .unknown := by
  cases levels with
  | zero => cases h
  | succ levels =>
    obtain ⟨code, s₁, -, h⟩ := bind_eq_ok.1 h
    split at h
    · exact classType_known h
    · obtain ⟨name, s₂, -, h⟩ := bind_eq_ok.1 h
      obtain ⟨⟨⟩, s₃, -, h⟩ := bind_eq_ok.1 h
      obtain ⟨rfl, rfl⟩ := step_pure_eq_ok.1 h
      nofun
    · obtain ⟨component, s₂, -, h⟩ := bind_eq_ok.1 h
      obtain ⟨rfl, rfl⟩ := step_pure_eq_ok.1 h
      exact arrayOver_known component
    · cases h

theorem furtherBounds_known {fuel : Nat} {acc bounds : List GenericType}
    (known : ∀ b ∈ acc, b ≠ .unknown) (h : typeParameter.furtherBounds fuel acc s = .ok bounds s') :
    ∀ b ∈ bounds, b ≠ .unknown := by
  induction fuel generalizing acc s with
  | zero => cases h
  | succ fuel ih =>
    obtain ⟨colon, s₁, -, h⟩ := bind_eq_ok.1 h
    split at h
    · obtain ⟨bound, s₂, read, h⟩ := bind_eq_ok.1 h
      exact ih (List.forall_mem_cons.2 ⟨referenceWithin_known read, known⟩) h
    · obtain ⟨rfl, rfl⟩ := step_pure_eq_ok.1 h
      exact fun b mem => known b (List.mem_reverse.1 mem)

/-- Where no bound is read, the class of all objects is the bound. -/
theorem further_bounded {name : String} {acc : List GenericType} {p : TypeParameter}
    (known : ∀ b ∈ acc, b ≠ .unknown)
    (h : (do
        let bounds ← typeParameter.furtherBounds (← get).fuel acc
        return ⟨name, if bounds.isEmpty then [.plain .object] else bounds⟩ : Scan TypeParameter) s =
      .ok p s') : p.Bounded := by
  rw [step_get_bind] at h
  obtain ⟨bounds, s₁, read, h⟩ := bind_eq_ok.1 h
  obtain ⟨rfl, rfl⟩ := step_pure_eq_ok.1 h
  split
  · exact ⟨List.cons_ne_nil _ _, by simp⟩
  · rename_i some
    exact ⟨fun none => some (List.isEmpty_iff.2 none), furtherBounds_known known read⟩

theorem typeParameter_bounded {p : TypeParameter} (h : typeParameter s = .ok p s') : p.Bounded := by
  obtain ⟨name, s₁, -, h⟩ := bind_eq_ok.1 h
  obtain ⟨⟨⟩, s₂, -, h⟩ := bind_eq_ok.1 h
  obtain ⟨code, s₃, -, h⟩ := bind_eq_ok.1 h
  split at h
  · obtain ⟨acc, s₄, empty, h⟩ := bind_eq_ok.1 h
    obtain ⟨rfl, rfl⟩ := step_pure_eq_ok.1 empty
    exact further_bounded (List.forall_mem_nil _) h
  · obtain ⟨bound, s₄, first, h⟩ := bind_eq_ok.1 h
    obtain ⟨acc, s₅, one, h⟩ := bind_eq_ok.1 h
    obtain ⟨rfl, rfl⟩ := step_pure_eq_ok.1 one
    exact further_bounded (List.forall_mem_singleton.2 (referenceWithin_known first)) h

theorem typeParameters_bounded {ps : List TypeParameter} (h : typeParameters s = .ok ps s') :
    ∀ p ∈ ps, p.Bounded := by
  obtain ⟨angle, s₁, -, h⟩ := bind_eq_ok.1 h
  split at h
  · obtain ⟨qs, s₂, many, h⟩ := bind_eq_ok.1 h
    obtain ⟨⟨⟩, s₃, -, h⟩ := bind_eq_ok.1 h
    obtain ⟨rfl, rfl⟩ := step_pure_eq_ok.1 h
    exact manyUntil_eq_ok (fun _ _ _ => typeParameter_bounded) many
  · obtain ⟨rfl, rfl⟩ := step_pure_eq_ok.1 h
    exact fun _ mem => nomatch mem

end Scan

namespace ClassSignature

variable {read c : ClassSignature} {text : String} {active : List String} {name : String}
  {bounds : List GenericType}

/-- The class signature that a text spells, before it is resolved. -/
def declaration (text : String) : Except Error ClassSignature :=
  Scan.classDeclaration.parse text

theorem ofText_eq (text : String) : ofText text = (declaration text).map resolved := by
  unfold ofText declaration
  rw [Scan.classSignature_eq, Scan.parse_map]

theorem bounded_of_declaration (h : declaration text = .ok read) :
    ∀ p ∈ read.typeParameters, p.Bounded := by
  obtain ⟨s, scanned⟩ := Scan.parse_eq_ok.1 h
  obtain ⟨declared, s₁, parameters, h⟩ := Scan.bind_eq_ok.1 scanned
  obtain ⟨superclass, s₂, -, h⟩ := Scan.bind_eq_ok.1 h
  obtain ⟨interfaces, s₃, -, h⟩ := Scan.bind_eq_ok.1 h
  obtain ⟨rfl, rfl⟩ := step_pure_eq_ok.1 h
  exact Scan.typeParameters_bounded parameters

/-- Inside the bounds of the variables `active`, a variable has the bounds of its first declaration,
resolved inside its own bounds. It has the unknown bound instead if there is no declaration or it
stands inside its own bounds, and in no other case. -/
structure Carries (read : ClassSignature) (active : List String) (name : String)
    (bounds : List GenericType) : Prop where
  nonempty : bounds ≠ []
  unknown : bounds = [.unknown] ↔ (∀ p ∈ read.typeParameters, p.name ≠ name) ∨ name ∈ active
  declared : name ∉ active → ∀ p, read.typeParameters.find? (·.name == name) = some p →
    read.scope.ResolvesAll (name :: active) p.bounds bounds

theorem carries_of_resolves (bounded : ∀ p ∈ read.typeParameters, p.Bounded) {t : GenericType}
    (h : read.scope.Resolves active t (.typeVariable name bounds)) :
    read.Carries active name bounds := by
  cases h with
  | recursive mem =>
    refine ⟨List.cons_ne_nil _ _, iff_of_true rfl (.inr mem), fun fresh => absurd mem fresh⟩
  | @declared _ _ p _ _ fresh first h =>
    have own := bounded p (List.mem_of_find?_eq_some first)
    refine ⟨?_, iff_of_false ?_ ?_, fun _ q found => ?_⟩
    · rw [h.eq]
      exact fun empty => own.nonempty (List.map_eq_nil_iff.1 empty)
    · rintro rfl
      obtain ⟨t, mem, h⟩ := h.mem List.mem_cons_self
      cases h
      exact own.known _ mem rfl
    · rintro (none | mem)
      · exact none p (List.mem_of_find?_eq_some first) (by simpa using List.find?_some first)
      · exact fresh mem
    · cases first.symm.trans found
      exact h
  | enclosing _ _ first => cases first
  | undeclared _ absent =>
    refine ⟨List.cons_ne_nil _ _, iff_of_true rfl (.inl fun p mem => ?_), fun _ p found => ?_⟩
    · simpa using List.find?_eq_none.1 absent p mem
    · cases absent.symm.trans found

/-- Every class signature that can be read is resolved, by rules that have exactly one answer for it.
In the answer every variable carries the bounds that it is to carry where it stands, and no bound of
a wildcard has a wildcard in it. -/
theorem ofText_resolution (text : String) :
    (∀ err, declaration text = .error err → ofText text = .error err) ∧
      ∀ read, declaration text = .ok read → ∃ c, ofText text = .ok c ∧
        (∀ c', read.ResolvesTo c' ↔ c' = c) ∧
        (∀ active name bounds, c.Occurs active (.typeVariable name bounds) →
          read.Carries active name bounds) ∧
        ∀ active raw args, c.Occurs active (.parameterized raw args) → ∀ a ∈ args,
          a.isWildcard = true → ∀ bound, a.type? = some bound → ¬ bound.HasWildcard := by
  refine ⟨fun err failed => by rw [ofText_eq, failed]; rfl, fun read declared => ?_⟩
  have answer : read.ResolvesTo read.resolved := resolvesTo_iff.2 rfl
  refine ⟨read.resolved, by rw [ofText_eq, declared]; rfl, fun c => resolvesTo_iff, ?_, ?_⟩
  · intro active name bounds occurs
    obtain ⟨t, h⟩ := answer.occurs occurs
    exact carries_of_resolves (bounded_of_declaration declared) h
  · intro active raw args occurs a mem wild bound type
    obtain ⟨t, h⟩ := answer.occurs occurs
    cases h with
    | parameterized h =>
      obtain ⟨b, -, related⟩ := h.mem mem
      exact related.flat wild type

/-- A class with one parameter is read as it is written. -/
theorem declaration_of_parameter (parameter : Identifier) (bound superclass : ReferenceSignature)
    {c : Char} {cs : List Char} (head : parameter.text.toList = c :: cs) (ascii : c.toNat < 0x80)
    (low : bound.depth < 50) (low' : superclass.depth < 50) :
    declaration ("<" ++ parameter.text ++ ":" ++ bound.text ++ ">" ++ superclass.text) =
      .ok ⟨[⟨parameter.text, [bound.meaning]⟩], superclass.meaning, []⟩ := by
  have ahead := Scan.Reads.typeParameters bound superclass.text.toList head ascii
  have behind := superclass.read (Scan.nestingLimit - 1) []
  rw [List.append_nil] at behind
  have read : Scan.Reads (Scan.nestingLimit - 1) Scan.classDeclaration _ [] _
      ⟨[⟨parameter.text, [bound.meaning]⟩], superclass.meaning, []⟩ :=
    ahead.bind (behind.close (Scan.Reads.manyToEnd_nil.step (.pure _)))
  have text : ("<" ++ parameter.text ++ ":" ++ bound.text ++ ">" ++ superclass.text).toList =
      '<' :: (parameter.text.toList ++ ':' :: (bound.text.toList ++ '>' :: superclass.text.toList)) := by
    simp
  have done := read _ (text ▸ Scanner.at_ofText _)
  have shallow : max bound.depth superclass.depth ≤ Scan.nestingLimit - 1 :=
    Nat.max_le.2 ⟨Nat.le_of_lt_succ low, Nat.le_of_lt_succ low'⟩
  rw [if_pos shallow] at done
  obtain ⟨s', done, -⟩ := done
  exact Scan.parse_eq_ok.2 ⟨s', done⟩

/-- The text `LA<TT;TU;+LB<*>;>;`. -/
def recursiveSuperclass : ReferenceSignature :=
  .ofClass [] (.ofChar 'A' (by decide)) [
    .exact (.typeVariable (.ofChar 'T' (by decide))),
    .exact (.typeVariable (.ofChar 'U' (by decide))),
    .upper (.ofClass [] (.ofChar 'B' (by decide)) [.any] [])] []

/-- A parameter that its own bound refers to, a variable that is declared nowhere, and a wildcard in
the bound of another. -/
theorem ofText_resolution_recursive :
    ofText "<T:TT;>LA<TT;TU;+LB<*>;>;" = .ok ⟨
        [⟨"T", [.typeVariable "T" [.unknown]]⟩],
        .parameterized ⟨"A"⟩ [
          .exact (.typeVariable "T" [.typeVariable "T" [.unknown]]),
          .exact (.typeVariable "U" [.unknown]),
          .upper .unknown], []⟩ ∧
      ∃ read, declaration "<T:TT;>LA<TT;TU;+LB<*>;>;" = .ok read ∧
        read.Carries ["T"] "T" [.unknown] := by
  have declared : declaration "<T:TT;>LA<TT;TU;+LB<*>;>;" = .ok ⟨
      [⟨"T", [.typeVariable "T" []]⟩],
      .parameterized ⟨"A"⟩ [.exact (.typeVariable "T" []), .exact (.typeVariable "U" []),
        .upper (.parameterized ⟨"B"⟩ [.any])], []⟩ :=
    declaration_of_parameter (.ofChar 'T' (by decide)) (.typeVariable (.ofChar 'T' (by decide)))
      recursiveSuperclass (String.toList_singleton 'T') (by decide) (by decide) (by decide)
  obtain ⟨c, read, answer, carries, -⟩ := (ofText_resolution _).2 _ declared
  have same := (answer _).1 (resolvesTo_iff.2 rfl)
  refine ⟨?_, _, declared, carries ["T"] "T" [.unknown] ?_⟩
  · rw [read, ← same]
    rfl
  · rw [← same]
    exact .typeParameter List.mem_cons_self List.mem_cons_self (.here _)

end ClassSignature

end Weft
