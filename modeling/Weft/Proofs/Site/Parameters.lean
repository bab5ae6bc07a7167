import Weft.Proofs.Site.Keys

/-!
# Tables of parameters

What a method tells of its parameters comes from its descriptor, and from three kinds of tables that
may have another number of entries: the types of a signature, declared names, and annotations. All
are aligned in one way: a table with fewer entries is about the last parameters, and of a table that
has more the first entries count. So nothing is read or stored where there is no place for it.
-/

namespace Weft

variable {α β : Type}

/-! ## Alignment -/

/-- What a table of `entries` has for parameter `i` of `n`. -/
def entryFor? (n : Nat) (entries : List α) (i : Nat) : Option α :=
  if entries.length ≤ n then
    if i < n - entries.length then none else entries[i - (n - entries.length)]?
  else (entries.take n)[i]?

theorem entryFor?_map (n : Nat) (f : α → β) (entries : List α) (i : Nat) :
    entryFor? n (entries.map f) i = (entryFor? n entries i).map f := by
  unfold entryFor?
  rw [List.length_map, ← List.map_take, List.getElem?_map, List.getElem?_map]
  split
  · split <;> rfl
  · rfl

theorem alignToLast_getElem? (n : Nat) (entries : List α) {i : Nat} (within : i < n) :
    (alignToLast n entries)[i]? = some (entryFor? n entries i) := by
  unfold alignToLast entryFor?
  by_cases few : entries.length ≤ n
  · rw [if_pos few, List.take_of_length_le few]
    by_cases before : i < n - entries.length
    · rw [if_pos before, List.getElem?_append_left (by rwa [List.length_replicate]),
        List.getElem?_replicate_of_lt before]
    · rw [if_neg before, List.getElem?_append_right (by rw [List.length_replicate]; omega),
        List.length_replicate, List.getElem?_map, List.getElem?_eq_getElem (by omega)]
      rfl
  · rw [if_neg few, Nat.sub_eq_zero_of_le (Nat.le_of_not_le few), List.replicate_zero,
      List.nil_append, List.getElem?_map, List.getElem?_eq_getElem]
    · rfl
    · rw [List.length_take]
      omega

namespace MethodSite

variable {m : MethodSite}

/-! ## The tables of a method -/

/-- The entries of the first table of names. -/
def declaredParameters? (m : MethodSite) : Option (List MethodParameter) :=
  m.member.attributes.findSome? fun a => match a.body with
    | .methodParameters entries => some entries
    | _ => none

/-- The name that an entry declares. -/
def declaredName? (p : Pool) (e : MethodParameter) : Option String :=
  if e.name = 0 then none else p.utf8? e.name

/-- The tables of annotations and their visibility, the visible ones first. -/
def annotationLists (m : MethodSite) : List (Bool × List (List AnnotationData)) :=
  [true, false].flatMap fun wanted => m.member.attributes.filterMap fun a => match a.body with
    | .parameterAnnotations visible lists =>
      if visible == wanted then some (visible, lists) else none
    | _ => none

/-- The annotations that one table has for parameter `i` of `n`. -/
def annotationsIn (p : Pool) (n i : Nat) : Bool × List (List AnnotationData) → List AnnotationSite
  | (visible, lists) => ((entryFor? n lists i).getD []).map (AnnotationData.resolve p visible)

theorem length_namesAtEntry (p : Pool) (code : CodeAttribute) (types : List JType) (slot : UInt16) :
    (namesAtEntry p code types slot).length = types.length := by
  induction types generalizing slot with
  | nil => rfl
  | cons t types ih => exact congrArg (· + 1) (ih _)

theorem parameterNames_eq (m : MethodSite) : m.parameterNames =
    match m.declaredParameters?, m.member.code? with
    | some entries, _ => (alignToLast m.descriptor.params.length entries).map
        (·.bind (declaredName? m.owner.pool))
    | none, some code =>
      namesAtEntry m.owner.pool code m.descriptor.params (if m.isStatic then 0 else 1)
    | none, none => List.replicate m.descriptor.params.length none := rfl

theorem length_parameterNames (m : MethodSite) :
    m.parameterNames.length = m.descriptor.params.length := by
  rw [parameterNames_eq]
  split
  · rw [List.length_map, length_alignToLast]
  · exact length_namesAtEntry _ _ _ _
  · exact List.length_replicate

/-- Rows of a table are added to the lists one behind the other. -/
theorem foldl_zipWith_getElem? {tables : List (List (Option (List β)))} {lists : List (List β)}
    (rows : ∀ t ∈ tables, lists.length ≤ t.length) (i : Nat) :
    (tables.foldl (fun lists table => lists.zipWith (fun l t => l ++ t.getD []) table) lists)[i]? =
      lists[i]?.map (· ++ tables.flatMap fun t => (t[i]?.join).getD []) := by
  induction tables generalizing lists with
  | nil => simp
  | cons t tables ih =>
    obtain ⟨first, rows⟩ := List.forall_mem_cons.1 rows
    have rest : ∀ t' ∈ tables,
        (lists.zipWith (fun l t => l ++ t.getD []) t).length ≤ t'.length := by
      intro t' mem
      rw [List.length_zipWith]
      exact Nat.le_trans (Nat.min_le_left _ _) (rows t' mem)
    rw [List.foldl_cons, ih rest, List.getElem?_zipWith, List.flatMap_cons]
    cases found : lists[i]? with
    | none => rfl
    | some l =>
      have within := (List.getElem?_eq_some_iff.1 found).1
      rw [List.getElem?_eq_getElem (Nat.lt_of_lt_of_le within first)]
      simp

theorem annotationTables_eq (m : MethodSite) : m.annotationTables true ++ m.annotationTables false =
    m.annotationLists.map fun (visible, lists) => alignToLast m.descriptor.params.length
      (lists.map (·.map (AnnotationData.resolve m.owner.pool visible))) := by
  have each (wanted : Bool) : m.annotationTables wanted =
      (m.member.attributes.filterMap fun a => match a.body with
        | .parameterAnnotations visible lists =>
          if visible == wanted then some (visible, lists) else none
        | _ => none).map fun (visible, lists) => alignToLast m.descriptor.params.length
          (lists.map (·.map (AnnotationData.resolve m.owner.pool visible))) := by
    rw [annotationTables, List.map_filterMap]
    refine List.filterMap_congr fun a _ => ?_
    cases a.body with
    | parameterAnnotations visible lists => dsimp only; split <;> rfl
    | _ => rfl
  rw [each true, each false, annotationLists, List.flatMap_cons, List.flatMap_singleton,
    List.map_append]

theorem parameterAnnotations_eq (m : MethodSite) : m.parameterAnnotations =
    (List.range m.descriptor.params.length).map fun i =>
      m.annotationLists.flatMap (annotationsIn m.owner.pool m.descriptor.params.length i) := by
  have rows : ∀ t ∈ m.annotationTables true ++ m.annotationTables false,
      (List.replicate m.descriptor.params.length ([] : List AnnotationSite)).length ≤ t.length := by
    intro t mem
    rw [annotationTables_eq] at mem
    obtain ⟨⟨visible, lists⟩, -, rfl⟩ := List.mem_map.1 mem
    rw [length_alignToLast, List.length_replicate]
  refine List.ext_getElem? fun i => ?_
  unfold parameterAnnotations
  rw [foldl_zipWith_getElem? rows, annotationTables_eq, List.flatMap_map, List.getElem?_map]
  by_cases within : i < m.descriptor.params.length
  · rw [List.getElem?_replicate_of_lt within, List.getElem?_range within]
    refine congrArg some (List.flatMap_congr fun ⟨visible, lists⟩ _ => ?_)
    dsimp only
    rw [alignToLast_getElem? _ _ within, entryFor?_map, annotationsIn]
    cases entryFor? m.descriptor.params.length lists i <;> rfl
  · rw [List.getElem?_eq_none (by rw [List.length_replicate]; omega),
      List.getElem?_eq_none (by rw [List.length_range]; omega)]
    rfl

theorem length_parameterAnnotations (m : MethodSite) :
    m.parameterAnnotations.length = m.descriptor.params.length := by
  rw [parameterAnnotations_eq, List.length_map, List.length_range]

/-! ## The parameters of a method -/

/-- What the parameters are made of, each read at its index. -/
theorem mem_parameters {p : ParameterSite} (mem : p ∈ m.parameters) :
    m.genericParameters[p.index]? = some p.generic ∧
      m.descriptor.params[p.index]? = some p.type ∧
      m.parameterNames[p.index]? = some p.name ∧
      m.parameterAnnotations[p.index]? = some p.annotations ∧
      p.isVarargs = (m.access.has .accVarargs && p.index + 1 == m.descriptor.params.length) := by
  obtain ⟨⟨⟨⟨generic, type⟩, name, annotations⟩, i⟩, listed, rfl⟩ := List.mem_map.1 mem
  have found := List.mem_zipIdx_iff_getElem?.1 listed
  simp only [List.getElem?_zip_eq_some] at found
  exact ⟨found.1.1, found.1.2, found.2.1, found.2.2, rfl⟩

theorem index_lt {p : ParameterSite} (mem : p ∈ m.parameters) :
    p.index < m.descriptor.params.length :=
  (List.getElem?_eq_some_iff.1 (mem_parameters mem).2.1).1

theorem length_marks (m : MethodSite) :
    (m.parameterNames.zip m.parameterAnnotations).length = m.descriptor.params.length := by
  rw [List.length_zip, length_parameterNames, length_parameterAnnotations, Nat.min_self]

section Complete

variable (complete : m.genericParameters.length = m.descriptor.params.length)
include complete

theorem map_index_parameters :
    m.parameters.map (·.index) = List.range m.descriptor.params.length := by
  have index : m.parameters.map (·.index) = (((m.genericParameters.zip m.descriptor.params).zip
      (m.parameterNames.zip m.parameterAnnotations)).zipIdx).map Prod.snd := by
    rw [parameters, List.map_map]
    rfl
  rw [index, List.zipIdx_map_snd, List.length_zip, List.length_zip, length_marks, complete,
    Nat.min_self, Nat.min_self, List.range_eq_range']

theorem map_type_parameters : m.parameters.map (·.type) = m.descriptor.params := by
  have type : m.parameters.map (·.type) =
      (((((m.genericParameters.zip m.descriptor.params).zip
        (m.parameterNames.zip m.parameterAnnotations)).zipIdx).map Prod.fst).map Prod.fst).map
          Prod.snd := by
    rw [parameters, List.map_map, List.map_map, List.map_map]
    rfl
  rw [type, List.zipIdx_map_fst, List.map_fst_zip, List.map_snd_zip]
  · rw [complete]
  · rw [length_marks, List.length_zip]
    exact Nat.min_le_right _ _

end Complete

end MethodSite

/-! ## Reading by index -/

/-- The first `k` items, of a list that has so many. -/
def slice? (k : Nat) (items : List α) : Option (List α) :=
  if k ≤ items.length then some (items.take k) else none

/-- The row after the items are stored in it from `start` on, if it has a place for each. -/
def storeFrom? : Nat → List α → List α → Option (List α)
  | _, [], row => some row
  | start, x :: xs, row =>
    if start < row.length then storeFrom? (start + 1) xs (row.set start x) else none

theorem storeFrom?_append (before xs row after : List α) (same : xs.length = row.length) :
    storeFrom? before.length xs (before ++ row ++ after) = some (before ++ xs ++ after) := by
  induction xs generalizing before row with
  | nil =>
    obtain rfl := List.length_eq_zero_iff.1 same.symm
    rfl
  | cons x xs ih =>
    obtain _ | ⟨y, row⟩ := row
    · cases same
    have stored : (before ++ y :: row ++ after).set before.length x =
        (before ++ [x]) ++ row ++ after := by
      simp
    have within : before.length < (before ++ y :: row ++ after).length := by
      simp only [List.length_append, List.length_cons]
      omega
    rw [storeFrom?, if_pos within, stored, ← List.length_singleton (a := x), ← List.length_append,
      ih (before ++ [x]) row (Nat.succ.inj same)]
    simp

/-- A table that is aligned is the result of stores, each to a place that there is. -/
theorem storeFrom?_alignToLast (n : Nat) (entries : List α) (f : α → Option β) :
    storeFrom? (n - entries.length) ((entries.take (n - (n - entries.length))).map f)
      (List.replicate n none) = some ((alignToLast n entries).map (·.bind f)) := by
  have counted : entries.take (n - (n - entries.length)) = entries.take n :=
    List.take_eq_take_iff.2 (by omega)
  have row : List.replicate n (none : Option β) = List.replicate (n - entries.length) none ++
      List.replicate (min n entries.length) none ++ [] := by
    rw [List.append_nil, List.replicate_append_replicate]
    congr 1
    omega
  have stored := storeFrom?_append (List.replicate (n - entries.length) (none : Option β))
    ((entries.take n).map f) (List.replicate (min n entries.length) none) [] (by simp)
  rw [List.length_replicate] at stored
  rw [counted, row, stored]
  simp [alignToLast, Function.comp_def]

theorem map_zip_replicate {γ : Type} (items : List α) (b : β) (f : α × β → γ) :
    (items.zip (List.replicate items.length b)).map f = items.map fun a => f (a, b) := by
  induction items with
  | nil => rfl
  | cons a items ih => exact congrArg (f (a, b) :: ·) ih

/-- Items that are each made are made together. -/
theorem option_mapM_eq_some {f : α → Option β} {g : α → β} {items : List α}
    (each : ∀ a ∈ items, f a = some (g a)) : items.mapM f = some (items.map g) := by
  induction items with
  | nil => rfl
  | cons a items ih =>
    obtain ⟨first, each⟩ := List.forall_mem_cons.1 each
    rw [List.mapM_cons, first, ih each]
    rfl

namespace MethodSite

/-- The types of a signature that stand for the last parameters, behind a slice of the others. -/
def genericsBySlice? (types : List JType) (given : List GenericType) : Option (List GenericType) :=
  let skipped := types.length - given.length
  (slice? skipped types).map fun first =>
    first.map .plain ++ given.take (types.length - skipped)

theorem genericsBySlice?_eq (types : List JType) (given : List GenericType) :
    genericsBySlice? types given = some
      ((types.zip (alignToLast types.length given)).map fun (t, g?) => g?.getD (.plain t)) := by
  have skipped : (types.take (types.length - given.length)).length =
      types.length - given.length := by
    rw [List.length_take]
    omega
  have counted : given.take (types.length - (types.length - given.length)) =
      given.take types.length := List.take_eq_take_iff.2 (by omega)
  have parts : types.zip (alignToLast types.length given) =
      (types.take (types.length - given.length)).zip
          (List.replicate (types.take (types.length - given.length)).length none) ++
        (types.drop (types.length - given.length)).zip ((given.take types.length).map some) := by
    rw [← List.zip_append (by rw [List.length_replicate]), List.take_append_drop, skipped,
      alignToLast]
  rw [genericsBySlice?, slice?, if_pos (Nat.sub_le _ _), parts, List.map_append, map_zip_replicate,
    List.zip_map_right, List.map_map, counted]
  refine congrArg some (congrArg (_ ++ ·) (List.map_snd_zip ?_).symm)
  rw [List.length_take, List.length_drop]
  omega

/-- The names that entries declare, each stored at the place of its parameter. -/
def namesByStore? (p : Pool) (n : Nat) (entries : List MethodParameter) :
    Option (List (Option String)) :=
  let skipped := n - entries.length
  storeFrom? skipped ((entries.take (n - skipped)).map (declaredName? p)) (List.replicate n none)

/-- The parameters, where the annotations of each are read by its index. -/
def parametersByIndex? (m : MethodSite) : Option (List ParameterSite) :=
  let n := m.descriptor.params.length
  (m.genericParameters.zip m.descriptor.params).zipIdx.mapM fun ((generic, type), i) => do
    let annotations ← m.parameterAnnotations[i]?
    return ⟨i, generic, type, m.parameterNames[i]?.join, m.access.has .accVarargs && i + 1 == n,
      annotations⟩

theorem parametersByIndex?_eq (m : MethodSite) : m.parametersByIndex? = some m.parameters := by
  have types : m.genericParameters.zip m.descriptor.params =
      ((m.genericParameters.zip m.descriptor.params).zip
        (m.parameterNames.zip m.parameterAnnotations)).map Prod.fst := by
    rw [List.map_fst_zip]
    rw [length_marks, List.length_zip]
    exact Nat.min_le_right _ _
  unfold parametersByIndex? parameters
  dsimp only
  rw [types, List.zipIdx_map, List.mapM_map, ← types]
  refine option_mapM_eq_some ?_
  rintro ⟨⟨⟨generic, type⟩, name, annotations⟩, i⟩ listed
  have found := List.mem_zipIdx_iff_getElem?.1 listed
  simp only [List.getElem?_zip_eq_some] at found
  obtain ⟨-, named, annotated⟩ := found
  show (m.parameterAnnotations[i]?.bind fun annotations => some (ParameterSite.mk i generic type
    m.parameterNames[i]?.join _ annotations)) = _
  rw [annotated, named]
  rfl

end MethodSite

/-! ## What a site tells -/

namespace ClassSite

variable {options : DecodeOptions} {decoding : Nat} {image : Bytes} {s : ClassSite} {m : MethodSite}

/-- What the site of a class tells of the parameters of a method is in their order, and of each the
entry that the tables have for it. -/
structure Aligns (s : ClassSite) (m : MethodSite) : Prop where
  descriptor : ∃ text, s.pool.utf8 m.member.descriptor = .ok text ∧
    MethodDescriptor.ofText text = .ok m.descriptor
  length : m.parameters.length = m.descriptor.params.length
  indices : m.parameters.map (·.index) = List.range m.descriptor.params.length
  types : m.parameters.map (·.type) = m.descriptor.params
  varargs : ∀ p ∈ m.parameters, p.isVarargs = true → p.index + 1 = m.descriptor.params.length
  generics : ∀ text g, m.member.signature s.pool = .ok (some text) →
    MethodSignature.ofText s.generics.typeParameters text = .ok g → ∀ p ∈ m.parameters,
      p.generic = (entryFor? m.descriptor.params.length g.parameters p.index).getD (.plain p.type)
  names : ∀ entries, m.declaredParameters? = some entries → ∀ p ∈ m.parameters,
    p.name = (entryFor? m.descriptor.params.length entries p.index).bind
      (MethodSite.declaredName? s.pool)
  annotations : ∀ p ∈ m.parameters, p.annotations = m.annotationLists.flatMap
    (MethodSite.annotationsIn s.pool m.descriptor.params.length p.index)
  /-- The slice of the types before those of the signature is there. -/
  slices : ∀ text g, m.member.signature s.pool = .ok (some text) →
    MethodSignature.ofText s.generics.typeParameters text = .ok g →
      MethodSite.genericsBySlice? m.descriptor.params g.parameters = some m.genericParameters
  /-- The place of each declared name is there. -/
  stores : ∀ entries, m.declaredParameters? = some entries →
    MethodSite.namesByStore? s.pool m.descriptor.params.length entries = some m.parameterNames
  /-- The annotations at each index are there. -/
  reads : m.parametersByIndex? = some m.parameters

theorem length_genericParameters (mem : m ∈ s.methods) :
    m.genericParameters.length = m.descriptor.params.length := by
  obtain ⟨n, member, name, d, -, -, rfl⟩ := exists_methodSite mem
  unfold methodSite
  dsimp only
  split
  · exact List.length_map _
  · split
    · simp only [List.length_map, List.length_zip, length_alignToLast, Nat.min_self]
    · exact List.length_map _
  · exact List.length_map _

theorem genericParameters_of_signature (mem : m ∈ s.methods) {text : String} {g : MethodSignature}
    (signed : m.member.signature s.pool = .ok (some text))
    (parsed : MethodSignature.ofText s.generics.typeParameters text = .ok g) :
    m.genericParameters = (m.descriptor.params.zip
      (alignToLast m.descriptor.params.length g.parameters)).map
        fun (t, g?) => g?.getD (.plain t) := by
  obtain ⟨n, member, name, d, -, -, rfl⟩ := exists_methodSite mem
  obtain ⟨-, -, same, -, described⟩ := s.methodSite_spec s.generics.typeParameters n member name d
  rw [same] at signed
  rw [described]
  unfold methodSite
  simp only [signed, parsed]

theorem map_member_methods {c : ClassFile} (h : s.Lists c) :
    s.methods.map (·.member) = s.classFile.methods := by
  have members : s.methods.map (·.member) =
      ((s.classFile.methods.zip s.methodTypes).zipIdx.map Prod.fst).map Prod.fst := by
    rw [methods, List.map_map, List.map_map]
    exact List.map_congr_left fun _ _ => (s.methodSite_spec _ _ _ _ _).2.2.1
  rw [members, List.zipIdx_map_fst, List.map_fst_zip]
  rw [h.classFile, h.methods.length_eq]

/-- The methods of a site are those of the class, and what it tells of the parameters of each is
aligned. -/
theorem parameters_aligned (accepted : ofBytes options decoding image = .ok s) :
    s.methods.map (·.member) = s.classFile.methods ∧ ∀ m ∈ s.methods, s.Aligns m := by
  obtain ⟨c, -, lists⟩ := lists_of_ofBytes accepted
  refine ⟨map_member_methods lists, fun m mem => ?_⟩
  have complete := length_genericParameters mem
  have owner : m.owner = s := by
    obtain ⟨n, member, name, d, -, -, rfl⟩ := exists_methodSite mem
    exact (s.methodSite_spec s.generics.typeParameters n member name d).1
  exact {
    descriptor := by
      obtain ⟨n, -, found, typed⟩ := mem_methods mem
      rw [lists.classFile] at found
      obtain ⟨t, typed', -, text, read, parsed⟩ := forall₂_getElem? lists.methods found
      cases typed.symm.trans typed'
      exact ⟨text, by rw [pool, lists.classFile]; exact read, parsed⟩
    length := by rw [← List.length_map, MethodSite.map_type_parameters complete]
    indices := MethodSite.map_index_parameters complete
    types := MethodSite.map_type_parameters complete
    varargs := fun p mem flagged => by
      obtain ⟨-, -, -, -, last⟩ := MethodSite.mem_parameters mem
      rw [last, Bool.and_eq_true] at flagged
      exact eq_of_beq flagged.2
    generics := fun text g signed parsed p within => by
      obtain ⟨generic, type, -⟩ := MethodSite.mem_parameters within
      rw [genericParameters_of_signature mem signed parsed, List.getElem?_map, List.zip,
        List.getElem?_zipWith, type,
        alignToLast_getElem? _ _ (MethodSite.index_lt within)] at generic
      exact (Option.some.inj generic).symm
    names := fun entries declared p within => by
      obtain ⟨-, -, name, -⟩ := MethodSite.mem_parameters within
      rw [MethodSite.parameterNames_eq, declared] at name
      dsimp only at name
      rw [List.getElem?_map, alignToLast_getElem? _ _ (MethodSite.index_lt within), owner] at name
      exact (Option.some.inj name).symm
    annotations := fun p within => by
      obtain ⟨-, -, -, annotations, -⟩ := MethodSite.mem_parameters within
      rw [MethodSite.parameterAnnotations_eq, List.getElem?_map,
        List.getElem?_range (MethodSite.index_lt within), owner] at annotations
      exact (Option.some.inj annotations).symm
    slices := fun text g signed parsed => by
      rw [genericParameters_of_signature mem signed parsed]
      exact MethodSite.genericsBySlice?_eq _ _
    stores := fun entries declared => by
      rw [MethodSite.parameterNames_eq, declared, ← owner]
      exact storeFrom?_alignToLast _ _ _
    reads := m.parametersByIndex?_eq }

/-- The image of a class `A` with a method `m` of three parameters: its signature has types of two,
there are names for four, and annotations of one. -/
def unevenImage : Bytes :=
  [0xCA, 0xFE, 0xBA, 0xBE, 0, 0, 0, 52, 0, 13,
   1, 0, 1, 65, 7, 0, 1,
   1, 0, 16, 106, 97, 118, 97, 47, 108, 97, 110, 103, 47, 79, 98, 106, 101, 99, 116, 7, 0, 3,
   1, 0, 1, 109, 1, 0, 7, 40, 73, 74, 91, 73, 41, 86,
   1, 0, 9, 83, 105, 103, 110, 97, 116, 117, 114, 101, 1, 0, 6, 40, 74, 91, 73, 41, 86,
   1, 0, 16, 77, 101, 116, 104, 111, 100, 80, 97, 114, 97, 109, 101, 116, 101, 114, 115,
   1, 0, 34, 82, 117, 110, 116, 105, 109, 101, 86, 105, 115, 105, 98, 108, 101, 80, 97, 114, 97,
   109, 101, 116, 101, 114, 65, 110, 110, 111, 116, 97, 116, 105, 111, 110, 115,
   1, 0, 3, 76, 65, 59, 1, 0, 1, 98,
   0, 33, 0, 2, 0, 4, 0, 0, 0, 0,
   0, 1, 4, 129, 0, 5, 0, 6, 0, 3,
   0, 7, 0, 0, 0, 2, 0, 8,
   0, 9, 0, 0, 0, 17, 4, 0, 1, 0, 0, 0, 5, 0, 0, 0, 12, 0, 0, 0, 0, 0, 0,
   0, 10, 0, 0, 0, 7, 1, 0, 1, 0, 11, 0, 0,
   0, 0]

def unevenSite : ClassSite := (ofBytes {} 0 unevenImage).toOption.getD default

theorem ofBytes_unevenImage : ofBytes {} 0 unevenImage = .ok unevenSite :=
  except_eq_ok_getD (by decide +kernel)

theorem parameters_aligned_uneven : ofBytes {} 0 unevenImage = .ok unevenSite ∧
    (unevenSite.methods.map fun m => m.parameters.map fun p =>
      (p.name, p.generic == .plain p.type, p.annotations.length, p.isVarargs)) =
        [[(some "A", true, 0, false), (some "m", true, 0, false), (some "b", true, 1, true)]] ∧
    unevenSite.methods.map (·.member) = unevenSite.classFile.methods ∧
    ∀ m ∈ unevenSite.methods, unevenSite.Aligns m :=
  ⟨ofBytes_unevenImage, by decide +kernel, parameters_aligned ofBytes_unevenImage⟩

end ClassSite

end Weft
