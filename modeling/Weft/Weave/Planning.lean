import Weft.Call.Registry
import Weft.Edit
import Weft.Visitor.Composer
import Weft.Weave.Plan

/-!
# Planning

A plan is made from what was composed for a class. Added fields come first, then added methods,
which may use the fields and the methods planned before them, then interceptions. Each callback is
registered and each helper numbered as its injection is reached; both stay so if a later injection
is refused.
-/

namespace Weft.Weave

/-- The state of planning. -/
structure Planning (σ : Type) where
  registry : Registry σ
  /-- The number of the next helper. -/
  nextHelper : Nat := 1
  fields : List PlannedField := []
  methods : List PlannedMethod := []
  helpers : List Helper := []
  /-- The names that intercepted bodies are kept under, each before its descriptor. -/
  kept : List String := []

/-- The class that is planned for. -/
structure Planner where
  site : ClassSite
  options : Options

namespace Planner

variable {σ : Type}

/-- A step of planning. -/
abbrev Step (σ α : Type) := Edit (Planning σ) α

/-- The name of the class. -/
def owner (p : Planner) : ClassName := p.site.name

/-- Fails for a cause. -/
def refuse {α : Type} (cause : Incompatible) : Step σ α := throw (.incompatible cause)

/-- Registers a callback. -/
def register (c : Callback σ) : Step σ String := modifyGet fun s =>
  let (token, registry) := s.registry.register c
  (token, { s with registry })

/-- Plans a helper under a new name. -/
def addHelper (p : Planner) (letter : String) (kind : HelperKind) : Step σ ClassName :=
  modifyGet fun s =>
    let name := p.owner.nested (helperSuffix letter s.nextHelper)
    (name, { s with nextHelper := s.nextHelper + 1, helpers := s.helpers ++ [⟨name, kind⟩] })

/-- The helper for a use, an equal one if there is one already. -/
def helperFor (p : Planner) (letter : String) (kind : HelperKind) (serves : HelperKind → Bool) :
    Step σ ClassName := do
  match (← get).helpers.find? (serves ·.kind) with
  | some helper => return helper.name
  | none => p.addHelper letter kind

/-- The class has a field of that name, or will have. -/
def hasField (p : Planner) (name : String) (s : Planning σ) : Bool :=
  p.site.fieldTypes.any (·.1 == name) || s.fields.any (·.name == name)

/-- The class has a method of that name and descriptor, or will have. -/
def hasMethod (p : Planner) (name descriptor : String) (s : Planning σ) : Bool :=
  p.site.methodTypes.any (fun m => m.1 == name && m.2.descriptor == descriptor) ||
    s.methods.any (fun m => m.name == name && m.descriptor.descriptor == descriptor) ||
    s.kept.contains (name ++ descriptor)

/-! ## Fields -/

/-- Whether a literal can be the constant of a field of the type. -/
def fits : Literal → JType → Bool
  | .int _, .primitive p => p ∈ [.boolean, .byte, .char, .short, .int]
  | .long _, t => t = .primitive .long
  | .float _, t => t = .primitive .float
  | .double _, t => t = .primitive .double
  | .string _, t => t = .string
  | _, _ => false

/-- An interface can have the field. -/
def isInterfaceField (f : FieldDeclaration σ) : Bool :=
  f.access.has (.accPublic ∪ .accStatic ∪ .accFinal) && match f.initial with
    | .computed _ => false
    | _ => true

/-- Fails if the name of a field is taken. -/
def checkFieldName (p : Planner) (name : String) : Step σ Unit := do
  if p.hasField name (← get) then refuse (.fieldTaken name p.owner)

/-- How a declared field gets its value. -/
def fieldInit (p : Planner) (f : FieldDeclaration σ) : Step σ FieldInit := do
  match f.initial with
  | .none => return .default
  | .constant value =>
    if !fits value f.type then refuse (.constantType value f.name f.type)
    else if f.access.isStatic then return .constant value
    else return .store value
  | .computed initializer =>
    let holder := holderName f.name
    p.checkFieldName holder
    return .callback (← register (.initializer initializer)) holder

/-- Plans a field. -/
def addField (p : Planner) (f : FieldDeclaration σ) : Step σ Unit := do
  if f.type.isVoid then refuse (.voidField f.name)
  p.checkFieldName f.name
  if p.site.isInterface && !isInterfaceField f then refuse (.interfaceField p.owner f.name)
  let planned : PlannedField := ⟨f.access, f.name, f.type, ← p.fieldInit f⟩
  modify fun s => { s with fields := s.fields ++ [planned] }

/-! ## Methods -/

/-- The flags and the type of a field that the class has or will have. -/
def resolveField (p : Planner) (name : String) : Step σ (Access × JType) := do
  match p.site.field? name with
  | some f => return (f.access, f.type)
  | none =>
    match (← get).fields.find? (·.name == name) with
    | some f => return (f.access, f.type)
    | none => refuse (.accessorField name p.owner)

/-- The flags of a method that the class has or will have. -/
def resolveMethod (p : Planner) (m : MethodReference) : Step σ Access := do
  if m.name.startsWith "<" then refuse (.accessorSpecial m.name)
  match p.site.method? m.name m.descriptor.descriptor with
  | some m => return m.access
  | none =>
    match (← get).methods.find? fun q => q.name == m.name && q.descriptor == m.descriptor with
    | some q => return q.access
    | none => refuse (.accessorMethod m.name m.descriptor.descriptor p.owner)

/-- Fails unless the helpers of an added method reach a member with those flags. -/
def checkReach (p : Planner) (method : MethodDeclaration σ) (member : String) (access : Access) :
    Step σ Unit := do
  if method.access.isStatic && !access.isStatic then refuse (.staticAccess method.name member)
  if access.has .accPrivate && !hostsNest p.options p.site.classFile then
    refuse (.privateAccess member p.owner p.site.majorVersion nestVersion)

/-- The accessor of a field that an added method uses. -/
def fieldAccessor (p : Planner) (method : MethodDeclaration σ) (name : String) :
    Step σ (String × ClassName) := do
  let (access, type) ← p.resolveField name
  p.checkReach method name access
  let helper ← p.helperFor "F" (.field name type access.isStatic (access.has .accFinal)) fun
    | .field other .. => other == name
    | _ => false
  return (name, helper)

/-- The accessor of a method that an added method uses. -/
def methodAccessor (p : Planner) (method : MethodDeclaration σ) (m : MethodReference) :
    Step σ (String × ClassName) := do
  let access ← p.resolveMethod m
  p.checkReach method m.name access
  let helper ← p.helperFor "M" (.method m.name m.descriptor access.isStatic) fun
    | .method other d _ => other == m.name && d.descriptor == m.descriptor.descriptor
    | _ => false
  return (m.name, helper)

/-- Plans a method. -/
def addMethod (p : Planner) (m : MethodDeclaration σ) : Step σ Unit := do
  let descriptor := m.descriptor.descriptor
  if m.name.startsWith "<" then refuse (.specialMethod m.name)
  if p.site.isInterface then refuse (.interfaceMethod m.name p.owner)
  if m.access.hasAny (.accAbstract ∪ .accNative) then refuse (.bodilessMethod m.name)
  if p.hasMethod m.name descriptor (← get) then refuse (.methodTaken m.name descriptor p.owner)
  let fields ← m.fields.mapM (p.fieldAccessor m)
  let methods ← m.methods.mapM (p.methodAccessor m)
  let token ← register (.addedMethod m.code)
  let planned : PlannedMethod :=
    ⟨m.access ∪ .accSynthetic, m.name, m.descriptor, m.throws, token, fields, methods⟩
  modify fun s => { s with methods := s.methods ++ [planned] }

/-! ## Interceptions -/

/-- The first of `fuel + 1` numbered names from `n` on that is not taken, or the last. -/
def numberedName (taken : String → Bool) (base : String) : Nat → Nat → String
  | 0, n => base ++ toString n
  | fuel + 1, n =>
    let name := base ++ toString n
    if taken name then numberedName taken base fuel (n + 1) else name

/-- The first name among `base`, `base1`, `base2` and so on that no method of the descriptor has.
There are more names than methods, so one of them is free. -/
def freeName (p : Planner) (base descriptor : String) (s : Planning σ) : String :=
  let taken (name : String) := p.hasMethod name descriptor s
  let count := p.site.methodTypes.length + s.methods.length + s.kept.length
  if taken base then numberedName taken base count 1 else base

/-- Plans the interception of a method, unless nothing is asked for. -/
def intercept (p : Planner) (m : MethodSite) (injections : List (Injection σ)) :
    Step σ (Option PlannedIntercept) := do
  if injections.all (·.isNothing) then return none
  if m.isConstructor || m.isStaticInitializer then refuse (.initializerSite m.display)
  if p.site.isInterface then refuse (.interfaceSite m.display p.owner)
  if m.access.hasAny (.accAbstract ∪ .accNative) || !m.hasCode then refuse (.codelessSite m.display)
  let chain ← Chain.ofInjections m injections
  let descriptor := m.descriptor.descriptor
  let keptAs := p.freeName (keptName m.name) descriptor (← get)
  modify fun s => { s with kept := (keptAs ++ descriptor) :: s.kept }
  let thunk ← p.addHelper "Call" (.call keptAs m.descriptor m.isStatic)
  let token ← register (.interception chain)
  return some ⟨m, chain.length, token, keptAs, thunk⟩

/-! ## The plan -/

/-- Plans the fields among the injections of a class; answers the methods among them. -/
def addFields (p : Planner) : List (Injection σ) → Step σ (List (MethodDeclaration σ))
  | [] => return []
  | .addField f :: rest => do
    p.addField f
    p.addFields rest
  | .addMethod m :: rest => do return m :: (← p.addFields rest)
  | .nothing _ :: rest => p.addFields rest
  | i :: _ => refuse (.classInjection i.kind p.owner)

/-- Fails if something is asked for at a field. -/
def checkField (f : FieldSite) (injections : List (Injection σ)) : Step σ Unit := do
  match injections.find? (!·.isNothing) with
  | some i => refuse (.fieldInjection i.kind f.display)
  | none => return

/-- Plans all injections of a class. -/
def plan (p : Planner) (c : Composition σ) : Step σ Plan := do
  let methods ← p.addFields c.additions
  methods.forM p.addMethod
  let intercepts ← c.methods.mapM fun (m, injections) => p.intercept m injections
  c.fields.forM fun (f, injections) => checkField f injections
  let s ← get
  return { site := p.site, options := p.options, fields := s.fields, methods := s.methods
           intercepts := intercepts.filterMap id, helpers := s.helpers, injections := c.length }

end Planner

/-- What lasts from one plan to the next: the callbacks, and the number of the next helper. -/
structure Ledger (σ : Type) where
  registry : Registry σ
  nextHelper : Nat := 1

/-- The plan for what was composed. -/
def Plan.ofComposition {σ : Type} (options : Options) (c : Composition σ) :
    Edit (Ledger σ) Plan := fun l =>
  let start : Planning σ := { registry := l.registry, nextHelper := l.nextHelper }
  match Planner.plan ⟨c.site, options⟩ c start with
  | .ok plan s => .ok plan ⟨s.registry, s.nextHelper⟩
  | .error e s => .error e ⟨s.registry, s.nextHelper⟩

end Weft.Weave
