import Weft.Proofs.Visitor.Composition
import Weft.Proofs.Signature.Descriptors
import Weft.Proofs.Weave.Planning

/-!
# The types that plans declare

Visitors declare fields and methods with types that are read of descriptors. What is composed of
their answers declares such types, also where it was cached, and so does what is planned for it.
-/

namespace Weft

variable {σ : Type}

/-- What the injection declares has a type that is read of some text. -/
def Injection.Parsed : Injection σ → Prop
  | .addField f => ∃ text, JType.ofDescriptor text = .ok f.type
  | .addMethod m => ∃ text, MethodDescriptor.ofText text = .ok m.descriptor
  | _ => True

/-- Whatever the visitor answers declares types that are read of some text. -/
def Visitor.Parsed (v : Visitor σ) : Prop :=
  ∀ site world i, (v.visit site world).1 = some i → i.Parsed

/-! ## Compositions -/

/-- All that is cached declares types that are read of some text. -/
def PlanCache.Parsed (c : PlanCache σ) : Prop :=
  ∀ (key : SiteKey × VisitorSetId) composed, c.entries[key]? = some composed →
    ∀ i ∈ composed, i.Parsed

theorem PlanCache.parsed_empty : PlanCache.Parsed ({} : PlanCache σ) :=
  keeps_empty (K := fun _ => Injection.Parsed)

namespace Composer

variable {c : Composer σ}

/-- What is cached while composing declares types that are read of some text. -/
abbrev Parsing (s : Composing σ) : Prop := s.cache.Parsed

/-- All of the injections declare types that are read of some text. -/
abbrev AllParsed (injections : List (Injection σ)) : Prop := ∀ i ∈ injections, i.Parsed

/-- What is composed declares types that are read of some text. -/
theorem composeAll_maintains (s : ClassSite) (parsed : ∀ v ∈ c.visitors.visitors, v.Parsed) :
    Maintains Parsing (c.composeAll s) fun composition => AllParsed composition.additions := by
  have admits : c.Admits Injection.Parsed := fun v mem site world i answered _ =>
    parsed v mem site world i answered
  refine (composeAll_keeps (K := fun _ => Injection.Parsed) admits s).weaken fun _ each i mem => ?_
  exact each i (List.mem_append_left _ (List.mem_append_left _ mem))

end Composer

/-! ## Plans -/

namespace Weave

/-- The types that the plan declares are ones that descriptors can spell. -/
structure Plan.Spelled (plan : Plan) : Prop where
  fields : ∀ f ∈ plan.fields, f.type.Spelled
  methods : ∀ m ∈ plan.methods, m.descriptor.Spelled

namespace Planner

variable {p : Planner} {I : Planning σ → Prop}

/-! ### Steps that plan helpers only -/

/-- How the names of helpers tell what these are for. -/
def helperLetters : List String := ["Call", "F", "M"]

/-- The property is kept when one more helper is planned. -/
def TakesHelpers (p : Planner) (I : Planning σ → Prop) : Prop :=
  ∀ s kind, ∀ letter ∈ helperLetters, I s → I { s with
    nextHelper := s.nextHelper + 1
    helpers := s.helpers ++ [⟨p.owner.nested (helperSuffix letter s.nextHelper), kind⟩] }

theorem refuse_maintains {α : Type} (cause : Incompatible) {P : α → Prop} :
    Maintains I (refuse cause) P := .throw _

theorem refuse_bind {α β : Type} (cause : Incompatible) {f : α → Step σ β} {P : β → Prop} :
    Maintains I (refuse cause >>= f) P :=
  (refuse_maintains cause).bind fun _ impossible => False.elim impossible

theorem checkFieldName_maintains (name : String) :
    Maintains I (p.checkFieldName name) fun _ => True :=
  Maintains.get.bind fun _ _ => .ite (fun _ => refuse_maintains _) fun _ => .pure trivial

theorem addHelper_maintains (takes : p.TakesHelpers I) {letter : String}
    (known : letter ∈ helperLetters) (kind : HelperKind) :
    Maintains I (p.addHelper letter kind) fun _ => True :=
  .modifyGet fun s before => ⟨takes s kind letter known before, trivial⟩

theorem helperFor_maintains (takes : p.TakesHelpers I) {letter : String}
    (known : letter ∈ helperLetters) (kind : HelperKind) (serves : HelperKind → Bool) :
    Maintains I (p.helperFor letter kind serves) fun _ => True := by
  refine Maintains.get.bind fun s before => ?_
  split
  · exact .pure trivial
  · exact addHelper_maintains takes known kind

theorem resolveField_maintains (name : String) :
    Maintains I (p.resolveField name) fun _ => True := by
  unfold resolveField
  split
  · exact .pure trivial
  · refine Maintains.get.bind fun s _ => ?_
    split
    · exact .pure trivial
    · exact refuse_maintains _

theorem resolveMethod_maintains (m : MethodReference) :
    Maintains I (p.resolveMethod m) fun _ => True := by
  refine .ite (fun _ => refuse_bind _) fun _ => ?_
  split
  · exact .pure trivial
  · refine Maintains.get.bind fun s _ => ?_
    split
    · exact .pure trivial
    · exact refuse_maintains _

theorem checkReach_maintains (m : MethodDeclaration σ) (member : String) (access : Access) :
    Maintains I (p.checkReach m member access) fun _ => True :=
  .ite (fun _ => refuse_bind _) fun _ => .ite (fun _ => refuse_maintains _) fun _ => .pure trivial

theorem fieldAccessor_maintains (takes : p.TakesHelpers I) (m : MethodDeclaration σ)
    (name : String) : Maintains I (p.fieldAccessor m name) fun _ => True :=
  (resolveField_maintains name).bind fun _ _ => (checkReach_maintains m name _).bind fun _ _ =>
    (helperFor_maintains takes (by simp [helperLetters]) _ _).bind fun _ _ => .pure trivial

theorem methodAccessor_maintains (takes : p.TakesHelpers I) (m : MethodDeclaration σ)
    (callee : MethodReference) : Maintains I (p.methodAccessor m callee) fun _ => True :=
  (resolveMethod_maintains callee).bind fun _ _ => (checkReach_maintains m _ _).bind fun _ _ =>
    (helperFor_maintains takes (by simp [helperLetters]) _ _).bind fun _ _ => .pure trivial

/-! ### Steps that register callbacks -/

/-- The property is kept whatever is registered. -/
def TakesCallbacks (I : Planning σ → Prop) : Prop := ∀ s registry, I s → I { s with registry }

theorem register_maintains (free : TakesCallbacks I) (callback : Callback σ) :
    Maintains I (register callback) fun _ => True :=
  .modifyGet fun s before => ⟨free s _ before, trivial⟩

theorem fieldInit_maintains (free : TakesCallbacks I) (f : FieldDeclaration σ) :
    Maintains I (p.fieldInit f) fun _ => True := by
  unfold fieldInit
  cases f.initial with
  | none => exact .pure trivial
  | constant value =>
    exact .ite (fun _ => refuse_maintains _) fun _ =>
      .ite (fun _ => .pure trivial) fun _ => .pure trivial
  | computed initializer =>
    exact (checkFieldName_maintains _).bind fun _ _ =>
      (register_maintains free _).bind fun _ _ => .pure trivial

/-- The property is kept when the declared field is planned. -/
def TakesField (I : Planning σ → Prop) (f : FieldDeclaration σ) : Prop :=
  ∀ s init, I s → I { s with fields := s.fields ++ [⟨f.access, f.name, f.type, init⟩] }

theorem addField_maintains (free : TakesCallbacks I) {f : FieldDeclaration σ}
    (takes : TakesField I f) : Maintains I (p.addField f) fun _ => True := by
  refine .ite (fun _ => refuse_bind _) fun _ => (checkFieldName_maintains _).bind fun _ _ => ?_
  refine .ite (fun _ => refuse_bind _) fun _ => ?_
  exact (fieldInit_maintains free f).bind fun init _ => .modify fun s => takes s init

/-- The methods among the injections are answered. -/
theorem addFields_maintains (free : TakesCallbacks I) {injections : List (Injection σ)}
    (takes : ∀ f, .addField f ∈ injections → TakesField I f) :
    Maintains I (p.addFields injections) fun methods => ∀ m ∈ methods, .addMethod m ∈ injections := by
  induction injections with
  | nil => exact .pure fun m mem => nomatch mem
  | cons i rest ih =>
    have ih := ih fun f mem => takes f (List.mem_cons_of_mem i mem)
    have others := ih.weaken fun methods among m mem => List.mem_cons_of_mem i (among m mem)
    cases i with
    | addField f =>
      exact (addField_maintains free (takes f List.mem_cons_self)).bind fun _ _ => others
    | addMethod m =>
      refine ih.bind fun methods among => .pure fun m' mem => ?_
      rcases List.mem_cons.1 mem with rfl | mem
      · exact List.mem_cons_self
      · exact List.mem_cons_of_mem _ (among m' mem)
    | nothing target => exact others
    | ignoreMethod callback => exact refuse_maintains _
    | preHook callback => exact refuse_maintains _
    | postHook callback => exact refuse_maintains _
    | replaceMethod callback => exact refuse_maintains _
    | errorRecovery callback => exact refuse_maintains _

/-! ### Types that are planned -/

/-- The types that are planned so far are ones that descriptors can spell. -/
structure Spelling (s : Planning σ) : Prop where
  fields : ∀ f ∈ s.fields, f.type.Spelled
  methods : ∀ m ∈ s.methods, m.descriptor.Spelled

theorem takesHelpers_spelling : p.TakesHelpers (Spelling (σ := σ)) :=
  fun _ _ _ _ before => ⟨before.fields, before.methods⟩

theorem takesCallbacks_spelling : TakesCallbacks (Spelling (σ := σ)) :=
  fun _ _ before => ⟨before.fields, before.methods⟩

theorem takesField_spelling {f : FieldDeclaration σ} (spelled : f.type.Spelled) :
    TakesField Spelling f := by
  refine fun s init before => ⟨fun g mem => ?_, before.methods⟩
  rcases List.mem_append.1 mem with mem | mem
  · exact before.fields g mem
  · exact List.mem_singleton.1 mem ▸ spelled

theorem addMethod_maintains {m : MethodDeclaration σ} (spelled : m.descriptor.Spelled) :
    Maintains Spelling (p.addMethod m) fun _ => True := by
  refine .ite (fun _ => refuse_bind _) fun _ => .ite (fun _ => refuse_bind _) fun _ =>
    .ite (fun _ => refuse_bind _) fun _ => Maintains.get.bind fun s _ =>
      .ite (fun _ => refuse_bind _) fun _ => ?_
  refine (Maintains.mapM fun name _ =>
    fieldAccessor_maintains takesHelpers_spelling m name).bind fun fields _ => ?_
  refine (Maintains.mapM fun callee _ =>
    methodAccessor_maintains takesHelpers_spelling m callee).bind fun methods _ => ?_
  refine (register_maintains takesCallbacks_spelling _).bind fun token _ => .modify fun s before => ?_
  refine ⟨before.fields, fun added mem => ?_⟩
  rcases List.mem_append.1 mem with mem | mem
  · exact before.methods added mem
  · exact List.mem_singleton.1 mem ▸ spelled

theorem intercept_maintains (m : MethodSite) (injections : List (Injection σ)) :
    Maintains Spelling (p.intercept m injections) fun _ => True := by
  refine .ite (fun _ => .pure trivial) fun _ => .ite (fun _ => refuse_bind _) fun _ =>
    .ite (fun _ => refuse_bind _) fun _ => .ite (fun _ => refuse_bind _) fun _ => ?_
  refine (Maintains.check fun _ _ => trivial).bind fun chain _ => Maintains.get.bind fun s _ => ?_
  refine (Maintains.modify fun s before => ⟨before.fields, before.methods⟩).bind fun _ _ => ?_
  exact (addHelper_maintains takesHelpers_spelling (by simp [helperLetters]) _).bind fun _ _ =>
    (register_maintains takesCallbacks_spelling _).bind fun _ _ => .pure trivial

theorem checkField_maintains (f : FieldSite) (injections : List (Injection σ)) :
    Maintains (Spelling (σ := σ)) (checkField f injections) fun _ => True := by
  unfold checkField
  split
  · exact refuse_maintains _
  · exact .pure trivial

/-- A plan declares what was composed, with types that descriptors can spell. -/
theorem plan_maintains {c : Composition σ} (parsed : ∀ i ∈ c.additions, i.Parsed) :
    Maintains Spelling (p.plan c) Plan.Spelled := by
  have takes (f : FieldDeclaration σ) (mem : .addField f ∈ c.additions) : TakesField Spelling f := by
    obtain ⟨text, typed⟩ := parsed _ mem
    exact takesField_spelling (JType.spelled_of_ofDescriptor typed)
  have spelled (m : MethodDeclaration σ) (mem : .addMethod m ∈ c.additions) :
      m.descriptor.Spelled := by
    obtain ⟨text, typed⟩ := parsed _ mem
    exact MethodDescriptor.spelled_of_ofText typed
  refine (addFields_maintains takesCallbacks_spelling takes).bind fun methods among => ?_
  refine (Maintains.forM fun m mem => addMethod_maintains (spelled m (among m mem))).bind fun _ _ => ?_
  refine (Maintains.mapM fun m _ => intercept_maintains m.1 m.2).bind fun intercepts _ => ?_
  refine (Maintains.forM fun f _ => checkField_maintains f.1 f.2).bind fun _ _ => ?_
  exact Maintains.get.bind fun s after => .pure ⟨after.fields, after.methods⟩

end Planner

/-- What is planned for a composition declares types that descriptors can spell. -/
theorem Plan.spelled_of_ofComposition {options : Options} {c : Composition σ} {l l' : Ledger σ}
    {plan : Plan} (h : Plan.ofComposition options c l = .ok plan l')
    (parsed : ∀ i ∈ c.additions, i.Parsed) : plan.Spelled := by
  obtain ⟨s, planned, rfl⟩ := plan_of_ofComposition h
  have start : Planner.Spelling ({ registry := l.registry, nextHelper := l.nextHelper } :
      Planning σ) := ⟨(fun f mem => nomatch mem), fun m mem => nomatch mem⟩
  exact ((Planner.plan_maintains parsed).ok _ _ _ start planned).2

end Weave

end Weft
