import Weft.Proofs.Weave.Callbacks
import Weft.Proofs.Weave.Conservation

/-!
# What refused plans leave behind

A step of planning registers the callbacks of what it plans in their order. A step that fails has
registered the first of them, and what is registered stays: a plan that is refused leaves the
callbacks of what was planned before the refusal. Only a composition that needs none leaves the
registry as it was whenever its plan is refused.
-/

namespace Weft

variable {σ : Type}

/-! ## The callbacks of a composition -/

/-- The callbacks that a declared field needs. -/
def FieldDeclaration.callbacks (f : FieldDeclaration σ) : List (Callback σ) :=
  match f.initial with
  | .computed initializer => [.initializer initializer]
  | _ => []

/-- The callbacks that a method needs for what is asked for there, if a chain can be made of it. -/
def MethodSite.callbacks (m : MethodSite) (injections : List (Injection σ)) : List (Callback σ) :=
  if injections.all (·.isNothing) then []
  else (Chain.ofInjections m injections).toOption.toList.map .interception

/-- The callbacks that all declared and intercepted members need. -/
def Composition.callbacks (c : Composition σ) : List (Callback σ) :=
  (c.additions.filterMap (·.field?)).flatMap (·.callbacks) ++
    ((c.additions.filterMap (·.method?)).map (.addedMethod ·.code) ++
      c.methods.flatMap fun m => m.1.callbacks m.2)

/-! ## Tokens are new -/

namespace Registry

variable {r r' : Registry σ} {given : List (String × Callback σ)}

theorem size_register (sound : r.Sound) (c : Callback σ) : (r.register c).2.size = r.size + 1 := by
  have fresh : (r.register c).1 ∉ r.entries := fun mem => not_gave_next r (sound _ mem)
  show (r.entries.insert (r.register c).1 c).size = r.entries.size + 1
  rw [Std.HashMap.size_insert, if_neg fresh]

/-- Each callback that is registered takes the number that follows. -/
theorem Gains.next (h : r.Gains given r') : r'.next = r.next + given.length := by
  induction h with
  | refl r => rfl
  | @cons r r' given c _ ih =>
    rw [ih, List.length_cons]
    exact Nat.succ_add_eq_add_succ r.next given.length

theorem Gains.size (h : r.Gains given r') (sound : r.Sound) :
    r'.size = r.size + given.length := by
  induction h with
  | refl r => rfl
  | @cons r r' given c _ ih =>
    rw [ih (sound.register c), size_register sound, List.length_cons, Nat.add_assoc, Nat.add_comm 1]

end Registry

namespace Weave

namespace Planner

variable {p : Planner} {α β : Type} {P : α → Prop} {Q : β → Prop} {cs ds : List (Callback σ)}

/-- The step registers the callbacks one behind the other, or the first of them if it fails. What it
answers has the property. -/
structure Registers (x : Step σ α) (cs : List (Callback σ)) (P : α → Prop) : Prop where
  ok : ∀ s a s', x s = .ok a s' →
    (∃ given, s.registry.Gains given s'.registry ∧ given.map (·.2) = cs) ∧ P a
  error : ∀ s e s', x s = .error e s' →
    ∃ given, s.registry.Gains given s'.registry ∧ given.map (·.2) <+: cs

/-! ## Steps made of steps -/

namespace Registers

theorem pure {a : α} (h : P a) : Registers (σ := σ) (Pure.pure a) [] P where
  ok s b s' done := by
    obtain ⟨rfl, rfl⟩ := step_pure_eq_ok.1 done
    exact ⟨⟨[], .refl _, rfl⟩, h⟩
  error s e s' done := by cases done

theorem refuse (cause : Incompatible) : Registers (Planner.refuse cause) cs P where
  ok s a s' done := by cases done
  error s e s' done := by
    cases done
    exact ⟨[], .refl _, List.nil_prefix⟩

theorem bind {x : Step σ α} {f : α → Step σ β} (h : Registers x cs P)
    (h' : ∀ a, P a → Registers (f a) ds Q) : Registers (x >>= f) (cs ++ ds) Q where
  ok s b s'' done := by
    obtain ⟨a, s', first, second⟩ := step_bind_eq_ok.1 done
    obtain ⟨⟨given, gains, rfl⟩, answer⟩ := h.ok s a s' first
    obtain ⟨⟨given', gains', rfl⟩, answer'⟩ := (h' a answer).ok s' b s'' second
    exact ⟨⟨given ++ given', gains.trans gains', List.map_append⟩, answer'⟩
  error s e s'' done := by
    cases first : x s with
    | error e' s' =>
      rw [step_bind_error first] at done
      cases done
      obtain ⟨given, gains, begins⟩ := h.error s e s'' first
      exact ⟨given, gains, begins.trans (List.prefix_append cs ds)⟩
    | ok a s' =>
      obtain ⟨⟨given, gains, rfl⟩, answer⟩ := h.ok s a s' first
      rw [step_bind_ok first] at done
      obtain ⟨given', gains', begins⟩ := (h' a answer).error s' e s'' done
      refine ⟨given ++ given', gains.trans gains', ?_⟩
      rw [List.map_append]
      exact (List.prefix_append_right_inj _).2 begins

/-- A step that registers nothing, and then others. -/
theorem after {x : Step σ α} {f : α → Step σ β} (h : Registers x [] P)
    (h' : ∀ a, P a → Registers (f a) cs Q) : Registers (x >>= f) cs Q := h.bind h'

/-- The steps before one that registers nothing. -/
theorem before {x : Step σ α} {f : α → Step σ β} (h : Registers x cs P)
    (h' : ∀ a, P a → Registers (f a) [] Q) : Registers (x >>= f) cs Q :=
  List.append_nil cs ▸ h.bind h'

theorem refuse_bind (cause : Incompatible) {f : α → Step σ β} :
    Registers (Planner.refuse cause >>= f) cs Q :=
  have refused : Registers (Planner.refuse cause) [] fun _ : α => False := refuse cause
  refused.after fun _ impossible => impossible.elim

theorem ite {c : Prop} [Decidable c] {x y : Step σ α} (hx : c → Registers x cs P)
    (hy : ¬ c → Registers y cs P) : Registers (if c then x else y) cs P := by
  split
  · exact hx ‹c›
  · exact hy ‹¬ c›

theorem mapM {f : α → Step σ β} {callbacks : α → List (Callback σ)} {as : List α}
    (each : ∀ a ∈ as, Registers (f a) (callbacks a) fun _ => True) :
    Registers (as.mapM f) (as.flatMap callbacks) fun _ => True := by
  induction as with
  | nil => exact pure trivial
  | cons a as ih =>
    rw [List.mapM_cons, List.flatMap_cons]
    refine (each a List.mem_cons_self).bind fun b _ => ?_
    exact (ih fun a' mem => each a' (List.mem_cons_of_mem a mem)).before fun bs _ => pure trivial

theorem forM {f : α → Step σ PUnit} {callbacks : α → List (Callback σ)} {as : List α}
    (each : ∀ a ∈ as, Registers (f a) (callbacks a) fun _ => True) :
    Registers (as.forM f) (as.flatMap callbacks) fun _ => True := by
  induction as with
  | nil => exact pure trivial
  | cons a as ih =>
    rw [List.flatMap_cons]
    exact (each a List.mem_cons_self).bind fun _ _ =>
      ih fun a' mem => each a' (List.mem_cons_of_mem a mem)

/-- A step that leaves the registry alone registers nothing. -/
theorem nothing {x : Step σ α} (h : ∀ r, Maintains (fun s : Planning σ => s.registry = r) x P) :
    Registers x [] P where
  ok s a s' done := by
    obtain ⟨same, answer⟩ := (h s.registry).ok s a s' rfl done
    exact ⟨⟨[], same ▸ .refl _, rfl⟩, answer⟩
  error s e s' done := ⟨[], (h s.registry).error s e s' rfl done ▸ .refl _, List.nil_prefix⟩

theorem get : Registers (MonadState.get : Step σ (Planning σ)) [] fun _ => True :=
  nothing fun _ => .weaken .get fun _ _ => trivial

theorem check (x : Except Error α) : Registers (σ := σ) (liftM x) [] (x = .ok ·) :=
  nothing fun _ => .check fun _ answered => answered

end Registers

/-! ## Steps of planning -/

theorem takesHelpers_registry (r : Registry σ) :
    p.TakesHelpers fun s : Planning σ => s.registry = r := fun _ _ _ _ before => before

theorem register_registers (c : Callback σ) : Registers (register c) [c] fun _ => True where
  ok s token s' done := by
    obtain ⟨rfl, rfl⟩ := register_eq_ok done
    exact ⟨⟨_, .single _ c, rfl⟩, trivial⟩
  error s e s' done := by cases done

theorem checkFieldName_registers (name : String) :
    Registers (σ := σ) (p.checkFieldName name) [] fun _ => True :=
  .nothing fun _ => checkFieldName_maintains name

theorem fieldInit_registers (f : FieldDeclaration σ) :
    Registers (p.fieldInit f) f.callbacks fun _ => True := by
  unfold fieldInit FieldDeclaration.callbacks
  cases f.initial with
  | none => exact .pure trivial
  | constant value =>
    exact .ite (fun _ => .refuse _) fun _ => .ite (fun _ => .pure trivial) fun _ => .pure trivial
  | computed initializer =>
    exact (checkFieldName_registers _).after fun _ _ =>
      (register_registers _).before fun _ _ => .pure trivial

theorem addField_registers (f : FieldDeclaration σ) :
    Registers (p.addField f) f.callbacks fun _ => True := by
  refine .ite (fun _ => .refuse_bind _) fun _ => (checkFieldName_registers _).after fun _ _ => ?_
  refine .ite (fun _ => .refuse_bind _) fun _ => (fieldInit_registers f).before fun init _ => ?_
  exact .nothing fun r => .modify fun s same => same

/-- The fields among the injections have their callbacks registered, the methods are answered. -/
theorem addFields_registers (injections : List (Injection σ)) :
    Registers (p.addFields injections) ((injections.filterMap (·.field?)).flatMap (·.callbacks))
      fun declared => declared = injections.filterMap (·.method?) := by
  induction injections with
  | nil => exact .pure rfl
  | cons i rest ih =>
    cases i with
    | addField f => exact (addField_registers f).bind fun _ _ => ih
    | addMethod m => exact ih.before fun declared same => .pure (same ▸ rfl)
    | nothing target => exact ih
    | ignoreMethod callback => exact .refuse _
    | preHook callback => exact .refuse _
    | postHook callback => exact .refuse _
    | replaceMethod callback => exact .refuse _
    | errorRecovery callback => exact .refuse _

theorem addMethod_registers (m : MethodDeclaration σ) :
    Registers (p.addMethod m) [.addedMethod m.code] fun _ => True := by
  refine .ite (fun _ => .refuse_bind _) fun _ => .ite (fun _ => .refuse_bind _) fun _ =>
    .ite (fun _ => .refuse_bind _) fun _ => Registers.get.after fun s _ =>
      .ite (fun _ => .refuse_bind _) fun _ => ?_
  refine Registers.after (.nothing fun r => .mapM fun name _ =>
    fieldAccessor_maintains (takesHelpers_registry r) m name) fun fields _ => ?_
  refine Registers.after (.nothing fun r => .mapM fun callee _ =>
    methodAccessor_maintains (takesHelpers_registry r) m callee) fun methods _ => ?_
  exact (register_registers _).before fun token _ => .nothing fun r => .modify fun s same => same

theorem intercept_registers (m : MethodSite) (injections : List (Injection σ)) :
    Registers (p.intercept m injections) (m.callbacks injections) fun _ => True := by
  unfold MethodSite.callbacks
  by_cases idle : injections.all (·.isNothing) = true
  · rw [if_pos idle, intercept, if_pos idle]
    exact .pure trivial
  rw [if_neg idle, intercept, if_neg idle]
  refine .ite (fun _ => .refuse_bind _) fun _ => .ite (fun _ => .refuse_bind _) fun _ =>
    .ite (fun _ => .refuse_bind _) fun _ => ?_
  refine (Registers.check _).after fun chain made => ?_
  rw [made]
  refine Registers.get.after fun s _ => ?_
  refine Registers.after (.nothing fun _ => .modify fun s same => same) fun _ _ => ?_
  refine Registers.after (.nothing fun r => addHelper_maintains (takesHelpers_registry r)
    (by simp [helperLetters]) _) fun thunk _ => ?_
  exact (register_registers _).before fun token _ => .pure trivial

theorem checkFields_registers (fields : List (FieldSite × List (Injection σ))) :
    Registers (fields.forM fun f => checkField f.1 f.2 : Step σ PUnit) [] fun _ => True := by
  have each : ∀ f ∈ fields, Registers (checkField f.1 f.2) [] fun _ => True := fun f _ => by
    unfold checkField
    split
    · exact .refuse _
    · exact .pure trivial
  have all := Registers.forM each
  rwa [List.flatMap_eq_nil_iff.2 fun _ _ => rfl] at all

theorem addMethods_registers (declared : List (MethodDeclaration σ)) :
    Registers (declared.forM p.addMethod : Step σ PUnit) (declared.map (.addedMethod ·.code))
      fun _ => True := by
  rw [List.map_eq_flatMap]
  exact .forM fun m _ => addMethod_registers m

theorem plan_registers (c : Composition σ) : Registers (p.plan c) c.callbacks fun _ => True := by
  refine (addFields_registers c.additions).bind fun declared same => ?_
  subst same
  refine (addMethods_registers _).bind fun _ _ => ?_
  refine (Registers.mapM fun m _ => intercept_registers m.1 m.2).before fun intercepts _ => ?_
  refine (checkFields_registers c.fields).after fun _ _ => ?_
  exact Registers.get.after fun s _ => .pure trivial

end Planner

/-! ## The plan -/

variable {options : Options} {c : Composition σ} {l l' : Ledger σ}

/-- A plan registers the callbacks of its composition, in their order. -/
theorem Plan.gains_of_ofComposition {plan : Plan}
    (h : Plan.ofComposition options c l = .ok plan l') :
    ∃ given, l.registry.Gains given l'.registry ∧ given.map (·.2) = c.callbacks := by
  obtain ⟨s, planned, rfl⟩ := plan_of_ofComposition h
  exact ((Planner.plan_registers c).ok _ _ _ planned).1

/-- A plan that is refused leaves the first of the callbacks of its composition registered, as many
as were reached before the refusal. -/
theorem Plan.gains_of_refused {e : Error} (h : Plan.ofComposition options c l = .error e l') :
    ∃ given, l.registry.Gains given l'.registry ∧ given.map (·.2) <+: c.callbacks := by
  obtain ⟨s, refused, rfl⟩ := plan_of_refused h
  exact (Planner.plan_registers c).error _ _ _ refused

/-- Asks for a computed static field `x` and then for another field `x`. -/
def clashingComposition : Composition Unit where
  site := plainSite
  additions := [.addField ⟨.accStatic, "x", .primitive .int, .computed fun _ => pure .null⟩,
    .addField ⟨.accStatic, "x", .primitive .int, .none⟩]

/-- The second field is refused when the initializer of the first has been registered. -/
theorem Plan.size_clashing : ∃ e l',
    ofComposition {} clashingComposition ⟨{ number := 1 }, 1⟩ = .error e l' ∧
      l'.registry.size = 1 := by
  have refused : (ofComposition {} clashingComposition ⟨{ number := 1 }, 1⟩ |> fun
      | .ok _ _ => none
      | .error _ l' => some l'.registry.next) = some 1 := by decide +kernel
  cases done : ofComposition {} clashingComposition ⟨{ number := 1 }, 1⟩ with
  | ok plan l' =>
    rw [done] at refused
    cases refused
  | error e l' =>
    rw [done] at refused
    obtain ⟨given, gains, -⟩ := gains_of_refused done
    refine ⟨e, l', rfl, ?_⟩
    rw [gains.size (Registry.sound_empty 1), Registry.size, Std.HashMap.size_empty]
    have numbered := gains.next
    rw [Option.some.inj refused] at numbered
    exact numbered.symm

end Weave

end Weft
