import Asm65816.Program.Placement

/-!
# Outcomes of checked steps

A chain of checked steps succeeds exactly when each of them does, and giving a fault a location
changes neither successes nor faults. These facts take chains apart in every other proof.
-/

namespace Asm65816

variable {ε ε' α β : Type}

/-- A chain succeeds exactly when its first step does and the rest does with its result. -/
theorem bind_eq_ok {step : Except ε α} {next : α → Except ε β} {result : β} :
    step >>= next = .ok result ↔ ∃ value, step = .ok value ∧ next value = .ok result := by
  cases step with
  | error cause => simp [bind, Except.bind]
  | ok value => simp [bind, Except.bind]

/-- A chain fails in its first step or, after it, in the rest. -/
theorem bind_eq_error {step : Except ε α} {next : α → Except ε β} {cause : ε} :
    step >>= next = .error cause ↔
      step = .error cause ∨ ∃ value, step = .ok value ∧ next value = .error cause := by
  cases step with
  | error found => simp [bind, Except.bind]
  | ok value => simp [bind, Except.bind]

/-- A chain behind a success goes on with its result. -/
theorem ok_bind (value : α) (next : α → Except ε β) : (.ok value >>= next) = next value := rfl

/-- Returning a value succeeds with that value only. -/
theorem pure_eq_ok {value result : α} :
    (pure value : Except ε α) = .ok result ↔ value = result := by
  simp [pure, Except.pure]

/-- A step behind a refusal succeeds exactly when nothing is refused and the step does. -/
theorem refuse_eq_ok {condition : Prop} [Decidable condition] {cause : ε} {step : Except ε α}
    {result : α} :
    (if condition then .error cause else step) = .ok result ↔ ¬condition ∧ step = .ok result := by
  by_cases h : condition
  · simp [h]
  · simp [h]

/-- A step behind a demand succeeds exactly when the demand is met and the step does. -/
theorem demand_eq_ok {condition : Prop} [Decidable condition] {cause : ε} {step : Except ε α}
    {result : α} :
    (if condition then step else .error cause) = .ok result ↔ condition ∧ step = .ok result := by
  by_cases h : condition
  · simp [h]
  · simp [h]

/-- A step that succeeds has a result. -/
theorem exists_of_isOk {step : Except ε α} (h : step.isOk = true) :
    ∃ result, step = .ok result := by
  cases step with
  | error cause => cases h
  | ok result => exact ⟨result, rfl⟩

/-- The result of a step without its cause of failure. -/
theorem toOption_eq_some {step : Except ε α} {result : α} :
    step.toOption = some result ↔ step = .ok result := by
  cases step with
  | error cause => simp [Except.toOption]
  | ok found => simp [Except.toOption]

theorem toOption_bind (step : Except ε α) (next : α → Except ε β) :
    (step >>= next).toOption = step.toOption.bind fun value => (next value).toOption := by
  cases step <;> rfl

theorem toOption_map (step : Except ε α) (change : α → β) :
    (step.map change).toOption = step.toOption.map change := by
  cases step <;> rfl

/-- A computation whose result passes a test. -/
theorem exists_ok_of_any {step : Except ε α} (test : α → Bool)
    (h : step.toOption.any test = true) : ∃ result, step = .ok result ∧ test result = true := by
  obtain ⟨result, hresult, htest⟩ := (Option.any_eq_true _ _).mp h
  exact ⟨result, toOption_eq_some.mp hresult, htest⟩

/-- A list of steps that all succeed has the results of its steps and no others. -/
theorem mapM_eq_ok {step : α → Except ε β} {items : List α} {results : List β}
    (h : items.mapM step = .ok results) :
    (∀ item ∈ items, ∃ result ∈ results, step item = .ok result) ∧
      ∀ result ∈ results, ∃ item ∈ items, step item = .ok result := by
  induction items generalizing results with
  | nil =>
    obtain rfl := pure_eq_ok.mp h
    simp
  | cons item rest ih =>
    simp only [List.mapM_cons, bind_eq_ok, pure_eq_ok] at h
    obtain ⟨first, hfirst, others, hothers, rfl⟩ := h
    obtain ⟨hforth, hback⟩ := ih hothers
    constructor
    · intro other hother
      rcases List.mem_cons.mp hother with rfl | hrest
      · exact ⟨first, List.mem_cons_self, hfirst⟩
      · obtain ⟨result, hresult, hstep⟩ := hforth other hrest
        exact ⟨result, List.mem_cons_of_mem _ hresult, hstep⟩
    · intro result hresult
      rcases List.mem_cons.mp hresult with rfl | hrest
      · exact ⟨item, List.mem_cons_self, hfirst⟩
      · obtain ⟨other, hother, hstep⟩ := hback result hrest
        exact ⟨other, List.mem_cons_of_mem _ hother, hstep⟩

/-- Steps that all succeed do so one after the other. -/
theorem exists_mapM_ok {step : α → Except ε β} {items : List α}
    (h : ∀ item ∈ items, ∃ result, step item = .ok result) :
    ∃ results, items.mapM step = .ok results := by
  induction items with
  | nil => exact ⟨[], rfl⟩
  | cons item rest ih =>
    obtain ⟨first, hfirst⟩ := h item List.mem_cons_self
    obtain ⟨others, hothers⟩ := ih fun other hother => h other (List.mem_cons_of_mem _ hother)
    refine ⟨first :: others, ?_⟩
    simp only [List.mapM_cons, bind_eq_ok, pure_eq_ok]
    exact ⟨first, hfirst, others, hothers, rfl⟩

/-- What every step keeps holds at the end of a chain over a list. -/
theorem foldlM_invariant {step : β → α → Except ε β} {Good : β → Prop} {items : List α}
    {state last : β} (hstep : ∀ item ∈ items, ∀ state next, Good state →
      step state item = .ok next → Good next)
    (hstate : Good state) (h : items.foldlM step state = .ok last) : Good last := by
  induction items generalizing state with
  | nil =>
    rw [List.foldlM_nil, pure_eq_ok] at h
    exact h ▸ hstate
  | cons item rest ih =>
    rw [List.foldlM_cons, bind_eq_ok] at h
    obtain ⟨next, hnext, hrest⟩ := h
    refine ih (fun item hitem => hstep item (List.mem_cons_of_mem _ hitem)) ?_ hrest
    exact hstep item List.mem_cons_self state next hstate hnext

/-- A result that is passed on changed comes from a success. -/
theorem map_eq_ok {step : Except ε α} {change : α → β} {result : β} :
    step.map change = .ok result ↔ ∃ value, step = .ok value ∧ change value = result := by
  cases step with
  | error cause => simp [Except.map]
  | ok value => simp [Except.map]

/-- Steps whose results look alike succeed together. -/
theorem exists_of_map_eq {first second : Except ε α} {view : α → β} {found : α}
    (h : second.map view = first.map view) (hfirst : first = .ok found) :
    ∃ other, second = .ok other ∧ view other = view found := by
  rw [hfirst] at h
  exact map_eq_ok.mp h

/-- What is changed at the end of a chain is changed in its last step. -/
theorem map_bind {γ : Type} (step : Except ε α) (next : α → Except ε β) (change : β → γ) :
    (step >>= next).map change = step >>= fun value => (next value).map change := by
  cases step <;> rfl

/-- A chain behind a changed result goes on with it. -/
theorem bind_map {γ : Type} (step : Except ε α) (change : α → β) (next : β → Except ε γ) :
    step.map change >>= next = step >>= fun value => next (change value) := by
  cases step <;> rfl

/-- Steps whose results look alike are followed alike by steps that depend on the looks only. -/
theorem map_bind_view {γ δ : Type} (step : Except ε α) {next : α → Except ε β}
    (look : α → γ) (change : β → δ) (seen : γ → Except ε δ)
    (h : ∀ value, (next value).map change = seen (look value)) :
    (step >>= next).map change = step.map look >>= seen := by
  cases step with
  | error cause => rfl
  | ok value => exact h value

/-- Results are changed and causes reworded apart from each other. -/
theorem map_mapError (step : Except ε α) (reword : ε → ε') (change : α → β) :
    (step.mapError reword).map change = (step.map change).mapError reword := by
  cases step <;> rfl

/-- Rewording causes keeps successes. -/
theorem mapError_eq_ok {step : Except ε α} {reword : ε → ε'} {result : α} :
    step.mapError reword = .ok result ↔ step = .ok result := by
  cases step with
  | error cause =>
    constructor
    · intro h
      cases h
    · intro h
      cases h
  | ok value =>
    change Except.ok value = .ok result ↔ _
    simp

/-- A reworded failure comes from a failure. -/
theorem mapError_eq_error {step : Except ε α} {reword : ε → ε'} {cause : ε'} :
    step.mapError reword = .error cause ↔ ∃ found, step = .error found ∧ reword found = cause := by
  cases step with
  | error found =>
    change Except.error (reword found) = .error cause ↔ _
    simp
  | ok value =>
    constructor
    · intro h
      cases h
    · rintro ⟨found, h, -⟩
      cases h

/-- A step at a location succeeds exactly when the step does. -/
theorem failingAt_eq_ok {location : Location} {step : Except Fault α} {result : α} :
    failingAt location step = .ok result ↔ step = .ok result :=
  mapError_eq_ok

theorem toOption_failingAt (location : Location) (step : Except Fault α) :
    (failingAt location step).toOption = step.toOption := by
  cases step <;> rfl

/-- A step fails at a location with the fault of the step. -/
theorem failingAt_eq_error {location : Location} {step : Except Fault α} {failure : Failure} :
    failingAt location step = .error failure ↔
      step = .error failure.fault ∧ failure.location = location := by
  unfold failingAt
  rw [mapError_eq_error]
  constructor
  · rintro ⟨fault, hstep, rfl⟩
    exact ⟨hstep, rfl⟩
  · rintro ⟨hstep, rfl⟩
    exact ⟨failure.fault, hstep, rfl⟩

/-- An operand without a value gives its own fault, unless it traps. -/
theorem Fault.unlessTrap_eq (cause : EvalError) (fault : Fault) :
    unlessTrap cause fault = eval .trap ∨ unlessTrap cause fault = fault := by
  cases cause with
  | trap => exact .inl rfl
  | _ => exact .inr rfl

/-! ## Outcomes that coincide -/

/-- Two steps that fail for the same cause, or succeed with related results. -/
inductive Coincide (related : α → β → Prop) : Except ε α → Except ε β → Prop where
  | error (cause : ε) : Coincide related (.error cause) (.error cause)
  | ok {first : α} {second : β} (results : related first second) :
      Coincide related (.ok first) (.ok second)

namespace Coincide

variable {γ δ : Type} {related : α → β → Prop} {further : γ → δ → Prop} {first : Except ε α}
  {second : Except ε β}

/-- Steps that coincide are followed by steps that do. -/
theorem bind {next : α → Except ε γ} {next' : β → Except ε δ} (h : Coincide related first second)
    (hnext : ∀ value value', related value value' → Coincide further (next value) (next' value')) :
    Coincide further (first >>= next) (second >>= next') := by
  cases h with
  | error cause => exact .error cause
  | ok results => exact hnext _ _ results

/-- Results that are related are related in a weaker sense. -/
theorem mono {weaker : α → β → Prop} (h : Coincide related first second)
    (himp : ∀ value value', related value value' → weaker value value') :
    Coincide weaker first second := by
  cases h with
  | error cause => exact .error cause
  | ok results => exact .ok (himp _ _ results)

/-- The results that are related are those of the steps. -/
theorem attach (h : Coincide related first second) :
    Coincide (fun value other => related value other ∧ first = .ok value ∧ second = .ok other)
      first second := by
  cases h with
  | error cause => exact .error cause
  | ok results => exact .ok ⟨results, rfl, rfl⟩

/-- Steps that coincide once their results are changed coincide before. -/
theorem of_map {change : γ → α} {change' : δ → β} {step : Except ε γ} {step' : Except ε δ}
    (h : Coincide related (step.map change) (step'.map change')) :
    Coincide (fun value value' => related (change value) (change' value')) step step' := by
  cases step with
  | error cause =>
    cases step' with
    | error cause' =>
      cases h
      exact .error _
    | ok value' => cases h
  | ok value =>
    cases step' with
    | error cause' => cases h
    | ok value' =>
      cases h with
      | ok results => exact .ok results

/-- Steps whose results look alike coincide. -/
theorem of_map_eq {look : α → γ} {first second : Except ε α}
    (h : second.map look = first.map look) :
    Coincide (fun value other => look other = look value) first second := by
  have hsame : Coincide (fun seen other => other = seen) (first.map look) (second.map look) := by
    rw [h]
    cases first.map look with
    | error cause => exact .error cause
    | ok seen => exact .ok rfl
  exact hsame.of_map

end Coincide

end Asm65816
