import Mathlib.Data.List.Perm.Subperm
import Asm65816.Proofs.Reached

/-!
# Where the first walk fails

Laying out a program fails exactly in a task that the first walk comes to. The bound on the nesting
of macro calls is never met: the calls on the way to a task have different names, and all of them
are macros.
-/

namespace Asm65816

/-- The first walk comes to a task that fails. -/
def Stops (environment : Environment) (layout : Layout) (tasks : List Task)
    (failure : Failure) : Prop :=
  ∃ found task others, WalksTo environment layout tasks found (task :: others) ∧
    task.advance environment found = .error failure

section Walking

variable {environment : Environment}

theorem WalksTo.trans {first second third : Layout} {tasks middle others : List Task}
    (h : WalksTo environment first tasks second middle)
    (h' : WalksTo environment second middle third others) :
    WalksTo environment first tasks third others := by
  induction h with
  | here layout tasks => exact h'
  | step advanced rest ih => exact .step advanced (ih h')

theorem WalksTo.append {layout found : Layout} {tasks left : List Task}
    (h : WalksTo environment layout tasks found left) (others : List Task) :
    WalksTo environment layout (tasks ++ others) found (left ++ others) := by
  induction h with
  | here layout tasks => exact .here _ _
  | step advanced rest ih =>
    rw [List.append_assoc] at ih
    exact .step advanced ih

/-- A complete run comes to its last layout with nothing left but what was left before. -/
theorem FirstWalk.walksTo {layout last : Layout} {tasks : List Task}
    {trace : List (Layout × Event)} (walk : FirstWalk environment layout tasks trace last) :
    WalksTo environment layout tasks last [] := by
  induction walk with
  | done layout => exact .here _ _
  | step advanced rest ih => exact .step advanced ih

/-- The first walk through given tasks has one outcome. -/
theorem FirstWalk.unique {layout last other : Layout} {tasks : List Task}
    {trace found : List (Layout × Event)} (walk : FirstWalk environment layout tasks trace last)
    (again : FirstWalk environment layout tasks found other) : found = trace ∧ other = last := by
  induction walk generalizing found with
  | done layout =>
    cases again
    exact ⟨rfl, rfl⟩
  | step advanced rest ih =>
    cases again with
    | step advanced' rest' =>
      cases advanced.symm.trans advanced'
      obtain ⟨rfl, rfl⟩ := ih rest'
      exact ⟨rfl, rfl⟩

namespace Stops

variable {layout next : Layout} {tasks others : List Task} {failure : Failure}

theorem here {task : Task} (h : task.advance environment layout = .error failure) :
    Stops environment layout (task :: tasks) failure :=
  ⟨layout, task, tasks, .here _ _, h⟩

theorem append (h : Stops environment layout tasks failure) (others : List Task) :
    Stops environment layout (tasks ++ others) failure := by
  obtain ⟨found, task, left, hwalk, hfails⟩ := h
  exact ⟨found, task, left ++ others, hwalk.append others, hfails⟩

/-- A walk stops behind what it has done. -/
theorem after (hwalk : WalksTo environment layout tasks next others)
    (h : Stops environment next others failure) : Stops environment layout tasks failure := by
  obtain ⟨found, task, left, hlater, hfails⟩ := h
  exact ⟨found, task, left, hwalk.trans hlater, hfails⟩

/-- A walk that stops somewhere is not complete. -/
theorem not_firstWalk {last : Layout} {trace : List (Layout × Event)}
    (h : Stops environment layout tasks failure) :
    ¬FirstWalk environment layout tasks trace last := by
  intro walk
  obtain ⟨found, task, left, hwalk, hfails⟩ := h
  obtain ⟨tail, hrest⟩ := walk.of_walksTo hwalk
  cases hrest with
  | step advanced rest => cases advanced.symm.trans hfails

/-- A walk stops at most once. -/
theorem unique {other : Failure} (h : Stops environment layout tasks failure)
    (h' : Stops environment layout tasks other) : other = failure := by
  obtain ⟨found, task, left, hwalk, hfails⟩ := h
  obtain ⟨found', task', left', hwalk', hfails'⟩ := h'
  generalize hleft : task :: left = rest at hwalk
  induction hwalk with
  | here layout tasks =>
    subst hleft
    cases hwalk' with
    | here =>
      cases hfails.symm.trans hfails'
      rfl
    | step advanced => cases hfails.symm.trans advanced
  | step advanced rest ih =>
    cases hwalk' with
    | here => cases hfails'.symm.trans advanced
    | step advanced' rest' =>
      cases advanced.symm.trans advanced'
      exact ih hfails rest' hleft

end Stops

end Walking


/-! ## The depth of macro calls -/

/-- The calls on the way to an action have different names, which are those of macros. -/
structure Nested (environment : Environment) (calls : List MacroCall) : Prop where
  distinct : (calls.map MacroCall.name).Nodup
  defined : ∀ call ∈ calls, call.name ∈ environment.macros.map Prod.fst

/-- A call that is opened has the name of a macro that is not being expanded. -/
theorem openCall_eq_ok {environment : Environment} {calls : List MacroCall} {name : String}
    {operands : List Expr} {call : MacroCall} {body : List Action}
    (h : openCall environment calls name operands = .ok (call, body)) :
    ∃ definition arguments, environment.macros.get? name = some definition ∧
      operands.mapM (bindArguments calls) = .ok arguments ∧
      (∀ other ∈ calls, other.name ≠ name) ∧
      call = ⟨name, definition.parameters, definition.variadic, arguments, none⟩ ∧
      body = definition.body := by
  unfold openCall at h
  cases hfound : environment.macros.get? name with
  | none => simp only [hfound, reduceCtorEq] at h
  | some definition =>
    simp only [hfound, refuse_eq_ok, bind_eq_ok, pure_eq_ok] at h
    obtain ⟨-, hfresh, arguments, harguments, h⟩ := h
    cases h
    refine ⟨definition, arguments, rfl, harguments, fun other hother heq => hfresh ?_, rfl, rfl⟩
    exact List.any_eq_true.mpr ⟨other, hother, by simpa using heq⟩

namespace Nested

variable {environment : Environment} {call : MacroCall} {calls : List MacroCall}

theorem nil : Nested environment [] := ⟨.nil, by simp⟩

/-- There are never more calls than macros. -/
theorem length_le (h : Nested environment calls) : calls.length ≤ environment.macros.length := by
  have hsubset : calls.map MacroCall.name ⊆ environment.macros.map Prod.fst := by
    intro name hname
    obtain ⟨found, hfound, rfl⟩ := List.mem_map.mp hname
    exact h.defined found hfound
  have hlength := (List.subperm_of_subset h.distinct hsubset).length_le
  rwa [List.length_map, List.length_map] at hlength

/-- The rounds of a loop stay inside the same calls. -/
theorem round (h : Nested environment (call :: calls)) (round : Option (Nat × Expr)) :
    Nested environment ({ call with round := round } :: calls) := by
  refine ⟨h.distinct, fun other hother => ?_⟩
  rcases List.mem_cons.mp hother with rfl | hrest
  · exact h.defined call List.mem_cons_self
  · exact h.defined other (List.mem_cons_of_mem _ hrest)

theorem enter {name : String} {operands : List Expr} {body : List Action}
    (h : Nested environment calls)
    (hopen : openCall environment calls name operands = .ok (call, body)) :
    Nested environment (call :: calls) := by
  obtain ⟨definition, arguments, hfound, -, hfresh, rfl, -⟩ := openCall_eq_ok hopen
  constructor
  · refine List.nodup_cons.mpr ⟨fun hmem => ?_, h.distinct⟩
    obtain ⟨other, hother, heq⟩ := List.mem_map.mp hmem
    exact hfresh other hother heq
  · intro other hother
    rcases List.mem_cons.mp hother with rfl | hrest
    · exact List.mem_map_of_mem (Table.mem_of_get? hfound)
    · exact h.defined other hrest

end Nested

/-! ## Failures of the recursive layout -/

/-- A way of laying out bodies inside `count` calls that fails only where the first walk does. -/
def Blames (environment : Environment) (count : Nat) (place : ActionPlacer) : Prop :=
  ∀ calls layout body failure, Nested environment calls → calls.length = count →
    place calls layout body = .error failure →
      Stops environment layout (bodyTasks calls body) failure

/-- Laying out the rounds of a loop fails in one of them, behind those before it. -/
theorem rounds_stop {environment : Environment} {deeper : Option ActionPlacer} {count : Nat}
    {body : List Action}
    (hdone : ∀ calls layout steps next,
      placeActions environment deeper calls layout body = .ok (steps, next) →
        WalksTo environment layout (bodyTasks calls body) next [])
    (hbody : ∀ calls layout failure, Nested environment calls → calls.length = count →
      placeActions environment deeper calls layout body = .error failure →
        Stops environment layout (bodyTasks calls body) failure)
    {call : MacroCall} {outer : List MacroCall} (hnested : Nested environment (call :: outer))
    (hcount : (call :: outer).length = count) (rounds : List (Expr × Nat))
    {before : List Step} {layout : Layout} {failure : Failure}
    (h : rounds.foldlM
        (fun (steps, layout) (value, index) => do
          let round := { call with round := some (index, value) }
          let (more, layout) ← placeActions environment deeper (round :: outer) layout body
          return (steps ++ more, layout))
        (before, layout) = .error failure) :
    Stops environment layout (roundTasks call outer rounds body) failure := by
  induction rounds generalizing before layout with
  | nil => cases h
  | cons round rest ih =>
    obtain ⟨value, index⟩ := round
    simp only [List.foldlM_cons, bind_eq_error, bind_eq_ok, pure_eq_ok] at h
    have htasks : roundTasks call outer ((value, index) :: rest) body =
        bodyTasks ({ call with round := some (index, value) } :: outer) body ++
          roundTasks call outer rest body := rfl
    rw [htasks]
    rcases h with (hfails | ⟨_, -, hnever⟩) | ⟨⟨through, mid⟩, ⟨⟨more, reached⟩, hmore, heq⟩, hrest⟩
    · exact (hbody _ _ _ (hnested.round (some (index, value))) hcount hfails).append _
    · cases hnever
    · obtain ⟨rfl, rfl⟩ := Prod.mk.inj heq
      exact .after ((hdone _ _ _ _ hmore).append _) (ih hrest)

section Layouts

variable {environment : Environment} {deeper : Option ActionPlacer} {count : Nat}

/-- Actions that are laid out are done by the first walk. -/
theorem placeActions_walksTo (hfollowed : ∀ place, deeper = some place → Followed environment place)
    {calls : List MacroCall} {layout next : Layout} {actions : List Action} {steps : List Step}
    (h : placeActions environment deeper calls layout actions = .ok (steps, next)) :
    WalksTo environment layout (bodyTasks calls actions) next [] := by
  obtain ⟨trace, -, hspans⟩ := placeActions_spans hfollowed actions calls layout steps next h
  exact hspans.firstWalk.walksTo

mutual

theorem placeAction_stops (hfollowed : ∀ place, deeper = some place → Followed environment place)
    (hblames : ∀ place, deeper = some place → Blames environment (count + 1) place)
    (hbottom : deeper = none → environment.macros.length ≤ count) :
    ∀ (action : Action) (calls : List MacroCall) (layout : Layout) (failure : Failure),
      Nested environment calls → calls.length = count →
        placeAction environment deeper calls layout action = .error failure →
          Stops environment layout [.action calls action] failure
  | .operation operation location, calls, layout, failure, hnested, hcount, h => by
    refine .here ?_
    simp only [placeAction, bind_eq_error] at h
    simp only [Task.advance, bind_eq_error]
    rcases h with hplaced | ⟨found, hfound, hoccupied | ⟨_, _, hnever⟩⟩
    · exact .inl hplaced
    · exact .inr ⟨found, hfound, .inl hoccupied⟩
    · cases hnever
  | .callMacro name operands location, calls, layout, failure, hnested, hcount, h => by
    simp only [placeAction, bind_eq_error] at h
    rcases h with hfails | ⟨⟨call, body⟩, hopened, h⟩
    · exact .here (bind_eq_error.mpr (.inl hfails))
    · have hinside := hnested.enter (failingAt_eq_ok.mp hopened)
      cases hdeeper : deeper with
      | none =>
        -- Every macro would be open, and one more was opened.
        have hlength := hinside.length_le
        have hroom := hbottom hdeeper
        simp only [List.length_cons] at hlength
        omega
      | some place =>
        simp only [hdeeper, bind_eq_error] at h
        rcases h with hfails | ⟨_, _, hnever⟩
        · have hlength : (call :: calls).length = count + 1 := congrArg (· + 1) hcount
          have hstops := hblames place hdeeper _ _ _ _ hinside hlength hfails
          have hadvanced : Task.advance environment layout
              (.action calls (.callMacro name operands location)) =
                .ok (.enter (some name) location, layout,
                  bodyTasks (call :: calls) body ++ [.leave location]) :=
            bind_eq_ok.mpr ⟨_, hopened, rfl⟩
          exact .after (.step hadvanced (.here _ _)) ((hstops.append _).append _)
        · cases hnever
  | .conditional arms location, calls, layout, failure, hnested, hcount, h => by
    simp only [placeAction, bind_eq_error] at h
    rcases h with hfails | ⟨_, _, hnever⟩
    · rcases placeArms_stops hfollowed hblames hbottom arms calls layout failure hnested hcount
        hfails with hchoice | ⟨body, hbody, hstops⟩
      · exact .here (bind_eq_error.mpr (.inl hchoice))
      · have hadvanced : Task.advance environment layout
            (.action calls (.conditional arms location)) =
              .ok (.enter none location, layout, bodyTasks calls body ++ [.leave location]) :=
          bind_eq_ok.mpr ⟨_, hbody, rfl⟩
        exact .after (.step hadvanced (.here _ _)) ((hstops.append _).append _)
    · cases hnever
  | .argumentLoop body location, [], layout, failure, hnested, hcount, h => by
    simp only [placeAction, Except.error.injEq] at h
    subst h
    exact .here rfl
  | .argumentLoop body location, call :: outer, layout, failure, hnested, hcount, h => by
    simp only [placeAction, bind_eq_error] at h
    rcases h with hfails | ⟨_, _, hnever⟩
    · have hstops := rounds_stop (fun _ _ _ _ hdone => placeActions_walksTo hfollowed hdone)
        (placeActions_stops hfollowed hblames hbottom body) hnested hcount _ hfails
      exact .after (.step rfl (.here _ _)) ((hstops.append _).append _)
    · cases hnever

theorem placeActions_stops (hfollowed : ∀ place, deeper = some place → Followed environment place)
    (hblames : ∀ place, deeper = some place → Blames environment (count + 1) place)
    (hbottom : deeper = none → environment.macros.length ≤ count) :
    ∀ (actions : List Action) (calls : List MacroCall) (layout : Layout) (failure : Failure),
      Nested environment calls → calls.length = count →
        placeActions environment deeper calls layout actions = .error failure →
          Stops environment layout (bodyTasks calls actions) failure
  | [], calls, layout, failure, hnested, hcount, h => by cases h
  | action :: rest, calls, layout, failure, hnested, hcount, h => by
    simp only [placeActions, bind_eq_error] at h
    rcases h with hfirst | ⟨⟨first, mid⟩, hfirst, hrest | ⟨_, _, hnever⟩⟩
    · have hstops := placeAction_stops hfollowed hblames hbottom action calls layout failure
        hnested hcount hfirst
      exact hstops.append (bodyTasks calls rest)
    · have hstops := placeActions_stops hfollowed hblames hbottom rest calls mid failure hnested
        hcount hrest
      obtain ⟨trace, -, hspans⟩ := placeAction_spans hfollowed action calls layout first mid hfirst
      exact .after (hspans.firstWalk.walksTo.append (bodyTasks calls rest)) hstops
    · cases hnever

theorem placeArms_stops (hfollowed : ∀ place, deeper = some place → Followed environment place)
    (hblames : ∀ place, deeper = some place → Blames environment (count + 1) place)
    (hbottom : deeper = none → environment.macros.length ≤ count) :
    ∀ (arms : List ConditionalArm) (calls : List MacroCall) (layout : Layout) (failure : Failure),
      Nested environment calls → calls.length = count →
        placeArms environment deeper calls layout arms = .error failure →
          chosenBody environment calls layout.address arms = .error failure ∨
            ∃ body, chosenBody environment calls layout.address arms = .ok body ∧
              Stops environment layout (bodyTasks calls body) failure
  | [], calls, layout, failure, hnested, hcount, h => by cases h
  | .mk condition body location :: rest, calls, layout, failure, hnested, hcount, h => by
    simp only [placeArms, bind_eq_error] at h
    simp only [chosenBody, bind_eq_error, bind_eq_ok]
    rcases h with hfails | ⟨holds, hholds, h⟩
    · exact .inl (.inl hfails)
    · cases holds with
      | true =>
        refine .inr ⟨body, ⟨true, hholds, rfl⟩, ?_⟩
        exact placeActions_stops hfollowed hblames hbottom body calls layout failure hnested
          hcount h
      | false =>
        rcases placeArms_stops hfollowed hblames hbottom rest calls layout failure hnested hcount h
          with hchoice | ⟨chosen, hchosen, hstops⟩
        · exact .inl (.inr ⟨false, hholds, hchoice⟩)
        · exact .inr ⟨chosen, ⟨false, hholds, hchosen⟩, hstops⟩

end

end Layouts

/-- Laying out with room for all macros fails only where the first walk does. -/
theorem placeTo_blames (environment : Environment) (depth count : Nat)
    (hroom : environment.macros.length ≤ depth + count) :
    Blames environment count (placeTo environment depth) := by
  induction depth generalizing count with
  | zero =>
    intro calls layout body failure hnested hcount h
    refine placeActions_stops (fun place hplace => ?_) (fun place hplace => ?_) (fun _ => ?_) body
      calls layout failure hnested hcount h
    · cases hplace
    · cases hplace
    · omega
  | succ depth ih =>
    intro calls layout body failure hnested hcount h
    refine placeActions_stops (fun place hplace => ?_) (fun place hplace => ?_) (fun hnone => ?_)
      body calls layout failure hnested hcount h
    · cases hplace
      exact placeTo_followed environment depth
    · cases hplace
      exact ih (count + 1) (by omega)
    · cases hnone

/-- A program that cannot be laid out has a flow structure that is still open at the end of its
first walk, or a task that fails. -/
theorem layoutProgram_eq_error {environment : Environment} {actions : List Action}
    {failure : Failure} (h : layoutProgram environment actions = .error failure) :
    Stops environment Layout.empty (bodyTasks [] actions) failure ∨
      ∃ trace last frame, FirstWalk environment Layout.empty (bodyTasks [] actions) trace last ∧
        last.flow.innermost? = some frame ∧
        failure = ⟨.unterminatedFlow frame.keyword, frame.location⟩ := by
  simp only [layoutProgram, bind_eq_error] at h
  rcases h with hfails | ⟨⟨steps, layout⟩, hplaced, h⟩
  · exact .inl (placeTo_blames environment _ 0 (by omega) _ _ _ _ .nil rfl hfails)
  · obtain ⟨trace, -, hspans⟩ := placeTo_followed environment _ _ _ _ _ _ hplaced
    cases hopen : layout.flow.innermost? with
    | none =>
      simp only [hopen] at h
      cases h
    | some frame =>
      simp only [hopen] at h
      cases h
      exact .inr ⟨trace, layout, frame, hspans.firstWalk, hopen, rfl⟩

/-- A complete first walk that leaves no flow structure open lays its program out. -/
theorem FirstWalk.layoutProgram {environment : Environment} {actions : List Action}
    {trace : List (Layout × Event)} {last : Layout}
    (walk : FirstWalk environment Layout.empty (bodyTasks [] actions) trace last)
    (hclosed : last.flow.innermost? = none) :
    ∃ steps, layoutProgram environment actions = .ok (steps, last) ∧
      trace.map Prod.snd = stepEvents steps := by
  cases h : Asm65816.layoutProgram environment actions with
  | error failure =>
    rcases layoutProgram_eq_error h with hstops | ⟨trace', last', frame, again, hopen, -⟩
    · exact absurd walk hstops.not_firstWalk
    · obtain ⟨-, rfl⟩ := walk.unique again
      rw [hclosed] at hopen
      cases hopen
  | ok result =>
    obtain ⟨steps, layout⟩ := result
    obtain ⟨-, trace', htrace, again⟩ := layoutProgram_firstWalk h
    obtain ⟨rfl, rfl⟩ := walk.unique again
    exact ⟨steps, rfl, htrace⟩

/-- A program is emitted exactly when a complete first walk goes through it that leaves no flow
structure open, the labels of its layout are resolved, and its events are taken. -/
theorem Program.emit_eq_ok {program : Program} {search : AssetSearch} {emission : Emission} :
    program.emit search true = .ok emission ↔
      ∃ trace layout labels,
        FirstWalk (program.environment search) Layout.empty (bodyTasks [] program.actions) trace
          layout ∧
        layout.flow.innermost? = none ∧ layout.resolveAll = .ok labels ∧
        emitEvents labels (Emission.initial layout) (trace.map Prod.snd) = .ok emission := by
  simp only [Program.emit, bind_eq_ok, if_true, emitProgram_eq_emitEvents]
  constructor
  · rintro ⟨⟨steps, layout⟩, hlaid, labels, hlabels, hemitted⟩
    obtain ⟨hclosed, trace, htrace, walk⟩ := layoutProgram_firstWalk hlaid
    exact ⟨trace, layout, labels, walk, hclosed, hlabels, htrace ▸ hemitted⟩
  · rintro ⟨trace, layout, labels, walk, hclosed, hlabels, hemitted⟩
    obtain ⟨steps, hlaid, htrace⟩ := walk.layoutProgram hclosed
    exact ⟨(steps, layout), hlaid, labels, hlabels, htrace ▸ hemitted⟩

end Asm65816
