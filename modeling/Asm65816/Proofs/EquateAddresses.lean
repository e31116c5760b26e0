import Asm65816.Proofs.MacroScope
import Asm65816.Proofs.NameTables

/-!
# Equates and the current address

Equates are evaluated while the lines of a program are built, when nothing has an address yet. The
current address counts as zero in them, whatever address the statements around an equate are given
later on. An equate is right about the address where it stands when it does not depend on it, or
when this address is zero.
-/

namespace Asm65816

/-- The name and the value of a line that defines an equate. -/
def LineBody.equate? : LineBody → Option (Spanned String × Expr)
  | .equate name value => some (name, value)
  | .statements _ _ => none

theorem LineBody.equate?_eq_some {body : LineBody} {name : Spanned String} {value : Expr} :
    body.equate? = some (name, value) ↔ body = .equate name value := by
  cases body <;> simp [equate?]

/-- The value of an expression by the equates so far, where the current address is the given
one. -/
def BuildState.valueAt (state : BuildState) (address : Int) (value : Expr) :
    Except EvalError Number :=
  value.evaluate
    (Environment.lookup ⟨state.macros, state.equates, ⟨.ofTable [], []⟩⟩ address Scope.empty)

/-- Lookups that agree on the open names of an expression give it one value. -/
theorem Expr.evaluate_congr {lookup other : Name → Except EvalError Number} {e : Expr}
    (h : ∀ name ∈ e.openNames, lookup name = other name) :
    e.evaluate lookup = e.evaluate other := by
  induction e using Expr.inductionOn with
  | number value | text content petscii => rfl
  | name found => exact h found (by simp [openNames])
  | bound found value ih | immediate operand ih => exact ih h
  | unary op operand ih => rw [evaluate, evaluate, ih h]
  | binary op left right ihl ihr =>
    simp only [openNames, List.mem_append] at h
    rw [evaluate, evaluate, ihl fun name hname => h name (.inl hname),
      ihr fun name hname => h name (.inr hname)]
  | group items long ih =>
    rw [evaluate, evaluate]
    by_cases hone : items.length = 1
    · obtain ⟨single, rfl⟩ := List.length_eq_one_iff.mp hone
      refine ih single (List.mem_singleton_self single) fun name hname => h name ?_
      rw [openNames, mem_openNamesAll]
      exact ⟨single, List.mem_singleton_self single, hname⟩
    · rw [evaluateItems_of_length hone, evaluateItems_of_length hone]

section Equates

variable {state : BuildState}

/-- An equate that is defined has the value of its expression at address zero. -/
theorem valueAt_of_defineEquate {next : BuildState} {name : String} {value : Expr}
    (h : state.defineEquate name value = .ok next) :
    ∃ number, state.valueAt 0 value = .ok number ∧
      next = { state with equates := state.equates.put name number } := by
  obtain ⟨-, -, -, bound, number, hbound, hnumber, rfl⟩ := BuildState.defineEquate_eq_ok.mp h
  have hvalue : bound.collapse Scope.empty = state.valueAt 0 value := bindEquates_evaluate hbound
  exact ⟨number, hvalue.symm.trans hnumber, rfl⟩

/-- An expression that does not name the current address has one value at all addresses. -/
theorem BuildState.valueAt_congr {value : Expr} (h : ∀ name ∈ value.openNames, name.ident ≠ ".")
    (address other : Int) : state.valueAt address value = state.valueAt other value := by
  refine Expr.evaluate_congr fun name hname => ?_
  rw [Environment.lookup, Environment.lookup, if_neg (h name hname), if_neg (h name hname)]

/-- The current address alone has different values at different addresses. -/
theorem BuildState.valueAt_dot (state : BuildState) (address : Int) (long : Bool) :
    state.valueAt address (.name ⟨".", long⟩) = .ok (addressNumber address) := rfl

end Equates

/-- What is built to the end goes on from every state that the builder comes to. -/
theorem BuildsTo.of_buildsTo {search : AssetSearch} {state last found : BuildState}
    {tasks left : List BuildTask} (hall : BuildsTo search state tasks last [])
    (h : BuildsTo search state tasks found left) : BuildsTo search found left last [] := by
  induction h with
  | here state tasks => exact hall
  | step advanced rest ih =>
    cases hall with
    | step advanced' rest' =>
      -- A task has one outcome, so that both go on alike.
      obtain ⟨rfl, rfl⟩ := Prod.mk.inj (Except.ok.inj (advanced.symm.trans advanced'))
      exact ih rest'

/-- A program that is built keeps the value of each equate that the builder came to. -/
theorem buildProgram_keeps_equate {search : AssetSearch} {main : SourceFile} {lines : List Line}
    {program : Program} {state : BuildState} {line : Line} {left : List BuildTask}
    {name : Spanned String} {value : Expr} (hbuilt : buildProgram search main lines = .ok program)
    (hreached : BuildsTo search (.initial [main]) (lineTasks lines) state (.line line :: left))
    (hbody : line.body = .equate name value) :
    ∃ number, state.defineEquate name.node value =
        .ok { state with equates := state.equates.put name.node number } ∧
      state.valueAt 0 value = .ok number ∧ program.equates.get? name.node = some number := by
  obtain ⟨last, hbuilds, hequates, -⟩ := buildProgram_buildsTo hbuilt
  have hlater := hbuilds.of_buildsTo hreached
  cases hlater with
  | step advanced rest =>
    obtain ⟨hnext, rfl⟩ := (advance_equate hbody).mp advanced
    obtain ⟨number, hnumber, rfl⟩ := valueAt_of_defineEquate hnext
    refine ⟨number, hnext, hnumber, ?_⟩
    rw [hequates]
    exact rest.get?_equates (by rw [Table.get?_put, if_pos rfl])

/-- The last line of a source, when it defines an equate, is come to with all actions in front. -/
theorem exists_lastEquate {search : AssetSearch} {main : SourceFile} {program : Program}
    {lines : List Line} {line : Line} {name : Spanned String} {value : Expr}
    (hbuilt : buildProgram search main lines = .ok program) (hlast : lines.getLast? = some line)
    (hbody : line.body = .equate name value) :
    ∃ state, BuildsTo search (.initial [main]) (lineTasks lines) state [.line line] ∧
      program.actions = state.actions := by
  obtain ⟨last, hbuilds, -, -, hactions⟩ := buildProgram_buildsTo hbuilt
  obtain ⟨front, rfl⟩ := List.getLast?_eq_some_iff.mp hlast
  have hsplit : lineTasks (front ++ [line]) = lineTasks front ++ [.line line] := List.map_append
  rw [hsplit] at hbuilds ⊢
  obtain ⟨state, hfront, hline⟩ := hbuilds.split
  refine ⟨state, hfront.append [.line line], ?_⟩
  cases hline with
  | step advanced rest =>
    obtain ⟨hnext, rfl⟩ := (advance_equate hbody).mp advanced
    obtain ⟨number, -, rfl⟩ := valueAt_of_defineEquate hnext
    cases rest
    exact hactions

/-- Equates take the current address for zero. Wherever the builder comes to an equate, either it
refuses the equate, and no program is built, or it records the value that the expression has when
the current address is zero, and a program that is built keeps this value. At any other address the
expression has this value if it does not name the current address, and an equate of nothing but the
current address is right about it at zero only. -/
theorem equates_take_address_for_zero {search : AssetSearch} {main : SourceFile}
    {lines : List Line} {state : BuildState} {line : Line} {left : List BuildTask}
    {name : Spanned String} {value : Expr}
    (hreached : BuildsTo search (.initial [main]) (lineTasks lines) state (.line line :: left))
    (hbody : line.body = .equate name value) :
    (∃ fault, state.defineEquate name.node value = .error fault ∧
      ∀ program, buildProgram search main lines ≠ .ok program) ∨
      ∃ number,
        state.defineEquate name.node value =
          .ok { state with equates := state.equates.put name.node number } ∧
        state.valueAt 0 value = .ok number ∧
        (∀ program, buildProgram search main lines = .ok program →
          program.equates.get? name.node = some number) ∧
        ∀ address,
          ((∀ found ∈ value.openNames, found.ident ≠ ".") →
            state.valueAt address value = .ok number) ∧
          ∀ long, value = .name ⟨".", long⟩ →
            (state.valueAt address value = .ok number ↔ address = 0) := by
  cases hdefined : state.defineEquate name.node value with
  | error fault =>
    refine .inl ⟨fault, rfl, fun program hbuilt => ?_⟩
    obtain ⟨number, hnumber, -⟩ := buildProgram_keeps_equate hbuilt hreached hbody
    cases hdefined.symm.trans hnumber
  | ok next =>
    obtain ⟨number, hnumber, rfl⟩ := valueAt_of_defineEquate hdefined
    refine .inr ⟨number, rfl, hnumber, fun program hbuilt => ?_,
      fun address => ⟨fun hfree => ?_, ?_⟩⟩
    · obtain ⟨found, -, hfound, hkept⟩ := buildProgram_keeps_equate hbuilt hreached hbody
      rw [hkept, Except.ok.inj (hfound.symm.trans hnumber)]
    · rw [BuildState.valueAt_congr hfree address 0, hnumber]
    · rintro long rfl
      rw [BuildState.valueAt_dot] at hnumber ⊢
      constructor
      · intro hsame
        exact congrArg Number.value (Except.ok.inj (hsame.trans hnumber.symm))
      · intro hzero
        rw [hzero, hnumber]

/-- A sum of the current address and another equate. -/
theorem equates_take_address_for_zero_sum :
    ∃ (main : SourceFile) (run : AssemblyRun ⟨.ofTable [], []⟩ main) (state : BuildState)
      (line : Line) (name : Spanned String) (value : Expr),
      main.text = " .segment \"c\",0x8000,9,0\n .c\nj = 3\nk = . + j\n" ∧
      BuildsTo ⟨.ofTable [], []⟩ (.initial [main]) (lineTasks run.source.lines) state
        [.line line] ∧
      line.body = .equate name value ∧ name.node = "k" ∧
      value.openNames = [⟨".", false⟩, ⟨"j", false⟩] ∧ run.layout.address = 0x8000 ∧
      ∃ number, number.value = 3 ∧ state.valueAt 0 value = .ok number ∧
        run.program.equates.get? "k" = some number := by
  let main : SourceFile := ⟨"m.s", " .segment \"c\",0x8000,9,0\n .c\nj = 3\nk = . + j\n"⟩
  obtain ⟨run, hrun⟩ : ∃ run : AssemblyRun ⟨.ofTable [], []⟩ main,
      (run.source.lines.getLast?.any (fun line => line.body.equate?.any fun found =>
        found.1.node == "k" && found.2.openNames == [⟨".", false⟩, ⟨"j", false⟩]) &&
      run.layout.address == 0x8000 &&
      (run.program.equates.get? "k").any fun number => number.value == 3) = true :=
    AssemblyRun.exists_of_any _ (by decide +kernel)
  simp only [Bool.and_eq_true, beq_iff_eq, Option.any_eq_true] at hrun
  obtain ⟨⟨⟨line, hline, ⟨name, value⟩, hequate, hname, hnames⟩, haddress⟩, number, hnumber,
    hvalue⟩ := hrun
  have hbody := LineBody.equate?_eq_some.mp hequate
  obtain ⟨state, hreached, -⟩ := exists_lastEquate run.built hline hbody
  refine ⟨main, run, state, line, name, value, rfl, hreached, hbody, hname, hnames, haddress,
    number, hvalue, ?_, hnumber⟩
  rcases equates_take_address_for_zero hreached hbody with
    ⟨fault, -, hnone⟩ | ⟨found, -, hfound, hkept, -⟩
  · exact absurd run.built (hnone _)
  · have hsame := hkept run.program run.built
    rw [show name.node = "k" from hname, hnumber] at hsame
    rw [hfound, Option.some.inj hsame]

/-- Whether a line defines an equate as the current address and nothing else. -/
def LineBody.equatesAddress : LineBody → Bool
  | .equate _ (.name name) => name.ident == "."
  | _ => false

theorem LineBody.exists_of_equatesAddress {body : LineBody} (h : body.equatesAddress = true) :
    ∃ name long, body = .equate name (.name ⟨".", long⟩) := by
  unfold equatesAddress at h
  split at h
  case h_1 name found =>
    obtain ⟨ident, long⟩ := found
    obtain rfl : ident = "." := by simpa using h
    exact ⟨name, long, rfl⟩
  case h_2 => cases h

/-- The first walk through a program has done the actions in front and comes, with the given layout,
to what follows them. -/
def Program.ComesBehind (program : Program) (search : AssetSearch) (front : List Action)
    (found : Layout) : Prop :=
  ∃ behind, program.actions = front ++ behind ∧
    WalksTo (program.environment search) Layout.empty (bodyTasks [] program.actions) found
      (bodyTasks [] behind)

/-- An equate of the current address is not the address of what follows it: behind the equate code
goes on at 0x8000, and the equate is zero. -/
theorem equate_of_address_is_zero :
    ¬∀ (search : AssetSearch) (main : SourceFile) (read : SourceLines) (program : Program)
        (state : BuildState) (line : Line) (left : List BuildTask) (name : Spanned String)
        (value : Expr) (number : Number) (found : Layout),
      readSource 0 main.name main.text [] = .ok read →
      buildProgram search main read.lines = .ok program →
      BuildsTo search (.initial [main]) (lineTasks read.lines) state (.line line :: left) →
      line.body = .equate name value →
      program.equates.get? name.node = some number →
      program.ComesBehind search state.actions found →
      state.valueAt found.address value = .ok number := by
  intro h
  let main : SourceFile := ⟨"m.s", " .segment \"c\",0x8000,9,0\n .c\nk = .\n"⟩
  obtain ⟨run, hrun⟩ : ∃ run : AssemblyRun ⟨.ofTable [], []⟩ main,
      (run.source.lines.getLast?.any (fun line => line.body.equatesAddress) &&
        run.layout.address == 0x8000) = true :=
    AssemblyRun.exists_of_any _ (by decide +kernel)
  simp only [Bool.and_eq_true, beq_iff_eq, Option.any_eq_true] at hrun
  obtain ⟨⟨line, hline, hequates⟩, haddress⟩ := hrun
  obtain ⟨name, long, hbody⟩ := LineBody.exists_of_equatesAddress hequates
  obtain ⟨state, hreached, hactions⟩ := exists_lastEquate run.built hline hbody
  obtain ⟨number, -, hnumber, hkept⟩ := buildProgram_keeps_equate run.built hreached hbody
  obtain ⟨-, trace, -, walk⟩ := layoutProgram_firstWalk run.laidOut
  have hbehind : run.program.ComesBehind ⟨.ofTable [], []⟩ state.actions run.layout :=
    ⟨[], by rw [hactions, List.append_nil], walk.walksTo⟩
  have hclaimed := h _ main run.source run.program state line [] name _ number run.layout run.read
    run.built hreached hbody hkept hbehind
  rw [haddress, ← hnumber] at hclaimed
  cases hclaimed

end Asm65816
