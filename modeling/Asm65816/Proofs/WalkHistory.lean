import Asm65816.Proofs.WalkFaults

/-!
# The history of the first walk

A state that the first walk comes to has a history: the events on the way there, each with the
layout before it. Unlike a complete run, a history grows by its last event, so that what a walk has
come across so far can be compared with what its layout records of it. A walk that fails later has
a history all the same.
-/

namespace Asm65816

/-- The first walk comes from a layout and its tasks to another layout with other tasks left,
through events that are recorded with the layout before each of them. -/
inductive WalksThrough (environment : Environment) (start : Layout) (tasks : List Task) :
    List (Layout × Event) → Layout → List Task → Prop where
  | here : WalksThrough environment start tasks [] start tasks
  | step {trace : List (Layout × Event)} {layout next : Layout} {task : Task}
      {more others : List Task} {event : Event}
      (walk : WalksThrough environment start tasks trace layout (task :: others))
      (advanced : task.advance environment layout = .ok (event, next, more)) :
      WalksThrough environment start tasks (trace ++ [(layout, event)]) next (more ++ others)

section Histories

variable {environment : Environment} {start layout : Layout} {tasks others : List Task}
  {trace : List (Layout × Event)}

/-- What has a history is a state that the walk comes to. -/
theorem WalksThrough.walksTo (h : WalksThrough environment start tasks trace layout others) :
    WalksTo environment start tasks layout others := by
  induction h with
  | here => exact .here _ _
  | step walk advanced ih => exact ih.trans (.step advanced (.here _ _))

/-- A walk that goes on adds to its history. -/
theorem WalksThrough.exists_append {found : Layout} {left : List Task}
    (h : WalksThrough environment start tasks trace layout others)
    (walk : WalksTo environment layout others found left) :
    ∃ more, WalksThrough environment start tasks (trace ++ more) found left := by
  induction walk generalizing trace with
  | here layout others => exact ⟨[], by simpa only [List.append_nil] using h⟩
  | step advanced rest ih =>
    obtain ⟨more, hmore⟩ := ih (.step h advanced)
    rw [List.append_assoc] at hmore
    exact ⟨_, hmore⟩

/-- Every state that the walk comes to has a history. -/
theorem WalksTo.exists_history (h : WalksTo environment start tasks layout others) :
    ∃ trace, WalksThrough environment start tasks trace layout others := by
  obtain ⟨trace, htrace⟩ := WalksThrough.here.exists_append h
  exact ⟨trace, htrace⟩

/-- Histories follow one another. -/
theorem WalksThrough.trans {found : Layout} {left : List Task} {later : List (Layout × Event)}
    (h : WalksThrough environment start tasks trace layout others)
    (walk : WalksThrough environment layout others later found left) :
    WalksThrough environment start tasks (trace ++ later) found left := by
  induction walk with
  | here => simpa only [List.append_nil] using h
  | step walk advanced ih =>
    rw [← List.append_assoc]
    exact .step ih advanced

/-- A complete run passes through the history of each of its events. -/
theorem FirstWalk.history {last : Layout} {before after : List (Layout × Event)}
    (walk : FirstWalk environment start tasks (before ++ after) last) :
    ∃ layout others, WalksThrough environment start tasks before layout others ∧
      FirstWalk environment layout others after last := by
  generalize hall : before ++ after = trace at walk
  induction walk generalizing before with
  | done layout =>
    obtain ⟨rfl, rfl⟩ := List.append_eq_nil_iff.mp hall
    exact ⟨layout, [], .here, .done layout⟩
  | @step layout next last task more tasks event trace advanced rest ih =>
    cases before with
    | nil =>
      cases hall
      exact ⟨layout, task :: tasks, .here, .step advanced rest⟩
    | cons head before =>
      cases hall
      obtain ⟨found, others, hbefore, hafter⟩ := ih rfl
      have hfirst : WalksThrough environment layout (task :: tasks) [(layout, event)] next
          (more ++ tasks) := .step .here advanced
      exact ⟨found, others, hfirst.trans hbefore, hafter⟩

/-- A complete run is a history. -/
theorem FirstWalk.walksThrough {last : Layout}
    (walk : FirstWalk environment start tasks trace last) :
    WalksThrough environment start tasks trace last [] := by
  rw [← List.append_nil trace] at walk
  obtain ⟨layout, others, hthrough, hrest⟩ := walk.history
  cases hrest
  exact hthrough

end Histories

end Asm65816
