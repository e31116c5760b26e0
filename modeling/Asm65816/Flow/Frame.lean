import Asm65816.Flow.Basic

/-!
# Open flow structures

The statements that open a structure leave a frame behind; those that go on with it or close it
take the innermost open frame and note their address there. Frames are numbered in the order in
which they were opened and stay after they are closed, because the branches of an opening
statement need the addresses of what came later.
-/

namespace Asm65816

/-- What a frame stands for, with the addresses that its branches lead to once they are known. -/
inductive FrameKind where
  | ifFrame (condition : Condition) (elseAt endAt : Option Int)
  | elseFrame (condition : Condition) (endAt : Option Int)
  | loopFrame
  | whileFrame (condition : Condition) (endAt : Option Int)
  | switchFrame (register : Register) (endAt : Option Int)
  /-- A case of the switch whose frame has the given number. -/
  | caseFrame (switchFrame : Nat) (nextAt : Option Int)
  deriving DecidableEq, Repr, Inhabited

/-- A structure that was opened at address `opened`. -/
structure FlowFrame where
  kind : FrameKind
  opened : Int
  location : Location
  deriving Repr, Inhabited

namespace FlowFrame

/-- The keyword of the statement that opened the frame. -/
def keyword (frame : FlowFrame) : String :=
  match frame.kind with
  | .ifFrame _ _ _ => "IF"
  | .elseFrame _ _ => "ELSE"
  | .loopFrame => "DO"
  | .whileFrame _ _ => "WHILE"
  | .switchFrame _ _ => "SWITCH"
  | .caseFrame _ _ => "CASE"

end FlowFrame

/-- All frames in the order of their numbers, and the numbers of those that are open, innermost
first. -/
structure FlowState where
  frames : List FlowFrame
  opened : List Nat
  deriving Repr, Inhabited

namespace FlowState

/-- No frames. -/
def empty : FlowState := ⟨[], []⟩

/-- Opens a frame; its number. -/
def push (state : FlowState) (frame : FlowFrame) : Nat × FlowState :=
  (state.frames.length, ⟨state.frames ++ [frame], state.frames.length :: state.opened⟩)

/-- Takes the innermost open frame and its number. -/
def pop? (state : FlowState) : Option (Nat × FlowFrame × FlowState) :=
  match state.opened with
  | [] => none
  | number :: rest =>
    match state.frames[number]? with
    | none => none
    | some frame => some (number, frame, { state with opened := rest })

/-- Gives a frame another kind. -/
def setKind (state : FlowState) (number : Nat) (kind : FrameKind) : FlowState :=
  { state with frames := state.frames.modify number fun frame => { frame with kind := kind } }

/-- The innermost frame that is still open. -/
def innermost? (state : FlowState) : Option FlowFrame :=
  state.opened.head?.bind fun number => state.frames[number]?

end FlowState

end Asm65816
