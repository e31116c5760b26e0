import Asm65816.Proofs.BuildRun

/-!
# The grammar of block directives

Conditional blocks and loops nest in any way, and macros stand outside of every other block. A stack
of open blocks decides this from left to right: a directive opens a block, goes on with the
innermost one, or takes it away.
-/

namespace Asm65816

/-- A directive that opens a block, goes on with it or closes it. -/
inductive BlockSign where
  | beginMacro
  | endMacro
  | openIf
  | elseIf
  | otherwise
  | endIf
  | openLoop
  | endLoop
  deriving DecidableEq, Repr

/-- The block directive of a name in upper case and without its period. -/
def BlockSign.ofDirective? : String → Option BlockSign
  | "MACRO" => some beginMacro
  | "ENDMACRO" => some endMacro
  | "IF" => some openIf
  | "ELIF" => some elseIf
  | "ELSE" => some otherwise
  | "ENDIF" => some endIf
  | "VALOOP" => some openLoop
  | "ENDVALOOP" => some endLoop
  | _ => none

/-- The block directive that a statement is. -/
def Statement.blockSign? (statement : Statement) : Option BlockSign :=
  statement.directive?.bind BlockSign.ofDirective?

mutual

/-- Conditional blocks and loops behind each other, with nothing but such blocks inside. -/
inductive NestedBlocks : List BlockSign → Prop where
  | nil : NestedBlocks []
  | conditional {body arms rest : List BlockSign} (inner : NestedBlocks body)
      (more : NestedArms arms) (after : NestedBlocks rest) :
      NestedBlocks (.openIf :: (body ++ (arms ++ .endIf :: rest)))
  | loop {body rest : List BlockSign} (inner : NestedBlocks body) (after : NestedBlocks rest) :
      NestedBlocks (.openLoop :: (body ++ .endLoop :: rest))

/-- The arms behind the first one, of which only the last can be an `.ELSE`. -/
inductive NestedArms : List BlockSign → Prop where
  | nil : NestedArms []
  | otherwise {body : List BlockSign} (inner : NestedBlocks body) : NestedArms (.otherwise :: body)
  | elseIf {body arms : List BlockSign} (inner : NestedBlocks body) (after : NestedArms arms) :
      NestedArms (.elseIf :: (body ++ arms))

end

/-- Block directives that are well nested: macros and other blocks behind each other, with no macro
inside of a block. -/
inductive WellNested : List BlockSign → Prop where
  | nil : WellNested []
  | blocks {row rest : List BlockSign} (inner : NestedBlocks row) (after : WellNested rest) :
      WellNested (row ++ rest)
  | macroBody {body rest : List BlockSign} (inner : NestedBlocks body) (after : WellNested rest) :
      WellNested (.beginMacro :: (body ++ .endMacro :: rest))

/-! ## The stack of open blocks -/

/-- A block in progress. -/
inductive OpenBlock where
  | macroBody
  | ifPart
  | elsePart
  | loop
  deriving DecidableEq, Repr

namespace BlockSign

/-- What a directive does to the blocks around it, innermost first, if it can stand there. -/
def turn : BlockSign → List OpenBlock → Option (List OpenBlock)
  | beginMacro, [] => some [.macroBody]
  | endMacro, .macroBody :: stack => some stack
  | openIf, stack => some (.ifPart :: stack)
  | elseIf, .ifPart :: stack => some (.ifPart :: stack)
  | otherwise, .ifPart :: stack => some (.elsePart :: stack)
  | endIf, .ifPart :: stack | endIf, .elsePart :: stack => some stack
  | openLoop, stack => some (.loop :: stack)
  | endLoop, .loop :: stack => some stack
  | _, _ => none

/-- The open blocks after some directives, if each of them can stand where it does. -/
def turnAll (signs : List BlockSign) (stack : List OpenBlock) : Option (List OpenBlock) :=
  signs.foldlM (fun stack sign => sign.turn stack) stack

theorem turnAll_cons {sign : BlockSign} {rest : List BlockSign} {stack next : List OpenBlock}
    (h : sign.turn stack = some next) : turnAll (sign :: rest) stack = turnAll rest next := by
  rw [turnAll, List.foldlM_cons, h]
  rfl

theorem turnAll_append {first second : List BlockSign} {stack next : List OpenBlock}
    (h : turnAll first stack = some next) :
    turnAll (first ++ second) stack = turnAll second next := by
  rw [turnAll, List.foldlM_append]
  exact congrArg (· >>= _) h

end BlockSign

mutual

/-- Nested blocks leave the blocks around them as they are. -/
theorem NestedBlocks.turnAll {signs : List BlockSign} (stack : List OpenBlock) :
    NestedBlocks signs → BlockSign.turnAll signs stack = some stack
  | .nil => rfl
  | .conditional inner more after => by
    obtain ⟨last, hmore, hend⟩ := more.turnAll stack
    rw [BlockSign.turnAll_cons rfl, BlockSign.turnAll_append (inner.turnAll _),
      BlockSign.turnAll_append hmore, BlockSign.turnAll_cons hend]
    exact after.turnAll stack
  | .loop inner after => by
    rw [BlockSign.turnAll_cons rfl, BlockSign.turnAll_append (inner.turnAll _),
      BlockSign.turnAll_cons rfl]
    exact after.turnAll stack

/-- Whatever the last arm is, an `.ENDIF` closes it. -/
theorem NestedArms.turnAll {signs : List BlockSign} (stack : List OpenBlock) :
    NestedArms signs → ∃ last, BlockSign.turnAll signs (.ifPart :: stack) = some last ∧
      BlockSign.endIf.turn last = some stack
  | .nil => ⟨_, rfl, rfl⟩
  | .otherwise inner => by
    refine ⟨.elsePart :: stack, ?_, rfl⟩
    rw [BlockSign.turnAll_cons rfl]
    exact inner.turnAll (.elsePart :: stack)
  | .elseIf inner after => by
    obtain ⟨last, hlast, hend⟩ := after.turnAll stack
    refine ⟨last, ?_, hend⟩
    rw [BlockSign.turnAll_cons rfl, BlockSign.turnAll_append (inner.turnAll _)]
    exact hlast

end

/-- Well nested directives leave no block open. -/
theorem WellNested.turnAll {signs : List BlockSign} (h : WellNested signs) :
    BlockSign.turnAll signs [] = some [] := by
  induction h with
  | nil => rfl
  | blocks inner after ih => rw [BlockSign.turnAll_append (inner.turnAll _), ih]
  | macroBody inner after ih =>
    rw [BlockSign.turnAll_cons rfl, BlockSign.turnAll_append (inner.turnAll _),
      BlockSign.turnAll_cons rfl]
    exact ih

/-- One row of blocks behind another. -/
theorem NestedBlocks.append {second : List BlockSign} (later : NestedBlocks second) :
    ∀ {first : List BlockSign}, NestedBlocks first → NestedBlocks (first ++ second)
  | _, .nil => later
  | _, .conditional inner more after => by
    simpa using conditional inner more (later.append after)
  | _, .loop inner after => by
    simpa using loop inner (later.append after)

/-- Directives that close the blocks of a stack from the innermost one outwards. -/
inductive BlocksFinish : List OpenBlock → List BlockSign → Prop where
  | done {signs : List BlockSign} (nested : WellNested signs) : BlocksFinish [] signs
  | endMacro {stack : List OpenBlock} {body rest : List BlockSign} (inner : NestedBlocks body)
      (after : BlocksFinish stack rest) :
      BlocksFinish (.macroBody :: stack) (body ++ .endMacro :: rest)
  | endIf {stack : List OpenBlock} {body arms rest : List BlockSign} (inner : NestedBlocks body)
      (more : NestedArms arms) (after : BlocksFinish stack rest) :
      BlocksFinish (.ifPart :: stack) (body ++ (arms ++ .endIf :: rest))
  | endElse {stack : List OpenBlock} {body rest : List BlockSign} (inner : NestedBlocks body)
      (after : BlocksFinish stack rest) :
      BlocksFinish (.elsePart :: stack) (body ++ .endIf :: rest)
  | endLoop {stack : List OpenBlock} {body rest : List BlockSign} (inner : NestedBlocks body)
      (after : BlocksFinish stack rest) : BlocksFinish (.loop :: stack) (body ++ .endLoop :: rest)

namespace BlocksFinish

variable {stack : List OpenBlock} {rest : List BlockSign}

/-- Whole blocks may stand in front. -/
theorem prepend {front : List BlockSign} (hfront : NestedBlocks front)
    (h : BlocksFinish stack rest) : BlocksFinish stack (front ++ rest) := by
  cases h with
  | done nested => exact .done (.blocks hfront nested)
  | endMacro inner after => simpa using endMacro (inner.append hfront) after
  | endIf inner more after => simpa using endIf (inner.append hfront) more after
  | endElse inner after => simpa using endElse (inner.append hfront) after
  | endLoop inner after => simpa using endLoop (inner.append hfront) after

/-- Directives that close the blocks behind a turn close those in front of it with its
directive. -/
theorem turn {sign : BlockSign} {next : List OpenBlock} (hturn : sign.turn stack = some next)
    (h : BlocksFinish next rest) : BlocksFinish stack (sign :: rest) := by
  unfold BlockSign.turn at hturn
  split at hturn
  case h_1 =>
    cases hturn
    cases h with
    | endMacro inner after =>
      cases after with
      | done nested => exact .done (.macroBody inner nested)
  case h_2 =>
    cases hturn
    exact .endMacro .nil h
  case h_3 =>
    cases hturn
    cases h with
    | endIf inner more after => simpa using after.prepend (.conditional inner more .nil)
  case h_4 =>
    cases hturn
    cases h with
    | endIf inner more after => simpa using endIf .nil (.elseIf inner more) after
  case h_5 =>
    cases hturn
    cases h with
    | endElse inner after => simpa using endIf .nil (.otherwise inner) after
  case h_6 =>
    cases hturn
    exact .endIf .nil .nil h
  case h_7 =>
    cases hturn
    exact .endElse .nil h
  case h_8 =>
    cases hturn
    cases h with
    | endLoop inner after => simpa using after.prepend (.loop inner .nil)
  case h_9 =>
    cases hturn
    exact .endLoop .nil h
  case h_10 => cases hturn

end BlocksFinish

/-- Directives that empty a stack close its blocks. -/
theorem blocksFinish_of_turnAll {signs : List BlockSign} {stack : List OpenBlock}
    (h : BlockSign.turnAll signs stack = some []) : BlocksFinish stack signs := by
  induction signs generalizing stack with
  | nil =>
    cases h
    exact .done .nil
  | cons sign rest ih =>
    rw [BlockSign.turnAll, List.foldlM_cons, Option.bind_eq_bind, Option.bind_eq_some_iff] at h
    obtain ⟨next, hturn, hrest⟩ := h
    exact (ih hrest).turn hturn

/-- Directives are well nested exactly when each has its turn and no block is left open. -/
theorem wellNested_iff_turnAll {signs : List BlockSign} :
    WellNested signs ↔ BlockSign.turnAll signs [] = some [] := by
  constructor
  · exact WellNested.turnAll
  · intro h
    cases blocksFinish_of_turnAll h with
    | done nested => exact nested

instance (signs : List BlockSign) : Decidable (WellNested signs) :=
  decidable_of_iff _ wellNested_iff_turnAll.symm

end Asm65816
