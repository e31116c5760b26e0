import Asm65816.Line.Reader

/-!
# Lines at a later place

A line that stands some bytes and some lines further on is read as before: its tokens, statements
and reports are the same, with their spans moved by as many bytes. This holds of every reader, also
where it fails.
-/

namespace Asm65816

/-! ## Later places -/

section Moves

variable (distance : Nat)

def Span.moved (span : Span) : Span := ⟨span.source, span.start + distance, span.stop + distance⟩

def Spanned.moved {α : Type} (item : Spanned α) : Spanned α := ⟨item.node, item.span.moved distance⟩

def Token.moved (token : Token) : Token := { token with span := token.span.moved distance }

def Statement.moved (statement : Statement) : Statement :=
  { statement with
    name := statement.name.moved distance
    span := statement.span.moved distance }

def LineBody.moved : LineBody → LineBody
  | .equate name value => .equate (name.moved distance) value
  | .statements label row =>
    .statements (label.map (Spanned.moved distance)) (row.map (Statement.moved distance))

def Location.moved (lines : Nat) (location : Location) : Location :=
  { location with line := location.line + lines, span := location.span.moved distance }

def Line.moved (lines : Nat) (line : Line) : Line :=
  ⟨line.body.moved distance, line.location.moved distance lines⟩

def Diagnostic.moved (diagnostic : Diagnostic) : Diagnostic :=
  { diagnostic with span := diagnostic.span.map (Span.moved distance) }

def SyntaxFault.moved (fault : SyntaxFault) : SyntaxFault :=
  { fault with found := fault.found.map (Token.moved distance) }

end Moves

/-! ## Outcomes -/

section Carried

variable {ε ε' α α' β β' : Type} {reword : ε → ε'}

/-- An outcome with its cause of failure reworded and its result changed. -/
def carried (reword : ε → ε') (change : α → α') : Except ε α → Except ε' α'
  | .error cause => .error (reword cause)
  | .ok value => .ok (change value)

/-- Steps that are carried over are followed by steps that are. -/
theorem carried_bind {change : α → α'} {finish : β → β'} {step : Except ε α}
    {step' : Except ε' α'} {next : α → Except ε β} {next' : α' → Except ε' β'}
    (hstep : step' = carried reword change step)
    (hnext : ∀ value, next' (change value) = carried reword finish (next value)) :
    step' >>= next' = carried reword finish (step >>= next) := by
  subst hstep
  cases step with
  | error cause => rfl
  | ok value => exact hnext value

theorem failures_carried {change : α → α'} (results : List (Except ε α)) :
    failures (results.map (carried reword change)) = (failures results).map reword := by
  induction results with
  | nil => rfl
  | cons result rest ih =>
    cases result with
    | error cause => exact congrArg (reword cause :: ·) ih
    | ok value => exact ih

theorem filterMap_toOption_carried {change : α → α'} (results : List (Except ε α)) :
    (results.map (carried reword change)).filterMap Except.toOption =
      (results.filterMap Except.toOption).map change := by
  induction results with
  | nil => rfl
  | cons result rest ih =>
    cases result with
    | error cause => exact ih
    | ok value => exact congrArg (change value :: ·) ih

end Carried

/-! ## Operands -/

section Readers

variable {distance : Nat}

/-- What is read from the front of tokens, with the tokens behind it moved. -/
def movedRest (distance : Nat) {α : Type} (read : α × List Token) : α × List Token :=
  (read.1, read.2.map (Token.moved distance))

/-- The reader reads tokens alike when they stand further on. -/
def OperandReader.Moves (distance : Nat) (reader : OperandReader) : Prop :=
  ∀ expected tokens, reader expected (tokens.map (Token.moved distance)) =
    carried (SyntaxFault.moved distance) (movedRest distance)
      (reader expected tokens)

theorem facing_moved (distance : Nat) (expected : Expectation) (tokens : List Token) :
    SyntaxFault.facing expected (tokens.map (Token.moved distance)) =
      (SyntaxFault.facing expected tokens).moved distance := by
  rw [SyntaxFault.facing, List.head?_map]
  rfl

theorem map_moved_cons (kind : TokenKind) (span : Span) (text : String) (rest : List Token) :
    (⟨kind, span, text⟩ :: rest).map (Token.moved distance) =
      ⟨kind, span.moved distance, text⟩ :: rest.map (Token.moved distance) := rfl

variable {inner next : OperandReader}

theorem readItems_moved (h : inner.Moves distance) (close : Punct) (limit : Nat)
    (tokens : List Token) :
    readItems inner close limit (tokens.map (Token.moved distance)) =
      carried (SyntaxFault.moved distance) (movedRest distance)
        (readItems inner close limit tokens) := by
  induction limit generalizing tokens with
  | zero => exact congrArg Except.error (facing_moved distance .operand tokens)
  | succ limit ih =>
    refine carried_bind (h .operand tokens) fun (item, rest) => ?_
    have hfacing := congrArg (Except.error (α := List Expr × List Token))
      (facing_moved distance (.afterItem close) rest)
    cases rest with
    | nil => exact hfacing
    | cons token others =>
      obtain ⟨kind, span, text⟩ := token
      cases kind with
      | punct sign =>
        rw [movedRest, map_moved_cons]
        dsimp only
        by_cases hclose : sign = close
        · rw [if_pos hclose, if_pos hclose]
          rfl
        rw [if_neg hclose, if_neg hclose]
        by_cases hcomma : sign = .comma
        · rw [if_pos hcomma, if_pos hcomma]
          exact carried_bind (ih others) fun _ => rfl
        · rw [if_neg hcomma, if_neg hcomma]
          exact hfacing
      | _ => exact hfacing

theorem readAtom_moved (h : inner.Moves distance) : (readAtom inner).Moves distance := by
  intro expected tokens
  have hfacing := congrArg (Except.error (α := Expr × List Token))
    (facing_moved distance expected tokens)
  cases tokens with
  | nil => exact hfacing
  | cons token rest =>
    obtain ⟨kind, span, text⟩ := token
    cases kind with
    | number | text | name => rfl
    | punct sign =>
      have hitems (close : Punct) :
          readItems inner close (rest.map (Token.moved distance)).length
              (rest.map (Token.moved distance)) =
            carried (SyntaxFault.moved distance) (movedRest distance)
              (readItems inner close rest.length rest) := by
        rw [List.length_map]
        exact readItems_moved h close rest.length rest
      cases sign with
      | ampersand =>
        have hlong := congrArg (Except.error (α := Expr × List Token))
          (facing_moved distance .longName rest)
        cases rest with
        | nil => exact hlong
        | cons token others =>
          obtain ⟨kind, span, text⟩ := token
          cases kind with
          | name => rfl
          | _ => exact hlong
      | leftParen => exact carried_bind (hitems .rightParen) fun _ => rfl
      | leftBracket => exact carried_bind (hitems .rightBracket) fun _ => rfl
      | _ => exact hfacing

theorem readChainRest_moved (h : next.Moves distance) (operator : Punct → Option BinaryOp)
    (after : Expectation) (limit : Nat) (left : Expr) (tokens : List Token) :
    readChainRest operator after next limit left (tokens.map (Token.moved distance)) =
      carried (SyntaxFault.moved distance) (movedRest distance)
        (readChainRest operator after next limit left tokens) := by
  induction limit generalizing left tokens with
  | zero => rfl
  | succ limit ih =>
    cases tokens with
    | nil => rfl
    | cons token rest =>
      obtain ⟨kind, span, text⟩ := token
      cases kind with
      | punct sign =>
        rw [map_moved_cons, readChainRest, readChainRest]
        cases operator sign with
        | none => rfl
        | some op =>
          exact carried_bind (h after rest) fun read => ih (.binary op left read.1) read.2
      | _ => rfl

theorem readChain_moved (h : next.Moves distance) (operator : Punct → Option BinaryOp)
    (after : Expectation) : (readChain operator after next).Moves distance := by
  intro expected tokens
  refine carried_bind (h expected tokens) fun (first, rest) => ?_
  dsimp only [movedRest]
  rw [List.length_map]
  exact readChainRest_moved h operator after rest.length first rest

theorem readPrefixes_moved (h : next.Moves distance) (operator : Punct → Option UnaryOp)
    (after : Expectation) : OperandReader.Moves distance (readPrefixes operator after next) := by
  intro expected tokens
  induction tokens generalizing expected with
  | nil => exact h expected []
  | cons token rest ih =>
    obtain ⟨kind, span, text⟩ := token
    have hnone := h expected (⟨kind, span, text⟩ :: rest)
    cases kind with
    | punct sign =>
      rw [map_moved_cons] at hnone ⊢
      rw [readPrefixes, readPrefixes]
      cases operator sign with
      | none => exact hnone
      | some op => exact carried_bind (ih after) fun _ => rfl
    | _ => exact hnone

theorem readLogical_moved (h : inner.Moves distance) : (readLogical inner).Moves distance := by
  have hsigned : (readSigned inner).Moves distance :=
    readPrefixes_moved (readChain_moved (readAtom_moved h) _ _) _ _
  have hshift : (readShift inner).Moves distance :=
    readChain_moved (readChain_moved (readChain_moved hsigned _ _) _ _) _ _
  have hbitwise : (readBitwise inner).Moves distance :=
    readChain_moved (readChain_moved (readChain_moved hshift _ _) _ _) _ _
  exact readChain_moved (readChain_moved
    (readPrefixes_moved (readChain_moved hbitwise _ _) _ _) _ _) _ _

theorem readOperandWith_moved (h : inner.Moves distance) :
    (readOperandWith inner).Moves distance := by
  intro expected tokens
  have hlogical := readLogical_moved h
  cases tokens with
  | nil => exact hlogical expected []
  | cons token rest =>
    obtain ⟨kind, span, text⟩ := token
    have hplain := hlogical expected (⟨kind, span, text⟩ :: rest)
    cases kind with
    | punct sign =>
      cases sign with
      | hash => exact carried_bind (hlogical .logical rest) fun _ => rfl
      | _ => exact hplain
    | _ => exact hplain

/-- An operand is read alike wherever its line stands. -/
theorem readOperand_moved (distance : Nat) : readOperand.Moves distance := by
  have hto (depth : Nat) : (readOperandTo depth).Moves distance := by
    induction depth with
    | zero =>
      exact fun expected tokens => congrArg Except.error (facing_moved distance expected tokens)
    | succ depth ih => exact readOperandWith_moved ih
  intro expected tokens
  have h := hto (tokens.length + 1) expected tokens
  unfold readOperand
  rw [List.length_map]
  exact h

/-! ## Statements -/

theorem readOperands_moved (distance limit : Nat) (expected : Expectation)
    (tokens : List Token) :
    readOperands limit expected (tokens.map (Token.moved distance)) =
      carried (SyntaxFault.moved distance)
        (fun read => (read.1, movedRest distance read.2)) (readOperands limit expected tokens) := by
  induction limit generalizing expected tokens with
  | zero => exact congrArg Except.error (facing_moved distance expected tokens)
  | succ limit ih =>
    refine carried_bind (readOperand_moved distance expected tokens) fun (first, rest) => ?_
    cases rest with
    | nil => rfl
    | cons token others =>
      obtain ⟨kind, span, text⟩ := token
      cases kind with
      | punct sign =>
        cases sign with
        | comma =>
          have hmore : ((readOperands limit .nextOperand (others.map (Token.moved distance)) >>=
                fun read => pure (first :: read.1, read.2.1, read.2.2)) :
                  Except SyntaxFault (List Expr × Bool × List Token)) =
              carried (SyntaxFault.moved distance)
                (fun read => (read.1, movedRest distance read.2))
                (readOperands limit .nextOperand others >>=
                  fun read => pure (first :: read.1, read.2.1, read.2.2)) :=
            carried_bind (ih .nextOperand others) fun _ => rfl
          cases others with
          | nil => exact hmore
          | cons token others =>
            obtain ⟨kind, span, text⟩ := token
            cases kind with
            | punct sign =>
              cases sign with
              | ellipsis => rfl
              | _ => exact hmore
            | _ => exact hmore
        | _ => rfl
      | _ => rfl

theorem consumedEnd_moved (distance : Nat) (tokens rest : List Token) (fallback : Nat) :
    consumedEnd (tokens.map (Token.moved distance)) (rest.map (Token.moved distance))
      (fallback + distance) = consumedEnd tokens rest fallback + distance := by
  unfold consumedEnd
  rw [List.length_map, List.length_map, ← List.map_take, List.getLast?_map]
  cases (tokens.take (tokens.length - rest.length)).getLast? with
  | none => rfl
  | some token => rfl

/-- The end of a statement whose operands are read: the line ends there, or a colon follows. -/
def endStatement (name : Spanned String) (tokens : List Token) (operands : List Expr)
    (ellipsis : Bool) (expected : Expectation) (rest : List Token) :
    Except SyntaxFault (Statement × List Token) :=
  match rest with
  | [] | ⟨.punct .colon, _, _⟩ :: _ =>
    .ok (⟨name, operands, ellipsis,
      { name.span with stop := consumedEnd tokens rest name.span.stop }⟩, rest)
  | _ => .error (.facing expected rest)

/-- A statement is a name, its operands if there are any, and its end. -/
theorem readStatement_eq (afterName : Expectation) (name : Spanned String) (tokens : List Token) :
    readStatement afterName name tokens =
      match tokens with
      | [] | ⟨.punct .colon, _, _⟩ :: _ => endStatement name tokens [] false afterName tokens
      | ⟨.punct .ellipsis, _, _⟩ :: rest => endStatement name tokens [] true .afterEllipsis rest
      | _ => readOperands tokens.length afterName tokens >>= fun (operands, ellipsis, rest) =>
        endStatement name tokens operands ellipsis
          (if ellipsis then .afterEllipsis else .afterOperand) rest := by
  cases tokens with
  | nil => rfl
  | cons token rest =>
    obtain ⟨kind, span, text⟩ := token
    cases kind with
    | punct sign =>
      cases sign with
      | _ => rfl
    | _ => rfl

theorem endStatement_moved (distance : Nat) (name : Spanned String) (tokens : List Token)
    (operands : List Expr) (ellipsis : Bool) (expected : Expectation) (rest : List Token) :
    endStatement (name.moved distance) (tokens.map (Token.moved distance)) operands ellipsis
        expected (rest.map (Token.moved distance)) =
      carried (SyntaxFault.moved distance)
        (Prod.map (Statement.moved distance) (List.map (Token.moved distance)))
        (endStatement name tokens operands ellipsis expected rest) := by
  have hend := consumedEnd_moved distance tokens rest name.span.stop
  have hspan : (⟨name.moved distance, operands, ellipsis,
      { (name.moved distance).span with
        stop := consumedEnd (tokens.map (Token.moved distance))
          (rest.map (Token.moved distance)) (name.moved distance).span.stop }⟩ : Statement) =
      (⟨name, operands, ellipsis,
        { name.span with stop := consumedEnd tokens rest name.span.stop }⟩ : Statement).moved
          distance := by
    rw [Statement.moved, Span.moved, ← hend]
    rfl
  have hdone := congrArg (fun statement : Statement =>
    Except.ok (ε := SyntaxFault) (statement, rest.map (Token.moved distance))) hspan
  have hfault := congrArg (Except.error (α := Statement × List Token))
    (facing_moved distance expected rest)
  cases rest with
  | nil => exact hdone
  | cons token others =>
    obtain ⟨kind, span, text⟩ := token
    cases kind with
    | punct sign =>
      cases sign with
      | colon => exact hdone
      | _ => exact hfault
    | _ => exact hfault

theorem readStatement_moved (afterName : Expectation) (name : Spanned String)
    (tokens : List Token) :
    readStatement afterName (name.moved distance) (tokens.map (Token.moved distance)) =
      carried (SyntaxFault.moved distance)
        (Prod.map (Statement.moved distance) (List.map (Token.moved distance)))
        (readStatement afterName name tokens) := by
  have hoperands := readOperands_moved distance tokens.length afterName tokens
  rw [readStatement_eq, readStatement_eq, List.length_map]
  cases tokens with
  | nil => exact endStatement_moved distance name [] [] false afterName []
  | cons token rest =>
    obtain ⟨kind, span, text⟩ := token
    have hend := endStatement_moved distance name (⟨kind, span, text⟩ :: rest)
    have hbehind (read : List Expr × Bool × List Token) :=
      hend read.1 read.2.1 (if read.2.1 then .afterEllipsis else .afterOperand) read.2.2
    cases kind with
    | punct sign =>
      cases sign with
      | colon => exact hend [] false afterName (⟨.punct .colon, span, text⟩ :: rest)
      | ellipsis => exact hend [] true .afterEllipsis rest
      | _ => exact carried_bind hoperands hbehind
    | _ => exact carried_bind hoperands hbehind

theorem readStatements_moved (distance limit : Nat) (afterName : Expectation)
    (name : Spanned String) (tokens : List Token) :
    readStatements limit afterName (name.moved distance) (tokens.map (Token.moved distance)) =
      carried (SyntaxFault.moved distance)
        (Prod.map (List.map (Statement.moved distance)) (Option.map (Span.moved distance)))
        (readStatements limit afterName name tokens) := by
  induction limit generalizing afterName name tokens with
  | zero => exact congrArg Except.error (facing_moved distance afterName tokens)
  | succ limit ih =>
    refine carried_bind (readStatement_moved afterName name tokens) fun (statement, rest) => ?_
    cases rest with
    | nil => rfl
    | cons colon others =>
      have hfault := congrArg (Except.error (α := List Statement × Option Span))
        (facing_moved distance .afterColon others)
      cases others with
      | nil => rfl
      | cons token others =>
        obtain ⟨kind, span, text⟩ := token
        cases kind with
        | name ident => exact carried_bind (ih .laterName ⟨ident, span⟩ others) fun _ => rfl
        | _ => exact hfault

/-! ## Bodies of lines -/

theorem report_moved (fault : SyntaxFault) (source stop : Nat) :
    (fault.moved distance).report source (stop + distance) =
      (fault.report source stop).moved distance := by
  obtain ⟨expected, found⟩ := fault
  cases found with
  | none => rfl
  | some token => rfl

theorem placeLabel_moved (offset : Nat) (statements : List Statement) (trailing : Option Span) :
    placeLabel (offset + distance) (statements.map (Statement.moved distance))
        (trailing.map (Span.moved distance)) =
      carried (Diagnostic.moved distance) (LineBody.moved distance)
        (placeLabel offset statements trailing) := by
  cases statements with
  | nil => cases trailing <;> rfl
  | cons first rest =>
    have hcolumn : (first.moved distance).name.span.start = offset + distance ↔
        first.name.span.start = offset := Nat.add_right_cancel_iff
    unfold placeLabel
    rw [List.map_cons]
    dsimp only
    by_cases hstart : first.name.span.start = offset
    · rw [if_pos hstart, if_pos (hcolumn.mpr hstart)]
      cases trailing with
      | none => rfl
      | some colon =>
        cases rest with
        | nil | cons => rfl
    · rw [if_neg hstart, if_neg (hstart ∘ hcolumn.mp)]
      cases trailing with
      | none | some => rfl

theorem readBody_moved (distance : Nat) (source offset stop : Nat) (tokens : List Token) :
    readBody source (offset + distance) (stop + distance) (tokens.map (Token.moved distance)) =
      carried (Diagnostic.moved distance) (LineBody.moved distance)
        (readBody source offset stop tokens) := by
  have hfault (expected : Expectation) (tokens : List Token) :
      (SyntaxFault.facing expected (tokens.map (Token.moved distance))).report source
          (stop + distance) =
        ((SyntaxFault.facing expected tokens).report source stop).moved distance := by
    rw [facing_moved distance, report_moved]
  have hfailed := congrArg (Except.error (α := LineBody)) (hfault .lineStart tokens)
  cases tokens with
  | nil => exact hfailed
  | cons token rest =>
    obtain ⟨kind, span, text⟩ := token
    cases kind with
    | name ident =>
      have hrow (h : ∀ place word others, rest ≠ ⟨.punct .assign, place, word⟩ :: others) :
          readBody source (offset + distance) (stop + distance)
              (⟨.name ident, span.moved distance, text⟩ :: rest.map (Token.moved distance)) =
            carried (Diagnostic.moved distance) (LineBody.moved distance)
              (readBody source offset stop (⟨.name ident, span, text⟩ :: rest)) := by
        have hmoved (place : Span) (word : String) (others : List Token) :
            rest.map (Token.moved distance) ≠ ⟨.punct .assign, place, word⟩ :: others := by
          intro heq
          obtain ⟨second, others, hrest, hsecond, -⟩ := List.map_eq_cons_iff.mp heq
          obtain ⟨kind, place, word⟩ := second
          cases hsecond
          exact h place word others hrest
        rw [readBody.eq_2 _ _ _ _ _ _ _ h, readBody.eq_2 _ _ _ _ _ _ _ hmoved,
          List.length_cons, List.length_map]
        have hstatements := readStatements_moved distance (rest.length + 1) .firstName
          ⟨ident, span⟩ rest
        rw [Spanned.moved] at hstatements
        rw [hstatements, List.length_cons]
        cases readStatements (rest.length + 1) .firstName ⟨ident, span⟩ rest with
        | error fault => exact congrArg Except.error (report_moved fault source stop)
        | ok read => exact placeLabel_moved offset read.1 read.2
      cases rest with
      | nil => exact hrow (by simp)
      | cons second others =>
        obtain ⟨kind, place, word⟩ := second
        cases kind with
        | punct sign =>
          cases sign with
          | assign =>
            have hoperand := readOperand_moved distance .operand others
            unfold readBody
            rw [map_moved_cons, map_moved_cons]
            dsimp only
            rw [hoperand]
            cases readOperand .operand others with
            | error fault => exact congrArg Except.error (report_moved fault source stop)
            | ok read =>
              obtain ⟨value, left⟩ := read
              cases left with
              | nil => rfl
              | cons next left =>
                exact congrArg Except.error (hfault .afterEquate (next :: left))
          | _ => exact hrow (by simp)
        | _ => exact hrow (by simp)
    | _ => exact hfailed

theorem crowdedLabel?_moved (distance : Nat) (offset : Nat) (tokens : List Token) :
    crowdedLabel? (offset + distance) (tokens.map (Token.moved distance)) =
      crowdedLabel? offset tokens := by
  cases tokens with
  | nil => rfl
  | cons token rest =>
    obtain ⟨kind, span, text⟩ := token
    have hcolumn : span.start + distance = offset + distance ↔ span.start = offset :=
      Nat.add_right_cancel_iff
    cases kind with
    | name ident =>
      cases rest with
      | nil => rfl
      | cons second others =>
        rw [map_moved_cons, List.map_cons, crowdedLabel?, crowdedLabel?]
        simp only [Span.moved, Token.moved, hcolumn]
    | _ => rfl

/-! ## Pieces -/

/-- The pieces of a text do not depend on where it stands. -/
theorem scan_moved (source offset pending : Nat) (text : List Char) :
    scan source (offset + distance) pending text =
      (scan source offset pending text).map
        (carried (Diagnostic.moved distance) (Token.moved distance)) := by
  induction text generalizing offset pending with
  | nil => rfl
  | cons c rest ih =>
    have hnext := ih (offset + c.utf8Size)
    rw [Nat.add_right_comm] at hnext
    cases pending with
    | succ count =>
      rw [scan, scan]
      exact hnext count
    | zero =>
      have hothers := hnext ((nextPiece (c :: rest)).1 - 1)
      have hstop := Nat.add_right_comm offset distance
        (byteLength ((c :: rest).take (nextPiece (c :: rest)).1))
      rw [scan, scan]
      dsimp only
      rw [hstop, hothers]
      cases (nextPiece (c :: rest)).2 with
      | skipped | token | invalid => rfl

end Readers

/-! ## Lines -/

theorem lexLine_moved (distance source offset : Nat) (text : List Char) :
    lexLine source (offset + distance) text =
      carried (List.map (Diagnostic.moved distance)) (List.map (Token.moved distance))
        (lexLine source offset text) := by
  unfold lexLine
  rw [scan_moved]
  dsimp only
  rw [failures_carried, filterMap_toOption_carried]
  cases failures (scan source offset 0 text) with
  | nil => rfl
  | cons report others => rfl

/-- A line is read alike wherever it stands. -/
theorem readLine_moved (distance lines : Nat) (location : Location) (text : List Char) :
    readLine (location.moved distance lines) text =
      carried (List.map (Diagnostic.moved distance)) (Option.map (Line.moved distance lines))
        (readLine location text) := by
  refine carried_bind (lexLine_moved distance location.span.source location.span.start text)
    fun tokens => ?_
  rw [List.getLast?_map]
  cases tokens.getLast? with
  | none => rfl
  | some last =>
    dsimp only [Option.map_some]
    have hlabel := crowdedLabel?_moved distance location.span.start tokens
    have hbody := readBody_moved distance location.span.source location.span.start
      last.span.stop tokens
    dsimp only [Location.moved, Span.moved, Token.moved]
    rw [hlabel]
    cases crowdedLabel? location.span.start tokens with
    | some ident => rfl
    | none =>
      dsimp only
      rw [hbody]
      cases readBody location.span.source location.span.start last.span.stop tokens with
      | error report => rfl
      | ok body => rfl

/-- Lines are read alike wherever they stand. -/
theorem readLines_moved (distance lines source : Nat) (file : String)
    (includedFrom : List IncludeSite) (number offset : Nat) (texts : List (List Char)) :
    readLines source file includedFrom (number + lines) (offset + distance) texts =
      (readLines source file includedFrom number offset texts).map (carried
        (List.map (Diagnostic.moved distance)) (Option.map (Line.moved distance lines))) := by
  induction texts generalizing number offset with
  | nil => rfl
  | cons text rest ih =>
    have hfirst := readLine_moved distance lines
      ⟨file, number, ⟨source, offset, offset + byteLength (trimEnd text)⟩, includedFrom⟩ text
    have hrest := ih (number + 1) (offset + byteLength text + 1)
    simp only [Location.moved, Span.moved, Nat.add_right_comm _ _ distance,
      Nat.add_right_comm _ _ lines] at hfirst hrest
    rw [readLines, readLines, List.map_cons, ← hrest, ← hfirst]

end Asm65816
