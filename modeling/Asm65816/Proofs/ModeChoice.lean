import Asm65816.Proofs.BranchReach

/-!
# The choice of an addressing mode

Modes are tried in a fixed order, and the first that accepts the operands is taken. The order is not
one by length, but a longer mode comes before a shorter one only where no operands suit both or no
mnemonic has both. So the mode that is taken is a shortest of those that accept the operands.
-/

namespace Asm65816

/-! ## What modes are written with -/

/-- What instructions of a mode are written with. -/
inductive OperandKind where
  /-- No operand. -/
  | bare
  /-- The accumulator, which may be left out. -/
  | accumulator
  | immediate
  /-- The banks of a block move. -/
  | move
  | branch
  | direct
  | indexed
  | indirect
  /-- Brackets in front of an index register. -/
  | indirectIndexed
  deriving DecidableEq

/-- What instructions of a mode are written with. -/
def AddressingMode.operandKind : AddressingMode → OperandKind
  | implied | interrupt | stack => .bare
  | accumulator => .accumulator
  | immediate => .immediate
  | blockMove => .move
  | relative | relativeLong => .branch
  | directPage | absolute | absoluteLong => .direct
  | stackRelative | directPageX | directPageY | absoluteX | absoluteY | absoluteLongX => .indexed
  | directPageIndirect | directPageIndirectLong | directPageIndexedIndirectX
  | absoluteIndexedIndirectX | absoluteIndirect | absoluteIndirectLong => .indirect
  | stackRelativeIndirectIndexedY | directPageIndirectIndexedY
  | directPageIndirectLongIndexedY => .indirectIndexed

/-- Whether an operand names a register. -/
def Expr.NamesRegister (e : Expr) : Prop := ∃ register, e.isName register = true

/-- Whether an operand has an estimated width. -/
def Expr.HasEstimate (e : Expr) : Prop := ∃ width, e.guessWidth = some width

/-- A group of a base, which a register may follow. -/
def Expr.IsBracketed (e : Expr) : Prop :=
  ∃ base others long, e.groupItems? = some (base :: others, long) ∧
    ∀ item ∈ others, item.NamesRegister

/-- Operands of a kind. -/
inductive OperandKind.Suits : OperandKind → List Expr → Prop where
  | bare : Suits .bare []
  | omitted : Suits .accumulator []
  | accumulator {operand : Expr} (register : operand.NamesRegister) : Suits .accumulator [operand]
  | immediate {operand : Expr} (sign : operand.isImmediate = true)
      (estimate : operand.HasEstimate) : Suits .immediate [operand]
  | move {source destination : Expr} (sourceSign : source.isImmediate = true)
      (sourceEstimate : source.HasEstimate) (destinationSign : destination.isImmediate = true)
      (destinationEstimate : destination.HasEstimate) : Suits .move [source, destination]
  | branch (operand : Expr) : Suits .branch [operand]
  | direct {operand : Expr} (plain : operand.isPlain = true) : Suits .direct [operand]
  | indexed {base index : Expr} (single : base.isGroup = false) (estimate : base.HasEstimate)
      (register : index.NamesRegister) : Suits .indexed [base, index]
  | indirect {operand : Expr} (brackets : operand.IsBracketed) : Suits .indirect [operand]
  | indirectIndexed {operand index : Expr} (brackets : operand.IsBracketed)
      (register : index.NamesRegister) : Suits .indirectIndexed [operand, index]

/-- A group of a base that may need at most `limit` bytes, which a register may follow. -/
def Expr.BracketsFitting (limit : Nat) (e : Expr) : Prop :=
  ∃ base others long, e.groupItems? = some (base :: others, long) ∧
    (∀ item ∈ others, item.NamesRegister) ∧ base.fits limit = true

/-- Operands of a kind whose value may need at most `limit` bytes. -/
inductive OperandKind.Takes (limit : Nat) : OperandKind → List Expr → Prop where
  | bare : Takes limit .bare []
  | omitted : Takes limit .accumulator []
  | accumulator {operand : Expr} (register : operand.NamesRegister) :
      Takes limit .accumulator [operand]
  | immediate {operand inner : Expr} (sign : operand.immediateOperand? = some inner)
      (fits : inner.fits limit = true) : Takes limit .immediate [operand]
  | move {source destination sourceBank destinationBank : Expr}
      (sourceSign : source.immediateOperand? = some sourceBank)
      (sourceFits : sourceBank.fits 1 = true)
      (destinationSign : destination.immediateOperand? = some destinationBank)
      (destinationFits : destinationBank.fits 1 = true) :
      Takes limit .move [source, destination]
  | branch (operand : Expr) : Takes limit .branch [operand]
  | direct {operand : Expr} (plain : operand.isPlain = true)
      (fits : operand.fits limit = true) : Takes limit .direct [operand]
  | indexed {base index : Expr} (single : base.isGroup = false) (fits : base.fits limit = true)
      (register : index.NamesRegister) : Takes limit .indexed [base, index]
  | indirect {operand : Expr} (brackets : operand.BracketsFitting limit) :
      Takes limit .indirect [operand]
  | indirectIndexed {operand index : Expr} (brackets : operand.BracketsFitting limit)
      (register : index.NamesRegister) : Takes limit .indirectIndexed [operand, index]

namespace Expr

variable {e : Expr} {limit : Nat}

/-- An operand that may need at most some number of bytes has an estimate. -/
theorem hasEstimate_of_fits (h : e.fits limit = true) : e.HasEstimate := by
  unfold fits at h
  split at h
  case h_1 width hwidth => exact ⟨width, hwidth⟩
  case h_2 => cases h

/-- An operand of one byte may need at most some number of bytes. -/
theorem fits_of_guessWidth_one (h : e.guessWidth = some 1) (hlimit : 1 ≤ limit) :
    e.fits limit = true := by
  simpa [fits, h] using hlimit

/-- An immediate operand has an estimate when the part behind the `#` fits. -/
theorem immediate_of_fits {inner : Expr} (h : e.immediateOperand? = some inner)
    (hinner : inner.fits limit = true) : e.isImmediate = true ∧ e.HasEstimate := by
  induction e using Expr.inductionOn with
  | immediate operand ih =>
    cases h
    exact ⟨rfl, hasEstimate_of_fits hinner⟩
  | bound name value ih =>
    obtain ⟨hsign, width, hwidth⟩ := ih h
    exact ⟨hsign, _, congrArg (Option.map _) hwidth⟩
  | _ => cases h

/-- A base that fits in brackets is a base in brackets. -/
theorem BracketsFitting.isBracketed (h : e.BracketsFitting limit) : e.IsBracketed := by
  obtain ⟨base, others, long, hitems, hothers, -⟩ := h
  exact ⟨base, others, long, hitems, hothers⟩

end Expr

namespace Opcode

variable {register : String} {limit : Nat} {base index operand : Expr}

/-- A base operand and an index register. -/
theorem takes_of_acceptsIndexed (h : acceptsIndexed register limit base index = true) :
    OperandKind.indexed.Takes limit [base, index] := by
  simp only [acceptsIndexed, Bool.and_eq_true, Bool.not_eq_true'] at h
  exact .indexed h.1.1 h.2 ⟨register, h.1.2⟩

/-- An operand in brackets. -/
theorem bracketsFitting_of_acceptsIndirect {long : Bool}
    (h : acceptsIndirect long limit operand = true) : operand.BracketsFitting limit := by
  unfold acceptsIndirect at h
  split at h
  case h_1 inner isLong hitems =>
    simp only [Bool.and_eq_true] at h
    exact ⟨inner, [], isLong, hitems, by simp, h.2⟩
  case h_2 => cases h

/-- A base operand and an index register in brackets. -/
theorem bracketsFitting_of_acceptsIndexedIndirect
    (h : acceptsIndexedIndirect register limit operand = true) :
    operand.BracketsFitting limit := by
  unfold acceptsIndexedIndirect at h
  split at h
  case h_1 base index hitems =>
    simp only [Bool.and_eq_true] at h
    exact ⟨base, [index], false, hitems, by simpa using ⟨register, h.1⟩, h.2⟩
  case h_2 => cases h

/-- An operand of a block move. -/
theorem exists_bank_of_elim
    (h : (operand.immediateOperand?.elim false fun inner => inner.fits 1) = true) :
    ∃ bank, operand.immediateOperand? = some bank ∧ bank.fits 1 = true := by
  cases hinner : operand.immediateOperand? with
  | none => simp [hinner] at h
  | some inner =>
    rw [hinner] at h
    exact ⟨inner, rfl, h⟩

/-- A wide immediate operand has two bytes. -/
theorem encodedSize_of_immediate {opcode : Opcode} (hmode : opcode.mode = .immediate)
    (widths : RegisterWidths) :
    opcode.encodedSize widths - 1 = if opcode.isWide widths then 2 else 1 := by
  rw [encodedSize, hmode]
  split <;> rfl

/-- Only an immediate operand may take a byte more than its mode states. -/
theorem encodedSize_of_ne_immediate {opcode : Opcode} (hmode : opcode.mode ≠ .immediate)
    (widths : RegisterWidths) : opcode.encodedSize widths = opcode.mode.size := by
  simp [encodedSize, isWide, hmode]

/-- An opcode accepts operands of the kind that its mode is written with, whose values may need no
more bytes than the instruction has behind the opcode. -/
theorem takes_of_accepts {opcode : Opcode} {widths : RegisterWidths} {operands : List Expr}
    (h : opcode.accepts widths operands = true) :
    opcode.mode.operandKind.Takes (opcode.encodedSize widths - 1) operands := by
  unfold accepts at h
  cases hmode : opcode.mode with
  | implied | interrupt | stack =>
    simp only [hmode] at h
    split at h <;> try contradiction
    exact .bare
  | accumulator =>
    simp only [hmode] at h
    split at h <;> try contradiction
    · exact .omitted
    · exact .accumulator ⟨"A", h⟩
  | immediate =>
    simp only [hmode] at h
    split at h <;> try contradiction
    split at h
    case h_1 inner hinner =>
      refine .immediate hinner ?_
      rw [encodedSize_of_immediate hmode]
      simp only [Bool.or_eq_true, Bool.and_eq_true, beq_iff_eq] at h
      rcases h with ⟨hwide, htwo⟩ | hone
      · rw [if_pos hwide]
        exact htwo
      · exact Expr.fits_of_guessWidth_one hone (by split <;> decide)
    case h_2 => cases h
  | blockMove =>
    simp only [hmode] at h
    split at h <;> try contradiction
    simp only [List.all_cons, List.all_nil, Bool.and_true, Bool.and_eq_true] at h
    obtain ⟨source, hsource, hsourceFits⟩ := exists_bank_of_elim h.1
    obtain ⟨destination, hdestination, hdestinationFits⟩ := exists_bank_of_elim h.2
    exact .move hsource hsourceFits hdestination hdestinationFits
  | relative | relativeLong =>
    simp only [hmode] at h
    split at h <;> try contradiction
    exact .branch _
  | directPage | absolute | absoluteLong =>
    simp only [encodedSize_of_ne_immediate, hmode, ne_eq, reduceCtorEq, not_false_eq_true] at h ⊢
    split at h <;> try contradiction
    simp only [Bool.and_eq_true] at h
    exact .direct h.1 h.2
  | stackRelative | directPageX | directPageY | absoluteX | absoluteY | absoluteLongX =>
    simp only [encodedSize_of_ne_immediate, hmode, ne_eq, reduceCtorEq, not_false_eq_true] at h ⊢
    split at h <;> try contradiction
    exact takes_of_acceptsIndexed h
  | directPageIndirect | directPageIndirectLong | absoluteIndirect | absoluteIndirectLong =>
    simp only [encodedSize_of_ne_immediate, hmode, ne_eq, reduceCtorEq, not_false_eq_true] at h ⊢
    split at h <;> try contradiction
    exact .indirect (bracketsFitting_of_acceptsIndirect h)
  | directPageIndexedIndirectX | absoluteIndexedIndirectX =>
    simp only [encodedSize_of_ne_immediate, hmode, ne_eq, reduceCtorEq, not_false_eq_true] at h ⊢
    split at h <;> try contradiction
    exact .indirect (bracketsFitting_of_acceptsIndexedIndirect h)
  | directPageIndirectIndexedY | directPageIndirectLongIndexedY =>
    simp only [encodedSize_of_ne_immediate, hmode, ne_eq, reduceCtorEq, not_false_eq_true] at h ⊢
    split at h <;> try contradiction
    simp only [Bool.and_eq_true] at h
    exact .indirectIndexed (bracketsFitting_of_acceptsIndirect h.1) ⟨"Y", h.2⟩
  | stackRelativeIndirectIndexedY =>
    simp only [encodedSize_of_ne_immediate, hmode, ne_eq, reduceCtorEq, not_false_eq_true] at h ⊢
    split at h <;> try contradiction
    simp only [Bool.and_eq_true] at h
    exact .indirectIndexed (bracketsFitting_of_acceptsIndexedIndirect h.1) ⟨"Y", h.2⟩

end Opcode

/-- Operands whose values fit are operands of the kind. -/
theorem OperandKind.Takes.suits {limit : Nat} {kind : OperandKind} {operands : List Expr}
    (h : kind.Takes limit operands) : kind.Suits operands := by
  cases h with
  | bare => exact .bare
  | omitted => exact .omitted
  | accumulator register => exact .accumulator register
  | immediate sign fits =>
    obtain ⟨hsign, hestimate⟩ := Expr.immediate_of_fits sign fits
    exact .immediate hsign hestimate
  | move sourceSign sourceFits destinationSign destinationFits =>
    obtain ⟨hsource, hsourceEstimate⟩ := Expr.immediate_of_fits sourceSign sourceFits
    obtain ⟨hdestination, hdestinationEstimate⟩ :=
      Expr.immediate_of_fits destinationSign destinationFits
    exact .move hsource hsourceEstimate hdestination hdestinationEstimate
  | branch operand => exact .branch operand
  | direct plain fits => exact .direct plain
  | indexed single fits register =>
    exact .indexed single (Expr.hasEstimate_of_fits fits) register
  | indirect brackets => exact .indirect brackets.isBracketed
  | indirectIndexed brackets register =>
    exact .indirectIndexed brackets.isBracketed register

/-- An opcode accepts operands of the kind that its mode is written with. -/
theorem Opcode.suits_of_accepts {opcode : Opcode} {widths : RegisterWidths}
    {operands : List Expr} (h : opcode.accepts widths operands = true) :
    opcode.mode.operandKind.Suits operands :=
  (takes_of_accepts h).suits

/-! ## Which operands suit several modes -/

/-- What operands look like, as far as it keeps modes apart. -/
inductive OperandForm where
  | absent
  | immediate
  | bracketed
  | plain
  /-- Two operands, of which the second is immediate. -/
  | moved
  /-- Two operands, of which the second is not immediate. -/
  | indexed
  deriving DecidableEq

/-- The form of a single operand. -/
def Expr.form (e : Expr) : OperandForm :=
  if e.isImmediate then .immediate else if e.isGroup then .bracketed else .plain

/-- The form of the operands of an instruction. -/
def operandForm : List Expr → OperandForm
  | [] => .absent
  | [operand] => operand.form
  | _ :: index :: _ => if index.isImmediate then .moved else .indexed

/-- The forms of the operands of a kind. -/
def OperandKind.forms : OperandKind → List OperandForm
  | bare => [.absent]
  | accumulator => [.absent, .plain]
  | immediate => [.immediate]
  | move => [.moved]
  | branch => [.immediate, .bracketed, .plain]
  | direct => [.plain]
  | indexed | indirectIndexed => [.indexed]
  | indirect => [.bracketed]

namespace Expr

variable {e : Expr}

/-- A plain operand is neither a group nor immediate. -/
theorem isPlain_iff : e.isPlain = true ↔ e.isGroup = false ∧ e.isImmediate = false := by
  simp [isPlain]

/-- A register is a plain operand. -/
theorem NamesRegister.isPlain (h : e.NamesRegister) : e.isPlain = true := by
  obtain ⟨register, h⟩ := h
  unfold isName at h
  split at h
  case h_1 hshape => simp [Expr.isPlain, isGroup, isImmediate, hshape]
  case h_2 => cases h

/-- Only a group has items. -/
theorem isGroup_of_groupItems? {items : List Expr} {long : Bool}
    (h : e.groupItems? = some (items, long)) : e.isGroup = true := by
  unfold groupItems? at h
  unfold isGroup
  cases hshape : e.shape with
  | group => rfl
  | _ => simp [hshape] at h

/-- A group is not immediate. -/
theorem not_immediate_of_isGroup (h : e.isGroup = true) : e.isImmediate = false := by
  unfold isGroup at h
  unfold isImmediate
  cases hshape : e.shape with
  | group => rfl
  | _ => simp [hshape] at h

end Expr

/-- Operands of a kind are of one of its forms. -/
theorem OperandKind.Suits.form {kind : OperandKind} {operands : List Expr}
    (h : kind.Suits operands) : operandForm operands ∈ kind.forms := by
  cases h with
  | bare | omitted => decide
  | accumulator register =>
    simp [operandForm, Expr.form, Expr.isPlain_iff.mp register.isPlain, forms]
  | immediate sign estimate => simp [operandForm, Expr.form, sign, forms]
  | move sourceSign sourceEstimate destinationSign destinationEstimate =>
    simp [operandForm, destinationSign, forms]
  | branch operand =>
    simp only [operandForm, Expr.form]
    split
    · decide
    · split <;> decide
  | direct plain => simp [operandForm, Expr.form, Expr.isPlain_iff.mp plain, forms]
  | indexed single estimate register | indirectIndexed brackets register =>
    simp [operandForm, Expr.isPlain_iff.mp register.isPlain, forms]
  | indirect brackets =>
    obtain ⟨base, others, long, hitems, -⟩ := brackets
    have hgroup := Expr.isGroup_of_groupItems? hitems
    simp [operandForm, Expr.form, hgroup, Expr.not_immediate_of_isGroup hgroup, forms]

/-! ## The order of modes -/

namespace AddressingMode

/-- The greatest length of an instruction in a mode. -/
def longest (mode : AddressingMode) : Nat := mode.size + if mode = .immediate then 1 else 0

/-- Whether some operands may suit both of two modes. -/
def overlaps (first second : AddressingMode) : Bool :=
  first.operandKind.forms.any second.operandKind.forms.contains

/-- Every mode is tried at some time. -/
theorem mem_all (mode : AddressingMode) : mode ∈ all := by
  cases mode <;> decide

/-- Operands that suit both of two modes are of a common form. -/
theorem overlaps_of_suits {first second : AddressingMode} {operands : List Expr}
    (hfirst : first.operandKind.Suits operands) (hsecond : second.operandKind.Suits operands) :
    first.overlaps second = true :=
  List.any_eq_true.mpr ⟨_, hfirst.form, List.contains_iff_mem.mpr hsecond.form⟩

/-- A mode that is tried before another one which some of its operands suit is at most as long,
unless no mnemonic has both. -/
theorem all_ordered : all.Pairwise fun first second => first.overlaps second = true →
    first.longest ≤ second.size ∨
      ∀ a ∈ Opcode.table.filter fun entry => entry.mode = first,
        ∀ b ∈ Opcode.table.filter fun entry => entry.mode = second, a.mnemonic ≠ b.mnemonic := by
  decide +kernel

end AddressingMode

namespace Opcode

variable {mnemonic : String} {mode : AddressingMode} {widths : RegisterWidths}
  {operands : List Expr} {opcode : Opcode}

/-- The length of an instruction lies between that of its mode and the greatest one. -/
theorem encodedSize_bounds (opcode : Opcode) (widths : RegisterWidths) :
    opcode.mode.size ≤ opcode.encodedSize widths ∧
      opcode.encodedSize widths ≤ opcode.mode.longest := by
  refine ⟨Nat.le_add_right _ _, Nat.add_le_add_left ?_ _⟩
  by_cases hmode : opcode.mode = .immediate
  · rw [if_pos hmode]
    split <;> decide
  · simp [isWide, hmode]

/-- The entry of a mnemonic in a mode. -/
theorem lookup_eq_ok : lookup mnemonic mode = .ok opcode ↔
    (entries mnemonic).find? (fun entry => entry.mode == mode) = some opcode := by
  unfold lookup
  split
  case h_1 entry hentry => simp [hentry]
  case h_2 hnone =>
    rw [hnone]
    split <;> simp

/-- An entry that is found has the mode and the mnemonic that it is looked up by. -/
theorem entry_of_lookup (h : lookup mnemonic mode = .ok opcode) :
    opcode.mode = mode ∧ opcode.mnemonic = lowerAscii mnemonic ∧ opcode ∈ table := by
  have hfound := lookup_eq_ok.mp h
  obtain ⟨htable, hmnemonic⟩ := List.mem_filter.mp (List.mem_of_find?_eq_some hfound)
  exact ⟨by simpa using List.find?_some hfound, by simpa using hmnemonic, htable⟩

/-- The candidates of a mnemonic are its entries in all modes. -/
theorem mem_candidates :
    opcode ∈ candidates mnemonic ↔ ∃ mode, lookup mnemonic mode = .ok opcode := by
  simp [candidates, List.mem_filterMap, lookup_eq_ok, AddressingMode.mem_all]

/-- A candidate is at most as long as those after it which some of its operands suit. -/
theorem candidates_ordered (mnemonic : String) (widths : RegisterWidths) :
    (candidates mnemonic).Pairwise fun first second =>
      first.mode.overlaps second.mode = true →
        first.encodedSize widths ≤ second.encodedSize widths := by
  rw [candidates, List.pairwise_filterMap]
  refine AddressingMode.all_ordered.imp ?_
  intro firstMode secondMode hordered first hfirst second hsecond hoverlaps
  obtain ⟨rfl, hfirstMnemonic, hfirstTable⟩ := entry_of_lookup (lookup_eq_ok.mpr hfirst)
  obtain ⟨rfl, hsecondMnemonic, hsecondTable⟩ := entry_of_lookup (lookup_eq_ok.mpr hsecond)
  rcases hordered hoverlaps with hlength | hapart
  · have hlongest := (first.encodedSize_bounds widths).2
    have hshortest := (second.encodedSize_bounds widths).1
    omega
  · have hdifferent := hapart first (by simp [hfirstTable]) second (by simp [hsecondTable])
    exact absurd (hfirstMnemonic.trans hsecondMnemonic.symm) hdifferent

/-- The candidates before the one that is selected do not accept the operands. -/
theorem select_eq_ok : select mnemonic widths operands = .ok opcode ↔
    (candidates mnemonic).find? (fun entry => entry.accepts widths operands) = some opcode := by
  unfold select
  split
  case h_1 found hfound => simp [hfound]
  case h_2 hnone => simp [hnone]

/-- A candidate that accepts the operands is at least as long as the one that is selected. -/
theorem encodedSize_le_of_select {other : Opcode}
    (h : select mnemonic widths operands = .ok opcode) (hother : other ∈ candidates mnemonic)
    (haccepts : other.accepts widths operands = true) :
    opcode.encodedSize widths ≤ other.encodedSize widths := by
  obtain ⟨hselected, before, after, hsplit, hbefore⟩ :=
    List.find?_eq_some_iff_append.mp (select_eq_ok.mp h)
  have hordered := candidates_ordered mnemonic widths
  rw [hsplit] at hother hordered
  obtain ⟨-, hlater, -⟩ := List.pairwise_append.mp hordered
  rcases List.mem_append.mp hother with hearly | hlate
  · have hrejects := hbefore other hearly
    simp [haccepts] at hrejects
  · rcases List.mem_cons.mp hlate with rfl | hlate
    · exact Nat.le_refl _
    · exact (List.pairwise_cons.mp hlater).1 other hlate
        (AddressingMode.overlaps_of_suits (suits_of_accepts hselected) (suits_of_accepts haccepts))

end Opcode

/-- The mode that is taken is a shortest of those that accept the operands. The opcode that is
selected for some operands is the entry of its mnemonic for its mode and accepts them, and no entry
of the mnemonic for any mode that accepts them is shorter. So an instruction that is laid out takes
no more bytes than it would in any other mode that accepts its prepared operands. -/
theorem select_shortest :
    (∀ mnemonic widths operands opcode,
      Opcode.select mnemonic widths operands = .ok opcode →
        Opcode.lookup mnemonic opcode.mode = .ok opcode ∧
        opcode.accepts widths operands = true ∧
        ∀ mode other, Opcode.lookup mnemonic mode = .ok other →
          other.accepts widths operands = true →
            opcode.encodedSize widths ≤ other.encodedSize widths) ∧
    ∀ environment calls location layout mnemonic operands placed size next,
      placeOperation environment calls location layout (.instruction mnemonic operands) =
        .ok (placed, size, next) →
      ∃ encoding, placed = .instruction encoding ∧
        size = encoding.opcode.encodedSize layout.widths ∧
        ∀ mode other, Opcode.lookup mnemonic mode = .ok other →
          other.accepts layout.widths encoding.operands = true →
            size ≤ other.encodedSize layout.widths := by
  constructor
  · intro mnemonic widths operands opcode h
    obtain ⟨mode, hlookup⟩ :=
      Opcode.mem_candidates.mp (List.mem_of_find?_eq_some (Opcode.select_eq_ok.mp h))
    obtain ⟨rfl, -⟩ := Opcode.entry_of_lookup hlookup
    refine ⟨hlookup, Opcode.accepts_of_select h, fun mode other hother haccepts => ?_⟩
    exact Opcode.encodedSize_le_of_select h (Opcode.mem_candidates.mpr ⟨mode, hother⟩) haccepts
  · intro environment calls location layout mnemonic operands placed size next h
    obtain ⟨encoding, rfl, -, -, hselect, -, -, rfl⟩ := placeOperation_instruction h
    refine ⟨encoding, rfl, rfl, fun mode other hother haccepts => ?_⟩
    exact Opcode.encodedSize_le_of_select hselect (Opcode.mem_candidates.mpr ⟨mode, hother⟩)
      haccepts

/-- A load from an address of one byte, which fits all of the direct page, a bank and the whole
memory. -/
theorem select_shortest_load :
    ∃ (layout next : Layout) (encoding : Encoding) (size : Nat) (other : Opcode),
      placeOperation ⟨[], [], ⟨.ofTable [], []⟩⟩ [] default layout
          (.instruction "LDA" [.number (.ofHex 0x12 1)]) = .ok (.instruction encoding, size, next) ∧
      Opcode.select "LDA" layout.widths encoding.operands = .ok encoding.opcode ∧
      Opcode.lookup "LDA" .absoluteLong = .ok other ∧
      other.accepts layout.widths encoding.operands = true ∧
      size ≤ other.encodedSize layout.widths ∧
      encoding.opcode.encodedSize layout.widths ≤ other.encodedSize layout.widths := by
  have hplaced : placeOperation ⟨[], [], ⟨.ofTable [], []⟩⟩ [] default
      { Layout.empty with segments := [("C", .new "c" 0x8000 9 0 default)], current := some "C" }
      (.instruction "LDA" [.number (.ofHex 0x12 1)]) =
    .ok (.instruction ⟨"LDA", [.number (.ofHex 0x12 1)], ⟨"lda", .directPage, 0xA5, .fixed⟩, false,
      0⟩, 2, { Layout.empty with
        segments := [("C", .new "c" 0x8000 9 0 default)], current := some "C" }) := rfl
  have hselect : Opcode.select "LDA" ⟨false, false⟩ [.number (.ofHex 0x12 1)] =
    .ok ⟨"lda", .directPage, 0xA5, .fixed⟩ := rfl
  have hother : Opcode.lookup "LDA" .absoluteLong =
    .ok ⟨"lda", .absoluteLong, 0xAF, .fixed⟩ := rfl
  have haccepts : Opcode.accepts ⟨"lda", .absoluteLong, 0xAF, .fixed⟩ ⟨false, false⟩
    [.number (.ofHex 0x12 1)] = true := rfl
  obtain ⟨encoding, hencoding, -, hshortest⟩ := select_shortest.2 _ _ _ _ _ _ _ _ _ hplaced
  cases hencoding
  exact ⟨_, _, _, _, _, hplaced, hselect, hother, haccepts, hshortest _ _ hother haccepts,
    (select_shortest.1 _ _ _ _ hselect).2.2 _ _ hother haccepts⟩

end Asm65816
