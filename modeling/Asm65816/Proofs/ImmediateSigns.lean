import Asm65816.Proofs.ModeChoice

/-!
# Immediate operands and the mode that is taken

A `#` in front of a single operand always decides the mode. In front of a base that an index
register follows, and inside of brackets, it is overlooked: the operand is taken for an address, as
it would be without the sign. These are the only places where a sign is lost.
-/

namespace Asm65816

namespace Expr

/-- Whether an operand, or an item of a group, is immediate. -/
def ShowsSign (e : Expr) : Prop :=
  e.isImmediate = true ∨
    ∃ items long, e.groupItems? = some (items, long) ∧ ∃ item ∈ items, item.isImmediate = true

/-- Whether the base in brackets is immediate. -/
def HasSignedBase (e : Expr) : Prop :=
  ∃ base others long, e.groupItems? = some (base :: others, long) ∧ base.isImmediate = true

variable {e : Expr}

/-- The sign of an operand that is no group stands in front of it. -/
theorem ShowsSign.isImmediate (h : e.ShowsSign) (hsingle : e.isGroup = false) :
    e.isImmediate = true := by
  refine h.resolve_right ?_
  rintro ⟨items, long, hitems, -⟩
  exact Bool.false_ne_true (hsingle.symm.trans (isGroup_of_groupItems? hitems))

/-- A plain operand shows no sign. -/
theorem not_showsSign_of_isPlain (h : e.isPlain = true) : ¬e.ShowsSign := by
  obtain ⟨hsingle, hunsigned⟩ := isPlain_iff.mp h
  exact fun hsign => Bool.false_ne_true (hunsigned.symm.trans (hsign.isImmediate hsingle))

/-- In brackets only the base can show a sign. -/
theorem ShowsSign.hasSignedBase (h : e.ShowsSign) (hbrackets : e.IsBracketed) :
    e.HasSignedBase := by
  obtain ⟨base, others, long, hitems, hothers⟩ := hbrackets
  have hgroup := not_immediate_of_isGroup (isGroup_of_groupItems? hitems)
  obtain hsign | ⟨items, isLong, hfound, item, hitem, hsign⟩ := h
  · exact absurd (hgroup.symm.trans hsign) Bool.false_ne_true
  · cases hitems.symm.trans hfound
    rcases List.mem_cons.mp hitem with rfl | hitem
    · exact ⟨_, _, _, hitems, hsign⟩
    · have hunsigned := (isPlain_iff.mp (hothers item hitem).isPlain).2
      exact absurd (hunsigned.symm.trans hsign) Bool.false_ne_true

end Expr

/-- Where operands of a kind can show a sign: it tells the kind, or stands in front of a base with
an index register, or in brackets. -/
theorem OperandKind.Suits.sign {kind : OperandKind} {operands : List Expr}
    (h : kind.Suits operands) (hsign : ∃ operand ∈ operands, operand.ShowsSign) :
    kind ∈ [.immediate, .move, .branch] ∨
      (kind = .indexed ∧ ∃ base index, operands = [base, index] ∧ base.isImmediate = true) ∨
      (kind ∈ [.indirect, .indirectIndexed] ∧
        ∃ operand others, operands = operand :: others ∧ operand.HasSignedBase) := by
  obtain ⟨operand, hoperand, hsign⟩ := hsign
  cases h with
  | bare | omitted => cases hoperand
  | accumulator register =>
    obtain rfl := List.mem_singleton.mp hoperand
    exact absurd hsign (Expr.not_showsSign_of_isPlain register.isPlain)
  | direct plain =>
    obtain rfl := List.mem_singleton.mp hoperand
    exact absurd hsign (Expr.not_showsSign_of_isPlain plain)
  | immediate | move | branch => exact .inl (by decide)
  | @indexed base index single estimate register =>
    refine .inr (.inl ⟨rfl, base, index, rfl, ?_⟩)
    rcases List.mem_cons.mp hoperand with rfl | hindex
    · exact hsign.isImmediate single
    · obtain rfl := List.mem_singleton.mp hindex
      exact absurd hsign (Expr.not_showsSign_of_isPlain register.isPlain)
  | indirect brackets =>
    obtain rfl := List.mem_singleton.mp hoperand
    exact .inr (.inr ⟨by decide, _, _, rfl, hsign.hasSignedBase brackets⟩)
  | @indirectIndexed operand index brackets register =>
    refine .inr (.inr ⟨by decide, _, _, rfl, ?_⟩)
    rcases List.mem_cons.mp hoperand with rfl | hindex
    · exact hsign.hasSignedBase brackets
    · obtain rfl := List.mem_singleton.mp hindex
      exact absurd hsign (Expr.not_showsSign_of_isPlain register.isPlain)

namespace Opcode

variable {opcode : Opcode} {widths : RegisterWidths}

/-- In front of a base with an index register a sign is overlooked. -/
theorem accepts_signed_base {base index : Expr} (hkind : opcode.mode.operandKind = .indexed)
    (h : opcode.accepts widths [base, index] = true) :
    opcode.accepts widths [.immediate base, index] = true := by
  have hindexed {register : String} {limit : Nat}
      (h : acceptsIndexed register limit base index = true) :
      acceptsIndexed register limit (.immediate base) index = true := by
    simp only [acceptsIndexed, Bool.and_eq_true] at h ⊢
    exact ⟨⟨rfl, h.1.2⟩, h.2⟩
  unfold accepts at h ⊢
  cases hmode : opcode.mode with
  | stackRelative | directPageX | directPageY | absoluteX | absoluteY | absoluteLongX =>
    simp only [hmode] at h ⊢
    exact hindexed h
  | _ => simp [hmode, AddressingMode.operandKind] at hkind

/-- In front of a base in brackets a sign is overlooked. -/
theorem accepts_signed_item {base : Expr} {others rest : List Expr} {long : Bool}
    (hkind : opcode.mode.operandKind ∈ [.indirect, .indirectIndexed]) :
    opcode.accepts widths (.group (.immediate base :: others) long :: rest) =
      opcode.accepts widths (.group (base :: others) long :: rest) := by
  have hindirect (isLong : Bool) (limit : Nat) :
      acceptsIndirect isLong limit (.group (.immediate base :: others) long) =
        acceptsIndirect isLong limit (.group (base :: others) long) := by
    cases others <;> rfl
  have hindexed (register : String) (limit : Nat) :
      acceptsIndexedIndirect register limit (.group (.immediate base :: others) long) =
        acceptsIndexedIndirect register limit (.group (base :: others) long) := by
    rcases others with _ | ⟨index, _ | ⟨next, more⟩⟩
    · rfl
    · cases long <;> rfl
    · rfl
  unfold accepts
  cases hmode : opcode.mode with
  | directPageIndirect | directPageIndirectLong | absoluteIndirect | absoluteIndirectLong =>
    cases rest with
    | nil => exact hindirect _ _
    | cons index more => rfl
  | directPageIndexedIndirectX | absoluteIndexedIndirectX =>
    cases rest with
    | nil => exact hindexed _ _
    | cons index more => rfl
  | directPageIndirectIndexedY | directPageIndirectLongIndexedY =>
    rcases rest with _ | ⟨index, _ | ⟨next, more⟩⟩
    · rfl
    · exact congrArg (· && _) (hindirect _ _)
    · rfl
  | stackRelativeIndirectIndexedY =>
    rcases rest with _ | ⟨index, _ | ⟨next, more⟩⟩
    · rfl
    · exact congrArg (· && _) (hindexed _ _)
    · rfl
  | _ => simp [hmode, AddressingMode.operandKind] at hkind

end Opcode

/-- The modes whose operands may be immediate: an immediate value, the banks of a block move, and
the target of a branch. -/
theorem AddressingMode.takesSign_iff (mode : AddressingMode) :
    mode.operandKind ∈ [.immediate, .move, .branch] ↔
      mode ∈ [immediate, blockMove, relative, relativeLong] := by
  cases mode <;> decide

/-- Where a sign decides the mode. When an operand or an item of a group is immediate, the mode that
is selected is one for immediate values, block moves or branches, except that a sign in front of a
base with an index register, and one in front of a base in brackets, is overlooked: there the modes
for addresses accept with the sign what they accept without it. -/
theorem select_sign (widths : RegisterWidths) :
    (∀ mnemonic operands opcode,
      Opcode.select mnemonic widths operands = .ok opcode →
      (∃ operand ∈ operands, operand.ShowsSign) →
        opcode.mode ∈ [.immediate, .blockMove, .relative, .relativeLong] ∨
        (opcode.mode.operandKind = .indexed ∧
          ∃ base index, operands = [base, index] ∧ base.isImmediate = true) ∨
        (opcode.mode.operandKind ∈ [.indirect, .indirectIndexed] ∧
          ∃ operand others, operands = operand :: others ∧ operand.HasSignedBase)) ∧
    (∀ (opcode : Opcode) base index, opcode.mode.operandKind = .indexed →
      opcode.accepts widths [base, index] = true →
        opcode.accepts widths [.immediate base, index] = true) ∧
    ∀ (opcode : Opcode) base others long rest,
      opcode.mode.operandKind ∈ [.indirect, .indirectIndexed] →
        opcode.accepts widths (.group (.immediate base :: others) long :: rest) =
          opcode.accepts widths (.group (base :: others) long :: rest) := by
  refine ⟨?_, ?_, ?_⟩
  · intro mnemonic operands opcode h hsign
    have hsuits := Opcode.suits_of_accepts (Opcode.accepts_of_select h)
    exact (hsuits.sign hsign).imp_left opcode.mode.takesSign_iff.mp
  · intro opcode base index hkind haccepts
    exact Opcode.accepts_signed_base hkind haccepts
  · intro opcode base others long rest hkind
    exact Opcode.accepts_signed_item hkind

/-- A comparison with an immediate value, and two loads with signs that are overlooked: in front of
an indexed base and in brackets. -/
theorem select_sign_compare :
    ∃ opcode indexed indirect : Opcode,
      Opcode.select "CPX" ⟨false, true⟩ [.immediate (.number (.ofHex 0x1234 2))] = .ok opcode ∧
      (∃ operand ∈ [Expr.immediate (.number (.ofHex 0x1234 2))], operand.ShowsSign) ∧
      opcode.mode ∈ [.immediate, .blockMove, .relative, .relativeLong] ∧
      indexed.mode.operandKind = .indexed ∧
      indexed.accepts ⟨false, true⟩ [.number (.ofInt 5), .name ⟨"x", false⟩] = true ∧
      indexed.accepts ⟨false, true⟩
        [.immediate (.number (.ofInt 5)), .name ⟨"x", false⟩] = true ∧
      indirect.mode.operandKind ∈ [.indirect, .indirectIndexed] ∧
      indirect.accepts ⟨false, true⟩ [.group [.immediate (.number (.ofInt 5))] false] = true := by
  have hselect : Opcode.select "CPX" ⟨false, true⟩ [.immediate (.number (.ofHex 0x1234 2))] =
    .ok ⟨"cpx", .immediate, 0xE0, .index⟩ := rfl
  have hsign : ∃ operand ∈ [Expr.immediate (.number (.ofHex 0x1234 2))], operand.ShowsSign :=
    ⟨_, List.mem_singleton_self _, .inl rfl⟩
  have hmode : AddressingMode.immediate ∈
      [AddressingMode.immediate, .blockMove, .relative, .relativeLong] := by
    obtain hmode | ⟨hkind, -⟩ | ⟨hkind, -⟩ := (select_sign _).1 _ _ _ hselect hsign
    · exact hmode
    · cases hkind
    · exact absurd hkind (by decide)
  have hindexed : Opcode.accepts ⟨"lda", .directPageX, 0xB5, .fixed⟩ ⟨false, true⟩
    [.number (.ofInt 5), .name ⟨"x", false⟩] = true := rfl
  have hindirect : AddressingMode.directPageIndirect.operandKind ∈
    [OperandKind.indirect, .indirectIndexed] := by decide
  exact ⟨_, ⟨"lda", .directPageX, 0xB5, .fixed⟩, ⟨"lda", .directPageIndirect, 0xB2, .fixed⟩,
    hselect, hsign, hmode, rfl, hindexed, (select_sign _).2.1 _ _ _ rfl hindexed, hindirect,
    ((select_sign _).2.2 _ _ _ _ _ hindirect).trans rfl⟩

/-- The sign in front of an indexed base is overlooked: `lda #5,x` is assembled as `lda 5,x`. -/
theorem sign_overlooked_by_index :
    ∃ (operands : List Expr) (opcode : Opcode) (main : SourceFile),
      Opcode.select "LDA" ⟨false, false⟩ operands = .ok opcode ∧
      (∃ operand ∈ operands, operand.ShowsSign) ∧
      opcode.mode ∉ [.immediate, .blockMove, .relative, .relativeLong] ∧
      main.text = " .segment \"c\",0x8000,9,0\n .c\n lda #5,x\n" ∧
      (assemble ⟨.ofTable [], []⟩ main false).toOption.any (fun assembly =>
        assembly.segments == [("c", ⟨0x8000, 9, 0, [⟨0x8000, [opcode.code, 5]⟩]⟩)]) = true := by
  refine ⟨[.immediate (.number (.ofInt 5)), .name ⟨"x", false⟩],
    ⟨"lda", .directPageX, 0xB5, .fixed⟩, ⟨"indexed.s", _⟩, rfl,
    ⟨_, List.mem_cons_self, .inl rfl⟩, by decide, rfl, ?_⟩
  decide +kernel

end Asm65816
