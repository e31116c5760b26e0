import Asm65816.Proofs.ChangedWalks
import Asm65816.Proofs.FewerReferences
import Asm65816.Proofs.ModeChoice
import Asm65816.Proofs.OperatorWidths
import Asm65816.Proofs.PassedOperands

/-!
# The current address in the place of a label

A `.` is bound to the current address while a program is laid out, as a number of two bytes in the
first bank, and a label is read when the bytes are emitted, within its bank. Where a label has the
current address the two select the same opcodes and leave the same bytes, unless the field has one
byte only.
-/

namespace Asm65816

/-- The operand that stands for the current address. -/
def Expr.dot : Expr := .name ⟨".", false⟩

/-- The same with the current address. -/
def Expr.dotAt (address : Int) : Expr := .bound ⟨".", false⟩ (.number (addressNumber address))

/-! ## Labels at the current address -/

/-- Whether a name means the current address, in the first bank: the labels of the layout `final`
give it that address at the cursor. -/
structure Layout.NamesHere (final : Layout) (cursor : Cursor) (ident : String) : Prop where
  free : isReserved ident = false
  selected : ∃ key, cursor.current = some key ∧
    final.selected? key ident cursor.address = some cursor.address
  low : 0 ≤ cursor.address
  high : cursor.address < 65536

/-- Prepared operands that are the same, or a label at the cursor and the current address where the
field takes a word. -/
inductive Layout.Dots (final : Layout) (cursor : Cursor) (word : Prop) : Expr → Expr → Prop where
  | same (e : Expr) : final.Dots cursor word e e
  | dot {ident : String} (field : word) (here : final.NamesHere cursor ident) :
      final.Dots cursor word (.name ⟨ident, false⟩) (.dotAt cursor.address)

/-- An address of the first bank needs at most two bytes. -/
theorem requiredBytes_le_two {address : Int} (hlow : 0 ≤ address) (hhigh : address < 65536) :
    requiredBytes address ≤ 2 := by
  refine requiredBytes_le (by decide) ⟨?_, ?_⟩ <;> simp only [fieldSpan] <;> omega

namespace Layout.NamesHere

variable {final : Layout} {cursor : Cursor} {ident : String}

/-- The current address states two bytes. -/
theorem width_eq (h : final.NamesHere cursor ident) : (addressNumber cursor.address).width = 2 :=
  Nat.max_eq_right (requiredBytes_le_two h.low h.high)

/-- What the labels give to the name is the current address. -/
theorem operandNumber_eq_ok (h : final.NamesHere cursor ident) (hkeys : final.keys.Nodup)
    {labels : List Resolution} (hlabels : final.resolveAll = .ok labels) {place : Layout}
    (hplace : place.cursor = cursor) {number : Number}
    (hvalue : operandNumber labels place (.name ⟨ident, false⟩) = .ok number) :
    number.value = cursor.address ∧ number.width ≤ 2 := by
  subst hplace
  obtain ⟨key, hcurrent, hselected⟩ := h.selected
  have hwithin : place.address % 65536 = place.address := Int.emod_eq_of_lt h.low h.high
  change place.current = some key at hcurrent
  rw [operandNumber, mapError_eq_ok, Expr.collapse, hcurrent, labelScope_eq] at hvalue
  cases hfound : labelAddress? labels key ident place.address with
  | none => simp [hfound] at hvalue
  | some target =>
    have htarget := selected?_of_labelAddress? hkeys hlabels hfound
    obtain rfl : place.address = target := Option.some.inj (hselected.symm.trans htarget)
    simp only [hfound, Option.map_some, Name.reading, Bool.false_eq_true, if_false, hwithin,
      Except.ok.injEq] at hvalue
    subst hvalue
    exact ⟨rfl, requiredBytes_le_two h.low h.high⟩

end Layout.NamesHere

/-! ## Opcodes -/

/-- Operands that look the same to the addressing modes. -/
structure Expr.LooksLike (e other : Expr) : Prop where
  named : ∀ word ∈ reservedNames, other.isName word = e.isName word
  group : other.groupItems? = e.groupItems?
  immediate : other.immediateOperand? = e.immediateOperand?
  guess : other.guessWidth = e.guessWidth

namespace Expr.LooksLike

variable {e other : Expr}

theorem refl (e : Expr) : e.LooksLike e := ⟨fun _ _ => rfl, rfl, rfl, rfl⟩

theorem fits (h : e.LooksLike other) (limit : Nat) : other.fits limit = e.fits limit := by
  rw [Expr.fits, Expr.fits, h.guess]

theorem isGroup (h : e.LooksLike other) : other.isGroup = e.isGroup := by
  have hview (e : Expr) : e.isGroup = e.groupItems?.isSome := by
    unfold Expr.isGroup groupItems?
    split <;> simp_all
  rw [hview, hview, h.group]

theorem isPlain (h : e.LooksLike other) : other.isPlain = e.isPlain := by
  have hview (e : Expr) : e.isImmediate = e.immediateOperand?.isSome := by
    unfold isImmediate immediateOperand?
    split <;> simp_all
  rw [Expr.isPlain, Expr.isPlain, h.isGroup, hview, hview, h.immediate]

end Expr.LooksLike

/-- A name that is not reserved is none of the reserved ones. -/
theorem isName_of_free {ident word : String} (hfree : isReserved ident = false) (long : Bool)
    (hword : word ∈ reservedNames) : (Expr.name ⟨ident, long⟩).isName word = false := by
  have hdiffers : sameLetters word ident = false :=
    Bool.eq_false_iff.mpr (List.any_eq_false.mp hfree word hword)
  unfold sameLetters at hdiffers
  change (ident.toList.map Char.toUpper == word.toList.map Char.toUpper) = false
  rw [BEq.comm, hdiffers]

/-- The current address looks like a label at the cursor. -/
theorem Layout.Dots.looksLike {final : Layout} {cursor : Cursor} {word : Prop} {e e' : Expr}
    (h : final.Dots cursor word e e') : e.LooksLike e' := by
  cases h with
  | same => exact .refl e
  | dot _ here =>
    refine ⟨fun word hword => ?_, rfl, rfl, ?_⟩
    · rw [isName_of_free here.free false hword]
      rfl
    · change some (addressNumber cursor.address).width = some 2
      rw [here.width_eq]

namespace Opcode

/-- A mode accepts operands for what they look like. -/
theorem accepts_looksLike {operands operands' : List Expr}
    (h : List.Forall₂ Expr.LooksLike operands operands') (opcode : Opcode)
    (widths : RegisterWidths) :
    opcode.accepts widths operands' = opcode.accepts widths operands := by
  unfold accepts
  generalize opcode.mode = mode
  cases h with
  | nil => rfl
  | @cons first first' rest rest' hfirst hrest =>
    cases hrest with
    | nil =>
      cases mode <;>
        simp only [acceptsIndirect, acceptsIndexedIndirect, hfirst.named "A" (by decide),
          hfirst.fits, hfirst.isPlain, hfirst.group, hfirst.immediate]
      case relativeLong =>
        cases first.immediateOperand? <;> simp [hfirst.fits]
    | @cons second second' rest rest' hsecond hrest =>
      cases hrest with
      | nil =>
        cases mode <;>
          simp only [acceptsIndexed, acceptsIndirect, acceptsIndexedIndirect, List.all_cons,
            hsecond.named "X" (by decide), hsecond.named "Y" (by decide),
            hsecond.named "S" (by decide), hfirst.fits, hfirst.isGroup, hfirst.group,
            hfirst.immediate, hsecond.immediate]
      | cons => cases mode <;> rfl

/-- Operands that look the same select the same opcode. -/
theorem select_looksLike {operands operands' : List Expr}
    (h : List.Forall₂ Expr.LooksLike operands operands') (mnemonic : String)
    (widths : RegisterWidths) :
    select mnemonic widths operands' = select mnemonic widths operands := by
  simp only [select, accepts_looksLike h]

end Opcode

/-! ## Bytes -/

/-- Whether a mode takes a distance, or a field of at least two bytes. -/
def AddressingMode.takesWord (mode : AddressingMode) : Bool :=
  mode == .relative || (mode != .blockMove && decide (3 ≤ mode.size))

theorem AddressingMode.three_le_size {mode : AddressingMode} (hword : mode.takesWord = true)
    (hholds : mode.holdsOperand = true) : 3 ≤ mode.size := by
  rw [takesWord, Bool.or_eq_true, beq_iff_eq, Bool.and_eq_true, decide_eq_true_iff] at hword
  rcases hword with rfl | ⟨-, hsize⟩
  · cases hholds
  · exact hsize

section Accepting

variable {opcode : Opcode} {widths : RegisterWidths} {ident : String}
  (hfree : isReserved ident = false)

include hfree

/-- A label is accepted by modes that take a word. -/
theorem takesWord_of_accepts {rest : List Expr}
    (h : opcode.accepts widths (.name ⟨ident, false⟩ :: rest) = true) :
    opcode.mode.takesWord = true := by
  have hregister : (Expr.name ⟨ident, false⟩).isName "A" = false :=
    isName_of_free hfree false (by decide)
  have hgroup : (Expr.name ⟨ident, false⟩).groupItems? = none := rfl
  have himmediate : (Expr.name ⟨ident, false⟩).immediateOperand? = none := rfl
  have hfits : (Expr.name ⟨ident, false⟩).fits 1 = false := rfl
  unfold Opcode.accepts at h
  generalize opcode.mode = mode at h
  rcases rest with _ | ⟨second, _ | ⟨third, others⟩⟩
  · cases mode <;> first | rfl | simp [Opcode.acceptsIndirect, Opcode.acceptsIndexedIndirect,
      hregister, hgroup, himmediate, hfits] at h
  · cases mode <;> first | rfl | simp [Opcode.acceptsIndexed, Opcode.acceptsIndirect,
      Opcode.acceptsIndexedIndirect, hgroup, himmediate, hfits] at h
  · cases mode <;> simp at h

/-- A label is no second operand. -/
theorem accepts_second (first : Expr) (rest : List Expr) :
    opcode.accepts widths (first :: .name ⟨ident, false⟩ :: rest) = false := by
  have hregister (word : String) (hword : word ∈ reservedNames) :
      (Expr.name ⟨ident, false⟩).isName word = false := isName_of_free hfree false hword
  have himmediate : (Expr.name ⟨ident, false⟩).immediateOperand? = none := rfl
  unfold Opcode.accepts
  generalize opcode.mode = mode
  cases rest with
  | nil =>
    cases mode <;> simp [Opcode.acceptsIndexed, hregister "X" (by decide),
      hregister "Y" (by decide), hregister "S" (by decide), himmediate]
  | cons => cases mode <;> rfl

end Accepting

/-- An instruction whose mode takes a word has the same bytes for numbers of the same value that
state at most two bytes. -/
theorem Encoding.bytes_of_word {encoding : Encoding} {operands : List Expr}
    (hmode : encoding.opcode.mode.takesWord = true) {value : Expr → Except Fault Number}
    (hvalue : ∀ number, encoding.operandValue value 0 = .ok number →
      ∃ number', { encoding with operands := operands }.operandValue value 0 = .ok number' ∧
        number'.value = number.value ∧ number.width ≤ 2 ∧ number'.width ≤ 2)
    {bytes : List UInt8} (h : encoding.bytes value = .ok bytes) :
    { encoding with operands := operands }.bytes value = .ok bytes := by
  obtain ⟨behind, hbehind, h⟩ := bind_eq_ok.mp h
  refine bind_eq_ok.mpr ⟨behind, ?_, h⟩
  rw [operandBytes_eq_ok] at hbehind ⊢
  cases hbehind with
  | nothing mode => exact .nothing mode
  | signature mode => exact .signature mode
  | banks mode =>
    rw [mode] at hmode
    cases hmode
  | @short number mode found reached =>
    obtain ⟨number', hnumber', hsame, -, -⟩ := hvalue number found
    have hwrites := @Writes.short { encoding with operands := operands } value number' mode hnumber'
    rw [hsame] at hwrites
    exact hwrites reached
  | @long number mode found reached =>
    obtain ⟨number', hnumber', hsame, -, -⟩ := hvalue number found
    have hwrites := @Writes.long { encoding with operands := operands } value number' mode hnumber'
    rw [hsame] at hwrites
    exact hwrites reached
  | @operand number mode found room =>
    obtain ⟨number', hnumber', hsame, -, hwidth⟩ := hvalue number found
    have hwrites :=
      @Writes.operand { encoding with operands := operands } value number' mode hnumber'
    rw [hsame] at hwrites
    refine hwrites ?_
    -- The rest of the instruction is a word or more, so that the other number has room as well.
    have hlength : 3 ≤ encoding.length :=
      Nat.le_add_right_of_le (AddressingMode.three_le_size hmode mode)
    change if encoding.length = 2 then number'.width = 1 else number'.width < encoding.length
    rw [if_neg (by omega)]
    omega

/-! ## Operations -/

/-- Operands as they are written: the same, or a label at the cursor and a `.`, where the field
takes a word and no macro parameter is named so. -/
inductive Layout.DotsWritten (final : Layout) (environment : Environment)
    (calls : List MacroCall) (cursor : Cursor) (word : Prop) : Expr → Expr → Prop where
  | same (e : Expr) : final.DotsWritten environment calls cursor word e e
  | dot {ident : String} (field : word) (here : final.NamesHere cursor ident)
      (unbound : prepareOperand environment calls cursor.address (.name ⟨ident, false⟩) =
        .ok (.name ⟨ident, false⟩))
      (unpassed : ∀ call ∈ calls.head?, "." ∉ call.parameters) :
      final.DotsWritten environment calls cursor word (.name ⟨ident, false⟩) .dot

/-- Operations that are the same, or differ in such operands. -/
inductive Layout.DotsOperation (final : Layout) (environment : Environment)
    (calls : List MacroCall) (cursor : Cursor) : Operation → Operation → Prop where
  | silent {operation : Operation} (silent : operation.refers = false) :
      final.DotsOperation environment calls cursor operation operation
  | instruction {mnemonic : String} {operands operands' : List Expr}
      (written : List.Forall₂ (final.DotsWritten environment calls cursor True) operands
        operands') :
      final.DotsOperation environment calls cursor (.instruction mnemonic operands)
        (.instruction mnemonic operands')
  | data {width : DataWidth} {operands operands' : List Expr}
      (written : List.Forall₂ (final.DotsWritten environment calls cursor (width ≠ .byte)) operands
        operands') :
      final.DotsOperation environment calls cursor (.data width operands) (.data width operands')
  | fill {wide : Bool} {count value value' : Expr}
      (written : final.DotsWritten environment calls cursor (wide = true) value value') :
      final.DotsOperation environment calls cursor (.fill wide count value)
        (.fill wide count value')

/-- Laid-out operations that are the same, or differ in operands that are a label at the cursor and
the current address. -/
inductive Layout.DotsPlaced (final : Layout) (cursor : Cursor) :
    PlacedOperation → PlacedOperation → Prop where
  | same (placed : PlacedOperation) : final.DotsPlaced cursor placed placed
  | instruction {encoding : Encoding} {operands : List Expr} {widths : RegisterWidths}
      (accepted : encoding.opcode.accepts widths encoding.operands = true)
      (alike : List.Forall₂ (final.Dots cursor True) encoding.operands operands) :
      final.DotsPlaced cursor (.instruction encoding)
        (.instruction { encoding with operands := operands })
  | data {width : DataWidth} {operands operands' : List Expr}
      (alike : List.Forall₂ (final.Dots cursor (width ≠ .byte)) operands operands') :
      final.DotsPlaced cursor (.data width operands) (.data width operands')
  | fill {wide : Bool} {count : Nat} {value value' : Expr}
      (alike : final.Dots cursor (wide = true) value value') :
      final.DotsPlaced cursor (.fill wide count value) (.fill wide count value')

section Placing

variable {final layout other next : Layout} {environment : Environment} {calls : List MacroCall}
  {location : Location} {word : Prop}

/-- A `.` is bound to the current address. -/
theorem prepareOperand_dot (h : ∀ call ∈ calls.head?, "." ∉ call.parameters) (address : Int) :
    prepareOperand environment calls address .dot = .ok (.dotAt address) := by
  have hargued : bindArguments calls .dot = .ok .dot := by
    cases calls with
    | nil => rfl
    | cons call outer =>
      have hnone : call.argument "." = .ok none := MacroCall.argument_of_free rfl (h call rfl)
      rw [bindArguments, Expr.dot, Expr.bindNames, hnone]
      rfl
  rw [prepareOperand, hargued]
  rfl

/-- Written operands are prepared alike. -/
theorem Layout.DotsWritten.prepareOperand {cursor : Cursor} {operand operand' bound : Expr}
    (h : final.DotsWritten environment calls cursor word operand operand')
    (hbound : prepareOperand environment calls cursor.address operand = .ok bound) :
    ∃ bound', Asm65816.prepareOperand environment calls cursor.address operand' = .ok bound' ∧
      final.Dots cursor word bound bound' := by
  cases h with
  | same => exact ⟨bound, hbound, .same bound⟩
  | dot field here unbound unpassed =>
    obtain rfl := Except.ok.inj (unbound.symm.trans hbound)
    exact ⟨_, prepareOperand_dot unpassed cursor.address, .dot field here⟩

/-- The current address refers to no label. -/
theorem Layout.Dots.openIdents_subset {cursor : Cursor} {e e' : Expr}
    (h : final.Dots cursor word e e') : e'.openIdents ⊆ e.openIdents := by
  cases h with
  | same => exact List.Subset.refl _
  | dot =>
    intro ident hident
    obtain ⟨name, hname, -⟩ := Expr.mem_openIdents.mp hident
    cases hname

theorem resolveOperand_dots (hlayout : layout.Sheds other) {operand operand' bound : Expr}
    (h : final.DotsWritten environment calls layout.cursor word operand operand')
    (hresolved : resolveOperand environment calls location layout operand = .ok (bound, next)) :
    ∃ bound' next',
      resolveOperand environment calls location other operand' = .ok (bound', next') ∧
        final.Dots layout.cursor word bound bound' ∧ next.Sheds next' := by
  rw [resolveOperand_eq] at hresolved
  obtain ⟨found, hfound, hresolved⟩ := bind_eq_ok.mp hresolved
  obtain ⟨reached, hreached, hresolved⟩ := bind_eq_ok.mp hresolved
  obtain ⟨rfl, rfl⟩ := Prod.mk.inj (Except.ok.inj hresolved)
  obtain ⟨bound', hbound', hdots⟩ := h.prepareOperand hfound
  obtain ⟨next', hnext', hsheds⟩ := hlayout.refer hdots.openIdents_subset hreached
  refine ⟨bound', next', ?_, hdots, hsheds⟩
  rw [resolveOperand_eq, hlayout.address]
  exact bind_eq_ok.mpr ⟨bound', hbound', bind_eq_ok.mpr ⟨next', hnext', rfl⟩⟩

theorem resolveOperands_dots (hlayout : layout.Sheds other) {operands operands' bound : List Expr}
    (h : List.Forall₂ (final.DotsWritten environment calls layout.cursor word) operands operands')
    (hresolved : resolveOperands environment calls location operands layout = .ok (bound, next)) :
    ∃ bound' next',
      resolveOperands environment calls location operands' other = .ok (bound', next') ∧
        List.Forall₂ (final.Dots layout.cursor word) bound bound' ∧ next.Sheds next' := by
  generalize hcursor : layout.cursor = cursor at h ⊢
  induction h generalizing layout other bound with
  | nil =>
    cases hresolved
    exact ⟨[], other, rfl, .nil, hlayout⟩
  | cons hfirst _ ih =>
    subst hcursor
    simp only [resolveOperands, bind_eq_ok, pure_eq_ok] at hresolved ⊢
    obtain ⟨⟨first, mid⟩, hresolved, ⟨others, reached⟩, hothers, hresult⟩ := hresolved
    cases hresult
    obtain ⟨first', mid', hfirst', hdots, hmid⟩ := resolveOperand_dots hlayout hfirst hresolved
    obtain ⟨others', next', hothers', hrest, hnext⟩ :=
      ih hmid hothers (resolveOperand_alike hresolved).1.cursor
    exact ⟨first' :: others', next', ⟨(first', mid'), hfirst', (others', next'), hothers', rfl⟩,
      .cons hdots hrest, hnext⟩

theorem placeData_dots {width : DataWidth} (hlayout : layout.Sheds other)
    {operands operands' bound : List Expr} {size : Nat}
    (h : List.Forall₂ (final.DotsWritten environment calls layout.cursor word) operands operands')
    (hplaced : placeData environment calls location width operands layout =
      .ok (bound, size, next)) :
    ∃ bound' next',
      placeData environment calls location width operands' other = .ok (bound', size, next') ∧
        List.Forall₂ (final.Dots layout.cursor word) bound bound' ∧ next.Sheds next' := by
  generalize hcursor : layout.cursor = cursor at h ⊢
  induction h generalizing layout other bound size with
  | nil =>
    cases hplaced
    exact ⟨[], other, rfl, .nil, hlayout⟩
  | @cons operand operand' rest rest' hfirst _ ih =>
    subst hcursor
    simp only [placeData, bind_eq_ok, pure_eq_ok] at hplaced ⊢
    obtain ⟨⟨first, count, mid⟩, hdatum, ⟨others, more, reached⟩, hothers, hresult⟩ := hplaced
    cases hresult
    have hmid : mid.cursor = layout.cursor := (placeDatum_refersTo hdatum).2.2
    obtain ⟨first', mid', hdatum', hdots, hsheds⟩ : ∃ first' mid',
        placeDatum environment calls location width other operand' = .ok (first', count, mid') ∧
          final.Dots layout.cursor word first first' ∧ mid.Sheds mid' := by
      cases htext : operand.isText with
      | true =>
        -- A text is no label, so that it is written as it was, and it leaves the layout alone.
        obtain rfl : operand = operand' := by
          cases hfirst with
          | same => rfl
          | dot => cases htext
        cases operand with
        | text content petscii =>
          obtain ⟨hbyte, hdatum⟩ := demand_eq_ok.mp hdatum
          cases hdatum
          exact ⟨_, other, demand_eq_ok.mpr ⟨hbyte, rfl⟩, .same _, hlayout⟩
        | _ => cases htext
      | false =>
        have htext' : operand'.isText = false := by
          cases hfirst with
          | same => exact htext
          | dot => rfl
        rw [placeDatum_of_isText htext] at hdatum
        obtain ⟨⟨resolved, found⟩, hresolved, hdatum⟩ := bind_eq_ok.mp hdatum
        cases hdatum
        obtain ⟨bound', next', hresolved', hdots, hsheds⟩ :=
          resolveOperand_dots hlayout hfirst hresolved
        refine ⟨bound', next', ?_, hdots, hsheds⟩
        rw [placeDatum_of_isText htext']
        exact bind_eq_ok.mpr ⟨_, hresolved', rfl⟩
    obtain ⟨others', next', hothers', hrest, hnext⟩ := ih hsheds hothers hmid
    exact ⟨first' :: others', next', ⟨(first', count, mid'), hdatum', (others', more, next'),
      hothers', rfl⟩, .cons hdots hrest, hnext⟩

/-- Operations that differ in such operands are laid out alike. -/
theorem Layout.DotsOperation.placeOperation (hlayout : layout.Sheds other)
    {operation operation' : Operation}
    (h : final.DotsOperation environment calls layout.cursor operation operation')
    {placed : PlacedOperation} {size : Nat}
    (hplaced : placeOperation environment calls location layout operation =
      .ok (placed, size, next)) :
    ∃ placed' next',
      Asm65816.placeOperation environment calls location other operation' =
          .ok (placed', size, next') ∧
        final.DotsPlaced layout.cursor placed placed' ∧ next.Sheds next' := by
  cases h with
  | silent silent =>
    obtain ⟨next', hplaced', hnext⟩ := hlayout.placeOperation silent hplaced
    exact ⟨placed, next', hplaced', .same placed, hnext⟩
  | @instruction mnemonic operands operands' written =>
    simp only [Asm65816.placeOperation, refuse_eq_ok, bind_eq_ok, pure_eq_ok,
      Prod.mk.injEq] at hplaced ⊢
    obtain ⟨hmnemonic, ⟨bound, resolved⟩, hresolved, opcode, hopcode, rfl, rfl, rfl⟩ := hplaced
    obtain ⟨bound', resolved', hresolved', hdots, hsheds⟩ :=
      resolveOperands_dots hlayout written hresolved
    have hlooks : List.Forall₂ Expr.LooksLike bound bound' := hdots.imp fun _ _ h => h.looksLike
    have hopcode' : Opcode.select mnemonic resolved'.widths bound' = .ok opcode := by
      rw [hsheds.widths, Opcode.select_looksLike hlooks]
      exact hopcode
    have haccepts := List.find?_some (Opcode.select_eq_ok.mp hopcode)
    refine ⟨_, resolved', ⟨hmnemonic, (bound', resolved'), hresolved', opcode, hopcode', rfl, ?_,
      rfl⟩, ?_, hsheds⟩
    · rw [hsheds.widths]
    · rw [hsheds.widths, hsheds.address]
      exact .instruction haccepts hdots
  | data written =>
    obtain ⟨⟨bound, count, resolved⟩, hresolved, hplaced⟩ := bind_eq_ok.mp hplaced
    cases hplaced
    obtain ⟨bound', next', hresolved', hdots, hsheds⟩ := placeData_dots hlayout written hresolved
    exact ⟨_, next', bind_eq_ok.mpr ⟨_, hresolved', rfl⟩, .data hdots, hsheds⟩
  | @fill wide count value value' written =>
    obtain ⟨⟨boundCount, mid⟩, hcount, hplaced⟩ := bind_eq_ok.mp hplaced
    obtain ⟨⟨boundValue, resolved⟩, hvalue, hplaced⟩ := bind_eq_ok.mp hplaced
    obtain ⟨number, hnumber, hplaced⟩ := bind_eq_ok.mp hplaced
    cases hplaced
    have hunchanged : final.DotsWritten environment calls layout.cursor False count count :=
      .same count
    obtain ⟨boundCount', mid', hcount', hdots, hmid⟩ :=
      resolveOperand_dots hlayout hunchanged hcount
    obtain rfl : boundCount' = boundCount := by
      cases hdots with
      | same => rfl
      | dot field => exact field.elim
    have hcursor : mid.cursor = layout.cursor := (resolveOperand_alike hcount).1.cursor
    rw [← hcursor] at written ⊢
    obtain ⟨boundValue', next', hvalue', hdots', hnext⟩ := resolveOperand_dots hmid written hvalue
    exact ⟨_, next', bind_eq_ok.mpr ⟨_, hcount', bind_eq_ok.mpr ⟨_, hvalue',
      bind_eq_ok.mpr ⟨number, hnumber, rfl⟩⟩⟩, .fill hdots', hnext⟩

end Placing

/-! ## Bytes of operations -/

/-- Among operands that are accepted only the first one can be a label at the cursor. -/
theorem Layout.dots_of_accepts {final : Layout} {cursor : Cursor} {word : Prop} {opcode : Opcode}
    {widths : RegisterWidths} {operands operands' : List Expr}
    (haccepts : opcode.accepts widths operands = true)
    (h : List.Forall₂ (final.Dots cursor word) operands operands') :
    operands' = operands ∨ ∃ ident rest, final.NamesHere cursor ident ∧
      operands = .name ⟨ident, false⟩ :: rest ∧ operands' = .dotAt cursor.address :: rest := by
  cases h with
  | nil => exact .inl rfl
  | @cons first first' rest rest' hfirst hrest =>
    obtain rfl : rest = rest' := by
      cases hrest with
      | nil => rfl
      | @cons second second' others others' hsecond hothers =>
        cases hothers with
        | nil =>
          cases hsecond with
          | same => rfl
          | dot _ here =>
            rw [accepts_second here.free] at haccepts
            cases haccepts
        | cons =>
          have hsuits := Opcode.suits_of_accepts haccepts
          generalize opcode.mode.operandKind = kind at hsuits
          cases hsuits
    cases hfirst with
    | same => exact .inl rfl
    | dot _ here => exact .inr ⟨_, rest, here, rfl, rfl⟩

section Emitting

variable {final place : Layout} (hkeys : final.keys.Nodup) {labels : List Resolution}
  (hlabels : final.resolveAll = .ok labels)

include hkeys hlabels

theorem Layout.Dots.datumCode {width : DataWidth} {e e' : Expr}
    (h : final.Dots place.cursor (width ≠ .byte) e e') {address : Int} {code : Code}
    (hcode : datumCode width (Asm65816.operandNumber labels place) address e = .ok code) :
    datumCode width (Asm65816.operandNumber labels place) address e' = .ok code := by
  cases h with
  | same => exact hcode
  | dot field here =>
    obtain ⟨number, hnumber, hcode⟩ := bind_eq_ok.mp hcode
    obtain ⟨hvalue, hwidth⟩ := here.operandNumber_eq_ok hkeys hlabels rfl hnumber
    have hbytes : 2 ≤ width.bytes := by
      cases width with
      | byte => exact absurd rfl field
      | word | long => decide
    have hwidth' := here.width_eq
    have hsame : (addressNumber place.cursor.address).value = number.value := hvalue.symm
    rw [if_neg (by omega)] at hcode
    refine bind_eq_ok.mpr ⟨addressNumber place.cursor.address, rfl, ?_⟩
    rw [if_neg (by omega), hsame]
    exact hcode

theorem Layout.Dots.fillCode {wide : Bool} {e e' : Expr}
    (h : final.Dots place.cursor (wide = true) e e') {count : Nat} {address : Int}
    {number : Number} {code : Code}
    (hnumber : Asm65816.operandNumber labels place e = .ok number)
    (hcode : fillCode wide count number address = .ok code) :
    ∃ number', Asm65816.operandNumber labels place e' = .ok number' ∧
      Asm65816.fillCode wide count number' address = .ok code := by
  cases h with
  | same => exact ⟨number, hnumber, hcode⟩
  | dot field here =>
    subst field
    obtain ⟨hvalue, hwidth⟩ := here.operandNumber_eq_ok hkeys hlabels rfl hnumber
    have hwidth' := here.width_eq
    have hsame : (addressNumber place.cursor.address).value = number.value := hvalue.symm
    refine ⟨addressNumber place.cursor.address, rfl, ?_⟩
    unfold Asm65816.fillCode at hcode ⊢
    rw [if_neg (by omega), if_neg (by simp)] at hcode
    rw [if_neg (by omega), if_neg (by simp), hsame]
    exact hcode

theorem Layout.dots_bytes {encoding : Encoding} {operands : List Expr} {widths : RegisterWidths}
    (haccepts : encoding.opcode.accepts widths encoding.operands = true)
    (h : List.Forall₂ (final.Dots place.cursor True) encoding.operands operands)
    {bytes : List UInt8} (hbytes : encoding.bytes (operandNumber labels place) = .ok bytes) :
    { encoding with operands := operands }.bytes (operandNumber labels place) = .ok bytes := by
  rcases Layout.dots_of_accepts haccepts h with rfl | ⟨ident, rest, here, hoperands, rfl⟩
  · exact hbytes
  · rw [hoperands] at haccepts
    refine Encoding.bytes_of_word (takesWord_of_accepts here.free haccepts)
      (fun number hnumber => ?_) hbytes
    rw [Encoding.operandValue, hoperands] at hnumber
    obtain ⟨hvalue, hwidth⟩ := here.operandNumber_eq_ok hkeys hlabels rfl hnumber
    exact ⟨addressNumber place.cursor.address, rfl, hvalue.symm, hwidth, here.width_eq.le⟩

/-- Operations that differ in such operands are emitted alike. -/
theorem Layout.DotsPlaced.emitOperation {placed placed' : PlacedOperation}
    (h : final.DotsPlaced place.cursor placed placed') {emitted : Emitted}
    (hemits : emitOperation labels place placed = .ok emitted) :
    Asm65816.emitOperation labels place placed' = .ok emitted := by
  cases h with
  | same => exact hemits
  | instruction accepted alike =>
    obtain ⟨bytes, hbytes, hemits⟩ := bind_eq_ok.mp hemits
    exact bind_eq_ok.mpr ⟨bytes, Layout.dots_bytes hkeys hlabels accepted alike hbytes, hemits⟩
  | data alike =>
    obtain ⟨code, hcode, hemits⟩ := bind_eq_ok.mp hemits
    refine bind_eq_ok.mpr ⟨code, dataCode_of_forall₂ ?_ hcode, hemits⟩
    exact alike.imp fun _ _ hdots _ _ => hdots.datumCode hkeys hlabels
  | fill alike =>
    obtain ⟨number, hnumber, hemits⟩ := bind_eq_ok.mp hemits
    obtain ⟨code, hcode, hemits⟩ := bind_eq_ok.mp hemits
    obtain ⟨number', hnumber', hcode'⟩ := alike.fillCode hkeys hlabels hnumber hcode
    exact bind_eq_ok.mpr ⟨number', hnumber', bind_eq_ok.mpr ⟨code, hcode', hemits⟩⟩

end Emitting

/-- Where an operation is laid out from layouts that refer to fewer labels, with labels at the
cursor replaced by the current address, it is emitted alike. -/
theorem Layout.DotsOperation.laysOutAlike {final : Layout} (hkeys : final.keys.Nodup)
    {change : OperationChange} {environment other : Environment}
    (hnames : environment.SameNames other) {found : Layout} {calls : List MacroCall}
    {operation : Operation} {location : Location}
    (h : final.DotsOperation environment calls found.cursor operation (change location operation))
    (hfile : ∀ path, operation = .includeBinary path → environment.SameFile other path) :
    LaysOutAlike change environment other Layout.Sheds final.EmitsLike found calls operation
      location := by
  intro found' event next hfound hstep
  simp only [Task.advance, bind_eq_ok, pure_eq_ok, failingAt_eq_ok] at hstep
  obtain ⟨⟨placed, size, mid⟩, hplaced, reached, hreached, hstep⟩ := hstep
  cases hstep
  obtain ⟨placed', mid', hplaced', hdots, hmid⟩ := h.placeOperation hfound hplaced
  obtain ⟨next', hnext', hsheds⟩ := hmid.occupy hreached
  refine ⟨.operation placed' size location, next', ?_, ?_, hsheds⟩
  · have hfile' (path : String) (hpath : change location operation = .includeBinary path) :
        environment.SameFile other path := by
      refine hfile path ?_
      generalize change location operation = operation' at h hpath
      subst hpath
      cases h
      rfl
    simp only [Task.advance, bind_eq_ok, pure_eq_ok, failingAt_eq_ok]
    rw [hnames.placeOperation_eq calls location found' _ hfile']
    exact ⟨_, hplaced', next', hnext', rfl⟩
  · intro labels emission last hlabels hcursor htaken
    obtain ⟨emitted, hemits, hrest⟩ := operation_eq_ok.mp (failingAt_eq_ok.mp htaken)
    rw [← hcursor] at hdots
    exact failingAt_eq_ok.mpr
      (operation_eq_ok.mpr ⟨emitted, hdots.emitOperation hkeys hlabels hemits, hrest⟩)

end Asm65816
