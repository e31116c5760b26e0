import Asm65816.Proofs.ByteFields
import Asm65816.Proofs.OpenNames

/-!
# Stated widths

A number is sound when the width it states holds its value, as an unsigned number or in two's
complement. Every binary operator judges the width by the result and gives sound numbers, whatever
it is applied to. The negative sign and the complement take the width of their operand over, and
may leave it: the sign with a number above half of the unsigned range, the complement with a
negative one. So an expression whose literals are sound has a sound value unless it is such a sign
or complement, or an equate that was given one.
-/

namespace Asm65816

/-- A value that a field of `count` bytes holds, unsigned or in two's complement. -/
def InField (value : Int) (count : Nat) : Prop :=
  -fieldSpan count ≤ 2 * value ∧ value < fieldSpan count

instance (value : Int) (count : Nat) : Decidable (InField value count) :=
  inferInstanceAs (Decidable (_ ∧ _))

/-- A longer field tells at least as many values apart. -/
theorem fieldSpan_mono {count more : Nat} (h : count ≤ more) :
    fieldSpan count ≤ fieldSpan more := by
  induction h with
  | refl => exact Int.le_refl _
  | @step more _ ih =>
    have hpos := fieldSpan_pos more
    rw [fieldSpan]
    omega

namespace InField

variable {value : Int} {count more : Nat}

/-- A longer field holds at least as much. -/
theorem mono (h : InField value count) (hle : count ≤ more) : InField value more := by
  have hspan := fieldSpan_mono hle
  obtain ⟨hlow, hhigh⟩ := h
  exact ⟨by omega, by omega⟩

/-- The unsigned range of a field. -/
theorem of_unsigned (hlow : 0 ≤ value) (hhigh : value < fieldSpan count) : InField value count := by
  have hspan := fieldSpan_pos count
  exact ⟨by omega, hhigh⟩

/-- A value in a field is determined by its bytes and its sign. -/
theorem readBack (h : InField value count) :
    (0 ≤ value → (Encoding.unsignedField (littleEndian value count) : Int) = value) ∧
      (value < 0 → Encoding.signedField (littleEndian value count) = value) := by
  have hspan := fieldSpan_pos count
  obtain ⟨hlow, hhigh⟩ := h
  constructor
  · intro hvalue
    exact unsignedField_littleEndian_of_range hvalue hhigh
  · intro hvalue
    exact signedField_littleEndian hlow (by omega)

end InField

/-- A field of the fewest bytes that hold a value holds it. Eight bytes stand for all longer
ones. -/
theorem inField_requiredBytes {value : Int} (h : requiredBytes value < 8) :
    InField value (requiredBytes value) := by
  unfold requiredBytes at h ⊢
  dsimp only at h ⊢
  generalize hfound : List.find? _ _ = found at h ⊢
  cases found with
  | none =>
    rw [Option.getD_none] at h
    omega
  | some count =>
    have hholds := List.find?_some hfound
    have hspan := fieldSpan_pos count
    rw [Option.getD_some]
    split at hholds
    case isTrue hvalue => exact .of_unsigned hvalue (of_decide_eq_true hholds)
    case isFalse hvalue => exact ⟨of_decide_eq_true hholds, by omega⟩

/-- A value that is a 64-bit signed word. -/
def IsWord (value : Int) : Prop := minWord ≤ value ∧ value ≤ maxWord

instance (value : Int) : Decidable (IsWord value) := inferInstanceAs (Decidable (_ ∧ _))

namespace Number

/-- The complement within less than eight bytes traps where it is no word. -/
theorem complement_of_short {n : Number} (hwidth : n.width < 8) :
    n.complement = if IsWord (fieldSpan n.width - 1 - n.value) then
      .ok (fieldSpan n.width - 1 - n.value) else .error .trap :=
  if_neg (by omega)

theorem complement_eq_ok_of_short {n : Number} {value : Int} (hwidth : n.width < 8)
    (h : n.complement = .ok value) :
    IsWord (fieldSpan n.width - 1 - n.value) ∧ value = fieldSpan n.width - 1 - n.value := by
  rw [complement_of_short hwidth] at h
  obtain ⟨hword, hvalue⟩ := demand_eq_ok.mp h
  exact ⟨hword, (Except.ok.inj hvalue).symm⟩

theorem complement_of_long {n : Number} (hwidth : ¬n.width < 8) :
    n.complement = .ok (-n.value - 1) :=
  if_pos (Nat.le_of_not_lt hwidth)

/-- A number whose stated width holds its value. From eight bytes on it holds every word. -/
def Sound (n : Number) : Prop := n.width < 8 → InField n.value n.width

instance (n : Number) : Decidable n.Sound := inferInstanceAs (Decidable (_ → _))

/-- A number that states at least the bytes it needs. -/
theorem sound_of_requiredBytes {n : Number} (h : requiredBytes n.value ≤ n.width) : n.Sound :=
  fun hwidth => (inField_requiredBytes (by omega)).mono h

/-- A number as wide as its value needs. -/
theorem sound_ofInt (value : Int) : (ofInt value).Sound :=
  sound_of_requiredBytes (Nat.le_refl _)

/-- A value that fits one byte. -/
theorem sound_of_byte {n : Number} (hwidth : n.width = 1) (hlow : 0 ≤ n.value)
    (hhigh : n.value < 256) : n.Sound := by
  intro _
  rw [hwidth]
  exact .of_unsigned hlow hhigh

end Number

/-- The current address states the bytes it needs. -/
theorem addressNumber_sound (address : Int) : (addressNumber address).Sound :=
  Number.sound_of_requiredBytes (Nat.le_max_left _ _)

/-! ## Operators -/

/-- A truth value fits one byte. -/
theorem truthWord_range (b : Bool) : 0 ≤ truthWord b ∧ truthWord b < 256 := by
  cases b with
  | true => decide
  | false => decide

namespace UnaryOp

/-- The prefix operators that change a value and keep its width. -/
def keepsWidth : UnaryOp → Bool
  | negate | complement => true
  | _ => false

/-- Every other prefix operator that changes its operand gives a sound number. -/
theorem apply_sound {op : UnaryOp} {n result : Number} (hop : op.keepsWidth = false)
    (hplus : op ≠ plus) (h : op.apply n = .ok result) : result.Sound := by
  cases op with
  | negate | complement => cases hop
  | plus => exact absurd rfl hplus
  | lowByte =>
    cases h
    exact Number.sound_of_byte rfl (by dsimp only; omega) (by dsimp only; omega)
  | highByte =>
    cases h
    exact Number.sound_of_byte rfl (by dsimp only; omega) (by dsimp only; omega)
  | logicalNot =>
    cases h
    exact Number.sound_of_byte rfl (truthWord_range _).1 (truthWord_range _).2

/-- The opposite of a sound number is sound as long as it is not below the two's complement
range. -/
theorem negate_sound_iff {n result : Number} (hn : n.Sound) (hwidth : n.width < 8)
    (h : negate.apply n = .ok result) : result.Sound ↔ 2 * n.value ≤ fieldSpan n.width := by
  obtain ⟨value, hvalue, hresult⟩ := bind_eq_ok.mp h
  obtain ⟨-, hvalue⟩ := demand_eq_ok.mp hvalue
  cases hvalue
  cases hresult
  have hspan := fieldSpan_pos n.width
  obtain ⟨hlow, hhigh⟩ := hn hwidth
  constructor
  · intro hsound
    obtain ⟨hbelow, -⟩ := hsound hwidth
    dsimp only at hbelow
    omega
  · intro hvalue _
    exact ⟨by dsimp only; omega, by dsimp only; omega⟩

/-- The complement of a sound number is sound as long as the number is not negative. -/
theorem complement_sound_iff {n result : Number} (hn : n.Sound) (hwidth : n.width < 8)
    (h : complement.apply n = .ok result) : result.Sound ↔ 0 ≤ n.value := by
  obtain ⟨value, hvalue, hresult⟩ := bind_eq_ok.mp h
  obtain ⟨-, rfl⟩ := Number.complement_eq_ok_of_short hwidth hvalue
  cases hresult
  have hspan := fieldSpan_pos n.width
  obtain ⟨hlow, hhigh⟩ := hn hwidth
  constructor
  · intro hsound
    obtain ⟨-, habove⟩ := hsound hwidth
    dsimp only at habove
    omega
  · intro hvalue _
    exact .of_unsigned (by dsimp only; omega) (by dsimp only; omega)

end UnaryOp

namespace BinaryOp

/-- The value of a comparison or a logical operator is a truth value. -/
theorem applyValue_truth {op : BinaryOp} {a b : Number} {value : Int} (hop : op.isBoolean = true)
    (h : op.applyValue a b = .ok value) : ∃ truth, value = truthWord truth := by
  cases op with
  | equal | notEqual | less | greater | lessEqual | greaterEqual | logicalAnd | logicalOr =>
    exact ⟨_, (Except.ok.inj h).symm⟩
  | _ => cases hop

/-- Every binary operator gives a sound number, whatever it is applied to. -/
theorem apply_sound {op : BinaryOp} {a b result : Number} (h : op.apply a b = .ok result) :
    result.Sound := by
  obtain ⟨value, hvalue, hresult⟩ := bind_eq_ok.mp h
  cases hresult
  by_cases hboolean : op.isBoolean = true
  · obtain ⟨truth, rfl⟩ := applyValue_truth hboolean hvalue
    refine Number.sound_of_byte ?_ (truthWord_range _).1 (truthWord_range _).2
    exact if_pos hboolean
  · apply Number.sound_of_requiredBytes
    dsimp only [resultWidth]
    rw [if_neg hboolean]
    split
    · exact Nat.le_refl _
    · exact Nat.le_max_left _ _

end BinaryOp

/-! ## Expressions -/

namespace Expr

mutual

/-- An expression whose numbers are sound, but for those that are the numbers of equates. -/
def SoundLiterals (equates : Table Number) : Expr → Prop
  | .number n => n.Sound
  | .name _ => True
  | .bound given value =>
    (∃ n, value = .number n ∧ equates.get? given.ident = some n) ∨ value.SoundLiterals equates
  | .unary _ e => e.SoundLiterals equates
  | .binary _ l r => l.SoundLiterals equates ∧ r.SoundLiterals equates
  | .group items _ => SoundLiteralsAll equates items
  | .text _ _ => True
  | .immediate e => e.SoundLiterals equates

/-- Items of a group with sound literals. -/
def SoundLiteralsAll (equates : Table Number) : List Expr → Prop
  | [] => True
  | e :: rest => e.SoundLiterals equates ∧ SoundLiteralsAll equates rest

end

/-- An expression whose width is taken over and not judged by its value: a negative sign, a
complement or an equate with such a number, up to brackets and positive signs. -/
inductive TakesWidth (equates : Table Number) : Expr → Prop where
  | sign {op : UnaryOp} (keeps : op.keepsWidth = true) (operand : Expr) :
      TakesWidth equates (.unary op operand)
  | equate {name : Name} {n : Number} (known : equates.get? name.ident = some n)
      (unsound : ¬n.Sound) : TakesWidth equates (.bound name (.number n))
  | bound {value : Expr} (name : Name) (takes : TakesWidth equates value) :
      TakesWidth equates (.bound name value)
  | plus {operand : Expr} (takes : TakesWidth equates operand) :
      TakesWidth equates (.unary .plus operand)
  | group {single : Expr} (long : Bool) (takes : TakesWidth equates single) :
      TakesWidth equates (.group [single] long)
  | immediate {operand : Expr} (takes : TakesWidth equates operand) :
      TakesWidth equates (.immediate operand)

variable {equates : Table Number}

/-- The literals of a group are those of its items. -/
theorem soundLiteralsAll_iff {items : List Expr} :
    SoundLiteralsAll equates items ↔ ∀ item ∈ items, item.SoundLiterals equates := by
  induction items with
  | nil => simp [SoundLiteralsAll]
  | cons e rest ih => simp [SoundLiteralsAll, ih]

/-- The part of an operand that carries its value has no further literals. -/
theorem SoundLiterals.valuePart {e : Expr} (h : e.SoundLiterals equates) :
    e.valuePart.SoundLiterals equates := by
  induction e using Expr.inductionOn with
  | immediate operand ih => exact ih h
  | group items long ih =>
    cases items with
    | nil => exact h
    | cons first rest => exact h.1
  | bound name value ih =>
    rw [Expr.valuePart]
    split
    case isTrue => exact h
    case isFalse hplain =>
      rcases h with ⟨n, rfl, -⟩ | hvalue
      · exact absurd rfl hplain
      · exact ih hvalue
  | _ => exact h

/-- The value of an expression is sound when its literals and labels are, unless the expression
takes its width over. -/
theorem collapse_sound {scope : Scope} {e : Expr} {n : Number}
    (hscope : ∀ name found, scope name = some found → found.Sound)
    (hliterals : e.SoundLiterals equates) (h : e.collapse scope = .ok n) :
    n.Sound ∨ e.TakesWidth equates := by
  induction e using Expr.inductionOn generalizing n with
  | number value =>
    cases h
    exact .inl hliterals
  | name name =>
    rw [collapse] at h
    split at h
    case h_1 value hvalue =>
      cases h
      exact .inl (hscope name n hvalue)
    case h_2 => cases h
  | bound name value ih =>
    rcases hliterals with ⟨found, rfl, hknown⟩ | hvalue
    · cases h
      exact (Decidable.em n.Sound).imp id fun hunsound => .equate hknown hunsound
    · exact (ih hvalue h).imp id fun htakes => .bound name htakes
  | unary op operand ih =>
    by_cases hkeeps : op.keepsWidth = true
    · exact .inr (.sign hkeeps operand)
    · rw [collapse_unary, bind_eq_ok] at h
      obtain ⟨value, hvalue, happly⟩ := h
      -- Only the positive sign hands the number on that it is applied to.
      by_cases hplus : op = .plus
      · subst hplus
        cases happly
        exact (ih hliterals hvalue).imp id fun htakes => .plus htakes
      · exact .inl (UnaryOp.apply_sound (Bool.eq_false_iff.mpr hkeeps) hplus happly)
  | binary op left right ihl ihr =>
    simp only [collapse_binary, bind_eq_ok] at h
    obtain ⟨a, -, b, -, happly⟩ := h
    exact .inl (BinaryOp.apply_sound happly)
  | group items long ih =>
    obtain ⟨single, rfl, hsingle⟩ := collapse_group_eq_ok.mp h
    exact (ih single List.mem_cons_self hliterals.1 hsingle).imp id fun htakes =>
      .group long htakes
  | text content petscii => cases h
  | immediate operand ih => exact (ih hliterals h).imp id fun htakes => .immediate htakes

/-- A value that needs no labels is the value in every scope. -/
theorem collapse_of_closedValue {e : Expr} {n : Number} (h : e.closedValue = .ok n)
    (scope : Scope) : e.collapse scope = .ok n := by
  refine (collapse_congr fun name hname => ?_).trans h
  rw [openNames_eq_nil_of_closedValue h] at hname
  cases hname

end Expr

end Asm65816
