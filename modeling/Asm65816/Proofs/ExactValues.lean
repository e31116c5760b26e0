import Asm65816.Proofs.ExactOperators
import Asm65816.Proofs.LiteralTokens

/-!
# Exact values

The value of an expression in unbounded integer arithmetic, beside its evaluation in 64-bit words.
Evaluation is exact wherever it gives a value. It traps only in a complement that is no word, and
literals and labels that fit the bytes they state lead to none, unless at least 128 complements are
applied one after the other: a complement within seven bytes takes a value at most 2 ^ 56 further
away from zero.
-/

namespace Asm65816

/-- A scope of 64-bit words. -/
def Scope.OfWords (scope : Scope) : Prop := ∀ name n, scope name = some n → IsWord n.value

/-- A scope of numbers that fit the bytes they state. -/
def Scope.Sound (scope : Scope) : Prop := ∀ name n, scope name = some n → n.Sound

namespace Expr

mutual

/-- The value of an expression on integers, where it has one. A complement is taken within the bytes
that its operand states. -/
def exactValue? (scope : Scope) : Expr → Option Int
  | .number n => some n.value
  | .name found => (scope found).map Number.value
  | .bound _ value => value.exactValue? scope
  | .unary op e => do
    let x ← e.exactValue? scope
    let n ← (e.collapse scope).toOption
    return op.exactValue n.width x
  | .binary op l r => do op.exactValue? (← l.exactValue? scope) (← r.exactValue? scope)
  | .group items _ => exactItem? scope items
  | .text _ _ => none
  | .immediate e => e.exactValue? scope

/-- The value of the single item of a group. -/
def exactItem? (scope : Scope) : List Expr → Option Int
  | [single] => single.exactValue? scope
  | _ => none

end

mutual

/-- The expressions that an expression is built of, itself included. -/
def parts : Expr → List Expr
  | .number n => [.number n]
  | .name found => [.name found]
  | .bound found value => .bound found value :: value.parts
  | .unary op e => .unary op e :: e.parts
  | .binary op l r => .binary op l r :: (l.parts ++ r.parts)
  | .group items long => .group items long :: partsAll items
  | .text content petscii => [.text content petscii]
  | .immediate e => .immediate e :: e.parts

/-- The parts of the items of a group. -/
def partsAll : List Expr → List Expr
  | [] => []
  | e :: rest => e.parts ++ partsAll rest

end

mutual

/-- How many complements are applied one after the other, up to signs, brackets and names, before
the expression has its value. -/
def complementRun : Expr → Nat
  | .bound _ value => value.complementRun
  | .unary .complement e => e.complementRun + 1
  | .unary .negate e => e.complementRun
  | .unary .plus e => e.complementRun
  | .group items _ => itemRun items
  | .immediate e => e.complementRun
  | _ => 0

/-- The run of the single item of a group. -/
def itemRun : List Expr → Nat
  | [single] => single.complementRun
  | _ => 0

end

/-- A complement whose operand has a value and whose own exact value is beyond the greatest word. -/
def LeavesWords (scope : Scope) (e : Expr) : Prop :=
  ∃ operand m exact, e = .unary .complement operand ∧ operand.collapse scope = .ok m ∧
    e.exactValue? scope = some exact ∧ maxWord < exact

theorem self_mem_parts (e : Expr) : e ∈ e.parts := by
  cases e <;> exact List.mem_cons_self

theorem mem_partsAll {items : List Expr} {part : Expr} :
    part ∈ partsAll items ↔ ∃ item ∈ items, part ∈ item.parts := by
  induction items with
  | nil => simp [partsAll]
  | cons item rest ih => simp [partsAll, ih]

/-- The parts of a part are parts. -/
theorem parts_subset {e part : Expr} (h : part ∈ e.parts) : part.parts ⊆ e.parts := by
  induction e using Expr.inductionOn with
  | number | name | text =>
    obtain rfl := List.mem_singleton.mp h
    exact List.Subset.refl _
  | bound _ _ ih | unary _ _ ih | immediate _ ih =>
    rcases List.mem_cons.mp h with rfl | h
    · exact List.Subset.refl _
    · exact List.subset_cons_of_subset _ (ih h)
  | binary op left right ihl ihr =>
    rcases List.mem_cons.mp h with rfl | h
    · exact List.Subset.refl _
    · refine List.subset_cons_of_subset _ ?_
      rcases List.mem_append.mp h with h | h
      · exact List.subset_append_of_subset_left _ (ihl h)
      · exact List.subset_append_of_subset_right _ (ihr h)
  | group items long ih =>
    rcases List.mem_cons.mp h with rfl | h
    · exact List.Subset.refl _
    · obtain ⟨item, hitem, hpart⟩ := mem_partsAll.mp h
      intro inner hinner
      exact List.mem_cons_of_mem _ (mem_partsAll.mpr ⟨item, hitem, ih item hitem hpart hinner⟩)

/-- The literals of an expression are the numbers among its parts. -/
theorem mem_literals_iff {e : Expr} {n : Number} : n ∈ e.literals ↔ .number n ∈ e.parts := by
  induction e using Expr.inductionOn with
  | number | name | text => simp [literals, parts]
  | bound _ _ ih | unary _ _ ih | immediate _ ih => simp [literals, parts, ih]
  | binary op left right ihl ihr => simp [literals, parts, ihl, ihr]
  | group items long ih =>
    have hall : n ∈ literalsAll items ↔ .number n ∈ partsAll items := by
      induction items with
      | nil => simp [literalsAll, partsAll]
      | cons item rest ihrest =>
        simp only [literalsAll, partsAll, List.mem_append, ih item List.mem_cons_self,
          ihrest fun other hother => ih other (List.mem_cons_of_mem _ hother)]
    simp [literals, parts, hall]

/-- The literals of a part are literals of the expression. -/
theorem literals_subset {e part : Expr} (h : part ∈ e.parts) : part.literals ⊆ e.literals :=
  fun _ hn => mem_literals_iff.mpr (parts_subset h (mem_literals_iff.mp hn))

variable {scope : Scope} {e : Expr} {n : Number}

/-! ## Evaluation -/

theorem exactValue?_unary (op : UnaryOp) {operand : Expr} {x : Int}
    (hexact : operand.exactValue? scope = some x) (h : operand.collapse scope = .ok n) :
    (unary op operand).exactValue? scope = some (op.exactValue n.width x) := by
  rw [exactValue?, hexact, h]
  rfl

/-- Evaluation in words is exact wherever it gives a value. -/
theorem collapse_exact (hscope : scope.OfWords) (hliterals : ∀ n ∈ e.literals, IsWord n.value)
    (h : e.collapse scope = .ok n) : e.exactValue? scope = some n.value ∧ IsWord n.value := by
  induction e using Expr.inductionOn generalizing n with
  | number value =>
    cases h
    exact ⟨rfl, hliterals _ List.mem_cons_self⟩
  | name found =>
    rw [collapse] at h
    split at h
    case h_1 value hvalue =>
      cases h
      exact ⟨by rw [exactValue?, hvalue]; rfl, hscope found n hvalue⟩
    case h_2 => cases h
  | bound found value ih => exact ih hliterals h
  | unary op operand ih =>
    obtain ⟨m, hm, happly⟩ := bind_eq_ok.mp ((collapse_unary op operand).symm.trans h)
    obtain ⟨hoperand, hword⟩ := ih hliterals hm
    obtain ⟨hvalue, hresult⟩ := UnaryOp.apply_exact hword happly
    exact ⟨hvalue ▸ exactValue?_unary op hoperand hm, hresult⟩
  | binary op left right ihl ihr =>
    obtain ⟨a, b, value, ha, hb, happly, rfl⟩ := collapse_binary_eq_ok h
    obtain ⟨hleft, haword⟩ := ihl (fun n hn => hliterals n (List.mem_append_left _ hn)) ha
    obtain ⟨hright, hbword⟩ := ihr (fun n hn => hliterals n (List.mem_append_right _ hn)) hb
    obtain ⟨hexact, hword⟩ := BinaryOp.applyValue_exact haword hbword happly
    refine ⟨?_, hword⟩
    rw [exactValue?, hleft, hright]
    exact hexact
  | group items long ih =>
    obtain ⟨single, rfl, hsingle⟩ := collapse_group_eq_ok.mp h
    exact ih single List.mem_cons_self (fun n hn => hliterals n (List.mem_append_left _ hn)) hsingle
  | text content petscii => cases h
  | immediate operand ih => exact ih hliterals h

/-- Evaluation traps in a complement whose operand has a value, and nowhere else. -/
theorem exists_complement_of_trap (h : e.collapse scope = .error .trap) :
    ∃ operand m, unary .complement operand ∈ e.parts ∧ operand.collapse scope = .ok m ∧
      m.complement = .error .trap := by
  induction e using Expr.inductionOn with
  | number value => cases h
  | name found =>
    rw [collapse] at h
    split at h
    case h_1 => cases h
    case h_2 => cases h
  | bound found value ih =>
    obtain ⟨operand, m, hpart, htrap⟩ := ih h
    exact ⟨operand, m, List.mem_cons_of_mem _ hpart, htrap⟩
  | unary op inner ih =>
    rw [collapse_unary, bind_eq_error] at h
    rcases h with h | ⟨m, hm, happly⟩
    · obtain ⟨operand, m, hpart, htrap⟩ := ih h
      exact ⟨operand, m, List.mem_cons_of_mem _ hpart, htrap⟩
    · rcases UnaryOp.apply_eq_error happly with hnever | ⟨rfl, htrap, -⟩
      · cases hnever
      · exact ⟨inner, m, List.mem_cons_self, hm, htrap⟩
  | binary op left right ihl ihr =>
    simp only [collapse_binary, bind_eq_error] at h
    rcases h with h | ⟨a, -, h | ⟨b, -, happly⟩⟩
    · obtain ⟨operand, m, hpart, htrap⟩ := ihl h
      exact ⟨operand, m, List.mem_cons_of_mem _ (List.mem_append_left _ hpart), htrap⟩
    · obtain ⟨operand, m, hpart, htrap⟩ := ihr h
      exact ⟨operand, m, List.mem_cons_of_mem _ (List.mem_append_right _ hpart), htrap⟩
    · rcases BinaryOp.apply_eq_error happly with hnever | hnever | hnever <;> cases hnever
  | group items long ih =>
    rw [collapse] at h
    unfold collapseItems at h
    split at h
    case h_1 single =>
      obtain ⟨operand, m, hpart, htrap⟩ := ih single List.mem_cons_self h
      exact ⟨operand, m, List.mem_cons_of_mem _ (List.mem_append_left _ hpart), htrap⟩
    case h_2 => cases h
  | text content petscii => cases h
  | immediate inner ih =>
    obtain ⟨operand, m, hpart, htrap⟩ := ih h
    exact ⟨operand, m, List.mem_cons_of_mem _ hpart, htrap⟩

/-- On words, evaluation traps in a complement that is beyond the greatest word. -/
theorem exists_leavesWords (hscope : scope.OfWords) (hliterals : ∀ n ∈ e.literals, IsWord n.value)
    (h : e.collapse scope = .error .trap) : ∃ part ∈ e.parts, part.LeavesWords scope := by
  obtain ⟨operand, m, hpart, hm, htrap⟩ := exists_complement_of_trap h
  obtain ⟨hexact, hword⟩ :=
    collapse_exact (e := operand) hscope (fun n hn => hliterals n (literals_subset hpart hn)) hm
  exact ⟨_, hpart, operand, m, _, rfl, hm, exactValue?_unary .complement hexact hm,
    (UnaryOp.complement_eq_trap_iff hword).mp htrap⟩

/-! ## How far complements lead -/

/-- A number that is no further from zero than the greatest numbers of its width, taken `times`. -/
def Reaches (n : Number) (times : Int) : Prop :=
  n.width < 8 → -(times * (fieldSpan n.width - 1)) ≤ n.value ∧
    n.value ≤ times * (fieldSpan n.width - 1)

/-- A sound number reaches no further than the greatest number of its width. -/
theorem Reaches.of_sound (h : n.Sound) {times : Int} (htimes : 1 ≤ times) : Reaches n times := by
  intro hwidth
  obtain ⟨hlow, hhigh⟩ := h hwidth
  have hspan := fieldSpan_pos n.width
  have hmore : 1 * (fieldSpan n.width - 1) ≤ times * (fieldSpan n.width - 1) :=
    Int.mul_le_mul_of_nonneg_right htimes (by omega)
  rw [Int.one_mul] at hmore
  constructor
  · omega
  · omega

/-- A complement reaches further by once more, and up to 127 times it is a word. -/
theorem Reaches.complement {times : Int} (h : Reaches n times) (hwidth : n.width < 8)
    (hhigh : times ≤ 127) :
    Reaches { n with value := fieldSpan n.width - 1 - n.value } (times + 1) ∧
      IsWord (fieldSpan n.width - 1 - n.value) := by
  obtain ⟨hbelow, habove⟩ := h hwidth
  have hspan := fieldSpan_pos n.width
  have hlong : fieldSpan n.width ≤ 0x100000000000000 :=
    fieldSpan_mono (show n.width ≤ 7 by omega)
  have hmost : times * (fieldSpan n.width - 1) ≤ 127 * (0x100000000000000 - 1) :=
    Int.mul_le_mul hhigh (by omega) (by omega) (by decide)
  refine ⟨fun _ => ?_, ?_⟩
  · rw [Int.add_mul, Int.one_mul]
    dsimp only
    omega
  · unfold IsWord minWord maxWord
    omega

/-- Sound literals and labels lead no further than once more than there are complements in a row. -/
theorem collapse_reaches (hscope : scope.Sound) (hliterals : ∀ n ∈ e.literals, n.Sound)
    (hrun : e.complementRun ≤ 127) (h : e.collapse scope = .ok n) :
    Reaches n (e.complementRun + 1) := by
  induction e using Expr.inductionOn generalizing n with
  | number value =>
    cases h
    exact .of_sound (hliterals _ List.mem_cons_self) (by omega)
  | name found =>
    rw [collapse] at h
    split at h
    case h_1 value hvalue =>
      cases h
      exact .of_sound (hscope found n hvalue) (by omega)
    case h_2 => cases h
  | bound found value ih => exact ih hliterals hrun h
  | unary op operand ih =>
    obtain ⟨m, hm, happly⟩ := bind_eq_ok.mp ((collapse_unary op operand).symm.trans h)
    cases op with
    | negate =>
      obtain ⟨value, hvalue, hresult⟩ := bind_eq_ok.mp happly
      obtain ⟨rfl, -⟩ := checkedWord_eq_ok hvalue
      cases hresult
      intro hwidth
      obtain ⟨hbelow, habove⟩ := ih hliterals hrun hm hwidth
      exact ⟨Int.neg_le_neg habove, Int.neg_le_of_neg_le hbelow⟩
    | plus =>
      cases happly
      exact ih hliterals hrun hm
    | complement =>
      obtain ⟨value, hvalue, hresult⟩ := bind_eq_ok.mp happly
      cases hresult
      have hoperand : operand.complementRun + 1 ≤ 127 := hrun
      intro (hwidth : m.width < 8)
      obtain ⟨-, rfl⟩ := Number.complement_eq_ok_of_short hwidth hvalue
      exact ((ih hliterals (by omega) hm).complement hwidth (by omega)).1 hwidth
    | lowByte | highByte | logicalNot =>
      exact .of_sound (UnaryOp.apply_sound rfl (by decide) happly) (by omega)
  | binary op left right ihl ihr =>
    obtain ⟨a, b, value, -, -, happly, rfl⟩ := collapse_binary_eq_ok h
    have hsound := BinaryOp.apply_sound (bind_eq_ok.mpr ⟨value, happly, rfl⟩)
    exact .of_sound hsound (by omega)
  | group items long ih =>
    obtain ⟨single, rfl, hsingle⟩ := collapse_group_eq_ok.mp h
    exact ih single List.mem_cons_self (fun n hn => hliterals n (List.mem_append_left _ hn)) hrun
      hsingle
  | text content petscii => cases h
  | immediate operand ih => exact ih hliterals hrun h

/-- Sound literals and labels take no fewer than 128 complements in a row beyond the words. -/
theorem LeavesWords.run_ge (h : e.LeavesWords scope) (hscope : scope.Sound)
    (hwords : scope.OfWords) (hliterals : ∀ n ∈ e.literals, IsWord n.value ∧ n.Sound) :
    128 ≤ e.complementRun := by
  obtain ⟨operand, m, exact, rfl, hm, hexact, hbeyond⟩ := h
  obtain ⟨hoperand, hword⟩ :=
    collapse_exact (e := operand) hwords (fun n hn => (hliterals n hn).1) hm
  cases (exactValue?_unary _ hoperand hm).symm.trans hexact
  by_contra hshort
  have hrun : operand.complementRun + 1 < 128 := Nat.lt_of_not_le hshort
  by_cases hwidth : m.width < 8
  · rw [UnaryOp.exactValue_complement_of_short hwidth] at hbeyond
    have hreaches := collapse_reaches (e := operand) hscope (fun n hn => (hliterals n hn).2)
      (by omega) hm
    exact absurd (hreaches.complement hwidth (by omega)).2.2 (Int.not_le.mpr hbeyond)
  · have hvalue : UnaryOp.complement.exactValue m.width m.value = -m.value - 1 := if_neg hwidth
    unfold IsWord minWord maxWord at *
    omega

end Expr

/-- Evaluation is exact. In every scope of words, every part of an operand that is read, whatever it
is nested in, has its exact value and a word, if evaluation gives it a value at all. Where it stops
at a trap, some complement in the part is beyond the words, and when the labels fit the bytes they
state, it is at least the 128th complement in a row. -/
theorem evaluation_exact {location : Location} {text : List Char} {line : Line} {operand : Expr}
    (hline : readLine location text = .ok (some line)) (hoperand : operand ∈ line.body.operands)
    {scope : Scope} (hscope : scope.OfWords) {part : Expr} (hpart : part ∈ operand.parts) :
    (∀ n, part.collapse scope = .ok n →
      part.exactValue? scope = some n.value ∧ IsWord n.value) ∧
    (part.collapse scope = .error .trap → ∃ inner ∈ part.parts, inner.LeavesWords scope ∧
      (scope.Sound → 128 ≤ inner.complementRun)) := by
  have hliterals : ∀ n ∈ part.literals, IsWord n.value ∧ n.Sound := fun n hn =>
    readLine_literals hline hoperand n (Expr.literals_subset hpart hn)
  refine ⟨fun n h => Expr.collapse_exact hscope (fun n hn => (hliterals n hn).1) h, fun h => ?_⟩
  obtain ⟨inner, hinner, hleaves⟩ :=
    Expr.exists_leavesWords hscope (fun n hn => (hliterals n hn).1) h
  exact ⟨inner, hinner, hleaves, fun hsound => hleaves.run_ge hsound hscope fun n hn =>
    hliterals n (Expr.literals_subset hinner hn)⟩

/-- With a label `t` at 0x8000, `(~-t >> 4 | 3) - 2 ** 3` has the value that it has on integers. -/
theorem evaluation_exact_complement :
    ∃ (location : Location) (line : Line) (operand : Expr) (scope : Scope) (n : Number),
      readLine location " .dl (~-t >> 4 | 3) - 2 ** 3".toList = .ok (some line) ∧
      operand ∈ line.body.operands ∧ scope.OfWords ∧
      operand.collapse scope = .ok n ∧ n.value = 6135 ∧
      operand.exactValue? scope = some n.value := by
  let location : Location := ⟨"m.s", 1, ⟨0, 0, 28⟩, []⟩
  let scope : Scope := fun name => if name.ident = "t" then some (.ofHex 0x8000 2) else none
  let shifted : Expr := .binary .shiftRight
    (.unary .complement (.unary .negate (.name ⟨"t", false⟩))) (.number (.ofInt 4))
  let operand : Expr := .binary .sub (.group [.binary .bitOr shifted (.number (.ofInt 3))] false)
    (.binary .pow (.number (.ofInt 2)) (.number (.ofInt 3)))
  obtain ⟨found, hline, hfound⟩ := exists_ok_of_any
    (fun found => found.any fun line => line.body.operands == [operand])
    (show (readLine location " .dl (~-t >> 4 | 3) - 2 ** 3".toList).toOption.any _ = true by
      decide +kernel)
  obtain ⟨line, rfl, hoperands⟩ := (Option.any_eq_true _ _).mp hfound
  have hoperand : operand ∈ line.body.operands := by
    rw [eq_of_beq hoperands]
    exact List.mem_singleton_self operand
  have hscope : ∀ name n, scope name = some n → n = .ofHex 0x8000 2 := by
    intro name n h
    exact (Option.some.inj (Option.ite_none_right_eq_some.mp h).2).symm
  have hwords : scope.OfWords := fun name n h => by
    rw [hscope name n h]
    decide
  have hvalue : operand.collapse scope = .ok ⟨6135, .hexadecimal, 2⟩ := rfl
  exact ⟨location, line, operand, scope, _, hline, hoperand, hwords, hvalue, rfl,
    ((evaluation_exact hline hoperand hwords operand.self_mem_parts).1 _ hvalue).1⟩

end Asm65816
