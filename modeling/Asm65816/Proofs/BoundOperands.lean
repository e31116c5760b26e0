import Asm65816.Proofs.LayoutReferences
import Asm65816.Proofs.PreparedOperands
import Asm65816.Proofs.OpenNames

/-!
# Operands behind bound names

A parameter that carries an operand reads as this operand. Whatever an instruction asks of its
operands, it looks through the short names that values are bound to, at every depth: the form of an
operand, its estimated width, its value and the labels that it refers to are the same without them.
A long name is no such wrapping, as it makes its value at least three bytes wide.
-/

namespace Asm65816

/-! ## Expressions without wrappings -/

namespace Expr

mutual

/-- An expression in which values stand in place of the short names that they are bound to. -/
def unwrapped : Expr → Expr
  | .number n => .number n
  | .name n => .name n
  | .bound n value => if n.long then .bound n value.unwrapped else value.unwrapped
  | .unary op e => .unary op e.unwrapped
  | .binary op l r => .binary op l.unwrapped r.unwrapped
  | .group items long => .group (unwrappedAll items) long
  | .text content petscii => .text content petscii
  | .immediate e => .immediate e.unwrapped

/-- The items of a group without wrappings. -/
def unwrappedAll : List Expr → List Expr
  | [] => []
  | e :: rest => e.unwrapped :: unwrappedAll rest

end

theorem unwrapped_bound (n : Name) (value : Expr) :
    (bound n value).unwrapped =
      if n.long then .bound n value.unwrapped else value.unwrapped := rfl

theorem unwrapped_unary (op : UnaryOp) (e : Expr) :
    (unary op e).unwrapped = unary op e.unwrapped := rfl

theorem unwrapped_binary (op : BinaryOp) (l r : Expr) :
    (binary op l r).unwrapped = binary op l.unwrapped r.unwrapped := rfl

theorem unwrapped_immediate (e : Expr) : (immediate e).unwrapped = immediate e.unwrapped := rfl

theorem unwrappedAll_eq_map (items : List Expr) : unwrappedAll items = items.map unwrapped := by
  induction items with
  | nil => rfl
  | cons e rest ih => exact congrArg (e.unwrapped :: ·) ih

theorem unwrapped_group (items : List Expr) (long : Bool) :
    (group items long).unwrapped = group (items.map unwrapped) long :=
  congrArg (group · long) (unwrappedAll_eq_map items)

/-- A value bound to a short name is unwrapped. -/
theorem unwrapped_bound_short (ident : String) (value : Expr) :
    (bound ⟨ident, false⟩ value).unwrapped = value.unwrapped := rfl

/-- Nothing is left to unwrap. -/
theorem unwrapped_unwrapped (e : Expr) : e.unwrapped.unwrapped = e.unwrapped := by
  induction e using Expr.inductionOn with
  | bound n value ih =>
    rw [unwrapped_bound]
    split
    case isTrue hlong => rw [unwrapped_bound, if_pos hlong, ih]
    case isFalse => exact ih
  | unary op operand ih => rw [unwrapped_unary, unwrapped_unary, ih]
  | immediate operand ih => rw [unwrapped_immediate, unwrapped_immediate, ih]
  | binary op left right ihl ihr => rw [unwrapped_binary, unwrapped_binary, ihl, ihr]
  | group items long ih =>
    rw [unwrapped_group, unwrapped_group, List.map_map]
    exact congrArg (group · long) (List.map_congr_left ih)
  | _ => rfl

/-- What a function sees in the value of a bound name it sees in the name, wrapped or not. -/
theorem unwrapped_bound_eq {α : Type} {see : Expr → α} {n : Name} {value : Expr}
    (hsee : ∀ inner, see (bound n inner) = see inner)
    (ih : see value.unwrapped = see value) :
    see (bound n value).unwrapped = see (bound n value) := by
  rw [unwrapped_bound, hsee value, ← ih]
  split
  · exact hsee _
  · rfl

/-! ### Values -/

theorem collapse_unwrapped (scope : Scope) (e : Expr) :
    e.unwrapped.collapse scope = e.collapse scope := by
  induction e using Expr.inductionOn with
  | bound n value ih => exact unwrapped_bound_eq (fun _ => rfl) ih
  | unary op operand ih => rw [unwrapped_unary, collapse_unary, collapse_unary, ih]
  | binary op left right ihl ihr =>
    rw [unwrapped_binary, collapse_binary, collapse_binary, ihl, ihr]
  | group items long ih =>
    rw [unwrapped_group, collapse, collapse]
    rcases items with _ | ⟨single, _ | ⟨second, rest⟩⟩
    · rfl
    · exact ih single (List.mem_singleton_self single)
    · rw [List.map_cons, List.map_cons, collapseItems, collapseItems]
      · simp
      · simp
      · simp
  | immediate operand ih => exact ih
  | _ => rfl

theorem closedValue_unwrapped (e : Expr) : e.unwrapped.closedValue = e.closedValue :=
  collapse_unwrapped _ e

/-! ### Estimated widths -/

theorem guessWidth_unwrapped (e : Expr) : e.unwrapped.guessWidth = e.guessWidth := by
  induction e using Expr.inductionOn with
  | bound n value ih =>
    rw [unwrapped_bound]
    split
    case isTrue => rw [guessWidth, guessWidth, ih]
    case isFalse hshort => simp [guessWidth, ih, hshort]
  | unary op operand ih =>
    rw [unwrapped_unary]
    cases op with
    | negate | plus | complement => exact ih
    | lowByte | highByte | logicalNot => rfl
  | binary op left right ihl ihr =>
    have hvalue := closedValue_unwrapped (binary op left right)
    rw [unwrapped_binary] at hvalue ⊢
    rw [guessWidth, guessWidth, hvalue, ihl, ihr, closedValue_unwrapped]
  | group items long ih =>
    rw [unwrapped_group, guessWidth, guessWidth]
    rcases items with _ | ⟨single, _ | ⟨second, rest⟩⟩
    · rfl
    · exact ih single (List.mem_singleton_self single)
    · rfl
  | immediate operand ih => exact ih
  | _ => rfl

theorem fits_unwrapped (limit : Nat) (e : Expr) : e.unwrapped.fits limit = e.fits limit := by
  rw [fits, fits, guessWidth_unwrapped]

/-! ### Forms -/

theorem isName_unwrapped (ident : String) (e : Expr) :
    e.unwrapped.isName ident = e.isName ident := by
  induction e using Expr.inductionOn with
  | bound n value ih => exact unwrapped_bound_eq (fun _ => rfl) ih
  | _ => rfl

theorem isGroup_unwrapped (e : Expr) : e.unwrapped.isGroup = e.isGroup := by
  induction e using Expr.inductionOn with
  | bound n value ih => exact unwrapped_bound_eq (fun _ => rfl) ih
  | _ => rfl

theorem isImmediate_unwrapped (e : Expr) : e.unwrapped.isImmediate = e.isImmediate := by
  induction e using Expr.inductionOn with
  | bound n value ih => exact unwrapped_bound_eq (fun _ => rfl) ih
  | _ => rfl

theorem isPlain_unwrapped (e : Expr) : e.unwrapped.isPlain = e.isPlain := by
  rw [isPlain, isPlain, isGroup_unwrapped, isImmediate_unwrapped]

theorem groupItems?_unwrapped (e : Expr) :
    e.unwrapped.groupItems? = e.groupItems?.map fun found => (found.1.map unwrapped, found.2) := by
  induction e using Expr.inductionOn with
  | bound n value ih =>
    rw [unwrapped_bound]
    split
    · exact ih
    · exact ih
  | group items long ih =>
    rw [unwrapped_group]
    rfl
  | _ => rfl

theorem immediateOperand?_unwrapped (e : Expr) :
    e.unwrapped.immediateOperand? = e.immediateOperand?.map unwrapped := by
  induction e using Expr.inductionOn with
  | bound n value ih =>
    rw [unwrapped_bound]
    split
    · exact ih
    · exact ih
  | _ => rfl

theorem valuePart_of_isPlain {e : Expr} (h : e.isPlain = true) : e.valuePart = e := by
  cases e with
  | bound n value => rw [valuePart, if_pos (show value.isPlain = true from h)]
  | group | immediate => cases h
  | _ => rfl

theorem valuePart_unwrapped (e : Expr) : e.unwrapped.valuePart = e.valuePart.unwrapped := by
  induction e using Expr.inductionOn with
  | bound n value ih =>
    rw [valuePart]
    split
    case isTrue hplain =>
      refine valuePart_of_isPlain ?_
      rw [isPlain_unwrapped]
      exact hplain
    case isFalse hplain =>
      rw [unwrapped_bound]
      split
      · rw [valuePart, isPlain_unwrapped, if_neg hplain, ih]
      · exact ih
  | group items long ih =>
    rw [unwrapped_group]
    cases items with
    | nil => rfl
    | cons first rest => rfl
  | immediate operand ih => exact ih
  | _ => rfl

/-! ### Names -/

theorem openNames_unwrapped (e : Expr) : e.unwrapped.openNames = e.openNames := by
  induction e using Expr.inductionOn with
  | bound n value ih => exact unwrapped_bound_eq (fun _ => rfl) ih
  | binary op left right ihl ihr => rw [unwrapped_binary, openNames, openNames, ihl, ihr]
  | group items long ih =>
    rw [unwrapped_group, openNames, openNames]
    clear long
    induction items with
    | nil => rfl
    | cons first rest ihrest =>
      rw [List.map_cons, openNamesAll, openNamesAll, ih first List.mem_cons_self,
        ihrest fun item hitem => ih item (List.mem_cons_of_mem _ hitem)]
  | unary op operand ih | immediate operand ih => exact ih
  | _ => rfl

/-- A mention without a value is one of an open name. -/
theorem exists_openName_of_mention {ident : String} {e : Expr} (h : ⟨ident, false⟩ ∈ e.mentions) :
    ∃ name ∈ e.openNames, name.ident = ident := by
  induction e using Expr.inductionOn with
  | number | text => simp [mentions] at h
  | name found =>
    have hident : found.ident = ident := by simpa [mentions, eq_comm] using h
    exact ⟨found, by simp [openNames], hident⟩
  | bound found value ih =>
    rw [mentions] at h
    exact ih (by simpa using h)
  | unary op operand ih | immediate operand ih => exact ih h
  | binary op left right ihl ihr =>
    rw [mentions, List.mem_append] at h
    rw [openNames]
    rcases h with h | h
    · obtain ⟨name, hname, hident⟩ := ihl h
      exact ⟨name, List.mem_append_left _ hname, hident⟩
    · obtain ⟨name, hname, hident⟩ := ihr h
      exact ⟨name, List.mem_append_right _ hname, hident⟩
  | group items long ih =>
    rw [mentions, mem_mentionsAll] at h
    obtain ⟨item, hitem, hmention⟩ := h
    obtain ⟨name, hname, hident⟩ := ih item hitem hmention
    refine ⟨name, ?_, hident⟩
    rw [openNames, mem_openNamesAll]
    exact ⟨item, hitem, hname⟩

/-- The open identifiers are those of the open names. -/
theorem mem_openIdents {ident : String} {e : Expr} :
    ident ∈ e.openIdents ↔ ∃ name ∈ e.openNames, name.ident = ident := by
  constructor
  · intro h
    rw [openIdents, List.mem_filter, List.any_eq_true] at h
    obtain ⟨-, ⟨found, isBound⟩, hmention, hopen⟩ := h
    simp only [Bool.and_eq_true, beq_iff_eq, Bool.not_eq_eq_eq_not, Bool.not_true] at hopen
    obtain ⟨rfl, rfl⟩ := hopen
    exact exists_openName_of_mention hmention
  · rintro ⟨name, hname, rfl⟩
    exact ident_mem_openIdents hname

theorem nodup_openIdents (e : Expr) : e.openIdents.Nodup := by
  have hdups : ∀ (count : Nat) (idents : List String), idents.length ≤ count →
      idents.eraseDups.Nodup := by
    intro count
    induction count with
    | zero =>
      intro idents hlength
      obtain rfl := List.length_eq_zero_iff.mp (Nat.le_zero.mp hlength)
      exact List.nodup_nil
    | succ count ih =>
      intro idents hlength
      cases idents with
      | nil => exact List.nodup_nil
      | cons first rest =>
        rw [List.eraseDups_cons, List.nodup_cons, List.mem_eraseDups]
        refine ⟨by simp, ih _ ?_⟩
        exact Nat.le_trans (List.length_filter_le _ rest) (Nat.le_of_succ_le_succ hlength)
  exact (hdups _ _ (Nat.le_refl _)).filter _

/-- Wrappings change at most the order in which labels are referred to. -/
theorem openIdents_perm {e other : Expr} (h : other.unwrapped = e.unwrapped) :
    other.openIdents.Perm e.openIdents := by
  refine (List.perm_ext_iff_of_nodup (nodup_openIdents _) (nodup_openIdents _)).mpr fun ident => ?_
  rw [mem_openIdents, mem_openIdents, ← openNames_unwrapped other, h, openNames_unwrapped]

/-- Names are bound alike behind wrappings. -/
theorem bindNames_unwrapped {ε : Type} (choose : Name → Except ε (Option Expr)) (e : Expr) :
    (e.unwrapped.bindNames choose).map unwrapped = (e.bindNames choose).map unwrapped := by
  induction e using Expr.inductionOn with
  | bound n value ih =>
    have hbound (value : Expr) : ((bound n value).bindNames choose).map unwrapped =
        (value.bindNames choose).map unwrapped >>= fun inner =>
          .ok (if n.long then .bound n inner else inner) :=
      map_bind_view _ unwrapped _ _ fun _ => rfl
    rw [unwrapped_bound]
    split
    case isTrue => rw [hbound, hbound, ih]
    case isFalse hshort =>
      simp only [hbound, ih, if_neg hshort]
      exact (bind_pure _).symm
  | unary op operand ih =>
    have hunary (e : Expr) : ((unary op e).bindNames choose).map unwrapped =
        (e.bindNames choose).map unwrapped >>= fun inner => .ok (.unary op inner) :=
      map_bind_view _ unwrapped _ _ fun _ => rfl
    rw [unwrapped_unary, hunary, hunary, ih]
  | binary op left right ihl ihr =>
    have hbinary (l r : Expr) : ((binary op l r).bindNames choose).map unwrapped =
        (l.bindNames choose).map unwrapped >>= fun first =>
          (r.bindNames choose).map unwrapped >>= fun second => .ok (.binary op first second) :=
      map_bind_view _ unwrapped _ _ fun _ => map_bind_view _ unwrapped _ _ fun _ => rfl
    rw [unwrapped_binary, hbinary, hbinary, ihl, ihr]
  | group items long ih =>
    have hgroup (items : List Expr) : ((group items long).bindNames choose).map unwrapped =
        (bindAll choose items).map (List.map unwrapped) >>= fun inner =>
          .ok (.group inner long) :=
      map_bind_view _ (List.map unwrapped) _ _ fun inner =>
        congrArg Except.ok (unwrapped_group inner long)
    have hcons (first : Expr) (rest : List Expr) :
        (bindAll choose (first :: rest)).map (List.map unwrapped) =
          (first.bindNames choose).map unwrapped >>= fun bound =>
            (bindAll choose rest).map (List.map unwrapped) >>= fun others =>
              .ok (bound :: others) :=
      map_bind_view _ unwrapped _ _ fun _ => map_bind_view _ (List.map unwrapped) _ _ fun _ => rfl
    have hall : (bindAll choose (items.map unwrapped)).map (List.map unwrapped) =
        (bindAll choose items).map (List.map unwrapped) := by
      clear hgroup
      induction items with
      | nil => rfl
      | cons first rest ihrest =>
        rw [List.map_cons, hcons, hcons, ih first List.mem_cons_self,
          ihrest fun item hitem => ih item (List.mem_cons_of_mem _ hitem)]
    rw [unwrapped_group, hgroup, hgroup, hall]
  | immediate operand ih =>
    have himmediate (e : Expr) : ((immediate e).bindNames choose).map unwrapped =
        (e.bindNames choose).map unwrapped >>= fun inner => .ok (.immediate inner) :=
      map_bind_view _ unwrapped _ _ fun _ => rfl
    rw [unwrapped_immediate, himmediate, himmediate, ih]
  | _ => rfl

end Expr

/-! ## Addressing modes -/

namespace Opcode

theorem acceptsIndexed_unwrapped (register : String) (limit : Nat) (base index : Expr) :
    acceptsIndexed register limit base.unwrapped index.unwrapped =
      acceptsIndexed register limit base index := by
  simp only [acceptsIndexed, Expr.isGroup_unwrapped, Expr.isName_unwrapped, Expr.fits_unwrapped]

theorem acceptsIndirect_unwrapped (long : Bool) (limit : Nat) (operand : Expr) :
    acceptsIndirect long limit operand.unwrapped = acceptsIndirect long limit operand := by
  unfold acceptsIndirect
  rw [Expr.groupItems?_unwrapped]
  rcases operand.groupItems? with _ | ⟨items, isLong⟩
  · rfl
  · rcases items with _ | ⟨inner, _ | ⟨second, rest⟩⟩
    · rfl
    · simp only [Option.map_some, List.map_cons, List.map_nil, Expr.fits_unwrapped]
    · rfl

theorem acceptsIndexedIndirect_unwrapped (register : String) (limit : Nat) (operand : Expr) :
    acceptsIndexedIndirect register limit operand.unwrapped =
      acceptsIndexedIndirect register limit operand := by
  unfold acceptsIndexedIndirect
  rw [Expr.groupItems?_unwrapped]
  rcases operand.groupItems? with _ | ⟨items, isLong⟩
  · rfl
  · rcases items with _ | ⟨base, _ | ⟨index, _ | ⟨third, rest⟩⟩⟩
    · rfl
    · rfl
    · cases isLong with
      | true => rfl
      | false =>
        simp only [Option.map_some, List.map_cons, List.map_nil, Expr.isName_unwrapped,
          Expr.fits_unwrapped]
    · rfl

/-- A mode accepts operands for what is in the wrappings. -/
theorem accepts_unwrapped (opcode : Opcode) (widths : RegisterWidths) (operands : List Expr) :
    opcode.accepts widths (operands.map Expr.unwrapped) = opcode.accepts widths operands := by
  have himmediate (operand : Expr) (test : Expr → Bool)
      (htest : ∀ inner, test inner.unwrapped = test inner) :
      operand.unwrapped.immediateOperand?.elim false test =
        operand.immediateOperand?.elim false test := by
    rw [Expr.immediateOperand?_unwrapped]
    cases operand.immediateOperand? with
    | none => rfl
    | some inner => exact htest inner
  unfold accepts
  generalize opcode.mode = mode
  rcases operands with _ | ⟨first, _ | ⟨second, _ | ⟨third, rest⟩⟩⟩
  · cases mode <;> rfl
  · cases mode <;>
      simp only [List.map_cons, List.map_nil, Expr.isName_unwrapped, Expr.fits_unwrapped,
        Expr.isPlain_unwrapped, acceptsIndirect_unwrapped, acceptsIndexedIndirect_unwrapped,
        Expr.immediateOperand?_unwrapped]
    case immediate | relative | relativeLong =>
      cases first.immediateOperand? with
      | none => simp [Expr.fits_unwrapped]
      | some inner => simp [Expr.fits_unwrapped, Expr.guessWidth_unwrapped]
  · cases mode <;>
      simp only [List.map_cons, List.map_nil, Expr.isName_unwrapped, acceptsIndexed_unwrapped,
        acceptsIndirect_unwrapped, acceptsIndexedIndirect_unwrapped, List.all_cons, List.all_nil,
        himmediate _ _ (Expr.fits_unwrapped 1)]
  · cases mode <;> rfl

/-- Operands select an opcode for what is in the wrappings. -/
theorem select_unwrapped (mnemonic : String) (widths : RegisterWidths) (operands : List Expr) :
    select mnemonic widths (operands.map Expr.unwrapped) = select mnemonic widths operands := by
  simp only [select, accepts_unwrapped]

end Opcode

/-! ## Bytes -/

/-- An instruction whose operands have no wrappings. -/
def Encoding.unwrapped (encoding : Encoding) : Encoding :=
  { encoding with operands := encoding.operands.map Expr.unwrapped }

section Emitting

variable (labels : List Resolution) (layout : Layout)

theorem operandNumber_unwrapped (operand : Expr) :
    operandNumber labels layout operand.unwrapped = operandNumber labels layout operand := by
  rw [operandNumber, operandNumber, Expr.collapse_unwrapped]

theorem bytes_unwrapped (encoding : Encoding) :
    encoding.unwrapped.bytes (operandNumber labels layout) =
      encoding.bytes (operandNumber labels layout) := by
  have hvalue : encoding.unwrapped.operandValue (operandNumber labels layout) =
      encoding.operandValue (operandNumber labels layout) := by
    funext index
    unfold Encoding.operandValue
    rw [Encoding.unwrapped, List.getElem?_map]
    cases encoding.operands[index]? with
    | none => rfl
    | some operand =>
      simp only [Option.map_some]
      rw [Expr.valuePart_unwrapped, operandNumber_unwrapped]
  simp only [Encoding.bytes, Encoding.operandBytes, hvalue]
  rfl

/-- Instructions that are equal but for wrappings give the same bytes. -/
theorem emitOperation_of_unwrapped {encoding encoding' : Encoding}
    (h : encoding'.unwrapped = encoding.unwrapped) :
    emitOperation labels layout (.instruction encoding') =
      emitOperation labels layout (.instruction encoding) := by
  have hview (encoding : Encoding) : emitOperation labels layout (.instruction encoding) =
      emitOperation labels layout (.instruction encoding.unwrapped) := by
    simp only [emitOperation, bytes_unwrapped]
    rfl
  rw [hview, h, ← hview]

end Emitting

/-! ## Preparing operands -/

/-- What is made of an operand at an address inside macro calls. -/
def prepareOperand (environment : Environment) (calls : List MacroCall) (address : Int)
    (operand : Expr) : Except Fault Expr := do
  bindEquates environment.equates address none (← bindArguments calls operand)

theorem prepared_iff {environment : Environment} {calls : List MacroCall} {address : Int}
    {operand bound : Expr} :
    Prepared environment calls address operand bound ↔
      prepareOperand environment calls address operand = .ok bound :=
  bind_eq_ok.symm

theorem resolveOperand_eq (environment : Environment) (calls : List MacroCall)
    (location : Location) (layout : Layout) (operand : Expr) :
    resolveOperand environment calls location layout operand =
      prepareOperand environment calls layout.address operand >>= fun bound =>
        layout.refer location bound >>= fun next => .ok (bound, next) :=
  (bind_assoc _ _ _).symm

/-- One operand inside some macro calls is prepared like another inside other ones, but for
wrappings. -/
def ReadsAlike (environment : Environment) (address : Int) (calls calls' : List MacroCall)
    (operand operand' : Expr) : Prop :=
  (prepareOperand environment calls' address operand').map Expr.unwrapped =
    (prepareOperand environment calls address operand).map Expr.unwrapped

section Preparing

variable {environment : Environment} {calls calls' : List MacroCall} {address : Int}

theorem bindArguments_unwrapped (calls : List MacroCall) (operand : Expr) :
    (bindArguments calls operand.unwrapped).map Expr.unwrapped =
      (bindArguments calls operand).map Expr.unwrapped := by
  cases calls with
  | nil => exact congrArg Except.ok (Expr.unwrapped_unwrapped operand)
  | cons call outer => exact Expr.bindNames_unwrapped _ operand

/-- Equates and the current address are bound alike in operands that are alike so far. -/
theorem readsAlike_of_arguments {operand operand' : Expr}
    (h : (bindArguments calls' operand').map Expr.unwrapped =
      (bindArguments calls operand).map Expr.unwrapped) :
    ReadsAlike environment address calls calls' operand operand' := by
  have hequates (calls : List MacroCall) (operand : Expr) :
      (prepareOperand environment calls address operand).map Expr.unwrapped =
        (bindArguments calls operand).map Expr.unwrapped >>= fun argued =>
          (bindEquates environment.equates address none argued).map Expr.unwrapped :=
    map_bind_view _ Expr.unwrapped _ _ fun argued => (Expr.bindNames_unwrapped _ argued).symm
  rw [ReadsAlike, hequates, hequates, h]

/-- Operands that are equal but for wrappings are prepared alike. -/
theorem readsAlike_of_unwrapped {operand operand' : Expr}
    (h : operand'.unwrapped = operand.unwrapped) :
    ReadsAlike environment address calls calls operand operand' := by
  refine readsAlike_of_arguments ?_
  rw [← bindArguments_unwrapped, h, bindArguments_unwrapped]

variable {location : Location} {layout other : Layout}

/-- Operands that are prepared alike refer to the same labels. -/
theorem ReadsAlike.resolveOperand {operand operand' : Expr}
    (h : ReadsAlike environment layout.address calls calls' operand operand')
    (hlayout : layout.Reordered other) :
    Coincide (fun found found' => found'.1.unwrapped = found.1.unwrapped ∧
        found.2.Reordered found'.2 ∧ found.2.address = layout.address)
      (resolveOperand environment calls location layout operand)
      (resolveOperand environment calls' location other operand') := by
  rw [resolveOperand_eq, resolveOperand_eq, hlayout.address]
  refine (Coincide.of_map_eq h).bind fun bound bound' hsame => ?_
  refine (hlayout.refer location (Expr.openIdents_perm hsame)).attach.bind ?_
  rintro next next' ⟨hnext, hrefer, -⟩
  exact .ok ⟨hsame, hnext, congrArg Cursor.address (Layout.refer_alike hrefer).cursor⟩

/-- Operands that are prepared alike one by one refer to the same labels together. -/
theorem resolveOperands_alike_of_reads {operands operands' : List Expr}
    (h : List.Forall₂ (ReadsAlike environment layout.address calls calls') operands operands')
    (hlayout : layout.Reordered other) :
    Coincide (fun found found' => found'.1.map Expr.unwrapped = found.1.map Expr.unwrapped ∧
        found.2.Reordered found'.2)
      (resolveOperands environment calls location operands layout)
      (resolveOperands environment calls' location operands' other) := by
  induction operands generalizing layout other operands' with
  | nil =>
    cases h
    exact .ok ⟨rfl, hlayout⟩
  | cons operand rest ih =>
    cases h with
    | cons hfirst hrest =>
      refine (hfirst.resolveOperand hlayout).bind ?_
      rintro ⟨first, mid⟩ ⟨first', mid'⟩ ⟨hsame, hmid, haddress⟩
      refine (ih (haddress ▸ hrest) hmid).bind ?_
      rintro ⟨others, next⟩ ⟨others', next'⟩ ⟨hothers, hnext⟩
      refine .ok ⟨?_, hnext⟩
      rw [List.map_cons, List.map_cons, hsame, hothers]

end Preparing

/-! ## Instructions -/

/-- The opcode of a laid-out instruction. -/
def PlacedOperation.opcode? : PlacedOperation → Option Opcode
  | .instruction encoding => some encoding.opcode
  | _ => none

/-- Operations that are laid out alike: with the same size and the same choice of an opcode, in
layouts that refer to the same labels. In the second walk both do the same. -/
structure LaidOutAlike (found found' : PlacedOperation × Nat × Layout) : Prop where
  opcode : found'.1.opcode? = found.1.opcode?
  size : found'.2.1 = found.2.1
  layout : found.2.2.Reordered found'.2.2
  emitted : ∀ labels second,
    emitOperation labels second found'.1 = emitOperation labels second found.1

/-- Instructions whose operands are prepared alike are laid out alike, or fail for the same
reason. -/
theorem placeInstruction_alike_of_reads {environment : Environment}
    {calls calls' : List MacroCall} (location : Location) (layout : Layout) (mnemonic : String)
    {operands operands' : List Expr}
    (h : List.Forall₂ (ReadsAlike environment layout.address calls calls') operands operands') :
    Coincide LaidOutAlike
      (placeOperation environment calls location layout (.instruction mnemonic operands))
      (placeOperation environment calls' location layout (.instruction mnemonic operands')) := by
  unfold placeOperation
  dsimp only
  split
  case isTrue => exact .error _
  case isFalse =>
    refine (resolveOperands_alike_of_reads h (.refl layout)).bind ?_
    rintro ⟨bound, next⟩ ⟨bound', next'⟩ ⟨hsame, hnext⟩
    dsimp only at hsame hnext ⊢
    rw [hnext.widths, hnext.address, ← Opcode.select_unwrapped _ _ bound', hsame,
      Opcode.select_unwrapped]
    cases Opcode.select mnemonic next.widths bound with
    | error cause => exact .error cause
    | ok opcode =>
      refine .ok ⟨rfl, rfl, hnext, fun labels second => ?_⟩
      exact emitOperation_of_unwrapped labels second (by rw [Encoding.unwrapped, hsame]; rfl)

/-! ## One operand -/

/-- A place inside of an operand. -/
inductive OperandHole where
  | here
  | bound (name : Name) (inner : OperandHole)
  | unary (op : UnaryOp) (inner : OperandHole)
  | left (op : BinaryOp) (inner : OperandHole) (second : Expr)
  | right (op : BinaryOp) (first : Expr) (inner : OperandHole)
  | item (before : List Expr) (inner : OperandHole) (after : List Expr) (long : Bool)
  | immediate (inner : OperandHole)

namespace OperandHole

/-- The operand with a part at a place. -/
def fill : OperandHole → Expr → Expr
  | here, part => part
  | bound name inner, part => .bound name (inner.fill part)
  | unary op inner, part => .unary op (inner.fill part)
  | left op inner second, part => .binary op (inner.fill part) second
  | right op first inner, part => .binary op first (inner.fill part)
  | item before inner after long, part => .group (before ++ inner.fill part :: after) long
  | immediate inner, part => .immediate (inner.fill part)

/-- Parts that are equal but for wrappings make operands that are. -/
theorem unwrapped_fill (hole : OperandHole) {part other : Expr}
    (h : other.unwrapped = part.unwrapped) :
    (hole.fill other).unwrapped = (hole.fill part).unwrapped := by
  induction hole with
  | here => exact h
  | bound name inner ih | unary op inner ih | left op inner second ih | right op first inner ih
  | immediate inner ih => simp only [fill, Expr.unwrapped, ih]
  | item before inner after long ih =>
    simp only [fill, Expr.unwrapped_group, List.map_append, List.map_cons, ih]

end OperandHole

/-- Wrapping a part of an operand in a short name that it is bound to changes nothing for an
instruction. Wherever the part stands, the instruction fails for the same reason with and without
the wrapping, or has the same opcode and size, refers to the same labels, and gives the same bytes
or the same fault in the second walk, whatever the labels are. -/
theorem instruction_wrapped (environment : Environment) (calls : List MacroCall)
    (location : Location) (layout : Layout) (mnemonic : String) (before after : List Expr)
    (hole : OperandHole) (part : Expr) (ident : String) :
    Coincide LaidOutAlike
      (placeOperation environment calls location layout
        (.instruction mnemonic (before ++ hole.fill part :: after)))
      (placeOperation environment calls location layout
        (.instruction mnemonic (before ++ hole.fill (.bound ⟨ident, false⟩ part) :: after))) := by
  refine placeInstruction_alike_of_reads location layout mnemonic ?_
  have hsame (operands : List Expr) :
      List.Forall₂ (ReadsAlike environment layout.address calls calls) operands operands :=
    List.forall₂_same.mpr fun operand _ => rfl
  refine List.rel_append (hsame before) (.cons ?_ (hsame after))
  exact readsAlike_of_unwrapped (hole.unwrapped_fill (Expr.unwrapped_bound_short ident part))

end Asm65816
