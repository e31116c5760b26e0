import Asm65816.Proofs.BoundOperands
import Asm65816.Proofs.MacroScope
import Asm65816.Proofs.OperandFields

/-!
# Operands that are passed to macros

An operand that is written in the program can be passed to a macro, from there to another one, and
so on, until a statement uses the parameter in its place. Such a parameter is prepared like the
operand itself where it was written. Instructions and data then do the same as with the operand,
with one exception: data takes a text for its bytes only where the text itself is written.
-/

namespace Asm65816

/-! ## Parameters along calls -/

/-- An operand at one place stands for an operand at another one: it is this operand, or a parameter
for which the call around it was given an operand that stands for it. A loop over further arguments
is at one of them. -/
inductive Passes (environment : Environment) : Site → Expr → Site → Expr → Prop where
  | written (site : Site) (operand : Expr) : Passes environment site operand site operand
  | parameter {name : String} {operands : List Expr} {round : Option Nat} {caller outer : Site}
      {definition : MacroDefinition} {ident : String} {argument operand : Expr}
      (defined : environment.macros.get? name = some definition)
      (inRound : ∀ index ∈ round,
        ((operands.drop definition.parameters.length)[index]?).isSome = true)
      (means : definition.meaning operands round ident = some argument)
      (passed : Passes environment caller argument outer operand) :
      Passes environment (.body name operands round caller) (.name ⟨ident, false⟩) outer operand

/-- Whether a name in the body of a macro may be an argument of its call. -/
def Site.binds (environment : Environment) : Site → String → Bool
  | program, _ => false
  | body name _ _ _, ident =>
    beginsWith '\\' ident ||
      (environment.macros.get? name).any fun definition => definition.parameters.contains ident

/-- An operand at one place that is to read like an operand at another one: it stands for that
operand, or both are the same and name no argument of either place. -/
inductive Corresponds (environment : Environment) (outer inner : Site) : Expr → Expr → Prop where
  | passed {operand operand' : Expr} (passes : Passes environment inner operand' outer operand) :
      Corresponds environment outer inner operand operand'
  | kept {operand : Expr}
      (outer_free : ∀ name ∈ operand.openNames, outer.binds environment name.ident = false)
      (inner_free : ∀ name ∈ operand.openNames, inner.binds environment name.ident = false) :
      Corresponds environment outer inner operand operand

section Passing

variable {environment : Environment}

theorem bindArguments_number (calls : List MacroCall) (number : Number) :
    bindArguments calls (.number number) = .ok (.number number) := by
  cases calls with
  | nil => rfl
  | cons call outer => rfl

/-- A name without a backslash is that of a parameter, or no argument. -/
theorem MacroCall.argument_of_plain {call : MacroCall} {ident : String}
    (hplain : ∀ special, ident.toList ≠ '\\' :: special) :
    call.argument ident =
      .ok ((call.parameters.idxOf? ident).bind fun position => call.arguments[position]?) := by
  unfold MacroCall.argument
  split
  case h_1 letters special hspecial => exact absurd hspecial (hplain special)
  case h_2 => cases call.parameters.idxOf? ident <;> rfl

/-- A name with a backslash is that of a further argument, but for three of them. -/
theorem MacroCall.argument_of_digits {call : MacroCall} {ident : String} {special : List Char}
    (hspecial : ident.toList = '\\' :: special) (hvariadic : call.variadic = true)
    (hcount : special ≠ ['L']) (hindex : special ≠ ['i']) (hround : special ≠ ['v']) :
    call.argument ident = .ok call.furtherArguments[positionalValue 10 special]? := by
  simp only [MacroCall.argument, hspecial, hvariadic, Bool.not_true, Bool.false_eq_true, if_false]

/-- A name that is neither a parameter nor begins with a backslash is no argument. -/
theorem MacroCall.argument_of_free {call : MacroCall} {ident : String}
    (hletters : beginsWith '\\' ident = false) (hparameter : ident ∉ call.parameters) :
    call.argument ident = .ok none := by
  have hplain special : ident.toList ≠ '\\' :: special := by
    intro hspecial
    simp [beginsWith, hspecial] at hletters
  rw [argument_of_plain hplain, List.idxOf?_eq_none_iff.mpr hparameter]
  rfl

/-- What a name means in a body is bound where the call stands, and the name is bound to it. -/
theorem argument_of_meaning {outer : List MacroCall} {name ident : String} {operands : List Expr}
    {round : Option Nat} {definition : MacroDefinition} {argument : Expr} {call : MacroCall}
    {body : List Action} (hopen : openCall environment outer name operands = .ok (call, body))
    (hdefined : environment.macros.get? name = some definition)
    (hround : ∀ index ∈ round,
      ((operands.drop definition.parameters.length)[index]?).isSome = true)
    (hmeaning : definition.meaning operands round ident = some argument) :
    ∃ value, (call.inRound round).argument ident = .ok (some value) ∧
      bindArguments outer argument = .ok value := by
  obtain ⟨found, arguments, hfound, harguments, -, rfl, -⟩ := openCall_eq_ok hopen
  obtain rfl := Option.some.inj (hfound.symm.trans hdefined)
  obtain ⟨hlength, hbound⟩ := mapM_getElem? harguments
  have hargument {position : Nat} {argument : Expr} (h : operands[position]? = some argument) :
      ∃ value, arguments[position]? = some value ∧ bindArguments outer argument = .ok value := by
    obtain ⟨hposition, -⟩ := List.getElem?_eq_some_iff.mp h
    have hvalue : arguments[position]? = some arguments[position] :=
      List.getElem?_eq_getElem (hlength ▸ hposition)
    obtain ⟨operand, hoperand, hbinds⟩ := hbound position _ hvalue
    obtain rfl := Option.some.inj (hoperand.symm.trans h)
    exact ⟨_, hvalue, hbinds⟩
  have hfurther {index : Nat} {argument : Expr}
      (h : (operands.drop found.parameters.length)[index]? = some argument) :
      ∃ value, (arguments.drop found.parameters.length)[index]? = some value ∧
        bindArguments outer argument = .ok value := by
    rw [List.getElem?_drop] at h ⊢
    exact hargument h
  unfold MacroDefinition.meaning at hmeaning
  split at hmeaning
  case h_1 letters special hspecial =>
    have hvariadic : found.variadic = true := by
      by_contra hnot
      simp [hnot] at hmeaning
    simp only [hvariadic, Bool.not_true, Bool.false_eq_true, if_false] at hmeaning
    split at hmeaning
    case h_1 =>
      cases hmeaning
      simp only [MacroCall.argument, MacroCall.inRound, MacroCall.furtherArguments, hspecial,
        hvariadic, Bool.not_true, Bool.false_eq_true, if_false]
      refine ⟨_, rfl, ?_⟩
      rw [bindArguments_number, List.length_drop, List.length_drop, hlength]
    case h_2 =>
      obtain ⟨index, rfl, rfl⟩ := Option.map_eq_some_iff.mp hmeaning
      obtain ⟨operand, hoperand⟩ := Option.isSome_iff_exists.mp (hround index rfl)
      obtain ⟨value, hvalue, -⟩ := hfurther hoperand
      simp only [MacroCall.argument, MacroCall.inRound, MacroCall.furtherArguments, hspecial,
        hvariadic, Bool.not_true, Bool.false_eq_true, if_false, Option.bind_some, hvalue,
        Option.map_some]
      exact ⟨_, rfl, bindArguments_number _ _⟩
    case h_3 =>
      obtain ⟨index, rfl, hmeant⟩ := Option.bind_eq_some_iff.mp hmeaning
      obtain ⟨value, hvalue, hbinds⟩ := hfurther hmeant
      simp only [MacroCall.argument, MacroCall.inRound, MacroCall.furtherArguments, hspecial,
        hvariadic, Bool.not_true, Bool.false_eq_true, if_false, Option.bind_some, hvalue,
        Option.map_some]
      exact ⟨value, rfl, hbinds⟩
    case h_4 hcount hindex hround' =>
      obtain ⟨value, hvalue, hbinds⟩ := hfurther hmeaning
      refine ⟨value, ?_, hbinds⟩
      rw [MacroCall.argument_of_digits hspecial hvariadic hcount hindex hround']
      exact congrArg Except.ok hvalue
  case h_2 letters hplain =>
    obtain ⟨position, hposition, hmeant⟩ := Option.bind_eq_some_iff.mp hmeaning
    obtain ⟨value, hvalue, hbinds⟩ := hargument hmeant
    refine ⟨value, ?_, hbinds⟩
    rw [MacroCall.argument_of_plain hplain]
    simp only [MacroCall.inRound, hposition, Option.bind_some, hvalue]

/-- A parameter is bound to what the operand it stands for is bound to at its own place. -/
theorem Passes.bindArguments_eq {inner outer : Site} {operand operand' : Expr}
    (h : Passes environment inner operand' outer operand) {calls calls' : List MacroCall}
    (houter : outer.calls environment = .ok calls)
    (hinner : inner.calls environment = .ok calls') :
    (bindArguments calls' operand').map Expr.unwrapped =
      (bindArguments calls operand).map Expr.unwrapped := by
  induction h generalizing calls' with
  | written site operand => rw [Except.ok.inj (houter.symm.trans hinner)]
  | @parameter name operands round caller outer definition ident argument operand defined inRound
      means passed ih =>
    simp only [Site.calls, bind_eq_ok, pure_eq_ok] at hinner
    obtain ⟨others, hothers, ⟨call, body⟩, hopen, rfl⟩ := hinner
    obtain ⟨value, hvalue, hbinds⟩ := argument_of_meaning hopen defined inRound means
    rw [← ih houter hothers, hbinds]
    simp only [bindArguments, Expr.bindNames, hvalue, ok_bind]
    rfl

/-- An operand that names no argument is left as it is. -/
theorem Site.bindArguments_of_free {site : Site} {calls : List MacroCall} {operand : Expr}
    (hcalls : site.calls environment = .ok calls)
    (hfree : ∀ name ∈ operand.openNames, site.binds environment name.ident = false) :
    bindArguments calls operand = .ok operand := by
  cases site with
  | program =>
    cases hcalls
    rfl
  | body macroName operands round caller =>
    simp only [Site.calls, bind_eq_ok, pure_eq_ok] at hcalls
    obtain ⟨outer, -, ⟨call, body⟩, hopen, rfl⟩ := hcalls
    obtain ⟨definition, arguments, hfound, -, -, rfl, -⟩ := openCall_eq_ok hopen
    refine Expr.bindNames_of_unchosen fun name hname => ?_
    have hname := hfree name hname
    simp only [Site.binds, hfound, Option.any_some, Bool.or_eq_false_iff] at hname
    obtain ⟨hletters, hparameter⟩ := hname
    have hfresh : name.ident ∉ definition.parameters := by simpa using hparameter
    exact MacroCall.argument_of_free hletters hfresh

/-- Operands that correspond are prepared alike. -/
theorem Corresponds.readsAlike {outer inner : Site} {operand operand' : Expr}
    (h : Corresponds environment outer inner operand operand') {calls calls' : List MacroCall}
    (houter : outer.calls environment = .ok calls)
    (hinner : inner.calls environment = .ok calls') (address : Int) :
    ReadsAlike environment address calls calls' operand operand' := by
  refine readsAlike_of_arguments ?_
  cases h with
  | passed passes => exact passes.bindArguments_eq houter hinner
  | kept outer_free inner_free =>
    rw [Site.bindArguments_of_free houter outer_free, Site.bindArguments_of_free hinner inner_free]

end Passing

/-! ## Data -/

/-- Items of data that are equal but for wrappings, and of which either both are texts or none. -/
structure SameDatum (item item' : Expr) : Prop where
  isText : item'.isText = item.isText
  unwrapped : item'.unwrapped = item.unwrapped

/-- Texts without wrappings are the same text. -/
theorem SameDatum.eq_of_isText {item item' : Expr} (h : SameDatum item item')
    (htext : item.isText = true) : item' = item := by
  have htext' := h.isText.trans htext
  have hsame := h.unwrapped
  cases item with
  | text content petscii =>
    cases item' with
    | text content' petscii' => exact hsame
    | _ => cases htext'
  | _ => cases htext

/-- Names are bound in no text, and no text comes of binding them. -/
theorem isText_bindNames {ε : Type} {choose : Name → Except ε (Option Expr)}
    {e bound : Expr} (h : e.bindNames choose = .ok bound) : bound.isText = e.isText := by
  cases e with
  | number | text =>
    cases h
    rfl
  | name name =>
    obtain ⟨chosen, -, h⟩ := bind_eq_ok.mp h
    cases chosen with
    | none =>
      cases h
      rfl
    | some value =>
      cases h
      rfl
  | binary op left right =>
    simp only [Expr.bindNames, bind_eq_ok, pure_eq_ok] at h
    obtain ⟨_, -, _, -, rfl⟩ := h
    rfl
  | bound | unary | group | immediate =>
    obtain ⟨_, -, h⟩ := bind_eq_ok.mp h
    cases h
    rfl

theorem isText_prepareOperand {environment : Environment} {calls : List MacroCall} {address : Int}
    {operand bound : Expr} (h : prepareOperand environment calls address operand = .ok bound) :
    bound.isText = operand.isText := by
  obtain ⟨argued, hargued, hbound⟩ := bind_eq_ok.mp h
  refine (isText_bindNames hbound).trans ?_
  cases calls with
  | nil =>
    cases hargued
    rfl
  | cons call outer => exact isText_bindNames hargued

section Data

variable {environment : Environment} {calls calls' : List MacroCall} {location : Location}

theorem placeDatum_of_isText {width : DataWidth} {layout : Layout} {operand : Expr}
    (htext : operand.isText = false) :
    placeDatum environment calls location width layout operand =
      resolveOperand environment calls location layout operand >>= fun found =>
        .ok (found.1, width.bytes, found.2) := by
  cases operand with
  | text => cases htext
  | _ => rfl

theorem datumCode_of_isText {width : DataWidth} {value : Expr → Except Fault Number}
    {address : Int} {item : Expr} (htext : item.isText = false) :
    datumCode width value address item = value item >>= fun number =>
      datumCode width (fun _ => .ok number) address (.number number) := by
  cases item with
  | text => cases htext
  | _ => rfl

/-- An item that is prepared like another one has the same size. -/
theorem placeDatum_alike_of_reads {width : DataWidth} {layout other : Layout}
    {operand operand' : Expr}
    (h : ReadsAlike environment layout.address calls calls' operand operand')
    (htext : operand'.isText = operand.isText) (hlayout : layout.Reordered other) :
    Coincide (fun found found' => SameDatum found.1 found'.1 ∧ found'.2.1 = found.2.1 ∧
        found.2.2.Reordered found'.2.2 ∧ found.2.2.address = layout.address)
      (placeDatum environment calls location width layout operand)
      (placeDatum environment calls' location width other operand') := by
  cases hoperand : operand.isText with
  | false =>
    rw [placeDatum_of_isText hoperand, placeDatum_of_isText (htext.trans hoperand)]
    refine (h.resolveOperand hlayout).attach.bind ?_
    rintro ⟨bound, next⟩ ⟨bound', next'⟩ ⟨⟨hsame, hnext, haddress⟩, hfirst, hsecond⟩
    have hbound := isText_prepareOperand (prepared_iff.mp (resolveOperand_prepared hfirst))
    have hbound' := isText_prepareOperand (prepared_iff.mp (resolveOperand_prepared hsecond))
    refine .ok ⟨⟨?_, hsame⟩, rfl, hnext, haddress⟩
    rw [hbound', hbound, htext]
  | true =>
    cases operand with
    | text content petscii =>
      cases operand' with
      | text content' petscii' =>
        have hprepared (calls : List MacroCall) (content : String) (petscii : Bool) :
            prepareOperand environment calls layout.address (.text content petscii) =
              .ok (.text content petscii) :=
          prepared_iff.mp (.text layout.address content petscii)
        rw [ReadsAlike, hprepared, hprepared] at h
        cases h
        unfold placeDatum
        dsimp only
        split
        · exact .ok ⟨⟨rfl, rfl⟩, rfl, hlayout, rfl⟩
        · exact .error _
      | _ => cases htext
    | _ => cases hoperand

/-- Items that are prepared like other ones have the same size together. -/
theorem placeData_alike_of_reads {width : DataWidth} {layout other : Layout}
    {operands operands' : List Expr}
    (h : List.Forall₂ (fun operand operand' =>
      ReadsAlike environment layout.address calls calls' operand operand' ∧
        operand'.isText = operand.isText) operands operands')
    (hlayout : layout.Reordered other) :
    Coincide (fun found found' => List.Forall₂ SameDatum found.1 found'.1 ∧
        found'.2.1 = found.2.1 ∧ found.2.2.Reordered found'.2.2)
      (placeData environment calls location width operands layout)
      (placeData environment calls' location width operands' other) := by
  induction operands generalizing layout other operands' with
  | nil =>
    cases h
    exact .ok ⟨.nil, rfl, hlayout⟩
  | cons operand rest ih =>
    cases h with
    | cons hfirst hrest =>
      refine (placeDatum_alike_of_reads hfirst.1 hfirst.2 hlayout).bind ?_
      rintro ⟨first, size, mid⟩ ⟨first', size', mid'⟩ ⟨hdatum, hsize, hmid, haddress⟩
      refine (ih (haddress ▸ hrest) hmid).bind ?_
      rintro ⟨others, more, next⟩ ⟨others', more', next'⟩ ⟨hdata, hmore, hnext⟩
      refine .ok ⟨.cons hdatum hdata, ?_, hnext⟩
      dsimp only at hsize hmore ⊢
      rw [hsize, hmore]

/-- The same item has the same bytes. -/
theorem SameDatum.datumCode {item item' : Expr} (h : SameDatum item item') (width : DataWidth)
    (labels : List Resolution) (layout : Layout) (address : Int) :
    datumCode width (operandNumber labels layout) address item' =
      datumCode width (operandNumber labels layout) address item := by
  cases htext : item.isText with
  | true => rw [h.eq_of_isText htext]
  | false =>
    have hnumber : operandNumber labels layout item' = operandNumber labels layout item := by
      rw [← operandNumber_unwrapped, h.unwrapped, operandNumber_unwrapped]
    rw [datumCode_of_isText htext, datumCode_of_isText (h.isText.trans htext), hnumber]

/-- The same items have the same bytes. -/
theorem dataCode_of_same {items items' : List Expr} (h : List.Forall₂ SameDatum items items')
    (width : DataWidth) (labels : List Resolution) (layout : Layout) (address : Int) :
    dataCode width (operandNumber labels layout) address items' =
      dataCode width (operandNumber labels layout) address items := by
  induction h generalizing address with
  | nil => rfl
  | cons hfirst hrest ih => simp only [dataCode, hfirst.datumCode, ih]

/-- Data whose items are prepared alike is laid out alike, or fails for the same reason, unless
only one of two items is a text. -/
theorem placeDataOperation_alike_of_reads (location : Location) (layout : Layout)
    (width : DataWidth) {operands operands' : List Expr}
    (h : List.Forall₂ (fun operand operand' =>
      ReadsAlike environment layout.address calls calls' operand operand' ∧
        operand'.isText = operand.isText) operands operands') :
    Coincide LaidOutAlike
      (placeOperation environment calls location layout (.data width operands))
      (placeOperation environment calls' location layout (.data width operands')) := by
  refine (placeData_alike_of_reads h (.refl layout)).bind ?_
  rintro ⟨bound, size, next⟩ ⟨bound', size', next'⟩ ⟨hdata, hsize, hnext⟩
  refine .ok ⟨rfl, hsize, hnext, fun labels second => ?_⟩
  simp only [emitOperation, dataCode_of_same hdata]

/-- Lists that are related item by item: what stands in the first is related to some item. -/
theorem exists_of_forall₂_left {α β : Type} {related : α → β → Prop} {before : List α}
    {after : List β} {item : α} (h : List.Forall₂ related before after) (hitem : item ∈ before) :
    ∃ found ∈ after, related item found :=
  exists_of_forall₂ (List.Forall₂.flip h) hitem

/-- Data holds one item for each of its operands, prepared. -/
theorem placeData_forall₂ {width : DataWidth} {operands items : List Expr} {size : Nat}
    {layout next : Layout}
    (h : placeData environment calls location width operands layout = .ok (items, size, next)) :
    List.Forall₂ (fun operand item => item.isText = operand.isText ∧
      prepareOperand environment calls layout.address operand = .ok item) operands items := by
  induction operands generalizing layout items size with
  | nil =>
    cases h
    exact .nil
  | cons operand rest ih =>
    simp only [placeData, bind_eq_ok, pure_eq_ok] at h
    obtain ⟨⟨first, count, mid⟩, hfirst, ⟨others, more, reached⟩, hothers, hresult⟩ := h
    cases hresult
    have hdatum : prepareOperand environment calls layout.address operand = .ok first ∧
        mid.address = layout.address := by
      cases htext : operand.isText with
      | false =>
        rw [placeDatum_of_isText htext] at hfirst
        obtain ⟨⟨bound, found⟩, hresolved, hfirst⟩ := bind_eq_ok.mp hfirst
        cases hfirst
        exact ⟨prepared_iff.mp (resolveOperand_prepared hresolved),
          congrArg Cursor.address (resolveOperand_alike hresolved).1.cursor⟩
      | true =>
        cases operand with
        | text content petscii =>
          obtain ⟨-, hfirst⟩ := demand_eq_ok.mp hfirst
          cases hfirst
          exact ⟨prepared_iff.mp (.text layout.address content petscii), rfl⟩
        | _ => cases htext
    refine .cons ⟨isText_prepareOperand hdatum.1, hdatum.1⟩ ?_
    exact hdatum.2 ▸ ih hothers

/-- Data with a text behind wrappings gives no bytes. -/
theorem dataCode_of_wrapped {items : List Expr} {item : Expr} (hitem : item ∈ items)
    (htext : item.isText = false) {content : String} {petscii : Bool}
    (hunwrapped : item.unwrapped = .text content petscii) (width : DataWidth)
    (labels : List Resolution) (layout : Layout) (address : Int) (code : Code) :
    dataCode width (operandNumber labels layout) address items ≠ .ok code := by
  intro h
  induction items generalizing address code with
  | nil => cases hitem
  | cons first rest ih =>
    obtain ⟨head, hhead, h⟩ := bind_eq_ok.mp h
    obtain ⟨others, hothers, -⟩ := bind_eq_ok.mp h
    rcases List.mem_cons.mp hitem with rfl | hrest
    · rw [datumCode_of_isText htext] at hhead
      obtain ⟨number, hnumber, -⟩ := bind_eq_ok.mp hhead
      rw [← operandNumber_unwrapped, hunwrapped] at hnumber
      cases hnumber
    · exact ih hrest _ _ hothers

/-- A text that is passed to data. -/
theorem Passes.prepareOperand_text {outer inner : Site} {operand' : Expr} {content : String}
    {petscii : Bool} (h : Passes environment inner operand' outer (.text content petscii))
    (houter : outer.calls environment = .ok calls) (hinner : inner.calls environment = .ok calls')
    (address : Int) :
    ∃ bound, prepareOperand environment calls' address operand' = .ok bound ∧
      bound.unwrapped = .text content petscii := by
  have hreads := (Corresponds.passed h).readsAlike houter hinner address
  have htext : prepareOperand environment calls address (.text content petscii) =
      .ok (.text content petscii) := prepared_iff.mp (.text address content petscii)
  rw [ReadsAlike, htext] at hreads
  exact map_eq_ok.mp hreads

end Data

/-! ## The law of passing operands -/

/-- A laid-out operation with its size and the layout after it, without places. -/
def withoutPlaces (found : PlacedOperation × Nat × Layout) : PlacedOperation × Nat × Layout :=
  (found.1, found.2.1, found.2.2.unplaced)

section Law

variable {environment : Environment} {outer inner : Site} {calls calls' : List MacroCall}

/-- Operations that are laid out alike wherever they are written. -/
theorem laidOutAlike_of_unplaced {layout : Layout} {operation operation' : Operation}
    (h : Coincide LaidOutAlike (placeOperation environment calls default layout.unplaced operation)
      (placeOperation environment calls' default layout.unplaced operation'))
    (location location' : Location) :
    Coincide (fun found found' => LaidOutAlike (withoutPlaces found) (withoutPlaces found'))
      (placeOperation environment calls location layout operation)
      (placeOperation environment calls' location' layout operation') := by
  rw [placeOperation_unplaced environment calls location,
    placeOperation_unplaced environment calls' location'] at h
  exact h.of_map

/-- An operand that cannot be bound where it is written cannot be passed. -/
theorem openCall_of_unbound {name : String} {definition : MacroDefinition}
    {before after : List Expr} {operand : Expr} {fault : Fault}
    (hdefined : environment.macros.get? name = some definition)
    (hlength : (before ++ operand :: after).length = definition.parameters.length)
    (hfresh : ∀ call ∈ calls, call.name ≠ name)
    (hbefore : ∀ other ∈ before, ∃ bound, bindArguments calls other = .ok bound)
    (hfault : bindArguments calls operand = .error fault) :
    openCall environment calls name (before ++ operand :: after) = .error fault := by
  have hmapM : (before ++ operand :: after).mapM (bindArguments calls) = .error fault := by
    clear hlength
    induction before with
    | nil =>
      rw [List.nil_append, List.mapM_cons, hfault]
      rfl
    | cons first rest ih =>
      obtain ⟨bound, hbound⟩ := hbefore first List.mem_cons_self
      rw [List.cons_append, List.mapM_cons, hbound, ok_bind,
        ih fun other hother => hbefore other (List.mem_cons_of_mem _ hother)]
      rfl
  have hopen : calls.any (fun call => call.name == name) = false := by
    simpa [List.any_eq_false] using hfresh
  simp only [openCall, hdefined, hlength, hopen, hmapM, decide_true, Bool.true_or,
    Bool.not_true, Bool.false_eq_true, if_false]
  rfl

/-- An operand that cannot be bound where it is written cannot be used there. -/
theorem placeData_of_unbound (location : Location) (layout : Layout) (width : DataWidth)
    {operand : Expr} {fault : Fault} (hfault : bindArguments calls operand = .error fault) :
    placeOperation environment calls location layout (.data width [operand]) = .error fault := by
  have htext : operand.isText = false := by
    cases operand with
    | text content petscii =>
      have hbinds : bindArguments calls (.text content petscii) = .ok (.text content petscii) := by
        cases calls <;> rfl
      cases hbinds.symm.trans hfault
    | _ => rfl
  simp only [placeOperation, placeData, placeDatum_of_isText htext, resolveOperand_eq,
    prepareOperand, hfault]
  rfl

/-- An instruction whose operands are passed to a macro, through any number of calls, is laid out
and encoded like the instruction with the operands themselves. -/
theorem instruction_reads_parameters (houter : outer.calls environment = .ok calls)
    (hinner : inner.calls environment = .ok calls') (location location' : Location)
    (layout : Layout) (mnemonic : String) {operands operands' : List Expr}
    (h : List.Forall₂ (Corresponds environment outer inner) operands operands') :
    Coincide (fun found found' => LaidOutAlike (withoutPlaces found) (withoutPlaces found'))
      (placeOperation environment calls location layout (.instruction mnemonic operands))
      (placeOperation environment calls' location' layout (.instruction mnemonic operands')) := by
  refine laidOutAlike_of_unplaced (placeInstruction_alike_of_reads default _ mnemonic ?_) _ _
  exact h.imp fun operand operand' hreads => hreads.readsAlike houter hinner _

/-- Data reads its parameters, except for texts. When items of data are passed to a macro, through
any number of calls, the data is laid out with the same size and gives the same bytes, or fails for
the same reason, in the body and where the items were written. A text that is passed counts as
many bytes as a number, and the data with it never gives any bytes, as it takes the text for a
number. An item that cannot be bound where it is written cannot be passed either, for the same
reason. -/
theorem data_reads_parameters (houter : outer.calls environment = .ok calls)
    (hinner : inner.calls environment = .ok calls') (location location' : Location)
    (layout : Layout) (width : DataWidth) :
    (∀ operands operands',
      List.Forall₂ (fun operand operand' => Corresponds environment outer inner operand operand' ∧
        operand'.isText = operand.isText) operands operands' →
      Coincide (fun found found' => LaidOutAlike (withoutPlaces found) (withoutPlaces found'))
        (placeOperation environment calls location layout (.data width operands))
        (placeOperation environment calls' location' layout (.data width operands'))) ∧
    (∀ operand' content petscii,
      Passes environment inner operand' outer (.text content petscii) →
      operand'.isText = false →
      (∀ operands placed size next, operand' ∈ operands →
        placeOperation environment calls' location' layout (.data width operands) =
          .ok (placed, size, next) →
        ∀ labels second emitted, emitOperation labels second placed ≠ .ok emitted) ∧
      ∀ found, layout.requireSegment = .ok found →
        ∃ placed next,
          placeOperation environment calls' location' layout (.data width [operand']) =
            .ok (placed, width.bytes, next) ∧
          ∀ labels second,
            emitOperation labels second placed = .error (.eval .stringValue)) ∧
    ∀ name definition before operand after fault,
      environment.macros.get? name = some definition →
      (before ++ operand :: after).length = definition.parameters.length →
      (∀ call ∈ calls, call.name ≠ name) →
      (∀ other ∈ before, ∃ bound, bindArguments calls other = .ok bound) →
      bindArguments calls operand = .error fault →
      openCall environment calls name (before ++ operand :: after) = .error fault ∧
        placeOperation environment calls location layout (.data width [operand]) =
          .error fault := by
  refine ⟨fun operands operands' h => ?_, fun operand' content petscii hpasses htext => ⟨?_, ?_⟩,
    ?_⟩
  · refine laidOutAlike_of_unplaced (placeDataOperation_alike_of_reads default _ width ?_) _ _
    exact h.imp fun operand operand' hreads => ⟨hreads.1.readsAlike houter hinner _, hreads.2⟩
  · intro operands placed size next hmem hplaced labels second emitted hemits
    obtain ⟨⟨items, count, reached⟩, hdata, hresult⟩ := bind_eq_ok.mp hplaced
    cases hresult
    obtain ⟨bound, hbound, hunwrapped⟩ := hpasses.prepareOperand_text houter hinner layout.address
    obtain ⟨item, hitem, hisText, hprepared⟩ :=
      exists_of_forall₂_left (placeData_forall₂ hdata) hmem
    obtain rfl := Except.ok.inj (hprepared.symm.trans hbound)
    obtain ⟨code, hcode, -⟩ := bind_eq_ok.mp hemits
    exact dataCode_of_wrapped hitem (hisText.trans htext) hunwrapped width labels second
      second.address code hcode
  · rintro ⟨key, segment⟩ hsegment
    obtain ⟨bound, hbound, hunwrapped⟩ := hpasses.prepareOperand_text houter hinner layout.address
    have hisText := (isText_prepareOperand hbound).trans htext
    obtain ⟨next, hnext⟩ : ∃ next, layout.refer location' bound = .ok next := by
      rw [Layout.refer, hsegment]
      exact ⟨_, rfl⟩
    refine ⟨.data width [bound], next, ?_, fun labels second => ?_⟩
    · simp only [placeOperation, placeData, placeDatum_of_isText htext, resolveOperand_eq, hbound,
        hnext, ok_bind]
      rfl
    · simp only [emitOperation, dataCode, datumCode_of_isText hisText,
        ← operandNumber_unwrapped labels second bound, hunwrapped]
      rfl
  · intro name definition before operand after fault hdefined hlength hfresh hbefore hfault
    exact ⟨openCall_of_unbound hdefined hlength hfresh hbefore hfault,
      placeData_of_unbound location layout width hfault⟩

/-- A sum with a label is forwarded from one macro to another, which uses it behind a number. -/
theorem data_reads_parameters_forwarded :
    ∃ (environment : Environment) (inner : Site) (calls : List MacroCall) (layout : Layout),
      environment.macros =
        [("put", ⟨["p"], false, [.operation
            (.data .byte [.number (.ofInt 1), .name ⟨"p", false⟩]) default]⟩),
          ("twice", ⟨["q"], false, [.callMacro "put" [.name ⟨"q", false⟩] default]⟩)] ∧
      inner = .body "put" [.name ⟨"q", false⟩] none (.body "twice"
        [.binary .add (.name ⟨"l", false⟩) (.number (.ofInt 1))] none .program) ∧
      inner.calls environment = .ok calls ∧
      Coincide (fun found found' => LaidOutAlike (withoutPlaces found) (withoutPlaces found'))
        (placeOperation environment [] default layout (.data .byte
          [.number (.ofInt 1), .binary .add (.name ⟨"l", false⟩) (.number (.ofInt 1))]))
        (placeOperation environment calls default layout (.data .byte
          [.number (.ofInt 1), .name ⟨"p", false⟩])) ∧
      (placeOperation environment calls default layout (.data .byte
        [.number (.ofInt 1), .name ⟨"p", false⟩])).toOption.map (fun found => found.2.1) =
          some 2 := by
  let environment : Environment :=
    ⟨[("put", ⟨["p"], false, [.operation
        (.data .byte [.number (.ofInt 1), .name ⟨"p", false⟩]) default]⟩),
      ("twice", ⟨["q"], false, [.callMacro "put" [.name ⟨"q", false⟩] default]⟩)], [],
      ⟨.ofTable [], []⟩⟩
  let sum : Expr := .binary .add (.name ⟨"l", false⟩) (.number (.ofInt 1))
  let inner : Site := .body "put" [.name ⟨"q", false⟩] none (.body "twice" [sum] none .program)
  let layout : Layout :=
    { Layout.empty with segments := [("C", .new "c" 0x8000 9 0 default)], current := some "C" }
  have hsum : Passes environment inner (.name ⟨"p", false⟩) .program sum :=
    .parameter rfl (by simp) rfl (.parameter rfl (by simp) rfl (.written _ _))
  refine ⟨environment, inner, _, layout, rfl, rfl, rfl, ?_, rfl⟩
  exact (data_reads_parameters rfl rfl default default layout .byte).1 [.number (.ofInt 1), sum]
    [.number (.ofInt 1), .name ⟨"p", false⟩]
    (.cons ⟨.kept (by simp [Expr.openNames]) (by simp [Expr.openNames]), rfl⟩
      (.cons ⟨.passed hsum, rfl⟩ .nil))

/-- A text that is passed to a macro does not read as the text: it counts one byte instead of
two. -/
theorem text_parameter_counts_as_number :
    ¬∀ (environment : Environment) (outer inner : Site) calls calls' location layout width operand
        operand',
      outer.calls environment = .ok calls → inner.calls environment = .ok calls' →
      Passes environment inner operand' outer operand →
      Coincide (fun found found' => LaidOutAlike (withoutPlaces found) (withoutPlaces found'))
        (placeOperation environment calls location layout (.data width [operand]))
        (placeOperation environment calls' location layout (.data width [operand'])) := by
  intro h
  let environment : Environment :=
    ⟨[("m", ⟨["p"], false, [.operation (.data .byte [.name ⟨"p", false⟩]) default]⟩)], [],
      ⟨.ofTable [], []⟩⟩
  let layout : Layout :=
    { Layout.empty with segments := [("C", .new "c" 0x8000 9 0 default)], current := some "C" }
  have hsame := h environment .program (.body "m" [.text "ab" false] none .program) _ _ default
    layout .byte _ (.name ⟨"p", false⟩) rfl rfl (.parameter rfl (by simp) rfl (.written _ _))
  cases hsame with
  | ok results => cases results.size

end Law

end Asm65816
