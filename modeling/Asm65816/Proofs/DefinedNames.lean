import Asm65816.Proofs.WalkHistory

/-!
# What a layout defines

Of a layout its segments, their labels and the global names are definitions; code, references, the
cursor and the flow structures are not. Four operations define something: they create a segment,
declare a label, or make one name or all names of a segment global. All others leave the definitions
alone. A label that is declared for the first time has a name that stands for nothing else.
-/

namespace Asm65816

namespace Table

variable {α β : Type}

/-- Changing a value and changing all values can be done in either order. -/
theorem map_alter (table : Table α) (name : String) (value : α) (change : String → α → β) :
    (table.alter name fun _ => value).map (fun entry => (entry.1, change entry.1 entry.2)) =
      Table.alter (table.map fun entry => (entry.1, change entry.1 entry.2)) name
        fun _ => change name value := by
  induction table with
  | nil => rfl
  | cons entry rest ih =>
    obtain ⟨key, old⟩ := entry
    simp only [alter, List.map_cons]
    split
    case isTrue hkey => rw [List.map_cons, hkey]
    case isFalse => rw [List.map_cons, ih]

/-- Giving a name the value that it has changes nothing. -/
theorem alter_of_get? {table : Table α} {name : String} {value : α}
    (h : table.get? name = some value) : (table.alter name fun _ => value) = table := by
  induction table with
  | nil => rfl
  | cons entry rest ih =>
    obtain ⟨key, old⟩ := entry
    unfold get? at h
    unfold alter
    split at h
    case isTrue hkey =>
      obtain rfl := Option.some.inj h
      rw [if_pos hkey]
    case isFalse hkey => rw [if_neg hkey, ih h]

end Table

/-- What is defined in a segment. -/
def Segment.definitions (segment : Segment) : Segment :=
  { segment with resume := segment.start, bytes := ByteMap.empty, references := [] }

namespace Layout

/-- What is defined in a layout. -/
def definitions (layout : Layout) : Layout :=
  { Layout.empty with
    segments := layout.segments.map fun entry => (entry.1, entry.2.definitions)
    requests := layout.requests
    globals := layout.globals }

/-- The label that a segment declares under a name. -/
def label? (layout : Layout) (key name : String) : Option Label :=
  (layout.segments.get? key).bind fun segment => segment.label? name

theorem get?_definitions (layout : Layout) (key : String) :
    layout.definitions.segments.get? key =
      (layout.segments.get? key).map Segment.definitions :=
  Table.get?_map layout.segments Segment.definitions key

theorem label?_definitions (layout : Layout) (key name : String) :
    layout.definitions.label? key name = layout.label? key name := by
  rw [label?, label?, get?_definitions, Option.bind_map]
  rfl

/-- Replacing the current segment by one with the same definitions defines nothing. -/
theorem setCurrent_definitions {layout : Layout} {key : String} {found segment : Segment}
    (h : layout.requireSegment = .ok (key, found))
    (hsame : segment.definitions = found.definitions) :
    (layout.setSegment key segment).definitions = layout.definitions := by
  have hfound : layout.definitions.segments.get? key = some found.definitions := by
    rw [get?_definitions, (requireSegment_eq_ok.mp h).2, Option.map_some]
  have hsegments : (layout.setSegment key segment).definitions.segments =
      layout.definitions.segments := by
    rw [← hsame] at hfound
    exact (Table.map_alter _ _ _ fun _ => Segment.definitions).trans (Table.alter_of_get? hfound)
  exact congrArg (fun segments => { layout.definitions with segments := segments }) hsegments

theorem refer_definitions {layout next : Layout} {location : Location} {operand : Expr}
    (h : layout.refer location operand = .ok next) : next.definitions = layout.definitions := by
  obtain ⟨key, segment, hcurrent, rfl⟩ := refer_eq_ok h
  exact setCurrent_definitions hcurrent rfl

theorem occupy_definitions {layout next : Layout} {size : Nat}
    (h : layout.occupy size = .ok next) : next.definitions = layout.definitions := by
  obtain ⟨-, rfl⟩ | ⟨-, h⟩ := occupy_eq_ok.mp h
  · rfl
  · obtain ⟨key, segment, hcurrent, -, rfl⟩ := advance_eq_ok.mp h
    have hset : (layout.setSegment key
        { segment with resume := layout.address + size }).definitions = layout.definitions :=
      setCurrent_definitions hcurrent rfl
    exact hset

end Layout

/-! ## Names that stand for nothing else -/

/-- Lower case does not tell whether a letter was in upper case before. -/
theorem toLower_toUpper (c : Char) : c.toUpper.toLower = c.toLower := by
  by_cases hascii : c.toNat < 0x80
  · have hall : ∀ code : Fin 0x80,
        (Char.ofNat code).toUpper.toLower = (Char.ofNat code).toLower := by decide
    have hc := hall ⟨c.toNat, hascii⟩
    rwa [Char.ofNat_toNat] at hc
  · have hupper : c.toUpper = c := by
      refine dif_neg fun hletter => hascii ?_
      have hlast : c.val.toNat ≤ 122 := UInt32.le_iff_toNat_le.mp hletter.2
      have hcode : c.toNat = c.val.toNat := rfl
      omega
    rw [hupper]

/-- The table spells its mnemonics in lower case. -/
theorem Opcode.lowerAscii_mnemonic :
    ∀ entry ∈ Opcode.table, lowerAscii entry.mnemonic = entry.mnemonic := by
  decide +kernel

/-- A name that is no mnemonic is none in any letter case. -/
theorem Opcode.sameLetters_eq_false {name : String} (h : Opcode.isMnemonic name = false)
    {entry : Opcode} (hentry : entry ∈ Opcode.table) :
    sameLetters entry.mnemonic name = false := by
  rw [Bool.eq_false_iff]
  intro hsame
  have hupper : entry.mnemonic.toList.map Char.toUpper = name.toList.map Char.toUpper :=
    eq_of_beq hsame
  have hlower : lowerAscii entry.mnemonic = lowerAscii name := by
    have hboth := congrArg (List.map Char.toLower) hupper
    simp only [List.map_map, Function.comp_def, toLower_toUpper] at hboth
    rw [lowerAscii, lowerAscii, hboth]
  have hfound : entry ∈ Opcode.entries name := by
    refine List.mem_filter.mpr ⟨hentry, ?_⟩
    rw [← hlower, lowerAscii_mnemonic entry hentry, beq_self_eq_true]
  have hnone : Opcode.entries name = [] := by
    simpa only [Opcode.isMnemonic, Bool.not_eq_false', List.isEmpty_iff] using h
  rw [hnone] at hfound
  cases hfound

/-- A name that is no equate, no macro and no word of the language in any letter case, and does not
begin with a period. -/
structure FreeName (equates : Table Number) (macros : Table MacroDefinition) (name : String) :
    Prop where
  notEquate : equates.get? name = none
  notMacro : macros.get? name = none
  notReserved : ∀ word ∈ reservedNames, sameLetters word name = false
  notMnemonic : ∀ entry ∈ Opcode.table, sameLetters entry.mnemonic name = false
  noPeriod : beginsWith '.' name = false

/-- A name without fault stands for nothing else and is no label. -/
theorem nameFault?_eq_none {equates : Table Number} {macros : Table MacroDefinition}
    {isLabel : Bool} {name : String} (h : nameFault? equates macros isLabel name = none) :
    isLabel = false ∧ FreeName equates macros name := by
  have hrefuse {condition : Bool} {fault : Fault} {rest : Option Fault} :
      (if condition then some fault else rest) = none ↔ condition = false ∧ rest = none := by
    cases condition <;> simp
  simp only [nameFault?, hrefuse, and_true] at h
  obtain ⟨hperiod, hlabel, hreserved, hequate, hmnemonic, hmacro⟩ := h
  refine ⟨hlabel, ?_, ?_, ?_, ?_, hperiod⟩
  · simpa only [Table.has, Option.isSome_eq_false_iff, Option.isNone_iff_eq_none] using hequate
  · simpa only [Table.has, Option.isSome_eq_false_iff, Option.isNone_iff_eq_none] using hmacro
  · intro word hword
    exact Bool.eq_false_iff.mpr (List.any_eq_false.mp hreserved word hword)
  · exact fun entry hentry => Opcode.sameLetters_eq_false hmnemonic hentry

/-- The name that a declaration of a label declares. -/
def declaredName (name : String) : String := if isLocal name then declaredStem name else name

/-- A declaration declares a local label exactly when it is written as one. -/
theorem isLocal_declaredName (name : String) : isLocal (declaredName name) = isLocal name := by
  cases hlocal : isLocal name with
  | false => rw [declaredName, hlocal, if_neg Bool.false_ne_true, hlocal]
  | true =>
    rw [declaredName, hlocal, if_pos rfl]
    cases hname : name.toList with
    | nil => simp [isLocal, beginsWith, hname] at hlocal
    | cons first rest =>
      obtain rfl : first = '@' := by simpa [isLocal, beginsWith, hname] using hlocal
      simp only [isLocal, beginsWith, declaredStem, hname, List.reverse_cons,
        List.dropWhile_append, String.toList_ofList]
      split
      · rfl
      · simp

namespace Layout

/-- Publishing a label makes it global when its segment or a request asks for it. -/
theorem publish_cases (layout : Layout) (key name : String) (globalAll : Bool) :
    layout.publish key name globalAll = layout ∨
      (globalAll = true ∨ layout.requests.get? name = some key) ∧
        layout.publish key name globalAll =
          { layout with globals := layout.globals.put name key } := by
  unfold publish
  split
  case isTrue hasked => exact .inr ⟨by simpa using hasked, rfl⟩
  case isFalse => exact .inl rfl

/-- Declaring a label adds an address to a local label of the current segment, or declares a new
label there under a name that stands for nothing else. -/
theorem declareLabel_cases {environment : Environment} {layout next : Layout} {location : Location}
    {name : String} (h : layout.declareLabel environment location name = .ok next) :
    ∃ key segment, layout.requireSegment = .ok (key, segment) ∧
      ((∃ label, isLocal name = true ∧ segment.label? (declaredName name) = some label ∧
          next = layout.setSegment key (segment.redeclare (declaredName name) layout.address)) ∨
        (segment.label? (declaredName name) = none ∧
          FreeName environment.equates environment.macros (declaredName name) ∧
          next = (layout.setSegment key
            (segment.declare (declaredName name) layout.address location)).publish key
              (declaredName name) segment.globalAll)) := by
  unfold declareLabel at h
  obtain ⟨⟨key, segment⟩, hcurrent, h⟩ := bind_eq_ok.mp h
  change (if (isLocal name && (segment.label? (declaredName name)).isSome) = true then _ else _) =
    _ at h
  refine ⟨key, segment, hcurrent, ?_⟩
  split at h
  case isTrue hagain =>
    obtain rfl := pure_eq_ok.mp h
    obtain ⟨hlocal, hdeclared⟩ := Bool.and_eq_true_iff.mp hagain
    obtain ⟨label, hlabel⟩ := Option.isSome_iff_exists.mp hdeclared
    exact .inl ⟨label, hlocal, hlabel, rfl⟩
  case isFalse hnew =>
    dsimp only at h
    split at h
    case h_1 => cases h
    case h_2 hfault =>
      obtain rfl := pure_eq_ok.mp h
      obtain ⟨hlabel, hfree⟩ := nameFault?_eq_none hfault
      refine .inr ⟨?_, hfree, rfl⟩
      -- A local label that is declared is declared again, and another one is refused.
      change ((segment.label? (declaredName name)).isSome && !isLocal (declaredName name) ||
        layout.globals.has (declaredName name)) = false at hlabel
      rw [isLocal_declaredName] at hlabel
      cases hlocal : isLocal name with
      | true => simpa [hlocal] using hnew
      | false =>
        rw [hlocal] at hlabel
        simpa using (Bool.or_eq_false_iff.mp hlabel).1

/-- Making a name global records the request, and publishes the label if it is declared. -/
theorem setGlobal_cases {layout next : Layout} {name : String}
    (h : layout.setGlobal name = .ok next) :
    ∃ key, next.segments = layout.segments ∧ next.requests = layout.requests.put name key ∧
      (next.globals = layout.globals ∨
        (layout.label? key name).isSome ∧ next.globals = layout.globals.put name key) := by
  unfold setGlobal at h
  obtain ⟨⟨key, segment⟩, hcurrent, h⟩ := bind_eq_ok.mp h
  refine ⟨key, ?_⟩
  dsimp only at h
  split at h
  case isTrue hdeclared =>
    obtain rfl := pure_eq_ok.mp h
    refine ⟨rfl, rfl, .inr ⟨?_, rfl⟩⟩
    rw [label?, (requireSegment_eq_ok.mp hcurrent).2]
    exact hdeclared
  case isFalse =>
    obtain rfl := pure_eq_ok.mp h
    exact ⟨rfl, rfl, .inl rfl⟩

/-- The labels after the current segment is replaced. -/
theorem label?_setCurrent {layout : Layout} {key : String} {found : Segment}
    (h : layout.requireSegment = .ok (key, found)) (segment : Segment) (other name : String) :
    (layout.setSegment key segment).label? other name =
      if key = other then segment.label? name else layout.label? other name := by
  simp only [label?, get?_setSegment]
  split
  case isTrue hkey =>
    rw [← hkey, (requireSegment_eq_ok.mp h).2]
    rfl
  case isFalse => rfl

end Layout

/-! ## Operands -/

section Preparing

variable {environment : Environment} {calls : List MacroCall} {location : Location}

theorem resolveOperand_definitions {layout next : Layout} {operand bound : Expr}
    (h : resolveOperand environment calls location layout operand = .ok (bound, next)) :
    next.definitions = layout.definitions := by
  simp only [resolveOperand, bind_eq_ok, pure_eq_ok, Prod.mk.injEq] at h
  obtain ⟨argued, -, equated, -, referred, hrefer, -, rfl⟩ := h
  exact Layout.refer_definitions hrefer

theorem resolveOperands_definitions {operands bound : List Expr} {layout next : Layout}
    (h : resolveOperands environment calls location operands layout = .ok (bound, next)) :
    next.definitions = layout.definitions := by
  induction operands generalizing layout bound with
  | nil =>
    cases h
    rfl
  | cons operand rest ih =>
    simp only [resolveOperands, bind_eq_ok, pure_eq_ok] at h
    obtain ⟨⟨first, mid⟩, hfirst, ⟨others, reached⟩, hothers, hresult⟩ := h
    cases hresult
    exact (ih hothers).trans (resolveOperand_definitions hfirst)

theorem placeDatum_definitions {width : DataWidth} {operand bound : Expr} {size : Nat}
    {layout next : Layout}
    (h : placeDatum environment calls location width layout operand = .ok (bound, size, next)) :
    next.definitions = layout.definitions := by
  cases operand with
  | text content petscii =>
    obtain ⟨-, h⟩ := demand_eq_ok.mp h
    cases h
    rfl
  | _ =>
    simp only [placeDatum, bind_eq_ok, pure_eq_ok] at h
    obtain ⟨⟨resolved, found⟩, hresolved, h⟩ := h
    cases h
    exact resolveOperand_definitions hresolved

theorem placeData_definitions {width : DataWidth} {operands bound : List Expr} {size : Nat}
    {layout next : Layout}
    (h : placeData environment calls location width operands layout = .ok (bound, size, next)) :
    next.definitions = layout.definitions := by
  induction operands generalizing layout bound size with
  | nil =>
    cases h
    rfl
  | cons operand rest ih =>
    simp only [placeData, bind_eq_ok, pure_eq_ok] at h
    obtain ⟨⟨first, count, mid⟩, hfirst, ⟨others, more, reached⟩, hothers, hresult⟩ := h
    cases hresult
    exact (ih hothers).trans (placeDatum_definitions hfirst)

end Preparing

/-! ## Operations -/

/-- What a task of the first walk defines, and the event that it does. -/
inductive TaskDefines (environment : Environment) (layout next : Layout) : Task → Event → Prop where
  | segment (calls : List MacroCall) (name : String) (start size fileOffset : Int)
      (location : Location)
      (added : layout.addSegment (.new name start size fileOffset location) = .ok next) :
      TaskDefines environment layout next
        (.action calls (.operation (.createSegment name start size fileOffset) location))
        (.operation (.createSegment name start size fileOffset) 0 location)
  | label (calls : List MacroCall) (name : String) (location : Location)
      (declared : layout.declareLabel environment location name = .ok next) :
      TaskDefines environment layout next (.action calls (.operation (.declareLabel name) location))
        (.operation (.declareLabel name) 0 location)
  | globalName (calls : List MacroCall) (name : String) (location : Location)
      (published : layout.setGlobal name = .ok next) :
      TaskDefines environment layout next (.action calls (.operation (.setGlobal name) location))
        (.operation .settled 0 location)
  | globalAll (calls : List MacroCall) (location : Location)
      (published : layout.setGlobalAll = .ok next) :
      TaskDefines environment layout next (.action calls (.operation .setGlobalAll location))
        (.operation .settled 0 location)
  | nothing (task : Task) {event : Event}
      (undeclared : ∀ name size location, event ≠ .operation (.declareLabel name) size location)
      (same : next.definitions = layout.definitions) :
      TaskDefines environment layout next task event

section Placing

variable {environment : Environment} {calls : List MacroCall} {location : Location}
  {layout mid next : Layout}

/-- Laying out an operation and moving on defines what the operation says. -/
theorem placeOperation_defines {operation : Operation} {placed : PlacedOperation} {size : Nat}
    (h : placeOperation environment calls location layout operation = .ok (placed, size, mid))
    (hoccupied : mid.occupy size = .ok next) :
    TaskDefines environment layout next (.action calls (.operation operation location))
      (.operation placed size location) := by
  have hnext := Layout.occupy_definitions hoccupied
  -- An operation without a size is done where it stands.
  have hstays (hsize : size = 0) : mid = next := by
    subst hsize
    exact Except.ok.inj hoccupied
  unfold placeOperation at h
  cases operation with
  | createSegment name start size fileOffset =>
    obtain ⟨added, hadded, h⟩ := bind_eq_ok.mp h
    cases h
    obtain rfl := hstays rfl
    exact .segment _ _ _ _ _ _ hadded
  | declareLabel name =>
    obtain ⟨declared, hdeclared, h⟩ := bind_eq_ok.mp h
    cases h
    obtain rfl := hstays rfl
    exact .label _ _ _ hdeclared
  | setGlobal name =>
    obtain ⟨published, hpublished, h⟩ := bind_eq_ok.mp h
    cases h
    obtain rfl := hstays rfl
    exact .globalName _ _ _ hpublished
  | setGlobalAll =>
    obtain ⟨published, hpublished, h⟩ := bind_eq_ok.mp h
    cases h
    obtain rfl := hstays rfl
    exact .globalAll _ _ hpublished
  | changeSegment name =>
    obtain ⟨entered, hentered, h⟩ := bind_eq_ok.mp h
    cases h
    obtain ⟨segment, -, rfl⟩ := Layout.enter_eq_ok.mp hentered
    exact .nothing _ (by simp) hnext
  | setOrigin operand =>
    obtain ⟨found, -, h⟩ := bind_eq_ok.mp h
    obtain ⟨origin, -, h⟩ := bind_eq_ok.mp h
    cases h
    exact .nothing _ (by simp) hnext
  | setWidth register wide =>
    cases h
    refine .nothing _ (by simp) (hnext.trans ?_)
    cases register
    · rfl
    · rfl
  | instruction mnemonic operands =>
    obtain ⟨-, h⟩ := refuse_eq_ok.mp h
    obtain ⟨⟨bound, resolved⟩, hresolved, h⟩ := bind_eq_ok.mp h
    obtain ⟨opcode, -, h⟩ := bind_eq_ok.mp h
    cases h
    exact .nothing _ (by simp) (hnext.trans (resolveOperands_definitions hresolved))
  | data width operands =>
    obtain ⟨⟨bound, count, resolved⟩, hresolved, h⟩ := bind_eq_ok.mp h
    cases h
    exact .nothing _ (by simp) (hnext.trans (placeData_definitions hresolved))
  | fill wide count value =>
    obtain ⟨⟨boundCount, first⟩, hcount, h⟩ := bind_eq_ok.mp h
    obtain ⟨⟨boundValue, resolved⟩, hvalue, h⟩ := bind_eq_ok.mp h
    obtain ⟨number, -, h⟩ := bind_eq_ok.mp h
    cases h
    have hprepared := (resolveOperand_definitions hvalue).trans (resolveOperand_definitions hcount)
    exact .nothing _ (by simp) (hnext.trans hprepared)
  | includeBinary path =>
    obtain ⟨found, -, h⟩ := bind_eq_ok.mp h
    obtain ⟨asset, -, h⟩ := bind_eq_ok.mp h
    cases h
    exact .nothing _ (by simp) hnext
  | includeSource path =>
    cases h
    exact .nothing _ (by simp) hnext
  | flow statement =>
    obtain ⟨⟨step, number, count, moved⟩, hmoved, h⟩ := bind_eq_ok.mp h
    cases h
    obtain ⟨-, -, hmid⟩ := placeFlow_move hmoved
    refine .nothing _ (by simp) (hnext.trans ?_)
    rw [hmid]
    rfl

/-- Every task defines what its operation says, and other tasks define nothing. -/
theorem Task.advance_defines {task : Task} {event : Event} {more : List Task}
    (h : task.advance environment layout = .ok (event, next, more)) :
    TaskDefines environment layout next task event := by
  cases Task.advance_move h with
  | operation moves occupies =>
    obtain ⟨calls, operation, mid, rfl, hplaced, hoccupied, -⟩ := Task.advance_operation h
    exact placeOperation_defines hplaced hoccupied
  | enter call location => exact .nothing _ (by simp) rfl
  | leave location => exact .nothing _ (by simp) rfl

end Placing

end Asm65816
