import Asm65816.Output.IntelHex

/-!
# Reading Intel HEX back

A strict reader of Intel HEX: every line is a colon and pairs of digits, the bytes of a line are a
record of the length it states and add up to zero, data stays within its bank of 64 KiB, and the
end is said exactly once and last. What the writer makes of an image passes this reader and loads
to the image again.
-/

namespace Asm65816

/-! ## The reader -/

/-- The lines of a text, each ended by a newline; what follows the last newline is a line too. -/
def textLines : List Char → List (List Char)
  | [] => []
  | c :: rest =>
    if c = '\n' then [] :: textLines rest
    else match textLines rest with
      | [] => [[c]]
      | line :: lines => (c :: line) :: lines

/-- The bytes of pairs of digits. -/
def hexPairs : List Char → Option (List UInt8)
  | [] => some []
  | [_] => none
  | first :: second :: rest => do
    let high ← digitValue? 16 first
    let low ← digitValue? 16 second
    let bytes ← hexPairs rest
    return UInt8.ofNat (high * 16 + low) :: bytes

/-- The kind of a record from its number. -/
def HexRecordKind.ofCode? (code : UInt8) : Option HexRecordKind :=
  if code = 0 then some .data
  else if code = 1 then some .endOfFile
  else if code = 4 then some .upperAddress
  else none

/-- The record of a line of bytes: the number of its data bytes, its address, its kind, its data
and its checksum. -/
def decodeRecord : List UInt8 → Option HexRecord
  | count :: high :: low :: code :: rest => do
    let kind ← HexRecordKind.ofCode? code
    if rest.length = count.toNat + 1 ∧
        (count :: high :: low :: code :: rest).foldl (· + ·) 0 = 0 then
      return ⟨kind, high.toNat * 256 + low.toNat, rest.dropLast⟩
    else none
  | _ => none

/-- The record of a line of text. -/
def readRecord : List Char → Option HexRecord
  | ':' :: digits => do decodeRecord (← hexPairs digits)
  | _ => none

/-- Bytes with their addresses, from `address` up. -/
def writesFrom (address : Nat) (data : List UInt8) : List (Nat × UInt8) :=
  (data.zipIdx address).map Prod.swap

/-- What records write in order, when `upper` are the upper sixteen bits of the addresses. -/
def loadRecords (upper : Nat) : List HexRecord → Option (List (Nat × UInt8))
  | [] => none
  | ⟨.data, address, data⟩ :: rest => do
    if address + data.length ≤ 65536 then
      let later ← loadRecords upper rest
      return writesFrom (upper * 65536 + address) data ++ later
    else none
  | ⟨.upperAddress, _, [high, low]⟩ :: rest =>
    loadRecords (high.toNat * 256 + low.toNat) rest
  | ⟨.upperAddress, _, _⟩ :: _ => none
  | ⟨.endOfFile, _, data⟩ :: rest => if data = [] ∧ rest = [] then some [] else none

/-- What an Intel HEX file writes in order, if it is one. -/
def readIntelHex (text : String) : Option (List (Nat × UInt8)) := do
  loadRecords 0 (← (textLines text.toList).mapM readRecord)

/-- A memory after writes in order. -/
def loadMemory (memory : Nat → UInt8) (writes : List (Nat × UInt8)) : Nat → UInt8 :=
  writes.foldl (fun memory write address => if address = write.1 then write.2 else memory address)
    memory

/-! ## Reading lines -/

/-- The first line of a text ends at the first newline. -/
theorem textLines_append {line : List Char} (rest : List Char) (h : '\n' ∉ line) :
    textLines (line ++ '\n' :: rest) = line :: textLines rest := by
  induction line with
  | nil => simp [textLines]
  | cons c line ih =>
    rw [List.mem_cons, not_or] at h
    rw [List.cons_append, textLines, if_neg fun heq => h.1 heq.symm, ih h.2]

/-- The digits of a byte are read back. -/
theorem hexByte_digits (byte : UInt8) :
    ∃ first second, (hexByte byte).toList = [first, second] ∧
      digitValue? 16 first = some (byte.toNat / 16) ∧
      digitValue? 16 second = some (byte.toNat % 16) ∧ '\n' ∉ [first, second] := by
  have hall : ∀ value : Fin 256,
      (List.replicate (2 - (digitsIn 16 value.val).length) '0' ++ digitsIn 16 value.val).map
          (digitValue? 16) = [some (value.val / 16), some (value.val % 16)] ∧
        '\n' ∉
          List.replicate (2 - (digitsIn 16 value.val).length) '0' ++ digitsIn 16 value.val := by
    decide +kernel
  obtain ⟨hvalues, hnewline⟩ := hall ⟨byte.toNat, byte.toNat_lt⟩
  have hlist : (hexByte byte).toList =
      List.replicate (2 - (digitsIn 16 byte.toNat).length) '0' ++ digitsIn 16 byte.toNat := by
    rw [hexByte, paddedDigits, String.toList_ofList]
  rw [← hlist] at hvalues hnewline
  obtain ⟨first, rest, hdigits, hfirst, hrest⟩ := List.map_eq_cons_iff.mp hvalues
  obtain ⟨second, rfl, hsecond⟩ := List.map_eq_singleton_iff.mp hrest
  exact ⟨first, second, hdigits, hfirst, hsecond, hdigits ▸ hnewline⟩

/-- The digits of bytes are read back. -/
theorem hexPairs_digits (bytes : List UInt8) :
    hexPairs (bytes.flatMap fun byte => (hexByte byte).toList) = some bytes := by
  induction bytes with
  | nil => rfl
  | cons byte rest ih =>
    obtain ⟨first, second, hdigits, hfirst, hsecond, -⟩ := hexByte_digits byte
    have hvalue : byte.toNat / 16 * 16 + byte.toNat % 16 = byte.toNat := by omega
    rw [List.flatMap_cons, hdigits, List.cons_append, List.singleton_append, hexPairs, hfirst,
      hsecond, ih]
    simp only [Option.bind_eq_bind, Option.bind_some, hvalue, UInt8.ofNat_toNat]
    rfl

/-- The digits of bytes stay on their line. -/
theorem newline_not_mem_digits (bytes : List UInt8) :
    '\n' ∉ bytes.flatMap fun byte => (hexByte byte).toList := by
  intro hmem
  obtain ⟨byte, -, hbyte⟩ := List.mem_flatMap.mp hmem
  obtain ⟨first, second, hdigits, -, -, hnone⟩ := hexByte_digits byte
  exact hnone (hdigits ▸ hbyte)

namespace HexRecord

/-- A record whose length and address have room in their fields. -/
structure Fits (record : HexRecord) : Prop where
  count : record.data.length < 256
  address : record.address < 65536

/-- The bytes of a record with its checksum. -/
def line (record : HexRecord) : List UInt8 := record.body ++ [checksum record.body]

/-- The bytes of every record add up to zero. -/
theorem sum_line (record : HexRecord) : record.line.foldl (· + ·) 0 = 0 := by
  rw [line, List.foldl_append, List.foldl_cons, List.foldl_nil, checksum]
  generalize record.body.foldl (· + ·) 0 = sum
  rw [UInt8.zero_sub, UInt8.add_right_neg]

/-- The kind of a record is read back. -/
theorem ofCode?_code (kind : HexRecordKind) : HexRecordKind.ofCode? kind.code = some kind := by
  cases kind <;> rfl

/-- A record is read back from its bytes. -/
theorem decodeRecord_line {record : HexRecord} (h : record.Fits) :
    decodeRecord record.line = some record := by
  have hcount : (UInt8.ofNat record.data.length).toNat = record.data.length :=
    UInt8.toNat_ofNat_of_lt h.count
  have haddress : (UInt8.ofNat (record.address / 256)).toNat * 256 +
      (UInt8.ofNat record.address).toNat = record.address := by
    have hlt := h.address
    rw [UInt8.toNat_ofNat', UInt8.toNat_ofNat']
    omega
  have hsum := record.sum_line
  have hline : record.line = UInt8.ofNat record.data.length ::
      UInt8.ofNat (record.address / 256) :: UInt8.ofNat record.address :: record.kind.code ::
        (record.data ++ [checksum record.body]) := rfl
  rw [hline] at hsum ⊢
  rw [decodeRecord, ofCode?_code]
  have hlength : (record.data ++ [checksum record.body]).length =
      (UInt8.ofNat record.data.length).toNat + 1 := by
    rw [List.length_append, List.length_singleton, hcount]
  simp only [Option.bind_eq_bind, Option.bind_some, hlength, hsum, and_self, if_true, haddress,
    List.dropLast_concat]
  rfl

/-- The text of a record is one line. -/
theorem toList_render (record : HexRecord) :
    record.render.toList =
      (':' :: record.line.flatMap fun byte => (hexByte byte).toList) ++ ['\n'] := by
  have hcolon : ":".toList = [':'] := rfl
  have hend : "\n".toList = ['\n'] := rfl
  rw [render, String.toList_append, String.toList_append, String.toList_join, List.flatMap_map,
    hcolon, hend, List.singleton_append, line]

/-- A record is read back from its line of text. -/
theorem readRecord_line {record : HexRecord} (h : record.Fits) :
    readRecord (':' :: record.line.flatMap fun byte => (hexByte byte).toList) = some record := by
  rw [readRecord, hexPairs_digits]
  exact decodeRecord_line h

end HexRecord

/-- Records are read back from their text. -/
theorem readRecords_render {records : List HexRecord} (h : ∀ record ∈ records, record.Fits) :
    (textLines (String.join (records.map HexRecord.render)).toList).mapM readRecord =
      some records := by
  rw [String.toList_join, List.flatMap_map]
  induction records with
  | nil => rfl
  | cons record rest ih =>
    have hnewline : '\n' ∉ ':' :: record.line.flatMap fun byte => (hexByte byte).toList := by
      rw [List.mem_cons, not_or]
      exact ⟨by decide, newline_not_mem_digits _⟩
    have hrest := ih fun other hother => h other (List.mem_cons_of_mem _ hother)
    rw [List.flatMap_cons, HexRecord.toList_render, List.append_assoc, List.singleton_append,
      textLines_append _ hnewline, List.mapM_cons,
      HexRecord.readRecord_line (h record List.mem_cons_self), hrest]
    rfl

/-! ## Loading records -/

/-- The writes of data in two parts. -/
theorem writesFrom_append (address : Nat) (first second : List UInt8) :
    writesFrom address (first ++ second) =
      writesFrom address first ++ writesFrom (address + first.length) second := by
  rw [writesFrom, List.zipIdx_append, List.map_append, writesFrom, writesFrom]

/-- The writes of data are its bytes at consecutive addresses. -/
theorem mem_writesFrom {address target : Nat} {data : List UInt8} {byte : UInt8} :
    (target, byte) ∈ writesFrom address data ↔
      address ≤ target ∧ data[target - address]? = some byte := by
  rw [← List.mk_mem_zipIdx_iff_le_and_getElem?_sub, writesFrom, List.mem_map]
  constructor
  · rintro ⟨⟨found, index⟩, hmem, heq⟩
    obtain ⟨rfl, rfl⟩ := Prod.mk.inj heq
    exact hmem
  · intro hmem
    exact ⟨(byte, target), hmem, rfl⟩

/-- The addresses of data. -/
theorem map_fst_writesFrom (address : Nat) (data : List UInt8) :
    (writesFrom address data).map Prod.fst = List.range' address data.length := by
  rw [writesFrom, List.map_map]
  exact List.zipIdx_map_snd address data

/-- Writes that restore data from `address` on: some of the writes of the data, in order, and all
of those whose byte is not the stripped one. -/
structure Restores (stripped : Option UInt8) (address : Nat) (data : List UInt8)
    (writes : List (Nat × UInt8)) : Prop where
  sublist : writes.Sublist (writesFrom address data)
  complete : ∀ write ∈ writesFrom address data, write ∈ writes ∨ stripped = some write.2
  whole : stripped = none → writes = writesFrom address data

namespace Restores

variable {stripped : Option UInt8} {address : Nat} {first second : List UInt8}
  {writes : List (Nat × UInt8)}

/-- A part that is written in front of a part that is restored. -/
theorem written (h : Restores stripped (address + first.length) second writes) :
    Restores stripped address (first ++ second) (writesFrom address first ++ writes) := by
  refine ⟨?_, fun write hwrite => ?_, fun hwhole => ?_⟩
  · rw [writesFrom_append]
    exact h.sublist.append_left _
  · rw [writesFrom_append] at hwrite
    rcases List.mem_append.mp hwrite with hfirst | hsecond
    · exact .inl (List.mem_append_left _ hfirst)
    · exact (h.complete write hsecond).imp_left (List.mem_append_right _)
  · rw [writesFrom_append, h.whole hwhole]

/-- A part of stripped bytes in front of a part that is restored. -/
theorem skipped {unused : UInt8} (hunused : ∀ byte ∈ first, byte = unused)
    (h : Restores (some unused) (address + first.length) second writes) :
    Restores (some unused) address (first ++ second) writes := by
  refine ⟨?_, fun write hwrite => ?_, fun hwhole => by cases hwhole⟩
  · rw [writesFrom_append]
    exact h.sublist.trans (List.sublist_append_right _ _)
  · rw [writesFrom_append] at hwrite
    rcases List.mem_append.mp hwrite with hfirst | hsecond
    · obtain ⟨-, hbyte⟩ := mem_writesFrom.mp hfirst
      have hmem := List.mem_of_getElem? hbyte
      exact .inr (congrArg some (hunused _ hmem).symm)
    · exact h.complete write hsecond

end Restores

/-- A bank number of two bytes is read back. -/
theorem bigEndian_bank {bank : Nat} (h : bank < 65536) :
    ∃ high low, HexRecord.bigEndian (bank % 65536) = [high, low] ∧
      high.toNat * 256 + low.toNat = bank := by
  refine ⟨_, _, rfl, ?_⟩
  rw [UInt8.toNat_ofNat', UInt8.toNat_ofNat']
  omega

/-- Loading the records of one piece of an image sets the bank if it changes and writes the
piece. -/
theorem loadRecords_piece {offset bank : Nat} {data : List UInt8} {rest : List HexRecord}
    {writes : List (Nat × UInt8)} (halign : offset % 16 = 0) (hdata : data.length ≤ 16)
    (hroom : offset < 0x100000000) (hrest : loadRecords (offset / 65536) rest = some writes) :
    loadRecords bank ((if offset / 65536 = bank then []
      else [⟨.upperAddress, 0, HexRecord.bigEndian (offset / 65536 % 65536)⟩]) ++
        ⟨.data, offset % 65536, data⟩ :: rest) = some (writesFrom offset data ++ writes) := by
  have hwithin : offset % 65536 + data.length ≤ 65536 := by omega
  have haddress : offset / 65536 * 65536 + offset % 65536 = offset := by omega
  have hwritten : loadRecords (offset / 65536) (⟨.data, offset % 65536, data⟩ :: rest) =
      some (writesFrom offset data ++ writes) := by
    rw [loadRecords, if_pos hwithin, hrest, haddress]
    rfl
  split
  case isTrue hsame =>
    rw [List.nil_append, ← hsame]
    exact hwritten
  case isFalse =>
    obtain ⟨high, low, hbytes, hbank⟩ := bigEndian_bank (show offset / 65536 < 65536 by omega)
    rw [hbytes, List.singleton_append, loadRecords, hbank]
    exact hwritten

/-- Loading the records of the rest of an image restores it. -/
theorem loadRecords_hexRecordsFrom (stripped : Option UInt8) (image : List UInt8)
    (offset bank : Nat) (halign : offset % 16 = 0) (hroom : offset + image.length ≤ 0x100000000) :
    ∃ writes, loadRecords bank
        (hexRecordsFrom stripped offset bank (pieces recordLength image)) = some writes ∧
      Restores stripped offset image writes := by
  fun_induction pieces recordLength image generalizing offset bank with
  | case1 => exact ⟨[], rfl, List.Sublist.refl _, fun _ hmem => (by cases hmem), fun _ => rfl⟩
  | case2 first rest ih =>
    generalize hdata : first :: rest.take (recordLength - 1) = data at ih ⊢
    generalize hremaining : rest.drop (recordLength - 1) = remaining at ih ⊢
    have hsplit : first :: rest = data ++ remaining := by
      rw [← hdata, ← hremaining, List.cons_append, List.take_append_drop]
    have hlengths : data.length ≤ 16 ∧ (remaining = [] ∨ data.length = 16) := by
      rw [← hdata, ← hremaining, List.drop_eq_nil_iff, List.length_cons, List.length_take]
      simp only [recordLength]
      omega
    have hlength : (first :: rest).length = data.length + remaining.length := by
      rw [hsplit, List.length_append]
    have hpositive : 0 < data.length := by
      rw [← hdata]
      simp
    rw [hlength] at hroom
    have hlater (bank : Nat) : ∃ writes, loadRecords bank (hexRecordsFrom stripped
          (offset + recordLength) bank (pieces recordLength remaining)) = some writes ∧
        Restores stripped (offset + data.length) remaining writes := by
      have hnext : (offset + recordLength) % 16 = 0 := by
        rw [recordLength]
        omega
      rcases hlengths.2 with rfl | hfull
      · have hend : offset + recordLength + ([] : List UInt8).length ≤ 0x100000000 := by
          rw [List.length_nil] at hroom ⊢
          rw [recordLength]
          omega
        obtain ⟨writes, hload, hrestores⟩ := ih _ bank hnext hend
        exact ⟨writes, hload, hrestores.sublist, hrestores.complete, hrestores.whole⟩
      · rw [hfull] at hroom ⊢
        exact ih _ bank hnext (by rw [recordLength]; omega)
    rw [hsplit, hexRecordsFrom]
    dsimp only
    split
    case isTrue hstrip =>
      cases stripped with
      | none => cases hstrip
      | some unused =>
        obtain ⟨writes, hload, hrestores⟩ := hlater bank
        refine ⟨writes, hload, hrestores.skipped fun byte hbyte => ?_⟩
        exact eq_of_beq (List.all_eq_true.mp hstrip byte hbyte)
    case isFalse =>
      obtain ⟨writes, hload, hrestores⟩ := hlater (offset / 65536)
      exact ⟨_, loadRecords_piece halign hlengths.1 (by omega) hload, hrestores.written⟩

/-! ## Whole files -/

/-- The records of an image fit their fields. -/
theorem hexRecordsFrom_fits {stripped : Option UInt8} {offset bank : Nat}
    {chunks : List (List UInt8)} (h : ∀ data ∈ chunks, data.length < 256) :
    ∀ record ∈ hexRecordsFrom stripped offset bank chunks, record.Fits := by
  induction chunks generalizing offset bank with
  | nil =>
    intro record hrecord
    obtain rfl := List.mem_singleton.mp hrecord
    exact ⟨by decide, by decide⟩
  | cons data rest ih =>
    have hrest : ∀ data ∈ rest, data.length < 256 := fun other hother =>
      h other (List.mem_cons_of_mem _ hother)
    rw [hexRecordsFrom]
    dsimp only
    split
    case isTrue => exact ih hrest
    case isFalse =>
      intro record hrecord
      rcases List.mem_append.mp hrecord with hchange | hrecord
      · split at hchange
        case isTrue => cases hchange
        case isFalse =>
          obtain rfl := List.mem_singleton.mp hchange
          exact ⟨by simp [HexRecord.bigEndian], Nat.zero_lt_succ _⟩
      · rcases List.mem_cons.mp hrecord with rfl | hlater
        · exact ⟨h data List.mem_cons_self, Nat.mod_lt _ (by decide)⟩
        · exact ih hrest record hlater

/-- No piece is longer than asked for. -/
theorem length_le_of_mem_pieces {α : Type} {size : Nat} {items piece : List α} (hsize : 0 < size)
    (h : piece ∈ pieces size items) : piece.length ≤ size := by
  fun_induction pieces size items with
  | case1 => cases h
  | case2 first rest ih =>
    rcases List.mem_cons.mp h with rfl | hrest
    · rw [List.length_cons, List.length_take]
      omega
    · exact ih hrest

/-- An address to which only one byte is written, or none but the byte that is there, has it. -/
theorem loadMemory_eq {memory : Nat → UInt8} {writes : List (Nat × UInt8)} {target : Nat}
    {byte : UInt8} (hwrites : ∀ found, (target, found) ∈ writes → found = byte)
    (hstart : memory target = byte ∨ (target, byte) ∈ writes) :
    loadMemory memory writes target = byte := by
  induction writes generalizing memory with
  | nil => exact hstart.resolve_right (by simp)
  | cons write rest ih =>
    obtain ⟨address, content⟩ := write
    refine ih (fun found hfound => hwrites found (List.mem_cons_of_mem _ hfound)) ?_
    dsimp only
    by_cases htarget : target = address
    · subst htarget
      rw [if_pos rfl]
      exact .inl (hwrites content List.mem_cons_self)
    · rw [if_neg htarget]
      refine hstart.imp_right fun hmem => ?_
      rcases List.mem_cons.mp hmem with heq | hrest
      · exact absurd (congrArg Prod.fst heq) htarget
      · exact hrest

/-- Intel HEX text reads back as its image. For an image of up to 4 GiB, the strict reader accepts
every record of the text; what it loads into a memory of unused bytes is the image, and nothing is
written behind it; and without stripping every address of the image is written exactly once. -/
theorem readIntelHex_intelHex (image : List UInt8) (strip : Bool) (unused : UInt8)
    (h : image.length ≤ 0x100000000) :
    ∃ writes, readIntelHex (intelHex image strip unused) = some writes ∧
      (∀ index byte, image[index]? = some byte →
        loadMemory (fun _ => unused) writes index = byte) ∧
      (∀ write ∈ writes, write.1 < image.length) ∧
      (strip = false → ∀ address < image.length, (writes.map Prod.fst).count address = 1) := by
  have hfits : ∀ record ∈ hexRecords image (if strip then some unused else none), record.Fits := by
    refine hexRecordsFrom_fits fun data hdata => ?_
    have hle : data.length ≤ recordLength := length_le_of_mem_pieces (by decide) hdata
    exact Nat.lt_of_le_of_lt hle (by decide)
  obtain ⟨writes, hload, hrestores⟩ :=
    loadRecords_hexRecordsFrom (if strip then some unused else none) image 0 0 rfl (by omega)
  refine ⟨writes, ?_, fun index byte hbyte => ?_, fun write hwrite => ?_,
    fun hstrip address hlt => ?_⟩
  · rw [readIntelHex, intelHex, readRecords_render hfits]
    exact hload
  · refine loadMemory_eq (fun found hfound => ?_) ?_
    · obtain ⟨-, hthere⟩ := mem_writesFrom.mp (hrestores.sublist.mem hfound)
      exact Option.some.inj (hthere.symm.trans hbyte)
    · have hwrite : (index, byte) ∈ writesFrom 0 image :=
        mem_writesFrom.mpr ⟨Nat.zero_le _, hbyte⟩
      rcases hrestores.complete _ hwrite with hwritten | hstripped
      · exact .inr hwritten
      · cases strip with
        | false => cases hstripped
        | true => exact .inl (Option.some.inj hstripped)
  · obtain ⟨address, byte⟩ := write
    obtain ⟨-, hthere⟩ := mem_writesFrom.mp (hrestores.sublist.mem hwrite)
    obtain ⟨hlt, -⟩ := List.getElem?_eq_some_iff.mp hthere
    exact hlt
  · subst hstrip
    rw [hrestores.whole rfl, map_fst_writesFrom, List.count_range_1', if_pos (by omega)]

/-- An image with a short last record, stripped of its full one. -/
theorem readIntelHex_intelHex_stripped :
    ∃ writes, readIntelHex (intelHex (List.replicate 16 0xFF ++ [1, 2]) true 0xFF) = some writes ∧
      loadMemory (fun _ => 0xFF) writes 17 = 2 := by
  obtain ⟨writes, hread, himage, -⟩ :=
    readIntelHex_intelHex (List.replicate 16 0xFF ++ [1, 2]) true 0xFF (by decide)
  exact ⟨writes, hread, himage 17 2 (by decide)⟩

end Asm65816
