import Decompiler.Cli.Hex
import Decompiler.Cli.Listing

/-! # The bytes column of the listing

The listing shows the bytes that the decode loop has consumed. Cut out of the printed lines and
given back as a hex argument, they yield the same function and the same listing again.
-/

namespace Decompiler

open Hex

/-- The column of a printed line that shows bytes: two digits and a blank behind the address. -/
def hexColumn (line : String) : List Char :=
  match line.toList with
  | ' ' :: ' ' :: '0' :: 'x' :: rest =>
    match rest.dropWhile fun c => (toDigit c).isSome with
    | ':' :: ' ' :: ' ' :: c :: d :: ' ' :: column =>
      if IsHexDigit c ∧ IsHexDigit d then c :: d :: ' ' :: column.take 21 else []
    | _ => []
  | _ => []

section Digits

theorem toDigit_digitChar {k : ℕ} (h : k < 16) : toDigit (Nat.digitChar k) = some k := by
  have hall : ∀ k < 16, toDigit (Nat.digitChar k) = some k := by decide
  exact hall k h

theorem isSome_toDigits (n : ℕ) : ∀ c ∈ Nat.toDigits 16 n, (toDigit c).isSome := by
  induction n using Nat.strongRecOn with
  | ind n ih =>
    rw [Nat.toDigits_eq_if (by decide)]
    split_ifs with hlt
    · simp [toDigit_digitChar hlt]
    · intro c hc
      rcases List.mem_append.mp hc with hc | hc
      · exact ih (n / 16) (by omega) c hc
      · rw [List.mem_singleton.mp hc, toDigit_digitChar (Nat.mod_lt n (by decide))]
        rfl

theorem isSome_hexPadded (width n : ℕ) : ∀ c ∈ hexPadded width n, (toDigit c).isSome := by
  intro c hc
  rcases List.mem_append.mp hc with hc | hc
  · rw [(List.mem_replicate.mp hc).2]
    decide
  · exact isSome_toDigits n c hc

theorem hexPadded_two (b : UInt8) :
    hexPadded 2 b.toNat = [Nat.digitChar (b.toNat / 16), Nat.digitChar (b.toNat % 16)] := by
  have hlt := b.toNat_lt
  rw [hexPadded, Nat.toDigits_eq_if (by decide)]
  split_ifs with hsmall
  · rw [Nat.div_eq_of_lt hsmall, Nat.mod_eq_of_lt hsmall]
    rfl
  · rw [Nat.toDigits_of_lt_base (show b.toNat / 16 < 16 by omega)]
    rfl

theorem pairValues_hexPadded (raw : List UInt8) :
    pairValues (raw.flatMap fun b => hexPadded 2 b.toNat) = raw := by
  induction raw with
  | nil => rfl
  | cons b raw ih =>
    have hlt := b.toNat_lt
    rw [List.flatMap_cons, hexPadded_two, List.cons_append, List.cons_append, List.nil_append,
      pairValues, ih, pairValue, toDigit_digitChar (show b.toNat / 16 < 16 by omega),
      toDigit_digitChar (Nat.mod_lt _ (by decide))]
    congr 1
    rw [Option.getD_some, Option.getD_some, Nat.div_add_mod', UInt8.ofNat_toNat]

theorem isWhitespace_of_digit {c : Char} (h : (toDigit c).isSome) : isWhitespace c = false := by
  have hdigit : IsHexDigit c := isHexDigit_iff.mpr (Option.isSome_iff_exists.mp h)
  simp only [IsHexDigit, le_iff_toNat_le, Char.reduceToNat] at hdigit
  simp only [isWhitespace, Bool.or_eq_false_iff, Bool.and_eq_false_iff, decide_eq_false_iff_not,
    beq_eq_false_iff_ne]
  omega

end Digits

section Columns

theorem filter_column (raw : List UInt8) :
    (ListingLine.column raw).filter (fun c => !isWhitespace c) =
      raw.flatMap fun b => hexPadded 2 b.toNat := by
  have hblank : isWhitespace ' ' = true := by decide
  have hbyte : ∀ b : UInt8, (hexPadded 2 b.toNat).filter (fun c => !isWhitespace c) =
      hexPadded 2 b.toNat := by
    intro b
    refine List.filter_eq_self.mpr fun c hc => ?_
    rw [isWhitespace_of_digit (isSome_hexPadded _ _ c hc)]
    rfl
  have hjoin : ([' '].intercalate (raw.map fun b => hexPadded 2 b.toNat)).filter
      (fun c => !isWhitespace c) = raw.flatMap fun b => hexPadded 2 b.toNat := by
    induction raw with
    | nil => rfl
    | cons b raw ih =>
      cases raw with
      | nil => simp [hbyte]
      | cons b' raw =>
        rw [List.map_cons] at ih
        rw [List.map_cons, List.map_cons, List.intercalate_cons_cons, List.filter_append,
          List.filter_append, hbyte, ih]
        simp [hblank]
  rw [ListingLine.column, List.rightpad, List.filter_append, hjoin, List.filter_replicate]
  simp [hblank]

theorem length_column {raw : List UInt8} (hlen : raw.length ≤ 8) :
    (ListingLine.column raw).length = 24 := by
  have hjoin : ([' '].intercalate (raw.map fun b => hexPadded 2 b.toNat)).length ≤
      3 * raw.length := by
    clear hlen
    induction raw with
    | nil => exact Nat.le_refl _
    | cons b raw ih =>
      cases raw with
      | nil => simp [hexPadded_two]
      | cons b' raw =>
        rw [List.map_cons, List.length_cons] at ih
        rw [List.map_cons, List.map_cons, List.intercalate_cons_cons, List.length_append,
          List.length_append, hexPadded_two, List.length_cons, List.length_cons]
        simp only [List.length_cons, List.length_nil] at ih ⊢
        omega
  rw [ListingLine.column, List.length_rightpad]
  omega

theorem exists_column {raw : List UInt8} (hne : raw ≠ []) (hlen : raw.length ≤ 8) :
    ∃ c d rest, ListingLine.column raw = c :: d :: ' ' :: rest ∧ IsHexDigit c ∧ IsHexDigit d ∧
      rest.length = 21 := by
  obtain ⟨b, raw, rfl⟩ := List.exists_cons_of_ne_nil hne
  have hdigit : ∀ c ∈ hexPadded 2 b.toNat, IsHexDigit c := fun c hc =>
    isHexDigit_iff.mpr (Option.isSome_iff_exists.mp (isSome_hexPadded _ _ c hc))
  have hlength := length_column hlen
  rw [hexPadded_two] at hdigit
  have hfront : ∃ rest, ListingLine.column (b :: raw) =
      Nat.digitChar (b.toNat / 16) :: Nat.digitChar (b.toNat % 16) :: ' ' :: rest := by
    cases raw with
    | nil => exact ⟨_, by rw [ListingLine.column, List.map_singleton, hexPadded_two]; rfl⟩
    | cons b' raw =>
      rw [ListingLine.column, List.map_cons, List.map_cons, List.intercalate_cons_cons,
        hexPadded_two]
      exact ⟨_, rfl⟩
  obtain ⟨rest, hrest⟩ := hfront
  refine ⟨_, _, rest, hrest, hdigit _ (by simp), hdigit _ (by simp), ?_⟩
  rw [hrest] at hlength
  simpa using hlength

theorem dropWhile_hexPadded (width n : ℕ) (rest : List Char) :
    (hexPadded width n ++ ':' :: rest).dropWhile (fun c => (toDigit c).isSome) = ':' :: rest := by
  rw [List.dropWhile_append_of_pos (isSome_hexPadded width n)]
  rfl

theorem hexColumn_code {raw : List UInt8} (hne : raw ≠ []) (hlen : raw.length ≤ 8)
    (address : Address) (instruction : String) :
    hexColumn (ListingLine.code address raw instruction).text = ListingLine.column raw := by
  obtain ⟨c, d, rest, hcolumn, hc, hd, hrest⟩ := exists_column hne hlen
  have htext : (ListingLine.code address raw instruction).text.toList =
      ' ' :: ' ' :: '0' :: 'x' :: (hexPadded 4 address.toNat ++ ':' :: ' ' :: ' ' :: c :: d :: ' ' ::
        (rest ++ ' ' :: ' ' :: instruction.toList)) := by
    show ("  0x" ++ String.ofList (hexPadded 4 address.toNat) ++ ":  " ++
      String.ofList (ListingLine.column raw) ++ "  " ++ instruction).toList = _
    simp only [String.toList_append, String.toList_ofList, hcolumn]
    simp
  rw [hexColumn, htext]
  simp only [dropWhile_hexPadded]
  rw [if_pos ⟨hc, hd⟩, List.take_append_of_le_length (by omega), hcolumn,
    List.take_of_length_le (by omega)]

theorem hexColumn_op (op : Instruction) : hexColumn (ListingLine.op op).text = [] := by
  have htext : (ListingLine.op op).text.toList =
      ' ' :: ' ' :: ' ' :: ("          └─ ".toList ++ op.display.toList) := by
    show ("             └─ " ++ op.display).toList = _
    rw [String.toList_append]
    rfl
  rw [hexColumn, htext]
  rfl

theorem hexColumn_truncated (a : Address) : hexColumn (ListingLine.truncated a).text = [] := by
  have htext : (ListingLine.truncated a).text.toList = ' ' :: ' ' :: '0' :: 'x' ::
      (hexPadded 4 a.toNat ++ ':' :: ' ' :: ' ' :: '<' :: 't' :: 'r' ::
        "uncated instruction, stopping>".toList) := by
    show ("  0x" ++ String.ofList (hexPadded 4 a.toNat) ++
      ":  <truncated instruction, stopping>").toList = _
    simp
  rw [hexColumn, htext]
  simp only [dropWhile_hexPadded]
  rfl

theorem hexColumn_failed (a : Address) (e : DecodeError) :
    hexColumn (ListingLine.failed a e).text = [] := by
  have htext : (ListingLine.failed a e).text.toList = ' ' :: ' ' :: '0' :: 'x' ::
      (hexPadded 4 a.toNat ++ ':' :: ' ' :: ' ' :: 'd' :: 'e' :: 'c' ::
        ("ode error: ".toList ++ e.display.toList)) := by
    show ("  0x" ++ String.ofList (hexPadded 4 a.toNat) ++ ":  decode error: " ++
      e.display).toList = _
    simp
  rw [hexColumn, htext]
  simp only [dropWhile_hexPadded]
  rfl

end Columns

/-- Only the line of an instruction shows bytes. -/
def ListingLine.Shows : ListingLine → Prop
  | .code _ raw _ => raw ≠ [] ∧ raw.length ≤ 8
  | _ => True

theorem filter_hexColumn {line : ListingLine} (h : line.Shows) :
    (hexColumn line.text).filter (fun c => !isWhitespace c) =
      line.raw.flatMap fun b => hexPadded 2 b.toNat := by
  cases line with
  | code a raw i => rw [hexColumn_code h.1 h.2, filter_column]; rfl
  | op op => rw [hexColumn_op]; rfl
  | truncated a => rw [hexColumn_truncated]; rfl
  | failed a e => rw [hexColumn_failed]; rfl

theorem parseHex_of_filter {cs : List Char} {bytes : List UInt8}
    (h : cs.filter (fun c => !isWhitespace c) = bytes.flatMap fun b => hexPadded 2 b.toNat) :
    parseHex (String.ofList cs) = .ok (.ok bytes) := by
  have hdigits : ∀ c ∈ bytes.flatMap fun b => hexPadded 2 b.toNat, IsHexDigit c := by
    intro c hc
    obtain ⟨b, -, hc⟩ := List.mem_flatMap.mp hc
    exact isHexDigit_iff.mpr (Option.isSome_iff_exists.mp (isSome_hexPadded _ _ c hc))
  have hcleaned : cleaned (String.ofList cs) = bytes.flatMap fun b => hexPadded 2 b.toNat := by
    rw [cleaned, String.toList_ofList, h]
    unfold stripMarker
    split
    case h_1 heq =>
      rw [heq] at hdigits
      exact absurd (hdigits 'x' (by simp)) (by decide)
    case h_2 => rfl
  have hlength : (cleaned (String.ofList cs)).length = 2 * bytes.length := by
    rw [hcleaned, List.length_flatMap]
    simp [hexPadded_two, Nat.mul_comm]
  rw [← hcleaned] at hdigits
  have hutf8 : String.utf8Len (cleaned (String.ofList cs)) = 2 * bytes.length := by
    rw [utf8Len_of_digits hdigits, hlength]
  have hall := (collectBytes_eq (cleaned (String.ofList cs)) [] bytes.length hutf8).1
    (remainder_of_digits hdigits (by omega))
  rw [List.nil_append, String.utf8Len_nil, ← parseHex_even hutf8, hcleaned,
    pairValues_hexPadded] at hall
  exact hall

theorem Lists.shows {I : Type} {backend : Backend I} (hstable : backend.Stable)
    (hlaw : backend.Lawful) {display : I → String} {bytes : List UInt8} {base : Address}
    {offset : ℕ} {temps : TempAllocator} {lis : List LiftedInstruction}
    {lines : List ListingLine} (h : Lists backend display bytes base offset temps lis lines) :
    ∀ line ∈ lines, line.Shows := by
  have hread : ∀ {o t result li t'}, ReadAt backend bytes base o t result li t' →
      ∀ line ∈ linesOf display bytes o result li, line.Shows := by
    rintro o t result li t' ⟨hlt, -, hres, hle, -⟩ line hline
    rcases List.mem_cons.mp hline with rfl | hline
    · have hpos := hlaw.length_pos hres
      have hshort := hstable.length_le hres
      have hlen : ((bytes.drop o).take result.length).length = result.length := by
        rw [List.length_take, List.length_drop]
        omega
      exact ⟨List.ne_nil_of_length_pos (by omega), by omega⟩
    · obtain ⟨op, -, rfl⟩ := List.mem_map.mp hline
      trivial
  induction h with
  | done => simp
  | truncated | failed =>
    rintro line hline
    obtain rfl := List.mem_singleton.mp hline
    trivial
  | last read _ => exact hread read
  | next read _ _ ih =>
    intro line hline
    exact (List.mem_append.mp hline).elim (hread read line) (ih line)

theorem parseHex_columns {lines : List ListingLine} (h : ∀ line ∈ lines, line.Shows) :
    parseHex (String.ofList ((lines.map ListingLine.text).flatMap hexColumn)) =
      .ok (.ok (lines.flatMap ListingLine.raw)) := by
  apply parseHex_of_filter
  induction lines with
  | nil => rfl
  | cons line lines ih =>
    obtain ⟨hline, hlines⟩ := List.forall_mem_cons.mp h
    rw [List.map_cons, List.flatMap_cons, List.filter_append, filter_hexColumn hline, ih hlines,
      List.flatMap_cons, List.flatMap_append]

theorem parseHex_listFunction {I : Type} {backend : Backend I} (hstable : backend.Stable)
    (hlaw : backend.Lawful) {display : I → String} {name : String} {bytes : List UInt8}
    {base : Address} {f : Function} {lines : List ListingLine}
    (h : listFunction backend display name bytes base = .ok (f, lines)) :
    ∃ consumed, consumed <+: bytes ∧
      parseHex (String.ofList ((lines.map ListingLine.text).flatMap hexColumn)) =
        .ok (.ok consumed) ∧
      listFunction backend display name consumed base =
        .ok (f, lines.filter ListingLine.isRecorded) := by
  obtain ⟨n, -, hraw, hconsumed⟩ := listFunction_consumed hstable hlaw h
  obtain ⟨lis, -, hlists⟩ := (listFunction_iff hlaw).mp h
  refine ⟨bytes.take n, List.take_prefix n bytes, ?_, hconsumed⟩
  rw [parseHex_columns (hlists.shows hstable hlaw), hraw]

/-- The bytes column of the printed lines, as a hex argument, is a front of the bytes from which
the same function is decoded and the same lines are printed, up to the reason for stopping. -/
theorem Arch.listFunction_reads_back {arch : Arch} {name : String} {bytes : List UInt8}
    {base : Address} {f : Function} {lines : List ListingLine}
    (h : arch.listFunction name bytes base = .ok (f, lines)) :
    ∃ consumed, consumed <+: bytes ∧
      parseHex (String.ofList ((lines.map ListingLine.text).flatMap hexColumn)) =
        .ok (.ok consumed) ∧
      arch.listFunction name consumed base = .ok (f, lines.filter ListingLine.isRecorded) := by
  cases arch with
  | x86 => exact Decompiler.parseHex_listFunction X86.stable X86.lawful h
  | arm => exact Decompiler.parseHex_listFunction Arm.stable Arm.lawful h

end Decompiler
