import Decompiler.Cfg.Lifted
import Decompiler.Cli.Display
import Decompiler.Cli.PrefixCodes
import Decompiler.Passes.Safety

/-! # The listing

The decode loop prints each instruction with its bytes and its operations. The bytes that are
printed are those that it has consumed: given back to the tool as a hex argument they yield the
same function and the same listing.
-/

namespace Decompiler

open Output (hex)

inductive ListingLine where
  | code (address : Address) (raw : List UInt8) (instruction : String)
  | op (op : Instruction)
  | truncated (address : Address)
  | failed (address : Address) (e : DecodeError)

namespace ListingLine

/-- The bytes of an instruction, in a column of at least 24 characters. -/
def column (raw : List UInt8) : List Char :=
  ([' '].intercalate (raw.map fun b => hexPadded 2 b.toNat)).rightpad 24 ' '

def text : ListingLine → String
  | .code address raw instruction =>
    "  0x" ++ String.ofList (hexPadded 4 address.toNat) ++ ":  " ++ String.ofList (column raw) ++
      "  " ++ instruction
  | .op operation => "             └─ " ++ operation.display
  | .truncated address =>
    "  0x" ++ String.ofList (hexPadded 4 address.toNat) ++ ":  <truncated instruction, stopping>"
  | .failed address e =>
    "  0x" ++ String.ofList (hexPadded 4 address.toNat) ++ ":  decode error: " ++ e.display

def raw : ListingLine → List UInt8
  | .code _ raw _ => raw
  | _ => []

def isRecorded : ListingLine → Bool
  | .code _ _ _ | .op _ => true
  | _ => false

end ListingLine

section Definitions

variable {I : Type} (backend : Backend I) (display : I → String)

def listLoop (bytes : List UInt8) (base : Address) :
    ℕ → ℕ → TempAllocator → BasicBlock → Except Fault (BasicBlock × List ListingLine)
  | 0, _, _, _ => .error .outOfFuel
  | fuel + 1, offset, temps, block => do
    if bytes.length ≤ offset then return (block, [])
    let address ← addU64 base offset
    let remaining := bytes.drop offset
    match backend.disassembleOne remaining address with
    | .error .unexpectedEnd => return (block, [.truncated address])
    | .error e => return (block, [.failed address e])
    | .ok result =>
      if remaining.length < result.length then throw .outOfBounds
      let (ops, temps) ← backend.lift result.instruction address result.length temps
      let printed := .code address (remaining.take result.length) (display result.instruction) ::
        ops.map .op
      let block := block.push address ops
      if .ret ∈ ops then return (block, printed)
      let (block, rest) ← listLoop bytes base fuel (offset + result.length) temps block
      return (block, printed ++ rest)

/-- `process_function` with the lines that its loop prints. -/
def listFunction (name : String) (bytes : List UInt8) (base : Address) :
    Except Fault (Function × List ListingLine) := do
  let (block, lines) ← listLoop backend display bytes base (bytes.length + 1) 0 .new (.new base)
  return ({ Function.new name base with blocks := [block] }, lines)

def Arch.listFunction : Arch → String → List UInt8 → Address →
    Except Fault (Function × List ListingLine)
  | .x86 => Decompiler.listFunction X86.backend X86.X86Instruction.display
  | .arm => Decompiler.listFunction Arm.backend Arm.ArmInstruction.display

end Definitions

section Loop

variable {I : Type} {backend : Backend I} {display : I → String} {bytes : List UInt8}
  {base : Address}

theorem listLoop_fst (fuel offset : ℕ) (temps : TempAllocator) (block : BasicBlock) :
    (listLoop backend display bytes base fuel offset temps block).map Prod.fst =
      decodeLoop backend bytes base fuel offset temps block := by
  induction fuel generalizing offset temps block with
  | zero => rfl
  | succ fuel ih =>
    rw [listLoop, decodeLoop]
    split_ifs with hend
    · rfl
    cases addU64 base offset with
    | error e => rfl
    | ok address =>
      simp only [Fallible.ok_bind]
      cases hres : backend.disassembleOne (bytes.drop offset) address with
      | error e => cases e <;> rfl
      | ok result =>
        simp only
        split_ifs with hlen
        · rfl
        cases hlift : backend.lift result.instruction address result.length temps with
        | error e => rfl
        | ok lifted =>
          obtain ⟨ops, temps'⟩ := lifted
          simp only [Fallible.ok_bind]
          split_ifs with hret
          · rfl
          · rw [← ih]
            cases listLoop backend display bytes base fuel (offset + result.length) temps'
              (block.push address ops) <;> rfl

/-- The bytes decide what is decoded from them. -/
structure Backend.Stable (backend : Backend I) : Prop where
  extended : ∀ {b address result}, backend.disassembleOne b address = .ok result →
    ∀ x, backend.disassembleOne (b ++ x) address = .ok result
  consumed : ∀ {b address result}, backend.disassembleOne b address = .ok result →
    backend.disassembleOne (b.take result.length) address = .ok result
  error : ∀ {b address e}, backend.disassembleOne b address = .error e → e ≠ .unexpectedEnd →
    ∀ x, backend.disassembleOne (b ++ x) address = .error e
  length_le : ∀ {b address result}, backend.disassembleOne b address = .ok result →
    result.length ≤ 8

theorem Backend.Stable.of_isPrefixCode {window : ℕ}
    {decode : List UInt8 → Except DecodeError (I × ℕ)}
    (hcode : PrefixCode.IsPrefixCode .unexpectedEnd window decode) (hwindow : window ≤ 8)
    (hdecode : ∀ b address, backend.disassembleOne b address =
      (decode b).map fun r => ⟨r.1, r.2, address⟩) : backend.Stable := by
  have hok : ∀ {b address result}, backend.disassembleOne b address = .ok result ↔
      decode b = .ok (result.instruction, result.length) ∧ result.address = address := by
    intro b address result
    rw [hdecode]
    cases decode b with
    | error e => simp [Except.map]
    | ok r =>
      constructor
      · rintro h
        obtain rfl := Except.ok.inj h
        exact ⟨rfl, rfl⟩
      · rintro ⟨h, rfl⟩
        obtain rfl := Except.ok.inj h
        rfl
  have herror : ∀ {b address e}, backend.disassembleOne b address = .error e ↔
      decode b = .error e := by
    intro b address e
    rw [hdecode]
    cases decode b with
    | error e' => exact ⟨fun h => congrArg _ (Except.error.inj h), fun h =>
        congrArg _ (Except.error.inj h)⟩
    | ok r => simp [Except.map]
  constructor
  · intro b address result h x
    exact hok.mpr ⟨hcode.extended _ x _ _ (hok.mp h).1, (hok.mp h).2⟩
  · intro b address result h
    exact hok.mpr ⟨hcode.consumed _ _ _ (hok.mp h).1, (hok.mp h).2⟩
  · intro b address e h hne x
    exact herror.mpr (hcode.error _ x _ (herror.mp h) hne)
  · intro b address result h
    by_contra hlong
    have hlength := (hcode.length _ _ _ (hok.mp h).1).2
    refine hcode.decided (b.take window) ?_ (hcode.truncated _ _ _ (hok.mp h).1 window (by omega))
    rw [List.length_take, Nat.min_eq_left (by omega)]

theorem X86.stable : X86.backend.Stable := by
  apply Backend.Stable.of_isPrefixCode X86.decodeOne_stable (by decide)
  intro b address
  change X86.disassembleOne b address = _
  rw [X86.disassembleOne]
  cases X86.decodeOne b <;> rfl

theorem Arm.stable : Arm.backend.Stable := by
  apply Backend.Stable.of_isPrefixCode Arm.decodeOne_stable (by decide)
  intro b address
  change Arm.disassembleOne b address = _
  rw [Arm.disassembleOne]
  cases Arm.decodeOne b <;> rfl

structure ReadAt (backend : Backend I) (bytes : List UInt8) (base : Address) (offset : ℕ)
    (temps : TempAllocator) (result : DisassemblyResult I) (li : LiftedInstruction)
    (temps' : TempAllocator) : Prop where
  offset_lt : offset < bytes.length
  address : addU64 base offset = .ok li.address
  decoded : backend.disassembleOne (bytes.drop offset) li.address = .ok result
  length_le : offset + result.length ≤ bytes.length
  lifted : backend.lift result.instruction li.address result.length temps = .ok (li.ops, temps')

def linesOf (display : I → String) (bytes : List UInt8) (offset : ℕ)
    (result : DisassemblyResult I) (li : LiftedInstruction) : List ListingLine :=
  .code li.address ((bytes.drop offset).take result.length) (display result.instruction) ::
    li.ops.map .op

/-- What is recorded and printed from an offset on. -/
inductive Lists (backend : Backend I) (display : I → String) (bytes : List UInt8)
    (base : Address) : ℕ → TempAllocator → List LiftedInstruction → List ListingLine → Prop
  | done {offset : ℕ} {temps : TempAllocator} (exhausted : bytes.length ≤ offset) :
    Lists backend display bytes base offset temps [] []
  | truncated {offset : ℕ} {temps : TempAllocator} {a : Address} (lt : offset < bytes.length)
    (address : addU64 base offset = .ok a)
    (decoded : backend.disassembleOne (bytes.drop offset) a = .error .unexpectedEnd) :
    Lists backend display bytes base offset temps [] [.truncated a]
  | failed {offset : ℕ} {temps : TempAllocator} {a : Address} {e : DecodeError}
    (lt : offset < bytes.length) (address : addU64 base offset = .ok a)
    (decoded : backend.disassembleOne (bytes.drop offset) a = .error e)
    (stable : e ≠ .unexpectedEnd) :
    Lists backend display bytes base offset temps [] [.failed a e]
  | last {offset : ℕ} {temps temps' : TempAllocator} {result : DisassemblyResult I}
    {li : LiftedInstruction} (read : ReadAt backend bytes base offset temps result li temps')
    (ret : .ret ∈ li.ops) :
    Lists backend display bytes base offset temps [li] (linesOf display bytes offset result li)
  | next {offset : ℕ} {temps temps' : TempAllocator} {result : DisassemblyResult I}
    {li : LiftedInstruction} {lis : List LiftedInstruction} {lines : List ListingLine}
    (read : ReadAt backend bytes base offset temps result li temps') (no_ret : .ret ∉ li.ops)
    (more : Lists backend display bytes base (offset + result.length) temps' lis lines) :
    Lists backend display bytes base offset temps (li :: lis)
      (linesOf display bytes offset result li ++ lines)

theorem lists_of_listLoop {fuel offset : ℕ} {temps : TempAllocator} {block b : BasicBlock}
    {lines : List ListingLine}
    (h : listLoop backend display bytes base fuel offset temps block = .ok (b, lines)) :
    ∃ lis, b = { block with instructions := block.instructions ++ lis } ∧
      Lists backend display bytes base offset temps lis lines := by
  induction fuel generalizing offset temps block lines with
  | zero => cases h
  | succ fuel ih =>
    rw [listLoop] at h
    split at h
    case isTrue hend =>
      obtain ⟨rfl, rfl⟩ := Prod.mk.inj (Except.ok.inj h)
      exact ⟨[], by simp, .done hend⟩
    case isFalse hend =>
      obtain ⟨a, haddr, h⟩ := Fallible.bind_eq_ok.mp h
      simp only at h
      split at h
      case h_1 he =>
        obtain ⟨rfl, rfl⟩ := Prod.mk.inj (Except.ok.inj h)
        exact ⟨[], by simp, .truncated (Nat.lt_of_not_le hend) haddr he⟩
      case h_2 e hne he =>
        obtain ⟨rfl, rfl⟩ := Prod.mk.inj (Except.ok.inj h)
        exact ⟨[], by simp, .failed (Nat.lt_of_not_le hend) haddr he hne⟩
      case h_3 result hres =>
        split at h
        case isTrue => cases h
        case isFalse hlen =>
          obtain ⟨⟨ops, temps'⟩, hlift, h⟩ := Fallible.bind_eq_ok.mp h
          rw [List.length_drop] at hlen
          have hread : ReadAt backend bytes base offset temps result ⟨a, ops⟩ temps' :=
            ⟨Nat.lt_of_not_le hend, haddr, hres, by omega, hlift⟩
          simp only at h
          split at h
          case isTrue hret =>
            obtain ⟨rfl, rfl⟩ := Prod.mk.inj (Except.ok.inj h)
            exact ⟨[⟨a, ops⟩], rfl, .last hread hret⟩
          case isFalse hret =>
            obtain ⟨⟨b', rest⟩, hrest, h⟩ := Fallible.bind_eq_ok.mp h
            obtain ⟨rfl, rfl⟩ := Prod.mk.inj (Except.ok.inj h)
            obtain ⟨lis, rfl, hlists⟩ := ih hrest
            exact ⟨⟨a, ops⟩ :: lis, by simp [BasicBlock.push], .next hread hret hlists⟩

theorem Lists.listLoop_eq (hlaw : backend.Lawful) {offset : ℕ} {temps : TempAllocator}
    {lis : List LiftedInstruction} {lines : List ListingLine}
    (h : Lists backend display bytes base offset temps lis lines) {fuel : ℕ}
    (hfuel : bytes.length < offset + fuel) (hoffset : offset ≤ bytes.length) (block : BasicBlock) :
    listLoop backend display bytes base fuel offset temps block =
      .ok ({ block with instructions := block.instructions ++ lis }, lines) := by
  induction h generalizing fuel block with
  | done hend =>
    obtain ⟨fuel, rfl⟩ := Nat.exists_eq_add_of_lt (show 0 < fuel by omega)
    rw [Nat.zero_add, listLoop, if_pos hend, List.append_nil]
    rfl
  | truncated hlt haddr he =>
    obtain ⟨fuel, rfl⟩ := Nat.exists_eq_add_of_lt (show 0 < fuel by omega)
    rw [Nat.zero_add, listLoop, if_neg (Nat.not_le_of_lt hlt), haddr, Fallible.ok_bind]
    simp only [he, List.append_nil]
    rfl
  | @failed _ _ _ e hlt haddr he hne =>
    obtain ⟨fuel, rfl⟩ := Nat.exists_eq_add_of_lt (show 0 < fuel by omega)
    rw [Nat.zero_add, listLoop, if_neg (Nat.not_le_of_lt hlt), haddr, Fallible.ok_bind]
    cases e with
    | unexpectedEnd => exact absurd rfl hne
    | invalidOrUnsupported | unsupportedAddressingMode =>
      simp only [he, List.append_nil]
      rfl
  | last hread hret =>
    obtain ⟨fuel, rfl⟩ := Nat.exists_eq_add_of_lt (show 0 < fuel by omega)
    obtain ⟨hlt, haddr, hres, hle, hlift⟩ := hread
    rw [Nat.zero_add, listLoop, if_neg (Nat.not_le_of_lt hlt), haddr, Fallible.ok_bind]
    simp only [hres]
    rw [if_neg (by rw [List.length_drop]; omega), hlift]
    simp only [Fallible.ok_bind, if_pos hret]
    rfl
  | next hread hno _ ih =>
    obtain ⟨fuel, rfl⟩ := Nat.exists_eq_add_of_lt (show 0 < fuel by omega)
    obtain ⟨hlt, haddr, hres, hle, hlift⟩ := hread
    have hpos := hlaw.length_pos hres
    rw [Nat.zero_add, listLoop, if_neg (Nat.not_le_of_lt hlt), haddr, Fallible.ok_bind]
    simp only [hres]
    rw [if_neg (by rw [List.length_drop]; omega), hlift]
    simp only [Fallible.ok_bind, if_neg hno]
    rw [ih (by omega) hle]
    simp [BasicBlock.push, linesOf]

theorem take_drop_take {α : Type*} (l : List α) {o k n : ℕ} (h : o + k ≤ n) :
    ((l.take n).drop o).take k = (l.drop o).take k := by
  rw [List.drop_take, List.take_take, Nat.min_eq_left (by omega)]

section Bytes

variable (hstable : backend.Stable) (hlaw : backend.Lawful)

include hstable

theorem ReadAt.take {n offset : ℕ} {temps temps' : TempAllocator} {result : DisassemblyResult I}
    {li : LiftedInstruction} (h : ReadAt backend bytes base offset temps result li temps')
    (hn : offset + result.length ≤ n) (hle : n ≤ bytes.length) (hpos : 0 < result.length) :
    ReadAt backend (bytes.take n) base offset temps result li temps' ∧
      linesOf display (bytes.take n) offset result li = linesOf display bytes offset result li := by
  have hfront := take_drop_take bytes hn
  have hlength : (bytes.take n).length = n := by
    rw [List.length_take, Nat.min_eq_left hle]
  refine ⟨⟨by omega, h.address, ?_, by omega, h.lifted⟩, by rw [linesOf, linesOf, hfront]⟩
  rw [← List.take_append_drop result.length ((bytes.take n).drop offset), hfront]
  exact hstable.extended (hstable.consumed h.decoded) _

theorem ReadAt.append {offset : ℕ} {temps temps' : TempAllocator} {result : DisassemblyResult I}
    {li : LiftedInstruction} (h : ReadAt backend bytes base offset temps result li temps')
    (x : List UInt8) : ReadAt backend (bytes ++ x) base offset temps result li temps' ∧
      linesOf display (bytes ++ x) offset result li = linesOf display bytes offset result li := by
  have hdrop : (bytes ++ x).drop offset = bytes.drop offset ++ x :=
    List.drop_append_of_le_length (Nat.le_of_lt h.offset_lt)
  refine ⟨⟨?_, h.address, ?_, ?_, h.lifted⟩, ?_⟩
  · rw [List.length_append]
    exact Nat.lt_add_right _ h.offset_lt
  · rw [hdrop]
    exact hstable.extended h.decoded x
  · rw [List.length_append]
    exact Nat.le_add_right_of_le h.length_le
  · have hle := h.length_le
    rw [linesOf, linesOf, hdrop, List.take_append_of_le_length (by rw [List.length_drop]; omega)]

include hlaw

/-- The printed bytes are those that the loop has consumed, and from these alone it records and
prints the same, up to the reason why it stopped. -/
theorem Lists.consumed {offset : ℕ} {temps : TempAllocator} {lis : List LiftedInstruction}
    {lines : List ListingLine} (h : Lists backend display bytes base offset temps lis lines)
    (hoffset : offset ≤ bytes.length) :
    ∃ n, offset ≤ n ∧ n ≤ bytes.length ∧
      lines.flatMap ListingLine.raw = (bytes.take n).drop offset ∧
      Lists backend display (bytes.take n) base offset temps lis
        (lines.filter ListingLine.isRecorded) := by
  have hraw : ∀ (o : ℕ) (result : DisassemblyResult I) (li : LiftedInstruction),
      (linesOf display bytes o result li).flatMap ListingLine.raw =
          (bytes.drop o).take result.length ∧
        (linesOf display bytes o result li).filter ListingLine.isRecorded =
          linesOf display bytes o result li := by
    intro o result li
    simp [linesOf, ListingLine.raw, ListingLine.isRecorded, List.flatMap_map]
  induction h with
  | @done o t hend =>
    exact ⟨o, Nat.le_refl _, hoffset, by simp, .done (by simp)⟩
  | @truncated o t a hlt haddr he =>
    exact ⟨o, Nat.le_refl _, hoffset, by simp [ListingLine.raw], .done (by simp)⟩
  | @failed o t a e hlt haddr he hne =>
    exact ⟨o, Nat.le_refl _, hoffset, by simp [ListingLine.raw], .done (by simp)⟩
  | @last o t t' result li hread hret =>
    obtain ⟨htake, hlines⟩ := hread.take hstable (Nat.le_refl _) hread.length_le
      (hlaw.length_pos hread.decoded)
    refine ⟨o + result.length, by omega, hread.length_le, ?_, ?_⟩
    · rw [(hraw o result li).1, List.drop_take]
      congr 1
      omega
    · rw [(hraw o result li).2, ← hlines]
      exact .last htake hret
  | @next o t t' result li lis lines hread hno hmore ih =>
    obtain ⟨n, hon, hn, hbytes, hlists⟩ := ih hread.length_le
    obtain ⟨htake, hlines⟩ := hread.take hstable hon hn (hlaw.length_pos hread.decoded)
    refine ⟨n, by omega, hn, ?_, ?_⟩
    · rw [List.flatMap_append, (hraw o result li).1, hbytes, ← take_drop_take bytes hon,
        ← List.drop_drop, List.take_append_drop]
    · rw [List.filter_append, (hraw o result li).2, ← hlines]
      exact .next htake hno hlists

/-- What is recorded and printed of longer input: the same, or more where the loop has run out of
input. -/
def Continues (lis lis' : List LiftedInstruction) (lines lines' : List ListingLine) : Prop :=
  (lis' = lis ∧ lines' = lines) ∨
    ∃ more printed tail rest, lis' = lis ++ more ∧ lines = printed ++ tail ∧
      lines' = printed ++ rest ∧ (tail = [] ∨ ∃ a, tail = [.truncated a])

omit hstable hlaw in
theorem Continues.cons {lis lis' : List LiftedInstruction} {lines lines' : List ListingLine}
    (h : Continues lis lis' lines lines') (li : LiftedInstruction) (first : List ListingLine) :
    Continues (li :: lis) (li :: lis') (first ++ lines) (first ++ lines') := by
  rcases h with ⟨rfl, rfl⟩ | ⟨more, printed, tail, rest, rfl, rfl, rfl, htail⟩
  · exact .inl ⟨rfl, rfl⟩
  · exact .inr ⟨more, first ++ printed, tail, rest, by simp, by simp, by simp, htail⟩

omit hlaw in
theorem disassembleOne_append (x : List UInt8) {o : ℕ} (ho : o ≤ bytes.length) (a : Address) :
    backend.disassembleOne (bytes.drop o) a = .error .unexpectedEnd ∨
      backend.disassembleOne ((bytes ++ x).drop o) a =
        backend.disassembleOne (bytes.drop o) a := by
  rw [List.drop_append_of_le_length ho]
  cases hres : backend.disassembleOne (bytes.drop o) a with
  | error e =>
    by_cases he : e = .unexpectedEnd
    · exact .inl (by rw [he])
    · exact .inr (hstable.error hres he x)
  | ok result => exact .inr (hstable.extended hres x)

/-- The recorded instructions of longer input extend those of shorter input, and are the same
unless the loop has run out of input. -/
theorem Lists.of_append {x : List UInt8} {offset : ℕ} {temps : TempAllocator}
    {lis' : List LiftedInstruction} {lines' : List ListingLine}
    (h : Lists backend display (bytes ++ x) base offset temps lis' lines')
    (hoffset : offset ≤ bytes.length) :
    ∃ lis lines, Lists backend display bytes base offset temps lis lines ∧
      Continues lis lis' lines lines' := by
  have hdone : ∀ {o t lis' lines'}, bytes.length ≤ o → ∃ lis lines,
      Lists backend display bytes base o t lis lines ∧ Continues lis lis' lines lines' :=
    fun hend => ⟨[], [], .done hend, .inr ⟨_, [], [], _, rfl, rfl, rfl, .inl rfl⟩⟩
  have hstarved : ∀ {o t a lis' lines'}, o < bytes.length → addU64 base o = .ok a →
      backend.disassembleOne (bytes.drop o) a = .error .unexpectedEnd → ∃ lis lines,
      Lists backend display bytes base o t lis lines ∧ Continues lis lis' lines lines' :=
    fun hlt haddr he => ⟨[], _, .truncated hlt haddr he,
      .inr ⟨_, [], _, _, rfl, rfl, rfl, .inr ⟨_, rfl⟩⟩⟩
  have hread : ∀ {o t result li t'}, o < bytes.length →
      ReadAt backend (bytes ++ x) base o t result li t' →
      backend.disassembleOne ((bytes ++ x).drop o) li.address =
        backend.disassembleOne (bytes.drop o) li.address →
      ReadAt backend bytes base o t result li t' := by
    rintro o t result li t' hlt ⟨-, haddr, hres, -, hlift⟩ hsame
    rw [hsame] at hres
    have hle := hlaw.length_le hres
    rw [List.length_drop] at hle
    exact ⟨hlt, haddr, hres, by omega, hlift⟩
  induction h with
  | done hend =>
    rw [List.length_append] at hend
    exact hdone (Nat.le_of_add_right_le hend)
  | truncated hlt haddr he =>
    rcases Nat.lt_or_ge _ bytes.length with hlt' | hend
    · rcases disassembleOne_append hstable x hoffset _ with hstop | hsame
      · exact hstarved hlt' haddr hstop
      · exact hstarved hlt' haddr (hsame ▸ he)
    · exact hdone hend
  | failed hlt haddr he hne =>
    rcases Nat.lt_or_ge _ bytes.length with hlt' | hend
    · rcases disassembleOne_append hstable x hoffset _ with hstop | hsame
      · exact hstarved hlt' haddr hstop
      · exact ⟨[], _, .failed hlt' haddr (hsame ▸ he) hne, .inl ⟨rfl, rfl⟩⟩
    · exact hdone hend
  | @last o t t' result li hreads hret =>
    rcases Nat.lt_or_ge o bytes.length with hlt' | hend
    · rcases disassembleOne_append hstable x hoffset li.address with hstop | hsame
      · exact hstarved hlt' hreads.address hstop
      · have hshort := hread hlt' hreads hsame
        refine ⟨[li], _, .last hshort hret, .inl ⟨rfl, ?_⟩⟩
        exact (hshort.append hstable x).2
    · exact hdone hend
  | @next o t t' result li lis lines hreads hno hmore ih =>
    rcases Nat.lt_or_ge o bytes.length with hlt' | hend
    · rcases disassembleOne_append hstable x hoffset li.address with hstop | hsame
      · exact hstarved hlt' hreads.address hstop
      · have hshort := hread hlt' hreads hsame
        obtain ⟨lis₀, lines₀, hlists, hcont⟩ := ih hshort.length_le
        refine ⟨li :: lis₀, _, .next hshort hno hlists, ?_⟩
        rw [(hshort.append hstable x).2]
        exact hcont.cons li _
    · exact hdone hend

end Bytes

end Loop

theorem Arch.listFunction_fst (arch : Arch) (name : String) (bytes : List UInt8)
    (base : Address) :
    (arch.listFunction name bytes base).map Prod.fst = arch.processFunction name bytes base := by
  have hfst : ∀ {I : Type} (backend : Backend I) (display : I → String),
      (Decompiler.listFunction backend display name bytes base).map Prod.fst =
        Decompiler.processFunction backend name bytes base := by
    intro I backend display
    rw [Decompiler.listFunction, Decompiler.processFunction, ← @listLoop_fst I backend display]
    cases listLoop backend display bytes base (bytes.length + 1) 0 .new (.new base) <;> rfl
  cases arch with
  | x86 => exact hfst _ _
  | arm => exact hfst _ _

section Functions

open Cfg (stream)

variable {I : Type} {backend : Backend I} {display : I → String} {name : String}
  {bytes : List UInt8} {base : Address}

theorem listFunction_iff (hlaw : backend.Lawful) {f : Function} {lines : List ListingLine} :
    listFunction backend display name bytes base = .ok (f, lines) ↔
      ∃ lis, f = .ofStream name base lis ∧
        Lists backend display bytes base 0 .new lis lines := by
  constructor
  · rintro h
    obtain ⟨⟨block, lines'⟩, hloop, heq⟩ := Fallible.bind_eq_ok.mp h
    obtain ⟨rfl, rfl⟩ := Prod.mk.inj (Except.ok.inj heq)
    obtain ⟨lis, rfl, hlists⟩ := lists_of_listLoop hloop
    exact ⟨lis, rfl, hlists⟩
  · rintro ⟨lis, rfl, hlists⟩
    rw [listFunction, hlists.listLoop_eq hlaw (by omega) (Nat.zero_le _)]
    rfl

variable (hstable : backend.Stable) (hlaw : backend.Lawful)

include hstable hlaw

theorem listFunction_continues {x : List UInt8} {f' : Function} {lines' : List ListingLine}
    (h : listFunction backend display name (bytes ++ x) base = .ok (f', lines')) :
    ∃ f lines, listFunction backend display name bytes base = .ok (f, lines) ∧
      Continues (stream f) (stream f') lines lines' := by
  obtain ⟨lis', rfl, hlists'⟩ := (listFunction_iff hlaw).mp h
  obtain ⟨lis, lines, hlists, hcont⟩ := hlists'.of_append hstable hlaw (Nat.zero_le _)
  refine ⟨_, lines, (listFunction_iff hlaw).mpr ⟨lis, rfl, hlists⟩, ?_⟩
  rwa [stream_ofStream, stream_ofStream]

theorem listFunction_consumed {f : Function} {lines : List ListingLine}
    (h : listFunction backend display name bytes base = .ok (f, lines)) :
    ∃ n ≤ bytes.length, lines.flatMap ListingLine.raw = bytes.take n ∧
      listFunction backend display name (bytes.take n) base =
        .ok (f, lines.filter ListingLine.isRecorded) := by
  obtain ⟨lis, rfl, hlists⟩ := (listFunction_iff hlaw).mp h
  obtain ⟨n, -, hn, hraw, hconsumed⟩ := hlists.consumed hstable hlaw (Nat.zero_le _)
  exact ⟨n, hn, hraw, (listFunction_iff hlaw).mpr ⟨lis, rfl, hconsumed⟩⟩

end Functions

/-- Decoding is incremental: longer input is listed without a fault only if its front is, and then
the recorded instructions and the lines of the front stay, and are all there is unless the front
has been used up. -/
theorem Arch.listFunction_append {arch : Arch} {name : String} {bytes x : List UInt8}
    {base : Address} {f' : Function} {lines' : List ListingLine}
    (h : arch.listFunction name (bytes ++ x) base = .ok (f', lines')) :
    ∃ f lines, arch.listFunction name bytes base = .ok (f, lines) ∧
      Continues (Cfg.stream f) (Cfg.stream f') lines lines' := by
  cases arch with
  | x86 => exact Decompiler.listFunction_continues X86.stable X86.lawful h
  | arm => exact Decompiler.listFunction_continues Arm.stable Arm.lawful h

/-- `mov eax, 5; ret`, first without the last two bytes -/
theorem Arch.listFunction_append_truncated :
    ∃ f f' lines lines', Arch.x86.listFunction "input" [0xB8, 0x05, 0x00, 0x00] 0x1000 =
        .ok (f, lines) ∧
      Arch.x86.listFunction "input" [0xB8, 0x05, 0x00, 0x00, 0x00, 0xC3] 0x1000 =
        .ok (f', lines') ∧
      Continues (Cfg.stream f) (Cfg.stream f') lines lines' := by
  have hlong : ∃ r, Arch.x86.listFunction "input" ([0xB8, 0x05, 0x00, 0x00] ++ [0x00, 0xC3])
      0x1000 = .ok r ∧ True := by decide +kernel
  obtain ⟨⟨f', lines'⟩, h', -⟩ := hlong
  obtain ⟨f, lines, h, hcont⟩ := Arch.listFunction_append h'
  exact ⟨f, f', lines, lines', h, h', hcont⟩

end Decompiler
