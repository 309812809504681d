import Decompiler.Cli.Columns
import Decompiler.Passes.Manager
import Mathlib.Data.List.DropRight

/-! # The command line

The arguments select the bytes, the base and the architecture; the report on a function is its
listing, a summary, the graph behind the passes and the pseudocode. Reading a file is a parameter.
-/

namespace Decompiler

open Hex Output Cfg

section Base

def readNumber (radix : ℕ) : ℕ → List Char → Except ParseIntError UInt64
  | value, [] => .ok (.ofNat value)
  | value, c :: cs =>
    match toDigit c with
    | none => .error .invalidDigit
    | some digit =>
      if radix ≤ digit then .error .invalidDigit
      else if value * radix + digit < 2 ^ 64 then readNumber radix (value * radix + digit) cs
      else .error .posOverflow

/-- `u64::from_str_radix` -/
def fromStrRadix (radix : ℕ) (src : List Char) : Except ParseIntError UInt64 :=
  match src with
  | [] => .error .empty
  | ['+'] | ['-'] => .error .invalidDigit
  | '+' :: digits => readNumber radix 0 digits
  | digits => readNumber radix 0 digits

/-- `str::trim` -/
def trim (s : List Char) : List Char := (s.dropWhile isWhitespace).rdropWhile isWhitespace

def parseBase (input : String) : Except String UInt64 :=
  match trim input.toList with
  | '0' :: 'x' :: digits | '0' :: 'X' :: digits =>
    (fromStrRadix 16 digits).mapError ParseIntError.message
  | s => (fromStrRadix 10 s).mapError ParseIntError.message

end Base

section Report

def summary (f : Function) : String :=
  "  -- " ++ toString (f.blocks.map fun b => b.instructions.length).sum ++
    " machine instruction(s) lifted to " ++
    toString ((f.blocks.flatMap BasicBlock.instructions).map fun li => li.ops.length).sum ++
    " IR operation(s)"

/-- `{:?}` of a list of addresses -/
def debugAddresses (as : List Address) : String :=
  "[" ++ ", ".intercalate (as.map fun a => toString a.toNat) ++ "]"

def blockLines (b : BasicBlock) : List String :=
  ("  block 0x" ++ hex b.startAddress ++ "  (preds: " ++ debugAddresses b.predecessors ++
    ", succs: " ++ debugAddresses b.successors ++ ")") ::
    b.instructions.flatMap fun li => li.ops.map fun op =>
      "    0x" ++ hex li.address ++ ":  " ++ op.display

/-- `str::lines` -/
def textLines (text : String) : List String :=
  let pieces := text.toList.splitOn '\n'
  let ended := pieces.dropLast.map fun l => if l.getLast? = some '\r' then l.dropLast else l
  (ended ++ (pieces.getLast?.filter (· ≠ [])).toList).map String.ofList

def phase2Lines (f : Function) : Except Fault (List String) := do
  let (passing, g) ← (PassManager.ofBuiltins phase2).runVerbose f
  let text ← generate g
  return "\n  --- Phase 2-4: CFG, Dataflow, Type Inference, Structuring ---" :: passing ++
    g.blocks.flatMap blockLines ++ "\n  --- Phase 4: pseudocode (structured C) ---" ::
    (textLines text).map ("  " ++ ·)

def headLine (name : String) (base : Address) (size : ℕ) : String :=
  "\n=== " ++ name ++ " (base 0x" ++ hex base ++ ", " ++ toString size ++ " bytes) ==="

def report (arch : Arch) (name : String) (bytes : List UInt8) (base : Address) :
    Except Fault (List String) := do
  let (f, lines) ← arch.listFunction name bytes base
  return headLine name base bytes.length :: lines.map ListingLine.text ++
    summary f :: (← phase2Lines f)

end Report

section Arguments

structure Options where
  hexArg : Option String
  fileArg : Option String
  baseArg : Address
  archArg : String
  deriving DecidableEq, Repr

def Options.initial : Options := ⟨none, none, 0x1000, "x86"⟩

/-- The loop over the arguments; there are no options if help is asked for. -/
def readArgs : List String → Options → Except String (Option Options)
  | [], o => .ok (some o)
  | arg :: rest, o =>
    if arg = "--hex" then
      match rest with
      | [] => .error "--hex requires a value"
      | value :: rest => readArgs rest { o with hexArg := some value }
    else if arg = "--file" then
      match rest with
      | [] => .error "--file requires a value"
      | value :: rest => readArgs rest { o with fileArg := some value }
    else if arg = "--base" then
      match rest with
      | [] => .error "--base requires a value"
      | value :: rest =>
        match parseBase value with
        | .error e => .error e
        | .ok base => readArgs rest { o with baseArg := base }
    else if arg = "--arch" then
      match rest with
      | [] => .error "--arch requires a value (x86 or arm)"
      | value :: rest => readArgs rest { o with archArg := value }
    else if arg = "--help" ∨ arg = "-h" then .ok none
    else .error ("unrecognized argument: " ++ arg)

/-- Whatever is not `arm` is x86. -/
def Options.arch (o : Options) : Arch := if o.archArg = "arm" then .arm else .x86

def usage : String :=
  "decompiler-cli - disassemble + lift bytes to IR, then run full pipeline\n\n" ++
  "Usage:\n" ++
  "  decompiler-cli                              run the built-in demo\n" ++
  "  decompiler-cli --hex \"B8 05 00 00 00 C3\"     lift a hex byte string\n" ++
  "  decompiler-cli --file bytes.bin              lift a raw binary file\n" ++
  "  decompiler-cli [...] --base 0x401000         set the load address (default 0x1000)\n" ++
  "  decompiler-cli [...] --arch arm              set architecture (x86 or arm, default x86)"

def demoBytes : List UInt8 :=
  [0xB8, 0x05, 0x00, 0x00, 0x00, 0x05, 0x03, 0x00, 0x00, 0x00, 0x3D, 0x08, 0x00, 0x00, 0x00,
    0x75, 0x07, 0xBB, 0x01, 0x00, 0x00, 0x00, 0xEB, 0x05, 0xBB, 0x00, 0x00, 0x00, 0x00, 0xC3]

def callDemoBytes : List UInt8 := [0xE8, 0x0A, 0x00, 0x00, 0x00]

def armDemoBytes : List UInt8 :=
  [0xA0, 0x00, 0x00, 0x10, 0xA0, 0x08, 0x00, 0x12, 0x00, 0x20, 0x00, 0x13, 0x08, 0x00, 0x00, 0x17,
    0x21, 0x00, 0x00, 0x10, 0x08, 0x00, 0x00, 0x14, 0x01, 0x00, 0x00, 0x10, 0x00, 0x00, 0x00, 0x18]

def demo : Arch → Except Fault (List String)
  | .arm => report .arm "demo_arm" armDemoBytes 0x1000
  | .x86 => do
    let first ← report .x86 "demo_function (mov/add/cmp/jne/jmp/ret)" demoBytes 0x1000
    return first ++ (← report .x86 "demo_call (call)" callDemoBytes 0x2000)

def Options.bytes (readFile : String → Except String (List UInt8)) (o : Options) :
    Except Fault (Except String (List UInt8)) :=
  match o.hexArg, o.fileArg with
  | some value, _ => parseHex value
  | none, some path =>
    return (readFile path).mapError fun e => "failed to read " ++ path ++ ": " ++ e
  | none, none => return .ok []

/-- `run`: the printed lines or the message of the error, behind which nothing is printed. -/
def run (readFile : String → Except String (List UInt8)) (args : List String) :
    Except Fault (Except String (List String)) :=
  match readArgs args .initial with
  | .error e => return .error e
  | .ok none => return .ok [usage]
  | .ok (some o) =>
    if o.hexArg.isSome ∧ o.fileArg.isSome then
      return .error "--hex and --file are mutually exclusive; pass only one"
    else if o.hexArg = none ∧ o.fileArg = none then return .ok (← demo o.arch)
    else do
      match ← o.bytes readFile with
      | .error e => return .error e
      | .ok bytes => return .ok (← report o.arch "input" bytes o.baseArg)

end Arguments

/-! ## The grammar of the arguments -/

inductive Setting where
  | hex (value : String)
  | file (path : String)
  | base (address : String)
  | arch (name : String)
  deriving DecidableEq, Repr

namespace Setting

def args : Setting → List String
  | hex value => ["--hex", value]
  | file path => ["--file", path]
  | base address => ["--base", address]
  | arch name => ["--arch", name]

def hex? : Setting → Option String
  | hex value => some value
  | _ => none

def file? : Setting → Option String
  | file path => some path
  | _ => none

def base? : Setting → Option String
  | base address => some address
  | _ => none

def arch? : Setting → Option String
  | arch name => some name
  | _ => none

/-- The options behind some settings: the last one of each kind counts. -/
def options (settings : List Setting) (bases : List Address) (o : Options) : Options where
  hexArg := (settings.filterMap hex?).getLast?.or o.hexArg
  fileArg := (settings.filterMap file?).getLast?.or o.fileArg
  baseArg := bases.getLast?.getD o.baseArg
  archArg := (settings.filterMap arch?).getLast?.getD o.archArg

end Setting

section Grammar

open Setting

theorem getLast?_cons_or {α : Type*} (a : α) (l : List α) (o : Option α) :
    (a :: l).getLast?.or o = l.getLast?.or (some a) := by
  rw [List.getLast?_cons]
  cases l.getLast? <;> rfl

theorem getLast?_cons_getD {α : Type*} (a : α) (l : List α) (d : α) :
    (a :: l).getLast?.getD d = l.getLast?.getD a := by
  rw [List.getLast?_cons, Option.getD_some]

theorem readArgs_settings (settings : List Setting) (o : Options) :
    readArgs (settings.flatMap args) o =
      (settings.filterMap base?).mapM parseBase >>= fun bases =>
        .ok (some (options settings bases o)) := by
  induction settings generalizing o with
  | nil => rfl
  | cons setting settings ih =>
    cases setting with
    | hex value =>
      have hread : readArgs ((Setting.hex value :: settings).flatMap args) o =
          readArgs (settings.flatMap args) { o with hexArg := some value } := rfl
      simp only [hread, ih, options, hex?, file?, base?, arch?, List.filterMap_cons,
        getLast?_cons_or]
    | file path =>
      have hread : readArgs ((Setting.file path :: settings).flatMap args) o =
          readArgs (settings.flatMap args) { o with fileArg := some path } := rfl
      simp only [hread, ih, options, hex?, file?, base?, arch?, List.filterMap_cons,
        getLast?_cons_or]
    | arch name =>
      have hread : readArgs ((Setting.arch name :: settings).flatMap args) o =
          readArgs (settings.flatMap args) { o with archArg := name } := rfl
      simp only [hread, ih, options, hex?, file?, base?, arch?, List.filterMap_cons,
        getLast?_cons_getD]
    | base address =>
      show readArgs ("--base" :: address :: settings.flatMap args) o = _
      rw [readArgs, if_neg (by decide), if_neg (by decide), if_pos rfl]
      cases hbase : parseBase address with
      | error e =>
        simp only [base?, List.filterMap_cons, List.mapM_cons, hbase]
        rfl
      | ok a =>
        simp only [ih, options, hex?, file?, base?, arch?, List.filterMap_cons, List.mapM_cons,
          hbase, Fallible.ok_bind, bind_assoc, Fallible.pure_eq_ok, getLast?_cons_getD]

theorem exists_settings {arguments : List String} {o o' : Options}
    (h : readArgs arguments o = .ok (some o')) :
    ∃ settings : List Setting, arguments = settings.flatMap args := by
  have hcons : ∀ {rest : List String} (setting : Setting),
      (∃ settings : List Setting, rest = settings.flatMap args) →
      ∃ settings : List Setting, setting.args ++ rest = settings.flatMap args := by
    rintro rest setting ⟨settings, rfl⟩
    exact ⟨setting :: settings, rfl⟩
  induction arguments, o using readArgs.induct with
  | case1 o => exact ⟨[], rfl⟩
  | case2 o =>
    rw [readArgs, if_pos rfl] at h
    cases h
  | case3 o value rest ih => exact hcons (.hex value) (ih h)
  | case4 o h₁ =>
    rw [readArgs, if_neg h₁, if_pos rfl] at h
    cases h
  | case5 o value rest h₁ ih => exact hcons (.file value) (ih h)
  | case6 o h₁ h₂ =>
    rw [readArgs, if_neg h₁, if_neg h₂, if_pos rfl] at h
    cases h
  | case7 o value rest e hbase h₁ h₂ =>
    rw [readArgs, if_neg h₁, if_neg h₂, if_pos rfl] at h
    simp only [hbase] at h
    cases h
  | case8 o value rest base hbase h₁ h₂ ih =>
    rw [readArgs, if_neg h₁, if_neg h₂, if_pos rfl] at h
    simp only [hbase] at h
    exact hcons (.base value) (ih h)
  | case9 o h₁ h₂ h₃ =>
    rw [readArgs, if_neg h₁, if_neg h₂, if_neg h₃, if_pos rfl] at h
    cases h
  | case10 o value rest h₁ h₂ h₃ ih => exact hcons (.arch value) (ih h)
  | case11 arg rest o h₁ h₂ h₃ h₄ hhelp =>
    unfold readArgs at h
    rw [if_neg h₁, if_neg h₂, if_neg h₃, if_neg h₄, if_pos hhelp] at h
    cases h
  | case12 arg rest o h₁ h₂ h₃ h₄ hhelp =>
    unfold readArgs at h
    rw [if_neg h₁, if_neg h₂, if_neg h₃, if_neg h₄, if_neg hhelp] at h
    cases h

/-- The argument loop accepts exactly the sequences of options with a value, among these every
base a number, and of each kind the last one counts. -/
theorem readArgs_eq_some_iff (arguments : List String) (o : Options) :
    readArgs arguments .initial = .ok (some o) ↔ ∃ settings : List Setting,
      arguments = settings.flatMap args ∧ ∃ bases,
        (settings.filterMap base?).mapM parseBase = .ok bases ∧
        o = options settings bases .initial := by
  constructor
  · intro h
    obtain ⟨settings, rfl⟩ := exists_settings h
    rw [readArgs_settings] at h
    obtain ⟨bases, hbases, heq⟩ := Fallible.bind_eq_ok.mp h
    exact ⟨settings, rfl, bases, hbases, (Option.some.inj (Except.ok.inj heq)).symm⟩
  · rintro ⟨settings, rfl, bases, hbases, rfl⟩
    rw [readArgs_settings, hbases]
    rfl

theorem run_reorder (readFile : String → Except String (List UInt8))
    {settings settings' : List Setting}
    (hhex : settings'.filterMap hex? = settings.filterMap hex?)
    (hfile : settings'.filterMap file? = settings.filterMap file?)
    (hbase : settings'.filterMap base? = settings.filterMap base?)
    (harch : settings'.filterMap arch? = settings.filterMap arch?) :
    run readFile (settings'.flatMap args) = run readFile (settings.flatMap args) := by
  have hread : readArgs (settings'.flatMap args) .initial =
      readArgs (settings.flatMap args) .initial := by
    simp only [readArgs_settings, options, hhex, hfile, hbase, harch]
  rw [run, run, hread]

example (readFile : String → Except String (List UInt8)) :
    run readFile ["--base", "0x401000", "--hex", "C3"] =
      run readFile ["--hex", "C3", "--base", "0x401000"] :=
  @run_reorder readFile [.hex "C3", .base "0x401000"] [.base "0x401000", .hex "C3"] rfl rfl rfl rfl

end Grammar

/-! ## The listing as an argument -/

section Again

theorem readNumber_toDigits {n : ℕ} (hn : n < 2 ^ 64) (rest : List Char) :
    readNumber 16 0 (Nat.toDigits 16 n ++ rest) = readNumber 16 n rest := by
  have hdigit : ∀ {value k : ℕ} (cs : List Char), k < 16 → value * 16 + k < 2 ^ 64 →
      readNumber 16 value (Nat.digitChar k :: cs) = readNumber 16 (value * 16 + k) cs := by
    intro value k cs hk hfits
    rw [readNumber, toDigit_digitChar hk]
    simp only
    rw [if_neg (Nat.not_le_of_lt hk), if_pos hfits]
  induction n using Nat.strongRecOn generalizing rest with
  | ind n ih =>
    rw [Nat.toDigits_eq_if (by decide)]
    split_ifs with hlt
    · rw [List.singleton_append, hdigit rest hlt (by omega), Nat.zero_mul, Nat.zero_add]
    · rw [List.append_assoc, List.singleton_append, ih (n / 16) (by omega) (by omega),
        hdigit rest (Nat.mod_lt n (by decide)) (by omega), Nat.div_add_mod']

theorem parseBase_hex (a : Address) : parseBase ("0x" ++ hex a) = .ok a := by
  have hlist : ("0x" ++ hex a).toList = '0' :: 'x' :: Nat.toDigits 16 a.toNat := by
    simp [hex]
  have hdigits : ∀ c ∈ '0' :: 'x' :: Nat.toDigits 16 a.toNat, isWhitespace c = false := by
    intro c hc
    rcases List.mem_cons.mp hc with rfl | hc
    · decide
    rcases List.mem_cons.mp hc with rfl | hc
    · decide
    · exact isWhitespace_of_digit (isSome_toDigits _ c hc)
  have htrim : trim ("0x" ++ hex a).toList = '0' :: 'x' :: Nat.toDigits 16 a.toNat := by
    rw [hlist, trim, List.dropWhile_cons_of_neg (by decide), List.rdropWhile_eq_self_iff]
    intro hne
    rw [hdigits _ (List.getLast_mem hne)]
    decide
  have hparse : fromStrRadix 16 (Nat.toDigits 16 a.toNat) = .ok a := by
    have hread := readNumber_toDigits a.toNat_lt []
    rw [List.append_nil, readNumber, UInt64.ofNat_toNat] at hread
    have hplus : '+' ∉ Nat.toDigits 16 a.toNat :=
      fun h => absurd (isSome_toDigits _ _ h) (by decide)
    have hminus : '-' ∉ Nat.toDigits 16 a.toNat :=
      fun h => absurd (isSome_toDigits _ _ h) (by decide)
    have hne : Nat.toDigits 16 a.toNat ≠ [] := Nat.toDigits_ne_nil
    generalize Nat.toDigits 16 a.toNat = digits at *
    unfold fromStrRadix
    split <;> simp_all
  rw [parseBase, htrim]
  simp only [hparse]
  rfl

theorem PassManager.runVerbose_snd (m : PassManager) (f : Function) :
    (m.runVerbose f).map Prod.snd = m.run f := by
  have hfold : ∀ (passes : List AnalysisPass) (lines : List String) (f : Function),
      (passes.foldlM (fun s pass => do
        let lines := s.1 ++ ["  -- running pass: " ++ pass.name]
        return (lines, ← pass.run s.2)) (lines, f) : Except Fault (List String × Function)).map
          Prod.snd = passes.foldlM (fun f pass => pass.run f) f := by
    intro passes
    induction passes with
    | nil => exact fun _ _ => rfl
    | cons pass passes ih =>
      intro lines f
      rw [List.foldlM_cons, List.foldlM_cons]
      cases pass.run f with
      | error e => rfl
      | ok g => exact ih _ g
  exact hfold m.passes [] f

theorem listFunction_ready {arch : Arch} {name : String} {bytes : List UInt8} {base : Address}
    {f : Function} {lines : List ListingLine}
    (h : arch.listFunction name bytes base = .ok (f, lines)) : Ready f := by
  have hf : arch.processFunction name bytes base = .ok f := by
    rw [← arch.listFunction_fst, h]
    rfl
  obtain ⟨flat, rfl, hflat⟩ := Arch.processFunction_eq_ok hf
  exact ready_ofStream hflat

/-- Behind the decode loop nothing faults. -/
theorem exists_phase2Lines {f : Function} (hf : Ready f) : ∃ rest, phase2Lines f = .ok rest := by
  obtain ⟨g, hg, hready, -⟩ := hf.run_passes phase2
  obtain ⟨text, htext⟩ := hready.exists_text
  rw [← PassManager.runVerbose_snd] at hg
  cases hverbose : (PassManager.ofBuiltins phase2).runVerbose f with
  | error e =>
    rw [hverbose] at hg
    cases hg
  | ok verbose =>
    obtain ⟨passing, g'⟩ := verbose
    rw [hverbose] at hg
    obtain rfl : g' = g := Except.ok.inj hg
    exact ⟨_, by rw [phase2Lines, hverbose, Fallible.ok_bind]; simp only [htext]; rfl⟩

theorem report_eq {arch : Arch} {name : String} {bytes : List UInt8} {base : Address}
    {f : Function} {lines : List ListingLine} {rest : List String}
    (h : arch.listFunction name bytes base = .ok (f, lines)) (hrest : phase2Lines f = .ok rest) :
    report arch name bytes base = .ok (headLine name base bytes.length ::
      lines.map ListingLine.text ++ summary f :: rest) := by
  rw [report, h, Fallible.ok_bind]
  simp only [hrest]
  rfl

/-- The listing of a report, cut out and given back as a hex argument at the same base, gives the
same report, up to the number of bytes in its head and the reason for which decoding stopped. -/
theorem run_listing_again {readFile : String → Except String (List UInt8)}
    {arguments out : List String} {o : Options} (ho : readArgs arguments .initial = .ok (some o))
    (hgiven : o.hexArg.isSome ∨ o.fileArg.isSome) (h : run readFile arguments = .ok (.ok out)) :
    ∃ bytes consumed f lines rest, o.bytes readFile = .ok (.ok bytes) ∧ consumed <+: bytes ∧
      o.arch.listFunction "input" bytes o.baseArg = .ok (f, lines) ∧
      out = headLine "input" o.baseArg bytes.length :: lines.map ListingLine.text ++ rest ∧
      run readFile ["--hex", String.ofList ((lines.map ListingLine.text).flatMap hexColumn),
          "--base", "0x" ++ hex o.baseArg, "--arch", o.archArg] =
        .ok (.ok (headLine "input" o.baseArg consumed.length ::
          (lines.filter ListingLine.isRecorded).map ListingLine.text ++ rest)) := by
  have hsome : ¬ (o.hexArg = none ∧ o.fileArg = none) := by
    rintro ⟨hhex, hfile⟩
    simp [hhex, hfile] at hgiven
  rw [run, ho] at h
  simp only at h
  split_ifs at h with hboth
  · cases h
  obtain ⟨answer, hbytes, h⟩ := Fallible.bind_eq_ok.mp h
  cases answer with
  | error e => cases h
  | ok bytes =>
    obtain ⟨out', hreport, heq⟩ := Fallible.bind_eq_ok.mp h
    obtain rfl := Except.ok.inj (Except.ok.inj heq)
    obtain ⟨⟨f, lines⟩, hlist, -⟩ := Fallible.bind_eq_ok.mp hreport
    obtain ⟨consumed, hprefix, hparse, hagain⟩ := Arch.listFunction_reads_back hlist
    obtain ⟨rest, hrest⟩ := exists_phase2Lines (listFunction_ready hlist)
    refine ⟨bytes, consumed, f, lines, summary f :: rest, hbytes, hprefix, hlist, ?_, ?_⟩
    · exact Except.ok.inj (hreport.symm.trans (report_eq hlist hrest))
    · generalize String.ofList ((lines.map ListingLine.text).flatMap hexColumn) = value at hparse ⊢
      have hread : readArgs ["--hex", value, "--base", "0x" ++ hex o.baseArg, "--arch", o.archArg]
          .initial = .ok (some ⟨some value, none, o.baseArg, o.archArg⟩) := by
        have hbase : [("0x" ++ hex o.baseArg)].mapM parseBase = .ok [o.baseArg] := by
          rw [List.mapM_cons, parseBase_hex]
          rfl
        exact (readArgs_settings [.hex value, .base ("0x" ++ hex o.baseArg), .arch o.archArg]
          .initial).trans (congrArg (· >>= _) hbase)
      rw [run, hread]
      simp only [Option.isSome_some, Option.isSome_none, Bool.false_eq_true, and_false, if_false,
        reduceCtorEq, false_and, Options.bytes, hparse, Fallible.ok_bind]
      rw [show (Options.mk (some value) none o.baseArg o.archArg).arch = o.arch from rfl,
        report_eq hagain hrest]
      rfl

end Again

/-! ## When the program panics -/

section Faults

/-- A pair of bytes that is not read as a number ends inside a character. -/
def Hex.Splits (s : List Char) : Prop :=
  String.utf8Len s % 2 = 0 ∧ remainder s ≠ [] ∧ ¬ Utf8.IsBoundary (remainder s) 2

theorem Hex.parseHex_eq_error_iff {value : String} {fault : Fault} :
    parseHex value = .error fault ↔ fault = .outOfBounds ∧ Splits (cleaned value) := by
  by_cases hodd : String.utf8Len (cleaned value) % 2 = 1
  · obtain ⟨e, he⟩ := parseHex_odd hodd
    rw [he]
    refine iff_of_false nofun ?_
    rintro ⟨-, heven, -⟩
    omega
  obtain ⟨n, hn⟩ : ∃ n, String.utf8Len (cleaned value) = 2 * n :=
    ⟨String.utf8Len (cleaned value) / 2, by omega⟩
  obtain ⟨hall, herr, hpanic⟩ := collectBytes_eq (cleaned value) [] n hn
  rw [List.nil_append, String.utf8Len_nil, ← parseHex_even hn] at hall herr hpanic
  constructor
  · intro h
    have hne : remainder (cleaned value) ≠ [] := by
      intro hnil
      rw [hall hnil] at h
      cases h
    have hsplit : ¬ Utf8.IsBoundary (remainder (cleaned value)) 2 := by
      intro hb
      obtain ⟨e, he⟩ := herr hne hb
      rw [he] at h
      cases h
    rw [hpanic hne hsplit] at h
    exact ⟨(Except.error.inj h).symm, by omega, hne, hsplit⟩
  · rintro ⟨rfl, -, hne, hsplit⟩
    exact hpanic hne hsplit

theorem report_eq_error_iff {arch : Arch} {name : String} {bytes : List UInt8} {base : Address}
    {fault : Fault} :
    report arch name bytes base = .error fault ↔
      fault = .addressOverflow ∧
        arch.processFunction name bytes base = .error .addressOverflow := by
  have hfst := arch.listFunction_fst name bytes base
  cases hlist : arch.listFunction name bytes base with
  | error e =>
    rw [hlist] at hfst
    have hreport : report arch name bytes base = .error e := by rw [report, hlist]; rfl
    have hover : e = .addressOverflow := by
      rcases arch.overflows_or_ok name bytes base with h | ⟨f, h⟩
      · exact Except.error.inj (hfst.trans h)
      · cases hfst.trans h
    rw [hreport, ← hfst, hover]
    constructor
    · intro h
      exact ⟨(Except.error.inj h).symm, rfl⟩
    · rintro ⟨rfl, -⟩
      rfl
  | ok r =>
    obtain ⟨f, lines⟩ := r
    obtain ⟨rest, hrest⟩ := exists_phase2Lines (listFunction_ready hlist)
    rw [report_eq hlist hrest, ← hfst, hlist]
    exact iff_of_false nofun fun h => nomatch h.2

theorem exists_demo (arch : Arch) : ∃ lines, demo arch = .ok lines := by
  have hreport : ∀ {arch : Arch} {name : String} {bytes : List UInt8} {base : Address},
      (∃ f, arch.processFunction name bytes base = .ok f ∧ True) →
      ∃ lines, report arch name bytes base = .ok lines := by
    rintro arch name bytes base ⟨f, hf, -⟩
    cases hrun : report arch name bytes base with
    | error fault => cases (report_eq_error_iff.mp hrun).2.symm.trans hf
    | ok lines => exact ⟨lines, rfl⟩
  cases arch with
  | arm => exact hreport (by decide +kernel)
  | x86 =>
    obtain ⟨first, hfirst⟩ : ∃ lines, report .x86 "demo_function (mov/add/cmp/jne/jmp/ret)"
        demoBytes 0x1000 = .ok lines := hreport (by decide +kernel)
    obtain ⟨second, hsecond⟩ : ∃ lines, report .x86 "demo_call (call)" callDemoBytes 0x2000 =
        .ok lines := hreport (by decide +kernel)
    exact ⟨first ++ second, by rw [demo, hfirst, Fallible.ok_bind, hsecond]; rfl⟩

/-- The program panics in two cases only: where the hex argument is cut inside a character, and
where an address overflows in the decode loop. Any other command line is answered. -/
theorem run_eq_error_iff (readFile : String → Except String (List UInt8))
    (arguments : List String) (fault : Fault) : run readFile arguments = .error fault ↔
      ∃ o, readArgs arguments .initial = .ok (some o) ∧ o.hexArg.isSome ≠ o.fileArg.isSome ∧
        ((fault = .outOfBounds ∧ ∃ value, o.hexArg = some value ∧ Splits (cleaned value)) ∨
          (fault = .addressOverflow ∧ ∃ bytes, o.bytes readFile = .ok (.ok bytes) ∧
            o.arch.processFunction "input" bytes o.baseArg = .error .addressOverflow)) := by
  cases hread : readArgs arguments .initial with
  | error e => simp [run, hread]
  | ok o? =>
    cases o? with
    | none => simp [run, hread]
    | some o =>
      simp only [run, hread, Except.ok.injEq, Option.some.injEq, exists_eq_left']
      by_cases hboth : o.hexArg.isSome ∧ o.fileArg.isSome
      · simp [hboth.1, hboth.2]
      by_cases hnone : o.hexArg = none ∧ o.fileArg = none
      · obtain ⟨lines, hlines⟩ := exists_demo o.arch
        simp [hnone.1, hnone.2, hlines]
      have hone : o.hexArg.isSome ≠ o.fileArg.isSome := by
        cases hhex : o.hexArg <;> cases hfile : o.fileArg <;> simp_all
      have hvalue : ∀ value, o.hexArg = some value → o.bytes readFile = parseHex value := by
        intro value hhex
        simp only [Options.bytes, hhex]
      rw [if_neg hboth, if_neg hnone]
      cases hbytes : o.bytes readFile with
      | error e =>
        obtain ⟨value, hhex⟩ : ∃ value, o.hexArg = some value := by
          cases hhex : o.hexArg with
          | some value => exact ⟨value, rfl⟩
          | none =>
            rw [Options.bytes, hhex] at hbytes
            cases hfile : o.fileArg <;> rw [hfile] at hbytes <;> cases hbytes
        have hsplits := parseHex_eq_error_iff.mp ((hvalue value hhex).symm.trans hbytes)
        simp only [Fallible.error_bind, Except.error.injEq, reduceCtorEq, false_and, exists_false,
          and_false, or_false, hhex, Option.some.injEq, exists_eq_left', hsplits.2, and_true]
        rw [hhex] at hone
        exact ⟨fun h => ⟨hone, h ▸ hsplits.1⟩, fun h => hsplits.1.trans h.2.symm⟩
      | ok answer =>
        have hnot : ∀ value, o.hexArg = some value → ¬ Splits (cleaned value) := by
          intro value hhex hsplits
          have herror := parseHex_eq_error_iff.mpr ⟨rfl, hsplits⟩
          cases hbytes.symm.trans ((hvalue value hhex).trans herror)
        have hfirst : ¬ ∃ value, o.hexArg = some value ∧ Splits (cleaned value) :=
          fun ⟨value, hhex, hsplits⟩ => hnot value hhex hsplits
        cases answer with
        | error e => simp [hfirst]
        | ok bytes =>
          simp only [Fallible.ok_bind, hfirst, and_false, false_or, Except.ok.injEq,
            exists_eq_left', hone, ne_eq, not_false_eq_true, true_and, ← report_eq_error_iff]
          cases report o.arch "input" bytes o.baseArg with
          | error e => simp
          | ok lines => simp

/-- `jmp` to itself and a byte that is no opcode, from a file -/
theorem run_listing_again_junk :
    ∃ consumed lines lines' rest,
      run (fun _ => .ok [0xEB, 0xFE, 0xFF]) ["--arch", "any", "--file", "junk.bin"] =
        .ok (.ok (headLine "input" 0x1000 3 :: lines ++ rest)) ∧
      run (fun _ => .ok [0xEB, 0xFE, 0xFF]) ["--hex", String.ofList (lines.flatMap hexColumn),
          "--base", "0x" ++ hex 0x1000, "--arch", "any"] =
        .ok (.ok (headLine "input" 0x1000 consumed :: lines' ++ rest)) := by
  have hprocess : ∃ f, Arch.x86.processFunction "input" [0xEB, 0xFE, 0xFF] 0x1000 = .ok f ∧
      True := by decide +kernel
  obtain ⟨f, hf, -⟩ := hprocess
  obtain ⟨out, hout⟩ : ∃ out, report .x86 "input" [0xEB, 0xFE, 0xFF] 0x1000 = .ok out := by
    cases hrun : report .x86 "input" [0xEB, 0xFE, 0xFF] 0x1000 with
    | error fault => cases (report_eq_error_iff.mp hrun).2.symm.trans hf
    | ok out => exact ⟨out, rfl⟩
  have hread : readArgs ["--arch", "any", "--file", "junk.bin"] .initial =
      .ok (some ⟨none, some "junk.bin", 0x1000, "any"⟩) := rfl
  have hrun : run (fun _ => .ok [0xEB, 0xFE, 0xFF]) ["--arch", "any", "--file", "junk.bin"] =
      .ok (.ok out) := by
    have harch : Options.arch ⟨none, some "junk.bin", 0x1000, "any"⟩ = .x86 := rfl
    simp [run, hread, Options.bytes, Except.mapError, Fallible.pure_eq_ok, harch, hout]
  obtain ⟨bytes, consumed, f, lines, rest, hbytes, -, -, rfl, hagain⟩ :=
    run_listing_again hread (.inr rfl) hrun
  obtain rfl := Except.ok.inj (Except.ok.inj hbytes)
  exact ⟨consumed.length, _, _, rest, hrun, hagain⟩

end Faults

end Decompiler
