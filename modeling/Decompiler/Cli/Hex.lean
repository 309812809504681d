import Decompiler.Library.Utf8
import Decompiler.Library.Fallible
import Decompiler.Core.Fault

/-! # The bytes of a hex argument

The command line hands every pair of bytes of its argument to a library parser of numbers,
which has a grammar of its own: a number may start with a sign.
-/

namespace Decompiler.Hex

open Utf8
open String (utf8Len)

/-- `char::is_whitespace`, the Unicode property of that name. -/
def isWhitespace (c : Char) : Bool :=
  (9 ≤ c.toNat && c.toNat ≤ 13) || c.toNat == 0x20 || c.toNat == 0x85 || c.toNat == 0xA0 ||
    c.toNat == 0x1680 || (0x2000 ≤ c.toNat && c.toNat ≤ 0x200A) || c.toNat == 0x2028 ||
    c.toNat == 0x2029 || c.toNat == 0x202F || c.toNat == 0x205F || c.toNat == 0x3000

/-- `char::to_digit(16)` -/
def toDigit (c : Char) : Option ℕ :=
  if '0' ≤ c ∧ c ≤ '9' then some (c.toNat - '0'.toNat)
  else if 'a' ≤ c ∧ c ≤ 'f' then some (c.toNat - 'a'.toNat + 10)
  else if 'A' ≤ c ∧ c ≤ 'F' then some (c.toNat - 'A'.toNat + 10)
  else none

inductive ParseIntError where
  | empty
  | invalidDigit
  | posOverflow
  deriving DecidableEq, Repr

def ParseIntError.message : ParseIntError → String
  | .empty => "cannot parse integer from empty string"
  | .invalidDigit => "invalid digit found in string"
  | .posOverflow => "number too large to fit in target type"

def readDigits : ℕ → List Char → Except ParseIntError UInt8
  | value, [] => .ok (UInt8.ofNat value)
  | value, c :: cs =>
    match toDigit c with
    | none => .error .invalidDigit
    | some digit =>
      if value * 16 + digit < UInt8.size then readDigits (value * 16 + digit) cs
      else .error .posOverflow

/-- `u8::from_str_radix(src, 16)`: one plus sign may stand before the digits. -/
def fromStrRadix16 (src : List Char) : Except ParseIntError UInt8 :=
  match src with
  | [] => .error .empty
  | ['+'] | ['-'] => .error .invalidDigit
  | '+' :: digits => readDigits 0 digits
  | digits => readDigits 0 digits

/-- `&s[i..j]` panics off a character boundary. -/
def sliceStr (s : List Char) (i j : ℕ) : Except Fault (List Char) :=
  match slice s i j with
  | some part => .ok part
  | none => .error .outOfBounds

/-- `s.strip_prefix("0x").unwrap_or(s)` -/
def stripMarker : List Char → List Char
  | '0' :: 'x' :: digits => digits
  | s => s

def cleaned (input : String) : List Char :=
  stripMarker (input.toList.filter fun c => !isWhitespace c)

/-- The mapped offsets, collected up to the first error. -/
def collectBytes (s : List Char) : List ℕ → Except Fault (Except String (List UInt8))
  | [] => .ok (.ok [])
  | i :: is => do
    let part ← sliceStr s i (i + 2)
    match fromStrRadix16 part with
    | .ok byte => return (← collectBytes s is).map (byte :: ·)
    | .error e =>
      let shown ← sliceStr s i (i + 2)
      return .error ("invalid hex byte '" ++ String.ofList shown ++ "': " ++ e.message)

def parseHex (input : String) : Except Fault (Except String (List UInt8)) :=
  let s := cleaned input
  if utf8Len s % 2 ≠ 0 then return .error "hex string must have an even number of digits"
  else collectBytes s (List.range' 0 ((utf8Len s + 1) / 2) 2)

example : parseHex "0x 3D 08" = .ok (.ok [0x3D, 0x08]) := by decide

/-! ## What is promised -/

def IsHexDigit (c : Char) : Prop :=
  ('0' ≤ c ∧ c ≤ '9') ∨ ('a' ≤ c ∧ c ≤ 'f') ∨ ('A' ≤ c ∧ c ≤ 'F')

def pairValue (c d : Char) : UInt8 := UInt8.ofNat ((toDigit c).getD 0 * 16 + (toDigit d).getD 0)

def pairValues : List Char → List UInt8
  | c :: d :: s => pairValue c d :: pairValues s
  | _ => []

/-- An argument is answered without a panic, and by bytes exactly if its digits write them. -/
def AnswersHex (input : String) : Prop :=
  ∃ answer, parseHex input = .ok answer ∧ ∀ bytes, answer = .ok bytes ↔
    (∀ c ∈ cleaned input, IsHexDigit c) ∧ (cleaned input).length % 2 = 0 ∧
      bytes = pairValues (cleaned input)

/-! ## When it is kept -/

/-- A pair that is read as a number: the first of its characters may be a sign. -/
def Accepted (c d : Char) : Prop := (c = '+' ∨ IsHexDigit c) ∧ IsHexDigit d

instance (c : Char) : Decidable (IsHexDigit c) :=
  inferInstanceAs (Decidable (('0' ≤ c ∧ c ≤ '9') ∨ ('a' ≤ c ∧ c ≤ 'f') ∨ ('A' ≤ c ∧ c ≤ 'F')))

instance (c d : Char) : Decidable (Accepted c d) :=
  inferInstanceAs (Decidable ((c = '+' ∨ IsHexDigit c) ∧ IsHexDigit d))

def remainder : List Char → List Char
  | c :: d :: s => if Accepted c d then remainder s else c :: d :: s
  | s => s

/-- There is an odd number of bytes, or no pair starts with a sign and all are accepted, or the
first that is not takes up two bytes. -/
def Unambiguous (s : List Char) : Prop :=
  utf8Len s % 2 = 1 ∨ (remainder s = [] ∧ '+' ∉ s) ∨ (remainder s ≠ [] ∧ IsBoundary (remainder s) 2)

theorem le_iff_toNat_le {c d : Char} : c ≤ d ↔ c.toNat ≤ d.toNat := UInt32.le_iff_toNat_le

theorem isHexDigit_iff {c : Char} : IsHexDigit c ↔ ∃ digit, toDigit c = some digit := by
  unfold IsHexDigit toDigit
  split_ifs with h₁ h₂ h₃ <;> simp_all

theorem toDigit_lt {c : Char} {digit : ℕ} (h : toDigit c = some digit) : digit < 16 := by
  unfold toDigit at h
  simp only [le_iff_toNat_le, Char.reduceToNat] at h
  split_ifs at h <;> (rw [Option.some.injEq] at h; omega)

theorem IsHexDigit.utf8Size {c : Char} (h : IsHexDigit c) : c.utf8Size = 1 := by
  rw [Char.utf8Size_eq_one_iff, UInt32.le_iff_toNat_le]
  simp only [IsHexDigit, le_iff_toNat_le, Char.reduceToNat] at h
  show c.toNat ≤ 127
  omega

theorem utf8Len_of_digits {s : List Char} (h : ∀ c ∈ s, IsHexDigit c) : utf8Len s = s.length := by
  induction s with
  | nil => rfl
  | cons c s ih =>
    obtain ⟨hc, hs⟩ := List.forall_mem_cons.mp h
    rw [String.utf8Len_cons, hc.utf8Size, ih hs, List.length_cons]

theorem Accepted.utf8Size {c d : Char} (h : Accepted c d) : c.utf8Size = 1 ∧ d.utf8Size = 1 := by
  obtain ⟨rfl | hc, hd⟩ := h
  · exact ⟨rfl, hd.utf8Size⟩
  · exact ⟨hc.utf8Size, hd.utf8Size⟩

/-! ## One pair -/

theorem readDigits_of_not_digit {c : Char} (value : ℕ) (cs : List Char) (h : ¬ IsHexDigit c) :
    readDigits value (c :: cs) = .error .invalidDigit := by
  have hnone : toDigit c = none := by
    by_contra hsome
    exact h (isHexDigit_iff.mpr (Option.ne_none_iff_exists'.mp hsome))
  rw [readDigits, hnone]

theorem readDigits_of_digit {c : Char} {digit : ℕ} (h : toDigit c = some digit) {value : ℕ}
    (hlt : value * 16 + digit < 256) (cs : List Char) :
    readDigits value (c :: cs) = readDigits (value * 16 + digit) cs := by
  rw [readDigits, h]
  exact if_pos hlt

theorem fromStrRadix16_plus (d : Char) : fromStrRadix16 ['+', d] = readDigits 0 [d] := rfl

theorem fromStrRadix16_pair {c : Char} (h : c ≠ '+') (d : Char) :
    fromStrRadix16 [c, d] = readDigits 0 [c, d] := by
  unfold fromStrRadix16
  split <;> simp_all

theorem fromStrRadix16_accepted {c d : Char} (h : Accepted c d) :
    fromStrRadix16 [c, d] = .ok (pairValue c d) := by
  obtain ⟨hc, hd⟩ := h
  obtain ⟨y, hy⟩ := isHexDigit_iff.mp hd
  have hylt := toDigit_lt hy
  by_cases hplus : c = '+'
  · subst hplus
    rw [fromStrRadix16_plus, readDigits_of_digit hy (by omega), pairValue, hy]
    rfl
  · obtain ⟨x, hx⟩ := isHexDigit_iff.mp (hc.resolve_left hplus)
    have hxlt := toDigit_lt hx
    rw [fromStrRadix16_pair hplus, readDigits_of_digit hx (by omega),
      readDigits_of_digit hy (by omega), pairValue, hx, hy, Nat.zero_mul, Nat.zero_add]
    rfl

theorem fromStrRadix16_not_accepted {c d : Char} (h : ¬ Accepted c d) :
    fromStrRadix16 [c, d] = .error .invalidDigit := by
  by_cases hplus : c = '+'
  · have hd : ¬ IsHexDigit d := fun hd => h ⟨.inl hplus, hd⟩
    rw [hplus, fromStrRadix16_plus, readDigits_of_not_digit 0 [] hd]
  · rw [fromStrRadix16_pair hplus]
    by_cases hc : IsHexDigit c
    · obtain ⟨x, hx⟩ := isHexDigit_iff.mp hc
      have hxlt := toDigit_lt hx
      have hd : ¬ IsHexDigit d := fun hd => h ⟨.inr hc, hd⟩
      rw [readDigits_of_digit hx (by omega), readDigits_of_not_digit _ [] hd]
    · rw [readDigits_of_not_digit 0 [d] hc]

theorem fromStrRadix16_wide {c : Char} (h : c.utf8Size = 2) :
    fromStrRadix16 [c] = .error .invalidDigit := by
  have hdigit : ¬ IsHexDigit c := by
    intro hc
    rw [hc.utf8Size] at h
    cases h
  have hplus : c ≠ '+' := by
    rintro rfl
    cases h
  have hminus : c ≠ '-' := by
    rintro rfl
    cases h
  have hread : fromStrRadix16 [c] = readDigits 0 [c] := by
    unfold fromStrRadix16
    split <;> simp_all
  rw [hread, readDigits_of_not_digit 0 [] hdigit]

/-! ## All pairs -/

theorem sliceStr_append (front s : List Char) :
    sliceStr (front ++ s) (utf8Len front) (utf8Len front + 2) =
      match splitAt 2 s with
      | some parts => .ok parts.1
      | none => .error .outOfBounds := by
  rw [sliceStr, slice_append]
  cases splitAt 2 s <;> rfl

theorem splitAt_two {s part rest : List Char} (h : splitAt 2 s = some (part, rest)) :
    (∃ c d, s = c :: d :: rest ∧ part = [c, d]) ∨ ∃ c, c.utf8Size = 2 ∧ part = [c] := by
  obtain ⟨rfl, hlen⟩ := splitAt_eq_some h
  match part, hlen with
  | [c], hlen => exact .inr ⟨c, by simpa using hlen, rfl⟩
  | [c, d], hlen => exact .inl ⟨c, d, rfl, rfl⟩
  | c :: d :: e :: part, hlen =>
    have hc := c.utf8Size_pos
    have hd := d.utf8Size_pos
    have he := e.utf8Size_pos
    simp only [String.utf8Len_cons] at hlen
    omega

theorem splitAt_accepted {c d : Char} (h : Accepted c d) (s : List Char) :
    splitAt 2 (c :: d :: s) = some ([c, d], s) := by
  have hlen : utf8Len [c, d] = 2 := by
    simp only [String.utf8Len_cons, String.utf8Len_nil, h.utf8Size]
  rw [← hlen]
  exact splitAt_append [c, d] s

theorem collectBytes_accepted {c d : Char} (h : Accepted c d) (front s : List Char) (n : ℕ) :
    collectBytes (front ++ c :: d :: s) (List.range' (utf8Len front) (n + 1) 2) =
      (collectBytes ((front ++ [c, d]) ++ s) (List.range' (utf8Len (front ++ [c, d])) n 2)).map
        (Except.map (pairValue c d :: ·)) := by
  have hnext : utf8Len (front ++ [c, d]) = utf8Len front + 2 := by
    simp only [String.utf8Len_append, String.utf8Len_cons, String.utf8Len_nil, h.utf8Size]
  rw [hnext, List.append_assoc, List.cons_append, List.cons_append, List.nil_append,
    List.range'_succ, collectBytes, sliceStr_append, splitAt_accepted h]
  dsimp only [bind, Except.bind]
  rw [fromStrRadix16_accepted h]
  rfl

theorem collectBytes_rejected {s : List Char}
    (h : ∀ c d rest, s = c :: d :: rest → ¬ Accepted c d) (front : List Char) (n : ℕ) :
    (IsBoundary s 2 → ∃ e, collectBytes (front ++ s) (List.range' (utf8Len front) (n + 1) 2) =
      .ok (.error e)) ∧
    (¬ IsBoundary s 2 → collectBytes (front ++ s) (List.range' (utf8Len front) (n + 1) 2) =
      .error .outOfBounds) := by
  rw [isBoundary_iff, List.range'_succ, collectBytes, sliceStr_append]
  cases hsplit : splitAt 2 s with
  | none =>
    constructor
    · rintro ⟨_, hsome⟩
      cases hsome
    · intro
      rfl
  | some parts =>
    have hinvalid : fromStrRadix16 parts.1 = .error .invalidDigit := by
      obtain ⟨c, d, hs, hpart⟩ | ⟨c, hc, hpart⟩ := splitAt_two hsplit
      · rw [hpart, fromStrRadix16_not_accepted (h c d _ hs)]
      · rw [hpart, fromStrRadix16_wide hc]
    dsimp only [bind, Except.bind]
    rw [hinvalid]
    constructor
    · intro
      exact ⟨_, rfl⟩
    · intro hnone
      exact absurd ⟨_, rfl⟩ hnone

theorem exists_eq_succ {c : Char} {s : List Char} {n : ℕ} (h : utf8Len (c :: s) = 2 * n) :
    ∃ m, n = m + 1 := by
  have hpos := c.utf8Size_pos
  rw [String.utf8Len_cons] at h
  exact ⟨n - 1, by omega⟩

/-- The collection over a string with an even number of bytes, by what follows the accepted
pairs in it. -/
theorem collectBytes_eq (s : List Char) : ∀ (front : List Char) (n : ℕ), utf8Len s = 2 * n →
    (remainder s = [] →
      collectBytes (front ++ s) (List.range' (utf8Len front) n 2) = .ok (.ok (pairValues s))) ∧
    (remainder s ≠ [] → IsBoundary (remainder s) 2 →
      ∃ e, collectBytes (front ++ s) (List.range' (utf8Len front) n 2) = .ok (.error e)) ∧
    (remainder s ≠ [] → ¬ IsBoundary (remainder s) 2 →
      collectBytes (front ++ s) (List.range' (utf8Len front) n 2) = .error .outOfBounds) := by
  fun_induction remainder s with
  | case1 c d s hacc ih =>
    intro front n hlen
    have hlen' : utf8Len s = 2 * (n - 1) ∧ n = n - 1 + 1 := by
      simp only [String.utf8Len_cons, hacc.utf8Size] at hlen
      omega
    obtain ⟨hall, herr, hpanic⟩ := ih (front ++ [c, d]) (n - 1) hlen'.1
    rw [hlen'.2, collectBytes_accepted hacc]
    refine ⟨fun hnil => ?_, fun hne hb => ?_, fun hne hb => ?_⟩
    · rw [hall hnil]
      rfl
    · obtain ⟨e, he⟩ := herr hne hb
      exact ⟨e, by rw [he]; rfl⟩
    · rw [hpanic hne hb]
      rfl
  | case2 c d s hacc =>
    intro front n hlen
    have hrej : ∀ c' d' rest, c :: d :: s = c' :: d' :: rest → ¬ Accepted c' d' := by
      rintro c' d' rest heq
      cases heq
      exact hacc
    obtain ⟨m, rfl⟩ := exists_eq_succ hlen
    obtain ⟨herr, hpanic⟩ := collectBytes_rejected hrej front m
    exact ⟨fun hnil => (nomatch hnil), fun _ => herr, fun _ => hpanic⟩
  | case3 s hshort =>
    intro front n hlen
    cases s with
    | nil =>
      obtain rfl : n = 0 := by
        rw [String.utf8Len_nil] at hlen
        omega
      exact ⟨fun _ => rfl, fun hne => absurd rfl hne, fun hne => absurd rfl hne⟩
    | cons c s =>
      have hrej : ∀ c' d' rest, c :: s = c' :: d' :: rest → ¬ Accepted c' d' :=
        fun c' d' rest heq => (hshort c' d' rest heq).elim
      obtain ⟨m, rfl⟩ := exists_eq_succ hlen
      obtain ⟨herr, hpanic⟩ := collectBytes_rejected hrej front m
      exact ⟨fun hnil => (nomatch hnil), fun _ => herr, fun _ => hpanic⟩

/-! ## The characterisation -/

theorem remainder_of_digits {s : List Char} (h : ∀ c ∈ s, IsHexDigit c) (hlen : s.length % 2 = 0) :
    remainder s = [] := by
  fun_induction remainder s with
  | case1 c d s hacc ih =>
    apply ih
    · exact fun c' hc' => h c' (List.mem_cons_of_mem _ (List.mem_cons_of_mem _ hc'))
    · rw [List.length_cons, List.length_cons] at hlen
      omega
  | case2 c d s hacc => exact absurd ⟨.inr (h c (by simp)), h d (by simp)⟩ hacc
  | case3 s hshort =>
    match s, hshort with
    | [], _ => rfl
    | [c], _ => cases hlen
    | c :: d :: s, hshort => exact (hshort c d s rfl).elim

theorem digits_of_remainder {s : List Char} (h : remainder s = []) :
    s.length % 2 = 0 ∧ ('+' ∉ s ↔ ∀ c ∈ s, IsHexDigit c) := by
  fun_induction remainder s with
  | case1 c d s hacc ih =>
    obtain ⟨hlen, hdigits⟩ := ih h
    obtain ⟨hc, hd⟩ := hacc
    have hplus : ¬ IsHexDigit '+' := by decide
    constructor
    · rw [List.length_cons, List.length_cons]
      omega
    · constructor
      · intro hmem
        simp only [List.mem_cons, not_or] at hmem
        obtain ⟨hc', hd', hs⟩ := hmem
        simp only [List.forall_mem_cons]
        exact ⟨hc.resolve_left (Ne.symm hc'), hd, hdigits.mp hs⟩
      · intro hall hmem
        exact hplus (hall '+' hmem)
  | case2 c d s hacc => cases h
  | case3 s hshort =>
    obtain rfl := h
    simp

theorem parseHex_odd {input : String} (h : utf8Len (cleaned input) % 2 = 1) :
    ∃ e, parseHex input = .ok (.error e) := by
  have hne : utf8Len (cleaned input) % 2 ≠ 0 := by omega
  exact ⟨_, if_pos hne⟩

theorem parseHex_even {input : String} {n : ℕ} (h : utf8Len (cleaned input) = 2 * n) :
    parseHex input = collectBytes (cleaned input) (List.range' 0 n 2) := by
  have heven : ¬ utf8Len (cleaned input) % 2 ≠ 0 := by omega
  have hcount : (utf8Len (cleaned input) + 1) / 2 = n := by omega
  rw [parseHex, if_neg heven, hcount]

theorem answersHex_of_error {input e : String} (h : parseHex input = .ok (.error e))
    (hnot : ¬ ((∀ c ∈ cleaned input, IsHexDigit c) ∧ (cleaned input).length % 2 = 0)) :
    AnswersHex input := by
  refine ⟨_, h, fun bytes => ?_⟩
  constructor
  · intro hok
    cases hok
  · rintro ⟨hdigits, hlen, -⟩
    exact absurd ⟨hdigits, hlen⟩ hnot

theorem answersHex_of_odd {input : String} (h : utf8Len (cleaned input) % 2 = 1) :
    AnswersHex input := by
  obtain ⟨e, he⟩ := parseHex_odd h
  apply answersHex_of_error he
  rintro ⟨hdigits, hlen⟩
  rw [utf8Len_of_digits hdigits] at h
  omega

/-- Where all pairs are read, a plus sign is the only way to go wrong. -/
theorem answersHex_iff_of_remainder {input : String} (hrest : remainder (cleaned input) = [])
    (h : parseHex input = .ok (.ok (pairValues (cleaned input)))) :
    AnswersHex input ↔ '+' ∉ cleaned input := by
  obtain ⟨hlen, hplus⟩ := digits_of_remainder hrest
  rw [hplus]
  constructor
  · rintro ⟨answer, hanswer, hiff⟩
    rw [h, Except.ok.injEq] at hanswer
    exact ((hiff _).mp hanswer.symm).1
  · intro hdigits
    refine ⟨_, h, fun bytes => ?_⟩
    constructor
    · intro heq
      exact ⟨hdigits, hlen, (Except.ok.inj heq).symm⟩
    · rintro ⟨-, -, rfl⟩
      rfl

theorem not_answersHex_of_fault {input : String} {fault : Fault} (h : parseHex input = .error fault) :
    ¬ AnswersHex input := by
  rintro ⟨answer, hanswer, -⟩
  rw [h] at hanswer
  cases hanswer

/-- `parse_hex` keeps its promise on an argument exactly if that is unambiguous. -/
theorem answersHex_iff (input : String) : AnswersHex input ↔ Unambiguous (cleaned input) := by
  by_cases hodd : utf8Len (cleaned input) % 2 = 1
  · exact iff_of_true (answersHex_of_odd hodd) (.inl hodd)
  obtain ⟨n, hn⟩ : ∃ n, utf8Len (cleaned input) = 2 * n :=
    ⟨utf8Len (cleaned input) / 2, by omega⟩
  obtain ⟨hall, herr, hpanic⟩ := collectBytes_eq (cleaned input) [] n hn
  rw [List.nil_append, String.utf8Len_nil, ← parseHex_even hn] at hall herr hpanic
  by_cases hrest : remainder (cleaned input) = []
  · rw [answersHex_iff_of_remainder hrest (hall hrest)]
    simp [Unambiguous, hodd, hrest]
  · have hunamb : Unambiguous (cleaned input) ↔ IsBoundary (remainder (cleaned input)) 2 := by
      simp [Unambiguous, hodd, hrest]
    rw [hunamb]
    by_cases hbound : IsBoundary (remainder (cleaned input)) 2
    · obtain ⟨e, he⟩ := herr hrest hbound
      refine iff_of_true (answersHex_of_error he ?_) hbound
      rintro ⟨hdigits, hlen⟩
      exact hrest (remainder_of_digits hdigits hlen)
    · exact iff_of_false (not_answersHex_of_fault (hpanic hrest hbound)) hbound

/-- A sign is taken for a digit, and a character can be cut in two. -/
theorem sign_accepted_character_cut : ¬ AnswersHex "+5" ∧ ¬ AnswersHex "aéa" := by
  constructor
  · rintro ⟨answer, hanswer, hiff⟩
    have hread : parseHex "+5" = .ok (.ok [5]) := by decide
    rw [hread, Except.ok.injEq] at hanswer
    obtain ⟨hdigits, -⟩ := (hiff [5]).mp hanswer.symm
    have hplus : ¬ IsHexDigit '+' := by decide
    exact hplus (hdigits '+' (by decide))
  · have hpanic : parseHex "aéa" = .error .outOfBounds := by decide
    exact not_answersHex_of_fault hpanic

end Decompiler.Hex
