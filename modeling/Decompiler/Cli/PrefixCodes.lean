import Decompiler.Library.PrefixCode
import Decompiler.X86.Encoding
import Decompiler.Arm.Encoding

/-! # Both decoders are prefix codes

Each read of a byte string is settled by the bytes it finds, so that a decoder asks for
more input or has its final result.
-/

namespace Decompiler

open PrefixCode

namespace X86

theorem readU8_settled (b x : List UInt8) (i : ℕ) :
    Settled .unexpectedEnd (readU8 b i) (readU8 (b ++ x) i) := by
  intro h
  unfold readU8 at h ⊢
  cases hb : b[i]? with
  | none => simp [hb] at h
  | some v =>
    obtain ⟨hi, -⟩ := List.getElem?_eq_some_iff.mp hb
    rw [List.getElem?_append_left hi, hb]

theorem readI8_settled (b x : List UInt8) (i : ℕ) :
    Settled .unexpectedEnd (readI8 b i) (readI8 (b ++ x) i) :=
  (readU8_settled b x i).bind fun _ => .refl _

theorem readI32_settled (b x : List UInt8) (i : ℕ) :
    Settled .unexpectedEnd (readI32 b i) (readI32 (b ++ x) i) := by
  intro h
  unfold readI32 at h ⊢
  split at h
  case isTrue => exact absurd rfl h
  case isFalse hlen =>
    have hlen' : ¬ (b ++ x).length < i + 4 := by
      rw [List.length_append]
      omega
    rw [dif_neg hlen', dif_neg hlen]
    simp only [List.getElem_append_left (show i + 3 < b.length by omega),
      List.getElem_append_left (show i + 2 < b.length by omega),
      List.getElem_append_left (show i + 1 < b.length by omega),
      List.getElem_append_left (show i < b.length by omega)]

theorem readModrm_settled (b x : List UInt8) :
    Settled .unexpectedEnd (readModrm b) (readModrm (b ++ x)) :=
  (readU8_settled b x 1).bind fun _ => .refl _

theorem decodeOne_settled (b x : List UInt8) :
    Settled .unexpectedEnd (decodeOne b) (decodeOne (b ++ x)) := by
  have hmodrm := readModrm_settled b x
  have himm := readI32_settled b x
  have hrel := readI8_settled b x
  refine (readU8_settled b x 0).bind fun opcode => ?_
  by_cases hrange : 0xB8 ≤ opcode ∧ opcode ≤ 0xBF
  · rw [if_pos hrange, if_pos hrange]
    exact (himm 1).bind fun _ => .refl _
  · rw [if_neg hrange, if_neg hrange]
    split
    case h_1 | h_2 | h_3 | h_5 => exact hmodrm.bind fun _ => .refl _
    case h_4 | h_6 | h_10 | h_13 => exact (himm 1).bind fun _ => .refl _
    case h_7 => exact hmodrm.bind fun _ => (himm 2).bind fun _ => .refl _
    case h_8 => exact hmodrm.bind fun _ => (hrel 2).bind fun _ => .refl _
    case h_9 | h_11 | h_12 => exact (hrel 1).bind fun _ => .refl _
    case h_14 | h_15 => exact .refl _

theorem readU8_ne_eof {b : List UInt8} {i : ℕ} (h : i < b.length) :
    readU8 b i ≠ .error .unexpectedEnd := by
  rw [readU8, List.getElem?_eq_getElem h]
  intro heof
  cases heof

theorem readI8_ne_eof {b : List UInt8} {i : ℕ} (h : i < b.length) :
    readI8 b i ≠ .error .unexpectedEnd :=
  bind_ne_eof (readU8_ne_eof h) fun _ => nofun

theorem readI32_ne_eof {b : List UInt8} {i : ℕ} (h : i + 4 ≤ b.length) :
    readI32 b i ≠ .error .unexpectedEnd := by
  rw [readI32, dif_neg (by omega)]
  intro heof
  cases heof

theorem readModrm_ne_eof {b : List UInt8} (h : 1 < b.length) :
    readModrm b ≠ .error .unexpectedEnd := by
  apply bind_ne_eof (readU8_ne_eof h)
  intro m
  split <;> exact nofun

theorem decodeOne_ne_eof {b : List UInt8} (h : 6 ≤ b.length) :
    decodeOne b ≠ .error .unexpectedEnd := by
  have hmodrm := readModrm_ne_eof (b := b) (by omega)
  apply bind_ne_eof (readU8_ne_eof (by omega))
  intro opcode
  split
  case isTrue => exact bind_ne_eof (readI32_ne_eof (by omega)) fun _ => nofun
  case isFalse =>
    split
    case h_1 | h_2 | h_3 | h_5 => exact bind_ne_eof hmodrm fun _ => nofun
    case h_4 | h_6 | h_10 | h_13 =>
      exact bind_ne_eof (readI32_ne_eof (by omega)) fun _ => nofun
    case h_7 =>
      refine bind_ne_eof hmodrm fun _ => bind_ne_eof (readI32_ne_eof (by omega)) fun _ => ?_
      split <;> exact nofun
    case h_8 =>
      refine bind_ne_eof hmodrm fun _ => bind_ne_eof (readI8_ne_eof (by omega)) fun _ => ?_
      split <;> exact nofun
    case h_9 | h_11 | h_12 => exact bind_ne_eof (readI8_ne_eof (by omega)) fun _ => nofun
    case h_14 | h_15 => exact nofun

theorem decodeOne_stable : IsPrefixCode .unexpectedEnd 6 decodeOne := by
  have hlength : ∀ b i n, decodeOne b = .ok (i, n) → 1 ≤ n ∧ n ≤ b.length := by
    intro b i n h
    obtain ⟨hle, henc⟩ := decodeOne_encodes h
    have hpos := henc.length_pos
    rw [List.length_take] at hpos
    omega
  apply IsPrefixCode.of_settled decodeOne_settled hlength
  · intro b i n h
    obtain ⟨hle, henc⟩ := decodeOne_encodes h
    have hdecode := decodeOne_of_encodes henc []
    rwa [List.append_nil, List.length_take_of_le hle] at hdecode
  · exact fun b => decodeOne_ne_eof

end X86

namespace Arm

theorem decodeReg_ne_eof (bits : UInt8) : decodeReg bits ≠ .error .unexpectedEnd := by
  unfold decodeReg
  split <;> exact nofun

theorem decodeWord_ne_eof (word : UInt32) : decodeWord word ≠ .error .unexpectedEnd := by
  have hreg := decodeReg_ne_eof
  unfold decodeWord
  dsimp only
  split
  case h_1 => exact bind_ne_eof (hreg _) fun _ => nofun
  case h_2 =>
    exact bind_ne_eof (hreg _) fun _ => bind_ne_eof (hreg _) fun _ =>
      bind_ne_eof (hreg _) fun _ => nofun
  case h_3 | h_4 => exact bind_ne_eof (hreg _) fun _ => bind_ne_eof (hreg _) fun _ => nofun
  case h_5 | h_6 | h_7 | h_8 | h_9 | h_10 => exact nofun

theorem decodeOne_of_le {b : List UInt8} (h : 4 ≤ b.length) :
    decodeOne b = decodeWord (fromLeBytes b[0] b[1] b[2] b[3]) := dif_neg (by omega)

theorem decodeOne_of_lt {b : List UInt8} (h : b.length < 4) :
    decodeOne b = .error .unexpectedEnd := dif_pos h

theorem decodeOne_append {b : List UInt8} (h : 4 ≤ b.length) (x : List UInt8) :
    decodeOne (b ++ x) = decodeOne b := by
  rw [decodeOne_of_le h, decodeOne_of_le (by rw [List.length_append]; omega)]
  simp only [List.getElem_append_left (show 0 < b.length by omega),
    List.getElem_append_left (show 1 < b.length by omega),
    List.getElem_append_left (show 2 < b.length by omega),
    List.getElem_append_left (show 3 < b.length by omega)]

theorem le_of_decodeOne {b : List UInt8} (h : decodeOne b ≠ .error .unexpectedEnd) :
    4 ≤ b.length := by
  by_contra hlt
  exact h (decodeOne_of_lt (by omega))

theorem decodeOne_stable : IsPrefixCode .unexpectedEnd 4 decodeOne := by
  apply IsPrefixCode.of_settled
  · exact fun b x h => decodeOne_append (le_of_decodeOne h) x
  · intro b i n h
    have hn := decodeOne_length h
    omega
  · intro b i n h
    obtain ⟨rfl, hlen⟩ := decodeOne_length h
    have htake := decodeOne_append (b := b.take 4) (by rw [List.length_take]; omega) (b.drop 4)
    rw [List.take_append_drop] at htake
    rw [← htake, h]
  · intro b hlen
    rw [decodeOne_of_le hlen]
    exact decodeWord_ne_eof _

end Arm

/-- Both decoders accept a prefix code and report stable errors; six bytes are enough for an x86
instruction and four for one of the mock ARM. -/
theorem decoders_isPrefixCode :
    IsPrefixCode .unexpectedEnd 6 X86.decodeOne ∧ IsPrefixCode .unexpectedEnd 4 Arm.decodeOne :=
  ⟨X86.decodeOne_stable, Arm.decodeOne_stable⟩

end Decompiler
