import Mathlib
import Lox.Text.Utf8

/-!
# UTF-8 there and back

The bytes of a text are read as that text (`Utf8.lossy_encode`). The converse holds for ASCII only
(`Utf8.encode_lossy`): a piece that is not UTF-8 is read as a replacement character, which has bytes
of its own.

What comes before an ASCII byte is read without regard to it, and what follows it is read afresh
(`Utf8.lossyChars_append_ascii`), since no byte of a longer character is ASCII. For the same reason
reading adds no ASCII byte where there is none (`Utf8.mem_of_mem_encode_lossy`).

Both rest on an invariant of the reader. The unfinished characters that it meets are proper
(`Utf8.Pending.Proper`): they accept no ASCII byte, and whatever comes, the character is not ASCII.
-/

namespace Lox.Utf8

variable {p : Pending} {bytes : List UInt8}

/-! ## The bytes of a text -/

theorem toList_loop (bytes : ByteArray) (i : Nat) (seen : List UInt8) :
    ByteArray.toList.loop bytes i seen = seen.reverse ++ bytes.data.toList.drop i := by
  rw [ByteArray.toList.loop]
  split
  · next h =>
    have hi : i < bytes.data.toList.length := h
    have hget : bytes.get! i = bytes.data.toList[i] := getElem!_pos bytes.data i h
    rw [toList_loop bytes (i + 1), List.drop_eq_getElem_cons hi, hget, List.reverse_cons,
      List.append_assoc, List.singleton_append]
  · next h =>
    have hi : bytes.data.toList.length ≤ i := Nat.le_of_not_lt h
    rw [List.drop_eq_nil_of_le hi, List.append_nil]
termination_by bytes.size - i

/-- The bytes of a text are those of its characters. -/
theorem encode_ofList (chars : List Char) :
    encode (String.ofList chars) = chars.flatMap String.utf8EncodeChar := by
  rw [encode, String.toUTF8_eq_toByteArray, String.toByteArray_ofList, ByteArray.toList,
    toList_loop, List.utf8Encode, List.toList_data_toByteArray]
  rfl

theorem encode_eq (s : String) : encode s = s.toList.flatMap String.utf8EncodeChar := by
  rw [← encode_ofList, String.ofList_toList]

theorem encode_append (s t : String) : encode (s ++ t) = encode s ++ encode t := by
  rw [encode_eq, encode_eq, encode_eq, String.toList_append, List.flatMap_append]

/-! ## One character -/

variable {b : UInt8} {low high : UInt8} {k bits used : Nat} {rest : List UInt8}

theorem lossyChars_first (b : UInt8) (rest : List UInt8) :
    lossyChars none (b :: rest) = (start b).emit.1 ++ lossyChars (start b).emit.2 rest := rfl

theorem Pending.accepts_iff :
    p.accepts b = true ↔ p.low.toNat ≤ b.toNat ∧ b.toNat ≤ p.high.toNat := by
  simp [accepts, UInt8.le_iff_toNat_le]

theorem lossyChars_accepts (h : p.accepts b = true) :
    lossyChars (some p) (b :: rest) = (p.push b).emit.1 ++ lossyChars (p.push b).emit.2 rest := by
  rw [lossyChars, advance, if_pos h]

theorem lossyChars_last (hlow : low.toNat ≤ b.toNat) (hhigh : b.toNat ≤ high.toNat) :
    lossyChars (some ⟨0, low, high, bits, used⟩) (b :: rest) =
      Char.ofNat (bits * 64 + b.toNat % 64) :: lossyChars none rest :=
  lossyChars_accepts (Pending.accepts_iff.mpr ⟨hlow, hhigh⟩)

theorem lossyChars_inner (hlow : low.toNat ≤ b.toNat) (hhigh : b.toNat ≤ high.toNat) :
    lossyChars (some ⟨k + 1, low, high, bits, used⟩) (b :: rest) =
      lossyChars (some ⟨k, 0x80, 0xBF, bits * 64 + b.toNat % 64, used + 1⟩) rest :=
  lossyChars_accepts (Pending.accepts_iff.mpr ⟨hlow, hhigh⟩)

/-- The first byte of two. -/
theorem start_of_two (h : 0xC2 ≤ b.toNat) (h' : b.toNat < 0xE0) :
    start b = .opens ⟨0, 0x80, 0xBF, b.toNat - 0xC0, 1⟩ := by
  rw [start, if_neg (by omega), if_neg (by omega), if_pos h']

/-- The first byte of three. The second may be any that gives neither a character of two bytes nor a
surrogate. -/
theorem start_of_three (h : 0xE0 ≤ b.toNat) (h' : b.toNat < 0xF0) :
    ∃ low high, start b = .opens ⟨1, low, high, b.toNat - 0xE0, 1⟩ ∧
      ∀ n < 64, 0x20 ≤ (b.toNat - 0xE0) * 64 + n →
        ¬(0x360 ≤ (b.toNat - 0xE0) * 64 + n ∧ (b.toNat - 0xE0) * 64 + n < 0x380) →
          low.toNat ≤ n + 0x80 ∧ n + 0x80 ≤ high.toNat := by
  rw [start, if_neg (by omega), if_neg (by omega), if_neg (by omega)]
  split
  · exact ⟨_, _, rfl,
      fun n _ _ _ => ⟨by show 0xA0 ≤ n + 0x80; omega, by show n + 0x80 ≤ 0xBF; omega⟩⟩
  split
  · exact ⟨_, _, rfl,
      fun n _ _ _ => ⟨by show 0x80 ≤ n + 0x80; omega, by show n + 0x80 ≤ 0x9F; omega⟩⟩
  · exact ⟨_, _, rfl,
      fun n _ _ _ => ⟨by show 0x80 ≤ n + 0x80; omega, by show n + 0x80 ≤ 0xBF; omega⟩⟩

/-- The first byte of four. The second may be any that gives neither a character of three bytes nor
one above the last. -/
theorem start_of_four (h : 0xF0 ≤ b.toNat) (h' : b.toNat < 0xF5) :
    ∃ low high, start b = .opens ⟨2, low, high, b.toNat - 0xF0, 1⟩ ∧
      ∀ n < 64, 0x10 ≤ (b.toNat - 0xF0) * 64 + n → (b.toNat - 0xF0) * 64 + n < 0x110 →
        low.toNat ≤ n + 0x80 ∧ n + 0x80 ≤ high.toNat := by
  rw [start, if_neg (by omega), if_neg (by omega), if_neg (by omega), if_neg (by omega),
    if_neg (by omega), if_neg (by omega)]
  split
  · exact ⟨_, _, rfl,
      fun n _ _ _ => ⟨by show 0x90 ≤ n + 0x80; omega, by show n + 0x80 ≤ 0xBF; omega⟩⟩
  split
  · exact ⟨_, _, rfl,
      fun n _ _ _ => ⟨by show 0x80 ≤ n + 0x80; omega, by show n + 0x80 ≤ 0xBF; omega⟩⟩
  · rw [if_pos (by omega)]
    exact ⟨_, _, rfl,
      fun n _ _ _ => ⟨by show 0x80 ≤ n + 0x80; omega, by show n + 0x80 ≤ 0x8F; omega⟩⟩

/-- The byte that carries six bits of a longer character. -/
theorem toNat_continuation (n : Nat) : (UInt8.ofNat (n % 0x40 + 0x80)).toNat = n % 0x40 + 0x80 :=
  UInt8.toNat_ofNat_of_lt' (by show _ < 256; omega)

/-- The bytes of a character are read as that character. -/
theorem lossyChars_utf8EncodeChar (c : Char) (rest : List UInt8) :
    lossyChars none (String.utf8EncodeChar c ++ rest) = c :: lossyChars none rest := by
  have hchar {n : Nat} (h : n = c.val.toNat) : Char.ofNat n = c := h ▸ Char.ofNat_toNat c
  have hvalid : c.val.toNat < 0xD800 ∨ 0xDFFF < c.val.toNat ∧ c.val.toNat < 0x110000 := c.valid
  rw [String.utf8EncodeChar]
  generalize c.val.toNat = v at hchar hvalid
  split
  · next h =>
    have hb : (UInt8.ofNat v).toNat = v := UInt8.toNat_ofNat_of_lt' (by show _ < 256; omega)
    rw [List.singleton_append, lossyChars_first, start, hb, if_pos (by omega), hchar rfl]
    rfl
  split
  · next h =>
    have hb : (UInt8.ofNat (v / 64 % 0x20 + 0xC0)).toNat = v / 64 + 0xC0 := by
      rw [UInt8.toNat_ofNat_of_lt' (by show _ < 256; omega)]
      omega
    have hstart := start_of_two (b := UInt8.ofNat (v / 64 % 0x20 + 0xC0)) (by omega) (by omega)
    rw [List.cons_append, List.singleton_append, lossyChars_first, hstart]
    have hlast := toNat_continuation v
    refine (lossyChars_last (by show 0x80 ≤ _; omega) (by show _ ≤ 0xBF; omega)).trans ?_
    rw [hchar (by omega)]
  split
  · next h =>
    have hb : (UInt8.ofNat (v / 4096 % 0x10 + 0xE0)).toNat = v / 4096 + 0xE0 := by
      rw [UInt8.toNat_ofNat_of_lt' (by show _ < 256; omega)]
      omega
    have hinner := toNat_continuation (v / 64)
    have hlast := toNat_continuation v
    obtain ⟨low, high, hstart, hbounds⟩ :=
      start_of_three (b := UInt8.ofNat (v / 4096 % 0x10 + 0xE0)) (by omega) (by omega)
    obtain ⟨hlow, hhigh⟩ := hbounds (v / 64 % 0x40) (by omega) (by omega) (by omega)
    rw [List.cons_append, List.cons_append, List.singleton_append, lossyChars_first, hstart]
    refine (lossyChars_inner (by omega) (by omega)).trans ?_
    refine (lossyChars_last (by show 0x80 ≤ _; omega) (by show _ ≤ 0xBF; omega)).trans ?_
    rw [hchar (by omega)]
  · next h =>
    have hb : (UInt8.ofNat (v / 262144 % 0x08 + 0xF0)).toNat = v / 262144 + 0xF0 := by
      rw [UInt8.toNat_ofNat_of_lt' (by show _ < 256; omega)]
      omega
    have hsecond := toNat_continuation (v / 4096)
    have hinner := toNat_continuation (v / 64)
    have hlast := toNat_continuation v
    obtain ⟨low, high, hstart, hbounds⟩ :=
      start_of_four (b := UInt8.ofNat (v / 262144 % 0x08 + 0xF0)) (by omega) (by omega)
    obtain ⟨hlow, hhigh⟩ := hbounds (v / 4096 % 0x40) (by omega) (by omega) (by omega)
    rw [List.cons_append, List.cons_append, List.cons_append, List.singleton_append,
      lossyChars_first, hstart]
    refine (lossyChars_inner (by omega) (by omega)).trans ?_
    refine (lossyChars_inner (by show 0x80 ≤ _; omega) (by show _ ≤ 0xBF; omega)).trans ?_
    refine (lossyChars_last (by show 0x80 ≤ _; omega) (by show _ ≤ 0xBF; omega)).trans ?_
    rw [hchar (by omega)]

theorem lossyChars_flatMap (chars : List Char) :
    lossyChars none (chars.flatMap String.utf8EncodeChar) = chars := by
  induction chars with
  | nil => rfl
  | cons c rest ih => rw [List.flatMap_cons, lossyChars_utf8EncodeChar, ih]

/-- **The bytes of a text are read as that text.** -/
theorem lossy_encode (s : String) : lossy (encode s) = s := by
  rw [lossy, encode_eq, lossyChars_flatMap, String.ofList_toList]

/-! ## Unfinished characters -/

/-- An unfinished character that accepts no ASCII byte and becomes no ASCII character. -/
structure Pending.Proper (p : Pending) : Prop where
  low : 0x80 ≤ p.low.toNat
  high : p.high.toNat < 0xC0
  bits : 0x80 ≤ (p.bits * 64 + (p.low.toNat - 0x80)) * 64 ^ p.after

/-- What a byte does at the start of a character, or in one that is proper. -/
inductive Start.Proper : Start → Prop where
  | char {n : Nat} (h : 0x80 ≤ n) : Proper (.char (Char.ofNat n))
  | opens {p : Pending} (h : p.Proper) : Proper (.opens p)
  | bad : Proper .bad

theorem start_ascii (h : b.toNat < 0x80) : start b = .char (Char.ofNat b.toNat) := by
  rw [start, if_pos h]

theorem proper_start (h : 0x80 ≤ b.toNat) : (start b).Proper := by
  rw [start, if_neg (Nat.not_lt.mpr h)]
  split
  · exact .bad
  iterate 6
    split
    · exact .opens ⟨by simp, by simp, by simp; omega⟩
  split
  · exact .opens ⟨by simp, by simp, by simp; omega⟩
  · exact .bad

theorem Pending.Proper.push (hp : p.Proper) (h : p.accepts b = true) : (p.push b).Proper := by
  obtain ⟨hlow, hhigh⟩ := accepts_iff.mp h
  obtain ⟨hlow', hhigh', hbits⟩ := hp
  -- The next byte adds no less than the least one does.
  have hle : p.bits * 64 + (p.low.toNat - 0x80) ≤ p.bits * 64 + b.toNat % 64 := by omega
  have hbits' := Nat.le_trans hbits (Nat.mul_le_mul_right (64 ^ p.after) hle)
  unfold Pending.push
  cases hafter : p.after with
  | zero =>
    rw [hafter, Nat.pow_zero, Nat.mul_one] at hbits'
    exact .char hbits'
  | succ k =>
    rw [hafter, Nat.pow_succ', ← Nat.mul_assoc] at hbits'
    exact .opens ⟨by simp, by simp, by simpa using hbits'⟩

variable {st : Option Pending}

theorem lossyChars_cons (st : Option Pending) (b : UInt8) (rest : List UInt8) :
    lossyChars st (b :: rest) = (advance st b).1 ++ lossyChars (advance st b).2 rest := by
  cases st <;> rfl

theorem Start.Proper.emit {s : Start} (h : s.Proper) : ∀ p ∈ s.emit.2, p.Proper := by
  cases h with
  | opens hp =>
    rintro _ ⟨⟩
    exact hp
  | _ => exact fun _ hp => absurd hp (by simp [Start.emit])

/-- An ASCII byte ends what was unfinished, and is a character of its own. -/
theorem advance_ascii (hst : ∀ p ∈ st, p.Proper) (h : b.toNat < 0x80) :
    advance st b = (lossyChars st [] ++ [Char.ofNat b.toNat], none) := by
  cases st with
  | none => rw [advance, start_ascii h]; rfl
  | some p =>
    have hnot : ¬p.accepts b = true := by
      have hlow := (hst p rfl).low
      rw [Pending.accepts_iff]
      omega
    rw [advance, if_neg hnot, start_ascii h]
    rfl

/-- What is unfinished stays proper. -/
theorem proper_advance (hst : ∀ p ∈ st, p.Proper) (b : UInt8) :
    ∀ p ∈ (advance st b).2, p.Proper := by
  by_cases h : b.toNat < 0x80
  · rw [advance_ascii hst h]
    exact fun _ hp => absurd hp (by simp)
  · have hstart := proper_start (Nat.le_of_not_lt h)
    cases st with
    | none => exact hstart.emit
    | some p =>
      rw [advance]
      split
      · next haccepts => exact ((hst p rfl).push haccepts).emit
      · exact hstart.emit

/-- **What comes before an ASCII byte is read without regard to it, and what follows it is read
afresh.** -/
theorem lossyChars_append_ascii (hst : ∀ p ∈ st, p.Proper) (l rest : List UInt8)
    (h : b.toNat < 0x80) :
    lossyChars st (l ++ b :: rest) =
      lossyChars st l ++ Char.ofNat b.toNat :: lossyChars none rest := by
  induction l generalizing st with
  | nil =>
    rw [List.nil_append, lossyChars_cons, advance_ascii hst h, List.append_assoc,
      List.singleton_append]
  | cons a l ih =>
    rw [List.cons_append, lossyChars_cons, ih (proper_advance hst a), ← List.append_assoc,
      ← lossyChars_cons]

theorem lossyChars_ascii_cons (rest : List UInt8) (h : b.toNat < 0x80) :
    lossyChars none (b :: rest) = Char.ofNat b.toNat :: lossyChars none rest :=
  lossyChars_append_ascii (fun _ hp => absurd hp (by simp)) [] rest h

/-! ## ASCII -/

variable {c : Char}

theorem utf8EncodeChar_ascii (h : b.toNat < 0x80) :
    String.utf8EncodeChar (Char.ofNat b.toNat) = [b] := by
  have hchars : ∀ n < 0x80, (Char.ofNat n).val.toNat = n := by decide
  rw [String.utf8EncodeChar, hchars b.toNat h, if_pos (Nat.le_of_lt_succ h), UInt8.ofNat_toNat]

/-- ASCII bytes are those of their text. -/
theorem encode_lossy (h : ∀ b ∈ bytes, b.toNat < 0x80) : encode (lossy bytes) = bytes := by
  rw [lossy, encode_ofList]
  induction bytes with
  | nil => rfl
  | cons b rest ih =>
    obtain ⟨hb, hrest⟩ := List.forall_mem_cons.mp h
    rw [lossyChars_ascii_cons rest hb, List.flatMap_cons, utf8EncodeChar_ascii hb, ih hrest,
      List.singleton_append]

/-- An ASCII byte is no part of a longer character. -/
theorem toNat_of_mem_utf8EncodeChar (hb : b.toNat < 0x80) (h : b ∈ String.utf8EncodeChar c) :
    c.toNat = b.toNat := by
  rw [String.utf8EncodeChar] at h
  split at h
  · next hv =>
    rw [List.mem_singleton.mp h]
    exact (UInt8.toNat_ofNat_of_lt' (by show c.val.toNat < 256; omega)).symm
  -- In a longer character every byte has its top bit set.
  iterate 2
    split at h
    · simp only [List.mem_cons, List.not_mem_nil, or_false] at h
      rcases h with rfl | rfl | rfl <;> rw [UInt8.toNat_ofNat'] at hb <;> omega
  · simp only [List.mem_cons, List.not_mem_nil, or_false] at h
    rcases h with rfl | rfl | rfl | rfl <;> rw [UInt8.toNat_ofNat'] at hb <;> omega

/-- Only ASCII bytes give ASCII characters. The null character is left out, as it stands for what is
no character. -/
theorem Start.Proper.not_mem_emit {s : Start} (h : s.Proper) (hc : c.toNat < 0x80)
    (hne : c.toNat ≠ 0) : c ∉ s.emit.1 := by
  cases h with
  | @char n hn =>
    intro hmem
    obtain rfl := List.mem_singleton.mp hmem
    by_cases hvalid : n.isValidChar
    · have hchar : Char.ofNat n = Char.ofNatAux n hvalid := dif_pos hvalid
      have hnat : (Char.ofNatAux n hvalid).toNat = n := rfl
      rw [hchar, hnat] at hc
      omega
    · have hchar : Char.ofNat n = Char.ofNat 0 := dif_neg hvalid
      rw [hchar] at hne
      exact hne rfl
  | opens => exact List.not_mem_nil
  | bad =>
    intro hmem
    rw [List.mem_singleton.mp hmem] at hc
    exact absurd hc (by decide)

theorem toNat_of_mem_advance (hst : ∀ p ∈ st, p.Proper) (hc : c.toNat < 0x80) (hne : c.toNat ≠ 0)
    (h : c ∈ (advance st b).1) : b.toNat = c.toNat := by
  have hstart (hchar : c ∈ (start b).emit.1) : b.toNat = c.toNat := by
    by_cases hb : b.toNat < 0x80
    · have hchars : ∀ n < 0x80, (Char.ofNat n).toNat = n := by decide
      rw [start_ascii hb] at hchar
      rw [List.mem_singleton.mp hchar, hchars _ hb]
    · exact absurd hchar ((proper_start (Nat.le_of_not_lt hb)).not_mem_emit hc hne)
  cases st with
  | none => exact hstart h
  | some p =>
    rw [advance] at h
    split at h
    · next haccepts => exact absurd h (((hst p rfl).push haccepts).not_mem_emit hc hne)
    · rcases List.mem_cons.mp h with rfl | h
      · exact absurd hc (by decide)
      · exact hstart h

theorem mem_of_mem_lossyChars (hst : ∀ p ∈ st, p.Proper) (hc : c.toNat < 0x80) (hne : c.toNat ≠ 0)
    (h : c ∈ lossyChars st bytes) : UInt8.ofNat c.toNat ∈ bytes := by
  induction bytes generalizing st with
  | nil =>
    cases st with
    | none => cases h
    | some p =>
      obtain rfl := List.mem_singleton.mp h
      exact absurd hc (by decide)
  | cons b rest ih =>
    rw [lossyChars_cons] at h
    rcases List.mem_append.mp h with h | h
    · rw [← toNat_of_mem_advance hst hc hne h, UInt8.ofNat_toNat]
      exact List.mem_cons_self
    · exact List.mem_cons_of_mem _ (ih (proper_advance hst b) h)

/-- Reading adds no ASCII byte but the null byte. -/
theorem mem_of_mem_encode_lossy (hb : b.toNat < 0x80) (hne : b.toNat ≠ 0)
    (h : b ∈ encode (lossy bytes)) : b ∈ bytes := by
  rw [lossy, encode_ofList] at h
  obtain ⟨c, hc, hbc⟩ := List.mem_flatMap.mp h
  have heq := toNat_of_mem_utf8EncodeChar hb hbc
  rw [← UInt8.ofNat_toNat (x := b), ← heq]
  exact mem_of_mem_lossyChars (fun _ hp => absurd hp (by simp)) (by omega) (by omega) hc

end Lox.Utf8
