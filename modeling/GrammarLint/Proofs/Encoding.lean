import GrammarLint.Text.Utf8

open List

namespace GrammarLint.Text.Utf8

variable {position : Nat} {b : UInt8} {rest : List UInt8} {p : Pending}

theorem decodeFrom_single (low : b.toNat < 0x80) :
    decodeFrom position none (b :: rest) =
      (decodeFrom (position + 1) none rest).map (Char.ofNat b.toNat :: ·) := by
  rw [decodeFrom, if_pos low]
  cases decodeFrom (position + 1) none rest <;> rfl

theorem decodeFrom_lead {pending : Pending} (high : 0x80 ≤ b.toNat) (leads : lead b = some pending) :
    decodeFrom position none (b :: rest) = decodeFrom (position + 1) (some pending) rest := by
  rw [decodeFrom, if_neg (Nat.not_lt.mpr high)]
  simp [leads]

theorem Pending.not_outside (bounds : p.low ≤ b.toNat ∧ b.toNat ≤ p.high) :
    (decide (b.toNat < p.low) || decide (p.high < b.toNat)) = false := by
  simp only [Bool.or_eq_false_iff, decide_eq_false_iff_not]
  omega

/-- An octet of a longer character, with more to come. -/
theorem decodeFrom_inner (bounds : p.low ≤ b.toNat ∧ b.toNat ≤ p.high) (owed : 1 < p.owed) :
    decodeFrom position (some p) (b :: rest) = decodeFrom (position + 1)
      (some ⟨p.bytes ++ [b], p.value * 64 + (b.toNat - 0x80), p.owed - 1, 0x80, 0xbf⟩) rest := by
  rw [decodeFrom]
  simp [Pending.not_outside bounds, Nat.not_le.mpr owed]

/-- The last octet completes its character. -/
theorem decodeFrom_last (bounds : p.low ≤ b.toNat ∧ b.toNat ≤ p.high) (owed : p.owed = 1) :
    decodeFrom position (some p) (b :: rest) = (decodeFrom (position + 1) none rest).map
      (Char.ofNat (p.value * 64 + (b.toNat - 0x80)) :: ·) := by
  rw [decodeFrom]
  simp only [Pending.not_outside bounds, owed, Nat.le_refl, Bool.false_eq_true, if_true, if_false]
  cases decodeFrom (position + 1) none rest <;> rfl

theorem lead_two (low : 0xc2 ≤ b.toNat) (high : b.toNat < 0xe0) :
    lead b = some ⟨[b], b.toNat - 0xc0, 1, 0x80, 0xbf⟩ := by
  rw [lead, if_neg (by omega), if_pos high]

theorem lead_three (low : 0xe0 ≤ b.toNat) (high : b.toNat < 0xf0) :
    lead b = some ⟨[b], b.toNat - 0xe0, 2, if b.toNat == 0xe0 then 0xa0 else 0x80,
      if b.toNat == 0xed then 0x9f else 0xbf⟩ := by
  rw [lead, if_neg (by omega), if_neg (by omega), if_pos high]

theorem lead_four (low : 0xf0 ≤ b.toNat) (high : b.toNat < 0xf5) :
    lead b = some ⟨[b], b.toNat - 0xf0, 3, if b.toNat == 0xf0 then 0x90 else 0x80,
      if b.toNat == 0xf4 then 0x8f else 0xbf⟩ := by
  rw [lead, if_neg (by omega), if_neg (by omega), if_neg (by omega), if_pos high]

theorem toNat_ofNat (n : Nat) (small : n < 256) : (UInt8.ofNat n).toNat = n := by
  rw [UInt8.toNat_ofNat', Nat.mod_eq_of_lt small]

/-- The bytes of a character are read as that character. -/
theorem decodeFrom_encodeChar (position : Nat) (c : Char) (rest : List UInt8) :
    decodeFrom position none (String.utf8EncodeChar c ++ rest) =
      (decodeFrom (position + (String.utf8EncodeChar c).length) none rest).map (c :: ·) := by
  have valid : c.val.toNat < 0xd800 ∨ 0xdfff < c.val.toNat ∧ c.val.toNat < 0x110000 := c.valid
  have same : ∀ n, n = c.val.toNat → Char.ofNat n = c := by
    rintro n rfl
    exact Char.ofNat_toNat c
  unfold String.utf8EncodeChar
  simp only
  generalize c.val.toNat = v at valid same
  split
  · have byte := toNat_ofNat v (by omega)
    rw [singleton_append, decodeFrom_single (by omega), byte, same v rfl]
    rfl
  · split
    · have first := toNat_ofNat (v / 64 % 32 + 192) (by omega)
      have last := toNat_ofNat (v % 64 + 128) (by omega)
      rw [cons_append, singleton_append,
        decodeFrom_lead (by omega) (lead_two (by omega) (by omega)),
        decodeFrom_last (by simp only; omega) rfl, same _ (by simp only; omega)]
      rfl
    · split
      · have first := toNat_ofNat (v / 4096 % 16 + 224) (by omega)
        have second := toNat_ofNat (v / 64 % 64 + 128) (by omega)
        have last := toNat_ofNat (v % 64 + 128) (by omega)
        rw [cons_append, cons_append, singleton_append,
          decodeFrom_lead (by omega) (lead_three (by omega) (by omega)),
          decodeFrom_inner (by simp only [beq_iff_eq]; constructor <;> split <;> omega)
            (by simp only; omega),
          decodeFrom_last (by simp only; omega) rfl, same _ (by simp only; omega)]
        rfl
      · have first := toNat_ofNat (v / 262144 % 8 + 240) (by omega)
        have second := toNat_ofNat (v / 4096 % 64 + 128) (by omega)
        have third := toNat_ofNat (v / 64 % 64 + 128) (by omega)
        have last := toNat_ofNat (v % 64 + 128) (by omega)
        rw [cons_append, cons_append, cons_append, singleton_append,
          decodeFrom_lead (by omega) (lead_four (by omega) (by omega)),
          decodeFrom_inner (by simp only [beq_iff_eq]; constructor <;> split <;> omega)
            (by simp only; omega),
          decodeFrom_inner (by simp only; omega) (by simp only; omega),
          decodeFrom_last (by simp only; omega) rfl, same _ (by simp only; omega)]
        rfl

/-- A text is read back from its octets. -/
theorem decode_encode (text : List Char) : decode (encode text) = .ok text := by
  suffices general : ∀ position, decodeFrom position none (encode text) = .ok text from general 0
  induction text with
  | nil => intro position; rfl
  | cons c text ih =>
    intro position
    rw [encode, flatMap_cons, decodeFrom_encodeChar, ← encode, ih]
    rfl

end GrammarLint.Text.Utf8
