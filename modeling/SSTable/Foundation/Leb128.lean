import SSTable.Foundation.ByteString

/-!
# The LEB128 integer code

Seven bits of the integer go into each byte, low group first; every byte but the last has
its high bit set.  The decoder reads at most ten bytes and truncates to 64 bits.

Main results:

- Theorem {lit}`decode_encode`: an encoded word is read back, whatever follows it.
- Theorem {lit}`encode_length_le`: an integer below 2^(7k) takes at most k bytes.
- Theorem {lit}`decode_bounds`: what is decoded fits a word and came from the string.
-/

namespace Foundation

namespace Leb128

open Bytes

/-- Encode with at most {lit}`fuel + 1` bytes. -/
def encodeGo : Nat → Nat → Bytes
  | 0, n => [UInt8.ofNat n]
  | fuel + 1, n =>
      if n < 128 then [UInt8.ofNat n] else UInt8.ofNat (n % 128 + 128) :: encodeGo fuel (n / 128)

/-- The encoding of a 64-bit word. -/
def encode (n : Nat) : Bytes := encodeGo 9 n

/-- Decode from at most {lit}`fuel` bytes, and count them. -/
def decodeGo : Nat → Bytes → Option (Nat × Nat)
  | fuel + 1, b :: bs =>
      if b.toNat < 128 then some (b.toNat, 1)
      else (decodeGo fuel bs).map fun r => (b.toNat % 128 + 128 * r.1, r.2 + 1)
  | _, _ => none

/-- The word at the front of a string and the number of bytes it took. -/
def decode (b : Bytes) : Option (Nat × Nat) :=
  (decodeGo 10 b).map fun r => (r.1 % wordLimit, r.2)

theorem encodeGo_length_pos (fuel n : Nat) : 0 < (encodeGo fuel n).length := by
  cases fuel with
  | zero => simp [encodeGo]
  | succ fuel =>
      simp only [encodeGo]
      split <;> simp

theorem encode_length_pos (n : Nat) : 0 < (encode n).length := encodeGo_length_pos 9 n

theorem encodeGo_length_le {fuel n k : Nat} (hk : 0 < k) (hn : n < 2 ^ (7 * k)) :
    (encodeGo fuel n).length ≤ k := by
  induction fuel generalizing n k with
  | zero =>
      simp only [encodeGo, List.length_cons, List.length_nil]
      omega
  | succ fuel ih =>
      simp only [encodeGo]
      split
      · simp only [List.length_cons, List.length_nil]
        omega
      · rename_i hlarge
        obtain ⟨j, rfl⟩ : ∃ j, k = j + 1 := ⟨k - 1, by omega⟩
        have hsplit : 2 ^ (7 * (j + 1)) = 128 * 2 ^ (7 * j) := by
          rw [Nat.mul_succ, Nat.pow_add, Nat.mul_comm]
        have hj : 0 < j := by
          rcases Nat.eq_zero_or_pos j with rfl | hj
          · omega
          · exact hj
        have := ih hj (n := n / 128) (by omega)
        simpa using this

/-- An integer below 2^(7k) takes at most k bytes. -/
theorem encode_length_le {n k : Nat} (hk : 0 < k) (hn : n < 2 ^ (7 * k)) :
    (encode n).length ≤ k := encodeGo_length_le hk hn

theorem decodeGo_encodeGo {fuel n : Nat} (hn : n < 128 ^ (fuel + 1)) (rest : Bytes) :
    decodeGo (fuel + 1) (encodeGo fuel n ++ rest) = some (n, (encodeGo fuel n).length) := by
  induction fuel generalizing n with
  | zero =>
      have hsmall : n < 128 := by simpa using hn
      have hbyte : (UInt8.ofNat n).toNat = n := by
        rw [UInt8.toNat_ofNat']
        omega
      simp [encodeGo, decodeGo, hbyte, hsmall]
  | succ fuel ih =>
      simp only [encodeGo]
      split
      · rename_i hsmall
        have hbyte : (UInt8.ofNat n).toNat = n := by
          rw [UInt8.toNat_ofNat']
          omega
        simp [decodeGo, hbyte, hsmall]
      · rename_i hlarge
        have hbyte : (UInt8.ofNat (n % 128 + 128)).toNat = n % 128 + 128 := by
          rw [UInt8.toNat_ofNat']
          omega
        have hrest := ih (n := n / 128) (by rw [Nat.pow_succ] at hn; omega)
        rw [List.cons_append, decodeGo, hbyte, if_neg (by omega), hrest]
        simp only [Option.map_some, List.length_cons, Option.some.injEq, Prod.mk.injEq, and_true]
        omega

/-- An encoded word is read back, whatever follows it. -/
theorem decode_encode {n : Nat} (hn : n < wordLimit) (rest : Bytes) :
    decode (encode n ++ rest) = some (n, (encode n).length) := by
  have hbig : n < 128 ^ (9 + 1) := lt_of_lt_of_le hn (by decide)
  simp [decode, encode, decodeGo_encodeGo hbig rest, Nat.mod_eq_of_lt hn]

theorem decodeGo_bounds {fuel : Nat} {b : Bytes} {n k : Nat} (h : decodeGo fuel b = some (n, k)) :
    0 < k ∧ k ≤ b.length := by
  induction fuel generalizing b n k with
  | zero => simp [decodeGo] at h
  | succ fuel ih =>
      cases b with
      | nil => simp [decodeGo] at h
      | cons x xs =>
          simp only [decodeGo] at h
          split at h
          · simp only [Option.some.injEq, Prod.mk.injEq] at h
            simp only [List.length_cons]
            omega
          · simp only [Option.map_eq_some_iff, Prod.mk.injEq] at h
            obtain ⟨⟨n', k'⟩, hrec, _, rfl⟩ := h
            have := ih hrec
            simp only [List.length_cons]
            omega

/-- What is decoded fits a word and came from the string. -/
theorem decode_bounds {b : Bytes} {n k : Nat} (h : decode b = some (n, k)) :
    n < wordLimit ∧ 0 < k ∧ k ≤ b.length := by
  simp only [decode, Option.map_eq_some_iff, Prod.mk.injEq] at h
  obtain ⟨⟨n', k'⟩, hgo, rfl, rfl⟩ := h
  exact ⟨Nat.mod_lt _ (by decide), decodeGo_bounds hgo⟩

end Leb128

end Foundation
