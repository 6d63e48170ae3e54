import BoostIrc.Bytes

/-!
# Base64

What `Crypto::Base64::encode` writes: the bytes, three at a time, as four characters of six bits
each, and padding where the last group is short (`encode`). It is computed by OpenSSL, without
line breaks.

A group is written by the values of its characters first (`sextets`), with 64 for the padding,
which is the character behind the last one of the alphabet.

## Main results

* `encode_injective`: **different bytes are written differently**.
-/

namespace BoostIrc

namespace Crypto

namespace Base64

/-- The alphabet. -/
def alphabet : Bytes :=
  ascii "ABCDEFGHIJKLMNOPQRSTUVWXYZabcdefghijklmnopqrstuvwxyz0123456789+/"

/-- The character of a value of six bits, and the padding for any other. -/
def char (n : ℕ) : Byte :=
  alphabet.getD n EQUALS

/-- The values of the characters that write the bytes. -/
def sextets : Bytes → List ℕ
  | [] => []
  | [a] => [a.toNat / 4, a.toNat % 4 * 16, 64, 64]
  | [a, b] => [a.toNat / 4, a.toNat % 4 * 16 + b.toNat / 16, b.toNat % 16 * 4, 64]
  | a :: b :: c :: rest =>
      a.toNat / 4 :: (a.toNat % 4 * 16 + b.toNat / 16) :: (b.toNat % 16 * 4 + c.toNat / 64) ::
        c.toNat % 64 :: sextets rest

/-- `Crypto::Base64::encode`. -/
def encode (bytes : Bytes) : Bytes :=
  (sextets bytes).map char

example : encode (ascii "any carnal pleas") = ascii "YW55IGNhcm5hbCBwbGVhcw==" := by decide

/-- The place of a character in the alphabet is its value. -/
theorem idxOf_char {n : ℕ} (h : n ≤ 64) : alphabet.idxOf (char n) = n := by
  revert n
  decide +kernel

/-- A value of six bits is less than 64, and 64 stands for the padding. -/
theorem le_of_mem_sextets {bytes : Bytes} {n : ℕ} (h : n ∈ sextets bytes) : n ≤ 64 := by
  induction bytes using sextets.induct with
  | case1 => simp [sextets] at h
  | case2 a =>
      have ha := a.toNat_lt
      simp only [sextets, List.mem_cons, List.not_mem_nil, or_false] at h
      omega
  | case3 a b =>
      have ha := a.toNat_lt
      have hb := b.toNat_lt
      simp only [sextets, List.mem_cons, List.not_mem_nil, or_false] at h
      omega
  | case4 a b c rest ih =>
      have ha := a.toNat_lt
      have hb := b.toNat_lt
      have hc := c.toNat_lt
      simp only [sextets, List.mem_cons] at h
      rcases h with h | h | h | h | h
      · omega
      · omega
      · omega
      · omega
      · exact ih h

/-- The values determine the bytes, so that no two texts have the same ones. -/
theorem sextets_injective : Function.Injective sextets := by
  intro x
  induction x using sextets.induct with
  | case1 =>
      intro y h
      rcases y with _ | ⟨a, _ | ⟨b, _ | ⟨c, y⟩⟩⟩
      · rfl
      · simp [sextets] at h
      · simp [sextets] at h
      · simp [sextets] at h
  | case2 a =>
      intro y h
      have ha := a.toNat_lt
      rcases y with _ | ⟨a', _ | ⟨b', _ | ⟨c', y⟩⟩⟩
      · simp [sextets] at h
      · simp only [sextets, List.cons.injEq] at h
        rw [UInt8.toNat_inj.mp (show a.toNat = a'.toNat by omega)]
      · simp only [sextets, List.cons.injEq] at h
        omega
      · simp only [sextets, List.cons.injEq] at h
        omega
  | case3 a b =>
      intro y h
      have hb := b.toNat_lt
      rcases y with _ | ⟨a', _ | ⟨b', _ | ⟨c', y⟩⟩⟩
      · simp [sextets] at h
      · simp only [sextets, List.cons.injEq] at h
        omega
      · have hb' := b'.toNat_lt
        simp only [sextets, List.cons.injEq] at h
        rw [UInt8.toNat_inj.mp (show a.toNat = a'.toNat by omega),
          UInt8.toNat_inj.mp (show b.toNat = b'.toNat by omega)]
      · simp only [sextets, List.cons.injEq] at h
        omega
  | case4 a b c rest ih =>
      intro y h
      have hb := b.toNat_lt
      have hc := c.toNat_lt
      rcases y with _ | ⟨a', _ | ⟨b', _ | ⟨c', y⟩⟩⟩
      · simp [sextets] at h
      · simp only [sextets, List.cons.injEq] at h
        omega
      · simp only [sextets, List.cons.injEq] at h
        omega
      · have hb' := b'.toNat_lt
        have hc' := c'.toNat_lt
        simp only [sextets, List.cons.injEq] at h
        obtain ⟨h1, h2, h3, h4, hrest⟩ := h
        rw [UInt8.toNat_inj.mp (show a.toNat = a'.toNat by omega),
          UInt8.toNat_inj.mp (show b.toNat = b'.toNat by omega),
          UInt8.toNat_inj.mp (show c.toNat = c'.toNat by omega), ih hrest]

/-- The values are read back from the characters. -/
theorem map_idxOf_encode (bytes : Bytes) :
    (encode bytes).map (alphabet.idxOf ·) = sextets bytes := by
  rw [encode, List.map_map]
  calc (sextets bytes).map ((alphabet.idxOf ·) ∘ char)
      = (sextets bytes).map id :=
        List.map_congr_left fun _ hn => idxOf_char (le_of_mem_sextets hn)
    _ = sextets bytes := List.map_id _

/-- **Different bytes are written differently.** The length of the text and its padding tell how
many bytes there were, and its letters tell which. -/
theorem encode_injective : Function.Injective encode := by
  intro x y h
  apply sextets_injective
  rw [← map_idxOf_encode x, ← map_idxOf_encode y, h]

end Base64

end Crypto

end BoostIrc
