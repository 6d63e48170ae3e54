import BoostIrc.Bytes

/-!
# The Digest in the Handshake

`get_digest` of the SHA-1 class gives the digest as five words of 32 bits. The value of
`Sec-WebSocket-Accept` is to be made of its twenty bytes (`digestBytes`). `generate_handshake`
makes it of a text instead (`digestText`): the words in hexadecimal, each without leading zeros,
apart from the first, for which the width of the stream is set.

## Main results

* `digestText_ne_digestBytes`: **the text is never the bytes**. A text as short as twenty
  characters needs a word with a leading zero, and the bytes of such a word are not all characters
  of a hexadecimal number.
-/

namespace BoostIrc

/-- A `std::stringstream` in hexadecimal with the fill character `0`: its text, and the width
that is set for the next insertion. -/
structure HexStream where
  text : Bytes := []
  width : ℕ := 0

/-- A number in hexadecimal, without leading zeros. -/
def hexDigits (n : UInt32) : Bytes :=
  (Nat.toDigits 16 n.toNat).map Char.toUInt8

/-- Insert a number: it is padded to the width, and the width is reset. -/
def HexStream.insert (ss : HexStream) (n : UInt32) : HexStream where
  text := ss.text ++ (hexDigits n).leftpad ss.width 0x30
  width := 0

/-- The text of a digest. The width, eight digits, is set once. -/
def digestText (hash : Vector UInt32 5) : Bytes :=
  (hash.toList.foldl HexStream.insert { width := 8 }).text

/-- The bytes of a word, the highest first. -/
def bigEndian (n : UInt32) : Bytes :=
  [n >>> 24, n >>> 16, n >>> 8, n].map UInt32.toUInt8

/-- The bytes of a digest. -/
def digestBytes (hash : Vector UInt32 5) : Bytes :=
  hash.toList.flatMap bigEndian

/-- The digits of a number in base 16 are the characters of the numbers below 16. -/
theorem exists_of_mem_toDigits {m : ℕ} {c : Char} (h : c ∈ Nat.toDigits 16 m) :
    ∃ d < 16, c = Nat.digitChar d := by
  induction m using Nat.strongRecOn with
  | ind m ih =>
      rw [Nat.toDigits_eq_if (by decide)] at h
      by_cases hm : m < 16
      · rw [if_pos hm, List.mem_singleton] at h
        exact ⟨m, hm, h⟩
      · rw [if_neg hm, List.mem_append, List.mem_singleton] at h
        rcases h with h | h
        · exact ih (m / 16) (by omega) h
        · exact ⟨m % 16, by omega, h⟩

/-- They are printable characters, whose upper four bits are not all zero. -/
theorem le_of_mem_hexDigits {n : UInt32} {b : Byte} (h : b ∈ hexDigits n) : 0x10 ≤ b.toNat := by
  obtain ⟨c, hc, rfl⟩ := List.mem_map.mp h
  obtain ⟨d, hd, rfl⟩ := exists_of_mem_toDigits hc
  have hprintable : ∀ d < 16, 0x10 ≤ (Nat.digitChar d).toUInt8.toNat := by decide
  exact hprintable d hd

/-- A word whose upper four bits are not all zero has eight digits. -/
theorem le_length_hexDigits {n : UInt32} (h : 2 ^ 28 ≤ n.toNat) : 8 ≤ (hexDigits n).length := by
  have hlen := Nat.length_toDigits_le_iff (b := 16) (n := n.toNat) (k := 7) (by decide) (by decide)
  rw [hexDigits, List.length_map]
  omega

/-- Whatever the width, only digits are inserted. -/
theorem le_of_mem_foldl_insert {ws : List UInt32} {ss : HexStream} {b : Byte}
    (hss : ∀ b ∈ ss.text, 0x10 ≤ b.toNat) (h : b ∈ (ws.foldl HexStream.insert ss).text) :
    0x10 ≤ b.toNat := by
  induction ws generalizing ss with
  | nil => exact hss b h
  | cons w ws ih =>
      refine ih ?_ h
      intro b hb
      rw [HexStream.insert, List.mem_append, List.leftpad, List.mem_append] at hb
      rcases hb with hb | hb | hb
      · exact hss b hb
      · rw [(List.mem_replicate.mp hb).2]
        decide
      · exact le_of_mem_hexDigits hb

/-- Words of eight digits take eight bytes each. -/
theorem length_foldl_insert {ws : List UInt32} (h : ∀ w ∈ ws, 2 ^ 28 ≤ w.toNat) (ss : HexStream) :
    ss.text.length + 8 * ws.length ≤ (ws.foldl HexStream.insert ss).text.length := by
  induction ws generalizing ss with
  | nil => simp
  | cons w ws ih =>
      have hw := le_length_hexDigits (h w List.mem_cons_self)
      have hrest := ih (fun v hv => h v (List.mem_cons_of_mem w hv)) (ss.insert w)
      have hinsert : ss.text.length + 8 ≤ (ss.insert w).text.length := by
        rw [HexStream.insert, List.length_append, List.length_leftpad]
        omega
      rw [List.foldl_cons, List.length_cons]
      omega

/-- A digest of five words of 32 bits has 20 bytes. -/
theorem length_digestBytes (hash : Vector UInt32 5) : (digestBytes hash).length = 20 := by
  have hword : (List.length ∘ bigEndian) = fun _ => 4 := rfl
  rw [digestBytes, List.length_flatMap]
  change (hash.toList.map (List.length ∘ bigEndian)).sum = 20
  rw [hword, List.map_const', List.sum_replicate_nat, Vector.length_toList]

/-- **The text of a digest is never its bytes.** Were it, every byte would be the code of a
hexadecimal digit, so no word would have leading zeros; but then the text has eight characters for
each word, and not four. -/
theorem digestText_ne_digestBytes (hash : Vector UInt32 5) :
    digestText hash ≠ digestBytes hash := by
  intro h
  have hprintable : ∀ b ∈ digestBytes hash, 0x10 ≤ b.toNat := by
    intro b hb
    rw [← h] at hb
    exact le_of_mem_foldl_insert (by simp) hb
  have hwords : ∀ w ∈ hash.toList, 2 ^ 28 ≤ w.toNat := by
    intro w hw
    have htop := hprintable (w >>> 24).toUInt8 (List.mem_flatMap.mpr ⟨w, hw, by simp [bigEndian]⟩)
    simp at htop
    omega
  have hlong := length_foldl_insert hwords { width := 8 }
  have hshort := length_digestBytes hash
  rw [← h, digestText] at hshort
  rw [hshort, Vector.length_toList] at hlong
  omega

end BoostIrc
