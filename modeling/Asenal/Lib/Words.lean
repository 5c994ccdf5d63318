import Mathlib.Data.List.Basic

/-!
# Words of four bytes

The bytes of a 32-bit word, the lowest first, as they stand in memory and on the wire.

* `readWord_wordBytes` — a word is read back from its bytes, whatever stands behind them.
* `netBytes`, `netWord` — the highest byte first, as in the headers of packets.
-/

namespace Asenal.Lib.Words

/-- The bytes of a word. -/
def wordBytes (w : UInt32) : List UInt8 :=
  [w.toNat.toUInt8, (w.toNat / 256).toUInt8, (w.toNat / 65536).toUInt8, (w.toNat / 16777216).toUInt8]

/-- The word at the beginning of some bytes, and what stands behind it. -/
def readWord : List UInt8 → Option (UInt32 × List UInt8)
  | b₀ :: b₁ :: b₂ :: b₃ :: rest =>
      some (UInt32.ofNat (b₀.toNat + 256 * b₁.toNat + 65536 * b₂.toNat + 16777216 * b₃.toNat), rest)
  | _ => none

/-- A word has four bytes. -/
@[simp] theorem length_wordBytes (w : UInt32) : (wordBytes w).length = 4 := rfl

/-- A word is read back. -/
theorem readWord_wordBytes (w : UInt32) (rest : List UInt8) :
    readWord (wordBytes w ++ rest) = some (w, rest) := by
  have hlt : w.toNat < 4294967296 := w.toNat_lt
  have hsum : w.toNat % 256 + 256 * (w.toNat / 256 % 256) + 65536 * (w.toNat / 65536 % 256) +
      16777216 * (w.toNat / 16777216 % 256) = w.toNat := by omega
  have hbyte : ∀ n : ℕ, n.toUInt8.toNat = n % 256 := fun n => rfl
  show some (UInt32.ofNat _, rest) = _
  rw [hbyte, hbyte, hbyte, hbyte, hsum, UInt32.ofNat_toNat]

/-! ## Network order -/

/-- The bytes of a word, the highest first. -/
def netBytes (w : UInt32) : List UInt8 := (wordBytes w).reverse

/-- The word of four bytes, the highest first. -/
def netWord (bs : List UInt8) : UInt32 :=
  match readWord bs.reverse with
  | some (w, _) => w
  | none => 0

/-- So it has in network order. -/
@[simp] theorem length_netBytes (w : UInt32) : (netBytes w).length = 4 := rfl

/-- A word is read from its bytes in network order. -/
theorem netWord_netBytes (w : UInt32) : netWord (netBytes w) = w := by
  have hread := readWord_wordBytes w []
  rw [List.append_nil] at hread
  rw [netWord, netBytes, List.reverse_reverse, hread]

end Asenal.Lib.Words
