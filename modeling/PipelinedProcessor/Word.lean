namespace PipelinedProcessor

-- Registers, memory and encoded instructions all hold 32 bits. What differs is how they are read:
-- as a signed number in arithmetic, as an unsigned one in addresses, as fields in instructions.
abbrev Word := BitVec 32

namespace Word

-- One more than the largest address that a word can name.
abbrev bound : Nat := 0x100000000

-- Addresses are plain numbers, and a negative word names high memory.
def toAddress (w : Word) : Nat := w.toNat

def text (w : Word) : String := w.toInt.repr

-- `width` bits of the word, from the bit at `low` upwards.
def field (w : Word) (low width : Nat) : Nat := (w.extractLsb' low width).toNat

theorem toAddress_lt (w : Word) : w.toAddress < bound := w.isLt

theorem field_lt (w : Word) (low width : Nat) : w.field low width < 1 <<< width := by
  rw [Nat.one_shiftLeft]
  exact (w.extractLsb' low width).isLt

-- Most significant byte first.
def bytes (w : Word) : List UInt8 :=
  [24, 16, 8, 0].map fun low => UInt8.ofBitVec (w.extractLsb' low 8)

def ofBytes (a b c d : UInt8) : Word := a.toBitVec ++ b.toBitVec ++ c.toBitVec ++ d.toBitVec

end Word

-- Numbers that stand outside of words have 64 bits, one of them for the sign if there may be one.
abbrev unsignedBound : Nat := 0x10000000000000000

abbrev signedBound : Nat := 0x8000000000000000

end PipelinedProcessor
