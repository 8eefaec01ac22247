import Mathlib

/-!
# Bytes, machine integers and the external Huffman coder

The vocabulary shared by every module. `usize` is taken at 64 bits. A 32-bit sequence number is a
`BitVec 32`, so that the wrapping arithmetic of the source is the arithmetic of the type.
The Huffman code of HPACK is not part of the repository: `HuffmanDecoding` stands for the decoder
the source calls, `HuffmanCoding` for a decoder together with the encoder it inverts.
-/

namespace H2Tap

/-- A byte string. -/
abbrev Bytes := List UInt8

/-- An absolute TCP sequence number. -/
abbrev Seq := BitVec 32

/-- `usize::MAX` on a 64-bit target. -/
def usizeMax : Nat := 2 ^ 64 - 1

/-- The bytes of an ASCII string, as in the source's byte-string literals. -/
def asciiBytes (s : String) : Bytes := s.toList.map fun c => c.toNat.toUInt8

/-- `char::is_whitespace`. -/
def isWhitespace (c : Char) : Bool :=
  let n := c.toNat
  (9 ≤ n && n ≤ 13) || n == 0x20 || n == 0x85 || n == 0xa0 || n == 0x1680 ||
    (0x2000 ≤ n && n ≤ 0x200a) || n == 0x2028 || n == 0x2029 || n == 0x202f || n == 0x205f ||
    n == 0x3000

/-- `httlib_huffman::decode`: the octets a Huffman-coded string stands for, or `none` when the
input is not a valid code. -/
class HuffmanDecoding where
  huffmanDecode : Bytes → Option Bytes

export HuffmanDecoding (huffmanDecode)

/-- A Huffman decoder and the encoder of a peer whose output it decodes. -/
class HuffmanCoding extends HuffmanDecoding where
  huffmanEncode : Bytes → Bytes
  huffman_decode_encode : ∀ s, huffmanDecode (huffmanEncode s) = some s

export HuffmanCoding (huffmanEncode huffman_decode_encode)

/-- A stand-in for inputs that hold no Huffman-coded string. -/
@[reducible] def noHuffman : HuffmanCoding where
  huffmanDecode := some
  huffmanEncode := id
  huffman_decode_encode _ := rfl

end H2Tap
