import Unmask.Encoding.Utf16

/-!
# Byte order marks

The first bytes of a file tell how the rest is encoded.  A file without a mark is UTF-8.
-/

namespace Unmask.Encoding

/-- What a mark at the head of a file says of the rest. -/
inductive Mark where
  | utf8
  | utf16 (order : Utf16.ByteOrder)
deriving DecidableEq, Repr

def Mark.bytes : Mark → Bytes
  | utf8 => [0xEF, 0xBB, 0xBF]
  | utf16 .littleEndian => [0xFF, 0xFE]
  | utf16 .bigEndian => [0xFE, 0xFF]

/-- Takes a mark off the head of a file. -/
def splitMark : Bytes → Option Mark × Bytes
  | 0xFF :: 0xFE :: s => (some (.utf16 .littleEndian), s)
  | 0xFE :: 0xFF :: s => (some (.utf16 .bigEndian), s)
  | 0xEF :: 0xBB :: 0xBF :: s => (some .utf8, s)
  | s => (none, s)

/-- Reads the content of a file as a text. -/
def decode (s : Bytes) : Text :=
  match splitMark s with
  | (some (.utf16 order), s) => Utf16.decode order s
  | (_, s) => Utf8.decode s

end Unmask.Encoding
