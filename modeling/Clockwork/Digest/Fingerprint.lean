import Clockwork.Digest.XXH3
import Clockwork.Text

namespace Clockwork.Digest

/-- A 128-bit fingerprint: its sixteen bytes, the least significant first. -/
structure Fingerprint where
  bytes : List UInt8
  deriving DecidableEq, Repr, Inhabited

/-- The `n` low bytes of a number, the least significant first. -/
def littleEndian (x : Nat) : Nat → List UInt8
  | 0 => []
  | n + 1 => UInt8.ofNat x :: littleEndian (x / 256) n

namespace Fingerprint

def ofBytes (b : ByteArray) : Fingerprint :=
  let h := XXH3.hash b
  ⟨littleEndian h.low.toNat 8 ++ littleEndian h.high.toNat 8⟩

def render (f : Fingerprint) : String := String.join (f.bytes.map Text.hexByte)

/-- The first two bytes in hexadecimal, with a mark that more follow. -/
def brief (f : Fingerprint) : String :=
  String.join ((f.bytes.take 2).map Text.hexByte) ++ ".."

end Fingerprint

/-- The bytes fed so far. -/
structure Feed where
  bytes : ByteArray
  deriving Inhabited

namespace Feed

def empty : Feed := ⟨ByteArray.empty⟩

def raw (f : Feed) (b : ByteArray) : Feed := ⟨f.bytes ++ b⟩

def number (f : Feed) (n : Nat) : Feed := f.raw ⟨(littleEndian n 8).toArray⟩

def text (f : Feed) (s : String) : Feed := (f.number s.utf8ByteSize).raw s.toUTF8

def finish (f : Feed) : Fingerprint := Fingerprint.ofBytes f.bytes

end Feed

end Clockwork.Digest
