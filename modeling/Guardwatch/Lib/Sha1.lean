import Guardwatch.Lib.BigEndian
import Guardwatch.Lib.BlockHash

/-! The hash function SHA-1. -/

namespace Sha1

def rotateLeft (bits word : UInt32) : UInt32 := word <<< bits ||| word >>> (32 - bits)

/-- The words that a block is extended to. -/
def word (block : List UInt8) (t : Nat) : UInt32 :=
  if t < 16 then
    UInt32.ofNat (BigEndian.valueFrom 0 ((block.drop (4 * t)).take 4))
  else
    rotateLeft 1 (word block (t - 3) ^^^ word block (t - 8) ^^^ word block (t - 14) ^^^
      word block (t - 16))

def choose (x y z : UInt32) : UInt32 := (x &&& y) ||| (~~~x &&& z)
def parity (x y z : UInt32) : UInt32 := x ^^^ y ^^^ z
def majority (x y z : UInt32) : UInt32 := (x &&& y) ||| (x &&& z) ||| (y &&& z)

def logical (t : Nat) : UInt32 → UInt32 → UInt32 → UInt32 :=
  if t < 20 then choose else if t < 40 then parity else if t < 60 then majority else parity

def constant (t : Nat) : UInt32 :=
  if t < 20 then 0x5A827999 else if t < 40 then 0x6ED9EBA1 else if t < 60 then 0x8F1BBCDC
  else 0xCA62C1D6

/-- The five words of a hash value. -/
structure Words where
  a : UInt32
  b : UInt32
  c : UInt32
  d : UInt32
  e : UInt32
deriving DecidableEq

def Words.step (f : UInt32 → UInt32 → UInt32 → UInt32) (k w : UInt32) (s : Words) : Words where
  a := rotateLeft 5 s.a + f s.b s.c s.d + s.e + w + k
  b := s.a
  c := rotateLeft 30 s.b
  d := s.c
  e := s.d

def Words.add (s s' : Words) : Words := ⟨s.a + s'.a, s.b + s'.b, s.c + s'.c, s.d + s'.d, s.e + s'.e⟩

def compress (s : Words) (block : List UInt8) : Words :=
  s.add ((List.range 80).foldl (fun s t => s.step (logical t) (constant t) (word block t)) s)

def initial : Words := ⟨0x67452301, 0xEFCDAB89, 0x98BADCFE, 0x10325476, 0xC3D2E1F0⟩

/-- A one bit, zeros, and the length in bits, up to the end of a block. -/
def padding (length : Nat) : List UInt8 :=
  128 :: (List.replicate ((119 - length % 64) % 64) 0 ++ BigEndian.digits 8 (8 * length))

def Words.bytes (s : Words) : List UInt8 :=
  [s.a, s.b, s.c, s.d, s.e].flatMap fun word => BigEndian.digits 4 word.toNat

def sha1 (message : List UInt8) : List UInt8 :=
  ((BlockHash.blocks 64 (message ++ padding message.length)).foldl compress initial).bytes

theorem length_digits (k n : Nat) : (BigEndian.digits k n).length = k := by
  induction k with
  | zero => rfl
  | succ k ih => rw [BigEndian.digits, List.length_cons, ih]

theorem padding_length (length : Nat) :
    (padding length).length = (119 - length % 64) % 64 + 9 := by
  simp [padding, length_digits]

/-- With its padding a message has whole blocks. -/
theorem padding_whole (message : List UInt8) :
    64 ∣ (message ++ padding message.length).length := by
  rw [List.length_append, padding_length]
  omega

end Sha1
