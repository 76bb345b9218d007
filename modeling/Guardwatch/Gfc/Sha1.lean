import Guardwatch.Lib.Sha1

/-! The hash contexts of `gfc_sha1.c`. -/

namespace Guardwatch.GfcSha1

def shaSuccess : Nat := 0
def shaNull : Nat := 1
def shaInputTooLong : Nat := 2
def shaStateError : Nat := 3

structure SHA1Context where
  intermediateHash : Vector UInt32 5
  lengthLow : UInt32
  lengthHigh : UInt32
  messageBlockIndex : Nat
  messageBlock : Vector UInt8 64
  computed : Nat
  corrupted : Nat
deriving DecidableEq

def sha1CircularShift (bits word : UInt32) : UInt32 := word <<< bits ||| word >>> (32 - bits)

/-- `gfc_sha1_reset`; the block keeps its bytes. -/
def gfcSha1Reset (context : SHA1Context) : SHA1Context :=
  { context with
    lengthLow := 0
    lengthHigh := 0
    messageBlockIndex := 0
    intermediateHash := #v[0x67452301, 0xEFCDAB89, 0x98BADCFE, 0x10325476, 0xC3D2E1F0]
    computed := 0
    corrupted := 0 }

/-- The word at `t` in the first loop of `SHA1ProcessMessageBlock`. -/
def blockWord (messageBlock : Vector UInt8 64) (t : Nat) : UInt32 :=
  (messageBlock.getD (t * 4) 0).toUInt32 <<< 24 |||
    (messageBlock.getD (t * 4 + 1) 0).toUInt32 <<< 16 |||
    (messageBlock.getD (t * 4 + 2) 0).toUInt32 <<< 8 |||
    (messageBlock.getD (t * 4 + 3) 0).toUInt32

/-- The second loop, at `t`. -/
def extendWords (w : List UInt32) (t : Nat) : List UInt32 :=
  w ++ [sha1CircularShift 1
    (w.getD (t - 3) 0 ^^^ w.getD (t - 8) 0 ^^^ w.getD (t - 14) 0 ^^^ w.getD (t - 16) 0)]

/-- `W` after both loops. -/
def blockWords (messageBlock : Vector UInt8 64) : List UInt32 :=
  (List.range' 16 64).foldl extendWords ((List.range 16).map (blockWord messageBlock))

/-- The word buffers `A` to `E`. -/
structure Buffers where
  a : UInt32
  b : UInt32
  c : UInt32
  d : UInt32
  e : UInt32

/-- The body of one of the four loops of rounds, at `t`. -/
def sha1Round (f : UInt32 → UInt32 → UInt32 → UInt32) (k : UInt32) (w : List UInt32)
    (s : Buffers) (t : Nat) : Buffers :=
  let temp := sha1CircularShift 5 s.a + f s.b s.c s.d + s.e + w.getD t 0 + k
  { a := temp, b := s.a, c := sha1CircularShift 30 s.b, d := s.c, e := s.d }

def SHA1Context.buffers (context : SHA1Context) : Buffers :=
  let h := context.intermediateHash
  { a := h[0], b := h[1], c := h[2], d := h[3], e := h[4] }

def sha1ProcessMessageBlock (context : SHA1Context) : SHA1Context :=
  let w := blockWords context.messageBlock
  let h := context.buffers
  let s := (List.range' 0 20).foldl
    (sha1Round (fun b c d => (b &&& c) ||| (~~~b &&& d)) 0x5A827999 w) h
  let s := (List.range' 20 20).foldl (sha1Round (fun b c d => b ^^^ c ^^^ d) 0x6ED9EBA1 w) s
  let s := (List.range' 40 20).foldl
    (sha1Round (fun b c d => (b &&& c) ||| (b &&& d) ||| (c &&& d)) 0x8F1BBCDC w) s
  let s := (List.range' 60 20).foldl (sha1Round (fun b c d => b ^^^ c ^^^ d) 0xCA62C1D6 w) s
  { context with
    intermediateHash := #v[h.a + s.a, h.b + s.b, h.c + s.c, h.d + s.d, h.e + s.e]
    messageBlockIndex := 0 }

/-- `message_block[message_block_index++] = byte`. -/
def putByte (context : SHA1Context) (byte : UInt8) : SHA1Context :=
  { context with
    messageBlock := context.messageBlock.setIfInBounds context.messageBlockIndex byte
    messageBlockIndex := context.messageBlockIndex + 1 }

/-- The loops that write zeros while the index is less than `stop`. -/
def putZeros (context : SHA1Context) (stop : Nat) : SHA1Context :=
  (List.range (stop - context.messageBlockIndex)).foldl (fun context _ => putByte context 0) context

/-- The length as the last 8 bytes. -/
def putLength (context : SHA1Context) : SHA1Context :=
  let high := context.lengthHigh
  let low := context.lengthLow
  let block := context.messageBlock.setIfInBounds 56 (high >>> 24).toUInt8
  let block := block.setIfInBounds 57 (high >>> 16).toUInt8
  let block := block.setIfInBounds 58 (high >>> 8).toUInt8
  let block := block.setIfInBounds 59 high.toUInt8
  let block := block.setIfInBounds 60 (low >>> 24).toUInt8
  let block := block.setIfInBounds 61 (low >>> 16).toUInt8
  let block := block.setIfInBounds 62 (low >>> 8).toUInt8
  let block := block.setIfInBounds 63 low.toUInt8
  { context with messageBlock := block }

def sha1PadMessage (context : SHA1Context) : SHA1Context :=
  let padded :=
    if context.messageBlockIndex > 55 then
      putZeros (sha1ProcessMessageBlock (putZeros (putByte context 0x80) 64)) 56
    else putZeros (putByte context 0x80) 56
  sha1ProcessMessageBlock (putLength padded)

/-- One more byte in the length of the message. -/
def countByte (context : SHA1Context) : SHA1Context :=
  let lengthLow := context.lengthLow + 8
  let lengthHigh := if lengthLow = 0 then context.lengthHigh + 1 else context.lengthHigh
  { context with
    lengthLow := lengthLow
    lengthHigh := lengthHigh
    corrupted := if lengthLow = 0 ∧ lengthHigh = 0 then 1 else context.corrupted }

/-- The body of the loop of `SHA1Input`. -/
def inputByte (context : SHA1Context) (byte : UInt8) : SHA1Context :=
  let context := countByte (putByte context byte)
  if context.messageBlockIndex = 64 then sha1ProcessMessageBlock context else context

/-- The loop of `SHA1Input`. -/
def inputBytes : SHA1Context → List UInt8 → SHA1Context
  | context, [] => context
  | context, byte :: messageArray =>
    if context.corrupted ≠ 0 then context else inputBytes (inputByte context byte) messageArray

/-- `SHA1Input`, with pointers that are not null. -/
def sha1Input (context : SHA1Context) (messageArray : List UInt8) : Nat × SHA1Context :=
  if messageArray = [] then (shaSuccess, context)
  else if context.computed ≠ 0 then
    (shaStateError, { context with corrupted := shaStateError })
  else if context.corrupted ≠ 0 then (context.corrupted, context)
  else (shaSuccess, inputBytes context messageArray)

/-- What `gfc_sha1_result` does the first time. -/
def sha1Finish (context : SHA1Context) : SHA1Context :=
  if context.computed = 0 then
    { sha1PadMessage context with
      messageBlock := .replicate 64 0
      lengthLow := 0
      lengthHigh := 0
      computed := 1 }
  else context

def messageDigest (context : SHA1Context) : List UInt8 :=
  (List.range 20).map fun i =>
    (context.intermediateHash.getD (i >>> 2) 0 >>> UInt32.ofNat (8 * (3 - (i &&& 3)))).toUInt8

/-- `gfc_sha1_result`, with pointers that are not null; the digest is written with success only. -/
def gfcSha1Result (context : SHA1Context) : (Nat × List UInt8) × SHA1Context :=
  if context.corrupted ≠ 0 then ((context.corrupted, []), context)
  else ((shaSuccess, messageDigest (sha1Finish context)), sha1Finish context)

/-- The calls a caller can make of a context. -/
inductive Sha1Call where
  | reset
  | input (messageArray : List UInt8)
  | result

/-- The code that the call returns and the digest it writes. -/
def SHA1Context.call (context : SHA1Context) : Sha1Call → (Nat × List UInt8) × SHA1Context
  | .reset => ((shaSuccess, []), gfcSha1Reset context)
  | .input messageArray =>
    let (code, context) := sha1Input context messageArray
    ((code, []), context)
  | .result => gfcSha1Result context

def SHA1Context.calls (context : SHA1Context) : List Sha1Call → List (Nat × List UInt8)
  | [] => []
  | call :: rest => (context.call call).1 :: (context.call call).2.calls rest

end Guardwatch.GfcSha1
