import Guardwatch.Gfc.Sha1
import Mathlib.Data.List.GetD
import Mathlib.Tactic.IntervalCases

/-! The contexts of `gfc_sha1.c` against SHA-1: however a message is cut into inputs, its digest is
the SHA-1 of the whole message, and a context never gives a digest of anything else. -/

namespace Guardwatch.GfcSha1

open BlockHash

/-! ### The block function -/

theorem take_four {items : List UInt8} {i : Nat} (lt : i + 3 < items.length) :
    (items.drop i).take 4 =
      [items.getD i 0, items.getD (i + 1) 0, items.getD (i + 2) 0, items.getD (i + 3) 0] := by
  have at0 : i < items.length := by omega
  have at1 : i + 1 < items.length := by omega
  have at2 : i + 2 < items.length := by omega
  rw [List.drop_eq_getElem_cons at0, List.drop_eq_getElem_cons at1, List.drop_eq_getElem_cons at2,
    List.drop_eq_getElem_cons lt]
  rw [List.getD_eq_getElem _ _ at0, List.getD_eq_getElem _ _ at1, List.getD_eq_getElem _ _ at2,
    List.getD_eq_getElem _ _ lt]
  rfl

theorem getD_toList {n : Nat} (block : Vector UInt8 n) (i : Nat) :
    block.getD i 0 = block.toList.getD i 0 := by
  show block.toArray.getD i 0 = block.toArray.toList.getD i 0
  rw [Array.getD_eq_getD_getElem?, List.getD_eq_getElem?_getD, Array.getElem?_toList]

theorem blockWord_eq (block : Vector UInt8 64) {t : Nat} (lt : t < 16) :
    blockWord block t = Sha1.word block.toList t := by
  have inside : t * 4 + 3 < block.toList.length := by
    rw [Vector.length_toList]
    omega
  rw [blockWord, BigEndian.ofNat_four, Sha1.word.eq_def, if_pos lt, Nat.mul_comm 4,
    take_four inside]
  simp only [getD_toList]

theorem extendWords_eq (block : List UInt8) (n : Nat) :
    (List.range' 16 n).foldl extendWords ((List.range 16).map (Sha1.word block)) =
      (List.range (16 + n)).map (Sha1.word block) := by
  induction n with
  | zero => rfl
  | succ n ih =>
    have get (k : Nat) (pos : 0 < k) :
        ((List.range (16 + n)).map (Sha1.word block)).getD (16 + n - k) 0 =
          Sha1.word block (16 + n - k) := by
      rw [List.getD_eq_getElem _ _ (by rw [List.length_map, List.length_range]; omega),
        List.getElem_map, List.getElem_range]
    rw [List.range'_concat, List.foldl_append, ih, Nat.one_mul, List.foldl_cons,
      List.foldl_nil, extendWords, get 3 (by decide), get 8 (by decide), get 14 (by decide),
      get 16 (by decide), ← Nat.add_assoc, List.range_succ, List.map_append]
    congr 1
    rw [List.map_singleton, Sha1.word.eq_def block (16 + n), if_neg (by omega)]
    rfl

theorem blockWords_eq (block : Vector UInt8 64) :
    blockWords block = (List.range 80).map (Sha1.word block.toList) := by
  have first : (List.range 16).map (blockWord block) =
      (List.range 16).map (Sha1.word block.toList) :=
    List.map_congr_left fun t mem => blockWord_eq block (List.mem_range.mp mem)
  rw [blockWords, first]
  exact extendWords_eq block.toList 64

def Buffers.words (s : Buffers) : Sha1.Words := ⟨s.a, s.b, s.c, s.d, s.e⟩

/-- One loop of rounds, with what SHA-1 uses at every round of it. -/
theorem rounds_eq {f : UInt32 → UInt32 → UInt32 → UInt32} {k : UInt32} (block : List UInt8)
    {rounds : List Nat} (same : ∀ t ∈ rounds, t < 80 ∧ Sha1.logical t = f ∧ Sha1.constant t = k)
    (s : Buffers) :
    (rounds.foldl (sha1Round f k ((List.range 80).map (Sha1.word block))) s).words =
      rounds.foldl (fun s t => s.step (Sha1.logical t) (Sha1.constant t) (Sha1.word block t))
        s.words := by
  induction rounds generalizing s with
  | nil => rfl
  | cons t rounds ih =>
    obtain ⟨lt, logical, constant⟩ := same t List.mem_cons_self
    have get : ((List.range 80).map (Sha1.word block)).getD t 0 = Sha1.word block t := by
      rw [List.getD_eq_getElem _ _ (by rwa [List.length_map, List.length_range]), List.getElem_map,
        List.getElem_range]
    have round : (sha1Round f k ((List.range 80).map (Sha1.word block)) s t).words =
        s.words.step (Sha1.logical t) (Sha1.constant t) (Sha1.word block t) := by
      rw [logical, constant, ← get]
      rfl
    rw [List.foldl_cons, List.foldl_cons, ← round]
    exact ih (fun t mem => same t (List.mem_cons_of_mem _ mem)) _

def SHA1Context.words (context : SHA1Context) : Sha1.Words := context.buffers.words

theorem processed_words (context : SHA1Context) :
    (sha1ProcessMessageBlock context).words =
      Sha1.compress context.words context.messageBlock.toList := by
  let block := context.messageBlock.toList
  let step (s : Sha1.Words) (t : Nat) : Sha1.Words :=
    s.step (Sha1.logical t) (Sha1.constant t) (Sha1.word block t)
  have loop (f : UInt32 → UInt32 → UInt32 → UInt32) (k : UInt32) (start : Nat) (s : Buffers)
      (inside : start ≤ 60)
      (same : ∀ t, start ≤ t → t < start + 20 → Sha1.logical t = f ∧ Sha1.constant t = k) :
      ((List.range' start 20).foldl (sha1Round f k (blockWords context.messageBlock)) s).words =
        (List.range' start 20).foldl step s.words := by
    rw [blockWords_eq]
    refine rounds_eq block (fun t mem => ?_) s
    rw [List.mem_range'_1] at mem
    exact ⟨by omega, same t mem.1 mem.2⟩
  have split : List.range 80 =
      List.range' 0 20 ++ List.range' 20 20 ++ List.range' 40 20 ++ List.range' 60 20 := rfl
  have rounds : Sha1.compress context.words block =
      context.words.add ((List.range 80).foldl step context.words) := rfl
  rw [rounds, split, List.foldl_append, List.foldl_append, List.foldl_append]
  let s := context.buffers
  have start : context.words = s.words := rfl
  have loop0 := loop Sha1.choose 0x5A827999 0 s (by decide) fun t _ lt => ⟨if_pos lt, if_pos lt⟩
  have loop1 (s : Buffers) := loop Sha1.parity 0x6ED9EBA1 20 s (by decide) fun t ge lt =>
    ⟨(if_neg (by omega)).trans (if_pos lt), (if_neg (by omega)).trans (if_pos lt)⟩
  have loop2 (s : Buffers) := loop Sha1.majority 0x8F1BBCDC 40 s (by decide) fun t ge lt =>
    ⟨(if_neg (by omega)).trans ((if_neg (by omega)).trans (if_pos lt)),
      (if_neg (by omega)).trans ((if_neg (by omega)).trans (if_pos lt))⟩
  have loop3 (s : Buffers) := loop Sha1.parity 0xCA62C1D6 60 s (by decide) fun t ge lt =>
    ⟨(if_neg (by omega)).trans ((if_neg (by omega)).trans (if_neg (by omega))),
      (if_neg (by omega)).trans ((if_neg (by omega)).trans (if_neg (by omega)))⟩
  rw [start, ← loop0, ← loop1, ← loop2, ← loop3]
  rfl

/-! ### The buffer -/

/-- The bytes of the block that is not full yet. -/
def SHA1Context.filled (context : SHA1Context) : List UInt8 :=
  context.messageBlock.toList.take context.messageBlockIndex

def SHA1Context.absorbed (context : SHA1Context) : Sha1.Words × List UInt8 :=
  (context.words, context.filled)

theorem filled_length {context : SHA1Context} (le : context.messageBlockIndex ≤ 64) :
    context.filled.length = context.messageBlockIndex := by
  rw [SHA1Context.filled, List.length_take, Vector.length_toList, Nat.min_eq_left le]

theorem filled_putByte {context : SHA1Context} (lt : context.messageBlockIndex < 64)
    (byte : UInt8) : (putByte context byte).filled = context.filled ++ [byte] := by
  have inside : context.messageBlockIndex < context.messageBlock.toList.length := by
    rwa [Vector.length_toList]
  have next : context.filled.length + 1 = (putByte context byte).messageBlockIndex :=
    congrArg (· + 1) (filled_length lt.le)
  have block : (putByte context byte).messageBlock.toList =
      context.messageBlock.toList.set context.messageBlockIndex byte := by
    rw [putByte, Vector.toList_setIfInBounds]
  rw [SHA1Context.filled, block, List.set_eq_take_append_cons_drop, if_pos inside, ← next,
    ← List.singleton_append, ← List.append_assoc]
  exact List.take_left' (by rw [List.length_append]; rfl)

def putBytes (context : SHA1Context) (bytes : List UInt8) : SHA1Context :=
  bytes.foldl putByte context

/-- What fits in the block is put behind what it holds. -/
theorem filled_putBytes {context : SHA1Context} {bytes : List UInt8}
    (fits : context.messageBlockIndex + bytes.length ≤ 64) :
    (putBytes context bytes).filled = context.filled ++ bytes ∧
      (putBytes context bytes).messageBlockIndex = context.messageBlockIndex + bytes.length ∧
      (putBytes context bytes).words = context.words := by
  induction bytes generalizing context with
  | nil => exact ⟨(List.append_nil _).symm, rfl, rfl⟩
  | cons byte bytes ih =>
    rw [List.length_cons] at fits
    have next : (putByte context byte).messageBlockIndex = context.messageBlockIndex + 1 := rfl
    have fits_next : (putByte context byte).messageBlockIndex + bytes.length ≤ 64 := by omega
    obtain ⟨filled, index, words⟩ := ih fits_next
    refine ⟨filled.trans ?_, index.trans ?_, words⟩
    · rw [filled_putByte (by omega), List.append_assoc, List.singleton_append]
    · rw [next, List.length_cons]
      omega

theorem absorbed_short {context : SHA1Context} {bytes : List UInt8}
    (short : context.messageBlockIndex + bytes.length < 64) :
    (putBytes context bytes).absorbed = feedAll 64 Sha1.compress context.absorbed bytes := by
  obtain ⟨filled, -, words⟩ := filled_putBytes short.le
  have length : context.filled.length = context.messageBlockIndex := filled_length (by omega)
  rw [SHA1Context.absorbed, filled, words]
  exact (feedAll_short (by omega)).symm

theorem processed_index (context : SHA1Context) :
    (sha1ProcessMessageBlock context).messageBlockIndex = 0 := rfl

theorem processed_corrupted (context : SHA1Context) :
    (sha1ProcessMessageBlock context).corrupted = context.corrupted := rfl

theorem processed_absorbed {context : SHA1Context} (full : context.messageBlockIndex = 64) :
    (sha1ProcessMessageBlock context).absorbed =
      (Sha1.compress context.words context.filled, []) := by
  have whole : context.filled = context.messageBlock.toList := by
    rw [SHA1Context.filled, full]
    exact List.take_of_length_le Vector.length_toList.le
  rw [SHA1Context.absorbed, processed_words, whole]
  rfl

theorem absorbed_full {context : SHA1Context} {bytes : List UInt8} (ne : bytes ≠ [])
    (full : context.messageBlockIndex + bytes.length = 64) :
    (sha1ProcessMessageBlock (putBytes context bytes)).absorbed =
      feedAll 64 Sha1.compress context.absorbed bytes := by
  obtain ⟨filled, index, words⟩ := filled_putBytes full.le
  have length : context.filled.length = context.messageBlockIndex := filled_length (by omega)
  rw [processed_absorbed (index.trans full), filled, words]
  exact (feedAll_full ne (by omega)).symm

theorem putZeros_eq (context : SHA1Context) (stop : Nat) :
    putZeros context stop =
      putBytes context (List.replicate (stop - context.messageBlockIndex) 0) := by
  have zeros (n : Nat) : List.replicate n (0 : UInt8) = (List.range n).map fun _ => 0 := by
    rw [List.map_const', List.length_range]
  rw [putZeros, putBytes, zeros, List.foldl_map]

/-! ### The padding -/

/-- The length of the message in bits. -/
def SHA1Context.bits (context : SHA1Context) : Nat :=
  context.lengthHigh.toNat * 2 ^ 32 + context.lengthLow.toNat

theorem bits_lt (context : SHA1Context) : context.bits < 2 ^ 64 := by
  have high := context.lengthHigh.toNat_lt
  have low := context.lengthLow.toNat_lt
  rw [SHA1Context.bits]
  omega

theorem toUInt8_shiftRight (word : UInt32) {k : Nat} (lt : k < 4) :
    (word >>> UInt32.ofNat (8 * k)).toUInt8 = UInt8.ofNat (word.toNat / 256 ^ k) := by
  have amount : (UInt32.ofNat (8 * k)).toNat % 32 = 8 * k := by
    rw [UInt32.toNat_ofNat']
    omega
  apply UInt8.toNat_inj.mp
  rw [UInt32.toNat_toUInt8, UInt32.toNat_shiftRight, amount, Nat.shiftRight_eq_div_pow, Nat.pow_mul,
    UInt8.toNat_ofNat']

/-- The last 8 bytes, behind a block that is filled up to them. -/
theorem putLength_eq {context : SHA1Context} (index : context.messageBlockIndex = 56) :
    sha1ProcessMessageBlock (putLength context) =
      sha1ProcessMessageBlock (putBytes context (BigEndian.digits 8 context.bits)) := by
  have low := context.lengthLow.toNat_lt
  have highByte (k : Nat) (lt : k < 4) : UInt8.ofNat (context.bits / 256 ^ (k + 4)) =
      (context.lengthHigh >>> UInt32.ofNat (8 * k)).toUInt8 := by
    have above : context.bits / 2 ^ 32 = context.lengthHigh.toNat := by
      rw [SHA1Context.bits]
      omega
    have four : 256 ^ 4 = 2 ^ 32 := rfl
    rw [toUInt8_shiftRight _ lt, ← above, Nat.div_div_eq_div_mul, Nat.pow_add,
      Nat.mul_comm (256 ^ k), four]
  have lowByte (k : Nat) (lt : k < 4) : UInt8.ofNat (context.bits / 256 ^ k) =
      (context.lengthLow >>> UInt32.ofNat (8 * k)).toUInt8 := by
    rw [toUInt8_shiftRight _ lt, SHA1Context.bits]
    apply UInt8.toNat_inj.mp
    rw [UInt8.toNat_ofNat', UInt8.toNat_ofNat']
    interval_cases k <;> omega
  have last (word : UInt32) : (word >>> UInt32.ofNat (8 * 0)).toUInt8 = word.toUInt8 := by
    rw [toUInt8_shiftRight word (by decide), Nat.pow_zero, Nat.div_one]
    rfl
  have digits : BigEndian.digits 8 context.bits =
      [(context.lengthHigh >>> 24).toUInt8, (context.lengthHigh >>> 16).toUInt8,
        (context.lengthHigh >>> 8).toUInt8, context.lengthHigh.toUInt8,
        (context.lengthLow >>> 24).toUInt8, (context.lengthLow >>> 16).toUInt8,
        (context.lengthLow >>> 8).toUInt8, context.lengthLow.toUInt8] := by
    simp only [BigEndian.digits]
    rw [highByte 3 (by decide), highByte 2 (by decide), highByte 1 (by decide),
      highByte 0 (by decide), lowByte 3 (by decide), lowByte 2 (by decide), lowByte 1 (by decide),
      lowByte 0 (by decide), last, last]
    rfl
  have put : putBytes context (BigEndian.digits 8 context.bits) =
      { putLength context with messageBlockIndex := 64 } := by
    rw [digits]
    simp only [putBytes, List.foldl_cons, List.foldl_nil, putByte, putLength, index,
      Nat.reduceAdd]
  have idle (c : SHA1Context) (i : Nat) :
      sha1ProcessMessageBlock { c with messageBlockIndex := i } = sha1ProcessMessageBlock c := rfl
  rw [put]
  exact (idle (putLength context) 64).symm

theorem putBytes_frame (context : SHA1Context) (bytes : List UInt8) :
    (putBytes context bytes).bits = context.bits ∧
      (putBytes context bytes).corrupted = context.corrupted := by
  induction bytes generalizing context with
  | nil => exact ⟨rfl, rfl⟩
  | cons byte bytes ih => exact ih (putByte context byte)

/-- The bytes up to the length, and the length. -/
theorem ended_absorbed {context : SHA1Context} {front : List UInt8}
    (index : context.messageBlockIndex + front.length = 56) :
    (sha1ProcessMessageBlock (putLength (putBytes context front))).absorbed =
      feedAll 64 Sha1.compress context.absorbed (front ++ BigEndian.digits 8 context.bits) := by
  have length := Sha1.length_digits 8 context.bits
  have filled : (putBytes context front).messageBlockIndex =
      context.messageBlockIndex + front.length := (filled_putBytes (by omega)).2.1
  have join : putBytes (putBytes context front) (BigEndian.digits 8 context.bits) =
      putBytes context (front ++ BigEndian.digits 8 context.bits) := List.foldl_append.symm
  rw [putLength_eq (by omega), (putBytes_frame context front).1, join]
  refine absorbed_full (List.ne_nil_of_length_pos ?_) ?_ <;>
    rw [List.length_append] <;> omega

theorem padded_corrupted (context : SHA1Context) :
    (sha1PadMessage context).corrupted = context.corrupted := by
  have put (c : SHA1Context) : (putLength c).corrupted = c.corrupted := by
    simp only [putLength]
  have byte : (putByte context 0x80).corrupted = context.corrupted := rfl
  rw [sha1PadMessage, processed_corrupted, put]
  split
  · rw [putZeros_eq, (putBytes_frame _ _).2, processed_corrupted, putZeros_eq,
      (putBytes_frame _ _).2, byte]
  · rw [putZeros_eq, (putBytes_frame _ _).2, byte]

/-- The padding is fed like bytes of the message. -/
theorem padded_absorbed {context : SHA1Context} {length : Nat}
    (index : context.messageBlockIndex = length % 64) (bits : context.bits = 8 * length) :
    (sha1PadMessage context).absorbed =
      feedAll 64 Sha1.compress context.absorbed (Sha1.padding length) := by
  have put (zeros : Nat) : putBytes (putByte context 0x80) (.replicate zeros 0) =
      putBytes context (0x80 :: .replicate zeros 0) := rfl
  have next : (putByte context 0x80).messageBlockIndex = context.messageBlockIndex + 1 := rfl
  rw [sha1PadMessage, Sha1.padding, ← bits]
  split
  next long =>
    let first := sha1ProcessMessageBlock
      (putBytes context (0x80 :: .replicate (63 - context.messageBlockIndex) 0))
    have split : (119 - length % 64) % 64 = 63 - context.messageBlockIndex + 56 := by omega
    have first_absorbed : first.absorbed = feedAll 64 Sha1.compress context.absorbed
        (0x80 :: .replicate (63 - context.messageBlockIndex) 0) :=
      absorbed_full (List.cons_ne_nil _ _) (by
        rw [List.length_cons, List.length_replicate]
        omega)
    have first_bits : first.bits = context.bits := (putBytes_frame context _).1
    have first_index : first.messageBlockIndex = 0 := rfl
    have zeros : 64 - (context.messageBlockIndex + 1) = 63 - context.messageBlockIndex := by omega
    rw [putZeros_eq (putByte context 0x80), next, zeros, put, putZeros_eq, first_index,
      ended_absorbed (by rw [first_index, List.length_replicate]), first_absorbed, first_bits,
      ← feedAll_append, split, List.replicate_add]
    simp only [List.cons_append, List.append_assoc]
  next short =>
    have zeros : (119 - length % 64) % 64 = 56 - (context.messageBlockIndex + 1) := by omega
    rw [putZeros_eq, next, put, ended_absorbed, zeros]
    · rfl
    · rw [List.length_cons, List.length_replicate]
      omega

/-! ### The contexts -/

/-- The length is counted as long as it fits in 64 bits. -/
theorem countByte_fits {context : SHA1Context} {bytes : Nat} (bits : context.bits = 8 * bytes)
    (fits : bytes + 1 < 2 ^ 61) :
    (countByte context).bits = 8 * (bytes + 1) ∧
      (countByte context).corrupted = context.corrupted := by
  have high := context.lengthHigh.toNat_lt
  have low := context.lengthLow.toNat_lt
  have nextLow : (context.lengthLow + 8).toNat = (context.lengthLow.toNat + 8) % 2 ^ 32 :=
    UInt32.toNat_add ..
  have nextHigh : (context.lengthHigh + 1).toNat = (context.lengthHigh.toNat + 1) % 2 ^ 32 :=
    UInt32.toNat_add ..
  rw [SHA1Context.bits] at bits
  by_cases carry : context.lengthLow + 8 = 0
  · have low_zero : (context.lengthLow.toNat + 8) % 2 ^ 32 = 0 := nextLow ▸ congrArg _ carry
    have carried : (context.lengthHigh.toNat + 1) * 2 ^ 32 = 8 * (bytes + 1) := by omega
    have below : context.lengthHigh.toNat + 1 < 2 ^ 32 := by omega
    rw [Nat.mod_eq_of_lt below] at nextHigh
    have high_ne : context.lengthHigh + 1 ≠ 0 := fun eq => by
      have high_zero : context.lengthHigh.toNat + 1 = 0 := nextHigh ▸ congrArg _ eq
      cases high_zero
    have counted : countByte context =
        { context with lengthLow := 0, lengthHigh := context.lengthHigh + 1 } := by
      simp only [countByte, carry, if_true, high_ne, and_false, if_false]
    rw [counted]
    refine ⟨?_, rfl⟩
    simp only [SHA1Context.bits, nextHigh, UInt32.toNat_zero, Nat.add_zero]
    exact carried
  · have low_ne : (context.lengthLow.toNat + 8) % 2 ^ 32 ≠ 0 := fun eq =>
      carry (UInt32.toNat_inj.mp (nextLow.trans eq))
    have counted : countByte context = { context with lengthLow := context.lengthLow + 8 } := by
      simp only [countByte, carry, if_false, false_and]
    rw [counted]
    refine ⟨?_, rfl⟩
    simp only [SHA1Context.bits, nextLow]
    omega

theorem countByte_full {context : SHA1Context} {bytes : Nat} (bits : context.bits = 8 * bytes)
    (full : ¬ bytes + 1 < 2 ^ 61) : (countByte context).corrupted = shaNull := by
  have most := bits_lt context
  have low := context.lengthLow.toNat_lt
  have high := context.lengthHigh.toNat_lt
  have nextLow : (context.lengthLow + 8).toNat = (context.lengthLow.toNat + 8) % 2 ^ 32 :=
    UInt32.toNat_add ..
  have nextHigh : (context.lengthHigh + 1).toNat = (context.lengthHigh.toNat + 1) % 2 ^ 32 :=
    UInt32.toNat_add ..
  rw [SHA1Context.bits] at bits most
  have low_zero : context.lengthLow + 8 = 0 := UInt32.toNat_inj.mp (nextLow.trans (by
    show _ = 0
    omega))
  have high_zero : context.lengthHigh + 1 = 0 := UInt32.toNat_inj.mp (nextHigh.trans (by
    show _ = 0
    omega))
  simp only [countByte, low_zero, high_zero, if_true, and_self]
  rfl

/-- The context after the bytes of a message. -/
structure Taking (message : List UInt8) (context : SHA1Context) : Prop where
  absorbed : context.absorbed = feedAll 64 Sha1.compress (Sha1.initial, []) message
  index : context.messageBlockIndex < 64
  bits : context.bits = 8 * message.length
  computed : context.computed = 0
  corrupted : context.corrupted = 0

/-- A context that has a digest. -/
structure Computed (message : List UInt8) (context : SHA1Context) : Prop where
  words : context.words.bytes = Sha1.sha1 message
  computed : context.computed ≠ 0
  corrupted : context.corrupted = 0

/-- A context that gives nothing but its error. -/
structure Spoiled (code : Nat) (context : SHA1Context) : Prop where
  corrupted : context.corrupted = code
  error : code ≠ 0
  computed : context.computed ≠ 0 → code = shaStateError

/-- The length and the error after a byte are the counted ones. -/
theorem inputByte_counts (context : SHA1Context) (byte : UInt8) :
    (inputByte context byte).bits = (countByte (putByte context byte)).bits ∧
      (inputByte context byte).corrupted = (countByte (putByte context byte)).corrupted := by
  rw [inputByte]
  split <;> exact ⟨rfl, rfl⟩

section Input

variable {message : List UInt8} {context : SHA1Context} (taking : Taking message context)
include taking

theorem inputByte_frame (byte : UInt8) :
    (inputByte context byte).absorbed =
        feedAll 64 Sha1.compress (Sha1.initial, []) (message ++ [byte]) ∧
      (inputByte context byte).messageBlockIndex < 64 ∧
      (inputByte context byte).computed = 0 := by
  have lt := taking.index
  rw [feedAll_append, ← taking.absorbed, inputByte]
  split
  next full =>
    have put_full : (putBytes context [byte]).messageBlockIndex = 64 := full
    have fed := absorbed_full (List.cons_ne_nil byte []) full
    rw [processed_absorbed put_full] at fed
    refine ⟨(processed_absorbed full).trans fed, ?_, taking.computed⟩
    rw [processed_index]
    decide
  next short =>
    have inside : context.messageBlockIndex + [byte].length < 64 := Nat.lt_of_le_of_ne lt short
    exact ⟨absorbed_short inside, inside, taking.computed⟩

theorem inputByte_taking (byte : UInt8) (fits : message.length + 1 < 2 ^ 61) :
    Taking (message ++ [byte]) (inputByte context byte) := by
  obtain ⟨absorbed, index, computed⟩ := inputByte_frame taking byte
  obtain ⟨bits, corrupted⟩ := inputByte_counts context byte
  have put_bits : (putByte context byte).bits = 8 * message.length := taking.bits
  obtain ⟨counted, kept⟩ := countByte_fits put_bits fits
  refine ⟨absorbed, index, bits.trans ?_, computed, (corrupted.trans kept).trans taking.corrupted⟩
  rw [counted, List.length_append, List.length_singleton]

theorem inputByte_spoiled (byte : UInt8) (full : ¬ message.length + 1 < 2 ^ 61) :
    Spoiled shaNull (inputByte context byte) := by
  have put_bits : (putByte context byte).bits = 8 * message.length := taking.bits
  have corrupted := (inputByte_counts context byte).2.trans (countByte_full put_bits full)
  exact ⟨corrupted, by decide, fun ne => (ne (inputByte_frame taking byte).2.2).elim⟩

theorem inputBytes_taking (bytes : List UInt8) (fits : (message ++ bytes).length < 2 ^ 61) :
    Taking (message ++ bytes) (inputBytes context bytes) := by
  induction bytes generalizing message context with
  | nil => rwa [List.append_nil]
  | cons byte bytes ih =>
    have first : message.length + 1 < 2 ^ 61 := by
      rw [List.length_append, List.length_cons] at fits
      omega
    rw [List.append_cons] at fits ⊢
    rw [inputBytes, if_neg (not_not.mpr taking.corrupted)]
    exact ih (inputByte_taking taking byte first) fits

theorem inputBytes_spoiled (bytes : List UInt8) (full : ¬ (message ++ bytes).length < 2 ^ 61) :
    Spoiled shaNull (inputBytes context bytes) := by
  induction bytes generalizing message context with
  | nil =>
    have bits := taking.bits
    have most := bits_lt context
    rw [List.append_nil] at full
    omega
  | cons byte bytes ih =>
    rw [List.append_cons] at full
    rw [inputBytes, if_neg (not_not.mpr taking.corrupted)]
    by_cases first : message.length + 1 < 2 ^ 61
    · exact ih (inputByte_taking taking byte first) full
    · have spoiled := inputByte_spoiled taking byte first
      cases bytes with
      | nil => exact spoiled
      | cons next bytes => rwa [inputBytes, if_pos (spoiled.corrupted ▸ spoiled.error)]

end Input

/-- What `SHA1PadMessage` leaves is the SHA-1 of the message. -/
theorem padded_words {message : List UInt8} {context : SHA1Context}
    (taking : Taking message context) :
    (sha1PadMessage context).words.bytes = Sha1.sha1 message := by
  have fed : feedAll 64 Sha1.compress (Sha1.initial, []) message = _ :=
    feedAll_blocks (by decide) Sha1.initial message
  have filled : context.filled = message.drop (message.length / 64 * 64) :=
    congrArg Prod.snd (taking.absorbed.trans fed)
  have index : context.messageBlockIndex = message.length % 64 := by
    rw [← filled_length taking.index.le, filled, List.length_drop]
    omega
  have whole : feedAll 64 Sha1.compress (Sha1.initial, [])
      (message ++ Sha1.padding message.length) = _ :=
    feedAll_whole (by decide) (Sha1.padding_whole message) Sha1.initial
  have words : (sha1PadMessage context).words =
      (blocks 64 (message ++ Sha1.padding message.length)).foldl Sha1.compress Sha1.initial := by
    show (sha1PadMessage context).absorbed.1 = _
    rw [padded_absorbed index taking.bits, taking.absorbed, ← feedAll_append, whole]
  rw [words, Sha1.sha1]

theorem finished {context : SHA1Context} (computed : context.computed = 0) :
    (sha1Finish context).words = (sha1PadMessage context).words ∧
      (sha1Finish context).corrupted = context.corrupted ∧ (sha1Finish context).computed ≠ 0 := by
  rw [← padded_corrupted context]
  simp only [sha1Finish, if_pos computed, SHA1Context.words, SHA1Context.buffers]
  exact ⟨trivial, trivial, Nat.one_ne_zero⟩

theorem messageDigest_eq (context : SHA1Context) : messageDigest context = context.words.bytes := by
  let h := context.intermediateHash
  have byte (word : UInt32) (j k : Nat) (lt : k < 4) (same : h.getD j 0 = word) :
      (h.getD ((4 * j + k) >>> 2) 0 >>> UInt32.ofNat (8 * (3 - ((4 * j + k) &&& 3)))).toUInt8 =
        UInt8.ofNat (word.toNat / 256 ^ (3 - k)) := by
    have index : (4 * j + k) >>> 2 = j := by
      rw [Nat.shiftRight_eq_div_pow]
      omega
    have place : (4 * j + k) &&& 3 = k := by
      rw [Nat.and_two_pow_sub_one_eq_mod _ 2]
      omega
    rw [index, place, same, toUInt8_shiftRight _ (by omega)]
  have word (j : Nat) (value : UInt32) (same : h.getD j 0 = value) :
      ([4 * j, 4 * j + 1, 4 * j + 2, 4 * j + 3].map fun i =>
        (h.getD (i >>> 2) 0 >>> UInt32.ofNat (8 * (3 - (i &&& 3)))).toUInt8) =
          BigEndian.digits 4 value.toNat := by
    simp only [List.map_cons, List.map_nil, BigEndian.digits]
    rw [byte value j 1 (by decide) same, byte value j 2 (by decide) same,
      byte value j 3 (by decide) same]
    exact congrArg (· :: _) (byte value j 0 (by decide) same)
  have indices : List.range 20 =
      [0, 1, 2, 3, 4].flatMap fun j => [4 * j, 4 * j + 1, 4 * j + 2, 4 * j + 3] := rfl
  rw [messageDigest, indices, List.map_flatMap]
  simp only [List.flatMap_cons, List.flatMap_nil, Sha1.Words.bytes]
  have get (j : Nat) (lt : j < 5) : h.getD j 0 = h[j] := (Array.getElem_eq_getD 0).symm
  rw [word 0 h[0] (get 0 _), word 1 h[1] (get 1 _), word 2 h[2] (get 2 _), word 3 h[3] (get 3 _),
    word 4 h[4] (get 4 _)]
  rfl

/-- What a context is for its callers. -/
inductive Hashing where
  | taking (message : List UInt8)
  | computed (message : List UInt8)
  | spoiled (code : Nat)

def Hashing.input (more : List UInt8) : Hashing → (Nat × List UInt8) × Hashing
  | .taking message =>
    ((shaSuccess, []),
      if (message ++ more).length < 2 ^ 61 then .taking (message ++ more) else .spoiled shaNull)
  | .computed _ => ((shaStateError, []), .spoiled shaStateError)
  | .spoiled code => ((code, []), .spoiled code)

def Hashing.result : Hashing → (Nat × List UInt8) × Hashing
  | .taking message | .computed message => ((shaSuccess, Sha1.sha1 message), .computed message)
  | .spoiled code => ((code, []), .spoiled code)

def Hashing.call (hashing : Hashing) : Sha1Call → (Nat × List UInt8) × Hashing
  | .reset => ((shaSuccess, []), .taking [])
  | .input [] => ((shaSuccess, []), hashing)
  | .input (byte :: more) => hashing.input (byte :: more)
  | .result => hashing.result

def Hashing.calls (hashing : Hashing) : List Sha1Call → List (Nat × List UInt8)
  | [] => []
  | call :: rest => (hashing.call call).1 :: (hashing.call call).2.calls rest

def Hashing.Holds (context : SHA1Context) : Hashing → Prop
  | .taking message => Taking message context
  | .computed message => Computed message context
  | .spoiled code => Spoiled code context

theorem reset_taking (context : SHA1Context) : Taking [] (gfcSha1Reset context) :=
  ⟨rfl, Nat.zero_lt_succ _, by simp [SHA1Context.bits, gfcSha1Reset], rfl, rfl⟩

theorem input_holds {context : SHA1Context} {hashing : Hashing} (holds : hashing.Holds context)
    {more : List UInt8} (ne : more ≠ []) :
    (sha1Input context more).1 = (hashing.input more).1.1 ∧
      (hashing.input more).2.Holds (sha1Input context more).2 := by
  rw [sha1Input, if_neg ne]
  cases hashing with
  | taking message =>
    have taking : Taking message context := holds
    rw [if_neg (not_not.mpr taking.computed), if_neg (not_not.mpr taking.corrupted)]
    refine ⟨rfl, ?_⟩
    rw [Hashing.input]
    split
    · exact inputBytes_taking taking more ‹_›
    · exact inputBytes_spoiled taking more ‹_›
  | computed message =>
    have computed : Computed message context := holds
    rw [if_pos computed.computed]
    exact ⟨rfl, rfl, by decide, fun _ => rfl⟩
  | spoiled code =>
    have spoiled : Spoiled code context := holds
    by_cases computed : context.computed = 0
    · rw [if_neg (not_not.mpr computed), if_pos (spoiled.corrupted ▸ spoiled.error)]
      exact ⟨spoiled.corrupted, spoiled⟩
    · rw [if_pos computed]
      have code_eq := spoiled.computed computed
      exact ⟨code_eq.symm, code_eq.symm, spoiled.error, fun _ => code_eq⟩

theorem result_holds {context : SHA1Context} {hashing : Hashing} (holds : hashing.Holds context) :
    (gfcSha1Result context).1 = hashing.result.1 ∧
      hashing.result.2.Holds (gfcSha1Result context).2 := by
  rw [gfcSha1Result]
  cases hashing with
  | taking message =>
    have taking : Taking message context := holds
    have padded := padded_words taking
    obtain ⟨words, corrupted, computed⟩ := finished taking.computed
    rw [← words] at padded
    rw [if_neg (not_not.mpr taking.corrupted), messageDigest_eq, padded]
    exact ⟨rfl, padded, computed, corrupted.trans taking.corrupted⟩
  | computed message =>
    have computed : Computed message context := holds
    rw [if_neg (not_not.mpr computed.corrupted), messageDigest_eq, sha1Finish,
      if_neg computed.computed]
    exact ⟨congrArg (shaSuccess, ·) computed.words, computed⟩
  | spoiled code =>
    have spoiled : Spoiled code context := holds
    rw [if_pos (spoiled.corrupted ▸ spoiled.error)]
    exact ⟨congrArg (·, []) spoiled.corrupted, spoiled⟩

theorem call_holds {context : SHA1Context} {hashing : Hashing} (holds : hashing.Holds context)
    (call : Sha1Call) :
    (context.call call).1 = (hashing.call call).1 ∧
      (hashing.call call).2.Holds (context.call call).2 := by
  cases call with
  | reset => exact ⟨rfl, reset_taking context⟩
  | input more =>
    cases more with
    | nil => exact ⟨rfl, holds⟩
    | cons byte more =>
      obtain ⟨code, after⟩ := input_holds holds (List.cons_ne_nil byte more)
      have digest : (hashing.input (byte :: more)).1 =
          ((hashing.input (byte :: more)).1.1, []) := by
        cases hashing <;> rfl
      exact ⟨(congrArg (·, []) code).trans digest.symm, after⟩
  | result => exact result_holds holds

theorem calls_holds {context : SHA1Context} {hashing : Hashing} (holds : hashing.Holds context)
    (calls : List Sha1Call) : context.calls calls = hashing.calls calls := by
  induction calls generalizing context hashing with
  | nil => rfl
  | cons call rest ih =>
    obtain ⟨same, after⟩ := call_holds holds call
    rw [SHA1Context.calls, Hashing.calls, same, ih after]

/-- In any run after a reset, whatever the context held before: the digest is the SHA-1 of the
inputs since the last reset, joined, and the other answers are those of `Hashing`. -/
theorem gfcSha1_calls (context : SHA1Context) (calls : List Sha1Call) :
    context.calls (.reset :: calls) = (shaSuccess, []) :: (Hashing.taking []).calls calls := by
  rw [SHA1Context.calls]
  have holds : (Hashing.taking []).Holds (gfcSha1Reset context) := reset_taking context
  exact congrArg _ (calls_holds holds calls)

end Guardwatch.GfcSha1
