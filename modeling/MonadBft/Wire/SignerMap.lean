import MonadBft.Lib.Rlp

/-! # Signer maps on the wire

The bit vector of a signature collection: its length and its bits packed into bytes from the
last bit on, so that the spare bits are the high ones of the first byte.
-/

namespace MonadBft.Wire

open Rlp List

def maxSignersLen : Nat := 16384

/-- The map of as many signers as a collection may have. -/
structure SignerMap where
  bits : List Bool
  length_le : bits.length ≤ maxSignersLen
deriving DecidableEq

namespace SignerMap

def numBytes (numBits : Nat) : Nat := (numBits + 7) / 8

/-- `buf[num_bytes - 1 - byte_idx_from_back] |= 1 << bit_idx_from_back` -/
def setBit (buf : List Byte) (i : Nat) : List Byte :=
  buf.modify (buf.length - 1 - i / 8) (· ||| 1#8 <<< (i % 8))

def packed (bits : List Bool) : List Byte :=
  (bits.reverse.zipIdx.filter (·.1)).foldl (fun buf bit => setBit buf bit.2)
    (List.replicate (numBytes bits.length) 0)

def getBit (buf : List Byte) (i : Nat) : Bool :=
  (buf.getD (buf.length - 1 - i / 8) 0 >>> (i % 8)) &&& 1 == 1

def unpacked (numBits : Nat) (bytes : List Byte) : List Bool :=
  ((List.range numBits).map (getBit bytes)).reverse

@[simp]
theorem length_setBit (buf : List Byte) (i : Nat) : (setBit buf i).length = buf.length := by
  simp [setBit]

theorem shiftRight_and_one (b : Byte) (k : Nat) : (b >>> k &&& 1 == 1) = b.getLsbD k := by
  rw [Bool.eq_iff_iff, beq_iff_eq]
  constructor
  · intro h
    have := congrArg (BitVec.getLsbD · 0) h
    simpa using this
  · intro h
    ext i hi
    by_cases i = 0 <;> simp_all

variable {buf : List Byte} {i k : Nat}

theorem getD_setBit (hi : i / 8 < buf.length) (hk : k / 8 < buf.length) :
    (setBit buf i).getD (buf.length - 1 - k / 8) 0 =
      if i / 8 = k / 8 then buf.getD (buf.length - 1 - k / 8) 0 ||| 1#8 <<< (i % 8)
      else buf.getD (buf.length - 1 - k / 8) 0 := by
  have index : buf.length - 1 - i / 8 = buf.length - 1 - k / 8 ↔ i / 8 = k / 8 := by omega
  have inside : buf.length - 1 - k / 8 < buf.length := by omega
  simp only [setBit, getD_eq_getElem?_getD, getElem?_modify, index]
  rw [getElem?_eq_getElem inside]
  split <;> simp

theorem getBit_setBit (hi : i / 8 < buf.length) (hk : k / 8 < buf.length) :
    getBit (setBit buf i) k = (getBit buf k || i == k) := by
  rw [getBit, getBit, shiftRight_and_one, shiftRight_and_one, length_setBit, getD_setBit hi hk]
  generalize buf.getD (buf.length - 1 - k / 8) 0 = byte
  have small : k % 8 < 8 := Nat.mod_lt _ (by decide)
  by_cases same : i / 8 = k / 8
  · -- the byte that is written: one more bit of it is set
    have bits : k % 8 - i % 8 = 0 ∧ ¬k % 8 < i % 8 ↔ i = k := by omega
    rw [if_pos same, BitVec.getLsbD_or, BitVec.getLsbD_shiftLeft]
    congr 1
    rw [Bool.eq_iff_iff, beq_iff_eq, ← bits]
    simp [small]
    tauto
  · have other : i ≠ k := fun h => same (by rw [h])
    simp [same, other]

/-- The bits that are set after the loop. -/
theorem getBit_foldl_setBit (hk : k / 8 < buf.length) {set : List (Bool × Nat)}
    (inside : ∀ bit ∈ set, bit.2 / 8 < buf.length) :
    getBit (set.foldl (fun buf bit => setBit buf bit.2) buf) k =
      (getBit buf k || set.any (·.2 == k)) := by
  induction set generalizing buf with
  | nil => simp
  | cons bit set ih =>
    have later : ∀ b ∈ set, b.2 / 8 < (setBit buf bit.2).length := by
      intro b mem
      rw [length_setBit]
      exact inside b (.tail _ mem)
    rw [foldl_cons, ih (by simpa using hk) later, getBit_setBit (inside _ (.head _)) hk,
      any_cons, Bool.or_assoc]

theorem length_foldl_setBit (buf : List Byte) (set : List (Bool × Nat)) :
    (set.foldl (fun buf bit => setBit buf bit.2) buf).length = buf.length := by
  induction set generalizing buf with
  | nil => rfl
  | cons bit set ih => rw [foldl_cons, ih, length_setBit]

@[simp]
theorem length_packed (bits : List Bool) : (packed bits).length = numBytes bits.length := by
  rw [packed, length_foldl_setBit, length_replicate]

theorem getBit_packed {bits : List Bool} (hk : k < bits.length) :
    getBit (packed bits) k = bits.reverse.get ⟨k, by simpa using hk⟩ := by
  have inside : ∀ i < bits.length,
      i / 8 < (List.replicate (numBytes bits.length) (0 : Byte)).length := by
    intro i hi
    rw [length_replicate, numBytes]
    omega
  have clear : getBit (List.replicate (numBytes bits.length) 0) k = false := by
    rw [getBit, shiftRight_and_one]
    rw [getD_eq_getElem?_getD, getElem?_replicate]
    split <;> exact BitVec.getLsbD_zero
  have range : ∀ bit ∈ bits.reverse.zipIdx.filter (·.1),
      bit.2 / 8 < (List.replicate (numBytes bits.length) (0 : Byte)).length := by
    intro bit mem
    have := snd_lt_of_mem_zipIdx (mem_of_mem_filter mem)
    exact inside _ (by simpa using this)
  rw [packed, getBit_foldl_setBit (inside k hk) range, clear, Bool.false_or, Bool.eq_iff_iff,
    any_filter, any_eq_true]
  have here : bits.reverse[k]? = some (bits.reverse.get ⟨k, by simpa using hk⟩) :=
    getElem?_eq_getElem _
  constructor
  · rintro ⟨⟨bit, i⟩, mem, found⟩
    obtain ⟨rfl, rfl⟩ : bit = true ∧ i = k := by simpa using found
    rw [mk_mem_zipIdx_iff_getElem?, here] at mem
    exact Option.some.inj mem
  · intro set
    refine ⟨(true, k), ?_, by simp⟩
    rw [mk_mem_zipIdx_iff_getElem?, here, set]

theorem unpacked_packed (bits : List Bool) : unpacked bits.length (packed bits) = bits := by
  rw [unpacked, reverse_eq_iff]
  refine ext_getElem (by simp) fun k hk _ => ?_
  rw [getElem_map, getElem_range, getBit_packed (by simpa using hk)]
  rfl

instance : Codec SignerMap where
  encode signers :=
    encodeList (encode (BitVec.ofNat 32 signers.bits.length) ++ encodeString (packed signers.bits))
  decode buf := do
    let (payload, rest) ← Header.decodeBytes true buf
    let (numBits, payload) ← decode (α := BitVec 32) payload
    if h : numBits.toNat ≤ maxSignersLen then
      let (bytes, _) ← Header.decodeBytes false payload
      if bytes.length ≠ numBytes numBits.toNat then
        throw (.custom "wrong number of bytes in bitvec")
      return (⟨unpacked numBits.toNat bytes, by simpa [unpacked] using h⟩, rest)
    else throw (.custom "signers count exceeds limit")
  encode_ne_nil signers := encodeList_ne_nil _
  decode_encode := by
    intro signers fits rest
    have payload := (length_le_encodeList _).trans_lt fits
    have count : (BitVec.ofNat 32 signers.bits.length).toNat = signers.bits.length := by
      have := signers.length_le
      rw [maxSignersLen] at this
      rw [BitVec.toNat_ofNat]
      omega
    have parts := payload
    rw [length_append] at parts
    have bytes : Header.decodeBytes false (encodeString (packed signers.bits) ++ []) =
        .ok (packed signers.bits, []) := by
      have := length_le_encodeString (packed signers.bits)
      exact Header.decodeBytes_string (by omega) []
    have first := Codec.decode_encode (a := BitVec.ofNat 32 signers.bits.length)
      (by omega) (encodeString (packed signers.bits))
    rw [append_nil] at bytes
    rw [Header.decodeBytes_list payload]
    simp only [bind, Except.bind, first, count, bytes]
    simp [signers.length_le, pure, Except.pure, unpacked_packed]

end SignerMap

end MonadBft.Wire
