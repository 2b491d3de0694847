import Mathlib.Data.Nat.Digits.Lemmas

/-! # Recursive length encoding

The serialisation `alloy_rlp` implements: byte strings and lists behind a header with the
length of the payload, integers as big-endian bytes without leading zeros, structures as
the list of their fields, where the last field may be optional. A type with a codec carries
the proof that decoding gives back what was encoded and leaves what follows. Lengths are
64 bits wide, so the law is about encodings that fit into memory.
-/

namespace Rlp

open List

abbrev Byte := BitVec 8

inductive Error where
  | inputTooShort
  | unexpectedString
  | unexpectedList
  | unexpectedLength
  | overflow
  | leadingZero
  | nonCanonicalSingleByte
  | nonCanonicalSize
  | listLengthMismatch (expected got : Nat)
  | custom (text : String)
deriving DecidableEq, Repr

/-! ## Big-endian numbers -/

def beBytes (n : Nat) : List Byte := ((Nat.digits 256 n).map (BitVec.ofNat 8)).reverse

def ofBeBytes (bytes : List Byte) : Nat := Nat.ofDigits 256 (bytes.reverse.map BitVec.toNat)

@[simp]
theorem ofBeBytes_beBytes (n : Nat) : ofBeBytes (beBytes n) = n := by
  have digits : (Nat.digits 256 n).map (BitVec.toNat ∘ BitVec.ofNat 8) = Nat.digits 256 n := by
    refine (map_congr_left fun d mem => ?_).trans (map_id _)
    have := Nat.digits_lt_base (by decide : 1 < 256) mem
    simp only [Function.comp_apply, BitVec.toNat_ofNat, id_eq]
    exact Nat.mod_eq_of_lt this
  rw [ofBeBytes, beBytes, reverse_reverse, map_map, digits, Nat.ofDigits_digits]

theorem length_beBytes_le_iff {n k : Nat} : (beBytes n).length ≤ k ↔ n < 256 ^ k := by
  rw [beBytes, length_reverse, length_map]
  exact Nat.digits_length_le_iff (by decide) n

variable {n tag : Nat} {payload bytes text : List Byte} {α β : Type}
  {alternatives : Nat → List Byte → Except Error (α × List Byte)} {a : α}

theorem beBytes_pos (pos : 0 < n) : 0 < (beBytes n).length := by
  rw [← not_le, Nat.le_zero, ← Nat.le_zero, length_beBytes_le_iff]
  simpa using pos.ne'

/-- There is no leading zero. -/
theorem head?_beBytes (n : Nat) : (beBytes n).head? ≠ some 0 := by
  rcases Nat.eq_zero_or_pos n with rfl | pos
  · simp [beBytes]
  · have nonempty : Nat.digits 256 n ≠ [] := Nat.digits_ne_nil_iff_ne_zero.mpr pos.ne'
    have last := Nat.getLast_digit_ne_zero 256 pos.ne'
    have small := Nat.digits_lt_base (by decide : 1 < 256) (getLast_mem nonempty)
    rw [beBytes, head?_reverse, getLast?_map, getLast?_eq_getLast_of_ne_nil nonempty]
    intro h
    have zero : (Nat.digits 256 n).getLast nonempty % 256 = 0 := by
      simpa [BitVec.ofNat_eq_ofNat, ← BitVec.toNat_inj] using h
    omega

/-- `static_left_pad`: what a fixed number of big-endian bytes is read from. -/
def leftPad (width : Nat) (bytes : List Byte) : Except Error Nat :=
  if width < bytes.length then .error .overflow
  else if bytes.head? = some 0 then .error .leadingZero
  else .ok (ofBeBytes bytes)

theorem leftPad_beBytes {width n : Nat} (h : n < 256 ^ width) : leftPad width (beBytes n) = .ok n := by
  have short := not_lt.mpr (length_beBytes_le_iff.mpr h)
  rw [leftPad, if_neg short, if_neg (head?_beBytes n), ofBeBytes_beBytes]

/-! ## Headers -/

/-- `code` is 0x80 for strings and 0xC0 for lists. -/
def encodeHeader (code length : Nat) : List Byte :=
  if length < 56 then [.ofNat 8 (code + length)]
  else .ofNat 8 (code + 55 + (beBytes length).length) :: beBytes length

structure Header where
  list : Bool
  payloadLength : Nat
deriving DecidableEq, Repr

/-- The rest starts with the payload. -/
def Header.checked (header : Header) (rest : List Byte) : Except Error (Header × List Byte) :=
  if rest.length < header.payloadLength then .error .inputTooShort else .ok (header, rest)

/-- A payload length of `lengthOfLength` bytes. -/
def Header.decodeLong (list : Bool) (lengthOfLength : Nat) (buf : List Byte) : Except Error (Header × List Byte) :=
  if buf.length < lengthOfLength then .error .inputTooShort
  else do
    let length ← leftPad 8 (buf.take lengthOfLength)
    if length < 56 then .error .nonCanonicalSize
    else Header.checked ⟨list, length⟩ (buf.drop lengthOfLength)

def Header.decode : List Byte → Except Error (Header × List Byte)
  | [] => .error .inputTooShort
  | byte :: buf =>
    let b := byte.toNat
    -- a byte below 0x80 is its own payload
    if b < 0x80 then Header.checked ⟨false, 1⟩ (byte :: buf)
    else if b ≤ 0xB7 then
      if b = 0x81 then
        match buf with
        | [] => .error .inputTooShort
        | next :: _ =>
          if next.toNat < 0x80 then .error .nonCanonicalSingleByte
          else Header.checked ⟨false, 1⟩ buf
      else Header.checked ⟨false, b - 0x80⟩ buf
    else if b ≤ 0xBF then Header.decodeLong false (b - 0xB7) buf
    else if b ≤ 0xF7 then Header.checked ⟨true, b - 0xC0⟩ buf
    else Header.decodeLong true (b - 0xF7) buf

/-- The payload and what follows it. -/
def Header.decodeBytes (isList : Bool) (buf : List Byte) : Except Error (List Byte × List Byte) := do
  let (header, rest) ← Header.decode buf
  if header.list != isList then
    .error (if isList then .unexpectedString else .unexpectedList)
  else .ok (rest.take header.payloadLength, rest.drop header.payloadLength)

def encodeString (bytes : List Byte) : List Byte :=
  if bytes.length = 1 ∧ bytes.all (·.toNat < 0x80) then bytes
  else encodeHeader 0x80 bytes.length ++ bytes

def encodeList (payload : List Byte) : List Byte := encodeHeader 0xC0 payload.length ++ payload

theorem Header.decodeLong_beBytes {list : Bool} {payload rest : List Byte}
    (long : 56 ≤ payload.length) (fits : payload.length < 2 ^ 64) :
    Header.decodeLong list (beBytes payload.length).length
      (beBytes payload.length ++ (payload ++ rest)) =
      .ok (⟨list, payload.length⟩, payload ++ rest) := by
  have pad : leftPad 8 (beBytes payload.length) = .ok payload.length :=
    leftPad_beBytes (by simpa using fits)
  have enough : ¬(beBytes payload.length ++ (payload ++ rest)).length < (beBytes payload.length).length := by
    simp
  rw [Header.decodeLong, if_neg enough, take_left, drop_left, pad]
  simp [bind, Except.bind, Header.checked, not_lt.mpr long]

theorem toNat_ofNat_of_lt (h : n < 256) : (BitVec.ofNat 8 n).toNat = n := by
  rw [BitVec.toNat_ofNat]
  exact Nat.mod_eq_of_lt h

theorem Header.checked_append (list : Bool) (payload rest : List Byte) :
    Header.checked ⟨list, payload.length⟩ (payload ++ rest) =
      .ok (⟨list, payload.length⟩, payload ++ rest) := by
  simp [Header.checked]

theorem length_beBytes_mem (long : 56 ≤ n) (fits : n < 2 ^ 64) : 1 ≤ (beBytes n).length ∧ (beBytes n).length ≤ 8 :=
  ⟨beBytes_pos (by omega), length_beBytes_le_iff.mpr (by simpa using fits)⟩

theorem Header.decode_list (fits : payload.length < 2 ^ 64) (rest : List Byte) :
    Header.decode (encodeList payload ++ rest) =
      .ok (⟨true, payload.length⟩, payload ++ rest) := by
  rw [encodeList, encodeHeader]
  split
  next short =>
    have code := toNat_ofNat_of_lt (show 0xC0 + payload.length < 256 by omega)
    simp only [cons_append, nil_append, Header.decode, code]
    rw [if_neg (by omega), if_neg (by omega), if_neg (by omega), if_pos (by omega),
      Nat.add_sub_cancel_left, Header.checked_append]
  next long =>
    have ⟨lower, upper⟩ := length_beBytes_mem (not_lt.mp long) fits
    have code := toNat_ofNat_of_lt (show 0xC0 + 55 + (beBytes payload.length).length < 256 by omega)
    simp only [cons_append, append_assoc, Header.decode, code]
    rw [if_neg (by omega), if_neg (by omega), if_neg (by omega), if_neg (by omega),
      Nat.add_sub_cancel_left, Header.decodeLong_beBytes (not_lt.mp long) fits]

theorem Header.decode_string (fits : bytes.length < 2 ^ 64) (rest : List Byte) :
    Header.decode (encodeString bytes ++ rest) =
      .ok (⟨false, bytes.length⟩, bytes ++ rest) := by
  rw [encodeString]
  split
  next single =>
    obtain ⟨byte, rfl⟩ := length_eq_one_iff.mp single.1
    have small : byte.toNat < 0x80 := by simpa using single.2
    simp [Header.decode, small, Header.checked]
  next other =>
    rw [encodeHeader]
    split
    next short =>
      have code := toNat_ofNat_of_lt (show 0x80 + bytes.length < 256 by omega)
      simp only [cons_append, nil_append, Header.decode, code]
      rw [if_neg (by omega), if_pos (by omega)]
      split
      next one =>
        -- a single byte has a header only when it is not small
        obtain ⟨byte, rfl⟩ := length_eq_one_iff.mp (show bytes.length = 1 by omega)
        have large : ¬byte.toNat < 0x80 := by simpa using other
        simp [large, Header.checked]
      next => rw [Nat.add_sub_cancel_left, Header.checked_append]
    next long =>
      have ⟨lower, upper⟩ := length_beBytes_mem (not_lt.mp long) fits
      have code := toNat_ofNat_of_lt (show 0x80 + 55 + (beBytes bytes.length).length < 256 by omega)
      simp only [cons_append, append_assoc, Header.decode, code]
      rw [if_neg (by omega), if_neg (by omega), if_pos (by omega), Nat.add_sub_cancel_left,
        Header.decodeLong_beBytes (not_lt.mp long) fits]

theorem Header.decodeBytes_list (fits : payload.length < 2 ^ 64) (rest : List Byte) :
    Header.decodeBytes true (encodeList payload ++ rest) = .ok (payload, rest) := by
  rw [Header.decodeBytes, Header.decode_list fits]
  simp [bind, Except.bind]

theorem Header.decodeBytes_string (fits : bytes.length < 2 ^ 64) (rest : List Byte) :
    Header.decodeBytes false (encodeString bytes ++ rest) = .ok (bytes, rest) := by
  rw [Header.decodeBytes, Header.decode_string fits]
  simp [bind, Except.bind]

theorem encodeHeader_ne_nil (code length : Nat) : encodeHeader code length ≠ [] := by
  rw [encodeHeader]
  split <;> simp

theorem encodeString_ne_nil (bytes : List Byte) : encodeString bytes ≠ [] := by
  rw [encodeString]
  split
  next single => exact ne_nil_of_length_pos (by omega)
  next => simp [encodeHeader_ne_nil]

theorem encodeList_ne_nil (payload : List Byte) : encodeList payload ≠ [] := by
  simp [encodeList, encodeHeader_ne_nil]

theorem length_le_encodeString (bytes : List Byte) : bytes.length ≤ (encodeString bytes).length := by
  rw [encodeString]
  split <;> simp

theorem length_le_encodeList (payload : List Byte) : payload.length ≤ (encodeList payload).length := by
  simp [encodeList]

/-! ## Types with a codec -/

/-- A type whose values are read back from what they are written as. -/
class Codec (α : Type) where
  encode : α → List Byte
  decode : List Byte → Except Error (α × List Byte)
  encode_ne_nil (a : α) : encode a ≠ []
  decode_encode {a : α} (fits : (encode a).length < 2 ^ 64) (rest : List Byte) :
    decode (encode a ++ rest) = .ok (a, rest)

export Codec (encode decode)

theorem encode_injective [Codec α] {b : α} (fits : (encode a).length < 2 ^ 64) (same : encode a = encode b) :
    a = b := by
  have left := Codec.decode_encode fits []
  have right := Codec.decode_encode (same ▸ fits) []
  rw [same, right] at left
  exact (Prod.mk.inj (Except.ok.inj left)).1.symm

instance {w : Nat} : Codec (BitVec w) where
  encode v := encodeString (beBytes v.toNat)
  decode buf := do
    let (bytes, rest) ← Header.decodeBytes false buf
    let n ← leftPad ((w + 7) / 8) bytes
    return (.ofNat w n, rest)
  encode_ne_nil v := encodeString_ne_nil _
  decode_encode := by
    intro v fits rest
    have short : v.toNat < 256 ^ ((w + 7) / 8) := by
      refine v.isLt.trans_le ?_
      rw [show 256 = 2 ^ 8 from rfl, ← Nat.pow_mul]
      exact Nat.pow_le_pow_right (by decide) (by omega)
    rw [Header.decodeBytes_string ((length_le_encodeString _).trans_lt fits)]
    simp [bind, Except.bind, leftPad_beBytes short, pure, Except.pure]

structure ByteArrayOf (n : Nat) where
  bytes : List Byte
  length_bytes : bytes.length = n
deriving DecidableEq

instance {n : Nat} : Codec (ByteArrayOf n) where
  encode a := encodeString a.bytes
  decode buf := do
    let (bytes, rest) ← Header.decodeBytes false buf
    if h : bytes.length = n then return (⟨bytes, h⟩, rest) else throw .unexpectedLength
  encode_ne_nil a := encodeString_ne_nil _
  decode_encode := by
    intro a fits rest
    rw [Header.decodeBytes_string ((length_le_encodeString _).trans_lt fits)]
    simp [bind, Except.bind, a.length_bytes, pure, Except.pure]

def utf8Bytes (s : String) : List Byte := s.toUTF8.data.toList.map UInt8.toBitVec

instance : Codec String where
  encode s := encodeString (utf8Bytes s)
  decode buf := do
    let (bytes, rest) ← Header.decodeBytes false buf
    match String.fromUTF8? ⟨(bytes.map UInt8.ofBitVec).toArray⟩ with
    | some s => return (s, rest)
    | none => throw (.custom "invalid string")
  encode_ne_nil s := encodeString_ne_nil _
  decode_encode := by
    intro s fits rest
    rw [Header.decodeBytes_string ((length_le_encodeString _).trans_lt fits)]
    have same : (⟨((utf8Bytes s).map UInt8.ofBitVec).toArray⟩ : ByteArray) = s.toByteArray := by
      simp [utf8Bytes, Function.comp_def]
    have utf8 : String.fromUTF8? s.toByteArray = some s := by
      simp [String.fromUTF8?, String.fromUTF8, s.isValidUTF8]
    rw [← same] at utf8
    simp [bind, Except.bind, utf8, pure, Except.pure]

/-! ### Vectors -/

section Vectors

variable {α : Type} [Codec α]

/-- Reads elements until the payload is used up. Every element takes at least a byte, so the
length of the payload bounds the rounds of the loop. -/
def decodeElements : Nat → List Byte → Except Error (List α)
  | _, [] => .ok []
  | 0, _ :: _ => .error .inputTooShort
  | fuel + 1, byte :: payload => do
    let (a, rest) ← decode (byte :: payload)
    let elements ← decodeElements fuel rest
    return a :: elements

theorem length_le_flatMap_encode (elements : List α) : elements.length ≤ (elements.flatMap encode).length := by
  induction elements with
  | nil => exact Nat.le_refl 0
  | cons a elements ih =>
    have := length_pos_iff.mpr (Codec.encode_ne_nil a)
    rw [flatMap_cons, length_append, length_cons]
    omega

theorem decodeElements_flatMap {elements : List α} {fuel : Nat}
    (enough : elements.length ≤ fuel) (fits : (elements.flatMap encode).length < 2 ^ 64) :
    decodeElements fuel (elements.flatMap encode) = .ok elements := by
  induction elements generalizing fuel with
  | nil => cases fuel <;> rfl
  | cons a elements ih =>
    obtain ⟨fuel, rfl⟩ := Nat.exists_eq_add_of_lt (show 0 < fuel from by simp at enough; omega)
    rw [Nat.zero_add]
    rw [flatMap_cons, length_append] at fits
    have first := Codec.decode_encode (show (encode a).length < 2 ^ 64 by omega)
      (elements.flatMap encode)
    have later : decodeElements fuel (elements.flatMap encode) = .ok elements :=
      ih (by simp at enough; omega) (by omega)
    obtain ⟨byte, text, shape⟩ := exists_cons_of_ne_nil (Codec.encode_ne_nil a)
    rw [flatMap_cons, shape, cons_append, decodeElements]
    rw [shape, cons_append] at first
    simp [first, later, bind, Except.bind, pure, Except.pure]

instance : Codec (List α) where
  encode elements := encodeList (elements.flatMap encode)
  decode buf := do
    let (payload, rest) ← Header.decodeBytes true buf
    let elements ← decodeElements payload.length payload
    return (elements, rest)
  encode_ne_nil elements := encodeList_ne_nil _
  decode_encode := by
    intro elements fits rest
    have payload := (length_le_encodeList _).trans_lt fits
    have read := decodeElements_flatMap (length_le_flatMap_encode elements) payload
    rw [Header.decodeBytes_list payload]
    simp only [bind, Except.bind, read]
    rfl

end Vectors

/-! ### Values written as lists -/

/-- Every value is written as a list, so that none starts like an empty string. -/
class IsList (α : Type) [Codec α] : Prop where
  exists_payload (a : α) : ∃ payload, encode a = encodeList payload

theorem head?_encodeList (fits : payload.length < 2 ^ 64) (rest : List Byte) :
    (encodeList payload ++ rest).head? ≠ some 0x80 := by
  have start : ∀ n : Nat, 0xC0 ≤ n → n < 256 → BitVec.ofNat 8 n ≠ 0x80 := by
    intro n lower upper same
    have := congrArg BitVec.toNat same
    rw [toNat_ofNat_of_lt upper] at this
    simp at this
    omega
  rw [encodeList, encodeHeader]
  split
  next short =>
    simpa using start _ (by omega) (show 0xC0 + payload.length < 256 by omega)
  next long =>
    have ⟨lower, upper⟩ := length_beBytes_mem (not_lt.mp long) fits
    simpa using start _ (by omega)
      (show 0xC0 + 55 + (beBytes payload.length).length < 256 by omega)

/-! ## Structures

The fields of a derived codec are read one after the other from the buffer; the number of bytes
that follow the structure tells an optional last field from what comes next.
-/

structure Fields (α : Type) where
  encode : α → List Byte
  decode : (following : Nat) → List Byte → Except Error (α × List Byte)
  decode_encode {a : α} (fits : (encode a).length < 2 ^ 64) (rest : List Byte) :
    decode rest.length (encode a ++ rest) = .ok (a, rest)

namespace Fields

variable {α β : Type}

/-- The last field. -/
def last (α : Type) [Codec α] : Fields α where
  encode := Rlp.encode
  decode _ := Rlp.decode
  decode_encode := Codec.decode_encode

/-- The last field, under `rlp(trailing)`. -/
def trailing (α : Type) [Codec α] [IsList α] : Fields (Option α) where
  encode
    | some a => Rlp.encode a
    | none => []
  decode following buf :=
    if following < buf.length then
      if buf.head? = some 0x80 then .ok (none, buf.drop 1)
      else do
        let (a, rest) ← Rlp.decode buf
        return (some a, rest)
    else .ok (none, buf)
  decode_encode := by
    intro a fits rest
    cases a with
    | none => simp
    | some a =>
      have more : rest.length < (Rlp.encode a ++ rest).length := by
        have := length_pos_iff.mpr (Codec.encode_ne_nil a)
        rw [length_append]
        omega
      change (Rlp.encode a).length < 2 ^ 64 at fits
      have head : (Rlp.encode a ++ rest).head? ≠ some 0x80 := by
        obtain ⟨payload, written⟩ := IsList.exists_payload a
        rw [written] at fits ⊢
        exact head?_encodeList ((length_le_encodeList _).trans_lt fits) rest
      simp only [if_pos more, if_neg head, Codec.decode_encode fits]
      rfl

/-- A field in front of others. -/
def cons (α : Type) [Codec α] (fields : Fields β) : Fields (α × β) where
  encode a := Rlp.encode a.1 ++ fields.encode a.2
  decode following buf := do
    let (a, buf) ← Rlp.decode buf
    let (b, rest) ← fields.decode following buf
    return ((a, b), rest)
  decode_encode := by
    intro ⟨a, b⟩ fits rest
    obtain ⟨first, second⟩ : (Rlp.encode a).length < 2 ^ 64 ∧ (fields.encode b).length < 2 ^ 64 := by
      simp only [length_append] at fits
      omega
    simp [Codec.decode_encode first, fields.decode_encode second, bind, Except.bind, pure, Except.pure]

/-- The derived codec of a structure with these fields. -/
@[reducible]
def struct (fields : Fields β) (split : α → β) (join : β → α) (join_split : ∀ a, join (split a) = a) : Codec α where
  encode a := encodeList (fields.encode (split a))
  decode buf := do
    let (header, buf) ← Header.decode buf
    if !header.list then throw .unexpectedString
    let following := buf.length - header.payloadLength
    let (b, rest) ← fields.decode following buf
    let consumed := buf.length - rest.length
    if consumed ≠ header.payloadLength then
      throw (.listLengthMismatch header.payloadLength consumed)
    return (join b, rest)
  encode_ne_nil a := encodeList_ne_nil _
  decode_encode := by
    intro a fits rest
    have payload := (length_le_encodeList _).trans_lt fits
    rw [Header.decode_list payload]
    simp [bind, Except.bind, fields.decode_encode payload, join_split, pure, Except.pure]

end Fields

/-- The derived codec of a structure around a single value. -/
@[reducible]
def Codec.wrapper {α β : Type} [Codec β] (unwrap : α → β) (wrap : β → α)
    (wrap_unwrap : ∀ a, wrap (unwrap a) = a) : Codec α where
  encode a := encode (unwrap a)
  decode buf := do
    let (b, rest) ← decode buf
    return (wrap b, rest)
  encode_ne_nil a := Codec.encode_ne_nil _
  decode_encode := by
    intro a fits rest
    simp [Codec.decode_encode fits, bind, Except.bind, wrap_unwrap, pure, Except.pure]

/-! ## Tagged alternatives -/

/-- The first element says what follows. -/
def decodeAlternative {α : Type}
    (alternatives : Nat → List Byte → Except Error (α × List Byte)) (payload : List Byte) :
    Except Error (α × List Byte) := do
  let (tag, payload) ← decode (α := BitVec 8) payload
  alternatives tag.toNat payload

/-- Reads a list of a tag and what it stands for; what is left of the list is not looked at. -/
def decodeTagged {α : Type} (alternatives : Nat → List Byte → Except Error (α × List Byte))
    (buf : List Byte) : Except Error (α × List Byte) := do
  let (payload, rest) ← Header.decodeBytes true buf
  let (a, _) ← decodeAlternative alternatives payload
  return (a, rest)

/-- Reads a value into an alternative. -/
def decodeAs {α β : Type} [Codec β] (make : β → α) (payload : List Byte) : Except Error (α × List Byte) := do
  let (b, left) ← decode payload
  return (make b, left)

theorem decodeAs_encode_nil [Codec β] (make : β → α) {b : β} (fits : (encode b).length < 2 ^ 64) :
    decodeAs make (encode b) = .ok (make b, []) := by
  rw [decodeAs, ← append_nil (encode b), Codec.decode_encode fits]
  rfl

theorem decodeAlternative_encode (small : tag < 256) (fits : (encode (BitVec.ofNat 8 tag) ++ text).length < 2 ^ 64)
    (read : text.length < 2 ^ 64 → alternatives tag text = .ok (a, [])) :
    decodeAlternative alternatives (encode (BitVec.ofNat 8 tag) ++ text) = .ok (a, []) := by
  rw [length_append] at fits
  have first : decode (encode (BitVec.ofNat 8 tag) ++ text) = .ok (BitVec.ofNat 8 tag, text) :=
    Codec.decode_encode (by omega) text
  rw [decodeAlternative]
  simp only [bind, Except.bind, first, toNat_ofNat_of_lt small, read (by omega)]

theorem decodeTagged_encodeList (small : tag < 256)
    (fits : (encodeList (encode (BitVec.ofNat 8 tag) ++ text)).length < 2 ^ 64)
    (read : text.length < 2 ^ 64 → alternatives tag text = .ok (a, [])) (rest : List Byte) :
    decodeTagged alternatives (encodeList (encode (BitVec.ofNat 8 tag) ++ text) ++ rest) =
      .ok (a, rest) := by
  have payload := (length_le_encodeList _).trans_lt fits
  rw [decodeTagged, Header.decodeBytes_list payload]
  simp only [bind, Except.bind, decodeAlternative_encode small payload read]
  rfl

/-! ### Two alternatives -/

section Either

variable {α β γ : Type} [Codec β] [Codec γ]

def encodeEither (split : α → β ⊕ γ) (a : α) : List Byte :=
  match split a with
  | .inl b => encodeList (encode 1#8 ++ encode b)
  | .inr c => encodeList (encode 2#8 ++ encode c)

def decodeEither (unknown : String) (first : β → α) (second : γ → α) :
    Nat → List Byte → Except Error (α × List Byte)
  | 1, payload => decodeAs first payload
  | 2, payload => decodeAs second payload
  | _, _ => .error (.custom unknown)

theorem encodeEither_eq_encodeList (split : α → β ⊕ γ) (a : α) :
    ∃ payload, encodeEither split a = encodeList payload := by
  rw [encodeEither]
  cases split a <;> exact ⟨_, rfl⟩

/-- The codec that tags one alternative with 1 and the other with 2. -/
@[reducible]
def Codec.either (unknown : String) (split : α → β ⊕ γ) (first : β → α) (second : γ → α)
    (join_split : ∀ a, Sum.elim first second (split a) = a) : Codec α where
  encode := encodeEither split
  decode := decodeTagged (decodeEither unknown first second)
  encode_ne_nil a := by
    obtain ⟨payload, written⟩ := encodeEither_eq_encodeList split a
    rw [written]
    exact encodeList_ne_nil payload
  decode_encode := by
    intro a fits rest
    rw [encodeEither] at fits ⊢
    have joined := join_split a
    cases alternative : split a with
    | inl b =>
      rw [alternative] at fits joined
      subst joined
      refine decodeTagged_encodeList (by decide) fits (fun short => ?_) rest
      rw [decodeEither, decodeAs_encode_nil _ short, Sum.elim_inl]
    | inr c =>
      rw [alternative] at fits joined
      subst joined
      refine decodeTagged_encodeList (by decide) fits (fun short => ?_) rest
      rw [decodeEither, decodeAs_encode_nil _ short, Sum.elim_inr]

end Either

end Rlp
