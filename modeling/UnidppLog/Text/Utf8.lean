/-
# UTF-8

The bytes of a text as a list, and the decoder that accepts exactly those bytes.
Cutting an encoded text leaves an encoded text on one side of the cut exactly
when it does on the other, and the bytes below 128 of an encoded text are its
ASCII characters.
-/

import Mathlib.Data.List.Basic

namespace Text

/-- The UTF-8 bytes of a text. -/
def encode (cs : List Char) : List UInt8 :=
  cs.flatMap String.utf8EncodeChar

/-- The text that these bytes encode, if they are UTF-8. -/
def decode (bytes : List UInt8) : Option (List Char) :=
  (String.fromUTF8? bytes.toByteArray).map String.toList

@[simp]
theorem encode_nil : encode [] = [] :=
  rfl

theorem encode_cons (c : Char) (cs : List Char) :
    encode (c :: cs) = String.utf8EncodeChar c ++ encode cs :=
  rfl

@[simp]
theorem encode_append (cs ds : List Char) : encode (cs ++ ds) = encode cs ++ encode ds := by
  simp [encode]

theorem encode_eq_nil_iff {cs : List Char} : encode cs = [] ↔ cs = [] := by
  cases cs with
  | nil => simp
  | cons c cs => simp [encode_cons, String.utf8EncodeChar_ne_nil]

theorem toByteArray_encode (cs : List Char) : (encode cs).toByteArray = cs.utf8Encode :=
  rfl

/-- The decoder accepts the encodings and nothing else. -/
theorem decode_eq_some_iff {bytes : List UInt8} {cs : List Char} :
    decode bytes = some cs ↔ bytes = encode cs := by
  rw [decode, Option.map_eq_some_iff]
  constructor
  · rintro ⟨s, hs, rfl⟩
    rw [String.fromUTF8?] at hs
    split at hs
    · obtain rfl := Option.some.inj hs
      rw [← List.toByteArray_inj, toByteArray_encode, String.utf8Encode_toList]
      rfl
    · simp at hs
  · rintro rfl
    refine ⟨String.ofList cs, ?_, String.toList_ofList⟩
    have hvalid : (encode cs).toByteArray.IsValidUTF8 := by
      rw [toByteArray_encode]
      exact ByteArray.isValidUTF8_utf8Encode
    rw [String.fromUTF8?, dif_pos hvalid]
    rfl

@[simp]
theorem decode_encode (cs : List Char) : decode (encode cs) = some cs :=
  decode_eq_some_iff.mpr rfl

theorem encode_injective {cs ds : List Char} (heq : encode cs = encode ds) : cs = ds := by
  have hdecode := decode_encode cs
  rw [heq, decode_encode] at hdecode
  exact (Option.some.inj hdecode).symm

theorem decode_eq_none_iff {bytes : List UInt8} :
    decode bytes = none ↔ ∀ cs, bytes ≠ encode cs := by
  constructor
  · rintro hnone cs rfl
    simp at hnone
  · intro hne
    cases hdecode : decode bytes with
    | none => rfl
    | some cs => exact absurd (decode_eq_some_iff.mp hdecode) (hne cs)

/-- What an encoded text is cut off in front of is an encoded text when the rest
is. -/
theorem exists_of_append_encode {front : List UInt8} {cs ds : List Char}
    (heq : front ++ encode ds = encode cs) : ∃ es, front = encode es ∧ cs = es ++ ds := by
  let s := String.ofList cs
  have hbytes : s.toByteArray = front.toByteArray ++ ds.utf8Encode := by
    rw [String.toByteArray_ofList, ← toByteArray_encode, ← heq, List.toByteArray_append,
      toByteArray_encode]
  have hsize : s.utf8ByteSize = front.toByteArray.size + ds.utf8Encode.size := by
    rw [← String.size_toByteArray, hbytes, ByteArray.size_append]
  have hvalid : String.Pos.Raw.IsValid s ⟨front.toByteArray.size⟩ := by
    rw [String.Pos.Raw.isValid_iff_isValidUTF8_extract_utf8ByteSize]
    refine ⟨?_, ?_⟩
    · rw [String.Pos.Raw.le_iff, String.byteIdx_rawEndPos]
      simp [hsize]
    · rw [hbytes, hsize, ByteArray.extract_append_eq_right rfl rfl]
      exact ByteArray.isValidUTF8_utf8Encode
  rw [String.Pos.Raw.isValid_iff_isValidUTF8_extract_zero, hbytes,
    ByteArray.extract_append_eq_left rfl] at hvalid
  obtain ⟨-, es, hes⟩ := hvalid
  have hfront : front = encode es := by
    rwa [← List.toByteArray_inj, toByteArray_encode]
  refine ⟨es, hfront, encode_injective ?_⟩
  rw [encode_append, ← hfront, heq]

/-- What is left of an encoded text behind an encoded text is one too. -/
theorem exists_of_encode_append {back : List UInt8} {cs ds : List Char}
    (heq : encode ds ++ back = encode cs) : ∃ es, back = encode es ∧ cs = ds ++ es := by
  obtain ⟨es, rfl⟩ : ds <+: cs := by
    refine List.isPrefix_of_utf8Encode_append_eq_utf8Encode back.toByteArray ?_
    rw [← toByteArray_encode, ← toByteArray_encode, ← List.toByteArray_append, heq]
  rw [encode_append] at heq
  exact ⟨es, List.append_cancel_left heq, rfl⟩

/-- A text that is cut within a character is none. -/
theorem decode_eq_none_of_cut (front : List Char) {c : Char} {k : ℕ} (hpos : 0 < k)
    (hk : k < (String.utf8EncodeChar c).length) :
    decode (encode front ++ (String.utf8EncodeChar c).take k) = none := by
  rw [decode_eq_none_iff]
  intro cs hcs
  obtain ⟨ds, hds, -⟩ := exists_of_encode_append hcs
  have hchar : encode ds ++ (String.utf8EncodeChar c).drop k = encode [c] := by
    rw [← hds, List.take_append_drop]
    simp [encode]
  obtain ⟨es, hes, hsplit⟩ := exists_of_encode_append hchar
  have hlen := congrArg List.length hds
  rw [List.length_take] at hlen
  have hlen' := congrArg List.length hes
  rw [List.length_drop] at hlen'
  cases ds with
  | nil =>
      simp only [encode_nil, List.length_nil] at hlen
      omega
  | cons d ds =>
      obtain ⟨-, hnil⟩ := List.cons.inj hsplit
      obtain ⟨-, rfl⟩ := List.append_eq_nil_iff.mp hnil.symm
      simp only [encode_nil, List.length_nil] at hlen'
      omega

theorem le_of_mem_utf8EncodeChar {c : Char} {b : UInt8} (hb : b ∈ String.utf8EncodeChar c)
    (hc : 128 ≤ c.toNat) : 128 ≤ b.toNat := by
  rw [String.utf8EncodeChar] at hb
  have hval : c.val.toNat = c.toNat := rfl
  simp only [hval] at hb
  split_ifs at hb <;> simp only [List.mem_cons, List.not_mem_nil, or_false] at hb
  · omega
  · rcases hb with rfl | rfl <;> simp <;> omega
  · rcases hb with rfl | rfl | rfl <;> simp <;> omega
  · rcases hb with rfl | rfl | rfl | rfl <;> simp <;> omega

theorem utf8EncodeChar_of_lt {c : Char} (hc : c.toNat < 128) :
    String.utf8EncodeChar c = [UInt8.ofNat c.toNat] := by
  have hval : c.val.toNat = c.toNat := rfl
  rw [String.utf8EncodeChar]
  simp only [hval]
  rw [if_pos (by omega)]

/-- A byte below 128 of an encoded text is one of its ASCII characters. -/
theorem mem_encode_iff {cs : List Char} {a : Char} (ha : a.toNat < 128) :
    UInt8.ofNat a.toNat ∈ encode cs ↔ a ∈ cs := by
  rw [encode, List.mem_flatMap]
  constructor
  · rintro ⟨c, hc, hmem⟩
    have hsmall : (UInt8.ofNat a.toNat).toNat = a.toNat := by
      simp
      omega
    rcases Nat.lt_or_ge c.toNat 128 with hlt | hge
    · rw [utf8EncodeChar_of_lt hlt, List.mem_singleton] at hmem
      have hnat : a.toNat = c.toNat := by
        have := congrArg UInt8.toNat hmem
        simp at this
        omega
      rwa [Char.toNat_inj.mp hnat]
    · have := le_of_mem_utf8EncodeChar hmem hge
      omega
  · intro hmem
    exact ⟨a, hmem, by rw [utf8EncodeChar_of_lt ha]; simp⟩

end Text
