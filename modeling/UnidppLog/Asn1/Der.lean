/-
# Elements of definite length

One octet for the tag, the octets of the length, and the content. The octets of a
length say where they end, so of two elements at the head of the same bytes neither
is a part of the other: tag, content and what follows are determined. Of all octets
for a length, the distinguished encoding takes the fewest.
-/

import Mathlib.Data.List.Induction
import Mathlib.Data.Nat.Digits.Lemmas

namespace Asn1

/-- The number of some octets, the most significant in front. -/
def ofBigEndian (octets : List UInt8) : ℕ :=
  octets.foldl (fun acc b => acc * 256 + b.toNat) 0

/-- The octets of a definite length: the length itself, or how many octets it takes, at
most `limit`, and these. -/
inductive LengthOctets (limit : ℕ) : ℕ → List UInt8 → Prop
  | short {b : UInt8} (hb : b.toNat < 128) : LengthOctets limit b.toNat [b]
  | long {count : UInt8} {octets : List UInt8} (hne : octets ≠ [])
      (hlimit : octets.length ≤ limit) (hcount : count.toNat = 128 + octets.length) :
      LengthOctets limit (ofBigEndian octets) (count :: octets)

/-- The bytes of one element, whose length takes at most `limit` octets. -/
def IsElement (limit : ℕ) (tag : UInt8) (content bytes : List UInt8) : Prop :=
  ∃ octets, LengthOctets limit content.length octets ∧ bytes = tag :: (octets ++ content)

/-- A length takes at most 126 octets, since the count of 127 is reserved. -/
abbrev octetLimit : ℕ :=
  126

theorem ofBigEndian_concat (octets : List UInt8) (b : UInt8) :
    ofBigEndian (octets ++ [b]) = ofBigEndian octets * 256 + b.toNat := by
  simp [ofBigEndian]

theorem ofBigEndian_lt (octets : List UInt8) : ofBigEndian octets < 256 ^ octets.length := by
  induction octets using List.reverseRecOn with
  | nil => simp [ofBigEndian]
  | append_singleton octets b ih =>
      have hb : b.toNat < 256 := b.toNat_lt
      rw [ofBigEndian_concat, List.length_append, List.length_singleton, pow_succ]
      omega

namespace LengthOctets

variable {limit limit' n n' : ℕ} {octets octets' rest rest' : List UInt8}

theorem mono (h : LengthOctets limit n octets) (hlimit : limit ≤ limit') :
    LengthOctets limit' n octets := by
  cases h with
  | short hb => exact .short hb
  | long hne hle hcount => exact .long hne (hle.trans hlimit) hcount

theorem length_le (h : LengthOctets limit n octets) : octets.length ≤ limit + 1 := by
  cases h with
  | short hb => simp
  | long hne hle hcount => simpa using hle

theorem ne_nil (h : LengthOctets limit n octets) : octets ≠ [] := by
  cases h <;> simp

/-- A length that takes so many octets fits in them. -/
theorem lt (h : LengthOctets limit n octets) : n < 256 ^ max 1 limit := by
  cases h with
  | @short b hb =>
      calc b.toNat < 256 ^ 1 := hb.trans (by decide)
        _ ≤ 256 ^ max 1 limit := Nat.pow_le_pow_right (by decide) (le_max_left _ _)
  | long hne hle hcount =>
      exact (ofBigEndian_lt _).trans_le
        (Nat.pow_le_pow_right (by decide) (hle.trans (le_max_right _ _)))

/-- The octets of a length say where they end. -/
theorem unique (h : LengthOctets limit n octets) (h' : LengthOctets limit' n' octets')
    (heq : octets ++ rest = octets' ++ rest') : n = n' ∧ octets = octets' ∧ rest = rest' := by
  cases h with
  | short hb =>
      cases h' with
      | short hb' => simp_all
      | long hne hle hcount =>
          obtain ⟨rfl, -⟩ := List.cons.inj heq
          omega
  | long hne hle hcount =>
      cases h' with
      | short hb' =>
          obtain ⟨rfl, -⟩ := List.cons.inj heq
          omega
      | long hne' hle' hcount' =>
          obtain ⟨rfl, htail⟩ := List.cons.inj heq
          obtain ⟨rfl, rfl⟩ := List.append_inj htail (by omega)
          exact ⟨rfl, rfl, rfl⟩

end LengthOctets

namespace IsElement

variable {limit limit' : ℕ} {tag tag' : UInt8} {content content' bytes bytes' : List UInt8}
variable {rest rest' : List UInt8}

theorem mono (h : IsElement limit tag content bytes) (hlimit : limit ≤ limit') :
    IsElement limit' tag content bytes := by
  obtain ⟨octets, hoctets, rfl⟩ := h
  exact ⟨octets, hoctets.mono hlimit, rfl⟩

/-- An element at the head of some bytes is the only one there. -/
theorem unique (h : IsElement limit tag content bytes)
    (h' : IsElement limit' tag' content' bytes') (heq : bytes ++ rest = bytes' ++ rest') :
    tag = tag' ∧ content = content' ∧ bytes = bytes' ∧ rest = rest' := by
  obtain ⟨octets, hoctets, rfl⟩ := h
  obtain ⟨octets', hoctets', rfl⟩ := h'
  obtain ⟨rfl, htail⟩ := List.cons.inj heq
  have hoctetsEq : octets ++ (content ++ rest) = octets' ++ (content' ++ rest') := by
    simpa using htail
  obtain ⟨hlength, rfl, hcontent⟩ := hoctets.unique hoctets' hoctetsEq
  obtain ⟨rfl, rfl⟩ := List.append_inj hcontent hlength
  exact ⟨rfl, rfl, rfl, rfl⟩

/-- A content of less than 128 bytes takes one octet for its length. -/
theorem short (limit : ℕ) (tag : UInt8) {content : List UInt8} (hlength : content.length < 128) :
    IsElement limit tag content (tag :: UInt8.ofNat content.length :: content) := by
  have hfirst : (UInt8.ofNat content.length).toNat = content.length := by
    rw [UInt8.toNat_ofNat', Nat.mod_eq_of_lt (by omega)]
  have hshort : LengthOctets limit _ [UInt8.ofNat content.length] :=
    .short (by rw [hfirst]; exact hlength)
  rw [hfirst] at hshort
  exact ⟨_, hshort, rfl⟩

end IsElement

/-- The octets of a number, the most significant in front, without a zero there. -/
def bigEndian (n : ℕ) : List UInt8 :=
  ((Nat.digits 256 n).map UInt8.ofNat).reverse

/-- The octets of a length: one if they hold it, else as many as it takes and their
count. -/
def lengthOctets (n : ℕ) : List UInt8 :=
  if n < 128 then [UInt8.ofNat n]
  else UInt8.ofNat (128 + (bigEndian n).length) :: bigEndian n

/-- An element with this tag and content. -/
def element (tag : UInt8) (content : List UInt8) : List UInt8 :=
  tag :: (lengthOctets content.length ++ content)

theorem ofBigEndian_digits {digits : List ℕ} (hdigits : ∀ d ∈ digits, d < 256) :
    ofBigEndian (digits.map UInt8.ofNat).reverse = Nat.ofDigits 256 digits := by
  induction digits with
  | nil => rfl
  | cons d digits ih =>
      have hd : (UInt8.ofNat d).toNat = d := by
        rw [UInt8.toNat_ofNat', Nat.mod_eq_of_lt (hdigits d List.mem_cons_self)]
      have hrest := ih fun e he => hdigits e (List.mem_cons_of_mem d he)
      rw [List.map_cons, List.reverse_cons, ofBigEndian_concat, hrest, hd, Nat.ofDigits_cons]
      omega

@[simp]
theorem ofBigEndian_bigEndian (n : ℕ) : ofBigEndian (bigEndian n) = n := by
  rw [bigEndian, ofBigEndian_digits fun d hd => Nat.digits_lt_base (by decide) hd,
    Nat.ofDigits_digits]

theorem length_bigEndian_le_iff {n k : ℕ} : (bigEndian n).length ≤ k ↔ n < 256 ^ k := by
  rw [bigEndian, List.length_reverse, List.length_map, Nat.digits_length_le_iff (by decide)]

theorem bigEndian_ne_nil {n : ℕ} (hpos : 0 < n) : bigEndian n ≠ [] := by
  rw [bigEndian, Ne, List.reverse_eq_nil_iff, List.map_eq_nil_iff]
  exact Nat.digits_ne_nil_iff_ne_zero.mpr hpos.ne'

/-- A length that fits in so many octets is encoded in so many at most. -/
theorem isLengthOctets {limit n : ℕ} (hlimit : limit ≤ octetLimit) (hn : n < 256 ^ limit) :
    LengthOctets limit n (lengthOctets n) := by
  rw [lengthOctets]
  split
  · next hshort =>
    have hfirst : (UInt8.ofNat n).toNat = n := by
      rw [UInt8.toNat_ofNat', Nat.mod_eq_of_lt (by omega)]
    have hoctet : LengthOctets limit _ [UInt8.ofNat n] := .short (by rw [hfirst]; exact hshort)
    rwa [hfirst] at hoctet
  · next hlong =>
    have hcount := length_bigEndian_le_iff.mpr hn
    have hoctets := LengthOctets.long (bigEndian_ne_nil (show 0 < n by omega)) hcount
      (show (UInt8.ofNat (128 + (bigEndian n).length)).toNat = 128 + (bigEndian n).length by
        rw [UInt8.toNat_ofNat', Nat.mod_eq_of_lt]
        rw [octetLimit] at hlimit
        omega)
    rwa [ofBigEndian_bigEndian] at hoctets

/-- No octets for a length are fewer. -/
theorem LengthOctets.length_lengthOctets_le {limit n : ℕ} {octets : List UInt8}
    (h : LengthOctets limit n octets) : (lengthOctets n).length ≤ octets.length := by
  rw [lengthOctets]
  split
  · exact List.length_pos_of_ne_nil h.ne_nil
  · next hlong =>
    cases h with
    | short hb => exact absurd hb hlong
    | long hne hlimit hcount =>
        simpa using length_bigEndian_le_iff.mpr (ofBigEndian_lt _)

theorem isElement {limit : ℕ} (hlimit : limit ≤ octetLimit) (tag : UInt8) {content : List UInt8}
    (hlength : content.length < 256 ^ limit) :
    IsElement limit tag content (element tag content) :=
  ⟨_, isLengthOctets hlimit hlength, rfl⟩

end Asn1
