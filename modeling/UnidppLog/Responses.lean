/-
# What is accepted of an authority

The check reads two headers and then searches all of the bytes, so what it accepts is
said by the framing and by where the octet strings of 32 bytes are. Compared with that
are the two readings of an accepted response: that it is for one digest only, and that
it is a response that carries the digest in its token.
-/

import UnidppLog.Sample.Service

namespace UnidppLog

open Asn1 (IsElement octetLimit)

section

/-- A response: one sequence of a status and a token, both sequences, with the octet
string in the content of the token. -/
def WellFormed (der digest : List UInt8) : Prop :=
  ∃ status statusContent token tokenContent,
    IsElement octetLimit 0x30 (status ++ token) der ∧
      IsElement octetLimit 0x30 statusContent status ∧
      IsElement octetLimit 0x30 tokenContent token ∧ octetString digest <:+: tokenContent

/-- A framed response with the octet string somewhere, but with bytes behind the
sequence, or with something else behind the status than one sequence that contains it. -/
def Strays (der digest : List UInt8) : Prop :=
  octetString digest <:+: der ∧ ∃ rest trailing, Framed der rest trailing ∧
    (trailing ≠ [] ∨ ∀ tokenContent, IsElement octetLimit 0x30 tokenContent rest →
      ¬ octetString digest <:+: tokenContent)

/-- The framing determines what follows the status and what follows the sequence. -/
theorem Framed.eq {der rest trailing : List UInt8} (h : Framed der rest trailing) {limit : ℕ}
    {tag tag' : UInt8} {status statusContent token element trailing' : List UInt8}
    (helement : IsElement limit tag (status ++ token) element)
    (hstatus : IsElement limit tag' statusContent status) (hder : der = element ++ trailing') :
    rest = token ∧ trailing = trailing' := by
  obtain ⟨status', statusContent', element', helement', hstatus', rfl⟩ := h
  obtain ⟨-, hcontent, -, htrailing⟩ := helement'.unique helement hder
  obtain ⟨-, -, -, hrest⟩ := hstatus'.unique hstatus hcontent
  exact ⟨hrest, htrailing⟩

theorem Strays.not_wellFormed {der digest : List UInt8} (h : Strays der digest) :
    ¬ WellFormed der digest := by
  rintro ⟨status, statusContent, token, tokenContent, helement, hstatus, htoken, hin⟩
  obtain ⟨-, rest, trailing, hframed, hstrays⟩ := h
  obtain ⟨rfl, rfl⟩ := hframed.eq helement hstatus (List.append_nil der).symm
  exact hstrays.elim (fun hne => hne rfl) fun hout => hout tokenContent htoken hin

variable [Unidpp] [ExternalAnchoring]

open Unidpp ExternalAnchoring

/-- A digest is any 32 bytes, and nothing besides. -/
structure HashBytesLaws : Prop where
  length : ∀ h, (hashBytes h).length = 32
  injective : Function.Injective hashBytes
  exists_of_length : ∀ bytes : List UInt8, bytes.length = 32 → ∃ h, hashBytes h = bytes

/-- Octet strings of 32 bytes with two contents, anywhere in a framed response. -/
def Ambiguous (der : List UInt8) : Prop :=
  (∃ rest trailing, Framed der rest trailing) ∧
    ∃ content₁ content₂, content₁.length = 32 ∧ content₂.length = 32 ∧ content₁ ≠ content₂ ∧
      octetString content₁ <:+: der ∧ octetString content₂ <:+: der

/-- A response is accepted for one digest at most unless it is ambiguous. -/
theorem accepted_for_one_iff (hlaws : HashBytesLaws) (der : List UInt8) :
    (∀ d₁ d₂ : Hash, verifyTimestampResponse der d₁ = some (.ok ()) →
      verifyTimestampResponse der d₂ = some (.ok ()) → d₁ = d₂) ↔ ¬ Ambiguous der := by
  constructor
  · rintro hone ⟨hframed, content₁, content₂, hlength₁, hlength₂, hne, hin₁, hin₂⟩
    obtain ⟨d₁, rfl⟩ := hlaws.exists_of_length content₁ hlength₁
    obtain ⟨d₂, rfl⟩ := hlaws.exists_of_length content₂ hlength₂
    have hok₁ := (verifyTimestampResponse_eq_ok_iff der hlength₁).mpr ⟨hframed, hin₁⟩
    have hok₂ := (verifyTimestampResponse_eq_ok_iff der hlength₂).mpr ⟨hframed, hin₂⟩
    exact hne (congrArg hashBytes (hone d₁ d₂ hok₁ hok₂))
  · intro hnot d₁ d₂ hok₁ hok₂
    rw [verifyTimestampResponse_eq_ok_iff der (hlaws.length _)] at hok₁ hok₂
    by_contra hne
    exact hnot ⟨hok₁.1, hashBytes d₁, hashBytes d₂, hlaws.length _, hlaws.length _,
      fun heq => hne (hlaws.injective heq), hok₁.2, hok₂.2⟩

/-- An accepted response is well formed unless its octet string strays. -/
theorem accepted_wellFormed_iff (hlaws : HashBytesLaws) (der : List UInt8) (digest : Hash) :
    (verifyTimestampResponse der digest = some (.ok ()) → WellFormed der (hashBytes digest)) ↔
      ¬ Strays der (hashBytes digest) := by
  rw [verifyTimestampResponse_eq_ok_iff der (hlaws.length digest)]
  constructor
  · intro hwell hstrays
    have ⟨hin, rest, trailing, hframed, _⟩ := hstrays
    exact hstrays.not_wellFormed (hwell ⟨⟨rest, trailing, hframed⟩, hin⟩)
  · rintro hnot ⟨⟨rest, trailing, hframed⟩, hin⟩
    have hrest : trailing = [] ∧ ∃ tokenContent, IsElement octetLimit 0x30 tokenContent rest ∧
        octetString (hashBytes digest) <:+: tokenContent := by
      by_contra hstrays
      refine hnot ⟨hin, rest, trailing, hframed, ?_⟩
      by_cases htrailing : trailing = []
      · refine .inr fun tokenContent htoken hin => hstrays ⟨htrailing, tokenContent, htoken, hin⟩
      · exact .inl htrailing
    obtain ⟨rfl, tokenContent, htoken, htokenIn⟩ := hrest
    obtain ⟨status, statusContent, element, helement, hstatus, rfl⟩ := hframed
    rw [List.append_nil]
    exact ⟨status, statusContent, rest, tokenContent, helement.mono (by decide),
      hstatus.mono (by decide), htoken, htokenIn⟩

end

namespace Sample

theorem hashBytesLaws : HashBytesLaws where
  length h := h.property
  injective _ _ heq := Subtype.ext heq
  exists_of_length bytes hlength := ⟨⟨bytes, hlength⟩, rfl⟩

/-- The reply of the sample authority is accepted for its digest, and for no other. -/
theorem reply_accepted_for_one :
    verifyTimestampResponse (reply sevens) sevens = some (.ok ()) ∧
      verifyTimestampResponse (reply sevens) nines ≠ some (.ok ()) := by
  have htag : ∀ offset < 10, (reply sevens)[offset]? = some 0x04 → offset = 9 := by decide
  have hcontent : ∀ content : List UInt8, content.length = 32 →
      octetString content <:+: reply sevens → content = sevens.val := by
    intro content hlength hin
    obtain ⟨offset, hoffset, hat⟩ := List.any_eq_true.mp ((any_octetsAt_iff hlength).mpr hin)
    simp only [octetsAt, decide_eq_true_eq] at hat
    obtain rfl := htag offset (List.mem_range.mp hoffset) hat.1
    exact hat.2.2.symm
  have hone := (accepted_for_one_iff hashBytesLaws (reply sevens)).mpr (by
    rintro ⟨-, content₁, content₂, hlength₁, hlength₂, hne, hin₁, hin₂⟩
    exact hne ((hcontent _ hlength₁ hin₁).trans (hcontent _ hlength₂ hin₂).symm))
  refine ⟨verify_reply sevens, fun hnines => ?_⟩
  exact absurd (hone sevens nines (verify_reply sevens) hnines) (by decide)

theorem reply_wellFormed : WellFormed (reply sevens) sevens.val := by
  refine (accepted_wellFormed_iff hashBytesLaws (reply sevens) sevens).mpr ?_ (verify_reply sevens)
  rintro ⟨-, rest, trailing, hframed, hstrays⟩
  have hgranted : Framed (reply sevens) ([0x30, 34] ++ octetString sevens.val) [] :=
    framed_granted _ [] (by decide)
  obtain ⟨status, statusContent, element, helement, hstatus, hder⟩ := hgranted
  obtain ⟨rfl, rfl⟩ := hframed.eq helement hstatus hder
  refine hstrays.elim (fun hne => hne rfl) fun hout => ?_
  exact hout (octetString sevens.val) (IsElement.short octetLimit 0x30 (by decide))
    List.infix_rfl

/-- A response for one digest whose token has a second octet string, such as the hash of
a certificate. -/
def certified : List UInt8 :=
  [0x30, 75, 0x30, 3, 2, 1, 0, 0x30, 68] ++ (octetString sevens.val ++ octetString nines.val)

theorem certified_accepted_for_both :
    verifyTimestampResponse certified sevens = some (.ok ()) ∧
      verifyTimestampResponse certified nines = some (.ok ()) ∧ sevens ≠ nines := by
  have hframed : Framed certified
      ([0x30, 68] ++ (octetString sevens.val ++ octetString nines.val)) [] :=
    framed_granted _ [] (by decide)
  refine ⟨?_, ?_, by decide⟩
  · rw [verifyTimestampResponse_eq_ok_iff _ sevens.property]
    exact ⟨⟨_, _, hframed⟩, [0x30, 75, 0x30, 3, 2, 1, 0, 0x30, 68], octetString nines.val, rfl⟩
  · rw [verifyTimestampResponse_eq_ok_iff _ nines.property]
    exact ⟨⟨_, _, hframed⟩, [0x30, 75, 0x30, 3, 2, 1, 0, 0x30, 68] ++ octetString sevens.val,
      [], rfl⟩

/-- A sequence of a status and no token, with the octet string behind it. -/
def tokenless : List UInt8 :=
  [0x30, 5, 0x30, 3, 2, 1, 0] ++ octetString sevens.val

theorem tokenless_accepted :
    verifyTimestampResponse tokenless sevens = some (.ok ()) ∧
      ¬ WellFormed tokenless sevens.val := by
  have hframed : Framed tokenless [] (octetString sevens.val) :=
    framed_granted [] _ (by decide)
  have hin : octetString sevens.val <:+: tokenless := (List.suffix_append _ _).isInfix
  constructor
  · rw [verifyTimestampResponse_eq_ok_iff _ sevens.property]
    exact ⟨⟨_, _, hframed⟩, hin⟩
  · exact Strays.not_wellFormed ⟨hin, _, _, hframed, .inl (by decide)⟩

end Sample

end UnidppLog
