/-
# What the readers accept

The reader of a head takes any JSON, and slices the signature's text two bytes at a
time. Where the slices go is said once, for every text: through numbers, up to the
end, to two bytes that are no number, or to a slice within a character. From that
follow what it rebuilds from either rendering of a head, and exactly which inputs it
is not strict on.
-/

import UnidppLog.Service
import UnidppLog.Verification

namespace UnidppLog

open Json (Value)
open Unidpp

section

/-- A hexadecimal digit, in either case. -/
def IsHexDigit (c : Char) : Prop :=
  (Hex.value c).isSome

/-- Two characters that `from_str_radix` reads: a digit, behind a digit or a plus sign. -/
def IsNumber (c d : Char) : Prop :=
  (c = '+' ∨ IsHexDigit c) ∧ IsHexDigit d

/-- A text of two-character numbers. -/
inductive Numbers : List Char → Prop
  | nil : Numbers []
  | cons {c d : Char} {rest : List Char} (hnumber : IsNumber c d) (hrest : Numbers rest) :
      Numbers (c :: d :: rest)

/-- A text whose first two bytes are not made of whole characters. -/
def Misaligned (cs : List Char) : Prop :=
  cs ≠ [] ∧ ∀ front, front <+: cs → (Text.encode front).length ≠ 2

theorem not_isHexDigit_plus : ¬ IsHexDigit '+' := by
  rw [IsHexDigit]
  decide

theorem exists_fromStrRadix_iff {c d : Char} :
    (∃ b, fromStrRadix c d = some b) ↔ IsNumber c d := by
  rw [fromStrRadix, IsNumber, IsHexDigit, IsHexDigit]
  split
  · next hplus => simp [hplus, Option.isSome_iff_exists]
  · next hplus =>
    rw [Hex.byte]
    cases hc : Hex.value c <;> cases hd : Hex.value d <;> simp [hplus]

theorem utf8Size_of_isHexDigit {c : Char} (h : IsHexDigit c) : c.utf8Size = 1 := by
  obtain ⟨n, hn⟩ := Option.isSome_iff_exists.mp h
  rw [Char.utf8Size_eq_one_iff, UInt32.le_iff_toNat_le]
  exact Nat.le_of_lt_succ (Hex.toNat_lt_of_value hn)

theorem IsNumber.utf8Size {c d : Char} (h : IsNumber c d) : c.utf8Size = 1 ∧ d.utf8Size = 1 := by
  refine ⟨?_, utf8Size_of_isHexDigit h.2⟩
  rcases h.1 with rfl | hc
  · decide
  · exact utf8Size_of_isHexDigit hc

theorem length_encode_cons (c : Char) (cs : List Char) :
    (Text.encode (c :: cs)).length = c.utf8Size + (Text.encode cs).length := by
  rw [Text.encode_cons, List.length_append, String.length_utf8EncodeChar]

/-- Two bytes at the head are whole characters if they are one or two of them. -/
theorem misaligned_cons_iff {c : Char} {rest : List Char} :
    Misaligned (c :: rest) ↔
      c.utf8Size ≠ 2 ∧ ∀ d, rest.head? = some d → c.utf8Size = 1 → d.utf8Size ≠ 1 := by
  constructor
  · rintro ⟨-, hfront⟩
    constructor
    · have hone := hfront [c] (by simp)
      rwa [length_encode_cons, Text.encode_nil] at hone
    · rintro d hd hc hd'
      obtain ⟨more, rfl⟩ : ∃ more, rest = d :: more := by
        cases rest with
        | nil => simp at hd
        | cons e more => exact ⟨more, by rw [Option.some.inj hd]⟩
      refine hfront [c, d] (by simp) ?_
      rw [length_encode_cons, length_encode_cons, hc, hd', Text.encode_nil]
      rfl
  · rintro ⟨hc, hrest⟩
    refine ⟨by simp, fun front hfront hlength => ?_⟩
    match front, hfront with
    | [], _ => simp at hlength
    | [e], hfront =>
        obtain ⟨rfl, -⟩ := List.cons_prefix_cons.mp hfront
        rw [length_encode_cons, Text.encode_nil] at hlength
        exact hc hlength
    | e :: d :: more, hfront =>
        obtain ⟨rfl, hmore⟩ := List.cons_prefix_cons.mp hfront
        have hhead : rest.head? = some d := by
          obtain ⟨back, rfl⟩ := hmore
          rfl
        have he := e.utf8Size_pos
        have hd := d.utf8Size_pos
        rw [length_encode_cons, length_encode_cons] at hlength
        exact hrest d hhead (by omega) (by omega)

theorem hexSlices_of_misaligned {cs : List Char} (h : Misaligned cs) : hexSlices cs = none := by
  match cs, h with
  | [], h => exact absurd rfl h.1
  | [c], h =>
      obtain ⟨htwo, -⟩ := misaligned_cons_iff.mp h
      simp [hexSlices, htwo]
  | c :: d :: rest, h =>
      obtain ⟨htwo, hsecond⟩ := misaligned_cons_iff.mp h
      have hd := hsecond d rfl
      by_cases hone : c.utf8Size = 1
      · simp [hexSlices, hone, hd hone]
      · simp [hexSlices, htwo, hone]

theorem hexSlices_of_isNumber {c d : Char} (h : IsNumber c d) (rest : List Char) :
    ∃ b, fromStrRadix c d = some b ∧
      hexSlices (c :: d :: rest) = (hexSlices rest).map fun bytes => bytes.map (b :: ·) := by
  obtain ⟨b, hb⟩ := exists_fromStrRadix_iff.mpr h
  obtain ⟨hc, hd⟩ := h.utf8Size
  exact ⟨b, hb, by simp [hexSlices, hc, hd, hb]⟩

/-- Two bytes that are whole characters and no number are refused. -/
theorem hexSlices_of_not_isNumber {cs : List Char} (hne : cs ≠ []) (hwhole : ¬ Misaligned cs)
    (hnumber : ∀ c d rest, cs = c :: d :: rest → ¬ IsNumber c d) : hexSlices cs = some none := by
  obtain ⟨c, rest, rfl⟩ := List.exists_cons_of_ne_nil hne
  by_cases htwo : c.utf8Size = 2
  · rw [hexSlices.eq_def]
    simp [htwo]
  · rw [misaligned_cons_iff] at hwhole
    obtain ⟨d, hd, hc, hd'⟩ : ∃ d, rest.head? = some d ∧ c.utf8Size = 1 ∧ d.utf8Size = 1 := by
      simpa [htwo] using hwhole
    obtain ⟨more, rfl⟩ : ∃ more, rest = d :: more := ⟨rest.tail, (List.cons_head?_tail hd).symm⟩
    cases hradix : fromStrRadix c d with
    | none => simp [hexSlices, hc, hd', hradix]
    | some b => exact absurd (exists_fromStrRadix_iff.mp ⟨b, hradix⟩) (hnumber c d more rfl)

/-- Numbers are decoded one by one. -/
theorem Numbers.hexSlices_append {front : List Char} (h : Numbers front) (back : List Char) :
    ∃ bytes, hexSlices (front ++ back) =
      (hexSlices back).map fun more => more.map (bytes ++ ·) := by
  induction h with
  | nil => exact ⟨[], by rcases hback : hexSlices back with - | (- | bytes) <;> simp [hback]⟩
  | @cons c d rest hnumber hrest ih =>
      obtain ⟨bytes, hbytes⟩ := ih
      obtain ⟨b, -, hb⟩ := hexSlices_of_isNumber hnumber (rest ++ back)
      refine ⟨b :: bytes, ?_⟩
      rw [List.cons_append, List.cons_append, hb, hbytes]
      cases hexSlices back with
      | none => rfl
      | some more => cases more <;> rfl

/-- Every text has numbers in front, as many as there are. -/
theorem exists_numbers (cs : List Char) :
    ∃ front back, cs = front ++ back ∧ Numbers front ∧
      ∀ c d rest, back = c :: d :: rest → ¬ IsNumber c d := by
  induction h : cs.length using Nat.strong_induction_on generalizing cs with
  | _ n ih =>
      by_cases hnumber : ∃ c d rest, cs = c :: d :: rest ∧ IsNumber c d
      · obtain ⟨c, d, rest, rfl, hnumber⟩ := hnumber
        obtain ⟨front, back, rfl, hfront, hback⟩ := ih rest.length (by simp at h; omega) rest rfl
        exact ⟨c :: d :: front, back, rfl, .cons hnumber hfront, hback⟩
      · exact ⟨[], cs, rfl, .nil, fun c d rest heq hcd => hnumber ⟨c, d, rest, heq, hcd⟩⟩

/-- A slice within a character is reached behind numbers only. -/
theorem hexSlices_eq_none_iff {cs : List Char} :
    hexSlices cs = none ↔ ∃ front back, cs = front ++ back ∧ Numbers front ∧ Misaligned back := by
  constructor
  · intro h
    obtain ⟨front, back, rfl, hfront, hback⟩ := exists_numbers cs
    obtain ⟨bytes, hbytes⟩ := hfront.hexSlices_append back
    refine ⟨front, back, rfl, hfront, ?_⟩
    by_contra hwhole
    rcases eq_or_ne back [] with rfl | hne
    · rw [hbytes] at h
      simp [hexSlices] at h
    · simp [hbytes, hexSlices_of_not_isNumber hne hwhole hback] at h
  · rintro ⟨front, back, rfl, hfront, hback⟩
    obtain ⟨bytes, hbytes⟩ := hfront.hexSlices_append back
    rw [hbytes, hexSlices_of_misaligned hback]
    rfl

/-- A text is decoded if it is made of numbers. -/
theorem exists_hexSlices_iff {cs : List Char} :
    (∃ bytes, hexSlices cs = some (some bytes)) ↔ Numbers cs := by
  constructor
  · rintro ⟨bytes, h⟩
    obtain ⟨front, back, rfl, hfront, hback⟩ := exists_numbers cs
    obtain ⟨more, hmore⟩ := hfront.hexSlices_append back
    rcases eq_or_ne back [] with rfl | hne
    · rwa [List.append_nil]
    · by_cases hwhole : Misaligned back
      · simp [hmore, hexSlices_of_misaligned hwhole] at h
      · simp [hmore, hexSlices_of_not_isNumber hne hwhole hback] at h
  · intro h
    obtain ⟨bytes, hbytes⟩ := h.hexSlices_append []
    rw [List.append_nil] at hbytes
    exact ⟨_, hbytes⟩

/-- Without a plus sign, a text is that of the bytes that it decodes to, in lower case. -/
theorem text_of_hexSlices {cs : List Char} (h : Numbers cs) (hplus : '+' ∉ cs)
    {bytes : List UInt8} (hbytes : hexSlices cs = some (some bytes)) :
    (∀ c ∈ cs, IsHexDigit c) ∧ Hex.text bytes = cs.map Char.toLower := by
  induction h generalizing bytes with
  | nil =>
      obtain rfl := Option.some.inj (Option.some.inj hbytes)
      exact ⟨by simp, rfl⟩
  | @cons c d rest hnumber hrest ih =>
      simp only [List.mem_cons, not_or] at hplus
      obtain ⟨hc, hd, hrestPlus⟩ := hplus
      obtain ⟨b, hb, hstep⟩ := hexSlices_of_isNumber hnumber rest
      rw [fromStrRadix, if_neg (Ne.symm hc)] at hb
      obtain ⟨more, hmore⟩ := exists_hexSlices_iff.mpr hrest
      rw [hstep, hmore] at hbytes
      obtain rfl := Option.some.inj (Option.some.inj hbytes)
      obtain ⟨hdigits, htext⟩ := ih hrestPlus hmore
      constructor
      · simp only [List.mem_cons, forall_eq_or_imp]
        exact ⟨hnumber.1.resolve_left (Ne.symm hc), hnumber.2, hdigits⟩
      · rw [Hex.text, List.flatMap_cons, Hex.digits_of_byte hb, ← Hex.text, htext]
        rfl

theorem Numbers.even_length {cs : List Char} (h : Numbers cs) : cs.length % 2 = 0 := by
  induction h with
  | nil => rfl
  | cons hnumber hrest ih =>
      rw [List.length_cons, List.length_cons]
      omega

theorem okOrT_bind_cases {α β : Type} {value : Option α} {error : String}
    {f : α → ExceptT String Option β} {Q : Prop}
    (h : ∀ a, value = some a → (∃ e, (f a).run = some (.error e)) ∨ Q) :
    (∃ e, (okOrT value error >>= f).run = some (.error e)) ∨ Q := by
  cases value with
  | none => exact .inl ⟨error, rfl⟩
  | some a => exact h a rfl

theorem except_bind_cases {α β : Type} {value : Except String α}
    {f : α → ExceptT String Option β} {Q : Prop}
    (h : ∀ a, value = .ok a → (∃ e, (f a).run = some (.error e)) ∨ Q) :
    (∃ e, (ExceptT.mk (some value) >>= f).run = some (.error e)) ∨ Q := by
  cases value with
  | error e => exact .inl ⟨e, rfl⟩
  | ok a => exact h a rfl

/-- A text of an even number of bytes that is decoded though it is not hexadecimal, or is
cut within a character: numbers with a plus sign in front of one, or numbers in front of
two bytes that are not made of whole characters. -/
def Loose (text : String) : Prop :=
  (Text.encode text.toList).length % 2 = 0 ∧
    (Numbers text.toList ∧ '+' ∈ text.toList ∨
      ∃ front back, text.toList = front ++ back ∧ Numbers front ∧ Misaligned back)

theorem Loose.not_decoded {text : String} (h : Loose text) :
    hexDecode text = none ∨ '+' ∈ text.toList ∧ ∃ bytes, hexDecode text = some (some bytes) := by
  obtain ⟨heven, ⟨hnumbers, hplus⟩ | hcut⟩ := h
  · refine .inr ⟨hplus, ?_⟩
    rw [hexDecode, if_neg (by omega)]
    exact exists_hexSlices_iff.mpr hnumbers
  · refine .inl ?_
    rw [hexDecode, if_neg (by omega)]
    exact hexSlices_eq_none_iff.mpr hcut

theorem hexDecode_of_not_loose {text : String} (h : ¬ Loose text) :
    hexDecode text = some none ∨ ∃ bytes, hexDecode text = some (some bytes) ∧
      text.toList.length % 2 = 0 ∧ (∀ c ∈ text.toList, IsHexDigit c) ∧
        hexEncode bytes = String.ofList (text.toList.map Char.toLower) := by
  by_cases hodd : (Text.encode text.toList).length % 2 ≠ 0
  · exact .inl (by rw [hexDecode, if_pos hodd])
  · have heven : (Text.encode text.toList).length % 2 = 0 := not_not.mp hodd
    rw [hexDecode, if_neg hodd]
    rcases hslices : hexSlices text.toList with - | (- | bytes)
    · exact absurd ⟨heven, .inr (hexSlices_eq_none_iff.mp hslices)⟩ h
    · exact .inl rfl
    · have hnumbers := exists_hexSlices_iff.mp ⟨bytes, hslices⟩
      have hplus : '+' ∉ text.toList := fun hplus => h ⟨heven, .inl ⟨hnumbers, hplus⟩⟩
      obtain ⟨hdigits, htext⟩ := text_of_hexSlices hnumbers hplus hslices
      exact .inr ⟨bytes, rfl, hnumbers.even_length, hdigits, by rw [hexEncode, htext]⟩

variable [Unidpp]

/-- A head whose reading gets as far as the signature's text has valid fields. -/
theorem exists_readsAs (v : Value) :
    (∃ e, (sthFromJson v).run = some (.error e)) ∨ ∃ sth text, ReadsAs v sth text := by
  rw [sthFromJson]
  refine okOrT_bind_cases fun obj hobj => ?_
  refine okOrT_bind_cases fun logId hlogId => ?_
  refine okOrT_bind_cases fun treeSize htreeSize => ?_
  refine okOrT_bind_cases fun timestamp htimestamp => ?_
  refine okOrT_bind_cases fun root hroot => ?_
  refine okOrT_bind_cases fun signature hsignature => ?_
  refine okOrT_bind_cases fun sig hsig => ?_
  refine okOrT_bind_cases fun suiteText hsuiteText => ?_
  refine except_bind_cases fun suite hsuite => ?_
  refine okOrT_bind_cases fun keyIdText hkeyIdText => ?_
  refine except_bind_cases fun keyId hkeyId => ?_
  have hfield : ∀ key, v.field [key] = Json.lookup obj key := fun key => by
    rw [Value.field_singleton, Value.get_of_asObject hobj]
  have hfieldSig : ∀ key, v.field ["signature", key] = Json.lookup sig key := fun key => by
    rw [Value.field, Value.get_of_asObject hobj, hsignature, Option.bind_some,
      Value.field_singleton, Value.get_of_asObject hsig]
  split
  · next text hvalue =>
    obtain ⟨timeText, htimeText, htime⟩ := Option.bind_eq_some_iff.mp htimestamp
    obtain ⟨rootText, hrootText, hrootHex⟩ := Option.bind_eq_some_iff.mp hroot
    refine .inr ⟨⟨logId, treeSize, timestamp, root, ⟨suite, keyId, none⟩⟩, text, ?_⟩
    constructor
    · rw [hfield, hlogId]
    · rw [hfield, htreeSize]
    · refine ⟨timeText, by rw [hfield, htimeText], ?_⟩
      cases hparse : parseTimestamp timeText with
      | error e => simp [hparse, Except.toOption] at htime
      | ok t => simpa [hparse, Except.toOption] using htime
    · exact ⟨rootText, by rw [hfield, hrootText], hrootHex⟩
    · exact ⟨suiteText, by rw [hfieldSig, hsuiteText], hsuite⟩
    · exact ⟨keyIdText, by rw [hfieldSig, hkeyIdText], hkeyId⟩
    · rw [hfieldSig, hvalue]
  · exact .inl ⟨_, rfl⟩

/-- The reader returns, and a head that it returns has its signature in hexadecimal: the
digits of its bytes are the text in lower case. -/
def StrictOn (v : Value) : Prop :=
  (sthFromJson v).run ≠ none ∧
    ∀ sth, (sthFromJson v).run = some (.ok sth) →
      ∃ text bytes, v.field ["signature", "value"] = some (.string text) ∧
        sth.signature.signature = some bytes ∧ text.toList.length % 2 = 0 ∧
        (∀ c ∈ text.toList, IsHexDigit c) ∧
        hexEncode bytes = String.ofList (text.toList.map Char.toLower)

/-- The reader is total and strict on all wire views but those whose other fields are
valid and whose signature's text is loose. -/
theorem strictOn_iff (v : Value) :
    StrictOn v ↔ ¬ ∃ sth text, ReadsAs v sth text ∧ Loose text := by
  constructor
  · rintro ⟨htotal, hstrict⟩ ⟨sth, text, hreads, hloose⟩
    rcases hloose.not_decoded with hnone | ⟨hplus, bytes, hbytes⟩
    · exact htotal (by rw [hreads.read, hnone]; rfl)
    · obtain ⟨text', -, hvalue, -, -, hdigits, -⟩ := hstrict (sth.withSignature bytes) (by
        rw [hreads.read, hbytes]
        rfl)
      rw [hreads.value] at hvalue
      obtain rfl := Value.string.inj (Option.some.inj hvalue)
      exact not_isHexDigit_plus (hdigits _ hplus)
  · intro hnot
    rcases exists_readsAs v with ⟨e, herror⟩ | ⟨sth, text, hreads⟩
    · rw [StrictOn, herror]
      simp
    · rw [StrictOn, hreads.read]
      rcases hexDecode_of_not_loose fun hloose => hnot ⟨sth, text, hreads, hloose⟩ with
        hnone | ⟨bytes, hbytes, heven, hdigits, htext⟩
      · rw [hnone]
        simp [Except.map]
      · rw [hbytes]
        refine ⟨by simp, fun sth' hsth' => ?_⟩
        obtain rfl := Except.ok.inj (Option.some.inj hsth')
        exact ⟨text, bytes, hreads.value, rfl, heven, hdigits, htext⟩

section

variable {sth : SignedTreeHead} {bytes : List UInt8}

theorem readsAs_treeHeadJson (hforms : RecordTextForms) (hsignature : SignatureTextForms)
    (operator : Operator) (tsa : Option TsaRecord)
    (hbytes : sth.signature.signature = some bytes) :
    ReadsAs (treeHeadJson operator (some sth) tsa) sth (hexEncode bytes) := by
  rw [treeHeadJson, hbytes]
  exact readsAs_of_lookup hforms hsignature rfl rfl rfl rfl rfl rfl rfl rfl

end

/-- A signed head is read back from either rendering of it, whatever stands beside it,
and a proof from its own. -/
theorem views_read_back (hforms : RecordTextForms) (hsignature : SignatureTextForms) :
    (∀ (sth : SignedTreeHead) (bytes : List UInt8), sth.signature.signature = some bytes →
      sthFromJson (sthJson sth) = pure sth ∧
        ∀ (operator : Operator) (tsa : Option TsaRecord),
          sthFromJson (treeHeadJson operator (some sth) tsa) = pure sth) ∧
    ∀ (proof : InclusionProof) (commitment : Hash),
      proofFromJson (proofJson proof commitment) = .ok proof :=
  ⟨fun _ _ hbytes =>
    ⟨(readsAs_sthJson hforms hsignature hbytes).read_back hbytes, fun operator tsa =>
      (readsAs_treeHeadJson hforms hsignature operator tsa hbytes).read_back hbytes⟩,
    proofFromJson_proofJson hforms⟩

end

namespace Sample

/-- A head over one entry. -/
def head : SignedTreeHead where
  logId := logId
  treeSize := 1
  timestamp := (⟨1, by decide⟩ : Fin 60)
  root := digest [1]
  signature := { suite := .ed25519, keyId := "key", signature := some [0xff, 0] }

theorem head_read_back :
    sthFromJson (sthJson head) = pure head ∧
      sthFromJson (treeHeadJson (app empty).operator (some head) none) = pure head ∧
        proofFromJson (proofJson ⟨0, 2, [⟨digest [2], .right⟩]⟩ (digest [1])) =
          .ok ⟨0, 2, [⟨digest [2], .right⟩]⟩ := by
  obtain ⟨hheads, hproofs⟩ := views_read_back recordTextForms signatureTextForms
  obtain ⟨hread, hserved⟩ := hheads head [0xff, 0] rfl
  exact ⟨hread, hserved _ _, hproofs _ _⟩

/-- A wire view of the head with another text for its signature. -/
def headJson (text : String) : Value :=
  .ofFields [
    ("log_id", .string head.logId),
    ("tree_size", .number (.posInt head.treeSize)),
    ("timestamp", .string (timestampToString head.timestamp)),
    ("root", .string (Unidpp.hex head.root)),
    ("signature", .ofFields [
      ("suite", .string (suiteAsStr head.signature.suite)),
      ("key_id", .string (keyIdAsStr head.signature.keyId)),
      ("value", .string text)])]

theorem readsAs_headJson (text : String) : ReadsAs (headJson text) head text := by
  rw [headJson]
  exact readsAs_of_lookup recordTextForms signatureTextForms rfl rfl rfl rfl rfl rfl rfl rfl

/-- A plus sign is decoded as if it were a zero, and a character of three bytes is cut. -/
theorem loose_texts_read :
    ((sthFromJson (headJson "+f")).run = some (.ok (head.withSignature [15])) ∧
      ¬ StrictOn (headJson "+f")) ∧
    (sthFromJson (headJson "€a")).run = none ∧ ¬ StrictOn (headJson "€a") := by
  have hplus : hexDecode "+f" = some (some [15]) := by decide
  have hcut : hexDecode "€a" = none := by decide
  refine ⟨⟨?_, ?_⟩, ?_, ?_⟩
  · rw [(readsAs_headJson "+f").read, hplus]
    rfl
  · rintro ⟨-, hstrict⟩
    obtain ⟨text, -, hvalue, -, -, hdigits, -⟩ := hstrict (head.withSignature [15]) (by
      rw [(readsAs_headJson "+f").read, hplus]
      rfl)
    rw [(readsAs_headJson "+f").value] at hvalue
    obtain rfl := Value.string.inj (Option.some.inj hvalue)
    exact not_isHexDigit_plus (hdigits '+' (by decide))
  · rw [(readsAs_headJson "€a").read, hcut]
    rfl
  · rintro ⟨htotal, -⟩
    exact htotal (by rw [(readsAs_headJson "€a").read, hcut]; rfl)

end Sample

end UnidppLog
