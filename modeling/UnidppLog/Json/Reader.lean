/-
# A JSON reader

A recursive-descent reader for plain values. It accepts nothing that the grammar
does not derive, and reads back whatever the printer writes, in every layout.
Numbers other than unsigned integers and escaped surrogates are outside what it
reads. The recursion is on a fuel that the length of the text always covers.
-/

import UnidppLog.Json.Grammar
import Mathlib.Algebra.Group.Nat.Defs
import Mathlib.Data.List.TakeWhile

namespace Json

/-- The value of a hexadecimal digit. -/
def hexValue (c : Char) : ℕ :=
  if c.isDigit then c.toNat - 48
  else if 'a' ≤ c then c.toNat - 87
  else c.toNat - 55

/-- The character behind a backslash. -/
def unescape (c : Char) : Option Char :=
  if c = '"' ∨ c = '\\' ∨ c = '/' then some c
  else if c = 'b' then some (Char.ofNat 8)
  else if c = 'f' then some (Char.ofNat 12)
  else if c = 'n' then some '\n'
  else if c = 'r' then some '\r'
  else if c = 't' then some '\t'
  else none

/-- The four digits behind `\u`. -/
def readUnicode : List Char → Option (Char × List Char)
  | h₁ :: h₂ :: h₃ :: h₄ :: rest =>
    let n := ((hexValue h₁ * 16 + hexValue h₂) * 16 + hexValue h₃) * 16 + hexValue h₄
    if [h₁, h₂, h₃, h₄].all isHex ∧ (n < 0xD800 ∨ 0xDFFF < n) then some (Char.ofNat n, rest)
    else none
  | _ => none

/-- What is behind a backslash. -/
def readEscape : List Char → Option (Char × List Char)
  | [] => none
  | e :: rest => if e = 'u' then readUnicode rest else (unescape e).map fun d => (d, rest)

/-- One item of a string that starts with `c`. -/
def readItem (c : Char) (rest : List Char) : Option (Char × List Char) :=
  if c = '\\' then readEscape rest
  else if c.toNat < 32 then none
  else some (c, rest)

/-- A string, from behind its opening quote. -/
def readString : ℕ → List Char → Option (List Char × List Char)
  | 0, _ => none
  | _ + 1, [] => none
  | fuel + 1, c :: rest =>
    if c = '"' then some ([], rest)
    else do
      let (d, rest) ← readItem c rest
      let (ds, rest) ← readString fuel rest
      return (d :: ds, rest)

/-- What is read off the front of a text as one item of a string. -/
theorem readItem_sound {c d : Char} {rest rest' : List Char} (hquote : c ≠ '"')
    (h : readItem c rest = some (d, rest')) :
    ∃ item, c :: rest = item ++ rest' ∧ ∀ body, StringBody body → StringBody (item ++ body) := by
  rw [readItem] at h
  split at h
  · next hslash =>
    subst hslash
    cases rest with
    | nil => simp [readEscape] at h
    | cons e rest =>
        rw [readEscape] at h
        split at h
        · next he =>
          subst he
          rw [readUnicode.eq_def] at h
          split at h
          · next h₁ h₂ h₃ h₄ rest =>
            simp only [Option.ite_none_right_eq_some, Option.some.injEq, Prod.mk.injEq] at h
            obtain ⟨⟨hhex, -⟩, -, rfl⟩ := h
            refine ⟨['\\', 'u', h₁, h₂, h₃, h₄], rfl, fun body hbody => .unicode ?_ hbody⟩
            exact fun c hc => List.all_eq_true.mp hhex c hc
          · simp at h
        · obtain ⟨d', hunescape, heq⟩ := Option.map_eq_some_iff.mp h
          obtain ⟨-, rfl⟩ := Prod.mk.inj heq
          refine ⟨['\\', e], rfl, fun body hbody => .escape ?_ hbody⟩
          rw [unescape] at hunescape
          split_ifs at hunescape with h₁ h₂ h₃ h₄ h₅ h₆ <;> simp_all
          rcases h₁ with rfl | rfl | rfl <;> simp
  · next hslash =>
    split at h
    · simp at h
    · next hcontrol =>
      obtain ⟨rfl, rfl⟩ := Prod.mk.inj (Option.some.inj h)
      exact ⟨[c], rfl, fun body hbody => .plain (by omega) hquote hslash hbody⟩

theorem readString_sound {fuel : ℕ} {cs ds rest : List Char}
    (h : readString fuel cs = some (ds, rest)) :
    ∃ body, cs = body ++ '"' :: rest ∧ StringBody body := by
  induction fuel generalizing cs ds with
  | zero => simp [readString] at h
  | succ fuel ih =>
      cases cs with
      | nil => simp [readString] at h
      | cons c cs =>
          rw [readString] at h
          split at h
          · next hquote =>
            subst hquote
            obtain ⟨-, rfl⟩ := Prod.mk.inj (Option.some.inj h)
            exact ⟨[], rfl, .nil⟩
          · next hquote =>
            simp only [Option.bind_eq_bind, Option.bind_eq_some_iff] at h
            obtain ⟨⟨d, mid⟩, hitem, ⟨ds', rest'⟩, hmore, heq⟩ := h
            obtain ⟨item, hsplit, hitem'⟩ := readItem_sound hquote hitem
            obtain ⟨-, rfl⟩ := Prod.mk.inj (Option.some.inj heq)
            obtain ⟨body, rfl, hbody⟩ := ih hmore
            exact ⟨item ++ body, by rw [hsplit, List.append_assoc], hitem' body hbody⟩

theorem hexValue_hexDigit {n : ℕ} (hn : n < 16) : hexValue (hexDigit n) = n := by
  have hall : ∀ m : Fin 16, hexValue (hexDigit m) = m := by decide
  exact hall ⟨n, hn⟩

/-- An escaped character is read back. -/
theorem readItem_escapeChar (c : Char) (rest : List Char) :
    ∃ head tail, escapeChar c = head :: tail ∧ head ≠ '"' ∧
      readItem head (tail ++ rest) = some (c, rest) := by
  rcases escapeChar_cases c with ⟨e, he, heq⟩ | ⟨hcontrol, heq⟩ | ⟨hplain, hquote, hslash, heq⟩
  · have hall : ∀ p ∈ shortEscapes, p.2 ≠ 'u' ∧ unescape p.2 = some p.1 := by decide
    obtain ⟨hne, hunescape⟩ := hall _ he
    refine ⟨_, _, heq, by decide, ?_⟩
    rw [readItem, if_pos rfl, List.singleton_append, readEscape, if_neg hne, hunescape]
    rfl
  · refine ⟨_, _, heq, by decide, ?_⟩
    have hhigh := isHex_hexDigit (show c.toNat / 16 < 16 by omega)
    have hlow := isHex_hexDigit (show c.toNat % 16 < 16 by omega)
    have hzero : isHex '0' = true := by decide
    have hvalue : hexValue '0' = 0 := by decide
    have hsum : c.toNat / 16 * 16 + c.toNat % 16 = c.toNat := Nat.div_add_mod' c.toNat 16
    simp only [readItem, readEscape, if_pos, List.cons_append, List.nil_append, readUnicode,
      List.all_cons, List.all_nil, hhigh, hlow, hzero, hvalue,
      hexValue_hexDigit (show c.toNat / 16 < 16 by omega),
      hexValue_hexDigit (show c.toNat % 16 < 16 by omega), Nat.zero_mul, Nat.zero_add, hsum,
      Char.ofNat_toNat]
    simp
    omega
  · exact ⟨c, [], heq, hquote, by
      rw [readItem, if_neg hslash, if_neg (Nat.not_lt.mpr hplain)]; rfl⟩

theorem length_le_closeString (cs : List Char) : cs.length ≤ (closeString cs).length := by
  induction cs with
  | nil => simp
  | cons c cs ih =>
      obtain ⟨head, tail, heq, -⟩ := readItem_escapeChar c []
      rw [closeString, heq, List.length_append, List.length_cons, List.length_cons]
      omega

/-- A string is read back. -/
theorem readString_closeString (cs rest : List Char) {fuel : ℕ} (hfuel : cs.length < fuel) :
    readString fuel (closeString cs ++ rest) = some (cs, rest) := by
  induction cs generalizing fuel with
  | nil =>
      obtain ⟨fuel, rfl⟩ := Nat.exists_eq_add_of_lt hfuel
      simp [closeString, readString]
  | cons c cs ih =>
      obtain ⟨fuel, rfl⟩ : ∃ k, fuel = k + 1 := ⟨fuel - 1, by omega⟩
      rw [List.length_cons] at hfuel
      obtain ⟨head, tail, heq, hhead, hitem⟩ := readItem_escapeChar c (closeString cs ++ rest)
      rw [closeString, heq, List.cons_append, List.cons_append, List.append_assoc, readString,
        if_neg hhead, hitem]
      simp [ih (show cs.length < fuel by omega)]

/-- An unsigned integer of 64 bits without a leading zero. -/
def readNumber (cs : List Char) : Option (Value × List Char) :=
  let digits := cs.takeWhile Char.isDigit
  let n := Nat.ofDigitChars 10 digits 0
  if digits ≠ [] ∧ (digits = ['0'] ∨ digits.head? ≠ some '0') ∧ n < 2 ^ 64 then
    some (.number (.posInt (UInt64.ofNat n)), cs.dropWhile Char.isDigit)
  else none

/-- A literal name. -/
def readLiteral (name : List Char) (v : Value) (cs : List Char) : Option (Value × List Char) :=
  if name <+: cs then some (v, cs.drop name.length) else none

/-- A value without brackets. -/
def readScalar (c : Char) (rest : List Char) : Option (Value × List Char) :=
  if c = '"' then
    (readString (rest.length + 1) rest).map fun p => (.string (String.ofList p.1), p.2)
  else if c = 'n' then readLiteral ['u', 'l', 'l'] .null rest
  else if c = 't' then readLiteral ['r', 'u', 'e'] (.bool true) rest
  else if c = 'f' then readLiteral ['a', 'l', 's', 'e'] (.bool false) rest
  else readNumber (c :: rest)

theorem readLiteral_eq_some_iff {name cs rest : List Char} {v w : Value} :
    readLiteral name v cs = some (w, rest) ↔ v = w ∧ cs = name ++ rest := by
  rw [readLiteral]
  constructor
  · intro h
    split at h
    · next hinitial =>
      obtain ⟨more, rfl⟩ := hinitial
      obtain ⟨rfl, rfl⟩ := Prod.mk.inj (Option.some.inj h)
      simp
    · simp at h
  · rintro ⟨rfl, rfl⟩
    simp

theorem readNumber_sound {cs rest : List Char} {v : Value}
    (h : readNumber cs = some (v, rest)) :
    ∃ body, cs = body ++ rest ∧ NumberText body ∧ ∃ n, v = .number n := by
  simp only [readNumber, Option.ite_none_right_eq_some, Option.some.injEq, Prod.mk.injEq] at h
  obtain ⟨⟨hne, hzero, -⟩, rfl, rfl⟩ := h
  refine ⟨cs.takeWhile Char.isDigit, List.takeWhile_append_dropWhile.symm,
    ⟨[], cs.takeWhile Char.isDigit, [], [], by simp, .inl rfl, ?_, .inl rfl, .inl rfl⟩, _, rfl⟩
  have hdigits : Digits (cs.takeWhile Char.isDigit) :=
    ⟨hne, fun c hc => List.mem_takeWhile_imp hc⟩
  exact hzero.imp id fun hhead => ⟨hdigits, hhead⟩

/-- A scalar that is read is a value of the grammar, and no object. -/
theorem readScalar_sound {c : Char} {rest rest' : List Char} {v : Value}
    (h : readScalar c rest = some (v, rest')) :
    ∃ body, c :: rest = body ++ rest' ∧ Derives .value body ∧ v.asObject = none := by
  rw [readScalar] at h
  split at h
  · next hquote =>
    subst hquote
    obtain ⟨⟨ds, more⟩, hread, heq⟩ := Option.map_eq_some_iff.mp h
    obtain ⟨rfl, rfl⟩ := Prod.mk.inj heq
    obtain ⟨body, rfl, hbody⟩ := readString_sound hread
    exact ⟨'"' :: (body ++ ['"']), by simp, .string hbody, rfl⟩
  split at h
  · next hn =>
    obtain ⟨rfl, rfl⟩ := readLiteral_eq_some_iff.mp h
    exact ⟨_, by rw [hn]; rfl, .null, rfl⟩
  split at h
  · next ht =>
    obtain ⟨rfl, rfl⟩ := readLiteral_eq_some_iff.mp h
    exact ⟨_, by rw [ht]; rfl, .true, rfl⟩
  split at h
  · next hf =>
    obtain ⟨rfl, rfl⟩ := readLiteral_eq_some_iff.mp h
    exact ⟨_, by rw [hf]; rfl, .false, rfl⟩
  · obtain ⟨body, hsplit, hbody, n, rfl⟩ := readNumber_sound h
    exact ⟨body, hsplit, .number hbody, rfl⟩

/-- What may follow a number: anything but a further digit. -/
def NoDigit (cs : List Char) : Prop :=
  ∀ c, cs.head? = some c → c.isDigit = false

theorem noDigit_cons {c : Char} (hc : c.isDigit = false) (cs : List Char) : NoDigit (c :: cs) := by
  intro d hd
  obtain rfl : c = d := by simpa using hd
  exact hc

theorem noDigit_nil : NoDigit [] := by
  simp [NoDigit]

theorem takeWhile_digits {ds rest : List Char} (hds : Digits ds) (hrest : NoDigit rest) :
    (ds ++ rest).takeWhile Char.isDigit = ds ∧ (ds ++ rest).dropWhile Char.isDigit = rest := by
  rw [List.takeWhile_append_of_pos hds.2, List.dropWhile_append_of_pos hds.2]
  cases rest with
  | nil => simp
  | cons c rest => simp [List.takeWhile, List.dropWhile, hrest c rfl]

theorem readNumber_toDigits (n : UInt64) {rest : List Char} (hrest : NoDigit rest) :
    readNumber (Nat.toDigits 10 n.toNat ++ rest) = some (.number (.posInt n), rest) := by
  obtain ⟨htake, hdrop⟩ := takeWhile_digits (digits_toDigits n.toNat) hrest
  have hzero : Nat.toDigits 10 n.toNat = ['0'] ∨
      (Nat.toDigits 10 n.toNat).head? ≠ some '0' := by
    rcases Nat.eq_zero_or_pos n.toNat with hn | hn
    · exact .inl (by rw [hn, Nat.toDigits_zero])
    · exact .inr (head?_toDigits hn)
  simp only [readNumber, htake, hdrop, Nat.ofDigitChars_ten_toDigits]
  rw [if_pos ⟨Nat.toDigits_ne_nil, hzero, n.toNat_lt⟩, UInt64.ofNat_toNat]

/-- A key and the colon behind it. -/
def readKey (cs : List Char) : Option (String × List Char) :=
  match cs.dropWhile isWs with
  | [] => none
  | c :: rest =>
    if c = '"' then do
      let (key, rest) ← readString (rest.length + 1) rest
      if (rest.dropWhile isWs).head? = some ':' then
        some (String.ofList key, (rest.dropWhile isWs).tail)
      else none
    else none

mutual

/-- A value, with white space in front of it. -/
def readValue : ℕ → List Char → Option (Value × List Char)
  | 0, _ => none
  | fuel + 1, cs =>
    match cs.dropWhile isWs with
    | [] => none
    | c :: rest =>
      if c = '[' then
        if (rest.dropWhile isWs).head? = some ']' then
          some (.array [], (rest.dropWhile isWs).tail)
        else do
          let (v, rest) ← readValue fuel rest
          let (items, rest) ← readMoreItems fuel rest
          return (.array (v :: items), rest)
      else if c = '{' then
        if (rest.dropWhile isWs).head? = some '}' then
          some (.object [], (rest.dropWhile isWs).tail)
        else do
          let (key, rest) ← readKey rest
          let (v, rest) ← readValue fuel rest
          let (fields, rest) ← readMoreFields fuel (insert [] key v) rest
          return (.object fields, rest)
      else readScalar c rest

/-- The rest of an array behind one of its items. -/
def readMoreItems : ℕ → List Char → Option (List Value × List Char)
  | 0, _ => none
  | fuel + 1, cs =>
    match cs.dropWhile isWs with
    | [] => none
    | c :: rest =>
      if c = ']' then some ([], rest)
      else if c = ',' then do
        let (v, rest) ← readValue fuel rest
        let (items, rest) ← readMoreItems fuel rest
        return (v :: items, rest)
      else none

/-- The rest of an object behind one of its fields, inserted into those read
before. -/
def readMoreFields : ℕ → List (String × Value) → List Char →
    Option (List (String × Value) × List Char)
  | 0, _, _ => none
  | fuel + 1, fields, cs =>
    match cs.dropWhile isWs with
    | [] => none
    | c :: rest =>
      if c = '}' then some (fields, rest)
      else if c = ',' then do
        let (key, rest) ← readKey rest
        let (v, rest) ← readValue fuel rest
        readMoreFields fuel (insert fields key v) rest
      else none

end

/-! ## Soundness -/

theorem exists_ws (cs : List Char) : ∃ ws, Ws ws ∧ cs = ws ++ cs.dropWhile isWs :=
  ⟨cs.takeWhile isWs, fun _ hc => List.mem_takeWhile_imp hc,
    List.takeWhile_append_dropWhile.symm⟩

theorem exists_ws_of_head? {cs : List Char} {c : Char}
    (h : (cs.dropWhile isWs).head? = some c) :
    ∃ ws, Ws ws ∧ cs = ws ++ c :: (cs.dropWhile isWs).tail := by
  obtain ⟨ws, hws, hsplit⟩ := exists_ws cs
  have hcons : cs.dropWhile isWs = c :: (cs.dropWhile isWs).tail := List.eq_cons_of_mem_head? h
  exact ⟨ws, hws, by rwa [← hcons]⟩

theorem readKey_sound {cs rest : List Char} {key : String} (h : readKey cs = some (key, rest)) :
    ∃ ws body ws', cs = ws ++ '"' :: (body ++ '"' :: (ws' ++ ':' :: rest)) ∧ Ws ws ∧
      StringBody body ∧ Ws ws' := by
  obtain ⟨ws, hws, hsplit⟩ := exists_ws cs
  rw [readKey] at h
  split at h
  · simp at h
  · next c more hmore =>
    rw [hmore] at hsplit
    split at h
    · next hquote =>
      subst hquote
      obtain ⟨⟨ds, behind⟩, hread, h⟩ := Option.bind_eq_some_iff.mp h
      simp only [Option.ite_none_right_eq_some, Option.some.injEq, Prod.mk.injEq] at h
      obtain ⟨hcolon, -, rfl⟩ := h
      obtain ⟨body, rfl, hbody⟩ := readString_sound hread
      obtain ⟨ws', hws', hbehind⟩ := exists_ws_of_head? hcolon
      exact ⟨ws, body, ws', by rw [hsplit, ← hbehind], hws, hbody, hws'⟩
    · simp at h

/-- What is read as a value is derived as one, and as an object if it is one. -/
def ValueSound (fuel : ℕ) : Prop :=
  ∀ cs v rest, readValue fuel cs = some (v, rest) →
    ∃ ws body, cs = ws ++ body ++ rest ∧ Ws ws ∧ Derives .value body ∧
      (v.asObject.isSome → Derives .object body)

/-- What is read behind an item completes the items of an array. -/
def ItemsSound (fuel : ℕ) : Prop :=
  ∀ cs items rest, readMoreItems fuel cs = some (items, rest) →
    ∃ tail, cs = tail ++ ']' :: rest ∧
      ∀ ws body, Ws ws → Derives .value body → Derives .elements (ws ++ body ++ tail)

/-- The text of a field, without white space behind it. -/
def FieldText (cs : List Char) : Prop :=
  ∀ trail, Ws trail → Derives .member (cs ++ trail)

/-- What is read behind a field completes the members of an object. -/
def FieldsSound (fuel : ℕ) : Prop :=
  ∀ fields cs fields' rest, readMoreFields fuel fields cs = some (fields', rest) →
    ∃ tail, cs = tail ++ '}' :: rest ∧ ∀ text, FieldText text → Derives .members (text ++ tail)

/-- A key and a value behind it are a field. -/
theorem ValueSound.field {fuel : ℕ} (hvalue : ValueSound fuel) {cs mid rest : List Char}
    {key : String} {v : Value} (hkey : readKey cs = some (key, mid))
    (hread : readValue fuel mid = some (v, rest)) :
    ∃ text, cs = text ++ rest ∧ FieldText text := by
  obtain ⟨ws, name, ws', rfl, hws, hname, hws'⟩ := readKey_sound hkey
  obtain ⟨lead, body, rfl, hlead, hbody, -⟩ := hvalue _ _ _ hread
  refine ⟨ws ++ '"' :: (name ++ '"' :: (ws' ++ ':' :: (lead ++ body))), by simp, ?_⟩
  intro trail htrail
  simpa using Derives.member hws hname hws' (.element hlead hbody htrail)

theorem ValueSound.succ {fuel : ℕ} (hvalue : ValueSound fuel) (hitems : ItemsSound fuel)
    (hfields : FieldsSound fuel) : ValueSound (fuel + 1) := by
  intro cs v rest h
  obtain ⟨ws, hws, hsplit⟩ := exists_ws cs
  rw [readValue] at h
  split at h
  · simp at h
  next c more hmore =>
  rw [hmore] at hsplit
  subst hsplit
  split at h
  · next hopen =>
    subst hopen
    split at h
    · next hclose =>
      obtain ⟨rfl, rfl⟩ := Prod.mk.inj (Option.some.inj h)
      obtain ⟨ws', hws', hmore'⟩ := exists_ws_of_head? hclose
      refine ⟨ws, '[' :: (ws' ++ [']']), ?_, hws, .emptyArray hws', by simp [Value.asObject]⟩
      generalize (more.dropWhile isWs).tail = behind at hmore' ⊢
      rw [hmore']
      simp
    · simp only [Option.bind_eq_bind, Option.bind_eq_some_iff] at h
      obtain ⟨⟨w, mid⟩, hread, ⟨items, behind⟩, hmore', heq⟩ := h
      obtain ⟨rfl, rfl⟩ := Prod.mk.inj (Option.some.inj heq)
      obtain ⟨ws', body, rfl, hws', hbody, -⟩ := hvalue _ _ _ hread
      obtain ⟨tail, rfl, htail⟩ := hitems _ _ _ hmore'
      exact ⟨ws, '[' :: (ws' ++ body ++ tail ++ [']']), by simp, hws,
        .array (htail ws' body hws' hbody), by simp [Value.asObject]⟩
  split at h
  · next hopen =>
    subst hopen
    split at h
    · next hclose =>
      obtain ⟨rfl, rfl⟩ := Prod.mk.inj (Option.some.inj h)
      obtain ⟨ws', hws', hmore'⟩ := exists_ws_of_head? hclose
      have hobject := Derives.emptyObject hws'
      refine ⟨ws, '{' :: (ws' ++ ['}']), ?_, hws, .object hobject, fun _ => hobject⟩
      generalize (more.dropWhile isWs).tail = behind at hmore' ⊢
      rw [hmore']
      simp
    · simp only [Option.bind_eq_bind, Option.bind_eq_some_iff] at h
      obtain ⟨⟨key, mid⟩, hkey, ⟨w, behind⟩, hread, ⟨fields, last⟩, hmore', heq⟩ := h
      obtain ⟨rfl, rfl⟩ := Prod.mk.inj (Option.some.inj heq)
      obtain ⟨text, rfl, htext⟩ := hvalue.field hkey hread
      obtain ⟨tail, rfl, htail⟩ := hfields _ _ _ _ hmore'
      have hobject := Derives.fields (htail text htext)
      exact ⟨ws, '{' :: (text ++ tail ++ ['}']), by simp, hws, .object hobject, fun _ => hobject⟩
  · obtain ⟨body, hbody, hderives, hscalar⟩ := readScalar_sound h
    exact ⟨ws, body, by rw [hbody, List.append_assoc], hws, hderives, by simp [hscalar]⟩

theorem ItemsSound.succ {fuel : ℕ} (hvalue : ValueSound fuel) (hitems : ItemsSound fuel) :
    ItemsSound (fuel + 1) := by
  intro cs items rest h
  obtain ⟨ws, hws, hsplit⟩ := exists_ws cs
  rw [readMoreItems] at h
  split at h
  · simp at h
  next c more hmore =>
  rw [hmore] at hsplit
  subst hsplit
  split at h
  · next hclose =>
    subst hclose
    obtain ⟨rfl, rfl⟩ := Prod.mk.inj (Option.some.inj h)
    exact ⟨ws, rfl, fun ws' body hws' hbody => .oneElement (.element hws' hbody hws)⟩
  split at h
  · next hcomma =>
    subst hcomma
    simp only [Option.bind_eq_bind, Option.bind_eq_some_iff] at h
    obtain ⟨⟨w, mid⟩, hread, ⟨items', behind⟩, hmore', heq⟩ := h
    obtain ⟨rfl, rfl⟩ := Prod.mk.inj (Option.some.inj heq)
    obtain ⟨lead, body, rfl, hlead, hbody, -⟩ := hvalue _ _ _ hread
    obtain ⟨tail, rfl, htail⟩ := hitems _ _ _ hmore'
    refine ⟨ws ++ ',' :: (lead ++ body ++ tail), by simp, fun ws' body' hws' hbody' => ?_⟩
    have hall := Derives.moreElements (.element hws' hbody' hws) (htail lead body hlead hbody)
    simpa using hall
  · simp at h

theorem FieldsSound.succ {fuel : ℕ} (hvalue : ValueSound fuel) (hfields : FieldsSound fuel) :
    FieldsSound (fuel + 1) := by
  intro fields cs fields' rest h
  obtain ⟨ws, hws, hsplit⟩ := exists_ws cs
  rw [readMoreFields] at h
  split at h
  · simp at h
  next c more hmore =>
  rw [hmore] at hsplit
  subst hsplit
  split at h
  · next hclose =>
    subst hclose
    obtain ⟨rfl, rfl⟩ := Prod.mk.inj (Option.some.inj h)
    exact ⟨ws, rfl, fun text htext => .oneMember (htext ws hws)⟩
  split at h
  · next hcomma =>
    subst hcomma
    simp only [Option.bind_eq_bind, Option.bind_eq_some_iff] at h
    obtain ⟨⟨key, mid⟩, hkey, ⟨w, behind⟩, hread, hmore'⟩ := h
    obtain ⟨text, rfl, htext⟩ := hvalue.field hkey hread
    obtain ⟨tail, rfl, htail⟩ := hfields _ _ _ _ hmore'
    refine ⟨ws ++ ',' :: (text ++ tail), by simp, fun text' htext' => ?_⟩
    simpa using Derives.moreMembers (htext' ws hws) (htail text htext)
  · simp at h

/-- Everything that is read is derived by the grammar. -/
theorem read_sound (fuel : ℕ) : ValueSound fuel ∧ ItemsSound fuel ∧ FieldsSound fuel := by
  induction fuel with
  | zero => simp [ValueSound, ItemsSound, FieldsSound, readValue, readMoreItems, readMoreFields]
  | succ fuel ih =>
      obtain ⟨hvalue, hitems, hfields⟩ := ih
      exact ⟨hvalue.succ hitems hfields, hitems.succ hvalue, hfields.succ hvalue⟩

/-! ## Reading back what was printed -/

theorem dropWhile_ws {ws : List Char} (hws : Ws ws) {c : Char} (hc : isWs c = false)
    (cs : List Char) : (ws ++ c :: cs).dropWhile isWs = c :: cs := by
  rw [List.dropWhile_append_of_pos hws, List.dropWhile_cons_of_neg (by simp [hc])]

theorem readKey_quote {ws : List Char} (hws : Ws ws) (key : String) (rest : List Char) :
    readKey (ws ++ quote key ++ ':' :: rest) = some (key, rest) := by
  have hcolon : (':' :: rest).dropWhile isWs = ':' :: rest := rfl
  have hread : readString ((closeString key.toList ++ ':' :: rest).length + 1)
      (closeString key.toList ++ ':' :: rest) = some (key.toList, ':' :: rest) := by
    refine readString_closeString _ _ ?_
    have := length_le_closeString key.toList
    rw [List.length_append]
    omega
  rw [readKey, quote, List.append_assoc, List.cons_append, dropWhile_ws hws (by decide)]
  simp only [if_pos, hread, Option.bind_eq_bind, Option.bind_some, hcolon]
  simp

theorem readScalar_quote (s : String) (rest : List Char) :
    readScalar '"' (closeString s.toList ++ rest) = some (.string s, rest) := by
  have hread : readString ((closeString s.toList ++ rest).length + 1)
      (closeString s.toList ++ rest) = some (s.toList, rest) := by
    refine readString_closeString _ _ ?_
    have := length_le_closeString s.toList
    rw [List.length_append]
    omega
  rw [readScalar, if_pos rfl, hread]
  simp

theorem ne_of_isDigit {c d : Char} (hc : c.isDigit = true) (hd : d.isDigit = false) : c ≠ d := by
  rintro rfl
  simp [hc] at hd

/-- The digits of a number are read as that number. -/
theorem readScalar_toDigits (n : UInt64) {rest : List Char} (hrest : NoDigit rest) :
    ∃ c cs, Nat.toDigits 10 n.toNat = c :: cs ∧ c.isDigit = true ∧
      readScalar c (cs ++ rest) = some (.number (.posInt n), rest) := by
  obtain ⟨c, cs, heq⟩ := List.exists_cons_of_ne_nil (digits_toDigits n.toNat).1
  have hc : c.isDigit = true := (digits_toDigits n.toNat).2 c (by simp [heq])
  have hread := readNumber_toDigits n hrest
  rw [heq, List.cons_append] at hread
  refine ⟨c, cs, heq, hc, ?_⟩
  have hne : ∀ d : Char, d.isDigit = false → c ≠ d := fun _ => ne_of_isDigit hc
  rw [readScalar, if_neg (hne '"' rfl), if_neg (hne 'n' rfl), if_neg (hne 't' rfl),
    if_neg (hne 'f' rfl), hread]

theorem readScalar_null (rest : List Char) :
    readScalar 'n' (['u', 'l', 'l'] ++ rest) = some (.null, rest) := by
  rw [readScalar, if_neg (by decide), if_pos rfl]
  exact readLiteral_eq_some_iff.mpr ⟨rfl, rfl⟩

theorem readScalar_true (rest : List Char) :
    readScalar 't' (['r', 'u', 'e'] ++ rest) = some (.bool true, rest) := by
  rw [readScalar, if_neg (by decide), if_neg (by decide), if_pos rfl]
  exact readLiteral_eq_some_iff.mpr ⟨rfl, rfl⟩

theorem readScalar_false (rest : List Char) :
    readScalar 'f' (['a', 'l', 's', 'e'] ++ rest) = some (.bool false, rest) := by
  rw [readScalar, if_neg (by decide), if_neg (by decide), if_neg (by decide), if_pos rfl]
  exact readLiteral_eq_some_iff.mpr ⟨rfl, rfl⟩

/-- A scalar behind white space. -/
theorem readValue_scalar {fuel : ℕ} {ws rest cs : List Char} {c : Char} {v : Value} (hws : Ws ws)
    (hc : isWs c = false) (hopen : c ≠ '[' ∧ c ≠ '{')
    (hread : readScalar c cs = some (v, rest)) :
    readValue (fuel + 1) (ws ++ c :: cs) = some (v, rest) := by
  rw [readValue, dropWhile_ws hws hc]
  simp only [if_neg hopen.1, if_neg hopen.2, hread]

theorem isDigit_of_isWs {c : Char} (hc : isWs c = true) : c.isDigit = false := by
  simp only [isWs, Bool.or_eq_true, decide_eq_true_eq] at hc
  rcases hc with ((rfl | rfl) | rfl) | rfl <;> decide

theorem isWs_of_isDigit {c : Char} (hc : c.isDigit = true) : isWs c = false := by
  rw [Bool.eq_false_iff]
  intro hws
  simp [isDigit_of_isWs hws] at hc

theorem readValue_toDigits {fuel : ℕ} (n : UInt64) {ws rest : List Char} (hws : Ws ws)
    (hrest : NoDigit rest) :
    readValue (fuel + 1) (ws ++ (Nat.toDigits 10 n.toNat ++ rest)) =
      some (.number (.posInt n), rest) := by
  obtain ⟨c, cs, heq, hc, hread⟩ := readScalar_toDigits n hrest
  rw [heq]
  exact readValue_scalar hws (isWs_of_isDigit hc) ⟨ne_of_isDigit hc rfl, ne_of_isDigit hc rfl⟩
    hread

theorem noDigit_ws {ws : List Char} (hws : Ws ws) {c : Char} (hc : c.isDigit = false)
    (cs : List Char) : NoDigit (ws ++ c :: cs) := by
  cases ws with
  | nil => exact noDigit_cons hc cs
  | cons d ws => exact noDigit_cons (isDigit_of_isWs (hws d List.mem_cons_self)) _

section Layout

variable {layout : Layout}

/-- A printed value starts with a character that is neither white space nor a
closing bracket. -/
theorem exists_render (layout : Layout) (depth : ℕ) {v : Value} (hplain : v.Plain) :
    ∃ c cs, v.render layout depth = c :: cs ∧ isWs c = false ∧ c ≠ ']' := by
  match v, hplain with
  | .null, _ => exact ⟨'n', _, by rw [Value.render], by decide, by decide⟩
  | .bool true, _ => exact ⟨'t', _, by rw [Value.render], by decide, by decide⟩
  | .bool false, _ => exact ⟨'f', _, by rw [Value.render], by decide, by decide⟩
  | .number (.posInt n), _ =>
      obtain ⟨c, cs, heq, hc, -⟩ := readScalar_toDigits n noDigit_nil
      exact ⟨c, cs, by rw [Value.render, Number.text, heq], isWs_of_isDigit hc,
        ne_of_isDigit hc rfl⟩
  | .string s, _ => exact ⟨'"', _, by rw [Value.render, quote], by decide, by decide⟩
  | .array [], _ => exact ⟨'[', _, by rw [Value.render], by decide, by decide⟩
  | .array (v :: items), _ => exact ⟨'[', _, by rw [Value.render]; rfl, by decide, by decide⟩
  | .object [], _ => exact ⟨'{', _, by rw [Value.render], by decide, by decide⟩
  | .object (f :: fields), _ =>
      exact ⟨'{', _, by rw [Value.render]; rfl, by decide, by decide⟩

theorem noDigit_moreItems (hblank : layout.Blank) (depth : ℕ) (items : List Value)
    (rest : List Char) : NoDigit (Value.renderMoreItems layout depth items ++ rest) := by
  cases items with
  | nil =>
      rw [Value.renderMoreItems, List.append_assoc]
      exact noDigit_ws (hblank.line depth) rfl _
  | cons v items =>
      rw [Value.renderMoreItems]
      exact noDigit_cons rfl _

theorem noDigit_moreFields (hblank : layout.Blank) (depth : ℕ) (fields : List (String × Value))
    (rest : List Char) : NoDigit (Value.renderMoreFields layout depth fields ++ rest) := by
  cases fields with
  | nil =>
      rw [Value.renderMoreFields, List.append_assoc]
      exact noDigit_ws (hblank.line depth) rfl _
  | cons f fields =>
      rw [Value.renderMoreFields]
      exact noDigit_cons rfl _

mutual

/-- A printed value is read back. -/
theorem readValue_render (hblank : layout.Blank) (depth : ℕ) : ∀ v : Value, v.Plain →
    ∀ (fuel : ℕ) (ws rest : List Char), (v.render layout depth).length ≤ fuel → Ws ws →
      NoDigit rest → readValue (fuel + 1) (ws ++ (v.render layout depth ++ rest)) = some (v, rest)
  | .null, _, fuel, ws, rest, _, hws, _ => by
      rw [Value.render]
      exact readValue_scalar hws (by decide) (by decide) (readScalar_null rest)
  | .bool true, _, fuel, ws, rest, _, hws, _ => by
      rw [Value.render]
      exact readValue_scalar hws (by decide) (by decide) (readScalar_true rest)
  | .bool false, _, fuel, ws, rest, _, hws, _ => by
      rw [Value.render]
      exact readValue_scalar hws (by decide) (by decide) (readScalar_false rest)
  | .number (.posInt n), _, fuel, ws, rest, _, hws, hrest => by
      rw [Value.render, Number.text]
      exact readValue_toDigits n hws hrest
  | .string s, _, fuel, ws, rest, _, hws, _ => by
      rw [Value.render, quote]
      exact readValue_scalar hws (by decide) (by decide) (readScalar_quote s rest)
  | .array [], _, fuel, ws, rest, _, hws, _ => by
      have hclose : (']' :: rest).dropWhile isWs = ']' :: rest := rfl
      rw [Value.render, readValue, List.cons_append, dropWhile_ws hws (by decide)]
      simp [hclose]
  | .object [], _, fuel, ws, rest, _, hws, _ => by
      have hclose : ('}' :: rest).dropWhile isWs = '}' :: rest := rfl
      rw [Value.render, readValue, List.cons_append, dropWhile_ws hws (by decide)]
      simp [hclose]
  | .array (v :: items), hplain, fuel, ws, rest, hfuel, hws, _ => by
      rw [Value.Plain, Value.PlainItems] at hplain
      rw [Value.render] at hfuel ⊢
      simp only [List.length_append, List.length_cons] at hfuel
      obtain ⟨k, rfl⟩ : ∃ k, fuel = k + 1 := ⟨fuel - 1, by omega⟩
      have hhead := readValue_render hblank (depth + 1) v hplain.1 k (layout.line (depth + 1))
        (Value.renderMoreItems layout depth items ++ rest) (by omega) (hblank.line (depth + 1))
        (noDigit_moreItems hblank depth items rest)
      have hmore := readMoreItems_render hblank depth items hplain.2 k rest (by omega)
      obtain ⟨c, cs, heq, hc, hclose⟩ := exists_render layout (depth + 1) hplain.1
      have hopen : ((layout.line (depth + 1) ++ (v.render layout (depth + 1) ++
          (Value.renderMoreItems layout depth items ++ rest))).dropWhile isWs).head? ≠
            some ']' := by
        rw [heq, List.cons_append, dropWhile_ws (hblank.line (depth + 1)) hc]
        simpa using hclose
      rw [readValue]
      simp only [List.cons_append, List.append_assoc] at hhead hmore hopen ⊢
      rw [dropWhile_ws hws (by decide)]
      simp [hhead, hmore, hopen]
  | .object ((key, v) :: fields), hplain, fuel, ws, rest, hfuel, hws, _ => by
      rw [Value.Plain, Value.PlainFields] at hplain
      obtain ⟨hsorted, hv, hfields⟩ := hplain
      rw [Value.render] at hfuel ⊢
      simp only [List.length_append, List.length_cons] at hfuel
      obtain ⟨k, rfl⟩ : ∃ k, fuel = k + 1 := ⟨fuel - 1, by omega⟩
      have hkey := readKey_quote (hblank.line (depth + 1)) key (layout.colon ++
        (v.render layout (depth + 1) ++ (Value.renderMoreFields layout depth fields ++ rest)))
      have hhead := readValue_render hblank (depth + 1) v hv k layout.colon
        (Value.renderMoreFields layout depth fields ++ rest) (by omega) hblank.colon
        (noDigit_moreFields hblank depth fields rest)
      have hmore := readMoreFields_render hblank depth fields hfields k [(key, v)] rest hsorted
        (by omega)
      have hopen : ((layout.line (depth + 1) ++ '"' :: (closeString key.toList ++ ':' ::
          (layout.colon ++ (v.render layout (depth + 1) ++
            (Value.renderMoreFields layout depth fields ++ rest))))).dropWhile isWs).head? ≠
              some '}' := by
        rw [dropWhile_ws (hblank.line (depth + 1)) (by decide)]
        simp
      rw [readValue]
      simp only [quote, List.cons_append, List.append_assoc, List.nil_append]
        at hkey hhead hmore hopen ⊢
      rw [dropWhile_ws hws (by decide)]
      simp [hkey, hhead, hmore, hopen, insert]

theorem readMoreItems_render (hblank : layout.Blank) (depth : ℕ) : ∀ items : List Value,
    Value.PlainItems items → ∀ (fuel : ℕ) (rest : List Char),
      (Value.renderMoreItems layout depth items).length ≤ fuel →
        readMoreItems (fuel + 1) (Value.renderMoreItems layout depth items ++ rest) =
          some (items, rest)
  | [], _, fuel, rest, _ => by
      rw [Value.renderMoreItems, readMoreItems, List.append_assoc, List.singleton_append,
        dropWhile_ws (hblank.line depth) (by decide)]
      simp
  | v :: items, hplain, fuel, rest, hfuel => by
      rw [Value.PlainItems] at hplain
      rw [Value.renderMoreItems] at hfuel ⊢
      simp only [List.length_append, List.length_cons] at hfuel
      obtain ⟨k, rfl⟩ : ∃ k, fuel = k + 1 := ⟨fuel - 1, by omega⟩
      have hhead := readValue_render hblank (depth + 1) v hplain.1 k (layout.line (depth + 1))
        (Value.renderMoreItems layout depth items ++ rest) (by omega) (hblank.line (depth + 1))
        (noDigit_moreItems hblank depth items rest)
      have hmore := readMoreItems_render hblank depth items hplain.2 k rest (by omega)
      rw [readMoreItems]
      simp only [List.cons_append, List.append_assoc] at hhead hmore ⊢
      rw [List.dropWhile_cons_of_neg (by decide)]
      simp [hhead, hmore]

theorem readMoreFields_render (hblank : layout.Blank) (depth : ℕ) :
    ∀ fields : List (String × Value), Value.PlainFields fields →
      ∀ (fuel : ℕ) (before : List (String × Value)) (rest : List Char),
        SortedKeys (before ++ fields) →
          (Value.renderMoreFields layout depth fields).length ≤ fuel →
            readMoreFields (fuel + 1) before (Value.renderMoreFields layout depth fields ++ rest) =
              some (before ++ fields, rest)
  | [], _, fuel, before, rest, _, _ => by
      rw [Value.renderMoreFields, readMoreFields, List.append_assoc, List.singleton_append,
        dropWhile_ws (hblank.line depth) (by decide)]
      simp
  | (key, v) :: fields, hplain, fuel, before, rest, hsorted, hfuel => by
      rw [Value.PlainFields] at hplain
      rw [Value.renderMoreFields] at hfuel ⊢
      simp only [List.length_append, List.length_cons] at hfuel
      obtain ⟨k, rfl⟩ : ∃ k, fuel = k + 1 := ⟨fuel - 1, by omega⟩
      have hkey := readKey_quote (hblank.line (depth + 1)) key (layout.colon ++
        (v.render layout (depth + 1) ++ (Value.renderMoreFields layout depth fields ++ rest)))
      have hhead := readValue_render hblank (depth + 1) v hplain.1 k layout.colon
        (Value.renderMoreFields layout depth fields ++ rest) (by omega) hblank.colon
        (noDigit_moreFields hblank depth fields rest)
      have hinsert : insert before key v = before ++ [(key, v)] := by
        refine insert_of_lt fun f hf => ?_
        exact (List.pairwise_append.mp hsorted).2.2 f hf (key, v) List.mem_cons_self
      rw [List.append_cons] at hsorted
      have hmore := readMoreFields_render hblank depth fields hplain.2 k (before ++ [(key, v)])
        rest hsorted (by omega)
      rw [readMoreFields]
      simp only [List.cons_append, List.append_assoc, List.nil_append] at hkey hhead hmore ⊢
      rw [List.dropWhile_cons_of_neg (by decide)]
      simp [hkey, hhead, hinsert, hmore]

end

end Layout

/-- A text that is one value and white space. -/
def read (text : List Char) : Except String Value :=
  match readValue (text.length + 1) text with
  | none => .error "expected value"
  | some (v, rest) => if rest.all isWs then .ok v else .error "trailing characters"

theorem read_render {layout : Layout} (hblank : layout.Blank) {v : Value} (hplain : v.Plain) :
    read (v.render layout 0) = .ok v := by
  have hread := readValue_render hblank 0 v hplain _ [] [] le_rfl ws_nil noDigit_nil
  rw [List.append_nil, List.nil_append] at hread
  rw [read, hread]
  rfl

/-- What is read as an object is the text of one. -/
theorem objectText_of_read {text : List Char} {fields : List (String × Value)}
    (h : read text = .ok (.object fields)) : ObjectText text := by
  rw [read] at h
  split at h
  · simp at h
  · next v rest hread =>
    split at h
    · next hrest =>
      obtain rfl := Except.ok.inj h
      obtain ⟨ws, body, hsplit, hws, -, hobject⟩ := (read_sound _).1 _ _ _ hread
      exact ⟨ws, body, rest, hsplit, hws, hobject rfl, List.all_eq_true.mp hrest⟩
    · simp at h

end Json
