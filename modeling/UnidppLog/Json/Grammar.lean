/-
# The JSON grammar

The grammar of RFC 8259 as one derivation relation over its categories. A text
in it says nothing about a value yet: what is needed of an accepted text here is
its shape. What the printer writes for a plain value is derivable in every
layout.
-/

import UnidppLog.Json.Value
import Mathlib.Tactic.SplitIfs

namespace Json

/-- JSON white space. -/
def isWs (c : Char) : Bool :=
  c = ' ' || c = '\t' || c = '\n' || c = '\r'

/-- A run of white space. -/
def Ws (cs : List Char) : Prop :=
  ∀ c ∈ cs, isWs c = true

@[simp]
theorem ws_nil : Ws [] := by
  simp [Ws]

/-- A hexadecimal digit, in either case. -/
def isHex (c : Char) : Bool :=
  c.isDigit || ('a' ≤ c && c ≤ 'f') || ('A' ≤ c && c ≤ 'F')

/-- What stands between the quotes of a string. -/
inductive StringBody : List Char → Prop
  | nil : StringBody []
  | plain {c : Char} {cs : List Char} (hprint : 32 ≤ c.toNat) (hquote : c ≠ '"')
      (hescape : c ≠ '\\') : StringBody cs → StringBody (c :: cs)
  | escape {c : Char} {cs : List Char} (hc : c ∈ ['"', '\\', '/', 'b', 'f', 'n', 'r', 't']) :
      StringBody cs → StringBody ('\\' :: c :: cs)
  | unicode {h₁ h₂ h₃ h₄ : Char} {cs : List Char} (hhex : ∀ h ∈ [h₁, h₂, h₃, h₄], isHex h = true) :
      StringBody cs → StringBody ('\\' :: 'u' :: h₁ :: h₂ :: h₃ :: h₄ :: cs)

/-- A nonempty run of decimal digits. -/
def Digits (cs : List Char) : Prop :=
  cs ≠ [] ∧ ∀ c ∈ cs, c.isDigit = true

/-- The integer part of a number: no leading zero. -/
def IntPart (cs : List Char) : Prop :=
  cs = ['0'] ∨ (Digits cs ∧ cs.head? ≠ some '0')

/-- A number: a sign, an integer part, a fraction and an exponent. -/
def NumberText (cs : List Char) : Prop :=
  ∃ sign int frac exp, cs = sign ++ int ++ frac ++ exp ∧ (sign = [] ∨ sign = ['-']) ∧
    IntPart int ∧ (frac = [] ∨ ∃ ds, frac = '.' :: ds ∧ Digits ds) ∧
    (exp = [] ∨ ∃ e ds, exp = e ++ ds ∧ Digits ds ∧
      e ∈ [['e'], ['E'], ['e', '+'], ['e', '-'], ['E', '+'], ['E', '-']])

/-- The categories of the grammar. An element is a value with the white space
around it. -/
inductive Category
  | value
  | object
  | element
  | elements
  | member
  | members

/-- The texts of each category. -/
inductive Derives : Category → List Char → Prop
  | null : Derives .value ['n', 'u', 'l', 'l']
  | true : Derives .value ['t', 'r', 'u', 'e']
  | false : Derives .value ['f', 'a', 'l', 's', 'e']
  | number {cs : List Char} : NumberText cs → Derives .value cs
  | string {cs : List Char} : StringBody cs → Derives .value ('"' :: (cs ++ ['"']))
  | emptyArray {ws : List Char} : Ws ws → Derives .value ('[' :: (ws ++ [']']))
  | array {cs : List Char} : Derives .elements cs → Derives .value ('[' :: (cs ++ [']']))
  | object {cs : List Char} : Derives .object cs → Derives .value cs
  | emptyObject {ws : List Char} : Ws ws → Derives .object ('{' :: (ws ++ ['}']))
  | fields {cs : List Char} : Derives .members cs → Derives .object ('{' :: (cs ++ ['}']))
  | element {ws cs ws' : List Char} : Ws ws → Derives .value cs → Ws ws' →
      Derives .element (ws ++ cs ++ ws')
  | oneElement {cs : List Char} : Derives .element cs → Derives .elements cs
  | moreElements {cs rest : List Char} : Derives .element cs → Derives .elements rest →
      Derives .elements (cs ++ ',' :: rest)
  | member {ws key ws' cs : List Char} : Ws ws → StringBody key → Ws ws' →
      Derives .element cs → Derives .member (ws ++ '"' :: (key ++ '"' :: (ws' ++ ':' :: cs)))
  | oneMember {cs : List Char} : Derives .member cs → Derives .members cs
  | moreMembers {cs rest : List Char} : Derives .member cs → Derives .members rest →
      Derives .members (cs ++ ',' :: rest)

/-- The text of an object, with white space around it. -/
def ObjectText (cs : List Char) : Prop :=
  ∃ ws body ws', cs = ws ++ body ++ ws' ∧ Ws ws ∧ Derives .object body ∧ Ws ws'

theorem isHex_hexDigit {n : ℕ} (hn : n < 16) : isHex (hexDigit n) = true := by
  have hall : ∀ m : Fin 16, isHex (hexDigit m) = true := by decide
  exact hall ⟨n, hn⟩

/-- The characters with an escape of two, each with the letter of it. -/
def shortEscapes : List (Char × Char) :=
  [('"', '"'), ('\\', '\\'), ('\n', 'n'), ('\r', 'r'), ('\t', 't'), (Char.ofNat 8, 'b'),
    (Char.ofNat 12, 'f')]

/-- How a character is written in a string. -/
theorem escapeChar_cases (c : Char) :
    (∃ e, (c, e) ∈ shortEscapes ∧ escapeChar c = ['\\', e]) ∨
      (c.toNat < 32 ∧ escapeChar c =
        ['\\', 'u', '0', '0', hexDigit (c.toNat / 16), hexDigit (c.toNat % 16)]) ∨
      (32 ≤ c.toNat ∧ c ≠ '"' ∧ c ≠ '\\' ∧ escapeChar c = [c]) := by
  have hall : ∀ p ∈ shortEscapes, escapeChar p.1 = ['\\', p.2] := by decide
  by_cases hshort : c ∈ shortEscapes.map Prod.fst
  · obtain ⟨p, hp, rfl⟩ := List.mem_map.mp hshort
    exact .inl ⟨p.2, hp, hall p hp⟩
  · simp only [shortEscapes, List.map_cons, List.map_nil, List.mem_cons, List.not_mem_nil,
      or_false, not_or] at hshort
    obtain ⟨hquote, hslash, hn, hr, ht, hb, hf⟩ := hshort
    have hb' : c.toNat ≠ 8 := fun heq => hb (by rw [← heq, Char.ofNat_toNat])
    have hf' : c.toNat ≠ 12 := fun heq => hf (by rw [← heq, Char.ofNat_toNat])
    rw [escapeChar, if_neg hquote, if_neg hslash, if_neg hn, if_neg hr, if_neg ht, if_neg hb',
      if_neg hf']
    by_cases hcontrol : c.toNat < 32
    · rw [if_pos hcontrol]
      exact .inr (.inl ⟨hcontrol, rfl⟩)
    · rw [if_neg hcontrol]
      exact .inr (.inr ⟨Nat.not_lt.mp hcontrol, hquote, hslash, rfl⟩)

/-- An escaped character is one item of a string. -/
theorem StringBody.escapeChar (c : Char) {cs : List Char} (hcs : StringBody cs) :
    StringBody (Json.escapeChar c ++ cs) := by
  rcases escapeChar_cases c with ⟨e, he, heq⟩ | ⟨hcontrol, heq⟩ | ⟨hplain, hquote, hslash, heq⟩
  · have hall : ∀ p ∈ shortEscapes, p.2 ∈ ['"', '\\', '/', 'b', 'f', 'n', 'r', 't'] := by decide
    rw [heq]
    exact .escape (hall _ he) hcs
  · rw [heq]
    refine .unicode ?_ hcs
    simp only [List.mem_cons, List.not_mem_nil, or_false, forall_eq_or_imp, forall_eq]
    exact ⟨by decide, by decide, isHex_hexDigit (by omega), isHex_hexDigit (by omega)⟩
  · rw [heq]
    exact .plain hplain hquote hslash hcs

theorem closeString_eq (cs : List Char) :
    ∃ body, closeString cs = body ++ ['"'] ∧ StringBody body := by
  induction cs with
  | nil => exact ⟨[], rfl, .nil⟩
  | cons c rest ih =>
      obtain ⟨body, heq, hbody⟩ := ih
      exact ⟨escapeChar c ++ body, by rw [closeString, heq, List.append_assoc],
        .escapeChar c hbody⟩

theorem derives_quote (s : String) : Derives .value (quote s) := by
  obtain ⟨body, heq, hbody⟩ := closeString_eq s.toList
  rw [quote, heq]
  exact .string hbody

/-- The decimal digits of a positive number do not start with a zero. -/
theorem head?_toDigits {n : ℕ} (hn : 0 < n) : (Nat.toDigits 10 n).head? ≠ some '0' := by
  induction n using Nat.strong_induction_on with
  | _ n ih =>
      rcases Nat.lt_or_ge n 10 with hlt | hge
      · have hall : ∀ d : Fin 10, 0 < d.val → some (Nat.digitChar d) ≠ some '0' := by decide
        rw [Nat.toDigits_of_lt_base hlt]
        exact hall ⟨n, hlt⟩ hn
      · rw [Nat.toDigits_of_base_le (by omega) hge,
          List.head?_append_of_ne_nil _ Nat.toDigits_ne_nil]
        exact ih (n / 10) (by omega) (by omega)

theorem digits_toDigits (n : ℕ) : Digits (Nat.toDigits 10 n) :=
  ⟨Nat.toDigits_ne_nil, fun _ hc => Nat.isDigit_of_mem_toDigits (by omega) le_rfl hc⟩

theorem numberText_toDigits (n : ℕ) : NumberText (Nat.toDigits 10 n) := by
  refine ⟨[], Nat.toDigits 10 n, [], [], by simp, .inl rfl, ?_, .inl rfl, .inl rfl⟩
  rcases Nat.eq_zero_or_pos n with rfl | hpos
  · exact .inl (Nat.toDigits_zero 10)
  · exact .inr ⟨digits_toDigits n, head?_toDigits hpos⟩

/-- The layout's white space is white space. -/
structure Layout.Blank (layout : Layout) : Prop where
  line : ∀ depth, Ws (layout.line depth)
  colon : Ws layout.colon

theorem Layout.blank_compact : Layout.compact.Blank where
  line _ := ws_nil
  colon := ws_nil

theorem Layout.blank_pretty : Layout.pretty.Blank where
  line depth := by
    intro c hc
    rcases List.mem_cons.mp hc with rfl | hc
    · decide
    · rw [List.eq_of_mem_replicate hc]
      decide
  colon := by
    intro c hc
    rw [List.mem_singleton.mp hc]
    decide

namespace Value

variable {layout : Layout}

/-- A field as the printer writes it. -/
theorem derives_member (hblank : layout.Blank) {ws cs ws' : List Char} (hws : Ws ws)
    (key : String) (hcs : Derives .value cs) (hws' : Ws ws') :
    Derives .member (ws ++ quote key ++ ':' :: layout.colon ++ cs ++ ws') := by
  obtain ⟨body, hkey, hbody⟩ := closeString_eq key.toList
  have hmember := Derives.member hws hbody ws_nil (.element hblank.colon hcs hws')
  rw [quote, hkey]
  simpa using hmember

mutual

/-- The text of a plain value is a value of the grammar. -/
theorem derives_render (hblank : layout.Blank) (depth : ℕ) : ∀ v : Value, v.Plain →
    Derives .value (v.render layout depth)
  | .null, _ => by rw [render]; exact .null
  | .bool true, _ => by rw [render]; exact .true
  | .bool false, _ => by rw [render]; exact .false
  | .number (.posInt n), _ => by
      rw [render]
      exact .number (numberText_toDigits n.toNat)
  | .string s, _ => by
      rw [render]
      exact derives_quote s
  | .array [], _ => by rw [render]; exact .emptyArray ws_nil
  | .array (v :: rest), hplain => by
      rw [Plain, PlainItems] at hplain
      have hhead := derives_render hblank (depth + 1) v hplain.1
      obtain ⟨tail, heq, htail⟩ := derives_moreItems hblank depth rest hplain.2
      rw [render, heq]
      simpa using Derives.array (htail _ _ (hblank.line (depth + 1)) hhead)
  | .object [], _ => by rw [render]; exact .object (.emptyObject ws_nil)
  | .object ((key, v) :: rest), hplain => by
      rw [Plain, PlainFields] at hplain
      have hhead := derives_render hblank (depth + 1) v hplain.2.1
      obtain ⟨tail, heq, htail⟩ := derives_moreFields hblank depth rest hplain.2.2
      rw [render, heq]
      have hfields := Derives.fields (htail _ key _ (hblank.line (depth + 1)) hhead)
      exact .object (by simpa using hfields)

theorem derives_moreItems (hblank : layout.Blank) (depth : ℕ) : ∀ items : List Value,
    PlainItems items → ∃ tail, renderMoreItems layout depth items = tail ++ [']'] ∧
      ∀ ws cs, Ws ws → Derives .value cs → Derives .elements (ws ++ cs ++ tail)
  | [], _ => by
      refine ⟨layout.line depth, by rw [renderMoreItems], fun ws cs hws hcs => ?_⟩
      exact .oneElement (.element hws hcs (hblank.line depth))
  | v :: rest, hplain => by
      rw [PlainItems] at hplain
      have hhead := derives_render hblank (depth + 1) v hplain.1
      obtain ⟨tail, heq, htail⟩ := derives_moreItems hblank depth rest hplain.2
      refine ⟨',' :: (layout.line (depth + 1) ++ v.render layout (depth + 1) ++ tail),
        by rw [renderMoreItems, heq]; simp, fun ws cs hws hcs => ?_⟩
      have helement : Derives .element (ws ++ cs) := by
        simpa using Derives.element hws hcs ws_nil
      exact .moreElements helement (htail _ _ (hblank.line (depth + 1)) hhead)

theorem derives_moreFields (hblank : layout.Blank) (depth : ℕ) :
    ∀ fields : List (String × Value), PlainFields fields →
      ∃ tail, renderMoreFields layout depth fields = tail ++ ['}'] ∧
        ∀ ws key cs, Ws ws → Derives .value cs →
          Derives .members (ws ++ quote key ++ ':' :: layout.colon ++ cs ++ tail)
  | [], _ => by
      refine ⟨layout.line depth, by rw [renderMoreFields], fun ws key cs hws hcs => ?_⟩
      exact .oneMember (derives_member hblank hws key hcs (hblank.line depth))
  | (name, v) :: rest, hplain => by
      rw [PlainFields] at hplain
      have hhead := derives_render hblank (depth + 1) v hplain.1
      obtain ⟨tail, heq, htail⟩ := derives_moreFields hblank depth rest hplain.2
      refine ⟨',' :: (layout.line (depth + 1) ++ quote name ++ ':' :: layout.colon ++
          v.render layout (depth + 1) ++ tail),
        by rw [renderMoreFields, heq]; simp, fun ws key cs hws hcs => ?_⟩
      have hmember : Derives .member (ws ++ quote key ++ ':' :: layout.colon ++ cs) := by
        simpa using derives_member hblank hws key hcs ws_nil
      exact .moreMembers hmember (htail _ name _ (hblank.line (depth + 1)) hhead)

end

/-- The compact text of an object is an object of the grammar. -/
theorem derives_compact_object {fields : List (String × Value)}
    (hplain : (Value.object fields).Plain) : Derives .object (Value.object fields).compact := by
  cases fields with
  | nil => exact .emptyObject ws_nil
  | cons f rest =>
      obtain ⟨key, v⟩ := f
      rw [Plain, PlainFields] at hplain
      obtain ⟨tail, heq, htail⟩ := derives_moreFields Layout.blank_compact 0 rest hplain.2.2
      have hfields := Derives.fields
        (htail _ key _ ws_nil (derives_render Layout.blank_compact 1 v hplain.2.1))
      rw [compact, render, heq]
      simpa using hfields

end Value

/-- No control character of ASCII. -/
def NoControl (cs : List Char) : Prop :=
  ∀ c ∈ cs, 32 ≤ c.toNat

@[simp]
theorem noControl_cons_iff {c : Char} {cs : List Char} :
    NoControl (c :: cs) ↔ 32 ≤ c.toNat ∧ NoControl cs := by
  simp [NoControl]

@[simp]
theorem noControl_append_iff {cs ds : List Char} :
    NoControl (cs ++ ds) ↔ NoControl cs ∧ NoControl ds := by
  simp only [NoControl, List.mem_append, or_imp, forall_and]

@[simp]
theorem noControl_nil : NoControl [] := by
  simp [NoControl]

theorem le_toNat_of_isHex {c : Char} (hc : isHex c = true) : 32 ≤ c.toNat := by
  by_contra hlt
  have hall : ∀ n : Fin 32, isHex (Char.ofNat n) = false := by decide
  have hnot := hall ⟨c.toNat, by omega⟩
  rw [Char.ofNat_toNat, hc] at hnot
  exact absurd hnot (by simp)

theorem noControl_escapeChar (c : Char) : NoControl (escapeChar c) := by
  rcases escapeChar_cases c with ⟨e, he, heq⟩ | ⟨hcontrol, heq⟩ | ⟨hplain, -, -, heq⟩
  · have hall : ∀ p ∈ shortEscapes, 32 ≤ p.2.toNat := by decide
    rw [heq]
    simp only [noControl_cons_iff, noControl_nil, and_true]
    exact ⟨by decide, hall _ he⟩
  · rw [heq]
    simp only [noControl_cons_iff, noControl_nil, and_true]
    refine ⟨by decide, by decide, by decide, by decide, ?_, ?_⟩
    · exact le_toNat_of_isHex (isHex_hexDigit (by omega))
    · exact le_toNat_of_isHex (isHex_hexDigit (by omega))
  · rw [heq]
    simp only [noControl_cons_iff, noControl_nil, and_true]
    exact hplain

theorem noControl_quote (s : String) : NoControl (quote s) := by
  have hclose : ∀ cs : List Char, NoControl (closeString cs) := by
    intro cs
    induction cs with
    | nil => simp [closeString]
    | cons c rest ih => simpa [closeString, noControl_escapeChar] using ih
  simpa [quote] using hclose s.toList

theorem noControl_toDigits (n : ℕ) : NoControl (Nat.toDigits 10 n) := by
  intro c hc
  refine le_toNat_of_isHex ?_
  rw [isHex, (digits_toDigits n).2 c hc]
  rfl

namespace Value

mutual

theorem noControl_render (depth : ℕ) : ∀ v : Value, v.Plain →
    NoControl (v.render .compact depth)
  | .null, _ => by simp [render]
  | .bool true, _ => by simp [render]
  | .bool false, _ => by simp [render]
  | .number (.posInt n), _ => by
      rw [render]
      exact noControl_toDigits n.toNat
  | .string s, _ => by
      rw [render]
      exact noControl_quote s
  | .array [], _ => by simp [render]
  | .array (v :: rest), hplain => by
      rw [Plain, PlainItems] at hplain
      have hhead := noControl_render (depth + 1) v hplain.1
      have hrest := noControl_moreItems depth rest hplain.2
      simp [render, hhead, hrest]
  | .object [], _ => by simp [render]
  | .object ((key, v) :: rest), hplain => by
      rw [Plain, PlainFields] at hplain
      have hhead := noControl_render (depth + 1) v hplain.2.1
      have hrest := noControl_moreFields depth rest hplain.2.2
      simp [render, noControl_quote, hhead, hrest]

theorem noControl_moreItems (depth : ℕ) : ∀ items : List Value, PlainItems items →
    NoControl (renderMoreItems .compact depth items)
  | [], _ => by simp [renderMoreItems]
  | v :: rest, hplain => by
      rw [PlainItems] at hplain
      have hhead := noControl_render (depth + 1) v hplain.1
      have hrest := noControl_moreItems depth rest hplain.2
      simp [renderMoreItems, hhead, hrest]

theorem noControl_moreFields (depth : ℕ) : ∀ fields : List (String × Value),
    PlainFields fields → NoControl (renderMoreFields .compact depth fields)
  | [], _ => by simp [renderMoreFields]
  | (key, v) :: rest, hplain => by
      rw [PlainFields] at hplain
      have hhead := noControl_render (depth + 1) v hplain.1
      have hrest := noControl_moreFields depth rest hplain.2
      simp [renderMoreFields, noControl_quote, hhead, hrest]

end

end Value

end Json
