/-
# Where an object ends

A scanner that only counts brackets and knows when it is inside a string. It
follows every derivable text, and comes to rest exactly at the end of an object.
So no proper prefix of an object is an object, and no text put in front of an
object turns the two into one.
-/

import UnidppLog.Json.Grammar

namespace Json

/-- Where the scanner stands: between tokens, right behind a string, inside a
string, or behind a backslash in one. -/
inductive Mode
  | outside
  | closed
  | inside
  | escaped
  deriving DecidableEq

/-- The number of open brackets and the mode. -/
structure ScanState where
  depth : ℕ
  mode : Mode

/-- A character between tokens, with `depth` brackets open around it and one
more: a token cannot start right behind a string. -/
def ScanState.between (depth : ℕ) (mode : Mode) (c : Char) : Option ScanState :=
  if isWs c then some ⟨depth + 1, mode⟩
  else if c = ',' ∨ c = ':' then some ⟨depth + 1, .outside⟩
  else if c = '}' ∨ c = ']' then some ⟨depth, .outside⟩
  else if mode = .closed then none
  else if c = '{' ∨ c = '[' then some ⟨depth + 2, .outside⟩
  else if c = '"' then some ⟨depth + 1, .inside⟩
  else some ⟨depth + 1, .outside⟩

/-- One character. Nothing follows the bracket that closes the first one. -/
def ScanState.step : ScanState → Char → Option ScanState
  | ⟨0, _⟩, _ => none
  | ⟨depth + 1, .inside⟩, c =>
    if c = '"' then some ⟨depth + 1, .closed⟩
    else if c = '\\' then some ⟨depth + 1, .escaped⟩
    else some ⟨depth + 1, .inside⟩
  | ⟨depth + 1, .escaped⟩, _ => some ⟨depth + 1, .inside⟩
  | ⟨depth + 1, .outside⟩, c => between depth .outside c
  | ⟨depth + 1, .closed⟩, c => between depth .closed c

/-- A whole text. -/
def scan (state : ScanState) (cs : List Char) : Option ScanState :=
  cs.foldlM ScanState.step state

@[simp]
theorem scan_nil (state : ScanState) : scan state [] = some state :=
  rfl

@[simp]
theorem scan_cons (state : ScanState) (c : Char) (cs : List Char) :
    scan state (c :: cs) = (state.step c).bind fun next => scan next cs :=
  rfl

@[simp]
theorem scan_append (state : ScanState) (cs ds : List Char) :
    scan state (cs ++ ds) = (scan state cs).bind fun next => scan next ds := by
  simp [scan, List.foldlM_append]

theorem scan_ws {ws : List Char} (hws : Ws ws) (depth : ℕ) {mode : Mode}
    (hmode : mode = .outside ∨ mode = .closed) :
    scan ⟨depth + 1, mode⟩ ws = some ⟨depth + 1, mode⟩ := by
  induction ws with
  | nil => rfl
  | cons c ws ih =>
      have hc : isWs c = true := hws c List.mem_cons_self
      rw [scan_cons]
      have hstep : ScanState.step ⟨depth + 1, mode⟩ c = some ⟨depth + 1, mode⟩ := by
        rcases hmode with rfl | rfl <;> simp [ScanState.step, ScanState.between, hc]
      rw [hstep]
      exact ih fun d hd => hws d (List.mem_cons_of_mem c hd)

theorem isHex_ne {h : Char} (hhex : isHex h = true) : h ≠ '"' ∧ h ≠ '\\' := by
  constructor <;> rintro rfl <;> exact absurd hhex (by decide)

/-- The body of a string and its closing quote. -/
theorem scan_stringBody {body : List Char} (hbody : StringBody body) (depth : ℕ) :
    scan ⟨depth + 1, .inside⟩ (body ++ ['"']) = some ⟨depth + 1, .closed⟩ := by
  induction hbody with
  | nil => rfl
  | plain hprint hquote hescape _ ih =>
      simpa [ScanState.step, hquote, hescape] using ih
  | escape hc _ ih => simpa [ScanState.step] using ih
  | unicode hhex _ ih =>
      simp only [List.mem_cons, List.not_mem_nil, or_false, forall_eq_or_imp, forall_eq] at hhex
      obtain ⟨h₁, h₂, h₃, h₄⟩ := hhex
      simpa [ScanState.step, isHex_ne h₁, isHex_ne h₂, isHex_ne h₃, isHex_ne h₄] using ih

/-- A character of a literal or a number. -/
def isScalar (c : Char) : Prop :=
  isWs c = false ∧ c ∉ [',', ':', '}', ']', '{', '[', '"']

theorem scan_scalar {cs : List Char} (hcs : ∀ c ∈ cs, isScalar c) (depth : ℕ) :
    scan ⟨depth + 1, .outside⟩ cs = some ⟨depth + 1, .outside⟩ := by
  induction cs with
  | nil => rfl
  | cons c cs ih =>
      obtain ⟨hws, hc⟩ := hcs c List.mem_cons_self
      simp only [List.mem_cons, List.not_mem_nil, or_false, not_or] at hc
      have hstep : ScanState.step ⟨depth + 1, .outside⟩ c = some ⟨depth + 1, .outside⟩ := by
        simp [ScanState.step, ScanState.between, hws, hc]
      rw [scan_cons, hstep]
      exact ih fun d hd => hcs d (List.mem_cons_of_mem c hd)

/-- The scanner passes over the text between two tokens and ends at the depth it
started from. -/
def Balanced (cs : List Char) : Prop :=
  ∀ depth, ∃ mode, (mode = .outside ∨ mode = .closed) ∧
    scan ⟨depth + 1, .outside⟩ cs = some ⟨depth + 1, mode⟩

namespace Balanced

theorem ofWs {ws : List Char} (hws : Ws ws) : Balanced ws :=
  fun depth => ⟨.outside, .inl rfl, scan_ws hws depth (.inl rfl)⟩

theorem ofScalar {cs : List Char} (hcs : ∀ c ∈ cs, isScalar c) : Balanced cs :=
  fun depth => ⟨.outside, .inl rfl, scan_scalar hcs depth⟩

theorem ofString {body : List Char} (hbody : StringBody body) :
    Balanced ('"' :: (body ++ ['"'])) := by
  intro depth
  refine ⟨.closed, .inr rfl, ?_⟩
  rw [scan_cons]
  exact scan_stringBody hbody depth

/-- A closing bracket takes the scanner one level up. -/
theorem close {cs : List Char} (hcs : Balanced cs) {c : Char} (hc : c = '}' ∨ c = ']')
    (depth : ℕ) : scan ⟨depth + 1, .outside⟩ (cs ++ [c]) = some ⟨depth, .outside⟩ := by
  obtain ⟨mode, hmode, hscan⟩ := hcs depth
  rw [scan_append, hscan]
  rcases hmode with rfl | rfl <;> rcases hc with rfl | rfl <;> rfl

theorem bracket {cs : List Char} (hcs : Balanced cs) {o c : Char} (ho : o = '{' ∨ o = '[')
    (hc : c = '}' ∨ c = ']') : Balanced (o :: (cs ++ [c])) := by
  intro depth
  refine ⟨.outside, .inl rfl, ?_⟩
  have hopen : ScanState.step ⟨depth + 1, .outside⟩ o = some ⟨depth + 2, .outside⟩ := by
    rcases ho with rfl | rfl <;> rfl
  rw [scan_cons, hopen]
  exact hcs.close hc (depth + 1)

theorem surround {ws cs ws' : List Char} (hws : Ws ws) (hcs : Balanced cs) (hws' : Ws ws') :
    Balanced (ws ++ cs ++ ws') := by
  intro depth
  obtain ⟨mode, hmode, hscan⟩ := hcs depth
  refine ⟨mode, hmode, ?_⟩
  rw [scan_append, scan_append, scan_ws hws depth (.inl rfl), Option.bind_some, hscan]
  exact scan_ws hws' depth hmode

/-- A separator between two texts. -/
theorem separate {cs rest : List Char} (hcs : Balanced cs) (hrest : Balanced rest) {c : Char}
    (hc : c = ',' ∨ c = ':') : Balanced (cs ++ c :: rest) := by
  intro depth
  obtain ⟨mode, hmode, hscan⟩ := hcs depth
  obtain ⟨mode', hmode', hscan'⟩ := hrest depth
  refine ⟨mode', hmode', ?_⟩
  have hstep : ScanState.step ⟨depth + 1, mode⟩ c = some ⟨depth + 1, .outside⟩ := by
    rcases hmode with rfl | rfl <;> rcases hc with rfl | rfl <;> rfl
  rw [scan_append, hscan, Option.bind_some, scan_cons, hstep]
  exact hscan'

end Balanced

theorem isScalar_of_isDigit {c : Char} (hc : c.isDigit = true) : isScalar c := by
  refine ⟨?_, ?_⟩
  · rw [Bool.eq_false_iff]
    intro hws
    simp only [isWs, Bool.or_eq_true, decide_eq_true_eq] at hws
    rcases hws with ((rfl | rfl) | rfl) | rfl <;> exact absurd hc (by decide)
  · simp only [List.mem_cons, List.not_mem_nil, or_false]
    rintro (rfl | rfl | rfl | rfl | rfl | rfl | rfl) <;> exact absurd hc (by decide)

theorem isScalar_of_mem_numberText {cs : List Char} (hcs : NumberText cs) :
    ∀ c ∈ cs, isScalar c := by
  obtain ⟨sign, int, frac, exp, rfl, hsign, hint, hfrac, hexp⟩ := hcs
  have hdigits : ∀ ds : List Char, Digits ds → ∀ c ∈ ds, isScalar c :=
    fun ds hds c hc => isScalar_of_isDigit (hds.2 c hc)
  have hfixed : ∀ c ∈ ['-', '+', '.', 'e', 'E', '0'], isScalar c := by
    simp [isScalar, isWs]
  intro c hc
  simp only [List.mem_append] at hc
  rcases hc with ((hc | hc) | hc) | hc
  · rcases hsign with rfl | rfl
    · simp at hc
    · exact hfixed c (by simp at hc; simp [hc])
  · rcases hint with rfl | ⟨hint, -⟩
    · exact hfixed c (by simp at hc; simp [hc])
    · exact hdigits int hint c hc
  · rcases hfrac with rfl | ⟨ds, rfl, hds⟩
    · simp at hc
    · rcases List.mem_cons.mp hc with rfl | hc
      · exact hfixed '.' (by simp)
      · exact hdigits ds hds c hc
  · rcases hexp with rfl | ⟨e, ds, rfl, hds, he⟩
    · simp at hc
    · rcases List.mem_append.mp hc with hc | hc
      · refine hfixed c ?_
        simp only [List.mem_cons, List.not_mem_nil, or_false] at he
        rcases he with rfl | rfl | rfl | rfl | rfl | rfl <;> simp at hc <;> grind
      · exact hdigits ds hds c hc

/-- The scanner follows every text of the grammar. -/
theorem Derives.balanced {category : Category} {cs : List Char} (h : Derives category cs) :
    Balanced cs := by
  induction h with
  | null => exact .ofScalar (by simp [isScalar, isWs])
  | true => exact .ofScalar (by simp [isScalar, isWs])
  | false => exact .ofScalar (by simp [isScalar, isWs])
  | number hnumber => exact .ofScalar (isScalar_of_mem_numberText hnumber)
  | string hbody => exact .ofString hbody
  | emptyArray hws => exact (Balanced.ofWs hws).bracket (.inr rfl) (.inr rfl)
  | array _ ih => exact ih.bracket (.inr rfl) (.inr rfl)
  | object _ ih => exact ih
  | emptyObject hws => exact (Balanced.ofWs hws).bracket (.inl rfl) (.inl rfl)
  | fields _ ih => exact ih.bracket (.inl rfl) (.inl rfl)
  | element hws _ hws' ih => exact .surround hws ih hws'
  | oneElement _ ih => exact ih
  | moreElements _ _ ih ihrest => exact ih.separate ihrest (.inl rfl)
  | @member ws key ws' cs hws hkey hws' _ ih =>
      have hname := Balanced.surround hws (.ofString hkey) hws'
      simpa using hname.separate ih (.inr rfl)
  | oneMember _ ih => exact ih
  | moreMembers _ _ ih ihrest => exact ih.separate ihrest (.inl rfl)

/-- An object is an opening brace and a text that the scanner leaves by closing
that brace. -/
theorem Derives.object_eq {body : List Char} (h : Derives .object body) :
    ∃ inner, body = '{' :: (inner ++ ['}']) ∧ Balanced inner := by
  cases h with
  | emptyObject hws => exact ⟨_, rfl, .ofWs hws⟩
  | fields hmembers => exact ⟨_, rfl, hmembers.balanced⟩

/-- No proper prefix of an object is an object. -/
theorem Derives.eq_of_isPrefix {body whole : List Char} (hbody : Derives .object body)
    (hwhole : Derives .object whole) (hinitial : body <+: whole) : body = whole := by
  obtain ⟨inner, rfl, hinner⟩ := hbody.object_eq
  obtain ⟨inner', rfl, hinner'⟩ := hwhole.object_eq
  obtain ⟨rest, hrest⟩ := hinitial
  have heq : inner' ++ ['}'] = inner ++ ['}'] ++ rest := by
    simpa using hrest.symm
  cases rest with
  | nil => simpa using hrest
  | cons c rest =>
      have hdone := hinner'.close (.inl rfl) 0
      rw [heq, scan_append, hinner.close (.inl rfl) 0] at hdone
      simp [ScanState.step] at hdone

theorem Derives.head?_object {body : List Char} (h : Derives .object body) :
    body.head? = some '{' := by
  obtain ⟨inner, rfl, -⟩ := h.object_eq
  rfl

theorem Derives.getLast?_object {body : List Char} (h : Derives .object body) :
    body.getLast? = some '}' := by
  obtain ⟨inner, rfl, -⟩ := h.object_eq
  rw [← List.cons_append, List.getLast?_append_of_ne_nil _ (by simp)]
  rfl

/-- A prefix of an object that reads as an object is all of it. -/
theorem ObjectText.eq_of_isPrefix {text whole : List Char} (htext : ObjectText text)
    (hwhole : Derives .object whole) (hinitial : text <+: whole) : text = whole := by
  obtain ⟨ws, body, ws', rfl, hws, hbody, -⟩ := htext
  have hstart : ws = [] := by
    cases ws with
    | nil => rfl
    | cons c ws =>
        obtain ⟨rest, hrest⟩ := hinitial
        have hhead := hwhole.head?_object
        rw [← hrest] at hhead
        obtain rfl : c = '{' := by simpa using hhead
        exact absurd (hws '{' List.mem_cons_self) (by decide)
  subst hstart
  have hbodyPrefix : body <+: whole := (List.prefix_append body ws').trans (by simpa using hinitial)
  have heq := hbody.eq_of_isPrefix hwhole hbodyPrefix
  refine hinitial.eq_of_length_le ?_
  rw [heq]
  simp

/-- A character that no token boundary allows behind a string: a key that
starts with it cannot stand behind a closing quote. -/
def startsKey (c : Char) : Bool :=
  !isWs c && !(c = ',' || c = ':' || c = '}' || c = ']')

/-- An object whose first key starts with a letter, say, read from inside any
text: from between two tokens it leaves the brackets around it open, and from
inside a string its first quote closes that string and its key cannot follow. -/
theorem scan_object_ne_done {line rest : List Char} {c : Char} (hline : Derives .object line)
    (heq : line = '{' :: '"' :: c :: rest) (hc : startsKey c = true) (state : ScanState) :
    scan state line ≠ some ⟨0, .outside⟩ := by
  have hclosed : ∀ depth, ScanState.step ⟨depth + 1, .closed⟩ c = none := by
    intro depth
    simp only [startsKey, Bool.and_eq_true, Bool.not_eq_true', Bool.or_eq_false_iff,
      decide_eq_false_iff_not] at hc
    simp [ScanState.step, ScanState.between, hc]
  rcases state with ⟨_ | depth, mode⟩
  · rw [heq]
    simp [ScanState.step]
  · cases mode with
    | outside =>
        obtain ⟨mode, -, hscan⟩ := hline.balanced depth
        rw [hscan]
        simp
    | closed =>
        rw [heq]
        simp [ScanState.step, ScanState.between, isWs]
    | inside =>
        rw [heq]
        simp [ScanState.step] at hclosed ⊢
        simp [hclosed]
    | escaped =>
        rw [heq]
        simp [ScanState.step] at hclosed ⊢
        simp [hclosed]

/-- Whatever a text holds, an object written right behind it does not make the
two into one object. -/
theorem not_objectText_append {text line rest : List Char} {c : Char}
    (htext : ∃ d ∈ text, isWs d = false) (hline : Derives .object line)
    (heq : line = '{' :: '"' :: c :: rest) (hc : startsKey c = true) :
    ¬ ObjectText (text ++ line) := by
  rintro ⟨ws, body, ws', hsplit, hws, hbody, hafter⟩
  have hend : ws' = [] := by
    rcases List.eq_nil_or_concat ws' with rfl | ⟨front, last, rfl⟩
    · rfl
    · have hlast := congrArg List.getLast? hsplit
      rw [List.getLast?_append, hline.getLast?_object] at hlast
      obtain rfl : '}' = last := by simpa using hlast
      exact absurd (hafter '}' (by simp)) (by decide)
  subst hend
  rw [List.append_nil] at hsplit
  rcases List.append_eq_append_iff.mp hsplit with ⟨more, rfl, -⟩ | ⟨front, rfl, hfront⟩
  · obtain ⟨d, hd, hnot⟩ := htext
    rw [hws d (List.mem_append_left more hd)] at hnot
    exact absurd hnot (by simp)
  · -- The object starts within the text in front of the line.
    obtain ⟨inner, rfl, hinner⟩ := hbody.object_eq
    cases front with
    | nil =>
        obtain ⟨d, hd, hnot⟩ := htext
        rw [List.append_nil] at hd
        rw [hws d hd] at hnot
        exact absurd hnot (by simp)
    | cons o front =>
        rw [List.cons_append] at hfront
        obtain ⟨-, hrest⟩ := List.cons.inj hfront
        have hdone := hinner.close (.inl rfl) 0
        rw [hrest, scan_append] at hdone
        obtain ⟨state, -, hscan⟩ := Option.bind_eq_some_iff.mp hdone
        exact scan_object_ne_done hline heq hc state hscan

end Json
