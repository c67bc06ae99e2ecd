/-
# JSON values and their text

A value as a JSON library hands it to its caller: objects are maps, kept as
lists of fields in the order of their keys. One printer serves the compact and
the pretty layout, which differ in the white space between the tokens; it
escapes what a string may not hold.
-/

import Mathlib.Data.Char
import Mathlib.Data.List.Lex

namespace Json

/-- A number: an unsigned or a negative integer of 64 bits, or a floating-point
number, held as the literal it prints as. -/
inductive Number
  | posInt (n : UInt64)
  | negInt (n : Int)
  | float (literal : String)
  deriving DecidableEq, Repr

/-- A JSON value. -/
inductive Value
  | null
  | bool (b : Bool)
  | number (n : Number)
  | string (s : String)
  | array (items : List Value)
  | object (fields : List (String × Value))

/-- The order of keys in a map: code point by code point, which is the order of
their UTF-8 bytes. -/
def keyLt (k l : String) : Prop :=
  k.toList < l.toList

instance (k l : String) : Decidable (keyLt k l) :=
  inferInstanceAs (Decidable (k.toList < l.toList))

theorem keyLt_trans {k l m : String} (hkl : keyLt k l) (hlm : keyLt l m) : keyLt k m :=
  lt_trans hkl hlm

theorem keyLt_of_not {k l : String} (hkl : ¬ keyLt k l) (hne : k ≠ l) : keyLt l k :=
  lt_of_le_of_ne (not_lt.mp hkl) fun heq => hne (String.toList_injective heq.symm)

theorem keyLt_irrefl (k : String) : ¬ keyLt k k :=
  lt_irrefl k.toList

/-- Insert a field in key order, replacing the value of a key that is there. -/
def insert (fields : List (String × Value)) (key : String) (v : Value) :
    List (String × Value) :=
  match fields with
  | [] => [(key, v)]
  | (k, w) :: rest =>
    if keyLt key k then (key, v) :: (k, w) :: rest
    else if key = k then (key, v) :: rest
    else (k, w) :: insert rest key v

/-- The keys of an object stand in strictly increasing order. -/
def SortedKeys (fields : List (String × Value)) : Prop :=
  fields.Pairwise fun f g => keyLt f.1 g.1

theorem mem_insert {fields : List (String × Value)} {key : String} {v : Value}
    {f : String × Value} (hmem : f ∈ insert fields key v) : f = (key, v) ∨ f ∈ fields := by
  induction fields with
  | nil => simpa [insert] using hmem
  | cons g rest ih =>
      obtain ⟨k, w⟩ := g
      rw [insert] at hmem
      split at hmem
      · simpa using hmem
      · split at hmem
        · rcases List.mem_cons.mp hmem with rfl | hrest
          · exact .inl rfl
          · exact .inr (List.mem_cons_of_mem _ hrest)
        · rcases List.mem_cons.mp hmem with rfl | hrest
          · exact .inr List.mem_cons_self
          · exact (ih hrest).imp id (List.mem_cons_of_mem _)

/-- Insertion keeps the keys in order. -/
theorem sortedKeys_insert {fields : List (String × Value)} (hsorted : SortedKeys fields)
    (key : String) (v : Value) : SortedKeys (insert fields key v) := by
  induction fields with
  | nil => simp [insert, SortedKeys]
  | cons g rest ih =>
      obtain ⟨k, w⟩ := g
      obtain ⟨hhead, hrest⟩ := List.pairwise_cons.mp hsorted
      rw [insert]
      split
      · next hlt =>
        refine List.pairwise_cons.mpr ⟨fun f hf => ?_, hsorted⟩
        rcases List.mem_cons.mp hf with rfl | hf
        · exact hlt
        · exact keyLt_trans hlt (hhead f hf)
      · next hge =>
        split
        · next heq =>
          subst heq
          exact List.pairwise_cons.mpr ⟨hhead, hrest⟩
        · next hne =>
          refine List.pairwise_cons.mpr ⟨fun f hf => ?_, ih hrest⟩
          rcases mem_insert hf with rfl | hf
          · exact keyLt_of_not hge hne
          · exact hhead f hf

/-- A key above all others goes to the end. -/
theorem insert_of_lt {fields : List (String × Value)} {key : String} {v : Value}
    (hlast : ∀ f ∈ fields, keyLt f.1 key) : insert fields key v = fields ++ [(key, v)] := by
  induction fields with
  | nil => rfl
  | cons g rest ih =>
      obtain ⟨k, w⟩ := g
      have hk : keyLt k key := hlast (k, w) List.mem_cons_self
      have hnot : ¬ keyLt key k := fun h => keyLt_irrefl k (keyLt_trans hk h)
      have hne : key ≠ k := by
        rintro rfl
        exact keyLt_irrefl key hk
      rw [insert, if_neg hnot, if_neg hne, ih fun f hf => hlast f (List.mem_cons_of_mem _ hf)]
      rfl

namespace Value

/-- These fields, inserted one after the other into a map. -/
def collect (fields acc : List (String × Value)) : List (String × Value) :=
  match fields with
  | [] => acc
  | (key, v) :: rest => collect rest (insert acc key v)

/-- The object with these fields. -/
def ofFields (fields : List (String × Value)) : Value :=
  .object (collect fields [])

theorem sortedKeys_collect (fields : List (String × Value)) {acc : List (String × Value)}
    (hsorted : SortedKeys acc) : SortedKeys (collect fields acc) := by
  induction fields generalizing acc with
  | nil => exact hsorted
  | cons f rest ih => exact ih (sortedKeys_insert hsorted f.1 f.2)

/-- The fields of an object. -/
def asObject : Value → Option (List (String × Value))
  | .object fields => some fields
  | _ => none

/-- The items of an array. -/
def asArray : Value → Option (List Value)
  | .array items => some items
  | _ => none

/-- The text of a string. -/
def asStr : Value → Option String
  | .string s => some s
  | _ => none

end Value

/-- The value of an unsigned integer. -/
def Number.asU64 : Number → Option UInt64
  | .posInt n => some n
  | _ => none

/-- The value of an unsigned integer. -/
def Value.asU64 : Value → Option UInt64
  | .number n => n.asU64
  | _ => none

/-- The value of a field of a map. -/
def lookup (fields : List (String × Value)) (key : String) : Option Value :=
  List.lookup key fields

/-- The value of a field, if this is an object that has it. -/
def Value.get (v : Value) (key : String) : Option Value :=
  v.asObject.bind fun fields => lookup fields key

/-- A hexadecimal digit, in lower case. -/
def hexDigit (n : ℕ) : Char :=
  Nat.digitChar n

/-- The escape of one character of a string. -/
def escapeChar (c : Char) : List Char :=
  if c = '"' then ['\\', '"']
  else if c = '\\' then ['\\', '\\']
  else if c = '\n' then ['\\', 'n']
  else if c = '\r' then ['\\', 'r']
  else if c = '\t' then ['\\', 't']
  else if c.toNat = 8 then ['\\', 'b']
  else if c.toNat = 12 then ['\\', 'f']
  else if c.toNat < 32 then
    ['\\', 'u', '0', '0', hexDigit (c.toNat / 16), hexDigit (c.toNat % 16)]
  else [c]

/-- The text of a string after its opening quote, the closing one included. -/
def closeString : List Char → List Char
  | [] => ['"']
  | c :: rest => escapeChar c ++ closeString rest

/-- The text of a string. -/
def quote (s : String) : List Char :=
  '"' :: closeString s.toList

/-- The text of a number. -/
def Number.text : Number → List Char
  | .posInt n => Nat.toDigits 10 n.toNat
  | .negInt n => '-' :: Nat.toDigits 10 n.natAbs
  | .float literal => literal.toList

/-- Where a printer puts white space: in front of an item or a closing bracket
at some depth, and behind a colon. -/
structure Layout where
  line : ℕ → List Char
  colon : List Char

/-- No white space at all. -/
def Layout.compact : Layout where
  line _ := []
  colon := []

@[simp]
theorem Layout.compact_line (depth : ℕ) : Layout.compact.line depth = [] :=
  rfl

@[simp]
theorem Layout.compact_colon : Layout.compact.colon = [] :=
  rfl

/-- Every item on a line of its own, two blanks further in for each bracket. -/
def Layout.pretty : Layout where
  line depth := '\n' :: List.replicate (2 * depth) ' '
  colon := [' ']

namespace Value

section Render

variable (layout : Layout)

mutual

/-- The text of a value inside `depth` brackets. -/
def render (depth : ℕ) : Value → List Char
  | .null => ['n', 'u', 'l', 'l']
  | .bool true => ['t', 'r', 'u', 'e']
  | .bool false => ['f', 'a', 'l', 's', 'e']
  | .number n => n.text
  | .string s => quote s
  | .array [] => ['[', ']']
  | .array (v :: rest) =>
    '[' :: layout.line (depth + 1) ++ render (depth + 1) v ++ renderMoreItems depth rest
  | .object [] => ['{', '}']
  | .object ((key, v) :: rest) =>
    '{' :: layout.line (depth + 1) ++ quote key ++ ':' :: layout.colon ++ render (depth + 1) v ++
      renderMoreFields depth rest

/-- The rest of an array after one of its items. -/
def renderMoreItems (depth : ℕ) : List Value → List Char
  | [] => layout.line depth ++ [']']
  | v :: rest =>
    ',' :: layout.line (depth + 1) ++ render (depth + 1) v ++ renderMoreItems depth rest

/-- The rest of an object after one of its fields. -/
def renderMoreFields (depth : ℕ) : List (String × Value) → List Char
  | [] => layout.line depth ++ ['}']
  | (key, v) :: rest =>
    ',' :: layout.line (depth + 1) ++ quote key ++ ':' :: layout.colon ++ render (depth + 1) v ++
      renderMoreFields depth rest

end

end Render

/-- The compact text of a value. -/
def compact (v : Value) : List Char :=
  v.render .compact 0

/-- The pretty text of a value. -/
def pretty (v : Value) : List Char :=
  v.render .pretty 0

mutual

/-- A value whose numbers are unsigned integers and whose objects have their
keys in order: what a program that builds values from such parts can print and
get back. -/
def Plain : Value → Prop
  | .null => True
  | .bool _ => True
  | .number (.posInt _) => True
  | .number _ => False
  | .string _ => True
  | .array items => PlainItems items
  | .object fields => SortedKeys fields ∧ PlainFields fields

def PlainItems : List Value → Prop
  | [] => True
  | v :: rest => Plain v ∧ PlainItems rest

def PlainFields : List (String × Value) → Prop
  | [] => True
  | (_, v) :: rest => Plain v ∧ PlainFields rest

end

mutual

/-- The number of brackets around the innermost value. -/
def depth : Value → ℕ
  | .array items => depthItems items + 1
  | .object fields => depthFields fields + 1
  | _ => 0

def depthItems : List Value → ℕ
  | [] => 0
  | v :: rest => max (depth v) (depthItems rest)

def depthFields : List (String × Value) → ℕ
  | [] => 0
  | (_, v) :: rest => max (depth v) (depthFields rest)

end

end Value

end Json
