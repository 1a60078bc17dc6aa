import Mathlib.Data.Rat.Defs
import Mathlib.Data.List.Basic

/-!
# ECMAScript values

The values a program of the host language compares: strings as sequences of
UTF-16 code units, numbers, the scalars, and objects by reference.  `===` and
the relational operators follow the language definition; a comparison that
involves `NaN` has no answer, and all four operators are then false.

Positive and negative zero are one number here, as they are for `===`, for `Map`
keys and for the relational operators.  What depends on the Unicode tables or on
the contents of an object is left to the `Host`.
-/

namespace Js

/-- A string: its UTF-16 code units. -/
abbrev Text := List UInt16

instance : LawfulBEq Text := inferInstance

/-- The code units of one character: itself, or a surrogate pair. -/
def utf16 (c : Char) : Text :=
  if c.toNat < 0x10000 then [c.toNat.toUInt16]
  else [(0xD800 + (c.toNat - 0x10000) / 0x400).toUInt16,
    (0xDC00 + (c.toNat - 0x10000) % 0x400).toUInt16]

/-- A string literal. -/
def text (s : String) : Text := s.toList.flatMap utf16

/-- White space and line terminators, as `trim` removes them. -/
def isWhiteSpace (c : UInt16) : Bool :=
  c ∈ [0x9, 0xA, 0xB, 0xC, 0xD, 0x20, 0xA0, 0x1680, 0x2028, 0x2029, 0x202F, 0x205F, 0x3000, 0xFEFF]
    || (0x2000 ≤ c && c ≤ 0x200A)

def trim (s : Text) : Text :=
  ((s.dropWhile isWhiteSpace).reverse.dropWhile isWhiteSpace).reverse

/-- `s.startsWith(p)`. -/
def startsWith (s p : Text) : Bool := p.isPrefixOf s

/-- `s.endsWith(p)`. -/
def endsWith (s p : Text) : Bool := p.isSuffixOf s

/-- `s.includes(p)`. -/
def includes (s p : Text) : Bool := s.tails.any p.isPrefixOf

def joinWith (separator : Text) (parts : List Text) : Text := separator.intercalate parts

inductive Number
  | nan
  | negInfinity
  | finite (q : ℚ)
  | posInfinity
  deriving DecidableEq

namespace Number

/-- `a < b` on numbers, without an answer where one of them is `NaN`. -/
def less? : Number → Number → Option Bool
  | nan, _ => none
  | _, nan => none
  | negInfinity, b => some (b ≠ negInfinity)
  | posInfinity, _ => some false
  | finite _, negInfinity => some false
  | finite a, finite b => some (a < b)
  | finite _, posInfinity => some true

/-- `n > 0`. -/
def isPositive (n : Number) : Bool := less? (finite 0) n = some true

theorem less?_asymm {a b : Number} (h : a.less? b = some true) : b.less? a = some false := by
  cases a with
  | finite x =>
    cases b with
    | finite y =>
      simp only [less?, Option.some.injEq, decide_eq_true_eq, decide_eq_false_iff_not] at h ⊢
      exact fun hyx => Rat.not_lt.mpr (Rat.le_of_lt h) hyx
    | _ => simp_all [less?]
  | _ => cases b <;> simp_all [less?]

end Number

/-- What objects and strings are reduced to before they are compared. -/
inductive Primitive
  | number (n : Number)
  | string (s : Text)
  deriving DecidableEq

/-- A value.  Dates and other objects are compared by reference; a date also
shows its time value. -/
inductive Value
  | undefined
  | null
  | boolean (b : Bool)
  | number (n : Number)
  | string (s : Text)
  | date (ref : ℕ) (time : Number)
  | object (ref : ℕ)
  deriving DecidableEq

/-- What comes from the Unicode tables and from the contents of objects. -/
class Host where
  /-- `s.toLowerCase()`. -/
  toLowerCase : Text → Text
  /-- `Number(s)`. -/
  stringToNumber : Text → Number
  /-- `ToPrimitive` of an object, with the hint "number". -/
  objectToPrimitive : ℕ → Primitive
  /-- `JSON.stringify(v)`. -/
  stringify : Value → Text

export Host (toLowerCase)

/-- `String(n)`. -/
def numberText [Host] : Number → Text
  | .nan => text "NaN"
  | .negInfinity => text "-Infinity"
  | .posInfinity => text "Infinity"
  | .finite n => Host.stringify (.number (.finite n))

/-- `String(v)` for dates and other objects. -/
class ObjectText where
  objectText : Value → Text

/-- `String(v)`. -/
def valueText [Host] [ObjectText] : Value → Text
  | .undefined => text "undefined"
  | .null => text "null"
  | .boolean b => text (if b then "true" else "false")
  | .number n => numberText n
  | .string s => s
  | v => ObjectText.objectText v

/-- `v === undefined || v === null`. -/
def isNullish (v : Value) : Bool := v = .undefined || v = .null

/-- `a === b`. -/
def strictEq (a b : Value) : Bool := a = b && a ≠ .number .nan

theorem strictEq_iff {a b : Value} : strictEq a b ↔ a = b ∧ a ≠ .number .nan := by
  simp [strictEq]

namespace Primitive

variable [Host]

def toNumber : Primitive → Number
  | number n => n
  | string s => Host.stringToNumber s

/-- `a < b`: strings by code units, anything else by number. -/
def less? : Primitive → Primitive → Option Bool
  | string s, string t => some (s < t)
  | a, b => Number.less? a.toNumber b.toNumber

section

variable (a b : Primitive)

/-- `a === b` on strings and numbers. -/
def strictEq : Bool := a = b && a ≠ .number .nan

/-- What is less is not greater, and neither is `NaN`. -/
theorem less?_asymm {a b : Primitive} (h : a.less? b = some true) : b.less? a = some false := by
  match a, b with
  | string s, string t =>
    simp only [less?, Option.some.injEq, decide_eq_true_eq, decide_eq_false_iff_not] at h ⊢
    exact List.lt_asymm h
  | number m, number n => exact Number.less?_asymm h
  | number m, string t => exact Number.less?_asymm h
  | string s, number n => exact Number.less?_asymm h

def lt : Bool := less? a b = some true

def gt : Bool := less? b a = some true

def le : Bool := less? b a = some false

def ge : Bool := less? a b = some false

end

end Primitive

namespace Value

variable [Host]

/-- `ToPrimitive` and, for what is then not a string, `ToNumber`. -/
def toPrimitive : Value → Primitive
  | undefined => .number .nan
  | null => .number (.finite 0)
  | boolean b => .number (.finite (if b then 1 else 0))
  | number n => .number n
  | string s => .string s
  | date _ time => .number time
  | object ref => Host.objectToPrimitive ref

def lt (a b : Value) : Bool := a.toPrimitive.lt b.toPrimitive

def gt (a b : Value) : Bool := a.toPrimitive.gt b.toPrimitive

def le (a b : Value) : Bool := a.toPrimitive.le b.toPrimitive

def ge (a b : Value) : Bool := a.toPrimitive.ge b.toPrimitive

/-- `typeof v === "object"` fails, or `v` is `null`. -/
def isScalar : Value → Bool
  | date .. | object _ => false
  | _ => true

end Value

/-! ## A host for small texts -/

namespace Ascii

/-- The value of a decimal numeral. -/
def digits? : Text → Option ℕ
  | [] => some 0
  | s => s.foldl (fun n c =>
      if 0x30 ≤ c && c ≤ 0x39 then n.map fun n => 10 * n + (c.toNat - 0x30) else none) (some 0)

/-- What a host answers for ASCII texts without quotes, backslashes and control
characters, for integers, and for objects without methods of their own. -/
scoped instance host : Host where
  toLowerCase s := s.map fun c => if 0x41 ≤ c && c ≤ 0x5A then c + 0x20 else c
  stringToNumber s :=
    match digits? (trim s) with
    | some n => .finite n
    | none => .nan
  objectToPrimitive _ := .string (text "[object Object]")
  stringify
    | .undefined => text "undefined"
    | .boolean b => text (if b then "true" else "false")
    | .number (.finite q) => text (toString q.num)
    | .string s => text "\"" ++ s ++ text "\""
    | .object _ => text "\x7b\x7d"
    | _ => text "null"

scoped instance objectText : ObjectText := ⟨fun _ => text "[object Object]"⟩

end Ascii

end Js
