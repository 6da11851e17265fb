/-!
# JSON values

The values of the JSON format.  A number is kept as it is written, since
nothing here computes with numbers that were read.  Of several fields with one
key the last one counts.
-/

namespace Heptagon

inductive Json where
  | null
  | bool (b : Bool)
  | number (written : List Char)
  | string (s : String)
  | array (elements : List Json)
  | object (fields : List (String × Json))
  deriving Repr

namespace Json

mutual

/-- Values are compared part by part. -/
def decideEq : (a b : Json) → Decidable (a = b)
  | null, null => isTrue rfl
  | bool x, bool y => decidable_of_iff (x = y) (by simp)
  | number x, number y => decidable_of_iff (x = y) (by simp)
  | string x, string y => decidable_of_iff (x = y) (by simp)
  | array xs, array ys =>
      let _ := decideEqElements xs ys
      decidable_of_iff (xs = ys) (by simp)
  | object xs, object ys =>
      let _ := decideEqFields xs ys
      decidable_of_iff (xs = ys) (by simp)
  | null, bool _ | null, number _ | null, string _ | null, array _ | null, object _
  | bool _, null | bool _, number _ | bool _, string _ | bool _, array _ | bool _, object _
  | number _, null | number _, bool _ | number _, string _ | number _, array _
  | number _, object _ | string _, null | string _, bool _ | string _, number _
  | string _, array _ | string _, object _ | array _, null | array _, bool _ | array _, number _
  | array _, string _ | array _, object _ | object _, null | object _, bool _
  | object _, number _ | object _, string _ | object _, array _ => isFalse (by simp)

def decideEqElements : (as bs : List Json) → Decidable (as = bs)
  | [], [] => isTrue rfl
  | [], _ :: _ | _ :: _, [] => isFalse (by simp)
  | a :: as, b :: bs =>
      let _ := decideEq a b
      let _ := decideEqElements as bs
      decidable_of_iff (a = b ∧ as = bs) (by simp)

def decideEqFields : (as bs : List (String × Json)) → Decidable (as = bs)
  | [], [] => isTrue rfl
  | [], _ :: _ | _ :: _, [] => isFalse (by simp)
  | (k, a) :: as, (l, b) :: bs =>
      let _ := decideEq a b
      let _ := decideEqFields as bs
      decidable_of_iff (k = l ∧ a = b ∧ as = bs) (by simp [and_assoc])

end

instance : DecidableEq Json := decideEq

/-- The value of a field, if this is an object that has it. -/
def field? (key : String) : Json → Option Json
  | object fields => (fields.reverse.find? (·.1 == key)).map (·.2)
  | _ => none

/-- The first element, if this is an array that has one. -/
def first? : Json → Option Json
  | array (e :: _) => some e
  | _ => none

def string? : Json → Option String
  | string s => some s
  | _ => none

/-! ## Writing -/

/-- The text of a character of a string. -/
def escape (c : Char) : String :=
  if c = '"' then "\\\"" else if c = '\\' then "\\\\"
  else if c.toNat < 32 then
    let digits := Nat.toDigits 16 c.toNat
    "\\u" ++ String.ofList (List.replicate (4 - digits.length) '0' ++ digits)
  else String.singleton c

def quote (s : String) : String :=
  "\"" ++ String.join (s.toList.map escape) ++ "\""

mutual

/-- The text of a value, without blanks. -/
def render : Json → String
  | null => "null"
  | bool true => "true"
  | bool false => "false"
  | number written => String.ofList written
  | string s => quote s
  | array es => "[" ++ String.intercalate "," (renderElements es) ++ "]"
  | object fs =>
    String.singleton '{' ++ String.intercalate "," (renderFields fs) ++ String.singleton '}'

def renderElements : List Json → List String
  | [] => []
  | e :: es => e.render :: renderElements es

def renderFields : List (String × Json) → List String
  | [] => []
  | (key, e) :: fs => (quote key ++ ":" ++ e.render) :: renderFields fs

end

/-- A natural number as a value. -/
def ofNat (n : Nat) : Json := number (Nat.toDigits 10 n)

end Json

end Heptagon
