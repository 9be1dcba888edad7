import TypeFlow.Rounding

/-!
# JSON values

Members of an object keep their order, and a name may occur several times:
whether that is an error is for the reader of a document to say.
-/

namespace TypeFlow

/-- One more than the largest number of 64 bits. -/
def wordBound : Nat := 0x10000000000000000

inductive Json where
  | null
  | bool (b : Bool)
  /-- A number of 64 bits at most, written with digits alone. -/
  | nat (n : Nat)
  /-- Any other number, of magnitude `significand * 10 ^ exponent`. Digits that
  a significand of 64 bits has no room for are left out. -/
  | number (significand : Nat) (exponent : Int)
  | text (s : String)
  /-- A text with half of a surrogate pair, which no string can hold. -/
  | brokenText
  | array (items : List Json)
  | object (members : List (String × Json))
  /-- An object with half of a surrogate pair in the name of a member. -/
  | brokenObject
  deriving Inhabited

namespace Json

mutual

def depth : Json → Nat
  | array items => depthItems items + 1
  | object members => depthMembers members + 1
  | _ => 0

def depthItems : List Json → Nat
  | [] => 0
  | j :: rest => max j.depth (depthItems rest)

def depthMembers : List (String × Json) → Nat
  | [] => 0
  | (_, j) :: rest => max j.depth (depthMembers rest)

end

/-- The largest power of ten in double precision. -/
def maxPower : Nat := 308

/-- Whether a number is finite when it is held in double precision as the
product of its significand and the power of ten, each rounded before they are
multiplied. -/
def finite (significand : Nat) (exponent : Int) : Bool :=
  significand = 0 || exponent < 0
    || (exponent ≤ maxPower
      && nearestDouble significand * nearestDouble (Nat.pow 10 exponent.toNat) < overflowBound)

mutual

/-- Whether every text and number in a value can be held in memory. -/
def holdable : Json → Bool
  | brokenText => false
  | brokenObject => false
  | number significand exponent => finite significand exponent
  | array items => holdableItems items
  | object members => holdableMembers members
  | _ => true

def holdableItems : List Json → Bool
  | [] => true
  | j :: rest => j.holdable && holdableItems rest

def holdableMembers : List (String × Json) → Bool
  | [] => true
  | (_, j) :: rest => j.holdable && holdableMembers rest

end

/-- The object with the given members, broken when the name of one is missing. -/
def ofMembers (members : List (Option String × Json)) : Json :=
  if members.all fun m => m.1.isSome then
    object (members.filterMap fun m => m.1.map fun name => (name, m.2))
  else brokenObject

def get? (j : Json) (name : String) : Option Json :=
  match j with
  | object members => (members.find? fun m => m.1 = name).map Prod.snd
  | _ => none

def ofText? : Option String → Json
  | some s => text s
  | none => null

def ofTexts (l : List String) : Json := array (l.map text)

def ofNats (l : List Nat) : Json := array (l.map nat)

end Json

end TypeFlow
