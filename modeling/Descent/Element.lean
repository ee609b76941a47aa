import Descent.Text.Quoted
import Descent.Text.Utf8

namespace Descent

inductive ElementKind
  | byte
  | char
  | uint16
  | uint32
  | uint64
  | int32
  | int64
deriving DecidableEq, Repr

namespace ElementKind

def Admits : ElementKind → Int → Prop
  | byte, c => 0 ≤ c ∧ c < 256
  | char, c => (0 ≤ c ∧ c < 0xD800) ∨ (0xE000 ≤ c ∧ c < 0x110000)
  | uint16, c => 0 ≤ c ∧ c < 0x10000
  | uint32, c => 0 ≤ c ∧ c < 0x100000000
  | uint64, c => 0 ≤ c ∧ c < 0x10000000000000000
  | int32, c => -0x80000000 ≤ c ∧ c < 0x80000000
  | int64, c => -0x8000000000000000 ≤ c ∧ c < 0x8000000000000000

instance (k : ElementKind) (c : Int) : Decidable (k.Admits c) := by
  cases k <;> unfold Admits <;> infer_instance

/-- Only bytes and characters have lines. -/
def isNewline (k : ElementKind) (c : Int) : Bool :=
  match k with
  | byte | char => c == 10
  | _ => false

/-- A byte shows as a quoted character when it is visible ASCII or a space. -/
def describe (k : ElementKind) (c : Int) : String :=
  match k with
  | byte =>
    if 0x20 ≤ c ∧ c ≤ 0x7E then "'" ++ (Char.ofNat c.toNat).toString ++ "'"
    else Text.byteHex c.toNat
  | char => Text.quote (Char.ofNat c.toNat)
  | _ => toString c

def describeAll (k : ElementKind) (codes : List Int) : String :=
  match k with
  | byte => String.ofList (Text.Utf8.decode (codes.map Int.toNat))
  | char => String.ofList (codes.map fun c => Char.ofNat c.toNat)
  | _ => "[" ++ ", ".intercalate (codes.map toString) ++ "]"

/-- The codes by which a text is given: its UTF-8 bytes, or its code points. -/
def codesOf (k : ElementKind) (text : String) : List Int :=
  match k with
  | byte => text.toUTF8.toList.map fun b => (b.toNat : Int)
  | _ => text.toList.map fun c => (c.toNat : Int)

end ElementKind

end Descent
