import Ureth.Foundation.Cursor

/-!
# Well-formed UTF-8

The byte sequences a strict decoder accepts: shortest forms of Unicode scalar
values, no surrogates, nothing above U+10FFFF.
-/

namespace Ureth.Foundation

/-- A continuation byte. -/
def utf8Tail (b : UInt8) : Bool := 0x80 ≤ b && b ≤ 0xBF

/-- The second byte of a three-byte sequence, by its lead. -/
def utf8Second3 (a b : UInt8) : Bool :=
  if a = 0xE0 then 0xA0 ≤ b && b ≤ 0xBF
  else if a = 0xED then 0x80 ≤ b && b ≤ 0x9F
  else utf8Tail b

/-- The second byte of a four-byte sequence, by its lead. -/
def utf8Second4 (a b : UInt8) : Bool :=
  if a = 0xF0 then 0x90 ≤ b && b ≤ 0xBF
  else if a = 0xF4 then 0x80 ≤ b && b ≤ 0x8F
  else utf8Tail b

def validUtf8 : Bytes → Bool
  | [] => true
  | a :: rest =>
    if a < 0x80 then validUtf8 rest
    else match rest with
      | [] => false
      | b :: rest =>
        if 0xC2 ≤ a && a ≤ 0xDF then utf8Tail b && validUtf8 rest
        else match rest with
          | [] => false
          | c :: rest =>
            if 0xE0 ≤ a && a ≤ 0xEF then utf8Second3 a b && utf8Tail c && validUtf8 rest
            else match rest with
              | [] => false
              | d :: rest =>
                0xF0 ≤ a && a ≤ 0xF4 && utf8Second4 a b && utf8Tail c && utf8Tail d &&
                  validUtf8 rest

/-- A `String`: well-formed UTF-8 in an allocation of fewer than `2 ^ 63` bytes. -/
abbrev Text := { b : Bytes // validUtf8 b = true ∧ b.length < 2 ^ 63 }

/-- An owned string of well-formed UTF-8. -/
def Text.ofVec (v : ByteVec) (h : validUtf8 v.val = true) : Text := ⟨v.val, h, v.property⟩

@[simp] theorem Text.val_ofVec (v : ByteVec) (h : validUtf8 v.val = true) : (Text.ofVec v h).val = v.val := rfl

def Text.empty : Text := ⟨[], by decide⟩

example : validUtf8 [0x6E, 0xC3, 0xB8, 0xE2, 0x82, 0xAC] = true := by decide
example : validUtf8 [0xED, 0xA0, 0x80] = false := by decide

end Ureth.Foundation
