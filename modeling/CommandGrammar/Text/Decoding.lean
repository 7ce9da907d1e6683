/-!
# UTF-8

Bytes as characters. A byte that belongs to no character is left out of the text and shows as `none`.
-/

namespace CommandGrammar.Text

/-- The character whose form starts with the given bytes, and the length of that form. -/
def firstChar? : List UInt8 → Option (Char × Nat)
  | [] => none
  | a :: rest =>
    if a < 0x80 then some (Char.ofNat a.toNat, 1)
    else
      let tail (b : UInt8) : Bool := 0x80 ≤ b && b < 0xC0
      let low (b : UInt8) : Nat := b.toNat - 0x80
      match rest with
      | b :: rest =>
        if 0xC2 ≤ a && a < 0xE0 then
          if tail b then some (Char.ofNat ((a.toNat - 0xC0) * 64 + low b), 2) else none
        else match rest with
          | c :: rest =>
            if 0xE0 ≤ a && a < 0xF0 then
              let n := ((a.toNat - 0xE0) * 64 + low b) * 64 + low c
              if tail b && tail c && 0x800 ≤ n && !(0xD800 ≤ n && n < 0xE000) then
                some (Char.ofNat n, 3)
              else none
            else match rest with
              | d :: _ =>
                if 0xF0 ≤ a && a < 0xF5 then
                  let n := (((a.toNat - 0xF0) * 64 + low b) * 64 + low c) * 64 + low d
                  if tail b && tail c && tail d && 0x10000 ≤ n && n < 0x110000 then
                    some (Char.ofNat n, 4)
                  else none
                else none
              | [] => none
          | [] => none
      | [] => none

/-- The characters of a text and, as `none`, the bytes that belong to none. -/
def decodeBytes (bytes : List UInt8) : List (Option Char) :=
  go bytes 0
where
  /-- The first `skip` bytes belong to a character that has been seen. -/
  go : List UInt8 → Nat → List (Option Char)
    | [], _ => []
    | _ :: rest, skip + 1 => go rest skip
    | a :: rest, 0 =>
      match firstChar? (a :: rest) with
      | some (c, length) => some c :: go rest (length - 1)
      | none => none :: go rest 0

/-- The text, if every byte belongs to a character. -/
def ofBytes? (bytes : List UInt8) : Option (List Char) := (decodeBytes bytes).mapM id

end CommandGrammar.Text
