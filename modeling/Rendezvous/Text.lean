/-! Pieces of text of a fixed width, and text written into a buffer of a fixed size. -/

namespace Rendezvous.Text

/-- `s` with `fill` put before it up to `width` characters. -/
def padStart (width : Nat) (fill : Char) (s : String) : String :=
  String.ofList (List.replicate (width - s.length) fill) ++ s

/-- `s` with blanks put after it up to `width` characters. -/
def padEnd (width : Nat) (s : String) : String :=
  s ++ String.ofList (List.replicate (width - s.length) ' ')

/-- A number in hexadecimal digits. -/
def hex (n : Nat) : String :=
  String.ofList (Nat.toDigits 16 n)

/-- Writes fragments behind `written` into a buffer of `capacity` bytes. The first fragment that
    does not fit ends the writing; the flag tells whether all of them went in. -/
def fill (capacity : Nat) (written : String) : List String → String × Bool
  | [] => (written, true)
  | fragment :: rest =>
    if (written ++ fragment).utf8ByteSize ≤ capacity then fill capacity (written ++ fragment) rest
    else (written, false)

end Rendezvous.Text
