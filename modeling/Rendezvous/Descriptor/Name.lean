import Rendezvous.Limits

/-! Process names, cut to a fixed number of bytes without splitting a character. -/

namespace Rendezvous.Name

/-- The characters that take up exactly the first `n` bytes; none if byte `n` is past the end or
    inside a character. -/
def takeBytes? : Nat → List Char → Option (List Char)
  | 0, _ => some []
  | _ + 1, [] => none
  | n + 1, c :: rest =>
    if c.utf8Size ≤ n + 1 then (takeBytes? (n + 1 - c.utf8Size) rest).map (c :: ·) else none

/-- The characters before the last character boundary at or below byte `n`. -/
def cutAt? (cs : List Char) : Nat → Option (List Char)
  | 0 => takeBytes? 0 cs
  | n + 1 => (takeBytes? (n + 1) cs).or (cutAt? cs n)

/-- The name kept for a process: as many whole characters as fit into the name field. -/
def clip (name : String) : String :=
  String.ofList ((cutAt? name.toList (min name.utf8ByteSize Limits.nameBytes)).getD [])

end Rendezvous.Name
