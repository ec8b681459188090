import Rendezvous.Descriptor

/-! The stack arena: one block of words from which every stack is cut. -/

namespace Rendezvous

/-- What fresh stack cells hold; the lowest cell of a stack must keep it. -/
def blank : Word := 0xdeadbeef

/-- All words of the arena, the lowest address first. -/
structure Arena where
  words : List Word
  length_words : words.length = Limits.arenaWords
deriving DecidableEq

namespace Arena

/-- The address of the first word of the arena. -/
abbrev address : Nat := 0x20000000

/-- The arena before anything is written to it. -/
def zero : Arena := ⟨List.replicate Limits.arenaWords 0, List.length_replicate⟩

/-- The words of a region, the lowest address first. -/
def slice (a : Arena) (r : StackRegion) : List Word :=
  (a.words.drop r.base).take r.words

/-- The arena with `content` written from word `base` on, as far as there is room. -/
def overwrite (a : Arena) (base : Nat) (content : List Word) : Arena where
  words := a.words.take base ++ content.take (Limits.arenaWords - base) ++
    a.words.drop (base + content.length)
  length_words := by
    have := a.length_words
    simp only [List.length_append, List.length_take, List.length_drop]
    omega

/-- The arena with every word of a region blank. -/
def clear (a : Arena) (r : StackRegion) : Arena :=
  a.overwrite r.base (List.replicate r.words blank)

/-- The arena with the word at position `i` set. -/
def set (a : Arena) (i : Nat) (value : Word) : Arena :=
  ⟨a.words.set i value, by simpa using a.length_words⟩

/-- The context of a stack pointer: word-aligned addresses in the arena are kept by word. -/
def locate (addr : Word) : Context :=
  if address ≤ addr.toNat ∧ addr.toNat < address + Limits.arenaBytes ∧
      (addr.toNat - address) % wordBytes = 0
  then .arena ((addr.toNat - address) / wordBytes)
  else .foreign addr

/-- The address of the word at position `offset`. -/
def addressOf (offset : Nat) : Word :=
  UInt64.ofNat (address + offset * wordBytes)

/-- The address that a context resumes at. -/
def resolve : Context → Word
  | .arena offset => addressOf offset
  | .foreign addr => addr

theorem resolve_locate (addr : Word) : resolve (locate addr) = addr := by
  unfold locate
  split
  · rename_i h
    have back : address + (addr.toNat - address) / wordBytes * wordBytes = addr.toNat := by
      simp only [address, wordBytes] at h ⊢
      omega
    simp [resolve, addressOf, back]
  · rfl

end Arena

end Rendezvous
