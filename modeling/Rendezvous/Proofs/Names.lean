import Rendezvous.Descriptor
import Rendezvous.Proofs.Texts

/-! # Names

A process keeps as much of its name as fits into the name field, in whole characters. The search for the place to cut
goes down from the last byte that fits and ends at the first boundary of characters that it meets. -/

namespace Rendezvous

namespace Name

variable {cs kept : List Char} {name : String} {n : Nat}

/-- A character begins at byte `n` of the name, or the name ends there. -/
def Boundary (name : String) (n : Nat) : Prop := String.Pos.Raw.IsValid name ⟨n⟩

/-- A search for a boundary that goes down from byte `start` ends at byte `cut`. -/
structure Search (name : String) (start cut : Nat) : Prop where
  le : cut ≤ start
  boundary : Boundary name cut
  passed : ∀ n, cut < n → n ≤ start → ¬Boundary name n

/-- The longest part of a name, from its start, that takes `capacity` bytes or less. -/
structure Longest (name : String) (capacity : Nat) (kept : String) : Prop where
  starts : kept.toList <+: name.toList
  fits : kept.utf8ByteSize ≤ capacity
  longest : ∀ part, part <+: name.toList → (String.ofList part).utf8ByteSize ≤ capacity → part <+: kept.toList

/-- What becomes of a name that is kept as `kept`. -/
structure Kept (name kept : String) : Prop where
  /-- The search comes to an end: it does not run past the start of the name. -/
  found : cutAt? name.toList (min name.utf8ByteSize Limits.nameBytes) = some kept.toList
  /-- The name is cut at a boundary, so that no character is split. -/
  cut : Search name (min name.utf8ByteSize Limits.nameBytes) kept.utf8ByteSize
  longest : Longest name Limits.nameBytes kept
  /-- Writing it into the empty name field goes through. -/
  room : Text.fill Limits.nameBytes "" [kept] = (kept, true)
  whole : name.utf8ByteSize ≤ Limits.nameBytes → kept = name

/-! ### Taking whole characters -/

/-- Whole characters are taken from the front, as many as fill the bytes. -/
theorem of_takeBytes? (h : takeBytes? n cs = some kept) : kept <+: cs ∧ (kept.map Char.utf8Size).sum = n := by
  induction n, cs using takeBytes?.induct generalizing kept with
  | case1 cs =>
    obtain rfl : [] = kept := by simpa [takeBytes?] using h
    exact ⟨List.nil_prefix, rfl⟩
  | case2 n => simp [takeBytes?] at h
  | case3 n c cs hfits ih =>
    rw [takeBytes?, if_pos hfits, Option.map_eq_some_iff] at h
    obtain ⟨rest, hrest, rfl⟩ := h
    obtain ⟨hstart, hsum⟩ := ih hrest
    refine ⟨List.cons_prefix_cons.mpr ⟨rfl, hstart⟩, ?_⟩
    rw [List.map_cons, List.sum_cons, hsum]
    omega
  | case4 n c cs hlarge =>
    rw [takeBytes?, if_neg hlarge] at h
    cases h

theorem takeBytes?_of_starts (h : kept <+: cs) : takeBytes? (kept.map Char.utf8Size).sum cs = some kept := by
  induction kept generalizing cs with
  | nil => simp [takeBytes?]
  | cons c kept ih =>
    obtain ⟨rest, rfl⟩ := h
    have htail : takeBytes? (kept.map Char.utf8Size).sum (kept ++ rest) = some kept := ih (List.prefix_append kept rest)
    have hpos : 0 < c.utf8Size := c.utf8Size_pos
    obtain ⟨m, hm⟩ : ∃ m, ((c :: kept).map Char.utf8Size).sum = m + 1 :=
      Nat.exists_eq_succ_of_ne_zero (by rw [List.map_cons, List.sum_cons]; omega)
    have hsum : c.utf8Size + (kept.map Char.utf8Size).sum = m + 1 := by simpa using hm
    have hrest : m + 1 - c.utf8Size = (kept.map Char.utf8Size).sum := by omega
    rw [hm, List.cons_append, takeBytes?, if_pos (by omega), hrest, htail, Option.map_some]

theorem takeBytes?_eq_some : takeBytes? n cs = some kept ↔ kept <+: cs ∧ (kept.map Char.utf8Size).sum = n := by
  refine ⟨of_takeBytes?, ?_⟩
  rintro ⟨hstarts, rfl⟩
  exact takeBytes?_of_starts hstarts

/-- Whole characters fill the bytes before a boundary, and no others. -/
theorem boundary_iff : Boundary name n ↔ ∃ kept, takeBytes? n name.toList = some kept := by
  rw [Boundary, String.Pos.Raw.isValid_iff_exists_take_toList]
  constructor
  · rintro ⟨i, hi⟩
    refine ⟨name.toList.take i, takeBytes?_eq_some.mpr ⟨List.take_prefix i _, ?_⟩⟩
    rw [← Text.size_ofList]
    exact hi.symm
  · rintro ⟨kept, htake⟩
    obtain ⟨hstarts, hsum⟩ := of_takeBytes? htake
    refine ⟨kept.length, ?_⟩
    rw [← List.prefix_iff_eq_take.mp hstarts, Text.size_ofList]
    exact hsum.symm

/-! ### The place to cut -/

/-- The search ends at the latest at the start of the name, where a boundary always is. -/
theorem search_ends (name : String) (start : Nat) : ∃ cut kept, cutAt? name.toList start = some kept ∧
    takeBytes? cut name.toList = some kept ∧ Search name start cut := by
  induction start with
  | zero =>
    have htake : takeBytes? 0 name.toList = some [] := by simp [takeBytes?]
    exact ⟨0, [], htake, htake, Nat.le_refl 0, boundary_iff.mpr ⟨_, htake⟩, fun n hn hle => by omega⟩
  | succ n ih =>
    rw [cutAt?]
    cases htake : takeBytes? (n + 1) name.toList with
    | some kept =>
      exact ⟨n + 1, kept, rfl, htake, Nat.le_refl _, boundary_iff.mpr ⟨_, htake⟩, fun m hm hle => by omega⟩
    | none =>
      obtain ⟨cut, kept, hcut, hkept, hsearch⟩ := ih
      refine ⟨cut, kept, hcut, hkept, Nat.le_succ_of_le hsearch.le, hsearch.boundary, fun m hm hle hb => ?_⟩
      rcases Nat.le_succ_iff.mp hle with hle | rfl
      · exact hsearch.passed m hm hle hb
      · obtain ⟨part, hpart⟩ := boundary_iff.mp hb
        cases htake.symm.trans hpart

/-- What is before the place to cut is the longest part that fits. -/
theorem Search.longest {capacity cut : Nat} (h : Search name (min name.utf8ByteSize capacity) cut)
    (hkept : takeBytes? cut name.toList = some kept) : Longest name capacity (.ofList kept) := by
  obtain ⟨hstarts, hsum⟩ := of_takeBytes? hkept
  refine ⟨?_, ?_, fun part hpart hfits => ?_⟩
  · rwa [String.toList_ofList]
  · rw [Text.size_ofList, hsum]
    exact Nat.le_trans h.le (Nat.min_le_right ..)
  · rw [String.toList_ofList]
    rw [Text.size_ofList] at hfits
    have htake := takeBytes?_of_starts hpart
    have hb : Boundary name (part.map Char.utf8Size).sum := boundary_iff.mpr ⟨part, htake⟩
    -- A part that fits ends at a boundary, which the search has not passed.
    have hle : (part.map Char.utf8Size).sum ≤ cut := Nat.le_of_not_lt fun hlt =>
      h.passed _ hlt (Nat.le_min.mpr ⟨hb.le_utf8ByteSize, hfits⟩) hb
    rcases List.prefix_or_prefix_of_prefix hpart hstarts with hshort | hlong
    · exact hshort
    · obtain ⟨more, rfl⟩ := hlong
      have hsame : ((kept ++ more).map Char.utf8Size).sum = cut := by
        rw [List.map_append, List.sum_append] at hle ⊢
        omega
      rw [hsame, hkept] at htake
      have hwhole : kept = kept ++ more := Option.some_inj.mp htake
      exact ⟨[], (List.append_nil _).trans hwhole.symm⟩

/-- A name that fits is the longest part of itself. -/
theorem Longest.whole {capacity : Nat} {part : String} (h : Longest name capacity part)
    (hfits : name.utf8ByteSize ≤ capacity) : part = name := by
  have hall : name.toList <+: part.toList := h.longest _ (List.prefix_refl _) (by rwa [String.ofList_toList])
  exact String.toList_inj.mp (h.starts.eq_of_length_le hall.length_le)

theorem clip_kept (name : String) : Kept name (clip name) := by
  obtain ⟨cut, kept, hcut, hkept, hsearch⟩ := search_ends name (min name.utf8ByteSize Limits.nameBytes)
  have hclip : clip name = .ofList kept := by rw [clip, hcut, Option.getD_some]
  have hsize : (clip name).utf8ByteSize = cut := by
    rw [hclip, Text.size_ofList]
    exact (of_takeBytes? hkept).2
  have hlongest : Longest name Limits.nameBytes (clip name) := hclip ▸ hsearch.longest hkept
  refine ⟨?_, hsize ▸ hsearch, hlongest, ?_, hlongest.whole⟩
  · rw [hcut, hclip, String.toList_ofList]
  · rw [Text.fill_of_room (by simpa using hlongest.fits)]
    simp

/-- A name that is kept fits into the name field. -/
theorem size_clip_le (name : String) : (clip name).utf8ByteSize ≤ Limits.nameBytes := (clip_kept name).longest.fits

end Name

/-- Of every name a process keeps the longest part in whole characters that fits into its name field. -/
theorem process_keeps_longest_name (pid : Pid) (name : String) (stack : StackRegion) :
    Name.Kept name (Descriptor.fresh pid name stack).name := Name.clip_kept name

example : Name.clip "ééééééééé" = "ééééééé" := by decide +kernel

end Rendezvous
