import Mathlib.Data.List.Perm.Basic
import Rendezvous.Proofs.Fields
import Rendezvous.Timeouts

/-! # The registry of timeouts

What its operations do when the deadlines of the descriptors are those of the entries: they succeed, and a
scan tells apart the deadlines that have passed from those that have not. -/

namespace Rendezvous

theorem swapRemove_perm {α : Type} {l : List α} {i : Nat} {a : α} (h : l[i]? = some a) :
    (a :: swapRemove l i).Perm l := by
  rcases List.eq_nil_or_concat l with rfl | ⟨init, last, rfl⟩
  · simp at h
  · have hremove : swapRemove (init.concat last) i = ((init ++ [last]).set i last).dropLast := by
      simp [swapRemove]
    rw [List.concat_eq_append] at h ⊢
    rw [List.concat_eq_append] at hremove
    rw [hremove]
    by_cases hi : i < init.length
    · -- The last entry takes the place of the one that goes.
      rw [List.getElem?_append_left hi, List.getElem?_eq_getElem hi] at h
      obtain rfl : init[i] = a := Option.some_inj.mp h
      rw [List.set_append_left _ _ hi, List.dropLast_concat]
      calc (init[i] :: init.set i last).Perm (init[i] :: last :: init.eraseIdx i) :=
            (List.set_perm_cons_eraseIdx hi last).cons _
        List.Perm _ (last :: init[i] :: init.eraseIdx i) := List.Perm.swap ..
        List.Perm _ (last :: init) := (List.getElem_cons_eraseIdx_perm hi).cons _
        List.Perm _ (init ++ [last]) := (List.perm_append_singleton last init).symm
    · -- The entry that goes is the last one itself.
      have hlast : i = init.length := by
        have hlt := (List.getElem?_eq_some_iff.mp h).1
        simp only [List.length_append, List.length_singleton] at hlt
        omega
      subst hlast
      obtain rfl : last = a := by simpa using h
      rw [List.set_append_right _ _ (Nat.le_refl _)]
      simpa using (List.perm_append_singleton last init).symm

/-- The earliest of some deadlines and one known before. -/
def soonest (deadlines : List Int) (known : Option Int) : Option Int :=
  deadlines.foldl (fun known due => Timeouts.earlier due known) known

/-- What is left of a deadline at a scan: nothing if it has passed at `now`, else what remains at `later`. -/
def remaining (now later : Int) (deadline : Option Int) : Option Int :=
  deadline.bind fun d => if now ≤ d then some (d - later) else none

namespace Timeouts

open Table

variable {r : Timeouts} {t : Table} {p : Pid} {d : Descriptor}

/-- The registry without a process. -/
def without (r : Timeouts) (p : Pid) : Timeouts :=
  match r.entries.idxOf? p with
  | none => r
  | some i =>
    let entries := swapRemove r.entries i
    if entries.isEmpty then {} else { r with entries := entries }

theorem without_perm (h : p ∈ r.entries) : (p :: (r.without p).entries).Perm r.entries := by
  obtain ⟨i, hi⟩ := Option.isSome_iff_exists.mp (List.isSome_idxOf?.mpr h)
  have hget : r.entries[i]? = some p := by
    obtain ⟨hlt, he, -⟩ := List.idxOf?_eq_some_iff.mp hi
    rw [List.getElem?_eq_getElem hlt, he]
  have hperm := swapRemove_perm hget
  unfold without
  simp only [hi]
  by_cases hempty : (swapRemove r.entries i).isEmpty
  · rw [if_pos hempty]
    rw [List.isEmpty_iff.mp hempty] at hperm
    exact hperm
  · rw [if_neg hempty]
    exact hperm

/-- When a process goes, nobody comes in. -/
theorem mem_of_without {q : Pid} (h : q ∈ (r.without p).entries) : q ∈ r.entries := by
  by_cases hp : p ∈ r.entries
  · exact (without_perm hp).mem_iff.mp (List.mem_cons_of_mem p h)
  · have hsame : r.without p = r := by
      unfold without
      rw [List.idxOf?_eq_none_iff.mpr hp]
    rwa [hsame] at h

theorem cancel_ok (hp : t.get? p = some d) (hd : d.deadline.isSome) (hr : p ∈ r.entries) :
    r.cancel t p = .done () (r.without p, t.put p { d with deadline := none }) := by
  obtain ⟨i, hi⟩ := Option.isSome_iff_exists.mp (List.isSome_idxOf?.mpr hr)
  have hnone : d.deadline.isNone = false := by simpa using hd
  unfold Timeouts.cancel Timeouts.without
  simp only [hp, hnone, hi]
  by_cases hempty : (swapRemove r.entries i).isEmpty <;> simp [hempty]

theorem set_ok (hp : t.get? p = some d) (hd : d.deadline = none) (hr : r.size < Limits.processes) (ms : UInt32) :
    r.set t p ms = .done () ({ r with
        entries := r.entries ++ [p]
        nextDue := earlier (saturate (r.ticks + saturate ms.toNat)) r.nextDue },
      t.put p { d with deadline := some (saturate (r.ticks + saturate ms.toNat)) }) := by
  unfold Timeouts.set
  simp [hp, hd, Nat.not_le.mpr hr]

theorem found_of_set {ms : UInt32} (h : (r.set t p ms).outcome = .ok ()) :
    ∃ d, t.get? p = some d ∧ d.deadline = none ∧ r.size < Limits.processes := by
  unfold Timeouts.set at h
  split at h
  · cases h
  · rename_i d hp
    split at h
    · cases h
    · rename_i hd
      split at h
      · cases h
      · rename_i hsize
        exact ⟨d, hp, by simpa using hd, Nat.lt_of_not_le hsize⟩

theorem found_of_cancel (h : (r.cancel t p).outcome = .ok ()) : ∃ d, t.get? p = some d ∧ d.deadline.isSome := by
  unfold Timeouts.cancel at h
  split at h
  · cases h
  · rename_i d hp
    split at h
    · cases h
    · rename_i hd
      exact ⟨d, hp, Option.isSome_iff_ne_none.mpr (by simpa using hd)⟩

/-! ### The passing of time -/

theorem tick_of_none (h : r.nextDue = none) (ms : UInt32) : r.tick t ms = .ok ([], r, t) := by
  unfold tick
  split
  · rfl
  · rename_i hdue
    rw [h] at hdue
    cases hdue

theorem tick_of_early {due : Int} (h : r.nextDue = some due) (hd : r.ticks ≤ due) (ms : UInt32) :
    r.tick t ms = .ok ([], { r with ticks := saturate (r.ticks + saturate ms.toNat) }, t) := by
  unfold tick
  split
  · rename_i hnone
    rw [h] at hnone
    cases hnone
  · rename_i due' hdue
    obtain rfl : due = due' := Option.some_inj.mp (h.symm.trans hdue)
    rw [if_pos hd]
    rfl

theorem tick_of_due {due : Int} (h : r.nextDue = some due) (hd : ¬r.ticks ≤ due) (ms : UInt32) {s : Scan}
    (hs : r.entries.foldlM (Scan.visit r.ticks (saturate (r.ticks + saturate ms.toNat))) ⟨[], [], none, t⟩ = .ok s) :
    r.tick t ms = .ok (s.expired, ⟨s.kept, 0, s.earliest⟩, s.table) := by
  unfold tick
  split
  · rename_i hnone
    rw [h] at hnone
    cases hnone
  · rename_i due' hdue
    obtain rfl : due = due' := Option.some_inj.mp (h.symm.trans hdue)
    rw [if_neg hd, hs]
    rfl

/-! ### A scan -/

/-- The descriptor after a scan. -/
def scanned (now later : Int) (d : Descriptor) : Descriptor :=
  { d with deadline := remaining now later d.deadline }

/-- What a scan leaves of the deadline of each process. -/
def leftAt (t : Table) (now later : Int) (p : Pid) : Option Int :=
  remaining now later ((t.plain p).bind (·.deadline))

theorem visit_ok (now later : Int) {s : Scan} (hp : s.table.get? p = some d) :
    ∃ s', s.visit now later p = .ok s' ∧
      s'.kept = s.kept ++ [p].filter (fun p => (leftAt s.table now later p).isSome) ∧
      s'.expired = s.expired ++ [p].filter (fun p => (leftAt s.table now later p).isNone) ∧
      s'.earliest = soonest ([p].filterMap (leftAt s.table now later)) s.earliest ∧
      s'.table = s.table.put p (scanned now later d) := by
  have hleft : leftAt s.table now later p = remaining now later d.deadline := by
    rw [leftAt, plain_eq_some hp]
    rfl
  unfold Scan.visit
  rw [fetch_eq_ok.mpr hp]
  simp only [bind, Except.bind, update_ok hp]
  have hrest : (d.deadline.bind fun d => if now ≤ d then some (d - later) else none) =
      remaining now later d.deadline := rfl
  rw [hrest, scanned]
  cases hd : remaining now later d.deadline with
  | none => exact ⟨_, rfl, by simp [hleft, hd], by simp [hleft, hd], by simp [soonest, hleft, hd], rfl⟩
  | some left => exact ⟨_, rfl, by simp [hleft, hd], by simp [hleft, hd], by simp [soonest, hleft, hd], rfl⟩

/-- A scan of entries none of which comes twice tells for each what is left of its deadline at the start. -/
theorem scan_ok (now later : Int) {l : List Pid} (distinct : l.Nodup) {s : Scan}
    (found : ∀ p ∈ l, (s.table.get? p).isSome) :
    ∃ t', l.foldlM (Scan.visit now later) s = .ok
        { kept := s.kept ++ l.filter fun p => (leftAt s.table now later p).isSome
          expired := s.expired ++ l.filter fun p => (leftAt s.table now later p).isNone
          earliest := soonest (l.filterMap (leftAt s.table now later)) s.earliest
          table := t' } ∧
      t'.plain = (fun p => if p ∈ l then (s.table.plain p).map (scanned now later) else s.table.plain p) ∧
      t'.nextOf = s.table.nextOf ∧ t'.waitingOf = s.table.waitingOf ∧ SameStore s.table t' := by
  induction l generalizing s with
  | nil =>
    refine ⟨s.table, ?_, ?_, rfl, rfl, SameStore.refl _⟩
    · simp [soonest, pure, Except.pure]
    · simp
  | cons p l ih =>
    obtain ⟨hnew, distinct⟩ := List.nodup_cons.mp distinct
    obtain ⟨d, hp⟩ := Option.isSome_iff_exists.mp (found p List.mem_cons_self)
    obtain ⟨s₁, hvisit, hkept, hexpired, hearliest, htable⟩ := visit_ok now later hp
    have hplain := plain_put hp (scanned now later d)
    rw [← htable] at hplain
    have hfound : ∀ x ∈ l, (s₁.table.get? x).isSome := fun x hx => by
      rw [htable, isSome_get?_put]
      exact found x (List.mem_cons_of_mem p hx)
    -- The entries behind `p` are other processes: their deadlines are those from the start.
    have hleft : ∀ x ∈ l, leftAt s₁.table now later x = leftAt s.table now later x := fun x hx => by
      rw [leftAt, hplain, Function.update_of_ne (ne_of_mem_of_not_mem hx hnew), leftAt]
    obtain ⟨t', hfold, hp', hn', hw', hs'⟩ := ih distinct hfound
    refine ⟨t', ?_, ?_, ?_, ?_, ?_⟩
    · rw [List.foldlM_cons, hvisit]
      show List.foldlM _ s₁ l = _
      have hkeep : l.filter (fun x => (leftAt s₁.table now later x).isSome) =
          l.filter fun x => (leftAt s.table now later x).isSome := List.filter_congr fun x hx => by rw [hleft x hx]
      have hexpire : l.filter (fun x => (leftAt s₁.table now later x).isNone) =
          l.filter fun x => (leftAt s.table now later x).isNone := List.filter_congr fun x hx => by rw [hleft x hx]
      rw [hfold, hkept, hexpired, hearliest, hkeep, hexpire, List.filterMap_congr hleft, List.append_assoc,
        List.append_assoc, ← List.filter_append, ← List.filter_append, soonest, soonest, soonest, ← List.foldl_append,
        ← List.filterMap_append]
      rfl
    · funext x
      by_cases hx : x = p
      · subst hx
        simp [hp', hplain, hnew, plain_eq_some hp]
        rfl
      · simp [hp', hplain, hx]
    · rw [hn', htable]
      exact nextOf_put_same hp rfl
    · rw [hw', htable]
      exact waitingOf_put_same hp rfl
    · exact (htable ▸ SameStore.put s.table p _).trans hs'

end Timeouts

end Rendezvous
