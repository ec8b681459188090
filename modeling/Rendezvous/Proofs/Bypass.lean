import Rendezvous.Proofs.Arrivals

/-! # Bounded bypass

In a queue that goes by arrival, a process is passed only by those that stand before it when it comes in, and by each of
them once. -/

namespace Rendezvous

/-- The process that the step chooses out of the ready queue of level `l`, if there is one. -/
def Step.picksFrom (s : Step) (l : Level) : List Pid := s.picked.filter fun p => s.after.level? p = some l

/-- The processes chosen out of the ready queue of level `l` from step `i` on and before step `j`. -/
def picksFrom (steps : List Step) (l : Level) (i j : Nat) : List Pid :=
  ((steps.take j).drop i).flatMap (·.picksFrom l)

/-- From step `i` to step `j`, the process `p` waits in the ready queue of level `l`. -/
structure Bypassed (steps : List Step) (l : Level) (p : Pid) (i j : Nat) (processes : Nat) : Prop where
  stays : ∀ t s, i ≤ t → t ≤ j → steps[t]? = some s → s.after.table.linkOf p = some (.ready l)
  /-- No other process is chosen from there twice. -/
  once : (picksFrom steps l i (j + 1)).Nodup
  others : p ∉ picksFrom steps l i (j + 1)
  /-- Neither `p` nor the idle process is among those that pass it. -/
  few : (picksFrom steps l i (j + 1)).length + 2 ≤ processes
  /-- It is in this queue that the choice finds `p`. -/
  turn : ∀ s, steps[j + 1]? = some s → p ∈ s.picked → s.picksFrom l = [p]

section
variable {steps : List Step} {l : Level} {i j : Nat} {s : Step}

theorem picksFrom_succ (hij : i ≤ j) (hs : steps[j]? = some s) :
    picksFrom steps l i (j + 1) = picksFrom steps l i j ++ s.picksFrom l := by
  have hlt : j < steps.length := (List.getElem?_eq_some_iff.mp hs).1
  have hle : i ≤ (steps.take j).length := by
    rw [List.length_take]
    omega
  rw [picksFrom, List.take_add_one, hs, Option.toList_some, List.drop_append_of_le_length hle, List.flatMap_append,
    List.flatMap_singleton, picksFrom]

theorem picksFrom_self (hs : steps[i]? = some s) : picksFrom steps l i (i + 1) = s.picksFrom l := by
  have hnone : picksFrom steps l i i = [] := by
    rw [picksFrom, List.drop_eq_nil_of_le (List.length_take_le ..)]
    rfl
  rw [picksFrom_succ (Nat.le_refl i) hs, hnone, List.nil_append]

/-- A list that ends before `p` is part of what stands before `p`. -/
theorem split_before {α : Type} {passed rest ahead behind : List α} {p : α} (h : passed ++ rest = ahead ++ p :: behind)
    (hp : p ∉ passed) : ∃ left, ahead = passed ++ left ∧ rest = left ++ p :: behind := by
  rcases List.append_eq_append_iff.mp h with ⟨left, hahead, hrest⟩ | ⟨extra, hpassed, hbehind⟩
  · exact ⟨left, hahead, hrest⟩
  · cases extra with
    | nil => exact ⟨[], by simpa using hpassed.symm, hbehind.symm⟩
    | cons x extra =>
      obtain ⟨rfl, -⟩ := List.cons.inj hbehind
      exact absurd (hpassed ▸ List.mem_append_right _ List.mem_cons_self) hp

end

namespace Step.Turnover

variable {s : Step} {ws : List Pid} {rank : Pid → Option (Option Level × Nat)} {full : Level → List Pid} {p : Pid}
  (h : s.Turnover ws rank full) (hidle : s.after.level? .idle = none)
include h hidle

/-- What is chosen from a queue was its head. -/
theorem full_eq (l : Level) : full l = s.picksFrom l ++ s.after.line l := by
  rcases h.choice with ⟨hnone, hsame⟩ | ⟨hpicked, hchoice⟩
  · rw [Step.picksFrom, hnone, hsame]
    rfl
  · cases hchoice with
    | idle empty runs left =>
      rw [Step.picksFrom, hpicked, left, runs, List.filter_cons_of_neg (by simp [hidle])]
      rfl
    | front l' rest head urgent left =>
      have hlevel := (h.placed l' s.after.current (head ▸ List.mem_cons_self)).2.2
      by_cases hl : l = l'
      · subst hl
        rw [Step.picksFrom, hpicked, left, Function.update_self, head, List.filter_cons_of_pos (by simp [hlevel])]
        rfl
      · have hne : l' ≠ l := fun he => hl he.symm
        rw [Step.picksFrom, hpicked, left, Function.update_of_ne hl, List.filter_cons_of_neg (by simp [hlevel, hne])]
        rfl

/-- In a queue that goes by arrival, those that come in and those that go out balance. -/
theorem balance (hfifo : s.before.scheduler.policy = .fifo) (l : Level) :
    s.before.line l ++ ws.filter (goesTo rank l) = s.picksFrom l ++ s.after.line l := by
  rw [← h.full_eq hidle, h.entered, hfifo, Policy.place_fifo]

theorem mem_full_of_enters {l : Level} (hafter : s.after.LinesUp) (hp : s.Enters p l) : p ∈ full l := by
  rw [h.full_eq hidle, List.mem_append]
  rcases hp.2 with hlink | ⟨hpicked, hlevel⟩
  · exact .inr ((hafter l p).mpr hlink)
  · exact .inl (List.mem_filter.mpr ⟨hpicked, by simpa using hlevel⟩)

end Step.Turnover

namespace Run

variable {config : Config} {steps : List Step} {k : Kernel} {s u : Step} {l : Level} {p : Pid} {i j : Nat}

section
variable (h : Run Call.Proper config steps k)
include h

theorem processCount_after (hs : steps[i]? = some s) (hij : i ≤ j) (hu : steps[j]? = some u) :
    s.after.processCount ≤ u.after.processCount :=
  h.carry (R := fun _ => True) (Q := fun _ k => s.after.processCount ≤ k.processCount) hs (Nat.le_refl _)
    (fun _ _ _ hv _ hle => Nat.le_trans hle (h.processCount_mono hv (Nat.le_refl _) hv)) hij hu fun _ _ _ _ _ => trivial

/-- A queue holds no more processes than there are besides the idle one. -/
theorem length_full_lt (hs : steps[i]? = some s) {ws : List Pid} {rank : Pid → Option (Option Level × Nat)}
    {full : Level → List Pid} (ht : s.Turnover ws rank full) (l : Level) : (full l).length < s.after.processCount := by
  have hlist : (Pid.idle :: full l).Nodup :=
    List.nodup_cons.mpr ⟨fun hidle => (ht.placed l .idle hidle).1 rfl, ht.distinct l⟩
  refine Pid.length_le hlist fun q hq => Table.get?_isSome_iff.mp ?_
  rcases List.mem_cons.mp hq with rfl | hq
  · obtain ⟨P, hk, hrest⟩ := (h.upto hs).resting
    obtain ⟨d, hd, -⟩ := hrest.sound.idle
    rw [hk.get_isSome, hd, Option.isSome_some]
  · obtain ⟨d, hd, -⟩ := Option.bind_eq_some_iff.mp (ht.placed l q hq).2.2
    rw [show s.after.table.get? q = some d from hd, Option.isSome_some]

/-- From step `i` on, what has stood in a queue and what has come in since is what was chosen and what is left. -/
theorem balance (hfifo : config.policy = .fifo) (hs : steps[i]? = some s) {ws : List Pid}
    {rank : Pid → Option (Option Level × Nat)} {full : Level → List Pid} (ht : s.Turnover ws rank full) (hij : i ≤ j)
    (hu : steps[j]? = some u) : ∃ arrivals, full l ++ arrivals = picksFrom steps l i (j + 1) ++ u.after.line l := by
  induction hij generalizing u with
  | refl =>
    obtain rfl := Option.some_inj.mp (hs.symm.trans hu)
    refine ⟨[], ?_⟩
    rw [List.append_nil, picksFrom_self hs, ht.full_eq (h.upto hs).level?_idle]
  | @step j hij ih =>
    obtain ⟨v, hv, hb⟩ := h.prev hu
    obtain ⟨arrivals, hbalance⟩ := ih hv
    obtain ⟨ws', rank', full', ht'⟩ := h.turnover hu
    have hstep := ht'.balance (h.upto hu).level?_idle ((h.step hu).1.policy_eq.trans hfifo) l
    refine ⟨arrivals ++ ws'.filter (goesTo rank' l), ?_⟩
    rw [picksFrom_succ (Nat.le_succ_of_le hij) hu, List.append_assoc, ← hstep, hb, ← List.append_assoc,
      ← List.append_assoc, hbalance]

/-- While a process waits, only those are chosen that stood before it when it came in. -/
theorem ahead_of_waiting (hfifo : config.policy = .fifo) (hs : steps[i]? = some s) {ws : List Pid}
    {rank : Pid → Option (Option Level × Nat)} {full : Level → List Pid} (ht : s.Turnover ws rank full)
    {ahead behind : List Pid} (hfull : full l = ahead ++ p :: behind) (hij : i ≤ j) (hu : steps[j]? = some u)
    (hp : p ∉ picksFrom steps l i (j + 1)) :
    p ∈ u.after.line l ∧ ∃ left, ahead = picksFrom steps l i (j + 1) ++ left := by
  obtain ⟨arrivals, hbalance⟩ := h.balance (l := l) hfifo hs ht hij hu
  rw [hfull, List.append_assoc, List.cons_append] at hbalance
  obtain ⟨left, hahead, hrest⟩ := split_before hbalance.symm hp
  exact ⟨hrest ▸ by simp, left, hahead⟩

end

end Run

theorem mem_picksFrom {steps : List Step} {l : Level} {p : Pid} {i j : Nat} (h : p ∈ picksFrom steps l i j) :
    ∃ t s, i ≤ t ∧ t < j ∧ steps[t]? = some s ∧ p ∈ s.picked := by
  obtain ⟨s, hs, hp⟩ := List.mem_flatMap.mp h
  obtain ⟨t, ht⟩ := List.mem_iff_getElem?.mp hs
  rw [List.getElem?_drop, List.getElem?_take] at ht
  split at ht
  · rename_i hlt
    exact ⟨i + t, s, Nat.le_add_right .., hlt, ht, (List.mem_filter.mp hp).1⟩
  · cases ht

/-- From the step in which a process comes into a ready queue until it is chosen, it stays there, and every other process
    is chosen from there at most once. -/
theorem fifo_bypass_bounded {config : Config} {steps : List Step} {k : Kernel} (h : Run Call.Proper config steps k)
    (hfifo : config.policy = .fifo) {i j : Nat} {s u : Step} {p : Pid} {l : Level} (hs : steps[i]? = some s)
    (hp : s.Enters p l) (hij : i ≤ j) (hu : steps[j]? = some u)
    (hwaits : ∀ t v, i ≤ t → t ≤ j → steps[t]? = some v → p ∉ v.picked) :
    Bypassed steps l p i j u.after.processCount := by
  obtain ⟨ws, rank, full, ht⟩ := h.turnover hs
  obtain ⟨ahead, behind, hfull⟩ := List.append_of_mem
    (ht.mem_full_of_enters (h.upto hs).level?_idle (h.upto hs).linesUp hp)
  have hnone : ∀ t, t ≤ j → p ∉ picksFrom steps l i (t + 1) := by
    intro t htj hpick
    obtain ⟨t', v, hit, hlt, hv, hpicked⟩ := mem_picksFrom hpick
    exact hwaits t' v hit (Nat.le_trans (Nat.le_of_lt_succ hlt) htj) hv hpicked
  -- All that are picked meanwhile come from ahead of `p` in the queue that it entered.
  obtain ⟨hin, left, hahead⟩ := h.ahead_of_waiting hfifo hs ht hfull hij hu (hnone j (Nat.le_refl j))
  have hdistinct : (ahead ++ p :: behind).Nodup := hfull ▸ ht.distinct l
  have hbefore : (picksFrom steps l i (j + 1)).Nodup := by
    have hnodup := (List.nodup_append.mp hdistinct).1
    rw [hahead] at hnodup
    exact (List.nodup_append.mp hnodup).1
  refine ⟨fun t v hit htj hv => ?_, hbefore, hnone j (Nat.le_refl j), ?_, fun v hv hpicked => ?_⟩
  · exact ((h.upto hv).linesUp l p).mp (h.ahead_of_waiting hfifo hs ht hfull hit hv (hnone t htj)).1
  · have hlength := h.length_full_lt hs ht l
    have hcount := h.processCount_after hs hij hu
    rw [hfull, hahead, List.length_append, List.length_append, List.length_cons] at hlength
    omega
  · obtain ⟨ws', rank', full', ht'⟩ := h.turnover hv
    obtain ⟨w, hw, hb⟩ := h.prev hv
    obtain rfl := Option.some_inj.mp (hu.symm.trans hw)
    have hlevel := (ht'.placed l p (ht'.mem_full.mpr (.inr (hb ▸ hin)))).2.2
    rcases ht'.choice with ⟨hpicks, -⟩ | ⟨hpicks, -⟩
    · rw [hpicks] at hpicked
      cases hpicked
    · rw [hpicks] at hpicked
      obtain rfl := List.mem_singleton.mp hpicked
      -- The step that picks `p` at last picks nobody else.
      rw [Step.picksFrom, hpicks, List.filter_cons_of_pos (by simpa using hlevel)]
      rfl

/-- Three processes take turns. -/
def turnsCalls : List Call :=
  [.start "first" 0 0 0, .start "second" 0 0 0, .start "third" 0 0 0, .launch, .serve .yield, .serve .yield]

/-- What comes of the turns. -/
def turns : List Step × Kernel := ((Kernel.boot {}).follow Call.Admissible turnsCalls).get (by decide +kernel)

theorem turns_run : Run Call.Admissible {} turns.1 turns.2 := Run.of_boot (Option.some_get _).symm

/-- The last of the three is passed by both of the others, each of them once. -/
theorem fifo_bypass_bounded_turns : picksFrom turns.1 .low 2 5 = [⟨1⟩, ⟨2⟩] ∧
    ∃ u, turns.1[4]? = some u ∧ Bypassed turns.1 .low ⟨3⟩ 2 4 u.after.processCount := by
  refine ⟨by decide +kernel, ?_⟩
  have hready : turns.1[2]?.map (fun s => (s.before.table.linkOf ⟨3⟩, s.after.table.linkOf ⟨3⟩)) =
      some (none, some (.ready .low)) := by decide +kernel
  have hlast : turns.1[4]?.isSome := by decide +kernel
  have hpassed : ∀ t ∈ [2, 3, 4], turns.1[t]?.any (fun v => ⟨3⟩ ∈ v.picked) = false := by decide +kernel
  obtain ⟨s, hs, hlinks⟩ := Option.map_eq_some_iff.mp hready
  obtain ⟨hbefore, hafter⟩ := Prod.mk.inj hlinks
  obtain ⟨u, hu⟩ := Option.isSome_iff_exists.mp hlast
  refine ⟨u, hu, fifo_bypass_bounded turns_run.proper rfl hs ⟨by simp [hbefore], .inl hafter⟩ (by decide) hu ?_⟩
  intro t v hit htj hv hp
  have hnot := hpassed t (by simp; omega)
  rw [hv] at hnot
  simp [hp] at hnot

end Rendezvous
