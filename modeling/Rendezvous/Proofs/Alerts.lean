import Rendezvous.Proofs.Handling

/-! # Interrupts are conserved

An interrupt that is raised goes into the slot of its process at once or from its pending flag, is lost in an
earlier one that is pending, or is pending itself. None of them is lost otherwise and none comes twice. -/

namespace Rendezvous

namespace Event

/-- Whether an interrupt goes into a slot. -/
def isInterrupt : Event → Bool
  | .notified _ ty => ty = .interrupt
  | _ => false

/-- Whether an interrupt is lost in an earlier one. -/
def isCoalesced : Event → Bool
  | .coalesced _ => true
  | _ => false

/-- Only alerts count where all that counts is an alert. -/
theorem countP_alerts {q : Event → Bool} (hq : ∀ e, q e = true → e.isAlert = true) (es : List Event) :
    (es.filter isAlert).countP q = es.countP q := by
  rw [List.countP_filter]
  refine List.countP_congr fun e _ => ?_
  rw [Bool.and_eq_true]
  exact and_iff_left_of_imp (hq e)

theorem isAlert_of_isInterrupt {e : Event} (h : e.isInterrupt = true) : e.isAlert = true := by
  cases e with
  | notified _ _ => exact h
  | _ => cases h

theorem isAlert_of_isCoalesced {e : Event} (h : e.isCoalesced = true) : e.isAlert = true := by
  cases e with
  | coalesced _ => rfl
  | _ => cases h

end Event

/-- A list with one member changed, counted. -/
theorem countP_modify {α : Type} (q : α → Bool) (f : α → α) (l : List α) (i : Nat) :
    (l.modify i f).countP q + (l[i]?.any q).toNat = l.countP q + ((l[i]?.map f).any q).toNat := by
  induction l generalizing i with
  | nil => simp
  | cons a l ih =>
    cases i with
    | zero => cases ha : q a <;> cases hf : q (f a) <;> simp [ha, hf]
    | succ i =>
      have htail := ih i
      rw [List.modify_succ_cons, List.countP_cons, List.countP_cons, List.getElem?_cons_succ]
      omega

namespace Kernel

/-- Whether an interrupt is pending for a process. -/
def flag (k : Kernel) (p : Pid) : Bool := (k.process? p).any (·.pending)

/-- The number of processes that an interrupt is pending for. -/
def flagged (k : Kernel) : Nat := k.table.processes.countP (·.pending)

variable {k k' : Kernel} {gr : Grant} {p q : Pid} {g : Standing → Standing} {es : List Event} {c : Call}
  {signal : Option Pid}

theorem flag_eq (k : Kernel) (p : Pid) : k.flag p = (k.standing? p).any (·.pending) := by
  rw [standing?_eq, Option.any_map]
  rfl

theorem flagged_eq (k : Kernel) : k.flagged = k.standings.countP (·.pending) := by
  rw [standings, List.countP_map]
  rfl

namespace Alters

variable (h : k.Alters gr p g k')
include h

theorem flag_ne (hq : q ≠ p) : k'.flag q = k.flag q := by
  rw [flag_eq, flag_eq, h.standing?, if_neg hq]

theorem flagged : k'.flagged + (k.flag p).toNat = k.flagged + (k'.flag p).toNat := by
  have hcount := countP_modify (·.pending) g k.standings p.index
  rw [flagged_eq, flagged_eq, flag_eq, flag_eq, h.standings, h.standing?, if_pos rfl]
  exact hcount

theorem flag_self {s : Standing} (hs : k.standing? p = some s) : k'.flag p = (g s).pending := by
  rw [flag_eq, h.standing?, if_pos rfl, hs]
  rfl

/-- A change that leaves alone whether an interrupt is pending. -/
theorem flag_same (hg : ∀ s, (g s).pending = s.pending) (q : Pid) : k'.flag q = k.flag q := by
  by_cases hq : q = p
  · rw [hq, flag_eq, flag_eq, h.standing?, if_pos rfl, Option.any_map]
    exact congrArg (Option.any · _) (funext hg)
  · exact h.flag_ne hq

end Alters

/-- What a call does to the counts of interrupts and to the flags, when `signal` tells whom an interrupt is for and
`es` has the alerts. -/
structure Accounts (k k' : Kernel) (signal : Option Pid) (es : List Event) : Prop where
  interrupts : k'.counters.interrupts = k.counters.interrupts + signal.isSome.toNat
  coalesced : k'.counters.coalesced = k.counters.coalesced + es.countP Event.isCoalesced
  flagged : signal.isSome.toNat + k.flagged = es.countP Event.isInterrupt + es.countP Event.isCoalesced + k'.flagged
  flag : ∀ p, (if signal = some p then 1 else 0) + (k.flag p).toNat =
    es.count (.notified p .interrupt) + es.count (.coalesced p) + (k'.flag p).toNat

theorem flags_of_standings (h : k'.standings = k.standings) : k'.flagged = k.flagged ∧ ∀ p, k'.flag p = k.flag p := by
  refine ⟨by rw [flagged_eq, flagged_eq, h], fun p => ?_⟩
  rw [flag_eq, flag_eq, standing?, standing?, h]

/-- No interrupt is raised, and none is pending that was not before. -/
theorem accounts_of_same (hi : k'.counters.interrupts = k.counters.interrupts)
    (hc : k'.counters.coalesced = k.counters.coalesced) (hflagged : k'.flagged = k.flagged)
    (hflag : ∀ p, k'.flag p = k.flag p) : k.Accounts k' none [] :=
  ⟨hi, hc, by simp [hflagged], fun p => by simp [hflag]⟩

theorem Alters.accounts (h : k.Alters gr p g k') (hg : ∀ s, (g s).pending = s.pending) : k.Accounts k' none [] := by
  have hflagged := h.flagged
  rw [h.flag_same hg] at hflagged
  exact accounts_of_same h.interrupts h.coalesced (Nat.add_right_cancel hflagged) (h.flag_same hg)

theorem Takes.accounts (h : k.Takes gr k' g es) : k.Accounts k' none es := by
  obtain ⟨⟨s, hs, hpending⟩, alters, -, rfl⟩ := h
  have hold : k.flag k.current = true := by rw [flag_eq, hs, Option.any_some, hpending]
  have hnew : k'.flag k.current = false := alters.flag_self hs
  have hflagged := alters.flagged
  rw [hold, hnew] at hflagged
  refine ⟨alters.interrupts, alters.coalesced, ?_, fun q => ?_⟩
  · simpa [Event.isInterrupt, Event.isCoalesced, Nat.add_comm] using hflagged.symm
  · by_cases hq : q = k.current
    · rw [hq, hold, hnew]
      simp
    · rw [alters.flag_ne hq]
      simp [Ne.symm hq]

theorem Handles.accounts (h : k.Handles c k' es) : k.Accounts k' (c.signal? k.lines) es := by
  cases h with
  | quietly unsignalled alters =>
    rw [unsignalled]
    exact alters.accounts fun s => by cases c <;> rfl
  | starts s call started standings interrupts coalesced =>
    obtain ⟨name, size, entry, arg, rfl⟩ := call
    refine accounts_of_same interrupts coalesced ?_ fun q => ?_
    · rw [flagged_eq, flagged_eq, standings, List.countP_append, List.countP_singleton, started.clear]
      rfl
    · rw [flag_eq, flag_eq, standing?_concat standings]
      -- The new process has nothing pending, and the others keep their place.
      split
      · rename_i hq
        rw [standing?_eq_none.mpr hq.ge, Option.any_some, started.clear, Option.any_none]
      · rfl
  | takes unsignalled takes =>
    rw [unsignalled]
    exact takes.accounts
  | delivers p signal keeps =>
    obtain ⟨hflagged, hflag⟩ : k'.flagged = k.flagged ∧ ∀ q, k'.flag q = k.flag q := flags_of_standings keeps.standings
    rw [signal]
    refine ⟨keeps.interrupts, keeps.coalesced, ?_, fun q => ?_⟩
    · simp [Event.isInterrupt, Event.isCoalesced, hflagged]
    · by_cases hq : p = q <;> simp [hflag, hq]
  | flags p s signal found clear alters =>
    have hold : k.flag p = false := by rw [flag_eq, found, Option.any_some, clear]
    have hnew : k'.flag p = true := alters.flag_self found
    have hflagged : k'.flagged + (k.flag p).toNat = k.flagged + (k'.flag p).toNat := alters.flagged
    -- One more process has an interrupt pending than before.
    rw [hold, hnew] at hflagged
    rw [signal]
    refine ⟨alters.interrupts, alters.coalesced, ?_, fun q => ?_⟩
    · simpa [Nat.add_comm] using hflagged.symm
    · by_cases hq : q = p
      · rw [hq, hold, hnew]
        simp
      · have hsame : k'.flag q = k.flag q := alters.flag_ne hq
        simp [hsame, Ne.symm hq]
  | coalesces p s signal found pending standings interrupts coalesced =>
    obtain ⟨hflagged, hflag⟩ := flags_of_standings standings
    rw [signal]
    refine ⟨interrupts, coalesced, ?_, fun q => ?_⟩
    · simp [Event.isInterrupt, Event.isCoalesced, hflagged]
    · by_cases hq : p = q <;> simp [hflag, hq]

theorem boot_flag (config : Config) (p : Pid) : (boot config).flag p = false := by
  have hstandings : (boot config).standings = [bootIdle.standing] := rfl
  rw [flag_eq, standing?, hstandings]
  cases hs : [bootIdle.standing][p.index]? with
  | none => rfl
  | some s =>
    obtain rfl := List.mem_singleton.mp (List.mem_of_getElem? hs)
    rfl

/-- An interrupt that goes into a slot is there after the call. -/
theorem Handles.message (h : k.Handles c k' es) (he : .notified p .interrupt ∈ es) :
    k'.message? p = some (.new .interrupt) := by
  cases h with
  | quietly | starts | flags => cases he
  | takes _ takes =>
    rw [takes.alerts, List.mem_singleton] at he
    obtain rfl := (Event.notified.inj he).1
    exact takes.message
  | delivers _ _ _ message =>
    obtain rfl := (Event.notified.inj (List.mem_singleton.mp he)).1
    exact message
  | coalesces => cases List.mem_singleton.mp he

end Kernel

variable {rule : Kernel → Call → Prop} {config : Config} {steps : List Step} {k : Kernel} {s : Step}

namespace Run

/-- What a step does to the counts and the flags, told by all that happens in it. -/
theorem accounts (h : Run rule config steps k) {i : Nat} (hs : steps[i]? = some s) :
    s.before.Accounts s.after s.signal? s.events := by
  obtain ⟨hi, hc, hflagged, hflag⟩ := (h.handles hs).accounts
  rw [Event.countP_alerts fun _ => Event.isAlert_of_isCoalesced] at hc hflagged
  rw [Event.countP_alerts fun _ => Event.isAlert_of_isInterrupt] at hflagged
  refine ⟨hi, hc, hflagged, fun p => ?_⟩
  have hcounts := hflag p
  rwa [List.count_filter rfl, List.count_filter rfl] at hcounts

theorem totals (h : Run rule config steps k) :
    k.counters.interrupts = steps.countP (·.signal?.isSome) ∧
    k.counters.coalesced = (steps.flatMap Step.events).countP Event.isCoalesced ∧
    k.counters.interrupts = (steps.flatMap Step.events).countP Event.isInterrupt + k.counters.coalesced + k.flagged := by
  induction h with
  | boot => exact ⟨rfl, rfl, rfl⟩
  | @call steps k k' c answer before allowed done ih =>
    obtain ⟨hi, hc, hflagged, -⟩ := (before.call allowed done).accounts (List.getElem?_concat_length ..)
    obtain ⟨hraised, hlost, htotal⟩ := ih
    dsimp only at hi hc hflagged
    simp only [List.flatMap_append, List.flatMap_singleton, List.countP_append, List.countP_singleton]
    refine ⟨?_, ?_, ?_⟩
    · rw [hi, hraised]
      cases Step.signal? ⟨k, c, answer, k'⟩ <;> rfl
    · rw [hc, hlost]
    · omega

theorem raised_eq (h : Run rule config steps k) (p : Pid) : steps.countP (·.signal? = some p) =
    (steps.flatMap Step.events).count (.notified p .interrupt) + (steps.flatMap Step.events).count (.coalesced p) +
      (k.flag p).toNat := by
  induction h with
  | boot =>
    rw [Kernel.boot_flag]
    rfl
  | @call steps k k' c answer before allowed done ih =>
    have hflag := ((before.call allowed done).accounts (List.getElem?_concat_length ..)).flag p
    dsimp only at hflag
    simp only [List.flatMap_append, List.flatMap_singleton, List.count_append, List.countP_append, List.countP_singleton,
      decide_eq_true_eq]
    omega

end Run

/-- Interrupts are conserved, in all and for each process. -/
theorem interrupts_conserved (h : Run rule config steps k) :
    k.counters.interrupts = steps.countP (·.signal?.isSome) ∧
    k.counters.interrupts = (steps.flatMap Step.events).countP Event.isInterrupt + k.counters.coalesced + k.flagged ∧
    k.counters.coalesced = (steps.flatMap Step.events).countP Event.isCoalesced ∧
    (∀ p, steps.countP (·.signal? = some p) = (steps.flatMap Step.events).count (.notified p .interrupt) +
      (steps.flatMap Step.events).count (.coalesced p) + (k.flag p).toNat) ∧
    ∀ s ∈ steps, ∀ p, .notified p .interrupt ∈ s.events → s.after.message? p = some (.new .interrupt) := by
  obtain ⟨hraised, hlost, htotal⟩ := h.totals
  refine ⟨hraised, htotal, hlost, h.raised_eq, fun s hs p he => ?_⟩
  obtain ⟨i, hi⟩ := List.mem_iff_getElem?.mp hs
  exact (h.handles hi).message (List.mem_filter.mpr ⟨he, rfl⟩)

/-- Five interrupts for one process: two while it runs, one that it waits for, and two after it. -/
def alarmCalls : List Call :=
  [.start "handler" 0 0 0, .launch, .interrupt ⟨1⟩, .interrupt ⟨1⟩, .serve (.receive ⟨16⟩ (some 0)),
    .serve (.receive .any none), .serve (.receive .interrupt none), .interrupt ⟨1⟩, .interrupt ⟨1⟩, .interrupt ⟨1⟩]

/-- What comes of the five interrupts. -/
def alarms : List Step × Kernel := ((Kernel.boot {}).follow Call.Admissible alarmCalls).get (by decide +kernel)

/-- Two of them were received and two were coalesced; one is pending. -/
theorem interrupts_conserved_alarms : alarms.2.counters.interrupts = 2 + alarms.2.counters.coalesced + alarms.2.flagged ∧
    alarms.2.counters.interrupts = 5 ∧ alarms.2.counters.coalesced = 2 ∧ alarms.2.flag ⟨1⟩ = true ∧
    alarms.1.countP (·.signal? = some ⟨1⟩) =
      (alarms.1.flatMap Step.events).count (.notified ⟨1⟩ .interrupt) +
        (alarms.1.flatMap Step.events).count (.coalesced ⟨1⟩) + 1 := by
  have hrun : Run Call.Admissible {} alarms.1 alarms.2 := Run.of_boot (Option.some_get _).symm
  have hreceived : (alarms.1.flatMap Step.events).countP Event.isInterrupt = 2 := by decide +kernel
  have hflag : alarms.2.flag ⟨1⟩ = true := by decide +kernel
  obtain ⟨-, htotal, -, heach, -⟩ := interrupts_conserved hrun
  have hown := heach ⟨1⟩
  rw [hreceived] at htotal
  rw [hflag, Bool.toNat_true] at hown
  exact ⟨htotal, by decide +kernel, by decide +kernel, hflag, hown⟩

end Rendezvous
