import Mathlib.Algebra.GroupWithZero.Nat
import Rendezvous.Proofs.Boxes
import Rendezvous.Proofs.Courses

/-! # Run time

A tick charges the time that passes to the process that runs, and nothing else charges any: at every moment all that was
ever charged is the uptime. -/

namespace Rendezvous

/-- The descriptor without what messages, time, interrupts and the lists change. -/
def Descriptor.core (d : Descriptor) : Descriptor :=
  { d with
    state := .active, waiting := none, pending := false, filter := .any, slot := none, deadline := none, next := none
    link := none }

namespace Plain

/-- The core of each process. -/
def cores (P : Plain) : Pid → Option Descriptor := P.read Descriptor.core

/-- The run time of each process. -/
def runtimes (P : Plain) : Pid → Option Nat := P.read (·.runtime)

variable {P Q R : Plain}

/-- What leads from `P` to `Q` is the exchange of messages and the like: nobody's core changes. -/
structure Exchanges (P Q : Plain) : Prop where
  near : P.Near Q
  cores : Q.cores = P.cores

namespace Exchanges

theorem refl (P : Plain) : P.Exchanges P := ⟨.refl P, rfl⟩

theorem trans (h : P.Exchanges Q) (h' : Q.Exchanges R) : P.Exchanges R :=
  ⟨h.near.trans h'.near, h'.cores.trans h.cores⟩

theorem runtimes (h : P.Exchanges Q) : Q.runtimes = P.runtimes := by
  funext p
  have hcore := congrArg (Option.map (·.runtime)) (congrFun h.cores p)
  rwa [Plain.cores, Plain.cores, read, read, Option.map_map, Option.map_map] at hcore

/-- The descriptors are left alone. -/
theorem of_process (h : P.Near Q) (hp : Q.process = P.process) : P.Exchanges Q :=
  ⟨h, funext fun p => congrArg (Option.map Descriptor.core) (congrFun hp p)⟩

theorem modify (h : P.Exchanges Q) (p : Pid) {f : Descriptor → Descriptor} (hf : ∀ d, (f d).core = d.core) :
    P.Exchanges (Q.modify p f) := h.trans ⟨rfl, modify_read hf p⟩

theorem emit (h : P.Exchanges Q) (e : Event) : P.Exchanges (Q.emit e) := h.trans (of_process rfl rfl)

theorem setQueue (h : P.Exchanges Q) (link : Link) (l : List Pid) : P.Exchanges (Q.setQueue link l) :=
  h.trans (of_process rfl rfl)

theorem wake (h : P.Exchanges Q) (p : Pid) : P.Exchanges (Q.wake p) := by
  unfold Plain.wake
  split
  · exact h
  · split
    · exact h
    · exact (h.modify p (by intro; rfl)).setQueue _ _

theorem free (h : P.Exchanges Q) (p : Pid) (link : Link) : P.Exchanges (Q.free p link) :=
  (h.modify p (by intro; rfl)).setQueue link _

theorem join (h : P.Exchanges Q) (dest : Pid) : P.Exchanges (Q.join dest) :=
  ((h.modify Q.current (by intro; rfl)).setQueue _ _).emit _

theorem cancel (h : P.Exchanges Q) (p : Pid) : P.Exchanges (Q.cancel p) := by
  unfold Plain.cancel
  split
  · exact (h.modify p (by intro; rfl)).trans (of_process rfl rfl)
  · exact h

theorem setTimeout (h : P.Exchanges Q) (p : Pid) (timeout : Option UInt32) : P.Exchanges (Q.setTimeout p timeout) := by
  cases timeout with
  | none => exact h
  | some ms => exact (h.modify p (by intro; rfl)).trans (of_process rfl rfl)

theorem notify (h : P.Exchanges Q) (dest : Pid) (ty : MessageType) : P.Exchanges (Q.notify dest ty) :=
  ((h.modify dest (by intro; rfl)).emit _).trans (of_process rfl rfl)

theorem deliver (h : P.Exchanges Q) (dest src : Pid) : P.Exchanges (Q.deliver dest src) := by
  unfold Plain.deliver
  split
  · exact h
  · exact ((((h.modify src (by intro; rfl)).cancel dest).modify dest (by intro; rfl)).emit _).wake dest

theorem awaitReply (h : P.Exchanges Q) (p : Pid) : P.Exchanges (Q.awaitReply p) := by
  unfold Plain.awaitReply
  split
  · exact ((h.free _ _).deliver p _).wake _
  · exact h.modify p (by intro; rfl)

theorem hold (h : P.Exchanges Q) (msg : Message) : P.Exchanges (Q.hold msg) := h.modify Q.current (by intro; rfl)

theorem wait (h : P.Exchanges Q) (state : State) (dest : Pid) : P.Exchanges (Q.wait state dest) :=
  (h.modify Q.current (by intro; rfl)).join dest

theorem take (h : P.Exchanges Q) (src : Pid) : P.Exchanges (Q.take src) := by
  unfold Plain.take Plain.accept
  dsimp only
  split
  · exact ((h.free src _).deliver _ src).awaitReply src
  · exact ((h.free src _).deliver _ src).wake src

theorem block (h : P.Exchanges Q) (filter : MessageType) (timeout : Option UInt32) :
    P.Exchanges (Q.block filter timeout) :=
  ((h.modify Q.current (by intro; rfl)).setTimeout Q.current timeout).emit _

theorem expireAll (h : P.Exchanges Q) (l : List Pid) : P.Exchanges (l.foldl Plain.expire Q) := by
  induction l generalizing Q with
  | nil => exact h
  | cons p l ih => exact ih (((h.emit _).notify p .timeout).wake p)

theorem scan (h : P.Exchanges Q) (later : Int) : P.Exchanges (Q.scan later) :=
  h.trans ⟨rfl, scan_read (fun _ _ => rfl) later⟩

theorem elapse (h : P.Exchanges Q) (ms : UInt32) : P.Exchanges (Q.elapse ms) := by
  unfold Plain.elapse
  split
  · exact h
  · split
    · exact h.trans (of_process rfl rfl)
    · exact (h.scan _).expireAll _

theorem interrupt (h : P.Exchanges Q) (dest : Pid) : P.Exchanges (Q.interrupt dest) := by
  have hcounted := h.trans (of_process (P := Q)
    (Q := { Q with counters := { Q.counters with interrupts := Q.counters.interrupts + 1 } }) rfl rfl)
  unfold Plain.interrupt Plain.alert
  split
  · exact ((hcounted.cancel dest).notify dest .interrupt).wake dest
  · split
    · exact (hcounted.emit _).trans (of_process rfl rfl)
    · exact hcounted.modify dest (by intro; rfl)

end Exchanges

/-! ### The clock -/

/-- All run time is charged, and it is the process that runs that will be charged for more; before the launch no process
will be. -/
structure Clocked (P : Plain) : Prop where
  charged : P.chargedUntil = P.uptime
  last : P.last = if P.running then some P.current else none

theorem Clocked.timed (h : P.Clocked) : P.Timed := by
  refine ⟨h.charged, fun p hp => ?_⟩
  have hlast := h.last
  split at hlast
  · exact Option.some_inj.mp (hp.symm.trans hlast)
  · cases hp.symm.trans hlast

/-- No time passes on the way from `P` to `Q`, and nobody is charged. -/
structure Instant (P Q : Plain) : Prop where
  runtimes : Q.runtimes = P.runtimes
  uptime : Q.uptime = P.uptime
  clocked : Q.Clocked

theorem Instant.trans (h : P.Instant Q) (h' : Q.Instant R) : P.Instant R :=
  ⟨h'.runtimes.trans h.runtimes, h'.uptime.trans h.uptime, h'.clocked⟩

theorem Exchanges.instant (h : P.Exchanges Q) (hc : P.Clocked) : P.Instant Q := by
  refine ⟨h.runtimes, ?_, ?_⟩
  · rw [h.near]
  · rw [h.near]
    exact ⟨hc.charged, hc.last⟩

theorem Clocked.instant_modify (h : P.Clocked) (p : Pid) {f : Descriptor → Descriptor}
    (hf : ∀ d, (f d).runtime = d.runtime) : P.Instant (P.modify p f) :=
  ⟨modify_read hf p, rfl, h.charged, h.last⟩

/-- A choice of the process that runs next charges nothing. -/
theorem Timed.instant_reschedule (h : P.Timed) (hr : P.running = true) : P.Instant P.reschedule := by
  have hruntimes : P.reschedule.runtimes = P.runtimes := by
    rw [h.reschedule, runtimes, run_read fun _ _ => rfl, pop_read fun _ _ => rfl]
    rfl
  have hpop := P.pop_eq
  refine ⟨hruntimes, ?_, ?_⟩
  · rw [h.reschedule, run, hpop]
    rfl
  · rw [h.reschedule, run, hpop]
    exact ⟨h.charged, (if_pos hr).symm⟩

/-- A call that ends in a choice of the process that runs next. -/
theorem Exchanges.instant_reschedule (h : P.Exchanges Q) (hc : P.Clocked) (hr : P.running = true) :
    P.Instant Q.reschedule :=
  have hq := h.instant hc
  hq.trans (hq.clocked.timed.instant_reschedule (h.near.running.trans hr))

namespace Clocked

variable (h : P.Clocked) (hr : P.running = true)
include h hr

theorem instant_yield : P.Instant P.yield := ((Exchanges.refl P).wake P.current).instant_reschedule h hr

theorem instant_send (dest : Pid) (msg : Message) : P.Instant (P.send dest msg) := by
  have hhold := (Exchanges.refl P).hold msg
  unfold send
  dsimp only
  split
  · exact ((hhold.deliver dest P.current).wake P.current).instant_reschedule h hr
  · exact (hhold.wait .sending dest).instant_reschedule h hr

theorem instant_sendRec (dest : Pid) (msg : Message) : P.Instant (P.sendRec dest msg) := by
  have hhold := (Exchanges.refl P).hold msg
  unfold sendRec
  dsimp only
  split
  · exact ((hhold.deliver dest P.current).awaitReply P.current).instant_reschedule h hr
  · exact (hhold.wait .sendRec dest).instant_reschedule h hr

theorem instant_receive (filter : MessageType) (timeout : Option UInt32) : P.Instant (P.receive filter timeout) := by
  have hempty : P.Exchanges P.emptied := (Exchanges.refl P).modify P.current (by intro; rfl)
  by_cases hi : P.takesInterrupt filter = true
  · rw [receive_of_interrupt hi]
    exact ((hempty.modify P.current (by intro; rfl)).notify P.current .interrupt).instant h
  · cases hf : P.emptied.nextSender? filter with
    | some src =>
      rw [receive_of_sender hi hf]
      exact (hempty.take src).instant_reschedule h hr
    | none =>
      rw [receive_of_none hi hf]
      split
      · exact (hempty.notify P.current .timeout).instant h
      · exact (hempty.block filter timeout).instant_reschedule h hr

theorem instant_exit : P.Instant P.exit :=
  (((Exchanges.refl P).modify P.current (by intro; rfl)).emit _).instant_reschedule h hr

theorem instant_preempt (psp : Word) : P.Instant (P.preempt psp) := by
  have hsave : P.Instant (P.save psp) := h.instant_modify P.current (by intro; rfl)
  exact hsave.trans (instant_yield hsave.clocked hr)

/-- The time that passes is charged to the process that runs. -/
theorem tick (ms : UInt32) :
    (P.tick ms).runtimes = Function.update P.runtimes P.current ((P.runtimes P.current).map (· + ms.toNat)) ∧
      (P.tick ms).uptime = P.uptime + ms.toNat ∧ (P.tick ms).Clocked := by
  obtain ⟨Q, hQ⟩ : ∃ Q, Q = ({ P with uptime := P.uptime + ms.toNat } : Plain) := ⟨_, rfl⟩
  have hlast : Q.last = some P.current := by
    rw [hQ]
    exact h.last.trans (if_pos hr)
  -- The clock was right before the tick, so what is charged is what has passed since.
  have hgap : Q.uptime - Q.chargedUntil = ms.toNat := by
    rw [hQ]
    show P.uptime + ms.toNat - P.chargedUntil = ms.toNat
    rw [h.charged, Nat.add_sub_cancel_left]
  have htick : P.tick ms = Q.charge.elapse ms := by
    rw [hQ]
    rfl
  have hcharge := charge_of_some hlast
  have hclocked : Q.charge.Clocked := by
    rw [hcharge, hQ]
    exact ⟨rfl, h.last⟩
  have hinstant := ((Exchanges.refl Q.charge).elapse ms).instant hclocked
  rw [htick]
  refine ⟨hinstant.runtimes.trans ?_, hinstant.uptime.trans ?_, hinstant.clocked⟩
  · rw [hcharge, hgap, hQ]
    funext p
    by_cases hp : p = P.current
    · rw [hp, Function.update_self]
      show (Function.update P.process P.current _ P.current).map _ = ((P.process P.current).map _).map _
      rw [Function.update_self, Option.map_map, Option.map_map]
      rfl
    · rw [Function.update_of_ne hp]
      exact congrArg (Option.map _) (modify_ne hp _)
  · rw [hcharge, hQ]
    rfl

theorem instant_perform (lines : List Event) {r : Request} (untimed : ∀ ms, r ≠ .tick ms) :
    P.Instant (P.perform lines r) := by
  cases r with
  | yield => exact h.instant_yield hr
  | send dest msg => exact h.instant_send hr _ msg
  | receive filter timeout => exact h.instant_receive hr filter timeout
  | sendRec dest msg => exact h.instant_sendRec hr _ msg
  | exit => exact h.instant_exit hr
  | dump =>
    refine Exchanges.instant ?_ h
    exact .of_process rfl rfl
  | tick ms => exact absurd rfl (untimed ms)

end Clocked

/-! ### Calls -/

/-- What a call does to the run times. -/
inductive Passes (P : Plain) (c : Call) (Q : Plain) : Prop
  | ticks (ms : UInt32) (request : c.request? = some (.tick ms))
    (runtimes : Q.runtimes = Function.update P.runtimes P.current ((P.runtimes P.current).map (· + ms.toNat)))
    (uptime : Q.uptime = P.uptime + ms.toNat)
  | starts (unrequested : c.request? = none)
    (runtimes : Q.runtimes = Function.update P.runtimes (.ofIndex P.size) (some 0)) (uptime : Q.uptime = P.uptime)
  | instant (untimed : ∀ ms, c.request? ≠ some (.tick ms)) (runtimes : Q.runtimes = P.runtimes)
    (uptime : Q.uptime = P.uptime)

variable {c : Call} {r : Request}

/-- A call without a request. -/
theorem Instant.passes (h : P.Instant Q) (hc : c.request? = none) : Q.Clocked ∧ P.Passes c Q :=
  ⟨h.clocked, .instant (fun ms hms => by cases hc.symm.trans hms) h.runtimes h.uptime⟩

namespace Clocked

variable (h : P.Clocked)
include h

theorem passes_serve (hr : P.running = true) (hc : c.request? = some r) (lines : List Event) :
    (P.serve lines r).Clocked ∧ P.Passes c (P.serve lines r) := by
  have hasked : P.Exchanges (P.asked r) := .of_process rfl rfl
  have hinstant := hasked.instant h
  by_cases ht : ∃ ms, r = .tick ms
  · obtain ⟨ms, rfl⟩ := ht
    obtain ⟨hruntimes, huptime, hclocked⟩ := hinstant.clocked.tick hr ms
    exact ⟨hclocked, .ticks ms hc hruntimes huptime⟩
  · have hne : ∀ ms, r ≠ .tick ms := fun ms he => ht ⟨ms, he⟩
    have hperform := hinstant.trans (hinstant.clocked.instant_perform hr lines hne)
    refine ⟨hperform.clocked, .instant (fun ms hms => ?_) hperform.runtimes hperform.uptime⟩
    exact hne ms (Option.some_inj.mp (hc.symm.trans hms))

theorem passes_start (name : String) (size : Nat) (entry arg : Word) :
    (P.start name size entry arg).Clocked ∧
      P.Passes (.start name size entry arg) (P.start name size entry arg) := by
  obtain ⟨words, hw⟩ : ∃ words, words = stackWords (Kernel.stackSize size) := ⟨_, rfl⟩
  have hcreate : (P.create name words).runtimes = Function.update P.runtimes (.ofIndex P.size) (some 0) := by
    funext p
    by_cases hp : p = .ofIndex P.size
    · rw [hp, Function.update_self, runtimes, read, create_self]
      rfl
    · rw [Function.update_of_ne hp]
      exact congrArg (Option.map _) (P.create_ne name words hp)
  have hclocked : (P.create name words).Clocked := ⟨h.charged, h.last⟩
  rw [start, ← hw, startWith]
  split
  · exact ⟨hclocked, .starts rfl hcreate rfl⟩
  · rename_i offset content _
    -- Neither the first frame nor the waking counts as run time.
    have hinstall : (P.create name words).Instant
        ((P.create name words).install (.ofIndex P.size) P.frontier offset content) :=
      ⟨modify_read (by intro; rfl) (.ofIndex P.size), rfl, h.charged, h.last⟩
    have hstart := hinstall.trans ((((Exchanges.refl _).wake (.ofIndex P.size)).emit
      (.started (.ofIndex P.size) name (words * wordBytes))).instant hinstall.clocked)
    exact ⟨hstart.clocked, .starts rfl (hstart.runtimes.trans hcreate) hstart.uptime⟩

/-- Nobody ran before the launch, so nobody is charged. -/
theorem passes_launch (hr : P.running = false) : P.launch.Clocked ∧ P.Passes .launch P.launch := by
  obtain ⟨Q, hQ⟩ : ∃ Q, Q = { P.emit (.launched P.size) with running := true, current := .idle } := ⟨_, rfl⟩
  have hlast : P.last = none := h.last.trans (by rw [hr]; rfl)
  have htimed : Q.Timed := by
    rw [hQ]
    exact ⟨h.charged, fun p hp => by cases hlast.symm.trans hp⟩
  have hinstant := htimed.instant_reschedule (by rw [hQ])
  have hruntimes : Q.runtimes = P.runtimes := by
    rw [hQ]
    rfl
  have huptime : Q.uptime = P.uptime := by rw [hQ]; rfl
  rw [launch, ← hQ]
  exact Instant.passes ⟨hinstant.runtimes.trans hruntimes, hinstant.uptime.trans huptime, hinstant.clocked⟩ rfl

/-- A trap does what its request does, if its frame holds one. -/
theorem passes_trap (psp : Word) (frame : TrapFrame) (lines : List Event)
    (hrun : (Call.trap psp frame).request?.isSome → P.running = true) :
    (P.after lines (.trap psp frame)).Clocked ∧ P.Passes (.trap psp frame) (P.after lines (.trap psp frame)) := by
  cases hd : frame.decode with
  | ok r =>
    have hrequest := Call.request?_of_decoded hd psp
    have hr := hrun (by rw [hrequest]; rfl)
    have hsave : P.Instant (P.save psp) := h.instant_modify P.current (by intro; rfl)
    rw [after_of_decoded hd]
    obtain ⟨hclocked, hpasses⟩ := passes_serve hsave.clocked hr hrequest lines
    refine ⟨hclocked, ?_⟩
    -- What is charged is counted from the state in which the stack pointer is kept, whose run times are those of `P`.
    cases hpasses with
    | ticks ms request runtimes uptime =>
      refine .ticks ms request ?_ uptime
      rw [runtimes, hsave.runtimes]
      rfl
    | starts unrequested => cases hrequest.symm.trans unrequested
    | instant untimed runtimes uptime => exact .instant untimed (runtimes.trans hsave.runtimes) uptime
  | error f =>
    rw [after_of_undecoded hd]
    exact ((Exchanges.refl P).instant h).passes (Call.request?_of_undecoded hd psp)

/-- What every call does to the run times. -/
theorem passes_after (c : Call) (lines : List Event) (hlaunch : c = .launch → P.running = false)
    (hrun : (∃ psp, c = .preempt psp) ∨ c.request?.isSome → P.running = true) :
    (P.after lines c).Clocked ∧ P.Passes c (P.after lines c) := by
  have hsame : P.Instant P := (Exchanges.refl P).instant h
  cases c with
  | start name size entry arg => exact h.passes_start name size entry arg
  | launch => exact h.passes_launch (hlaunch rfl)
  | connect irq =>
    refine Instant.passes (P := P) ?_ rfl
    exact ⟨modify_read (by intro; rfl) P.current, rfl, h.charged, h.last⟩
  | setPriority level => exact Instant.passes (h.instant_modify P.current (by intro; rfl)) rfl
  | serve r => exact h.passes_serve (hrun (.inr rfl)) rfl lines
  | trap psp frame => exact h.passes_trap psp frame lines fun hr => hrun (.inr hr)
  | preempt psp => exact (h.instant_preempt (hrun (.inl ⟨psp, rfl⟩)) psp).passes rfl
  | interrupt p => exact (((Exchanges.refl P).interrupt p).instant h).passes rfl
  | interruptRequest irq =>
    cases hl : P.lines.handler irq with
    | ok p =>
      rw [after_of_handler hl]
      exact (((Exchanges.refl P).interrupt p).instant h).passes rfl
    | error f =>
      rw [after_of_unhandled hl]
      exact hsame.passes rfl
  | takeMessage p => exact Instant.passes (h.instant_modify p (by intro; rfl)) rfl
  | pokeStack p i value =>
    have hpoke : P.Instant (P.pokeStack p i value) := ⟨rfl, rfl, h.charged, h.last⟩
    exact hpoke.passes rfl

end Clocked

end Plain

/-! ### Kernels -/

/-- A member that has grown, and the sum of all. -/
theorem sum_modify_add {l : List Nat} {i : Nat} (hi : i < l.length) (n : Nat) :
    (l.modify i (· + n)).sum = l.sum + n := by
  induction l generalizing i with
  | nil => cases hi
  | cons a l ih =>
    cases i with
    | zero => simp [Nat.add_right_comm]
    | succ i => simp [ih (Nat.lt_of_succ_lt_succ hi), Nat.add_assoc]

/-- Lists that are not too long agree if they agree at all pids. -/
theorem ext_pid {α : Type} {l l' : List α} (hl : l.length ≤ 65536) (hl' : l'.length ≤ 65536)
    (h : ∀ p : Pid, l[p.index]? = l'[p.index]?) : l = l' := by
  refine List.ext_getElem? fun i => ?_
  rcases Nat.lt_or_ge i 65536 with hi | hi
  · rw [← Pid.index_ofIndex hi]
    exact h (.ofIndex i)
  · rw [List.getElem?_eq_none (hl.trans hi), List.getElem?_eq_none (hl'.trans hi)]

namespace Kernel

/-- The run times of all processes, in the order of their pids. -/
def runtimes (k : Kernel) : List Nat := k.table.processes.map (·.runtime)

variable {k k' : Kernel} {P Q : Plain} {c : Call} {a : Answer}

theorem Shows.runtimes (h : k.Shows P) (p : Pid) : P.runtimes p = k.runtimes[p.index]? := by
  rw [Plain.runtimes, Plain.read, h.process, Table.plain, Option.map_map, Kernel.runtimes, List.getElem?_map]
  rfl

theorem Shows.length_runtimes (h : k.Shows P) (hrest : P.Rests) : k.runtimes.length ≤ Limits.processes := by
  rw [Kernel.runtimes, List.length_map]
  exact h.size.symm.trans_le hrest.sound.size

/-- What a call does to the run times. -/
inductive Spends (k : Kernel) (c : Call) (k' : Kernel) : Prop
  | ticks (ms : UInt32) (request : c.request? = some (.tick ms)) (current : k.current.index < k.runtimes.length)
    (runtimes : k'.runtimes = k.runtimes.modify k.current.index (· + ms.toNat))
    (uptime : k'.uptime = k.uptime + ms.toNat)
  | starts (unrequested : c.request? = none) (runtimes : k'.runtimes = k.runtimes ++ [0])
    (uptime : k'.uptime = k.uptime)
  | instant (untimed : ∀ ms, c.request? ≠ some (.tick ms)) (runtimes : k'.runtimes = k.runtimes)
    (uptime : k'.uptime = k.uptime)

theorem Shows.spends (h : k.Shows P) (hrest : P.Rests) (h' : k'.Shows Q) (hrest' : Q.Rests) (hp : P.Passes c Q) :
    k.Spends c k' := by
  have hlength := h.length_runtimes hrest
  have hlength' := h'.length_runtimes hrest'
  have hsize : k.runtimes.length = P.size := by rw [Kernel.runtimes, List.length_map]; exact h.size.symm
  have hext : ∀ l : List Nat, l.length ≤ 65536 → (∀ p : Pid, Q.runtimes p = l[p.index]?) → k'.runtimes = l :=
    fun l hl hpid => ext_pid (Nat.le_trans hlength' (by decide)) hl fun p => (h'.runtimes p).symm.trans (hpid p)
  cases hp with
  | ticks ms request runtimes uptime =>
    have hcurrent : k.current.index < k.runtimes.length := by
      rw [hsize, ← hrest.sound.known, ← h.current]
      exact hrest.sound.current
    refine .ticks ms request hcurrent (hext _ ?_ fun p => ?_) (by rw [← h'.uptime, ← h.uptime, uptime])
    · rw [List.length_modify]
      exact Nat.le_trans hlength (by decide)
    · rw [runtimes, h.current, List.getElem?_modify, ← h.runtimes]
      by_cases hp : p = k.current
      · rw [hp, Function.update_self]
        simp
      · have hi : k.current.index ≠ p.index := fun hi => hp (Pid.index_inj.mp hi).symm
        rw [Function.update_of_ne hp]
        simp [hi]
  | starts unrequested runtimes uptime =>
    -- The new process comes behind all others.
    have hindex : (Pid.ofIndex P.size).index = k.runtimes.length := hrest.sound.unused.1.trans hsize.symm
    refine .starts unrequested (hext _ ?_ fun p => ?_) (by rw [← h'.uptime, ← h.uptime, uptime])
    · rw [List.length_append, List.length_singleton]
      exact Nat.le_trans (Nat.succ_le_succ hlength) (by decide)
    · rw [runtimes, getElem?_concat]
      by_cases hp : p = .ofIndex P.size
      · rw [hp, Function.update_self, if_pos hindex]
      · have hi : p.index ≠ k.runtimes.length := fun hi => hp (Pid.index_inj.mp (hi.trans hindex.symm))
        rw [Function.update_of_ne hp, h.runtimes, if_neg hi]
  | instant untimed runtimes uptime =>
    refine .instant untimed (hext _ (Nat.le_trans hlength (by decide)) fun p => ?_) ?_
    · rw [runtimes, h.runtimes]
    · rw [← h'.uptime, ← h.uptime, uptime]

/-- A call that returns leaves a kernel whose clock is right. -/
theorem Shows.spends_call (h : k.Shows P) (hrest : P.Rests) (hclocked : P.Clocked) (hc : c.Proper k)
    (hok : (k.call c).outcome = .ok (a, k')) :
    (∃ Q, k'.Shows Q ∧ Q.Rests ∧ Q.Clocked) ∧ k.Spends c k' := by
  obtain ⟨lines, hk', hrest', -⟩ := h.call_ok hrest hc hok
  have hlaunch : c = .launch → P.running = false := by
    rintro rfl
    exact h.running.trans hc
  have hrun : (∃ psp, c = .preempt psp) ∨ c.request?.isSome → P.running = true := by
    rw [h.running]
    rintro (⟨psp, rfl⟩ | hr)
    · exact hc
    · exact hc.running hr
  obtain ⟨hclocked', hpasses⟩ := hclocked.passes_after c (lines.map .dumped) hlaunch hrun
  exact ⟨⟨_, hk', hrest', hclocked'⟩, h.spends hrest hk' hrest' hpasses⟩

end Kernel

namespace Run

variable {config : Config} {steps : List Step} {k : Kernel}

theorem clocked (h : Run Call.Proper config steps k) : ∃ P, k.Shows P ∧ P.Rests ∧ P.Clocked := by
  induction h with
  | boot => exact ⟨_, .boot config, Plain.boot_rests config, rfl, rfl⟩
  | call _ allowed done ih =>
    obtain ⟨P, hk, hrest, hclocked⟩ := ih
    exact (hk.spends_call hrest hclocked allowed done).1

/-- What every step of a run does to the run times. -/
theorem spends (h : Run Call.Proper config steps k) {i : Nat} {s : Step} (hs : steps[i]? = some s) :
    s.before.Spends s.call s.after := by
  obtain ⟨hrun, hc, hok⟩ := h.step hs
  obtain ⟨P, hk, hrest, hclocked⟩ := hrun.clocked
  exact (hk.spends_call hrest hclocked hc hok).2

/-- The run times add up to the uptime. -/
theorem sum_runtimes (h : Run Call.Proper config steps k) : k.runtimes.sum = k.uptime := by
  induction h with
  | boot => rfl
  | @call steps k k' c answer before allowed done ih =>
    have hspends : k.Spends c k' := (before.call allowed done).spends (List.getElem?_concat_length ..)
    cases hspends with
    | ticks ms request current runtimes uptime => rw [runtimes, sum_modify_add current, ih, uptime]
    | starts unrequested runtimes uptime => rw [runtimes, List.sum_append, ih, uptime]; rfl
    | instant untimed runtimes uptime => rw [runtimes, ih, uptime]

/-- No time passes before the launch. -/
theorem uptime_eq_zero (h : Run Call.Proper config steps k) (hr : k.running = false) : k.uptime = 0 := by
  induction h with
  | boot => rfl
  | @call steps k k' c answer before allowed done ih =>
    have hasleep : k.running = false := by
      by_contra hawake
      rw [(before.resting.grows allowed done).2.1 (Bool.eq_true_of_not_eq_false hawake)] at hr
      cases hr
    have hspends : k.Spends c k' := (before.call allowed done).spends (List.getElem?_concat_length ..)
    cases hspends with
    | ticks ms request current runtimes uptime =>
      rw [allowed.running (request ▸ rfl)] at hasleep
      cases hasleep
    | starts unrequested runtimes uptime => rw [uptime, ih hasleep]
    | instant untimed runtimes uptime => rw [uptime, ih hasleep]

end Run

/-- What a step does to the run time of one process. -/
structure Step.Charges (s : Step) : Prop where
  /-- A tick charges the process that runs and no other. -/
  ticked : ∀ ms, s.request? = some (.tick ms) → ∀ p d, s.before.process? p = some d →
    ∃ d', s.after.process? p = some d' ∧ d'.runtime = d.runtime + if p = s.before.current then ms.toNat else 0
  unticked : (∀ ms, s.request? ≠ some (.tick ms)) → ∀ p d, s.before.process? p = some d →
    ∃ d', s.after.process? p = some d' ∧ d'.runtime = d.runtime
  /-- A process that is new has used no time. -/
  fresh : ∀ p d', s.before.process? p = none → s.after.process? p = some d' → d'.runtime = 0

namespace Kernel

variable {k k' : Kernel} {p : Pid} {d : Descriptor} {n : Nat}

theorem runtimes_eq_some : k.runtimes[p.index]? = some n ↔ ∃ d, k.process? p = some d ∧ d.runtime = n := by
  rw [runtimes, List.getElem?_map, Option.map_eq_some_iff]
  rfl

theorem runtimes_eq_none : k.runtimes[p.index]? = none ↔ k.process? p = none := by
  rw [runtimes, List.getElem?_map, Option.map_eq_none_iff]
  rfl

end Kernel

open Kernel in
theorem Kernel.Spends.charges {s : Step} (h : s.before.Spends s.call s.after) : s.Charges := by
  constructor
  case ticked =>
    intro ms hms p d hd
    have hold : s.before.runtimes[p.index]? = some d.runtime := runtimes_eq_some.mpr ⟨d, hd, rfl⟩
    refine runtimes_eq_some.mp ?_
    cases h with
    | ticks ms' request _ runtimes =>
      obtain rfl : ms = ms' := Request.tick.inj (Option.some_inj.mp (hms.symm.trans request))
      rw [runtimes, List.getElem?_modify, hold]
      by_cases hp : p = s.before.current
      · simp [hp]
      · have hi : s.before.current.index ≠ p.index := fun hi => hp (Pid.index_inj.mp hi).symm
        simp [hp, hi]
    | starts unrequested => cases hms.symm.trans unrequested
    | instant untimed => exact absurd hms (untimed ms)
  case unticked =>
    intro hne p d hd
    have hold : s.before.runtimes[p.index]? = some d.runtime := runtimes_eq_some.mpr ⟨d, hd, rfl⟩
    refine runtimes_eq_some.mp ?_
    cases h with
    | ticks ms request => exact absurd request (hne ms)
    | starts _ runtimes => rw [runtimes, List.getElem?_append_left (List.getElem?_eq_some_iff.mp hold).1, hold]
    | instant _ runtimes => rw [runtimes, hold]
  case fresh =>
    intro p d' hnone hd'
    have hold : s.before.runtimes[p.index]? = none := runtimes_eq_none.mpr hnone
    have hnew : s.after.runtimes[p.index]? = some d'.runtime := runtimes_eq_some.mpr ⟨d', hd', rfl⟩
    cases h with
    | ticks ms _ _ runtimes =>
      rw [runtimes, List.getElem?_modify, hold] at hnew
      cases hnew
    | starts _ runtimes =>
      rw [runtimes, List.getElem?_append_right (List.getElem?_eq_none_iff.mp hold)] at hnew
      exact List.mem_singleton.mp (List.mem_of_getElem? hnew)
    | instant _ runtimes => cases hold.symm.trans (runtimes ▸ hnew)

/-- All time that has passed is charged, to the process that ran at the time: in every run the run times of all
processes, idle and dead ones included, add up to the uptime, and only ticks charge any. -/
theorem run_time_conserved {config : Config} {steps : List Step} {k : Kernel} (h : Run Call.Proper config steps k) :
    (k.table.processes.map (·.runtime)).sum = k.uptime ∧ ∀ s ∈ steps, s.Charges := by
  refine ⟨h.sum_runtimes, fun s hs => ?_⟩
  obtain ⟨i, hi⟩ := List.mem_iff_getElem?.mp hs
  exact (h.spends hi).charges

/-- Two processes that use some time, of which one exits, and the idle process after them. -/
def tickedCalls : List Call :=
  [.start "a" 0 0 0, .start "b" 0 0 0, .launch, .serve (.tick 5), .serve .yield, .serve (.tick 7), .serve .exit,
    .serve (.tick 2), .serve (.receive .any none), .trap 0 (Request.tick 3).encode]

/-- What comes of the time that they use. -/
def ticked : List Step × Kernel := ((Kernel.boot {}).follow Call.Proper tickedCalls).get (by decide +kernel)

theorem run_time_conserved_ticked : (ticked.2.table.processes.map (·.runtime)).sum = 17 ∧
    ticked.2.runtimes = [3, 7, 7] ∧ ∀ s ∈ ticked.1, s.Charges := by
  have hrun : Run Call.Proper {} ticked.1 ticked.2 := Run.of_boot (Option.some_get _).symm
  have huptime : ticked.2.uptime = 17 := by decide +kernel
  obtain ⟨hsum, hcharges⟩ := run_time_conserved hrun
  exact ⟨hsum.trans huptime, by decide +kernel, hcharges⟩

end Rendezvous
