import Rendezvous.InterruptLines
import Rendezvous.Proofs.Control
import Rendezvous.Proofs.Deadlines
import Rendezvous.Proofs.PlainQueues
import Rendezvous.Proofs.Rearranged

/-! # Refused operations

The process table, the scheduler, the registry of timeouts and the interrupt lines, without a kernel around them. An
operation that is refused leaves all four as they were, whatever came before it. For the registry this rests on its
entries being the processes with a deadline: a cancel drops the deadline before it looks for the entry, and there is one
whenever there was a deadline. -/

namespace Rendezvous

/-! ### The parts -/

/-- The parts of a kernel. -/
structure Parts where
  table : Table
  scheduler : Scheduler
  timeouts : Timeouts
  lines : InterruptLines

namespace Parts

/-- The parts as they are at first, without a process. -/
def new (policy : Policy) : Parts := ⟨.empty, { policy := policy }, {}, {}⟩

/-- The operations that can be refused. -/
inductive Operation where
  | create (name : String) (bytes : Nat)
  | makeReady (p : Pid)
  | set (p : Pid) (ms : UInt32)
  | cancel (p : Pid)
  | connect (irq : Int32) (p : Pid)

/-- The process that an operation is about. -/
def Operation.subject? : Operation → Option Pid
  | create .. => none
  | makeReady p | set p _ | cancel p | connect _ p => some p

/-- The process that an operation is about, if there is one, exists. -/
def Operation.Applies (op : Operation) (t : Table) : Prop := ∀ p ∈ op.subject?, (t.get? p).isSome

/-- What an attempt on some of the parts makes of all of them. -/
def settle {σ α : Type} (a : Attempt σ α) (put : σ → Parts) : Attempt Parts Unit :=
  ⟨a.outcome.map fun _ => (), put a.state⟩

/-- Attempts an operation. -/
def perform (c : Parts) : Operation → Attempt Parts Unit
  | .create name bytes => settle (c.table.create name bytes) fun t => { c with table := t }
  | .makeReady p => settle (c.scheduler.makeReady c.table p) fun s => { c with scheduler := s.1, table := s.2 }
  | .set p ms => settle (c.timeouts.set c.table p ms) fun s => { c with timeouts := s.1, table := s.2 }
  | .cancel p => settle (c.timeouts.cancel c.table p) fun s => { c with timeouts := s.1, table := s.2 }
  | .connect irq p => settle (c.lines.connect irq p) fun l => { c with lines := l }

/-- The parts after some operations, refused or not. In between, descriptors may change but for their deadlines and their
places in lists. -/
inductive Reached (policy : Policy) : Parts → Prop where
  | new : Reached policy (new policy)
  | perform {c : Parts} (h : Reached policy c) (op : Operation) (applies : op.Applies c.table) :
      Reached policy (c.perform op).state
  | chooseNext {c : Parts} {now : Nat} {next : Pid} {s : Scheduler} {t : Table} (h : Reached policy c)
      (idle : (c.table.get? .idle).isSome) (done : (c.scheduler.chooseNext c.table now).outcome = .ok (next, s, t)) :
      Reached policy { c with scheduler := s, table := t }
  | charge {c : Parts} {now : Nat} {s : Scheduler} {t : Table} (h : Reached policy c)
      (done : c.scheduler.charge c.table now = .ok (s, t)) : Reached policy { c with scheduler := s, table := t }
  | tick {c : Parts} {ms : UInt32} {expired : List Pid} {r : Timeouts} {t : Table} (h : Reached policy c)
      (done : c.timeouts.tick c.table ms = .ok (expired, r, t)) : Reached policy { c with timeouts := r, table := t }
  | assign {c : Parts} {p : Pid} {d d' : Descriptor} (h : Reached policy c) (hp : c.table.get? p = some d)
      (deadline : d'.deadline = d.deadline) (next : d'.next = d.next) (link : d'.link = d.link) :
      Reached policy { c with table := c.table.put p d' }

end Parts

/-! ### What leaves the deadlines alone -/

namespace Table

variable {t t' t'' : Table} {p : Pid} {d d' : Descriptor} {f : Descriptor → Descriptor}

/-- There are the same processes, with the same deadlines. -/
structure SameDates (t t' : Table) : Prop where
  size : t'.size = t.size
  deadlines : t'.deadlineOf = t.deadlineOf

theorem SameDates.trans (h : t.SameDates t') (h' : t'.SameDates t'') : t.SameDates t'' :=
  ⟨h'.size.trans h.size, h'.deadlines.trans h.deadlines⟩

theorem SameDates.put (hp : t.get? p = some d) (hd : d'.deadline = d.deadline) : t.SameDates (t.put p d') := by
  refine ⟨size_put .., ?_⟩
  rw [deadlineOf_put hp, hd]
  exact update_same (deadlineOf_eq hp)

theorem SameDates.update (t : Table) (p : Pid) (hf : ∀ d, (f d).deadline = d.deadline) :
    Yields (t.update p f) t.SameDates := by
  intro t' ht
  obtain ⟨d, hp, rfl⟩ := update_eq_ok.mp ht
  exact .put hp (hf d)

theorem SameDates.of_plain (hp : t.get? p = some d) (size : t'.size = t.size)
    (plain : t'.plain = Function.update t.plain p (some d'.plain)) (hd : d'.deadline = d.deadline) :
    t.SameDates t' := by
  refine ⟨size, ?_⟩
  have hput := (SameDates.put hp hd).deadlines
  rw [← hput]
  funext q
  rw [← deadlineOf_plain, ← deadlineOf_plain, plain, plain_put hp]

theorem deadlineOf_extend (h : t.size < Limits.processes) (name : String) (words : Nat) :
    (t.extend name words).deadlineOf = t.deadlineOf :=
  funext (bind_extend h name words rfl)

theorem isSome_extend (h : (t.get? p).isSome) (name : String) (words : Nat) :
    ((t.extend name words).get? p).isSome := by
  rw [get?_isSome_iff, size_extend]
  exact Nat.lt_succ_of_lt (get?_isSome_iff.mp h)

end Table

namespace Scheduler

open Table

variable {s s' : Scheduler} {t t' : Table} {p : Pid} {d : Descriptor}

theorem charge_dates (s : Scheduler) (t : Table) (now : Nat) : Yields (s.charge t now) fun r => t.SameDates r.2 := by
  unfold charge
  dsimp only
  split
  · exact .ok ⟨rfl, rfl⟩
  · exact Yields.bind (SameDates.update t _ fun _ => rfl) fun t' ht => .ok ht

theorem pop_dates (s : Scheduler) (t : Table) : Yields (s.pop t) fun r => t.SameDates r.2.2 := by
  unfold pop
  split
  · exact .ok ⟨rfl, rfl⟩
  · exact .skip fun d => Yields.bind (SameDates.update t _ fun _ => rfl) fun t' ht => .ok ht

theorem pick_dates (s : Scheduler) (t : Table) (now : Nat) : Yields (s.pick t now) fun r => t.SameDates r.2.2 := by
  unfold pick
  refine (s.charge_dates t now).bind ?_
  rintro ⟨s₁, t₁⟩ h₁
  refine (s₁.pop_dates t₁).bind ?_
  rintro ⟨head, s₂, t₂⟩ h₂
  exact Yields.bind (SameDates.update t₂ _ fun _ => rfl) fun t₃ h₃ => .ok (h₁.trans (h₂.trans h₃))

theorem chooseNext_dates {now : Nat} {next : Pid} (h : (s.chooseNext t now).outcome = .ok (next, s', t')) :
    t.SameDates t' := by
  obtain ⟨⟨next', s₁, t₁⟩, hpick, hrest⟩ := Traced.bind_eq_ok.mp h
  obtain ⟨d, -, hlast⟩ := Traced.bind_eq_ok.mp hrest
  cases hlast
  exact s.pick_dates t now _ hpick

end Scheduler

/-! ### What leaves the lists alone -/

namespace Table

variable {t t' t'' : Table} {p : Pid} {d d' : Descriptor}

/-- There are the same processes, in the same places of the same lists. -/
structure SameThreads (t t' : Table) : Prop where
  size : t'.size = t.size
  next : t'.nextOf = t.nextOf
  link : t'.linkOf = t.linkOf

theorem SameThreads.put (hp : t.get? p = some d) (next : d'.next = d.next) (link : d'.link = d.link) :
    t.SameThreads (t.put p d') :=
  ⟨size_put .., nextOf_put_same hp next, linkOf_put_same hp link⟩

end Table

namespace Timeouts

open Table

variable {r r' : Timeouts} {t t' : Table} {p : Pid} {d : Descriptor} {ms : UInt32} {expired : List Pid}

/-- A tick changes nothing but deadlines. -/
theorem Tracks.tick_threads (h : r.Tracks t) (htick : r.tick t ms = .ok (expired, r', t')) : t.SameThreads t' := by
  cases hnext : r.nextDue with
  | none =>
    rw [tick_of_none hnext] at htick
    cases htick
    exact ⟨rfl, rfl, rfl⟩
  | some next =>
    by_cases hearly : r.ticks ≤ next
    · rw [tick_of_early hnext hearly] at htick
      cases htick
      exact ⟨rfl, rfl, rfl⟩
    · have hfound : ∀ p ∈ r.entries, (t.get? p).isSome := by
        intro p hp
        obtain ⟨d, hd, -⟩ := h.found hp
        rw [hd, Option.isSome_some]
      obtain ⟨t₁, hscan, hplain, hnextOf, -, hstore⟩ :=
        scan_ok (s := ⟨[], [], none, t⟩) r.ticks (saturate (r.ticks + saturate ms.toNat)) h.distinct hfound
      rw [tick_of_due hnext hearly ms hscan] at htick
      cases htick
      refine ⟨hstore.size, hnextOf, ?_⟩
      funext p
      -- A scan rewrites the deadlines of entries, and their links stay.
      rw [linkOf_eq, linkOf_eq, hplain]
      dsimp only
      split
      · rw [Option.bind_map]
        rfl
      · rfl

/-- There is always room for one more timeout. -/
theorem Tracks.room (h : r.Tracks t) (hsize : t.size ≤ Limits.processes) (hp : (t.get? p).isSome)
    (hnew : p ∉ r.entries) : r.size < Limits.processes := by
  have hbelow : ∀ q ∈ p :: r.entries, q.index < t.size := by
    intro q hq
    rcases List.mem_cons.mp hq with rfl | hq
    · exact get?_isSome_iff.mp hp
    · obtain ⟨d, hd, -⟩ := h.found hq
      exact get?_isSome_iff.mp (by rw [hd, Option.isSome_some])
  have hlength := Pid.length_le (List.nodup_cons.mpr ⟨hnew, h.distinct⟩) hbelow
  rw [List.length_cons] at hlength
  exact Nat.lt_of_lt_of_le (Nat.lt_of_succ_le hlength) hsize

/-- A timeout is set unless there is one. -/
theorem Tracks.set_or_refuse (h : r.Tracks t) (hsize : t.size ≤ Limits.processes) (hp : t.get? p = some d)
    (ms : UInt32) :
    (r.contains p = true ∧ r.set t p ms = .refuse (.timeoutAlreadySet p) (r, t)) ∨
      r.contains p = false ∧ ∃ r' t', r.set t p ms = .done () (r', t') ∧ r'.Tracks t' ∧ t.SameThreads t' := by
  have hentry := h.entry p
  rw [deadlineOf_eq hp] at hentry
  by_cases hd : d.deadline.isSome
  · refine .inl ⟨List.contains_iff_mem.mpr (hentry.mpr hd), ?_⟩
    simp [Timeouts.set, hp, hd]
  · have hnew : p ∉ r.entries := fun hmem => hd (hentry.mp hmem)
    have hroom := h.room hsize (by rw [hp, Option.isSome_some]) hnew
    have hnone : d.deadline = none := by simpa using hd
    refine .inr ⟨by simpa [contains] using hnew, ?_⟩
    exact ⟨_, _, set_ok hp hnone hroom ms, h.set hp hnone, .put hp rfl rfl⟩

/-- A timeout is cancelled if there is one. -/
theorem Tracks.cancel_or_refuse (h : r.Tracks t) (hp : t.get? p = some d) :
    (r.contains p = false ∧ r.cancel t p = .refuse (.timeoutNotSet p) (r, t)) ∨
      r.contains p = true ∧ ∃ r' t', r.cancel t p = .done () (r', t') ∧ r'.Tracks t' ∧ t.SameThreads t' := by
  have hentry := h.entry p
  rw [deadlineOf_eq hp] at hentry
  by_cases hd : d.deadline.isSome
  · refine .inr ⟨List.contains_iff_mem.mpr (hentry.mpr hd), ?_⟩
    exact ⟨_, _, cancel_ok hp hd (hentry.mpr hd), h.cancel (hentry.mpr hd) hp, .put hp rfl rfl⟩
  · have hout : p ∉ r.entries := fun hmem => hd (hentry.mp hmem)
    have hnone : d.deadline = none := by simpa using hd
    refine .inl ⟨by simpa [contains] using hout, ?_⟩
    simp [Timeouts.cancel, hp, hnone]

end Timeouts

/-! ### What holds of the parts -/

namespace Parts

open Table

variable {policy : Policy} {c : Parts} {s : Scheduler} {t : Table} {r : Timeouts} {p : Pid} {d : Descriptor}
  {lists : Level → List Pid}

/-- The registry is that of the deadlines and the queues are those of the links, as soon as there is a process. -/
structure Consistent (c : Parts) : Prop where
  size : c.table.size ≤ Limits.processes
  timeouts : c.timeouts.Tracks c.table
  queues : (c.table.size = 0 ∧ c.scheduler.queues = {} ∧ c.scheduler.last = none) ∨
    ∃ lists, Scheduler.Holds c.scheduler c.table lists

/-- The operation is done and the parts stay consistent, or it is refused and they stay the same. -/
def Sound (c : Parts) (a : Attempt Parts Unit) : Prop :=
  (∃ c', a = .done () c' ∧ c'.Consistent) ∨ ∃ f, a = .refuse f c

namespace Consistent

theorem new (policy : Policy) : (new policy).Consistent where
  size := Nat.zero_le _
  timeouts := .of_idle fun _ => rfl
  queues := .inl ⟨rfl, rfl, rfl⟩

theorem holds (h : c.Consistent) (hp : (c.table.get? p).isSome) : ∃ lists, Scheduler.Holds c.scheduler c.table lists := by
  refine h.queues.resolve_left ?_
  rintro ⟨hsize, -, -⟩
  rw [get?_isSome_iff, hsize] at hp
  exact Nat.not_lt_zero _ hp

/-- The queues may be others, while the deadlines are the same. -/
theorem requeued (h : c.Consistent) (dates : c.table.SameDates t) (holds : Scheduler.Holds s t lists) :
    { c with scheduler := s, table := t }.Consistent :=
  ⟨dates.size ▸ h.size, h.timeouts.of_deadlines dates.deadlines, .inr ⟨lists, holds⟩⟩

/-- The deadlines may be others, while the lists are the same. -/
theorem retimed (h : c.Consistent) (threads : c.table.SameThreads t) (tracks : r.Tracks t) :
    { c with timeouts := r, table := t }.Consistent := by
  refine ⟨threads.size ▸ h.size, tracks, ?_⟩
  rcases h.queues with ⟨hsize, hunused⟩ | ⟨lists, hholds⟩
  · exact .inl ⟨threads.size.trans hsize, hunused⟩
  · refine .inr ⟨lists, hholds.of_threads rfl ?_ threads.size threads.next threads.link⟩
    intro q hq
    exact (isSome_of_size threads.size q).trans (hholds.last q hq)

theorem extend (h : c.Consistent) (hsize : c.table.size < Limits.processes) (name : String) (words : Nat) :
    { c with table := c.table.extend name words }.Consistent := by
  refine ⟨(size_extend ..).trans_le hsize, h.timeouts.of_deadlines (deadlineOf_extend hsize name words), .inr ?_⟩
  rcases h.queues with ⟨hzero, hqueues, hlast⟩ | ⟨lists, hholds⟩
  · have hidle : ((c.table.extend name words).get? .idle).isSome :=
      get?_isSome_iff.mpr (by rw [size_extend]; exact Nat.succ_pos _)
    have hlink : ∀ d ∈ (c.table.extend name words).processes, d.link = none := by
      intro d hd
      rw [Table.extend, List.length_eq_zero_iff.mp hzero, List.nil_append, List.mem_singleton] at hd
      rw [hd]
      rfl
    refine ⟨_, (Scheduler.Holds.new c.scheduler.policy hlink hidle).of_threads hqueues ?_ rfl rfl rfl⟩
    intro q hq
    rw [hlast] at hq
    cases hq
  · exact ⟨lists, hholds.lists.of_threads (nextOf_extend hsize name words) (linkOf_extend hsize name words),
      isSome_extend hholds.idle name words, fun q hq => isSome_extend (hholds.last q hq) name words⟩

/-! ### One operation -/

theorem create (h : c.Consistent) (name : String) (bytes : Nat) : c.Sound (c.perform (.create name bytes)) := by
  rw [perform]
  by_cases hsize : Limits.processes ≤ c.table.size
  · rw [create_full hsize]
    exact .inr ⟨_, rfl⟩
  · by_cases hfree : c.table.freeBytes < stackWords bytes * wordBytes
    · rw [create_exhausted (Nat.lt_of_not_le hsize) hfree]
      exact .inr ⟨_, rfl⟩
    · rw [create_done (Nat.lt_of_not_le hsize) (Nat.le_of_not_lt hfree)]
      exact .inl ⟨_, rfl, h.extend (Nat.lt_of_not_le hsize) name _⟩

theorem makeReady (h : c.Consistent) (hp : c.table.get? p = some d) : c.Sound (c.perform (.makeReady p)) := by
  obtain ⟨lists, hholds⟩ := h.holds (by rw [hp, Option.isSome_some])
  rw [perform]
  cases hl : d.priority.level? with
  | none =>
    rw [Scheduler.makeReady_of_none hp hl]
    exact .inl ⟨c, rfl, h⟩
  | some l =>
    by_cases hdead : d.isDead = true
    · rw [Scheduler.makeReady_of_dead hp hl hdead]
      exact .inr ⟨_, rfl⟩
    · have alive : d.isDead = false := by simpa using hdead
      by_cases free : d.link = none
      · have hready := hholds.makeReady hp
        obtain ⟨s, t, hrun, -, -, hplain, -, hsize⟩ := Scheduler.makeReady_done hholds.lists hp free alive hl
        rw [hrun] at hready ⊢
        exact .inl ⟨_, rfl, h.requeued (.of_plain hp hsize hplain rfl) hready⟩
      · rw [Scheduler.makeReady_of_linked hp hl alive free]
        exact .inr ⟨_, rfl⟩

theorem perform (h : c.Consistent) {op : Operation} (applies : op.Applies c.table) : c.Sound (c.perform op) := by
  cases op with
  | create name bytes => exact h.create name bytes
  | makeReady p =>
    obtain ⟨d, hp⟩ := Option.isSome_iff_exists.mp (applies p rfl)
    exact h.makeReady hp
  | set p ms =>
    obtain ⟨d, hp⟩ := Option.isSome_iff_exists.mp (applies p rfl)
    rw [Parts.perform]
    rcases h.timeouts.set_or_refuse h.size hp ms with ⟨-, hrefused⟩ | ⟨-, r, t, hdone, htracks, hthreads⟩
    · rw [hrefused]
      exact .inr ⟨_, rfl⟩
    · rw [hdone]
      exact .inl ⟨_, rfl, h.retimed hthreads htracks⟩
  | cancel p =>
    obtain ⟨d, hp⟩ := Option.isSome_iff_exists.mp (applies p rfl)
    rw [Parts.perform]
    rcases h.timeouts.cancel_or_refuse hp with ⟨-, hrefused⟩ | ⟨-, r, t, hdone, htracks, hthreads⟩
    · rw [hrefused]
      exact .inr ⟨_, rfl⟩
    · rw [hdone]
      exact .inl ⟨_, rfl, h.retimed hthreads htracks⟩
  | connect irq p =>
    rw [Parts.perform, InterruptLines.connect]
    cases InterruptLines.line? irq with
    | none => exact .inr ⟨_, rfl⟩
    | some i => exact .inl ⟨_, rfl, h.size, h.timeouts, h.queues⟩

end Consistent

/-! ### Many of them -/

theorem Reached.consistent (h : Reached policy c) : c.Consistent := by
  induction h with
  | new => exact .new policy
  | perform _ op applies ih =>
    rcases ih.perform applies with ⟨c', hdone, hc'⟩ | ⟨f, hrefused⟩
    · rw [hdone]
      exact hc'
    · rw [hrefused]
      exact ih
  | @chooseNext c now next s t _ idle done ih =>
    obtain ⟨lists, hholds⟩ := ih.holds idle
    obtain ⟨s', t', hrun, hnext⟩ := hholds.chooseNext now
    have hdates := Scheduler.chooseNext_dates done
    rw [hrun] at done
    cases done
    exact ih.requeued hdates hnext
  | @charge c now s t _ done ih =>
    have hdates := c.scheduler.charge_dates c.table now _ done
    -- Before the idle process is there, nobody was picked, and nobody is charged.
    rcases ih.queues with ⟨hsize, hqueues, hlast⟩ | ⟨lists, hholds⟩
    · unfold Scheduler.charge at done
      rw [hlast] at done
      cases done
      exact ⟨ih.size, ih.timeouts, .inl ⟨hsize, hqueues, rfl⟩⟩
    · obtain ⟨s', t', hrun, -, hcharged⟩ := hholds.charge now
      rw [hrun] at done
      cases done
      exact ih.requeued hdates hcharged
  | @tick c ms expired r t _ done ih =>
    obtain ⟨expired', r', t', hrun, htracks, -⟩ := ih.timeouts.tick ms
    have hthreads := ih.timeouts.tick_threads done
    rw [hrun] at done
    cases done
    exact ih.retimed hthreads htracks
  | assign _ hp deadline next link ih =>
    exact ih.retimed (.put hp next link) (ih.timeouts.of_deadlines (SameDates.put hp deadline).deadlines)

/-- An operation on a process that exists is done or refused, and when it is refused all parts are as before. A timeout is
refused just when there is one, to cancel one just when there is none, and there is always room for it. -/
theorem refused_changes_nothing (h : Reached policy c) :
    (∀ op : Operation, op.Applies c.table →
      (c.perform op).outcome = .ok () ∨ ∃ f, c.perform op = .refuse f c) ∧
    ∀ p, (c.table.get? p).isSome →
      ((c.timeouts.cancel c.table p).outcome = .error (.fault (.timeoutNotSet p)) ↔ c.timeouts.contains p = false) ∧
      ∀ ms, ((c.timeouts.set c.table p ms).outcome = .error (.fault (.timeoutAlreadySet p)) ↔
          c.timeouts.contains p = true) ∧
        (c.timeouts.set c.table p ms).outcome ≠ .error (.fault .tooManyTimeouts) := by
  have hc := h.consistent
  refine ⟨?_, ?_⟩
  · intro op applies
    rcases hc.perform applies with ⟨c', hdone, -⟩ | hrefused
    · exact .inl (by rw [hdone]; rfl)
    · exact .inr hrefused
  intro p hp
  obtain ⟨d, hp⟩ := Option.isSome_iff_exists.mp hp
  refine ⟨?_, fun ms => ?_⟩
  · rcases hc.timeouts.cancel_or_refuse hp with ⟨hout, hrefused⟩ | ⟨hin, r, t, hdone, -⟩
    · simp [hout, hrefused, Attempt.refuse]
    · simp [hin, hdone, Attempt.done]
  · rcases hc.timeouts.set_or_refuse hc.size hp ms with ⟨hin, hrefused⟩ | ⟨hout, r, t, hdone, -⟩
    · simp [hin, hrefused, Attempt.refuse]
    · simp [hout, hdone, Attempt.done]

/-- An idle process with a stack of its own. -/
def idler : Descriptor := { Descriptor.fresh .idle "idle" ⟨0, 13⟩ with priority := .idle }

/-- The parts with an idle process and one that is ready and has a timeout. -/
def attended : Parts :=
  let c := ((new .fifo).perform (.create "idle" 100)).state
  let c := { c with table := c.table.put .idle idler }
  let c := (c.perform (.create "a" 100)).state
  let c := (c.perform (.makeReady ⟨1⟩)).state
  (c.perform (.set ⟨1⟩ 5)).state

theorem attended_reached : Reached .fifo attended := by
  have hnew : Reached .fifo (new .fifo) := .new
  have hidle := hnew.perform (.create "idle" 100) fun _ hp => by cases hp
  have hassigned : Reached .fifo { (_ : Parts) with table := Table.put _ .idle idler } := hidle.assign rfl rfl rfl rfl
  have hother := hassigned.perform (.create "a" 100) fun _ hp => by cases hp
  have hready := hother.perform (.makeReady ⟨1⟩) fun _ hp => by cases hp; rfl
  exact hready.perform (.set ⟨1⟩ 5) fun _ hp => by cases hp; rfl

theorem refused_changes_nothing_attended :
    (attended.timeouts.cancel attended.table .idle).outcome = .error (.fault (.timeoutNotSet .idle)) ∧
      (attended.timeouts.set attended.table ⟨1⟩ 7).outcome = .error (.fault (.timeoutAlreadySet ⟨1⟩)) ∧
      ∃ f, attended.perform (.makeReady ⟨1⟩) = .refuse f attended := by
  obtain ⟨hops, htimeouts⟩ := refused_changes_nothing attended_reached
  refine ⟨((htimeouts .idle (by decide +kernel)).1).mpr (by decide +kernel),
    (((htimeouts ⟨1⟩ (by decide +kernel)).2 7).1).mpr (by decide +kernel), ?_⟩
  refine (hops (.makeReady ⟨1⟩) fun _ hp => by cases hp; decide +kernel).resolve_left ?_
  decide +kernel

end Parts

end Rendezvous
