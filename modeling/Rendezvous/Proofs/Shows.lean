import Rendezvous.Proofs.Plain

/-! A kernel shows as a plain kernel when its linked lists hold the plain ones and all else is the same.
    The elementary steps of a kernel succeed and lead to what their plain counterparts tell. -/

namespace Rendezvous

/-- What the kernel holds, with these lists in place of its linked ones. -/
def Kernel.seen (k : Kernel) (queue : Link → List Pid) (trace : List Event) : Plain where
  process := k.table.plain
  queue := queue
  size := k.table.size
  arena := k.table.arena
  frontier := k.table.frontier
  policy := k.scheduler.policy
  last := k.scheduler.last
  chargedUntil := k.scheduler.chargedUntil
  switches := k.scheduler.switches
  timeouts := k.timeouts
  lines := k.lines
  counters := k.counters
  config := k.config
  current := k.current
  running := k.running
  uptime := k.uptime
  trace := trace

/-- The kernel with another scheduler and another table. -/
def Kernel.holding (k : Kernel) (s : Scheduler) (t : Table) : Kernel := { k with scheduler := s, table := t }

/-- The kernel holds what `P` tells. -/
def Kernel.Shows (k : Kernel) (P : Plain) : Prop :=
  P = k.seen P.queue P.trace ∧ Lists k.scheduler.queues k.table.waitingOf k.table P.queue

/-- Begun in what `P` tells, the computation ends with a kernel that holds what `Q` tells; the events of
    `Q` are those of `P` and of the computation. -/
def Traced.Leads {α : Type} (x : Traced α) (P : Plain) (out : Kernel → α) (Q : Plain) : Prop :=
  ∃ k, x.outcome = .ok (out k) ∧ Q.trace = P.trace ++ x.events ∧ k.Shows Q

namespace Traced

variable {α β : Type} {x : Traced α} {f : α → Traced β} {P Q R : Plain} {out : Kernel → α} {out' : Kernel → β}

theorem Leads.after {a : α} (hok : x.outcome = .ok a) (htrace : Q.trace = P.trace ++ x.events)
    (hf : (f a).Leads Q out' R) : (x >>= f).Leads P out' R := by
  obtain ⟨k', hok', htrace', hk'⟩ := hf
  refine ⟨k', bind_eq_ok.mpr ⟨a, hok, hok'⟩, ?_, hk'⟩
  rw [events_bind_ok hok, htrace', htrace, List.append_assoc]

theorem Leads.bind (hx : x.Leads P out Q) (hf : ∀ k, k.Shows Q → (f (out k)).Leads Q out' R) :
    (x >>= f).Leads P out' R := by
  obtain ⟨k, hok, htrace, hk⟩ := hx
  exact Leads.after hok htrace (hf k hk)

/-- A step without an event. -/
theorem Leads.silent {k : Kernel} (h : x = pure (out k)) (htrace : Q.trace = P.trace) (hk : k.Shows Q) :
    x.Leads P out Q :=
  ⟨k, by rw [h]; rfl, by rw [h, htrace]; exact (List.append_nil _).symm, hk⟩

/-- What comes of a computation is the kernel that it leads to. -/
theorem Leads.shows {a : α} (h : x.Leads P out Q) (hok : x.outcome = .ok a) : ∃ k, a = out k ∧ k.Shows Q := by
  obtain ⟨k, hout, -, hk⟩ := h
  exact ⟨k, Except.ok.inj (hok.symm.trans hout), hk⟩

theorem Leads.of_trace (h : x.Leads P out R) (ht : Q.trace = P.trace) : x.Leads Q out R := by
  obtain ⟨k, hok, htrace, hk⟩ := h
  exact ⟨k, hok, ht ▸ htrace, hk⟩

/-- The value of a step without an event goes on into the rest. -/
theorem lift_bind {r : Except Stop α} {a : α} (h : r = .ok a) (f : α → Traced β) : (lift r >>= f) = f a := by
  rw [h]
  rfl

theorem emit_leads {e : Event} {f : Unit → Traced β} (h : (f ()).Leads (P.emit e) out' R) :
    (emit e >>= f).Leads P out' R := by
  obtain ⟨k, hok, htrace, hk⟩ := h
  refine ⟨k, hok, ?_, hk⟩
  rw [events_bind_ok (by rfl : (emit e).outcome = .ok ()), events_emit, htrace, Plain.emit]
  simp

end Traced

/-- A change of a descriptor that does not touch its place in the lists. -/
structure Unthreaded (f : Descriptor → Descriptor) : Prop where
  plain : ∀ d, (f d).plain = f d.plain
  next : ∀ d, (f d).next = d.next
  waiting : ∀ d, (f d).waiting = d.waiting
  link : ∀ d, (f d).link = d.link

namespace Kernel

open Traced Table

variable {k : Kernel} {P : Plain} {p : Pid}

namespace Shows

theorem emit (h : k.Shows P) (e : Event) : k.Shows (P.emit e) :=
  ⟨by rw [h.1]; rfl, h.2⟩

theorem process (h : k.Shows P) : P.process = k.table.plain := by
  rw [h.1]
  rfl

theorem current (h : k.Shows P) : P.current = k.current := by
  rw [h.1]
  rfl

theorem size (h : k.Shows P) : P.size = k.table.size := by
  rw [h.1]
  rfl

theorem counters (h : k.Shows P) : P.counters = k.counters := by
  rw [h.1]
  rfl

theorem process_eq (h : k.Shows P) {d : Descriptor} (hp : k.process? p = some d) : P.process p = some d.plain := by
  rw [h.process, plain_eq_some hp]

theorem get (h : k.Shows P) {d : Descriptor} (hp : P.process p = some d) :
    ∃ e, k.table.get? p = some e ∧ e.plain = d := by
  rw [h.process] at hp
  exact Option.map_eq_some_iff.mp hp

theorem get_isSome (h : k.Shows P) : (k.table.get? p).isSome = (P.process p).isSome := by
  rw [h.process, plain_isSome]

theorem fetch_bind {β : Type} {d : Descriptor} (hp : k.table.get? p = some d) (f : Descriptor → Traced β) :
    (k.fetch p >>= f) = f d :=
  lift_bind (fetch_eq_ok.mpr hp) f

/-- A table with the lists of `k` and other descriptors. -/
theorem of_table (h : k.Shows P) {t : Table} (hlink : t.linkOf = k.table.linkOf)
    (hnext : t.nextOf = k.table.nextOf) (hwait : t.waitingOf = k.table.waitingOf) (hs : SameStore k.table t) :
    ({ k with table := t } : Kernel).Shows { P with process := t.plain } := by
  refine ⟨?_, ?_, h.2.tail⟩
  · rw [h.1]
    simp [seen, hs.size, hs.arena, hs.frontier]
  · have hl := h.2.threaded
    rw [← hlink, ← hnext, ← hwait] at hl
    exact hl

/-- A table and ready queues that hold other lists. -/
theorem of_lists (h : k.Shows P) {s : Scheduler} {t : Table} {queue : Link → List Pid}
    (hs : s = { k.scheduler with queues := s.queues }) (hl : Lists s.queues t.waitingOf t queue)
    (hst : SameStore k.table t) :
    ({ k with scheduler := s, table := t } : Kernel).Shows { P with process := t.plain, queue := queue } := by
  refine ⟨?_, hl⟩
  rw [h.1, hs]
  simp [seen, hst.size, hst.arena, hst.frontier]

theorem modify (h : k.Shows P) {e : Descriptor} (hp : k.table.get? p = some e) {f : Descriptor → Descriptor}
    (hf : Unthreaded f) : ({ k with table := k.table.put p (f e) } : Kernel).Shows (P.modify p f) := by
  have hlink : (k.table.put p (f e)).linkOf = k.table.linkOf := by
    rw [linkOf_of_plain_update (plain_put hp (f e)), Descriptor.plain_link, hf.link]
    exact update_same (by rw [linkOf, hp, Option.bind_some])
  have hk := h.of_table hlink (nextOf_put_same hp (hf.next e)) (waitingOf_put_same hp (hf.waiting e))
    (SameStore.put _ _ _)
  rw [plain_put hp, hf.plain] at hk
  rw [Plain.modify, h.process, plain_eq_some hp, Option.map_some]
  exact hk

theorem amend (h : k.Shows P) (hp : (P.process p).isSome) {f : Descriptor → Descriptor} (hf : Unthreaded f) :
    (k.amend p f).Leads P (·) (P.modify p f) := by
  obtain ⟨e, he⟩ := Option.isSome_iff_exists.mp (h.get_isSome.trans hp)
  refine Leads.silent ?_ rfl (h.modify he hf)
  rw [Kernel.amend, update_ok he]
  rfl

theorem makeReady (h : k.Shows P) {d : Descriptor} (hp : P.process p = some d) (alive : d.state ≠ .dead)
    (free : d.link = none) : (k.makeReady p).Leads P (·) (P.wake p) := by
  obtain ⟨e, he, rfl⟩ := h.get hp
  unfold Kernel.makeReady
  cases hl : e.priority.level? with
  | none =>
    -- Only the idle process has no level, and is left alone.
    have hready : k.scheduler.makeReady k.table p = .done () (k.scheduler, k.table) := by
      unfold Scheduler.makeReady
      simp only [he, hl]
    rw [hready, Plain.wake_of_none hp hl]
    exact Leads.silent rfl rfl h
  | some l =>
    have hdead : e.isDead = false := by simpa [Descriptor.isDead] using alive
    obtain ⟨s', t', hready, hs, hlists, hwait, hplain, hst⟩ := h.2.makeReady he free hdead hl
    rw [← hwait] at hlists
    have hk := h.of_lists hs hlists hst
    have hpol : k.scheduler.policy = P.policy := by rw [h.1]; rfl
    rw [hplain, ← h.process, hpol] at hk
    rw [hready, Plain.wake_of_some hp hl]
    exact Leads.silent rfl rfl hk

/-- A registry beside what `P` tells of the rest. -/
theorem of_timeouts (h : k.Shows P) (r : Timeouts) :
    ({ k with timeouts := r } : Kernel).Shows { P with timeouts := r } :=
  ⟨by rw [h.1]; rfl, h.2⟩

theorem timeouts (h : k.Shows P) : P.timeouts = k.timeouts := by
  rw [h.1]
  rfl

theorem cancelTimeout (h : k.Shows P) {d : Descriptor} (hp : P.process p = some d)
    (hr : d.deadline.isSome → p ∈ P.timeouts.entries) : (k.cancelTimeout p).Leads P (·) (P.cancel p) := by
  obtain ⟨e, he, rfl⟩ := h.get hp
  unfold Kernel.cancelTimeout
  rw [fetch_bind he]
  by_cases hd : e.deadline.isSome
  · -- A deadline has its entry, so the registry does not refuse.
    have hmem := hr hd
    rw [h.timeouts] at hmem
    have hk := (h.modify he (f := fun d => { d with deadline := none })
      ⟨fun _ => rfl, fun _ => rfl, fun _ => rfl, fun _ => rfl⟩).of_timeouts (k.timeouts.without p)
    rw [if_pos hd, Timeouts.cancel_ok he hd hmem, Plain.cancel_of_some hp hd, h.timeouts]
    rw [Plain.modify_eq hp] at hk
    exact Leads.silent rfl rfl hk
  · rw [if_neg hd, Plain.cancel_of_none hp (by simpa using hd)]
    exact Leads.silent rfl rfl h

theorem setTimeout (h : k.Shows P) {d : Descriptor} (hp : P.process p = some d) (hd : d.deadline = none)
    (hr : P.timeouts.size < Limits.processes) (timeout : Option UInt32) :
    (k.setTimeout p timeout).Leads P (·) (P.setTimeout p timeout) := by
  obtain ⟨e, he, rfl⟩ := h.get hp
  cases timeout with
  | none => exact Leads.silent rfl rfl h
  | some ms =>
    rw [h.timeouts] at hr
    simp only [Kernel.setTimeout, Plain.setTimeout]
    rw [Timeouts.set_ok he hd hr, h.timeouts]
    exact Leads.silent rfl rfl ((h.modify he (f := fun d => { d with deadline := some _ })
      ⟨fun _ => rfl, fun _ => rfl, fun _ => rfl, fun _ => rfl⟩).of_timeouts _)

theorem queueSender (h : k.Shows P) {d : Descriptor} (hp : P.process P.current = some d)
    (free : d.link = none) {dest : Pid} (hdest : (P.process dest).isSome) :
    (k.queueSender dest).Leads P (·) (P.join dest) := by
  obtain ⟨e, he, rfl⟩ := h.get hp
  rw [h.current] at he
  obtain ⟨t', ht, hlists, hplain, hst⟩ := h.2.addWaiting (h.get_isSome.trans hdest) he free
  have hk := h.of_lists rfl hlists hst
  rw [hplain, ← h.process] at hk
  have hjoin : P.join dest = Plain.emit { P with
      process := Function.update P.process k.current (some { e.plain with link := some (.waiting dest) })
      queue := Function.update P.queue (.waiting dest) (P.queue (.waiting dest) ++ [k.current]) }
      (.queued k.current dest) := by
    rw [Plain.join, Plain.modify_eq hp, h.current]
    rfl
  unfold Kernel.queueSender
  rw [fetch_bind he, if_neg (by simpa using free), ht, hjoin]
  show (Traced.emit (.queued k.current dest) >>= fun _ => (pure { k with table := t' } : Traced Kernel)).Leads P (·) _
  exact emit_leads (Leads.silent rfl rfl (hk.emit _))

theorem offers (h : k.Shows P) (filter : MessageType) : k.table.offers filter = P.offers filter := by
  funext x
  unfold Table.offers Plain.offers Plain.slot
  rw [h.process, Table.plain, Option.bind_map]
  show _ = ((k.table.get? x).bind (·.slot)).any _
  cases (k.table.get? x).bind (·.slot) <;> rfl

theorem findSender_none (h : k.Shows P) {dest : Pid} (hdest : (P.process dest).isSome) {filter : MessageType}
    (hfind : P.sender? dest filter = none) : (k.findSender dest filter).Leads P (none, ·) P := by
  obtain ⟨e, he⟩ := Option.isSome_iff_exists.mp (h.get_isSome.trans hdest)
  unfold Kernel.findSender
  rw [Plain.sender?, ← h.offers] at hfind
  rw [h.2.takeWaiting_none he hfind]
  exact Leads.silent rfl rfl h

theorem findSender_some (h : k.Shows P) {dest src : Pid} (hdest : (P.process dest).isSome)
    {filter : MessageType} (hfind : P.sender? dest filter = some src) :
    (k.findSender dest filter).Leads P (some src, ·) (P.free src (.waiting dest)) := by
  rw [Plain.sender?, ← h.offers] at hfind
  obtain ⟨d, t', hd, ht, hlists, hplain, hst⟩ := h.2.takeWaiting_some (h.get_isSome.trans hdest) hfind
  have hp : P.process src = some d.plain := by rw [h.process, plain_eq_some hd]
  have hk := h.of_lists rfl hlists hst
  rw [hplain, ← h.process] at hk
  unfold Kernel.findSender
  rw [ht, Plain.free, Plain.modify_eq hp]
  exact Leads.silent rfl rfl hk

/-! ### The processor -/

theorem last (h : k.Shows P) : P.last = k.scheduler.last := by
  rw [h.1]
  rfl

theorem uptime (h : k.Shows P) : P.uptime = k.uptime := by
  rw [h.1]
  rfl

theorem charge {s : Scheduler} {t : Table} (h : (k.holding s t).Shows P)
    (hlast : ∀ p, P.last = some p → (P.process p).isSome) :
    ∃ s' t', s.charge t k.uptime = .ok (s', t') ∧ (k.holding s' t').Shows P.charge := by
  have hl : P.last = s.last := h.last
  have hu : P.uptime = k.uptime := h.uptime
  have hcharged : P.chargedUntil = s.chargedUntil := by rw [h.1]; rfl
  unfold Scheduler.charge
  cases hs : s.last with
  | none =>
    rw [Plain.charge_of_none (hl.trans hs), hu]
    refine ⟨_, _, rfl, ?_, h.2⟩
    rw [h.1]
    simp [seen, holding, hs]
  | some p =>
    obtain ⟨e, he⟩ := Option.isSome_iff_exists.mp (h.get_isSome.trans (hlast p (hl.trans hs)))
    have hk := h.modify he (f := fun d => { d with runtime := d.runtime + (k.uptime - s.chargedUntil) })
      ⟨fun _ => rfl, fun _ => rfl, fun _ => rfl, fun _ => rfl⟩
    have ht : t.get? p = some e := he
    simp only [update_ok ht]
    rw [Plain.charge_of_some (hl.trans hs), hu, hcharged]
    refine ⟨_, _, rfl, ?_, hk.2⟩
    rw [hk.1]
    simp [seen, holding, hs]

theorem pop {s : Scheduler} {t : Table} (h : (k.holding s t).Shows P) (hidle : (P.process .idle).isSome) :
    ∃ s' t', s.pop t = .ok (P.front?.map (·.2), s', t') ∧ (k.holding s' t').Shows P.pop ∧
      (P.pop.process P.next).isSome := by
  have hfront : s.front? = P.front? := h.2.front?_eq
  unfold Plain.next
  cases hf : P.front? with
  | none =>
    rw [Plain.pop_of_none hf]
    refine ⟨_, _, ?_, h, hidle⟩
    unfold Scheduler.pop
    rw [hfront, hf]
    rfl
  | some front =>
    obtain ⟨l, p⟩ := front
    obtain ⟨d, s', t', rest, hq, hd, hpop, hs, hlists, hwait, hplain, hst⟩ := h.2.pop (hfront.trans hf)
    have hp : P.process p = some d.plain := by rw [h.process, plain_eq_some hd]
    rw [← hwait] at hlists
    have hk := h.of_lists hs hlists hst
    rw [hplain, ← h.process] at hk
    rw [Plain.pop_of_some hf, Plain.free, Plain.modify_eq hp, hq, List.erase_cons_head]
    refine ⟨s', t', hpop, hk, ?_⟩
    show (Function.update P.process p _ p).isSome
    rw [Function.update_self]
    rfl

theorem reschedule (h : k.Shows P) (hlast : ∀ p, P.last = some p → (P.process p).isSome)
    (hidle : (P.process .idle).isSome) : k.reschedule.Leads P (·) P.reschedule := by
  obtain ⟨s₁, t₁, hcharge, h₁⟩ := charge (k := k) h hlast
  have hidle₁ : (P.charge.process .idle).isSome := by
    rw [← Plain.isSome_read (g := fun _ => ()), Plain.charge_read (g := fun _ => ()) fun _ _ => rfl, Plain.isSome_read]
    exact hidle
  obtain ⟨s₂, t₂, hpop, h₂, hnext⟩ := h₁.pop hidle₁
  obtain ⟨d, hd⟩ := Option.isSome_iff_exists.mp (h₂.get_isSome.trans hnext)
  have ht : t₂.get? P.charge.next = some d := hd
  have h₃ := h₂.modify hd (f := fun d => { d with turns := min (d.turns + 1) Limits.turns })
    ⟨fun _ => rfl, fun _ => rfl, fun _ => rfl, fun _ => rfl⟩
  obtain ⟨s₃, hs₃⟩ : ∃ s : Scheduler, s = { s₂ with
      last := some P.charge.next
      switches := if s₂.last = some P.charge.next then s₂.switches else s₂.switches + 1 } := ⟨_, rfl⟩
  obtain ⟨t₃, ht₃⟩ : ∃ t, t = t₂.put P.charge.next { d with turns := min (d.turns + 1) Limits.turns } := ⟨_, rfl⟩
  have hpick : k.scheduler.pick k.table k.uptime = .ok (P.charge.next, s₃, t₃) := by
    have hn : (P.charge.front?.map (·.2)).getD .idle = P.charge.next := rfl
    unfold Scheduler.pick
    simp only [hcharge, hpop, Bind.bind, Except.bind, hn, update_ok ht, hs₃, ht₃]
    rfl
  have hchoose : k.scheduler.chooseNext k.table k.uptime =
      ⟨[.picked P.charge.next d.name], .ok (P.charge.next, s₃, t₃)⟩ := by
    have hfetch : t₃.fetch P.charge.next = .ok { d with turns := min (d.turns + 1) Limits.turns } := by
      rw [fetch_eq_ok, ht₃, get?_put ht, Function.update_self]
    unfold Scheduler.chooseNext
    rw [hpick]
    show (lift (t₃.fetch P.charge.next) >>= _) = _
    rw [hfetch]
    rfl
  -- The name told by the event is read before the turn is counted, which does not change it.
  have hname : ((P.charge.pop.process P.charge.next).map (·.name)).getD "" = d.name := by
    rw [h₂.process]
    show ((t₂.plain P.charge.next).map (·.name)).getD "" = d.name
    rw [plain_eq_some ht]
    rfl
  have hl : P.charge.pop.last = s₂.last := h₂.last
  have hsw : P.charge.pop.switches = s₂.switches := by rw [h₂.1]; rfl
  have hQ : P.reschedule = { (P.charge.pop.modify P.charge.next
        fun d => { d with turns := min (d.turns + 1) Limits.turns }).emit (.picked P.charge.next d.name) with
      last := s₃.last
      switches := s₃.switches
      current := P.charge.next } := by
    rw [Plain.reschedule, Plain.run, hname, hl, hsw, hs₃]
  unfold Kernel.reschedule
  rw [hchoose]
  refine ⟨{ k with scheduler := s₃, table := t₃, current := P.charge.next }, rfl, ?_, ?_, ?_⟩
  · rw [hQ]
    show P.charge.pop.trace ++ _ = P.trace ++ _
    rw [Plain.pop_eq, Plain.charge_eq]
    rfl
  · rw [hQ, h₃.1]
    simp [Kernel.seen, holding, hs₃, ht₃, Plain.emit]
  · rw [hQ, hs₃, ht₃]
    exact h₃.2

end Shows

end Kernel

end Rendezvous
