import Rendezvous.Proofs.Arrivals

/-! # Exit is final

A process that has exited is in no list, is not the one that ran last and is no destination that the kernel accepts.
So no operation comes across it any more, and its descriptor stays as it is, whoever still waits for it. -/

namespace Rendezvous

namespace Plain

variable {P Q R : Plain} {p q src dest : Pid} {r : Request}

/-- Nothing that the kernel does by itself comes across the process. -/
structure Gone (P : Plain) (p : Pid) : Prop where
  current : p ≠ P.current
  idle : p ≠ .idle
  last : P.last ≠ some p
  unqueued : ∀ link, p ∉ P.queue link
  untimed : p ∉ P.timeouts.entries

/-- What leads from `P` to `Q` leaves alone the process `p` and those who wait for it. -/
structure Leaves (P : Plain) (p : Pid) (Q : Plain) : Prop where
  process : Q.process p = P.process p
  waiters : Q.queue (.waiting p) = P.queue (.waiting p)
  gone : Q.Gone p

theorem Gone.sender?_ne (h : P.Gone p) {filter : MessageType} (hf : P.sender? dest filter = some src) : src ≠ p := by
  rintro rfl
  exact h.unqueued _ (sender?_some hf).1

namespace Leaves

theorem refl (h : P.Gone p) : P.Leaves p P := ⟨rfl, rfl, h⟩

/-- A change of neither the lists nor who runs. -/
theorem of_same (h : P.Leaves p Q) (hprocess : R.process p = Q.process p) (hqueue : R.queue = Q.queue)
    (hcurrent : R.current = Q.current) (hlast : R.last = Q.last)
    (hentries : p ∈ R.timeouts.entries → p ∈ Q.timeouts.entries) : P.Leaves p R where
  process := hprocess.trans h.process
  waiters := (congrFun hqueue _).trans h.waiters
  gone :=
    ⟨hcurrent ▸ h.gone.current, h.gone.idle, hlast ▸ h.gone.last, hqueue ▸ h.gone.unqueued,
      fun hp => h.gone.untimed (hentries hp)⟩

theorem modify (h : P.Leaves p Q) (hq : q ≠ p) (f : Descriptor → Descriptor) : P.Leaves p (Q.modify q f) :=
  h.of_same (modify_ne hq.symm f) rfl rfl rfl id

theorem emit (h : P.Leaves p Q) (e : Event) : P.Leaves p (Q.emit e) := h.of_same rfl rfl rfl rfl id

theorem counted (h : P.Leaves p Q) (c : Counters) : P.Leaves p { Q with counters := c } :=
  h.of_same rfl rfl rfl rfl id

theorem setQueue (h : P.Leaves p Q) {link : Link} {l : List Pid} (hlink : link ≠ .waiting p) (hl : p ∉ l) :
    P.Leaves p (Q.setQueue link l) where
  process := h.process
  waiters := (Function.update_of_ne hlink.symm ..).trans h.waiters
  gone := by
    refine ⟨h.gone.current, h.gone.idle, h.gone.last, fun link' => ?_, h.gone.untimed⟩
    show p ∉ Function.update Q.queue link l link'
    by_cases hl' : link' = link
    · rwa [hl', Function.update_self]
    · rw [Function.update_of_ne hl']
      exact h.gone.unqueued link'

theorem wake (h : P.Leaves p Q) (hq : q ≠ p) : P.Leaves p (Q.wake q) := by
  unfold Plain.wake
  split
  · exact h
  · split
    · exact h
    · rename_i d _ _ l _
      refine (h.modify hq _).setQueue (by simp) fun hp => ?_
      rcases List.mem_cons.mp ((Q.policy.insert_perm _ _ q).mem_iff.mp hp) with hp | hp
      · exact hq hp.symm
      · exact h.gone.unqueued _ hp

theorem free (h : P.Leaves p Q) (hq : q ≠ p) {link : Link} (hlink : link ≠ .waiting p) : P.Leaves p (Q.free q link) :=
  (h.modify hq _).setQueue hlink fun hp => h.gone.unqueued link (List.mem_of_mem_erase hp)

theorem join (h : P.Leaves p Q) (hd : dest ≠ p) : P.Leaves p (Q.join dest) := by
  refine ((h.modify h.gone.current.symm _).setQueue (by simpa using hd) fun hp => ?_).emit _
  rcases List.mem_append.mp hp with hp | hp
  · exact h.gone.unqueued _ hp
  · exact h.gone.current (List.mem_singleton.mp hp)

theorem cancel (h : P.Leaves p Q) (hq : q ≠ p) : P.Leaves p (Q.cancel q) := by
  unfold Plain.cancel
  split
  · exact h.of_same (modify_ne hq.symm _) rfl rfl rfl Timeouts.mem_of_without
  · exact h

theorem setTimeout (h : P.Leaves p Q) (hq : q ≠ p) (timeout : Option UInt32) : P.Leaves p (Q.setTimeout q timeout) := by
  cases timeout with
  | none => exact h
  | some ms =>
    refine h.of_same (modify_ne hq.symm _) rfl rfl rfl fun hp => ?_
    rcases List.mem_append.mp hp with hp | hp
    · exact hp
    · exact absurd (List.mem_singleton.mp hp).symm hq

theorem notify (h : P.Leaves p Q) (hd : dest ≠ p) (ty : MessageType) : P.Leaves p (Q.notify dest ty) :=
  ((h.modify hd _).emit _).counted _

/-! ### The processor -/

theorem charge (h : P.Leaves p Q) : P.Leaves p Q.charge := by
  cases hl : Q.last with
  | none =>
    rw [charge_of_none hl]
    exact h.of_same rfl rfl rfl rfl id
  | some q =>
    have hq : q ≠ p := fun hq => h.gone.last (hq ▸ hl)
    rw [charge_of_some hl]
    exact (h.modify hq _).of_same rfl rfl rfl rfl id

/-- The process that is chosen comes out of a queue, or it is the idle one. -/
theorem reschedule (h : P.Leaves p Q) : P.Leaves p Q.reschedule := by
  have hc := h.charge
  have hrun : ∀ {R : Plain}, P.Leaves p R → ∀ q, q ≠ p → P.Leaves p (R.run q) := fun hR q hq =>
    { process := (modify_ne hq.symm _).trans hR.process
      waiters := hR.waiters
      gone := ⟨hq.symm, hR.gone.idle, fun hl => hq (Option.some_inj.mp hl), hR.gone.unqueued, hR.gone.untimed⟩ }
  unfold Plain.reschedule Plain.next
  cases hf : Q.charge.front? with
  | none =>
    rw [pop_of_none hf]
    exact hrun hc _ hc.gone.idle.symm
  | some front =>
    obtain ⟨l, q⟩ := front
    obtain ⟨⟨rest, hrest⟩, -⟩ := ready_of_front?_some hf
    have hq : q ≠ p := fun hq => hc.gone.unqueued (.ready l) (by
      rw [show Q.charge.queue (.ready l) = q :: rest from hrest, hq]
      exact List.mem_cons_self)
    rw [pop_of_some hf]
    exact hrun (hc.free hq (by simp)) q hq

/-! ### The exchange of messages -/

theorem deliver (h : P.Leaves p Q) (hd : dest ≠ p) (hs : src ≠ p) : P.Leaves p (Q.deliver dest src) := by
  unfold Plain.deliver
  split
  · exact h
  · exact ((((h.modify hs _).cancel hd).modify hd _).emit _).wake hd

theorem awaitReply (h : P.Leaves p Q) (hq : q ≠ p) : P.Leaves p (Q.awaitReply q) := by
  unfold Plain.awaitReply
  split
  · rename_i src hf
    have hs := h.gone.sender?_ne hf
    exact ((h.free hs (by simpa using hq)).deliver hq hs).wake hs
  · exact h.modify hq _

theorem wait (h : P.Leaves p Q) (state : State) (hd : dest ≠ p) : P.Leaves p (Q.wait state dest) :=
  (h.modify h.gone.current.symm _).join hd

theorem take (h : P.Leaves p Q) (hs : src ≠ p) : P.Leaves p (Q.take src) := by
  have hc := h.gone.current.symm
  have hlink : Link.waiting Q.current ≠ .waiting p := by simpa using hc
  have hdeliver := (h.free hs hlink).deliver hc hs
  unfold Plain.take Plain.accept
  dsimp only
  split
  · exact hdeliver.awaitReply hs
  · exact hdeliver.wake hs

theorem block (h : P.Leaves p Q) (filter : MessageType) (timeout : Option UInt32) :
    P.Leaves p (Q.block filter timeout) :=
  ((h.modify h.gone.current.symm _).setTimeout h.gone.current.symm timeout).emit _

theorem send (h : P.Leaves p Q) (hd : dest ≠ p) (msg : Message) : P.Leaves p (Q.send dest msg) := by
  have hc := h.gone.current.symm
  have hhold : P.Leaves p (Q.hold msg) := h.modify hc _
  unfold Plain.send
  dsimp only
  split
  · exact ((hhold.deliver hd hc).wake hc).reschedule
  · exact (hhold.wait .sending hd).reschedule

theorem sendRec (h : P.Leaves p Q) (hd : dest ≠ p) (msg : Message) : P.Leaves p (Q.sendRec dest msg) := by
  have hc := h.gone.current.symm
  have hhold : P.Leaves p (Q.hold msg) := h.modify hc _
  unfold Plain.sendRec
  dsimp only
  split
  · exact ((hhold.deliver hd hc).awaitReply hc).reschedule
  · exact (hhold.wait .sendRec hd).reschedule

theorem receive (h : P.Leaves p Q) (filter : MessageType) (timeout : Option UInt32) :
    P.Leaves p (Q.receive filter timeout) := by
  have hc := h.gone.current.symm
  have hempty : P.Leaves p Q.emptied := h.modify hc _
  by_cases hi : Q.takesInterrupt filter = true
  · rw [receive_of_interrupt hi]
    exact (hempty.modify hc _).notify hc .interrupt
  · cases hf : Q.emptied.nextSender? filter with
    | some src =>
      rw [receive_of_sender hi hf]
      exact (hempty.take (hempty.gone.sender?_ne (nextSender?_some hf))).reschedule
    | none =>
      rw [receive_of_none hi hf]
      split
      · exact hempty.notify hc .timeout
      · exact (hempty.block filter timeout).reschedule

/-! ### Time and interrupts -/

theorem expireAll {l : List Pid} (h : P.Leaves p Q) (hl : p ∉ l) : P.Leaves p (l.foldl expire Q) := by
  induction l generalizing Q with
  | nil => exact h
  | cons q l ih =>
    have hq : q ≠ p := fun hq => hl (hq ▸ List.mem_cons_self)
    exact ih (((h.emit _).notify hq .timeout).wake hq) fun hp => hl (List.mem_cons_of_mem q hp)

theorem elapse (h : P.Leaves p Q) (ms : UInt32) : P.Leaves p (Q.elapse ms) := by
  unfold Plain.elapse
  split
  · exact h
  · split
    · exact h.of_same rfl rfl rfl rfl id
    · have hscan : P.Leaves p (Q.scan (Q.later ms)) :=
        h.of_same (if_neg h.gone.untimed) rfl rfl rfl fun hp => (List.mem_filter.mp hp).1
      exact hscan.expireAll fun hp => h.gone.untimed (mem_overdue.mp hp).1

theorem tick (h : P.Leaves p Q) (ms : UInt32) : P.Leaves p (Q.tick ms) := by
  have hlater : P.Leaves p { Q with uptime := Q.uptime + ms.toNat } := h.of_same rfl rfl rfl rfl id
  exact hlater.charge.elapse ms

theorem interrupt (h : P.Leaves p Q) (hd : dest ≠ p) : P.Leaves p (Q.interrupt dest) := by
  have hcounted := h.counted { Q.counters with interrupts := Q.counters.interrupts + 1 }
  unfold Plain.interrupt Plain.alert
  split
  · exact ((hcounted.cancel hd).notify hd .interrupt).wake hd
  · split
    · exact (hcounted.emit _).counted _
    · exact hcounted.modify hd _

theorem save (h : P.Leaves p Q) (psp : Word) : P.Leaves p (Q.save psp) := h.modify h.gone.current.symm _

theorem yield (h : P.Leaves p Q) : P.Leaves p Q.yield := (h.wake h.gone.current.symm).reschedule

theorem preempt (h : P.Leaves p Q) (psp : Word) : P.Leaves p (Q.preempt psp) := (h.save psp).yield

theorem exit (h : P.Leaves p Q) : P.Leaves p Q.exit := ((h.modify h.gone.current.symm _).emit _).reschedule

/-! ### Calls -/

/-- A request that is not sent to the process. -/
theorem perform (h : P.Leaves p Q) (lines : List Event) (hr : ∀ dest msg, r.outgoing? = some (dest, msg) → dest ≠ p) :
    P.Leaves p (Q.perform lines r) := by
  cases r with
  | yield => exact h.yield
  | send dest msg => exact h.send (hr _ msg rfl) msg
  | receive filter timeout => exact h.receive filter timeout
  | sendRec dest msg => exact h.sendRec (hr _ msg rfl) msg
  | exit => exact h.exit
  | dump => exact h.of_same rfl rfl rfl rfl id
  | tick ms => exact h.tick ms

theorem serve (h : P.Leaves p Q) (lines : List Event) (hr : ∀ dest msg, r.outgoing? = some (dest, msg) → dest ≠ p) :
    P.Leaves p (Q.serve lines r) :=
  ((h.counted _).emit _).perform lines hr

/-- The pid that a new process gets is not that of the process. -/
theorem start (h : P.Leaves p Q) (hsize : Pid.ofIndex Q.size ≠ p) (name : String) (size : Nat) (entry arg : Word) :
    P.Leaves p (Q.start name size entry arg) := by
  obtain ⟨words, hw⟩ : ∃ words, words = stackWords (Kernel.stackSize size) := ⟨_, rfl⟩
  have hcreate : P.Leaves p (Q.create name words) := h.of_same (Q.create_ne name words hsize.symm) rfl rfl rfl id
  rw [Plain.start, ← hw, startWith]
  split
  · exact hcreate
  · rename_i offset content _
    have hinstall : P.Leaves p ((Q.create name words).install (.ofIndex Q.size) Q.frontier offset content) :=
      hcreate.of_same (modify_ne hsize.symm _) rfl rfl rfl id
    exact (hinstall.wake hsize).emit _

theorem launch (h : P.Leaves p Q) : P.Leaves p Q.launch := by
  have hidle : P.Leaves p { Q.emit (.launched Q.size) with running := true, current := .idle } :=
    ⟨h.process, h.waiters, h.gone.idle, h.gone.idle, h.gone.last, h.gone.unqueued, h.gone.untimed⟩
  exact hidle.reschedule

theorem setPriority (h : P.Leaves p Q) (level : Priority) : P.Leaves p (Q.setPriority level) :=
  h.modify h.gone.current.symm _

theorem connect (h : P.Leaves p Q) (irq : Int32) : P.Leaves p (Q.connect irq) := by
  have hlines : P.Leaves p { Q with lines := (Q.lines.connect irq Q.current).state } := h.of_same rfl rfl rfl rfl id
  exact (hlines.setPriority .handler).emit _

end Leaves

end Plain

/-- The call is not for the process: it names others, or none. -/
structure Call.Avoids (c : Call) (P : Plain) (p : Pid) : Prop where
  sent : ∀ r dest msg, c.request? = some r → r.outgoing? = some (dest, msg) → dest ≠ p
  signalled : c.signal? P.lines ≠ some p
  taken : c ≠ .takeMessage p

namespace Plain

variable {P : Plain} {p : Pid} {d : Descriptor} {c : Call} {hand : List Pid}

/-- A call that is not for the process leaves it alone. -/
theorem Gone.leaves (h : P.Gone p) (hs : P.Sound hand) (hp : P.process p = some d) (hc : c.Avoids P p)
    (lines : List Event) : P.Leaves p (P.after lines c) := by
  have hself := Leaves.refl h
  cases c with
  | start name size entry arg =>
    refine hself.start (fun hnew => ?_) name size entry arg
    -- The pid of a new process was not in use, so it is not that of the dead one.
    have hnone := hs.unused.2
    rw [hnew, hp] at hnone
    cases hnone
  | launch => exact hself.launch
  | connect irq => exact hself.connect irq
  | setPriority level => exact hself.setPriority level
  | serve r => exact hself.serve lines fun dest msg => hc.sent r dest msg rfl
  | trap psp frame =>
    cases hd : frame.decode with
    | ok r =>
      rw [after_of_decoded hd]
      exact (hself.save psp).serve lines fun dest msg => hc.sent r dest msg (Call.request?_of_decoded hd psp)
    | error f =>
      rw [after_of_undecoded hd]
      exact hself
  | preempt psp => exact hself.preempt psp
  | interrupt q => exact hself.interrupt fun hq => hc.signalled (hq ▸ rfl)
  | interruptRequest irq =>
    cases hl : P.lines.handler irq with
    | ok q =>
      rw [after_of_handler hl]
      refine hself.interrupt fun hq => hc.signalled ?_
      rw [Call.signal?, hl, hq]
      rfl
    | error f =>
      rw [after_of_unhandled hl]
      exact hself
  | takeMessage q => exact hself.modify (fun hq => hc.taken (hq ▸ rfl)) _
  | pokeStack q i value => exact hself.of_same rfl rfl rfl rfl id

/-- A dead process is out of everything. -/
theorem Rests.gone_of_dead (h : P.Rests) (ht : P.Timed) (hp : P.process p = some d) (hs : d.state = .dead) :
    P.Gone p := by
  obtain ⟨hlink, hdeadline, hcurrent⟩ := (h.role hp).dead hs
  refine ⟨hcurrent, ?_, fun hl => hcurrent (ht.last p hl), fun link hmem => ?_, fun hentry => ?_⟩
  · rintro rfl
    cases hs.symm.trans ((h.sound.fits _ d hp).idle rfl).state
  · exact h.sound.not_mem_queue hp (by simp [hlink]) hmem
  · obtain ⟨e, he, hdue⟩ := (h.sound.entry p).mp hentry
    obtain rfl := Option.some_inj.mp (hp.symm.trans he)
    rw [hdeadline] at hdue
    cases hdue

end Plain

/-! ### Kernels -/

/-- The process does not run, is in no list and has no deadline. -/
structure Kernel.Excludes (k : Kernel) (p : Pid) : Prop where
  current : k.current ≠ p
  unqueued : ∀ link, ∃ members,
    k.table.chain (heads k.scheduler.queues k.table.waitingOf link) = .ok members ∧ p ∉ members
  untimed : p ∉ k.timeouts.entries

/-- A descriptor is told by its plain part and its place in the lists. -/
theorem Descriptor.eq_of_plain {d e : Descriptor} (h : e.plain = d.plain) (hnext : e.next = d.next)
    (hwaiting : e.waiting = d.waiting) : e = d := by
  calc e = { e.plain with next := e.next, waiting := e.waiting } := rfl
    _ = { d.plain with next := d.next, waiting := d.waiting } := by rw [h, hnext, hwaiting]
    _ = d := rfl

namespace Kernel

variable {k k' : Kernel} {P Q : Plain} {p : Pid} {d : Descriptor} {c : Call} {a : Answer}

/-- An interrupt that returns has found its process alive. -/
theorem call_signalled (hok : (k.call c).outcome = .ok (a, k')) (hsignal : c.signal? k.lines = some p) :
    ∃ q, k.table.lookup p.destination = .ok q := by
  have hinterrupt : ∀ {out : Bool × Kernel}, (k.interrupt p).outcome = .ok out →
      ∃ q, k.table.lookup p.destination = .ok q := fun hout => by
    obtain ⟨q, hq, -⟩ := Traced.bind_eq_ok.mp hout
    exact ⟨q, findDest_ok hq⟩
  cases c with
  | interrupt q =>
    obtain rfl : q = p := Option.some_inj.mp hsignal
    obtain ⟨out, hout, -⟩ := Traced.bind_eq_ok.mp hok
    exact hinterrupt hout
  | interruptRequest irq =>
    obtain ⟨out, hout, -⟩ := Traced.bind_eq_ok.mp hok
    obtain ⟨q, hq, hout⟩ := Traced.bind_eq_ok.mp hout
    have hhandler := orHalt_ok hq
    rw [Call.signal?, hhandler] at hsignal
    obtain rfl : q = p := Option.some_inj.mp hsignal
    exact hinterrupt hout
  | _ => cases hsignal

namespace Shows

/-- A call that returns is not for a process that is dead. -/
theorem avoids (h : k.Shows P) (hrest : P.Rests) (hg : P.Gone p) (hp : P.process p = some d) (hs : d.state = .dead)
    (hc : c.TakesOwn k) (hok : (k.call c).outcome = .ok (a, k')) : c.Avoids P p := by
  -- A destination that is found is alive.
  have halive : ∀ {register q}, k.table.lookup register = .ok q → Plain.named register ≠ p := by
    intro register q hq hname
    obtain ⟨rfl, e, he, hne⟩ := h.alive_of_lookup hrest.sound hq
    obtain rfl := Option.some_inj.mp (hp.symm.trans (hname ▸ he))
    exact hne hs
  refine ⟨fun r dest msg hr hout => ?_, fun hsignal => ?_, ?_⟩
  · have hchecked := call_checked hok r hr
    cases r with
    | send register _ =>
      cases hout
      obtain ⟨q, hq⟩ := hchecked
      exact halive hq
    | sendRec register _ =>
      cases hout
      obtain ⟨⟨q, hq⟩, -⟩ := hchecked
      exact halive hq
    | _ => cases hout
  · obtain ⟨q, hq⟩ := call_signalled hok (h.lines ▸ hsignal)
    exact halive hq (Plain.named_destination p)
  · rintro rfl
    exact hg.current (hc.trans h.current.symm)

theorem excludes (h : k.Shows P) (hg : P.Gone p) : k.Excludes p where
  current hc := hg.current (hc.symm.trans h.current.symm)
  unqueued link := ⟨P.queue link, (h.2.holds link).walk, hg.unqueued link⟩
  untimed := h.timeouts ▸ hg.untimed

theorem nextOf_of_gone (h : k.Shows P) (hg : P.Gone p) : k.table.nextOf p = none := by
  refine h.2.threaded.alone p ?_
  cases hl : k.table.linkOf p with
  | none => rfl
  | some link => exact absurd ((h.2.threaded.member link p).mpr hl) (hg.unqueued link)

theorem waitingOf_eq (h : k.Shows P) (p : Pid) : k.table.waitingOf p = (P.queue (.waiting p)).head? :=
  (h.2.holds (.waiting p)).head_eq

/-- A process that is left alone keeps its descriptor, threads of the lists included. -/
theorem process?_of_leaves (h : k.Shows P) (hg : P.Gone p) (h' : k'.Shows Q) (hleaves : P.Leaves p Q)
    (hd : k.process? p = some d) : k'.process? p = some d := by
  have hplain := hleaves.process
  rw [h.process, h'.process, Table.plain_eq_some hd] at hplain
  obtain ⟨e, he, hsame⟩ := Option.map_eq_some_iff.mp hplain
  have hnext : e.next = d.next := by
    have hnext := (h'.nextOf_of_gone hleaves.gone).trans (h.nextOf_of_gone hg).symm
    rwa [Table.nextOf, Table.nextOf, he, show k.table.get? p = some d from hd] at hnext
  have hwaiting : e.waiting = d.waiting := by
    have hwaiting := (h'.waitingOf_eq p).trans ((congrArg List.head? hleaves.waiters).trans (h.waitingOf_eq p).symm)
    rwa [Table.waitingOf, Table.waitingOf, he, show k.table.get? p = some d from hd] at hwaiting
  rw [Descriptor.eq_of_plain hsame hnext hwaiting] at he
  exact he

/-- A call leaves a dead process alone. -/
theorem buries (h : k.Shows P) (hrest : P.Rests) (ht : P.Timed) (hc : c.Admissible k)
    (hok : (k.call c).outcome = .ok (a, k')) (hd : k.process? p = some d) (hs : d.state = .dead) :
    k'.process? p = some d := by
  have hp := h.process_eq hd
  have hg := hrest.gone_of_dead ht hp hs
  obtain ⟨lines, hk', -⟩ := h.call_ok hrest hc.1 hok
  exact h.process?_of_leaves hg hk' (hg.leaves hrest.sound hp (h.avoids hrest hg hp hs hc.2 hok) _) hd

end Shows

end Kernel

namespace Run

variable {config : Config} {steps : List Step} {k : Kernel} {i j : Nat} {s u : Step} {p : Pid} {d : Descriptor}

/-- A process that exits is dead. -/
theorem dead_of_exit (h : Run Call.Admissible config steps k) (hs : steps[i]? = some s)
    (hexit : s.request? = some .exit) : ∃ d, s.after.process? s.before.current = some d ∧ d.state = .dead := by
  obtain ⟨hrun, hc, hok⟩ := h.step hs
  obtain ⟨P, hk, hrest⟩ := hrun.proper.resting
  obtain ⟨lines, hk', -⟩ := hk.call_ok hrest hc.1 hok
  obtain ⟨a, ha⟩ := h.stance_of_current hs
  rw [← hk.stance, ← hk.current] at ha
  have hstance : (P.after (lines.map .dumped) s.call).stance P.current = some { a with state := .dead } := by
    rcases hrest.after_cases (lines.map .dumped) s.call with ⟨r, Q, hr, hafter, -, hlike, -⟩ | ⟨q, hr, -⟩ | ⟨q, hq⟩ |
      ⟨hr, -⟩
    · -- Of the four kinds of calls, only the one that serves a request can exit.
      obtain rfl : r = .exit := Option.some_inj.mp (hr.symm.trans hexit)
      have hserve : Plain.serve Q (lines.map .dumped) .exit = (Q.asked .exit).exit := rfl
      have hasked : (Q.asked .exit).stance Q.current = some a := by rw [hlike.current, ← ha, ← hlike.stance]; rfl
      rw [hafter, hserve, ← hlike.current, Plain.stance_exit]
      exact Plain.alter_self hasked _
    · cases hr.symm.trans hexit
    · rw [Step.request?, hq] at hexit
      cases hexit
    · cases hr.symm.trans hexit
  rw [hk'.stance, hk.current] at hstance
  obtain ⟨d, hd, hdead⟩ := Kernel.stance_eq_some hstance
  exact ⟨d, hd, congrArg Stance.state hdead⟩

/-- A dead process stays as it is. -/
theorem stays_dead (h : Run Call.Admissible config steps k) (hs : steps[i]? = some s)
    (hd : s.after.process? p = some d) (hdead : d.state = .dead) (hij : i ≤ j) (hu : steps[j]? = some u) :
    u.after.process? p = some d := by
  refine h.carry (R := fun _ => True) (Q := fun _ k => k.process? p = some d) hs hd (fun t v _ hv _ hbefore => ?_)
    hij hu fun _ _ _ _ _ => trivial
  obtain ⟨hrun, hc, hok⟩ := h.step hv
  obtain ⟨P, hk, hrest, ht⟩ := hrun.proper.timed
  exact hk.buries hrest ht hc hok hbefore hdead

theorem excludes_dead (h : Run Call.Admissible config steps k) (hd : k.process? p = some d) (hdead : d.state = .dead) :
    k.Excludes p := by
  obtain ⟨P, hk, hrest, ht⟩ := h.proper.timed
  have hp := hk.process_eq hd
  exact hk.excludes (hrest.gone_of_dead ht hp hdead)

end Run

/-- Exit is final. Whatever calls follow, the process that has exited stays as it was left, down to the last field of
its descriptor, and it neither runs again nor comes into a list or the registry of timeouts. -/
theorem exit_is_final {config : Config} {steps : List Step} {k : Kernel} {i : Nat} {s : Step}
    (h : Run Call.Admissible config steps k) (hs : steps[i]? = some s) (hexit : s.request? = some .exit) :
    ∃ d, s.after.process? s.before.current = some d ∧ d.state = .dead ∧ ∀ j u, i ≤ j → steps[j]? = some u →
      u.after.process? s.before.current = some d ∧ u.after.Excludes s.before.current := by
  obtain ⟨d, hd, hdead⟩ := h.dead_of_exit hs hexit
  refine ⟨d, hd, hdead, fun j u hij hu => ?_⟩
  have hstays := h.stays_dead hs hd hdead hij hu
  exact ⟨hstays, (h.upto hu).excludes_dead hstays hdead⟩

/-- A process that is to handle an interrupt exits while another one waits for it, and a third one goes on. -/
def retiredCalls : List Call :=
  [.start "a" 0 0 0, .start "b" 0 0 0, .start "c" 0 0 0, .launch, .serve (.send 2 (.new ⟨16⟩)), .connect 0,
    .serve .exit, .serve (.tick 5), .trap 0 (Request.encode .yield), .interrupt ⟨1⟩, .takeMessage ⟨3⟩, .preempt 0,
    .pokeStack ⟨2⟩ 0 9, .serve (.receive .any (some 3)), .serve (.tick 9)]

/-- What comes of the process that exits. -/
def retired : List Step × Kernel := ((Kernel.boot {}).follow Call.Admissible retiredCalls).get (by decide +kernel)

/-- The sender is still at the head of the list of the dead process at the end. -/
theorem exit_is_final_retired : ∃ s u d, retired.1[6]? = some s ∧ s.request? = some .exit ∧ retired.1[14]? = some u ∧
    s.after.process? ⟨2⟩ = some d ∧ u.after.process? ⟨2⟩ = some d ∧ d.waiting = some ⟨1⟩ ∧ u.after.Excludes ⟨2⟩ := by
  have hrun : Run Call.Admissible {} retired.1 retired.2 := Run.of_boot (Option.some_get _).symm
  have hexits : retired.1[6]?.map (fun s => (s.request?, s.before.current)) = some (some .exit, ⟨2⟩) := by
    decide +kernel
  have hlast : retired.1[14]?.map (fun u => (u.after.process? ⟨2⟩).bind (·.waiting)) = some (some ⟨1⟩) := by
    decide +kernel
  obtain ⟨s, hs, heq⟩ := Option.map_eq_some_iff.mp hexits
  obtain ⟨hexit, hcurrent⟩ := Prod.mk.inj heq
  obtain ⟨u, hu, hwaits⟩ := Option.map_eq_some_iff.mp hlast
  obtain ⟨d, hd, -, hafter⟩ := exit_is_final hrun hs hexit
  rw [hcurrent] at hd hafter
  obtain ⟨hstays, hexcludes⟩ := hafter 14 u (by decide) hu
  rw [hstays, Option.bind_some] at hwaits
  exact ⟨s, u, d, hs, hexit, hu, hd, hstays, hwaits, hexcludes⟩

end Rendezvous
