import Rendezvous.Proofs.Stances

/-! # The lists in the course of a call

A call makes processes ready, one after the other, and may then choose who runs next: nothing else changes the ready
queues. Senders go to the end of waiting lists and out of them anywhere. -/

namespace Rendezvous

/-- What decides where a process goes in the ready queues. -/
def Descriptor.rank (d : Descriptor) : Option Level × Nat := (d.priority.level?, d.score)

/-- The ready queues after `p` has been made ready. -/
def Policy.place (policy : Policy) (rank : Pid → Option (Option Level × Nat)) (ready : Level → List Pid) (p : Pid) :
    Level → List Pid :=
  match rank p with
  | some (some l, score) =>
    Function.update ready l (policy.insert (fun x => (rank x).any (·.2 ≤ score)) (ready l) p)
  | _ => ready

namespace Event

/-- The process that is chosen to run next. -/
def pick? : Event → Option Pid
  | .picked p _ => some p
  | _ => none

/-- The processes that the event makes ready: the receiver of a message, and its sender after that. -/
def touched : Event → List Pid
  | .delivered src dest _ => [dest, src]
  | .notified dest _ => [dest]
  | _ => []

/-- The event is neither a choice nor about a process that becomes ready. -/
def Apart (e : Event) : Prop := e.pick? = none ∧ e.touched = []

end Event

/-- `ws` are in the order in which `l` mentions them. -/
def InOrder (l ws : List Pid) : Prop := ws.Pairwise fun p q => l.idxOf p < l.idxOf q

namespace InOrder

variable {l : List Pid}

theorem nil (l : List Pid) : InOrder l [] := List.Pairwise.nil

theorem single (l : List Pid) (p : Pid) : InOrder l [p] := List.pairwise_singleton ..

theorem self (h : l.Nodup) : InOrder l l := by
  refine List.pairwise_iff_getElem.mpr fun i j hi hj hij => ?_
  rwa [h.idxOf_getElem, h.idxOf_getElem]

/-- A process that gets one message and sends another is mentioned twice. -/
theorem twice {p q r : Pid} (hpq : p ≠ q) (hpr : p ≠ r) (hqr : q ≠ r) : InOrder [p, q, q, r] [p, q, r] := by
  have hp : [p, q, q, r].idxOf p = 0 := List.idxOf_cons_self
  have hq : [p, q, q, r].idxOf q = 1 := by rw [List.idxOf_cons_ne _ hpq, List.idxOf_cons_self]
  have hr : [p, q, q, r].idxOf r = 3 := by
    rw [List.idxOf_cons_ne _ hpr, List.idxOf_cons_ne _ hqr, List.idxOf_cons_ne _ hqr, List.idxOf_cons_self]
  simp [InOrder, hp, hq, hr]

end InOrder

/-- Who runs next: the head of the most urgent of the ready queues that is not empty, or else the idle process. -/
inductive Choice (ready : Level → List Pid) (runs : Pid) (left : Level → List Pid) : Prop
  | idle (empty : ∀ l, ready l = []) (runs : runs = .idle) (left : left = ready)
  | front (l : Level) (rest : List Pid) (head : ready l = runs :: rest)
    (urgent : ∀ l', l'.index < l.index → ready l' = []) (left : left = Function.update ready l rest)

namespace Plain

/-- The members of a ready queue. -/
def ready (P : Plain) (l : Level) : List Pid := P.queue (.ready l)

/-- The members of a waiting list. -/
def waiters (P : Plain) (dest : Pid) : List Pid := P.queue (.waiting dest)

/-- What the ready queues go by, for each process. -/
def rank (P : Plain) : Pid → Option (Option Level × Nat) := P.read Descriptor.rank

/-- All run time is charged, and only the process that runs can be charged for more. -/
structure Timed (P : Plain) : Prop where
  charged : P.chargedUntil = P.uptime
  last : ∀ p, P.last = some p → p = P.current

variable {P Q R : Plain} {es es' : List Event} {ws ws' hand : List Pid} {p src dest : Pid} {d : Descriptor}
  {msg : Message}

theorem rank_eq (hp : P.process p = some d) : P.rank p = some (d.priority.level?, d.score) := by
  rw [rank, read, hp]
  rfl

theorem ready_setQueue (P : Plain) (l : Level) (members : List Pid) :
    (P.setQueue (.ready l) members).ready = Function.update P.ready l members := by
  funext l'
  by_cases hl : l' = l
  · rw [hl, Function.update_self]
    exact Function.update_self ..
  · rw [Function.update_of_ne hl]
    exact Function.update_of_ne (by simpa using hl) ..

theorem waiters_setQueue (P : Plain) (dest : Pid) (members : List Pid) :
    (P.setQueue (.waiting dest) members).waiters = Function.update P.waiters dest members := by
  funext q
  by_cases hq : q = dest
  · rw [hq, Function.update_self]
    exact Function.update_self ..
  · rw [Function.update_of_ne hq]
    exact Function.update_of_ne (by simpa using hq) ..

/-! ### Elementary changes -/

/-- What leads from `P` to `Q`: the events `es`, while `ws` become ready one after the other, and senders may leave
    their waiting lists. -/
structure Course (P : Plain) (es : List Event) (ws : List Pid) (Q : Plain) : Prop where
  near : P.Near Q
  trace : Q.trace = P.trace ++ es
  unpicked : ∀ e ∈ es, e.pick? = none
  rank : Q.rank = P.rank
  ready : Q.ready = ws.foldl (P.policy.place P.rank) P.ready
  waiters : ∀ dest, (Q.waiters dest).Sublist (P.waiters dest)

namespace Course

theorem refl (P : Plain) : P.Course [] [] P :=
  ⟨.refl P, (List.append_nil _).symm, (by simp), rfl, rfl, fun _ => List.Sublist.refl _⟩

theorem policy (h : P.Course es ws Q) : Q.policy = P.policy := by rw [h.near]

theorem current (h : P.Course es ws Q) : Q.current = P.current := h.near.current

theorem timed (h : P.Course es ws Q) (ht : P.Timed) : Q.Timed := by
  rw [h.near]
  exact ⟨ht.charged, ht.last⟩

theorem trans (h : P.Course es ws Q) (h' : Q.Course es' ws' R) : P.Course (es ++ es') (ws ++ ws') R := by
  refine ⟨h.near.trans h'.near, ?_, fun e he => ?_, h'.rank.trans h.rank, ?_, fun dest =>
    (h'.waiters dest).trans (h.waiters dest)⟩
  · rw [h'.trace, h.trace, List.append_assoc]
  · rcases List.mem_append.mp he with he | he
    · exact h.unpicked e he
    · exact h'.unpicked e he
  · rw [h'.ready, h.ready, h.rank, h.policy, List.foldl_append]

/-- The lists are left alone. -/
theorem still (h : P.Near Q) (ht : Q.trace = P.trace) (hr : Q.rank = P.rank) (hq : Q.queue = P.queue) :
    P.Course [] [] Q :=
  ⟨h, ht.trans (List.append_nil _).symm, (by simp), hr, funext fun l => congrFun hq (.ready l), fun dest => by
    rw [Plain.waiters, hq, Plain.waiters]⟩

theorem modify (P : Plain) (p : Pid) {f : Descriptor → Descriptor} (hf : ∀ d, (f d).rank = d.rank) :
    P.Course [] [] (P.modify p f) := still rfl rfl (modify_read hf p) rfl

theorem emit (P : Plain) {e : Event} (he : e.pick? = none) : P.Course [e] [] (P.emit e) :=
  ⟨rfl, rfl, (by simpa using he), rfl, rfl, fun _ => List.Sublist.refl _⟩

theorem counted (P : Plain) (c : Counters) : P.Course [] [] { P with counters := c } := still rfl rfl rfl rfl

theorem cancel (P : Plain) (p : Pid) : P.Course [] [] (P.cancel p) := by
  unfold Plain.cancel
  split
  · refine still rfl rfl ?_ rfl
    exact modify_read (g := Descriptor.rank) (f := fun d => { d with deadline := none }) (fun _ => rfl) p
  · exact .refl P

theorem setTimeout (P : Plain) (p : Pid) (timeout : Option UInt32) : P.Course [] [] (P.setTimeout p timeout) := by
  cases timeout with
  | none => exact .refl P
  | some ms =>
    obtain ⟨due, hdue⟩ : ∃ due, due = saturate (P.timeouts.ticks + saturate ms.toNat) := ⟨_, rfl⟩
    refine still rfl rfl ?_ rfl
    rw [Plain.setTimeout, ← hdue]
    exact modify_read (g := Descriptor.rank) (f := fun d => { d with deadline := some due }) (fun _ => rfl) p

theorem notify (P : Plain) (dest : Pid) (ty : MessageType) : P.Course [.notified dest ty] [] (P.notify dest ty) :=
  ((modify P dest (f := fun d => { d with slot := some (.new ty) }) fun _ => rfl).trans
    (emit _ (e := .notified dest ty) rfl)).trans (counted _ _)

theorem free (P : Plain) (src dest : Pid) : P.Course [] [] (P.free src (.waiting dest)) := by
  refine ⟨rfl, (List.append_nil _).symm, (by simp), ?_, rfl, fun q => ?_⟩
  · exact modify_read (g := Descriptor.rank) (f := fun d => { d with link := none }) (fun _ => rfl) src
  · rw [Plain.free, waiters_setQueue]
    by_cases hq : q = dest
    · rw [hq, Function.update_self]
      exact List.erase_sublist
    · rw [Function.update_of_ne hq]
      exact List.Sublist.refl _

theorem wake_level (hp : P.process p = some d) {l : Level} (hl : d.priority.level? = some l) :
    P.Course [] [p] (P.wake p) := by
  have hwake : P.wake p = (P.modify p fun d => { d with state := .active, link := some (.ready l) }).setQueue (.ready l)
      (P.policy.insert (fun x => (P.process x).any (·.score ≤ d.score)) (P.queue (.ready l)) p) := by
    unfold Plain.wake
    simp only [hp, hl]
  have hbefore : (fun x => (P.rank x).any (·.2 ≤ d.score)) = fun x => (P.process x).any (·.score ≤ d.score) := by
    funext x
    rw [Plain.rank, read, Option.any_map]
    rfl
  refine ⟨(Near.refl P).wake p, ?_, (by simp), ?_, ?_, fun dest => ?_⟩
  · rw [List.append_nil, wake_trace]
  · rw [hwake]
    exact modify_read (g := Descriptor.rank) (f := fun d => { d with state := .active, link := some (.ready l) })
      (fun _ => rfl) p
  · have hplace : P.policy.place P.rank P.ready p = Function.update P.ready l
        (P.policy.insert (fun x => (P.rank x).any (·.2 ≤ d.score)) (P.ready l) p) := by
      rw [Policy.place, rank_eq hp, hl]
    rw [hwake, ready_setQueue, List.foldl_cons, List.foldl_nil, hplace, hbefore]
    rfl
  · rw [Plain.waiters, wake_waiting, Plain.waiters]

theorem wake (h : P.Sound (p :: hand)) : P.Course [] [p] (P.wake p) := by
  obtain ⟨d, hp, -⟩ := h.found List.mem_cons_self
  obtain ⟨l, hl⟩ := (h.fits p d hp).level (h.ne_idle List.mem_cons_self)
  exact wake_level hp hl

/-! ### The exchange of messages -/

theorem deliver (h : ((P.modify src fun d => { d with slot := none }).cancel dest).Sound (dest :: hand))
    (hm : P.slot src = some msg) :
    P.Course [.delivered src dest { msg with sender := src }] [dest] (P.deliver dest src) := by
  have hempty : P.Course [] [] (P.modify src fun d => { d with slot := none }) := modify P src fun _ => rfl
  have hfill := modify ((P.modify src fun d => { d with slot := none }).cancel dest) dest
    (f := fun d => { d with slot := some { msg with sender := src } }) fun _ => rfl
  rw [deliver_eq hm]
  exact (((hempty.trans (cancel _ dest)).trans hfill).trans
    (emit _ (e := .delivered src dest { msg with sender := src }) rfl)).trans (wake ((h.slot dest _).emit _))

theorem awaitReply_none (hf : P.sender? p .reply = none) : P.Course [] [] (P.awaitReply p) := by
  unfold Plain.awaitReply
  rw [hf]
  exact modify P p fun _ => rfl

theorem awaitReply_some (h : P.Sound (p :: hand)) (hf : P.sender? p .reply = some src) :
    ∃ msg, P.Course [.delivered src p msg] [p, src] (P.awaitReply p) := by
  obtain ⟨hfree, msg, hm⟩ := h.free_sender hf
  have hopen := hfree.swap.open_held src
  refine ⟨{ msg with sender := src }, ?_⟩
  unfold Plain.awaitReply
  rw [hf]
  exact ((free P src p).trans (deliver hopen hm)).trans (wake (hopen.deliver hm))

theorem block (P : Plain) (filter : MessageType) (timeout : Option UInt32) :
    P.Course [.blocked P.current filter] [] (P.block filter timeout) :=
  ((modify P P.current (f := fun d => { d with state := .receiving, filter := filter }) fun _ => rfl).trans
    (setTimeout _ P.current timeout)).trans (emit _ (e := .blocked P.current filter) rfl)

/-! ### Time and interrupts -/

theorem expire (h : P.Sound (p :: hand)) : P.Course [.expired p, .notified p .timeout] [p] (P.expire p) :=
  ((emit P (e := .expired p) rfl).trans (notify _ p .timeout)).trans (wake ((h.emit _).notify p .timeout))

theorem expireAll {l : List Pid} (h : P.Sound (l ++ hand)) :
    P.Course (l.flatMap fun p => [.expired p, .notified p .timeout]) l (l.foldl Plain.expire P) := by
  induction l generalizing P with
  | nil => exact .refl P
  | cons p l ih => exact (expire h).trans (ih h.expire)

/-- The passing of time makes the processes ready whose deadline has passed, one after the other. -/
theorem elapse (h : P.Sound hand) (ms : UInt32) : ∃ l : List Pid, l.Nodup ∧
    P.Course (l.flatMap fun p => [.expired p, .notified p .timeout]) l (P.elapse ms) := by
  unfold Plain.elapse
  split
  · exact ⟨[], List.nodup_nil, .refl P⟩
  · split
    · exact ⟨[], List.nodup_nil, still rfl rfl rfl rfl⟩
    · -- Who times out is taken into hand by the scan, and woken one after the other.
      have hscan := h.scan (P.later ms)
      refine ⟨P.overdue (P.later ms), (List.nodup_append.mp hscan.distinct).1, ?_⟩
      exact (still (Near.refl P |>.scan _) rfl (scan_read (g := Descriptor.rank) (fun _ _ => rfl) _) rfl).trans
        (expireAll hscan)

/-- An interrupt makes the process ready that waits for it. -/
theorem alert_of_accepts (h : P.Rests) (ha : P.accepts dest .interrupt = true) :
    P.Course [.notified dest .interrupt] [dest] (P.alert dest) := by
  have halert : P.alert dest = ((P.cancel dest).notify dest .interrupt).wake dest := if_pos ha
  rw [halert]
  exact ((cancel P dest).trans (notify _ dest .interrupt)).trans (wake ((h.cancel ha).notify dest .interrupt))

/-- An interrupt makes at most one process ready. -/
theorem alert (h : P.Rests) (dest : Pid) : ∃ es ws, P.Course es ws (P.alert dest) ∧ ws.length ≤ 1 ∧
    ∀ src q m, .delivered src q m ∉ es := by
  by_cases ha : P.accepts dest .interrupt = true
  · exact ⟨_, _, alert_of_accepts h ha, (by simp), (by simp)⟩
  · unfold Plain.alert
    rw [if_neg ha]
    split
    · exact ⟨_, _, (emit P (e := .coalesced dest) rfl).trans (counted _ _), (by simp), (by simp)⟩
    · exact ⟨_, _, modify P dest fun _ => rfl, (by simp), (by simp)⟩

end Course

/-! ### The choice of the process that runs next -/

/-- A process in a ready queue has the priority of its level. -/
theorem Sound.of_ready (h : P.Sound hand) {l : Level} (hp : p ∈ P.ready l) :
    p ≠ .idle ∧ p ∉ hand ∧ ∃ d, P.process p = some d ∧ d.link = some (.ready l) ∧ d.priority.level? = some l := by
  obtain ⟨d, hd, hl⟩ := (h.member (.ready l) p).mp hp
  have hfree := h.free hd hl
  have hne := hfree.ne_idle List.mem_cons_self
  have hout := (List.nodup_cons.mp hfree.distinct).1
  refine ⟨hne, hout, d, hd, hl, ?_⟩
  cases (h.fits p d hd).settled hne hout with
  | ready l' state level link =>
    obtain rfl : l = l' := Link.ready.inj (Option.some_inj.mp (hl.symm.trans link))
    exact level
  | waiting dest state link => simp [hl] at link
  | receiving state link => simp [hl] at link
  | dead state link => simp [hl] at link

theorem ready_of_front?_none (h : P.front? = none) (l : Level) : P.ready l = [] := by
  have hl := List.findSome?_eq_none_iff.mp h l (by cases l <;> decide)
  rw [Option.map_eq_none_iff, List.head?_eq_none_iff] at hl
  exact hl

theorem ready_of_front?_some {l : Level} (h : P.front? = some (l, p)) :
    (∃ rest, P.ready l = p :: rest) ∧ ∀ l', l'.index < l.index → P.ready l' = [] := by
  obtain ⟨before, l₁, after, hall, hl, hnone⟩ := List.findSome?_eq_some_iff.mp h
  obtain ⟨x, hx, he⟩ := Option.map_eq_some_iff.mp hl
  obtain ⟨rfl, rfl⟩ := Prod.mk.inj he
  refine ⟨List.head?_eq_some_iff.mp hx, fun l' hlt => ?_⟩
  -- The levels before `l₁` are those that are more urgent.
  have hmem : l' ∈ before := by
    have hindex : Level.all.map Level.index = [0, 1, 2] := rfl
    have hin : l' ∈ before ++ l₁ :: after := hall ▸ (by cases l' <;> decide)
    rw [hall, List.map_append, List.map_cons] at hindex
    rcases List.mem_append.mp hin with hb | ha
    · exact hb
    · have hsorted : (before.map Level.index ++ l₁.index :: after.map Level.index).Pairwise (· < ·) := hindex ▸ by decide
      rcases List.mem_cons.mp ha with rfl | ha
      · exact absurd hlt (Nat.lt_irrefl _)
      · have hle := (List.pairwise_cons.mp (List.pairwise_append.mp hsorted).2.1).1 _ (List.mem_map_of_mem ha)
        omega
  have hempty := hnone l' hmem
  rw [Option.map_eq_none_iff, List.head?_eq_none_iff] at hempty
  exact hempty

/-- Whoever runs next, nobody joins or leaves a waiting list. -/
theorem reschedule_waiters (P : Plain) : P.reschedule.waiters = P.waiters := by
  funext dest
  have hcharge : P.charge.waiters dest = P.waiters dest := by
    rw [charge_eq]
    rfl
  rw [← hcharge]
  show P.charge.pop.waiters dest = P.charge.waiters dest
  cases hf : P.charge.front? with
  | none => rw [pop_of_none hf]
  | some front =>
    rw [pop_of_some hf]
    exact setQueue_waiting _ front.1 _ dest

/-- Nothing is left to be charged. -/
theorem Timed.charge (h : P.Timed) : P.charge = P := by
  have hnow : ({ P with chargedUntil := P.uptime } : Plain) = P :=
    congrArg (fun t => { P with chargedUntil := t }) h.charged.symm
  cases hl : P.last with
  | none => rw [charge_of_none hl, hnow]
  | some p =>
    have hsame : (P.modify p fun d => { d with runtime := d.runtime + (P.uptime - P.chargedUntil) }) = P := by
      rw [h.charged, Nat.sub_self]
      cases hp : P.process p with
      | none => exact modify_of_none hp _
      | some d =>
        rw [modify_eq hp]
        exact congrArg (fun process => { P with process := process }) (update_same hp)
    rw [charge_of_some hl, hsame, hnow]

/-- What a choice leads to. -/
structure Chosen (P Q : Plain) : Prop where
  choice : Choice P.ready Q.current Q.ready
  policy : Q.policy = P.policy
  timed : Q.Timed
  trace : ∃ name, Q.trace = P.trace ++ [.picked Q.current name]
  waiters : Q.waiters = P.waiters
  rank : ∀ p, p ≠ Q.current → Q.rank p = P.rank p
  priority : Q.read (·.priority) = P.read (·.priority)

namespace Timed

variable (h : P.Timed)
include h

theorem reschedule : P.reschedule = P.pop.run P.next := by rw [Plain.reschedule, h.charge]

theorem choice : Choice P.ready P.reschedule.current P.reschedule.ready := by
  rw [h.reschedule]
  cases hf : P.front? with
  | none =>
    have hnext : P.next = .idle := by rw [next, hf]; rfl
    refine .idle (ready_of_front?_none hf) hnext ?_
    rw [pop_of_none hf]
    rfl
  | some front =>
    obtain ⟨l, p⟩ := front
    have hnext : P.next = p := by rw [next, hf]; rfl
    obtain ⟨⟨rest, hrest⟩, hurgent⟩ := ready_of_front?_some hf
    have herase : (P.queue (.ready l)).erase p = rest := by
      rw [show P.queue (.ready l) = p :: rest from hrest, List.erase_cons_head]
    refine .front l rest (by rw [hrest, hnext]; rfl) hurgent ?_
    rw [pop_of_some hf, free, herase]
    exact ready_setQueue _ l rest

theorem chosen : P.Chosen P.reschedule := by
  have hpop := P.pop_eq
  refine ⟨h.choice, ?_, ?_, ⟨((P.pop.process P.next).map (·.name)).getD "", ?_⟩, P.reschedule_waiters, fun p hp => ?_, ?_⟩
  · rw [h.reschedule, run, hpop]
    rfl
  · rw [h.reschedule, run, hpop]
    exact ⟨h.charged, fun p hp => (Option.some_inj.mp hp).symm⟩
  · rw [h.reschedule, run, hpop]
    rfl
  · rw [h.reschedule] at hp ⊢
    have hne : (P.pop.run P.next).process p = P.pop.process p := modify_ne hp _
    rw [Plain.rank, read, hne]
    exact congrFun (pop_read (g := Descriptor.rank) fun _ _ => rfl) p
  · rw [h.reschedule, run_read (g := (·.priority)) fun _ _ => rfl]
    exact pop_read (g := (·.priority)) fun _ _ => rfl

end Timed

end Plain

end Rendezvous
