import Rendezvous.Proofs.Courses
import Rendezvous.Proofs.Fates

/-! # What a call does to the lists

The processes that a call makes ready go into the queues of their levels in the order in which its events tell of them,
before the kernel chooses who runs next. Nobody else moves in a ready queue, and no rank changes there. -/

namespace Rendezvous

/-- The filter with which a request of the process `runs` looks for a sender in the list of `dest`. -/
def Request.wants (r : Request) (runs dest : Pid) : MessageType :=
  match r with
  | .receive filter _ => if dest = runs then filter else .reply
  | _ => .reply

/-- Whether a request makes the kernel choose who runs next, whatever it finds. -/
def Request.Switches : Request → Prop
  | .yield | .exit | .send .. | .sendRec .. => True
  | .receive .. | .dump | .tick _ => False

namespace Call

/-- The filter with which a call of the process `runs` looks for a sender in the list of `dest`. -/
def wants (c : Call) (runs dest : Pid) : MessageType := (c.request?.map fun r => r.wants runs dest).getD .reply

/-- Whether a call makes the kernel choose who runs next, whatever it finds. -/
def Switches (c : Call) : Prop :=
  match c with
  | .launch | .preempt _ => True
  | _ => ∃ r ∈ c.request?, r.Switches

end Call

namespace Plain

/-- What a call that looks for senders as `wants` tells leads to, up to the choice of the process that runs next. -/
structure Conduct (P : Plain) (wants : Pid → MessageType) (es : List Event) (ws : List Pid) (Q : Plain) : Prop where
  policy : Q.policy = P.policy
  timed : Q.Timed
  trace : Q.trace = P.trace ++ es
  unpicked : ∀ e ∈ es, e.pick? = none
  rank : ∀ l, ∀ p ∈ P.ready l, Q.rank p = P.rank p
  ready : Q.ready = ws.foldl (P.policy.place Q.rank) P.ready
  waiters : ∀ dest, (Q.waiters dest).Sublist (P.waiters dest ++ [P.current])
  ordered : InOrder (es.flatMap Event.touched) ws
  takes : ∀ src dest msg, .delivered src dest msg ∈ es → src ≠ P.current → P.sender? dest (wants dest) = some src

/-- How a call ends that has led to `Q`: with that, or with a choice. -/
inductive Ending (P : Plain) (switches : Prop) (es : List Event) (Q R : Plain) : Prop
  | stays (same : R = Q) (current : Q.current = P.current) (goes : ¬switches)
    (undelivered : ∀ src dest msg, .delivered src dest msg ∉ es)
  | chooses (sound : Q.Sound []) (chosen : R = Q.reschedule)

/-- What a call does before it comes to the lists. -/
structure Opening (P : Plain) (es : List Event) (Q : Plain) : Prop where
  policy : Q.policy = P.policy
  timed : Q.Timed
  current : Q.current = P.current
  queue : Q.queue = P.queue
  sender : ∀ dest filter, Q.sender? dest filter = P.sender? dest filter
  trace : Q.trace = P.trace ++ es
  apart : ∀ e ∈ es, e.Apart
  rank : ∀ l, ∀ p ∈ P.ready l, Q.rank p = P.rank p

variable {P Q R : Plain} {es es' : List Event} {ws : List Pid} {wants : Pid → MessageType} {switches : Prop}
  {p src dest : Pid} {d : Descriptor} {msg : Message}

theorem Course.conduct (h : P.Course es ws Q) (ht : P.Timed) (ordered : InOrder (es.flatMap Event.touched) ws)
    (takes : ∀ src dest msg, .delivered src dest msg ∈ es → src ≠ P.current → P.sender? dest (wants dest) = some src) :
    P.Conduct wants es ws Q where
  policy := h.policy
  timed := h.timed ht
  trace := h.trace
  unpicked := h.unpicked
  rank _ _ _ := congrFun h.rank _
  ready := by rw [h.ready, h.rank]
  waiters dest := (h.waiters dest).trans (List.sublist_append_left ..)
  ordered := ordered
  takes := takes

theorem Course.conduct_short (h : P.Course es ws Q) (ht : P.Timed) (hws : ws.length ≤ 1)
    (undelivered : ∀ src dest msg, .delivered src dest msg ∉ es) : P.Conduct wants es ws Q := by
  refine h.conduct ht ?_ fun src dest msg he => absurd he (undelivered src dest msg)
  cases ws with
  | nil => exact .nil _
  | cons w rest =>
    obtain rfl : rest = [] := List.eq_nil_of_length_eq_zero (by simpa using hws)
    exact .single _ w

namespace Opening

theorem of_course (h : P.Course es [] Q) (ht : P.Timed) (hqueue : Q.queue = P.queue) (hslot : Q.slot = P.slot)
    (apart : ∀ e ∈ es, e.Apart) : P.Opening es Q :=
  ⟨h.policy, h.timed ht, h.current, hqueue, sender?_of_slot hqueue hslot, h.trace, apart, fun _ _ _ =>
    congrFun h.rank _⟩

theorem touched (h : P.Opening es Q) : es.flatMap Event.touched = [] :=
  List.flatMap_eq_nil_iff.mpr fun e he => (h.apart e he).2

theorem undelivered (h : P.Opening es Q) (src dest : Pid) (msg : Message) : .delivered src dest msg ∉ es := by
  intro he
  cases (h.apart _ he).2

theorem conduct (h : P.Opening es Q) (h' : Q.Conduct wants es' ws R) : P.Conduct wants (es ++ es') ws R where
  policy := h'.policy.trans h.policy
  timed := h'.timed
  trace := by rw [h'.trace, h.trace, List.append_assoc]
  unpicked := by
    intro e he
    rcases List.mem_append.mp he with he | he
    · exact (h.apart e he).1
    · exact h'.unpicked e he
  rank l p hp := by
    have hmem : p ∈ Q.ready l := by rwa [Plain.ready, h.queue]
    rw [h'.rank l p hmem, h.rank l p hp]
  ready := by
    have hready : Q.ready = P.ready := funext fun l => congrFun h.queue _
    rw [h'.ready, h.policy, hready]
  waiters dest := by
    have hwaiters : Q.waiters dest = P.waiters dest := congrFun h.queue _
    rw [← hwaiters, ← h.current]
    exact h'.waiters dest
  ordered := by
    rw [List.flatMap_append, h.touched, List.nil_append]
    exact h'.ordered
  takes src dest msg he hne := by
    rw [← h.sender]
    refine h'.takes src dest msg ?_ (h.current ▸ hne)
    exact (List.mem_append.mp he).resolve_left (h.undelivered src dest msg)

theorem ending (h : P.Opening es Q) {Q' : Plain} (h' : Q.Ending switches es' Q' R) :
    P.Ending switches (es ++ es') Q' R := by
  cases h' with
  | stays same current goes undelivered =>
    refine .stays same (current.trans h.current) goes fun src dest msg he => ?_
    rcases List.mem_append.mp he with he | he
    · exact h.undelivered src dest msg he
    · exact undelivered src dest msg he
  | chooses sound chosen => exact .chooses sound chosen

end Opening

/-- All a call does to the lists. -/
def Conducts (P : Plain) (wants : Pid → MessageType) (switches : Prop) (R : Plain) : Prop :=
  ∃ es ws Q, P.Conduct wants es ws Q ∧ P.Ending switches es Q R

namespace Conducts

variable (h : P.Conducts wants switches R)
include h

/-- Nobody comes into a waiting list but the current process, at its end. -/
theorem waiters (dest : Pid) : (R.waiters dest).Sublist (P.waiters dest ++ [P.current]) := by
  obtain ⟨es, ws, Q, hconduct, hending⟩ := h
  have hsame : R.waiters = Q.waiters := by
    cases hending with
    | stays same => rw [same]
    | chooses sound chosen => rw [chosen, hconduct.timed.chosen.waiters]
  rw [hsame]
  exact hconduct.waiters dest

/-- A message of another process goes to a receiver that looks for senders and finds this one. -/
theorem takes (htrace : R.trace = P.trace ++ es) (he : .delivered src dest msg ∈ es) (hne : src ≠ P.current) :
    P.sender? dest (wants dest) = some src := by
  obtain ⟨es', ws, Q, hconduct, hending⟩ := h
  refine hconduct.takes src dest msg ?_ hne
  cases hending with
  | stays same =>
    rw [same, hconduct.trace] at htrace
    rwa [List.append_cancel_left htrace]
  | chooses sound chosen =>
    obtain ⟨name, hname⟩ := hconduct.timed.chosen.trace
    rw [chosen, hname, hconduct.trace, List.append_assoc] at htrace
    rw [← List.append_cancel_left htrace] at he
    simpa using he

end Conducts

theorem Opening.conducts (h : P.Opening es Q) (h' : Q.Conducts wants switches R) : P.Conducts wants switches R := by
  obtain ⟨es', ws, Q', hconduct, hending⟩ := h'
  exact ⟨es ++ es', ws, Q', h.conduct hconduct, h.ending hending⟩

theorem Course.stays (h : P.Course es ws Q) (ht : P.Timed) (hws : ws.length ≤ 1)
    (undelivered : ∀ src dest msg, .delivered src dest msg ∉ es) (goes : ¬switches) : P.Conducts wants switches Q :=
  ⟨es, ws, Q, h.conduct_short ht hws undelivered, .stays rfl h.current goes undelivered⟩

theorem Course.chooses (h : P.Course es ws Q) (ht : P.Timed) (hws : ws.length ≤ 1)
    (undelivered : ∀ src dest msg, .delivered src dest msg ∉ es) (hs : Q.Sound []) :
    P.Conducts wants switches Q.reschedule :=
  ⟨es, ws, Q, h.conduct_short ht hws undelivered, .chooses hs rfl⟩

/-- A call that does no more than open. -/
theorem Opening.stays (h : P.Opening es Q) (goes : ¬switches) : P.Conducts wants switches Q :=
  h.conducts ((Course.refl Q).stays h.timed (by simp) (by simp) goes)

namespace Timed

variable (h : P.Timed)
include h

theorem opening_save (psp : Word) : P.Opening [] (P.save psp) := by
  have hsave : P.Course [] [] (P.save psp) := .modify P P.current fun _ => rfl
  have hslot : (P.save psp).slot = P.slot := slot_modify (f := fun d => { d with context := Arena.locate psp })
    (fun _ => rfl) P.current
  exact .of_course hsave h rfl hslot (by simp)

theorem opening_asked (r : Request) : P.Opening [.requested P.current r] (P.asked r) := by
  refine .of_course ((Course.counted P _).trans (.emit _ (e := .requested P.current r) rfl)) h rfl rfl ?_
  simp [Event.Apart, Event.pick?, Event.touched]

end Timed

/-! ### Requests -/

/-- The current process waits in the list of `dest`. -/
theorem Timed.conduct_wait (ht : P.Timed) (msg : Message) (state : State) (dest : Pid) :
    P.Conduct wants [.queued P.current dest] [] ((P.hold msg).wait state dest) := by
  obtain ⟨Q, hQ⟩ : ∃ Q, Q = ((P.hold msg).modify P.current fun d => { d with state := state }).modify P.current fun d =>
      { d with link := some (.waiting dest) } := ⟨_, rfl⟩
  have hcourse : P.Course [] [] Q := by
    have hhold : P.Course [] [] (P.hold msg) := .modify P P.current fun _ => rfl
    have hstate := hhold.trans (.modify _ P.current (f := fun d => { d with state := state }) fun _ => rfl)
    exact hQ ▸ hstate.trans (.modify _ P.current fun _ => rfl)
  have hwait : (P.hold msg).wait state dest =
      (Q.setQueue (.waiting dest) (P.waiters dest ++ [P.current])).emit (.queued P.current dest) := by
    rw [hQ]
    rfl
  rw [hwait]
  refine ⟨hcourse.policy, ⟨(hcourse.timed ht).charged, (hcourse.timed ht).last⟩, ?_, (by simp [Event.pick?]),
    fun l p _ => congrFun hcourse.rank p, hcourse.ready, fun q => ?_, .nil _, (by simp)⟩
  · rw [hQ]
    rfl
  · have hwaiters : ((Q.setQueue (.waiting dest) (P.waiters dest ++ [P.current])).emit (.queued P.current dest)).waiters q =
        Function.update Q.waiters dest (P.waiters dest ++ [P.current]) q := congrFun (waiters_setQueue ..) q
    rw [hwaiters]
    by_cases hq : q = dest
    · rw [hq, Function.update_self]
    · rw [Function.update_of_ne hq]
      exact (hcourse.waiters q).trans (List.sublist_append_left ..)

namespace Rests

variable (h : P.Rests) (ht : P.Timed)
include h ht

omit ht in
/-- A process in a queue is not the current one. -/
theorem ne_of_queued {link : Link} (hp : p ∈ P.queue link) : p ≠ P.current := by
  rintro rfl
  obtain ⟨d, hd, -, hl⟩ := h.unlinked
  exact h.sound.not_mem_queue hd (by simp [hl]) hp

theorem conducts_yield : P.Conducts wants switches P.yield := by
  by_cases hi : P.current = .idle
  · have hsame : P.wake P.current = P := by rw [hi, h.sound.wake_idle]
    have hs := h.wake_current
    rw [hsame] at hs
    rw [Plain.yield, hsame]
    exact (Course.refl P).chooses ht (by simp) (by simp) hs
  · exact (Course.wake (h.held hi)).chooses ht (by simp) (by simp) h.wake_current

omit ht in
/-- The message of the current process goes to a process that accepts it. -/
theorem course_handed (hne : P.current ≠ .idle) (ha : (P.hold msg).accepts dest msg.ty = true) :
    P.Course [.delivered P.current dest { msg with sender := P.current }] [dest] (P.handed dest msg) := by
  have hhold : (P.hold msg).Rests := h.slot _ _
  have hcourse : P.Course [] [] (P.hold msg) := .modify P P.current fun _ => rfl
  exact hcourse.trans (.deliver (hhold.open_accepting hne ha) (hold_slot h.sound.current msg))

theorem conducts_send (hne : P.current ≠ .idle) (hdest : (P.process dest).isSome) (msg : Message) :
    P.Conducts wants switches (P.send dest msg) := by
  have hhold : (P.hold msg).Rests := h.slot _ _
  by_cases ha : (P.hold msg).accepts dest msg.ty
  · obtain ⟨hout, hsound, -⟩ := h.handed hne ha
    refine ⟨_, _, (P.handed dest msg).wake P.current, ((h.course_handed hne ha).trans (.wake hsound)).conduct ht ?_ ?_,
      .chooses hsound.wake (send_of_accepts ha)⟩
    · exact .self (by simpa [Event.touched] using hout)
    · simp +contextual
  · have hsome : ((P.hold msg).process dest).isSome := (modify_isSome ..).trans hdest
    exact ⟨_, _, (P.hold msg).wait .sending dest, ht.conduct_wait msg .sending dest,
      .chooses ((hhold.held hne).wait (Or.inl rfl) hsome) (send_of_waits ha)⟩

theorem conducts_sendRec (hne : P.current ≠ .idle) (hdest : (P.process dest).isSome) (msg : Message)
    (hwants : wants P.current = .reply) : P.Conducts wants switches (P.sendRec dest msg) := by
  have hhold : (P.hold msg).Rests := h.slot _ _
  by_cases ha : (P.hold msg).accepts dest msg.ty
  · obtain ⟨hout, hsound, -⟩ := h.handed hne ha
    obtain ⟨hsender, hwaiting⟩ := h.handed_sender? hne ha
    have hcourse := h.course_handed hne ha
    cases hf : P.sender? P.current .reply with
    | none =>
      -- Nobody has sent the reply early: the sender waits for it.
      have hwait := Course.awaitReply_none (hsender.trans hf)
      exact ⟨_, _, _, (hcourse.trans hwait).conduct ht (.single ..) (by simp +contextual),
        .chooses hsound.awaitReply (sendRec_of_accepts ha)⟩
    | some replier =>
      -- The reply waits in the list of the sender already: it is taken in the same step.
      obtain ⟨reply, hreply⟩ := Course.awaitReply_some hsound (hsender.trans hf)
      obtain ⟨hcur, hdest, -⟩ := hwaiting replier (sender?_some hf).1
      refine ⟨_, _, _, (hcourse.trans hreply).conduct ht ?_ fun src q m he hsrc => ?_,
        .chooses hsound.awaitReply (sendRec_of_accepts ha)⟩
      · exact .twice hout hdest.symm hcur.symm
      · rcases List.mem_append.mp he with he | he
        · simp at he
          exact absurd he.1 hsrc
        · simp at he
          obtain ⟨rfl, rfl, -⟩ := he
          rw [hwants, hf]
  · have hsome : ((P.hold msg).process dest).isSome := (modify_isSome ..).trans hdest
    exact ⟨_, _, (P.hold msg).wait .sendRec dest, ht.conduct_wait msg .sendRec dest,
      .chooses ((hhold.held hne).wait (Or.inr rfl) hsome) (sendRec_of_waits ha)⟩

/-- The current process takes the message of `src`, and `src` goes on. -/
theorem conducts_take {filter : MessageType} (hne : P.current ≠ .idle) (hf : P.sender? P.current filter = some src)
    (hwants : wants P.current = filter) (hreply : ∀ q, q ≠ P.current → wants q = .reply) :
    P.Conducts wants switches (P.take src).reschedule := by
  have hheld := h.held hne
  obtain ⟨msg, hm, -⟩ := (sender?_some hf).2
  obtain ⟨hsrc, hsound, -⟩ := hheld.taken hf hm
  obtain ⟨hsender, -⟩ := hheld.taken_sender? hf hm
  obtain ⟨d, hd, -⟩ := hheld.sender hf
  obtain ⟨hfree, msg', hm'⟩ := hheld.free_sender hf
  have hopen := hfree.swap.open_held src
  have hcourse : P.Course [.delivered src P.current { msg' with sender := src }] [P.current] (P.taken src) :=
    (Course.free P src P.current).trans (.deliver hopen hm')
  have hown : ∀ x q m, .delivered x q m ∈ [Event.delivered src P.current { msg' with sender := src }] →
      P.sender? q (wants q) = some x := by
    intro x q m he
    simp at he
    obtain ⟨rfl, rfl, -⟩ := he
    rw [hwants, hf]
  have htake := hheld.take_eq hf hm (stance_eq hd)
  suffices hconduct : ∃ es ws, P.Conduct wants es ws (P.take src) by
    obtain ⟨es, ws, hconduct⟩ := hconduct
    exact ⟨es, ws, _, hconduct, .chooses (hheld.take hf) rfl⟩
  by_cases hs : d.stance.state = .sendRec
  · rw [if_pos hs] at htake
    cases hr : P.sender? src .reply with
    | none =>
      rw [htake]
      -- The sender wants a reply that nobody has sent yet.
      have htaken := hcourse.trans (.awaitReply_none (hsender.trans hr))
      exact ⟨_, _, htaken.conduct ht (.single ..) fun x q m he _ => hown x q m (by simpa using he)⟩
    | some replier =>
      -- The sender wants a reply that waits for it already.
      obtain ⟨reply, hanswer⟩ := Course.awaitReply_some hsound (hsender.trans hr)
      have hmem := (sender?_some hr).1
      have hcur : replier ≠ P.current := fun he => (hheld.not_waiting hmem).1 (he ▸ List.mem_cons_self)
      have hne' : replier ≠ src := fun he =>
        (hsound.not_waiting (sender?_some (hsender.trans hr)).1).1 (he ▸ List.mem_cons_self)
      rw [htake]
      refine ⟨_, _, (hcourse.trans hanswer).conduct ht (.twice hsrc.symm hcur.symm hne'.symm) fun x q m he _ => ?_⟩
      rcases List.mem_append.mp he with he | he
      · exact hown x q m he
      · simp at he
        obtain ⟨rfl, rfl, -⟩ := he
        rw [hreply _ hsrc, hr]
  · rw [if_neg hs] at htake
    rw [htake]
    -- The sender wants no reply and is ready again, after the receiver.
    have hordered : InOrder [P.current, src] [P.current, src] := .self (by simpa using hsrc.symm)
    refine ⟨_, _, (hcourse.trans (.wake hsound)).conduct ht hordered fun x q m he _ => ?_⟩
    exact hown x q m (by simpa using he)

theorem conducts_receive (hne : P.current ≠ .idle) (filter : MessageType) (timeout : Option UInt32)
    (hwants : wants P.current = filter) (hreply : ∀ q, q ≠ P.current → wants q = .reply) (goes : ¬switches) :
    P.Conducts wants switches (P.receive filter timeout) := by
  have hempty : P.emptied.Rests := h.slot P.current none
  have hcourse : P.Course [] [] P.emptied := .modify P P.current fun _ => rfl
  have hopen : P.Opening [] P.emptied := ⟨rfl, hcourse.timed ht, rfl, rfl, h.emptied_sender? hne, hcourse.trace,
    (by simp), fun _ _ _ => congrFun hcourse.rank _⟩
  refine hopen.conducts ?_
  by_cases hi : P.takesInterrupt filter
  · rw [receive_of_interrupt hi]
    have hinterrupt : P.emptied.Course [] [] (P.emptied.modify P.current fun d => { d with pending := false }) :=
      .modify _ _ fun _ => rfl
    exact (hinterrupt.trans (.notify _ P.current .interrupt)).stays hopen.timed (by simp) (by simp) goes
  · cases hf : P.emptied.nextSender? filter with
    | some src =>
      rw [receive_of_sender hi hf]
      exact hempty.conducts_take hopen.timed hne (nextSender?_some hf) hwants hreply
    | none =>
      rw [receive_of_none hi hf]
      split
      · exact (Course.notify _ P.current .timeout).stays hopen.timed (by simp) (by simp) goes
      · exact (Course.block _ filter timeout).chooses hopen.timed (by simp) (by simp)
          ((hempty.held hne).block filter timeout)

theorem conducts_exit (hne : P.current ≠ .idle) : P.Conducts wants switches P.exit := by
  have hdead : P.Course [] [] (P.modify P.current fun d => { d with state := .dead }) := .modify _ _ fun _ => rfl
  exact (hdead.trans (.emit _ (e := .exited P.current) rfl)).chooses ht (by simp) (by simp) ((h.held hne).die.emit _)

omit ht in
/-- Run time is charged to the process that runs, which is in no queue. -/
theorem opening_tick (ht : P.Timed) (ms : UInt32) :
    P.Opening [] ({ P with uptime := P.uptime + ms.toNat } : Plain).charge := by
  obtain ⟨Q, hQ⟩ : ∃ Q, Q = ({ P with uptime := P.uptime + ms.toNat } : Plain) := ⟨_, rfl⟩
  have hfields : Q.charge = { P with
      process := Q.charge.process, chargedUntil := Q.uptime, uptime := Q.uptime } := by
    rw [charge_eq, hQ]
  have hne : ∀ p, p ≠ P.current → Q.charge.process p = P.process p := by
    intro p hp
    cases hl : Q.last with
    | none => rw [charge_of_none hl, hQ]
    | some q =>
      have hq : q = P.current := ht.last q (by rw [← hl, hQ])
      rw [charge_of_some hl, hQ]
      exact modify_ne (hq ▸ hp) _
  have hqueue : Q.charge.queue = P.queue := by rw [hfields]
  have hslot : Q.charge.slot = P.slot := by
    funext p
    rw [Plain.slot, Plain.slot, bind_read, bind_read, charge_read (g := (·.slot)) fun _ _ => rfl, hQ]
    rfl
  rw [← hQ]
  refine ⟨by rw [hfields], ?_, by rw [hfields], hqueue, sender?_of_slot hqueue hslot, ?_, (by simp), fun l p hp => ?_⟩
  · rw [hfields]
    exact ⟨rfl, ht.last⟩
  · rw [hfields, List.append_nil]
  · rw [rank, read, hne p (h.ne_of_queued hp), rank, read]

theorem conducts_tick (ms : UInt32) (goes : ¬switches) : P.Conducts wants switches (P.tick ms) := by
  obtain ⟨Q, hQ⟩ : ∃ Q, Q = ({ P with uptime := P.uptime + ms.toNat } : Plain).charge := ⟨_, rfl⟩
  have hopen : P.Opening [] Q := hQ ▸ h.opening_tick ht ms
  have hs : Q.Sound (inHand P.current) :=
    hQ ▸ Sound.charge (h.sound.of_same rfl rfl rfl rfl h.sound.last h.sound.current)
  have htick : P.tick ms = Q.elapse ms := by rw [hQ]; rfl
  obtain ⟨l, hl, hcourse⟩ := Course.elapse hs ms
  have htouched : (l.flatMap fun p => [Event.expired p, .notified p .timeout]).flatMap Event.touched = l := by
    rw [List.flatMap_assoc]
    simp [Event.touched]
  have hnone : ∀ src dest msg, .delivered src dest msg ∉ l.flatMap fun p => [Event.expired p, .notified p .timeout] := by
    simp
  rw [htick]
  refine hopen.conducts ⟨_, _, _, hcourse.conduct hopen.timed ?_ fun src dest msg he => absurd he (hnone src dest msg),
    .stays rfl hcourse.current goes hnone⟩
  rw [htouched]
  exact .self hl

omit h ht in
/-- The idle process stays as it is. -/
theorem not_idle_of_exit (h : P.exit.Rests) : P.current ≠ .idle := by
  intro hi
  obtain ⟨d, hd, hidle⟩ := h.sound.idle
  have hstance := stance_eq hd
  rw [stance_exit, hi, alter, Function.update_self] at hstance
  obtain ⟨a, -, ha⟩ := Option.map_eq_some_iff.mp hstance
  have hstate : State.dead = d.state := congrArg Stance.state ha
  cases hstate.trans hidle.state

theorem conducts_perform (r : Request) {lines : List Event} (hlines : ∀ e ∈ lines, e.Apart)
    (hidle : P.current = .idle → r.FitsIdle)
    (hdest : ∀ dest msg, r = .send dest msg ∨ r = .sendRec dest msg → (P.process (named dest)).isSome)
    (hafter : (P.perform lines r).Rests) : P.Conducts (r.wants P.current) r.Switches (P.perform lines r) := by
  cases r with
  | yield => exact h.conducts_yield ht
  | send dest msg => exact h.conducts_send ht hidle (hdest dest msg (.inl rfl)) msg
  | receive filter timeout =>
    refine h.conducts_receive ht hidle filter timeout (if_pos rfl) (fun q hq => if_neg hq) id
  | sendRec dest msg => exact h.conducts_sendRec ht hidle (hdest dest msg (.inr rfl)) msg rfl
  | exit => exact h.conducts_exit ht (not_idle_of_exit hafter)
  | dump =>
    have hopen : P.Opening lines (P.perform lines .dump) :=
      ⟨rfl, ⟨ht.charged, ht.last⟩, rfl, rfl, sender?_of_slot rfl rfl, rfl, hlines, fun _ _ _ => rfl⟩
    exact hopen.stays id
  | tick ms => exact h.conducts_tick ht ms id

/-! ### Other calls -/

/-- The current process may change its priority: it is in no queue. -/
theorem opening_setPriority (level : Priority) : P.Opening [] (P.setPriority level) := by
  have hslot : (P.setPriority level).slot = P.slot := slot_modify (f := fun d => { d with priority := level })
    (fun _ => rfl) P.current
  refine ⟨rfl, ⟨ht.charged, ht.last⟩, rfl, rfl, sender?_of_slot rfl hslot, (List.append_nil _).symm, (by simp),
    fun l p hp => ?_⟩
  have hsame : (P.setPriority level).process p = P.process p := modify_ne (h.ne_of_queued hp) _
  rw [rank, read, hsame, rank, read]

theorem conducts_interrupt (dest : Pid) (goes : ¬switches) : P.Conducts wants switches (P.interrupt dest) := by
  obtain ⟨c, hc⟩ : ∃ c, c = { P.counters with interrupts := P.counters.interrupts + 1 } := ⟨_, rfl⟩
  have hcounted : P.Course [] [] { P with counters := c } := .counted P c
  obtain ⟨es, ws, hcourse, hws, hnone⟩ := Course.alert (h.counted c) dest
  rw [interrupt, ← hc]
  exact (hcounted.trans hcourse).stays ht hws hnone goes

theorem conducts_launch (hr : P.running = false) : P.Conducts wants switches P.launch := by
  have hi := h.asleep hr
  have hs := h.sound
  rw [inHand, if_pos hi] at hs
  obtain ⟨Q, hQ⟩ : ∃ Q, Q = { P.emit (.launched P.size) with running := true, current := .idle } := ⟨_, rfl⟩
  have hopen : P.Opening [.launched P.size] Q := by
    rw [hQ]
    refine ⟨rfl, ⟨ht.charged, fun p hp => (ht.last p hp).trans hi⟩, hi.symm, rfl, sender?_of_slot rfl rfl, rfl, ?_,
      fun _ _ _ => rfl⟩
    simp [Event.Apart, Event.pick?, Event.touched]
  have hsound : Q.Sound [] := hQ ▸ hs.of_same rfl rfl rfl rfl hs.last ((hs.known .idle).mpr hs.inhabited)
  rw [Plain.launch, ← hQ]
  exact hopen.conducts ((Course.refl Q).chooses hopen.timed (by simp) (by simp) hsound)

omit ht in
/-- A process that is created is in no queue, and what the others have is left alone. -/
theorem opening_create (hsame : ∀ q, q ≠ Pid.ofIndex P.size → Q.process q = P.process q)
    (hslot : Q.slot (Pid.ofIndex P.size) = none) (hqueue : Q.queue = P.queue) (hpolicy : Q.policy = P.policy)
    (hcurrent : Q.current = P.current) (htrace : Q.trace = P.trace) (htimed : Q.Timed) : P.Opening [] Q := by
  have hnone := h.sound.unused.2
  have hslots : Q.slot = P.slot := by
    funext q
    by_cases hq : q = Pid.ofIndex P.size
    · rw [hq, hslot, Plain.slot, hnone, Option.bind_none]
    · exact slot_of_process (hsame q hq)
  refine ⟨hpolicy, htimed, hcurrent, hqueue, sender?_of_slot hqueue hslots, htrace.trans (List.append_nil _).symm,
    (by simp), fun l p hp => ?_⟩
  have hp : p ≠ Pid.ofIndex P.size := by
    rintro rfl
    obtain ⟨d, hd, -⟩ := (h.sound.member (.ready l) _).mp hp
    cases hnone.symm.trans hd
  rw [rank, read, hsame p hp, rank, read]

theorem conducts_start (name : String) (size : Nat) (entry arg : Word) (goes : ¬switches) :
    P.Conducts wants switches (P.start name size entry arg) := by
  obtain ⟨words, hw⟩ : ∃ words, words = stackWords (Kernel.stackSize size) := ⟨_, rfl⟩
  have hnew := P.create_self name words
  rw [Plain.start, ← hw]
  cases hframe : Frame.install? (Frame.initial entry arg P.config.exitVector)
      ((P.create name words).arena.slice ⟨P.frontier, words⟩) with
  | none =>
    -- A frame that does not fit leaves the new process as it was created, and not ready.
    have hstart : P.startWith name words entry arg = P.create name words := by
      unfold Plain.startWith
      rw [hframe]
    have hopen : P.Opening [] (P.create name words) := h.opening_create (fun q hq => P.create_ne name words hq)
      (slot_eq hnew) rfl rfl rfl rfl ⟨ht.charged, ht.last⟩
    rw [hstart]
    exact hopen.stays goes
  | some frame =>
    obtain ⟨offset, content⟩ := frame
    obtain ⟨Q, hQ⟩ : ∃ Q, Q = (P.create name words).install (Pid.ofIndex P.size) P.frontier offset content := ⟨_, rfl⟩
    have hself : Q.process (Pid.ofIndex P.size) = some { Descriptor.fresh (Pid.ofIndex P.size) name
        ⟨P.frontier, words⟩ with context := .arena (P.frontier + offset) } := hQ ▸ modify_self hnew _
    have hopen : P.Opening [] Q := by
      refine h.opening_create (fun q hq => ?_) (slot_eq hself) ?_ ?_ ?_ ?_ ?_
      · rw [hQ]
        exact (modify_ne hq _).trans (P.create_ne name words hq)
      all_goals rw [hQ]
      · rfl
      · rfl
      · rfl
      · rfl
      · exact ⟨ht.charged, ht.last⟩
    rw [startWith_eq hframe, ← hQ]
    refine hopen.conducts (((Course.wake_level hself rfl).trans
      (.emit _ (e := .started (Pid.ofIndex P.size) name (words * wordBytes)) rfl)).stays hopen.timed ?_ ?_ goes)
    · simp
    · simp

theorem conducts_serve (r : Request) {lines : List Event} (hlines : ∀ e ∈ lines, e.Apart)
    (hidle : P.current = .idle → r.FitsIdle)
    (hdest : ∀ dest msg, r = .send dest msg ∨ r = .sendRec dest msg → (P.process (named dest)).isSome)
    (hafter : (P.serve lines r).Rests) : P.Conducts (r.wants P.current) r.Switches (P.serve lines r) := by
  have hopen := ht.opening_asked r
  exact hopen.conducts ((h.asked r).conducts_perform hopen.timed r hlines hidle hdest hafter)

/-- Whoever connects is served at handler priority from now on; it is the current process, which is in no queue. -/
theorem conducts_connect (irq : Int32) (goes : ¬switches) : P.Conducts wants switches (P.connect irq) := by
  obtain ⟨Q, hQ⟩ : ∃ Q, Q = ({ P with lines := (P.lines.connect irq P.current).state } : Plain) := ⟨_, rfl⟩
  have hopen : P.Opening [] Q := hQ ▸ ⟨rfl, ⟨ht.charged, ht.last⟩, rfl, rfl, sender?_of_slot rfl rfl,
    (List.append_nil _).symm, (by simp), fun _ _ _ => rfl⟩
  have hrests : Q.Rests := hQ ▸ h.of_read (h.sound.of_same rfl rfl rfl rfl h.sound.last h.sound.current) rfl rfl rfl
  have hpriority := hrests.opening_setPriority hopen.timed .handler
  have hconnect : P.connect irq = (Q.setPriority .handler).emit (.connected irq P.current) := by
    rw [hQ]
    rfl
  rw [hconnect]
  exact hopen.conducts (hpriority.conducts ((Course.emit _ (e := .connected irq P.current) rfl).stays hpriority.timed
    (by simp) (by simp) goes))

/-- A trap is the request its frame holds, once the stack pointer is kept, or nothing. -/
theorem conducts_trap (psp : Word) (frame : TrapFrame) {lines : List Event} (hlines : ∀ e ∈ lines, e.Apart)
    (hidle : P.current = .idle → ∀ r ∈ (Call.trap psp frame).request?, r.FitsIdle)
    (hdest : ∀ dest msg, (Call.trap psp frame).request? = some (.send dest msg) ∨
      (Call.trap psp frame).request? = some (.sendRec dest msg) → (P.process (named dest)).isSome)
    (hafter : (P.after lines (.trap psp frame)).Rests) :
    P.Conducts ((Call.trap psp frame).wants P.current) (Call.trap psp frame).Switches
      (P.after lines (.trap psp frame)) := by
  cases hd : frame.decode with
  | error f =>
    rw [after_of_undecoded hd]
    exact (Course.refl P).stays ht (by simp) (by simp) (by simp [Call.Switches, Call.request?, hd, Except.toOption])
  | ok r =>
    have hrequest := Call.request?_of_decoded hd psp
    have hswitches : (Call.trap psp frame).Switches ↔ r.Switches := by simp [Call.Switches, hrequest]
    have hwants : (Call.trap psp frame).wants P.current = r.wants P.current := by
      funext q
      rw [Call.wants, hrequest]
      rfl
    have hopen := ht.opening_save psp
    rw [after_of_decoded hd] at hafter ⊢
    rw [hswitches, hwants]
    refine hopen.conducts ((h.save psp).conducts_serve hopen.timed r hlines (fun hi => hidle hi r hrequest)
      (fun dest msg hr => ?_) hafter)
    refine (modify_isSome ..).trans (hdest dest msg ?_)
    rcases hr with rfl | rfl
    · exact .inl hrequest
    · exact .inr hrequest

/-- What every call does to the lists. -/
theorem conducts (c : Call) {lines : List Event} (hlines : ∀ e ∈ lines, e.Apart)
    (hidle : P.current = .idle → ∀ r ∈ c.request?, r.FitsIdle)
    (hdest : ∀ dest msg, c.request? = some (.send dest msg) ∨ c.request? = some (.sendRec dest msg) →
      (P.process (named dest)).isSome)
    (hlaunch : c = .launch → P.running = false) (hafter : (P.after lines c).Rests) :
    P.Conducts (c.wants P.current) c.Switches (P.after lines c) := by
  cases c with
  | start name size entry arg => exact h.conducts_start ht name size entry arg (by simp [Call.Switches, Call.request?])
  | launch => exact h.conducts_launch ht (hlaunch rfl)
  | connect irq => exact h.conducts_connect ht irq (by simp [Call.Switches, Call.request?])
  | setPriority level => exact (h.opening_setPriority ht level).stays (by simp [Call.Switches, Call.request?])
  | serve r =>
    have hwants : (Call.serve r).Switches ↔ r.Switches := by simp [Call.Switches, Call.request?]
    rw [hwants]
    exact h.conducts_serve ht r hlines (fun hi => hidle hi r rfl)
      (fun dest msg hr => hdest dest msg (by simpa [Call.request?] using hr)) hafter
  | trap psp frame => exact h.conducts_trap ht psp frame hlines hidle hdest hafter
  | preempt psp =>
    have hopen := ht.opening_save psp
    exact hopen.conducts ((h.save psp).conducts_yield hopen.timed)
  | interrupt p => exact h.conducts_interrupt ht p (by simp [Call.Switches, Call.request?])
  | interruptRequest irq =>
    have hgoes : ¬(Call.interruptRequest irq).Switches := by simp [Call.Switches, Call.request?]
    cases hl : P.lines.handler irq with
    | ok p =>
      rw [after_of_handler hl]
      exact h.conducts_interrupt ht p hgoes
    | error f =>
      rw [after_of_unhandled hl]
      exact (Course.refl P).stays ht (by simp) (by simp) hgoes
  | takeMessage p =>
    exact (Course.modify P p (f := fun d => { d with slot := none }) fun _ => rfl).stays ht (by simp) (by simp)
      (by simp [Call.Switches, Call.request?])
  | pokeStack p i value =>
    have hopen : P.Opening [] (P.pokeStack p i value) := ⟨rfl, ⟨ht.charged, ht.last⟩, rfl, rfl, sender?_of_slot rfl rfl,
      (List.append_nil _).symm, (by simp), fun _ _ _ => rfl⟩
    exact hopen.stays (by simp [Call.Switches, Call.request?])

end Rests

end Plain

end Rendezvous
