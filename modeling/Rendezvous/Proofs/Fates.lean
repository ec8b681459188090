import Rendezvous.Proofs.Queues
import Rendezvous.Proofs.Roles
import Rendezvous.Proofs.Stances

/-! # What a call does to a process

Everything a call can do to the process that runs, and everything it can do to another one. What holds of processes
along a run follows from these cases alone. -/

namespace Rendezvous

namespace Call

/-- The process that an interrupt is for, if the call is one. -/
def signal? (lines : InterruptLines) : Call → Option Pid
  | .interrupt p => some p
  | .interruptRequest irq => (lines.handler irq).toOption
  | _ => none

theorem signal?_of_request {c : Call} {r : Request} (h : c.request? = some r) (lines : InterruptLines) :
    c.signal? lines = none := by
  cases c with
  | serve _ | trap _ _ => rfl
  | _ => cases h

end Call

/-- Who waits for a reply takes nothing else. -/
theorem MessageType.eq_reply_of_accepts {ty : MessageType} (h : reply.accepts ty = true) : ty = reply := by
  have hty : reply = any ∨ reply = ty := by simpa [accepts] using h
  exact (hty.resolve_left (by decide)).symm

/-- The message that a request sends, with the process that it names. -/
def Request.outgoing? : Request → Option (Pid × Message)
  | .send dest msg | .sendRec dest msg => some (Plain.named dest, msg)
  | _ => none

namespace Plain

/-- What a call makes of a process that does not run. -/
inductive Fate (P : Plain) (c : Call) (p : Pid) (a : Stance) : Stance → Prop
  | same (unsent : ∀ r ∈ c.request?, ∀ msg, r.outgoing? = some (p, msg) → a.accepts msg.ty = false)
      (unsignalled : c.signal? P.lines ≠ some p) : Fate P c p a a
  /-- The process that runs sends it a message that it waits for. -/
  | sent (r : Request) (msg : Message) (request : c.request? = some r) (outgoing : r.outgoing? = some (p, msg))
      (accepts : a.accepts msg.ty = true) : Fate P c p a (a.got { msg with sender := P.current })
  /-- An interrupt comes that it waits for. -/
  | interrupted (signal : c.signal? P.lines = some p) (accepts : a.accepts .interrupt = true) :
      Fate P c p a (a.got (.new .interrupt))
  | alerted (signal : c.signal? P.lines = some p) (unwanted : a.accepts .interrupt = false) :
      Fate P c p a { a with pending := true }
  /-- Its deadline has passed. -/
  | expired (ms : UInt32) (due : Int) (request : c.request? = some (.tick ms)) (receiving : a.state = .receiving)
      (deadline : a.deadline = some due) (passed : due < P.timeouts.ticks) : Fate P c p a (a.got (.new .timeout))
  /-- Its deadline counts from a later time. -/
  | counted (ms : UInt32) (due left : Int) (request : c.request? = some (.tick ms)) (deadline : a.deadline = some due) :
      Fate P c p a { a with deadline := some left }
  /-- Its message, which is no request, is taken. -/
  | released (r : Request) (request : c.request? = some r) (untimed : ∀ ms, r ≠ .tick ms)
      (blocked : a.state = .sending) : Fate P c p a a.released
  /-- Its request is taken by the process that runs, and no reply is there yet. -/
  | asked (filter : MessageType) (timeout : Option UInt32) (request : c.request? = some (.receive filter timeout))
      (blocked : a.state = .sendRec) (unanswered : P.sender? p .reply = none) :
      Fate P c p a (a.holding none).awaiting
  /-- Its request is taken, and a reply that was there already comes back for it. -/
  | answered (filter : MessageType) (timeout : Option UInt32) (replier : Pid) (reply : Message)
      (request : c.request? = some (.receive filter timeout)) (blocked : a.state = .sendRec)
      (sender : P.sender? p .reply = some replier) (slot : P.slot replier = some reply) :
      Fate P c p a (a.got { reply with sender := replier })

/-- What a call makes of the process that runs. -/
inductive Turn (P : Plain) (c : Call) (a : Stance) : Stance → Prop
  | idle (fits : ∀ r ∈ c.request?, r.FitsIdle) (unsignalled : c.signal? P.lines ≠ some P.current) : Turn P c a a
  | took (request : c.request? = none) : Turn P c a (a.holding none)
  | alerted (signal : c.signal? P.lines = some P.current) : Turn P c a { a with pending := true }
  | exited (request : c.request? = some .exit) : Turn P c a { a with state := .dead }
  /-- It sends a message that is taken at once, or it is blocked with it. -/
  | sent (dest : Int32) (msg : Message) (request : c.request? = some (.send dest msg)) : Turn P c a a.released
  | sends (dest : Int32) (msg : Message) (request : c.request? = some (.send dest msg)) :
      Turn P c a { a with state := .sending, slot := some msg }
  | asks (dest : Int32) (msg : Message) (request : c.request? = some (.sendRec dest msg)) :
      Turn P c a { a with state := .sendRec, slot := some msg }
  /-- Its request is taken at once, and it waits for the reply, or finds it there already. -/
  | awaits (dest : Int32) (msg : Message) (request : c.request? = some (.sendRec dest msg))
      (unanswered : P.sender? P.current .reply = none) : Turn P c a (a.holding none).awaiting
  | answered (dest : Int32) (msg : Message) (replier : Pid) (reply : Message)
      (request : c.request? = some (.sendRec dest msg)) (sender : P.sender? P.current .reply = some replier)
      (slot : P.slot replier = some reply) : Turn P c a (a.got { reply with sender := replier })
  /-- It takes a pending interrupt, a message, or nothing if it does not wait. -/
  | interrupted (filter : MessageType) (timeout : Option UInt32) (request : c.request? = some (.receive filter timeout))
      (accepts : filter.accepts .interrupt = true) (pending : a.pending = true) :
      Turn P c a { a with pending := false, slot := some (.new .interrupt) }
  | received (filter : MessageType) (timeout : Option UInt32) (src : Pid) (msg : Message)
      (request : c.request? = some (.receive filter timeout)) (sender : P.sender? P.current filter = some src)
      (slot : P.slot src = some msg) : Turn P c a (a.got { msg with sender := src })
  | expired (filter : MessageType) (request : c.request? = some (.receive filter (some 0))) :
      Turn P c a (a.holding (some (.new .timeout)))
  /-- Nothing that it wants is there, and it waits. -/
  | blocks (filter : MessageType) (timeout : Option UInt32) (deadline : Option Int)
      (request : c.request? = some (.receive filter timeout)) (timed : deadline.isSome = timeout.isSome)
      (uninterrupted : a.pending = true → filter.accepts .interrupt = false)
      (unsent : filter ≠ .interrupt → P.sender? P.current filter = none) :
      Turn P c a { a with state := .receiving, filter := filter, slot := none, deadline := deadline }

variable {P Q : Plain} {b : Boxes} {hand : List Pid} {c : Call} {r : Request} {p src dest : Pid} {a a' : Stance}
  {msg : Message} {filter : MessageType} {timeout : Option UInt32}

theorem Fate.same_of_request (hc : c.request? = some r)
    (hout : ∀ msg, r.outgoing? = some (p, msg) → a.accepts msg.ty = false) : P.Fate c p a a := by
  refine .same (fun r' hr' msg hmsg => ?_) ?_
  · obtain rfl := Option.some_inj.mp (hc.symm.trans hr')
    exact hout msg hmsg
  · rw [Call.signal?_of_request hc]
    exact fun h => by cases h

theorem Turn.idle_of_request (hc : c.request? = some r) (hr : r.FitsIdle) : P.Turn c a a := by
  refine .idle (fun r' hr' => ?_) ?_
  · obtain rfl := Option.some_inj.mp (hc.symm.trans hr')
    exact hr
  · rw [Call.signal?_of_request hc]
    exact fun h => by cases h

/-! ### By state -/

section
variable (h : P.Fate c p a a')
include h

/-- An interrupt for a process is taken at once or becomes pending. -/
theorem Fate.of_signal (hs : c.signal? P.lines = some p) :
    a.accepts .interrupt = true ∧ a' = a.got (.new .interrupt) ∨
      a.accepts .interrupt = false ∧ a' = { a with pending := true } := by
  have hnone : ∀ r, c.request? ≠ some r := fun r hr => by
    cases (Call.signal?_of_request hr P.lines).symm.trans hs
  cases h with
  | interrupted _ accepts => exact .inl ⟨accepts, rfl⟩
  | alerted _ unwanted => exact .inr ⟨unwanted, rfl⟩
  | same _ unsignalled => exact absurd hs unsignalled
  | sent _ _ request | expired _ _ request | counted _ _ _ request | released _ request | asked _ _ request
  | answered _ _ _ _ request => exact absurd request (hnone _)

/-- Time does nothing to a process without a deadline. -/
theorem Fate.of_tick {ms : UInt32} (hr : c.request? = some (.tick ms)) (hd : a.deadline = none) : a' = a := by
  have hsignal := Call.signal?_of_request hr P.lines
  cases h with
  | same => rfl
  | expired _ due _ _ deadline => cases hd.symm.trans deadline
  | counted _ due _ _ deadline => cases hd.symm.trans deadline
  | sent r msg request outgoing =>
    obtain rfl := Option.some_inj.mp (hr.symm.trans request)
    cases outgoing
  | released r request untimed => exact absurd (Option.some_inj.mp (request.symm.trans hr)) (untimed ms)
  | interrupted signal | alerted signal => cases hsignal.symm.trans signal
  | asked _ _ request | answered _ _ _ _ request => cases hr.symm.trans request

/-- A process gets a deadline by no call of another one. -/
theorem Fate.deadline (hd : a.deadline = none) : a'.deadline = none := by
  cases h with
  | counted _ due _ _ deadline => cases hd.symm.trans deadline
  | sent | interrupted | expired | answered => rfl
  | same | alerted | released | asked => exact hd

/-- An active process keeps what it has. -/
theorem Fate.of_active (ha : a.state = .active) : a'.state = .active ∧ a'.slot = a.slot := by
  have hwants : ∀ ty, a.accepts ty ≠ true := fun ty hacc => by cases ha.symm.trans (Stance.receiving_of_accepts hacc)
  cases h with
  | same | alerted | counted => exact ⟨ha, rfl⟩
  | sent _ msg _ _ accepts => exact absurd accepts (hwants msg.ty)
  | interrupted _ accepts => exact absurd accepts (hwants .interrupt)
  | expired _ _ _ receiving => cases ha.symm.trans receiving
  | released _ _ _ blocked | asked _ _ _ blocked | answered _ _ _ _ _ blocked => cases ha.symm.trans blocked

/-- A process that is blocked in a request goes on to wait for the reply when the request is taken, or has it. -/
theorem Fate.of_sendRec (ha : a.state = .sendRec) :
    a'.state = .sendRec ∨ a' = (a.holding none).awaiting ∨
      ∃ replier reply, P.sender? p .reply = some replier ∧ P.slot replier = some reply ∧
        a' = a.got { reply with sender := replier } := by
  have hwants : ∀ ty, a.accepts ty ≠ true := fun ty hacc => by cases ha.symm.trans (Stance.receiving_of_accepts hacc)
  cases h with
  | same | alerted | counted => exact .inl ha
  | asked => exact .inr (.inl rfl)
  | answered _ _ replier reply _ _ sender slot => exact .inr (.inr ⟨replier, reply, sender, slot, rfl⟩)
  | sent _ msg _ _ accepts => exact absurd accepts (hwants msg.ty)
  | interrupted _ accepts => exact absurd accepts (hwants .interrupt)
  | expired _ _ _ receiving => cases ha.symm.trans receiving
  | released _ _ _ blocked => cases ha.symm.trans blocked

/-- A process that waits goes on to wait until a message, an interrupt or its deadline ends the wait. -/
theorem Fate.of_receiving (ha : a.state = .receiving) :
    (a'.state = .receiving ∧ a'.filter = a.filter ∧ a'.slot = a.slot ∧ a'.deadline.isSome = a.deadline.isSome) ∨
      (∃ r msg, c.request? = some r ∧ r.outgoing? = some (p, msg) ∧ a.filter.accepts msg.ty = true ∧
        a' = a.got { msg with sender := P.current }) ∨
      (c.signal? P.lines = some p ∧ a.filter.accepts .interrupt = true ∧ a' = a.got (.new .interrupt)) ∨
      ∃ ms due, c.request? = some (.tick ms) ∧ a.deadline = some due ∧ due < P.timeouts.ticks ∧
        a' = a.got (.new .timeout) := by
  cases h with
  | same | alerted => exact .inl ⟨ha, rfl, rfl, rfl⟩
  | counted _ due left _ deadline => exact .inl ⟨ha, rfl, rfl, by rw [deadline]; rfl⟩
  | sent r msg request outgoing accepts =>
    exact .inr (.inl ⟨r, msg, request, outgoing, a.accepts_of_receiving ha _ ▸ accepts, rfl⟩)
  | interrupted signal accepts => exact .inr (.inr (.inl ⟨signal, Stance.accepts_of_receiving ha _ ▸ accepts, rfl⟩))
  | expired ms due request _ deadline passed => exact .inr (.inr (.inr ⟨ms, due, request, deadline, passed, rfl⟩))
  | released _ _ _ blocked | asked _ _ _ blocked | answered _ _ _ _ _ blocked => cases ha.symm.trans blocked

/-- A process that waits after a call of another one has been sent nothing in it that it accepts. -/
theorem Fate.unsent (hs : a'.state = .receiving) {r : Request} (hr : c.request? = some r)
    (hmsg : r.outgoing? = some (p, msg)) : a'.accepts msg.ty = false := by
  -- Neither an interrupt nor a tick nor a receive carries a message.
  have hcarries : ∀ r', c.request? = some r' → r'.outgoing? = none → a'.accepts msg.ty = false := fun r' hr' hnone => by
    obtain rfl := Option.some_inj.mp (hr'.symm.trans hr)
    cases hnone.symm.trans hmsg
  cases h with
  | same unsent _ => exact unsent r hr msg hmsg
  | alerted signal _ => cases (Call.signal?_of_request hr P.lines).symm.trans signal
  | counted ms due left request deadline => exact hcarries _ request rfl
  | asked filter timeout request blocked unanswered => exact hcarries _ request rfl
  | sent | interrupted | expired | released | answered => cases hs

end

section
variable (h : P.Turn c a a')
include h

/-- A process that sends a request is blocked in it, waits for the reply or has it. -/
theorem Turn.of_sendRec {register : Int32} (hr : c.request? = some (.sendRec register msg)) :
    a'.state = .sendRec ∧ a'.deadline = a.deadline ∨ a' = (a.holding none).awaiting ∨
      ∃ replier reply, P.sender? P.current .reply = some replier ∧ P.slot replier = some reply ∧
        a' = a.got { reply with sender := replier } := by
  cases h with
  | asks => exact .inl ⟨rfl, rfl⟩
  | awaits => exact .inr (.inl rfl)
  | answered _ _ replier reply _ sender slot => exact .inr (.inr ⟨replier, reply, sender, slot, rfl⟩)
  | idle fits => exact absurd (fits _ hr) id
  | alerted signal => cases (Call.signal?_of_request hr P.lines).symm.trans signal
  | took request | exited request | sent _ _ request | sends _ _ request | interrupted _ _ request
  | received _ _ _ _ request | expired _ request | blocks _ _ _ request => cases hr.symm.trans request

/-- A receive that leaves its process waiting has found nothing. -/
theorem Turn.of_receive (hr : c.request? = some (.receive filter timeout)) (ha : a.state ≠ .receiving)
    (hs : a'.state = .receiving) : a'.filter = filter ∧ a'.slot = none ∧ a'.deadline.isSome = timeout.isSome := by
  cases h with
  | blocks f t deadline request timed =>
    obtain ⟨rfl, rfl⟩ := Request.receive.inj (Option.some_inj.mp (request.symm.trans hr))
    exact ⟨rfl, rfl, timed⟩
  | awaits _ _ request => cases hr.symm.trans request
  | idle | took | alerted | interrupted | expired => exact absurd hs ha
  | exited | sent | sends | asks | answered | received => cases hs

/-- A process gets a deadline in a receive only. -/
theorem Turn.deadline (hr : ∀ filter timeout, c.request? ≠ some (.receive filter timeout)) (hd : a.deadline = none) :
    a'.deadline = none := by
  cases h with
  | blocks filter timeout _ request => exact absurd request (hr filter timeout)
  | answered | received => rfl
  | idle | took | alerted | exited | sent | sends | asks | awaits | interrupted | expired => exact hd

theorem Turn.of_tick {ms : UInt32} (hr : c.request? = some (.tick ms)) : a' = a := by
  cases h with
  | idle => rfl
  | alerted signal => cases (Call.signal?_of_request hr P.lines).symm.trans signal
  | took request | exited request | sent _ _ request | sends _ _ request | asks _ _ request | awaits _ _ request
  | answered _ _ _ _ request | interrupted _ _ request | received _ _ _ _ request | expired _ request
  | blocks _ _ _ request => cases hr.symm.trans request

end

/-- What is taken out of a waiting list as a reply is one, and its sender has not asked for anything. -/
theorem Mail.replier (h : P.Mail hand b) (hs : P.Sound hand) (hf : P.sender? dest .reply = some src) :
    ∃ reply a, P.slot src = some reply ∧ reply.ty = .reply ∧ P.stance src = some a ∧ a.state = .sending := by
  obtain ⟨reply, asks, hoffers, hacc, hstate⟩ := h.offers hs hf
  have hty := MessageType.eq_reply_of_accepts hacc
  have hslot : P.slot src = some reply := by rw [← h.slot, hoffers, Box.slot]
  cases asks with
  | true => exact absurd hty (h.asks src dest reply hoffers)
  | false =>
    obtain ⟨d, hd, hdstate⟩ := Option.map_eq_some_iff.mp hstate
    exact ⟨reply, d.stance, hslot, hty, stance_eq hd, hdstate⟩

/-! ### Receiving -/

/-- All but the current process are as they were when it has emptied its slot. -/
theorem Rests.emptied_sender? (h : P.Rests) (hne : P.current ≠ .idle) (dest : Pid) (filter : MessageType) :
    P.emptied.sender? dest filter = P.sender? dest filter := by
  have hqueue : P.emptied.queue (.waiting dest) = P.queue (.waiting dest) := rfl
  refine sender?_congr hqueue (fun x hx => ?_) filter
  have hcur : x ≠ P.current := fun hc => ((h.held hne).not_waiting hx).1 (hc ▸ List.mem_cons_self)
  exact modify_ne hcur _

/-- Nobody is found when the current process wants messages and has emptied its slot. -/
theorem Rests.unsent_of_emptied (h : P.Rests) (hne : P.current ≠ .idle) (hf : P.emptied.nextSender? filter = none)
    (hfilter : filter ≠ .interrupt) : P.sender? P.current filter = none := by
  rw [← h.emptied_sender? hne, ← hf, nextSender?, if_neg hfilter]
  rfl

/-- A sender that is found is there after the current process has emptied its slot, as before. -/
theorem Rests.emptied_sender (h : P.Rests) (hne : P.current ≠ .idle) (hf : P.sender? P.current filter = some src)
    (hm : P.slot src = some msg) (ha : P.stance src = some a) :
    P.emptied.sender? P.current filter = some src ∧ P.emptied.slot src = some msg ∧ P.emptied.stance src = some a := by
  have hsrc : src ≠ P.current := fun hc =>
    ((h.held hne).not_waiting (sender?_some hf).1).1 (hc ▸ List.mem_cons_self)
  have hsame : P.emptied.process src = P.process src := modify_ne hsrc _
  exact ⟨(h.emptied_sender? hne P.current filter).trans hf, (slot_of_process hsame).trans hm,
    (stance_of_process hsame).trans ha⟩

theorem stance_emptied (P : Plain) : P.emptied.stance = alter P.stance P.current (.holding none) :=
  stance_slot P P.current none

theorem stance_receive_interrupt (hi : P.takesInterrupt filter = true) : (P.receive filter timeout).stance =
    alter P.stance P.current fun a => { a with pending := false, slot := some (.new .interrupt) } := by
  rw [receive_of_interrupt hi, stance_notify,
    stance_modify (f := fun d => { d with pending := false }) (g := fun a => { a with pending := false }) (fun _ => rfl),
    stance_emptied, alter_alter, alter_alter]
  rfl

theorem stance_receive_poll (hi : ¬P.takesInterrupt filter = true) (hf : P.emptied.nextSender? filter = none) :
    (P.receive filter (some 0)).stance = alter P.stance P.current (.holding (some (.new .timeout))) := by
  rw [receive_of_none hi hf, if_pos rfl, stance_notify, stance_emptied, alter_alter]
  rfl

theorem Rests.stance_receive_block (h : P.Rests) (hne : P.current ≠ .idle) (hi : ¬P.takesInterrupt filter = true)
    (hf : P.emptied.nextSender? filter = none) (ht : timeout ≠ some 0) :
    (P.receive filter timeout).stance = alter P.stance P.current fun a => { a with
      state := .receiving
      filter := filter
      slot := none
      deadline := timeout.map fun ms => saturate (P.timeouts.ticks + saturate ms.toNat) } := by
  have hempties : P.emptied.Rests := h.slot P.current none
  rw [receive_of_none hi hf, if_neg ht, stance_reschedule,
    Sound.stance_block (P := P.emptied) (hempties.held hne) filter timeout, stance_emptied]
  exact alter_alter ..

/-- What a receive does: it takes an interrupt, takes the message of a sender, gives up at once or blocks. -/
theorem Rests.receive_cases (h : P.Rests) (hne : P.current ≠ .idle) (filter : MessageType) (timeout : Option UInt32) :
    (∃ d, P.process P.current = some d ∧ d.pending = true ∧ filter.accepts .interrupt = true ∧
      (P.receive filter timeout).stance = alter P.stance P.current fun a =>
        { a with pending := false, slot := some (.new .interrupt) }) ∨
    (∃ src, P.sender? P.current filter = some src ∧ (P.receive filter timeout).stance = (P.emptied.take src).stance) ∨
    (timeout = some 0 ∧ (P.receive filter timeout).stance =
      alter P.stance P.current (.holding (some (.new .timeout)))) ∨
    ((∀ d, P.process P.current = some d → d.pending = true → filter.accepts .interrupt = false) ∧
      (filter ≠ .interrupt → P.sender? P.current filter = none) ∧ ∃ deadline : Option Int,
        deadline.isSome = timeout.isSome ∧ (P.receive filter timeout).stance = alter P.stance P.current fun a =>
          { a with state := .receiving, filter := filter, slot := none, deadline := deadline }) := by
  obtain ⟨d, hd⟩ := Option.isSome_iff_exists.mp h.sound.current
  have hself : P.emptied.process P.current = some { d with slot := none } := modify_self hd _
  by_cases hi : P.takesInterrupt filter
  · have htakes : d.pending = true ∧ filter.accepts .interrupt = true := by
      simpa [takesInterrupt, hself] using hi
    exact .inl ⟨d, hd, htakes.1, htakes.2, stance_receive_interrupt hi⟩
  · right
    cases hf : P.emptied.nextSender? filter with
    | some src =>
      refine .inl ⟨src, (h.emptied_sender? hne _ filter).symm.trans (nextSender?_some hf), ?_⟩
      rw [receive_of_sender hi hf, stance_reschedule]
    | none =>
      right
      by_cases ht : timeout = some 0
      · exact .inl ⟨ht, ht ▸ stance_receive_poll hi hf⟩
      · refine .inr ⟨fun e he hp => ?_, h.unsent_of_emptied hne hf, _, ?_, h.stance_receive_block hne hi hf ht⟩
        · obtain rfl := Option.some_inj.mp (hd.symm.trans he)
          simpa [takesInterrupt, hself, hp] using hi
        · exact Option.isSome_map

/-- How the current process takes the message of `src`, who goes on if it has sent it for good, and waits for the reply
or finds it if it has asked for one. -/
theorem Rests.take_cases (h : P.Rests) (hne : P.current ≠ .idle) (hf : P.sender? P.current filter = some src)
    (hm : P.slot src = some msg) (ha : P.stance src = some a) :
    src ≠ P.current ∧
    (a.state = .sending ∧ (P.emptied.take src).stance =
      alter (alter P.stance src .released) P.current (.got { msg with sender := src }) ∨
    a.state = .sendRec ∧ P.sender? src .reply = none ∧ (P.emptied.take src).stance =
      alter (alter P.stance src (.awaiting ∘ .holding none)) P.current (.got { msg with sender := src }) ∨
    a.state = .sendRec ∧ ∃ replier reply, P.sender? src .reply = some replier ∧ P.slot replier = some reply ∧
      replier ≠ src ∧ replier ≠ P.current ∧ (P.emptied.take src).stance =
        alter (alter (alter P.stance replier .released) src (.got { reply with sender := replier })) P.current
          (.got { msg with sender := src })) := by
  have hempties : P.emptied.Rests := h.slot P.current none
  have hheld : P.emptied.Sound (P.emptied.current :: []) := hempties.held hne
  have hcurrent : P.emptied.current = P.current := rfl
  obtain ⟨hf', hslot, hstance⟩ := h.emptied_sender hne hf hm ha
  obtain ⟨hin, hstates⟩ := (h.held hne).not_waiting (sender?_some hf).1
  -- The current process is in no list.
  have hsrc : src ≠ P.current := fun hc => hin (hc ▸ List.mem_cons_self)
  refine ⟨hsrc, ?_⟩
  rcases hstates a ha with hs | hs
  · refine .inl ⟨hs, ?_⟩
    rw [hheld.stance_take hf' hslot hstance hs, stance_emptied, hcurrent, alter_comm hsrc.symm, alter_alter]
    rfl
  · right
    cases hreply : P.sender? src .reply with
    | none =>
      refine .inl ⟨hs, rfl, ?_⟩
      rw [hheld.stance_take_request hf' hslot hstance hs ((h.emptied_sender? hne src .reply).trans hreply),
        stance_emptied, hcurrent, alter_comm hsrc.symm, alter_alter]
      rfl
    | some replier =>
      obtain ⟨hmem, reply, hrslot, -⟩ := sender?_some hreply
      have hrcur : replier ≠ P.current := fun hc => ((h.held hne).not_waiting hmem).1 (hc ▸ List.mem_cons_self)
      have hrslot' : P.emptied.slot replier = some reply := (slot_of_process (modify_ne hrcur _)).trans hrslot
      obtain ⟨hrsrc, -, htake⟩ := hheld.stance_take_answered hf' hslot hstance hs
        ((h.emptied_sender? hne src .reply).trans hreply) hrslot'
      refine .inr ⟨hs, replier, reply, rfl, hrslot, hrsrc, hrcur, ?_⟩
      rw [htake, stance_emptied, hcurrent, alter_comm hrcur.symm, alter_comm hsrc.symm, alter_alter]
      rfl

theorem Rests.fate_receive (h : P.Rests) (hm : P.Mail [] b) (hne : P.current ≠ .idle)
    (hc : c.request? = some (.receive filter timeout)) (hp : p ≠ P.current) (ha : P.stance p = some a) :
    ∃ a', (P.receive filter timeout).stance p = some a' ∧ P.Fate c p a a' := by
  have hsame : P.Fate c p a a := .same_of_request hc fun msg hmsg => by cases hmsg
  rcases h.receive_cases hne filter timeout with ⟨-, -, -, -, hst⟩ | ⟨src, hf, hst⟩ | ⟨-, hst⟩ |
    ⟨-, -, _, -, hst⟩
  · exact ⟨a, by rw [hst, alter_ne hp, ha], hsame⟩
  · obtain ⟨hmem, msg, hslot, -⟩ := sender?_some hf
    obtain ⟨d, hd, -⟩ := (h.held hne).waiter hmem
    obtain ⟨-, ⟨hs, htake⟩ | ⟨hs, hnone, htake⟩ | ⟨hs, replier, reply, hreplier, hreply, hrsrc, -, htake⟩⟩ :=
      h.take_cases hne hf hslot (stance_eq hd)
    · rw [hst, htake, alter_ne hp]
      by_cases hsrc : p = src
      · subst hsrc
        obtain rfl := Option.some_inj.mp ((stance_eq hd).symm.trans ha)
        exact ⟨_, alter_self ha _, .released _ hc nofun hs⟩
      · exact ⟨a, by rw [alter_ne hsrc, ha], hsame⟩
    · rw [hst, htake, alter_ne hp]
      by_cases hsrc : p = src
      · subst hsrc
        obtain rfl := Option.some_inj.mp ((stance_eq hd).symm.trans ha)
        exact ⟨_, alter_self ha _, .asked filter timeout hc hs hnone⟩
      · exact ⟨a, by rw [alter_ne hsrc, ha], hsame⟩
    · rw [hst, htake, alter_ne hp]
      by_cases hsrc : p = src
      · subst hsrc
        obtain rfl := Option.some_inj.mp ((stance_eq hd).symm.trans ha)
        refine ⟨_, alter_self ?_ _, .answered filter timeout replier reply hc hs hreplier hreply⟩
        rw [alter_ne hrsrc.symm, ha]
      · rw [alter_ne hsrc]
        by_cases hr : p = replier
        · subst hr
          -- The replier has sent its reply for good, so it is released in the same step.
          obtain ⟨-, e, -, -, he, hstate⟩ := (hm.take P.current).replier (h.held hne) hreplier
          obtain rfl := Option.some_inj.mp (he.symm.trans ha)
          exact ⟨_, alter_self ha _, .released _ hc nofun hstate⟩
        · exact ⟨a, by rw [alter_ne hr, ha], hsame⟩
  · exact ⟨a, by rw [hst, alter_ne hp, ha], hsame⟩
  · exact ⟨a, by rw [hst, alter_ne hp, ha], hsame⟩

/-! ### Sending -/

theorem Rests.fate_send (h : P.Rests) (hne : P.current ≠ .idle) {register : Int32}
    (hc : c.request? = some (.send register msg)) (hp : p ≠ P.current) (ha : P.stance p = some a) :
    ∃ a', (P.send (named register) msg).stance p = some a' ∧ P.Fate c p a a' := by
  by_cases hacc : (P.hold msg).accepts (named register) msg.ty = true
  · rw [(h.stance_send hne hacc).2]
    by_cases hd : p = named register
    · subst hd
      rw [hold_accepts hp ha] at hacc
      refine ⟨_, alter_self ?_ _, .sent _ msg hc rfl hacc⟩
      rw [alter_ne hp, ha]
    · refine ⟨a, by rw [alter_ne hd, alter_ne hp, ha], .same_of_request hc fun msg' hmsg => ?_⟩
      exact absurd (Prod.mk.inj (Option.some_inj.mp hmsg)).1.symm hd
  · rw [stance_send_waits hacc, alter_ne hp]
    refine ⟨a, ha, .same_of_request hc fun msg' hmsg => ?_⟩
    obtain ⟨rfl, rfl⟩ := Prod.mk.inj (Option.some_inj.mp hmsg)
    rw [hold_accepts hp ha] at hacc
    simpa using hacc

theorem Rests.fate_sendRec (h : P.Rests) (hm : P.Mail [] b) (hne : P.current ≠ .idle) {register : Int32}
    (hc : c.request? = some (.sendRec register msg)) (hp : p ≠ P.current) (ha : P.stance p = some a) :
    ∃ a', (P.sendRec (named register) msg).stance p = some a' ∧ P.Fate c p a a' := by
  by_cases hacc : (P.hold msg).accepts (named register) msg.ty = true
  · have hsent : p = named register → P.Fate c p a (a.got { msg with sender := P.current }) := fun hd => by
      subst hd
      rw [hold_accepts hp ha] at hacc
      exact .sent _ msg hc rfl hacc
    have hsame : p ≠ named register → P.Fate c p a a := fun hd => .same_of_request hc fun msg' hmsg =>
      absurd (Prod.mk.inj (Option.some_inj.mp hmsg)).1.symm hd
    cases hreply : P.sender? P.current .reply with
    | none =>
      rw [(h.stance_sendRec hne hacc hreply).2]
      by_cases hd : p = named register
      · refine ⟨_, ?_, hsent hd⟩
        rw [← hd]
        exact alter_self ((alter_ne hp _).trans ha) _
      · exact ⟨a, by rw [alter_ne hd, alter_ne hp, ha], hsame hd⟩
    | some replier =>
      -- A reply that was sent early is taken from its sender in the same step.
      obtain ⟨reply, e, hslot, -, he, hstate⟩ := (hm.take P.current).replier (h.held hne) hreply
      obtain ⟨-, -, hrdest, hst⟩ := h.stance_sendRec_answered hne hacc hreply hslot
      rw [hst]
      by_cases hd : p = named register
      · refine ⟨_, ?_, hsent hd⟩
        rw [← hd] at hrdest ⊢
        exact alter_self (by rw [alter_ne hp, alter_ne hrdest.symm, ha]) _
      · rw [alter_ne hd, alter_ne hp]
        by_cases hr : p = replier
        · subst hr
          obtain rfl := Option.some_inj.mp (he.symm.trans ha)
          exact ⟨_, alter_self ha _, .released _ hc nofun hstate⟩
        · exact ⟨a, by rw [alter_ne hr, ha], hsame hd⟩
  · rw [stance_sendRec_waits hacc, alter_ne hp]
    refine ⟨a, ha, .same_of_request hc fun msg' hmsg => ?_⟩
    obtain ⟨rfl, rfl⟩ := Prod.mk.inj (Option.some_inj.mp hmsg)
    rw [hold_accepts hp ha] at hacc
    simpa using hacc

/-! ### Time and interrupts -/

theorem Rests.stance_tick (h : P.Rests) (ms : UInt32) (ha : P.stance p = some a) :
    (P.tick ms).stance p = some a ∨
      (∃ due left, a.deadline = some due ∧ (P.tick ms).stance p = some { a with deadline := some left }) ∨
      ∃ due, a.deadline = some due ∧ due < P.timeouts.ticks ∧ a.state = .receiving ∧
        (P.tick ms).stance p = some (a.got (.new .timeout)) := by
  have hs : ({ P with uptime := P.uptime + ms.toNat } : Plain).Sound (inHand P.current) :=
    h.sound.of_same rfl rfl rfl rfl h.sound.last h.sound.current
  have hticks : ({ P with uptime := P.uptime + ms.toNat } : Plain).charge.timeouts = P.timeouts := by rw [charge_eq]
  have hstance : ({ P with uptime := P.uptime + ms.toNat } : Plain).charge.stance p = some a := by
    rw [stance, charge_read fun _ _ => rfl]
    exact ha
  have helapse := hs.charge.stance_elapse ms hstance
  rwa [hticks] at helapse

theorem Rests.fate_tick (h : P.Rests) {ms : UInt32} (hc : c.request? = some (.tick ms)) (ha : P.stance p = some a) :
    ∃ a', (P.tick ms).stance p = some a' ∧ P.Fate c p a a' := by
  rcases h.stance_tick ms ha with hst | ⟨due, left, hdue, hst⟩ | ⟨due, hdue, hpassed, hstate, hst⟩
  · exact ⟨a, hst, .same_of_request hc fun _ hmsg => by cases hmsg⟩
  · exact ⟨_, hst, .counted ms due left hc hdue⟩
  · exact ⟨_, hst, .expired ms due hc hstate hdue hpassed⟩

theorem interrupt_ne {q : Pid} (hp : p ≠ q) : (P.interrupt q).process p = P.process p := by
  unfold interrupt alert
  split
  · exact alarm_ne _ .interrupt hp
  · split
    · rfl
    · exact modify_ne hp _

/-- What an interrupt does to the process that it is for. -/
theorem Rests.stance_interrupt (h : P.Rests) (ha : P.stance p = some a) :
    (P.interrupt p).stance p =
      some (if a.accepts .interrupt then a.got (.new .interrupt) else { a with pending := true }) := by
  have hcounted := h.counted { P.counters with interrupts := P.counters.interrupts + 1 }
  have halter := congrFun (hcounted.stance_alert p ha) p
  rw [interrupt, halter]
  split <;> exact alter_self ha _

theorem Rests.fate_interrupt (h : P.Rests) {q : Pid} (hc : c.request? = none) (hs : c.signal? P.lines = some q)
    (ha : P.stance p = some a) : ∃ a', (P.interrupt q).stance p = some a' ∧ P.Fate c p a a' := by
  by_cases hp : p = q
  · subst hp
    refine ⟨_, h.stance_interrupt ha, ?_⟩
    by_cases hacc : a.accepts .interrupt = true
    · rw [if_pos hacc]
      exact .interrupted hs hacc
    · rw [if_neg hacc]
      exact .alerted hs (by simpa using hacc)
  · refine ⟨a, (stance_of_process (interrupt_ne hp)).trans ha, .same (fun r hr => ?_) fun hsig => ?_⟩
    · rw [hc] at hr
      cases hr
    · exact hp (Option.some_inj.mp (hsig.symm.trans hs))

/-! ### Calls -/

/-- The kernels agree in all that the cases tell of. -/
structure Alike (P Q : Plain) : Prop where
  current : Q.current = P.current
  ticks : Q.timeouts.ticks = P.timeouts.ticks
  lines : Q.lines = P.lines
  stance : Q.stance = P.stance
  slot : Q.slot = P.slot
  queue : Q.queue = P.queue

namespace Alike

theorem sender? (h : Alike P Q) (dest : Pid) (filter : MessageType) : Q.sender? dest filter = P.sender? dest filter :=
  sender?_of_slot h.queue h.slot dest filter

theorem fate (h : Alike P Q) (hf : Q.Fate c p a a') : P.Fate c p a a' := by
  cases hf with
  | same unsent unsignalled => exact .same unsent (h.lines ▸ unsignalled)
  | sent r msg request outgoing accepts => exact h.current ▸ .sent r msg request outgoing accepts
  | interrupted signal accepts => exact .interrupted (h.lines ▸ signal) accepts
  | alerted signal unwanted => exact .alerted (h.lines ▸ signal) unwanted
  | expired ms due request receiving deadline passed =>
    exact .expired ms due request receiving deadline (h.ticks ▸ passed)
  | counted ms due left request deadline => exact .counted ms due left request deadline
  | released r request untimed blocked => exact .released r request untimed blocked
  | asked filter timeout request blocked unanswered =>
    exact .asked filter timeout request blocked (h.sender? p .reply ▸ unanswered)
  | answered filter timeout replier reply request blocked sender slot =>
    exact .answered filter timeout replier reply request blocked (h.sender? p .reply ▸ sender) (h.slot ▸ slot)

theorem turn (h : Alike P Q) (hf : Q.Turn c a a') : P.Turn c a a' := by
  have hsender := h.sender? P.current
  cases hf with
  | idle fits unsignalled => exact .idle fits (h.lines ▸ h.current ▸ unsignalled)
  | took request => exact .took request
  | alerted signal => exact .alerted (h.lines ▸ h.current ▸ signal)
  | exited request => exact .exited request
  | sent dest msg request => exact .sent dest msg request
  | sends dest msg request => exact .sends dest msg request
  | asks dest msg request => exact .asks dest msg request
  | awaits dest msg request unanswered =>
    rw [h.current, hsender] at unanswered
    exact .awaits dest msg request unanswered
  | answered dest msg replier reply request sender slot =>
    rw [h.current, hsender] at sender
    exact .answered dest msg replier reply request sender (h.slot ▸ slot)
  | interrupted filter timeout request accepts pending => exact .interrupted filter timeout request accepts pending
  | received filter timeout src msg request sender slot =>
    rw [h.current, hsender] at sender
    exact .received filter timeout src msg request sender (h.slot ▸ slot)
  | expired filter request => exact .expired filter request
  | blocks filter timeout deadline request timed uninterrupted unsent =>
    rw [h.current, hsender] at unsent
    exact .blocks filter timeout deadline request timed uninterrupted unsent

theorem asked (P : Plain) (r : Request) : Alike P (P.asked r) := ⟨rfl, rfl, rfl, rfl, rfl, rfl⟩

theorem save (P : Plain) (psp : Word) : Alike P (P.save psp) :=
  ⟨rfl, rfl, rfl, stance_save P psp,
    slot_modify (f := fun d => { d with context := Arena.locate psp }) (fun _ => rfl) _, rfl⟩

end Alike

namespace Rests

/-- The process that runs is active, or idle, and has no deadline. -/
theorem stance_current (h : P.Rests) (ha : P.stance P.current = some a) :
    a.deadline = none ∧ a.state ≠ .receiving ∧ (P.current ≠ .idle → a.state = .active) := by
  obtain ⟨d, hd, rfl⟩ := stance_eq_some ha
  by_cases hi : P.current = .idle
  · have hidle := (h.sound.fits _ d hd).idle hi
    exact ⟨hidle.deadline, fun hs => (by cases hidle.state.symm.trans hs), fun hne => absurd hi hne⟩
  · have hactive := h.active d hd hi
    have hheld := (h.held hi).stance_deadline List.mem_cons_self ha
    exact ⟨hheld, fun hs => (by cases hactive.symm.trans hs), fun _ => hactive⟩

/-- A call serves a request, interrupts a process, takes a message, or leaves all stances as they are. -/
theorem after_cases (h : P.Rests) (lines : List Event) (c : Call) :
    (∃ r Q, c.request? = some r ∧ P.after lines c = Plain.serve Q lines r ∧ Q.Rests ∧ Alike P Q ∧ Still P Q) ∨
    (∃ q, c.request? = none ∧ c.signal? P.lines = some q ∧ P.after lines c = P.interrupt q) ∨
    (∃ q, c = .takeMessage q) ∨
    c.request? = none ∧ c.signal? P.lines = none ∧ ∀ p a, P.stance p = some a → (P.after lines c).stance p = some a := by
  cases c with
  | serve r => exact .inl ⟨r, P, rfl, rfl, h, ⟨rfl, rfl, rfl, rfl, rfl, rfl⟩, .refl P⟩
  | trap psp frame =>
    cases hd : frame.decode with
    | ok r =>
      exact .inl ⟨r, P.save psp, Call.request?_of_decoded hd psp, after_of_decoded hd lines psp, h.save psp,
        .save P psp, .save P psp⟩
    | error f =>
      refine .inr (.inr (.inr ⟨Call.request?_of_undecoded hd psp, rfl, fun p a ha => ?_⟩))
      rw [after_of_undecoded hd, ha]
  | interrupt q => exact .inr (.inl ⟨q, rfl, rfl, rfl⟩)
  | interruptRequest irq =>
    cases hl : P.lines.handler irq with
    | ok q => exact .inr (.inl ⟨q, rfl, by rw [Call.signal?, hl]; rfl, after_of_handler hl lines⟩)
    | error f =>
      refine .inr (.inr (.inr ⟨rfl, by rw [Call.signal?, hl]; rfl, fun p a ha => ?_⟩))
      rw [after_of_unhandled hl, ha]
  | takeMessage q => exact .inr (.inr (.inl ⟨q, rfl⟩))
  | start name size entry arg =>
    exact .inr (.inr (.inr ⟨rfl, rfl, fun p a ha => h.sound.stance_start ha name size entry arg⟩))
  | launch => exact .inr (.inr (.inr ⟨rfl, rfl, fun p a ha => (congrFun (stance_launch P) p).trans ha⟩))
  | connect irq =>
    have hsame := stance_setPriority { P with lines := (P.lines.connect irq P.current).state } .handler
    exact .inr (.inr (.inr ⟨rfl, rfl, fun p a ha => (congrFun hsame p).trans ha⟩))
  | setPriority level =>
    exact .inr (.inr (.inr ⟨rfl, rfl, fun p a ha => (congrFun (stance_setPriority P level) p).trans ha⟩))
  | preempt psp => exact .inr (.inr (.inr ⟨rfl, rfl, fun p a ha => (congrFun (h.stance_preempt psp) p).trans ha⟩))
  | pokeStack q i value => exact .inr (.inr (.inr ⟨rfl, rfl, fun p a ha => ha⟩))

theorem fate_perform (h : P.Rests) (hm : P.Mail [] b) (lines : List Event) (hidle : P.current = .idle → r.FitsIdle)
    (hc : c.request? = some r) (hp : p ≠ P.current) (ha : P.stance p = some a) :
    ∃ a', (P.perform lines r).stance p = some a' ∧ P.Fate c p a a' := by
  cases r with
  | yield => exact ⟨a, (congrFun h.stance_yield p).trans ha, .same_of_request hc fun _ hmsg => by cases hmsg⟩
  | send dest msg => exact h.fate_send hidle hc hp ha
  | receive filter timeout => exact h.fate_receive hm hidle hc hp ha
  | sendRec dest msg => exact h.fate_sendRec hm hidle hc hp ha
  | exit =>
    refine ⟨a, ?_, .same_of_request hc fun _ hmsg => by cases hmsg⟩
    rw [perform, stance_exit, alter_ne hp, ha]
  | dump => exact ⟨a, ha, .same_of_request hc fun _ hmsg => by cases hmsg⟩
  | tick ms => exact h.fate_tick hc ha

theorem fate_serve (h : P.Rests) (hm : P.Mail [] b) (lines : List Event) (hidle : P.current = .idle → r.FitsIdle)
    (hc : c.request? = some r) (hp : p ≠ P.current) (ha : P.stance p = some a) :
    ∃ a', (P.serve lines r).stance p = some a' ∧ P.Fate c p a a' := by
  obtain ⟨a', hst, hfate⟩ := (h.asked r).fate_perform (hm.of_still (.asked P r)) lines hidle hc hp ha
  exact ⟨a', hst, (Alike.asked P r).fate hfate⟩

/-- What a call does to a process that does not run. -/
theorem fate (h : P.Rests) (hm : P.Mail [] b) (lines : List Event)
    (hidle : P.current = .idle → ∀ r ∈ c.request?, r.FitsIdle)
    (hown : ∀ q, c = .takeMessage q → q = P.current) (hp : p ≠ P.current) (ha : P.stance p = some a) :
    ∃ a', (P.after lines c).stance p = some a' ∧ P.Fate c p a a' := by
  rcases h.after_cases lines c with ⟨r, Q, hr, hafter, hQ, hlike, hstill⟩ | ⟨q, hr, hs, hafter⟩ | ⟨q, rfl⟩ |
    ⟨hr, hs, hafter⟩
  · obtain ⟨a', hst, hfate⟩ := hQ.fate_serve (hm.of_still hstill) lines (fun hi => hidle (hlike.current ▸ hi) r hr) hr
      (hlike.current ▸ hp) (hlike.stance ▸ ha)
    exact ⟨a', by rw [hafter, hst], hlike.fate hfate⟩
  · rw [hafter]
    exact h.fate_interrupt hr hs ha
  · obtain rfl := hown q rfl
    refine ⟨a, (stance_of_process (modify_ne hp _)).trans ha, .same (fun r hr => by cases hr) fun hs => by cases hs⟩
  · refine ⟨a, hafter p a ha, .same (fun r hmem => ?_) fun hsig => ?_⟩
    · rw [hr] at hmem
      cases hmem
    · rw [hs] at hsig
      cases hsig

/-! ### The process that runs -/

theorem turn_send (h : P.Rests) (hne : P.current ≠ .idle) {register : Int32}
    (hc : c.request? = some (.send register msg)) (ha : P.stance P.current = some a) :
    ∃ a', (P.send (named register) msg).stance P.current = some a' ∧ P.Turn c a a' := by
  by_cases hacc : (P.hold msg).accepts (named register) msg.ty = true
  · obtain ⟨hout, hst⟩ := h.stance_send hne hacc
    refine ⟨_, ?_, .sent register msg hc⟩
    rw [hst, alter_ne hout.symm, alter_self ha]
  · refine ⟨_, ?_, .sends register msg hc⟩
    rw [stance_send_waits hacc, alter_self ha]

theorem turn_sendRec (h : P.Rests) (hne : P.current ≠ .idle) {register : Int32}
    (hc : c.request? = some (.sendRec register msg)) (ha : P.stance P.current = some a) :
    ∃ a', (P.sendRec (named register) msg).stance P.current = some a' ∧ P.Turn c a a' := by
  by_cases hacc : (P.hold msg).accepts (named register) msg.ty = true
  · cases hreply : P.sender? P.current .reply with
    | none =>
      obtain ⟨hout, hst⟩ := h.stance_sendRec hne hacc hreply
      refine ⟨_, ?_, .awaits register msg hc hreply⟩
      rw [hst, alter_ne hout.symm, alter_self ha]
      rfl
    | some replier =>
      obtain ⟨-, reply, hslot, -⟩ := sender?_some hreply
      obtain ⟨hout, hcur, -, hst⟩ := h.stance_sendRec_answered hne hacc hreply hslot
      refine ⟨_, ?_, .answered register msg replier reply hc hreply hslot⟩
      rw [hst, alter_ne hout.symm]
      exact alter_self ((alter_ne hcur.symm _).trans ha) _
  · refine ⟨_, ?_, .asks register msg hc⟩
    rw [stance_sendRec_waits hacc, alter_self ha]

theorem turn_receive (h : P.Rests) (hne : P.current ≠ .idle) (hc : c.request? = some (.receive filter timeout))
    (ha : P.stance P.current = some a) :
    ∃ a', (P.receive filter timeout).stance P.current = some a' ∧ P.Turn c a a' := by
  obtain ⟨d, hd, rfl⟩ := stance_eq_some ha
  rcases h.receive_cases hne filter timeout with ⟨e, he, hpending, haccepts, hst⟩ | ⟨src, hf, hst⟩ | ⟨rfl, hst⟩ |
    ⟨huninterrupted, hunsent, deadline, htimed, hst⟩
  · obtain rfl := Option.some_inj.mp (hd.symm.trans he)
    exact ⟨_, by rw [hst, alter_self ha], .interrupted filter timeout hc haccepts hpending⟩
  · obtain ⟨hmem, msg, hslot, -⟩ := sender?_some hf
    obtain ⟨e, he, -⟩ := (h.held hne).waiter hmem
    refine ⟨_, ?_, .received filter timeout src msg hc hf hslot⟩
    obtain ⟨hsrc, ⟨-, htake⟩ | ⟨-, -, htake⟩ | ⟨-, replier, reply, -, -, -, hrcur, htake⟩⟩ :=
      h.take_cases hne hf hslot (stance_eq he)
    · rw [hst, htake]
      exact alter_self ((alter_ne hsrc.symm _).trans ha) _
    · rw [hst, htake]
      exact alter_self ((alter_ne hsrc.symm _).trans ha) _
    · rw [hst, htake]
      exact alter_self ((alter_ne hsrc.symm _).trans ((alter_ne hrcur.symm _).trans ha)) _
  · exact ⟨_, by rw [hst, alter_self ha], .expired filter hc⟩
  · exact ⟨_, by rw [hst, alter_self ha], .blocks filter timeout deadline hc htimed (huninterrupted d hd) hunsent⟩

theorem turn_perform (h : P.Rests) (lines : List Event) (hidle : P.current = .idle → r.FitsIdle)
    (hc : c.request? = some r) (ha : P.stance P.current = some a) :
    ∃ a', (P.perform lines r).stance P.current = some a' ∧ P.Turn c a a' := by
  cases r with
  | yield => exact ⟨a, (congrFun h.stance_yield _).trans ha, .idle_of_request hc trivial⟩
  | send dest msg => exact h.turn_send hidle hc ha
  | receive filter timeout => exact h.turn_receive hidle hc ha
  | sendRec dest msg => exact h.turn_sendRec hidle hc ha
  | exit =>
    refine ⟨_, ?_, .exited hc⟩
    rw [perform, stance_exit, alter_self ha]
  | dump => exact ⟨a, ha, .idle_of_request hc trivial⟩
  | tick ms =>
    have hnone := (h.stance_current ha).1
    rcases h.stance_tick ms ha with hst | ⟨due, -, hdue, -⟩ | ⟨due, hdue, -⟩
    · exact ⟨a, hst, .idle_of_request hc trivial⟩
    · cases hnone.symm.trans hdue
    · cases hnone.symm.trans hdue

theorem turn_serve (h : P.Rests) (lines : List Event) (hidle : P.current = .idle → r.FitsIdle)
    (hc : c.request? = some r) (ha : P.stance P.current = some a) :
    ∃ a', (P.serve lines r).stance P.current = some a' ∧ P.Turn c a a' := by
  obtain ⟨a', hst, hturn⟩ := (h.asked r).turn_perform lines hidle hc ha
  exact ⟨a', hst, (Alike.asked P r).turn hturn⟩

theorem turn_interrupt (h : P.Rests) {q : Pid} (hc : c.request? = none) (hs : c.signal? P.lines = some q)
    (ha : P.stance P.current = some a) : ∃ a', (P.interrupt q).stance P.current = some a' ∧ P.Turn c a a' := by
  by_cases hq : P.current = q
  · have hwants : a.accepts .interrupt = false := by simp [Stance.accepts, (h.stance_current ha).2.1]
    subst hq
    refine ⟨_, h.stance_interrupt ha, ?_⟩
    rw [hwants]
    exact .alerted hs
  · refine ⟨a, (stance_of_process (interrupt_ne hq)).trans ha, .idle (fun r hr => ?_) fun hsig => ?_⟩
    · rw [hc] at hr
      cases hr
    · exact hq (Option.some_inj.mp (hsig.symm.trans hs))

/-- What a call does to the process that runs. -/
theorem turn (h : P.Rests) (lines : List Event) (hidle : P.current = .idle → ∀ r ∈ c.request?, r.FitsIdle)
    (hown : ∀ q, c = .takeMessage q → q = P.current) (ha : P.stance P.current = some a) :
    ∃ a', (P.after lines c).stance P.current = some a' ∧ P.Turn c a a' := by
  rcases h.after_cases lines c with ⟨r, Q, hr, hafter, hQ, hlike, -⟩ | ⟨q, hr, hs, hafter⟩ | ⟨q, rfl⟩ | ⟨hr, hs, hafter⟩
  · obtain ⟨a', hst, hturn⟩ := hQ.turn_serve lines (fun hi => hidle (hlike.current ▸ hi) r hr) hr
      (hlike.current.symm ▸ hlike.stance ▸ ha)
    rw [hlike.current] at hst
    exact ⟨a', by rw [hafter, hst], hlike.turn hturn⟩
  · rw [hafter]
    exact h.turn_interrupt hr hs ha
  · obtain rfl := hown q rfl
    exact ⟨_, (congrFun (stance_slot P P.current none) _).trans (alter_self ha _), .took rfl⟩
  · refine ⟨a, hafter _ a ha, .idle (fun r hmem => ?_) fun hsig => ?_⟩
    · rw [hr] at hmem
      cases hmem
    · rw [hs] at hsig
      cases hsig

end Rests

end Plain

/-- What a process waits for and what it has got. -/
def Kernel.stance (k : Kernel) (p : Pid) : Option Stance := (k.process? p).map Descriptor.stance

theorem Kernel.Shows.stance {k : Kernel} {P : Plain} (h : k.Shows P) : P.stance = k.stance := by
  funext p
  rw [Plain.stance, Plain.read, h.process, Table.plain, Option.map_map]
  rfl

theorem Kernel.stance_eq {k : Kernel} {p : Pid} {d : Descriptor} (h : k.process? p = some d) :
    k.stance p = some d.stance := by
  rw [stance, h, Option.map_some]

theorem Kernel.stance_eq_some {k : Kernel} {p : Pid} {a : Stance} (h : k.stance p = some a) :
    ∃ d, k.process? p = some d ∧ d.stance = a :=
  Option.map_eq_some_iff.mp h

theorem Kernel.state?_eq {k : Kernel} {p : Pid} {a : Stance} (h : k.stance p = some a) : k.state? p = some a.state := by
  obtain ⟨d, hd, rfl⟩ := Kernel.stance_eq_some h
  rw [Kernel.state?, hd]
  rfl

theorem Kernel.Boxed.queued {k : Kernel} (h : k.Boxed) {p : Pid} {d : Descriptor} {link : Link}
    (hd : k.process? p = some d) (hl : d.link = some link) : k.Queued p link := by
  obtain ⟨P, hk, -⟩ := h
  exact hk.queued hd hl

/-- An active process that does not run is in the ready queue of its priority. -/
theorem Kernel.Boxed.ready {k : Kernel} (h : k.Boxed) {p : Pid} {d : Descriptor} (hd : k.process? p = some d)
    (hs : d.state = .active) (hne : p ≠ k.current) : ∃ l, d.priority.level? = some l ∧ k.Queued p (.ready l) := by
  obtain ⟨l, hl, hlink⟩ := h.inRoles.ready p d hd hne hs
  exact ⟨l, hl, h.queued hd hlink⟩

/-- A process that waits for a message has nothing else in its box. -/
theorem Kernel.Boxed.box_of_receiving {k : Kernel} (h : k.Boxed) {p : Pid} {a : Stance} (ha : k.stance p = some a)
    (hs : a.state = .receiving) : k.box p = .wanting := by
  obtain ⟨P, hk, -, hm⟩ := h
  rw [← hk.stance] at ha
  obtain ⟨d, hd, rfl⟩ := Plain.stance_eq_some ha
  exact hm.wants hd hs List.not_mem_nil

/-- A process that is blocked in a request holds it out. -/
theorem Kernel.Boxed.box_of_sendRec {k : Kernel} (h : k.Boxed) {p : Pid} {a : Stance} (ha : k.stance p = some a)
    (hs : a.state = .sendRec) : ∃ dest msg, k.box p = .offering dest msg true := by
  obtain ⟨d, hd, rfl⟩ := Kernel.stance_eq_some ha
  have hstate : d.state = .sendRec := hs
  obtain ⟨dest, hlink, -⟩ := (h.inRoles.sending p d hd).mp (.inr hs)
  obtain ⟨msg, hslot⟩ := Option.isSome_iff_exists.mp (h.inRoles.outgoing p d hd (.inr hs))
  refine ⟨dest, msg, ?_⟩
  rw [Kernel.box, hd, Option.map_some, Option.getD_some, Descriptor.box, hlink, hslot, hstate]

/-- A process that neither is blocked nor waits keeps what is in its slot. -/
theorem Kernel.box_of_settled {k : Kernel} {p : Pid} {a : Stance} (ha : k.stance p = some a)
    (sending : a.state ≠ .sending) (sendRec : a.state ≠ .sendRec) (receiving : a.state ≠ .receiving) :
    k.box p = .keeping a.slot := by
  obtain ⟨d, hd, rfl⟩ := Kernel.stance_eq_some ha
  rw [Kernel.box, hd, Option.map_some, Option.getD_some]
  unfold Descriptor.box
  split
  · rename_i hs _ _
    exact absurd hs sending
  · rename_i hs _ _
    exact absurd hs sendRec
  · rename_i hs
    exact absurd hs receiving
  · rfl

/-- An active process keeps what is in its slot. -/
theorem Kernel.box_of_active {k : Kernel} {p : Pid} {a : Stance} (ha : k.stance p = some a) (hs : a.state = .active) :
    k.box p = .keeping a.slot := by
  refine Kernel.box_of_settled ha ?_ ?_ ?_ <;> simp [hs]

/-- A process that waits after a call was there before it. -/
theorem Kernel.Boxed.former {k k' : Kernel} {c : Call} {answer : Answer} (h : k.Boxed) (hc : c.Admissible k)
    (hok : (k.call c).outcome = .ok (answer, k')) {p : Pid} {a : Stance} (ha : k'.stance p = some a)
    (hs : a.state = .receiving) : ∃ b, k.stance p = some b := by
  obtain ⟨hboxed, hpath⟩ := h.call hc hok
  have hwants := hboxed.box_of_receiving ha hs
  obtain ⟨P, hk, hrest, hm⟩ := h
  rw [← hk.stance]
  cases hp : P.process p with
  | some d => exact ⟨_, Plain.stance_eq hp⟩
  | none =>
    have hne : p ≠ k.current := fun hcur => by
      have hsome := hrest.sound.current
      rw [hk.current, ← hcur, hp] at hsome
      cases hsome
    have hrests := hpath.rests ((Function.update_of_ne hne ..).trans (hm.absent hp List.not_mem_nil)) hne
    cases hwants.symm.trans hrests

/-- What a call that returns does to each process, told by the cases. -/
theorem Kernel.Boxed.fates {k k' : Kernel} {c : Call} {answer : Answer} (h : k.Boxed) (hc : c.Admissible k)
    (hok : (k.call c).outcome = .ok (answer, k')) :
    ∃ P, k.Shows P ∧ P.Rests ∧ P.Mail [] k.box ∧ ∀ p a, k.stance p = some a → ∃ a', k'.stance p = some a' ∧
      (p ≠ k.current → P.Fate c p a a') ∧ (p = k.current → P.Turn c a a') := by
  obtain ⟨P, hk, hrest, hm⟩ := h
  obtain ⟨lines, hk', -⟩ := hk.call_ok hrest hc.1 hok
  have hcur := hk.current
  have hidle : P.current = .idle → ∀ r ∈ c.request?, r.FitsIdle := fun hi => hc.1.fitsIdle (hcur ▸ hi)
  have hown : ∀ q, c = .takeMessage q → q = P.current := by
    rintro q rfl
    rw [hcur]
    exact hc.2
  refine ⟨P, hk, hrest, hm, fun p a ha => ?_⟩
  rw [← hk.stance] at ha
  rw [← hk'.stance, ← hcur]
  by_cases hp : p = P.current
  · subst hp
    obtain ⟨a', hst, hturn⟩ := hrest.turn (lines.map .dumped) hidle hown ha
    exact ⟨a', hst, fun hne => absurd rfl hne, fun _ => hturn⟩
  · obtain ⟨a', hst, hfate⟩ := hrest.fate hm (lines.map .dumped) hidle hown hp ha
    exact ⟨a', hst, fun _ => hfate, fun he => absurd he hp⟩

/-- The process that an interrupt in this step is for, if there is one. -/
def Step.signal? (s : Step) : Option Pid := s.call.signal? s.before.lines

namespace Run

variable {config : Config} {steps : List Step} {k : Kernel} {i : Nat} {s : Step}

/-- What every step of a run does to each process. -/
theorem fates (h : Run Call.Admissible config steps k) (hs : steps[i]? = some s) :
    ∃ P, s.before.Shows P ∧ P.Rests ∧ P.Mail [] s.before.box ∧ ∀ p a, s.before.stance p = some a →
      ∃ a', s.after.stance p = some a' ∧ (p ≠ s.before.current → P.Fate s.call p a a') ∧
        (p = s.before.current → P.Turn s.call a a') :=
  have hstep := h.step hs
  hstep.1.boxed.fates hstep.2.1 hstep.2.2

theorem stance_of_current (h : Run Call.Admissible config steps k) (hs : steps[i]? = some s) :
    ∃ a, s.before.stance s.before.current = some a := by
  obtain ⟨P, hk, hrest, -⟩ := h.fates hs
  obtain ⟨d, hd⟩ := Option.isSome_iff_exists.mp hrest.sound.current
  exact ⟨d.stance, by rw [← hk.stance, ← hk.current, Plain.stance_eq hd]⟩

end Run

end Rendezvous
