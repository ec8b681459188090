import Rendezvous.Proofs.Fates
import Rendezvous.Proofs.Queues

/-! # Early replies

A reply may be queued on a process before the request of that process is taken. When the request is taken, the reply goes
to the process at once and both it and the sender of the reply are made ready; unlike a receiver, the kernel does not look
at the state of that sender. In no run is there anything that it could find. -/

namespace Rendezvous

namespace Kernel

open Traced

/-! ### The moment when a request has been taken

What is done for a call, up to the moment when a request has been taken if it comes to that: only a request of its own and
a receive let the kernel make a process wait for a reply. What is left then is to finish. -/

/-- Carries out a request of the current process, up to that moment. -/
def beginPerform (k : Kernel) : Request → Traced (Stage Kernel)
  | .sendRec dest msg => k.beginSendRec dest msg
  | .receive filter timeout => k.beginReceive filter timeout
  | request => return .done (← k.perform request)

/-- The answer of a call that returns to the process that runs. -/
def returning (k : Kernel) : Traced (Answer × Kernel) := return (.address (← k.resume), k)

/-- Notes a request and carries it out, up to that moment. -/
def beginServe (k : Kernel) (request : Request) : Traced (Stage (Answer × Kernel)) := do
  let k ← k.note request
  match ← k.beginPerform request with
  | .done k => return .done (← k.returning)
  | .taken k asker taker => return .taken k asker taker

/-- Makes a call, up to the moment when the request of a process has been taken if it comes to that. -/
def beginCall (k : Kernel) : Call → Traced (Stage (Answer × Kernel))
  | .serve request => k.beginServe request
  | .trap psp frame => do
    let (k, request) ← k.openTrap psp frame
    k.beginServe request
  | c => return .done (← k.call c)

theorem perform_eq (k : Kernel) (r : Request) : k.perform r = k.beginPerform r >>= Stage.finish pure := by
  cases r with
  | sendRec dest msg => rfl
  | receive filter timeout => rfl
  | _ => simp only [beginPerform, bind_assoc, pure_bind, Stage.finish, bind_pure]

theorem serve_eq (k : Kernel) (r : Request) :
    (k.serve r >>= fun done => pure (done.map .address id)) = k.beginServe r >>= Stage.finish returning := by
  unfold serve beginServe
  simp only [bind_assoc, perform_eq]
  refine bind_congr fun _ => bind_congr fun stage => ?_
  cases stage with
  | done k₁ =>
    simp only [Stage.finish, returning, bind_assoc, pure_bind]
    rfl
  | taken k₁ asker taker =>
    simp only [Stage.finish, returning, bind_assoc, pure_bind, bind_pure]
    rfl

/-- A call is what is done up to that moment and what is left to do then. -/
theorem call_eq (k : Kernel) (c : Call) : k.call c = k.beginCall c >>= Stage.finish returning := by
  cases c with
  | serve r => exact k.serve_eq r
  | trap psp frame =>
    unfold call beginCall trap
    simp only [bind_assoc]
    exact bind_congr fun opened => serve_eq opened.1 opened.2
  | _ => simp only [beginCall, bind_assoc, pure_bind, Stage.finish, bind_pure]

end Kernel

namespace Plain

/-- What holds when `taker` has just taken the request of `asker`: the taker runs or is ready, and the asker is in hand
and wants a reply. -/
structure Taken (P : Plain) (b : Boxes) (asker taker : Pid) : Prop where
  sound : P.Sound [asker]
  mail : P.Mail [asker] b
  got : ∃ a, P.stance taker = some a ∧ a.state = .active
  running : P.running = true

variable {P : Plain} {b : Boxes} {asker taker src dest : Pid} {msg : Message}

/-- A process that waits for a message takes the request of the process that runs. -/
theorem Rests.taken_handed (h : P.Rests) (hm : P.Mail [] b) (hne : P.current ≠ .idle) (hr : P.running = true)
    (hty : msg.ty ≠ .reply) (ha : (P.hold msg).accepts dest msg.ty = true) :
    ∃ b', (P.handed dest msg).Taken b' P.current dest := by
  have hhold : (P.hold msg).Rests := h.slot _ _
  obtain ⟨hout, hsound, hstance⟩ := h.handed hne ha
  obtain ⟨-, d, hd, hreceiving⟩ := hhold.accepts ha
  obtain ⟨-, b', -, hmail, hbox⟩ := (hm.hold h dest msg true fun _ => hty).hand_over (hhold.held hne)
    (Function.update_self ..) hout hd hreceiving
  have hnear : (P.hold msg).Near (P.handed dest msg) := (Near.refl _).deliver dest P.current
  have hdest : P.stance dest = some d.stance := stance_eq ((modify_ne hout _).symm.trans hd)
  have hgot : (P.handed dest msg).stance dest = some (d.stance.got { msg with sender := P.current }) := by
    rw [hstance]
    exact alter_self ((alter_ne hout _).trans hdest) _
  exact ⟨b', hsound, hmail, ⟨_, hgot, rfl⟩, hnear.running.trans hr⟩

/-- The process that runs takes the request that `src` holds out to it. -/
theorem Mail.taken_accepted (hm : P.Mail [src, P.current] b) (hs : P.Sound [src, P.current]) (hr : P.running = true)
    (offers : b src = .offering P.current msg true) (empty : b P.current = .keeping none) :
    ∃ b', (P.deliver P.current src).Taken b' src P.current := by
  have hslot : P.slot src = some msg := by rw [← hm.slot, offers, Box.slot]
  have hne : src ≠ P.current := by
    rintro rfl
    cases offers.symm.trans empty
  have hopen := hs.swap.open_held src
  obtain ⟨-, hmail⟩ := hm.swap.deliver hopen (hs.hand src List.mem_cons_self) offers hne (.inr ⟨rfl, empty⟩)
  have hnear : P.Near (P.deliver P.current src) := (Near.refl P).deliver P.current src
  obtain ⟨d, hd⟩ := Option.isSome_iff_exists.mp hs.current
  have hgot : (P.deliver P.current src).stance P.current = some (d.stance.got { msg with sender := src }) := by
    rw [hopen.stance_deliver hslot]
    exact alter_self ((alter_ne hne.symm _).trans (stance_eq hd)) _
  exact ⟨_, hopen.deliver hslot, hmail, ⟨_, hgot, rfl⟩, hnear.running.trans hr⟩

/-- Whoever has queued a reply on the asker is blocked in a send, and so is neither the asker nor the taker. -/
theorem Taken.replier (h : P.Taken b asker taker) (hf : P.sender? asker .reply = some src) :
    src ≠ asker ∧ src ≠ taker ∧
      ∃ d reply, P.process src = some d ∧ d.state = .sending ∧ d.slot = some reply ∧ reply.ty = .reply := by
  obtain ⟨reply, a, hslot, hty, ha, hsending⟩ := h.mail.replier h.sound hf
  obtain ⟨d, hd, rfl⟩ := stance_eq_some ha
  refine ⟨?_, ?_, d, reply, hd, hsending, (slot_eq hd).symm.trans hslot, hty⟩
  · rintro rfl
    exact (h.sound.not_waiting (sender?_some hf).1).1 List.mem_cons_self
  · rintro rfl
    obtain ⟨a', ha', hactive⟩ := h.got
    obtain rfl := Option.some_inj.mp (ha.symm.trans ha')
    cases hsending.symm.trans hactive

/-- Both the asker and the replier are active when the reply has been handed over. -/
theorem Taken.woken (h : P.Taken b asker taker) (hf : P.sender? asker .reply = some src) {p : Pid}
    (hp : p = asker ∨ p = src) : p ≠ .idle ∧ ∃ a, (P.awaitReply asker).stance p = some a ∧ a.state = .active := by
  obtain ⟨hne, -, d, reply, hd, -, hreply, -⟩ := h.replier hf
  obtain ⟨e, he, -⟩ := h.sound.found List.mem_cons_self
  obtain ⟨hfree, -⟩ := h.sound.free_sender hf
  have hstance := h.sound.stance_awaitReply hf ((slot_eq hd).trans hreply)
  rcases hp with rfl | rfl
  · refine ⟨h.sound.ne_idle List.mem_cons_self, e.stance.got { reply with sender := src }, ?_, rfl⟩
    rw [hstance]
    exact alter_self ((alter_ne hne.symm _).trans (stance_eq he)) _
  · refine ⟨hfree.ne_idle List.mem_cons_self, d.stance.released, ?_, rfl⟩
    rw [hstance, alter_ne hne]
    exact alter_self (stance_eq hd) _

end Plain

namespace Kernel

open Traced

variable {k k₁ k₂ : Kernel} {P : Plain} {b : Boxes} {asker taker src : Pid} {msg : Message} {asks : Bool}

namespace Shows

theorem taken_of_sendRec (h : k.Shows P) (hrest : P.Rests) (hm : P.Mail [] b) (hne : P.current ≠ .idle)
    (hr : P.running = true) {register : Int32} {msg : Message}
    (hok : (k.beginSendRec register msg).outcome = .ok (.taken k₁ asker taker)) :
    ∃ Q b', k₁.Shows Q ∧ Q.Taken b' asker taker := by
  obtain ⟨dest, hdest, hrestok⟩ := bind_eq_ok.mp hok
  have hl := findDest_ok hdest
  by_cases hty : msg.ty = .reply
  · rw [if_pos hty] at hrestok
    cases hrestok
  by_cases ha : (P.hold msg).accepts dest msg.ty = true
  · obtain ⟨k₂, heq, h₂⟩ := (h.beginSendRec_taken hrest hne hl hty ha).shows hok
    cases heq
    obtain ⟨b', htaken⟩ := hrest.taken_handed hm hne hr hty ha
    exact ⟨P.handed taker msg, b', h₂, htaken⟩
  · obtain ⟨k₂, heq, -⟩ := (h.beginSendRec_done hrest hne hl hty ha).shows hok
    cases heq

theorem taken_of_receive (h : k.Shows P) (hrest : P.Rests) (hm : P.Mail [] b) (hne : P.current ≠ .idle)
    (hr : P.running = true) {filter : MessageType} {timeout : Option UInt32}
    (hok : (k.beginReceive filter timeout).outcome = .ok (.taken k₁ asker taker)) :
    ∃ Q b', k₁.Shows Q ∧ Q.Taken b' asker taker := by
  have hheld : P.emptied.Sound [P.current] := (hrest.slot P.current none).held hne
  by_cases hi : P.takesInterrupt filter = true
  · obtain ⟨k₂, heq, -⟩ := (h.beginReceive_interrupt hrest hi).shows hok
    cases heq
  cases hf : P.emptied.nextSender? filter with
  | none =>
    obtain ⟨k₂, heq, -⟩ := (h.beginReceive_none hrest hne hi hf).shows hok
    cases heq
  | some src =>
    have hf' := Plain.nextSender?_some hf
    have hown := (hm.own hrest none).take P.current
    obtain ⟨msg, asks, hoffers, -, hstate⟩ := hown.offers hheld hf'
    obtain ⟨d, hd, hdstate⟩ := Option.map_eq_some_iff.mp hstate
    have hp := Plain.modify_self (P := P.emptied) hd fun d => { d with link := none }
    obtain ⟨hfree, held, hslot⟩ := hheld.free_sender hf'
    -- Only a sender that wants a reply is left to wait for one.
    cases asks with
    | false =>
      obtain ⟨k₂, heq, -⟩ := (h.beginReceive_some hrest hi hf fun k h =>
        h.beginAccept_sent hfree hp hdstate hslot).shows hok
      cases heq
    | true =>
      obtain ⟨k₂, heq, h₂⟩ := (h.beginReceive_some hrest hi hf fun k h =>
        h.beginAccept_asked hfree hp hdstate hslot).shows hok
      cases heq
      obtain ⟨b', htaken⟩ := (hown.free asker P.current).taken_accepted hfree hr hoffers (Function.update_self ..)
      exact ⟨_, b', h₂, htaken⟩

theorem taken_of_perform (h : k.Shows P) (hrest : P.Rests) (hm : P.Mail [] b) (hr : P.running = true) {r : Request}
    (hidle : P.current = .idle → r.FitsIdle) (hok : (k.beginPerform r).outcome = .ok (.taken k₁ asker taker)) :
    ∃ Q b', k₁.Shows Q ∧ Q.Taken b' asker taker := by
  cases r with
  | sendRec dest msg => exact h.taken_of_sendRec hrest hm hidle hr hok
  | receive filter timeout => exact h.taken_of_receive hrest hm hidle hr hok
  | _ =>
    obtain ⟨k₂, -, hok⟩ := bind_eq_ok.mp hok
    cases hok

theorem taken_of_serve (h : k.Shows P) (hrest : P.Rests) (hm : P.Mail [] b) (hr : P.running = true) {r : Request}
    (hidle : P.current = .idle → r.FitsIdle) (hok : (k.beginServe r).outcome = .ok (.taken k₁ asker taker)) :
    ∃ Q b', k₁.Shows Q ∧ Q.Taken b' asker taker := by
  obtain ⟨k₂, hnote, hok⟩ := bind_eq_ok.mp hok
  obtain ⟨k₂, rfl, h₂⟩ := (h.note r).shows hnote
  obtain ⟨stage, hperform, hok⟩ := bind_eq_ok.mp hok
  cases stage with
  | done k₃ =>
    obtain ⟨answer, -, hok⟩ := bind_eq_ok.mp hok
    cases hok
  | taken k₃ asker' taker' =>
    cases hok
    exact h₂.taken_of_perform (hrest.asked r) (hm.of_still (.asked P r)) hr hidle hperform

end Shows

/-- Whenever a request has just been taken, its sender is in hand and wants a reply. -/
theorem Boxed.taken (h : k.Boxed) {c : Call} (hc : c.Admissible k)
    (hok : (k.beginCall c).outcome = .ok (.taken k₁ asker taker)) : ∃ Q b, k₁.Shows Q ∧ Q.Taken b asker taker := by
  obtain ⟨P, hk, hrest, hm⟩ := h
  have hidle : P.current = .idle → ∀ r ∈ c.request?, r.FitsIdle := fun hi => hc.1.fitsIdle (hk.current ▸ hi)
  cases c with
  | serve r =>
    have hr : P.running = true := hk.running.trans (hc.1.running rfl)
    exact hk.taken_of_serve hrest hm hr (fun hi => hidle hi r rfl) hok
  | trap psp frame =>
    have hr : P.running = true := hk.running.trans hc.1.1
    obtain ⟨⟨k₂, r⟩, hopen, hok⟩ := bind_eq_ok.mp hok
    obtain ⟨hsave, -, hd⟩ := openTrap_ok hopen
    obtain ⟨k₂, rfl, h₂⟩ := (hk.saveContext hrest.sound.current psp).shows hsave
    exact h₂.taken_of_serve (hrest.save psp) (hm.of_still (.save P psp)) hr
      (fun hi => hidle hi r (Call.request?_of_decoded hd psp)) hok
  | _ =>
    obtain ⟨done, -, hok⟩ := bind_eq_ok.mp hok
    cases hok

/-! ### The reply that is there already -/

/-- The reply of `src`, who waits for `asker` in `k₁` and has been taken out of the list in `k₂`, goes to `asker`, and both
are made ready. -/
structure Handing (k₁ k₂ : Kernel) (asker src : Pid) (k₃ k₄ k₅ : Kernel) : Prop where
  handed : (k₂.handOver asker src).outcome = .ok k₃
  asker_unlisted : k₃.Unlisted asker
  asker_woken : (k₃.makeReady asker).outcome = .ok k₄
  /-- A receiver would find the sender in the state in which it makes a sender ready. -/
  src_sending : k₄.state? src = some .sending
  src_unlisted : k₄.Unlisted src
  src_woken : (k₄.makeReady src).outcome = .ok k₅
  /-- These are the steps in which the kernel lets `asker` wait for a reply that is there already. -/
  whole : (k₁.awaitReply asker).outcome = .ok k₅
  ready : ∀ p, p = asker ∨ p = src → ∃ d l, k₅.process? p = some d ∧ d.state = .active ∧
    d.priority.level? = some l ∧ k₅.Queued p (.ready l)

/-- In the call `c`, `taker` has taken the request of `asker`, which makes the kernel `k₁`, and a reply of `src` is found there,
which makes it `k₂`. -/
structure EarlyReply (k : Kernel) (c : Call) (k₁ : Kernel) (asker taker src : Pid) (k₂ : Kernel) : Prop where
  /-- The sender is blocked in a send, and not in a request of its own. -/
  sender : ∃ d reply, k₁.process? src = some d ∧ d.state = .sending ∧ d.slot = some reply ∧ reply.ty = .reply
  not_asker : src ≠ asker
  not_taker : src ≠ taker
  handing : ∃ k₃ k₄ k₅, k₁.Handing k₂ asker src k₃ k₄ k₅
  returns : ∃ answer k', (k.call c).outcome = .ok (answer, k')

namespace Shows

theorem unlisted_of_hand {hand : List Pid} {p : Pid} (h : k.Shows P) (hs : P.Sound hand) (hp : p ∈ hand) :
    k.Unlisted p := by
  obtain ⟨d, hd, hh⟩ := hs.found hp
  obtain ⟨e, he, rfl⟩ := h.get hd
  exact h.unlisted he hh.link

/-- An active process is in the ready queue of its priority when nobody is in hand. -/
theorem ready_of_active {p : Pid} {a : Stance} (h : k.Shows P) (hs : P.Sound []) (hne : p ≠ .idle)
    (ha : P.stance p = some a) (hactive : a.state = .active) :
    ∃ d l, k.process? p = some d ∧ d.state = .active ∧ d.priority.level? = some l ∧ k.Queued p (.ready l) := by
  obtain ⟨d, hd, rfl⟩ := Plain.stance_eq_some ha
  obtain ⟨e, he, rfl⟩ := h.get hd
  obtain ⟨l, hlevel, hlink⟩ := ((hs.fits p _ hd).settled hne List.not_mem_nil).of_active hactive
  exact ⟨e, l, he, hactive, hlevel, h.queued he hlink⟩

/-- The steps that hand the reply over and make both ready go through. -/
theorem handing (ht : P.Taken b asker taker) (hf : P.sender? asker .reply = some src)
    (found : (k₁.findSender asker .reply).outcome = .ok (some src, k₂)) (h₂ : k₂.Shows (P.free src (.waiting asker))) :
    ∃ k₃ k₄ k₅, k₁.Handing k₂ asker src k₃ k₄ k₅ ∧ k₅.Shows (P.awaitReply asker) := by
  obtain ⟨hne, -, d, -, hd, hsending, -⟩ := ht.replier hf
  obtain ⟨hfree, msg, hslot⟩ := ht.sound.free_sender hf
  have hopen := hfree.swap.open_held src
  have hfilled := (hopen.slot asker (some { msg with sender := src })).emit
    (.delivered src asker { msg with sender := src })
  have hgot := hopen.deliver hslot
  -- The message is handed over while both are in hand; each of the two is put down by the step that makes it ready.
  obtain ⟨k₃, hhand, -, h₃⟩ := h₂.handOver hfree (hfree.hand asker (by simp)) hopen hslot
  obtain ⟨k₄, hasker, -, h₄⟩ := h₃.wake_of_sound hfilled
  rw [← Plain.deliver_eq hslot] at h₄
  obtain ⟨k₅, hsrc, -, h₅⟩ := h₄.wake_of_sound hgot
  have hawait : P.awaitReply asker = ((P.free src (.waiting asker)).deliver asker src).wake src := by
    rw [Plain.awaitReply, hf]
  rw [← hawait] at h₅
  have hstance : k₄.stance src = some (d.stance.holding none) := by
    rw [← h₄.stance, hopen.stance_deliver hslot, Plain.alter_ne hne, Plain.stance_free]
    exact Plain.alter_self (Plain.stance_eq hd) _
  have hwhole : (k₁.awaitReply asker).outcome = .ok k₅ := by
    have hdeliver : (k₂.deliver asker src).outcome = .ok k₄ := bind_eq_ok.mpr ⟨k₃, hhand, hasker⟩
    exact bind_eq_ok.mpr ⟨_, found, bind_eq_ok.mpr ⟨k₄, hdeliver, hsrc⟩⟩
  refine ⟨k₃, k₄, k₅, ⟨hhand, h₃.unlisted_of_hand hfilled List.mem_cons_self, hasker, ?_,
    h₄.unlisted_of_hand hgot List.mem_cons_self, hsrc, hwhole, fun p hp => ?_⟩, h₅⟩
  · rw [state?_eq hstance]
    exact congrArg some hsending
  · obtain ⟨hidle, a, ha, hactive⟩ := ht.woken hf hp
    exact h₅.ready_of_active ht.sound.awaitReply hidle ha hactive

end Shows

/-- A call in which a request is taken returns if the wait for the reply goes through. -/
theorem returns_of_taken {c : Call} (hr : P.running = true) (hs : P.Sound []) {k₅ : Kernel}
    (taken : (k.beginCall c).outcome = .ok (.taken k₁ asker taker)) (hawait : (k₁.awaitReply asker).outcome = .ok k₅)
    (h₅ : k₅.Shows P) : ∃ answer k', (k.call c).outcome = .ok (answer, k') := by
  obtain ⟨k₆, hreschedule, -, h₆⟩ := h₅.reschedule_of_sound hs
  obtain ⟨k₇, hresume, -⟩ := h₆.resume (hs.reschedule hr).sound.current
  obtain ⟨addr, haddr, -⟩ := bind_eq_ok.mp hresume
  refine ⟨.address addr, k₆, ?_⟩
  rw [call_eq]
  exact bind_eq_ok.mpr ⟨_, taken, bind_eq_ok.mpr ⟨k₅, hawait, bind_eq_ok.mpr ⟨k₆, hreschedule,
    bind_eq_ok.mpr ⟨addr, haddr, rfl⟩⟩⟩⟩

end Kernel

/-- In every run, a reply that is queued on a process when its request is taken comes from a third process that is
blocked in a send; that process and the asker are in no list when they are made ready, so that making them ready goes
through, and the call returns. -/
theorem early_reply_needs_no_check {config : Config} {steps : List Step} {k k₁ k₂ : Kernel} {c : Call}
    {asker taker src : Pid} (h : Run Call.Admissible config steps k) (hc : c.Admissible k)
    (taken : (k.beginCall c).outcome = .ok (.taken k₁ asker taker))
    (found : (k₁.findSender asker .reply).outcome = .ok (some src, k₂)) : k.EarlyReply c k₁ asker taker src k₂ := by
  obtain ⟨P, b, h₁, ht⟩ := h.boxed.taken hc taken
  have hasker : (P.process asker).isSome := ht.sound.hand asker List.mem_cons_self
  cases hf : P.sender? asker .reply with
  | none =>
    obtain ⟨k₂, heq, -⟩ := (h₁.findSender_none hasker hf).shows found
    cases heq
  | some src' =>
    obtain ⟨k₂, heq, h₂⟩ := (h₁.findSender_some hasker hf).shows found
    cases heq
    obtain ⟨hne, hne', d, reply, hd, hsending, hreply, hty⟩ := ht.replier hf
    obtain ⟨e, he, rfl⟩ := h₁.get hd
    obtain ⟨k₃, k₄, k₅, hhanding, h₅⟩ := Kernel.Shows.handing ht hf found h₂
    have hrunning : (P.awaitReply asker).running = true :=
      ((Plain.Near.refl P).awaitReply asker).running.trans ht.running
    exact ⟨⟨e, reply, he, hsending, hreply, hty⟩, hne, hne', ⟨k₃, k₄, k₅, hhanding⟩,
      Kernel.returns_of_taken hrunning ht.sound.awaitReply taken hhanding.whole h₅⟩

/-- Whose request is taken in a call, by whom, and whose reply is there already. -/
def Kernel.early? (k : Kernel) (c : Call) : Option (Pid × Pid × Pid) :=
  match (k.beginCall c).outcome with
  | .ok (.taken k₁ asker taker) =>
    match (k₁.findSender asker .reply).outcome with
    | .ok (some src, _) => some (asker, taker, src)
    | _ => none
  | _ => none

theorem Kernel.of_early? {k : Kernel} {c : Call} {asker taker src : Pid} (h : k.early? c = some (asker, taker, src)) :
    ∃ k₁ k₂, (k.beginCall c).outcome = .ok (.taken k₁ asker taker) ∧
      (k₁.findSender asker .reply).outcome = .ok (some src, k₂) := by
  unfold early? at h
  split at h
  · rename_i k₁ asker' taker' htaken
    split at h
    · rename_i src' k₂ hfound
      cases h
      exact ⟨k₁, k₂, htaken, hfound⟩
    · cases h
  · cases h

/-- Three processes, the first of which runs. -/
def trioCalls : List Call :=
  [.start "ask" 0 0 0, .start "answer" 0 0 0, .start "meddle" 0 0 0, .launch]

/-- The second process waits for a message, and the third one sends the first a reply before that has asked. -/
def hasty : List Step × Kernel :=
  ((Kernel.boot {}).follow Call.Admissible (trioCalls ++ [.serve .yield, .serve (.receive .any none),
    .serve (.send 1 (.new .reply))])).get (by decide +kernel)

/-- The first process has asked the second one, and the third one sends it a reply before the request is taken. -/
def meddled : List Step × Kernel :=
  ((Kernel.boot {}).follow Call.Admissible (trioCalls ++ [.serve (.sendRec 2 (.new ⟨16⟩)), .serve .yield,
    .serve (.send 1 (.new .reply))])).get (by decide +kernel)

theorem early_reply_needs_no_check_meddled :
    (∃ k₁ k₂, hasty.2.EarlyReply (.serve (.sendRec 2 (.new ⟨16⟩))) k₁ ⟨1⟩ ⟨2⟩ ⟨3⟩ k₂) ∧
      ∃ k₁ k₂, meddled.2.EarlyReply (.trap 0 (Request.encode (.receive .any none))) k₁ ⟨1⟩ ⟨2⟩ ⟨3⟩ k₂ := by
  have hhasty : Run Call.Admissible {} hasty.1 hasty.2 := Run.of_boot (Option.some_get _).symm
  have hmeddled : Run Call.Admissible {} meddled.1 meddled.2 := Run.of_boot (Option.some_get _).symm
  constructor
  · have hc : Call.Admissible hasty.2 (.serve (.sendRec 2 (.new ⟨16⟩))) := by decide +kernel
    have hearly : hasty.2.early? (.serve (.sendRec 2 (.new ⟨16⟩))) = some (⟨1⟩, ⟨2⟩, ⟨3⟩) := by decide +kernel
    obtain ⟨k₁, k₂, htaken, hfound⟩ := Kernel.of_early? hearly
    exact ⟨k₁, k₂, early_reply_needs_no_check hhasty hc htaken hfound⟩
  · have hc : Call.Admissible meddled.2 (.trap 0 (Request.encode (.receive .any none))) := by decide +kernel
    have hearly : meddled.2.early? (.trap 0 (Request.encode (.receive .any none))) = some (⟨1⟩, ⟨2⟩, ⟨3⟩) := by
      decide +kernel
    obtain ⟨k₁, k₂, htaken, hfound⟩ := Kernel.of_early? hearly
    exact ⟨k₁, k₂, early_reply_needs_no_check hmeddled hc htaken hfound⟩

end Rendezvous
