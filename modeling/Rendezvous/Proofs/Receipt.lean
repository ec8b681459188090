import Rendezvous.Proofs.WaitingOrder

/-! # Receiving

A receive does the first of four things that applies: it takes a pending interrupt, it takes the message of the first
sender that the filter accepts, it gives up at once, or it blocks. What each of them makes of the kernel is told here in
full, with plain lists for the linked ones. -/

namespace Rendezvous

open Plain (alter)

namespace Timeouts

/-- When a wait ends that begins now. -/
def dueIn (r : Timeouts) (ms : UInt32) : Int := saturate (r.ticks + saturate ms.toNat)

/-- The registry when `p` has begun to wait. -/
def watching (r : Timeouts) (p : Pid) : Option UInt32 → Timeouts
  | none => r
  | some ms => { r with entries := r.entries ++ [p], nextDue := earlier (r.dueIn ms) r.nextDue }

end Timeouts

/-- What a receive reads and changes: who runs, the stances, the members of the lists, and the registry. -/
structure Scene where
  runs : Pid
  stance : Pid → Option Stance
  waiters : Pid → List Pid
  ready : Level → List Pid
  timeouts : Timeouts

namespace Scene

variable (v : Scene)

/-- The message in the slot of a process. -/
def slot (p : Pid) : Option Message := (v.stance p).bind (·.slot)

/-- An interrupt is pending for the process that runs, and it wants one. -/
def Interrupted (filter : MessageType) : Prop :=
  (v.stance v.runs).any (·.pending) = true ∧ (filter = .any ∨ filter = .interrupt)

/-- The process holds out no message that the filter accepts. -/
def Refuses (filter : MessageType) (p : Pid) : Prop := ∀ m, v.slot p = some m → filter.accepts m.ty = false

/-- Nobody in the waiting list of `dest` holds out a message that the filter accepts. -/
def Unsent (dest : Pid) (filter : MessageType) : Prop := ∀ p ∈ v.waiters dest, v.Refuses filter p

/-- The first one in the waiting list of `dest` that holds out a message that the filter accepts is `src`, with `msg`:
    those of `ahead` are passed over, and those of `behind` are not asked. -/
structure Picks (dest : Pid) (filter : MessageType) (ahead : List Pid) (src : Pid) (behind : List Pid) (msg : Message) :
    Prop where
  members : v.waiters dest = ahead ++ src :: behind
  passed : ∀ p ∈ ahead, v.Refuses filter p
  slot : v.slot src = some msg
  accepted : filter.accepts msg.ty = true

end Scene

/-- What a receive of the process that runs makes of the scene `v`. The processes that become ready enter their queues
    one after the other, as `place` tells, before the kernel chooses who runs next. -/
inductive Receipt (place : (Level → List Pid) → Pid → Level → List Pid) (v : Scene) (filter : MessageType)
    (timeout : Option UInt32) : Scene → Prop
  /-- It takes the interrupt that is pending. -/
  | interrupted (pending : v.Interrupted filter) : Receipt place v filter timeout { v with
      stance := alter v.stance v.runs fun a => { a with pending := false, slot := some (.new .interrupt) } }
  /-- It takes the message of `src`, who has sent it for good. -/
  | sent (clear : ¬v.Interrupted filter) (wants : filter ≠ .interrupt) {ahead behind : List Pid} {src : Pid}
      {msg : Message} (picks : v.Picks v.runs filter ahead src behind msg)
      (state : (v.stance src).map (·.state) = some .sending) {runs : Pid} {ready : Level → List Pid}
      (choice : Choice ([v.runs, src].foldl place v.ready) runs ready) : Receipt place v filter timeout { v with
      runs := runs
      stance := alter (alter v.stance src .released) v.runs (.got { msg with sender := src })
      waiters := Function.update v.waiters v.runs (ahead ++ behind)
      ready := ready }
  /-- It takes the request of `src`, who waits for the reply. -/
  | asked (clear : ¬v.Interrupted filter) (wants : filter ≠ .interrupt) {ahead behind : List Pid} {src : Pid}
      {msg : Message} (picks : v.Picks v.runs filter ahead src behind msg)
      (state : (v.stance src).map (·.state) = some .sendRec) (unanswered : v.Unsent src .reply) {runs : Pid}
      {ready : Level → List Pid} (choice : Choice ([v.runs].foldl place v.ready) runs ready) :
      Receipt place v filter timeout { v with
      runs := runs
      stance := alter (alter v.stance src (.awaiting ∘ .holding none)) v.runs (.got { msg with sender := src })
      waiters := Function.update v.waiters v.runs (ahead ++ behind)
      ready := ready }
  /-- It takes the request of `src`, for whom a reply is there already. -/
  | answered (clear : ¬v.Interrupted filter) (wants : filter ≠ .interrupt) {ahead behind : List Pid} {src : Pid}
      {msg : Message} (picks : v.Picks v.runs filter ahead src behind msg)
      (state : (v.stance src).map (·.state) = some .sendRec) {ahead' behind' : List Pid} {replier : Pid}
      {reply : Message} (replies : v.Picks src .reply ahead' replier behind' reply) {runs : Pid} {ready : Level → List Pid}
      (choice : Choice ([v.runs, src, replier].foldl place v.ready) runs ready) : Receipt place v filter timeout { v with
      runs := runs
      stance := alter (alter (alter v.stance replier .released) src (.got { reply with sender := replier }))
        v.runs (.got { msg with sender := src })
      waiters := Function.update (Function.update v.waiters v.runs (ahead ++ behind)) src (ahead' ++ behind')
      ready := ready }
  /-- Nothing is there that it wants, and it does not wait. -/
  | polled (clear : ¬v.Interrupted filter) (unsent : filter ≠ .interrupt → v.Unsent v.runs filter)
      (poll : timeout = some 0) : Receipt place v filter timeout { v with
      stance := alter v.stance v.runs (.holding (some (.new .timeout))) }
  /-- Nothing is there that it wants, and it waits. -/
  | blocked (clear : ¬v.Interrupted filter) (unsent : filter ≠ .interrupt → v.Unsent v.runs filter)
      (waits : timeout ≠ some 0) {runs : Pid} {ready : Level → List Pid} (choice : Choice v.ready runs ready) :
      Receipt place v filter timeout { v with
      runs := runs
      stance := alter v.stance v.runs fun a =>
        { a with state := .receiving, filter := filter, slot := none, deadline := timeout.map v.timeouts.dueIn }
      ready := ready
      timeouts := v.timeouts.watching v.runs timeout }

/-- The scene of a kernel, its lists read from head to tail. -/
def Kernel.scene (k : Kernel) : Scene :=
  ⟨k.current, k.stance, fun dest => (k.waiters dest).toOption.getD [], k.line, k.timeouts⟩

namespace Plain

/-- The scene of a plain kernel. -/
def scene (P : Plain) : Scene := ⟨P.current, P.stance, P.waiters, P.ready, P.timeouts⟩

variable {P Q R : Plain} {ws ws' hand : List Pid} {w w' : Pid → List Pid} {r r' : Timeouts} {p src dest : Pid}
  {a : Stance} {msg : Message} {filter : MessageType} {timeout : Option UInt32}

/-! ### What the scene tells -/

theorem scene_slot (P : Plain) (p : Pid) : P.scene.slot p = P.slot p := by
  show ((P.process p).map Descriptor.stance).bind (·.slot) = (P.process p).bind (·.slot)
  rw [Option.bind_map]
  rfl

theorem scene_refuses : P.scene.Refuses filter p ↔ P.offers filter p = false := by
  rw [Scene.Refuses, scene_slot, offers]
  cases P.slot p <;> simp

theorem scene_unsent (h : P.sender? dest filter = none) : P.scene.Unsent dest filter := by
  intro p hp
  rw [scene_refuses]
  simpa using List.find?_eq_none.mp h p hp

/-- The sender that is found, and what is left of the waiting list without it. -/
theorem scene_picks (hf : P.sender? dest filter = some src) (hm : P.slot src = some msg) :
    ∃ ahead behind, P.scene.Picks dest filter ahead src behind msg ∧
      (P.waiters dest).erase src = ahead ++ behind := by
  obtain ⟨hoffers, ahead, behind, hmembers, hpassed⟩ := List.find?_eq_some_iff_append.mp hf
  have hout : src ∉ ahead := by
    intro hin
    have hnot := hpassed src hin
    rw [hoffers] at hnot
    cases hnot
  rw [offers, hm] at hoffers
  refine ⟨ahead, behind, ⟨hmembers, fun p hp => ?_, (scene_slot P src).trans hm, hoffers⟩, ?_⟩
  · rw [scene_refuses]
    simpa using hpassed p hp
  · rw [show P.waiters dest = ahead ++ src :: behind from hmembers, List.erase_append_right _ hout, List.erase_cons_head]

theorem scene_interrupted (hp : P.stance P.current = some a) :
    P.scene.Interrupted filter ↔ P.takesInterrupt filter = true := by
  obtain ⟨d, hd, rfl⟩ := stance_eq_some hp
  have hself : P.emptied.process P.current = some { d with slot := none } := modify_self hd _
  have hpending : (P.scene.stance P.scene.runs).any (·.pending) = d.pending := by
    show (P.stance P.current).any _ = _
    rw [hp]
    rfl
  rw [Scene.Interrupted, hpending, takesInterrupt, hself]
  simp [MessageType.accepts]

/-! ### Passages -/

/-- A course with the waiting lists and the registry that it leads to. -/
structure Passage (P : Plain) (ws : List Pid) (w : Pid → List Pid) (r : Timeouts) (Q : Plain) : Prop where
  course : ∃ es, P.Course es ws Q
  waiters : Q.waiters = w
  timeouts : Q.timeouts = r

theorem reschedule_timeouts (P : Plain) : P.reschedule.timeouts = P.timeouts := by
  show P.charge.pop.timeouts = P.timeouts
  rw [pop_eq]
  show P.charge.timeouts = P.timeouts
  rw [charge_eq]

theorem wake_timeouts (P : Plain) (p : Pid) : (P.wake p).timeouts = P.timeouts := by
  unfold Plain.wake
  split
  · rfl
  · split <;> rfl

namespace Passage

theorem trans (h : P.Passage ws w r Q) (h' : Q.Passage ws' w' r' R) : P.Passage (ws ++ ws') w' r' R := by
  obtain ⟨es, hcourse⟩ := h.course
  obtain ⟨es', hcourse'⟩ := h'.course
  exact ⟨⟨_, hcourse.trans hcourse'⟩, h'.waiters, h'.timeouts⟩

/-- A further step that leaves the waiting lists and the registry alone. -/
theorem still (h : P.Passage ws w r Q) (h' : Q.Passage ws' Q.waiters Q.timeouts R) : P.Passage (ws ++ ws') w r R := by
  rw [h.waiters, h.timeouts] at h'
  exact h.trans h'

theorem modify (P : Plain) (p : Pid) {f : Descriptor → Descriptor} (hf : ∀ d, (f d).rank = d.rank) :
    P.Passage [] P.waiters P.timeouts (P.modify p f) := ⟨⟨_, .modify P p hf⟩, rfl, rfl⟩

theorem emptied (P : Plain) : P.Passage [] P.waiters P.timeouts P.emptied := modify P P.current fun _ => rfl

theorem free (P : Plain) (src dest : Pid) : P.Passage [] (Function.update P.waiters dest ((P.waiters dest).erase src))
    P.timeouts (P.free src (.waiting dest)) := ⟨⟨_, .free P src dest⟩, waiters_setQueue .., rfl⟩

theorem wake (h : P.Sound (p :: hand)) : P.Passage [p] P.waiters P.timeouts (P.wake p) :=
  ⟨⟨_, .wake h⟩, funext fun dest => wake_waiting P p dest, wake_timeouts P p⟩

/-- A process in hand has no deadline that the message could end. -/
theorem deliver (h : P.Sound (dest :: hand)) (hm : P.slot src = some msg) :
    P.Passage [dest] P.waiters P.timeouts (P.deliver dest src) := by
  refine ⟨⟨_, .deliver (h.open_held src) hm⟩, funext fun q => deliver_waiting P dest src q, ?_⟩
  rw [deliver_eq hm, wake_timeouts, (h.slot src none).cancel_held List.mem_cons_self]
  rfl

theorem block (P : Plain) (filter : MessageType) (timeout : Option UInt32) :
    P.Passage [] P.waiters (P.timeouts.watching P.current timeout) (P.block filter timeout) := by
  refine ⟨⟨_, .block P filter timeout⟩, ?_, ?_⟩ <;> cases timeout <;> rfl

/-- The kernel chooses who runs next. -/
theorem choice (h : P.Passage ws w r Q) (ht : P.Timed) :
    Choice (ws.foldl (P.policy.place P.rank) P.ready) Q.reschedule.current Q.reschedule.ready := by
  obtain ⟨es, hcourse⟩ := h.course
  rw [← hcourse.ready]
  exact (hcourse.timed ht).choice

theorem scene (h : P.Passage ws w r Q) : Q.reschedule.scene =
    ⟨Q.reschedule.current, Q.stance, w, Q.reschedule.ready, r⟩ := by
  rw [Plain.scene, stance_reschedule, reschedule_waiters, h.waiters, reschedule_timeouts, h.timeouts]

end Passage

namespace Sound

theorem passage_awaitReply (h : P.Sound (p :: hand)) (hf : P.sender? p .reply = some src) :
    P.Passage [p, src] (Function.update P.waiters p ((P.waiters p).erase src)) P.timeouts (P.awaitReply p) := by
  obtain ⟨hfree, msg, hm⟩ := h.free_sender hf
  have hheld := hfree.swap
  have hdelivered := (Passage.free P src p).still (.deliver hheld hm)
  unfold Plain.awaitReply
  rw [hf]
  exact hdelivered.still (.wake ((hheld.open_held src).deliver hm))

variable (h : P.Sound (P.current :: hand)) (hf : P.sender? P.current filter = some src)
include h hf

theorem passage_taken : P.Passage [P.current] (Function.update P.waiters P.current ((P.waiters P.current).erase src))
    P.timeouts (P.taken src) := by
  obtain ⟨hfree, msg, hm⟩ := h.free_sender hf
  exact (Passage.free P src P.current).still (.deliver hfree.swap hm)

variable (hm : P.slot src = some msg) (ha : P.stance src = some a)
include hm ha

theorem passage_take (hs : a.state = .sending) : P.Passage [P.current, src]
    (Function.update P.waiters P.current ((P.waiters P.current).erase src)) P.timeouts (P.take src) := by
  rw [h.take_eq hf hm ha, if_neg (by simp [hs])]
  exact (h.passage_taken hf).still (.wake (h.taken hf hm).2.1)

theorem passage_take_request (hs : a.state = .sendRec) (hnone : P.sender? src .reply = none) : P.Passage [P.current]
    (Function.update P.waiters P.current ((P.waiters P.current).erase src)) P.timeouts (P.take src) := by
  have hawaits : (P.taken src).Passage [] (P.taken src).waiters (P.taken src).timeouts
      ((P.taken src).awaitReply src) := by
    unfold Plain.awaitReply
    rw [(h.taken_sender? hf hm).1, hnone]
    exact .modify _ src fun _ => rfl
  rw [h.take_eq hf hm ha, if_pos hs]
  exact (h.passage_taken hf).still hawaits

theorem passage_take_answered (hs : a.state = .sendRec) {replier : Pid}
    (hreplier : P.sender? src .reply = some replier) :
    P.Passage [P.current, src, replier]
      (Function.update (Function.update P.waiters P.current ((P.waiters P.current).erase src)) src
        ((P.waiters src).erase replier)) P.timeouts (P.take src) := by
  obtain ⟨hne, hsound, -⟩ := h.taken hf hm
  have htaken := h.passage_taken hf
  have hanswered := hsound.passage_awaitReply ((h.taken_sender? hf hm).1.trans hreplier)
  rw [htaken.waiters, htaken.timeouts, Function.update_of_ne hne] at hanswered
  rw [h.take_eq hf hm ha, if_pos hs]
  exact htaken.trans hanswered

end Sound

/-! ### Receipts -/

namespace Rests

variable (h : P.Rests) (ht : P.Timed) (hne : P.current ≠ .idle)
include h ht hne

/-- The receipt of a message that a sender holds out. -/
theorem receipt_take (hi : ¬P.scene.Interrupted filter) (hwants : filter ≠ .interrupt)
    (hf : P.sender? P.current filter = some src) : Receipt (P.policy.place P.rank) P.scene filter timeout
      (P.emptied.take src).reschedule.scene := by
  have hempties : P.emptied.Rests := h.slot P.current none
  have hheld : P.emptied.Sound (P.emptied.current :: []) := hempties.held hne
  obtain ⟨hmem, msg, hm, -⟩ := sender?_some hf
  obtain ⟨d, hd, -⟩ := (h.held hne).waiter hmem
  obtain ⟨hf', hm', ha'⟩ := h.emptied_sender hne hf hm (stance_eq hd)
  have hstate : (P.scene.stance src).map (·.state) = some d.stance.state :=
    congrArg (Option.map (·.state)) (stance_eq hd)
  obtain ⟨ahead, behind, hpicks, herase⟩ := scene_picks hf hm
  have herase' : (P.emptied.waiters P.emptied.current).erase src = ahead ++ behind := herase
  obtain ⟨hsrc, ⟨hs, hst⟩ | ⟨hs, hnone, hst⟩ | ⟨hs, replier, reply, hreplier, hreply, -, -, hst⟩⟩ :=
    h.take_cases hne hf hm (stance_eq hd)
  · -- The sender goes on.
    have hpassage := (Passage.emptied P).trans (hheld.passage_take hf' hm' ha' hs)
    rw [hpassage.scene, hst, herase']
    exact .sent hi hwants hpicks (hstate.trans (congrArg some hs)) (hpassage.choice ht)
  · -- The sender waits for the reply.
    have hnone' := (h.emptied_sender? hne src .reply).trans hnone
    have hpassage := (Passage.emptied P).trans (hheld.passage_take_request hf' hm' ha' hs hnone')
    rw [hpassage.scene, hst, herase']
    exact .asked hi hwants hpicks (hstate.trans (congrArg some hs)) (scene_unsent hnone) (hpassage.choice ht)
  · -- The sender finds the reply in its own waiting list.
    have hreplier' := (h.emptied_sender? hne src .reply).trans hreplier
    have hpassage := (Passage.emptied P).trans (hheld.passage_take_answered hf' hm' ha' hs hreplier')
    obtain ⟨ahead', behind', hreplies, hrest⟩ := scene_picks hreplier hreply
    have hrest' : (P.emptied.waiters src).erase replier = ahead' ++ behind' := hrest
    rw [hpassage.scene, hst, herase', hrest']
    exact .answered hi hwants hpicks (hstate.trans (congrArg some hs)) hreplies (hpassage.choice ht)

theorem receipt (filter : MessageType) (timeout : Option UInt32) :
    Receipt (P.policy.place P.rank) P.scene filter timeout (P.receive filter timeout).scene := by
  obtain ⟨d, hd⟩ := Option.isSome_iff_exists.mp h.sound.current
  have hiff : P.scene.Interrupted filter ↔ P.takesInterrupt filter = true := scene_interrupted (stance_eq hd)
  by_cases hi : P.takesInterrupt filter = true
  · have hscene : (P.receive filter timeout).scene = { P.scene with stance := (P.receive filter timeout).stance } := by
      rw [receive_of_interrupt hi]
      rfl
    rw [hscene, stance_receive_interrupt hi]
    exact .interrupted (hiff.mpr hi)
  · have hclear : ¬P.scene.Interrupted filter := fun hin => hi (hiff.mp hin)
    cases hf : P.emptied.nextSender? filter with
    | some src =>
      -- No sender is looked for under the filter for interrupts.
      have hwants : filter ≠ .interrupt := by
        rintro rfl
        rw [nextSender?, if_pos rfl] at hf
        cases hf
      rw [receive_of_sender hi hf]
      exact h.receipt_take ht hne hclear hwants ((h.emptied_sender? hne _ filter).symm.trans (nextSender?_some hf))
    | none =>
      have hunsent : filter ≠ .interrupt → P.scene.Unsent P.current filter := fun hwants =>
        scene_unsent (h.unsent_of_emptied hne hf hwants)
      by_cases hpoll : timeout = some 0
      · subst hpoll
        have hscene : (P.receive filter (some 0)).scene =
            { P.scene with stance := (P.receive filter (some 0)).stance } := by
          rw [receive_of_none hi hf, if_pos rfl]
          rfl
        rw [hscene, stance_receive_poll hi hf]
        exact .polled hclear hunsent rfl
      · have hpassage := (Passage.emptied P).trans (.block P.emptied filter timeout)
        have hst := h.stance_receive_block hne hi hf hpoll
        rw [receive_of_none hi hf, if_neg hpoll] at hst ⊢
        rw [stance_reschedule] at hst
        rw [hpassage.scene, hst]
        exact .blocked hclear hunsent hpoll (hpassage.choice ht)

end Rests

end Plain

namespace Kernel

variable {k : Kernel} {P : Plain}

theorem Shows.scene (h : k.Shows P) : P.scene = k.scene := by
  have hwaiters : P.waiters = fun dest => (k.waiters dest).toOption.getD [] := by
    funext dest
    rw [h.waiters]
    rfl
  rw [Plain.scene, Kernel.scene, h.current, h.stance, hwaiters, h.line, h.timeouts]

/-- The walks along all lists of the kernel come to an end, and the scene tells what they find. -/
structure Laid (k : Kernel) : Prop where
  waiters : ∀ dest, k.waiters dest = .ok (k.scene.waiters dest)
  ready : ∀ l, k.table.chain (k.scheduler.queues.get l).head = .ok (k.scene.ready l)

theorem Shows.laid (h : k.Shows P) : k.Laid := by
  refine ⟨fun dest => ?_, fun l => ?_⟩
  · rw [← h.scene]
    exact h.waiters dest
  · rw [← h.scene]
    exact h.chain_line l

/-- A receive does not fail. -/
theorem Shows.serve_receive (h : k.Shows P) (hrest : P.Rests) (hne : P.current ≠ .idle) (filter : MessageType)
    (timeout : Option UInt32) : ∃ addr k',
      (k.call (.serve (.receive filter timeout))).outcome = .ok (.address addr, k') ∧
        k'.Shows ((P.asked (.receive filter timeout)).receive filter timeout) := by
  have hrunning : P.running = true := Bool.eq_true_of_not_eq_false fun hasleep => hne (hrest.asleep hasleep)
  have hasked := hrest.asked (.receive filter timeout)
  exact h.serve_of_leads (fun k₁ h₁ => h₁.receive hasked hne filter timeout)
    (hasked.receive hne hrunning filter timeout).sound.current

end Kernel

/-- Whatever has happened before, a receive of the process that runs returns, and does the first thing that applies. -/
theorem receive_does_first_that_applies {config : Config} {steps : List Step} {k : Kernel}
    (h : Run Call.Admissible config steps k) (hne : k.current ≠ .idle) (filter : MessageType)
    (timeout : Option UInt32) : k.Laid ∧ ∃ addr k',
      (k.call (.serve (.receive filter timeout))).outcome = .ok (.address addr, k') ∧ k'.Laid ∧
        Receipt (k.scheduler.policy.place k.rank) k.scene filter timeout k'.scene := by
  obtain ⟨P, hk, hrest, ht⟩ := h.proper.timed
  have hne' : P.current ≠ .idle := hk.current ▸ hne
  obtain ⟨addr, k', hok, hk'⟩ := hk.serve_receive hrest hne' filter timeout
  have hreceipt := (hrest.asked (.receive filter timeout)).receipt (ht.opening_asked _).timed hne' filter timeout
  refine ⟨hk.laid, addr, k', hok, hk'.laid, ?_⟩
  rw [← hk'.scene, ← hk.scene, ← hk.policy, ← hk.rank]
  exact hreceipt

/-- A client asks a server that has given way, and another process has a reply for the client already. -/
def consultCalls : List Call :=
  [.start "server" 0 0 0, .start "client" 0 0 0, .start "adviser" 0 0 0, .launch, .serve .yield,
    .serve (.sendRec 1 (.new ⟨16⟩)), .serve (.send 2 (.new .reply))]

/-- What the server finds. -/
def consult : List Step × Kernel := ((Kernel.boot {}).follow Call.Admissible consultCalls).get (by decide +kernel)

/-- The server takes the request, with which all three of them become ready. -/
theorem receive_does_first_that_applies_consult : consult.2.current = ⟨1⟩ ∧ consult.2.waiters ⟨1⟩ = .ok [⟨2⟩] ∧
    consult.2.waiters ⟨2⟩ = .ok [⟨3⟩] ∧ ∃ addr k',
      (consult.2.call (.serve (.receive .any none))).outcome = .ok (.address addr, k') ∧ k'.Laid ∧
        Receipt (consult.2.scheduler.policy.place consult.2.rank) consult.2.scene .any none k'.scene ∧
          k'.current = ⟨1⟩ ∧ k'.waiters ⟨1⟩ = .ok [] ∧ k'.waiters ⟨2⟩ = .ok [] ∧ k'.line .low = [⟨2⟩, ⟨3⟩] := by
  have hrun : Run Call.Admissible {} consult.1 consult.2 := Run.of_boot (Option.some_get _).symm
  have hbefore : consult.2.current = ⟨1⟩ ∧ consult.2.waiters ⟨1⟩ = .ok [⟨2⟩] ∧ consult.2.waiters ⟨2⟩ = .ok [⟨3⟩] := by
    decide +kernel
  have hafter : (consult.2.call (.serve (.receive .any none))).outcome.toOption.map (fun a =>
      (a.2.current, a.2.waiters ⟨1⟩, a.2.waiters ⟨2⟩, a.2.line .low)) = some (⟨1⟩, .ok [], .ok [], [⟨2⟩, ⟨3⟩]) := by
    decide +kernel
  have hne : consult.2.current ≠ .idle := by
    rw [hbefore.1]
    decide
  obtain ⟨-, addr, k', hok, hlaid, hreceipt⟩ := receive_does_first_that_applies hrun hne .any none
  rw [hok] at hafter
  obtain ⟨hcurrent, hlists⟩ := Prod.mk.inj (Option.some_inj.mp hafter)
  obtain ⟨hserver, hlists⟩ := Prod.mk.inj hlists
  obtain ⟨hclient, hline⟩ := Prod.mk.inj hlists
  exact ⟨hbefore.1, hbefore.2.1, hbefore.2.2, addr, k', hok, hlaid, hreceipt, hcurrent, hserver, hclient, hline⟩

end Rendezvous
