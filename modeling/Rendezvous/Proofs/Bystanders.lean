import Rendezvous.Proofs.Arrivals
import Rendezvous.Proofs.Completion
import Rendezvous.Proofs.Finality
import Rendezvous.Proofs.Handling
import Rendezvous.Proofs.WaitingOrder

/-! # Bystanders

A request of the process that runs leaves all other processes alone but for those that take part in it: the receiver of
its message, the senders of the messages that are taken, and those whose timeouts are counted. Heads of waiting lists
change where somebody comes or goes.

The cases of what a call does to a process do not tell who takes the message of a sender. The events do: a message that
is taken is delivered, and the slot that it goes to tells who has been looking for it. -/

namespace Rendezvous

namespace Step

/-- In this step `p` looks for a reply in its own waiting list: it sends a request, or its request is taken. -/
inductive SeeksReply (s : Step) (p : Pid) : Prop
  | sends (register : Int32) (msg : Message) (runs : p = s.before.current)
    (request : s.request? = some (.sendRec register msg)) : SeeksReply s p
  | taken (filter : MessageType) (timeout : Option UInt32) (msg : Message)
    (request : s.request? = some (.receive filter timeout)) (blocked : s.before.state? p = some .sendRec)
    (delivered : .delivered p s.before.current msg ∈ s.events) : SeeksReply s p

/-- The process `q`, which has the descriptor `d` and does not run, takes part in the step. -/
inductive Involves (s : Step) (q : Pid) (d : Descriptor) : Prop
  /-- The message of the process that runs is for it, and it waits for one like this. -/
  | destination (msg : Message) (posts : s.Posts s.before.current q msg) (receiving : d.state = .receiving)
    (accepts : d.filter.accepts msg.ty = true) : Involves s q d
  /-- The process that runs takes its message. -/
  | sender (filter : MessageType) (timeout : Option UInt32) (msg : Message)
    (request : s.request? = some (.receive filter timeout)) (waits : d.link = some (.waiting s.before.current))
    (delivered : .delivered q s.before.current msg ∈ s.events) : Involves s q d
  /-- Its message is the reply that another process looks for. -/
  | replier (asker : Pid) (reply : Message) (seeks : s.SeeksReply asker) (waits : d.link = some (.waiting asker))
    (ty : reply.ty = .reply) (delivered : .delivered q asker reply ∈ s.events) : Involves s q d
  | timed (ms : UInt32) (request : s.request? = some (.tick ms)) (entry : q ∈ s.before.timeouts.entries) :
    Involves s q d

/-- What the step makes of the descriptor `d` of the process `q`, which does not run. -/
structure Respects (s : Step) (q : Pid) (d d' : Descriptor) : Prop where
  standing : d'.standing = d.standing
  stance : d'.stance = d.stance ∨ s.Involves q d
  /-- If its timeout does not fire, a tick changes its deadline at most. -/
  counted : ∀ ms, s.request? = some (.tick ms) → .expired q ∉ s.events →
    d'.stance = { d.stance with deadline := d'.deadline }

/-- In this step somebody comes into the waiting list of `q` or leaves it. -/
inductive Queues (s : Step) (q : Pid) : Prop
  /-- The process that runs is blocked with a message for it. -/
  | comes (msg : Message) (posts : s.Posts s.before.current q msg)
    (waits : s.after.Queued s.before.current (.waiting q)) : Queues s q
  /-- The message of a member is taken. -/
  | leaves (src : Pid) (msg : Message) (waits : s.before.Queued src (.waiting q))
    (delivered : .delivered src q msg ∈ s.events) : Queues s q

end Step

/-- A list to which at most one member has been added, at the end, is another one only if this member is there or
another one is gone. -/
theorem mem_or_gone {α : Type} {l l' : List α} {x : α} (h : l'.Sublist (l ++ [x])) (distinct : l.Nodup)
    (changed : l' ≠ l) : x ∈ l' ∨ ∃ y ∈ l, y ∉ l' := by
  by_contra! hnot
  obtain ⟨hx, hall⟩ := hnot
  obtain ⟨kept, added, rfl, hkept, hadded⟩ := List.sublist_append_iff.mp h
  rcases List.sublist_singleton.mp hadded with rfl | rfl
  · rw [List.append_nil] at hall changed
    exact changed (hkept.eq_of_length_le (List.subperm_of_subset distinct hall).length_le)
  · simp at hx

/-! ### Boxes and stances -/

namespace Kernel

variable {k k' : Kernel} {c : Call} {r : Request} {es : List Event} {p q : Pid} {a : Stance} {d : Descriptor}
  {slot : Option Message}

theorem Boxed.of_keeping (h : k.Boxed) (ha : k.stance p = some a) (hb : k.box p = .keeping slot) :
    a.slot = slot ∧ a.state ≠ .sending ∧ a.state ≠ .sendRec ∧ a.state ≠ .receiving := by
  obtain ⟨P, hk, -, hm⟩ := h
  rw [← hk.stance] at ha
  obtain ⟨d, hd, rfl⟩ := Plain.stance_eq_some ha
  have hslot := hm.slot p
  have hsuits := hm.state p List.not_mem_nil
  rw [hb, Plain.slot_eq hd] at hslot
  rw [hb, Plain.read, hd, Option.map_some] at hsuits
  simp only [Box.Suits, ne_eq, Option.some_inj] at hsuits
  exact ⟨hslot.symm, hsuits⟩

/-- What is set for a process, and whether an interrupt is pending for it, changes by no request of another one. -/
theorem Handles.bystander (h : k.Handles c k' es) (hr : c.request? = some r) (hq : q ≠ k.current) :
    k'.standing? q = k.standing? q := by
  have hsignal := Call.signal?_of_request hr k.lines
  cases h with
  | quietly _ alters => rw [alters.standing?, if_neg hq]
  | takes _ takes => rw [takes.alters.standing?, if_neg hq]
  | starts s call =>
    obtain ⟨name, size, entry, arg, rfl⟩ := call
    cases hr
  | delivers p signal | flags p _ signal | coalesces p _ signal => cases hsignal.symm.trans signal

end Kernel

/-! ### The events of a tick -/

theorem Event.fill?_of_quiet {e : Event} (h : e.Quiet) : e.fill? = none := by
  cases e with
  | delivered | notified | blocked => exact absurd h id
  | _ => rfl

/-- All that a tick tells of is who has timed out. -/
theorem Plain.Rests.tick_trace {P : Plain} (h : P.Rests) (ms : UInt32) :
    ∃ l : List Pid, (P.tick ms).trace = P.trace ++ l.flatMap fun p => [.expired p, .notified p .timeout] := by
  have hs : ({ P with uptime := P.uptime + ms.toNat } : Plain).Sound (inHand P.current) :=
    h.sound.of_same rfl rfl rfl rfl h.sound.last h.sound.current
  obtain ⟨l, -, hcourse⟩ := Plain.Course.elapse hs.charge ms
  have htrace : ({ P with uptime := P.uptime + ms.toNat } : Plain).charge.trace = P.trace := by rw [charge_eq]
  exact ⟨l, htrace ▸ hcourse.trace⟩

namespace Run

variable {config : Config} {steps : List Step} {k : Kernel} {i : Nat} {s : Step} {r : Request} {e : Event}
  {p q src dest : Pid} {a a' : Stance} {d d' : Descriptor} {msg : Message}

section
variable (h : Run Call.Admissible config steps k) (hs : steps[i]? = some s)
include h hs

/-- A tick puts something into a slot only after the call has been told of, for each timeout that fires. -/
theorem events_of_tick {ms : UInt32} (hr : s.request? = some (.tick ms)) : ∃ (opening : List Event) (l : List Pid),
    (∀ e ∈ opening, e.fill? = none) ∧ s.events = opening ++ l.flatMap fun p => [.expired p, .notified p .timeout] := by
  obtain ⟨hrun, hc, hok⟩ := h.step hs
  obtain ⟨P, hk, hrest, -⟩ := hrun.boxed
  obtain ⟨lines, -, -, htrace⟩ := hk.call_ok hrest hc.1 hok
  rcases hrest.after_cases (lines.map .dumped) s.call with ⟨r, Q, hr', hafter, hQ, -, hstill⟩ | ⟨-, hnone, -⟩ |
    ⟨p, hown⟩ | ⟨hnone, -⟩
  · obtain rfl := Option.some_inj.mp (hr.symm.trans hr')
    obtain ⟨quiet, hquiet, hall⟩ := hstill.trace
    obtain ⟨l, hl⟩ := (hQ.asked (.tick ms)).tick_trace ms
    have hasked : (Q.asked (.tick ms)).trace = P.trace ++ (quiet ++ [.requested Q.current (.tick ms)]) := by
      rw [← List.append_assoc, ← hquiet]
      rfl
    have hserved : (Q.serve (lines.map .dumped) (.tick ms)).trace = _ := hl
    rw [hafter, hserved, hasked, List.append_assoc] at htrace
    refine ⟨_, l, ?_, (List.append_cancel_left htrace).symm⟩
    intro e he
    rcases List.mem_append.mp he with he | he
    · exact Event.fill?_of_quiet (hall e he)
    · rw [List.mem_singleton.mp he]
      rfl
  · cases hr.symm.trans hnone
  · rw [Step.request?, hown] at hr
    cases hr
  · cases hr.symm.trans hnone

/-- What a tick puts into a slot is the news that the timeout of its process has fired. -/
theorem fill_of_tick {ms : UInt32} (hr : s.request? = some (.tick ms)) (he : e ∈ s.events)
    (hfill : e.fill? = some (q, msg)) : e = .notified q .timeout ∧ .expired q ∈ s.events := by
  obtain ⟨opening, l, hopening, hevents⟩ := h.events_of_tick hs hr
  rw [hevents] at he ⊢
  rcases List.mem_append.mp he with he | he
  · cases (hopening e he).symm.trans hfill
  · obtain ⟨p, hp, he⟩ := List.mem_flatMap.mp he
    simp only [List.mem_cons, List.not_mem_nil, or_false] at he
    rcases he with rfl | rfl
    · cases hfill
    · obtain ⟨rfl, -⟩ := Prod.mk.inj (Option.some_inj.mp hfill)
      exact ⟨rfl, List.mem_append_right _ (List.mem_flatMap.mpr ⟨p, hp, List.mem_cons_self⟩)⟩

/-! ### Where messages go -/

/-- A message that is delivered is in the slot of its receiver, which neither waits nor is blocked. -/
theorem delivered_got (he : .delivered src dest msg ∈ s.events) (ha : s.after.stance dest = some a) :
    msg.sender = src ∧ a.slot = some msg ∧ a.state ≠ .sending ∧ a.state ≠ .sendRec ∧ a.state ≠ .receiving := by
  obtain ⟨m, asks, -, rfl, -⟩ := (h.path hs).delivery he
  exact ⟨rfl, (h.after_boxed hs).of_keeping ha ((h.path hs).filled he rfl)⟩

/-- Nothing is put into a slot that holds after the step what it has held. -/
theorem not_filled_of_kept (ha : s.after.stance p = some a) (hopen : s.opening p = .keeping a.slot)
    (he : e ∈ s.events) : e.fill? ≠ some (p, msg) := by
  intro hfill
  obtain ⟨hslot, -⟩ := (h.after_boxed hs).of_keeping ha ((h.path hs).filled he hfill)
  rw [hslot] at hopen
  exact (h.path hs).not_filled hopen he msg hfill

/-- Nor is anything put into the slot of a process that goes on as it was. -/
theorem not_filled_of_same (hp : p ≠ s.before.current) (ha : s.before.stance p = some a)
    (ha' : s.after.stance p = some a') (state : a'.state = a.state) (slot : a'.slot = a.slot) (he : e ∈ s.events) :
    e.fill? ≠ some (p, msg) := by
  intro hfill
  obtain ⟨-, hsending, hsendRec, hreceiving⟩ := (h.after_boxed hs).of_keeping ha' ((h.path hs).filled he hfill)
  rw [state] at hsending hsendRec hreceiving
  have hopen : s.opening p = .keeping a'.slot := by
    rw [Step.opening_of_ne hp, Kernel.box_of_settled ha hsending hsendRec hreceiving, slot]
  exact h.not_filled_of_kept hs ha' hopen he hfill

/-- A message of a process that does not run is delivered to the process whose waiting list its sender is in. -/
theorem waiting_of_delivered (he : .delivered src dest msg ∈ s.events) (hsrc : src ≠ s.before.current) :
    ∃ d, s.before.process? src = some d ∧ d.link = some (.waiting dest) ∧ (s.before.process? dest).isSome := by
  obtain ⟨m, asks, hoffers, -⟩ := (h.path hs).delivery he
  rw [Step.opening_of_ne hsrc] at hoffers
  obtain ⟨d, hd, hstate, hl, -⟩ := Kernel.of_box_offering hoffers
  obtain ⟨dest', hl', hsome⟩ := ((h.step hs).1.boxed.inRoles.sending src d hd).mp hstate
  obtain rfl := Link.waiting.inj (Option.some_inj.mp (hl.symm.trans hl'))
  exact ⟨d, hd, hl, hsome⟩

/-- A message between two processes that do not run is a reply that is found when a request is taken. -/
theorem reply_of_delivered (hr : s.request? = some r) (he : .delivered src dest msg ∈ s.events)
    (hsrc : src ≠ s.before.current) (hdest : dest ≠ s.before.current) :
    (∃ filter timeout, s.request? = some (.receive filter timeout)) ∧ s.before.state? dest = some .sendRec ∧
      s.after.state? dest = some .active ∧ s.before.state? src = some .sending ∧ msg.ty = .reply := by
  obtain ⟨P, hk, hrest, hm, hfates⟩ := h.fates hs
  obtain ⟨-, -, -, hsome⟩ := h.waiting_of_delivered hs he hsrc
  obtain ⟨d, hd⟩ := Option.isSome_iff_exists.mp hsome
  have ha := Kernel.stance_eq hd
  obtain ⟨a', ha', hfate, -⟩ := hfates dest d.stance ha
  obtain ⟨hsender, hslot, -⟩ := h.delivered_got hs he ha'
  cases hfate hdest with
  | same => exact absurd rfl (h.not_filled_of_same hs hdest ha ha' rfl rfl he)
  | counted => exact absurd rfl (h.not_filled_of_same hs hdest ha ha' rfl rfl he)
  | sent r m =>
    -- A message of the process that runs is excluded here.
    rw [← Option.some_inj.mp hslot] at hsender
    exact absurd (hk.current.symm.trans hsender).symm hsrc
  | interrupted signal | alerted signal => cases (Call.signal?_of_request hr P.lines).symm.trans signal
  | expired ms due request => cases (h.fill_of_tick hs request he rfl).1
  | released | asked => cases hslot
  | answered filter timeout replier reply request blocked sender slot =>
    obtain rfl := Option.some_inj.mp hslot
    -- The one case left: the request of the process is taken, and its reply was sent early.
    obtain rfl : replier = src := hsender
    obtain ⟨reply', b, hslot', hty, hb, hstate⟩ := (hm.mono nofun).replier hrest.sound sender
    obtain rfl := Option.some_inj.mp (slot.symm.trans hslot')
    rw [hk.stance] at hb
    refine ⟨⟨filter, timeout, request⟩, ?_, Kernel.state?_eq ha', ?_, hty⟩
    · rw [Kernel.state?_eq ha, blocked]
    · rw [Kernel.state?_eq hb, hstate]

/-- A message goes to the process that runs only if that receives, or finds a reply to the request that it sends. -/
theorem wanted_of_delivered (hr : s.request? = some r) (he : .delivered src s.before.current msg ∈ s.events) :
    (∃ filter timeout, r = .receive filter timeout) ∨ (∃ register m, r = .sendRec register m) ∧ msg.ty = .reply := by
  obtain ⟨P, hk, hrest, hm, hfates⟩ := h.fates hs
  obtain ⟨a, ha⟩ := h.stance_of_current hs
  obtain ⟨a', ha', -, hturn⟩ := hfates _ a ha
  obtain ⟨-, hslot, hsending, hsendRec, -⟩ := h.delivered_got hs he ha'
  -- What the request does not put away is in the slot already.
  have hkept : (∀ own, r.opens own = own) → a'.slot ≠ a.slot := by
    intro hopens hsame
    obtain ⟨slot, hown⟩ := h.own hs
    have hopen : s.opening s.before.current = .keeping a'.slot := by
      rw [s.opening_self, Call.opens_of_request hr, hopens, hown, hsame, ((h.step hs).1.boxed.of_keeping ha hown).1]
    exact h.not_filled_of_kept hs ha' hopen he rfl
  cases hturn rfl with
  | received filter timeout src m request => exact .inl ⟨filter, timeout, Option.some_inj.mp (hr.symm.trans request)⟩
  | interrupted filter timeout request => exact .inl ⟨filter, timeout, Option.some_inj.mp (hr.symm.trans request)⟩
  | blocks filter timeout _ request => exact .inl ⟨filter, timeout, Option.some_inj.mp (hr.symm.trans request)⟩
  | expired filter request => exact .inl ⟨filter, _, Option.some_inj.mp (hr.symm.trans request)⟩
  | answered register m replier reply request sender slot =>
    obtain rfl := Option.some_inj.mp hslot
    obtain ⟨reply', b, hslot', hty, -⟩ := (hm.mono nofun).replier hrest.sound sender
    obtain rfl := Option.some_inj.mp (slot.symm.trans hslot')
    exact .inr ⟨⟨register, m, Option.some_inj.mp (hr.symm.trans request)⟩, hty⟩
  | idle fits =>
    have hfits := fits r hr
    cases r with
    | yield | exit | dump | tick _ => exact absurd rfl (hkept fun _ => rfl)
    | _ => exact absurd hfits id
  | exited request =>
    obtain rfl := Option.some_inj.mp (hr.symm.trans request)
    exact absurd rfl (hkept fun _ => rfl)
  | sent => cases hslot
  | awaits => cases hslot
  | sends => exact absurd rfl hsending
  | asks => exact absurd rfl hsendRec
  | took request => cases hr.symm.trans request
  | alerted signal => cases (Call.signal?_of_request hr P.lines).symm.trans signal

/-- A process goes out of a waiting list only if its message is delivered. -/
theorem delivered_of_left (hd : s.before.process? src = some d) (hl : d.link = some (.waiting dest))
    (hleft : s.after.table.linkOf src ≠ some (.waiting dest)) : ∃ msg, .delivered src dest msg ∈ s.events := by
  obtain ⟨P, R, hk, -, hk', -⟩ := h.proper.conducts hs
  have hmem : src ∈ P.waiters dest := hk.mem_waiters.mpr ((Table.linkOf_of_get? hd).trans hl)
  have hgone : src ∉ R.waiters dest := mt hk'.mem_waiters.mp hleft
  exact ((h.serves hs dest).leaves _ _ (hk.waiters dest) (hk'.waiters dest) src hmem hgone).2

/-- Who is blocked no more has delivered its message. -/
theorem delivered_of_unblocked (hd : s.before.process? src = some d) (hs₁ : d.state = .sending ∨ d.state = .sendRec)
    (ha : s.after.stance src = some a) (hs₂ : a.state ≠ .sending ∧ a.state ≠ .sendRec) :
    ∃ dest msg, d.link = some (.waiting dest) ∧ .delivered src dest msg ∈ s.events := by
  obtain ⟨dest, hl, -⟩ := ((h.step hs).1.boxed.inRoles.sending src d hd).mp hs₁
  obtain ⟨d', hd', rfl⟩ := Kernel.stance_eq_some ha
  -- In the list it would still hold its message out, and so be blocked.
  have hleft : s.after.table.linkOf src ≠ some (.waiting dest) := by
    intro hlink
    obtain ⟨m, asks, hoffers⟩ := (h.after_boxed hs).box_of_waiting hlink
    obtain ⟨e, he, hstate, -⟩ := Kernel.of_box_offering hoffers
    obtain rfl := Option.some_inj.mp (hd'.symm.trans he)
    rcases hstate with hstate | hstate
    · exact hs₂.1 hstate
    · exact hs₂.2 hstate
  obtain ⟨msg, he⟩ := h.delivered_of_left hs hd hl hleft
  exact ⟨dest, msg, hl, he⟩

/-- Who gets a reply to a request that was blocked has had it taken. -/
theorem seeksReply_of_delivered (hr : s.request? = some r) (he : .delivered src dest msg ∈ s.events)
    (hsrc : src ≠ s.before.current) (hdest : dest ≠ s.before.current) : s.SeeksReply dest ∧ msg.ty = .reply := by
  obtain ⟨⟨filter, timeout, hreceive⟩, hblocked, hactive, -, hty⟩ := h.reply_of_delivered hs hr he hsrc hdest
  obtain ⟨d, hd, hstate⟩ := Option.map_eq_some_iff.mp hblocked
  obtain ⟨d', hd', hstate'⟩ := Option.map_eq_some_iff.mp hactive
  have hunblocked : d'.stance.state ≠ .sending ∧ d'.stance.state ≠ .sendRec := by
    rw [show d'.stance.state = .active from hstate']
    decide
  obtain ⟨next, m, -, he'⟩ := h.delivered_of_unblocked hs hd (.inr hstate) (Kernel.stance_eq hd') hunblocked
  refine ⟨?_, hty⟩
  by_cases hnext : next = s.before.current
  · exact .taken filter timeout m hreceive hblocked (hnext ▸ he')
  · -- A request is no reply, and only replies go to processes that do not run.
    obtain ⟨-, -, -, hsending, -⟩ := h.reply_of_delivered hs hr he' hdest hnext
    cases hblocked.symm.trans hsending

/-! ### Bystanders -/

/-- Who delivers its message takes part in the step. -/
theorem involves_of_delivered (hr : s.request? = some r) (hl : d.link = some (.waiting dest))
    (hq : q ≠ s.before.current) (he : .delivered q dest msg ∈ s.events) : s.Involves q d := by
  by_cases hdest : dest = s.before.current
  · subst hdest
    rcases h.wanted_of_delivered hs hr he with ⟨filter, timeout, rfl⟩ | ⟨⟨register, m, rfl⟩, hty⟩
    · exact .sender filter timeout msg hr hl he
    · exact .replier _ msg (.sends register m rfl hr) hl hty he
  · obtain ⟨hseeks, hty⟩ := h.seeksReply_of_delivered hs hr he hq hdest
    exact .replier dest msg hseeks hl hty he

/-- What a process that does not run waits for and has got changes only if it takes part in the step. -/
theorem stance_or_involves (hr : s.request? = some r) (hq : q ≠ s.before.current) (hd : s.before.process? q = some d) :
    ∃ a', s.after.stance q = some a' ∧ (a' = d.stance ∨ s.Involves q d) := by
  have hboxed := (h.step hs).1.boxed
  obtain ⟨P, hk, hrest, hm, hfates⟩ := h.fates hs
  have ha := Kernel.stance_eq hd
  obtain ⟨a', ha', hfate, -⟩ := hfates q d.stance ha
  have hentry : ∀ {due}, d.stance.deadline = some due → q ∈ s.before.timeouts.entries := by
    intro due hdue
    rw [hboxed.mem_entries ha, hdue, Option.isSome_some]
  have hunblocked : (d.state = .sending ∨ d.state = .sendRec) → (a'.state ≠ .sending ∧ a'.state ≠ .sendRec) →
      s.Involves q d := by
    intro hblocked hunblocked
    obtain ⟨dest, msg, hl, he⟩ := h.delivered_of_unblocked hs hd hblocked ha' hunblocked
    exact h.involves_of_delivered hs hr hl hq he
  refine ⟨a', ha', ?_⟩
  cases hfate hq with
  | same => exact .inl rfl
  | sent r' msg request outgoing accepts =>
    have hposts : s.Posts s.before.current q msg := (h.posts_iff hs).mpr ⟨rfl, r', request, outgoing⟩
    have hreceiving := Stance.receiving_of_accepts accepts
    rw [Stance.accepts_of_receiving hreceiving] at accepts
    exact .inr (.destination msg hposts hreceiving accepts)
  | interrupted signal | alerted signal => cases (Call.signal?_of_request hr P.lines).symm.trans signal
  | expired ms due request _ deadline => exact .inr (.timed ms request (hentry deadline))
  | counted ms due left request deadline => exact .inr (.timed ms request (hentry deadline))
  | released _ _ _ blocked => exact .inr (hunblocked (.inl blocked) (by simp [Stance.released]))
  | asked _ _ _ blocked => exact .inr (hunblocked (.inr blocked) (by simp [Stance.awaiting]))
  | answered _ _ _ _ _ blocked => exact .inr (hunblocked (.inr blocked) (by simp [Stance.got]))

/-- A tick that does not fire the timeout of a process changes its deadline at most. -/
theorem counted_of_unexpired {ms : UInt32} (hr : s.request? = some (.tick ms)) (hq : q ≠ s.before.current)
    (ha : s.before.stance q = some a) (ha' : s.after.stance q = some a') (unexpired : .expired q ∉ s.events) :
    a' = { a with deadline := a'.deadline } := by
  obtain ⟨P, -, -, -, hfates⟩ := h.fates hs
  obtain ⟨b, hb, hfate, -⟩ := hfates q a ha
  obtain rfl := Option.some_inj.mp (ha'.symm.trans hb)
  cases hfate hq with
  | same | counted => rfl
  | sent r msg request outgoing =>
    obtain rfl := Option.some_inj.mp (request.symm.trans hr)
    cases outgoing
  | interrupted signal | alerted signal => cases (Call.signal?_of_request hr P.lines).symm.trans signal
  | expired ms due request receiving =>
    obtain ⟨e, he, m, hfill⟩ := (h.writes_of_got hs ha receiving hq ha').1.fills
    exact absurd (h.fill_of_tick hs request he hfill).2 unexpired
  | released r request untimed => exact absurd (Option.some_inj.mp (request.symm.trans hr)) (untimed ms)
  | asked _ _ request | answered _ _ _ _ request => cases hr.symm.trans request

/-- Who comes into a waiting list has sent its message in this step. -/
theorem posts_of_waiting (hlink : s.before.table.linkOf p ≠ some (.waiting dest)) (hd : s.after.process? p = some d)
    (hl : d.link = some (.waiting dest)) : ∃ msg, s.Posts p dest msg := by
  obtain ⟨hrun, -, hok⟩ := h.step hs
  rcases hrun.spares hok p (.waiting dest) ⟨d, hd, hl⟩ with ⟨e, he, hold⟩ | ⟨rfl, register, msg, hlookup, hr⟩
  · exact absurd ((Table.linkOf_of_get? he).trans hold) hlink
  · exact ⟨msg, rfl, register, hlookup, hr⟩

/-- The head of a waiting list changes only where somebody comes or leaves. -/
theorem queues_of_waiting (hd : s.before.process? q = some d) (hd' : s.after.process? q = some d')
    (hne : d'.waiting ≠ d.waiting) : s.Queues q := by
  obtain ⟨P, R, hk, hrest, hk', -, -, hconducts⟩ := h.proper.conducts hs
  have hhead : d.waiting = (P.waiters q).head? := (Table.waitingOf_of_get? hd).symm.trans (hk.waitingOf_eq q)
  have hhead' : d'.waiting = (R.waiters q).head? := (Table.waitingOf_of_get? hd').symm.trans (hk'.waitingOf_eq q)
  have hchanged : R.waiters q ≠ P.waiters q := by
    intro hsame
    exact hne (by rw [hhead, hhead', hsame])
  rcases mem_or_gone (hconducts.waiters q) (hrest.sound.queue _) hchanged with hcomes | ⟨src, hsrc, hgone⟩
  · rw [hk.current] at hcomes
    obtain ⟨e, he, hl⟩ := Option.bind_eq_some_iff.mp (hk'.mem_waiters.mp hcomes)
    -- The newcomer runs, so it was in no list before.
    have hunlinked : s.before.table.linkOf s.before.current ≠ some (.waiting q) := by
      obtain ⟨c, hc, hfree, -⟩ := (h.step hs).1.boxed.inRoles.current
      rw [Table.linkOf_of_get? hc, hfree]
      nofun
    obtain ⟨msg, hposts⟩ := h.posts_of_waiting hs hunlinked he hl
    exact .comes msg hposts (hk'.queued he hl)
  · obtain ⟨e, he, hl⟩ := Option.bind_eq_some_iff.mp (hk.mem_waiters.mp hsrc)
    obtain ⟨msg, hdelivered⟩ := h.delivered_of_left hs he hl (mt hk'.mem_waiters.mpr hgone)
    exact .leaves src msg (hk.queued he hl) hdelivered

end

end Run

/-- A request leaves the processes alone that do not take part in it: what they wait for and have got, their contexts
and priorities stay, and a tick changes at most the deadlines of those whose timeouts do not fire. The head of a waiting
list stays if nobody comes or leaves. -/
theorem bystanders_undisturbed {config : Config} {steps : List Step} {k : Kernel}
    (h : Run Call.Admissible config steps k) {i : Nat} {s : Step} (hs : steps[i]? = some s) {r : Request}
    (hr : s.request? = some r) :
    (∀ q d, q ≠ s.before.current → s.before.process? q = some d →
      ∃ d', s.after.process? q = some d' ∧ s.Respects q d d') ∧
      ∀ q d d', s.before.process? q = some d → s.after.process? q = some d' → d'.waiting ≠ d.waiting → s.Queues q := by
  refine ⟨?_, fun q d d' hd hd' hne => h.queues_of_waiting hs hd hd' hne⟩
  intro q d hq hd
  obtain ⟨a', ha', hstance⟩ := h.stance_or_involves hs hr hq hd
  obtain ⟨d', hd', rfl⟩ := Kernel.stance_eq_some ha'
  have hstanding := (h.handles hs).bystander hr hq
  rw [Kernel.standing?_eq, Kernel.standing?_eq, hd, hd'] at hstanding
  refine ⟨d', hd', Option.some_inj.mp hstanding, hstance, ?_⟩
  intro ms hms unexpired
  exact h.counted_of_unexpired hs hms hq (Kernel.stance_eq hd) ha' unexpired

/-- Those who consult, beside a process that waits for a while. -/
def asideCalls : List Call :=
  [.start "server" 0 0 0, .start "client" 0 0 0, .start "adviser" 0 0 0, .start "sleeper" 0 0 0, .launch, .serve .yield,
    .serve (.sendRec 1 (.new ⟨16⟩)), .serve (.send 2 (.new .reply)), .serve (.receive .any (some 5)),
    .serve (.receive .any none)]

/-- What comes of the request and the reply. -/
def aside : List Step × Kernel := ((Kernel.boot {}).follow Call.Admissible asideCalls).get (by decide +kernel)

/-- The server takes the request, and with it the client gets the reply of the adviser. The sleeper waits on. -/
theorem bystanders_undisturbed_aside : ∃ s d e e', aside.1[9]? = some s ∧ s.request? = some (.receive .any none) ∧
    s.before.process? ⟨3⟩ = some d ∧ s.Involves ⟨3⟩ d ∧ s.before.process? ⟨4⟩ = some e ∧
      s.after.process? ⟨4⟩ = some e' ∧ e.state = .receiving ∧ e'.stance = e.stance := by
  have hrun : Run Call.Admissible {} aside.1 aside.2 := Run.of_boot (Option.some_get _).symm
  have hadviser : aside.1[9]?.map (fun s => (s.request?, s.before.current, s.before.state? ⟨3⟩, s.after.state? ⟨3⟩)) =
      some (some (.receive .any none), ⟨1⟩, some .sending, some .active) := by decide +kernel
  have hsleeper : aside.1[9]?.map (fun s => (s.before.state? ⟨4⟩, s.before.table.linkOf ⟨4⟩)) =
      some (some .receiving, none) := by decide +kernel
  obtain ⟨s, hs, heq⟩ := Option.map_eq_some_iff.mp hadviser
  obtain ⟨hr, heq⟩ := Prod.mk.inj heq
  obtain ⟨hcurrent, heq⟩ := Prod.mk.inj heq
  obtain ⟨hbefore, hafter⟩ := Prod.mk.inj heq
  rw [hs, Option.map_some] at hsleeper
  obtain ⟨hwaits, hlink⟩ := Prod.mk.inj (Option.some_inj.mp hsleeper)
  obtain ⟨d, hd, hsending⟩ := Option.map_eq_some_iff.mp hbefore
  obtain ⟨e, he, hreceiving⟩ := Option.map_eq_some_iff.mp hwaits
  obtain ⟨hleaves, -⟩ := bystanders_undisturbed hrun hs hr
  obtain ⟨d', hd', hadvises⟩ := hleaves ⟨3⟩ d (by rw [hcurrent]; decide) hd
  obtain ⟨e', he', hsleeps⟩ := hleaves ⟨4⟩ e (by rw [hcurrent]; decide) he
  have hinvolved : s.Involves ⟨3⟩ d := by
    refine hadvises.stance.resolve_left ?_
    intro hsame
    have hstate : d'.state = d.state := congrArg Stance.state hsame
    rw [Kernel.state?, hd', Option.map_some, hstate, hsending] at hafter
    cases hafter
  have haside : ¬s.Involves ⟨4⟩ e := by
    rw [Table.linkOf_of_get? he] at hlink
    rintro (⟨msg, ⟨-, register, -, hsends | hsends⟩⟩ | ⟨-, -, msg, -, hwaits⟩ | ⟨asker, reply, -, hwaits⟩ |
      ⟨ms, hticks⟩)
    · cases hr.symm.trans hsends
    · cases hr.symm.trans hsends
    · cases hlink.symm.trans hwaits
    · cases hlink.symm.trans hwaits
    · cases hr.symm.trans hticks
  exact ⟨s, d, e, e', hs, hr, hd, hinvolved, he, he', hreceiving, hsleeps.stance.resolve_right haside⟩

end Rendezvous
