import Rendezvous.Proofs.Completion

/-! # Requests and their replies

A process that has sent a request is blocked with it until the request is taken, and waits for the reply from that
moment on. It runs again with a reply of another process in its slot; nothing else wakes it. -/

namespace Rendezvous

namespace Kernel

/-- What a process that has sent a request to `dest` does: it holds the request out, waits for the reply or has it. -/
inductive Inquiring (k : Kernel) (p dest : Pid) (msg : Message) (a : Stance) : Prop
  | asks (state : a.state = .sendRec) (box : k.box p = .offering dest msg true)
  | awaits (state : a.state = .receiving) (filter : a.filter = .reply)
  | answered (reply : Message) (state : a.state = .active) (slot : a.slot = some reply) (ty : reply.ty = .reply)
      (other : reply.sender ≠ p) (known : (k.stance reply.sender).isSome)

/-- The process `p` has sent a request to `dest` and has not run since. -/
def Inquires (k : Kernel) (p dest : Pid) (msg : Message) : Prop :=
  ∃ a, k.stance p = some a ∧ a.deadline = none ∧ k.Inquiring p dest msg a

/-- It is blocked with its request in the waiting list of `dest`. -/
def Asks (k : Kernel) (p dest : Pid) (msg : Message) : Prop :=
  ∃ d, k.process? p = some d ∧ d.state = .sendRec ∧ k.Queued p (.waiting dest) ∧ d.slot = some msg

/-- It waits for a reply, for as long as it takes. -/
def Awaits (k : Kernel) (p : Pid) : Prop :=
  ∃ d, k.process? p = some d ∧ d.state = .receiving ∧ d.filter = .reply ∧ d.deadline = none

/-- It runs or is in the ready queue of its priority, and a reply of another process is in its slot. -/
def Answered (k : Kernel) (p : Pid) : Prop :=
  ∃ d reply, k.process? p = some d ∧ d.state = .active ∧
    (p ≠ k.current → ∃ l, d.priority.level? = some l ∧ k.Queued p (.ready l)) ∧
    d.slot = some reply ∧ reply.ty = .reply ∧ reply.sender ≠ p ∧ (k.process? reply.sender).isSome

variable {k k' : Kernel} {P : Plain} {c : Call} {answer : Answer} {p src dest : Pid} {a : Stance} {msg reply : Message}

/-- A request that is held out before the events of a call, by a process that is blocked after them, is still held
out. -/
theorem Boxed.still_asks {runs : Pid} {b : Boxes} {es : List Event} (h : k.Boxed) (hpath : Path runs b es k.box)
    (ha : k.stance p = some a) (hs : a.state = .sendRec) (hb : b p = .offering dest msg true) :
    k.box p = .offering dest msg true := by
  obtain ⟨d, m, hbox⟩ := h.box_of_sendRec ha hs
  obtain ⟨rfl, rfl, -⟩ := Box.offering.inj (hb.symm.trans (hpath.offered hbox))
  exact hbox

/-- What is taken as a reply to `p`, who waits for none yet, comes from another process. -/
theorem Shows.replier (hk : k.Shows P) (hrest : P.Rests) (hm : P.Mail [] k.box) (ha : k.stance p = some a)
    (hs : a.state ≠ .sending) (hf : P.sender? p .reply = some src) (hslot : P.slot src = some reply) :
    reply.ty = .reply ∧ src ≠ p ∧ (k.stance src).isSome := by
  obtain ⟨m, b, hm', hty, hb, hsending⟩ := (hm.mono nofun).replier hrest.sound hf
  obtain rfl := Option.some_inj.mp (hm'.symm.trans hslot)
  rw [hk.stance] at hb
  refine ⟨hty, ?_, by rw [hb, Option.isSome_some]⟩
  rintro rfl
  obtain rfl := Option.some_inj.mp (ha.symm.trans hb)
  exact hs hsending

/-- A call of another process leaves an inquiry as it is or takes it a step further. -/
theorem Inquires.call (hq : k.Inquires p dest msg) (h : k.Boxed) (hc : c.Admissible k)
    (hok : (k.call c).outcome = .ok (answer, k')) (hp : p ≠ k.current) : k'.Inquires p dest msg := by
  obtain ⟨hboxed, hpath⟩ := h.call hc hok
  obtain ⟨P, hk, hrest, hm, hfates⟩ := h.fates hc hok
  have hknown : ∀ q, (k.stance q).isSome → (k'.stance q).isSome := fun q hsome => by
    obtain ⟨b, hb⟩ := Option.isSome_iff_exists.mp hsome
    obtain ⟨b', hb', -⟩ := hfates q b hb
    rw [hb', Option.isSome_some]
  obtain ⟨a, ha, hdead, hq⟩ := hq
  obtain ⟨a', ha', hfate, -⟩ := hfates p a ha
  have hfate := hfate hp
  refine ⟨a', ha', hfate.deadline hdead, ?_⟩
  cases hq with
  | asks state box =>
    rcases hfate.of_sendRec state with hs | rfl | ⟨replier, reply, hf, hslot, rfl⟩
    · exact .asks hs (hboxed.still_asks hpath ha' hs ((Function.update_of_ne hp ..).trans box))
    · exact .awaits rfl rfl
    · obtain ⟨hty, hne, hsome⟩ := hk.replier hrest hm ha (by simp [state]) hf hslot
      exact .answered _ rfl rfl hty hne (hknown _ hsome)
  | awaits state filter =>
    rcases hfate.of_receiving state with ⟨hs, hf, -⟩ | ⟨r, m, -, -, hacc, rfl⟩ | ⟨-, hacc, -⟩ | ⟨ms, due, -, hdue, -⟩
    · exact .awaits hs (hf.trans filter)
    · -- The reply comes from the process that runs.
      have hcurrent : (k.stance P.current).isSome := by
        obtain ⟨d, hd⟩ := Option.isSome_iff_exists.mp hrest.sound.current
        rw [← hk.stance, Plain.stance_eq hd, Option.isSome_some]
      rw [filter] at hacc
      exact .answered _ rfl rfl (MessageType.eq_reply_of_accepts hacc) (fun he => hp (he.symm.trans hk.current))
        (hknown _ hcurrent)
    · rw [filter] at hacc
      -- The filter is for replies, so an interrupt does not end the wait.
      exact absurd hacc (by decide)
    · cases hdead.symm.trans hdue
  | answered reply state slot ty other known =>
    obtain ⟨hs, hslot⟩ := hfate.of_active state
    exact .answered reply hs (hslot.trans slot) ty other (hknown _ known)

/-- What an inquiry looks like, told by the box of its process. -/
theorem Inquires.cases (hq : k.Inquires p dest msg) (h : k.Boxed) :
    k.box p = .offering dest msg true ∧ k.Asks p dest msg ∨
      (∀ d m asks, k.box p ≠ .offering d m asks) ∧ (k.Awaits p ∨ k.Answered p) := by
  obtain ⟨a, ha, hdead, hq⟩ := hq
  obtain ⟨d, hd, rfl⟩ := stance_eq_some ha
  cases hq with
  | asks state box =>
    obtain ⟨e, he, -, hlink, hslot⟩ := of_box_offering box
    obtain rfl := Option.some_inj.mp (hd.symm.trans he)
    exact .inl ⟨box, d, hd, state, h.queued hd hlink, hslot⟩
  | awaits state filter =>
    exact .inr ⟨by simp [h.box_of_receiving ha state], .inl ⟨d, hd, state, filter, hdead⟩⟩
  | answered reply state slot ty other known =>
    have hsome : (k.process? reply.sender).isSome := by rwa [stance, Option.isSome_map] at known
    exact .inr ⟨by simp [box_of_active ha state], .inr ⟨d, reply, hd, state, h.ready hd state, slot, ty, other, hsome⟩⟩

end Kernel

/-- What becomes of the request that `p` sends to `dest` in step `i`, and of `p` itself until it runs again. -/
structure Inquiry (steps : List Step) (i : Nat) (p dest : Pid) (msg : Message) : Prop where
  transfer : Transfer steps i p dest msg
  /-- As long as the request is not delivered, `p` is blocked with it; from then on `p` waits for a reply or has one. -/
  phase : ∀ j s, i ≤ j → steps[j]? = some s → Aside steps p i j →
    s.after.Asks p dest msg ∧ (∀ t ≤ j, ¬Delivery steps p i t) ∨
      (∃! t, t ≤ j ∧ Delivery steps p i t) ∧ (s.after.Awaits p ∨ s.after.Answered p)
  /-- The call that delivers the request lets `p` wait. -/
  atomic : ∀ j s, steps[j]? = some s → Delivery steps p i j →
    (i < j → s.before.Asks p dest msg) ∧ (s.after.Awaits p ∨ s.after.Answered p)
  /-- When `p` runs again, it has a reply of another process. -/
  answer : ∀ j s, i ≤ j → steps[j]? = some s → Aside steps p i j → s.after.current = p →
    ∃ reply, s.after.message? p = some reply ∧ reply.ty = .reply ∧ reply.sender ≠ p ∧
      (s.after.process? reply.sender).isSome
  /-- An interrupt for `p` becomes pending and does nothing else to it. -/
  pending : ∀ j s, i < j → steps[j]? = some s → Aside steps p i j → s.signal? = some p →
    s.after.stance p = (s.before.stance p).map fun a => { a with pending := true }
  timeless : ∀ j s ms, i < j → steps[j]? = some s → Aside steps p i j → s.request? = some (.tick ms) →
    s.after.stance p = s.before.stance p
  /-- Only a reply wakes `p`. -/
  woken : ∀ j s, i < j → steps[j]? = some s → Aside steps p i j → s.before.state? p ≠ some .active →
    s.after.state? p = some .active → ∃ src reply, .delivered src p reply ∈ s.events ∧ reply.ty = .reply
  /-- A reply that is sent to `p` while it waits is not missed. -/
  prompt : ∀ j s src reply, i < j → steps[j]? = some s → Aside steps p i j → s.before.Awaits p → s.Posts src p reply →
    reply.ty = .reply → s.after.Answered p

namespace Run

variable {config : Config} {steps : List Step} {k : Kernel} {i j : Nat} {s s' : Step} {p dest : Pid} {msg : Message}

section
variable (h : Run Call.Admissible config steps k)
include h

/-- A process that sends a request is blocked in it, waits for the reply or has it. -/
theorem inquires_after (hs : steps[i]? = some s) {register : Int32} (hr : s.request? = some (.sendRec register msg))
    (hl : s.before.table.lookup register = .ok dest) : s.after.Inquires s.before.current dest msg := by
  have hstep := h.step hs
  obtain ⟨a, ha⟩ := h.stance_of_current hs
  obtain ⟨P, hk, hrest, hm, hfates⟩ := h.fates hs
  obtain ⟨a', ha', -, hturn⟩ := hfates _ a ha
  have hcur := hk.current
  have hne : P.current ≠ .idle := fun hi => hstep.2.1.1.fitsIdle (hcur ▸ hi) _ hr
  obtain ⟨hdead, -, hactive⟩ := hrest.stance_current (by rw [hk.stance, hcur, ha])
  refine ⟨a', ha', ?_⟩
  rcases (hturn rfl).of_sendRec hr with ⟨hs', hd⟩ | rfl | ⟨replier, reply, hf, hslot, rfl⟩
  · have hopen : s.opening s.before.current = .offering dest msg true := by
      rw [s.opening_self, Call.opens_of_request hr, h.lookup_named hs hl]
      rfl
    exact ⟨hd.trans hdead, .asks hs' ((h.after_boxed hs).still_asks (h.path hs) ha' hs' hopen)⟩
  · exact ⟨hdead, .awaits rfl rfl⟩
  · rw [hcur] at hf
    obtain ⟨hty, hother, hsome⟩ := hk.replier hrest hm ha (by simp [hactive hne]) hf hslot
    obtain ⟨b, hb⟩ := Option.isSome_iff_exists.mp hsome
    obtain ⟨b', hb', -⟩ := hfates replier b hb
    exact ⟨rfl, .answered _ rfl rfl hty hother (by rw [hb', Option.isSome_some])⟩

/-- Until it runs again, it goes on so. -/
theorem inquires (hs : steps[i]? = some s) (hq : s.after.Inquires p dest msg) (hij : i ≤ j) (hs' : steps[j]? = some s')
    (ha : Aside steps p i j) : s'.after.Inquires p dest msg :=
  h.carry (Q := fun _ k => k.Inquires p dest msg) hs hq
    (fun _ _ _ hu hne hq => have hu := h.step hu; hq.call hu.1.boxed hu.2.1 hu.2.2 hne.symm) hij hs' ha

/-- A step after the request in which `p` does not run begins with `p` inquiring. -/
theorem inquires_before (hs : steps[i]? = some s) (hq : s.after.Inquires p dest msg) (hij : i < j)
    (hs' : steps[j]? = some s') (ha : Aside steps p i j) : s'.before.Inquires p dest msg ∧ p ≠ s'.before.current := by
  obtain ⟨t, u, hit, rfl, hu, hb⟩ := h.before_of_lt hij hs'
  rw [hb]
  exact ⟨h.inquires hs hq hit hu (ha.mono (Nat.le_succ t)), hb ▸ (ha _ s' hij (Nat.le_refl _) hs').symm⟩

/-- A message has been delivered when its sender no longer holds it out. -/
theorem delivered_iff (hs : steps[i]? = some s) (hp : s.Posts p dest msg) (hij : i ≤ j) (hs' : steps[j]? = some s')
    (ha : Aside steps p i j) :
    (∃ t ≤ j, Delivery steps p i t) ↔ ∀ d m asks, s'.after.box p ≠ .offering d m asks := by
  constructor
  · rintro ⟨t, htj, hd⟩
    obtain ⟨u, hu, d, m, he⟩ := hd.delivers
    obtain ⟨-, -, -, -, -, -, -, -, -, -, -, hnone, -⟩ := (h.path hu).delivery he
    refine h.nothing_held hu hnone htj hs' fun v w htv hvj hw d m hpost => ?_
    exact ha v w (Nat.lt_of_le_of_lt hd.order htv) hvj hw hpost.1
  · intro hbox
    by_contra hnone
    obtain ⟨asks, hheld⟩ := h.held_out hs hp
    obtain ⟨hopen, hposts⟩ := hheld j hij s' hs' fun t _ htj hd => hnone ⟨t, Nat.le_of_lt htj, hd⟩
    refine hbox dest msg asks ((h.path hs').stays hopen fun d m he => ?_)
    exact hnone ⟨j, Nat.le_refl j, hij, ⟨s', hs', d, m, he⟩, hposts⟩

/-- A process does not run while it holds a message out. -/
theorem aside_of_delivery (hs : steps[i]? = some s) (hp : s.Posts p dest msg) (hd : Delivery steps p i j) :
    Aside steps p i j := by
  intro t u hit htj hu hcur
  obtain ⟨asks, hheld⟩ := h.held_out hs hp
  obtain ⟨hopen, -⟩ := hheld t (Nat.le_of_lt hit) u hu fun v _ hvt hd' =>
    absurd ((h.transfer hs hp).once v j hd' hd) (Nat.ne_of_lt (Nat.lt_of_lt_of_le hvt htj))
  rcases h.posts_of_opening hu hopen with ⟨hne, -⟩ | hpost
  · exact hne hcur.symm
  · exact hd.latest t u hit htj hu dest msg hpost

/-- What an interrupt and a tick do to a process that inquires. -/
theorem inquires_idly (hs : steps[j]? = some s) (hq : s.before.Inquires p dest msg) (hp : p ≠ s.before.current) :
    (s.signal? = some p → s.after.stance p = (s.before.stance p).map fun a => { a with pending := true }) ∧
      ∀ ms, s.request? = some (.tick ms) → s.after.stance p = s.before.stance p := by
  obtain ⟨P, hk, -, -, hfates⟩ := h.fates hs
  obtain ⟨a, ha, hdead, hq⟩ := hq
  obtain ⟨a', ha', hfate, -⟩ := hfates p a ha
  rw [ha, ha', Option.map_some]
  refine ⟨fun hsignal => ?_, fun ms hr => congrArg some ((hfate hp).of_tick hr hdead)⟩
  rw [Step.signal?, ← hk.lines] at hsignal
  rcases (hfate hp).of_signal hsignal with ⟨hacc, -⟩ | ⟨-, rfl⟩
  · -- It waits for a reply or not at all.
    cases hq with
    | asks state => cases state.symm.trans (Stance.receiving_of_accepts hacc)
    | awaits state filter =>
      rw [Stance.accepts_of_receiving state, filter] at hacc
      exact absurd hacc (by decide)
    | answered reply state => cases state.symm.trans (Stance.receiving_of_accepts hacc)
  · rfl

/-- A process that inquires becomes active when a reply is delivered to it. -/
theorem inquires_woken (hs : steps[j]? = some s) (hq : s.before.Inquires p dest msg) (hp : p ≠ s.before.current)
    (hactive : s.before.state? p ≠ some .active) (hwoken : s.after.state? p = some .active) :
    ∃ src reply, .delivered src p reply ∈ s.events ∧ reply.ty = .reply := by
  have hstep := h.step hs
  have hboxed := hstep.1.boxed
  obtain ⟨a', ha', -, hq'⟩ := hq.call hboxed hstep.2.1 hstep.2.2 hp
  obtain ⟨a, ha, -, hq⟩ := hq
  rw [Kernel.state?_eq ha] at hactive
  rw [Kernel.state?_eq ha'] at hwoken
  have hs' := Option.some_inj.mp hwoken
  obtain ⟨reply, hslot, hty⟩ : ∃ reply, a'.slot = some reply ∧ reply.ty = .reply := by
    cases hq' with
    | asks state => cases hs'.symm.trans state
    | awaits state => cases hs'.symm.trans state
    | answered reply _ slot ty => exact ⟨reply, slot, ty⟩
  -- Before the step the reply was not there yet, so one of its events has put it there.
  have hempty : s.opening p ≠ .keeping (some reply) := by
    rw [Step.opening_of_ne hp]
    cases hq with
    | asks _ box => simp [box]
    | awaits state => simp [hboxed.box_of_receiving ha state]
    | answered _ state => exact absurd (congrArg some state) hactive
  have hkeeps : s.after.box p = .keeping (some reply) := by rw [Kernel.box_of_active ha' hs', hslot]
  obtain ⟨e, he, hfill⟩ := ((h.path hs).kept hkeeps).resolve_left hempty
  cases e with
  | delivered src d m =>
    obtain ⟨rfl, rfl⟩ := Prod.mk.inj (Option.some_inj.mp hfill)
    exact ⟨src, m, he, hty⟩
  | notified d ty =>
    obtain ⟨rfl, rfl⟩ := Prod.mk.inj (Option.some_inj.mp hfill)
    -- The kernel itself makes interrupts and timeouts only.
    rcases (h.path hs).notified he with rfl | rfl
    · exact absurd hty (by decide)
    · exact absurd hty (by decide)
  | _ => cases hfill

theorem inquires_prompt (hs : steps[j]? = some s) (hq : s.before.Inquires p dest msg) (hp : p ≠ s.before.current)
    (hw : s.before.Awaits p) {src : Pid} {reply : Message} (hpost : s.Posts src p reply) (hty : reply.ty = .reply) :
    s.after.Answered p := by
  have hstep := h.step hs
  obtain ⟨d, hd, hstate, hfilter, -⟩ := hw
  have hreceives := hstep.1.boxed.receives (Kernel.stance_eq hd) hstate
  have hbrings : s.Brings p d.filter (.message src reply) := ⟨hpost, by rw [hfilter, hty]; rfl⟩
  obtain ⟨e, he, m, hfill⟩ := h.fills_of_brings hs hreceives hp hbrings (by simp)
  have hbox := (h.path hs).filled he hfill
  rcases (hq.call hstep.1.boxed hstep.2.1 hstep.2.2 hp).cases (h.after_boxed hs) with ⟨hb, -⟩ |
    ⟨-, ⟨d', hd', hstate', -⟩ | hanswered⟩
  · cases hbox.symm.trans hb
  · cases hbox.symm.trans ((h.after_boxed hs).box_of_receiving (Kernel.stance_eq hd') hstate')
  · exact hanswered

/-- Whether the request has been delivered tells what its process does. -/
theorem inquires_delivered (hs : steps[i]? = some s) (hp : s.Posts p dest msg) (hq : s.after.Inquires p dest msg)
    (hij : i ≤ j) (hs' : steps[j]? = some s') (ha : Aside steps p i j) :
    s'.after.Asks p dest msg ∧ (∀ t ≤ j, ¬Delivery steps p i t) ∨
      (∃ t ≤ j, Delivery steps p i t) ∧ (s'.after.Awaits p ∨ s'.after.Answered p) := by
  have hdelivered := h.delivered_iff hs hp hij hs' ha
  rcases (h.inquires hs hq hij hs' ha).cases (h.after_boxed hs') with ⟨hbox, hasks⟩ | ⟨hbox, hdone⟩
  · exact .inl ⟨hasks, fun t htj hd => hdelivered.mp ⟨t, htj, hd⟩ _ _ _ hbox⟩
  · exact .inr ⟨hdelivered.mpr hbox, hdone⟩

/-- The call that delivers the request finds its process blocked and lets it wait. -/
theorem inquires_atomically (hs : steps[i]? = some s) (hp : s.Posts p dest msg) (hq : s.after.Inquires p dest msg)
    (hs' : steps[j]? = some s') (hd : Delivery steps p i j) :
    (i < j → s'.before.Asks p dest msg) ∧ (s'.after.Awaits p ∨ s'.after.Answered p) := by
  have ha := h.aside_of_delivery hs hp hd
  refine ⟨fun hij => ?_, ?_⟩
  · obtain ⟨t, u, hit, rfl, hu, hb⟩ := h.before_of_lt hij hs'
    rcases h.inquires_delivered hs hp hq hit hu (ha.mono (Nat.le_succ t)) with ⟨hasks, -⟩ | ⟨⟨v, hvt, hd'⟩, -⟩
    · exact hb ▸ hasks
    · exact absurd ((h.transfer hs hp).once v _ hd' hd) (Nat.ne_of_lt (Nat.lt_succ_of_le hvt))
  · rcases h.inquires_delivered hs hp hq hd.order hs' ha with ⟨-, hnone⟩ | ⟨-, hdone⟩
    · exact absurd hd (hnone j (Nat.le_refl j))
    · exact hdone

/-- A process that inquires and runs has its reply. -/
theorem inquires_answered (hs : steps[j]? = some s) (hq : s.after.Inquires p dest msg) (hcur : s.after.current = p) :
    ∃ reply, s.after.message? p = some reply ∧ reply.ty = .reply ∧ reply.sender ≠ p ∧
      (s.after.process? reply.sender).isSome := by
  have hboxed := h.after_boxed hs
  obtain ⟨d, hd, -, hstate⟩ := hboxed.inRoles.current
  rw [hcur] at hd
  rcases hq.cases hboxed with ⟨-, e, he, hblocked, -⟩ |
    ⟨-, ⟨e, he, hblocked, -⟩ | ⟨e, reply, he, -, -, hslot, hty, hother, hsome⟩⟩
  · obtain rfl := Option.some_inj.mp (hd.symm.trans he)
    simp [hblocked] at hstate
  · obtain rfl := Option.some_inj.mp (hd.symm.trans he)
    simp [hblocked] at hstate
  · exact ⟨reply, by rw [Kernel.message?, he, Option.bind_some, hslot], hty, hother, hsome⟩

/-- Until it runs again, a process that has sent a request is as an inquiry tells. -/
theorem inquiry (hs : steps[i]? = some s) (hp : s.Posts p dest msg) (hq : s.after.Inquires p dest msg) :
    Inquiry steps i p dest msg where
  transfer := h.transfer hs hp
  phase j u hij hu ha := by
    refine (h.inquires_delivered hs hp hq hij hu ha).imp_right fun hdone => ⟨?_, hdone.2⟩
    obtain ⟨t, htj, hd⟩ := hdone.1
    exact ⟨t, ⟨htj, hd⟩, fun v hv => (h.transfer hs hp).once v t hv.2 hd⟩
  atomic j u hu hd := h.inquires_atomically hs hp hq hu hd
  answer j u hij hu ha hcur := h.inquires_answered hu (h.inquires hs hq hij hu ha) hcur
  pending j u hij hu ha hsignal := by
    obtain ⟨hbefore, hne⟩ := h.inquires_before hs hq hij hu ha
    exact (h.inquires_idly hu hbefore hne).1 hsignal
  timeless j u ms hij hu ha hr := by
    obtain ⟨hbefore, hne⟩ := h.inquires_before hs hq hij hu ha
    exact (h.inquires_idly hu hbefore hne).2 ms hr
  woken j u hij hu ha hidle hwoken := by
    obtain ⟨hbefore, hne⟩ := h.inquires_before hs hq hij hu ha
    exact h.inquires_woken hu hbefore hne hidle hwoken
  prompt j u src reply hij hu ha hw hpost hty := by
    obtain ⟨hbefore, hne⟩ := h.inquires_before hs hq hij hu ha
    exact h.inquires_prompt hu hbefore hne hw hpost hty

end

end Run

/-- A request that does not halt is atomic, and its process runs again with a reply only. -/
theorem request_answered_by_reply {config : Config} {steps : List Step} {k : Kernel}
    (h : Run Call.Admissible config steps k) {i : Nat} {s : Step} (hs : steps[i]? = some s) {register : Int32}
    {msg : Message} (hr : s.request? = some (.sendRec register msg)) :
    ∃ dest, s.before.table.lookup register = .ok dest ∧ Inquiry steps i s.before.current dest msg := by
  obtain ⟨⟨dest, hl⟩, -⟩ := Kernel.call_checked (h.step hs).2.2 _ hr
  exact ⟨dest, hl, h.inquiry hs ⟨rfl, register, hl, .inr hr⟩ (h.inquires_after hs hr hl)⟩

theorem request_answered_by_reply_exchange : ∃ s, exchange.1[3]? = some s ∧
    s.request? = some (.sendRec 2 (.withInt ⟨16⟩ 7)) ∧
      ∃ dest, s.before.table.lookup 2 = .ok dest ∧ Inquiry exchange.1 3 s.before.current dest (.withInt ⟨16⟩ 7) := by
  have hrequest : exchange.1[3]?.map (·.request?) = some (some (.sendRec 2 (.withInt ⟨16⟩ 7))) := by decide +kernel
  obtain ⟨s, hs, hr⟩ := Option.map_eq_some_iff.mp hrequest
  exact ⟨s, hs, hr, request_answered_by_reply exchange_run hs hr⟩

end Rendezvous
