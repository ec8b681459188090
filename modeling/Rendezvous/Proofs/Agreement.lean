import Rendezvous.Proofs.Receipt

/-! # Queued and direct messages

A message reaches its receiver on one of two paths: a receive takes it from a sender that waits, or a send delivers it to
a receiver that waits. Both accept the same messages, so that it does not matter who comes first; but a receive for
interrupts alone takes no message. -/

namespace Rendezvous

open Plain (alter alter_self alter_ne)

namespace Scene

/-- The process `dest` has got the message of `src`, who does not wait for it any more. -/
structure HandedOver (v : Scene) (src dest : Pid) (msg : Message) : Prop where
  slot : v.slot dest = some { msg with sender := src }
  gone : src ∉ v.waiters dest

/-- The process `src` waits for `dest`, with its message. -/
structure HeldOut (v : Scene) (src dest : Pid) (msg : Message) : Prop where
  slot : v.slot src = some msg
  waits : src ∈ v.waiters dest

/-- A process is in one waiting list at most, and once; the one that runs is in none. -/
structure Parted (v : Scene) : Prop where
  distinct : ∀ dest, (v.waiters dest).Nodup
  apart : ∀ src dest dest', src ∈ v.waiters dest → src ∈ v.waiters dest' → dest = dest'
  runs : ∀ dest, v.runs ∉ v.waiters dest

/-- When the filter asks for a message in the waiting list of `dest`, it comes to `src`: it has passed over those before
    it. -/
structure Reaches (v : Scene) (dest : Pid) (filter : MessageType) (src : Pid) (msg : Message) : Prop where
  members : ∃ ahead behind, v.waiters dest = ahead ++ src :: behind ∧ ∀ p ∈ ahead, v.Refuses filter p
  slot : v.slot src = some msg

variable {v v' : Scene} {dest src src' : Pid} {filter : MessageType} {msg msg' : Message} {ahead behind : List Pid}
  {timeout : Option UInt32} {place : (Level → List Pid) → Pid → Level → List Pid}

theorem Reaches.mem (h : v.Reaches dest filter src msg) : src ∈ v.waiters dest := by
  obtain ⟨ahead, behind, hmembers, -⟩ := h.members
  simp [hmembers]

/-- The one that is picked is the first one that the filter accepts. -/
theorem Reaches.picked (h : v.Reaches dest filter src msg) (hp : v.Picks dest filter ahead src' behind msg')
    (haccepts : filter.accepts msg.ty = true) : src' = src := by
  obtain ⟨ahead', behind', hmembers, hpassed⟩ := h.members
  have hrefuses : ∀ p, v.Refuses filter p → (v.slot p).any (filter.accepts ·.ty) = false := by
    intro p hp
    cases hm : v.slot p with
    | none => rfl
    | some m => exact hp m hm
  have hfirst : (v.waiters dest).find? (fun p => (v.slot p).any (filter.accepts ·.ty)) = some src := by
    refine List.find?_eq_some_iff_append.mpr ⟨by simp [h.slot, haccepts], ahead', behind', hmembers, fun p hp => ?_⟩
    simp [hrefuses p (hpassed p hp)]
  have hpicked : (v.waiters dest).find? (fun p => (v.slot p).any (filter.accepts ·.ty)) = some src' := by
    refine List.find?_eq_some_iff_append.mpr ⟨by simp [hp.slot, hp.accepted], ahead, behind, hp.members, fun p hp' => ?_⟩
    simp [hrefuses p (hp.passed p hp')]
  exact Option.some_inj.mp (hpicked.symm.trans hfirst)

/-- Without the one that is picked, all others are left. -/
theorem Picks.mem_rest (hp : v.Picks dest filter ahead src' behind msg') (hparted : v.Parted) (q : Pid) :
    q ∈ ahead ++ behind ↔ q ∈ v.waiters dest ∧ q ≠ src' := by
  have hdistinct := hparted.distinct dest
  rw [hp.members] at hdistinct ⊢
  have hout := (List.nodup_cons.mp (List.nodup_middle.mp hdistinct)).1
  constructor
  · intro hq
    refine ⟨?_, fun heq => hout (heq ▸ hq)⟩
    rcases List.mem_append.mp hq with hq | hq <;> simp [hq]
  · rintro ⟨hq, hne⟩
    simpa [hne] using hq

theorem HandedOver.not_heldOut (h : v.HandedOver src dest msg) : ¬v.HeldOut src dest msg := fun hheld => h.gone hheld.waits

/-- The message of `src` has gone to `dest` if `taken` holds, and else `src` waits with it. -/
structure Settles (v : Scene) (src dest : Pid) (msg : Message) (taken : Prop) : Prop where
  handedOver : v.HandedOver src dest msg ↔ taken
  heldOut : v.HeldOut src dest msg ↔ ¬taken

namespace Settles

variable {taken : Prop}

theorem of_handedOver (h : v.HandedOver src dest msg) (ht : taken) : v.Settles src dest msg taken :=
  ⟨iff_of_true h ht, iff_of_false h.not_heldOut (not_not_intro ht)⟩

theorem of_heldOut (h : v.HeldOut src dest msg) (ht : ¬taken) : v.Settles src dest msg taken :=
  ⟨iff_of_false (fun hgone => hgone.not_heldOut h) ht, iff_of_true h ht⟩

end Settles

/-- A receive that takes a message takes that of `src` if the filter accepts it. -/
theorem Reaches.settles_taken (h : v.Reaches v.runs filter src msg) (hparted : v.Parted) (wants : filter ≠ .interrupt)
    (picks : v.Picks v.runs filter ahead src' behind msg')
    (hslot : v'.slot v.runs = some { msg' with sender := src' }) (hwaiters : v'.waiters v.runs = ahead ++ behind)
    (hothers : ∀ q ∈ v.waiters v.runs, q ≠ src' → v'.slot q = v.slot q) :
    v'.Settles src v.runs msg (filter ≠ .interrupt ∧ filter.accepts msg.ty = true) := by
  by_cases haccepts : filter.accepts msg.ty = true
  · obtain rfl := h.picked picks haccepts
    obtain rfl := Option.some_inj.mp (picks.slot.symm.trans h.slot)
    refine .of_handedOver ⟨hslot, fun hin => ?_⟩ ⟨wants, haccepts⟩
    rw [hwaiters, picks.mem_rest hparted] at hin
    exact hin.2 rfl
  · have hne : src ≠ src' := by
      rintro rfl
      obtain rfl := Option.some_inj.mp (picks.slot.symm.trans h.slot)
      exact haccepts picks.accepted
    refine .of_heldOut ⟨(hothers src h.mem hne).trans h.slot, ?_⟩ fun htaken => haccepts htaken.2
    rw [hwaiters, picks.mem_rest hparted]
    exact ⟨h.mem, hne⟩

/-- A receive that finds no message passes that of `src` over. -/
theorem Reaches.settles_left (h : v.Reaches v.runs filter src msg)
    (unsent : filter ≠ .interrupt → v.Unsent v.runs filter) (hslot : v'.slot src = v.slot src)
    (hwaiters : v'.waiters v.runs = v.waiters v.runs) :
    v'.Settles src v.runs msg (filter ≠ .interrupt ∧ filter.accepts msg.ty = true) := by
  refine .of_heldOut ⟨hslot.trans h.slot, hwaiters ▸ h.mem⟩ ?_
  rintro ⟨wants, haccepts⟩
  have hrefused := unsent wants src h.mem msg h.slot
  rw [haccepts] at hrefused
  cases hrefused

end Scene

/-- Without an interrupt, a receive takes the message that it reaches if the filter accepts it and is for messages. -/
theorem Receipt.settles {place : (Level → List Pid) → Pid → Level → List Pid} {v v' : Scene} {filter : MessageType}
    {timeout : Option UInt32} {src : Pid} {msg : Message} (h : Receipt place v filter timeout v')
    (hparted : v.Parted) (hruns : (v.stance v.runs).isSome) (clear : ¬v.Interrupted filter)
    (hr : v.Reaches v.runs filter src msg) :
    v'.Settles src v.runs msg (filter ≠ .interrupt ∧ filter.accepts msg.ty = true) := by
  obtain ⟨a, ha⟩ := Option.isSome_iff_exists.mp hruns
  have hother : ∀ q ∈ v.waiters v.runs, q ≠ v.runs := fun q hq heq => hparted.runs _ (heq ▸ hq)
  cases h with
  | interrupted pending => exact absurd pending clear
  | @sent _ wants ahead behind src' msg' picks _ runs ready choice =>
    have hsrc := hother src' (by simp [picks.members])
    refine hr.settles_taken hparted wants picks ?_ (Function.update_self ..) fun q hq hne => ?_
    · simp only [Scene.slot]
      rw [alter_self ((alter_ne hsrc.symm _).trans ha)]
      rfl
    · simp only [Scene.slot]
      rw [alter_ne (hother q hq), alter_ne hne]
  | @asked _ wants ahead behind src' msg' picks _ _ runs ready choice =>
    have hsrc := hother src' (by simp [picks.members])
    refine hr.settles_taken hparted wants picks ?_ (Function.update_self ..) fun q hq hne => ?_
    · simp only [Scene.slot]
      rw [alter_self ((alter_ne hsrc.symm _).trans ha)]
      rfl
    · simp only [Scene.slot]
      rw [alter_ne (hother q hq), alter_ne hne]
  | @answered _ wants ahead behind src' msg' picks _ ahead' behind' replier reply replies runs ready choice =>
    have hsrc := hother src' (by simp [picks.members])
    -- The replier waits for the sender, so it is nobody of the list of the current process.
    have hreplier : replier ∈ v.waiters src' := by simp [replies.members]
    refine hr.settles_taken hparted wants picks ?_ ?_ fun q hq hne => ?_
    · simp only [Scene.slot]
      rw [alter_self ((alter_ne hsrc.symm _).trans ((alter_ne (fun heq => hparted.runs _ (heq ▸ hreplier)) _).trans ha))]
      rfl
    · exact (Function.update_of_ne hsrc.symm ..).trans (Function.update_self ..)
    · have hother' : q ≠ replier := by
        rintro rfl
        exact hsrc (hparted.apart q src' v.runs hreplier hq)
      simp only [Scene.slot]
      rw [alter_ne (hother q hq), alter_ne hne, alter_ne hother']
  | polled _ unsent | blocked _ unsent =>
    refine hr.settles_left unsent ?_ rfl
    simp only [Scene.slot]
    rw [alter_ne (hother src hr.mem)]

namespace Plain.Rests

variable {P : Plain} {dest : Pid} {a : Stance}

theorem parted (h : P.Rests) : P.scene.Parted := by
  refine ⟨fun dest => h.sound.queue _, fun src dest dest' hs hs' => ?_, fun dest hin => h.ne_of_queued hin rfl⟩
  obtain ⟨d, hd, hlink⟩ := (h.sound.member _ src).mp hs
  obtain ⟨d', hd', hlink'⟩ := (h.sound.member _ src).mp hs'
  obtain rfl := Option.some_inj.mp (hd.symm.trans hd')
  exact Link.waiting.inj (Option.some_inj.mp (hlink.symm.trans hlink'))

/-- A message for a process that waits is delivered if the filter of that process accepts it. -/
theorem settles_send (h : P.Rests) (hne : P.current ≠ .idle) (ha : P.stance dest = some a)
    (hs : a.state = .receiving) (msg : Message) :
    (P.send dest msg).scene.Settles P.current dest msg (a.filter.accepts msg.ty = true) := by
  have hdest : dest ≠ P.current := by
    rintro rfl
    exact (h.stance_current ha).2.1 hs
  have hacc : (P.hold msg).accepts dest msg.ty = a.filter.accepts msg.ty := by
    rw [hold_accepts hdest ha, Stance.accepts_of_receiving hs]
  by_cases haccepts : a.filter.accepts msg.ty = true
  · obtain ⟨-, hstance⟩ := h.stance_send hne (hacc.trans haccepts)
    have hwaiters : (P.send dest msg).waiters dest = P.waiters dest := by
      rw [send_of_accepts (hacc.trans haccepts), reschedule_waiters]
      exact (wake_waiting ..).trans (deliver_waiting ..)
    refine .of_handedOver ⟨?_, fun hin => ?_⟩ haccepts
    · simp only [Scene.slot, Plain.scene]
      rw [hstance, alter_self ((alter_ne hdest _).trans ha)]
      rfl
    · -- A delivery weaves nobody into the list, and the current process was in none.
      have hqueued : P.current ∈ P.waiters dest := hwaiters ▸ hin
      exact h.ne_of_queued hqueued rfl
  · have hwaits : ¬(P.hold msg).accepts dest msg.ty = true := hacc ▸ haccepts
    obtain ⟨b, hb⟩ := Option.isSome_iff_exists.mp h.sound.current
    have hwaiters : (P.send dest msg).waiters dest = P.waiters dest ++ [P.current] := by
      rw [send_of_waits hwaits, reschedule_waiters]
      exact Function.update_self ..
    refine .of_heldOut ⟨?_, ?_⟩ haccepts
    · simp only [Scene.slot, Plain.scene]
      rw [stance_send_waits hwaits, alter_self (stance_eq hb)]
      rfl
    · have hlast : P.current ∈ (P.send dest msg).waiters dest := by simp [hwaiters]
      exact hlast

end Plain.Rests

namespace Kernel

variable {k : Kernel} {P : Plain}

theorem scene_slot (k : Kernel) (p : Pid) : k.scene.slot p = k.message? p := by
  show (k.stance p).bind (·.slot) = _
  rw [stance, message?, Option.bind_map]
  rfl

/-- A process in a waiting list has a message to send. -/
theorem InRoles.message (h : k.InRoles) {src dest : Pid} (hk : k.Shows P) (hsrc : src ∈ P.waiters dest)
    (hdest : (k.process? dest).isSome) : ∃ msg, k.message? src = some msg := by
  obtain ⟨d, hd, hlink⟩ := Option.bind_eq_some_iff.mp (hk.mem_waiters.mp hsrc)
  have hd : k.process? src = some d := hd
  have hslot := h.outgoing src d hd ((h.sending src d hd).mpr ⟨dest, hlink, hdest⟩)
  obtain ⟨msg, hm⟩ := Option.isSome_iff_exists.mp hslot
  exact ⟨msg, by rw [message?, hd, Option.bind_some, hm]⟩

/-- A message that the process that runs sends to one that waits. -/
theorem Shows.serve_send (hk : k.Shows P) (hrest : P.Rests) (hne : P.current ≠ .idle) {dest : Pid} {d : Descriptor}
    (hd : k.process? dest = some d) (hs : d.state = .receiving) (msg : Message) : ∃ addr k',
      (k.call (.serve (.send dest.destination msg))).outcome = .ok (.address addr, k') ∧ k'.Laid ∧
        k'.scene.Settles k.current dest msg (d.filter.accepts msg.ty = true) := by
  have hasked := hrest.asked (.send dest.destination msg)
  have hrunning : P.running = true := Bool.eq_true_of_not_eq_false fun hasleep => hne (hrest.asleep hasleep)
  have hplain : P.process dest = some d.plain := hk.process_eq hd
  obtain ⟨addr, k', hok, hk'⟩ := hk.serve_of_leads (r := .send dest.destination msg)
    (fun k₁ h₁ => h₁.send_of_lookup hasked hne (h₁.lookup_destination hasked.sound hplain (by simp [hs])) msg)
    (hasked.send hne hrunning (hplain ▸ Option.isSome_some) msg).sound.current
  refine ⟨addr, k', hok, hk'.laid, ?_⟩
  rw [← hk'.scene, ← hk.current]
  exact hasked.settles_send hne (Plain.stance_eq hplain) hs msg

/-- A receive of the process that runs, which has no pending interrupt. -/
theorem Shows.serve_receive_reaching (hk : k.Shows P) (hrest : P.Rests) (ht : P.Timed) (hne : P.current ≠ .idle)
    (clear : ∀ d, k.process? k.current = some d → d.pending = false) {src : Pid} {msg : Message} {filter : MessageType}
    (hr : k.scene.Reaches k.current filter src msg) (timeout : Option UInt32) : ∃ addr k',
      (k.call (.serve (.receive filter timeout))).outcome = .ok (.address addr, k') ∧ k'.Laid ∧
        k'.scene.Settles src k.current msg (filter ≠ .interrupt ∧ filter.accepts msg.ty = true) := by
  obtain ⟨addr, k', hok, hk'⟩ := hk.serve_receive hrest hne filter timeout
  have hreceipt : Receipt _ P.scene filter timeout _ :=
    (hrest.asked (.receive filter timeout)).receipt (ht.opening_asked _).timed hne filter timeout
  have hparted := hrest.parted
  obtain ⟨d, hd⟩ := Option.isSome_iff_exists.mp (hk.get_isSome.trans hrest.sound.current)
  rw [hk.current] at hd
  have hruns : k.scene.stance k.scene.runs = some d.stance := stance_eq hd
  have hclear : ¬k.scene.Interrupted filter := by
    rintro ⟨hpending, -⟩
    rw [hruns] at hpending
    cases (clear d hd).symm.trans hpending
  rw [hk.scene] at hreceipt hparted
  refine ⟨addr, k', hok, hk'.laid, ?_⟩
  rw [← hk'.scene]
  exact hreceipt.settles hparted (hruns ▸ Option.isSome_some) hclear hr

end Kernel

/-- It makes no difference who comes first. In every kernel that a run reaches, a receive of the process that runs, for
which no interrupt is pending, takes the message of a sender that it reaches in its waiting list if its filter accepts
the type, unless it receives interrupts alone. In every kernel that a run reaches, a send delivers this message to a
process that waits with the same filter if the filter accepts the type. Otherwise the sender waits with its message. -/
theorem receive_takes_what_send_delivers {config : Config} {steps : List Step} {k : Kernel}
    (h : Run Call.Admissible config steps k) (hne : k.current ≠ .idle)
    (clear : ∀ d, k.process? k.current = some d → d.pending = false) {ahead behind : List Pid} {src : Pid}
    (hq : k.waiters k.current = .ok (ahead ++ src :: behind)) (filter : MessageType)
    (passed : ∀ p ∈ ahead, ∀ m, k.message? p = some m → filter.accepts m.ty = false) (timeout : Option UInt32) :
    ∃ msg, k.message? src = some msg ∧
      (∃ addr k', (k.call (.serve (.receive filter timeout))).outcome = .ok (.address addr, k') ∧ k'.Laid ∧
        k'.scene.Settles src k.current msg (filter ≠ .interrupt ∧ filter.accepts msg.ty = true)) ∧
      ∀ {config' : Config} {steps' : List Step} {k₁ : Kernel}, Run Call.Admissible config' steps' k₁ →
        k₁.current ≠ .idle → ∀ dest d, k₁.process? dest = some d → d.state = .receiving → d.filter = filter →
          ∃ addr k₂, (k₁.call (.serve (.send dest.destination msg))).outcome = .ok (.address addr, k₂) ∧ k₂.Laid ∧
            k₂.scene.Settles k₁.current dest msg (filter.accepts msg.ty = true) := by
  obtain ⟨P, hk, hrest, ht⟩ := h.proper.timed
  have hne' : P.current ≠ .idle := hk.current ▸ hne
  have hmembers : P.waiters k.current = ahead ++ src :: behind := Except.ok.inj ((hk.waiters _).symm.trans hq)
  obtain ⟨d, hd, -⟩ := h.boxed.inRoles.current
  have hsrc : src ∈ P.waiters k.current := by simp [hmembers]
  obtain ⟨msg, hm⟩ := h.boxed.inRoles.message hk hsrc (by simp [hd])
  have hreaches : k.scene.Reaches k.current filter src msg := by
    refine ⟨⟨ahead, behind, ?_, fun p hp m hpm => ?_⟩, (k.scene_slot src).trans hm⟩
    · rw [← hk.scene]
      exact hmembers
    · exact passed p hp m ((k.scene_slot p).symm.trans hpm)
  refine ⟨msg, hm, hk.serve_receive_reaching hrest ht hne' clear hreaches timeout, fun h₁ hne₁ dest e he hs hf => ?_⟩
  obtain ⟨P₁, hk₁, hrest₁⟩ := h₁.proper.resting
  rw [← hf]
  exact hk₁.serve_send hrest₁ (hk₁.current ▸ hne₁) he hs msg

/-- Two processes send to a third one before it receives. -/
def lateReceiverCalls : List Call :=
  [.start "first" 0 0 0, .start "second" 0 0 0, .start "server" 0 0 0, .launch, .serve (.send 3 (.new ⟨20⟩)),
    .serve (.send 3 (.new .reply))]

/-- What comes of the two messages. -/
def lateReceiver : List Step × Kernel :=
  ((Kernel.boot {}).follow Call.Admissible lateReceiverCalls).get (by decide +kernel)

/-- The third one receives before the second one sends. -/
def earlyReceiverCalls : List Call :=
  [.start "first" 0 0 0, .start "second" 0 0 0, .start "server" 0 0 0, .launch, .serve (.receive .any none), .serve .yield,
    .serve (.receive .reply none)]

/-- What comes of the two receives. -/
def earlyReceiver : List Step × Kernel :=
  ((Kernel.boot {}).follow Call.Admissible earlyReceiverCalls).get (by decide +kernel)

/-- The message of the second one comes through either way; the receive passes over that of the first one. -/
theorem receive_takes_what_send_delivers_either_way : lateReceiver.2.waiters ⟨3⟩ = .ok [⟨1⟩, ⟨2⟩] ∧
    (∃ addr k', (lateReceiver.2.call (.serve (.receive .reply none))).outcome = .ok (.address addr, k') ∧
      k'.scene.HandedOver ⟨2⟩ ⟨3⟩ (.new .reply)) ∧
    ∃ addr k', (earlyReceiver.2.call (.serve (.send 3 (.new .reply)))).outcome = .ok (.address addr, k') ∧
      k'.scene.HandedOver ⟨2⟩ ⟨3⟩ (.new .reply) := by
  have hlate : Run Call.Admissible {} lateReceiver.1 lateReceiver.2 := Run.of_boot (Option.some_get _).symm
  have hearly : Run Call.Admissible {} earlyReceiver.1 earlyReceiver.2 := Run.of_boot (Option.some_get _).symm
  have hserver : lateReceiver.2.current = ⟨3⟩ := by decide +kernel
  have hsecond : earlyReceiver.2.current = ⟨2⟩ := by decide +kernel
  have hwaiters : lateReceiver.2.waiters ⟨3⟩ = .ok ([⟨1⟩] ++ ⟨2⟩ :: []) := by decide +kernel
  have hpending : (lateReceiver.2.process? ⟨3⟩).map (·.pending) = some false := by decide +kernel
  have hmessages : lateReceiver.2.message? ⟨1⟩ = some (.new ⟨20⟩) ∧
      lateReceiver.2.message? ⟨2⟩ = some (.new .reply) := by decide +kernel
  have hreceives : (earlyReceiver.2.process? ⟨3⟩).map (fun d => (d.state, d.filter)) = some (.receiving, .reply) := by
    decide +kernel
  obtain ⟨d, hd, hfields⟩ := Option.map_eq_some_iff.mp hreceives
  obtain ⟨hstate, hfilter⟩ := Prod.mk.inj hfields
  obtain ⟨msg, hm, ⟨addr, k', hok, -, hsettles⟩, hdirect⟩ := receive_takes_what_send_delivers hlate
    (by rw [hserver]; decide) (fun e he => by simpa [← hserver, he] using hpending) (hserver ▸ hwaiters) .reply
    (fun p hp m hpm => by
      obtain rfl := List.mem_singleton.mp hp
      obtain rfl := Option.some_inj.mp (hmessages.1.symm.trans hpm)
      rfl) none
  obtain rfl := Option.some_inj.mp (hmessages.2.symm.trans hm)
  obtain ⟨addr₂, k₂, hok₂, -, hsettles₂⟩ := hdirect hearly (by rw [hsecond]; decide) ⟨3⟩ d hd hstate hfilter
  rw [hserver] at hsettles
  rw [hsecond] at hsettles₂
  exact ⟨hwaiters, ⟨addr, k', hok, hsettles.handedOver.mpr ⟨by decide, rfl⟩⟩, addr₂, k₂, hok₂,
    hsettles₂.handedOver.mpr rfl⟩

/-- A process sends a message of the type that interrupts have. -/
def disguisedCalls : List Call :=
  [.start "sender" 0 0 0, .start "receiver" 0 0 0, .launch, .serve (.send 2 (.new .interrupt))]

/-- What comes of that message: it waits, since the receiver does not receive yet. -/
def disguised : List Step × Kernel := ((Kernel.boot {}).follow Call.Admissible disguisedCalls).get (by decide +kernel)

/-- A receive for interrupts alone does not take it. -/
theorem queued_interrupt_not_taken : ¬∀ (config : Config) (steps : List Step) (k : Kernel) (ahead behind : List Pid)
    (src : Pid) (msg : Message) (filter : MessageType) (timeout : Option UInt32), Run Call.Admissible config steps k →
    k.current ≠ .idle → (∀ d, k.process? k.current = some d → d.pending = false) →
    k.waiters k.current = .ok (ahead ++ src :: behind) →
    (∀ p ∈ ahead, ∀ m, k.message? p = some m → filter.accepts m.ty = false) → k.message? src = some msg →
    ∃ addr k', (k.call (.serve (.receive filter timeout))).outcome = .ok (.address addr, k') ∧
      (k'.scene.HandedOver src k.current msg ↔ filter.accepts msg.ty = true) := by
  intro h
  have hrun : Run Call.Admissible {} disguised.1 disguised.2 := Run.of_boot (Option.some_get _).symm
  have hcurrent : disguised.2.current = ⟨2⟩ := by decide +kernel
  have hwaiters : disguised.2.waiters ⟨2⟩ = .ok ([] ++ ⟨1⟩ :: []) := by decide +kernel
  have hpending : (disguised.2.process? ⟨2⟩).map (·.pending) = some false := by decide +kernel
  have hmessage : disguised.2.message? ⟨1⟩ = some (.new .interrupt) := by decide +kernel
  have hafter : (disguised.2.call (.serve (.receive .interrupt none))).outcome.toOption.map (·.2.scene.slot ⟨2⟩) =
      some none := by decide +kernel
  obtain ⟨addr, k', hok, hiff⟩ := h {} disguised.1 disguised.2 [] [] ⟨1⟩ (.new .interrupt) .interrupt none hrun
    (by rw [hcurrent]; decide) (fun e he => by simpa [← hcurrent, he] using hpending) (hcurrent ▸ hwaiters)
    (fun p hp => by cases hp) hmessage
  have hslot := (hiff.mpr rfl).slot
  rw [hok] at hafter
  rw [hcurrent] at hslot
  cases (Option.some_inj.mp hafter).symm.trans hslot

end Rendezvous
