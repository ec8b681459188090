import Rendezvous.Proofs.Fates
import Rendezvous.Proofs.Rearranged

/-! # Standings

What a process is given when it starts, and what it sets for itself or has set for it: its name and stack, where
it resumes, its priority and whether an interrupt is pending. Whatever its callers do, a kernel changes little of
this in one call, and it deals with one interrupt at most. Processes die and wait for others only as granted. -/

namespace Rendezvous

/-- What a descriptor holds apart from the messages that its process exchanges. -/
structure Standing where
  pid : Pid
  name : String
  stack : StackRegion
  context : Context
  priority : Priority
  pending : Bool

/-- The standing of a process. -/
def Descriptor.standing (d : Descriptor) : Standing := ⟨d.pid, d.name, d.stack, d.context, d.priority, d.pending⟩

/-- Whether an interrupt goes into a slot, or is lost in an earlier one. -/
def Event.isAlert : Event → Bool
  | .notified _ ty => ty = .interrupt
  | .coalesced _ => true
  | _ => false

/-- The kernel as it is when one has come that far. -/
def Stage.kernel : Stage Kernel → Kernel
  | .done k => k
  | .taken k _ _ => k

namespace Traced

variable {α β : Type} {x : Traced α} {f : α → Traced β} {P : α → Prop} {Q : β → Prop}

/-- The events of a computation that tell what became of an interrupt. -/
def alerts (x : Traced α) : List Event := x.events.filter Event.isAlert

/-- The value of the computation, if it has one, is as `post` tells, beside the alerts. -/
def Tells (x : Traced α) (post : α → List Event → Prop) : Prop := ∀ a, x.outcome = .ok a → post a x.alerts

/-- The value of the computation, if it has one, is as `post` tells, and there are no alerts. -/
def Quietly (x : Traced α) (post : α → Prop) : Prop := x.Tells fun a es => post a ∧ es = []

theorem Tells.bind {R : α → List Event → Prop} {S : β → List Event → Prop} (hx : x.Tells R)
    (hf : ∀ a es, R a es → (f a).Tells fun b es' => S b (es ++ es')) : (x >>= f).Tells S := fun b hb => by
  obtain ⟨a, ha, hfa⟩ := bind_eq_ok.mp hb
  rw [alerts, events_bind_ok ha, List.filter_append]
  exact hf a _ (hx a ha) b hfa

theorem Tells.mono {R R' : α → List Event → Prop} (hx : x.Tells R) (h : ∀ a es, R a es → R' a es) : x.Tells R' :=
  fun a ha => h a _ (hx a ha)

theorem Tells.bind_quietly {R : α → List Event → Prop} {T : β → List Event → Prop} (hx : x.Tells R)
    (hf : ∀ a es, R a es → (f a).Quietly fun b => T b es) : (x >>= f).Tells T :=
  hx.bind fun a es ha b hb => by
    obtain ⟨ht, hnil⟩ := hf a es ha b hb
    rw [hnil, List.append_nil]
    exact ht

theorem Quietly.bind_tells {S : β → List Event → Prop} (hx : x.Quietly P) (hf : ∀ a, P a → (f a).Tells S) :
    (x >>= f).Tells S := by
  refine Tells.bind hx ?_
  rintro a - ⟨ha, rfl⟩
  exact hf a ha

theorem Quietly.bind (hx : x.Quietly P) (hf : ∀ a, P a → (f a).Quietly Q) : (x >>= f).Quietly Q := hx.bind_tells hf

theorem Quietly.mono {P' : α → Prop} (hx : x.Quietly P) (h : ∀ a, P a → P' a) : x.Quietly P' :=
  fun a ha => (hx a ha).imp_left (h a)

theorem tells_pure {a : α} {R : α → List Event → Prop} (h : R a []) : (pure a : Traced α).Tells R := fun b hb => by
  obtain rfl := Except.ok.inj hb
  exact h

theorem quietly_pure {a : α} (h : P a) : (pure a : Traced α).Quietly P := tells_pure ⟨h, rfl⟩

theorem quietly_lift {r : Except Stop α} (h : Yields r P) : (lift r).Quietly P := fun a ha => ⟨h a ha, rfl⟩

/-- A value that is looked up may be any. -/
theorem tells_skip {r : Except Stop α} {S : β → List Event → Prop} (hf : ∀ a, (f a).Tells S) :
    (lift r >>= f).Tells S :=
  (quietly_lift (P := fun _ => True) fun _ _ => trivial).bind_tells fun a _ => hf a

/-- What comes before the last part of a computation may be anything, if alerts do not matter. -/
theorem tells_after {Q : β → Prop} (hf : ∀ a, (f a).Tells fun b _ => Q b) : (x >>= f).Tells fun b _ => Q b :=
  Tells.bind (R := fun _ _ => True) (fun _ _ => trivial) fun a _ _ => hf a

theorem tells_emit {e : Event} (he : e.isAlert = false) {f : Unit → Traced β} {S : β → List Event → Prop}
    (hf : (f ()).Tells S) : (emit e >>= f).Tells S := by
  have hemit : (emit e).Quietly fun _ => True := fun _ _ => ⟨trivial, by simp [alerts, he]⟩
  exact hemit.bind_tells fun _ _ => hf

theorem tells_halt {k : Kernel} {e : Fault} {S : α → List Event → Prop} : (k.halt e : Traced α).Tells S :=
  fun _ ha => by cases ha

end Traced

namespace Kernel

open Traced

/-- The standings of all processes, in the order of their pids. -/
def standings (k : Kernel) : List Standing := k.table.processes.map Descriptor.standing

/-- Nothing has become of the standings and of the counts of interrupts, and no process got into a plight but as
    granted. -/
structure Keeps (k : Kernel) (gr : Grant) (k' : Kernel) : Prop where
  standings : k'.standings = k.standings
  interrupts : k'.counters.interrupts = k.counters.interrupts
  coalesced : k'.counters.coalesced = k.counters.coalesced
  spares : k.table.Spares gr k'.table

/-- One standing is what `g` makes of it; else the kernel is kept. -/
structure Alters (k : Kernel) (gr : Grant) (p : Pid) (g : Standing → Standing) (k' : Kernel) : Prop where
  standings : k'.standings = k.standings.modify p.index g
  interrupts : k'.counters.interrupts = k.counters.interrupts
  coalesced : k'.counters.coalesced = k.counters.coalesced
  spares : k.table.Spares gr k'.table

variable {k k' k'' : Kernel} {gr : Grant} {p : Pid} {f : Descriptor → Descriptor} {g : Standing → Standing}

namespace Keeps

theorem refl (k : Kernel) (gr : Grant) : k.Keeps gr k := ⟨rfl, rfl, rfl, .refl k.table gr⟩

theorem trans (h : k.Keeps gr k') (h' : k'.Keeps gr k'') : k.Keeps gr k'' :=
  ⟨h'.standings.trans h.standings, h'.interrupts.trans h.interrupts, h'.coalesced.trans h.coalesced,
    h.spares.trans h'.spares⟩

theorem of_rearranged (h : k.table.Rearranged gr k'.table) (hc : k'.counters = k.counters) : k.Keeps gr k' := by
  have hstandings := congrArg (List.map Descriptor.standing) h.bare
  rw [List.map_map, List.map_map] at hstandings
  exact ⟨hstandings, by rw [hc], by rw [hc], h.spares⟩

theorem alters (h : k.Keeps gr k') (p : Pid) : k.Alters gr p id k' :=
  ⟨h.standings.trans (List.modify_id ..).symm, h.interrupts, h.coalesced, h.spares⟩

/-- What an operation keeps of a kernel that keeps all, it keeps of the kernel before. -/
theorem quietly {α : Type} {x : Traced α} {out : α → Kernel} (h : k.Keeps gr k')
    (hx : x.Quietly fun a => k'.Keeps gr (out a)) : x.Quietly fun a => k.Keeps gr (out a) :=
  hx.mono fun _ ha => h.trans ha

end Keeps

theorem Alters.trans {g' : Standing → Standing} (h : k.Alters gr p g k') (h' : k'.Alters gr p g' k'') :
    k.Alters gr p (g' ∘ g) k'' :=
  ⟨by rw [h'.standings, h.standings, List.modify_modify_eq], h'.interrupts.trans h.interrupts,
    h'.coalesced.trans h.coalesced, h.spares.trans h'.spares⟩

theorem Alters.keeps (h : k.Alters gr p g k') (h' : k'.Keeps gr k'') : k.Alters gr p g k'' := h.trans (h'.alters p)

theorem quietly_settle {α σ : Type} {a : Attempt σ α} {P : α × σ → Prop}
    (h : Yields a.outcome fun v => P (v, a.state)) : (k.settle a).Quietly P := by
  unfold settle
  split
  · rename_i v hv
    exact quietly_pure (h v hv)
  · exact tells_halt
  · exact quietly_lift (.error _)

theorem quietly_orHalt {α : Type} {r : Except Fault α} {P : α → Prop} (h : ∀ a, r = .ok a → P a) :
    (k.orHalt r).Quietly P := by
  unfold orHalt
  split
  · exact quietly_pure (h _ rfl)
  · exact tells_halt

/-! ### Elementary steps -/

theorem alters_put {d d' : Descriptor} (hp : k.process? p = some d) (hg : d'.standing = g d.standing)
    (hx : ∀ x, d'.Suffers x → d.Suffers x ∨ gr p x) : k.Alters gr p g { k with table := k.table.put p d' } :=
  ⟨map_set_eq_modify hp hg, rfl, rfl, .put hp hx⟩

theorem keeps_put {d d' : Descriptor} (hp : k.process? p = some d) (hd : d'.standing = d.standing)
    (hx : ∀ x, d'.Suffers x → d.Suffers x ∨ gr p x) : k.Keeps gr { k with table := k.table.put p d' } :=
  ⟨(map_set_eq_modify (f := id) hp hd).trans (List.modify_id ..), rfl, rfl, .put hp hx⟩

theorem process?_put {d : Descriptor} (hp : k.process? p = some d) (d' : Descriptor) :
    ({ k with table := k.table.put p d' } : Kernel).process? p = some d' := by
  refine Table.get?_put_self d' (Table.get?_isSome_iff.mp ?_)
  rw [← process?, hp, Option.isSome_some]

theorem amend_quietly (k : Kernel) (p : Pid) (f : Descriptor → Descriptor) : (k.amend p f).Quietly fun k' =>
    ∃ d, k.process? p = some d ∧ k' = { k with table := k.table.put p (f d) } := by
  refine quietly_lift (Yields.map (P := fun t => k.table.update p f = .ok t) (fun t ht => ht) fun t ht => ?_)
  obtain ⟨d, hp, rfl⟩ := Table.update_eq_ok.mp ht
  exact ⟨d, hp, rfl⟩

theorem amend_alters (k : Kernel) (p : Pid) (hg : ∀ d, (f d).standing = g d.standing)
    (hx : ∀ d x, (f d).Suffers x → d.Suffers x ∨ gr p x) : (k.amend p f).Quietly (k.Alters gr p g) := by
  refine (k.amend_quietly p f).mono ?_
  rintro _ ⟨d, hp, rfl⟩
  exact alters_put hp (hg d) (hx d)

theorem amend_keeps_current (gr : Grant) (k : Kernel) (p : Pid) (hf : ∀ d, (f d).standing = d.standing)
    (hx : ∀ d x, (f d).Suffers x → d.Suffers x ∨ gr p x) :
    (k.amend p f).Quietly fun k' => k.Keeps gr k' ∧ k'.current = k.current := by
  refine (k.amend_quietly p f).mono ?_
  rintro _ ⟨d, hp, rfl⟩
  exact ⟨keeps_put hp (hf d) (hx d), rfl⟩

theorem amend_keeps (gr : Grant) (k : Kernel) (p : Pid) (hf : ∀ d, (f d).standing = d.standing)
    (hx : ∀ d x, (f d).Suffers x → d.Suffers x ∨ gr p x) : (k.amend p f).Quietly (k.Keeps gr) :=
  (amend_keeps_current gr k p hf hx).mono fun _ h => h.1

variable (gr)

theorem makeReady_rearranged (k : Kernel) (p : Pid) : (k.makeReady p).Quietly fun k' =>
    k.table.Rearranged gr k'.table ∧ k'.counters = k.counters := by
  unfold makeReady
  have hsettle : (k.settle (k.scheduler.makeReady k.table p)).Quietly fun r => k.table.Rearranged gr r.2.2 :=
    quietly_settle (Table.Rearranged.makeReady gr k.scheduler k.table p)
  refine hsettle.bind ?_
  rintro ⟨_, s, t⟩ ht
  exact quietly_pure ⟨ht, rfl⟩

theorem makeReady_keeps (k : Kernel) (p : Pid) : (k.makeReady p).Quietly (k.Keeps gr) :=
  (k.makeReady_rearranged gr p).mono fun _ h => .of_rearranged h.1 h.2

theorem reschedule_keeps (k : Kernel) : k.reschedule.Quietly (k.Keeps gr) := by
  unfold reschedule Scheduler.chooseNext
  have hpick : (Traced.lift (k.scheduler.pick k.table k.uptime)).Quietly fun r => k.table.Rearranged gr r.2.2 :=
    quietly_lift (Table.Rearranged.pick gr k.scheduler k.table k.uptime)
  refine Quietly.bind (P := fun r => k.table.Rearranged gr r.2.2) (hpick.bind ?_) ?_
  · rintro ⟨next, s, t⟩ ht
    exact tells_skip fun d => tells_emit rfl (quietly_pure ht)
  · rintro ⟨next, s, t⟩ ht
    exact quietly_pure (.of_rearranged ht rfl)

theorem cancelTimeout_keeps (k : Kernel) (p : Pid) : (k.cancelTimeout p).Quietly (k.Keeps gr) := by
  unfold cancelTimeout
  refine tells_skip fun d => ?_
  split
  · have hsettle : (k.settle (k.timeouts.cancel k.table p)).Quietly fun r => k.table.Rearranged gr r.2.2 :=
      quietly_settle (Table.Rearranged.cancelDeadline gr k.table k.timeouts p)
    refine hsettle.bind ?_
    rintro ⟨_, r, t⟩ ht
    exact quietly_pure (.of_rearranged ht rfl)
  · exact quietly_pure (.refl k gr)

theorem setTimeout_keeps (k : Kernel) (p : Pid) (timeout : Option UInt32) :
    (k.setTimeout p timeout).Quietly (k.Keeps gr) := by
  cases timeout with
  | none => exact quietly_pure (.refl k gr)
  | some ms =>
    have hsettle : (k.settle (k.timeouts.set k.table p ms)).Quietly fun r => k.table.Rearranged gr r.2.2 :=
      quietly_settle (Table.Rearranged.setDeadline gr k.table k.timeouts p ms)
    refine hsettle.bind ?_
    rintro ⟨_, r, t⟩ ht
    exact quietly_pure (.of_rearranged ht rfl)

/-! ### The exchange of messages -/

theorem handOver_keeps (k : Kernel) (dest src : Pid) : (k.handOver dest src).Quietly (k.Keeps gr) := by
  unfold handOver
  refine tells_skip fun sender => ?_
  split
  · exact tells_halt
  · refine Quietly.bind (k.amend_keeps gr src (fun _ => rfl) fun _ _ => .inl) fun k₁ h₁ => ?_
    refine (h₁.quietly (cancelTimeout_keeps gr k₁ dest)).bind fun k₂ h₂ => ?_
    refine .bind (h₂.quietly (amend_keeps gr k₂ dest (fun _ => rfl) fun _ _ => .inl)) fun k₃ h₃ => ?_
    exact tells_emit rfl (quietly_pure h₃)

theorem deliver_keeps (k : Kernel) (dest src : Pid) : (k.deliver dest src).Quietly (k.Keeps gr) :=
  (handOver_keeps gr k dest src).bind fun k₁ h₁ => h₁.quietly (makeReady_keeps gr k₁ dest)

theorem notify_keeps (k : Kernel) (dest : Pid) {ty : MessageType} (hty : ty ≠ .interrupt) :
    (k.notify dest ty).Quietly (k.Keeps gr) := by
  unfold notify
  refine .bind (k.amend_keeps gr dest (fun _ => rfl) fun _ _ => .inl) fun k₁ h₁ => ?_
  refine tells_emit (by simp [Event.isAlert, hty]) ?_
  exact quietly_pure ⟨h₁.standings, h₁.interrupts, h₁.coalesced, h₁.spares⟩

theorem queueSender_keeps (k : Kernel) {dest : Pid} (hw : gr k.current (.waiting dest)) :
    (k.queueSender dest).Quietly (k.Keeps gr) := by
  unfold queueSender
  refine tells_skip fun d => ?_
  split
  · exact tells_halt
  · have hadd : (Traced.lift (k.table.addWaiting dest k.current)).Quietly (k.table.Rearranged gr) :=
      quietly_lift (Table.Rearranged.addWaiting gr k.table hw)
    exact hadd.bind fun t ht => tells_emit rfl (quietly_pure (.of_rearranged ht rfl))

theorem findSender_keeps (k : Kernel) (dest : Pid) (filter : MessageType) :
    (k.findSender dest filter).Quietly fun r => k.Keeps gr r.2 := by
  unfold findSender
  have htake : (Traced.lift (k.table.takeWaiting dest filter)).Quietly fun r => k.table.Rearranged gr r.2 :=
    quietly_lift (Table.Rearranged.takeWaiting gr k.table dest filter)
  refine htake.bind ?_
  rintro ⟨src, t⟩ ht
  exact quietly_pure (.of_rearranged ht rfl)

theorem awaitReply_keeps (k : Kernel) (p : Pid) : (k.awaitReply p).Quietly (k.Keeps gr) := by
  unfold awaitReply
  refine (findSender_keeps gr k p .reply).bind ?_
  rintro ⟨replier, k₁⟩ h₁
  cases replier with
  | none =>
    have hstate : State.receiving ≠ .dead := State.noConfusion
    exact h₁.quietly (amend_keeps gr k₁ p (fun _ => rfl) fun _ _ hx => .inl (hx.of_state hstate rfl))
  | some src =>
    refine (h₁.quietly (deliver_keeps gr k₁ p src)).bind fun k₂ h₂ => ?_
    exact h₂.quietly (makeReady_keeps gr k₂ src)

/-- What ends in a choice of the process that runs next. -/
theorem rescheduled {gr : Grant} {x : Traced Kernel} (h : x.Quietly (k.Keeps gr)) :
    (x >>= reschedule).Quietly (k.Keeps gr) :=
  h.bind fun k₁ h₁ => h₁.quietly (reschedule_keeps gr k₁)

/-- What is left to do at a stage keeps what it has come to. -/
theorem finish_keeps (s : Stage Kernel) : (s.finish pure).Quietly (s.kernel.Keeps gr) := by
  cases s with
  | done k => exact quietly_pure (.refl k gr)
  | taken k asker taker =>
    refine (awaitReply_keeps gr k asker).bind fun k₁ h₁ => ?_
    exact (h₁.quietly (reschedule_keeps gr k₁)).bind fun k₂ h₂ => quietly_pure h₂

/-- A process is blocked in the waiting list of another one, and then the rest. -/
theorem blocked_keeps {α : Type} (k : Kernel) {dest : Pid} (hw : gr k.current (.waiting dest)) {s : State}
    (hs : s ≠ .dead) {f : Kernel → Traced α} {P : α → Prop} (hf : ∀ k', k.Keeps gr k' → (f k').Quietly P) :
    (k.amend k.current (fun p => { p with state := s }) >>= fun k => k.queueSender dest >>= f).Quietly P := by
  have hamend := k.amend_keeps_current gr k.current (f := fun p => { p with state := s }) (fun _ => rfl) fun _ _ hx =>
    .inl (hx.of_state hs rfl)
  refine hamend.bind ?_
  rintro k₁ ⟨h₁, hcurrent⟩
  exact (h₁.quietly (queueSender_keeps gr k₁ (hcurrent.symm ▸ hw))).bind hf

section
variable (k : Kernel) {register : Int32}
  (hw : ∀ dest, k.table.lookup register = .ok dest → gr k.current (.waiting dest))
include hw

theorem send_keeps (msg : Message) : (k.send register msg).Quietly (k.Keeps gr) := by
  unfold send
  refine (quietly_orHalt hw).bind fun dest hdest => ?_
  refine Quietly.bind (k.amend_keeps_current gr k.current (fun _ => rfl) fun _ _ => .inl) ?_
  rintro k₁ ⟨h₁, hcurrent⟩
  refine tells_skip fun d => ?_
  rw [← hcurrent]
  split
  · refine (h₁.quietly (deliver_keeps gr k₁ dest k₁.current)).bind fun k₂ h₂ => ?_
    exact rescheduled (h₂.quietly (makeReady_keeps gr k₂ k₁.current))
  · refine blocked_keeps gr k₁ (hcurrent.symm ▸ hdest) State.noConfusion fun k₂ h₂ => ?_
    exact (h₁.trans h₂).quietly (reschedule_keeps gr k₂)

theorem sendRec_keeps (msg : Message) : (k.sendRec register msg).Quietly (k.Keeps gr) := by
  have hbegin : (k.beginSendRec register msg).Quietly fun s => k.Keeps gr s.kernel := by
    unfold beginSendRec
    refine (quietly_orHalt hw).bind fun dest hdest => ?_
    split
    · exact tells_halt
    refine Quietly.bind (k.amend_keeps_current gr k.current (fun _ => rfl) fun _ _ => .inl) ?_
    rintro k₁ ⟨h₁, hcurrent⟩
    refine tells_skip fun d => ?_
    rw [← hcurrent]
    split
    · exact (h₁.quietly (deliver_keeps gr k₁ dest k₁.current)).bind fun k₂ h₂ => quietly_pure h₂
    · refine blocked_keeps gr k₁ (hcurrent.symm ▸ hdest) State.noConfusion fun k₂ h₂ => ?_
      exact ((h₁.trans h₂).quietly (reschedule_keeps gr k₂)).bind fun k₃ h₃ => quietly_pure h₃
  exact hbegin.bind fun s h => h.quietly (finish_keeps gr s)

end

theorem nextSender_keeps (k : Kernel) (filter : MessageType) :
    (k.nextSender filter).Quietly fun r => k.Keeps gr r.2 := by
  unfold nextSender
  split
  · exact quietly_pure (.refl k gr)
  · exact findSender_keeps gr k k.current filter

theorem beginAccept_keeps (k : Kernel) (src : Pid) : (k.beginAccept src).Quietly fun s => k.Keeps gr s.kernel := by
  unfold beginAccept
  refine (deliver_keeps gr k k.current src).bind fun k₁ h₁ => tells_skip fun d => ?_
  dsimp only
  split
  · refine (h₁.quietly (makeReady_keeps gr k₁ src)).bind fun k₂ h₂ => ?_
    exact (h₂.quietly (reschedule_keeps gr k₂)).bind fun k₃ h₃ => quietly_pure h₃
  · exact quietly_pure h₁
  · exact tells_halt

theorem block_keeps (k : Kernel) (filter : MessageType) (timeout : Option UInt32) :
    (k.block filter timeout).Quietly (k.Keeps gr) := by
  unfold block
  have hstate : State.receiving ≠ .dead := State.noConfusion
  refine .bind (k.amend_keeps gr k.current (fun _ => rfl) fun _ _ hx => .inl (hx.of_state hstate rfl)) fun k₁ h₁ =>
    ?_
  refine (h₁.quietly (setTimeout_keeps gr k₁ k.current timeout)).bind fun k₂ h₂ => ?_
  exact tells_emit rfl (quietly_pure h₂)

/-! ### The passing of time -/

theorem expire_keeps (k : Kernel) (p : Pid) : (k.expire p).Quietly (k.Keeps gr) := by
  unfold expire
  refine tells_emit rfl ((k.notify_keeps gr p (by decide)).bind fun k₁ h₁ => ?_)
  exact h₁.quietly (makeReady_keeps gr k₁ p)

theorem expireAll_keeps (k : Kernel) (l : List Pid) : (l.foldlM expire k).Quietly (k.Keeps gr) := by
  induction l generalizing k with
  | nil => exact quietly_pure (.refl k gr)
  | cons p l ih =>
    rw [List.foldlM_cons]
    exact (expire_keeps gr k p).bind fun k₁ h₁ => h₁.quietly (ih k₁)

theorem tick_keeps (k : Kernel) (ms : UInt32) : (k.tick ms).Quietly (k.Keeps gr) := by
  unfold tick
  have hcharge : (Traced.lift (k.scheduler.charge k.table (k.uptime + ms.toNat))).Quietly fun r =>
      k.table.Rearranged gr r.2 := quietly_lift (Table.Rearranged.charge gr k.scheduler k.table _)
  refine hcharge.bind ?_
  rintro ⟨s, t⟩ ht
  have htick : (Traced.lift (k.timeouts.tick t ms)).Quietly fun r => k.table.Rearranged gr r.2.2 :=
    quietly_lift (Table.Rearranged.yields ht (Table.Rearranged.tick gr t k.timeouts ms))
  refine htick.bind ?_
  rintro ⟨expired, r, t'⟩ ht'
  have hkeeps : k.Keeps gr { k with uptime := k.uptime + ms.toNat, scheduler := s, timeouts := r, table := t' } :=
    .of_rearranged ht' rfl
  exact hkeeps.quietly (expireAll_keeps gr _ expired)

end Kernel

end Rendezvous
