import Mathlib.Data.List.Find
import Rendezvous.Proofs.Slots

/-! # Stances

What a process waits for and what it has got: its state, filter, slot and deadline, and whether an interrupt is
pending. Each operation changes the stances of a few processes and leaves all others. -/

namespace Rendezvous

/-- The part of a descriptor that tells what its process waits for and what it has got. -/
structure Stance where
  state : State
  filter : MessageType
  slot : Option Message
  deadline : Option Int
  pending : Bool

namespace Stance

/-- Whether the process is blocked in a receive that takes messages of type `ty`. -/
def accepts (a : Stance) (ty : MessageType) : Bool := a.state = .receiving && a.filter.accepts ty

/-- The process has this message in its slot, or none. -/
def holding (msg : Option Message) (a : Stance) : Stance := { a with slot := msg }

/-- The process is active. -/
def woken (a : Stance) : Stance := { a with state := .active }

/-- A message ends the wait of a process, and its deadline with it. -/
def got (msg : Message) (a : Stance) : Stance := { a with state := .active, slot := some msg, deadline := none }

/-- A send ends when its message is taken. -/
def released (a : Stance) : Stance := { a with state := .active, slot := none }

/-- A request waits for the reply when it is taken. -/
def awaiting (a : Stance) : Stance := { a with state := .receiving, filter := .reply }

variable {a : Stance} {ty : MessageType}

theorem receiving_of_accepts (h : a.accepts ty = true) : a.state = .receiving := by
  rw [accepts, Bool.and_eq_true, decide_eq_true_eq] at h
  exact h.1

theorem accepts_of_receiving (h : a.state = .receiving) (ty : MessageType) : a.accepts ty = a.filter.accepts ty := by
  simp [accepts, h]

end Stance

/-- The stance of a process. -/
def Descriptor.stance (d : Descriptor) : Stance := ⟨d.state, d.filter, d.slot, d.deadline, d.pending⟩

namespace Plain

/-- The stance of each process. -/
def stance (P : Plain) : Pid → Option Stance := P.read Descriptor.stance

/-- The stances with that of one process changed. -/
def alter (s : Pid → Option Stance) (p : Pid) (f : Stance → Stance) : Pid → Option Stance :=
  Function.update s p ((s p).map f)

section
variable {s : Pid → Option Stance} {p q : Pid} {f g : Stance → Stance} {a : Stance}

theorem alter_self (h : s p = some a) (f : Stance → Stance) : alter s p f p = some (f a) := by
  rw [alter, Function.update_self, h, Option.map_some]

theorem alter_ne (h : q ≠ p) (f : Stance → Stance) : alter s p f q = s q := Function.update_of_ne h ..

theorem alter_alter (s : Pid → Option Stance) (p : Pid) (f g : Stance → Stance) :
    alter (alter s p f) p g = alter s p (g ∘ f) := by
  simp [alter]

theorem alter_comm (h : p ≠ q) (s : Pid → Option Stance) (f g : Stance → Stance) :
    alter (alter s p f) q g = alter (alter s q g) p f := by
  simp only [alter, Function.update_of_ne h, Function.update_of_ne h.symm]
  exact Function.update_comm h ..

/-- A change that is none. -/
theorem alter_of_fixed (h : ∀ a, s p = some a → f a = a) : alter s p f = s := by
  refine update_same ?_
  cases hp : s p with
  | none => rfl
  | some a => rw [Option.map_some, h a hp]

end

variable {P Q : Plain} {hand : List Pid} {p q src dest : Pid} {d : Descriptor} {a : Stance} {msg : Message}

theorem stance_eq (hp : P.process p = some d) : P.stance p = some d.stance := by
  rw [stance, read, hp, Option.map_some]

theorem stance_eq_some (hp : P.stance p = some a) : ∃ d, P.process p = some d ∧ d.stance = a :=
  Option.map_eq_some_iff.mp hp

theorem stance_of_process (h : Q.process p = P.process p) : Q.stance p = P.stance p := by
  rw [stance, read, h, stance, read]

theorem slot_of_process (h : Q.process p = P.process p) : Q.slot p = P.slot p := by
  rw [slot, h, slot]

theorem accepts_eq_stance (hp : P.stance p = some a) (ty : MessageType) : P.accepts p ty = a.accepts ty := by
  obtain ⟨d, hd, rfl⟩ := stance_eq_some hp
  rw [accepts, hd]
  rfl

/-! ### Elementary changes -/

theorem stance_modify {f : Descriptor → Descriptor} {g : Stance → Stance} (hg : ∀ d, (f d).stance = g d.stance)
    (p : Pid) : (P.modify p f).stance = alter P.stance p g := by
  funext q
  by_cases hq : q = p
  · subst hq
    cases hp : P.process q with
    | none => simp [alter, stance, read, modify_of_none hp, hp]
    | some d => simp [alter, stance, read, modify_self hp, hp, hg]
  · rw [alter_ne hq]
    exact stance_of_process (modify_ne hq f)

theorem stance_reschedule (P : Plain) : P.reschedule.stance = P.stance := by
  rw [reschedule, stance, run_read fun _ _ => rfl, pop_read fun _ _ => rfl, charge_read fun _ _ => rfl, stance]

theorem stance_free (P : Plain) (p : Pid) (link : Link) : (P.free p link).stance = P.stance :=
  modify_read (g := Descriptor.stance) (f := fun d => { d with link := none }) (fun _ => rfl) p

theorem stance_slot (P : Plain) (p : Pid) (msg : Option Message) :
    (P.modify p fun d => { d with slot := msg }).stance = alter P.stance p (.holding msg) :=
  stance_modify (fun _ => rfl) p

theorem stance_cancel (P : Plain) (p : Pid) :
    (P.cancel p).stance = alter P.stance p fun a => { a with deadline := none } := by
  unfold cancel
  split
  · exact stance_modify (f := fun d => { d with deadline := none }) (fun _ => rfl) p
  · rename_i hd
    refine (alter_of_fixed fun a ha => ?_).symm
    obtain ⟨d, hp, rfl⟩ := stance_eq_some ha
    have hnone : d.deadline = none := by simpa [hp] using hd
    simp [Descriptor.stance, hnone]

theorem stance_wait (P : Plain) (state : State) (dest : Pid) :
    (P.wait state dest).stance = alter P.stance P.current fun a => { a with state := state } := by
  have hjoin : (P.wait state dest).stance = (P.modify P.current fun d => { d with state := state }).stance :=
    modify_read (g := Descriptor.stance) (f := fun d => { d with link := some (.waiting dest) }) (fun _ => rfl) _
  rw [hjoin]
  exact stance_modify (fun _ => rfl) _

namespace Sound

theorem stance_wake (h : P.Sound (p :: hand)) : (P.wake p).stance = alter P.stance p .woken := by
  obtain ⟨d, hp, -⟩ := h.found List.mem_cons_self
  obtain ⟨l, hl⟩ := (h.fits p d hp).level (h.ne_idle List.mem_cons_self)
  have hmodify : (P.wake p).stance = (P.modify p fun d => { d with state := .active, link := some (.ready l) }).stance := by
    rw [wake_of_some hp hl, modify_eq hp]
    rfl
  rw [hmodify]
  exact stance_modify (fun _ => rfl) p

/-- A process in hand has no deadline. -/
theorem stance_deadline (h : P.Sound hand) (hp : p ∈ hand) (ha : P.stance p = some a) : a.deadline = none := by
  obtain ⟨d, hd, hh⟩ := h.found hp
  obtain rfl := Option.some_inj.mp ((stance_eq hd).symm.trans ha)
  exact hh.deadline

theorem stance_deliver (h : ((P.modify src fun d => { d with slot := none }).cancel dest).Sound (dest :: hand))
    (hm : P.slot src = some msg) :
    (P.deliver dest src).stance =
      alter (alter P.stance src (.holding none)) dest (.got { msg with sender := src }) := by
  have hwake := ((h.slot dest (some { msg with sender := src })).emit
    (.delivered src dest { msg with sender := src })).stance_wake
  rw [deliver_eq hm, hwake]
  have hemit : ∀ (P : Plain) e, (P.emit e).stance = P.stance := fun _ _ => rfl
  rw [hemit, stance_slot, stance_cancel, stance_slot, alter_alter, alter_alter]
  rfl

end Sound

/-! ### Waiting lists -/

theorem wake_waiting (P : Plain) (p dest : Pid) : (P.wake p).queue (.waiting dest) = P.queue (.waiting dest) := by
  unfold wake
  split
  · rfl
  · split
    · rfl
    · exact setQueue_waiting _ _ _ dest

theorem cancel_queue (P : Plain) (p : Pid) : (P.cancel p).queue = P.queue := by
  unfold cancel
  split <;> rfl

theorem deliver_waiting (P : Plain) (dest src q : Pid) :
    (P.deliver dest src).queue (.waiting q) = P.queue (.waiting q) := by
  cases hm : P.slot src with
  | none => simp [deliver, hm]
  | some msg =>
    rw [deliver_eq hm, wake_waiting]
    show (cancel _ dest).queue (.waiting q) = _
    rw [cancel_queue]
    rfl

theorem deliver_ne (h : q ≠ dest) (h' : q ≠ src) : (P.deliver dest src).process q = P.process q := by
  cases hm : P.slot src with
  | none => simp [deliver, hm]
  | some msg =>
    rw [deliver_eq hm, wake_ne h]
    show (((P.modify src fun d => { d with slot := none }).cancel dest).modify dest _).process q = _
    rw [modify_ne h, cancel_ne h, modify_ne h']

/-- Who is first in a waiting list depends on the list and the messages in it. -/
theorem sender?_congr (hq : Q.queue (.waiting dest) = P.queue (.waiting dest))
    (hslot : ∀ x ∈ P.queue (.waiting dest), Q.process x = P.process x) (filter : MessageType) :
    Q.sender? dest filter = P.sender? dest filter := by
  rw [sender?, sender?, hq]
  refine List.find?_congr fun x hx => ?_
  rw [offers, offers, slot_of_process (hslot x hx)]

theorem sender?_of_slot (hq : Q.queue = P.queue) (hslot : Q.slot = P.slot) (dest : Pid) (filter : MessageType) :
    Q.sender? dest filter = P.sender? dest filter := by
  have hoffers : Q.offers filter = P.offers filter := by
    funext x
    rw [offers, offers, hslot]
  rw [Plain.sender?, Plain.sender?, hq, hoffers]

namespace Sound

/-- The processes in hand and the receivers are in no waiting list. -/
theorem not_waiting (h : P.Sound hand) {x : Pid} (hx : x ∈ P.queue (.waiting dest)) :
    x ∉ hand ∧ ∀ a, P.stance x = some a → a.state = .sending ∨ a.state = .sendRec := by
  obtain ⟨d, hp, hl, hstate, hout⟩ := h.waiter hx
  refine ⟨hout, fun a ha => ?_⟩
  obtain rfl := Option.some_inj.mp ((stance_eq hp).symm.trans ha)
  exact hstate

end Sound

/-! ### Replies -/

theorem stance_awaitReply_of_none (hf : P.sender? p .reply = none) :
    (P.awaitReply p).stance = alter P.stance p .awaiting := by
  unfold awaitReply
  rw [hf]
  exact stance_modify (fun _ => rfl) p

/-- A reply that is queued already is taken at once. -/
theorem Sound.stance_awaitReply (h : P.Sound (p :: hand)) (hf : P.sender? p .reply = some src)
    (hm : P.slot src = some msg) :
    (P.awaitReply p).stance = alter (alter P.stance src .released) p (.got { msg with sender := src }) := by
  obtain ⟨hfree, msg', hm'⟩ := h.free_sender hf
  have hslot : (P.free src (.waiting p)).slot src = P.slot src :=
    congrFun (slot_modify (f := fun d => { d with link := none }) (fun _ => rfl) src) src
  obtain rfl : msg' = msg := Option.some_inj.mp (hm'.symm.trans (hslot.trans hm))
  have hopen := hfree.swap.open_held src
  have hne : p ≠ src := fun he => (h.not_waiting (sender?_some hf).1).1 (he ▸ List.mem_cons_self)
  unfold Plain.awaitReply
  rw [hf]
  show ((Plain.deliver _ p src).wake src).stance = _
  rw [(hopen.deliver hm').stance_wake, hopen.stance_deliver hm', stance_free, alter_comm hne, alter_alter]
  rfl

/-! ### The current process takes a message -/

/-- The current process has the message of `src`, whom it has taken out of its waiting list. -/
def taken (P : Plain) (src : Pid) : Plain := (P.free src (.waiting P.current)).deliver P.current src

namespace Sound

variable {filter : MessageType}

theorem taken (h : P.Sound (P.current :: hand)) (hf : P.sender? P.current filter = some src)
    (hm : P.slot src = some msg) : src ≠ P.current ∧ (P.taken src).Sound (src :: hand) ∧
      (P.taken src).stance = alter (alter P.stance src (.holding none)) P.current (.got { msg with sender := src }) := by
  obtain ⟨hfree, msg', hm'⟩ := h.free_sender hf
  have hslot : (P.free src (.waiting P.current)).slot src = P.slot src :=
    congrFun (slot_modify (f := fun d => { d with link := none }) (fun _ => rfl) src) src
  obtain rfl : msg' = msg := Option.some_inj.mp (hm'.symm.trans (hslot.trans hm))
  have hopen := hfree.swap.open_held src
  have hne : src ≠ P.current := fun he => (h.not_waiting (sender?_some hf).1).1 (he ▸ List.mem_cons_self)
  refine ⟨hne, hopen.deliver hm', ?_⟩
  rw [Plain.taken, hopen.stance_deliver hm', stance_free]

theorem take_eq (h : P.Sound (P.current :: hand)) (hf : P.sender? P.current filter = some src)
    (hm : P.slot src = some msg) (ha : P.stance src = some a) :
    P.take src = if a.state = .sendRec then (P.taken src).awaitReply src else (P.taken src).wake src := by
  obtain ⟨hne, -, hstance⟩ := h.taken hf hm
  have hsrc : (P.taken src).stance src = some (a.holding none) := by
    rw [hstance, alter_ne hne, alter_self ha]
  obtain ⟨d, hd, hda⟩ := stance_eq_some hsrc
  have hstate : d.state = a.state := congrArg Stance.state hda
  have htake : P.take src = if ((P.taken src).process src).any (·.state = .sendRec) then (P.taken src).awaitReply src
      else (P.taken src).wake src := rfl
  rw [htake, hd]
  simp [hstate]

theorem stance_take (h : P.Sound (P.current :: hand)) (hf : P.sender? P.current filter = some src)
    (hm : P.slot src = some msg) (ha : P.stance src = some a) (hs : a.state = .sending) :
    (P.take src).stance = alter (alter P.stance src .released) P.current (.got { msg with sender := src }) := by
  obtain ⟨hne, hsound, hstance⟩ := h.taken hf hm
  rw [h.take_eq hf hm ha, if_neg (by simp [hs]), hsound.stance_wake, hstance, alter_comm hne.symm, alter_alter]
  rfl

/-- Nothing in the waiting list of a sender changes when its message is taken. -/
theorem taken_sender? (h : P.Sound (P.current :: hand)) (hf : P.sender? P.current filter = some src)
    (hm : P.slot src = some msg) :
    (P.taken src).sender? src .reply = P.sender? src .reply ∧
      ∀ x ∈ P.queue (.waiting src), (P.taken src).process x = P.process x := by
  obtain ⟨hne, -⟩ := h.taken hf hm
  obtain ⟨d, hd, hl, -⟩ := h.waiter (sender?_some hf).1
  have hqueue : (P.taken src).queue (.waiting src) = P.queue (.waiting src) := by
    rw [Plain.taken, deliver_waiting]
    exact Function.update_of_ne (by simpa using hne) ..
  have hprocess : ∀ x ∈ P.queue (.waiting src), (P.taken src).process x = P.process x := fun x hx => by
    obtain ⟨e, he, hlink, -, hout⟩ := h.waiter hx
    have hcur : x ≠ P.current := fun hc => hout (hc ▸ List.mem_cons_self)
    -- The sender that was taken waits for the current process, not for itself.
    have hsrc : x ≠ src := fun hs => by
      subst hs
      obtain rfl := Option.some_inj.mp (hd.symm.trans he)
      exact hne (Link.waiting.inj (Option.some_inj.mp (hlink.symm.trans hl)))
    rw [Plain.taken, deliver_ne hcur hsrc]
    exact modify_ne hsrc _
  exact ⟨sender?_congr hqueue hprocess .reply, hprocess⟩

/-- The sender of a request goes on to wait for the reply. -/
theorem stance_take_request (h : P.Sound (P.current :: hand)) (hf : P.sender? P.current filter = some src)
    (hm : P.slot src = some msg) (ha : P.stance src = some a) (hs : a.state = .sendRec)
    (hnone : P.sender? src .reply = none) :
    (P.take src).stance =
      alter (alter P.stance src (.awaiting ∘ .holding none)) P.current (.got { msg with sender := src }) := by
  obtain ⟨hne, -, hstance⟩ := h.taken hf hm
  rw [h.take_eq hf hm ha, if_pos hs, stance_awaitReply_of_none ((h.taken_sender? hf hm).1.trans hnone), hstance,
    alter_comm hne.symm, alter_alter]

/-- The sender of a request finds the reply in its own waiting list. -/
theorem stance_take_answered (h : P.Sound (P.current :: hand)) (hf : P.sender? P.current filter = some src)
    (hm : P.slot src = some msg) (ha : P.stance src = some a) (hs : a.state = .sendRec) {replier : Pid} {reply : Message}
    (hreplier : P.sender? src .reply = some replier) (hreply : P.slot replier = some reply) :
    replier ≠ src ∧ replier ≠ P.current ∧ (P.take src).stance =
      alter (alter (alter P.stance replier .released) src (.got { reply with sender := replier })) P.current
        (.got { msg with sender := src }) := by
  obtain ⟨hne, hsound, hstance⟩ := h.taken hf hm
  obtain ⟨hsender, hprocess⟩ := h.taken_sender? hf hm
  have hmem := (sender?_some hreplier).1
  have hslot : (P.taken src).slot replier = some reply := (slot_of_process (hprocess replier hmem)).trans hreply
  have hsrc : replier ≠ src := fun he => (hsound.not_waiting (sender?_some (hsender.trans hreplier)).1).1
    (he ▸ List.mem_cons_self)
  have hcur : replier ≠ P.current := fun he => (h.not_waiting hmem).1 (he ▸ List.mem_cons_self)
  refine ⟨hsrc, hcur, ?_⟩
  rw [h.take_eq hf hm ha, if_pos hs, hsound.stance_awaitReply (hsender.trans hreplier) hslot, hstance,
    alter_comm hcur.symm, alter_comm hne.symm, alter_comm hsrc.symm, alter_alter]
  rfl

end Sound

/-! ### The current process blocks -/

theorem Sound.stance_block (h : P.Sound (P.current :: hand)) (filter : MessageType) (timeout : Option UInt32) :
    (P.block filter timeout).stance = alter P.stance P.current fun a => { a with
      state := .receiving
      filter := filter
      deadline := timeout.map fun ms => saturate (P.timeouts.ticks + saturate ms.toNat) } := by
  have hmodify := stance_modify (P := P) (f := fun d => { d with state := .receiving, filter := filter })
    (g := fun a => { a with state := .receiving, filter := filter }) (fun _ => rfl) P.current
  cases timeout with
  | none =>
    have hblock : (P.block filter none).stance =
        (P.modify P.current fun d => { d with state := .receiving, filter := filter }).stance := rfl
    -- A process in hand has no deadline to begin with.
    obtain ⟨d, hd, hh⟩ := h.found List.mem_cons_self
    rw [hblock, hmodify, alter, alter, stance_eq hd, Option.map_some, Option.map_some]
    simp [Descriptor.stance, hh.deadline]
  | some ms =>
    have hblock : (P.block filter (some ms)).stance =
        ((P.modify P.current fun d => { d with state := .receiving, filter := filter }).modify P.current fun d =>
          { d with deadline := some (saturate (P.timeouts.ticks + saturate ms.toNat)) }).stance := rfl
    rw [hblock, stance_modify (g := fun a => { a with deadline := some (saturate (P.timeouts.ticks + saturate ms.toNat)) })
      (fun _ => rfl), hmodify, alter_alter]
    rfl

/-! ### Time and interrupts -/

theorem stance_notify (P : Plain) (dest : Pid) (ty : MessageType) :
    (P.notify dest ty).stance = alter P.stance dest (.holding (some (.new ty))) :=
  stance_slot P dest (some (.new ty))

namespace Sound

theorem stance_expire (h : P.Sound (p :: hand)) :
    (P.expire p).stance = alter P.stance p (.woken ∘ .holding (some (.new .timeout))) := by
  have hwake := ((h.emit (.expired p)).notify p .timeout).stance_wake
  have hemit : (P.emit (.expired p)).stance = P.stance := rfl
  rw [Plain.expire, hwake, stance_notify, alter_alter, hemit]

theorem stance_expireAll {l : List Pid} (h : P.Sound (l ++ hand)) (hp : p ∈ l) (ha : P.stance p = some a) :
    (l.foldl Plain.expire P).stance p = some ((a.holding (some (.new .timeout))).woken) := by
  induction l generalizing P with
  | nil => cases hp
  | cons q l ih =>
    rw [List.foldl_cons]
    by_cases hq : p = q
    · subst hq
      -- Nobody times out twice.
      have hout : p ∉ l := fun hin => (List.nodup_cons.mp h.distinct).1 (List.mem_append_left _ hin)
      rw [stance_of_process (expireAll_ne hout), stance_expire h, alter_self ha]
      rfl
    · refine ih h.expire ((List.mem_cons.mp hp).resolve_left hq) ?_
      rw [stance_expire h, alter_ne hq, ha]

/-- What the passing of time does to a process: it stays as it is, its deadline is counted anew, or it times out. -/
theorem stance_elapse (h : P.Sound hand) (ms : UInt32) (ha : P.stance p = some a) :
    (P.elapse ms).stance p = some a ∨
      (∃ due left, a.deadline = some due ∧ (P.elapse ms).stance p = some { a with deadline := some left }) ∨
      ∃ due, a.deadline = some due ∧ due < P.timeouts.ticks ∧ a.state = .receiving ∧
        (P.elapse ms).stance p = some (a.got (.new .timeout)) := by
  obtain ⟨d, hd, rfl⟩ := stance_eq_some ha
  by_cases hentry : p ∈ P.timeouts.entries
  · cases hnext : P.timeouts.nextDue with
    | none => exact .inl (by rw [elapse_of_none hnext, ha])
    | some next =>
      rw [elapse_of_some hnext]
      split
      · exact .inl ha
      · obtain ⟨e, he, hstate, -⟩ := h.receiver hentry
        obtain rfl := Option.some_inj.mp (hd.symm.trans he)
        obtain ⟨e, he, hdead⟩ := (h.entry p).mp hentry
        obtain rfl := Option.some_inj.mp (hd.symm.trans he)
        obtain ⟨due, hdue⟩ := Option.isSome_iff_exists.mp hdead
        -- A scan replaces the deadline of an entry by what is left of it.
        have hscan : (P.scan (P.later ms)).stance p =
            some { d.stance with deadline := P.left (P.later ms) p } := by
          rw [stance, read, scan_entry hentry, hd]
          rfl
        cases hleft : P.left (P.later ms) p with
        | none =>
          have hpassed : due < P.timeouts.ticks := by
            simp only [left, hd, Option.bind_some, hdue] at hleft
            simpa [remaining] using hleft
          have hall := (h.scan (P.later ms)).stance_expireAll (mem_overdue.mpr ⟨hentry, hleft⟩) hscan
          rw [hleft] at hall
          exact .inr (.inr ⟨due, hdue, hpassed, hstate, hall⟩)
        | some left =>
          have hout : p ∉ P.overdue (P.later ms) := fun hin => by
            cases hleft.symm.trans (mem_overdue.mp hin).2
          rw [hleft] at hscan
          exact .inr (.inl ⟨due, left, hdue, (stance_of_process (expireAll_ne hout)).trans hscan⟩)
  · refine .inl ?_
    cases hnext : P.timeouts.nextDue with
    | none => rw [elapse_of_none hnext, ha]
    | some next =>
      rw [elapse_of_some hnext]
      split
      · exact ha
      · -- Who is not in the registry is passed over.
        have hout : p ∉ P.overdue (P.later ms) := fun hin => hentry (mem_overdue.mp hin).1
        rw [stance_of_process (expireAll_ne hout), ← ha]
        exact stance_of_process (scan_ne hentry)

end Sound

/-- What an interrupt does to its process: it is taken at once if the process waits for it, else it is pending. -/
theorem Rests.stance_alert (h : P.Rests) (dest : Pid) (ha : P.stance dest = some a) :
    (P.alert dest).stance = alter P.stance dest
      (if a.accepts .interrupt then .got (.new .interrupt) else fun a => { a with pending := true }) := by
  have hacc := accepts_eq_stance ha .interrupt
  unfold Plain.alert
  by_cases hc : P.accepts dest .interrupt = true
  · rw [if_pos hc, if_pos (hacc ▸ hc), ((h.cancel hc).notify dest .interrupt).stance_wake, stance_notify, stance_cancel,
      alter_alter, alter_alter]
    rfl
  · have hwants : ¬a.accepts .interrupt = true := hacc ▸ hc
    rw [if_neg hc, if_neg hwants]
    obtain ⟨d, hd, rfl⟩ := stance_eq_some ha
    split
    · rename_i hpending
      have hp : d.pending = true := by simpa [hd] using hpending
      refine (alter_of_fixed (s := P.stance) fun b hb => ?_).symm
      obtain rfl := Option.some_inj.mp (ha.symm.trans hb)
      simp [Descriptor.stance, hp]
    · exact stance_modify (f := fun d => { d with pending := true }) (fun _ => rfl) dest

/-! ### Switches -/

/-- The process that runs is active, and stays so when it gives way. -/
theorem Rests.stance_wake_current (h : P.Rests) : (P.wake P.current).stance = P.stance := by
  by_cases hi : P.current = .idle
  · rw [hi, h.sound.wake_idle]
  · rw [(h.held hi).stance_wake]
    refine alter_of_fixed fun a ha => ?_
    obtain ⟨d, hd, rfl⟩ := stance_eq_some ha
    simp [Stance.woken, Descriptor.stance, h.active d hd hi]

theorem Rests.stance_yield (h : P.Rests) : P.yield.stance = P.stance := by
  rw [Plain.yield, stance_reschedule, h.stance_wake_current]

theorem stance_exit (P : Plain) : P.exit.stance = alter P.stance P.current fun a => { a with state := .dead } := by
  have hmodify := stance_modify (P := P) (f := fun d => { d with state := .dead })
    (g := fun a => { a with state := .dead }) (fun _ => rfl) P.current
  rw [exit, stance_reschedule]
  exact hmodify

theorem stance_save (P : Plain) (psp : Word) : (P.save psp).stance = P.stance :=
  modify_read (g := Descriptor.stance) (f := fun d => { d with context := Arena.locate psp }) (fun _ => rfl) _

theorem Rests.stance_preempt (h : P.Rests) (psp : Word) : (P.preempt psp).stance = P.stance := by
  have hcurrent : (P.save psp).current = P.current := rfl
  rw [Plain.preempt, stance_reschedule, ← hcurrent, (h.save psp).stance_wake_current, stance_save]

theorem stance_setPriority (P : Plain) (level : Priority) : (P.setPriority level).stance = P.stance :=
  modify_read (g := Descriptor.stance) (f := fun d => { d with priority := level }) (fun _ => rfl) _

theorem stance_launch (P : Plain) : P.launch.stance = P.stance := by
  rw [launch, stance_reschedule]
  rfl

/-- A process that starts is a new one. -/
theorem Sound.stance_start (h : P.Sound hand) (ha : P.stance p = some a) (name : String) (size : Nat) (entry arg : Word) :
    (P.start name size entry arg).stance p = some a := by
  have hnew : p ≠ Pid.ofIndex P.size := fun hp => by
    obtain ⟨d, hd, -⟩ := stance_eq_some ha
    rw [hp, h.unused.2] at hd
    cases hd
  rw [← ha]
  refine stance_of_process ?_
  unfold Plain.start startWith
  split
  · exact P.create_ne name _ hnew
  · exact (wake_ne hnew).trans ((modify_ne hnew _).trans (P.create_ne name _ hnew))

/-! ### Requests -/

theorem stance_hold (P : Plain) (msg : Message) : (P.hold msg).stance = alter P.stance P.current (.holding (some msg)) :=
  stance_slot P P.current (some msg)

theorem hold_accepts (hp : p ≠ P.current) (ha : P.stance p = some a) (msg : Message) (ty : MessageType) :
    (P.hold msg).accepts p ty = a.accepts ty :=
  accepts_eq_stance ((stance_of_process (modify_ne hp _)).trans ha) ty

theorem stance_send_waits (ha : ¬(P.hold msg).accepts dest msg.ty = true) :
    (P.send dest msg).stance = alter P.stance P.current fun a => { a with state := .sending, slot := some msg } := by
  rw [send_of_waits ha, stance_reschedule, stance_wait, stance_hold]
  exact alter_alter _ _ _ _

theorem stance_sendRec_waits (ha : ¬(P.hold msg).accepts dest msg.ty = true) :
    (P.sendRec dest msg).stance = alter P.stance P.current fun a => { a with state := .sendRec, slot := some msg } := by
  rw [sendRec_of_waits ha, stance_reschedule, stance_wait, stance_hold]
  exact alter_alter _ _ _ _

/-- The message of the current process has gone to `dest`. -/
def handed (P : Plain) (dest : Pid) (msg : Message) : Plain := (P.hold msg).deliver dest P.current

namespace Rests

theorem handed (h : P.Rests) (hne : P.current ≠ .idle) (ha : (P.hold msg).accepts dest msg.ty = true) :
    dest ≠ P.current ∧ (P.handed dest msg).Sound [P.current] ∧ (P.handed dest msg).stance =
      alter (alter P.stance P.current (.holding none)) dest (.got { msg with sender := P.current }) := by
  have hhold : (P.hold msg).Rests := h.slot _ _
  have hm := hold_slot h.sound.current msg
  have hcurrent : (P.hold msg).current = P.current := rfl
  have hdeliver := (hhold.open_accepting hne ha).stance_deliver hm
  rw [hcurrent, stance_hold, alter_alter] at hdeliver
  exact ⟨(hhold.accepts ha).1, hhold.delivered hne hm ha, hdeliver⟩

theorem stance_send (h : P.Rests) (hne : P.current ≠ .idle) (ha : (P.hold msg).accepts dest msg.ty = true) :
    dest ≠ P.current ∧ (P.send dest msg).stance =
      alter (alter P.stance P.current .released) dest (.got { msg with sender := P.current }) := by
  obtain ⟨hout, hsound, hstance⟩ := h.handed hne ha
  have hsend : P.send dest msg = ((P.handed dest msg).wake P.current).reschedule := send_of_accepts ha
  refine ⟨hout, ?_⟩
  rw [hsend, stance_reschedule, hsound.stance_wake, hstance, alter_comm hout, alter_alter]
  rfl

/-- Nothing in the waiting list of the current process changes when its message goes to another one. -/
theorem handed_sender? (h : P.Rests) (hne : P.current ≠ .idle) (ha : (P.hold msg).accepts dest msg.ty = true) :
    (P.handed dest msg).sender? P.current .reply = P.sender? P.current .reply ∧
      ∀ x ∈ P.queue (.waiting P.current), x ≠ P.current ∧ x ≠ dest ∧ (P.handed dest msg).process x = P.process x := by
  have hhold : (P.hold msg).Rests := h.slot _ _
  obtain ⟨-, d, hd, hstate⟩ := hhold.accepts ha
  have hqueue : (P.handed dest msg).queue (.waiting P.current) = P.queue (.waiting P.current) := deliver_waiting ..
  have hprocess : ∀ x ∈ P.queue (.waiting P.current),
      x ≠ P.current ∧ x ≠ dest ∧ (P.handed dest msg).process x = P.process x := fun x hx => by
    obtain ⟨e, he, -, hblocked, hin⟩ := (h.held hne).waiter hx
    have hcur : x ≠ P.current := fun hc => hin (hc ▸ List.mem_cons_self)
    have hdest : x ≠ dest := fun hx => by
      subst hx
      have hsame : P.process x = some d := (modify_ne hcur _).symm.trans hd
      obtain rfl := Option.some_inj.mp (he.symm.trans hsame)
      simp [hstate] at hblocked
    exact ⟨hcur, hdest, (deliver_ne hdest hcur).trans (modify_ne hcur _)⟩
  exact ⟨sender?_congr hqueue (fun x hx => (hprocess x hx).2.2) .reply, hprocess⟩

theorem stance_sendRec (h : P.Rests) (hne : P.current ≠ .idle) (ha : (P.hold msg).accepts dest msg.ty = true)
    (hnone : P.sender? P.current .reply = none) :
    dest ≠ P.current ∧ (P.sendRec dest msg).stance =
      alter (alter P.stance P.current (.awaiting ∘ .holding none)) dest (.got { msg with sender := P.current }) := by
  obtain ⟨hout, -, hstance⟩ := h.handed hne ha
  have hsend : P.sendRec dest msg = ((P.handed dest msg).awaitReply P.current).reschedule := sendRec_of_accepts ha
  refine ⟨hout, ?_⟩
  rw [hsend, stance_reschedule, stance_awaitReply_of_none ((h.handed_sender? hne ha).1.trans hnone), hstance,
    alter_comm hout, alter_alter]

theorem stance_sendRec_answered (h : P.Rests) (hne : P.current ≠ .idle)
    (ha : (P.hold msg).accepts dest msg.ty = true) {replier : Pid} {reply : Message}
    (hreplier : P.sender? P.current .reply = some replier) (hreply : P.slot replier = some reply) :
    dest ≠ P.current ∧ replier ≠ P.current ∧ replier ≠ dest ∧ (P.sendRec dest msg).stance =
      alter (alter (alter P.stance replier .released) P.current (.got { reply with sender := replier })) dest
        (.got { msg with sender := P.current }) := by
  obtain ⟨hout, hsound, hstance⟩ := h.handed hne ha
  obtain ⟨hsender, hprocess⟩ := h.handed_sender? hne ha
  obtain ⟨hcur, hdest, hsame⟩ := hprocess replier (sender?_some hreplier).1
  have hsend : P.sendRec dest msg = ((P.handed dest msg).awaitReply P.current).reschedule := sendRec_of_accepts ha
  have hslot : (P.handed dest msg).slot replier = some reply := (slot_of_process hsame).trans hreply
  refine ⟨hout, hcur, hdest, ?_⟩
  rw [hsend, stance_reschedule, hsound.stance_awaitReply (hsender.trans hreplier) hslot, hstance, alter_comm hdest.symm,
    alter_comm hout, alter_comm hcur.symm, alter_alter]
  rfl

end Rests

end Plain

end Rendezvous
