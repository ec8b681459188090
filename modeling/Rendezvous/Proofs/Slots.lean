import Rendezvous.Proofs.Mail
import Rendezvous.Proofs.Runs

/-! # Slots

The slots, states and waiting lists of a kernel show what its boxes tell, and each operation moves messages as
its events do. -/

namespace Rendezvous

/-- What a box tells of the state of its process. -/
def Box.Suits : Box → Option State → Prop
  | .offering _ _ asks, s => s = some (if asks then .sendRec else .sending)
  | .wanting, s => s = some .receiving
  | .keeping _, s => s ≠ some .sending ∧ s ≠ some .sendRec ∧ s ≠ some .receiving

namespace Plain

/-- What the boxes `b` tell of a kernel while the processes of `hand` are in hand; a request is no reply. -/
structure Mail (P : Plain) (hand : List Pid) (b : Boxes) : Prop where
  slot : ∀ p, (b p).slot = P.slot p
  state : ∀ p, p ∉ hand → (b p).Suits (P.read (·.state) p)
  dest : ∀ p, p ∉ hand → ∀ dest msg asks, b p = .offering dest msg asks → p ∈ P.queue (.waiting dest)
  asks : ∀ p dest msg, b p = .offering dest msg true → msg.ty ≠ .reply

/-- The events from `P` to `Q` lead from the boxes `b` to `b'`, while `runs` has the processor. -/
def Trail (runs : Pid) (P : Plain) (b : Boxes) (Q : Plain) (b' : Boxes) : Prop :=
  ∃ es, Q.trace = P.trace ++ es ∧ Path runs b es b'

/-- The events from `P` to `Q` lead to boxes that tell of `Q`. -/
def Mails (runs : Pid) (P : Plain) (b : Boxes) (Q : Plain) (hand : List Pid) : Prop :=
  ∃ b', Trail runs P b Q b' ∧ Q.Mail hand b'

/-- Nothing that boxes tell of changes from `P` to `Q`. -/
structure Still (P Q : Plain) : Prop where
  slot : Q.slot = P.slot
  state : Q.read (·.state) = P.read (·.state)
  waiting : ∀ dest, Q.queue (.waiting dest) = P.queue (.waiting dest)
  trace : ∃ es, Q.trace = P.trace ++ es ∧ ∀ e ∈ es, e.Quiet

variable {P Q R : Plain} {b b' b'' : Boxes} {runs p q src dest : Pid} {hand hand' : List Pid} {e : Event}
  {d : Descriptor} {msg : Message} {asks : Bool}

theorem setQueue_waiting (P : Plain) (l : Level) (members : List Pid) (dest : Pid) :
    (P.setQueue (.ready l) members).queue (.waiting dest) = P.queue (.waiting dest) := by
  show Function.update P.queue (.ready l) members (.waiting dest) = _
  exact Function.update_of_ne (by simp) ..

theorem wake_trace (P : Plain) (p : Pid) : (P.wake p).trace = P.trace := by
  unfold wake
  split
  · rfl
  · split <;> rfl

theorem cancel_trace (P : Plain) (p : Pid) : (P.cancel p).trace = P.trace := by
  unfold cancel
  split <;> rfl

namespace Trail

theorem refl (h : Q.trace = P.trace) : Trail runs P b Q b := ⟨[], by rw [h, List.append_nil], .nil⟩

theorem trans (h : Trail runs P b Q b') (h' : Trail runs Q b' R b'') : Trail runs P b R b'' := by
  obtain ⟨es, ht, hp⟩ := h
  obtain ⟨es', ht', hp'⟩ := h'
  exact ⟨es ++ es', by rw [ht', ht, List.append_assoc], hp.append hp'⟩

theorem single (ht : Q.trace = P.trace ++ [e]) (hm : Moves runs b e b') : Trail runs P b Q b' :=
  ⟨[e], ht, .cons hm .nil⟩

theorem quiet {es : List Event} (ht : Q.trace = P.trace ++ es) (hq : ∀ e ∈ es, e.Quiet) : Trail runs P b Q b := by
  refine ⟨es, ht, ?_⟩
  clear ht
  induction es with
  | nil => exact .nil
  | cons e es ih => exact .cons (.quiet (hq e List.mem_cons_self)) (ih fun e' he => hq e' (List.mem_cons_of_mem _ he))

end Trail

namespace Mails

theorem trans (h : Trail runs P b Q b') (h' : Mails runs Q b' R hand) : Mails runs P b R hand :=
  h'.imp fun _ hb => ⟨h.trans hb.1, hb.2⟩

theorem bind (h : Mails runs P b Q hand) (h' : ∀ b', Q.Mail hand b' → Mails runs Q b' R hand') :
    Mails runs P b R hand' := by
  obtain ⟨b', ht, hm⟩ := h
  exact .trans ht (h' b' hm)

end Mails

namespace Still

theorem refl (P : Plain) : Still P P := ⟨rfl, rfl, fun _ => rfl, [], (List.append_nil _).symm, (by simp)⟩

theorem trans (h : Still P Q) (h' : Still Q R) : Still P R := by
  obtain ⟨es, ht, hq⟩ := h.trace
  obtain ⟨es', ht', hq'⟩ := h'.trace
  exact ⟨h'.slot.trans h.slot, h'.state.trans h.state, fun dest => (h'.waiting dest).trans (h.waiting dest), es ++ es',
    by rw [ht', ht, List.append_assoc], fun e he => (List.mem_append.mp he).elim (hq e) (hq' e)⟩

theorem silent (hs : Q.slot = P.slot) (hst : Q.read (·.state) = P.read (·.state))
    (hw : ∀ dest, Q.queue (.waiting dest) = P.queue (.waiting dest)) (ht : Q.trace = P.trace) : Still P Q :=
  ⟨hs, hst, hw, [], by rw [ht, List.append_nil], (by simp)⟩

/-- A change of one descriptor that leaves its slot and its state alone. -/
theorem update {f : Descriptor → Descriptor} (hp : Q.process = Function.update P.process p ((P.process p).map f))
    (hs : ∀ d, (f d).slot = d.slot) (hst : ∀ d, (f d).state = d.state)
    (hw : ∀ dest, Q.queue (.waiting dest) = P.queue (.waiting dest)) (ht : Q.trace = P.trace) : Still P Q := by
  refine silent ?_ ?_ hw ht
  · rw [← slot_modify (P := P) hs p]
    funext q
    show (Q.process q).bind _ = _
    rw [hp]
    rfl
  · rw [← modify_read (P := P) hst p]
    funext q
    rw [read, hp]
    rfl

theorem modify (P : Plain) (p : Pid) {f : Descriptor → Descriptor} (hs : ∀ d, (f d).slot = d.slot)
    (hst : ∀ d, (f d).state = d.state) : Still P (P.modify p f) :=
  update rfl hs hst (fun _ => rfl) rfl

theorem emit (P : Plain) (hq : e.Quiet) : Still P (P.emit e) := by
  refine ⟨rfl, rfl, fun _ => rfl, [e], rfl, fun e' he => ?_⟩
  rw [List.mem_singleton.mp he]
  exact hq

theorem cancel (P : Plain) (p : Pid) : Still P (P.cancel p) := by
  unfold Plain.cancel
  split
  · exact update (f := fun d => { d with deadline := none }) rfl (fun _ => rfl) (fun _ => rfl) (fun _ => rfl) rfl
  · exact .refl P

theorem charge (P : Plain) : Still P P.charge := by
  cases h : P.last with
  | none =>
    rw [charge_of_none h]
    exact silent rfl rfl (fun _ => rfl) rfl
  | some p =>
    rw [charge_of_some h]
    exact update (f := fun d => { d with runtime := d.runtime + (P.uptime - P.chargedUntil) }) rfl (fun _ => rfl)
      (fun _ => rfl) (fun _ => rfl) rfl

theorem pop (P : Plain) : Still P P.pop := by
  cases h : P.front? with
  | none => exact (pop_of_none h).symm ▸ .refl P
  | some front =>
    rw [pop_of_some h]
    exact update (f := fun d => { d with link := none }) rfl (fun _ => rfl) (fun _ => rfl)
      (setQueue_waiting _ front.1 _) rfl

theorem run (P : Plain) (p : Pid) : Still P (P.run p) := by
  have hmod := Still.modify P p (f := fun d => { d with turns := min (d.turns + 1) Limits.turns }) (fun _ => rfl)
    fun _ => rfl
  have hemit := hmod.trans (.emit _ (e := .picked p (((P.process p).map (·.name)).getD "")) trivial)
  exact hemit.trans (silent rfl rfl (fun _ => rfl) rfl)

theorem reschedule (P : Plain) : Still P P.reschedule :=
  (Still.charge P).trans ((Still.pop _).trans (.run _ _))

theorem setTimeout (P : Plain) (p : Pid) (timeout : Option UInt32) : Still P (P.setTimeout p timeout) := by
  cases timeout with
  | none => exact .refl P
  | some ms =>
    exact update (f := fun d => { d with deadline := some (saturate (P.timeouts.ticks + saturate ms.toNat)) }) rfl
      (fun _ => rfl) (fun _ => rfl) (fun _ => rfl) rfl

theorem scan (P : Plain) (later : Int) : Still P (P.scan later) := by
  have hslot : (P.scan later).slot = P.slot := by
    funext p
    show ((P.scan later).process p).bind _ = (P.process p).bind _
    rw [bind_read, scan_read (g := (·.slot)) (fun _ _ => rfl), bind_read]
  exact silent hslot (scan_read (fun _ _ => rfl) later) (fun _ => rfl) rfl

theorem asked (P : Plain) (r : Request) : Still P (P.asked r) := by
  refine ⟨rfl, rfl, fun _ => rfl, [.requested P.current r], rfl, fun e he => ?_⟩
  rw [List.mem_singleton.mp he]
  trivial

theorem save (P : Plain) (psp : Word) : Still P (P.save psp) := .modify P P.current (fun _ => rfl) fun _ => rfl

end Still

namespace Mail

theorem of_still (h : P.Mail hand b) (hs : Still P Q) : Q.Mail hand b where
  slot p := (h.slot p).trans (congrFun hs.slot p).symm
  state p hp := hs.state ▸ h.state p hp
  dest p hp dest msg asks hb := hs.waiting dest ▸ h.dest p hp dest msg asks hb
  asks := h.asks

theorem mono (h : P.Mail hand b) (hsub : ∀ p ∈ hand, p ∈ hand') : P.Mail hand' b where
  slot := h.slot
  state p hp := h.state p fun hin => hp (hsub p hin)
  dest p hp := h.dest p fun hin => hp (hsub p hin)
  asks := h.asks

theorem take (h : P.Mail hand b) (p : Pid) : P.Mail (p :: hand) b := h.mono fun _ => List.mem_cons_of_mem p

theorem swap (h : P.Mail (p :: q :: hand) b) : P.Mail (q :: p :: hand) b :=
  h.mono fun _ => (List.Perm.swap q p hand).mem_iff.mp

/-- A process that suits its box is put down. -/
theorem put (h : P.Mail (p :: hand) b) (hs : (b p).Suits (P.read (·.state) p))
    (hd : ∀ dest msg asks, b p = .offering dest msg asks → p ∈ P.queue (.waiting dest)) : P.Mail hand b where
  slot := h.slot
  state q hq := by
    by_cases hqp : q = p
    · rw [hqp]
      exact hs
    · exact h.state q (by simp [hqp, hq])
  dest q hq dest msg asks hb := by
    by_cases hqp : q = p
    · rw [hqp] at hb ⊢
      exact hd dest msg asks hb
    · exact h.dest q (by simp [hqp, hq]) dest msg asks hb
  asks := h.asks

/-- The box of a process in hand changes, with its slot or without it; all others stay where they are. -/
theorem change (h : P.Mail (p :: hand) b) {f : Descriptor → Descriptor} (box : Box)
    (hprocess : Q.process = Function.update P.process p ((P.process p).map f)) (hslot : Q.slot p = box.slot)
    (hwaiting : ∀ q dest, q ≠ p → q ∈ P.queue (.waiting dest) → q ∈ Q.queue (.waiting dest))
    (hasks : ∀ dest msg, box = .offering dest msg true → msg.ty ≠ .reply) :
    Q.Mail (p :: hand) (Function.update b p box) where
  slot q := by
    by_cases hqp : q = p
    · rw [hqp, Function.update_self, hslot]
    · rw [Function.update_of_ne hqp, h.slot, Plain.slot, Plain.slot, hprocess, Function.update_of_ne hqp]
  state q hq := by
    have hqp : q ≠ p := List.ne_of_not_mem_cons hq
    rw [Function.update_of_ne hqp, read, hprocess, Function.update_of_ne hqp]
    exact h.state q hq
  dest q hq dest msg asks hb := by
    have hqp : q ≠ p := List.ne_of_not_mem_cons hq
    rw [Function.update_of_ne hqp] at hb
    exact hwaiting q dest hqp (h.dest q hq dest msg asks hb)
  asks q dest msg hb := by
    by_cases hqp : q = p
    · rw [hqp, Function.update_self] at hb
      exact hasks dest msg hb
    · rw [Function.update_of_ne hqp] at hb
      exact h.asks q dest msg hb

theorem slot_update (h : P.Mail (p :: hand) b) (hp : (P.process p).isSome) (box : Box)
    (hasks : ∀ dest msg, box = .offering dest msg true → msg.ty ≠ .reply) :
    (P.modify p fun d => { d with slot := box.slot }).Mail (p :: hand) (Function.update b p box) := by
  obtain ⟨d, hd⟩ := Option.isSome_iff_exists.mp hp
  exact h.change box rfl (slot_eq (modify_self hd _)) (fun _ _ _ hq => hq) hasks

/-- The place of a process in hand changes without its slot. -/
theorem moved (h : P.Mail (p :: hand) b) {f : Descriptor → Descriptor}
    (hp : Q.process = Function.update P.process p ((P.process p).map f)) (hf : ∀ d, (f d).slot = d.slot)
    (hq : ∀ q dest, q ≠ p → q ∈ P.queue (.waiting dest) → q ∈ Q.queue (.waiting dest)) : Q.Mail (p :: hand) b := by
  have hslot : Q.slot p = (P.modify p f).slot p := by
    show (Q.process p).bind _ = _
    rw [hp]
    rfl
  rw [slot_modify hf, ← h.slot] at hslot
  have hsame : Q.Mail (p :: hand) (Function.update b p (b p)) := h.change (b p) hp hslot hq (h.asks p)
  rwa [Function.update_eq_self] at hsame

theorem emit (h : P.Mail hand b) (e : Event) : (P.emit e).Mail hand b := ⟨h.slot, h.state, h.dest, h.asks⟩

theorem emit_quiet (h : P.Mail hand b) {e : Event} (hq : e.Quiet) : Mails runs P b (P.emit e) hand :=
  ⟨b, .quiet rfl fun _ he => List.mem_singleton.mp he ▸ hq, h.emit e⟩

theorem mails (h : P.Mail hand b) (hs : Still P Q) : Mails runs P b Q hand := by
  obtain ⟨es, ht, hq⟩ := hs.trace
  exact ⟨b, .quiet ht hq, h.of_still hs⟩

/-! ### Waking -/

theorem wake_level (h : P.Mail (p :: hand) b) (hd : P.process p = some d) {l : Level} (hl : d.priority.level? = some l)
    {slot : Option Message} (hb : b p = .keeping slot) : (P.wake p).Mail hand b := by
  have hproc : (P.wake p).process = Function.update P.process p
      ((P.process p).map fun d => { d with state := .active, link := some (.ready l) }) := by
    rw [wake_of_some hd hl, hd]
    rfl
  have hwaiting : ∀ dest, (P.wake p).queue (.waiting dest) = P.queue (.waiting dest) := fun dest => by
    rw [wake_of_some hd hl]
    exact setQueue_waiting P l _ dest
  have hstate : (P.wake p).read (·.state) p = some .active := by
    rw [read, hproc, Function.update_self, hd]
    rfl
  refine (h.moved hproc (fun _ => rfl) fun q dest _ hq => (hwaiting dest).symm ▸ hq).put ?_ fun dest msg asks ho => ?_
  · rw [hb, hstate]
    exact ⟨by simp, by simp, by simp⟩
  · cases hb.symm.trans ho

theorem wake (h : P.Mail (p :: hand) b) (hs : P.Sound (p :: hand')) {slot : Option Message} (hb : b p = .keeping slot) :
    (P.wake p).Mail hand b := by
  obtain ⟨d, hd, -⟩ := hs.found List.mem_cons_self
  obtain ⟨l, hl⟩ := (hs.fits p d hd).level (hs.ne_idle List.mem_cons_self)
  exact h.wake_level hd hl hb

theorem wake_mails (h : P.Mail (p :: hand) b) (hs : P.Sound (p :: hand')) {slot : Option Message}
    (hb : b p = .keeping slot) : Mails runs P b (P.wake p) hand :=
  ⟨b, .refl (wake_trace P p), h.wake hs hb⟩

/-! ### Delivering -/

/-- A message that is held out goes into a slot that is free for it. -/
theorem deliver (h : P.Mail (dest :: src :: hand) b)
    (hs : ((P.modify src fun d => { d with slot := none }).cancel dest).Sound (dest :: hand'))
    (hsrc : (P.process src).isSome) (offers : b src = .offering dest msg asks) (ne : src ≠ dest)
    (free : b.Free runs dest) :
    Trail runs P b (P.deliver dest src) (b.pass src dest { msg with sender := src } asks) ∧
      (P.deliver dest src).Mail (src :: hand) (b.pass src dest { msg with sender := src } asks) := by
  have hm : P.slot src = some msg := by rw [← h.slot, offers, Box.slot]
  have hopen := h.swap.slot_update hsrc (.relieved asks) fun _ _ hr => absurd hr (Box.relieved_ne_offering _)
  rw [Box.relieved_slot] at hopen
  have hempty := hopen.of_still (.cancel _ dest)
  have hfill := hempty.swap.slot_update (hs.hand dest List.mem_cons_self)
    (.keeping (some { msg with sender := src })) (by simp)
  rw [deliver_eq hm]
  refine ⟨.single ?_ (.delivered offers ne free), ?_⟩
  · rw [wake_trace]
    show (cancel _ dest).trace ++ _ = _
    rw [cancel_trace]
    rfl
  · exact (hfill.emit _).wake ((hs.slot dest _).emit _) (Function.update_self ..)

/-- The processes in a waiting list hold their messages out. -/
theorem waiter (h : P.Mail hand b) (hs : P.Sound hand') (hmem : src ∈ P.queue (.waiting dest)) (hout : src ∉ hand) :
    ∃ msg asks, b src = .offering dest msg asks ∧ P.read (·.state) src = some (if asks then .sendRec else .sending) := by
  obtain ⟨d, hp, hl, hstate, -⟩ := hs.waiter hmem
  have hread : P.read (·.state) src = some d.state := by rw [read, hp, Option.map_some]
  have hsuits := h.state src hout
  rw [hread] at hsuits
  cases hb : b src with
  | offering dest' msg asks =>
    rw [hb] at hsuits
    obtain ⟨e, he, hlink⟩ := (hs.member _ src).mp (h.dest src hout dest' msg asks hb)
    obtain rfl : d = e := Option.some_inj.mp (hp.symm.trans he)
    -- It is linked to one list only, so the message is for the process whose list that is.
    obtain rfl : dest' = dest := Link.waiting.inj (Option.some_inj.mp (hlink.symm.trans hl))
    exact ⟨msg, asks, rfl, hread.trans hsuits⟩
  | wanting =>
    rw [hb] at hsuits
    rw [Option.some_inj.mp hsuits] at hstate
    exact absurd hstate (by simp)
  | keeping slot =>
    rw [hb] at hsuits
    rcases hstate with hst | hst
    · exact absurd (congrArg some hst) hsuits.1
    · exact absurd (congrArg some hst) hsuits.2.1

/-- A process that is found in a waiting list holds out a message that the filter accepts. -/
theorem offers (h : P.Mail hand b) (hs : P.Sound hand) {filter : MessageType} (hf : P.sender? dest filter = some src) :
    ∃ msg asks, b src = .offering dest msg asks ∧ filter.accepts msg.ty = true ∧
      P.read (·.state) src = some (if asks then .sendRec else .sending) := by
  obtain ⟨hmem, m, hm, hacc⟩ := sender?_some hf
  obtain ⟨-, -, -, -, hout⟩ := hs.waiter hmem
  obtain ⟨msg, asks, hb, hread⟩ := h.waiter hs hmem hout
  obtain rfl : msg = m := by
    have hslot := h.slot src
    rw [hb, hm] at hslot
    exact Option.some_inj.mp hslot
  exact ⟨msg, asks, hb, hacc, hread⟩

theorem free (h : P.Mail hand b) (src dest : Pid) : (P.free src (.waiting dest)).Mail (src :: hand) b := by
  refine (h.take src).moved (f := fun d => { d with link := none }) rfl (fun _ => rfl) fun q dest' hq hmem => ?_
  show q ∈ Function.update P.queue (.waiting dest) _ (.waiting dest')
  by_cases hd : dest' = dest
  · rw [hd, Function.update_self]
    exact (List.mem_erase_of_ne hq).mpr (hd ▸ hmem)
  · rw [Function.update_of_ne (by simpa using hd)]
    exact hmem

/-- A process whose request was taken wants the reply. -/
theorem awaitReply (h : P.Mail (p :: hand) b) (hs : P.Sound (p :: hand)) (hb : b p = .wanting) :
    Mails runs P b (P.awaitReply p) hand := by
  unfold Plain.awaitReply
  cases hf : P.sender? p .reply with
  | some src =>
    obtain ⟨msg, asks, hoffers, hacc, -⟩ := h.offers hs hf
    obtain ⟨hfree, m, hm⟩ := hs.free_sender hf
    have hsrc : ((P.free src (.waiting p)).process src).isSome := hfree.hand src List.mem_cons_self
    have hne : src ≠ p := fun he => by
      rw [he, hb] at hoffers
      cases hoffers
    have hty : msg.ty = .reply := by
      have hty : MessageType.reply = .any ∨ MessageType.reply = msg.ty := by simpa [MessageType.accepts] using hacc
      exact (hty.resolve_left (by decide)).symm
    have hopen := hfree.swap.open_held src
    obtain ⟨htrail, hmail⟩ := (h.free src p).swap.deliver hopen hsrc hoffers hne (Or.inl hb : b.Free runs p)
    -- A reply is never sent as a request, so its sender does not wait in turn.
    have hasks : asks = false := by
      cases asks with
      | false => rfl
      | true => exact absurd hty (h.asks src p msg hoffers)
    have hkeep : (b.pass src p { msg with sender := src } asks) src = .keeping none := by
      rw [Boxes.pass_src hne, hasks]
      rfl
    exact .trans htrail (hmail.wake_mails (hopen.deliver hm) hkeep)
  | none =>
    obtain ⟨-, d, hd, hstate, -⟩ := hs.receiving .reply
    have hmoved : (P.modify p fun d => { d with state := .receiving, filter := .reply }).Mail (p :: hand) b :=
      h.moved rfl (fun _ => rfl) fun _ _ _ hq => hq
    refine ⟨b, .refl rfl, hmoved.put ?_ fun dest msg asks ho => absurd (hb.symm.trans ho) (by simp)⟩
    rw [hb, read, hd, Option.map_some, hstate]
    rfl

/-- The current process takes a message that is held out to it. -/
theorem accept (h : P.Mail (src :: P.current :: hand) b) (hs : P.Sound (src :: P.current :: hand))
    (offers : b src = .offering P.current msg asks) (empty : b P.current = .keeping none)
    (hstate : P.read (·.state) src = some (if asks then .sendRec else .sending)) :
    Mails P.current P b (P.accept src) hand := by
  have hm : P.slot src = some msg := by rw [← h.slot, offers, Box.slot]
  have hne : src ≠ P.current := fun he => by
    rw [he, empty] at offers
    cases offers
  have hopen := hs.swap.open_held src
  obtain ⟨d, hd⟩ := Option.isSome_iff_exists.mp (hs.hand src List.mem_cons_self)
  obtain ⟨htrail, hmail⟩ := h.swap.deliver hopen (hs.hand src List.mem_cons_self) offers hne (Or.inr ⟨rfl, empty⟩)
  have hgot := hopen.deliver hm
  have hbox : (b.pass src P.current { msg with sender := src } asks) src = .relieved asks := Boxes.pass_src hne
  have hany : ((P.deliver P.current src).process src).any (·.state = .sendRec) = asks := by
    have hdstate : d.state = if asks then .sendRec else .sending := by
      rw [read, hd] at hstate
      exact Option.some_inj.mp hstate
    rw [deliver_src hm hne, hd]
    cases asks <;> simp [hdstate]
  unfold Plain.accept
  simp only [hany]
  refine .trans htrail ?_
  cases asks with
  | true => exact hmail.awaitReply hgot hbox
  | false => exact hmail.wake_mails hgot hbox

theorem take_sender (h : P.Mail (P.current :: hand) b) (hs : P.Sound (P.current :: hand)) {filter : MessageType}
    (hf : P.sender? P.current filter = some src) (empty : b P.current = .keeping none) :
    Mails P.current P b (P.take src) hand := by
  obtain ⟨msg, asks, hoffers, -, hstate⟩ := h.offers hs hf
  obtain ⟨hfree, -⟩ := hs.free_sender hf
  have hmails := (h.free src P.current).accept hfree hoffers empty ((congrFun (modify_read (g := (·.state))
    (f := fun d => { d with link := none }) (fun _ => rfl) src) src).trans hstate)
  exact .trans (.refl rfl) hmails

/-! ### The current process -/

/-- Whoever is not in the table keeps nothing. -/
theorem absent (h : P.Mail hand b) (hp : P.process p = none) (hout : p ∉ hand) : b p = .keeping none := by
  have hsuits := h.state p hout
  have hslot := h.slot p
  rw [read, hp, Option.map_none] at hsuits
  rw [Plain.slot, hp, Option.bind_none] at hslot
  cases hb : b p with
  | offering _ _ _ =>
    rw [hb] at hsuits
    cases hsuits
  | wanting =>
    rw [hb] at hsuits
    cases hsuits
  | keeping slot =>
    rw [hb] at hslot
    exact congrArg Box.keeping hslot

theorem wants (h : P.Mail hand b) (hp : P.process p = some d) (hs : d.state = .receiving) (hout : p ∉ hand) :
    b p = .wanting := by
  have hsuits := h.state p hout
  rw [read, hp, Option.map_some, hs] at hsuits
  cases hb : b p with
  | offering _ _ asks =>
    rw [hb] at hsuits
    cases asks <;> cases hsuits
  | wanting => rfl
  | keeping _ =>
    rw [hb] at hsuits
    exact absurd rfl hsuits.2.2

theorem suits_current (hrest : P.Rests) (slot : Option Message) :
    (Box.keeping slot).Suits (P.read (·.state) P.current) := by
  obtain ⟨d, hd⟩ := Option.isSome_iff_exists.mp hrest.sound.current
  have hread : P.read (·.state) P.current = some d.state := by rw [read, hd, Option.map_some]
  rw [hread]
  by_cases hi : P.current = .idle
  · rw [((hrest.sound.fits _ d hd).idle hi).state]
    exact ⟨by simp, by simp, by simp⟩
  · rw [hrest.active d hd hi]
    exact ⟨by simp, by simp, by simp⟩

/-- The process that runs keeps a message or none. -/
theorem current (h : P.Mail [] b) (hrest : P.Rests) : b P.current = .keeping (P.slot P.current) := by
  have hsuits := h.state P.current List.not_mem_nil
  obtain ⟨h₁, h₂, h₃⟩ := suits_current hrest none
  rw [← h.slot]
  cases hb : b P.current with
  | offering _ _ asks =>
    rw [hb] at hsuits
    cases asks
    · exact absurd hsuits h₁
    · exact absurd hsuits h₂
  | wanting =>
    rw [hb] at hsuits
    exact absurd hsuits h₃
  | keeping _ => rfl

theorem own (h : P.Mail [] b) (hrest : P.Rests) (slot : Option Message) :
    (P.modify P.current fun d => { d with slot := slot }).Mail [] (Function.update b P.current (.keeping slot)) := by
  have hset : (P.modify P.current fun d => { d with slot := slot }).Mail [P.current]
      (Function.update b P.current (.keeping slot)) :=
    (h.take P.current).slot_update hrest.sound.current (.keeping slot) (by simp)
  refine hset.put ?_ fun dest msg asks ho => ?_
  · rw [Function.update_self, modify_read (g := (·.state)) (f := fun d => { d with slot := slot }) fun _ => rfl]
    exact suits_current hrest slot
  · rw [Function.update_self] at ho
    cases ho

theorem notify (h : P.Mail (dest :: hand) b) (hd : (P.process dest).isSome) {ty : MessageType}
    (made : ty = .interrupt ∨ ty = .timeout) (free : b.Free runs dest) :
    Trail runs P b (P.notify dest ty) (b.fill dest (.new ty)) ∧
      (P.notify dest ty).Mail (dest :: hand) (b.fill dest (.new ty)) :=
  have hslot := h.slot_update hd (.keeping (some (.new ty))) (by simp)
  ⟨.single rfl (.notified made free), hslot.slot, hslot.state, hslot.dest, hslot.asks⟩

theorem notify_current (h : P.Mail [] b) (hrest : P.Rests) {ty : MessageType} (made : ty = .interrupt ∨ ty = .timeout)
    (empty : b P.current = .keeping none) : Mails P.current P b (P.notify P.current ty) [] := by
  have hslot := h.own hrest (some (.new ty))
  exact ⟨_, .single rfl (.notified made (Or.inr ⟨rfl, empty⟩)), hslot.slot, hslot.state, hslot.dest, hslot.asks⟩

/-- The process that runs blocks until its message is taken. -/
theorem wait (h : P.Mail [P.current] b) (hc : (P.process P.current).isSome)
    (offers : b P.current = .offering dest msg asks) :
    Mails P.current P b (P.wait (if asks then .sendRec else .sending) dest) [] := by
  obtain ⟨state, hstate⟩ : ∃ state, state = if asks then State.sendRec else .sending := ⟨_, rfl⟩
  obtain ⟨d, hd⟩ := Option.isSome_iff_exists.mp hc
  rw [← hstate]
  have hmod : (P.modify P.current fun d => { d with state := state }).Mail [P.current] b :=
    h.moved rfl (fun _ => rfl) fun _ _ _ hq => hq
  have hjoin : (P.wait state dest).Mail [P.current] b := by
    refine hmod.moved (f := fun d => { d with link := some (.waiting dest) }) rfl (fun _ => rfl) fun q dest' _ hq => ?_
    show q ∈ Function.update P.queue (.waiting dest) (P.queue (.waiting dest) ++ [P.current]) (.waiting dest')
    by_cases hdest : dest' = dest
    · rw [hdest, Function.update_self]
      -- Those that wait there already go on to do so.
      exact List.mem_append_left _ (hdest ▸ hq)
    · rw [Function.update_of_ne (by simpa using hdest)]
      exact hq
  refine ⟨b, .quiet rfl fun e he => ?_, hjoin.put ?_ fun dest' msg' asks' ho => ?_⟩
  · rw [List.mem_singleton.mp he]
    trivial
  · have hread : (P.wait state dest).read (·.state) P.current = some state := by
      show ((((P.modify P.current _).modify P.current _).process P.current).map _) = _
      rw [modify_self (modify_self hd _)]
      rfl
    rw [offers, hread, hstate]
    rfl
  · obtain ⟨rfl, -⟩ := Box.offering.inj (offers.symm.trans ho)
    show P.current ∈ Function.update P.queue (.waiting dest) (P.queue (.waiting dest) ++ [P.current]) (.waiting dest)
    rw [Function.update_self]
    exact List.mem_append_right _ List.mem_cons_self

/-! ### Requests -/

/-- The process that runs holds a message out. -/
theorem hold (h : P.Mail [] b) (hrest : P.Rests) (dest : Pid) (msg : Message) (asks : Bool)
    (hasks : asks = true → msg.ty ≠ .reply) :
    (P.hold msg).Mail [P.current] (Function.update b P.current (.offering dest msg asks)) :=
  (h.take P.current).slot_update hrest.sound.current (.offering dest msg asks) fun _ _ ho => by
    obtain ⟨-, rfl, rfl⟩ := Box.offering.inj ho
    exact hasks rfl

/-- The message that the process that runs holds out goes to a receiver. -/
theorem hand_over (h : P.Mail [P.current] b) (hs : P.Sound [P.current]) (offers : b P.current = .offering dest msg asks)
    (hne : dest ≠ P.current) (hd : P.process dest = some d) (hstate : d.state = .receiving) :
    (P.deliver dest P.current).Sound [P.current] ∧
      ∃ b', Trail P.current P b (P.deliver dest P.current) b' ∧ (P.deliver dest P.current).Mail [P.current] b' ∧
        b' P.current = .relieved asks := by
  have hout : dest ∉ [P.current] := by simpa using hne
  have hopen := hs.open_receiving hd hstate hout P.current
  have hm : P.slot P.current = some msg := by rw [← h.slot, offers, Box.slot]
  obtain ⟨htrail, hmail⟩ := (h.take dest).deliver hopen (hs.hand _ List.mem_cons_self) offers hne.symm
    (Or.inl (h.wants hd hstate hout) : b.Free P.current dest)
  exact ⟨hopen.deliver hm, _, htrail, hmail, Boxes.pass_src hne.symm⟩

theorem send (h : P.Mail [] b) (hrest : P.Rests) (hne : P.current ≠ .idle) (dest : Pid) (msg : Message) :
    Mails P.current P (Function.update b P.current (.offering dest msg false)) (P.send dest msg) [] := by
  have hheld := h.hold hrest dest msg false (by simp)
  have hhold : (P.hold msg).Rests := hrest.slot _ _
  have hself : Function.update b P.current (.offering dest msg false) P.current = .offering dest msg false :=
    Function.update_self ..
  by_cases ha : (P.hold msg).accepts dest msg.ty
  · obtain ⟨hout, d, hd, hstate⟩ := hhold.accepts ha
    obtain ⟨hs, b', htrail, hmail, hbox⟩ := hheld.hand_over (hhold.held hne) hself hout hd hstate
    rw [send_of_accepts ha]
    exact .trans (.refl rfl) (.trans htrail ((hmail.wake_mails hs hbox).bind fun b'' hb => hb.mails (.reschedule _)))
  · rw [send_of_waits ha]
    exact .trans (.refl rfl) ((hheld.wait hhold.sound.current hself).bind fun b' hb => hb.mails (.reschedule _))

theorem sendRec (h : P.Mail [] b) (hrest : P.Rests) (hne : P.current ≠ .idle) (dest : Pid) (msg : Message)
    (hty : msg.ty ≠ .reply) :
    Mails P.current P (Function.update b P.current (.offering dest msg true)) (P.sendRec dest msg) [] := by
  have hheld := h.hold hrest dest msg true fun _ => hty
  have hhold : (P.hold msg).Rests := hrest.slot _ _
  have hself : Function.update b P.current (.offering dest msg true) P.current = .offering dest msg true :=
    Function.update_self ..
  by_cases ha : (P.hold msg).accepts dest msg.ty
  · obtain ⟨hout, d, hd, hstate⟩ := hhold.accepts ha
    obtain ⟨hs, b', htrail, hmail, hbox⟩ := hheld.hand_over (hhold.held hne) hself hout hd hstate
    rw [sendRec_of_accepts ha]
    exact .trans (.refl rfl) (.trans htrail ((hmail.awaitReply hs hbox).bind fun b'' hb => hb.mails (.reschedule _)))
  · rw [sendRec_of_waits ha]
    exact .trans (.refl rfl) ((hheld.wait hhold.sound.current hself).bind fun b' hb => hb.mails (.reschedule _))

/-- The process that runs begins to wait for a message. -/
theorem block (h : P.Mail [] b) (hc : (P.process P.current).isSome) (empty : b P.current = .keeping none)
    (filter : MessageType) (timeout : Option UInt32) : Mails P.current P b (P.block filter timeout) [] := by
  obtain ⟨d, hd⟩ := Option.isSome_iff_exists.mp hc
  have hslot : (P.modify P.current fun d => { d with state := .receiving, filter := filter }).slot P.current = none := by
    rw [slot_modify (f := fun d => { d with state := .receiving, filter := filter }) fun _ => rfl, ← h.slot, empty]
    rfl
  have hmod : (P.modify P.current fun d => { d with state := .receiving, filter := filter }).Mail [P.current]
      (Function.update b P.current .wanting) :=
    (h.take P.current).change .wanting rfl hslot (fun _ _ _ hq => hq) (by simp)
  have hput : (P.modify P.current fun d => { d with state := .receiving, filter := filter }).Mail []
      (Function.update b P.current .wanting) := by
    refine hmod.put ?_ fun dest msg asks ho => ?_
    · rw [Function.update_self, read, modify_self hd]
      rfl
    · rw [Function.update_self] at ho
      cases ho
  refine ⟨_, .single (e := .blocked P.current filter) ?_ (.blocked empty), (hput.of_still (.setTimeout _ P.current timeout)).emit _⟩
  cases timeout <;> rfl

theorem receive (h : P.Mail [] b) (hrest : P.Rests) (hne : P.current ≠ .idle) (filter : MessageType)
    (timeout : Option UInt32) :
    Mails P.current P (Function.update b P.current (.keeping none)) (P.receive filter timeout) [] := by
  have hempty : P.emptied.Rests := hrest.slot P.current none
  have hmail : P.emptied.Mail [] (Function.update b P.current (.keeping none)) := h.own hrest none
  have hself : Function.update b P.current (.keeping none) P.current = .keeping none := Function.update_self ..
  by_cases hi : P.takesInterrupt filter
  · rw [receive_of_interrupt hi]
    have hpending := hempty.modify_same P.current (f := fun d => { d with pending := false })
      fun _ => ⟨rfl, rfl, rfl, rfl, rfl, rfl⟩
    have hm := hmail.of_still (.modify _ P.current (f := fun d => { d with pending := false }) (fun _ => rfl)
      fun _ => rfl)
    exact .trans (.refl rfl) (hm.notify_current hpending (Or.inl rfl) hself)
  · cases hf : P.emptied.nextSender? filter with
    | some src =>
      rw [receive_of_sender hi hf]
      exact .trans (.refl rfl) (((hmail.take P.current).take_sender (hempty.held hne) (nextSender?_some hf) hself).bind
        fun b' hb => hb.mails (.reschedule _))
    | none =>
      rw [receive_of_none hi hf]
      by_cases ht : timeout = some 0
      · rw [if_pos ht]
        exact .trans (.refl rfl) (hmail.notify_current hempty (Or.inr rfl) hself)
      · rw [if_neg ht]
        exact .trans (.refl rfl) ((hmail.block hempty.sound.current hself filter timeout).bind fun b' hb =>
          hb.mails (.reschedule _))

theorem wake_current (h : P.Mail [] b) (hrest : P.Rests) : Mails P.current P b (P.wake P.current) [] := by
  by_cases hi : P.current = .idle
  · rw [hi, hrest.sound.wake_idle]
    exact ⟨b, .refl rfl, h⟩
  · exact (h.take P.current).wake_mails (hrest.held hi) (h.current hrest)

theorem yield (h : P.Mail [] b) (hrest : P.Rests) : Mails P.current P b P.yield [] :=
  (h.wake_current hrest).bind fun _ hb => hb.mails (.reschedule _)

theorem exit (h : P.Mail [] b) (hrest : P.Rests) : Mails P.current P b P.exit [] := by
  obtain ⟨d, hd⟩ := Option.isSome_iff_exists.mp hrest.sound.current
  have hself := h.current hrest
  have hmod : (P.modify P.current fun d => { d with state := .dead }).Mail [P.current] b :=
    (h.take P.current).moved rfl (fun _ => rfl) fun _ _ _ hq => hq
  have hput : (P.modify P.current fun d => { d with state := .dead }).Mail [] b := by
    refine hmod.put ?_ fun dest msg asks ho => absurd (hself.symm.trans ho) (by simp)
    rw [hself, read, modify_self hd]
    exact ⟨by simp, by simp, by simp⟩
  exact .trans (.refl rfl) ((hput.emit_quiet (e := .exited P.current) trivial).bind fun _ hb => hb.mails (.reschedule _))

/-! ### Time and interrupts -/

/-- A process that wants a message gets one from the kernel and is woken. -/
theorem alarm (runs : Pid) (h : P.Mail hand b) (hs : P.Sound (dest :: hand')) {ty : MessageType}
    (made : ty = .interrupt ∨ ty = .timeout) (wants : b dest = .wanting) :
    Trail runs P b ((P.notify dest ty).wake dest) (b.fill dest (.new ty)) ∧
      ((P.notify dest ty).wake dest).Mail hand (b.fill dest (.new ty)) := by
  obtain ⟨htrail, hmail⟩ := (h.take dest).notify (hs.hand dest List.mem_cons_self) made
    (Or.inl wants : b.Free runs dest)
  exact ⟨htrail.trans (.refl (wake_trace _ dest)), hmail.wake (hs.notify dest ty) (Function.update_self ..)⟩

theorem expire (runs : Pid) (h : P.Mail hand b) (hs : P.Sound (p :: hand')) (wants : b p = .wanting) :
    Trail runs P b (P.expire p) (b.fill p (.new .timeout)) ∧ (P.expire p).Mail hand (b.fill p (.new .timeout)) := by
  obtain ⟨htrail, hmail⟩ := (h.emit (.expired p)).alarm runs (hs.emit _) (Or.inr rfl) wants
  exact ⟨.trans (.single (e := .expired p) rfl (.quiet trivial)) htrail, hmail⟩

theorem expireAll {l : List Pid} (h : P.Mail hand b) (hs : P.Sound (l ++ hand')) (wants : ∀ p ∈ l, b p = .wanting) :
    Mails runs P b (l.foldl Plain.expire P) hand := by
  induction l generalizing P b with
  | nil => exact ⟨b, .refl rfl, h⟩
  | cons p l ih =>
    obtain ⟨htrail, hmail⟩ := h.expire runs hs (wants p List.mem_cons_self)
    have hout : p ∉ l := fun hin => (List.nodup_cons.mp hs.distinct).1 (List.mem_append_left _ hin)
    refine .trans htrail (ih hmail hs.expire fun q hq => ?_)
    have hne : q ≠ p := fun he => hout (he ▸ hq)
    rw [Boxes.fill, Function.update_of_ne hne]
    exact wants q (List.mem_cons_of_mem p hq)

theorem elapse (h : P.Mail [] b) (hs : P.Sound hand) (ms : UInt32) : Mails runs P b (P.elapse ms) [] := by
  cases hdue : P.timeouts.nextDue with
  | none =>
    rw [elapse_of_none hdue]
    exact ⟨b, .refl rfl, h⟩
  | some due =>
    rw [elapse_of_some hdue]
    split
    · exact h.mails (.silent rfl rfl (fun _ => rfl) rfl)
    · refine (h.mails (.scan P (P.later ms))).bind fun b' hb => hb.expireAll (hs.scan _) fun p hp => ?_
      obtain ⟨d, hd, hstate, -⟩ := hs.receiver (mem_overdue.mp hp).1
      have hread := congrFun (scan_read (P := P) (g := (·.state)) (fun _ _ => rfl) (P.later ms)) p
      rw [read, read, hd, Option.map_some, hstate] at hread
      obtain ⟨e, he, hes⟩ := Option.map_eq_some_iff.mp hread
      exact hb.wants he hes List.not_mem_nil

theorem tick (h : P.Mail [] b) (hrest : P.Rests) (ms : UInt32) : Mails P.current P b (P.tick ms) [] := by
  have htime : Still P { P with uptime := P.uptime + ms.toNat } := .silent rfl rfl (fun _ => rfl) rfl
  have hs : ({ P with uptime := P.uptime + ms.toNat } : Plain).Sound (inHand P.current) :=
    hrest.sound.of_same rfl rfl rfl rfl hrest.sound.last hrest.sound.current
  exact (h.mails (htime.trans (.charge _))).bind fun _ hb => hb.elapse hs.charge ms

theorem alert (h : P.Mail [] b) (hrest : P.Rests) (dest : Pid) : Mails P.current P b (P.alert dest) [] := by
  unfold Plain.alert
  split
  · rename_i ha
    obtain ⟨-, d, hd, hstate⟩ := hrest.accepts ha
    obtain ⟨htrail, hmail⟩ := (h.of_still (.cancel P dest)).alarm P.current (hrest.cancel ha)
      (Or.inl rfl) (h.wants hd hstate List.not_mem_nil)
    exact ⟨_, .trans (.refl (cancel_trace P dest)) htrail, hmail⟩
  · split
    · exact (h.emit_quiet (e := .coalesced dest) trivial).bind fun _ hb => hb.mails (.silent rfl rfl (fun _ => rfl) rfl)
    · exact h.mails (.modify P dest (fun _ => rfl) fun _ => rfl)

theorem interrupt (h : P.Mail [] b) (hrest : P.Rests) (dest : Pid) : Mails P.current P b (P.interrupt dest) [] := by
  obtain ⟨c, hc⟩ : ∃ c, c = { P.counters with interrupts := P.counters.interrupts + 1 } := ⟨_, rfl⟩
  have hcounted : Still P { P with counters := c } := .silent rfl rfl (fun _ => rfl) rfl
  unfold Plain.interrupt
  rw [← hc]
  exact (h.mails hcounted).bind fun _ hb => hb.alert (hrest.counted c) dest

/-! ### Calls -/

theorem create (h : P.Mail [] b) (hs : P.Sound hand) (name : String) (words : Nat) :
    (P.create name words).Mail [] b ∧ b (Pid.ofIndex P.size) = .keeping none := by
  obtain ⟨p, hp⟩ : ∃ p, p = Pid.ofIndex P.size := ⟨_, rfl⟩
  obtain ⟨-, hnew⟩ := hs.unused
  have hself := P.create_self name words
  rw [← hp] at hnew hself
  have hne : ∀ q, q ≠ p → (P.create name words).process q = P.process q := fun q hq => P.create_ne name words (hp ▸ hq)
  -- No process of that pid was there, so its box is empty.
  have hbox : b p = .keeping none := h.absent hnew List.not_mem_nil
  rw [← hp]
  refine ⟨⟨fun q => ?_, fun q hq => ?_, h.dest, h.asks⟩, hbox⟩
  · by_cases hqp : q = p
    · rw [hqp, slot_eq hself, hbox]
      rfl
    · rw [h.slot, Plain.slot, Plain.slot, hne q hqp]
  · by_cases hqp : q = p
    · rw [hqp, hbox, read, hself]
      refine ⟨?_, ?_, ?_⟩ <;> simp [Descriptor.fresh]
    · rw [read, hne q hqp]
      exact h.state q hq

theorem startWith (h : P.Mail [] b) (hs : P.Sound hand) (name : String) (words : Nat) (entry arg : Word) :
    Mails runs P b (P.startWith name words entry arg) [] := by
  obtain ⟨hcreate, hbox⟩ := h.create hs name words
  unfold Plain.startWith
  split
  · exact ⟨b, .refl rfl, hcreate⟩
  · rename_i offset content _
    have hinstall : ((P.create name words).install (Pid.ofIndex P.size) P.frontier offset content).Mail [] b :=
      hcreate.of_still (.update (f := fun d => { d with context := .arena (P.frontier + offset) }) rfl (fun _ => rfl)
        (fun _ => rfl) (fun _ => rfl) rfl)
    have hwake := (hinstall.take (Pid.ofIndex P.size)).wake_level (modify_self (P.create_self name words) _) (l := .low) rfl hbox
    refine .trans (.refl ?_) (hwake.emit_quiet trivial)
    exact wake_trace ..

theorem launch (h : P.Mail hand b) : Mails runs P b P.launch hand := by
  refine (h.emit_quiet (e := .launched P.size) trivial).bind fun b' hb => ?_
  have hstart : Still (P.emit (.launched P.size))
      { P.emit (.launched P.size) with running := true, current := .idle } := .silent rfl rfl (fun _ => rfl) rfl
  exact hb.mails (hstart.trans (.reschedule _))

theorem connect (h : P.Mail hand b) (irq : Int32) : Mails runs P b (P.connect irq) hand := by
  have hlines : Still P ({ P with lines := (P.lines.connect irq P.current).state }.setPriority .handler) :=
    .update (f := fun d => { d with priority := .handler }) rfl (fun _ => rfl) (fun _ => rfl) (fun _ => rfl) rfl
  exact (h.mails hlines).bind fun _ hb => hb.emit_quiet trivial

end Mail

end Plain

/-- What a request makes of the box of its process before the kernel goes on. -/
def Request.opens (r : Request) (own : Box) : Box :=
  match r with
  | .send dest msg => .offering (Plain.named dest) msg false
  | .sendRec dest msg => .offering (Plain.named dest) msg true
  | .receive .. => .keeping none
  | .yield | .exit | .dump | .tick _ => own

/-- What a call makes of the box of the current process before the kernel goes on. -/
def Call.opens (c : Call) (own : Box) : Box :=
  match c.request?, c with
  | some r, _ => r.opens own
  | none, .takeMessage _ => .keeping none
  | none, _ => own

theorem Call.opens_of_request {c : Call} {r : Request} (h : c.request? = some r) (own : Box) :
    c.opens own = r.opens own := by
  unfold opens
  rw [h]

theorem Call.opens_of_none {c : Call} (h : c.request? = none) (own : Box) :
    c.opens own = .keeping none ∨ c.opens own = own := by
  unfold opens
  rw [h]
  cases c with
  | takeMessage _ => exact Or.inl rfl
  | _ => exact Or.inr rfl

namespace Plain

variable {P : Plain} {b : Boxes}

namespace Mail

theorem perform (h : P.Mail [] b) (hrest : P.Rests) (lines : List String) (r : Request)
    (hidle : P.current = .idle → r.FitsIdle) (hreply : ∀ dest msg, r = .sendRec dest msg → msg.ty ≠ .reply) :
    Mails P.current P (Function.update b P.current (r.opens (b P.current))) (P.perform (lines.map .dumped) r) [] := by
  have hsame : Function.update b P.current (b P.current) = b := Function.update_eq_self ..
  cases r with
  | yield => exact hsame.symm ▸ h.yield hrest
  | send dest msg => exact h.send hrest hidle (Plain.named dest) msg
  | receive filter timeout => exact h.receive hrest hidle filter timeout
  | sendRec dest msg => exact h.sendRec hrest hidle (Plain.named dest) msg (hreply dest msg rfl)
  | exit => exact hsame.symm ▸ h.exit hrest
  | dump =>
    have hlines : Still P { P with trace := P.trace ++ lines.map .dumped } :=
      ⟨rfl, rfl, fun _ => rfl, _, rfl, fun e he => by
        obtain ⟨line, -, rfl⟩ := List.mem_map.mp he
        trivial⟩
    exact hsame.symm ▸ h.mails hlines
  | tick ms => exact hsame.symm ▸ h.tick hrest ms

theorem serve (h : P.Mail [] b) (hrest : P.Rests) (lines : List String) (r : Request)
    (hidle : P.current = .idle → r.FitsIdle) (hreply : ∀ dest msg, r = .sendRec dest msg → msg.ty ≠ .reply) :
    Mails P.current P (Function.update b P.current (r.opens (b P.current))) (P.serve (lines.map .dumped) r) [] := by
  have hasked := Still.asked P r
  obtain ⟨es, ht, hq⟩ := hasked.trace
  exact .trans (.quiet ht hq) ((h.of_still hasked).perform (hrest.asked r) lines r hidle hreply)

/-- What the events of a call do to the boxes, once the current process has opened its own. -/
theorem after (h : P.Mail [] b) (hrest : P.Rests) (lines : List String) {c : Call}
    (hidle : P.current = .idle → ∀ r ∈ c.request?, r.FitsIdle)
    (hreply : ∀ dest msg, c.request? = some (.sendRec dest msg) → msg.ty ≠ .reply)
    (hown : ∀ pid, c = .takeMessage pid → pid = P.current) :
    Mails P.current P (Function.update b P.current (c.opens (b P.current))) (P.after (lines.map .dumped) c) [] := by
  have hsame : Function.update b P.current (b P.current) = b := Function.update_eq_self ..
  cases c with
  | start name size entry arg => exact hsame.symm ▸ h.startWith hrest.sound name _ entry arg
  | launch => exact hsame.symm ▸ h.launch
  | connect irq => exact hsame.symm ▸ h.connect irq
  | setPriority level => exact hsame.symm ▸ h.mails (.modify P P.current (fun _ => rfl) fun _ => rfl)
  | serve r =>
    exact h.serve hrest lines r (fun hi => hidle hi r rfl) fun dest msg hr => hreply dest msg (congrArg some hr)
  | trap psp frame =>
    cases hd : frame.decode with
    | error f =>
      have hreq := Call.request?_of_undecoded hd psp
      have hopens : (Call.trap psp frame).opens (b P.current) = b P.current := by
        unfold Call.opens
        rw [hreq]
      rw [hopens, after_of_undecoded hd, hsame]
      exact ⟨b, .refl rfl, h⟩
    | ok r =>
      have hreq := Call.request?_of_decoded hd psp
      rw [Call.opens_of_request hreq, after_of_decoded hd]
      exact .trans (.refl rfl) ((h.of_still (.save P psp)).serve (hrest.save psp) lines r (fun hi => hidle hi r hreq)
        fun dest msg hr => hreply dest msg (hr ▸ hreq))
  | preempt psp =>
    exact hsame.symm ▸ Mails.trans (.refl rfl) ((h.of_still (.save P psp)).yield (hrest.save psp))
  | interrupt pid => exact hsame.symm ▸ h.interrupt hrest pid
  | interruptRequest irq =>
    refine hsame.symm ▸ ?_
    cases hl : P.lines.handler irq with
    | error f => exact (after_of_unhandled hl _).symm ▸ ⟨b, .refl rfl, h⟩
    | ok pid => exact (after_of_handler hl _).symm ▸ h.interrupt hrest pid
  | takeMessage pid =>
    rw [hown pid rfl]
    exact ⟨_, .refl rfl, h.own hrest none⟩
  | pokeStack p i value => exact hsame.symm ▸ h.mails (.silent rfl rfl (fun _ => rfl) rfl)

end Mail

end Plain

end Rendezvous
