import Rendezvous.Proofs.Ends

/-! # The exchange of messages

Sending and receiving keep the invariant, and the kernel carries them out as their plain counterparts tell. -/

namespace Rendezvous

namespace Plain

variable {P : Plain} {hand : List Pid} {p dest src : Pid} {d : Descriptor}

theorem deliver_eq {msg : Message} (hm : P.slot src = some msg) :
    P.deliver dest src = ((((P.modify src fun d => { d with slot := none }).cancel dest).modify dest fun d =>
      { d with slot := some { msg with sender := src } }).emit
        (.delivered src dest { msg with sender := src })).wake dest := by
  unfold deliver
  simp only [hm]

theorem sender?_some {filter : MessageType} (h : P.sender? dest filter = some src) :
    src ∈ P.queue (.waiting dest) ∧ ∃ msg, P.slot src = some msg ∧ filter.accepts msg.ty := by
  have hoffers := List.find?_some h
  refine ⟨List.mem_of_find?_eq_some h, ?_⟩
  unfold offers at hoffers
  cases hs : P.slot src with
  | none => simp [hs] at hoffers
  | some msg => exact ⟨msg, rfl, by simpa [hs] using hoffers⟩

theorem nextSender?_some {filter : MessageType} (h : P.nextSender? filter = some src) :
    P.sender? P.current filter = some src := by
  unfold nextSender? at h
  split at h
  · cases h
  · exact h

theorem slot_eq (hp : P.process p = some d) : P.slot p = d.slot := by
  rw [slot, hp, Option.bind_some]

theorem slot_modify {f : Descriptor → Descriptor} (hf : ∀ d, (f d).slot = d.slot) (p : Pid) :
    (P.modify p f).slot = P.slot := by
  funext q
  rw [slot, bind_read, modify_read (g := (·.slot)) hf, ← bind_read, slot]

theorem hold_slot (hc : (P.process P.current).isSome) (msg : Message) : (P.hold msg).slot P.current = some msg := by
  obtain ⟨d, hd⟩ := Option.isSome_iff_exists.mp hc
  exact slot_eq (modify_self hd _)

theorem deliver_src {msg : Message} (hm : P.slot src = some msg) (hne : src ≠ dest) :
    (P.deliver dest src).process src = (P.process src).map fun d => { d with slot := none } := by
  rw [deliver_eq hm, wake_ne hne]
  show (((P.modify src fun d => { d with slot := none }).cancel dest).modify dest _).process src = _
  rw [modify_ne hne, cancel_ne hne]
  exact Function.update_self ..

theorem accept_of_sent {msg : Message} (hm : P.slot src = some msg) (hne : src ≠ P.current) (hp : P.process src = some d)
    (hstate : d.state = .sending) : P.accept src = (P.deliver P.current src).wake src := by
  unfold accept
  simp [deliver_src hm hne, hp, hstate]

theorem accept_of_asked {msg : Message} (hm : P.slot src = some msg) (hne : src ≠ P.current) (hp : P.process src = some d)
    (hstate : d.state = .sendRec) : P.accept src = (P.deliver P.current src).awaitReply src := by
  unfold accept
  simp [deliver_src hm hne, hp, hstate]

namespace Sound

/-- Two processes in hand are different ones. -/
theorem apart {q : Pid} (h : P.Sound (p :: q :: hand)) : p ≠ q := by
  rintro rfl
  exact (List.nodup_cons.mp h.distinct).1 List.mem_cons_self

theorem slot (h : P.Sound hand) (p : Pid) (msg : Option Message) :
    (P.modify p fun d => { d with slot := msg }).Sound hand :=
  h.modify_same p fun _ => ⟨rfl, rfl, rfl, rfl, rfl, rfl⟩

theorem notify (h : P.Sound hand) (p : Pid) (ty : MessageType) : (P.notify p ty).Sound hand :=
  have hslot := h.slot p (some (.new ty))
  hslot.of_same rfl rfl rfl rfl hslot.last hslot.current

/-- The slot of a sender is emptied before its message goes into that of a process in hand. -/
theorem open_held (h : P.Sound (dest :: hand)) (src : Pid) :
    ((P.modify src fun d => { d with slot := none }).cancel dest).Sound (dest :: hand) := by
  rw [(h.slot src none).cancel_held List.mem_cons_self]
  exact h.slot src none

/-- The slot of a sender is emptied before its message goes into that of a receiver. -/
theorem open_receiving (h : P.Sound hand) (hp : P.process dest = some d) (hs : d.state = .receiving)
    (hout : dest ∉ hand) (src : Pid) :
    ((P.modify src fun d => { d with slot := none }).cancel dest).Sound (dest :: hand) := by
  by_cases hd : dest = src
  · subst hd
    exact (h.slot dest none).cancel (modify_self hp _) hs hout
  · exact (h.slot src none).cancel ((modify_ne hd _).trans hp) hs hout

theorem deliver (h : ((P.modify src fun d => { d with slot := none }).cancel dest).Sound (dest :: hand)) {msg : Message}
    (hm : P.slot src = some msg) : (P.deliver dest src).Sound hand := by
  rw [deliver_eq hm]
  exact ((h.slot dest _).emit _).wake

/-- A process in a waiting list is blocked in a send or a request. -/
theorem waiter (h : P.Sound hand) (hmem : p ∈ P.queue (.waiting dest)) :
    ∃ d, P.process p = some d ∧ d.link = some (.waiting dest) ∧ (d.state = .sending ∨ d.state = .sendRec) ∧ p ∉ hand := by
  obtain ⟨d, hp, hl⟩ := (h.member _ p).mp hmem
  have hfree := h.free hp hl
  have hout := (List.nodup_cons.mp hfree.distinct).1
  refine ⟨d, hp, hl, ?_, hout⟩
  -- Of the settled states, only senders are linked to a waiting list.
  cases (h.fits p d hp).settled (hfree.ne_idle List.mem_cons_self) hout with
  | ready l state level link => simp [hl] at link
  | waiting dest' state => exact state
  | receiving state link => simp [hl] at link
  | dead state link => simp [hl] at link

theorem sender (h : P.Sound hand) {filter : MessageType} (hf : P.sender? dest filter = some src) :
    ∃ d, P.process src = some d ∧ d.link = some (.waiting dest) ∧ (d.state = .sending ∨ d.state = .sendRec) := by
  obtain ⟨d, hp, hl, hstate, -⟩ := h.waiter (sender?_some hf).1
  exact ⟨d, hp, hl, hstate⟩

/-- The next sender of a waiting list is taken into hand, with its message. -/
theorem free_sender (h : P.Sound hand) {filter : MessageType} (hf : P.sender? dest filter = some src) :
    (P.free src (.waiting dest)).Sound (src :: hand) ∧ ∃ msg, (P.free src (.waiting dest)).slot src = some msg := by
  obtain ⟨hmem, msg, hm, -⟩ := sender?_some hf
  obtain ⟨d, hp, hl⟩ := (h.member _ src).mp hmem
  refine ⟨h.free hp hl, msg, ?_⟩
  rw [← hm]
  exact congrFun (slot_modify (f := fun d => { d with link := none }) (fun _ => rfl) src) src

theorem awaitReply (h : P.Sound (p :: hand)) : (P.awaitReply p).Sound hand := by
  unfold Plain.awaitReply
  cases hf : P.sender? p .reply with
  | some src =>
    obtain ⟨hfree, msg, hm⟩ := h.free_sender hf
    exact ((hfree.swap.open_held src).deliver hm).wake
  | none =>
    obtain ⟨hmod, d, hp, hs, hl⟩ := h.receiving .reply
    exact hmod.settle hp (.receiving hs hl)

theorem accept (h : P.Sound (src :: P.current :: hand)) {msg : Message} (hm : P.slot src = some msg) :
    (P.accept src).Sound hand := by
  have hgot := (h.swap.open_held src).deliver hm
  unfold Plain.accept
  simp only
  split
  · exact hgot.awaitReply
  · exact hgot.wake

theorem take (h : P.Sound (P.current :: hand)) {filter : MessageType}
    (hf : P.sender? P.current filter = some src) : (P.take src).Sound hand := by
  obtain ⟨hfree, msg, hm⟩ := h.free_sender hf
  exact hfree.accept hm

end Sound

namespace Rests

/-- A process that runs is in hand. -/
theorem held (h : P.Rests) (hne : P.current ≠ .idle) : P.Sound [P.current] := by
  have hs := h.sound
  rw [inHand, if_neg hne] at hs
  exact hs

theorem of_read (h : P.Rests) {Q : Plain} (hs : Q.Sound (inHand Q.current)) (hcurrent : Q.current = P.current)
    (hrunning : Q.running = P.running) (hstate : Q.read (·.state) P.current = P.read (·.state) P.current) : Q.Rests := by
  refine ⟨hs, fun d hd hne => ?_, fun hf => ?_⟩
  · obtain ⟨e, he⟩ := Option.isSome_iff_exists.mp h.sound.current
    rw [hcurrent] at hd hne
    rw [read, read, hd, he, Option.map_some, Option.map_some] at hstate
    exact (Option.some_inj.mp hstate).trans (h.active e he hne)
  · rw [hcurrent]
    exact h.asleep (hrunning ▸ hf)

theorem modify_same (h : P.Rests) (p : Pid) {f : Descriptor → Descriptor} (hf : ∀ d, SameRole d (f d)) :
    (P.modify p f).Rests :=
  h.of_read (h.sound.modify_same p hf) rfl rfl (congrFun (modify_read (fun d => (hf d).state) p) _)

theorem slot (h : P.Rests) (p : Pid) (msg : Option Message) : (P.modify p fun d => { d with slot := msg }).Rests :=
  h.modify_same p fun _ => ⟨rfl, rfl, rfl, rfl, rfl, rfl⟩

theorem emit (h : P.Rests) (e : Event) : (P.emit e).Rests :=
  h.of_read (h.sound.emit e) rfl rfl rfl

/-- A process that accepts a message waits for one, and so does not run. -/
theorem accepts (h : P.Rests) {ty : MessageType} (ha : P.accepts dest ty = true) :
    dest ≠ P.current ∧ ∃ d, P.process dest = some d ∧ d.state = .receiving := by
  obtain ⟨d, hd, hacc⟩ : ∃ d, P.process dest = some d ∧ d.accepts ty = true := (Option.any_eq_true ..).mp ha
  have hs : d.state = .receiving := by
    unfold Descriptor.accepts at hacc
    simp at hacc
    exact hacc.1
  refine ⟨?_, d, hd, hs⟩
  rintro rfl
  by_cases hi : P.current = .idle
  · simp [((h.sound.fits _ d hd).idle hi).state] at hs
  · simp [h.active d hd hi] at hs

/-- A message goes from the current process, which is in hand then, to a process that accepts it. -/
theorem open_accepting (h : P.Rests) (hne : P.current ≠ .idle) {ty : MessageType} (ha : P.accepts dest ty = true) :
    ((P.modify P.current fun d => { d with slot := none }).cancel dest).Sound [dest, P.current] := by
  obtain ⟨hout, d, hd, hs⟩ := h.accepts ha
  exact (h.held hne).open_receiving hd hs (by simpa using hout) P.current

theorem delivered (h : P.Rests) (hne : P.current ≠ .idle) {msg : Message} (hm : P.slot P.current = some msg)
    (ha : P.accepts dest msg.ty = true) : (P.deliver dest P.current).Sound [P.current] :=
  (h.open_accepting hne ha).deliver hm

theorem send (h : P.Rests) (hne : P.current ≠ .idle) (hr : P.running = true) (hdest : (P.process dest).isSome)
    (msg : Message) : (P.send dest msg).Rests := by
  have hhold : (P.hold msg).Rests := h.slot _ _
  have hm := hold_slot h.sound.current msg
  by_cases ha : (P.hold msg).accepts dest msg.ty
  · have hnear := ((Near.refl (P.hold msg)).deliver dest P.current).wake P.current
    rw [send_of_accepts ha]
    exact (hhold.delivered hne hm ha).wake.reschedule (hnear.running.trans hr)
  · rw [send_of_waits ha]
    exact ((hhold.held hne).wait (Or.inl rfl) ((modify_isSome _ _ dest).trans hdest)).reschedule hr

theorem sendRec (h : P.Rests) (hne : P.current ≠ .idle) (hr : P.running = true) (hdest : (P.process dest).isSome)
    (msg : Message) : (P.sendRec dest msg).Rests := by
  have hhold : (P.hold msg).Rests := h.slot _ _
  have hm := hold_slot h.sound.current msg
  by_cases ha : (P.hold msg).accepts dest msg.ty
  · have hnear := ((Near.refl (P.hold msg)).deliver dest P.current).awaitReply P.current
    rw [sendRec_of_accepts ha]
    exact (hhold.delivered hne hm ha).awaitReply.reschedule (hnear.running.trans hr)
  · rw [sendRec_of_waits ha]
    exact ((hhold.held hne).wait (Or.inr rfl) ((modify_isSome _ _ dest).trans hdest)).reschedule hr

theorem notify (h : P.Rests) (p : Pid) (ty : MessageType) : (P.notify p ty).Rests :=
  (h.slot p (some (.new ty))).of_read (h.sound.notify p ty) rfl rfl rfl

theorem receive (h : P.Rests) (hne : P.current ≠ .idle) (hr : P.running = true) (filter : MessageType)
    (timeout : Option UInt32) : (P.receive filter timeout).Rests := by
  have hempty : P.emptied.Rests := h.slot P.current none
  by_cases hi : P.takesInterrupt filter
  · rw [receive_of_interrupt hi]
    exact (hempty.modify_same _ (f := fun d => { d with pending := false })
      fun _ => ⟨rfl, rfl, rfl, rfl, rfl, rfl⟩).notify _ _
  · cases hf : P.emptied.nextSender? filter with
    | some src =>
      rw [receive_of_sender hi hf]
      exact ((hempty.held hne).take (nextSender?_some hf)).reschedule (((Near.refl _).take src).running.trans hr)
    | none =>
      rw [receive_of_none hi hf]
      by_cases ht : timeout = some 0
      · rw [if_pos ht]
        exact hempty.notify _ _
      · rw [if_neg ht]
        exact ((hempty.held hne).block filter timeout).reschedule
          (((Near.refl _).block filter timeout).running.trans hr)

end Rests

end Plain

namespace Kernel

namespace Shows

open Traced

variable {k : Kernel} {P : Plain} {hand hand' : List Pid} {p dest src : Pid} {d : Descriptor}

theorem slot (h : k.Shows P) (hp : (P.process p).isSome) (msg : Option Message) :
    (k.amend p fun d => { d with slot := msg }).Leads P (·) (P.modify p fun d => { d with slot := msg }) :=
  h.amend hp ⟨fun _ => rfl, fun _ => rfl, fun _ => rfl, fun _ => rfl⟩

theorem cancel_of_sound (h : k.Shows P) (hs : P.Sound hand) (hp : (P.process p).isSome) :
    (k.cancelTimeout p).Leads P (·) (P.cancel p) := by
  obtain ⟨d, hd⟩ := Option.isSome_iff_exists.mp hp
  exact h.cancelTimeout hd fun hdead => (hs.entry p).mpr ⟨d, hd, hdead⟩

theorem wake_of_sound (h : k.Shows P) (hs : P.Sound (p :: hand)) : (k.makeReady p).Leads P (·) (P.wake p) := by
  obtain ⟨d, hd, hh⟩ := hs.found List.mem_cons_self
  exact h.makeReady hd hh.alive hh.link

theorem handOver (h : k.Shows P) (hs : P.Sound hand') (hdest : (P.process dest).isSome)
    (hc : ((P.modify src fun d => { d with slot := none }).cancel dest).Sound (dest :: hand)) {msg : Message}
    (hm : P.slot src = some msg) : (k.handOver dest src).Leads P (·)
      ((((P.modify src fun d => { d with slot := none }).cancel dest).modify dest fun d =>
        { d with slot := some { msg with sender := src } }).emit (.delivered src dest { msg with sender := src })) := by
  obtain ⟨d, hp, hslot⟩ := Option.bind_eq_some_iff.mp hm
  obtain ⟨e, he, rfl⟩ := h.get hp
  unfold Kernel.handOver
  rw [fetch_bind he]
  simp only [show e.slot = some msg from hslot]
  refine (h.slot (by rw [hp]; rfl) none).bind fun k₁ h₁ => ?_
  obtain ⟨e, he, -⟩ := hc.found List.mem_cons_self
  refine (h₁.cancel_of_sound (hs.slot src none) ((Plain.modify_isSome src _ dest).trans hdest)).bind fun k₂ h₂ => ?_
  refine (h₂.slot (by rw [he]; rfl) _).bind fun k₃ h₃ => ?_
  exact emit_leads (Leads.silent rfl rfl (h₃.emit _))

theorem deliver (h : k.Shows P) (hs : P.Sound hand') (hdest : (P.process dest).isSome)
    (hc : ((P.modify src fun d => { d with slot := none }).cancel dest).Sound (dest :: hand)) {msg : Message}
    (hm : P.slot src = some msg) : (k.deliver dest src).Leads P (·) (P.deliver dest src) := by
  rw [Plain.deliver_eq hm]
  exact (h.handOver hs hdest hc hm).bind fun k₁ h₁ => h₁.wake_of_sound ((hc.slot dest _).emit _)

theorem awaitReply (h : k.Shows P) (hs : P.Sound (p :: hand)) : (k.awaitReply p).Leads P (·) (P.awaitReply p) := by
  obtain ⟨d, hp, hh⟩ := hs.found List.mem_cons_self
  unfold Kernel.awaitReply Plain.awaitReply
  cases hf : P.sender? p .reply with
  | some src =>
    obtain ⟨hfree, msg, hm⟩ := hs.free_sender hf
    have hopen := hfree.swap.open_held src
    refine (h.findSender_some (by rw [hp]; rfl) hf).bind fun k₁ h₁ => ?_
    refine (h₁.deliver hfree (hfree.hand p (by simp)) hopen hm).bind fun k₂ h₂ => ?_
    exact h₂.wake_of_sound (hopen.deliver hm)
  | none =>
    refine (h.findSender_none (by rw [hp]; rfl) hf).bind fun k₁ h₁ => ?_
    exact h₁.amend (by rw [hp]; rfl) ⟨fun _ => rfl, fun _ => rfl, fun _ => rfl, fun _ => rfl⟩

theorem reschedule_of_sound (h : k.Shows P) (hs : P.Sound []) : k.reschedule.Leads P (·) P.reschedule :=
  h.reschedule hs.last ((hs.known .idle).mpr hs.inhabited)

theorem notify (h : k.Shows P) (hp : (P.process p).isSome) (ty : MessageType) :
    (k.notify p ty).Leads P (·) (P.notify p ty) := by
  unfold Kernel.notify
  refine (h.slot hp _).bind fun k₁ h₁ => ?_
  refine emit_leads (Leads.silent rfl rfl ⟨?_, h₁.2⟩)
  have hc : P.counters = k₁.counters := h₁.counters
  rw [Plain.notify, hc, h₁.1]
  simp [Kernel.seen, Plain.emit]

/-- What is done is all there is. -/
theorem finish_done {x : Traced (Stage Kernel)} (h : x.Leads P .done Q) : (x >>= Stage.finish pure).Leads P (·) Q :=
  h.bind fun _ h₁ => Leads.silent rfl rfl h₁

/-- Once a request was taken, the asker waits for the reply, and another process is chosen. -/
theorem finish_taken {x : Traced (Stage Kernel)} {asker taker : Pid} (h : x.Leads P (.taken · asker taker) Q)
    (hs : Q.Sound [asker]) : (x >>= Stage.finish pure).Leads P (·) (Q.awaitReply asker).reschedule := by
  refine h.bind fun k₁ h₁ => ?_
  refine (h₁.awaitReply hs).bind fun k₂ h₂ => ?_
  refine (h₂.reschedule_of_sound hs.awaitReply).bind fun k₃ h₃ => ?_
  exact Leads.silent rfl rfl h₃

/-- The current process has the message of `src`, and `src` is in the state that it was in. -/
theorem accepting (h : k.Shows P) (hs : P.Sound (src :: P.current :: hand)) (hp : P.process src = some d)
    {msg : Message} (hm : P.slot src = some msg) : ∃ k₁ e, (k.deliver P.current src).outcome = .ok k₁ ∧
      (P.deliver P.current src).trace = P.trace ++ (k.deliver P.current src).events ∧
      k₁.Shows (P.deliver P.current src) ∧ k₁.table.get? src = some e ∧ e.state = d.state := by
  have hopen := hs.swap.open_held src
  obtain ⟨k₁, hok, htrace, h₁⟩ := h.deliver hs hs.current hopen hm
  have hsrc := Plain.deliver_src hm hs.apart
  rw [hp, Option.map_some] at hsrc
  obtain ⟨e, he, hplain⟩ := h₁.get hsrc
  exact ⟨k₁, e, hok, htrace, h₁, he, by rw [← Descriptor.plain_state, hplain]⟩

/-- Who has sent a message that is taken goes on. -/
theorem beginAccept_sent (h : k.Shows P) (hs : P.Sound [src, P.current]) (hp : P.process src = some d)
    (hstate : d.state = .sending) {msg : Message} (hm : P.slot src = some msg) :
    (k.beginAccept src).Leads P .done ((P.deliver P.current src).wake src).reschedule := by
  have hgot := (hs.swap.open_held src).deliver hm
  obtain ⟨k₁, e, hok, htrace, h₁, he, hsame⟩ := h.accepting hs hp hm
  unfold Kernel.beginAccept
  rw [← h.current]
  refine Leads.after hok htrace ?_
  rw [fetch_bind he]
  simp only [hsame, hstate]
  refine (h₁.wake_of_sound hgot).bind fun k₂ h₂ => ?_
  refine (h₂.reschedule_of_sound hgot.wake).bind fun k₃ h₃ => ?_
  exact Leads.silent rfl rfl h₃

/-- Who has sent a request that is taken is about to wait for the reply. -/
theorem beginAccept_asked (h : k.Shows P) (hs : P.Sound [src, P.current]) (hp : P.process src = some d)
    (hstate : d.state = .sendRec) {msg : Message} (hm : P.slot src = some msg) :
    (k.beginAccept src).Leads P (.taken · src P.current) (P.deliver P.current src) := by
  obtain ⟨k₁, e, hok, htrace, h₁, he, hsame⟩ := h.accepting hs hp hm
  unfold Kernel.beginAccept
  rw [← h.current]
  refine Leads.after hok htrace ?_
  rw [fetch_bind he]
  simp only [hsame, hstate]
  exact Leads.silent rfl rfl h₁

/-- A destination is the process of that number, or a mistake. -/
theorem lookup (h : k.Shows P) (hs : P.Sound hand) (r : Int32) :
    (∃ f, f.Misuse ∧ k.table.lookup r = .error f) ∨
      k.table.lookup r = .ok (Plain.named r) ∧ ∃ d, P.process (Plain.named r) = some d ∧ d.state ≠ .dead := by
  unfold Table.lookup
  cases hi : r.toInt.toNat?.bind (k.table.processes[·]?) with
  | none => exact Or.inl ⟨.noSuchProcess r, trivial, rfl⟩
  | some e =>
    obtain ⟨i, hnat, hget⟩ := Option.bind_eq_some_iff.mp hi
    have hr : r.toInt.toNat = i := by
      rw [Int.mem_toNat?.mp hnat, Int.toNat_natCast]
    have hsize : i < k.table.size := (List.getElem?_eq_some_iff.mp hget).1
    have hbound : k.table.size ≤ 32 := by
      have hb := hs.size
      rw [h.1] at hb
      exact hb
    have hindex : (Plain.named r).index = i := by
      rw [Plain.named, hr, Pid.index_ofIndex (by omega)]
    have hp : P.process (Plain.named r) = some e.plain := by
      rw [h.process, Table.plain_eq_some (d := e)]
      rw [Table.get?, hindex, hget]
    have hpid : e.pid = Plain.named r := (hs.fits _ _ hp).pid
    by_cases hdead : e.isDead
    · exact Or.inl ⟨.deadProcess e.pid, trivial, by simp [hdead]⟩
    · refine Or.inr ⟨by simp [hdead, hpid], e.plain, hp, ?_⟩
      simpa [Descriptor.isDead] using hdead

/-- A register that is looked up names a process that is alive. -/
theorem alive_of_lookup (h : k.Shows P) (hs : P.Sound hand) {r : Int32} (hl : k.table.lookup r = .ok p) :
    p = Plain.named r ∧ ∃ d, P.process p = some d ∧ d.state ≠ .dead := by
  rcases h.lookup hs r with ⟨f, -, hf⟩ | ⟨hok, halive⟩
  · cases hf.symm.trans hl
  · obtain rfl := Except.ok.inj (hok.symm.trans hl)
    exact ⟨rfl, halive⟩

/-- The destination of a process that is alive names it. -/
theorem lookup_destination (h : k.Shows P) (hs : P.Sound hand) {d : Descriptor} (hp : P.process p = some d)
    (alive : d.state ≠ .dead) : k.table.lookup p.destination = .ok p := by
  obtain ⟨e, he, rfl⟩ := h.get hp
  have hlt : p.index < 2 ^ 31 := Nat.lt_trans p.val.toNat_lt (by decide)
  have hnat : (p.index : Int).toNat? = some p.index := rfl
  have hget : k.table.processes[p.index]? = some e := he
  have hpid : e.pid = p := (hs.fits p _ hp).pid
  have hdead : e.isDead = false := by simpa [Descriptor.isDead] using alive
  unfold Table.lookup
  simp [Pid.destination, Int32.toInt_ofNat_of_lt hlt, hnat, hget, hdead, hpid]

theorem accepts (h : k.Shows P) {e : Descriptor} (he : k.table.get? p = some e) (ty : MessageType) :
    P.accepts p ty = e.accepts ty := by
  rw [Plain.accepts, h.process, Table.plain_eq_some he]
  rfl

/-- The current process waits in the list of `dest`, and then the rest. -/
theorem wait {α : Type} {out : Kernel → α} (h : k.Shows P) (hs : P.Sound (P.current :: hand)) {state : State}
    (hdest : (P.process dest).isSome) {f : Kernel → Traced α} {Q : Plain}
    (hf : ∀ k, k.Shows (P.wait state dest) → (f k).Leads (P.wait state dest) out Q) :
    (k.amend P.current (fun d => { d with state := state }) >>= fun k => k.queueSender dest >>= f).Leads P out Q := by
  obtain ⟨d, hp, hh⟩ := hs.found List.mem_cons_self
  refine (h.amend (f := fun d => { d with state := state }) hs.current
    ⟨fun _ => rfl, fun _ => rfl, fun _ => rfl, fun _ => rfl⟩).bind fun k₁ h₁ => ?_
  exact (h₁.queueSender (Plain.modify_self hp _) hh.link ((Plain.modify_isSome _ _ dest).trans hdest)).bind hf

/-- The current process holds its message out, and goes on by whether `dest` accepts it. -/
theorem hold {α : Type} {out : Kernel → α} (h : k.Shows P) (hc : (P.process P.current).isSome)
    (hdest : (P.process dest).isSome) (msg : Message) {f g : Kernel → Traced α} {Q : Plain}
    (hf : (P.hold msg).accepts dest msg.ty = true → ∀ k, k.Shows (P.hold msg) → (f k).Leads (P.hold msg) out Q)
    (hg : ¬(P.hold msg).accepts dest msg.ty = true → ∀ k, k.Shows (P.hold msg) → (g k).Leads (P.hold msg) out Q) :
    (k.amend P.current (fun d => { d with slot := some msg }) >>= fun k => k.fetch dest >>= fun d =>
      if d.accepts msg.ty = true then f k else g k).Leads P out Q := by
  refine (h.slot hc (some msg)).bind fun k₁ (h₁ : k₁.Shows (P.hold msg)) => ?_
  obtain ⟨e, he⟩ := Option.isSome_iff_exists.mp (h₁.get_isSome.trans ((Plain.modify_isSome _ _ dest).trans hdest))
  rw [fetch_bind he, ← h₁.accepts he msg.ty]
  by_cases ha : (P.hold msg).accepts dest msg.ty
  · rw [if_pos ha]
    exact hf ha k₁ h₁
  · rw [if_neg ha]
    exact hg ha k₁ h₁

/-- The current process delivers its message to a process that accepts it. -/
theorem deliver_accepting (h : k.Shows P) (hrest : P.Rests) (hne : P.current ≠ .idle) {msg : Message}
    (hm : P.slot P.current = some msg) (ha : P.accepts dest msg.ty = true) :
    (k.deliver dest P.current).Leads P (·) (P.deliver dest P.current) := by
  obtain ⟨-, d, hd, -⟩ := hrest.accepts ha
  exact h.deliver hrest.sound (by rw [hd, Option.isSome_some]) (hrest.open_accepting hne ha) hm

/-- A message for a process that is alive is delivered or waits. -/
theorem send_of_lookup (h : k.Shows P) (hrest : P.Rests) (hne : P.current ≠ .idle) {r : Int32}
    (hl : k.table.lookup r = .ok dest) (msg : Message) : (k.send r msg).Leads P (·) (P.send dest msg) := by
  obtain ⟨-, d, hd, -⟩ := h.alive_of_lookup hrest.sound hl
  unfold Kernel.send Kernel.findDest
  rw [hl, ← h.current]
  have hhold : (P.hold msg).Rests := hrest.slot _ _
  have hm := Plain.hold_slot hrest.sound.current msg
  have hdest : (P.process dest).isSome := by rw [hd, Option.isSome_some]
  refine h.hold hrest.sound.current hdest msg (fun ha k₁ h₁ => ?_) fun ha k₁ h₁ => ?_
  · have hgot := hhold.delivered hne hm ha
    rw [Plain.send_of_accepts ha]
    refine (h₁.deliver_accepting hhold hne hm ha).bind fun k₂ h₂ => ?_
    refine (h₂.wake_of_sound hgot).bind fun k₃ h₃ => ?_
    exact h₃.reschedule_of_sound hgot.wake
  · have hsome : ((P.hold msg).process dest).isSome := (Plain.modify_isSome ..).trans hdest
    rw [Plain.send_of_waits ha]
    refine wait h₁ (hhold.held hne) hsome fun k₂ h₂ => ?_
    exact h₂.reschedule_of_sound ((hhold.held hne).wait (Or.inl rfl) hsome)

theorem send (h : k.Shows P) (hrest : P.Rests) (hne : P.current ≠ .idle) (hr : P.running = true) (r : Int32)
    (msg : Message) : (k.send r msg).Ends P (·) (P.send (Plain.named r) msg) := by
  rcases h.lookup hrest.sound r with ⟨f, hf, hl⟩ | ⟨hl, d, hd, -⟩
  · unfold Kernel.send Kernel.findDest
    rw [hl]
    exact halt_ends hf _
  · exact (h.send_of_lookup hrest hne hl msg).ends (hrest.send hne hr (by rw [hd, Option.isSome_some]) msg)

/-- A request that its receiver accepts is taken at once. -/
theorem beginSendRec_taken (h : k.Shows P) (hrest : P.Rests) (hne : P.current ≠ .idle) {r : Int32}
    (hl : k.table.lookup r = .ok dest) {msg : Message} (hty : msg.ty ≠ .reply)
    (ha : (P.hold msg).accepts dest msg.ty = true) :
    (k.beginSendRec r msg).Leads P (.taken · P.current dest) ((P.hold msg).deliver dest P.current) := by
  have hhold : (P.hold msg).Rests := hrest.slot _ _
  have hm := Plain.hold_slot hrest.sound.current msg
  obtain ⟨-, d, hd, -⟩ := h.alive_of_lookup hrest.sound hl
  unfold Kernel.beginSendRec Kernel.findDest
  rw [hl, ← h.current]
  refine Leads.after (a := dest) rfl (List.append_nil _).symm ?_
  rw [if_neg hty]
  refine h.hold hrest.sound.current (by rw [hd, Option.isSome_some]) msg (fun _ k₁ h₁ => ?_) fun hn => absurd ha hn
  refine (h₁.deliver_accepting hhold hne hm ha).bind fun k₂ h₂ => ?_
  exact Leads.silent rfl rfl h₂

/-- A request that its receiver does not accept waits with its sender. -/
theorem beginSendRec_done (h : k.Shows P) (hrest : P.Rests) (hne : P.current ≠ .idle) {r : Int32}
    (hl : k.table.lookup r = .ok dest) {msg : Message} (hty : msg.ty ≠ .reply)
    (ha : ¬(P.hold msg).accepts dest msg.ty = true) :
    (k.beginSendRec r msg).Leads P .done ((P.hold msg).wait .sendRec dest).reschedule := by
  have hhold : (P.hold msg).Rests := hrest.slot _ _
  obtain ⟨-, d, hd, -⟩ := h.alive_of_lookup hrest.sound hl
  have hdest : (P.process dest).isSome := by rw [hd, Option.isSome_some]
  have hsome : ((P.hold msg).process dest).isSome := (Plain.modify_isSome ..).trans hdest
  unfold Kernel.beginSendRec Kernel.findDest
  rw [hl, ← h.current]
  refine Leads.after (a := dest) rfl (List.append_nil _).symm ?_
  rw [if_neg hty]
  refine h.hold hrest.sound.current hdest msg (fun hn => absurd hn ha) fun _ k₁ h₁ => ?_
  refine wait h₁ (hhold.held hne) hsome fun k₂ h₂ => ?_
  refine (h₂.reschedule_of_sound ((hhold.held hne).wait (Or.inr rfl) hsome)).bind fun k₃ h₃ => ?_
  exact Leads.silent rfl rfl h₃

theorem sendRec (h : k.Shows P) (hrest : P.Rests) (hne : P.current ≠ .idle) (hr : P.running = true) (r : Int32)
    (msg : Message) : (k.sendRec r msg).Ends P (·) (P.sendRec (Plain.named r) msg) := by
  have hm := Plain.hold_slot hrest.sound.current msg
  rcases h.lookup hrest.sound r with ⟨f, hf, hl⟩ | ⟨hl, d, hd, -⟩
  · refine Or.inr ⟨f, hf, ?_⟩
    rw [Kernel.sendRec, beginSendRec, Kernel.findDest, hl]
    rfl
  by_cases hreply : msg.ty = .reply
  · refine Or.inr ⟨.replyViaSendrec, trivial, ?_⟩
    rw [Kernel.sendRec, beginSendRec, Kernel.findDest, hl]
    simp only [if_pos hreply]
    rfl
  refine Leads.ends ?_ (hrest.sendRec hne hr (by rw [hd, Option.isSome_some]) msg)
  by_cases ha : (P.hold msg).accepts (Plain.named r) msg.ty = true
  · rw [Plain.sendRec_of_accepts ha]
    exact finish_taken (h.beginSendRec_taken hrest hne hl hreply ha) ((hrest.slot _ _).delivered hne hm ha)
  · rw [Plain.sendRec_of_waits ha]
    exact finish_done (h.beginSendRec_done hrest hne hl hreply ha)

theorem nextSender_some (h : k.Shows P) (hc : (P.process P.current).isSome) {filter : MessageType}
    (hf : P.nextSender? filter = some src) :
    (k.nextSender filter).Leads P (some src, ·) (P.free src (.waiting P.current)) := by
  have hne : filter ≠ .interrupt := fun he => by
    rw [Plain.nextSender?, if_pos he] at hf
    cases hf
  unfold Kernel.nextSender
  rw [if_neg hne, ← h.current]
  exact h.findSender_some hc (Plain.nextSender?_some hf)

theorem nextSender_none (h : k.Shows P) (hc : (P.process P.current).isSome) {filter : MessageType}
    (hf : P.nextSender? filter = none) : (k.nextSender filter).Leads P (none, ·) P := by
  unfold Kernel.nextSender
  by_cases hi : filter = .interrupt
  · rw [if_pos hi]
    exact Leads.silent rfl rfl h
  · rw [Plain.nextSender?, if_neg hi] at hf
    rw [if_neg hi, ← h.current]
    exact h.findSender_none hc hf

theorem block (h : k.Shows P) (hs : P.Sound (P.current :: hand)) (filter : MessageType) (timeout : Option UInt32) :
    (k.block filter timeout).Leads P (·) (P.block filter timeout) := by
  obtain ⟨hmod, d, hp, -, -⟩ := hs.receiving filter
  have hh := (hmod.fits _ _ hp).held List.mem_cons_self
  unfold Kernel.block
  rw [← h.current]
  show (k.amend P.current _ >>= _).Leads P (·) _
  refine (h.amend (f := fun d => { d with state := .receiving, filter := filter }) hs.current
    ⟨fun _ => rfl, fun _ => rfl, fun _ => rfl, fun _ => rfl⟩).bind fun k₁ h₁ => ?_
  refine (h₁.setTimeout hp hh.deadline (hmod.room List.mem_cons_self) timeout).bind fun k₂ h₂ => ?_
  exact emit_leads (Leads.silent rfl rfl (h₂.emit _))

/-- The current process gives up the message that it had, and goes on by whether it takes an interrupt. -/
theorem emptied {α : Type} {out : Kernel → α} (h : k.Shows P) (hc : (P.process P.current).isSome) (filter : MessageType)
    {f g : Kernel → Traced α} {Q : Plain}
    (hf : P.takesInterrupt filter = true → ∀ k, k.Shows P.emptied → (f k).Leads P.emptied out Q)
    (hg : ¬P.takesInterrupt filter = true → ∀ k, k.Shows P.emptied → (g k).Leads P.emptied out Q) :
    (k.amend P.current (fun d => { d with slot := none }) >>= fun k => k.fetch P.current >>= fun d =>
      if (d.pending && filter.accepts .interrupt) = true then f k else g k).Leads P out Q := by
  refine (h.slot hc none).bind fun k₁ (h₁ : k₁.Shows P.emptied) => ?_
  obtain ⟨e, he⟩ := Option.isSome_iff_exists.mp (h₁.get_isSome.trans ((Plain.modify_isSome ..).trans hc))
  have hcond : (e.pending && filter.accepts .interrupt) = P.takesInterrupt filter := by
    rw [Plain.takesInterrupt, h₁.process, Table.plain_eq_some he]
    rfl
  rw [fetch_bind he, hcond]
  by_cases hi : P.takesInterrupt filter
  · rw [if_pos hi]
    exact hf hi k₁ h₁
  · rw [if_neg hi]
    exact hg hi k₁ h₁

/-- A pending interrupt comes before all messages. -/
theorem beginReceive_interrupt (h : k.Shows P) (hrest : P.Rests) {filter : MessageType} {timeout : Option UInt32}
    (hi : P.takesInterrupt filter = true) : (k.beginReceive filter timeout).Leads P .done (P.receive filter timeout) := by
  have hc : (P.emptied.process P.current).isSome := (Plain.modify_isSome ..).trans hrest.sound.current
  rw [Plain.receive_of_interrupt hi]
  unfold Kernel.beginReceive
  rw [← h.current]
  refine h.emptied hrest.sound.current filter (fun _ k₁ h₁ => ?_) fun hn => absurd hi hn
  refine (h₁.amend (f := fun d => { d with pending := false }) hc
    ⟨fun _ => rfl, fun _ => rfl, fun _ => rfl, fun _ => rfl⟩).bind fun k₂ h₂ => ?_
  refine (h₂.notify ((Plain.modify_isSome ..).trans hc) .interrupt).bind fun k₃ h₃ => ?_
  exact Leads.silent rfl rfl h₃

/-- Without a sender whose message it wants, the current process waits or gives up. -/
theorem beginReceive_none (h : k.Shows P) (hrest : P.Rests) (hne : P.current ≠ .idle) {filter : MessageType}
    {timeout : Option UInt32} (hi : ¬P.takesInterrupt filter = true) (hf : P.emptied.nextSender? filter = none) :
    (k.beginReceive filter timeout).Leads P .done (P.receive filter timeout) := by
  have hempty : P.emptied.Rests := hrest.slot P.current none
  have hc : (P.emptied.process P.current).isSome := hempty.sound.current
  rw [Plain.receive_of_none hi hf]
  unfold Kernel.beginReceive
  rw [← h.current]
  refine h.emptied hrest.sound.current filter (fun hp => absurd hp hi) fun _ k₁ h₁ => ?_
  refine (h₁.nextSender_none hc hf).bind fun k₂ h₂ => ?_
  show (if timeout = some 0 then _ else _ : Traced (Stage Kernel)).Leads P.emptied .done _
  by_cases ht : timeout = some 0
  · rw [if_pos ht, if_pos ht]
    exact (h₂.notify hc .timeout).bind fun k₃ h₃ => Leads.silent rfl rfl h₃
  · rw [if_neg ht, if_neg ht]
    refine (h₂.block (hempty.held hne) filter timeout).bind fun k₃ h₃ => ?_
    refine (h₃.reschedule_of_sound ((hempty.held hne).block filter timeout)).bind fun k₄ h₄ => ?_
    exact Leads.silent rfl rfl h₄

/-- The first sender whose message the current process wants is taken out of the list, and then its message. -/
theorem beginReceive_some {out : Kernel → Stage Kernel} (h : k.Shows P) (hrest : P.Rests) {filter : MessageType}
    {timeout : Option UInt32} {Q : Plain} (hi : ¬P.takesInterrupt filter = true)
    (hf : P.emptied.nextSender? filter = some src)
    (accept : ∀ k : Kernel, k.Shows (P.emptied.free src (.waiting P.current)) →
      (k.beginAccept src).Leads (P.emptied.free src (.waiting P.current)) out Q) :
    (k.beginReceive filter timeout).Leads P out Q := by
  have hc : (P.emptied.process P.current).isSome := (Plain.modify_isSome ..).trans hrest.sound.current
  unfold Kernel.beginReceive
  rw [← h.current]
  refine h.emptied hrest.sound.current filter (fun hp => absurd hp hi) fun _ k₁ h₁ => ?_
  exact (h₁.nextSender_some hc hf).bind accept

theorem receive (h : k.Shows P) (hrest : P.Rests) (hne : P.current ≠ .idle) (filter : MessageType)
    (timeout : Option UInt32) : (k.receive filter timeout).Leads P (·) (P.receive filter timeout) := by
  have hempty : P.emptied.Rests := hrest.slot P.current none
  by_cases hi : P.takesInterrupt filter
  · exact finish_done (h.beginReceive_interrupt hrest hi)
  cases hf : P.emptied.nextSender? filter with
  | none => exact finish_done (h.beginReceive_none hrest hne hi hf)
  | some src =>
    have hf' := Plain.nextSender?_some hf
    obtain ⟨d, hp, -, hstate⟩ := hempty.sound.sender hf'
    obtain ⟨hfree, msg, hm⟩ := (hempty.held hne).free_sender hf'
    have hp' := Plain.modify_self (P := P.emptied) hp fun d => { d with link := none }
    rw [Plain.receive_of_sender hi hf, Plain.take]
    -- What comes of it depends on whether the sender wants a reply.
    rcases hstate with hsent | hasked
    · rw [Plain.accept_of_sent hm hfree.apart hp' hsent]
      exact finish_done (h.beginReceive_some hrest hi hf fun k₁ h₁ => h₁.beginAccept_sent hfree hp' hsent hm)
    · rw [Plain.accept_of_asked hm hfree.apart hp' hasked]
      exact finish_taken (h.beginReceive_some hrest hi hf fun k₁ h₁ => h₁.beginAccept_asked hfree hp' hasked hm)
        ((hfree.swap.open_held src).deliver hm)

end Shows

end Kernel

end Rendezvous
