import Rendezvous.Proofs.Exchange

/-! # Time and interrupts

Ticks, interrupts and switches of context keep the invariant, and the kernel carries them out as their
plain counterparts tell. -/

namespace Rendezvous

namespace Plain

variable {P : Plain} {hand : List Pid} {p dest : Pid} {d : Descriptor}

theorem mem_overdue {later : Int} : p ∈ P.overdue later ↔ p ∈ P.timeouts.entries ∧ P.left later p = none := by
  simp [overdue]

/-! ### Scans -/

theorem scan_entry {later : Int} (hp : p ∈ P.timeouts.entries) :
    (P.scan later).process p = (P.process p).map fun d => { d with deadline := P.left later p } := if_pos hp

theorem scan_ne {later : Int} (hp : p ∉ P.timeouts.entries) : (P.scan later).process p = P.process p := if_neg hp

theorem scan_read {α : Type} {g : Descriptor → α} (hg : ∀ d deadline, g { d with deadline := deadline } = g d)
    (later : Int) : (P.scan later).read g = P.read g := by
  funext q
  show Option.map g (if q ∈ P.timeouts.entries then _ else _) = _
  split
  · rw [Option.map_map]
    exact Option.map_congr fun d _ => hg d _
  · rfl

theorem scan_isSome (P : Plain) (later : Int) (p : Pid) : ((P.scan later).process p).isSome = (P.process p).isSome := by
  rw [← isSome_read (g := fun _ => ()), scan_read fun _ _ => rfl, isSome_read]

/-- What a process is after a scan tells what it was: deadlines alone have changed. -/
theorem of_scan {later : Int} {e : Descriptor} (he : (P.scan later).process p = some e) :
    ∃ d, P.process p = some d ∧ e.link = d.link ∧ (p ∈ P.timeouts.entries → e = { d with deadline := P.left later p }) ∧
      (p ∉ P.timeouts.entries → e = d) := by
  by_cases hp : p ∈ P.timeouts.entries
  · rw [scan_entry hp] at he
    obtain ⟨d, hd, rfl⟩ := Option.map_eq_some_iff.mp he
    exact ⟨d, hd, rfl, fun _ => rfl, fun hn => absurd hp hn⟩
  · rw [scan_ne hp] at he
    exact ⟨e, he, rfl, fun hm => absurd hm hp, fun _ => rfl⟩

namespace Sound

/-- A process with a deadline is a receiver. -/
theorem receiver (h : P.Sound hand) (hmem : p ∈ P.timeouts.entries) :
    ∃ d, P.process p = some d ∧ d.state = .receiving ∧ d.link = none ∧ p ≠ .idle ∧ p ∉ hand := by
  obtain ⟨d, hp, hd⟩ := (h.entry p).mp hmem
  have hne : p ≠ .idle := fun hi => by
    simp [((h.fits p d hp).idle hi).deadline] at hd
  have hout : p ∉ hand := fun hin => by
    simp [((h.fits p d hp).held hin).deadline] at hd
  refine ⟨d, hp, ?_, ?_, hne, hout⟩ <;> cases (h.fits p d hp).settled hne hout with
  | ready l state level link deadline => simp [deadline] at hd
  | waiting dest state link deadline => simp [deadline] at hd
  | receiving state link => assumption
  | dead state link deadline => simp [deadline] at hd

theorem not_overdue (h : P.Sound hand) {later : Int} (hp : p ∈ P.overdue later) : p ∉ hand := by
  obtain ⟨d, -, -, -, -, hout⟩ := h.receiver (mem_overdue.mp hp).1
  exact hout

/-- A receiver whose deadline has passed is in hand after a scan, and all others are as before. -/
theorem scan_fits (h : P.Sound hand) {later : Int} {e : Descriptor} (he : (P.scan later).process p = some e) :
    Fits (P.overdue later ++ hand) p e := by
  obtain ⟨d, hd, -, htimed, hsame⟩ := of_scan he
  by_cases hp : p ∈ P.timeouts.entries
  · obtain ⟨d', hd', hs, hl, hne, hout⟩ := h.receiver hp
    obtain rfl : d = d' := Option.some_inj.mp (hd.symm.trans hd')
    rw [htimed hp]
    cases hleft : P.left later p with
    | none =>
      refine (h.fits p d hd).take hne ⟨rfl, rfl, rfl⟩ ⟨by simp [hs], by simp [hs], hl, rfl⟩ ?_
      exact List.mem_append_left _ (mem_overdue.mpr ⟨hp, hleft⟩)
    | some left =>
      refine (h.fits p d hd).put hne ⟨rfl, rfl, rfl⟩ (.receiving hs hl) fun hmem => ?_
      rcases List.mem_append.mp hmem with hmem | hmem
      · simp [mem_overdue, hleft] at hmem
      · exact hout hmem
  · rw [hsame hp]
    exact (h.fits p d hd).of_hand (by simp [mem_overdue, hp])

theorem scan_member (h : P.Sound hand) (later : Int) (link : Link) (p : Pid) :
    p ∈ P.queue link ↔ ∃ e, (P.scan later).process p = some e ∧ e.link = some link := by
  rw [h.member]
  constructor
  · rintro ⟨d, hd, hl⟩
    by_cases hp : p ∈ P.timeouts.entries
    · exact ⟨{ d with deadline := P.left later p }, by rw [scan_entry hp, hd, Option.map_some], hl⟩
    · exact ⟨d, (scan_ne hp).trans hd, hl⟩
  · rintro ⟨e, he, hl⟩
    obtain ⟨d, hd, hlink, -⟩ := of_scan he
    exact ⟨d, hd, hlink ▸ hl⟩

theorem scan_entries (h : P.Sound hand) (later : Int) (p : Pid) :
    p ∈ (P.scan later).timeouts.entries ↔ ∃ e, (P.scan later).process p = some e ∧ e.deadline.isSome := by
  refine List.mem_filter.trans ⟨?_, ?_⟩
  · rintro ⟨hp, hleft⟩
    obtain ⟨d, hd, -⟩ := h.receiver hp
    exact ⟨_, (scan_entry hp).trans (by rw [hd, Option.map_some]), hleft⟩
  · rintro ⟨e, he, hdead⟩
    obtain ⟨d, hd, -, htimed, hsame⟩ := of_scan he
    by_cases hp : p ∈ P.timeouts.entries
    · rw [htimed hp] at hdead
      exact ⟨hp, hdead⟩
    · exact absurd ((h.entry p).mpr ⟨d, hd, hsame hp ▸ hdead⟩) hp

/-- A scan takes the processes whose deadline has passed into hand. -/
theorem scan (h : P.Sound hand) (later : Int) : (P.scan later).Sound (P.overdue later ++ hand) := by
  have hsome := P.scan_isSome later
  refine ⟨fun q e he => h.scan_fits he, fun q => ?_, h.inhabited, h.size, ?_, fun q hq => ?_, fun q e dest he hl => ?_,
    h.scan_member later, h.queue, h.scan_entries later, h.entries.filter _, fun q hq => ?_, ?_⟩
  · rw [hsome]
    exact h.known q
  · exact List.Nodup.append (h.entries.filter _) h.distinct fun q hq => h.not_overdue hq
  · rw [hsome]
    rcases List.mem_append.mp hq with hq | hq
    · obtain ⟨d, hd, -⟩ := h.receiver (mem_overdue.mp hq).1
      rw [hd, Option.isSome_some]
    · exact h.hand q hq
  · obtain ⟨d, hd, hlink, -⟩ := of_scan he
    rw [hsome]
    exact h.dest q d dest hd (hlink ▸ hl)
  · rw [hsome]
    exact h.last q hq
  · rw [hsome]
    exact h.current

theorem expire (h : P.Sound (p :: hand)) : (P.expire p).Sound hand := ((h.emit _).notify p .timeout).wake

theorem expireAll {l : List Pid} (h : P.Sound (l ++ hand)) : (l.foldl Plain.expire P).Sound hand := by
  induction l generalizing P with
  | nil => exact h
  | cons p l ih => exact ih h.expire

theorem elapse (h : P.Sound hand) (ms : UInt32) : (P.elapse ms).Sound hand := by
  unfold Plain.elapse
  split
  · exact h
  · split
    · exact h.of_same rfl rfl rfl rfl h.last h.current
    · exact (h.scan _).expireAll

end Sound

theorem expire_ne {q : Pid} (hq : q ≠ p) : (P.expire p).process q = P.process q :=
  (wake_ne hq).trans (modify_ne hq _)

theorem expireAll_ne {l : List Pid} {q : Pid} (hq : q ∉ l) : (l.foldl expire P).process q = P.process q := by
  induction l generalizing P with
  | nil => rfl
  | cons p l ih =>
    rw [List.mem_cons, not_or] at hq
    exact (ih hq.2).trans (expire_ne hq.1)

/-- The passing of time does not touch the process that runs. -/
theorem elapse_read {α : Type} {g : Descriptor → α} (hg : ∀ d deadline, g { d with deadline := deadline } = g d)
    (ms : UInt32) {q : Pid} (hq : q ∉ P.timeouts.entries) : (P.elapse ms).read g q = P.read g q := by
  unfold elapse
  split
  · rfl
  · split
    · rfl
    · rw [read, expireAll_ne fun hmem => hq (mem_overdue.mp hmem).1]
      exact congrFun (scan_read hg _) q

theorem alarm_ne (P : Plain) (ty : MessageType) {q : Pid} (hq : q ≠ dest) :
    (((P.cancel dest).notify dest ty).wake dest).process q = P.process q :=
  (wake_ne hq).trans ((modify_ne hq _).trans (cancel_ne hq))

namespace Rests

theorem not_entry (h : P.Rests) : P.current ∉ P.timeouts.entries := by
  intro hmem
  obtain ⟨d, -, -, -, hne, hout⟩ := h.sound.receiver hmem
  rw [inHand, if_neg hne] at hout
  exact hout (List.mem_singleton_self _)

theorem tick (h : P.Rests) (ms : UInt32) : (P.tick ms).Rests := by
  obtain ⟨Q, hQ⟩ : ∃ Q, Q = ({ P with uptime := P.uptime + ms.toNat } : Plain).charge := ⟨_, rfl⟩
  have hfields : Q.current = P.current ∧ Q.running = P.running ∧ Q.timeouts = P.timeouts := by
    rw [hQ, charge_eq]
    exact ⟨rfl, rfl, rfl⟩
  obtain ⟨hcurrent, hrunning, htimeouts⟩ := hfields
  have hs : Q.Sound (inHand P.current) := by
    rw [hQ]
    exact Sound.charge (h.sound.of_same rfl rfl rfl rfl h.sound.last h.sound.current)
  have hnear := (Near.refl Q).elapse ms
  have hread : (Q.elapse ms).read (·.state) P.current = P.read (·.state) P.current := by
    rw [elapse_read (g := (·.state)) (fun _ _ => rfl) ms (htimeouts ▸ h.not_entry), hQ,
      charge_read (g := (·.state)) fun _ _ => rfl]
    rfl
  have htick : P.tick ms = Q.elapse ms := by
    rw [hQ]
    rfl
  rw [htick]
  refine h.of_read ?_ (hnear.current.trans hcurrent) (hnear.running.trans hrunning) hread
  rw [hnear.current, hcurrent]
  exact hs.elapse ms

theorem counted (h : P.Rests) (c : Counters) : ({ P with counters := c } : Plain).Rests :=
  h.of_read (h.sound.of_same rfl rfl rfl rfl h.sound.last h.sound.current) rfl rfl rfl

/-- A process that waits for a message is taken into hand beside the one that runs. -/
theorem cancel (h : P.Rests) {ty : MessageType} (ha : P.accepts dest ty = true) :
    (P.cancel dest).Sound (dest :: inHand P.current) := by
  obtain ⟨hne, d, hd, hs⟩ := h.accepts ha
  refine h.sound.cancel hd hs ?_
  unfold inHand
  split <;> simp [hne]

theorem alert (h : P.Rests) (dest : Pid) : (P.alert dest).Rests := by
  unfold Plain.alert
  split
  · rename_i ha
    have hne := (h.accepts ha).1.symm
    have hnear := (((Near.refl P).cancel dest).notify dest .interrupt).wake dest
    refine h.of_read ?_ hnear.current hnear.running ?_
    · rw [hnear.current]
      exact ((h.cancel ha).notify dest .interrupt).wake
    · rw [read, alarm_ne P .interrupt hne]
      rfl
  · split
    · exact (h.emit _).counted _
    · exact h.modify_same dest fun _ => ⟨rfl, rfl, rfl, rfl, rfl, rfl⟩

theorem unlinked (h : P.Rests) : ∃ d, P.process P.current = some d ∧ d.state ≠ .dead ∧ d.link = none := by
  by_cases hi : P.current = .idle
  · obtain ⟨d, hd, hidle⟩ := h.sound.idle
    exact ⟨d, hi ▸ hd, by simp [hidle.state], hidle.link⟩
  · obtain ⟨d, hd, hh⟩ := (h.held hi).found List.mem_cons_self
    exact ⟨d, hd, hh.alive, hh.link⟩

/-- The process that runs gives way and remains ready. -/
theorem wake_current (h : P.Rests) : (P.wake P.current).Sound [] := by
  by_cases hi : P.current = .idle
  · have hs := h.sound
    rw [inHand, if_pos hi] at hs
    rw [hi, hs.wake_idle]
    exact hs
  · exact (h.held hi).wake

theorem yield (h : P.Rests) (hr : P.running = true) : P.yield.Rests :=
  h.wake_current.reschedule (((Near.refl P).wake P.current).running.trans hr)

theorem save (h : P.Rests) (psp : Word) : (P.save psp).Rests :=
  h.modify_same _ fun _ => ⟨rfl, rfl, rfl, rfl, rfl, rfl⟩

theorem preempt (h : P.Rests) (hr : P.running = true) (psp : Word) : (P.preempt psp).Rests := (h.save psp).yield hr

theorem exit (h : P.Rests) (hne : P.current ≠ .idle) (hr : P.running = true) : P.exit.Rests :=
  ((h.held hne).die.emit _).reschedule hr

end Rests

end Plain

namespace Kernel.Shows

open Traced Plain

variable {k : Kernel} {P : Plain} {hand : List Pid} {p dest : Pid} {d : Descriptor}

theorem expire (h : k.Shows P) (hs : P.Sound (p :: hand)) : (k.expire p).Leads P (·) (P.expire p) := by
  unfold Kernel.expire
  refine emit_leads (((h.emit _).notify (hs.hand p List.mem_cons_self) .timeout).bind fun k₁ h₁ => ?_)
  exact h₁.wake_of_sound ((hs.emit _).notify p .timeout)

theorem expireAll {l : List Pid} (h : k.Shows P) (hs : P.Sound (l ++ hand)) :
    (l.foldlM Kernel.expire k).Leads P (·) (l.foldl Plain.expire P) := by
  induction l generalizing k P with
  | nil => exact Leads.silent rfl rfl h
  | cons p l ih =>
    rw [List.foldlM_cons]
    exact (h.expire hs).bind fun k₁ h₁ => ih h₁ hs.expire

theorem scan (h : k.Shows P) (hs : P.Sound hand) (later : Int) :
    ∃ t', k.timeouts.entries.foldlM (Timeouts.Scan.visit k.timeouts.ticks later) ⟨[], [], none, k.table⟩ =
        .ok ⟨P.timeouts.entries.filter (fun p => (P.left later p).isSome), P.overdue later,
          soonest (P.timeouts.entries.filterMap (P.left later)) none, t'⟩ ∧
      ({ k with timeouts := (P.scan later).timeouts, table := t' } : Kernel).Shows (P.scan later) := by
  have hleft : Timeouts.leftAt k.table k.timeouts.ticks later = P.left later := by
    funext p
    rw [Timeouts.leftAt, Plain.left, h.timeouts, h.process]
  have hfound : ∀ p ∈ k.timeouts.entries, (k.table.get? p).isSome := fun p hp => by
    rw [← h.timeouts] at hp
    obtain ⟨d, hd, -⟩ := (hs.entry p).mp hp
    rw [h.get_isSome, hd, Option.isSome_some]
  obtain ⟨t', hfold, hplain, hnext, hwait, hst⟩ :=
    Timeouts.scan_ok k.timeouts.ticks later (h.timeouts ▸ hs.entries)
      (s := ⟨[], [], none, k.table⟩) hfound
  refine ⟨t', ?_, ?_⟩
  · rw [hfold]
    simp only [hleft]
    rw [← h.timeouts]
    rfl
  · have hprocess : t'.plain = (P.scan later).process := by
      rw [hplain, ← h.timeouts]
      funext p
      show (if _ then _ else _) = if _ then _ else _
      rw [← h.process]
      split
      · cases hp : P.process p with
        | none => rfl
        | some d => simp [Timeouts.scanned, Plain.left, hp, h.timeouts]
      · rfl
    -- A scan touches deadlines only, so every list stays as it is.
    have hlink : t'.linkOf = k.table.linkOf := by
      funext p
      rw [Table.linkOf_eq, Table.linkOf_eq, hprocess, ← h.process, Plain.bind_read, Plain.bind_read,
        Plain.scan_read (g := (·.link)) fun _ _ => rfl]
    have hk := (h.of_table hlink hnext hwait hst).of_timeouts (P.scan later).timeouts
    rw [hprocess] at hk
    exact hk

theorem elapse (h : k.Shows P) (hs : P.Sound hand) (ms : UInt32) :
    ∃ expired r t, k.timeouts.tick k.table ms = .ok (expired, r, t) ∧
      (expired.foldlM Kernel.expire { k with timeouts := r, table := t }).Leads P (·) (P.elapse ms) := by
  have hlater : P.later ms = saturate (k.timeouts.ticks + saturate ms.toNat) := by rw [Plain.later, h.timeouts]
  rcases Option.eq_none_or_eq_some k.timeouts.nextDue with hdue | ⟨due, hdue⟩
  · rw [Plain.elapse_of_none (h.timeouts ▸ hdue)]
    exact ⟨[], k.timeouts, k.table, Timeouts.tick_of_none hdue ms, Leads.silent rfl rfl h⟩
  · rw [Plain.elapse_of_some (h.timeouts ▸ hdue), h.timeouts]
    by_cases hearly : k.timeouts.ticks ≤ due
    · rw [if_pos hearly, hlater]
      exact ⟨[], _, k.table, Timeouts.tick_of_early hdue hearly ms, Leads.silent rfl rfl (h.of_timeouts _)⟩
    · rw [if_neg hearly]
      obtain ⟨t', hfold, hk⟩ := h.scan hs (P.later ms)
      rw [hlater] at hfold
      exact ⟨_, _, t', Timeouts.tick_of_due hdue hearly ms hfold, hlater ▸ hk.expireAll (hs.scan _)⟩

theorem tick (h : k.Shows P) (hrest : P.Rests) (ms : UInt32) : (k.tick ms).Leads P (·) (P.tick ms) := by
  have h₀ : ({ k with uptime := k.uptime + ms.toNat } : Kernel).Shows { P with uptime := P.uptime + ms.toNat } := by
    refine ⟨?_, h.2⟩
    rw [h.uptime, h.1]
    rfl
  have hs₀ : ({ P with uptime := P.uptime + ms.toNat } : Plain).Sound (Rendezvous.inHand P.current) :=
    hrest.sound.of_same rfl rfl rfl rfl hrest.sound.last hrest.sound.current
  obtain ⟨s, t, hcharge, h₁⟩ := charge (k := { k with uptime := k.uptime + ms.toNat }) h₀ hs₀.last
  obtain ⟨expired, r, t', htick, hk⟩ := h₁.elapse hs₀.charge ms
  have hcharge' : k.scheduler.charge k.table (k.uptime + ms.toNat) = .ok (s, t) := hcharge
  have htick' : k.timeouts.tick t ms = .ok (expired, r, t') := htick
  unfold Kernel.tick
  simp only [hcharge']
  show (Traced.lift (k.timeouts.tick t ms) >>= _).Leads P (·) _
  rw [htick']
  obtain ⟨k', hok, htrace, hk'⟩ := hk
  have hstart : ({ P with uptime := P.uptime + ms.toNat } : Plain).charge.trace = P.trace := by rw [Plain.charge_eq]
  rw [hstart] at htrace
  exact ⟨k', hok, htrace, hk'⟩

theorem resume (h : k.Shows P) (hc : (P.process P.current).isSome) :
    (k.resume >>= fun addr => pure (addr, k)).Leads P (P.resume, ·) P := by
  obtain ⟨d, hd⟩ := Option.isSome_iff_exists.mp hc
  obtain ⟨e, he, rfl⟩ := h.get hd
  rw [h.current] at he
  unfold Kernel.resume
  rw [fetch_bind he]
  refine Leads.silent ?_ rfl h
  rw [Plain.resume, hd]
  rfl

theorem wake_current (h : k.Shows P) (hrest : P.Rests) :
    (k.makeReady P.current).Leads P (·) (P.wake P.current) := by
  obtain ⟨d, hd, hs, hl⟩ := hrest.unlinked
  exact h.makeReady hd hs hl

theorem counted (h : k.Shows P) (c : Counters) :
    ({ k with counters := c } : Kernel).Shows { P with counters := c } :=
  ⟨by rw [h.1]; rfl, h.2⟩

theorem alert (h : k.Shows P) (hrest : P.Rests) (hd : P.process dest = some d) :
    (k.alert dest).Leads P (P.accepts dest .interrupt && P.lessUrgent, ·) (P.alert dest) := by
  obtain ⟨e, he, rfl⟩ := h.get hd
  have hacc : e.accepts .interrupt = P.accepts dest .interrupt := (h.accepts he _).symm
  have hsome : (P.process dest).isSome := by rw [hd, Option.isSome_some]
  unfold Kernel.alert Plain.alert
  rw [fetch_bind he, hacc]
  by_cases ha : P.accepts dest .interrupt = true
  · have hcancel := hrest.cancel ha
    rw [if_pos ha, if_pos ha, ha, Bool.true_and]
    refine (h.cancel_of_sound hrest.sound hsome).bind fun k₁ h₁ => ?_
    refine (h₁.notify (hcancel.hand dest List.mem_cons_self) .interrupt).bind fun k₂ h₂ => ?_
    refine (h₂.wake_of_sound (hcancel.notify dest .interrupt)).bind fun k₃ h₃ => ?_
    obtain ⟨c, hc, -⟩ := hrest.unlinked
    -- The handler does not run, so the priority that it is compared with is the one from before.
    have hsame := Plain.alarm_ne P .interrupt (hrest.accepts ha).1.symm
    have hcurrent := ((((Near.refl P).cancel dest).notify dest .interrupt).wake dest).current
    obtain ⟨e', he', hplain⟩ := h₃.get (hsame.trans hc)
    rw [← h₃.current, hcurrent, fetch_bind he']
    refine Leads.silent ?_ rfl h₃
    rw [Plain.lessUrgent, hc, ← hplain]
    rfl
  · have ha' : P.accepts dest .interrupt = false := by simpa using ha
    rw [if_neg ha, if_neg ha, ha', Bool.false_and]
    by_cases hp : e.pending
    · have hk := (h.emit (.coalesced dest)).counted { k.counters with coalesced := k.counters.coalesced + 1 }
      rw [if_pos hp, if_pos (by simpa [hd] using hp), h.counters]
      exact emit_leads (Leads.silent rfl rfl hk)
    · rw [if_neg hp, if_neg (by simpa [hd] using hp)]
      refine (h.amend (f := fun d => { d with pending := true }) hsome
        ⟨fun _ => rfl, fun _ => rfl, fun _ => rfl, fun _ => rfl⟩).bind fun k₁ h₁ => Leads.silent rfl rfl h₁

/-- An interrupt for a process that is alive. -/
theorem interrupt_of_lookup (h : k.Shows P) (hrest : P.Rests) (hl : k.table.lookup dest.destination = .ok dest) :
    (k.interrupt dest).Leads P (P.accepts dest .interrupt && P.lessUrgent, ·) (P.interrupt dest) := by
  obtain ⟨hname, d, hd, -⟩ := h.alive_of_lookup hrest.sound hl
  have h₀ := h.counted { k.counters with interrupts := k.counters.interrupts + 1 }
  have hrest₀ := hrest.counted { k.counters with interrupts := k.counters.interrupts + 1 }
  rw [Kernel.interrupt, Kernel.findDest, hl, Plain.interrupt, h.counters]
  exact (h₀.alert hrest₀ hd).of_trace rfl

theorem interrupt (h : k.Shows P) (hrest : P.Rests) (dest : Pid) :
    (k.interrupt dest).Ends P (P.accepts dest .interrupt && P.lessUrgent, ·) (P.interrupt dest) := by
  rcases h.lookup hrest.sound dest.destination with ⟨f, hf, hl⟩ | ⟨hl, -⟩
  · rw [Kernel.interrupt, Kernel.findDest, hl]
    exact halt_ends hf _
  · rw [Plain.named_destination] at hl
    exact (h.interrupt_of_lookup hrest hl).ends ((hrest.counted _).alert dest)

theorem yield (h : k.Shows P) (hrest : P.Rests) : k.yield.Leads P (·) P.yield := by
  unfold Kernel.yield
  rw [← h.current]
  exact (h.wake_current hrest).bind fun k₁ h₁ => h₁.reschedule_of_sound hrest.wake_current

theorem saveContext (h : k.Shows P) (hc : (P.process P.current).isSome) (psp : Word) :
    (k.saveContext psp).Leads P (·) (P.save psp) := by
  unfold Kernel.saveContext
  rw [← h.current]
  exact h.amend hc ⟨fun _ => rfl, fun _ => rfl, fun _ => rfl, fun _ => rfl⟩

theorem preempt (h : k.Shows P) (hrest : P.Rests) (hr : P.running = true) (psp : Word) :
    (k.preempt psp).Leads P ((P.preempt psp).resume, ·) (P.preempt psp) := by
  have hsave := hrest.save psp
  unfold Kernel.preempt
  refine (h.saveContext hrest.sound.current psp).bind fun k₁ h₁ => ?_
  rw [← h₁.current]
  refine (wake_current h₁ hsave).bind fun k₂ h₂ => ?_
  refine (h₂.reschedule_of_sound hsave.wake_current).bind fun k₃ h₃ => ?_
  exact h₃.resume (hrest.preempt hr psp).sound.current

theorem exit (h : k.Shows P) (hrest : P.Rests) (hne : P.current ≠ .idle) : k.exit.Leads P (·) P.exit := by
  have hs := hrest.held hne
  unfold Kernel.exit
  rw [← h.current]
  show (if P.current = .idle then _ else _ : Traced Kernel).Leads P (·) _
  rw [if_neg hne]
  refine (h.amend (f := fun d => { d with state := .dead }) hs.current
    ⟨fun _ => rfl, fun _ => rfl, fun _ => rfl, fun _ => rfl⟩).bind fun k₁ h₁ => ?_
  exact emit_leads ((h₁.emit _).reschedule_of_sound (hs.die.emit _))

end Kernel.Shows

end Rendezvous
