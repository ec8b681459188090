import Rendezvous.Proofs.Hardware

/-! # Requests

Every request of the current process keeps the invariant, and the kernel carries it out as its plain
counterpart tells. -/

namespace Rendezvous

/-- The requests that the idle process may make: those that do not block it. -/
def Request.FitsIdle : Request → Prop
  | .yield | .dump | .tick _ | .exit => True
  | .send .. | .receive .. | .sendRec .. => False

theorem TrapFrame.decode_misuse (frame : TrapFrame) {f : Fault} (h : frame.decode = .error f) : f.Misuse := by
  unfold decode at h
  split at h <;> (try split at h) <;> cases h <;> trivial

namespace Kernel

/-- The lines of a dump as the journal has them. -/
def dumpedLines (k : Kernel) : List String := dumpHeading :: (k.table.processes.map k.dumpLine ++ [k.dumpFooting])

/-- A dump writes lines and nothing else. -/
theorem dumpToLog_eq (k : Kernel) : k.dumpToLog = ⟨k.dumpedLines.map .dumped, .ok ()⟩ := by
  have hall : ∀ l : List Descriptor, (l.forM fun p => Traced.emit (.dumped (k.dumpLine p))) =
      ⟨l.map fun p => .dumped (k.dumpLine p), .ok ()⟩ := by
    intro l
    induction l with
    | nil => rfl
    | cons p l ih =>
      show (Traced.emit _ >>= fun _ => List.forM l _) = _
      rw [ih]
      rfl
  unfold dumpToLog dumpedLines
  rw [hall]
  simp only [List.map_cons, List.map_append, List.map_map]
  rfl

end Kernel

namespace Plain

variable {P : Plain} {hand : List Pid} {p dest : Pid} {d : Descriptor}

namespace Rests

theorem asked (h : P.Rests) (request : Request) : (P.asked request).Rests := (h.counted _).emit _

end Rests

end Plain

namespace Kernel.Shows

open Traced Plain

variable {k : Kernel} {P : Plain} {hand : List Pid} {p dest : Pid} {d : Descriptor}

theorem dumpToLog (h : k.Shows P) : ∃ lines : List String,
    (k.dumpToLog >>= fun _ => (pure k : Traced Kernel)).Leads P (·) { P with trace := P.trace ++ lines.map .dumped } := by
  refine ⟨k.dumpedLines, k, ?_, ?_, by rw [h.1]; rfl, h.2⟩
  · rw [k.dumpToLog_eq]
    rfl
  · rw [k.dumpToLog_eq, events_bind_ok rfl]
    simp

theorem exit_ends (h : k.Shows P) (hrest : P.Rests) (hr : P.running = true) : k.exit.Ends P (·) P.exit := by
  by_cases hi : P.current = .idle
  · obtain ⟨d, hd, -⟩ := hrest.unlinked
    obtain ⟨e, he, -⟩ := h.get hd
    rw [h.current] at he hi
    unfold Kernel.exit
    show (if k.current = .idle then _ else _ : Traced Kernel).Ends P (·) _
    rw [if_pos hi, fetch_bind he]
    exact Ends.halt ⟨hi, rfl⟩
  · exact (h.exit hrest hi).ends (hrest.exit hi hr)

/-- A request is carried out unless its caller made a mistake. -/
theorem perform (h : k.Shows P) (hrest : P.Rests) (hr : P.running = true) (r : Request)
    (hidle : P.current = .idle → r.FitsIdle) :
    ∃ lines : List String, (k.perform r).Ends P (·) (P.perform (lines.map .dumped) r) := by
  cases r with
  | yield => exact ⟨[], (h.yield hrest).ends (hrest.yield hr)⟩
  | send dest msg => exact ⟨[], h.send hrest hidle hr dest msg⟩
  | receive filter timeout => exact ⟨[], (h.receive hrest hidle filter timeout).ends (hrest.receive hidle hr filter timeout)⟩
  | sendRec dest msg => exact ⟨[], h.sendRec hrest hidle hr dest msg⟩
  | exit => exact ⟨[], h.exit_ends hrest hr⟩
  | dump =>
    obtain ⟨lines, hlead⟩ := h.dumpToLog
    exact ⟨lines, hlead.ends (hrest.of_read (hrest.sound.of_same rfl rfl rfl rfl hrest.sound.last hrest.sound.current)
      rfl rfl rfl)⟩
  | tick ms => exact ⟨[], (h.tick hrest ms).ends (hrest.tick ms)⟩

/-- A request is counted and noted before it is carried out. -/
theorem note (h : k.Shows P) (r : Request) : (k.note r).Leads P (·) (P.asked r) := by
  have hcounted := (h.counted { k.counters with syscalls := k.counters.syscalls + 1 }).emit (.requested P.current r)
  rw [Plain.asked, h.counters]
  refine ⟨_, rfl, ?_, hcounted⟩
  rw [h.current]
  rfl

theorem serve (h : k.Shows P) (hrest : P.Rests) (hr : P.running = true) (r : Request)
    (hidle : P.current = .idle → r.FitsIdle) : ∃ lines : List String,
    (k.serve r).Ends P ((P.serve (lines.map .dumped) r).resume, ·) (P.serve (lines.map .dumped) r) := by
  obtain ⟨k₁, hok, htrace, h₁⟩ := h.note r
  obtain ⟨lines, hperform⟩ := h₁.perform (hrest.asked r) hr r hidle
  refine ⟨lines, Ends.after hok htrace ?_⟩
  exact hperform.bind fun k₂ h₂ hrest₂ => (h₂.resume hrest₂.sound.current).ends hrest₂

/-- A request that is carried out returns to the process that runs then. -/
theorem serve_of_leads (h : k.Shows P) {r : Request} {Q : Plain}
    (hperform : ∀ k : Kernel, k.Shows (P.asked r) → (k.perform r).Leads (P.asked r) (·) Q)
    (hruns : (Q.process Q.current).isSome) : ∃ addr k',
      (k.call (.serve r)).outcome = .ok (.address addr, k') ∧ k'.Shows Q := by
  have hserve : (k.serve r).Leads P (Q.resume, ·) Q :=
    (h.note r).bind fun k₁ h₁ => (hperform k₁ h₁).bind fun k₂ h₂ => h₂.resume hruns
  obtain ⟨k', hok, -, hk'⟩ := hserve
  exact ⟨Q.resume, k', Traced.bind_eq_ok.mpr ⟨_, hok, rfl⟩, hk'⟩

/-- A trap is checked, and then served as the request that it carries. -/
theorem trap (h : k.Shows P) (hrest : P.Rests) (hr : P.running = true) (psp : Word) (frame : TrapFrame)
    (hidle : P.current = .idle → ∀ r, frame.decode = .ok r → r.FitsIdle) :
    ∃ (lines : List String) (addr : Word),
      (k.trap psp frame).Ends P (addr, ·) (P.after (lines.map .dumped) (.trap psp frame)) := by
  have hsave := hrest.save psp
  obtain ⟨k₁, hok, htrace, h₁⟩ := h.saveContext hrest.sound.current psp
  obtain ⟨b, hb⟩ : ∃ b, k₁.table.stackIntact k₁.current = .ok b := by
    obtain ⟨e, he⟩ := Option.isSome_iff_exists.mp (h₁.get_isSome.trans hsave.sound.current)
    rw [h₁.current] at he
    unfold Table.stackIntact Table.stack
    rw [Table.fetch_eq_ok.mpr he]
    exact ⟨_, rfl⟩
  unfold Kernel.trap openTrap
  rw [bind_assoc]
  cases b with
  | false =>
    refine ⟨[], 0, Ends.after hok htrace ?_⟩
    rw [hb]
    exact Ends.halt trivial
  | true =>
    cases hd : frame.decode with
    | error f =>
      refine ⟨[], 0, Ends.after hok htrace ?_⟩
      rw [hb]
      exact Or.inr ⟨f, frame.decode_misuse hd, rfl⟩
    | ok r =>
      obtain ⟨lines, hserve⟩ := h₁.serve hsave hr r fun hi => hidle hi r hd
      refine ⟨lines, ((P.save psp).serve (lines.map .dumped) r).resume, Ends.after hok htrace ?_⟩
      rw [hb, Plain.after, hd]
      exact hserve

end Kernel.Shows

end Rendezvous
