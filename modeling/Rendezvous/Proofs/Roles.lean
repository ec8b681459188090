import Rendezvous.Proofs.Boxes

/-! # Roles

In every kernel that a run reaches, each process is in one role: it runs, is ready, waits to send, waits to
receive, is dead or is the idle process, and its link, slot and deadline are those of that role. -/

namespace Rendezvous

/-- Each process is in the role that its state names, and in no other. -/
structure Kernel.InRoles (k : Kernel) : Prop where
  current : ∃ d, k.process? k.current = some d ∧ d.link = none ∧
    (d.state = .active ∨ k.current = .idle ∧ d.state = .idling)
  ready : ∀ p d, k.process? p = some d → p ≠ k.current → d.state = .active →
    ∃ l, d.priority.level? = some l ∧ d.link = some (.ready l)
  sending : ∀ p d, k.process? p = some d → ((d.state = .sending ∨ d.state = .sendRec) ↔
    ∃ dest, d.link = some (.waiting dest) ∧ (k.process? dest).isSome)
  outgoing : ∀ p d, k.process? p = some d → d.state = .sending ∨ d.state = .sendRec → d.slot.isSome
  receiving : ∀ p d, k.process? p = some d → d.state = .receiving → d.link = none ∧ d.slot = none
  deadline : ∀ p d, k.process? p = some d → d.deadline.isSome → d.state = .receiving
  dead : ∀ p d, k.process? p = some d → d.state = .dead → d.link = none ∧ d.deadline = none ∧ p ≠ k.current
  idling : ∀ p d, k.process? p = some d → (d.state = .idling ↔ p = .idle)

namespace Plain

/-- What a process of a kernel at rest does. -/
inductive Role (P : Plain) (p : Pid) (d : Descriptor) : Prop
  | runs (current : p = P.current) (state : d.state = .active) (link : d.link = none) (deadline : d.deadline = none)
  | idles (idle : p = .idle) (state : d.state = .idling) (link : d.link = none) (deadline : d.deadline = none)
  | settled (other : p ≠ P.current) (settled : Settled d)

variable {P : Plain} {b : Boxes} {p : Pid} {d : Descriptor}

theorem Rests.role (h : P.Rests) (hp : P.process p = some d) : P.Role p d := by
  have hfits := h.sound.fits p d hp
  by_cases hi : p = .idle
  · have hidle := hfits.idle hi
    exact .idles hi hidle.state hidle.link hidle.deadline
  · by_cases hc : p = P.current
    · subst hc
      have hh := hfits.held (by rw [inHand, if_neg hi]; exact List.mem_singleton_self _)
      exact .runs rfl (h.active d hp hi) hh.link hh.deadline
    · refine .settled hc (hfits.settled hi fun hin => ?_)
      unfold inHand at hin
      split at hin
      · cases hin
      · exact hc (List.mem_singleton.mp hin)

namespace Role

variable (role : P.Role p d)

include role

theorem ready (other : p ≠ P.current) (hs : d.state = .active) :
    ∃ l, d.priority.level? = some l ∧ d.link = some (.ready l) := by
  cases role with
  | runs current => exact absurd current other
  | idles _ state => simp [hs] at state
  | settled _ settled => exact settled.of_active hs

theorem sending : (d.state = .sending ∨ d.state = .sendRec) ↔ ∃ dest, d.link = some (.waiting dest) := by
  cases role with
  | runs _ state link => simp [state, link]
  | idles _ state link => simp [state, link]
  | settled _ settled =>
    cases settled with
    | ready l state _ link => simp [state, link]
    | waiting dest state link => simp [state, link]
    | receiving state link => simp [state, link]
    | dead state link => simp [state, link]

theorem receiving (hs : d.state = .receiving) : d.link = none := by
  cases role with
  | runs _ _ link => exact link
  | idles _ _ link => exact link
  | settled _ settled =>
    cases settled with
    | ready l state => simp [hs] at state
    | waiting _ state => simp [hs] at state
    | receiving _ link => exact link
    | dead _ link => exact link

theorem deadline (hd : d.deadline.isSome) : d.state = .receiving := by
  cases role with
  | runs _ _ _ deadline => simp [deadline] at hd
  | idles _ _ _ deadline => simp [deadline] at hd
  | settled _ settled =>
    cases settled with
    | ready l _ _ _ deadline => simp [deadline] at hd
    | waiting _ _ _ deadline => simp [deadline] at hd
    | receiving state => exact state
    | dead _ _ deadline => simp [deadline] at hd

theorem dead (hs : d.state = .dead) : d.link = none ∧ d.deadline = none ∧ p ≠ P.current := by
  cases role with
  | runs _ state => simp [hs] at state
  | idles _ state => simp [hs] at state
  | settled other settled =>
    cases settled with
    | ready l state => simp [hs] at state
    | waiting _ state => simp [hs] at state
    | receiving state => simp [hs] at state
    | dead _ link deadline => exact ⟨link, deadline, other⟩

theorem idling (hs : d.state = .idling) : p = .idle := by
  cases role with
  | runs _ state => simp [hs] at state
  | idles idle => exact idle
  | settled _ settled =>
    cases settled with
    | ready l state => simp [hs] at state
    | waiting _ state => simp [hs] at state
    | receiving state => simp [hs] at state
    | dead state => simp [hs] at state

end Role

/-- A blocked sender holds its message out. -/
theorem Mail.outgoing (h : P.Mail [] b) (hp : P.process p = some d) (hs : d.state = .sending ∨ d.state = .sendRec) :
    d.slot.isSome := by
  have hsuits := h.state p List.not_mem_nil
  have hslot : (b p).slot = d.slot := (h.slot p).trans (slot_eq hp)
  rw [read, hp, Option.map_some] at hsuits
  cases hb : b p with
  | offering _ msg _ =>
    rw [hb] at hslot
    rw [← hslot]
    rfl
  | wanting =>
    rw [hb] at hsuits
    rcases hs with hs | hs <;> cases (Option.some_inj.mp hsuits).symm.trans hs
  | keeping _ =>
    rw [hb] at hsuits
    rcases hs with hs | hs
    · exact absurd (congrArg some hs) hsuits.1
    · exact absurd (congrArg some hs) hsuits.2.1

end Plain

theorem Kernel.Boxed.inRoles {k : Kernel} (h : k.Boxed) : k.InRoles := by
  obtain ⟨P, hk, hrest, hm⟩ := h
  have hcur := hk.current
  have hproc : ∀ {p d}, k.process? p = some d → P.process p = some d.plain := fun hp => by
    rw [hk.process, Table.plain_eq_some hp]
  have hrole : ∀ {p d}, k.process? p = some d → P.Role p d.plain := fun hp => hrest.role (hproc hp)
  refine ⟨?_, ?_, ?_, ?_, ?_, ?_, ?_, ?_⟩
  · obtain ⟨d, hd⟩ := Option.isSome_iff_exists.mp (hk.get_isSome.trans hrest.sound.current)
    rw [hcur] at hd
    refine ⟨d, hd, ?_⟩
    cases hrole hd with
    | runs _ state link => exact ⟨link, Or.inl state⟩
    | idles idle state link => exact ⟨link, Or.inr ⟨idle, state⟩⟩
    | settled other => exact absurd hcur.symm other
  · exact fun p d hp hne hs => (hrole hp).ready (hcur ▸ hne) hs
  · refine fun p d hp => (hrole hp).sending.trans (exists_congr fun dest => ⟨fun hl => ⟨hl, ?_⟩, fun hl => hl.1⟩)
    exact hk.get_isSome.trans (hrest.sound.dest p _ dest (hproc hp) hl)
  · intro p d hp hs
    have hout := hm.outgoing (hproc hp) hs
    exact hout
  · refine fun p d hp hs => ⟨(hrole hp).receiving hs, ?_⟩
    have hslot := (hm.slot p).trans (Plain.slot_eq (hproc hp))
    -- The box of a receiver is empty, and its slot is that of the box.
    rw [hm.wants (hproc hp) hs List.not_mem_nil] at hslot
    exact hslot.symm
  · exact fun p d hp hd => (hrole hp).deadline hd
  · exact fun p d hp hs => hcur ▸ (hrole hp).dead hs
  · refine fun p d hp => ⟨(hrole hp).idling, fun hi => ?_⟩
    exact ((hrest.sound.fits p _ (hproc hp)).idle hi).state

/-- Whatever the order of calls, no process is ever lost or in two roles. -/
theorem every_process_in_role {config : Config} {steps : List Step} {k : Kernel}
    (h : Run Call.Admissible config steps k) : k.InRoles := h.boxed.inRoles

theorem every_process_in_role_exchange : exchange.2.InRoles := every_process_in_role exchange_run

end Rendezvous
