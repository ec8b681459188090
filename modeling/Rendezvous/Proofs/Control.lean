import Rendezvous.Proofs.Service
import Rendezvous.Proofs.Store

/-! # Control

A kernel boots with its idle process alone. Starting processes, launching the system and what a process sets
for itself keep the invariant, and the kernel does what the plain counterparts tell. -/

namespace Rendezvous

/-- Every stack has room for the first frame and the word below it. -/
theorem frame_fits (size : Nat) : Frame.words + 1 ≤ stackWords (Kernel.stackSize size) := by
  have hbytes : (Frame.words + 1) * wordBytes ≤ Kernel.stackSize size := Nat.le_max_right _ _
  unfold stackWords
  simp only [Frame.words, wordBytes] at hbytes ⊢
  omega

/-- The first frame can be written to a stack that has room for it. -/
theorem install?_isSome {a : Arena} {base words : Nat} (hw : Frame.words + 1 ≤ words)
    (harena : base + words ≤ Limits.arenaWords) (entry arg exit : Word) :
    ∃ offset content, Frame.install? (Frame.initial entry arg exit) (a.slice ⟨base, words⟩) = some (offset, content) := by
  have hlen : (a.slice ⟨base, words⟩).length = words := by
    rw [Arena.slice, List.length_take, List.length_drop, a.length_words]
    show min words (Limits.arenaWords - base) = words
    omega
  unfold Frame.install?
  rw [if_pos (by rw [hlen]; exact Nat.le_of_succ_le hw)]
  exact ⟨_, _, rfl⟩

namespace Table

variable {t : Table}

theorem size_extend (t : Table) (name : String) (words : Nat) : (t.extend name words).size = t.size + 1 :=
  List.length_append

variable (h : t.size < Limits.processes) (name : String) (words : Nat)
include h

theorem get?_extend : (t.extend name words).get? =
    Function.update t.get? (.ofIndex t.size) (some (.fresh (.ofIndex t.size) name ⟨t.frontier, words⟩)) := by
  have hindex : (Pid.ofIndex t.size).index = t.processes.length := Pid.index_ofIndex (Nat.lt_trans h (by decide))
  funext q
  show (t.processes ++ [_])[q.index]? = _
  rw [getElem?_concat]
  by_cases hq : q = .ofIndex t.size
  · rw [hq, Function.update_self, if_pos hindex]
  · have hi : q.index ≠ t.processes.length := fun hi => hq (Pid.index_inj.mp (hi.trans hindex.symm))
    rw [Function.update_of_ne hq, if_neg hi, get?]

theorem plain_extend : (t.extend name words).plain =
    Function.update t.plain (.ofIndex t.size) (some (.fresh (.ofIndex t.size) name ⟨t.frontier, words⟩)) := by
  funext q
  rw [plain, get?_extend h]
  by_cases hq : q = .ofIndex t.size
  · rw [hq, Function.update_self, Function.update_self, Option.map_some]
    rfl
  · rw [Function.update_of_ne hq, Function.update_of_ne hq, plain]

/-- The new process is in no list, and no list starts from it. -/
theorem bind_extend {α : Type} {g : Descriptor → Option α}
    (hg : g (.fresh (.ofIndex t.size) name ⟨t.frontier, words⟩) = none) (q : Pid) :
    ((t.extend name words).get? q).bind g = (t.get? q).bind g := by
  have hindex : (Pid.ofIndex t.size).index = t.size := Pid.index_ofIndex (Nat.lt_trans h (by decide))
  have hnone : t.get? (.ofIndex t.size) = none := by
    rw [get?, hindex]
    exact List.getElem?_eq_none (Nat.le_refl _)
  rw [get?_extend h]
  by_cases hq : q = .ofIndex t.size
  · rw [hq, Function.update_self, hnone, Option.bind_some, hg, Option.bind_none]
  · rw [Function.update_of_ne hq]

theorem nextOf_extend : (t.extend name words).nextOf = t.nextOf := funext (bind_extend h name words rfl)

theorem waitingOf_extend : (t.extend name words).waitingOf = t.waitingOf := funext (bind_extend h name words rfl)

theorem linkOf_extend : (t.extend name words).linkOf = t.linkOf := funext (bind_extend h name words rfl)

end Table

/-- The idle process as it boots. -/
def bootIdle : Descriptor :=
  { Descriptor.fresh .idle "IDLE" ⟨0, stackWords Limits.idleStack⟩ with state := .idling, priority := .idle }

/-- The idle process alone, before the launch. -/
def Plain.boot (config : Config) : Plain where
  process := Function.update (fun _ => none) .idle (some bootIdle)
  queue := fun _ => []
  size := 1
  arena := Arena.zero.clear ⟨0, stackWords Limits.idleStack⟩
  frontier := stackWords Limits.idleStack
  policy := config.policy
  last := none
  chargedUntil := 0
  switches := 0
  timeouts := {}
  lines := {}
  counters := {}
  config := config
  current := .idle
  running := false
  uptime := 0
  trace := []

namespace Plain

variable {P : Plain} {hand : List Pid} {p : Pid}

theorem boot_process_eq (config : Config) :
    (boot config).process = Function.update (fun _ => none) .idle (some bootIdle) := rfl

theorem boot_process {config : Config} {d : Descriptor} (h : (boot config).process p = some d) :
    p = .idle ∧ d = bootIdle := by
  rw [boot_process_eq] at h
  by_cases hp : p = .idle
  · rw [hp, Function.update_self] at h
    exact ⟨hp, (Option.some_inj.mp h).symm⟩
  · rw [Function.update_of_ne hp] at h
    cases h

theorem boot_rests (config : Config) : (boot config).Rests := by
  refine ⟨⟨?_, ?_, Nat.one_pos, ?_, List.nodup_nil, ?_, ?_, ?_, fun _ => List.nodup_nil, ?_, List.nodup_nil, ?_, ?_⟩,
    fun _ _ hne => absurd rfl hne, fun _ => rfl⟩
  · intro p d hp
    -- The idle process is the only one there is.
    obtain ⟨rfl, rfl⟩ := boot_process hp
    exact ⟨rfl, by decide, by decide, fun _ => ⟨rfl, rfl, rfl, rfl⟩, fun hne => absurd rfl hne, fun hd => (by cases hd),
      fun hne => absurd rfl hne⟩
  · intro p
    show _ ↔ p.index < 1
    by_cases hp : p = .idle
    · rw [boot_process_eq, hp, Function.update_self]
      decide
    · have hi : p.index ≠ Pid.idle.index := fun hi => hp (Pid.index_inj.mp hi)
      rw [boot_process_eq, Function.update_of_ne hp]
      exact ⟨fun hs => (by cases hs), fun hlt => absurd (Nat.lt_one_iff.mp hlt) hi⟩
  · show 1 ≤ Limits.processes
    decide
  · intro p hp
    cases hp
  · intro p d dest hp hl
    obtain ⟨-, rfl⟩ := boot_process hp
    cases hl
  · intro link p
    constructor
    · intro hm
      cases hm
    · rintro ⟨d, hp, hl⟩
      obtain ⟨-, rfl⟩ := boot_process hp
      cases hl
  · intro p
    constructor
    · intro hm
      cases hm
    · rintro ⟨d, hp, hd⟩
      obtain ⟨-, rfl⟩ := boot_process hp
      cases hd
  · intro p hp
    cases hp
  · show ((boot config).process .idle).isSome
    rw [boot_process_eq, Function.update_self, Option.isSome_some]

theorem create_self (P : Plain) (name : String) (words : Nat) : (P.create name words).process (Pid.ofIndex P.size) =
    some (Descriptor.fresh (Pid.ofIndex P.size) name ⟨P.frontier, words⟩) := Function.update_self ..

theorem create_ne (P : Plain) (name : String) (words : Nat) {q : Pid} (hq : q ≠ Pid.ofIndex P.size) :
    (P.create name words).process q = P.process q := Function.update_of_ne hq ..

/-- Whoever is there after the creation is the new process, or was there before. -/
theorem create_cases {name : String} {words : Nat} {d : Descriptor} (h : (P.create name words).process p = some d) :
    p = .ofIndex P.size ∧ d = .fresh (.ofIndex P.size) name ⟨P.frontier, words⟩ ∨
      p ≠ .ofIndex P.size ∧ P.process p = some d := by
  by_cases hp : p = .ofIndex P.size
  · rw [hp, create_self] at h
    exact .inl ⟨hp, (Option.some_inj.mp h).symm⟩
  · exact .inr ⟨hp, create_ne P name words hp ▸ h⟩

theorem create_isSome (h : (P.process p).isSome) (name : String) (words : Nat) :
    ((P.create name words).process p).isSome := by
  by_cases hp : p = .ofIndex P.size
  · rw [hp, create_self, Option.isSome_some]
  · rw [create_ne P name words hp]
    exact h

namespace Sound

/-- The pid of the process that is created next is not in use. -/
theorem unused (h : P.Sound hand) : (Pid.ofIndex P.size).index = P.size ∧ P.process (Pid.ofIndex P.size) = none := by
  have hbound : P.size ≤ 32 := h.size
  have hindex : (Pid.ofIndex P.size).index = P.size := Pid.index_ofIndex (by omega)
  refine ⟨hindex, ?_⟩
  rw [← Option.not_isSome_iff_eq_none, h.known, hindex]
  exact Nat.lt_irrefl _

/-- What does not hold of a new process holds of the same ones as before. -/
theorem create_holds (h : P.Sound hand) {name : String} {words : Nat} {holds : Descriptor → Prop}
    (hfresh : ¬holds (.fresh (.ofIndex P.size) name ⟨P.frontier, words⟩)) (q : Pid) :
    (∃ d, P.process q = some d ∧ holds d) ↔ ∃ d, (P.create name words).process q = some d ∧ holds d := by
  constructor
  · rintro ⟨d, hd, hh⟩
    have hq : q ≠ .ofIndex P.size := fun hq => by
      rw [hq, h.unused.2] at hd
      cases hd
    exact ⟨d, (P.create_ne name words hq).trans hd, hh⟩
  · rintro ⟨d, hd, hh⟩
    rcases create_cases hd with ⟨-, rfl⟩ | ⟨-, hd⟩
    · exact absurd hh hfresh
    · exact ⟨d, hd, hh⟩

/-- A new process is in hand. -/
theorem create (h : P.Sound hand) (hsize : P.size < Limits.processes) {words : Nat} (hw : 0 < words)
    (harena : P.frontier + words ≤ Limits.arenaWords) (name : String) :
    (P.create name words).Sound (Pid.ofIndex P.size :: hand) := by
  obtain ⟨hindex, hnew⟩ := h.unused
  have hidle : Pid.ofIndex P.size ≠ .idle := fun hi => by
    have hpos := h.inhabited
    rw [hi] at hindex
    exact absurd hindex (Nat.ne_of_lt hpos)
  refine ⟨?_, ?_, Nat.succ_pos _, hsize, ?_, ?_, ?_, ?_, h.queue, ?_, h.entries, ?_, ?_⟩
  · intro q d hd
    rcases create_cases hd with ⟨rfl, rfl⟩ | ⟨hq, hd⟩
    · -- A new process is held: active, in no list, without a deadline.
      exact ⟨rfl, hw, harena, fun hi => absurd hi hidle, fun _ => ⟨.low, rfl⟩,
        fun _ => ⟨fun hs => (by cases hs), fun hs => (by cases hs), rfl, rfl⟩, fun _ hout => absurd List.mem_cons_self hout⟩
    · exact (h.fits q d hd).of_hand (by simp [hq])
  · intro q
    show _ ↔ q.index < P.size + 1
    by_cases hq : q = .ofIndex P.size
    · rw [hq, create_self, hindex]
      simp
    · have hindex' : q.index ≠ P.size := fun hi => hq (Pid.index_inj.mp (hi.trans hindex.symm))
      rw [create_ne P name words hq, h.known]
      omega
  · refine List.nodup_cons.mpr ⟨fun hmem => ?_, h.distinct⟩
    have hsome := h.hand _ hmem
    rw [hnew] at hsome
    cases hsome
  · intro q hq
    rcases List.mem_cons.mp hq with rfl | hq
    · rw [create_self, Option.isSome_some]
    · exact create_isSome (h.hand q hq) name words
  · intro q d dest hd hl
    rcases create_cases hd with ⟨rfl, rfl⟩ | ⟨-, hd⟩
    · cases hl
    · exact create_isSome (h.dest q d dest hd hl) name words
  · intro link q
    show q ∈ P.queue link ↔ _
    rw [h.member, h.create_holds]
    intro hl
    cases hl
  · intro q
    show q ∈ P.timeouts.entries ↔ _
    rw [h.entry, h.create_holds]
    intro hs
    cases hs
  · exact fun q hq => create_isSome (h.last q hq) name words
  · exact create_isSome h.current name words

theorem install (h : P.Sound hand) (p : Pid) (base offset : Nat) (content : List Word) :
    (P.install p base offset content).Sound hand := by
  have ha := h.of_same (Q := { P with arena := P.arena.overwrite base content }) rfl rfl rfl rfl h.last h.current
  exact ha.modify_same p (f := fun d => { d with context := .arena (base + offset) })
    fun _ => ⟨rfl, rfl, rfl, rfl, rfl, rfl⟩

end Sound

namespace Rests

theorem setPriority (h : P.Rests) (hne : P.current ≠ .idle) {level : Priority} {l : Level}
    (hl : level.level? = some l) : (P.setPriority level).Rests := by
  obtain ⟨d, hd, hh⟩ := (h.held hne).found List.mem_cons_self
  have hfits := (h.held hne).fits _ d hd
  have hs : (P.setPriority level).Sound [P.current] := by
    refine (h.held hne).modify hd rfl rfl ?_ (List.nodup_singleton _) fun _ _ => Iff.rfl
    exact { hfits with
      idle := fun hi => absurd hi hne
      level := fun _ => ⟨l, hl⟩
      held := fun _ => ⟨hh.alive, hh.busy, hh.link, hh.deadline⟩
      settled := fun _ hout => absurd (List.mem_singleton_self _) hout }
  refine h.of_read ?_ rfl rfl
    (congrFun (modify_read (g := (·.state)) (f := fun d => { d with priority := level }) (fun _ => rfl) _) _)
  show (P.setPriority level).Sound (inHand P.current)
  rw [inHand, if_neg hne]
  exact hs

theorem connect (h : P.Rests) (hne : P.current ≠ .idle) (irq : Int32) : (P.connect irq).Rests := by
  obtain ⟨lines, hlines⟩ : ∃ lines, lines = (P.lines.connect irq P.current).state := ⟨_, rfl⟩
  have hl : ({ P with lines := lines } : Plain).Rests :=
    h.of_read (h.sound.of_same rfl rfl rfl rfl h.sound.last h.sound.current) rfl rfl rfl
  unfold Plain.connect
  rw [← hlines]
  exact (hl.setPriority hne (l := .handler) rfl).emit _

theorem launch (h : P.Rests) (hr : P.running = false) : P.launch.Rests := by
  have hs := h.sound
  have hi := h.asleep hr
  rw [inHand, if_pos hi] at hs
  have hidle : (P.process .idle).isSome := (hs.known .idle).mpr hs.inhabited
  exact (hs.of_same (Q := { P.emit (.launched P.size) with running := true, current := .idle }) rfl rfl rfl rfl hs.last
    hidle).reschedule rfl

/-- A process is started before the launch, while the idle process is the current one. -/
theorem startWith (h : P.Rests) (hr : P.running = false) (hsize : P.size < Limits.processes) {words : Nat}
    (hw : 0 < words) (harena : P.frontier + words ≤ Limits.arenaWords) (name : String) (entry arg : Word)
    {offset : Nat} {content : List Word} (hframe : Frame.install? (Frame.initial entry arg P.config.exitVector)
      ((P.create name words).arena.slice ⟨P.frontier, words⟩) = some (offset, content)) :
    (P.startWith name words entry arg).Rests := by
  have hi := h.asleep hr
  have hs := h.sound
  rw [inHand, if_pos hi] at hs
  have hcreate := hs.create hsize hw harena name
  have hinstall : ((P.create name words).install (Pid.ofIndex P.size) P.frontier offset content).Sound
      [Pid.ofIndex P.size] := hcreate.install ..
  have hnear := ((Near.refl ((P.create name words).install (Pid.ofIndex P.size) P.frontier offset content)).wake
    (Pid.ofIndex P.size)).emit (.started (Pid.ofIndex P.size) name (words * wordBytes))
  rw [startWith_eq hframe]
  have hcurrent := hnear.current.trans hi
  refine ⟨?_, fun d _ hne => absurd hcurrent hne, fun _ => hcurrent⟩
  rw [inHand, if_pos hcurrent]
  exact hinstall.wake.emit _

theorem poked (h : P.Rests) (a : Arena) : ({ P with arena := a } : Plain).Rests :=
  h.of_read (h.sound.of_same rfl rfl rfl rfl h.sound.last h.sound.current) rfl rfl rfl

end Rests

end Plain

namespace Kernel.Shows

open Traced Plain

variable {k : Kernel} {P : Plain} {hand : List Pid} {p dest : Pid} {d : Descriptor}

theorem boot (config : Config) : (Kernel.boot config).Shows (Plain.boot config) := by
  have hget : (Kernel.boot config).table.get? = Function.update (fun _ => none) .idle (some bootIdle) := by
    funext p
    show [bootIdle][p.index]? = _
    by_cases hp : p = .idle
    · rw [hp, Function.update_self]
      rfl
    · have hi : p.index ≠ Pid.idle.index := fun hi => hp (Pid.index_inj.mp hi)
      rw [Function.update_of_ne hp]
      exact List.getElem?_eq_none (Nat.one_le_iff_ne_zero.mpr hi)
  -- No link, no waiting list and no successor is set, so all lists are empty.
  have hnone : ∀ {α : Type} (g : Descriptor → Option α), g bootIdle = none → ∀ p,
      ((Kernel.boot config).table.get? p).bind g = none := by
    intro α g hg p
    rw [hget]
    by_cases hp : p = .idle
    · rw [hp, Function.update_self, Option.bind_some, hg]
    · rw [Function.update_of_ne hp, Option.bind_none]
  have hplain : (Kernel.boot config).table.plain = (Plain.boot config).process := by
    funext p
    rw [Table.plain, hget, boot_process_eq]
    by_cases hp : p = .idle
    · rw [hp, Function.update_self]
      rfl
    · rw [Function.update_of_ne hp, Option.map_none]
  refine ⟨?_, ⟨?_, ?_, ?_⟩, ?_⟩
  · rw [seen, hplain]
    rfl
  · rintro (l | dest)
    · cases l <;> rfl
    · exact hnone (·.waiting) rfl dest
  · exact fun link p => ⟨fun hm => (by cases hm), fun hl => by cases (hnone (·.link) rfl p).symm.trans hl⟩
  · exact fun p _ => hnone (·.next) rfl p
  · intro l
    cases l <;> rfl

theorem lines (h : k.Shows P) : P.lines = k.lines := by
  rw [h.1]
  rfl

theorem running (h : k.Shows P) : P.running = k.running := by
  rw [h.1]
  rfl

/-- A change of the priority of the current process. -/
theorem config (h : k.Shows P) : P.config = k.config := by
  rw [h.1]
  rfl

theorem amendPriority (h : k.Shows P) (hc : (P.process P.current).isSome) (level : Priority) :
    (k.amend k.current fun d => { d with priority := level }).Leads P (·) (P.setPriority level) := by
  rw [← h.current]
  exact h.amend hc ⟨fun _ => rfl, fun _ => rfl, fun _ => rfl, fun _ => rfl⟩

theorem setPriority (h : k.Shows P) (hrest : P.Rests) (hidle : P.running = true → P.current ≠ .idle)
    (level : Priority) : (k.setPriority level).Ends P (·) (P.setPriority level) := by
  unfold Kernel.setPriority
  rw [h.running] at hidle
  by_cases hr : k.running = true
  · rw [if_pos hr]
    by_cases hl : level = .high ∨ level = .low
    · rw [if_pos hl]
      refine (h.amendPriority hrest.sound.current level).ends ?_
      rcases hl with rfl | rfl
      · exact hrest.setPriority (hidle hr) (l := .high) rfl
      · exact hrest.setPriority (hidle hr) (l := .low) rfl
    · rw [if_neg hl]
      exact Ends.halt trivial
  · rw [if_neg hr]
    exact Ends.halt trivial

theorem connect (h : k.Shows P) (hrest : P.Rests) (hidle : P.running = true → P.current ≠ .idle)
    (irq : Int32) : (k.connect irq).Ends P (·) (P.connect irq) := by
  unfold Kernel.connect
  by_cases hr : k.running = true
  · rw [if_pos hr]
    cases hline : InterruptLines.line? irq with
    | none =>
      have hc : k.lines.connect irq k.current = .refuse (.noSuchIrq irq) k.lines := by
        rw [InterruptLines.connect, hline]
      rw [hc]
      exact halt_ends (e := .noSuchIrq irq) trivial _
    | some i =>
      obtain ⟨lines, hc⟩ : ∃ lines, k.lines.connect irq k.current = .done () lines := by
        rw [InterruptLines.connect, hline]
        exact ⟨_, rfl⟩
      have hP : P.connect irq = (({ P with lines := lines } : Plain).setPriority .handler).emit
          (.connected irq k.current) := by
        rw [Plain.connect, h.lines, h.current, hc]
        rfl
      refine Leads.ends ?_ (hrest.connect (hidle (h.running.trans hr)) irq)
      rw [hc, hP]
      have hl : ({ k with lines := lines } : Kernel).Shows { P with lines := lines } := ⟨by rw [h.1]; rfl, h.2⟩
      refine (hl.amendPriority hrest.sound.current .handler).bind fun k₁ h₁ => ?_
      have hcurrent : k.current = k₁.current := h.current.symm.trans h₁.current
      rw [hcurrent]
      exact emit_leads (Leads.silent rfl rfl (h₁.emit _))
  · rw [if_neg hr]
    exact Ends.halt trivial

theorem launch (h : k.Shows P) (hrest : P.Rests) (hr : P.running = false) :
    k.launch.Leads P (P.launch.resume, ·) P.launch := by
  have hsize : k.processCount = P.size := h.size.symm
  have hs := hrest.sound
  -- Before the launch the idle process is the current one, so nobody is in hand.
  rw [inHand, if_pos (hrest.asleep hr)] at hs
  have hidle : (P.process .idle).isSome := (hs.known .idle).mpr hs.inhabited
  have hwoken : ({ k with running := true, current := .idle } : Kernel).Shows
      { P.emit (.launched P.size) with running := true, current := .idle } := ⟨by rw [h.1]; rfl, h.2⟩
  have hs' := hs.of_same (Q := { P.emit (.launched P.size) with running := true, current := .idle }) rfl rfl rfl rfl
    hs.last hidle
  unfold Kernel.launch
  rw [hsize]
  refine emit_leads ?_
  refine ((hwoken.reschedule_of_sound hs').of_trace rfl).bind fun k₁ h₁ => ?_
  exact h₁.resume (hrest.launch hr).sound.current

theorem takeMessage (h : k.Shows P) (p : Pid) :
    (k.takeMessage p).Leads P (P.slot p, ·) (P.takeMessage p) := by
  unfold Kernel.takeMessage Kernel.process?
  cases hp : k.table.get? p with
  | none =>
    have hnone : P.process p = none := by
      rw [h.process, Table.plain, hp, Option.map_none]
    have hsame : P.takeMessage p = P := modify_of_none hnone _
    have hslot : P.slot p = none := by rw [Plain.slot, hnone, Option.bind_none]
    rw [hsame, hslot]
    exact Leads.silent rfl rfl h
  | some e =>
    have he := h.process_eq hp
    rw [Plain.slot_eq he]
    exact (h.slot (by rw [he, Option.isSome_some]) none).bind fun k₁ h₁ => Leads.silent rfl rfl h₁

/-! ### Starting a process -/

theorem create (h : k.Shows P) (hsize : P.size < Limits.processes) {bytes : Nat}
    (hroom : ¬k.table.freeBytes < stackWords bytes * wordBytes) (name : String) :
    ∃ t, k.table.create name bytes = .done (Pid.ofIndex P.size) t ∧
      t.get? (Pid.ofIndex P.size) =
        some (Descriptor.fresh (Pid.ofIndex P.size) name ⟨P.frontier, stackWords bytes⟩) ∧
      ({ k with table := t } : Kernel).Shows (P.create name (stackWords bytes)) := by
  have hsz : P.size = k.table.size := h.size
  have hfr : P.frontier = k.table.frontier := by rw [h.1]; rfl
  rw [hsz] at hsize ⊢
  have hget := Table.get?_extend hsize name (stackWords bytes)
  refine ⟨_, Table.create_done hsize (Nat.not_lt.mp hroom) name, ?_, ?_, ?_, h.2.tail⟩
  · rw [hget, Function.update_self, hfr]
  · have har : P.arena = k.table.arena := by rw [h.1]; rfl
    have hplain := Table.plain_extend hsize name (stackWords bytes)
    have hmore := Table.size_extend k.table name (stackWords bytes)
    rw [Plain.create, hsz, hfr, har, h.process, ← hplain, ← hmore, h.1]
    rfl
  · have hl := h.2.threaded
    rw [← Table.nextOf_extend hsize name (stackWords bytes), ← Table.waitingOf_extend hsize name (stackWords bytes),
      ← Table.linkOf_extend hsize name (stackWords bytes)] at hl
    exact hl

/-- An arena beside what `P` tells of the rest. -/
theorem of_arena (h : k.Shows P) (a : Arena) :
    ({ k with table := { k.table with arena := a } } : Kernel).Shows { P with arena := a } :=
  ⟨by rw [h.1]; rfl, h.2.threaded, h.2.tail⟩

theorem start (h : k.Shows P) (hrest : P.Rests) (name : String) (size : Nat) (entry arg : Word) :
    (k.start name size entry arg).Ends P (Pid.ofIndex P.size, ·) (P.start name size entry arg) := by
  obtain ⟨words, hw⟩ : ∃ words, words = stackWords (stackSize size) := ⟨_, rfl⟩
  have hsz : k.table.size = P.size := h.size.symm
  unfold Kernel.start
  by_cases hr : k.running = true
  · rw [if_pos hr]
    exact Ends.halt trivial
  rw [if_neg hr]
  -- A full table and an exhausted arena are refused before anything is written.
  by_cases hfull : Limits.processes ≤ k.table.size
  · rw [Table.create_full hfull]
    exact halt_ends (e := .tooManyProcesses) trivial _
  by_cases hroom : k.table.freeBytes < stackWords (stackSize size) * wordBytes
  · rw [Table.create_exhausted (Nat.not_le.mp hfull) hroom]
    exact halt_ends (e := .outOfMemory _ _) trivial _
  have hsize : P.size < Limits.processes := hsz ▸ Nat.not_le.mp hfull
  have hbig : Frame.words + 1 ≤ words := hw ▸ frame_fits size
  have hpos : 0 < words := Nat.lt_of_lt_of_le (by decide) hbig
  have harena : P.frontier + words ≤ Limits.arenaWords := by
    have hfr : k.table.frontier = P.frontier := by rw [h.1]; rfl
    rw [← hw, Table.freeBytes, hfr] at hroom
    simp only [wordBytes] at hroom
    omega
  obtain ⟨t, hcreate, hget, h₁⟩ := h.create hsize hroom name
  rw [← hw] at hget h₁
  -- A stack holds at least a frame, so the first frame always fits.
  obtain ⟨offset, content, hframe⟩ := install?_isSome (a := (P.create name words).arena) hbig harena entry arg
    P.config.exitVector
  have hr' : P.running = false := by simpa [h.running] using hr
  have hstart : P.start name size entry arg = P.startWith name words entry arg := by rw [Plain.start, ← hw]
  have hs : P.Sound [] := by
    have hs := hrest.sound
    rw [inHand, if_pos (hrest.asleep hr')] at hs
    exact hs
  have hmade := hs.create hsize hpos harena name
  rw [hstart]
  refine Leads.ends ?_ (hrest.startWith hr' hsize hpos harena name entry arg hframe)
  rw [hcreate, startWith_eq hframe]
  show (Traced.lift (t.fetch (Pid.ofIndex P.size)) >>= _).Leads P (Pid.ofIndex P.size, ·) _
  have hconfig : k.config = P.config := h.config.symm
  have har : t.arena = (P.create name words).arena := by rw [h₁.1]; rfl
  have hinstall : Frame.install? (Frame.initial entry arg k.config.exitVector)
      (t.arena.slice (Descriptor.fresh (Pid.ofIndex P.size) name ⟨P.frontier, words⟩).stack) =
        some (offset, content) := by
    rw [hconfig, har]
    exact hframe
  rw [lift_bind (Table.fetch_eq_ok.mpr hget)]
  have hstate : (Attempt.done (Pid.ofIndex P.size) t).state = t := rfl
  simp only [hstate, hinstall]
  refine Leads.of_trace (P := P.create name words) ?_ rfl
  have h₂ := h₁.of_arena (t.arena.overwrite P.frontier content)
  -- The process is created, given its frame, and woken at last.
  refine (h₂.amend (f := fun d => { d with context := .arena (P.frontier + offset) }) ?_
    ⟨fun _ => rfl, fun _ => rfl, fun _ => rfl, fun _ => rfl⟩).bind fun k₁ h₃ => ?_
  · exact hmade.hand _ List.mem_cons_self
  rw [har] at h₃
  refine (h₃.wake_of_sound (hmade.install _ _ offset content)).bind fun k₂ h₄ => ?_
  exact emit_leads (Leads.silent rfl rfl (h₄.emit _))

end Kernel.Shows

end Rendezvous
