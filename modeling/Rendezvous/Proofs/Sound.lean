import Mathlib.Data.List.Nodup
import Rendezvous.Proofs.Plain

/-! # The invariant of a kernel

Every process is in the list that its state calls for, but for those in hand: the process that runs and
those that an operation is moving. Each elementary change takes processes into hand or puts them down. -/

namespace Rendezvous

/-- A process that is not in hand: ready in the queue of its level, in the waiting list of a process, or
    in no list as a receiver or because it is dead. Receivers alone have a deadline. -/
inductive Settled (d : Descriptor) : Prop
  | ready (l : Level) (state : d.state = .active) (level : d.priority.level? = some l)
      (link : d.link = some (.ready l)) (deadline : d.deadline = none)
  | waiting (dest : Pid) (state : d.state = .sending ∨ d.state = .sendRec)
      (link : d.link = some (.waiting dest)) (deadline : d.deadline = none)
  | receiving (state : d.state = .receiving) (link : d.link = none)
  | dead (state : d.state = .dead) (link : d.link = none) (deadline : d.deadline = none)

/-- A process in hand: alive, in no list and without a deadline. -/
structure Held (d : Descriptor) : Prop where
  alive : d.state ≠ .dead
  busy : d.state ≠ .idling
  link : d.link = none
  deadline : d.deadline = none

/-- The idle process: in no list and without a deadline. -/
structure Idle (d : Descriptor) : Prop where
  state : d.state = .idling
  priority : d.priority = .idle
  link : d.link = none
  deadline : d.deadline = none

/-- What holds of the descriptor of `p` while the processes of `hand` are in hand. -/
structure Fits (hand : List Pid) (p : Pid) (d : Descriptor) : Prop where
  pid : d.pid = p
  words : 0 < d.stack.words
  stack : d.stack.base + d.stack.words ≤ Limits.arenaWords
  idle : p = .idle → Idle d
  level : p ≠ .idle → ∃ l, d.priority.level? = some l
  held : p ∈ hand → Held d
  settled : p ≠ .idle → p ∉ hand → Settled d

/-- What holds of a kernel while the processes of `hand` are in hand. -/
structure Plain.Sound (P : Plain) (hand : List Pid) : Prop where
  fits : ∀ p d, P.process p = some d → Fits hand p d
  known : ∀ p, (P.process p).isSome ↔ p.index < P.size
  inhabited : 0 < P.size
  size : P.size ≤ Limits.processes
  distinct : hand.Nodup
  hand : ∀ p ∈ hand, (P.process p).isSome
  dest : ∀ p d dest, P.process p = some d → d.link = some (.waiting dest) → (P.process dest).isSome
  member : ∀ link p, p ∈ P.queue link ↔ ∃ d, P.process p = some d ∧ d.link = some link
  queue : ∀ link, (P.queue link).Nodup
  entry : ∀ p, p ∈ P.timeouts.entries ↔ ∃ d, P.process p = some d ∧ d.deadline.isSome
  entries : P.timeouts.entries.Nodup
  last : ∀ p, P.last = some p → (P.process p).isSome
  current : (P.process P.current).isSome

/-- What is in hand while a process runs; the idle process never is. -/
def inHand (p : Pid) : List Pid := if p = .idle then [] else [p]

/-- What holds of a kernel between two calls. -/
structure Plain.Rests (P : Plain) : Prop where
  sound : P.Sound (inHand P.current)
  active : ∀ d, P.process P.current = some d → P.current ≠ .idle → d.state = .active
  asleep : P.running = false → P.current = .idle

/-- The descriptors agree in all that the invariant reads. -/
structure SameRole (d d' : Descriptor) : Prop where
  pid : d'.pid = d.pid
  stack : d'.stack = d.stack
  state : d'.state = d.state
  priority : d'.priority = d.priority
  link : d'.link = d.link
  deadline : d'.deadline = d.deadline

section
variable {hand hand' : List Pid} {p : Pid} {d d' : Descriptor}

theorem Settled.of_same (h : Settled d) (same : SameRole d d') : Settled d' := by
  cases h with
  | ready l state level link deadline =>
    exact .ready l (same.state.trans state) (same.priority ▸ level) (same.link.trans link)
      (same.deadline.trans deadline)
  | waiting dest state link deadline =>
    exact .waiting dest (same.state ▸ state) (same.link.trans link) (same.deadline.trans deadline)
  | receiving state link => exact .receiving (same.state.trans state) (same.link.trans link)
  | dead state link deadline =>
    exact .dead (same.state.trans state) (same.link.trans link) (same.deadline.trans deadline)

theorem Settled.of_active (h : Settled d) (hs : d.state = .active) :
    ∃ l, d.priority.level? = some l ∧ d.link = some (.ready l) := by
  cases h with
  | ready l _ level link => exact ⟨l, level, link⟩
  | waiting _ state => simp [hs] at state
  | receiving state => simp [hs] at state
  | dead state => simp [hs] at state

theorem Fits.of_same (h : Fits hand p d) (same : SameRole d d') : Fits hand p d' where
  pid := same.pid.trans h.pid
  words := same.stack ▸ h.words
  stack := same.stack ▸ h.stack
  idle hp :=
    have hi := h.idle hp
    ⟨same.state.trans hi.state, same.priority.trans hi.priority, same.link.trans hi.link,
      same.deadline.trans hi.deadline⟩
  level hp := same.priority ▸ h.level hp
  held hp :=
    have hh := h.held hp
    ⟨same.state ▸ hh.alive, same.state ▸ hh.busy, same.link.trans hh.link, same.deadline.trans hh.deadline⟩
  settled hp hh := (h.settled hp hh).of_same same

theorem Fits.of_hand (h : Fits hand p d) (hp : p ∈ hand' ↔ p ∈ hand) : Fits hand' p d :=
  { h with
    held := fun hh => h.held (hp.mp hh)
    settled := fun hne hh => h.settled hne fun hc => hh (hp.mpr hc) }

/-- Changes of the state, the list and the deadline of a process; the rest is left alone. -/
structure SamePlace (d d' : Descriptor) : Prop where
  pid : d'.pid = d.pid
  stack : d'.stack = d.stack
  priority : d'.priority = d.priority

theorem Fits.put (h : Fits hand p d) (hne : p ≠ .idle) (same : SamePlace d d') (hs : Settled d') (hout : p ∉ hand') :
    Fits hand' p d' where
  pid := same.pid.trans h.pid
  words := same.stack ▸ h.words
  stack := same.stack ▸ h.stack
  idle hi := absurd hi hne
  level hne := same.priority ▸ h.level hne
  held hh := absurd hh hout
  settled _ _ := hs

theorem Fits.take (h : Fits hand p d) (hne : p ≠ .idle) (same : SamePlace d d') (hh : Held d') (hin : p ∈ hand') :
    Fits hand' p d' where
  pid := same.pid.trans h.pid
  words := same.stack ▸ h.words
  stack := same.stack ▸ h.stack
  idle hi := absurd hi hne
  level hne := same.priority ▸ h.level hne
  held _ := hh
  settled _ hout := absurd hin hout

end

namespace Plain.Sound

variable {P Q : Plain} {hand hand' : List Pid} {p : Pid} {d d' : Descriptor}

/-- A change of one descriptor, of the processes in hand, of the lists and of the registry. All elementary changes
    are of this kind; who is in which list and in the registry is told apart for `p` and the others. -/
theorem change (h : P.Sound hand) (hp : P.process p = some d)
    (hprocess : Q.process = Function.update P.process p (some d')) (hsize : Q.size = P.size)
    (hlast : Q.last = P.last) (hcurrent : Q.current = P.current) (hfits : Fits hand' p d')
    (hdest : ∀ dest, d'.link = some (.waiting dest) → (P.process dest).isSome) (distinct : hand'.Nodup)
    (hother : ∀ x, x ≠ p → (x ∈ hand' ↔ x ∈ hand))
    (hmember : ∀ link x, x ∈ Q.queue link ↔ if x = p then d'.link = some link else x ∈ P.queue link)
    (hqueue : ∀ link, (Q.queue link).Nodup)
    (hentry : ∀ x, x ∈ Q.timeouts.entries ↔ if x = p then d'.deadline.isSome = true else x ∈ P.timeouts.entries)
    (hentries : Q.timeouts.entries.Nodup) : Q.Sound hand' := by
  have hself : Q.process p = some d' := by rw [hprocess, Function.update_self]
  have hne : ∀ x, x ≠ p → Q.process x = P.process x := fun x hx => by rw [hprocess, Function.update_of_ne hx]
  -- No process appears or goes, so what is said of the others carries over.
  have hsome : ∀ x, (Q.process x).isSome = (P.process x).isSome := fun x => by
    by_cases hx : x = p
    · rw [hx, hself, hp, Option.isSome_some, Option.isSome_some]
    · rw [hne x hx]
  refine ⟨?_, ?_, hsize ▸ h.inhabited, hsize ▸ h.size, distinct, ?_, ?_, ?_, hqueue, ?_, hentries, ?_, ?_⟩
  · intro x e he
    by_cases hx : x = p
    · subst hx
      obtain rfl : d' = e := Option.some_inj.mp (hself.symm.trans he)
      exact hfits
    · exact (h.fits x e (hne x hx ▸ he)).of_hand (hother x hx)
  · intro x
    rw [hsome, hsize]
    exact h.known x
  · intro x hx
    rw [hsome]
    by_cases hxp : x = p
    · rw [hxp, hp, Option.isSome_some]
    · exact h.hand x ((hother x hxp).mp hx)
  · intro x e dest he hl
    rw [hsome]
    by_cases hx : x = p
    · subst hx
      obtain rfl : d' = e := Option.some_inj.mp (hself.symm.trans he)
      exact hdest dest hl
    · exact h.dest x e dest (hne x hx ▸ he) hl
  · intro link x
    rw [hmember]
    by_cases hx : x = p
    · rw [if_pos hx, hx, hself]
      simp
    · rw [if_neg hx, h.member, hne x hx]
  · intro x
    rw [hentry]
    by_cases hx : x = p
    · rw [if_pos hx, hx, hself]
      simp
    · rw [if_neg hx, h.entry, hne x hx]
  · intro x hx
    rw [hsome]
    exact h.last x (hlast ▸ hx)
  · rw [hsome, hcurrent]
    exact h.current

/-- Nothing changes but who was picked last and who runs. -/
theorem of_same (h : P.Sound hand) (hprocess : Q.process = P.process) (hqueue : Q.queue = P.queue)
    (hsize : Q.size = P.size) (hentries : Q.timeouts.entries = P.timeouts.entries)
    (hlast : ∀ p, Q.last = some p → (P.process p).isSome) (hcurrent : (P.process Q.current).isSome) :
    Q.Sound hand where
  fits := hprocess ▸ h.fits
  known := hprocess ▸ hsize ▸ h.known
  inhabited := hsize ▸ h.inhabited
  size := hsize ▸ h.size
  distinct := h.distinct
  hand := hprocess ▸ h.hand
  dest := hprocess ▸ h.dest
  member := hprocess ▸ hqueue ▸ h.member
  queue := hqueue ▸ h.queue
  entry := hprocess ▸ hentries ▸ h.entry
  entries := hentries ▸ h.entries
  last := hprocess ▸ hlast
  current := hprocess ▸ hcurrent

theorem perm (h : P.Sound hand) (hp : hand.Perm hand') : P.Sound hand' :=
  { h with
    fits := fun x e he => (h.fits x e he).of_hand hp.mem_iff.symm
    distinct := hp.nodup h.distinct
    hand := fun x hx => h.hand x (hp.mem_iff.mpr hx) }

theorem swap {q : Pid} (h : P.Sound (p :: q :: hand)) : P.Sound (q :: p :: hand) := h.perm (List.Perm.swap q p hand)

theorem emit (h : P.Sound hand) (e : Event) : (P.emit e).Sound hand := h.of_same rfl rfl rfl rfl h.last h.current

theorem found (h : P.Sound hand) (hp : p ∈ hand) : ∃ d, P.process p = some d ∧ Held d := by
  obtain ⟨d, hd⟩ := Option.isSome_iff_exists.mp (h.hand p hp)
  exact ⟨d, hd, (h.fits p d hd).held hp⟩

/-- The idle process is never in hand. -/
theorem ne_idle (h : P.Sound hand) (hp : p ∈ hand) : p ≠ .idle := by
  obtain ⟨d, hd, hh⟩ := h.found hp
  intro hi
  exact hh.busy ((h.fits p d hd).idle hi).state

theorem idle (h : P.Sound hand) : ∃ d, P.process .idle = some d ∧ Idle d := by
  obtain ⟨d, hd⟩ := Option.isSome_iff_exists.mp ((h.known .idle).mpr h.inhabited)
  exact ⟨d, hd, (h.fits .idle d hd).idle rfl⟩

theorem member_same (h : P.Sound hand) (hp : P.process p = some d) (hl : d'.link = d.link) (link : Link) (x : Pid) :
    x ∈ P.queue link ↔ if x = p then d'.link = some link else x ∈ P.queue link := by
  by_cases hx : x = p
  · rw [if_pos hx, hl, hx, h.member, hp]
    simp
  · rw [if_neg hx]

theorem entry_same (h : P.Sound hand) (hp : P.process p = some d) (hd : d'.deadline = d.deadline) (x : Pid) :
    x ∈ P.timeouts.entries ↔ if x = p then d'.deadline.isSome = true else x ∈ P.timeouts.entries := by
  by_cases hx : x = p
  · rw [if_pos hx, hd, hx, h.entry, hp]
    simp
  · rw [if_neg hx]

theorem not_mem_queue (h : P.Sound hand) (hp : P.process p = some d) {link : Link} (hl : d.link ≠ some link) :
    p ∉ P.queue link := by
  intro hmem
  obtain ⟨e, he, hlink⟩ := (h.member link p).mp hmem
  obtain rfl : d = e := Option.some_inj.mp (hp.symm.trans he)
  exact hl hlink

/-- A process that has gone into a list, or out of it, is in no other. -/
theorem member_update (h : P.Sound hand) (hp : P.process p = some d) {link : Link} {l : List Pid}
    (hl : ∀ link', link' ≠ link → d.link ≠ some link' ∧ d'.link ≠ some link')
    (hmem : ∀ x, x ∈ l ↔ if x = p then d'.link = some link else x ∈ P.queue link) (link' : Link) (x : Pid) :
    x ∈ Function.update P.queue link l link' ↔ if x = p then d'.link = some link' else x ∈ P.queue link' := by
  by_cases hlink : link' = link
  · rw [hlink, Function.update_self]
    exact hmem x
  · rw [Function.update_of_ne hlink]
    by_cases hx : x = p
    · rw [if_pos hx, hx]
      exact iff_of_false (h.not_mem_queue hp (hl link' hlink).1) (hl link' hlink).2
    · rw [if_neg hx]

theorem queue_update (h : P.Sound hand) {link : Link} {l : List Pid} (hl : l.Nodup) (link' : Link) :
    (Function.update P.queue link l link').Nodup := by
  by_cases hlink : link' = link
  · rw [hlink, Function.update_self]
    exact hl
  · rw [Function.update_of_ne hlink]
    exact h.queue link'

/-- A change of one descriptor that leaves its list and its deadline alone. -/
theorem modify (h : P.Sound hand) (hp : P.process p = some d) {f : Descriptor → Descriptor}
    (hlink : (f d).link = d.link) (hdeadline : (f d).deadline = d.deadline) (hfits : Fits hand' p (f d))
    (distinct : hand'.Nodup) (hother : ∀ x, x ≠ p → (x ∈ hand' ↔ x ∈ hand)) : (P.modify p f).Sound hand' := by
  rw [modify_eq hp]
  exact h.change hp rfl rfl rfl rfl hfits (fun dest hd => h.dest p d dest hp (hlink ▸ hd)) distinct hother
    (h.member_same hp hlink) h.queue (h.entry_same hp hdeadline) h.entries

theorem modify_same (h : P.Sound hand) (p : Pid) {f : Descriptor → Descriptor} (hf : ∀ d, SameRole d (f d)) :
    (P.modify p f).Sound hand := by
  cases hp : P.process p with
  | none =>
    rw [modify_of_none hp]
    exact h
  | some d =>
    exact h.modify hp (hf d).link (hf d).deadline ((h.fits p d hp).of_same (hf d)) h.distinct fun _ _ => Iff.rfl

/-! ### Into hand and out of it -/

/-- A change of one descriptor in hand that puts the process down, with its list and its deadline as they were. -/
theorem put (h : P.Sound (p :: hand)) (hp : P.process p = some d) {f : Descriptor → Descriptor}
    (same : SamePlace d (f d)) (hlink : (f d).link = d.link) (hdeadline : (f d).deadline = d.deadline)
    (hs : Settled (f d)) : (P.modify p f).Sound hand := by
  obtain ⟨hout, distinct⟩ := List.nodup_cons.mp h.distinct
  exact h.modify hp hlink hdeadline ((h.fits p d hp).put (h.ne_idle List.mem_cons_self) same hs hout) distinct
    fun x hx => by simp [hx]

theorem wake (h : P.Sound (p :: hand)) : (P.wake p).Sound hand := by
  obtain ⟨d, hp, hh⟩ := h.found List.mem_cons_self
  obtain ⟨hout, distinct⟩ := List.nodup_cons.mp h.distinct
  obtain ⟨l, hl⟩ := (h.fits p d hp).level (h.ne_idle List.mem_cons_self)
  have hins := P.policy.insert_perm (fun x => (P.process x).any (·.score ≤ d.score)) (P.queue (.ready l)) p
  rw [wake_of_some hp hl]
  refine h.change hp rfl rfl rfl rfl ?_ ?_ distinct ?_ ?_ ?_ ?_ h.entries
  · exact (h.fits p d hp).put (h.ne_idle List.mem_cons_self) ⟨rfl, rfl, rfl⟩ (.ready l rfl hl rfl hh.deadline) hout
  · intro dest hd
    simp at hd
  · intro x hx
    simp [hx]
  · refine h.member_update hp (fun link' hlink => ⟨by simp [hh.link], by simpa using hlink.symm⟩) ?_
    intro x
    -- Wherever the policy puts it, the queue gains this process and no other.
    rw [hins.mem_iff]
    by_cases hx : x = p <;> simp [hx]
  · refine h.queue_update (hins.nodup_iff.mpr (List.nodup_cons.mpr ⟨?_, h.queue _⟩))
    exact h.not_mem_queue hp (by simp [hh.link])
  · exact h.entry_same hp rfl

/-- The idle process cannot be put into a queue. -/
theorem wake_idle (h : P.Sound hand) : P.wake .idle = P := by
  obtain ⟨d, hd, hi⟩ := h.idle
  exact wake_of_none hd (by rw [hi.priority]; rfl)

theorem free (h : P.Sound hand) {link : Link} (hp : P.process p = some d) (hl : d.link = some link) :
    (P.free p link).Sound (p :: hand) := by
  have hfits := h.fits p d hp
  have hne : p ≠ .idle := by
    rintro hi
    rw [(hfits.idle hi).link] at hl
    cases hl
  -- A process in hand is in no list.
  have hout : p ∉ hand := by
    intro hin
    rw [(hfits.held hin).link] at hl
    cases hl
  -- Of the settled states, two are in a list; neither is dead or has a deadline.
  have hh : Held { d with link := none } := by
    cases hfits.settled hne hout with
    | ready l state level link deadline => exact ⟨by simp [state], by simp [state], rfl, deadline⟩
    | waiting dest state link deadline =>
      rcases state with state | state <;> exact ⟨by simp [state], by simp [state], rfl, deadline⟩
    | receiving state link => simp [link] at hl
    | dead state link deadline => simp [link] at hl
  rw [Plain.free, modify_eq hp]
  refine h.change hp rfl rfl rfl rfl ?_ ?_ (List.nodup_cons.mpr ⟨hout, h.distinct⟩) ?_ ?_ ?_ ?_ h.entries
  · exact hfits.take hne ⟨rfl, rfl, rfl⟩ hh List.mem_cons_self
  · intro dest hd
    cases hd
  · intro x hx
    simp [hx]
  · refine h.member_update hp (fun link' hlink => ⟨?_, by simp⟩) ?_
    · rw [hl]
      simpa using hlink.symm
    · intro x
      rw [(h.queue link).mem_erase_iff]
      by_cases hx : x = p <;> simp [hx]
  · exact h.queue_update ((h.queue link).erase p)
  · exact h.entry_same hp rfl

theorem join (h : P.Sound (P.current :: hand)) (hp : P.process P.current = some d)
    (hs : d.state = .sending ∨ d.state = .sendRec) {dest : Pid} (hdest : (P.process dest).isSome) :
    (P.join dest).Sound hand := by
  obtain ⟨hout, distinct⟩ := List.nodup_cons.mp h.distinct
  have hh := (h.fits _ d hp).held List.mem_cons_self
  rw [Plain.join, modify_eq hp]
  refine h.change hp rfl rfl rfl rfl ?_ ?_ distinct ?_ ?_ ?_ ?_ h.entries
  · exact (h.fits _ d hp).put (h.ne_idle List.mem_cons_self) ⟨rfl, rfl, rfl⟩ (.waiting dest hs rfl hh.deadline) hout
  · intro dest' hd
    cases hd
    exact hdest
  · intro x hx
    simp [hx]
  · refine h.member_update hp (fun link' hlink => ⟨by simp [hh.link], by simpa using hlink.symm⟩) ?_
    intro x
    by_cases hx : x = P.current <;> simp [hx]
  · refine h.queue_update (List.Nodup.append (h.queue _) (List.nodup_singleton _) ?_)
    rw [List.disjoint_singleton]
    exact h.not_mem_queue hp (by simp [hh.link])
  · exact h.entry_same hp rfl

theorem wait (h : P.Sound (P.current :: hand)) {state : State} (hs : state = .sending ∨ state = .sendRec)
    {dest : Pid} (hdest : (P.process dest).isSome) : (P.wait state dest).Sound hand := by
  obtain ⟨d, hp, hh⟩ := h.found List.mem_cons_self
  have hfits := h.fits _ d hp
  have hmod : (P.modify P.current fun d => { d with state := state }).Sound (P.current :: hand) := by
    refine h.modify hp rfl rfl ?_ h.distinct fun _ _ => Iff.rfl
    refine hfits.take (h.ne_idle List.mem_cons_self) ⟨rfl, rfl, rfl⟩ ⟨?_, ?_, hh.link, hh.deadline⟩
      List.mem_cons_self
    · rcases hs with rfl | rfl <;> simp
    · rcases hs with rfl | rfl <;> simp
  refine join hmod (d := { d with state := state }) ?_ hs ((modify_isSome _ _ dest).trans hdest)
  rw [modify_eq hp]
  exact Function.update_self ..

/-- A receiver is taken into hand, and its deadline away. -/
theorem cancel (h : P.Sound hand) (hp : P.process p = some d) (hs : d.state = .receiving) (hout : p ∉ hand) :
    (P.cancel p).Sound (p :: hand) := by
  have hfits := h.fits p d hp
  have hne : p ≠ .idle := by
    rintro hi
    rw [(hfits.idle hi).state] at hs
    cases hs
  -- Of the settled states, only a receiver is `receiving`, and it is in no list.
  have hlink : d.link = none := by
    cases hfits.settled hne hout with
    | ready l state => simp [hs] at state
    | waiting dest state => simp [hs] at state
    | receiving state link => exact link
    | dead state => simp [hs] at state
  have hother : ∀ x, x ≠ p → (x ∈ p :: hand ↔ x ∈ hand) := fun x hx => by simp [hx]
  have distinct := List.nodup_cons.mpr ⟨hout, h.distinct⟩
  by_cases hd : d.deadline.isSome
  · have hperm := Timeouts.without_perm ((h.entry p).mpr ⟨d, hp, hd⟩)
    obtain ⟨hgone, hrest⟩ := List.nodup_cons.mp (hperm.nodup_iff.mpr h.entries)
    rw [cancel_of_some hp hd]
    refine h.change hp rfl rfl rfl rfl ?_ (fun dest => h.dest p d dest hp) distinct hother
      (h.member_same hp rfl) h.queue ?_ hrest
    · exact hfits.take hne ⟨rfl, rfl, rfl⟩ ⟨by simp [hs], by simp [hs], hlink, rfl⟩ List.mem_cons_self
    · intro x
      by_cases hx : x = p
      · simpa [hx] using hgone
      · rw [if_neg hx, ← hperm.mem_iff]
        simp [hx]
  · rw [cancel_of_none hp (by simpa using hd)]
    refine h.change hp (by rw [update_same hp]) rfl rfl rfl ?_ (fun dest => h.dest p d dest hp) distinct hother
      (h.member_same hp rfl) h.queue (h.entry_same hp rfl) h.entries
    exact hfits.take hne ⟨rfl, rfl, rfl⟩ ⟨by simp [hs], by simp [hs], hlink, by simpa using hd⟩ List.mem_cons_self

theorem cancel_held (h : P.Sound hand) (hp : p ∈ hand) : P.cancel p = P := by
  obtain ⟨d, hd, hh⟩ := h.found hp
  exact cancel_of_none hd hh.deadline

/-- The registry has room for a process in hand. -/
theorem room (h : P.Sound hand) (hp : p ∈ hand) : P.timeouts.size < Limits.processes := by
  obtain ⟨d, hd, hh⟩ := h.found hp
  have hnot : p ∉ P.timeouts.entries := by
    intro hmem
    obtain ⟨e, he, hdead⟩ := (h.entry p).mp hmem
    obtain rfl : d = e := Option.some_inj.mp (hd.symm.trans he)
    simp [hh.deadline] at hdead
  -- With `p` the entries are still distinct processes of the table.
  have hle : (p :: P.timeouts.entries).length ≤ P.size := by
    refine Pid.length_le (List.nodup_cons.mpr ⟨hnot, h.entries⟩) fun q hq => ?_
    rw [← h.known]
    rcases List.mem_cons.mp hq with rfl | hq
    · exact h.hand q hp
    · obtain ⟨e, he, -⟩ := (h.entry q).mp hq
      rw [he, Option.isSome_some]
  exact Nat.lt_of_lt_of_le hle h.size

theorem settle (h : P.Sound (p :: hand)) (hp : P.process p = some d) (hs : Settled d) : P.Sound hand := by
  obtain ⟨hout, distinct⟩ := List.nodup_cons.mp h.distinct
  exact h.change hp (by rw [update_same hp]) rfl rfl rfl ((h.fits p d hp).put (h.ne_idle List.mem_cons_self) ⟨rfl, rfl, rfl⟩ hs hout)
    (fun dest => h.dest p d dest hp) distinct (fun x hx => by simp [hx]) (h.member_same hp rfl) h.queue
    (h.entry_same hp rfl) h.entries

/-- A receiver in hand is put down with a deadline, if there is a timeout. -/
theorem setTimeout (h : P.Sound (p :: hand)) (hp : P.process p = some d) (hs : d.state = .receiving)
    (timeout : Option UInt32) : (P.setTimeout p timeout).Sound hand := by
  obtain ⟨hout, distinct⟩ := List.nodup_cons.mp h.distinct
  have hh := (h.fits p d hp).held List.mem_cons_self
  cases timeout with
  | none => exact h.settle hp (.receiving hs hh.link)
  | some ms =>
    have hnot : p ∉ P.timeouts.entries := by
      rw [h.entry]
      rintro ⟨e, he, hd⟩
      obtain rfl : d = e := Option.some_inj.mp (hp.symm.trans he)
      simp [hh.deadline] at hd
    simp only [Plain.setTimeout, modify_eq hp]
    refine h.change hp rfl rfl rfl rfl ?_ (fun dest => h.dest p d dest hp) distinct (fun x hx => by simp [hx])
      (h.member_same hp rfl) h.queue ?_ ?_
    · exact (h.fits p d hp).put (h.ne_idle List.mem_cons_self) ⟨rfl, rfl, rfl⟩ (.receiving hs hh.link) hout
    · intro x
      by_cases hx : x = p <;> simp [hx]
    · exact List.Nodup.append h.entries (List.nodup_singleton p) (List.disjoint_singleton.mpr hnot)

theorem receiving (h : P.Sound (p :: hand)) (filter : MessageType) :
    (P.modify p fun d => { d with state := .receiving, filter := filter }).Sound (p :: hand) ∧
      ∃ d, (P.modify p fun d => { d with state := .receiving, filter := filter }).process p = some d ∧
        d.state = .receiving ∧ d.link = none := by
  obtain ⟨d, hp, hh⟩ := h.found List.mem_cons_self
  refine ⟨h.modify hp rfl rfl ?_ h.distinct fun _ _ => Iff.rfl, { d with state := .receiving, filter := filter }, ?_,
    rfl, hh.link⟩
  · exact (h.fits p d hp).take (h.ne_idle List.mem_cons_self) ⟨rfl, rfl, rfl⟩
      ⟨by simp, by simp, hh.link, hh.deadline⟩ List.mem_cons_self
  · rw [modify_eq hp]
    exact Function.update_self ..

theorem block (h : P.Sound (P.current :: hand)) (filter : MessageType) (timeout : Option UInt32) :
    (P.block filter timeout).Sound hand := by
  obtain ⟨hmod, d, hp, hs, -⟩ := h.receiving filter
  exact (hmod.setTimeout hp hs timeout).emit _

theorem die (h : P.Sound (p :: hand)) : (P.modify p fun d => { d with state := .dead }).Sound hand := by
  obtain ⟨d, hp, hh⟩ := h.found List.mem_cons_self
  exact h.put hp ⟨rfl, rfl, rfl⟩ rfl rfl (.dead rfl hh.link hh.deadline)

/-! ### The processor -/

theorem charge (h : P.Sound hand) : P.charge.Sound hand := by
  cases hl : P.last with
  | none =>
    rw [charge_of_none hl]
    exact h.of_same rfl rfl rfl rfl h.last h.current
  | some p =>
    have hmod := h.modify_same p (f := fun d => { d with runtime := d.runtime + (P.uptime - P.chargedUntil) })
      fun d => ⟨rfl, rfl, rfl, rfl, rfl, rfl⟩
    rw [charge_of_some hl]
    exact hmod.of_same rfl rfl rfl rfl hmod.last hmod.current

/-- The process that runs next is in a ready queue. -/
theorem front? (h : P.Sound hand) {l : Level} (hf : P.front? = some (l, p)) :
    ∃ d, P.process p = some d ∧ d.link = some (.ready l) := by
  obtain ⟨l', -, hl⟩ := List.exists_of_findSome?_eq_some hf
  obtain ⟨x, hx, he⟩ := Option.map_eq_some_iff.mp hl
  cases he
  exact (h.member (.ready l) p).mp (List.mem_of_head? hx)

theorem pop (h : P.Sound []) : P.pop.Sound (inHand P.next) := by
  unfold Plain.next
  cases hf : P.front? with
  | none =>
    rw [pop_of_none hf]
    exact h
  | some front =>
    obtain ⟨l, p⟩ := front
    obtain ⟨d, hp, hl⟩ := h.front? hf
    have hfree := h.free hp hl
    rw [pop_of_some hf]
    show (P.free p (.ready l)).Sound (inHand p)
    rw [inHand, if_neg (hfree.ne_idle List.mem_cons_self)]
    exact hfree

theorem run (h : P.Sound hand) (hp : (P.process p).isSome) : (P.run p).Sound hand := by
  have hmod := h.modify_same p (f := fun d => { d with turns := min (d.turns + 1) Limits.turns })
    fun d => ⟨rfl, rfl, rfl, rfl, rfl, rfl⟩
  have hsome := (modify_isSome p (fun d => { d with turns := min (d.turns + 1) Limits.turns }) p).trans hp
  refine hmod.of_same rfl rfl rfl rfl ?_ hsome
  intro q hq
  cases hq
  exact hsome

/-- The process that runs next is the idle one or was ready. -/
theorem next (h : P.Sound []) : P.next = .idle ∨ ∃ d, P.process P.next = some d ∧ d.state = .active := by
  unfold Plain.next
  cases hf : P.front? with
  | none => exact Or.inl rfl
  | some front =>
    obtain ⟨l, p⟩ := front
    obtain ⟨d, hp, hl⟩ := h.front? hf
    have hne : p ≠ .idle := (h.free hp hl).ne_idle List.mem_cons_self
    refine Or.inr ⟨d, hp, ?_⟩
    -- What is in a ready queue is active: all other states have another link.
    cases (h.fits p d hp).settled hne List.not_mem_nil with
    | ready l' state => exact state
    | waiting dest state link => simp [hl] at link
    | receiving state link => simp [hl] at link
    | dead state link => simp [hl] at link

theorem reschedule (h : P.Sound []) (hr : P.running = true) : P.reschedule.Rests := by
  have hc := h.charge
  have hsome : (P.charge.pop.process P.charge.next).isSome := by
    rw [← isSome_read (g := fun _ => ()), pop_read (g := fun _ => ()) fun _ _ => rfl, isSome_read]
    rcases hc.next with hi | ⟨d, hd, -⟩
    · rw [hi]
      exact (hc.known .idle).mpr hc.inhabited
    · rw [hd, Option.isSome_some]
  have hstate : P.reschedule.read (·.state) = P.charge.read (·.state) := by
    rw [Plain.reschedule, run_read (g := (·.state)) fun _ _ => rfl, pop_read (g := (·.state)) fun _ _ => rfl]
  refine ⟨hc.pop.run hsome, fun d hd hne => ?_, fun hf => ?_⟩
  · rcases hc.next with hi | ⟨e, he, hs⟩
    · exact absurd hi hne
    · have hread := congrFun hstate P.charge.next
      have hd' : P.reschedule.process P.charge.next = some d := hd
      rw [read, read, hd', he, Option.map_some, Option.map_some, hs] at hread
      exact Option.some_inj.mp hread
  · have hrun : P.reschedule.running = P.running := by
      show P.charge.pop.running = P.running
      rw [pop_eq, charge_eq]
    -- The kernel is running, and only before the launch must the current process be the idle one.
    rw [hrun, hr] at hf
    cases hf

end Plain.Sound

end Rendezvous
