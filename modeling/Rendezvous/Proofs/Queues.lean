import Rendezvous.Proofs.Runs

/-! # The linked lists of a running kernel

In every kernel that a run reaches, the ready queues and the waiting lists run through the descriptors
without touching each other: each holds the processes whose link names it, and each walk along one ends. -/

namespace Rendezvous

/-- Whether a process waits for the processor. -/
def Descriptor.isReady (d : Descriptor) : Bool := d.link.any fun link => link matches .ready _

/-- From `head` on, the successors visit the processes whose link is `link`, each of them once. -/
structure Table.Holds (t : Table) (head : Option Pid) (link : Link) (members : List Pid) : Prop where
  path : Segment t.nextOf head members none
  distinct : members.Nodup
  member : ∀ p, p ∈ members ↔ t.linkOf p = some link
  walk : t.chain head = .ok members

namespace Table.Holds

variable {t : Table} {head : Option Pid} {link : Link} {members : List Pid}

theorem head_eq (h : t.Holds head link members) : head = members.head? := h.path.start_eq

/-- A list starts nowhere if no process is linked into it. -/
theorem head_eq_none (h : t.Holds head link members) : head = none ↔ ∀ p, t.linkOf p ≠ some link := by
  rw [h.head_eq, List.head?_eq_none_iff, List.eq_nil_iff_forall_not_mem]
  exact forall_congr' fun p => not_congr (h.member p)

end Table.Holds

theorem Lists.holds {q : ReadyQueues} {w : Pid → Option Pid} {t : Table} {queue : Link → List Pid}
    (h : Lists q w t queue) (link : Link) : t.Holds (heads q w link) link (queue link) where
  path := h.threaded.path link
  distinct := h.threaded.nodup link
  member := h.threaded.member link
  walk := Table.chain_segment (h.threaded.path link) fun p hp => by
    have hlink := (h.threaded.member link p).mp hp
    unfold Table.linkOf at hlink
    obtain ⟨d, hd, -⟩ := Option.bind_eq_some_iff.mp hlink
    rw [hd, Option.isSome_some]

namespace Kernel

/-- The process is in the list that `link` names: the walk along it comes to the process. -/
def Queued (k : Kernel) (p : Pid) (link : Link) : Prop :=
  k.table.linkOf p = some link ∧
    ∃ members, k.table.chain (heads k.scheduler.queues k.table.waitingOf link) = .ok members ∧ p ∈ members

/-- The process is in no list: no link of its names one, and no walk along a list comes to it. -/
def Unlisted (k : Kernel) (p : Pid) : Prop :=
  k.table.linkOf p = none ∧ ∀ link, ∃ members,
    k.table.chain (heads k.scheduler.queues k.table.waitingOf link) = .ok members ∧ p ∉ members

variable {k : Kernel} {P : Plain}

theorem Shows.queued (h : k.Shows P) {p : Pid} {d : Descriptor} {link : Link} (hd : k.process? p = some d)
    (hl : d.link = some link) : k.Queued p link := by
  have hlist := h.2.holds link
  have hlink : k.table.linkOf p = some link := (Table.linkOf_of_get? hd).trans hl
  exact ⟨hlink, P.queue link, hlist.walk, (hlist.member p).mpr hlink⟩

theorem Shows.unlisted (h : k.Shows P) {p : Pid} {d : Descriptor} (hd : k.process? p = some d) (hl : d.link = none) :
    k.Unlisted p := by
  have hlink : k.table.linkOf p = none := (Table.linkOf_of_get? hd).trans hl
  refine ⟨hlink, fun link => ?_⟩
  have hlist := h.2.holds link
  refine ⟨P.queue link, hlist.walk, fun hmem => ?_⟩
  cases hlink.symm.trans ((hlist.member p).mp hmem)

/-- The descriptors are in the order of their pids. -/
theorem Shows.pid_of_getElem? (h : k.Shows P) (hrest : P.Rests) {i : Nat} {d : Descriptor}
    (hd : k.table.processes[i]? = some d) : d.pid = Pid.ofIndex i ∧ d.pid.index = i := by
  have hi : i < k.table.size := (List.getElem?_eq_some_iff.mp hd).1
  have hsize : k.table.size = P.size := h.size.symm
  have hbound : k.table.size ≤ 32 := hsize ▸ hrest.sound.size
  have hindex : (Pid.ofIndex i).index = i := Pid.index_ofIndex (by omega)
  have hget : k.table.get? (Pid.ofIndex i) = some d := by rw [Table.get?, hindex, hd]
  have hpid : d.pid = Pid.ofIndex i :=
    (hrest.sound.fits _ d.plain (h.process_eq hget)).pid
  exact ⟨hpid, hpid ▸ hindex⟩

theorem Shows.get_of_mem (h : k.Shows P) (hrest : P.Rests) {d : Descriptor} (hd : d ∈ k.table.processes) :
    k.table.get? d.pid = some d := by
  obtain ⟨i, hi⟩ := List.mem_iff_getElem?.mp hd
  rw [Table.get?, (h.pid_of_getElem? hrest hi).2, hi]

theorem Shows.pids_nodup (h : k.Shows P) (hrest : P.Rests) : (k.table.processes.map (·.pid)).Nodup := by
  refine List.nodup_iff_injective_getElem.mpr fun i j hij => Fin.ext ?_
  have hindex : ∀ i (hi : i < (k.table.processes.map Descriptor.pid).length),
      (k.table.processes.map Descriptor.pid)[i].index = i := by
    intro i hi
    rw [List.getElem_map]
    rw [List.length_map] at hi
    exact (h.pid_of_getElem? hrest (List.getElem?_eq_getElem hi)).2
  rw [← hindex i i.isLt, ← hindex j j.isLt]
  exact congrArg Pid.index hij

/-- The ready processes are those of the three ready queues. -/
theorem Shows.ready_perm (h : k.Shows P) (hrest : P.Rests) :
    ((k.table.processes.filter (·.isReady)).map (·.pid)).Perm
      (P.queue (.ready .handler) ++ P.queue (.ready .high) ++ P.queue (.ready .low)) := by
  have hmem : ∀ link p, p ∈ P.queue link ↔ k.table.linkOf p = some link := h.2.threaded.member
  have hapart : ∀ {l l'}, l ≠ l' → ∀ p ∈ P.queue (.ready l), ∀ q ∈ P.queue (.ready l'), p ≠ q := by
    rintro l l' hl p hp _ hq rfl
    have hsame := ((hmem _ _).mp hp).symm.trans ((hmem _ _).mp hq)
    exact hl (Link.ready.inj (Option.some_inj.mp hsame))
  have hdistinct : (P.queue (.ready .handler) ++ P.queue (.ready .high) ++ P.queue (.ready .low)).Nodup := by
    refine List.nodup_append.mpr ⟨List.nodup_append.mpr ⟨hrest.sound.queue _, hrest.sound.queue _,
      hapart (by decide)⟩, hrest.sound.queue _, fun p hp => ?_⟩
    rcases List.mem_append.mp hp with hp | hp
    · exact hapart (by decide) p hp
    · exact hapart (by decide) p hp
  have hpids : ((k.table.processes.filter (·.isReady)).map (·.pid)).Nodup :=
    (h.pids_nodup hrest).sublist (List.filter_sublist.map _)
  -- Both sides are free of repetition, so it is enough that they have the same members.
  refine (List.perm_ext_iff_of_nodup hpids hdistinct).mpr fun p => ?_
  have hready : p ∈ P.queue (.ready .handler) ++ P.queue (.ready .high) ++ P.queue (.ready .low) ↔
      ∃ l, k.table.linkOf p = some (.ready l) := by
    simp only [List.mem_append, hmem]
    constructor
    · rintro ((hl | hl) | hl)
      · exact ⟨_, hl⟩
      · exact ⟨_, hl⟩
      · exact ⟨_, hl⟩
    · rintro ⟨l, hl⟩
      cases l
      · exact Or.inl (Or.inl hl)
      · exact Or.inl (Or.inr hl)
      · exact Or.inr hl
  rw [hready]
  constructor
  · intro hp
    obtain ⟨d, hd, rfl⟩ := List.mem_map.mp hp
    obtain ⟨hd, hr⟩ := List.mem_filter.mp hd
    obtain ⟨link, hlink, hr⟩ := (Option.any_eq_true ..).mp hr
    cases link with
    | ready l => exact ⟨l, by rw [Table.linkOf, h.get_of_mem hrest hd, Option.bind_some, hlink]⟩
    | waiting dest => cases hr
  · rintro ⟨l, hl⟩
    obtain ⟨d, hd, hlink⟩ := Option.bind_eq_some_iff.mp hl
    have hmem : d ∈ k.table.processes := List.mem_of_getElem? hd
    have hpid : d.pid = p := (hrest.sound.fits p d.plain (h.process_eq hd)).pid
    refine List.mem_map.mpr ⟨d, List.mem_filter.mpr ⟨hmem, ?_⟩, hpid⟩
    rw [Descriptor.isReady, hlink]
    rfl

theorem Shows.queuedAt (h : k.Shows P) (l : Level) :
    k.scheduler.queuedAt k.table l = .ok (P.queue (.ready l)).length := by
  have hwalk : k.table.chain (k.scheduler.queues.get l).head = .ok (P.queue (.ready l)) := (h.2.holds (.ready l)).walk
  rw [Scheduler.queuedAt, hwalk]
  rfl

theorem Shows.readyCount (h : k.Shows P) (hrest : P.Rests) :
    k.scheduler.readyCount k.table = .ok (k.table.processes.countP (·.isReady)) := by
  have hcount : k.table.processes.countP (·.isReady) = (P.queue (.ready .handler)).length +
      (P.queue (.ready .high)).length + (P.queue (.ready .low)).length := by
    have hlen := (h.ready_perm hrest).length_eq
    rwa [List.length_map, ← List.countP_eq_length_filter, List.length_append, List.length_append] at hlen
  rw [Scheduler.readyCount, h.queuedAt, h.queuedAt, h.queuedAt, hcount]
  rfl

/-- The lists of a kernel, as its heads, its tails and the successors of its processes have them. -/
structure WellLinked (k : Kernel) (members : Link → List Pid) : Prop where
  /-- A ready queue starts from its head. -/
  ready : ∀ l, k.table.Holds (k.scheduler.queues.get l).head (.ready l) (members (.ready l))
  tail : ∀ l, (k.scheduler.queues.get l).tail = (members (.ready l)).getLast?
  /-- A ready queue has a head if and only if it has a tail, and if and only if some process is in it. -/
  empty : ∀ l, ((k.scheduler.queues.get l).head = none ↔ (k.scheduler.queues.get l).tail = none) ∧
    ((k.scheduler.queues.get l).head = none ↔ ∀ p, k.table.linkOf p ≠ some (.ready l))
  /-- A waiting list starts from the descriptor of its receiver. -/
  waiting : ∀ dest, k.table.Holds (k.table.waitingOf dest) (.waiting dest) (members (.waiting dest))
  unlinked : ∀ p, k.table.linkOf p = none → k.table.nextOf p = none
  apart : ∀ link link', link ≠ link' → (members link).Disjoint (members link')
  queued : ∀ l, k.scheduler.queuedAt k.table l = .ok (members (.ready l)).length
  stats : ∃ st, k.stats = .ok st ∧ st.ready = k.table.processes.countP (·.isReady)

theorem Shows.wellLinked (h : k.Shows P) (hrest : P.Rests) : k.WellLinked P.queue where
  ready l := h.2.holds (.ready l)
  tail := h.2.tail
  empty l := by
    have hl : k.table.Holds (k.scheduler.queues.get l).head (.ready l) (P.queue (.ready l)) := h.2.holds (.ready l)
    refine ⟨?_, hl.head_eq_none⟩
    rw [hl.head_eq, h.2.tail, List.head?_eq_none_iff, List.getLast?_eq_none_iff]
  waiting dest := h.2.holds (.waiting dest)
  unlinked := h.2.threaded.alone
  apart _ _ hne := fun _ hp => h.2.threaded.not_mem_of_ne hp hne
  queued := h.queuedAt
  stats := by
    unfold Kernel.stats
    rw [h.readyCount hrest]
    exact ⟨_, rfl, rfl⟩

end Kernel

/-- In every kernel that a run reaches, each list holds exactly the processes linked into it, no process is in
    two lists, and the count of the ready ones is right. -/
theorem lists_well_linked {config : Config} {steps : List Step} {k : Kernel}
    (h : Run Call.Proper config steps k) : ∃ members, k.WellLinked members := by
  obtain ⟨P, hk, hrest⟩ := h.resting
  exact ⟨_, hk.wellLinked hrest⟩

theorem lists_well_linked_exchange : ∃ members, exchange.2.WellLinked members := lists_well_linked exchange_run.proper

end Rendezvous
