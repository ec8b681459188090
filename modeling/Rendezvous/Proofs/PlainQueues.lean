import Rendezvous.Proofs.Lists

/-! # The scheduler and three plain lists

Alone with a table, the scheduler is three lists of processes: one that becomes ready goes into the list of its level,
where the policy wants it, and the one that runs next comes from the front of the most urgent list that is not empty.
Whatever else changes in the descriptors, and whatever successor is left in one that is in no queue. -/

namespace Rendezvous

namespace Priority

theorem level?_eq_some {priority : Priority} {l : Level} :
    priority.level? = some l ↔ l.index = priority.val.toNat := by
  obtain ⟨n⟩ := priority
  simp only [level?, handler, high, low, mk.injEq, ← UInt8.toNat_inj]
  split_ifs <;> cases l <;> simp_all [Level.index] <;> omega

theorem level?_eq_none {priority : Priority} : priority.level? = none ↔ 3 ≤ priority.val.toNat := by
  obtain ⟨n⟩ := priority
  simp only [level?, handler, high, low, mk.injEq, ← UInt8.toNat_inj]
  split_ifs <;> simp_all
  omega

end Priority

/-! ### Descriptors in no queue -/

/-- The descriptor, without the successor that may be left in it from a queue it is no longer in. -/
def Descriptor.tidy (d : Descriptor) : Descriptor := if d.link = none then { d with next := none } else d

/-- The table with such successors gone. -/
def Table.tidy (t : Table) : Table := { t with processes := t.processes.map Descriptor.tidy }

namespace Descriptor

variable {d : Descriptor}

@[simp] theorem tidy_plain (d : Descriptor) : d.tidy.plain = d.plain := by
  unfold tidy
  split <;> rfl

@[simp] theorem tidy_link (d : Descriptor) : d.tidy.link = d.link := by
  unfold tidy
  split <;> rfl

@[simp] theorem tidy_score (d : Descriptor) : d.tidy.score = d.score := by
  unfold tidy
  split <;> rfl

@[simp] theorem tidy_waiting (d : Descriptor) : d.tidy.waiting = d.waiting := by
  unfold tidy
  split <;> rfl

theorem tidy_of_linked (h : d.link ≠ none) : d.tidy = d := if_neg h

theorem tidy_next_of_free (h : d.link = none) : d.tidy.next = none := by rw [tidy, if_pos h]

end Descriptor

namespace Table

variable {t t' : Table} {p : Pid} {d : Descriptor}

@[simp] theorem get?_tidy (t : Table) (p : Pid) : t.tidy.get? p = (t.get? p).map Descriptor.tidy := by
  simp [tidy, get?]

@[simp] theorem plain_tidy (t : Table) : t.tidy.plain = t.plain := by
  funext p
  simp [plain, Option.map_map, Function.comp_def]

@[simp] theorem linkOf_tidy (t : Table) : t.tidy.linkOf = t.linkOf := by
  funext p
  rw [linkOf_eq, linkOf_eq, plain_tidy]

@[simp] theorem waitingOf_tidy (t : Table) : t.tidy.waitingOf = t.waitingOf := by
  funext p
  cases hp : t.get? p with
  | none => simp [waitingOf, hp]
  | some d => simp [waitingOf, hp, Descriptor.tidy_waiting]

@[simp] theorem size_tidy (t : Table) : t.tidy.size = t.size := by simp [tidy, size]

theorem tidy_put (t : Table) (p : Pid) (d : Descriptor) : (t.put p d).tidy = t.tidy.put p d.tidy := by
  simp [tidy, put, List.map_set]

theorem nextOf_tidy (t : Table) (p : Pid) : t.tidy.nextOf p = if t.linkOf p = none then none else t.nextOf p := by
  cases hp : t.get? p with
  | none => simp [nextOf, linkOf, hp]
  | some d =>
    by_cases hd : d.link = none
    · simp [nextOf, linkOf, hp, hd, Descriptor.tidy_next_of_free]
    · simp [nextOf, linkOf, hp, hd, Descriptor.tidy_of_linked]

theorem update_tidy {f g : Descriptor → Descriptor} (h : ∀ d, t.get? p = some d → (f d).tidy = g d.tidy) :
    t.tidy.update p g = (t.update p f).map tidy := by
  unfold update fetch
  rw [get?_tidy]
  cases hp : t.get? p with
  | none => rfl
  | some d =>
    show Except.ok (t.tidy.put p (g d.tidy)) = .ok (t.put p (f d)).tidy
    rw [tidy_put, h d hp]

theorem setNext_tidy (h : t.linkOf p ≠ none) (next : Option Pid) :
    t.tidy.setNext p next = (t.setNext p next).map tidy := by
  refine update_tidy fun d hd => ?_
  have hlink : d.link ≠ none := by rwa [linkOf, hd, Option.bind_some] at h
  rw [Descriptor.tidy_of_linked hlink]
  exact Descriptor.tidy_of_linked hlink

theorem isSome_of_size (size : t'.size = t.size) (p : Pid) : (t'.get? p).isSome = (t.get? p).isSome := by
  rw [Bool.eq_iff_iff, get?_isSome_iff, get?_isSome_iff, size]

theorem linkOf_put (h : t.get? p = some d) (d' : Descriptor) :
    (t.put p d').linkOf = Function.update t.linkOf p d'.link := by
  rw [linkOf_of_plain_update (plain_put h d'), Descriptor.plain_link]

theorem linkOf_put_same (h : t.get? p = some d) {d' : Descriptor} (hl : d'.link = d.link) :
    (t.put p d').linkOf = t.linkOf := by
  rw [linkOf_put h, hl]
  exact update_same (by rw [linkOf, h, Option.bind_some])

theorem linkOf_setNext {next : Option Pid} (h : t.setNext p next = .ok t') : t'.linkOf = t.linkOf := by
  obtain ⟨d, hd, -⟩ := update_eq_ok.mp h
  obtain ⟨t'', ht, -, -, hplain, -⟩ := setNext_ok hd next
  rw [h] at ht
  cases ht
  funext q
  rw [linkOf_eq, linkOf_eq, hplain]

end Table

namespace Lists

variable {q : ReadyQueues} {w : Pid → Option Pid} {t t' : Table} {queue : Link → List Pid} {p : Pid} {d : Descriptor}

theorem linked (h : Lists q w t.tidy queue) {link : Link} {p : Pid} (hp : p ∈ queue link) : t.linkOf p ≠ none := by
  have := (h.threaded.member link p).mp hp
  rw [Table.linkOf_tidy] at this
  rw [this]
  exact Option.some_ne_none _

theorem found_of_tidy (h : Lists q w t.tidy queue) {link : Link} {p : Pid} (hp : p ∈ queue link) :
    (t.get? p).isSome := by
  have := h.found hp
  rwa [Table.get?_tidy, Option.isSome_map] at this

theorem path_of_tidy (h : Lists q w t.tidy queue) (link : Link) :
    Segment t.nextOf (heads q w link) (queue link) none :=
  (h.threaded.path link).congr fun p hp => by rw [Table.nextOf_tidy, if_neg (h.linked hp)]

/-- The lists are the same with the successors of those that are in none. -/
theorem chain_of_tidy (h : Lists q w t.tidy queue) (link : Link) : t.chain (heads q w link) = .ok (queue link) :=
  Table.chain_segment (h.path_of_tidy link) fun _ hp => h.found_of_tidy hp

/-- What changes neither successors nor links leaves all lists as they are. -/
theorem of_threads (h : Lists q w t.tidy queue) (next : t'.nextOf = t.nextOf) (link : t'.linkOf = t.linkOf) :
    Lists q w t'.tidy queue := by
  have hnext : t'.tidy.nextOf = t.tidy.nextOf := by
    funext p
    rw [Table.nextOf_tidy, Table.nextOf_tidy, next, link]
  have hlink : t'.tidy.linkOf = t.tidy.linkOf := by rw [Table.linkOf_tidy, Table.linkOf_tidy, link]
  exact ⟨hnext ▸ hlink ▸ h.threaded, h.tail⟩

end Lists

namespace Scheduler

open Table

variable {s s' : Scheduler} {t t' : Table} {p : Pid} {d : Descriptor} {l : Level} {w : Pid → Option Pid}
  {queue : Link → List Pid}

/-! ### The calls do not look at such successors -/

theorem pushBack_tidy (htail : ∀ b, (s.queues.get l).tail = some b → t.linkOf b ≠ none) :
    s.pushBack t.tidy l p = (s.pushBack t l p).map fun x => (x.1, x.2.tidy) := by
  unfold pushBack
  dsimp only
  cases hb : (s.queues.get l).tail with
  | none => rfl
  | some b =>
    simp only [setNext_tidy (htail b hb)]
    cases t.setNext b (some p) <;> rfl

theorem insertByScore_tidy {members : List Pid} (hp : t.linkOf p ≠ none)
    (hchain : t.chain (s.queues.get l).head = .ok members) (htidy : t.tidy.chain (s.queues.get l).head = .ok members)
    (hlinked : ∀ x ∈ members, t.linkOf x ≠ none) :
    s.insertByScore t.tidy l p = (s.insertByScore t l p).map fun x => (x.1, x.2.tidy) := by
  obtain ⟨d, hd⟩ : ∃ d, t.get? p = some d := Option.ne_none_iff_exists'.mp fun hnone => hp (by simp [linkOf, hnone])
  have hd' : t.tidy.get? p = some d.tidy := by rw [get?_tidy, hd, Option.map_some]
  have hscore : ∀ x, ((t.tidy.get? x).any fun e => decide (e.score ≤ d.tidy.score)) =
      (t.get? x).any fun e => decide (e.score ≤ d.score) := fun x => by
    simp [Option.any_map]
  unfold insertByScore
  simp only [bind, Except.bind, fetch_eq_ok.mpr hd, fetch_eq_ok.mpr hd', hchain, htidy, hscore]
  generalize (fun x => (t.get? x).any fun e => decide (e.score ≤ d.score)) = before
  rw [setNext_tidy hp]
  cases h₁ : t.setNext p (members.dropWhile before).head? with
  | error e => rfl
  | ok t₁ =>
    simp only [Except.map]
    cases hlast : (members.takeWhile before).getLast? with
    | none => rfl
    | some b =>
      have hb : t₁.linkOf b ≠ none := by
        rw [linkOf_setNext h₁]
        exact hlinked b ((List.takeWhile_sublist _).subset (List.mem_of_getLast? hlast))
      simp only [setNext_tidy hb]
      cases t₁.setNext b (some p) <;> rfl

theorem enqueue_tidy (h : Lists s.queues w t.tidy queue) (hp : t.get? p = some d) (free : d.link = none) :
    s.enqueue (t.tidy.put p (Lists.woken d l)) l p =
      (s.enqueue (t.put p (Lists.woken d l)) l p).map fun x => (x.1, x.2.tidy) := by
  have hp' : t.tidy.get? p = some d.tidy := by rw [get?_tidy, hp, Option.map_some]
  have hfree : t.tidy.linkOf p = none := by rw [linkOf_tidy, linkOf, hp, Option.bind_some, free]
  have fresh : p ∉ queue (.ready l) := h.threaded.not_mem hfree _
  -- A process that becomes ready is linked, so nothing of it is tidied away.
  have hwoken : (t.put p (Lists.woken d l)).tidy = t.tidy.put p (Lists.woken d l) := by
    rw [tidy_put, Descriptor.tidy_of_linked (Option.some_ne_none _)]
  have hlink : (t.put p (Lists.woken d l)).linkOf = Function.update t.linkOf p (some (.ready l)) := linkOf_put hp _
  have hmember : ∀ x ∈ queue (.ready l), (t.put p (Lists.woken d l)).linkOf x ≠ none := fun x hx => by
    rw [hlink, Function.update_of_ne (ne_of_mem_of_not_mem hx fresh)]
    exact h.linked hx
  unfold enqueue
  rw [← hwoken]
  cases s.policy with
  | fifo =>
    refine pushBack_tidy fun b hb => hmember b ?_
    exact List.mem_of_getLast? ((h.tail l).symm.trans hb)
  | scored =>
    refine insertByScore_tidy (by simp [hlink]) ?_ ?_ hmember
    · exact chain_put (h.path_of_tidy (.ready l)) (fun _ hx => h.found_of_tidy hx) hp fresh _
    · rw [hwoken]
      exact chain_put (h.threaded.path (.ready l)) (fun _ hx => h.found hx) hp' fresh _

/-- A process that is not linked goes where the policy wants it, whatever successor was left in it. -/
theorem makeReady_done (h : Lists s.queues w t.tidy queue) (hp : t.get? p = some d) (free : d.link = none)
    (alive : d.isDead = false) (hl : d.priority.level? = some l) :
    ∃ s' t', s.makeReady t p = .done () (s', t') ∧ s' = { s with queues := s'.queues } ∧
      Lists s'.queues w t'.tidy (Function.update queue (.ready l)
        (s.policy.insert (fun x => (t.get? x).any (·.score ≤ d.score)) (queue (.ready l)) p)) ∧
      t'.plain = Function.update t.plain p (some (Lists.woken d l).plain) ∧ t'.waitingOf = t.waitingOf ∧
      t'.size = t.size := by
  have hp' : t.tidy.get? p = some d.tidy := by rw [get?_tidy, hp, Option.map_some]
  have hwoken : Lists.woken d.tidy l = Lists.woken d l := by
    unfold Lists.woken Descriptor.tidy
    split <;> rfl
  have hscore : (fun x => (t.tidy.plain x).any (·.score ≤ d.tidy.score)) =
      fun x => (t.get? x).any (·.score ≤ d.score) := by
    funext x
    simp [plain, Option.any_map]
  obtain ⟨s', u, hrun, hs, hlists, hwait, hplain, hstore⟩ := h.enqueue (l := l) hp' (d.tidy_link.trans free)
  -- What the queues do with the tidy table they do with the table as it is.
  rw [hwoken, enqueue_tidy h hp free] at hrun
  rw [hscore] at hlists
  cases hq : s.enqueue (t.put p (Lists.woken d l)) l p with
  | error e =>
    rw [hq] at hrun
    cases hrun
  | ok queued =>
    rw [hq] at hrun
    cases hrun
    refine ⟨queued.1, queued.2, ?_, hs, hlists, ?_, by simpa using hwait, by simpa using hstore.size⟩
    · rw [Lists.woken] at hq
      simp [makeReady, hp, hl, alive, free, hq]
    · rw [← plain_tidy, hplain, plain_tidy, hwoken]

theorem charge_done (last : ∀ p, s.last = some p → (t.get? p).isSome) (now : Nat) :
    ∃ s' t', s.charge t now = .ok (s', t') ∧ s' = { s with chargedUntil := now } ∧ t'.nextOf = t.nextOf ∧
      t'.linkOf = t.linkOf ∧ t'.size = t.size := by
  unfold charge
  cases hlast : s.last with
  | none => exact ⟨_, t, rfl, rfl, rfl, rfl, rfl⟩
  | some p =>
    obtain ⟨d, hd⟩ := Option.isSome_iff_exists.mp (last p hlast)
    simp only [update_ok hd]
    exact ⟨_, _, rfl, by simp, nextOf_put_same hd rfl, linkOf_put_same hd rfl, size_put ..⟩

theorem pop_tidy (head : ∀ l p, s.front? = some (l, p) → t.linkOf p ≠ none) :
    s.pop t.tidy = (s.pop t).map fun x => (x.1, x.2.1, x.2.2.tidy) := by
  unfold pop
  cases hfront : s.front? with
  | none => rfl
  | some lp =>
    obtain ⟨l, p⟩ := lp
    have hp := head l p hfront
    obtain ⟨d, hd⟩ : ∃ d, t.get? p = some d := Option.ne_none_iff_exists'.mp fun hnone => hp (by simp [linkOf, hnone])
    have hlink : d.link ≠ none := by rwa [linkOf, hd, Option.bind_some] at hp
    have hd' : t.tidy.get? p = some d := by rw [get?_tidy, hd, Option.map_some, Descriptor.tidy_of_linked hlink]
    simp only [bind, Except.bind, fetch_eq_ok.mpr hd, fetch_eq_ok.mpr hd', update_ok hd, update_ok hd']
    simp only [pure, Except.pure, Except.map, tidy_put]
    rfl

/-- The front of the most urgent queue that is not empty goes out of it. -/
theorem pop_done (h : Lists s.queues w t.tidy queue) (hfront : s.front? = some (l, p)) :
    ∃ s' t' rest, queue (.ready l) = p :: rest ∧ s.pop t = .ok (some p, s', t') ∧ s' = { s with queues := s'.queues } ∧
      Lists s'.queues w t'.tidy (Function.update queue (.ready l) rest) ∧ t'.size = t.size := by
  obtain ⟨d, s', u, rest, hq, hd, hrun, hs, hlists, -, -, hstore⟩ := h.pop hfront
  have hhead : ∀ l p, s.front? = some (l, p) → t.linkOf p ≠ none := fun l' p' hfront' => by
    obtain ⟨_, _, _, _, hq', -⟩ := h.pop hfront'
    exact h.linked (show p' ∈ queue (.ready l') by simp [hq'])
  rw [pop_tidy hhead] at hrun
  cases hpop : s.pop t with
  | error e =>
    rw [hpop] at hrun
    cases hrun
  | ok popped =>
    rw [hpop] at hrun
    obtain ⟨head, s₁, t₁⟩ := popped
    cases hrun
    exact ⟨s₁, t₁, rest, hq, rfl, hs, hlists, by simpa using hstore.size⟩

/-! ### The other answers -/

theorem makeReady_of_none (hp : t.get? p = some d) (hl : d.priority.level? = none) :
    s.makeReady t p = .done () (s, t) := by
  simp [makeReady, hp, hl]

theorem makeReady_of_dead (hp : t.get? p = some d) (hl : d.priority.level? = some l) (dead : d.isDead = true) :
    s.makeReady t p = .refuse (.badState p d.state "make_ready") (s, t) := by
  simp [makeReady, hp, hl, dead]

theorem makeReady_of_linked (hp : t.get? p = some d) (hl : d.priority.level? = some l) (alive : d.isDead = false)
    (linked : d.link ≠ none) : s.makeReady t p = .refuse (.alreadyQueued p) (s, t) := by
  simp [makeReady, hp, hl, alive, Option.isSome_iff_ne_none.mpr linked]

/-! ### Three lists -/

/-- The lists after a process has been made ready. -/
def enlist (policy : Policy) (t : Table) (lists : Level → List Pid) (p : Pid) (d : Descriptor) : Level → List Pid :=
  match d.priority.level? with
  | none => lists
  | some l =>
    if d.isDead || Level.all.any fun l => lists l |>.contains p then lists
    else Function.update lists l (policy.insert (fun x => (t.get? x).any (·.score ≤ d.score)) (lists l) p)

/-- Who runs next, and the lists without it. -/
def advance (lists : Level → List Pid) : Pid × (Level → List Pid) :=
  match Level.all.findSome? fun l => (lists l).head?.map (l, ·) with
  | none => (.idle, lists)
  | some (l, p) => (p, Function.update lists l (lists l).tail)

/-- A scheduler and a table after some calls, with descriptors changed in between, and three lists after the same. -/
inductive Follows : Scheduler → Table → (Level → List Pid) → Prop where
  | new (policy : Policy) {t : Table} (unlinked : ∀ d ∈ t.processes, d.link = none) (idle : (t.get? .idle).isSome) :
      Follows { policy := policy } t fun _ => []
  | makeReady {s : Scheduler} {t : Table} {lists : Level → List Pid} {p : Pid} {d : Descriptor} (h : Follows s t lists)
      (hp : t.get? p = some d) :
      Follows (s.makeReady t p).state.1 (s.makeReady t p).state.2 (enlist s.policy t lists p d)
  | chooseNext {s s' : Scheduler} {t t' : Table} {lists : Level → List Pid} {now : Nat} {next : Pid}
      (h : Follows s t lists) (done : (s.chooseNext t now).outcome = .ok (next, s', t')) :
      Follows s' t' (advance lists).2
  | charge {s s' : Scheduler} {t t' : Table} {lists : Level → List Pid} {now : Nat} (h : Follows s t lists)
      (done : s.charge t now = .ok (s', t')) : Follows s' t' lists
  | other {s : Scheduler} {t t' : Table} {lists : Level → List Pid} (h : Follows s t lists) (size : t'.size = t.size)
      (next : t'.nextOf = t.nextOf) (link : t'.linkOf = t.linkOf) : Follows s t' lists

/-- The lists of all queues: the ready ones, and nobody waits for a receiver. -/
def readyOnly (lists : Level → List Pid) : Link → List Pid
  | .ready l => lists l
  | .waiting _ => []

theorem readyOnly_update (lists : Level → List Pid) (l : Level) (members : List Pid) :
    readyOnly (Function.update lists l members) = Function.update (readyOnly lists) (.ready l) members := by
  funext link
  cases link with
  | waiting dest => simp [readyOnly]
  | ready l' => by_cases hl : l' = l <;> simp [readyOnly, hl]

/-- The queues hold the lists, and those whom the scheduler refers to exist. -/
structure Holds (s : Scheduler) (t : Table) (lists : Level → List Pid) : Prop where
  lists : Lists s.queues (fun _ => none) t.tidy (readyOnly lists)
  idle : (t.get? .idle).isSome
  last : ∀ p, s.last = some p → (t.get? p).isSome

namespace Holds

variable {lists : Level → List Pid}

theorem new (policy : Policy) (unlinked : ∀ d ∈ t.processes, d.link = none) (idle : (t.get? .idle).isSome) :
    Holds { policy := policy } t fun _ => [] := by
  have hlink : ∀ p, t.linkOf p = none := fun p => by
    cases hp : t.get? p with
    | none => simp [linkOf, hp]
    | some d => simp [linkOf, hp, unlinked d (List.mem_of_getElem? hp)]
  refine ⟨⟨⟨fun link => ?_, fun link p => ?_, fun p _ => ?_⟩, fun l => ?_⟩, idle, fun p hp => by cases hp⟩
  · rcases link with l | dest
    · cases l <;> rfl
    · rfl
  · rw [linkOf_tidy, hlink]
    cases link <;> simp [readyOnly]
  · rw [nextOf_tidy, if_pos (hlink p)]
  · cases l <;> rfl

theorem link_iff (h : Holds s t lists) (p : Pid) (link : Link) :
    t.linkOf p = some link ↔ ∃ l, link = .ready l ∧ p ∈ lists l := by
  rw [← linkOf_tidy, ← h.lists.threaded.member]
  cases link <;> simp [readyOnly]

theorem listed_iff (h : Holds s t lists) (hp : t.get? p = some d) :
    (Level.all.any fun l => lists l |>.contains p) = true ↔ d.link ≠ none := by
  have hlink : t.linkOf p = d.link := by rw [linkOf, hp, Option.bind_some]
  rw [← hlink, Option.ne_none_iff_exists']
  simp only [h.link_iff, List.any_eq_true, List.contains_iff_mem]
  constructor
  · rintro ⟨l, -, hl⟩
    exact ⟨_, l, rfl, hl⟩
  · rintro ⟨_, l, -, hl⟩
    exact ⟨l, by cases l <;> simp [Level.all], hl⟩

theorem enlist_of_free (h : Holds s t lists) (hp : t.get? p = some d) (hl : d.priority.level? = some l)
    (alive : d.isDead = false) (free : d.link = none) :
    enlist s.policy t lists p d =
      Function.update lists l (s.policy.insert (fun x => (t.get? x).any (·.score ≤ d.score)) (lists l) p) := by
  have hnot : (Level.all.any fun l => lists l |>.contains p) = false :=
    Bool.eq_false_iff.mpr fun hlisted => (h.listed_iff hp).mp hlisted free
  simp only [enlist, hl, alive, hnot, Bool.or_self]
  rfl

theorem makeReady (h : Holds s t lists) (hp : t.get? p = some d) :
    Holds (s.makeReady t p).state.1 (s.makeReady t p).state.2 (enlist s.policy t lists p d) := by
  cases hl : d.priority.level? with
  | none =>
    rw [makeReady_of_none hp hl, enlist, hl]
    exact h
  | some l =>
    by_cases hdead : d.isDead = true
    · have hstays : enlist s.policy t lists p d = lists := by simp [enlist, hl, hdead]
      rw [makeReady_of_dead hp hl hdead, hstays]
      exact h
    · have alive : d.isDead = false := by simpa using hdead
      by_cases free : d.link = none
      · obtain ⟨s', t', hrun, hs, hlists, -, -, hsize⟩ := makeReady_done h.lists hp free alive hl
        rw [hrun, h.enlist_of_free hp hl alive free]
        refine ⟨?_, (isSome_of_size hsize .idle).trans h.idle, fun x hx => ?_⟩
        · rw [readyOnly_update]
          exact hlists
        · rw [hs] at hx
          exact (isSome_of_size hsize x).trans (h.last x hx)
      · have hlisted := (h.listed_iff hp).mpr free
        have hstays : enlist s.policy t lists p d = lists := by
          simp only [enlist, hl, hlisted, Bool.or_true]
          rfl
        rw [makeReady_of_linked hp hl alive free, hstays]
        exact h

theorem of_threads (h : Holds s t lists) {s' : Scheduler} (queues : s'.queues = s.queues)
    (last : ∀ p, s'.last = some p → (t'.get? p).isSome) (size : t'.size = t.size) (next : t'.nextOf = t.nextOf)
    (link : t'.linkOf = t.linkOf) : Holds s' t' lists :=
  ⟨queues ▸ h.lists.of_threads next link, (isSome_of_size size .idle).trans h.idle, last⟩

theorem charge (h : Holds s t lists) (now : Nat) :
    ∃ s' t', s.charge t now = .ok (s', t') ∧ s'.last = s.last ∧ Holds s' t' lists := by
  obtain ⟨s', t', hrun, hs, hnext, hlink, hsize⟩ := charge_done h.last now
  refine ⟨s', t', hrun, by rw [hs], h.of_threads (by rw [hs]) (fun p hp => ?_) hsize hnext hlink⟩
  rw [hs] at hp
  exact (isSome_of_size hsize p).trans (h.last p hp)

theorem pop (h : Holds s t lists) :
    ∃ head s' t', s.pop t = .ok (head, s', t') ∧ head.getD .idle = (advance lists).1 ∧ s'.last = s.last ∧
      t'.size = t.size ∧ Holds s' t' (advance lists).2 ∧ (t.get? (advance lists).1).isSome := by
  have hfront : s.front? = Level.all.findSome? fun l => (lists l).head?.map (l, ·) := h.lists.front?_eq
  unfold advance
  rw [← hfront]
  cases hfirst : s.front? with
  | none =>
    have hrun : s.pop t = .ok (none, s, t) := by
      unfold Scheduler.pop
      rw [hfirst]
      rfl
    exact ⟨none, s, t, hrun, rfl, rfl, rfl, h, h.idle⟩
  | some front =>
    obtain ⟨l, p⟩ := front
    obtain ⟨s', t', rest, hq, hrun, hs, hlists, hsize⟩ := pop_done h.lists hfirst
    have hl : lists l = p :: rest := hq
    have hfound : (t.get? p).isSome := h.lists.found_of_tidy (show p ∈ readyOnly lists (.ready l) by simp [hq])
    refine ⟨some p, s', t', hrun, rfl, by rw [hs], hsize, ⟨?_, (isSome_of_size hsize .idle).trans h.idle, ?_⟩, hfound⟩
    · dsimp only
      rw [hl, List.tail_cons, readyOnly_update]
      exact hlists
    · rw [hs]
      exact fun x hx => (isSome_of_size hsize x).trans (h.last x hx)

theorem chooseNext (h : Holds s t lists) (now : Nat) :
    ∃ s' t', (s.chooseNext t now).outcome = .ok ((advance lists).1, s', t') ∧ Holds s' t' (advance lists).2 := by
  obtain ⟨s₁, t₁, hcharge, -, h₁⟩ := h.charge now
  obtain ⟨head, s₂, t₂, hpop, hnext, -, hsize, h₂, hfound⟩ := h₁.pop
  generalize hadvance : advance lists = turn at hnext h₂ hfound ⊢
  obtain ⟨next, left⟩ := turn
  obtain ⟨d, hd⟩ := Option.isSome_iff_exists.mp ((isSome_of_size hsize next).trans hfound)
  obtain ⟨t₃, ht₃⟩ : ∃ t, t = t₂.put next { d with turns := min (d.turns + 1) Limits.turns } := ⟨_, rfl⟩
  have hd₃ : t₃.get? next = some { d with turns := min (d.turns + 1) Limits.turns } := by
    rw [ht₃, get?_put hd, Function.update_self]
  obtain ⟨s₃, hpick, hs₃⟩ : ∃ s₃, s.pick t now = .ok (next, s₃, t₃) ∧ s₃.queues = s₂.queues ∧ s₃.last = some next := by
    unfold Scheduler.pick
    simp only [hcharge, hpop, Bind.bind, Except.bind, hnext, update_ok hd, ← ht₃]
    exact ⟨_, rfl, rfl, rfl⟩
  refine ⟨s₃, t₃, ?_, h₂.of_threads hs₃.1 (fun p hp => ?_) ?_ ?_ ?_⟩
  · unfold Scheduler.chooseNext
    rw [hpick]
    show (Traced.lift (t₃.fetch next) >>= _).outcome = _
    rw [fetch_eq_ok.mpr hd₃]
    rfl
  · rw [hs₃.2] at hp
    cases hp
    rw [hd₃, Option.isSome_some]
  · rw [ht₃, size_put]
  · rw [ht₃]
    exact nextOf_put_same hd rfl
  · rw [ht₃]
    exact linkOf_put_same hd rfl

end Holds

theorem Follows.holds {lists : Level → List Pid} (h : Follows s t lists) : Holds s t lists := by
  induction h with
  | new policy unlinked idle => exact .new policy unlinked idle
  | makeReady _ hp ih => exact ih.makeReady hp
  | @chooseNext _ _ _ _ _ now _ _ done ih =>
    obtain ⟨s', t', hrun, hholds⟩ := ih.chooseNext now
    rw [hrun] at done
    cases done
    exact hholds
  | @charge _ _ _ _ _ now _ done ih =>
    obtain ⟨s', t', hrun, -, hholds⟩ := ih.charge now
    rw [hrun] at done
    cases done
    exact hholds
  | other _ size next link ih =>
    exact ih.of_threads rfl (fun p hp => (isSome_of_size size p).trans (ih.last p hp)) size next link

/-- The scheduler does with its queues what is said of the three lists, whatever happens to other fields in between. -/
theorem queues_are_plain_lists {lists : Level → List Pid} (h : Follows s t lists) :
    (∀ l, t.chain (s.queues.get l).head = .ok (lists l)) ∧
    (∀ p link, t.linkOf p = some link ↔ ∃ l, link = .ready l ∧ p ∈ lists l) ∧
    (∀ p d, t.get? p = some d →
      (3 ≤ d.priority.val.toNat → s.makeReady t p = .done () (s, t)) ∧
      (d.priority.val.toNat < 3 → d.state = .dead →
        s.makeReady t p = .refuse (.badState p d.state "make_ready") (s, t)) ∧
      (d.priority.val.toNat < 3 → d.state ≠ .dead → d.link ≠ none →
        s.makeReady t p = .refuse (.alreadyQueued p) (s, t)) ∧
      ∀ l, l.index = d.priority.val.toNat → d.state ≠ .dead → d.link = none →
        (∃ s' t', s.makeReady t p = .done () (s', t') ∧ t'.waitingOf = t.waitingOf ∧
          t'.plain = Function.update t.plain p (some { d.plain with state := .active, link := some (.ready l) })) ∧
        enlist s.policy t lists p d = Function.update lists l
          (s.policy.insert (fun x => (t.get? x).any (·.score ≤ d.score)) (lists l) p)) ∧
    (∀ now, ∃ s' t', (s.chooseNext t now).outcome = .ok ((advance lists).1, s', t')) ∧
    (∀ now, ∃ s' t', s.charge t now = .ok (s', t')) ∧
    ∀ priority, s.queued t priority = .ok (priority.level?.elim 0 fun l => (lists l).length) := by
  have hholds := h.holds
  have hchain : ∀ l, t.chain (s.queues.get l).head = .ok (lists l) := fun l => hholds.lists.chain_of_tidy (.ready l)
  have halive : ∀ d : Descriptor, d.state ≠ .dead ↔ d.isDead = false := fun d => by simp [Descriptor.isDead]
  refine ⟨hchain, hholds.link_iff, fun p d hp => ⟨fun hl => ?_, fun hl dead => ?_, fun hl alive linked => ?_,
    fun l hl alive free => ?_⟩, fun now => ?_, fun now => ?_, fun priority => ?_⟩
  · exact makeReady_of_none hp (Priority.level?_eq_none.mpr hl)
  · obtain ⟨l, hl⟩ := Option.ne_none_iff_exists'.mp (mt Priority.level?_eq_none.mp (Nat.not_le.mpr hl))
    exact makeReady_of_dead hp hl (by simpa [Descriptor.isDead] using dead)
  · obtain ⟨l, hl⟩ := Option.ne_none_iff_exists'.mp (mt Priority.level?_eq_none.mp (Nat.not_le.mpr hl))
    exact makeReady_of_linked hp hl ((halive d).mp alive) linked
  · have hl' := Priority.level?_eq_some.mpr hl
    obtain ⟨s', t', hrun, -, -, hplain, hwaiting, -⟩ := makeReady_done hholds.lists hp free ((halive d).mp alive) hl'
    exact ⟨⟨s', t', hrun, hwaiting, hplain⟩, hholds.enlist_of_free hp hl' ((halive d).mp alive) free⟩
  · obtain ⟨s', t', hrun, -⟩ := hholds.chooseNext now
    exact ⟨s', t', hrun⟩
  · obtain ⟨s', t', hrun, -⟩ := hholds.charge now
    exact ⟨s', t', hrun⟩
  · unfold queued
    cases priority.level? with
    | none => rfl
    | some l =>
      simp only [queuedAt, hchain]
      rfl

/-- The idle process and two others, the first of which has used more time and has an old successor left in it. -/
def trio : Table :=
  ⟨[{ Descriptor.fresh .idle "idle" ⟨0, 1⟩ with state := .idling, priority := .idle },
    { Descriptor.fresh ⟨1⟩ "a" ⟨1, 1⟩ with runtime := 7, next := some ⟨2⟩ }, .fresh ⟨2⟩ "b" ⟨2, 1⟩], .zero, 3⟩

theorem queues_are_plain_lists_trio : ∃ s t lists, Follows s t lists ∧ lists .low = [⟨2⟩, ⟨1⟩] ∧
    ∃ s' t', (s.chooseNext t 5).outcome = .ok (⟨2⟩, s', t') := by
  have h₀ := Follows.new .scored (t := trio) (by decide) (by decide)
  have h₁ := h₀.makeReady (p := ⟨1⟩) rfl
  have h₂ := h₁.makeReady (p := ⟨2⟩) rfl
  exact ⟨_, _, _, h₂, rfl, (queues_are_plain_lists h₂).2.2.2.1 5⟩

end Scheduler

end Rendezvous
