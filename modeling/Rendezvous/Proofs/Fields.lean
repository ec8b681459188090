import Rendezvous.Chain
import Rendezvous.Proofs.Threads

/-! A table as maps from pids: what the descriptors hold apart from their places in lists, the successor
    of each process and the head of its waiting list. Following a list of the table gives its members,
    and a table operation changes these maps at single places. -/

namespace Rendezvous

/-- Distinct pids below a bound are no more than the bound. -/
theorem Pid.length_le {l : List Pid} (distinct : l.Nodup) {n : Nat} (below : ∀ p ∈ l, p.index < n) : l.length ≤ n := by
  have hindex : (l.map Pid.index).Nodup := distinct.map fun a b h => Pid.index_inj.mp h
  have hsub : l.map Pid.index ⊆ List.range n := by
    intro i hi
    obtain ⟨p, hp, rfl⟩ := List.mem_map.mp hi
    exact List.mem_range.mpr (below p hp)
  have hle := hindex.length_le_of_subset hsub
  rwa [List.length_map, List.length_range] at hle

theorem update_same {α β : Type} [DecidableEq α] {f : α → β} {a : α} {b : β} (h : f a = b) :
    Function.update f a b = f := by
  rw [← h, Function.update_eq_self]

theorem getElem?_concat {α : Type} (l : List α) (a : α) (i : Nat) :
    (l ++ [a])[i]? = if i = l.length then some a else l[i]? := by
  split
  case isTrue hi => rw [hi, List.getElem?_concat_length]
  case isFalse hi =>
    rcases Nat.lt_or_gt_of_ne hi with hlt | hgt
    · exact List.getElem?_append_left hlt
    · rw [List.getElem?_eq_none (Nat.le_of_lt hgt), List.getElem?_eq_none]
      rw [List.length_append, List.length_singleton]
      exact hgt

namespace Descriptor

/-- The descriptor without its threads: neither its successor nor the head of its waiting list. -/
def plain (d : Descriptor) : Descriptor := { d with next := none, waiting := none }

@[simp] theorem plain_pid (d : Descriptor) : d.plain.pid = d.pid := rfl
@[simp] theorem plain_name (d : Descriptor) : d.plain.name = d.name := rfl
@[simp] theorem plain_state (d : Descriptor) : d.plain.state = d.state := rfl
@[simp] theorem plain_context (d : Descriptor) : d.plain.context = d.context := rfl
@[simp] theorem plain_stack (d : Descriptor) : d.plain.stack = d.stack := rfl
@[simp] theorem plain_priority (d : Descriptor) : d.plain.priority = d.priority := rfl
@[simp] theorem plain_pending (d : Descriptor) : d.plain.pending = d.pending := rfl
@[simp] theorem plain_filter (d : Descriptor) : d.plain.filter = d.filter := rfl
@[simp] theorem plain_slot (d : Descriptor) : d.plain.slot = d.slot := rfl
@[simp] theorem plain_deadline (d : Descriptor) : d.plain.deadline = d.deadline := rfl
@[simp] theorem plain_link (d : Descriptor) : d.plain.link = d.link := rfl
@[simp] theorem plain_runtime (d : Descriptor) : d.plain.runtime = d.runtime := rfl
@[simp] theorem plain_turns (d : Descriptor) : d.plain.turns = d.turns := rfl
@[simp] theorem plain_score (d : Descriptor) : d.plain.score = d.score := rfl
@[simp] theorem plain_isDead (d : Descriptor) : d.plain.isDead = d.isDead := rfl
@[simp] theorem plain_accepts (d : Descriptor) (ty : MessageType) : d.plain.accepts ty = d.accepts ty := rfl

end Descriptor

namespace Table

/-- The descriptors without their threads. -/
def plain (t : Table) (p : Pid) : Option Descriptor := (t.get? p).map Descriptor.plain

/-- The successor of a process in the list that it is in. -/
def nextOf (t : Table) (p : Pid) : Option Pid := (t.get? p).bind (·.next)

/-- The head of the waiting list of each process. -/
def waitingOf (t : Table) (p : Pid) : Option Pid := (t.get? p).bind (·.waiting)

/-- The list that a process is in. -/
def linkOf (t : Table) (p : Pid) : Option Link := (t.get? p).bind (·.link)

variable {t t' : Table} {p q : Pid} {d : Descriptor}

theorem get?_isSome_iff : (t.get? p).isSome ↔ p.index < t.size := by
  simp [get?, size]

theorem plain_eq_some (h : t.get? p = some d) : t.plain p = some d.plain := by
  rw [plain, h, Option.map_some]

theorem plain_isSome : (t.plain p).isSome = (t.get? p).isSome := Option.isSome_map

theorem linkOf_of_get? (h : t.get? p = some d) : t.linkOf p = d.link := by rw [linkOf, h, Option.bind_some]

theorem waitingOf_of_get? (h : t.get? p = some d) : t.waitingOf p = d.waiting := by
  rw [waitingOf, h, Option.bind_some]

theorem linkOf_eq (t : Table) (p : Pid) : t.linkOf p = (t.plain p).bind (·.link) := by
  rw [linkOf, plain, Option.bind_map]
  rfl

theorem get?_put (h : t.get? p = some d) (d' : Descriptor) :
    (t.put p d').get? = Function.update t.get? p (some d') := by
  funext q
  by_cases hq : q = p
  · rw [hq, Function.update_self]
    exact get?_put_self d' (get?_isSome_iff.mp (by rw [h, Option.isSome_some]))
  · rw [Function.update_of_ne hq, get?_put_ne t d' hq]

theorem plain_put (h : t.get? p = some d) (d' : Descriptor) :
    (t.put p d').plain = Function.update t.plain p (some d'.plain) := by
  funext q
  by_cases hq : q = p <;> simp [plain, get?_put h, hq]

theorem nextOf_put (h : t.get? p = some d) (d' : Descriptor) :
    (t.put p d').nextOf = Function.update t.nextOf p d'.next := by
  funext q
  by_cases hq : q = p <;> simp [nextOf, get?_put h, hq]

theorem waitingOf_put (h : t.get? p = some d) (d' : Descriptor) :
    (t.put p d').waitingOf = Function.update t.waitingOf p d'.waiting := by
  funext q
  by_cases hq : q = p <;> simp [waitingOf, get?_put h, hq]

theorem update_ok (h : t.get? p = some d) (f : Descriptor → Descriptor) : t.update p f = .ok (t.put p (f d)) :=
  update_eq_ok.mpr ⟨d, h, rfl⟩

/-- Whatever the threads, `t'` has what `t` has beside its descriptors. -/
structure SameStore (t t' : Table) : Prop where
  size : t'.size = t.size
  arena : t'.arena = t.arena
  frontier : t'.frontier = t.frontier

theorem SameStore.trans {t'' : Table} (h₁ : SameStore t t') (h₂ : SameStore t' t'') : SameStore t t'' :=
  ⟨h₂.size.trans h₁.size, h₂.arena.trans h₁.arena, h₂.frontier.trans h₁.frontier⟩

theorem SameStore.refl (t : Table) : SameStore t t := ⟨rfl, rfl, rfl⟩

theorem SameStore.put (t : Table) (p : Pid) (d : Descriptor) : SameStore t (t.put p d) :=
  ⟨size_put t p d, rfl, rfl⟩

theorem isSome_get?_put (t : Table) (p : Pid) (d : Descriptor) (q : Pid) :
    ((t.put p d).get? q).isSome = (t.get? q).isSome := by
  rw [Bool.eq_iff_iff, get?_isSome_iff, get?_isSome_iff, size_put]

theorem waitingOf_put_same (h : t.get? p = some d) {d' : Descriptor} (hw : d'.waiting = d.waiting) :
    (t.put p d').waitingOf = t.waitingOf := by
  rw [waitingOf_put h, hw]
  exact update_same (by rw [waitingOf, h, Option.bind_some])

theorem nextOf_put_same (h : t.get? p = some d) {d' : Descriptor} (hn : d'.next = d.next) :
    (t.put p d').nextOf = t.nextOf := by
  rw [nextOf_put h, hn]
  exact update_same (by rw [nextOf, h, Option.bind_some])

theorem any_put_same (h : t.get? p = some d) (d' : Descriptor) {holds : Descriptor → Bool} (same : holds d' = holds d)
    (q : Pid) : ((t.put p d').get? q).any holds = (t.get? q).any holds := by
  rw [get?_put h]
  by_cases hq : q = p
  · rw [hq, Function.update_self, h, Option.any_some, Option.any_some, same]
  · rw [Function.update_of_ne hq]

/-! ### Following a list -/

theorem follow_segment {start : Option Pid} {l : List Pid} (h : Segment t.nextOf start l none)
    (found : ∀ q ∈ l, (t.get? q).isSome) {bound : Nat} (hb : l.length ≤ bound) :
    t.follow bound start = .ok l := by
  induction l generalizing start bound with
  | nil =>
    obtain rfl : start = none := h
    rw [follow]
  | cons q rest ih =>
    obtain ⟨rfl, hrest⟩ := h
    obtain ⟨d, hd⟩ := Option.isSome_iff_exists.mp (found q List.mem_cons_self)
    obtain ⟨bound, rfl⟩ : ∃ n, bound = n + 1 := ⟨bound - 1, by simp at hb; omega⟩
    have hnext : t.nextOf q = d.next := by rw [nextOf, hd, Option.bind_some]
    rw [hnext] at hrest
    have htail := ih hrest (fun x hx => found x (List.mem_cons_of_mem q hx)) (by simpa using hb)
    rw [follow, fetch_eq_ok.mpr hd]
    show (do return q :: (← t.follow bound d.next)) = _
    rw [htail]
    rfl

theorem chain_segment {start : Option Pid} {l : List Pid} (h : Segment t.nextOf start l none)
    (found : ∀ q ∈ l, (t.get? q).isSome) : t.chain start = .ok l :=
  -- A list that ends has no more members than the table, which is as far as a walk goes.
  follow_segment h found (Pid.length_le h.nodup fun q hq => get?_isSome_iff.mp (found q hq))

/-- A list is followed as before once something has changed in a descriptor that is not in it. -/
theorem chain_put {start : Option Pid} {members : List Pid} (h : Segment t.nextOf start members none)
    (found : ∀ x ∈ members, (t.get? x).isSome) (hp : t.get? p = some d) (fresh : p ∉ members) (d' : Descriptor) :
    (t.put p d').chain start = .ok members := by
  refine chain_segment (h.congr fun x hx => ?_) fun x hx => (isSome_get?_put t p d' x).trans (found x hx)
  rw [nextOf_put hp, Function.update_of_ne (ne_of_mem_of_not_mem hx fresh)]

/-! ### Changing a thread -/

theorem setNext_ok (h : t.get? p = some d) (after : Option Pid) :
    ∃ t', t.setNext p after = .ok t' ∧ t'.nextOf = Function.update t.nextOf p after ∧
      t'.waitingOf = t.waitingOf ∧ t'.plain = t.plain ∧ SameStore t t' := by
  refine ⟨_, update_ok h _, nextOf_put h _, waitingOf_put_same h rfl, ?_, SameStore.put t p _⟩
  · have hp := plain_eq_some h
    rw [plain_put h]
    exact update_same hp

theorem setWaiting_ok (h : t.get? p = some d) (first : Option Pid) :
    ∃ t', t.setWaiting p first = .ok t' ∧ t'.nextOf = t.nextOf ∧
      t'.waitingOf = Function.update t.waitingOf p first ∧ t'.plain = t.plain ∧ SameStore t t' := by
  refine ⟨_, update_ok h _, nextOf_put_same h rfl, waitingOf_put h _, ?_, SameStore.put t p _⟩
  · have hp := plain_eq_some h
    rw [plain_put h]
    exact update_same hp

end Table

end Rendezvous
