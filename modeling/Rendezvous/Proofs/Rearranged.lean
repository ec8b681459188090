import Rendezvous.Scheduler
import Rendezvous.Timeouts

/-! # What lists, the scheduler and the timeouts leave alone

Whatever the lists of a table look like, well linked or not, an operation on them that returns changes nothing
but the places of processes, their deadlines and their turns at the processor. No process dies of it, and none
but the one that is added to a waiting list gets into one. -/

namespace Rendezvous

/-- The value of an operation, if it has one, is as `post` tells. -/
def Yields {α : Type} (r : Except Stop α) (post : α → Prop) : Prop := ∀ a, r = .ok a → post a

namespace Yields

variable {α β : Type} {r : Except Stop α} {f : α → Except Stop β} {P : α → Prop} {Q : β → Prop}

theorem ok {a : α} (h : P a) : Yields (.ok a) P := fun b hb => by
  obtain rfl := Except.ok.inj hb
  exact h

theorem error (s : Stop) : Yields (.error s) P := fun _ ha => by cases ha

theorem bind (hr : Yields r P) (hf : ∀ a, P a → Yields (f a) Q) : Yields (r >>= f) Q := fun b hb => by
  cases r with
  | error s => cases hb
  | ok a => exact hf a (hr a rfl) b hb

theorem map {g : α → β} (hr : Yields r P) (hg : ∀ a, P a → Q (g a)) : Yields (r.map g) Q := fun b hb => by
  cases r with
  | error s => cases hb
  | ok a =>
    obtain rfl := Except.ok.inj hb
    exact hg a (hr a rfl)

/-- What comes before a step may be anything. -/
theorem skip (hf : ∀ a, Yields (f a) Q) : Yields (r >>= f) Q :=
  bind (P := fun _ => True) (fun _ _ => trivial) fun a _ => hf a

end Yields

/-- A list with one member replaced, seen through `g`. -/
theorem map_set_eq_modify {α β : Type} {g : α → β} {f : β → β} {l : List α} {i : Nat} {a a' : α} (h : l[i]? = some a)
    (hg : g a' = f (g a)) : (l.set i a').map g = (l.map g).modify i f := by
  obtain ⟨hi, rfl⟩ := List.getElem?_eq_some_iff.mp h
  refine List.ext_getElem? fun j => ?_
  rw [List.getElem?_map, List.getElem?_set, List.getElem?_modify, List.getElem?_map]
  by_cases hj : i = j
  · subst hj
    simp [hi, hg]
  · simp [hj]

/-- What a process cannot end by itself: it is dead, or it is in the waiting list of another one. -/
inductive Plight where
  | dead
  | waiting (dest : Pid)

/-- Which processes may get into which plights. -/
abbrev Grant := Pid → Plight → Prop

namespace Descriptor

/-- The descriptor without its place in lists, its deadline and its turns at the processor. -/
def bare (d : Descriptor) : Descriptor :=
  { d with state := .active, deadline := none, waiting := none, next := none, link := none, runtime := 0, turns := 0 }

/-- Whether a process is in a plight. -/
def Suffers (d : Descriptor) : Plight → Prop
  | .dead => d.state = .dead
  | .waiting dest => d.link = some (.waiting dest)

variable {d d' : Descriptor} {x : Plight}

/-- A process in a new state that is not death was in its plight before. -/
theorem Suffers.of_state (h : d'.Suffers x) (hs : d'.state ≠ .dead) (hl : d'.link = d.link) : d.Suffers x := by
  cases x with
  | dead => exact absurd h hs
  | waiting dest => exact hl.symm.trans h

theorem Suffers.of_unlinked (h : d'.Suffers x) (hl : d'.link = none) (hs : d'.state = d.state) : d.Suffers x := by
  cases x with
  | dead => exact hs.symm.trans h
  | waiting dest => cases hl.symm.trans h

/-- A process that is ready is in no plight. -/
theorem Suffers.not_ready {l : Level} (h : d.Suffers x) (hs : d.state = .active) (hl : d.link = some (.ready l)) :
    False := by
  cases x with
  | dead => cases hs.symm.trans h
  | waiting dest => cases hl.symm.trans h

end Descriptor

namespace Table

variable {t t' t'' : Table} {gr : Grant} {p dest src : Pid} {d d' : Descriptor}

/-- Whether a process of the table is in a plight. -/
def Suffers (t : Table) (p : Pid) (x : Plight) : Prop := ∃ d, t.get? p = some d ∧ d.Suffers x

/-- Processes get into plights only as granted. -/
def Spares (t : Table) (gr : Grant) (t' : Table) : Prop := ∀ p x, t'.Suffers p x → t.Suffers p x ∨ gr p x

namespace Spares

theorem refl (t : Table) (gr : Grant) : t.Spares gr t := fun _ _ => .inl

theorem trans (h : t.Spares gr t') (h' : t'.Spares gr t'') : t.Spares gr t'' := fun p x hx => by
  rcases h' p x hx with hx | hx
  · exact h p x hx
  · exact .inr hx

theorem put (hp : t.get? p = some d) (hx : ∀ x, d'.Suffers x → d.Suffers x ∨ gr p x) :
    t.Spares gr (t.put p d') := by
  rintro q x ⟨e, he, hsuffers⟩
  by_cases hq : q = p
  · subst hq
    rw [get?_put_self d' (List.getElem?_eq_some_iff.mp hp).1] at he
    obtain rfl := Option.some_inj.mp he
    exact (hx x hsuffers).imp_left fun h => ⟨d, hp, h⟩
  · rw [get?_put_ne t d' hq] at he
    exact .inl ⟨e, he, hsuffers⟩

end Spares

/-- The descriptors differ in nothing but the places of processes in lists, their deadlines and their turns. -/
structure Rearranged (t : Table) (gr : Grant) (t' : Table) : Prop where
  bare : t'.processes.map Descriptor.bare = t.processes.map Descriptor.bare
  spares : t.Spares gr t'

namespace Rearranged

theorem refl (t : Table) (gr : Grant) : t.Rearranged gr t := ⟨rfl, .refl t gr⟩

theorem trans (h : t.Rearranged gr t') (h' : t'.Rearranged gr t'') : t.Rearranged gr t'' :=
  ⟨h'.bare.trans h.bare, h.spares.trans h'.spares⟩

theorem put (hp : t.get? p = some d) (hd : d'.bare = d.bare) (hx : ∀ x, d'.Suffers x → d.Suffers x ∨ gr p x) :
    t.Rearranged gr (t.put p d') := by
  have hmodify := map_set_eq_modify (g := Descriptor.bare) (f := id) hp hd
  rw [List.modify_id] at hmodify
  exact ⟨hmodify, .put hp hx⟩

theorem slot (h : t.Rearranged gr t') (p : Pid) : (t'.get? p).bind (·.slot) = (t.get? p).bind (·.slot) := by
  have hbare : (t'.get? p).map Descriptor.bare = (t.get? p).map Descriptor.bare := by
    rw [get?, get?, ← List.getElem?_map, ← List.getElem?_map]
    exact congrArg (·[p.index]?) h.bare
  have hslot := congrArg (Option.bind · (·.slot)) hbare
  rwa [Option.bind_map, Option.bind_map] at hslot

/-- What a rearranged table yields is one of the table before. -/
theorem yields {α : Type} {r : Except Stop α} {out : α → Table} (h : t.Rearranged gr t')
    (hr : Yields r fun a => t'.Rearranged gr (out a)) : Yields r fun a => t.Rearranged gr (out a) :=
  fun a ha => h.trans (hr a ha)

section
variable (gr)

theorem update (t : Table) (p : Pid) {f : Descriptor → Descriptor} (hf : ∀ d, (f d).bare = d.bare)
    (hx : ∀ d x, (f d).Suffers x → d.Suffers x ∨ gr p x) : Yields (t.update p f) (t.Rearranged gr) := fun t' ht => by
  obtain ⟨d, hp, rfl⟩ := update_eq_ok.mp ht
  exact put hp (hf d) (hx d)

/-- A process out of all lists is in no one's waiting list. -/
theorem unlink (t : Table) (p : Pid) :
    Yields (t.update p fun d => { d with next := none, link := none }) (t.Rearranged gr) :=
  update gr t p (fun _ => rfl) fun _ _ hx => .inl (hx.of_unlinked rfl rfl)

/-! ### Lists -/

theorem setNext (t : Table) (p : Pid) (after : Option Pid) : Yields (t.setNext p after) (t.Rearranged gr) :=
  update gr t p (fun _ => rfl) fun _ _ => .inl

theorem setWaiting (t : Table) (p : Pid) (first : Option Pid) : Yields (t.setWaiting p first) (t.Rearranged gr) :=
  update gr t p (fun _ => rfl) fun _ _ => .inl

theorem addWaiting (t : Table) (hw : gr src (.waiting dest)) : Yields (t.addWaiting dest src) (t.Rearranged gr) := by
  unfold Table.addWaiting
  have hplaced : Yields (t.update src fun p => { p with next := none, link := some (.waiting dest) })
      (t.Rearranged gr) := by
    refine update gr t src (fun _ => rfl) fun d x hx => ?_
    cases x with
    | dead => exact .inl hx
    | waiting other =>
      obtain rfl := Link.waiting.inj (Option.some_inj.mp hx)
      exact .inr hw
  refine hplaced.bind fun t₁ h₁ => .skip fun d => .skip fun members => h₁.yields ?_
  split
  · exact setWaiting gr t₁ dest _
  · exact setNext gr t₁ _ _

theorem relink (t : Table) (dest : Pid) (before after : Option Pid) :
    Yields (t.relink dest before after) (t.Rearranged gr) := by
  unfold Table.relink
  split
  · exact setWaiting gr t dest after
  · exact setNext gr t _ after

theorem takeWaiting (t : Table) (dest : Pid) (filter : MessageType) :
    Yields (t.takeWaiting dest filter) fun r => t.Rearranged gr r.2 := by
  unfold Table.takeWaiting
  refine .skip fun d => .skip fun members => ?_
  split
  · exact .ok (refl t gr)
  · refine .skip fun e => .bind (relink gr t dest _ _) fun t₁ h₁ => ?_
    exact .bind (h₁.yields (unlink gr t₁ _)) fun t₂ h₂ => .ok h₂

/-! ### The scheduler -/

variable (s : Scheduler) (t : Table)

theorem pushBack (l : Level) (p : Pid) : Yields (s.pushBack t l p) fun r => t.Rearranged gr r.2 := by
  unfold Scheduler.pushBack
  dsimp only
  split
  · exact .ok (refl t gr)
  · exact .bind (setNext gr t _ _) fun t₁ h₁ => .ok h₁

theorem insertByScore (l : Level) (p : Pid) : Yields (s.insertByScore t l p) fun r => t.Rearranged gr r.2 := by
  unfold Scheduler.insertByScore
  refine .skip fun d => .skip fun members => .bind (setNext gr t p _) fun t₁ h₁ => ?_
  dsimp only
  split
  · exact .ok h₁
  · exact .bind (h₁.yields (setNext gr t₁ _ _)) fun t₂ h₂ => .ok h₂

theorem enqueue (l : Level) (p : Pid) : Yields (s.enqueue t l p) fun r => t.Rearranged gr r.2 := by
  unfold Scheduler.enqueue
  split
  · exact pushBack gr s t l p
  · exact insertByScore gr s t l p

theorem makeReady (p : Pid) :
    Yields (s.makeReady t p).outcome fun _ => t.Rearranged gr (s.makeReady t p).state.2 := by
  unfold Scheduler.makeReady
  split
  · exact .error _
  · rename_i d hp
    split
    · exact .ok (refl t gr)
    · split
      · exact .error _
      · split
        · exact .error _
        · dsimp only
          split
          · exact .error _
          · rename_i queued hq
            refine .ok (yields (put hp ?_ fun x hx => ?_) (enqueue gr s _ _ p) queued hq)
            · rfl
            · exact (hx.not_ready rfl rfl).elim

theorem charge (now : Nat) : Yields (s.charge t now) fun r => t.Rearranged gr r.2 := by
  unfold Scheduler.charge
  split
  · exact .ok (refl t gr)
  · exact .bind (update gr t _ (fun _ => rfl) fun _ _ => .inl) fun t₁ h₁ => .ok h₁

theorem pop : Yields (s.pop t) fun r => t.Rearranged gr r.2.2 := by
  unfold Scheduler.pop
  split
  · exact .ok (refl t gr)
  · exact .skip fun d => .bind (unlink gr t _) fun t₁ h₁ => .ok h₁

theorem pick (now : Nat) : Yields (s.pick t now) fun r => t.Rearranged gr r.2.2 := by
  unfold Scheduler.pick
  refine .bind (charge gr s t now) ?_
  rintro ⟨s₁, t₁⟩ h₁
  refine .bind (h₁.yields (pop gr s₁ t₁)) ?_
  rintro ⟨head, s₂, t₂⟩ h₂
  exact .bind (h₂.yields (update gr t₂ _ (fun _ => rfl) fun _ _ => .inl)) fun t₃ h₃ => .ok h₃

/-! ### The timeouts -/

variable (r : Timeouts)

theorem setDeadline (p : Pid) (ms : UInt32) :
    Yields (r.set t p ms).outcome fun _ => t.Rearranged gr (r.set t p ms).state.2 := by
  unfold Timeouts.set
  split
  · exact .error _
  · rename_i d hp
    split
    · exact .error _
    · split
      · exact .error _
      · exact .ok (put hp rfl fun _ => .inl)

theorem cancelDeadline (p : Pid) :
    Yields (r.cancel t p).outcome fun _ => t.Rearranged gr (r.cancel t p).state.2 := by
  unfold Timeouts.cancel
  split
  · exact .error _
  · rename_i d hp
    split
    · exact .error _
    · dsimp only
      split
      · exact .error _
      · split
        · exact .ok (put hp rfl fun _ => .inl)
        · exact .ok (put hp rfl fun _ => .inl)

theorem visit (now later : Int) (s : Timeouts.Scan) (p : Pid) :
    Yields (s.visit now later p) fun s' => s.table.Rearranged gr s'.table := by
  unfold Timeouts.Scan.visit
  refine .skip fun d => .bind (update gr s.table p (fun _ => rfl) fun _ _ => .inl) fun t₁ h₁ => ?_
  split
  · exact .ok h₁
  · exact .ok h₁

theorem scan (now later : Int) (l : List Pid) (s : Timeouts.Scan) :
    Yields (l.foldlM (Timeouts.Scan.visit now later) s) fun s' => s.table.Rearranged gr s'.table := by
  induction l generalizing s with
  | nil => exact .ok (refl s.table gr)
  | cons p l ih =>
    rw [List.foldlM_cons]
    exact .bind (visit gr now later s p) fun s₁ h₁ => h₁.yields (ih s₁)

theorem tick (ms : UInt32) : Yields (r.tick t ms) fun a => t.Rearranged gr a.2.2 := by
  unfold Timeouts.tick
  dsimp only
  split
  · exact .ok (refl t gr)
  · split
    · exact .ok (refl t gr)
    · exact .bind (scan gr r.ticks _ r.entries ⟨[], [], none, t⟩) fun s h => .ok h

end

end Rearranged

end Table

end Rendezvous
