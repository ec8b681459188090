import Mathlib.Algebra.GroupWithZero.Nat
import Mathlib.Data.List.Chain
import Mathlib.Data.List.Forall2
import Rendezvous.Table

/-! # The process store

Processes are created one after the other, and each stack starts where the one before it ends. A create that is
refused changes nothing, and whatever is written to a stack stays out of all the others. -/

namespace Rendezvous

/-- `n` is the least multiple of a word that is at least `bytes`, and at least a word. -/
structure Rounds (bytes n : Nat) : Prop where
  multiple : n % wordBytes = 0
  enough : max bytes wordBytes ≤ n
  least : n < max bytes wordBytes + wordBytes

theorem Rounds.unique {bytes n n' : Nat} (h : Rounds bytes n) (h' : Rounds bytes n') : n = n' := by
  obtain ⟨hmul, henough, hleast⟩ := h
  obtain ⟨hmul', henough', hleast'⟩ := h'
  simp only [wordBytes] at *
  omega

theorem stackWords_rounds (bytes : Nat) : Rounds bytes (stackWords bytes * wordBytes) := by
  have hdiv : stackWords bytes = (max bytes 8 + 7) / 8 := rfl
  refine ⟨Nat.mul_mod_left .., ?_, ?_⟩
  · show max bytes 8 ≤ stackWords bytes * 8
    omega
  · show stackWords bytes * 8 < max bytes 8 + 8
    omega

namespace StackRegion

/-- The first word behind a region. -/
def stop (r : StackRegion) : Nat := r.base + r.words

/-- Whether a word of the arena lies in the region. -/
def Contains (r : StackRegion) (i : Nat) : Prop := r.base ≤ i ∧ i < r.stop

instance (r : StackRegion) (i : Nat) : Decidable (r.Contains i) := inferInstanceAs (Decidable (_ ∧ _))

end StackRegion

namespace Arena

variable {a a' : Arena} {r : StackRegion} {i j : Nat} {value : Word}

theorem getElem?_slice (a : Arena) (r : StackRegion) (i : Nat) :
    (a.slice r)[i]? = if i < r.words then a.words[r.base + i]? else none := by
  rw [slice, List.getElem?_take, List.getElem?_drop]

theorem slice_congr (h : ∀ i, r.Contains i → a'.words[i]? = a.words[i]?) : a'.slice r = a.slice r := by
  refine List.ext_getElem? fun i => ?_
  rw [getElem?_slice, getElem?_slice]
  split
  · rename_i hi
    exact h _ ⟨Nat.le_add_right .., Nat.add_lt_add_left hi _⟩
  · rfl

/-- What is written where there is room for it is found there, and all other words are left alone. -/
theorem getElem?_overwrite (a : Arena) {base : Nat} {content : List Word}
    (h : base + content.length ≤ Limits.arenaWords) (i : Nat) : (a.overwrite base content).words[i]? =
      if (StackRegion.mk base content.length).Contains i then content[i - base]? else a.words[i]? := by
  have hlength := a.length_words
  have hfill : content.take (Limits.arenaWords - base) = content := List.take_of_length_le (by omega)
  have hwords : (a.overwrite base content).words =
      a.words.take base ++ content ++ a.words.drop (base + content.length) := by
    show _ ++ List.take _ _ ++ _ = _
    rw [hfill]
  have htake : (a.words.take base).length = base := by rw [List.length_take, hlength]; omega
  rw [hwords, List.append_assoc]
  rcases Nat.lt_or_ge i base with hi | hi
  · rw [List.getElem?_append_left (htake.symm ▸ hi), List.getElem?_take_of_lt hi,
      if_neg fun hin => absurd hin.1 (Nat.not_le.mpr hi)]
  · rw [List.getElem?_append_right (htake.symm ▸ hi), htake]
    rcases Nat.lt_or_ge i (base + content.length) with hi' | hi'
    · rw [List.getElem?_append_left (by omega), if_pos ⟨hi, hi'⟩]
    · rw [List.getElem?_append_right (by omega), List.getElem?_drop, if_neg fun hin => absurd hin.2 (Nat.not_lt.mpr hi')]
      congr 1
      omega

/-- Clearing a region fills it and leaves all other words alone. -/
theorem getElem?_clear (a : Arena) (h : r.stop ≤ Limits.arenaWords) (i : Nat) :
    (a.clear r).words[i]? = if r.Contains i then some blank else a.words[i]? := by
  have hroom : r.base + (List.replicate r.words blank).length ≤ Limits.arenaWords := by
    rw [List.length_replicate]
    exact h
  rw [clear, a.getElem?_overwrite hroom, List.length_replicate]
  by_cases hi : r.Contains i
  · have hin : i - r.base < r.words := by
      have hstop := hi.2
      have hbase := hi.1
      rw [StackRegion.stop] at hstop
      omega
    rw [if_pos hi, if_pos hi, List.getElem?_replicate_of_lt hin]
  · rw [if_neg hi, if_neg hi]

theorem getElem?_set_ne (a : Arena) (h : j ≠ i) : (a.set i value).words[j]? = a.words[j]? :=
  List.getElem?_set_ne h.symm

/-- A word of a region that is written to is that word of the slice. -/
theorem slice_set_self (a : Arena) (r : StackRegion) (i : Nat) (value : Word) :
    (a.set (r.base + i) value).slice r = (a.slice r).set i value := by
  show ((a.words.set (r.base + i) value).drop r.base).take r.words = ((a.words.drop r.base).take r.words).set i value
  rw [List.drop_set, if_neg (Nat.not_lt.mpr (Nat.le_add_right ..)), Nat.add_sub_cancel_left, List.take_set]

end Arena

namespace Table

/-! ### The order of the stacks -/

/-- The stacks lie in the arena one behind the other. `made` has the processes in the order in which they were created,
each with the bytes that its stack was asked for with. -/
structure Packed (t : Table) (made : List (Pid × Nat)) : Prop where
  pids : made.map (·.1) = (List.range made.length).map .ofIndex
  limit : t.size ≤ Limits.processes
  processes : List.Forall₂ (fun m d => d.pid = m.1 ∧ Rounds m.2 d.stack.bytes) made t.processes
  first : ∀ d ∈ t.processes.head?, d.stack.base = 0
  consecutive : t.processes.IsChain fun d e => e.stack.base = d.stack.stop
  disjoint : t.processes.Pairwise fun d e => d.stack.stop ≤ e.stack.base
  below : ∀ d ∈ t.processes, d.stack.stop ≤ t.frontier
  frontier : t.frontier = (t.processes.getLast?.map (·.stack.stop)).getD 0
  within : t.frontier ≤ Limits.arenaWords
  /-- Every byte of the arena is free or belongs to a stack. -/
  budget : t.freeBytes + (t.processes.map (·.stack.bytes)).sum = Limits.arenaBytes

/-- No stack reaches into another one, or into what is free. -/
structure Separate (t : Table) : Prop where
  disjoint : t.processes.Pairwise fun d e => d.stack.stop ≤ e.stack.base
  below : ∀ d ∈ t.processes, d.stack.stop ≤ t.frontier

theorem Packed.separate {t : Table} {made : List (Pid × Nat)} (h : t.Packed made) : t.Separate := ⟨h.disjoint, h.below⟩

variable {t t' : Table} {made : List (Pid × Nat)} {name : String} {bytes i : Nat} {p q : Pid} {d e : Descriptor}
  {value : Word}

theorem empty_packed : empty.Packed [] where
  pids := rfl
  limit := Nat.zero_le _
  processes := .nil
  first _ hd := by cases hd
  consecutive := .nil
  disjoint := .nil
  below _ hd := by cases hd
  frontier := rfl
  within := Nat.zero_le _
  budget := rfl

/-! ### Creating a process -/

/-- The table with one more process, whose stack starts at the frontier. -/
def extend (t : Table) (name : String) (words : Nat) : Table where
  processes := t.processes ++ [.fresh (.ofIndex t.size) name ⟨t.frontier, words⟩]
  arena := t.arena.clear ⟨t.frontier, words⟩
  frontier := t.frontier + words

theorem create_full (h : Limits.processes ≤ t.size) (name : String) (bytes : Nat) :
    t.create name bytes = .refuse .tooManyProcesses t := if_pos h

theorem create_exhausted (h : t.size < Limits.processes) (hfree : t.freeBytes < stackWords bytes * wordBytes)
    (name : String) :
    t.create name bytes = .refuse (.outOfMemory (stackWords bytes * wordBytes) t.freeBytes) t :=
  (if_neg (Nat.not_le.mpr h)).trans (if_pos hfree)

theorem create_done (h : t.size < Limits.processes) (hfree : stackWords bytes * wordBytes ≤ t.freeBytes)
    (name : String) : t.create name bytes = .done (.ofIndex t.size) (t.extend name (stackWords bytes)) :=
  (if_neg (Nat.not_le.mpr h)).trans (if_neg (Nat.not_lt.mpr hfree))

/-- There is room for a stack of `n` bytes, rounded, in front of the end of the arena. -/
theorem Packed.room (h : t.Packed made) (hfree : stackWords bytes * wordBytes ≤ t.freeBytes) :
    t.frontier + stackWords bytes ≤ Limits.arenaWords := by
  have hwords : stackWords bytes ≤ Limits.arenaWords - t.frontier := Nat.le_of_mul_le_mul_right hfree (by decide)
  have hwithin := h.within
  omega

theorem Packed.extend (h : t.Packed made) (hsize : t.size < Limits.processes)
    (hfree : stackWords bytes * wordBytes ≤ t.freeBytes) (name : String) :
    (t.extend name (stackWords bytes)).Packed (made ++ [(.ofIndex t.size, bytes)]) := by
  have hroom := h.room hfree
  have hlength : made.length = t.size := h.processes.length_eq
  obtain ⟨d, hd⟩ : ∃ d, d = Descriptor.fresh (.ofIndex t.size) name ⟨t.frontier, stackWords bytes⟩ := ⟨_, rfl⟩
  have hbase : d.stack.base = t.frontier := by rw [hd]; rfl
  have hstop : d.stack.stop = t.frontier + stackWords bytes := by rw [hd]; rfl
  have hbytes : d.stack.bytes = stackWords bytes * wordBytes := by rw [hd]; rfl
  have hprocesses : (t.extend name (stackWords bytes)).processes = t.processes ++ [d] := by rw [hd]; rfl
  have hfrontier : (t.extend name (stackWords bytes)).frontier = d.stack.stop := hstop.symm
  constructor
  case pids =>
    rw [List.map_append, h.pids, List.length_append, List.length_singleton, List.range_succ, List.map_append, hlength]
    rfl
  case limit =>
    rw [size, hprocesses, List.length_append, List.length_singleton]
    exact hsize
  case processes =>
    rw [hprocesses]
    refine List.rel_append h.processes (.cons ⟨?_, ?_⟩ .nil)
    · rw [hd]
      rfl
    · exact hbytes ▸ stackWords_rounds bytes
  case first =>
    rw [hprocesses]
    intro e he
    cases hold : t.processes with
    | nil =>
      rw [hold] at he
      -- In an empty table the frontier is still at the start of the arena.
      obtain rfl : d = e := Option.some_inj.mp he
      rw [hbase, h.frontier, hold]
      rfl
    | cons x rest =>
      rw [hold] at he
      exact h.first e (hold ▸ he)
  case consecutive =>
    rw [hprocesses]
    refine List.isChain_append.mpr ⟨h.consecutive, List.isChain_singleton d, fun x hx y hy => ?_⟩
    obtain rfl : d = y := Option.some_inj.mp hy
    -- The frontier is the end of the last stack.
    rw [hbase, h.frontier, Option.mem_def.mp hx]
    rfl
  case disjoint =>
    rw [hprocesses]
    refine List.pairwise_append.mpr ⟨h.disjoint, List.pairwise_singleton .., fun x hx y hy => ?_⟩
    rw [List.mem_singleton.mp hy, hbase]
    exact h.below x hx
  case below =>
    rw [hprocesses, hfrontier]
    intro x hx
    rcases List.mem_append.mp hx with hx | hx
    · rw [hstop]
      exact Nat.le_trans (h.below x hx) (Nat.le_add_right ..)
    · exact Nat.le_of_eq (congrArg (·.stack.stop) (List.mem_singleton.mp hx))
  case frontier =>
    rw [hprocesses, hfrontier, List.getLast?_concat]
    rfl
  case within => exact hroom
  case budget =>
    have hbudget := h.budget
    have hnow : (t.extend name (stackWords bytes)).freeBytes = t.freeBytes - stackWords bytes * wordBytes := by
      show (Limits.arenaWords - (t.frontier + stackWords bytes)) * wordBytes =
        (Limits.arenaWords - t.frontier) * wordBytes - _
      rw [← Nat.sub_mul, Nat.sub_add_eq]
    rw [hprocesses, List.map_append, List.sum_append, List.map_singleton, List.sum_singleton, hbytes, hnow]
    omega

/-- What a create that succeeds does: the process is the next one, its stack starts at the frontier and is blank, and no
other word changes. -/
structure Extended (t : Table) (bytes : Nat) (p : Pid) (t' : Table) : Prop where
  pid : p = .ofIndex t.size
  grown : ∃ d, t'.processes = t.processes ++ [d] ∧ d.pid = p ∧ Rounds bytes d.stack.bytes ∧ d.stack.base = t.frontier ∧
    t'.frontier = d.stack.stop ∧ ∀ i, t'.arena.words[i]? = if d.stack.Contains i then some blank else t.arena.words[i]?
  /-- The stacks that were there before are as they were. -/
  others : ∀ q, (t.get? q).isSome → t'.stack q = t.stack q

/-- How a create of a stack of `bytes` bytes may end. -/
structure Creates (t : Table) (bytes : Nat) (a : Attempt Table Pid) : Prop where
  full : a.outcome = .error (.fault .tooManyProcesses) ↔ t.size = Limits.processes
  exhausted : ∀ n, Rounds bytes n → (a.outcome = .error (.fault (.outOfMemory n t.freeBytes)) ↔
    t.size ≠ Limits.processes ∧ t.freeBytes < n)
  refused : ∀ s, a.outcome = .error s → a.state = t ∧
    (s = .fault .tooManyProcesses ∨ ∃ n, Rounds bytes n ∧ s = .fault (.outOfMemory n t.freeBytes))
  done : ∀ p, a.outcome = .ok p → t.Extended bytes p a.state

/-- The words of a stack are told by its region and by the arena. -/
theorem stack_eq (t : Table) (p : Pid) : t.stack p =
    ((t.get? p).map (·.stack)).elim (.error .outOfRange) fun r => .ok (t.arena.slice r) := by
  unfold stack fetch
  cases t.get? p <;> rfl

theorem stack_eq_ok {content : List Word} :
    t.stack p = .ok content ↔ ∃ d, t.get? p = some d ∧ t.arena.slice d.stack = content := by
  rw [stack_eq]
  cases t.get? p <;> simp

/-- The stack of a process whose words are all as before is as before. -/
theorem stack_congr (hget : t'.get? p = t.get? p)
    (hwords : ∀ d, t.get? p = some d → ∀ i, d.stack.Contains i → t'.arena.words[i]? = t.arena.words[i]?) :
    t'.stack p = t.stack p := by
  rw [stack_eq, stack_eq, hget]
  cases hd : t.get? p with
  | none => rfl
  | some d => exact congrArg Except.ok (Arena.slice_congr (hwords d hd))

/-- Whatever is written to words that are free, the stacks do not change. -/
theorem Separate.stack_others (h : t.Separate) (hget : t'.get? q = t.get? q)
    (hwords : ∀ i, i < t.frontier → t'.arena.words[i]? = t.arena.words[i]?) : t'.stack q = t.stack q :=
  stack_congr hget fun d hd i hi => hwords i (Nat.lt_of_lt_of_le hi.2 (h.below d (List.mem_of_getElem? hd)))

theorem Packed.extended (h : t.Packed made) (hfree : stackWords bytes * wordBytes ≤ t.freeBytes) (name : String) :
    t.Extended bytes (.ofIndex t.size) (t.extend name (stackWords bytes)) := by
  have hwords : ∀ i, (t.extend name (stackWords bytes)).arena.words[i]? =
      if (StackRegion.mk t.frontier (stackWords bytes)).Contains i then some blank else t.arena.words[i]? :=
    t.arena.getElem?_clear (h.room hfree)
  refine ⟨rfl, ⟨_, rfl, rfl, stackWords_rounds bytes, rfl, rfl, hwords⟩, fun q hq => ?_⟩
  obtain ⟨e, he⟩ := Option.isSome_iff_exists.mp hq
  refine h.separate.stack_others (List.getElem?_append_left (List.getElem?_eq_some_iff.mp he).1) fun i hi => ?_
  rw [hwords, if_neg fun hin => absurd hi (Nat.not_lt.mpr hin.1)]

theorem creates_full (h : t.size = Limits.processes) (bytes : Nat) : t.Creates bytes (.refuse .tooManyProcesses t) where
  full := iff_of_true rfl h
  exhausted _ _ := iff_of_false nofun fun hroom => hroom.1 h
  refused s hs := by
    cases hs
    exact ⟨rfl, .inl rfl⟩
  done _ hp := by cases hp

theorem creates_exhausted (h : t.size ≠ Limits.processes) (hr : Rounds bytes i) (hfree : t.freeBytes < i) :
    t.Creates bytes (.refuse (.outOfMemory i t.freeBytes) t) where
  full := iff_of_false nofun h
  exhausted n hn := by
    obtain rfl := hr.unique hn
    exact iff_of_true rfl ⟨h, hfree⟩
  refused s hs := by
    cases hs
    exact ⟨rfl, .inr ⟨i, hr, rfl⟩⟩
  done _ hp := by cases hp

theorem creates_done (h : t.size ≠ Limits.processes) (hr : Rounds bytes i) (hfree : i ≤ t.freeBytes)
    (hext : t.Extended bytes p t') : t.Creates bytes (.done p t') where
  full := iff_of_false nofun h
  exhausted n hn := by
    obtain rfl := hr.unique hn
    exact iff_of_false nofun fun hroom => absurd hroom.2 (Nat.not_lt.mpr hfree)
  refused _ hs := by cases hs
  done q hq := by
    obtain rfl := Except.ok.inj hq
    exact hext

theorem Packed.creates (h : t.Packed made) (name : String) (bytes : Nat) : t.Creates bytes (t.create name bytes) := by
  have hrounds := stackWords_rounds bytes
  rcases Nat.lt_or_eq_of_le h.limit with hsize | hsize
  · rcases Nat.lt_or_ge t.freeBytes (stackWords bytes * wordBytes) with hfree | hfree
    · rw [create_exhausted hsize hfree]
      exact creates_exhausted (Nat.ne_of_lt hsize) hrounds hfree
    · rw [create_done hsize hfree]
      exact creates_done (Nat.ne_of_lt hsize) hrounds hfree (h.extended hfree name)
  · rw [create_full (Nat.le_of_eq hsize.symm)]
    exact creates_full hsize bytes

/-! ### Writing to a stack -/

/-- What a write to word `i` of the stack of `p` does: that word changes and nothing else. -/
structure Pokes (t : Table) (p : Pid) (i : Nat) (value : Word) : Prop where
  succeeds : (∃ t', t.pokeStack p i value = .ok t') ↔ ∃ d, t.get? p = some d ∧ i < d.stack.words
  processes : ∀ t', t.pokeStack p i value = .ok t' → t'.processes = t.processes ∧ t'.frontier = t.frontier
  written : ∀ t', t.pokeStack p i value = .ok t' → ∀ words, t.stack p = .ok words →
    t'.stack p = .ok (words.set i value)
  others : ∀ t', t.pokeStack p i value = .ok t' → ∀ q, q ≠ p → t'.stack q = t.stack q

theorem pokeStack_eq_ok : t.pokeStack p i value = .ok t' ↔
    ∃ d, t.get? p = some d ∧ i < d.stack.words ∧ t' = { t with arena := t.arena.set (d.stack.base + i) value } := by
  unfold pokeStack fetch
  cases t.get? p with
  | none => simp [Bind.bind, Except.bind]
  | some d =>
    show (if i < d.stack.words then pure _ else throw _ : Except Stop Table) = _ ↔ _
    split
    · rename_i hi
      simp [pure, Except.pure, hi, eq_comm]
    · rename_i hi
      simp [throw, throwThe, MonadExceptOf.throw, hi]

/-- Two processes have stacks that do not meet. -/
theorem Separate.apart (h : t.Separate) (hp : t.get? p = some d) (hq : t.get? q = some e) (hne : q ≠ p)
    (hi : d.stack.Contains i) : ¬e.stack.Contains i := by
  intro hi'
  obtain ⟨hlt, rfl⟩ := List.getElem?_eq_some_iff.mp hp
  obtain ⟨hlt', rfl⟩ := List.getElem?_eq_some_iff.mp hq
  have hindex : p.index ≠ q.index := fun heq => hne (Pid.index_inj.mp heq).symm
  have hpair := List.pairwise_iff_getElem.mp h.disjoint
  rcases Nat.lt_or_gt_of_ne hindex with hlow | hhigh
  · exact absurd (Nat.lt_of_lt_of_le hi.2 (hpair _ _ hlt hlt' hlow)) (Nat.not_lt.mpr hi'.1)
  · exact absurd (Nat.lt_of_lt_of_le hi'.2 (hpair _ _ hlt' hlt hhigh)) (Nat.not_lt.mpr hi.1)

theorem Separate.pokes (h : t.Separate) (p : Pid) (i : Nat) (value : Word) : t.Pokes p i value := by
  refine ⟨⟨fun ⟨t', hok⟩ => ?_, fun ⟨d, hd, hi⟩ => ⟨_, pokeStack_eq_ok.mpr ⟨d, hd, hi, rfl⟩⟩⟩, fun t' hok => ?_,
    fun t' hok words hwords => ?_, fun t' hok q hq => ?_⟩
  · obtain ⟨d, hd, hi, -⟩ := pokeStack_eq_ok.mp hok
    exact ⟨d, hd, hi⟩
  · obtain ⟨d, -, -, rfl⟩ := pokeStack_eq_ok.mp hok
    exact ⟨rfl, rfl⟩
  · obtain ⟨d, hd, -, rfl⟩ := pokeStack_eq_ok.mp hok
    obtain ⟨e, he, rfl⟩ := stack_eq_ok.mp hwords
    obtain rfl := Option.some_inj.mp (hd.symm.trans he)
    exact stack_eq_ok.mpr ⟨d, hd, t.arena.slice_set_self ..⟩
  · obtain ⟨d, hd, hi, rfl⟩ := pokeStack_eq_ok.mp hok
    refine stack_congr rfl fun e he j hj => Arena.getElem?_set_ne _ fun heq => ?_
    refine h.apart hd he hq (i := j) ?_ hj
    rw [heq]
    exact ⟨Nat.le_add_right .., Nat.add_lt_add_left hi _⟩

/-! ### Histories of a store -/

/-- The creates and the writes to stacks that lead to a table, from the empty one on. `made` has the processes that were
created, each with the bytes that its stack was asked for with. -/
inductive Grown : List (Pid × Nat) → Table → Prop
  | empty : Grown [] .empty
  | created {made : List (Pid × Nat)} {t : Table} {p : Pid} (name : String) (bytes : Nat) (before : Grown made t)
      (done : (t.create name bytes).outcome = .ok p) : Grown (made ++ [(p, bytes)]) (t.create name bytes).state
  | refused {made : List (Pid × Nat)} {t : Table} {s : Stop} (name : String) (bytes : Nat) (before : Grown made t)
      (refused : (t.create name bytes).outcome = .error s) : Grown made (t.create name bytes).state
  | written {made : List (Pid × Nat)} {t t' : Table} (p : Pid) (i : Nat) (value : Word) (before : Grown made t)
      (done : t.pokeStack p i value = .ok t') : Grown made t'

theorem Packed.created (h : t.Packed made) (done : (t.create name bytes).outcome = .ok p) :
    (t.create name bytes).state.Packed (made ++ [(p, bytes)]) := by
  rcases Nat.lt_or_ge t.size Limits.processes with hsize | hsize
  · rcases Nat.lt_or_ge t.freeBytes (stackWords bytes * wordBytes) with hfree | hfree
    · rw [create_exhausted hsize hfree] at done
      cases done
    · rw [create_done hsize hfree] at done ⊢
      obtain rfl := Except.ok.inj done
      exact h.extend hsize hfree name
  · rw [create_full hsize] at done
    cases done

theorem Packed.written (h : t.Packed made) (done : t.pokeStack p i value = .ok t') : t'.Packed made := by
  obtain ⟨d, -, -, rfl⟩ := pokeStack_eq_ok.mp done
  exact { h with }

theorem Grown.packed (h : Grown made t) : t.Packed made := by
  induction h with
  | empty => exact empty_packed
  | created name bytes _ done ih => exact ih.created done
  | refused name bytes _ refused ih => exact ((ih.creates name bytes).refused _ refused).1.symm ▸ ih
  | written p i value _ done ih => exact ih.written done

/-- In every store that creates and writes lead to, the stacks fill the arena from its start, one behind the other; how
a create ends depends on the room that is left, and its stack is one that nothing else has; a write changes one word of
one stack. -/
theorem store_stays_packed (h : Grown made t) :
    t.Packed made ∧ (∀ name bytes, t.Creates bytes (t.create name bytes)) ∧ ∀ p i value, t.Pokes p i value :=
  have hpacked := h.packed
  ⟨hpacked, hpacked.creates, hpacked.separate.pokes⟩

/-- A small stack and one that takes all that is left of the arena, after a larger one was refused. -/
def filled : Table :=
  let first := (empty.create "a" 100).state
  let second := ((first.create "huge" 16288).state.create "b" 16280).state
  { second with arena := second.arena.set 12 7 }

theorem filled_grown : Grown [(⟨0⟩, 100), (⟨1⟩, 16280)] filled :=
  .written ⟨0⟩ 12 7 (.created "b" 16280 (.refused "huge" 16288 (.created "a" 100 .empty rfl) rfl) rfl) rfl

/-- The last bytes have been handed out; there is room for no other stack, and each stack still takes writes. -/
theorem store_stays_packed_filled : filled.freeBytes + (104 + 16280) = Limits.arenaBytes ∧
    (filled.create "c" 0).outcome = .error (.fault (.outOfMemory 8 0)) ∧
    ∃ t, filled.pokeStack ⟨1⟩ 2034 9 = .ok t ∧ t.stack ⟨0⟩ = filled.stack ⟨0⟩ := by
  obtain ⟨hpacked, hcreates, hpokes⟩ := store_stays_packed filled_grown
  have hfree : filled.freeBytes = 0 := rfl
  have hexhausted := ((hcreates "c" 0).exhausted 8 ⟨rfl, by decide, by decide⟩).mpr ⟨by decide, hfree ▸ by decide⟩
  obtain ⟨t, ht⟩ := (hpokes ⟨1⟩ 2034 9).succeeds.mpr ⟨_, rfl, by decide⟩
  exact ⟨hpacked.budget, hfree ▸ hexhausted, t, ht, (hpokes ⟨1⟩ 2034 9).others t ht ⟨0⟩ (by decide)⟩

end Table

end Rendezvous
