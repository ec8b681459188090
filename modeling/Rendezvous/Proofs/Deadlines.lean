import Mathlib.Algebra.GroupWithZero.Nat
import Rendezvous.Proofs.Registry

/-! # When timeouts fire

The registry counts deadlines from its last scan, and counts them anew at every scan. On a clock that is never set back
they stand still: a timeout of `ms` milliseconds fires in the first tick that comes after more than `ms` of them. -/

namespace Rendezvous

/-- The deadline of a process that is in the table and has one. -/
def Table.deadlineOf (t : Table) (p : Pid) : Option Int := (t.get? p).bind (·.deadline)

namespace Table

variable {t : Table} {p : Pid} {d : Descriptor}

theorem deadlineOf_eq (h : t.get? p = some d) : t.deadlineOf p = d.deadline := by
  rw [deadlineOf, h, Option.bind_some]

theorem deadlineOf_eq_none (h : ∀ d ∈ t.processes, d.deadline = none) (p : Pid) : t.deadlineOf p = none :=
  Option.bind_eq_none_iff.mpr fun d hd => h d (List.mem_of_getElem? hd)

theorem deadlineOf_plain (t : Table) (p : Pid) : (t.plain p).bind (·.deadline) = t.deadlineOf p := by
  rw [plain, Option.bind_map]
  rfl

theorem deadlineOf_put (hp : t.get? p = some d) (d' : Descriptor) :
    (t.put p d').deadlineOf = Function.update t.deadlineOf p d'.deadline := by
  funext q
  by_cases hq : q = p <;> simp [deadlineOf, get?_put hp, hq]

end Table

theorem saturate_sum {ticks : Int} (hticks : 0 ≤ ticks) (ms : UInt32) :
    saturate (ticks + saturate ms.toNat) = ticks + min (ms.toNat : Int) (Limits.millis - ticks) := by
  simp only [saturate]
  omega

theorem saturate_nonneg {ticks : Int} (hticks : 0 ≤ ticks) (ms : UInt32) : 0 ≤ saturate (ticks + saturate ms.toNat) := by
  simp only [saturate, Limits.millis]
  omega

theorem remaining_eq_some {now later left : Int} {deadline : Option Int} :
    remaining now later deadline = some left ↔ ∃ d, deadline = some d ∧ now ≤ d ∧ left = d - later := by
  unfold remaining
  constructor
  · intro h
    obtain ⟨d, hd, hleft⟩ := Option.bind_eq_some_iff.mp h
    by_cases hnow : now ≤ d
    · exact ⟨d, hd, hnow, by simpa [hnow] using hleft.symm⟩
    · simp [hnow] at hleft
  · rintro ⟨d, rfl, hnow, rfl⟩
    simp [hnow]

theorem remaining_eq_none {now later : Int} {deadline : Option Int} :
    remaining now later deadline = none ↔ ∀ d, deadline = some d → d < now := by
  simp [remaining, Option.bind_eq_none_iff]

namespace Timeouts

/-! ### The earliest deadline -/

theorem earlier_le {due n : Int} {known : Option Int} (h : earlier due known = some n) :
    n ≤ due ∧ ∀ k, known = some k → n ≤ k := by
  unfold earlier at h
  cases known with
  | none =>
    obtain rfl := Option.some_inj.mp h
    exact ⟨Int.le_refl _, fun k hk => by cases hk⟩
  | some k =>
    simp only at h
    split at h <;> cases h
    · exact ⟨Int.le_refl _, fun k' hk => by cases hk; omega⟩
    · exact ⟨by omega, fun k' hk => by cases hk; exact Int.le_refl _⟩

theorem earlier_ne_none (due : Int) (known : Option Int) : earlier due known ≠ none := by
  unfold earlier
  cases known with
  | none => simp
  | some k =>
    simp only
    split <;> simp

theorem soonest_le {l : List Int} {known : Option Int} {n : Int} (h : soonest l known = some n) :
    (∀ d ∈ l, n ≤ d) ∧ ∀ k, known = some k → n ≤ k := by
  induction l generalizing known with
  | nil => exact ⟨by simp, fun k hk => by cases hk.symm.trans h; exact Int.le_refl _⟩
  | cons d l ih =>
    have hrest : soonest l (earlier d known) = some n := h
    obtain ⟨hl, hknown⟩ := ih hrest
    obtain ⟨e, he⟩ := Option.ne_none_iff_exists'.mp (earlier_ne_none d known)
    have hle := earlier_le he
    have hn := hknown e he
    exact ⟨fun x hx => (List.mem_cons.mp hx).elim (fun hx => hx ▸ Int.le_trans hn hle.1) (hl x),
      fun k hk => Int.le_trans hn (hle.2 k hk)⟩

theorem soonest_eq_none {l : List Int} {known : Option Int} : soonest l known = none ↔ l = [] ∧ known = none := by
  induction l generalizing known with
  | nil => simp [soonest]
  | cons d l ih =>
    have hfold : soonest (d :: l) known = soonest l (earlier d known) := rfl
    rw [hfold, ih]
    exact iff_of_false (fun h => earlier_ne_none d known h.2) (by simp)

/-! ### The registry and the deadlines of a table -/

/-- The entries are the processes with a deadline, and no deadline comes before the one that is due next. -/
structure Tracks (r : Timeouts) (t : Table) : Prop where
  entry : ∀ p, p ∈ r.entries ↔ (t.deadlineOf p).isSome
  distinct : r.entries.Nodup
  nothing : r.nextDue = none ↔ r.entries = []
  next : ∀ p d due, t.deadlineOf p = some d → r.nextDue = some due → due ≤ d
  ticks : 0 ≤ r.ticks

variable {r r' : Timeouts} {t t' : Table} {p : Pid} {d : Descriptor} {ms : UInt32} {expired : List Pid}

/-- An entry of a registry with no others leaves it as at the start; any other entry only goes from the list. -/
theorem without_cases (hp : p ∈ r.entries) :
    r.without p = {} ∧ (∀ q, q ∈ r.entries ↔ q = p) ∨
      ∃ entries, entries ≠ [] ∧ (p :: entries).Perm r.entries ∧ r.without p = { r with entries } := by
  have hperm := without_perm hp
  obtain ⟨i, hi⟩ := Option.isSome_iff_exists.mp (List.isSome_idxOf?.mpr hp)
  by_cases hempty : (swapRemove r.entries i).isEmpty
  · have hw : r.without p = {} := by simp [without, hi, hempty]
    rw [hw] at hperm
    exact .inl ⟨hw, fun q => by rw [← hperm.mem_iff, List.mem_singleton]⟩
  · have hw : r.without p = { r with entries := swapRemove r.entries i } := by simp [without, hi, hempty]
    rw [hw] at hperm
    exact .inr ⟨_, by simpa using hempty, hperm, hw⟩

namespace Tracks

theorem of_deadlines (h : r.Tracks t) (same : t'.deadlineOf = t.deadlineOf) : r.Tracks t' :=
  ⟨same ▸ h.entry, h.distinct, h.nothing, same ▸ h.next, h.ticks⟩

theorem of_idle (idle : ∀ p, t.deadlineOf p = none) : Tracks {} t where
  entry p := by simp [idle p]
  distinct := List.nodup_nil
  nothing := by simp
  next p d due hp := by simp [idle p] at hp
  ticks := Int.le_refl 0

theorem found (h : r.Tracks t) (hp : p ∈ r.entries) : ∃ d, t.get? p = some d ∧ d.deadline.isSome := by
  obtain ⟨due, hdue⟩ := Option.isSome_iff_exists.mp ((h.entry p).mp hp)
  obtain ⟨d, hd, hdeadline⟩ := Option.bind_eq_some_iff.mp hdue
  exact ⟨d, hd, by rw [hdeadline, Option.isSome_some]⟩

theorem none_of_idle (h : r.Tracks t) (hnext : r.nextDue = none) (p : Pid) : t.deadlineOf p = none := by
  have hentry := h.entry p
  rw [h.nothing.mp hnext] at hentry
  simpa using hentry

theorem set (h : r.Tracks t) (hp : t.get? p = some d) (hd : d.deadline = none) {due : Int} :
    Tracks { r with entries := r.entries ++ [p], nextDue := earlier due r.nextDue }
      (t.put p { d with deadline := some due }) := by
  -- Without a deadline it has no entry yet.
  have hnew : p ∉ r.entries := fun hmem => by simp [h.entry, Table.deadlineOf_eq hp, hd] at hmem
  have hput := Table.deadlineOf_put hp { d with deadline := some due }
  refine ⟨fun q => ?_, ?_, ?_, fun q d' due' hq hdue => ?_, h.ticks⟩
  · by_cases hq : q = p
    · simp [hput, hq]
    · simp [hput, hq, h.entry]
  · exact (List.perm_append_singleton p r.entries).nodup_iff.mpr (List.nodup_cons.mpr ⟨hnew, h.distinct⟩)
  · exact iff_of_false (earlier_ne_none _ _) (by simp)
  · rw [hput] at hq
    by_cases hqp : q = p
    · rw [hqp, Function.update_self] at hq
      cases hq
      exact (earlier_le hdue).1
    · rw [Function.update_of_ne hqp] at hq
      cases hnext : r.nextDue with
      | none => simp [h.none_of_idle hnext q] at hq
      | some k => exact Int.le_trans ((earlier_le hdue).2 k hnext) (h.next q d' k hq hnext)

theorem cancel (h : r.Tracks t) (hp : p ∈ r.entries) (hd : t.get? p = some d) :
    (r.without p).Tracks (t.put p { d with deadline := none }) := by
  have hput := Table.deadlineOf_put hd { d with deadline := none }
  rcases without_cases hp with ⟨hw, honly⟩ | ⟨entries, hne, hperm, hw⟩
  · rw [hw]
    refine of_idle fun q => ?_
    by_cases hq : q = p
    · rw [hput, hq, Function.update_self]
    · have hnone := h.entry q
      rw [honly q, iff_false_left hq] at hnone
      rw [hput, Function.update_of_ne hq]
      simpa using hnone
  · rw [hw]
    have hdistinct := hperm.nodup_iff.mpr h.distinct
    obtain ⟨hnew, hdistinct⟩ := List.nodup_cons.mp hdistinct
    refine ⟨fun q => ?_, hdistinct, ?_, fun q due next hq hnext => ?_, h.ticks⟩
    · by_cases hq : q = p
      · simp [hput, hq, hnew]
      · rw [hput, Function.update_of_ne hq, ← h.entry, ← hperm.mem_iff, List.mem_cons, or_iff_right hq]
    · refine iff_of_false (fun hnext => ?_) hne
      rw [h.nothing.mp hnext] at hp
      exact List.not_mem_nil hp
    · rw [hput] at hq
      by_cases hqp : q = p
      · simp [hqp] at hq
      · exact h.next q due next (by rwa [Function.update_of_ne hqp] at hq) hnext

theorem scan (h : r.Tracks t) {left : Pid → Option Int} (hleft : t'.deadlineOf = left)
    (hgone : ∀ p, p ∉ r.entries → left p = none) :
    Tracks ⟨r.entries.filter fun p => (left p).isSome, 0, soonest (r.entries.filterMap left) none⟩ t' := by
  have hentry : ∀ p due, left p = some due → p ∈ r.entries := fun p due hp => by
    by_contra hnot
    simp [hgone p hnot] at hp
  refine ⟨fun p => ?_, h.distinct.filter _, ?_, fun p due next hp hnext => ?_, Int.le_refl 0⟩
  · rw [List.mem_filter, hleft, and_iff_right_iff_imp]
    intro hp
    obtain ⟨due, hdue⟩ := Option.isSome_iff_exists.mp hp
    exact hentry p due hdue
  · simp [soonest_eq_none, List.filter_eq_nil_iff, List.filterMap_eq_nil_iff]
  · rw [hleft] at hp
    exact (soonest_le hnext).1 due (List.mem_filterMap.mpr ⟨p, hentry p due hp, hp⟩)

end Tracks

/-! ### Time left -/

/-- The milliseconds left to a process before its deadline; fewer than none once it has passed. -/
def left (r : Timeouts) (t : Table) (p : Pid) : Option Int := (t.deadlineOf p).map (· - r.ticks)

theorem left_eq_some {n : Int} : r.left t p = some n ↔ ∃ due, t.deadlineOf p = some due ∧ due - r.ticks = n :=
  Option.map_eq_some_iff

theorem Tracks.left_of_idle (h : r.Tracks t) (hnext : r.nextDue = none) : r.left t = fun _ => none := by
  funext p
  rw [left, h.none_of_idle hnext p, Option.map_none]

theorem leftAt_eq (t : Table) (now later : Int) (p : Pid) :
    leftAt t now later p = remaining now later (t.deadlineOf p) := by
  rw [leftAt, Table.deadlineOf_plain]

/-- Once the next deadline has passed, a tick scans all entries. -/
theorem Tracks.tick_scan (h : r.Tracks t) {next : Int} (hnext : r.nextDue = some next) (hdue : ¬r.ticks ≤ next)
    (ms : UInt32) :
    ∃ expired r' t', r.tick t ms = .ok (expired, r', t') ∧ r'.Tracks t' ∧ expired.Nodup ∧
      (∀ p, p ∈ expired ↔ ∃ due, t.deadlineOf p = some due ∧ due < r.ticks) ∧ r'.ticks = 0 ∧
      ∀ p, t'.deadlineOf p = remaining r.ticks (saturate (r.ticks + saturate ms.toNat)) (t.deadlineOf p) := by
  have hfound : ∀ p ∈ r.entries, (t.get? p).isSome := fun p hp => by
    obtain ⟨d, hd, -⟩ := h.found hp
    rw [hd, Option.isSome_some]
  obtain ⟨t', hscan, hplain, -⟩ :=
    scan_ok (s := ⟨[], [], none, t⟩) r.ticks (saturate (r.ticks + saturate ms.toNat)) h.distinct hfound
  have htick := tick_of_due hnext hdue ms hscan
  simp only [List.nil_append] at htick hplain
  generalize saturate (r.ticks + saturate ms.toNat) = later at htick hplain ⊢
  have hgone : ∀ p, p ∉ r.entries → t.deadlineOf p = none := fun p hp => by simpa [hp] using h.entry p
  -- Entries are rewritten by the scan, and who has no entry has no deadline.
  have hdeadline : t'.deadlineOf = leftAt t r.ticks later := by
    funext p
    rw [← Table.deadlineOf_plain, congrFun hplain p, leftAt]
    by_cases hp : p ∈ r.entries
    · simp only [if_pos hp, Option.bind_map]
      cases t.plain p <;> rfl
    · simp only [if_neg hp, Table.deadlineOf_plain, hgone p hp]
      rfl
  have hnone : ∀ p, p ∉ r.entries → leftAt t r.ticks later p = none := fun p hp => by
    rw [leftAt_eq, hgone p hp]
    rfl
  refine ⟨_, _, t', htick, h.scan hdeadline hnone, h.distinct.filter _, fun p => ?_, rfl,
    fun p => by rw [hdeadline, leftAt_eq]⟩
  simp only [List.mem_filter, Option.isNone_iff_eq_none, leftAt_eq, remaining_eq_none]
  constructor
  · rintro ⟨hp, hpassed⟩
    obtain ⟨due, hdue⟩ := Option.isSome_iff_exists.mp ((h.entry p).mp hp)
    exact ⟨due, hdue, hpassed due hdue⟩
  · rintro ⟨due, hdue, hpassed⟩
    exact ⟨(h.entry p).mpr (by rw [hdue, Option.isSome_some]), fun other hother => by
      rw [hdue] at hother
      cases hother
      exact hpassed⟩

/-- The milliseconds of `ms` that a registry counts: it has no room for those beyond the largest value. -/
def counted (r : Timeouts) (ms : UInt32) : Int := min ms.toNat (Limits.millis - r.ticks)

theorem counted_eq (room : r.ticks + ms.toNat ≤ Limits.millis) : r.counted ms = ms.toNat := by
  unfold counted
  omega

/-- A tick fires the deadlines that have passed before it and takes the milliseconds it counts off all others. -/
theorem Tracks.tick (h : r.Tracks t) (ms : UInt32) :
    ∃ expired r' t', r.tick t ms = .ok (expired, r', t') ∧ r'.Tracks t' ∧ expired.Nodup ∧
      (∀ p, p ∈ expired ↔ ∃ n, r.left t p = some n ∧ n < 0) ∧
      ∀ p n, r'.left t' p = some n ↔ 0 ≤ n + r.counted ms ∧ r.left t p = some (n + r.counted ms) := by
  cases hnext : r.nextDue with
  | none =>
    have hnone := h.left_of_idle hnext
    exact ⟨[], r, t, tick_of_none hnext ms, h, List.nodup_nil, by simp [hnone], by simp [hnone]⟩
  | some next =>
    have hsum : saturate (r.ticks + saturate ms.toNat) = r.ticks + r.counted ms := saturate_sum h.ticks ms
    by_cases hearly : r.ticks ≤ next
    · -- No scan: the earliest deadline has not passed, so none has.
      have hlate : ∀ p due, t.deadlineOf p = some due → r.ticks ≤ due := fun p due hp =>
        Int.le_trans hearly (h.next p due next hp hnext)
      refine ⟨[], _, t, tick_of_early hnext hearly ms,
        ⟨h.entry, h.distinct, h.nothing, h.next, saturate_nonneg h.ticks ms⟩, List.nodup_nil, fun p => ?_, fun p n => ?_⟩
      · refine iff_of_false List.not_mem_nil fun ⟨n, hn, hpassed⟩ => ?_
        obtain ⟨due, hdue, rfl⟩ := left_eq_some.mp hn
        have := hlate p due hdue
        omega
      · simp only [left_eq_some, hsum]
        constructor
        · rintro ⟨due, hdue, rfl⟩
          have := hlate p due hdue
          exact ⟨by omega, due, hdue, by omega⟩
        · rintro ⟨-, due, hdue, hleft⟩
          exact ⟨due, hdue, by omega⟩
    · -- A scan: deadlines are counted from now on.
      obtain ⟨expired, r', t', htick, htracks, hdistinct, hexpired, hticks, hrest⟩ := h.tick_scan hnext hearly ms
      refine ⟨expired, r', t', htick, htracks, hdistinct, fun p => ?_, fun p n => ?_⟩
      · rw [hexpired]
        constructor
        · rintro ⟨due, hdue, hpassed⟩
          exact ⟨due - r.ticks, left_eq_some.mpr ⟨due, hdue, rfl⟩, by omega⟩
        · rintro ⟨n, hn, hpassed⟩
          obtain ⟨due, hdue, rfl⟩ := left_eq_some.mp hn
          exact ⟨due, hdue, by omega⟩
      · simp only [left_eq_some, hrest, remaining_eq_some, hticks, hsum]
        constructor
        · rintro ⟨due, ⟨before, hbefore, hlate, rfl⟩, rfl⟩
          exact ⟨by omega, before, hbefore, by omega⟩
        · rintro ⟨hlate, before, hbefore, hleft⟩
          exact ⟨n, ⟨before, hbefore, by omega, by omega⟩, by omega⟩

theorem Tracks.set_left (h : r.Tracks t) (hset : (r.set t p ms).outcome = .ok ()) :
    ∃ r' t', (r.set t p ms).state = (r', t') ∧ r'.Tracks t' ∧
      r'.left t' = Function.update (r.left t) p (some (r.counted ms)) := by
  obtain ⟨d, hp, hd, hsize⟩ := found_of_set hset
  have hsum : saturate (r.ticks + saturate ms.toNat) = r.ticks + r.counted ms := saturate_sum h.ticks ms
  rw [set_ok hp hd hsize, hsum]
  refine ⟨_, _, rfl, h.set hp hd, ?_⟩
  funext q
  by_cases hq : q = p
  · have hcounted : r.ticks + r.counted ms - r.ticks = r.counted ms := by omega
    simp [left, Table.deadlineOf_put hp, hq, hcounted]
  · simp [left, Table.deadlineOf_put hp, hq]

theorem set_of_refused (h : (r.set t p ms).outcome ≠ .ok ()) : (r.set t p ms).state = (r, t) := by
  unfold Timeouts.set at h ⊢
  split
  · rfl
  · split
    · rfl
    · split
      · rfl
      · simp_all [Attempt.done]

theorem Tracks.cancel_left (h : r.Tracks t) (hcancel : (r.cancel t p).outcome = .ok ()) :
    ∃ r' t', (r.cancel t p).state = (r', t') ∧ r'.Tracks t' ∧ r'.left t' = Function.update (r.left t) p none := by
  obtain ⟨d, hp, hd⟩ := found_of_cancel hcancel
  have hentry : p ∈ r.entries := (h.entry p).mpr (by rw [Table.deadlineOf_eq hp]; exact hd)
  have hput := Table.deadlineOf_put hp { d with deadline := none }
  rw [cancel_ok hp hd hentry]
  refine ⟨_, _, rfl, h.cancel hentry hp, ?_⟩
  funext q
  by_cases hq : q = p
  · simp [left, hput, hq]
  · rcases without_cases hentry with ⟨-, honly⟩ | ⟨entries, -, -, hw⟩
    · have hnone : t.deadlineOf q = none := by
        have := h.entry q
        rw [honly q, iff_false_left hq] at this
        simpa using this
      simp [left, hput, hq, hnone]
    · simp [left, hput, hq, hw]

theorem Tracks.cancel_of_refused (h : r.Tracks t) (hcancel : (r.cancel t p).outcome ≠ .ok ()) :
    (r.cancel t p).state = (r, t) := by
  cases hp : t.get? p with
  | none => simp [Timeouts.cancel, hp, Attempt.stop]
  | some d =>
    by_cases hd : d.deadline.isSome
    · have hentry : p ∈ r.entries := (h.entry p).mpr (by rw [Table.deadlineOf_eq hp]; exact hd)
      rw [cancel_ok hp hd hentry] at hcancel
      exact absurd rfl hcancel
    · have hnone : d.deadline.isNone := by simpa using hd
      simp [Timeouts.cancel, hp, hnone, Attempt.refuse]

/-! ### Histories -/

/-- A call on the registry and what it answered. -/
inductive Use where
  | set (p : Pid) (ms : UInt32) (outcome : Except Stop Unit)
  | cancel (p : Pid) (outcome : Except Stop Unit)
  | tick (ms : UInt32) (expired : List Pid)

namespace Use

/-- The milliseconds that pass with a call. -/
def millis : Use → Nat
  | tick ms _ => ms.toNat
  | _ => 0

/-- Whether a call has registered a process, or dropped its deadline. -/
def Renews (p : Pid) : Use → Prop
  | set q _ outcome => q = p ∧ outcome = .ok ()
  | cancel q outcome => q = p ∧ outcome = .ok ()
  | tick _ _ => False

/-- What a call makes of the registry and the table, as long as no sum of milliseconds goes out of range. -/
inductive Done : Use → Timeouts × Table → Timeouts × Table → Prop where
  | set (r : Timeouts) (t : Table) (p : Pid) (ms : UInt32)
      (room : (r.set t p ms).outcome = .ok () → r.ticks + ms.toNat ≤ Limits.millis) :
      Done (set p ms (r.set t p ms).outcome) (r, t) (r.set t p ms).state
  | cancel (r : Timeouts) (t : Table) (p : Pid) : Done (cancel p (r.cancel t p).outcome) (r, t) (r.cancel t p).state
  | tick (r : Timeouts) (t : Table) (ms : UInt32) (expired : List Pid) (s : Timeouts × Table)
      (room : r.nextDue ≠ none → r.ticks + ms.toNat ≤ Limits.millis) (done : r.tick t ms = .ok (expired, s)) :
      Done (tick ms expired) (r, t) s

end Use

/-- The milliseconds that have passed with some calls. -/
def elapsed (uses : List Use) : Nat := (uses.map Use.millis).sum

theorem elapsed_append (uses uses' : List Use) : elapsed (uses ++ uses') = elapsed uses + elapsed uses' := by
  rw [elapsed, List.map_append, List.sum_append, elapsed, elapsed]

/-- What comes before some call has taken no longer than what comes before the last one. -/
theorem elapsed_le_dropLast {uses early late : List Use} {u : Use} (h : uses = early ++ u :: late) :
    elapsed early ≤ elapsed uses.dropLast := by
  rw [h, List.dropLast_append_cons, elapsed_append]
  omega

/-- The calls on a registry that was empty at first, over a table whose deadlines only they change. -/
inductive History : List Use → Timeouts × Table → Prop where
  | new (t : Table) (idle : ∀ p, t.deadlineOf p = none) : History [] ({}, t)
  | use {uses : List Use} {u : Use} {s s' : Timeouts × Table} (h : History uses s) (done : u.Done s s') :
      History (uses ++ [u]) s'
  | other {uses : List Use} {r : Timeouts} {t t' : Table} (h : History uses (r, t)) (same : t'.deadlineOf = t.deadlineOf) :
      History uses (r, t')

/-! ### Absolute deadlines -/

/-- A clock that is never set back, and the time on it at which each registered process is due. -/
structure Agenda where
  now : Int := 0
  due : Pid → Option Int := fun _ => none

namespace Agenda

/-- The agenda after a call: with a tick go the processes that were due before it. -/
def note (a : Agenda) : Use → Agenda
  | .set p ms (.ok _) => { a with due := Function.update a.due p (some (a.now + ms.toNat)) }
  | .cancel p (.ok _) => { a with due := Function.update a.due p none }
  | .tick ms _ => { now := a.now + ms.toNat, due := fun p => (a.due p).filter (a.now ≤ ·) }
  | _ => a

/-- The agenda after some calls. -/
def after (a : Agenda) (uses : List Use) : Agenda := uses.foldl note a

variable {a : Agenda} {p : Pid} {uses : List Use} {due : Int}

theorem after_append (a : Agenda) (uses uses' : List Use) : a.after (uses ++ uses') = (a.after uses).after uses' :=
  List.foldl_append

theorem after_cons (a : Agenda) (u : Use) (uses : List Use) : a.after (u :: uses) = (a.note u).after uses := rfl

theorem now_note (a : Agenda) (u : Use) : (a.note u).now = a.now + u.millis := by
  cases u with
  | tick => rfl
  | set p ms outcome => cases outcome <;> simp [note, Use.millis]
  | cancel p outcome => cases outcome <;> simp [note, Use.millis]

theorem now_after (a : Agenda) (uses : List Use) : (a.after uses).now = a.now + elapsed uses := by
  induction uses generalizing a with
  | nil => simp [after, elapsed]
  | cons u uses ih =>
    rw [after_cons, ih, now_note]
    simp [elapsed]
    omega

/-- A call that does not renew a deadline keeps it, unless it is a tick after it. -/
theorem due_note {u : Use} (quiet : ¬u.Renews p) :
    (a.note u).due p = some due ↔ a.due p = some due ∧ ∀ ms expired, u = .tick ms expired → a.now ≤ due := by
  cases u with
  | tick ms expired => simp [note, Option.filter_eq_some_iff]
  | set q ms outcome =>
    cases outcome with
    | error e => simp [note]
    | ok x =>
      have hp : p ≠ q := fun e => quiet ⟨e.symm, rfl⟩
      simp [note, hp]
  | cancel q outcome =>
    cases outcome with
    | error e => simp [note]
    | ok x =>
      have hp : p ≠ q := fun e => quiet ⟨e.symm, rfl⟩
      simp [note, hp]

/-- A deadline that is not renewed stands until the first tick after it. -/
theorem due_after (quiet : ∀ u ∈ uses, ¬u.Renews p) :
    (a.after uses).due p = some due ↔ a.due p = some due ∧
      ∀ early ms expired late, uses = early ++ .tick ms expired :: late → a.now + elapsed early ≤ due := by
  induction uses generalizing a with
  | nil => simp [after]
  | cons u uses ih =>
    rw [after_cons, ih fun u hu => quiet u (List.mem_cons_of_mem _ hu), due_note (quiet u List.mem_cons_self), now_note,
      and_assoc]
    refine and_congr_right fun _ => ⟨fun ⟨hu, huses⟩ early ms expired late heq => ?_,
      fun h => ⟨fun ms expired heq => ?_, fun early ms expired late heq => ?_⟩⟩
    · -- Either the first tick is this call, or it is one of those that follow.
      cases early with
      | nil =>
        obtain ⟨rfl, rfl⟩ := List.cons_eq_cons.mp heq
        simpa [elapsed] using hu ms expired rfl
      | cons u' early =>
        obtain ⟨rfl, rfl⟩ := List.cons_eq_cons.mp heq
        have := huses early ms expired late rfl
        simp [elapsed] at this ⊢
        omega
    · simpa [elapsed] using h [] ms expired uses (by rw [heq]; rfl)
    · have := h (u :: early) ms expired late (by rw [heq]; rfl)
      simp [elapsed] at this ⊢
      omega

end Agenda

/-- The registry has the deadlines of the agenda, counted from its last scan. -/
structure Agrees (a : Agenda) (s : Timeouts × Table) : Prop where
  tracks : s.1.Tracks s.2
  left : ∀ p n, s.1.left s.2 p = some n ↔ a.due p = some (a.now + n)

namespace Agrees

variable {a : Agenda} {s s' : Timeouts × Table} {u : Use}

theorem update (h : Agrees a s) {r : Timeouts} {t : Table} (tracks : r.Tracks t) {p : Pid} {n : Option Int}
    (left : r.left t = Function.update (s.1.left s.2) p n) :
    Agrees { a with due := Function.update a.due p (n.map (a.now + ·)) } (r, t) := by
  refine ⟨tracks, fun q k => ?_⟩
  rw [left]
  by_cases hq : q = p
  · subst hq
    cases n <;> simp
  · simp [hq, h.left]

/-- The registry goes along with the agenda, call by call. -/
theorem note (h : Agrees a s) (done : u.Done s s') : Agrees (a.note u) s' := by
  cases done with
  | set r t p ms room =>
    by_cases hok : (r.set t p ms).outcome = .ok ()
    · obtain ⟨r', t', hstate, htracks, hleft⟩ := h.tracks.set_left hok
      have hcounted : r.counted ms = ms.toNat := counted_eq (room hok)
      rw [hstate, hok]
      exact h.update htracks (by rw [hleft, hcounted])
    · rw [set_of_refused hok]
      cases hout : (r.set t p ms).outcome with
      | error e => exact h
      | ok x => exact absurd hout hok
  | cancel r t p =>
    by_cases hok : (r.cancel t p).outcome = .ok ()
    · obtain ⟨r', t', hstate, htracks, hleft⟩ := h.tracks.cancel_left hok
      rw [hstate, hok]
      exact h.update htracks hleft
    · rw [h.tracks.cancel_of_refused hok]
      cases hout : (r.cancel t p).outcome with
      | error e => exact h
      | ok x => exact absurd hout hok
  | tick r t ms expired s' room done =>
    obtain ⟨expired', r', t', htick, htracks, -, -, hleft⟩ := h.tracks.tick ms
    obtain ⟨rfl, rfl⟩ : expired' = expired ∧ (r', t') = s' := by simpa [htick] using done
    refine ⟨htracks, fun p n => ?_⟩
    -- What is left to a deadline and what has passed add up to the same date.
    have hnow : a.now + (n + ms.toNat) = a.now + ms.toNat + n := by omega
    have hleft : r'.left t' p = some n ↔ 0 ≤ n + (ms.toNat : Int) ∧ r.left t p = some (n + ms.toNat) := by
      by_cases hnext : r.nextDue = none
      · have hnone : r.left t = fun _ => none := h.tracks.left_of_idle hnext
        simp [hleft, hnone]
      · rw [hleft, counted_eq (room hnext)]
    rw [hleft, h.left, hnow]
    simp only [Agenda.note, Option.filter_eq_some_iff, decide_eq_true_eq]
    exact ⟨fun ⟨hn, hdue⟩ => ⟨hdue, by omega⟩, fun ⟨hdue, hn⟩ => ⟨by omega, hdue⟩⟩

end Agrees

theorem History.agrees {uses : List Use} {s : Timeouts × Table} (h : History uses s) :
    Agrees (Agenda.after {} uses) s := by
  induction h with
  | new t idle => exact ⟨Tracks.of_idle idle, fun p n => by simp [left, idle, Agenda.after]⟩
  | use h done ih =>
    rw [Agenda.after_append]
    exact ih.note done
  | other h same ih =>
    exact ⟨ih.tracks.of_deadlines same, fun p n => by rw [← ih.left, left, left, same]⟩

/-- Each tick of a history was made where the calls before it had led. -/
theorem History.tick_at {uses before after : List Use} {s : Timeouts × Table} {ms : UInt32} {expired : List Pid}
    (h : History uses s) (hat : uses = before ++ .tick ms expired :: after) :
    ∃ r t s', History before (r, t) ∧ r.tick t ms = .ok (expired, s') := by
  induction h generalizing after with
  | new t idle => simp at hat
  | use h done ih =>
    rcases List.eq_nil_or_concat after with rfl | ⟨after, last, rfl⟩
    · obtain ⟨rfl, hu⟩ := List.append_inj' hat rfl
      obtain rfl := List.singleton_inj.mp hu
      cases done with
      | tick r t ms expired s' room done => exact ⟨r, t, _, h, done⟩
    · rw [List.concat_eq_append, ← List.cons_append, ← List.append_assoc] at hat
      exact ih (List.append_inj' hat rfl).1
  | other h same ih => exact ih hat

/-- A timeout of `ms` milliseconds that is not dropped fires in the first later tick before which more than `ms` have
passed, and in no other; whatever is set, dropped or fires besides. -/
theorem fires_in_first_tick_after_deadline {uses : List Use} {r : Timeouts} {t : Table} (h : History uses (r, t)) :
    (∀ ms, ∃ expired r' t', r.tick t ms = .ok (expired, r', t')) ∧
      ∀ before p ms between ms' expired after,
        uses = before ++ .set p ms (.ok ()) :: (between ++ .tick ms' expired :: after) →
        (∀ u ∈ between, ¬u.Renews p) →
        expired.Nodup ∧ (p ∈ expired ↔ ms.toNat < elapsed between ∧
          ∀ early ms'' expired' late, between = early ++ .tick ms'' expired' :: late → elapsed early ≤ ms.toNat) := by
  constructor
  · intro ms
    obtain ⟨expired, r', t', htick, -⟩ := h.agrees.tracks.tick ms
    exact ⟨expired, r', t', htick⟩
  · intro before p ms between ms' expired after huses quiet
    have hsplit : uses = (before ++ .set p ms (.ok ()) :: between) ++ .tick ms' expired :: after := by
      rw [huses, List.append_assoc, List.cons_append]
    obtain ⟨r₀, t₀, s₀, h₀, htick₀⟩ := h.tick_at hsplit
    obtain ⟨expired', r₁, t₁, htick, -, hdistinct, hexpired, -⟩ := h₀.agrees.tracks.tick ms'
    obtain ⟨rfl, -⟩ : expired' = expired ∧ (r₁, t₁) = s₀ := by simpa [htick₀] using htick.symm
    refine ⟨hdistinct, ?_⟩
    -- The agenda once `p` is set; the calls between do not renew its deadline.
    generalize ha : (Agenda.after {} before).note (.set p ms (.ok ())) = a
    have hagrees : Agrees (a.after between) (r₀, t₀) := by
      rw [← ha, ← Agenda.after_cons, ← Agenda.after_append]
      exact h₀.agrees
    have hset : a.due p = some (a.now + ms.toNat) := by
      rw [← ha]
      simp [Agenda.note]
    have hnow := Agenda.now_after a between
    rw [hexpired]
    constructor
    · rintro ⟨n, hn, hpassed⟩
      obtain ⟨hdue, hearly⟩ := (Agenda.due_after quiet).mp ((hagrees.left p n).mp hn)
      have hn : a.now + ms.toNat = (a.after between).now + n := Option.some_inj.mp (hset.symm.trans hdue)
      refine ⟨by omega, fun early ms'' expired'' late heq => ?_⟩
      have := hearly early ms'' expired'' late heq
      omega
    · rintro ⟨hpassed, hearly⟩
      refine ⟨ms.toNat - elapsed between, (hagrees.left p _).mpr ((Agenda.due_after quiet).mpr ⟨?_, ?_⟩), by omega⟩
      · rw [hset, hnow]
        congr 1
        omega
      · intro early ms'' expired'' late heq
        have := hearly early ms'' expired'' late heq
        omega

/-- Two processes time out, one after 5 milliseconds, the other not at all. -/
theorem history_of_two : ∃ s expired, History
    [.set ⟨1⟩ 5 (.ok ()), .set ⟨0⟩ 20 (.ok ()), .tick 4 [], .cancel ⟨0⟩ (.ok ()), .tick 4 [], .tick 2 expired] s := by
  have h₀ := History.new ⟨[.fresh ⟨0⟩ "a" ⟨0, 1⟩, .fresh ⟨1⟩ "b" ⟨1, 1⟩], .zero, 2⟩ (Table.deadlineOf_eq_none (by decide))
  have h₁ := h₀.use (.set _ _ ⟨1⟩ 5 fun _ => by decide)
  have h₂ := h₁.use (.set _ _ ⟨0⟩ 20 fun _ => by decide)
  have h₃ := h₂.use (.tick _ _ 4 _ _ (fun _ => by decide) rfl)
  have h₄ := h₃.use (.cancel _ _ ⟨0⟩)
  have h₅ := h₄.use (.tick _ _ 4 _ _ (fun _ => by decide) rfl)
  exact ⟨_, _, h₅.use (.tick _ _ 2 _ _ (fun _ => by decide) rfl)⟩

theorem fires_in_first_tick_after_deadline_two : ∃ s expired, History
    [.set ⟨1⟩ 5 (.ok ()), .set ⟨0⟩ 20 (.ok ()), .tick 4 [], .cancel ⟨0⟩ (.ok ()), .tick 4 [], .tick 2 expired] s ∧
    ⟨1⟩ ∈ expired := by
  obtain ⟨s, expired, h⟩ := history_of_two
  refine ⟨s, expired, h, ((fires_in_first_tick_after_deadline h).2 [] ⟨1⟩ 5
    [.set ⟨0⟩ 20 (.ok ()), .tick 4 [], .cancel ⟨0⟩ (.ok ()), .tick 4 []] 2 expired [] rfl ?_).2.mpr ⟨by decide, ?_⟩⟩
  · simp [Use.Renews]
  · intro early ms expired' late heq
    exact Nat.le_trans (elapsed_le_dropLast heq) (by decide)

end Timeouts

end Rendezvous
