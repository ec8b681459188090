import Rendezvous.Proofs.Deadlines

/-! # Timeouts at the end of the clock

Neither the clock of the registry nor a deadline goes beyond the largest value. A timeout that would is cut short when
it is set, and fires early if another one sets the clock back. A clock that has stopped there stays if the deadline that
is due next is there too, and then no timeout fires any more. Up to that, ticks make progress. -/

namespace Rendezvous

namespace Timeouts

/-- What a call makes of the registry and the table, whatever milliseconds it is given. -/
inductive Use.Made : Use → Timeouts × Table → Timeouts × Table → Prop where
  | set (r : Timeouts) (t : Table) (p : Pid) (ms : UInt32) :
      Made (.set p ms (r.set t p ms).outcome) (r, t) (r.set t p ms).state
  | cancel (r : Timeouts) (t : Table) (p : Pid) : Made (.cancel p (r.cancel t p).outcome) (r, t) (r.cancel t p).state
  | tick (r : Timeouts) (t : Table) (ms : UInt32) (expired : List Pid) (s : Timeouts × Table)
      (done : r.tick t ms = .ok (expired, s)) : Made (.tick ms expired) (r, t) s

/-- The calls that lead from one registry to another, over a table whose deadlines only they change. -/
inductive Reaches (s : Timeouts × Table) : List Use → Timeouts × Table → Prop where
  | start : Reaches s [] s
  | use {uses : List Use} {u : Use} {s₁ s₂ : Timeouts × Table} (h : Reaches s uses s₁) (made : u.Made s₁ s₂) :
      Reaches s (uses ++ [u]) s₂
  | other {uses : List Use} {r : Timeouts} {t t' : Table} (h : Reaches s uses (r, t))
      (same : t'.deadlineOf = t.deadlineOf) : Reaches s uses (r, t')

theorem Reaches.two {s s₁ s₂ : Timeouts × Table} {u₁ u₂ : Use} (made₁ : u₁.Made s s₁) (made₂ : u₂.Made s₁ s₂) :
    Reaches s [u₁, u₂] s₂ :=
  (Reaches.start.use made₁).use made₂

variable {r r' : Timeouts} {t t' : Table} {p : Pid} {n : Int} {ms : UInt32} {expired : List Pid}

theorem elapsed_singleton (u : Use) : elapsed [u] = u.millis := by
  rw [elapsed, List.map_singleton, List.sum_singleton]

theorem left_congr (same : t'.deadlineOf = t.deadlineOf) : r.left t' = r.left t := by
  funext p
  rw [left, left, same]

theorem Tracks.mem_iff (h : r.Tracks t) : p ∈ r.entries ↔ ∃ n, r.left t p = some n := by
  rw [h.entry, left, ← Option.isSome_iff_exists, Option.isSome_map]

/-! ### The range of the clock -/

/-- A registry whose clock and deadlines have not gone beyond the largest value. -/
structure InRange (r : Timeouts) (t : Table) : Prop where
  tracks : r.Tracks t
  ticks : r.ticks ≤ Limits.millis
  left : ∀ p n, r.left t p = some n → r.ticks + n ≤ Limits.millis

theorem ticks_cancel_le (h : r.Tracks t) : (r.cancel t p).state.1.ticks ≤ r.ticks := by
  have hticks := h.ticks
  unfold Timeouts.cancel
  split
  · exact Int.le_refl _
  · split
    · exact Int.le_refl _
    · dsimp only
      split
      · exact Int.le_refl _
      · split
        · exact hticks
        · exact Int.le_refl _

theorem counted_nonneg (h : r.ticks ≤ Limits.millis) (ms : UInt32) : 0 ≤ r.counted ms := by
  unfold counted
  omega

theorem ticks_add_counted_le (r : Timeouts) (ms : UInt32) : r.ticks + r.counted ms ≤ Limits.millis := by
  unfold counted
  omega

/-- The clock goes on by the milliseconds that are counted, or is set back. -/
theorem InRange.ticks_tick_le (h : r.InRange t) (htick : r.tick t ms = .ok (expired, r', t')) :
    r'.ticks ≤ r.ticks + r.counted ms := by
  have hticks := h.tracks.ticks
  have hcounted := counted_nonneg h.ticks ms
  cases hnext : r.nextDue with
  | none =>
    rw [tick_of_none hnext] at htick
    cases htick
    omega
  | some next =>
    by_cases hearly : r.ticks ≤ next
    · rw [tick_of_early hnext hearly] at htick
      cases htick
      exact Int.le_of_eq (saturate_sum hticks ms)
    · obtain ⟨_, r₁, t₁, hscan, -, -, -, hzero, -⟩ := h.tracks.tick_scan hnext hearly ms
      rw [hscan] at htick
      cases htick
      omega

namespace InRange

theorem of_idle (idle : ∀ p, t.deadlineOf p = none) : InRange {} t where
  tracks := .of_idle idle
  ticks := by decide
  left p n hn := by simp [Timeouts.left, idle] at hn

theorem of_deadlines (h : r.InRange t) (same : t'.deadlineOf = t.deadlineOf) : r.InRange t' :=
  ⟨h.tracks.of_deadlines same, h.ticks, left_congr (r := r) same ▸ h.left⟩

theorem set (h : r.InRange t) (p : Pid) (ms : UInt32) :
    InRange (r.set t p ms).state.1 (r.set t p ms).state.2 := by
  by_cases hok : (r.set t p ms).outcome = .ok ()
  · have hticks : (r.set t p ms).state.1.ticks = r.ticks := by
      unfold Timeouts.set
      split
      · rfl
      · repeat' split
        all_goals rfl
    obtain ⟨r', t', hstate, htracks, hleft⟩ := h.tracks.set_left hok
    rw [hstate] at hticks ⊢
    refine ⟨htracks, hticks ▸ h.ticks, fun q n hn => ?_⟩
    rw [hleft] at hn
    dsimp only at hticks
    by_cases hq : q = p
    · rw [hq, Function.update_self] at hn
      cases hn
      rw [hticks]
      exact ticks_add_counted_le r ms
    · rw [Function.update_of_ne hq] at hn
      rw [hticks]
      exact h.left q n hn
  · rw [set_of_refused hok]
    exact h

theorem cancel (h : r.InRange t) (p : Pid) : InRange (r.cancel t p).state.1 (r.cancel t p).state.2 := by
  by_cases hok : (r.cancel t p).outcome = .ok ()
  · have hticks := ticks_cancel_le h.tracks (p := p)
    obtain ⟨r', t', hstate, htracks, hleft⟩ := h.tracks.cancel_left hok
    rw [hstate] at hticks ⊢
    refine ⟨htracks, Int.le_trans hticks h.ticks, fun q n hn => ?_⟩
    rw [hleft] at hn
    by_cases hq : q = p
    · simp [hq] at hn
    · rw [Function.update_of_ne hq] at hn
      exact Int.le_trans (Int.add_le_add_right hticks n) (h.left q n hn)
  · rw [h.tracks.cancel_of_refused hok]
    exact h

theorem tick (h : r.InRange t) (htick : r.tick t ms = .ok (expired, r', t')) : r'.InRange t' := by
  have hle := h.ticks_tick_le htick
  obtain ⟨_, r₁, t₁, htick₁, htracks, -, -, hleft⟩ := h.tracks.tick ms
  rw [htick₁] at htick
  cases htick
  refine ⟨htracks, Int.le_trans hle (ticks_add_counted_le r ms), fun p n hn => ?_⟩
  have := h.left p _ ((hleft p n).mp hn).2
  omega

theorem made {u : Use} {s s' : Timeouts × Table} (h : s.1.InRange s.2) (made : u.Made s s') : s'.1.InRange s'.2 := by
  cases made with
  | set r t p ms => exact h.set p ms
  | cancel r t p => exact h.cancel p
  | tick r t ms expired s' done => exact h.tick done

end InRange

theorem Reaches.inRange {uses : List Use} {s s' : Timeouts × Table} (h : Reaches s uses s') (hs : s.1.InRange s.2) :
    s'.1.InRange s'.2 := by
  induction h with
  | start => exact hs
  | use _ made ih => exact ih.made made
  | other _ same ih => exact ih.of_deadlines same

/-! ### No deadline is passed before its time -/

/-- A call that does not set a deadline takes no more off it than the milliseconds that pass. -/
theorem Use.Made.left_le {u : Use} (made : u.Made (r, t) (r', t')) (h : r.Tracks t)
    (unset : ∀ ms, u ≠ .set p ms (.ok ())) (hn : r'.left t' p = some n) :
    ∃ n', r.left t p = some n' ∧ n' ≤ n + u.millis := by
  generalize hs : (r, t) = s at made
  generalize hs' : (r', t') = s' at made
  cases made with
  | set r t q ms =>
    cases hs
    by_cases hok : (r.set t q ms).outcome = .ok ()
    · have hp : p ≠ q := fun e => unset ms (by rw [e, hok])
      obtain ⟨r₁, t₁, hstate, -, hleft⟩ := h.set_left hok
      rw [hstate] at hs'
      cases hs'
      rw [hleft, Function.update_of_ne hp] at hn
      exact ⟨n, hn, by simp [Use.millis]⟩
    · rw [set_of_refused hok] at hs'
      cases hs'
      exact ⟨n, hn, by simp [Use.millis]⟩
  | cancel r t q =>
    cases hs
    by_cases hok : (r.cancel t q).outcome = .ok ()
    · obtain ⟨r₁, t₁, hstate, -, hleft⟩ := h.cancel_left hok
      rw [hstate] at hs'
      cases hs'
      -- A deadline that is dropped is not left, so another one was dropped.
      have hp : p ≠ q := fun e => by simp [hleft, e] at hn
      rw [hleft, Function.update_of_ne hp] at hn
      exact ⟨n, hn, by simp [Use.millis]⟩
    · rw [h.cancel_of_refused hok] at hs'
      cases hs'
      exact ⟨n, hn, by simp [Use.millis]⟩
  | tick r t ms expired s done =>
    cases hs
    obtain ⟨_, r₁, t₁, htick, -, -, -, hleft⟩ := h.tick ms
    rw [htick] at done
    cases done
    cases hs'
    refine ⟨_, ((hleft p n).mp hn).2, ?_⟩
    simp only [Use.millis, counted]
    omega

theorem Reaches.left_le {uses : List Use} {s : Timeouts × Table} (h : Reaches s uses (r, t)) (hs : s.1.InRange s.2)
    (unset : ∀ ms, .set p ms (.ok ()) ∉ uses) (hn : r.left t p = some n) :
    ∃ n', s.1.left s.2 p = some n' ∧ n' ≤ n + elapsed uses := by
  generalize hs' : (r, t) = s' at h
  induction h generalizing r t n with
  | start =>
    cases hs'
    exact ⟨n, hn, by simp [elapsed]⟩
  | @use uses u s₁ s₂ h made ih =>
    cases hs'
    obtain ⟨n₁, hn₁, hle₁⟩ := made.left_le (h.inRange hs).tracks (fun ms e => unset ms (by simp [e])) hn
    obtain ⟨n', hn', hle⟩ := ih (fun ms hmem => unset ms (List.mem_append_left _ hmem)) hn₁ rfl
    have hsum : elapsed (uses ++ [u]) = elapsed uses + u.millis := by rw [elapsed_append, elapsed_singleton]
    exact ⟨n', hn', by omega⟩
  | other h same ih =>
    cases hs'
    rw [left_congr same] at hn
    exact ih unset hn rfl

/-- A timeout fires only after its milliseconds have passed, or as many as the clock had room for when it was set. -/
theorem fires_after_counted {t₀ : Table} {before between : List Use} {r r₁ : Timeouts} {t t₁ : Table} {p : Pid}
    {ms ms' : UInt32} {expired : List Pid} {s : Timeouts × Table} (idle : ∀ p, t₀.deadlineOf p = none)
    (hbefore : Reaches ({}, t₀) before (r, t)) (hset : (r.set t p ms).outcome = .ok ())
    (hbetween : Reaches (r.set t p ms).state between (r₁, t₁)) (unset : ∀ ms, .set p ms (.ok ()) ∉ between)
    (htick : r₁.tick t₁ ms' = .ok (expired, s)) (hp : p ∈ expired) :
    min (ms.toNat : Int) (Limits.millis - r.ticks) < elapsed between := by
  have hrange : r.InRange t := hbefore.inRange (.of_idle idle)
  obtain ⟨_, r₂, t₂, htick₁, -, -, hexpired, -⟩ := (hbetween.inRange (hrange.set p ms)).tracks.tick ms'
  rw [htick₁] at htick
  cases htick
  obtain ⟨n, hn, hpassed⟩ := (hexpired p).mp hp
  obtain ⟨n', hn', hle⟩ := hbetween.left_le (hrange.set p ms) unset hn
  obtain ⟨r', t', hstate, -, hleft⟩ := hrange.tracks.set_left hset
  rw [hstate, hleft, Function.update_self] at hn'
  have hcounted : r.counted ms = n' := Option.some_inj.mp hn'
  unfold counted at hcounted
  omega

/-- A table of two processes with some deadlines. -/
def pair (due due' : Option Int) : Table :=
  ⟨[{ Descriptor.fresh ⟨0⟩ "a" ⟨0, 1⟩ with deadline := due }, { Descriptor.fresh ⟨1⟩ "b" ⟨1, 1⟩ with deadline := due' }],
    .zero, 2⟩

theorem pair_idle : ∀ p, (pair none none).deadlineOf p = none := Table.deadlineOf_eq_none (by decide)

/-- A timeout of the largest value is set late, and the clock is set back when another one fires. -/
theorem shortened :
    Reaches ({}, pair none none) [.set ⟨0⟩ 5 (.ok ()), .tick 1000000000 []]
      (⟨[⟨0⟩], 1000000000, some 5⟩, pair (some 5) none) ∧
    Reaches (Timeouts.set ⟨[⟨0⟩], 1000000000, some 5⟩ (pair (some 5) none) ⟨1⟩ 2147483647).state
      [.tick 1 [⟨0⟩], .tick 1147483647 []] (⟨[⟨1⟩], 1147483647, some 1147483646⟩, pair none (some 1147483646)) ∧
    Timeouts.tick ⟨[⟨1⟩], 1147483647, some 1147483646⟩ (pair none (some 1147483646)) 1 =
      .ok ([⟨1⟩], {}, pair none none) := by
  have hset := Use.Made.set {} (pair none none) ⟨0⟩ 5
  have hfired : Use.Made (.tick 1 [⟨0⟩])
      (Timeouts.set ⟨[⟨0⟩], 1000000000, some 5⟩ (pair (some 5) none) ⟨1⟩ 2147483647).state
      (⟨[⟨1⟩], 0, some 1147483646⟩, pair none (some 1147483646)) := .tick _ _ _ _ _ rfl
  exact ⟨.two hset (.tick _ _ _ _ _ rfl), .two hfired (.tick _ _ _ _ _ rfl), rfl⟩

theorem fires_after_counted_shortened :
    Reaches ({}, pair none none) [.set ⟨0⟩ 5 (.ok ()), .tick 1000000000 []]
      (⟨[⟨0⟩], 1000000000, some 5⟩, pair (some 5) none) ∧
    Reaches (Timeouts.set ⟨[⟨0⟩], 1000000000, some 5⟩ (pair (some 5) none) ⟨1⟩ 2147483647).state
      [.tick 1 [⟨0⟩], .tick 1147483647 []] (⟨[⟨1⟩], 1147483647, some 1147483646⟩, pair none (some 1147483646)) ∧
    min (UInt32.toNat 2147483647 : Int) (Limits.millis - 1000000000) <
      elapsed [.tick 1 [⟨0⟩], .tick 1147483647 []] := by
  obtain ⟨hbefore, hbetween, htick⟩ := shortened
  exact ⟨hbefore, hbetween,
    fires_after_counted pair_idle hbefore rfl hbetween (by simp) htick (List.mem_singleton_self _)⟩

/-- The milliseconds themselves need not have passed, not even with the tick in which the timeout fires. -/
theorem fires_early_once_shortened : ¬∀ (t₀ : Table) (before between : List Use) (r r₁ : Timeouts) (t t₁ : Table)
    (p : Pid) (ms ms' : UInt32) (expired : List Pid) (s : Timeouts × Table), (∀ p, t₀.deadlineOf p = none) →
    Reaches ({}, t₀) before (r, t) → (r.set t p ms).outcome = .ok () → (ms.toNat : Int) ≤ Limits.millis →
    Reaches (r.set t p ms).state between (r₁, t₁) → (∀ ms, .set p ms (.ok ()) ∉ between) →
    r₁.tick t₁ ms' = .ok (expired, s) → p ∈ expired → ms.toNat ≤ elapsed (between ++ [.tick ms' expired]) := by
  intro hclaim
  obtain ⟨hbefore, hbetween, htick⟩ := shortened
  have hle := hclaim _ _ _ _ _ _ _ ⟨1⟩ 2147483647 1 [⟨1⟩] _ pair_idle hbefore rfl (by decide) hbetween (by simp) htick
    (List.mem_singleton_self _)
  simp [elapsed, Use.millis] at hle

/-! ### Progress -/

namespace InRange

/-- A tick fires a timeout or takes the milliseconds it counts off it. -/
theorem tick_advances (h : r.InRange t) (htick : r.tick t ms = .ok (expired, r', t')) (hn : r.left t p = some n) :
    p ∈ expired ∨ r'.left t' p = some (n - r.counted ms) := by
  obtain ⟨_, r₁, t₁, htick₁, -, -, hexpired, hleft⟩ := h.tracks.tick ms
  rw [htick₁] at htick
  cases htick
  by_cases hpassed : n < 0
  · exact .inl ((hexpired p).mpr ⟨n, hn, hpassed⟩)
  · refine .inr ((hleft p _).mpr ⟨by omega, ?_⟩)
    rw [hn]
    congr 1
    omega

theorem stopped_of_counted (h : r.InRange t) (hms : 0 < ms.toNat) (hzero : r.counted ms ≤ 0) :
    r.ticks = Limits.millis := by
  have := h.ticks
  unfold counted at hzero
  omega

/-- A tick that takes nothing off a deadline finds the clock stopped. -/
theorem stopped_of_stays (h : r.InRange t) (hms : 0 < ms.toNat) (hstays : r.tick t ms = .ok (expired, r, t))
    (hn : r.left t p = some n) : r.ticks = Limits.millis := by
  obtain ⟨_, _, _, htick, -, -, -, hleft⟩ := h.tracks.tick ms
  rw [htick] at hstays
  cases hstays
  have hn' := ((hleft p n).mp hn).2
  rw [hn] at hn'
  have hcounted := Option.some_inj.mp hn'
  exact h.stopped_of_counted hms (by omega)

/-- A tick changes nothing only once the clock has stopped, and no earlier deadline is there to set it back. -/
theorem tick_eq_self_iff (h : r.InRange t) (hentries : r.entries ≠ []) (hms : 0 < ms.toNat)
    (htick : r.tick t ms = .ok (expired, r', t')) :
    (r', t') = (r, t) ↔ r.ticks = Limits.millis ∧ r.nextDue = some Limits.millis := by
  obtain ⟨next, hnext⟩ := Option.ne_none_iff_exists'.mp (mt h.tracks.nothing.mp hentries)
  constructor
  · intro hsame
    cases hsame
    obtain ⟨p, hp⟩ := List.exists_mem_of_ne_nil _ hentries
    obtain ⟨n, hn⟩ := h.tracks.mem_iff.mp hp
    have hstopped := h.stopped_of_stays hms htick hn
    -- A scan would set the clock back to zero.
    have hearly : r.ticks ≤ next := by
      by_contra hscan
      obtain ⟨_, _, _, htick₁, -, -, -, hzero, -⟩ := h.tracks.tick_scan hnext hscan ms
      rw [htick₁] at htick
      cases htick
      rw [hstopped] at hzero
      cases hzero
    obtain ⟨due, hdue, hcount⟩ := left_eq_some.mp hn
    have hlate := h.tracks.next p due next hdue hnext
    have hend := h.left p n hn
    exact ⟨hstopped, by rw [hnext]; congr 1; omega⟩
  · rintro ⟨hstopped, hlast⟩
    have hstays : saturate (r.ticks + saturate ms.toNat) = r.ticks := by
      rw [saturate_sum h.tracks.ticks, hstopped]
      omega
    rw [tick_of_early hlast (Int.le_of_eq hstopped), hstays] at htick
    cases htick
    rfl

end InRange

/-- Each tick fires a timeout or brings it closer, up to the end of the clock: there, it is set back if a deadline has
passed, and else stays for good. -/
theorem advances_until_stopped {t₀ : Table} {uses : List Use} {r : Timeouts} {t : Table} {ms : UInt32}
    (idle : ∀ p, t₀.deadlineOf p = none) (h : Reaches ({}, t₀) uses (r, t)) (hms : 0 < ms.toNat) :
    ∃ expired r' t', r.tick t ms = .ok (expired, r', t') ∧
      (∀ p ∈ r.entries, ∃ n, r.left t p = some n ∧ (p ∈ expired ∨ (∃ n', r'.left t' p = some n' ∧ n' < n) ∨
        r.ticks = Limits.millis ∧ n = 0 ∧ r'.left t' p = some 0)) ∧
      (r.entries ≠ [] → ((r', t') = (r, t) ↔ r.ticks = Limits.millis ∧ r.nextDue = some Limits.millis)) := by
  have hrange : r.InRange t := h.inRange (.of_idle idle)
  obtain ⟨expired, r', t', htick, -, -, hexpired, -⟩ := hrange.tracks.tick ms
  refine ⟨expired, r', t', htick, fun p hp => ?_, fun hentries => hrange.tick_eq_self_iff hentries hms htick⟩
  obtain ⟨n, hn⟩ := hrange.tracks.mem_iff.mp hp
  refine ⟨n, hn, ?_⟩
  rcases hrange.tick_advances htick hn with hfired | hleft
  · exact .inl hfired
  · by_cases hcounted : 0 < r.counted ms
    · exact .inr (.inl ⟨_, hleft, by omega⟩)
    · -- Nothing is counted, so the clock is at its end.
      have hstopped := hrange.stopped_of_counted hms (by omega)
      have hzero : r.counted ms = 0 := by
        have := counted_nonneg hrange.ticks ms
        omega
      rw [hzero, Int.sub_zero] at hleft
      by_cases hpassed : n < 0
      · exact .inl ((hexpired p).mpr ⟨n, hn, hpassed⟩)
      · obtain rfl : n = 0 := by
          have := hrange.left p n hn
          omega
        exact .inr (.inr ⟨hstopped, rfl, hleft⟩)

/-- A timeout of the largest value and one tick as long. -/
theorem stopped : Reaches ({}, pair none none) [.set ⟨0⟩ 2147483647 (.ok ()), .tick 2147483647 []]
    (⟨[⟨0⟩], 2147483647, some 2147483647⟩, pair (some 2147483647) none) := by
  have hset := Use.Made.set {} (pair none none) ⟨0⟩ 2147483647
  exact .two hset (.tick _ _ _ _ _ rfl)

theorem advances_until_stopped_shortened :
    Reaches ({}, pair none none) [.set ⟨0⟩ 5 (.ok ()), .tick 1000000000 []]
      (⟨[⟨0⟩], 1000000000, some 5⟩, pair (some 5) none) ∧ 0 < UInt32.toNat 1 ∧
    ∃ expired r' t', Timeouts.tick ⟨[⟨0⟩], 1000000000, some 5⟩ (pair (some 5) none) 1 = .ok (expired, r', t') ∧
      (r', t') ≠ (⟨[⟨0⟩], 1000000000, some 5⟩, pair (some 5) none) := by
  have hms : 0 < UInt32.toNat 1 := by decide
  obtain ⟨expired, r', t', htick, -, hsame⟩ := advances_until_stopped pair_idle shortened.1 hms
  refine ⟨shortened.1, hms, expired, r', t', htick, fun hsame' => ?_⟩
  have hstopped := ((hsame (by simp)).mp hsame').1
  simp [Limits.millis] at hstopped

/-- A clock that has stopped at the only deadline: no tick brings it closer any more. -/
theorem stands_still_when_stopped : ¬∀ (t₀ t t' : Table) (uses : List Use) (r r' : Timeouts) (ms : UInt32)
    (expired : List Pid), (∀ p, t₀.deadlineOf p = none) → Reaches ({}, t₀) uses (r, t) → 0 < ms.toNat →
    r.tick t ms = .ok (expired, r', t') →
    ∀ p n, r.left t p = some n → p ∈ expired ∨ ∃ n', r'.left t' p = some n' ∧ n' < n := by
  intro hclaim
  rcases hclaim _ _ _ _ _ _ 1 [] pair_idle stopped (by decide) rfl ⟨0⟩ 0 rfl with hfired | ⟨n', hn', hlt⟩
  · cases hfired
  · obtain rfl : 0 = n' := Option.some_inj.mp hn'
    exact Int.lt_irrefl 0 hlt

end Timeouts

end Rendezvous
