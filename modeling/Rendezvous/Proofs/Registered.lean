import Rendezvous.Proofs.Saturation

/-! # What is registered

The registry in every state that its calls lead to, at the end of the clock too. Its entries are the processes with a
deadline, the clock runs only while there are some, and a deadline that was passed at a scan without being due is
negative until the next tick, which fires it. No difference that a scan takes goes beyond a signed word of 32 bits. -/

namespace Rendezvous

namespace Timeouts

variable {r r' : Timeouts} {t t' : Table} {p : Pid} {d : Int} {ms : UInt32} {expired : List Pid}

/-- A number that a signed word of 32 bits holds. -/
def Representable (n : Int) : Prop := -2147483648 ≤ n ∧ n ≤ 2147483647

theorem saturate_le (n : Int) : saturate n ≤ Limits.millis := by
  unfold saturate
  omega

/-- A registry whose clock stands at zero while nothing is registered, or while a deadline is overdue. -/
structure Regular (r : Timeouts) (t : Table) : Prop extends r.InRange t where
  size : r.size ≤ Limits.processes
  rest : r.entries = [] → r.ticks = 0
  overdue : ∀ p d, t.deadlineOf p = some d → d < 0 → r.ticks = 0
  least : ∀ p d, t.deadlineOf p = some d → -Limits.millis ≤ d

namespace Regular

theorem le_millis (h : r.Regular t) (hp : t.deadlineOf p = some d) : d ≤ Limits.millis := by
  have := h.left p (d - r.ticks) (left_eq_some.mpr ⟨d, hp, rfl⟩)
  omega

theorem of_idle (idle : ∀ p, t.deadlineOf p = none) : Regular {} t where
  toInRange := .of_idle idle
  size := Nat.zero_le _
  rest _ := rfl
  overdue _ _ _ _ := rfl
  least p d hp := by simp [idle p] at hp

theorem of_deadlines (h : r.Regular t) (same : t'.deadlineOf = t.deadlineOf) : r.Regular t' :=
  ⟨h.toInRange.of_deadlines same, h.size, h.rest, same ▸ h.overdue, same ▸ h.least⟩

theorem set (h : r.Regular t) (p : Pid) (ms : UInt32) : Regular (r.set t p ms).state.1 (r.set t p ms).state.2 := by
  by_cases hok : (r.set t p ms).outcome = .ok ()
  · have hrange := h.toInRange.set p ms
    obtain ⟨d, hp, hd, hsize⟩ := found_of_set hok
    have hdue := saturate_nonneg h.tracks.ticks ms
    have hmillis : -Limits.millis ≤ 0 := by decide
    rw [set_ok hp hd hsize] at hrange ⊢
    refine ⟨hrange, by simpa [Attempt.done, Timeouts.size, Nat.succ_le_iff] using hsize, by simp [Attempt.done],
      fun q due hq hpassed => ?_, fun q due hq => ?_⟩
    all_goals
      simp only [Attempt.done, Table.deadlineOf_put hp] at hq
      by_cases hqp : q = p
    · rw [hqp, Function.update_self] at hq
      cases hq
      omega
    · rw [Function.update_of_ne hqp] at hq
      exact h.overdue q due hq hpassed
    · rw [hqp, Function.update_self] at hq
      cases hq
      omega
    · rw [Function.update_of_ne hqp] at hq
      exact h.least q due hq
  · rw [set_of_refused hok]
    exact h

theorem cancel (h : r.Regular t) (p : Pid) : Regular (r.cancel t p).state.1 (r.cancel t p).state.2 := by
  by_cases hok : (r.cancel t p).outcome = .ok ()
  · have hrange := h.toInRange.cancel p
    obtain ⟨d, hp, hd⟩ := found_of_cancel hok
    have hentry : p ∈ r.entries := (h.tracks.entry p).mpr (by rwa [Table.deadlineOf_eq hp])
    rw [cancel_ok hp hd hentry] at hrange ⊢
    have hstays : ∀ q due, (t.put p { d with deadline := none }).deadlineOf q = some due →
        t.deadlineOf q = some due := by
      intro q due hq
      rw [Table.deadlineOf_put hp] at hq
      by_cases hqp : q = p
      · simp [hqp] at hq
      · rwa [Function.update_of_ne hqp] at hq
    -- The clock stays at zero, whether the registry is emptied or not.
    have hzero : r.ticks = 0 → (r.without p).ticks = 0 := by
      intro hzero
      rcases without_cases hentry with ⟨hw, -⟩ | ⟨entries, -, -, hw⟩
      · rw [hw]
      · rw [hw]
        exact hzero
    refine ⟨hrange, ?_, ?_, fun q due hq hpassed => hzero (h.overdue q due (hstays q due hq) hpassed),
      fun q due hq => h.least q due (hstays q due hq)⟩
    · have hlength := (without_perm hentry).length_eq
      rw [List.length_cons] at hlength
      exact Nat.le_trans (Nat.le_of_lt (Nat.lt_of_succ_le (Nat.le_of_eq hlength))) h.size
    intro hnone
    rcases without_cases hentry with ⟨hw, -⟩ | ⟨entries, hne, -, hw⟩
    · simp [Attempt.done, hw]
    · simp only [Attempt.done, hw] at hnone
      exact absurd hnone hne
  · rw [h.tracks.cancel_of_refused hok]
    exact h

theorem tick (h : r.Regular t) (htick : r.tick t ms = .ok (expired, r', t')) : r'.Regular t' := by
  have hrange := h.toInRange.tick htick
  have hticks := h.tracks.ticks
  cases hnext : r.nextDue with
  | none =>
    rw [tick_of_none hnext] at htick
    cases htick
    exact h
  | some next =>
    by_cases hearly : r.ticks ≤ next
    · rw [tick_of_early hnext hearly] at htick
      cases htick
      refine ⟨hrange, h.size, fun hnone => ?_, fun p d hp hpassed => ?_, h.least⟩
      · have hnothing := h.tracks.nothing.mpr hnone
        rw [hnext] at hnothing
        cases hnothing
      · -- No deadline has passed, as the earliest one has not.
        have := h.tracks.next p d next hp hnext
        omega
    · obtain ⟨_, r₁, t₁, htick₁, -, -, -, hzero, hrest⟩ := h.tracks.tick_scan hnext hearly ms
      rw [htick₁] at htick
      cases htick
      refine ⟨hrange, ?_, fun _ => hzero, fun _ _ _ _ => hzero, fun p d hp => ?_⟩
      · -- A scan adds no entry.
        have hstays : r'.entries ⊆ r.entries := by
          intro p hp
          obtain ⟨d, hd⟩ := Option.isSome_iff_exists.mp ((hrange.tracks.entry p).mp hp)
          rw [hrest, remaining_eq_some] at hd
          obtain ⟨due, hdue, -⟩ := hd
          rw [h.tracks.entry, hdue, Option.isSome_some]
        exact Nat.le_trans (List.subperm_of_subset hrange.tracks.distinct hstays).length_le h.size
      rw [hrest, remaining_eq_some] at hp
      obtain ⟨due, -, hlate, rfl⟩ := hp
      have := saturate_le (r.ticks + saturate ms.toNat)
      omega

theorem made {u : Use} {s s' : Timeouts × Table} (h : s.1.Regular s.2) (made : u.Made s s') : s'.1.Regular s'.2 := by
  cases made with
  | set r t p ms => exact h.set p ms
  | cancel r t p => exact h.cancel p
  | tick r t ms expired s' done => exact h.tick done

/-- What a tick returns are the processes whose deadline has passed, and they go out of the registry. -/
theorem tick_expires (h : r.Regular t) (ms : UInt32) :
    ∃ expired r' t', r.tick t ms = .ok (expired, r', t') ∧ expired.Nodup ∧ expired.length ≤ Limits.processes ∧
      (∀ p, p ∈ expired ↔ ∃ d, t.deadlineOf p = some d ∧ d < r.ticks) ∧
      ∀ p, p ∈ expired ↔ p ∈ r.entries ∧ p ∉ r'.entries := by
  obtain ⟨expired, r', t', htick, htracks, hdistinct, hexpired, hleft⟩ := h.tracks.tick ms
  have hentries : expired ⊆ r.entries := by
    intro p hp
    obtain ⟨n, hn, -⟩ := (hexpired p).mp hp
    exact h.tracks.mem_iff.mpr ⟨n, hn⟩
  refine ⟨expired, r', t', htick, hdistinct,
    Nat.le_trans (List.subperm_of_subset hdistinct hentries).length_le h.size, fun p => ?_, fun p => ?_⟩
  · rw [hexpired]
    constructor
    · rintro ⟨n, hn, hpassed⟩
      obtain ⟨d, hd, rfl⟩ := left_eq_some.mp hn
      exact ⟨d, hd, by omega⟩
    · rintro ⟨d, hd, hpassed⟩
      exact ⟨d - r.ticks, left_eq_some.mpr ⟨d, hd, rfl⟩, by omega⟩
  · rw [hexpired, h.tracks.mem_iff, htracks.mem_iff]
    constructor
    · rintro ⟨n, hn, hpassed⟩
      refine ⟨⟨n, hn⟩, ?_⟩
      rintro ⟨n', hn'⟩
      have hlate := (hleft p n').mp hn'
      rw [hn, Option.some_inj] at hlate
      omega
    · rintro ⟨⟨n, hn⟩, hgone⟩
      by_contra hnot
      have hlate : 0 ≤ n := by
        by_contra hpassed
        exact hnot ⟨n, hn, by omega⟩
      exact hgone ⟨n - r.counted ms, (hleft p _).mpr ⟨by omega, by rw [hn]; congr 1; omega⟩⟩

/-- The difference that a scan takes of a deadline that has not passed is in range, wherever the scan has got to. -/
theorem scan_fits (h : r.Regular t) {before after : List Pid} (hat : r.entries = before ++ p :: after) (ms : UInt32) :
    ∃ s : Scan, before.foldlM (Scan.visit r.ticks (saturate (r.ticks + saturate ms.toNat))) ⟨[], [], none, t⟩ = .ok s ∧
      s.table.deadlineOf p = t.deadlineOf p ∧
      ∀ d, s.table.deadlineOf p = some d → r.ticks ≤ d →
        Representable (d - saturate (r.ticks + saturate ms.toNat)) := by
  have hticks := h.tracks.ticks
  have hdistinct := h.tracks.distinct
  rw [hat] at hdistinct
  -- The scan has not been at `p` yet, so its deadline is the one from the start.
  have hp : p ∉ before := fun hp => (List.nodup_append.mp hdistinct).2.2 p hp p List.mem_cons_self rfl
  have hfound : ∀ q ∈ before, (t.get? q).isSome := by
    intro q hq
    obtain ⟨d, hd, -⟩ := h.tracks.found (by rw [hat]; exact List.mem_append_left _ hq)
    rw [hd, Option.isSome_some]
  obtain ⟨t', hscan, hplain, -⟩ := scan_ok (s := ⟨[], [], none, t⟩) r.ticks (saturate (r.ticks + saturate ms.toNat))
    (List.nodup_append.mp hdistinct).1 hfound
  have hsame : t'.deadlineOf p = t.deadlineOf p := by
    rw [← Table.deadlineOf_plain, congrFun hplain p, if_neg hp, Table.deadlineOf_plain]
  refine ⟨_, hscan, hsame, fun d hd hlate => ?_⟩
  have hmost := h.le_millis (hsame ▸ hd)
  have hlater := saturate_le (r.ticks + saturate ms.toNat)
  have hleast := saturate_nonneg hticks ms
  have hmillis : Limits.millis = 2 ^ 31 - 1 := rfl
  unfold Representable
  omega

end Regular

theorem Reaches.regular {uses : List Use} {s s' : Timeouts × Table} (h : Reaches s uses s') (hs : s.1.Regular s.2) :
    s'.1.Regular s'.2 := by
  induction h with
  | start => exact hs
  | use _ made ih => exact ih.made made
  | other _ same ih => exact ih.of_deadlines same

/-- A deadline stands until a tick comes or it is dropped. -/
theorem Use.Made.deadline_stands {u : Use} {s s' : Timeouts × Table} (made : u.Made s s') (h : s.1.Regular s.2)
    (quiet : ∀ ms expired, u ≠ .tick ms expired) (kept : u ≠ .cancel p (.ok ())) (hp : s.2.deadlineOf p = some d) :
    s'.2.deadlineOf p = some d := by
  cases made with
  | tick r t ms expired s' done => exact absurd rfl (quiet ms expired)
  | set r t q ms =>
    by_cases hok : (r.set t q ms).outcome = .ok ()
    · obtain ⟨e, hq, he, hsize⟩ := found_of_set hok
      have hpq : p ≠ q := by
        rintro rfl
        simp [Table.deadlineOf_eq hq, he] at hp
      simpa [set_ok hq he hsize, Attempt.done, Table.deadlineOf_put hq, hpq] using hp
    · rwa [set_of_refused hok]
  | cancel r t q =>
    by_cases hok : (r.cancel t q).outcome = .ok ()
    · have hpq : p ≠ q := by
        rintro rfl
        exact kept (by rw [hok])
      obtain ⟨e, hq, he⟩ := found_of_cancel hok
      have hentry : q ∈ r.entries := (h.tracks.entry q).mpr (by rwa [Table.deadlineOf_eq hq])
      simpa [cancel_ok hq he hentry, Attempt.done, Table.deadlineOf_put hq, hpq] using hp
    · rwa [h.tracks.cancel_of_refused hok]

theorem Reaches.deadline_stands {uses : List Use} {s s' : Timeouts × Table} (h : Reaches s uses s')
    (hs : s.1.Regular s.2) (quiet : ∀ ms expired, .tick ms expired ∉ uses) (kept : .cancel p (.ok ()) ∉ uses)
    (hp : s.2.deadlineOf p = some d) : s'.2.deadlineOf p = some d := by
  induction h with
  | start => exact hp
  | @use uses u s₁ s₂ h made ih =>
    refine made.deadline_stands (h.regular hs) ?_ ?_ (ih ?_ ?_)
    · rintro ms expired rfl
      exact quiet ms expired (by simp)
    · rintro rfl
      exact kept (by simp)
    · intro ms expired hmem
      exact quiet ms expired (List.mem_append_left _ hmem)
    · intro hmem
      exact kept (List.mem_append_left _ hmem)
  | other h same ih =>
    rw [same]
    exact ih quiet kept

/-- An overdue deadline fires in the next tick, whatever else is set or dropped before it. -/
theorem Regular.overdue_expires (h : r.Regular t) (hp : t.deadlineOf p = some d) (hd : d < 0) {uses : List Use}
    {r₁ : Timeouts} {t₁ : Table} (hlater : Reaches (r, t) uses (r₁, t₁)) (quiet : ∀ ms expired, .tick ms expired ∉ uses)
    (kept : .cancel p (.ok ()) ∉ uses) {s : Timeouts × Table} (htick : r₁.tick t₁ ms = .ok (expired, s)) :
    p ∈ expired := by
  have hregular : r₁.Regular t₁ := hlater.regular h
  obtain ⟨_, _, _, htick₁, -, -, hexpired, -⟩ := hregular.tick_expires ms
  rw [htick] at htick₁
  cases htick₁
  have hstands : t₁.deadlineOf p = some d := hlater.deadline_stands h quiet kept hp
  have hticks := hregular.tracks.ticks
  exact (hexpired p).mpr ⟨d, hstands, by omega⟩

/-- The registry in every state that its calls lead to from an empty one. -/
theorem registry_regular {t₀ : Table} {uses : List Use} {r : Timeouts} {t : Table}
    (idle : ∀ p, t₀.deadlineOf p = none) (h : Reaches ({}, t₀) uses (r, t)) :
    (r.entries.Nodup ∧ ∀ p, p ∈ r.entries ↔ ∃ d, t.deadlineOf p = some d) ∧
    ((r.nextDue = none ↔ r.entries = []) ∧
      ∀ due, r.nextDue = some due → ∀ p d, t.deadlineOf p = some d → due ≤ d) ∧
    (0 ≤ r.ticks ∧ (r.entries = [] → r.ticks = 0)) ∧
    (∀ p d, t.deadlineOf p = some d → d < 0 → r.ticks = 0 ∧
      ∀ uses' r₁ t₁, Reaches (r, t) uses' (r₁, t₁) → (∀ ms expired, .tick ms expired ∉ uses') →
        .cancel p (.ok ()) ∉ uses' → ∀ ms expired s, r₁.tick t₁ ms = .ok (expired, s) → p ∈ expired) ∧
    (∀ ms before p after, r.entries = before ++ p :: after →
      ∃ s : Scan,
        before.foldlM (Scan.visit r.ticks (saturate (r.ticks + saturate ms.toNat))) ⟨[], [], none, t⟩ = .ok s ∧
        s.table.deadlineOf p = t.deadlineOf p ∧
        ∀ d, s.table.deadlineOf p = some d → r.ticks ≤ d →
          Representable (d - saturate (r.ticks + saturate (UInt32.toNat ms)))) ∧
    ∀ ms, ∃ expired r' t', r.tick t ms = .ok (expired, r', t') ∧ expired.Nodup ∧ expired.length ≤ Limits.processes ∧
      (∀ p, p ∈ expired ↔ ∃ d, t.deadlineOf p = some d ∧ d < r.ticks) ∧
      ∀ p, p ∈ expired ↔ p ∈ r.entries ∧ p ∉ r'.entries := by
  have hregular : r.Regular t := h.regular (.of_idle idle)
  have htracks := hregular.tracks
  refine ⟨⟨htracks.distinct, fun p => ?_⟩, ⟨htracks.nothing, fun due hdue p d hp => htracks.next p d due hp hdue⟩,
    ⟨htracks.ticks, hregular.rest⟩, fun p d hp hd => ⟨hregular.overdue p d hp hd, ?_⟩,
    fun ms before p after hat => hregular.scan_fits hat ms, hregular.tick_expires⟩
  · rw [htracks.entry, Option.isSome_iff_exists]
  · intro uses' r₁ t₁ hlater quiet kept ms expired s htick
    exact hregular.overdue_expires hp hd hlater quiet kept htick

/-- One of two deadlines is passed in the tick that scans for the other one. -/
theorem overtaken : Reaches ({}, pair none none)
    [.set ⟨0⟩ 5 (.ok ()), .set ⟨1⟩ 35 (.ok ()), .tick 30 [], .tick 10 [⟨0⟩]]
    (⟨[⟨1⟩], 0, some (-5)⟩, pair none (some (-5))) := by
  have h₁ := Reaches.start.use (Use.Made.set {} (pair none none) ⟨0⟩ 5)
  have h₂ := h₁.use (.set _ _ ⟨1⟩ 35)
  have h₃ := h₂.use (.tick _ _ 30 [] _ rfl)
  exact h₃.use (.tick _ _ 10 [⟨0⟩] _ rfl)

theorem registry_regular_overtaken :
    Reaches ({}, pair none none) [.set ⟨0⟩ 5 (.ok ()), .set ⟨1⟩ 35 (.ok ()), .tick 30 [], .tick 10 [⟨0⟩]]
      (⟨[⟨1⟩], 0, some (-5)⟩, pair none (some (-5))) ∧
    ∀ ms expired s,
      Timeouts.tick ⟨[⟨1⟩], 0, some (-5)⟩ (pair none (some (-5))) ms = .ok (expired, s) → ⟨1⟩ ∈ expired := by
  obtain ⟨-, -, -, hoverdue, -, -⟩ := registry_regular pair_idle overtaken
  obtain ⟨-, hfires⟩ := hoverdue ⟨1⟩ (-5) rfl (by decide)
  exact ⟨overtaken, hfires [] _ _ .start (by simp) (by simp)⟩

end Timeouts

end Rendezvous
