import Mathlib.Logic.Function.Basic
import Mathlib.Data.List.Nodup
import Rendezvous.Pid

/-! Lists threaded through one successor field. Many lists share the field: each member knows which
    list it is in (`link`), so that a change of one list leaves the others alone. Inserting and removing
    a member rewires its predecessor, or the head of the list if it has none. -/

namespace Rendezvous

/-- Following `next` from `start` visits exactly these members, in order, and arrives at `stop`. -/
def Segment (next : Pid → Option Pid) : Option Pid → List Pid → Option Pid → Prop
  | start, [], stop => start = stop
  | start, p :: rest, stop => start = some p ∧ Segment next (next p) rest stop

namespace Segment

variable {next next' : Pid → Option Pid} {start stop : Option Pid} {l m : List Pid} {p : Pid}

theorem append : Segment next start (l ++ m) stop ↔
    ∃ middle, Segment next start l middle ∧ Segment next middle m stop := by
  induction l generalizing start with
  | nil => simp [Segment]
  | cons q rest ih =>
    simp only [List.cons_append, Segment, ih]
    constructor
    · rintro ⟨hq, middle, h₁, h₂⟩
      exact ⟨middle, ⟨hq, h₁⟩, h₂⟩
    · rintro ⟨middle, ⟨hq, h₁⟩, h₂⟩
      exact ⟨hq, middle, h₁, h₂⟩

theorem congr (h : Segment next start l stop) (same : ∀ q ∈ l, next' q = next q) :
    Segment next' start l stop := by
  induction l generalizing start with
  | nil => exact h
  | cons q rest ih =>
    refine ⟨h.1, ?_⟩
    rw [same q List.mem_cons_self]
    exact ih h.2 fun x hx => same x (List.mem_cons_of_mem q hx)

theorem start_eq (h : Segment next start l none) : start = l.head? := by
  cases l with
  | nil => exact h
  | cons q rest => exact h.1

theorem unique (h : Segment next start l none) (h' : Segment next start m none) : l = m := by
  induction l generalizing start m with
  | nil =>
    cases m with
    | nil => rfl
    | cons q rest =>
      have hnone : start = none := h
      rw [hnone] at h'
      exact absurd h'.1 (by simp)
  | cons q rest ih =>
    cases m with
    | nil =>
      have hnone : start = none := h'
      rw [hnone] at h
      exact absurd h.1 (by simp)
    | cons q' rest' =>
      obtain rfl : q = q' := by simpa using h.1.symm.trans h'.1
      rw [ih h.2 h'.2]

/-- A list that ends visits no member twice: the rest of the list is the same after each visit. -/
theorem nodup (h : Segment next start l none) : l.Nodup := by
  induction l generalizing start with
  | nil => exact List.nodup_nil
  | cons q rest ih =>
    refine List.nodup_cons.mpr ⟨fun hq => ?_, ih h.2⟩
    obtain ⟨r₁, r₂, hr⟩ := List.append_of_mem hq
    have hrest := h.2
    rw [hr] at hrest
    obtain ⟨middle, -, h₂⟩ := append.mp hrest
    have hlen := congrArg List.length (unique h.2 h₂.2)
    rw [hr] at hlen
    simp at hlen
    omega

theorem next_of_append {ahead behind : List Pid} (h : Segment next start (ahead ++ p :: behind) none) :
    next p = behind.head? := by
  obtain ⟨middle, -, h₂⟩ := append.mp h
  exact h₂.2.start_eq

end Segment

section Wiring

variable {κ : Type} [DecidableEq κ]

/-- The successor field with `after` behind `before`, if there is a `before`. -/
def rewire (next : Pid → Option Pid) (before after : Option Pid) : Pid → Option Pid :=
  match before with
  | none => next
  | some b => Function.update next b after

/-- The heads with `after` as the head of list `q`, if nothing comes before it. -/
def rehead (head : κ → Option Pid) (q : κ) (before after : Option Pid) : κ → Option Pid :=
  match before with
  | none => Function.update head q after
  | some _ => head

theorem rewire_of_ne {next : Pid → Option Pid} {before after : Option Pid} {p : Pid} (h : before ≠ some p) :
    rewire next before after p = next p := by
  cases before with
  | none => rfl
  | some b => exact Function.update_of_ne (fun he => h (congrArg some he.symm)) _ _

theorem rehead_of_ne {head : κ → Option Pid} {q q' : κ} {before after : Option Pid} (h : q' ≠ q) :
    rehead head q before after q' = head q' := by
  cases before with
  | none => exact Function.update_of_ne h _ _
  | some b => rfl

/-- A segment leads elsewhere once its last member, or its start if it has none, does. -/
theorem Segment.redirect {next : Pid → Option Pid} {head : κ → Option Pid} {q : κ} {l : List Pid}
    {stop : Option Pid} (h : Segment next (head q) l stop) (hl : l.Nodup) (stop' : Option Pid) :
    Segment (rewire next l.getLast? stop') (rehead head q l.getLast? stop' q) l stop' := by
  rcases List.eq_nil_or_concat l with rfl | ⟨init, b, rfl⟩
  · simp [Segment, rehead]
  · rw [List.concat_eq_append] at h hl ⊢
    obtain ⟨middle, h₁, hb, -⟩ := Segment.append.mp h
    have hlast : b ∉ init := (List.nodup_concat init b).mp (by simpa using hl) |>.1
    rw [List.getLast?_concat]
    refine Segment.append.mpr ⟨middle, h₁.congr fun p hp => ?_, hb, ?_⟩
    · exact Function.update_of_ne (ne_of_mem_of_not_mem hp hlast) _ _
    · exact Function.update_self b stop' next

/-- `queue` tells the members of every list, `head` where it starts; `next` threads them all, and `link`
    tells the list that a member is in. -/
structure Threaded (head : κ → Option Pid) (next : Pid → Option Pid) (link : Pid → Option κ)
    (queue : κ → List Pid) : Prop where
  path : ∀ q, Segment next (head q) (queue q) none
  member : ∀ q p, p ∈ queue q ↔ link p = some q
  alone : ∀ p, link p = none → next p = none

namespace Threaded

variable {head : κ → Option Pid} {next : Pid → Option Pid} {link : Pid → Option κ} {queue : κ → List Pid}
  {q : κ} {p : Pid} {ahead behind : List Pid}

omit [DecidableEq κ]

theorem nodup (h : Threaded head next link queue) (q : κ) : (queue q).Nodup := (h.path q).nodup

theorem not_mem (h : Threaded head next link queue) (free : link p = none) (q : κ) : p ∉ queue q := by
  rw [h.member, free]
  simp

theorem not_mem_of_ne (h : Threaded head next link queue) {q' : κ} (hp : p ∈ queue q') (hq : q' ≠ q) :
    p ∉ queue q := fun hp' =>
  hq (Option.some.inj (((h.member q' p).mp hp).symm.trans ((h.member q p).mp hp')))

variable [DecidableEq κ]

/-- Who is in which list, but for `p`, once list `q` has changed by `p` alone. -/
theorem member_of_ne (h : Threaded head next link queue) {members : List Pid}
    (same : ∀ x, x ≠ p → (x ∈ members ↔ x ∈ queue q)) (linked : Option κ) {x : Pid} (hx : x ≠ p) (q' : κ) :
    x ∈ Function.update queue q members q' ↔ Function.update link p linked x = some q' := by
  rw [Function.update_of_ne hx, ← h.member]
  by_cases hq' : q' = q
  · subst hq'
    rw [Function.update_self]
    exact same x hx
  · rw [Function.update_of_ne hq']

/-- A process in no list can go into any list, between any two members. -/
theorem insert (h : Threaded head next link queue) (free : link p = none)
    (hq : queue q = ahead ++ behind) :
    Threaded (rehead head q ahead.getLast? (some p))
      (rewire (Function.update next p behind.head?) ahead.getLast? (some p))
      (Function.update link p (some q)) (Function.update queue q (ahead ++ p :: behind)) := by
  have fresh := h.not_mem free q
  have distinct := h.nodup q
  rw [hq] at fresh distinct
  have hlast : ∀ x, ahead.getLast? = some x → x ∈ ahead := fun x hx => List.mem_of_getLast? hx
  have hlastp : ahead.getLast? ≠ some p := fun hx => fresh (List.mem_append_left _ (hlast p hx))
  refine ⟨fun q' => ?_, fun q' x => ?_, fun x hx => ?_⟩
  · by_cases hq' : q' = q
    · -- The members ahead lead to `p`, and `p` to the members behind.
      subst hq'
      have hpath := h.path q'
      rw [hq] at hpath
      obtain ⟨middle, h₁, h₂⟩ := Segment.append.mp hpath
      rw [Function.update_self]
      have h₁' : Segment (Function.update next p behind.head?) (head q') ahead middle := h₁.congr fun x hx =>
        Function.update_of_ne (ne_of_mem_of_not_mem (List.mem_append_left _ hx) fresh) _ _
      refine Segment.append.mpr ⟨some p, h₁'.redirect (List.Nodup.of_append_left distinct) (some p), rfl, ?_⟩
      rw [rewire_of_ne hlastp, Function.update_self, ← h₂.start_eq]
      refine h₂.congr fun x hx => ?_
      rw [rewire_of_ne fun hx' => List.disjoint_of_nodup_append distinct (hlast x hx') hx,
        Function.update_of_ne (ne_of_mem_of_not_mem (List.mem_append_right _ hx) fresh)]
    · -- No member of another list is rewired.
      rw [rehead_of_ne hq', Function.update_of_ne hq']
      refine (h.path q').congr fun x hx => ?_
      have hxq := h.not_mem_of_ne hx hq'
      rw [hq] at hxq
      rw [rewire_of_ne fun hl => hxq (List.mem_append_left _ (hlast x hl)),
        Function.update_of_ne (ne_of_mem_of_not_mem hx (h.not_mem free q'))]
  · by_cases hx : x = p
    · subst hx
      rw [Function.update_self]
      by_cases hq' : q' = q
      · subst hq'
        simp
      · rw [Function.update_of_ne hq']
        exact ⟨fun hx => absurd hx (h.not_mem free q'), fun he => absurd (Option.some.inj he).symm hq'⟩
    · -- Membership of the others is as before: the weaving moves nobody but `p`.
      exact h.member_of_ne (fun y hy => by simp [hq, hy]) _ hx q'
  · -- A process outside all lists is not the last one ahead, so nothing leads from it.
    have hxp : x ≠ p := fun he => by
      rw [he, Function.update_self] at hx
      cases hx
    rw [Function.update_of_ne hxp] at hx
    have hxq := h.not_mem hx q
    rw [hq] at hxq
    rw [rewire_of_ne fun hl => hxq (List.mem_append_left _ (hlast x hl)), Function.update_of_ne hxp]
    exact h.alone x hx

/-- Any member can go out of its list. -/
theorem remove (h : Threaded head next link queue) (hq : queue q = ahead ++ p :: behind) :
    Threaded (rehead head q ahead.getLast? behind.head?)
      (Function.update (rewire next ahead.getLast? behind.head?) p none)
      (Function.update link p none) (Function.update queue q (ahead ++ behind)) := by
  have distinct := h.nodup q
  rw [hq] at distinct
  have hlast : ∀ x, ahead.getLast? = some x → x ∈ ahead := fun x hx => List.mem_of_getLast? hx
  obtain ⟨fresh, distinct'⟩ := List.nodup_middle.mp distinct |> List.nodup_cons.mp
  refine ⟨fun q' => ?_, fun q' x => ?_, fun x hx => ?_⟩
  · by_cases hq' : q' = q
    · -- The members ahead of `p` lead past it to those behind.
      subst hq'
      have hpath := h.path q'
      rw [hq] at hpath
      obtain ⟨middle, h₁, h₂⟩ := Segment.append.mp hpath
      rw [Function.update_self]
      have hbehind := h₂.2
      rw [hbehind.start_eq] at hbehind
      refine (Segment.append.mpr ⟨behind.head?, h₁.redirect (List.Nodup.of_append_left distinct) behind.head?,
        hbehind.congr fun x hx => ?_⟩).congr fun x hx => ?_
      · exact rewire_of_ne fun hx' => List.disjoint_of_nodup_append distinct' (hlast x hx') hx
      · exact Function.update_of_ne (ne_of_mem_of_not_mem hx fresh) _ _
    · rw [rehead_of_ne hq', Function.update_of_ne hq']
      refine (h.path q').congr fun x hx => ?_
      have hxq := h.not_mem_of_ne hx hq'
      rw [hq] at hxq
      rw [Function.update_of_ne fun he => hxq (by simp [he]),
        rewire_of_ne fun hl => hxq (List.mem_append_left _ (hlast x hl))]
  · by_cases hx : x = p
    · subst hx
      rw [Function.update_self]
      refine ⟨fun hx => ?_, fun he => by cases he⟩
      by_cases hq' : q' = q
      · subst hq'
        rw [Function.update_self] at hx
        exact absurd hx fresh
      · -- It was in one list only, by membership.
        rw [Function.update_of_ne hq', h.member] at hx
        have hmem := (h.member q x).mp (by simp [hq])
        exact absurd (Option.some.inj (hx.symm.trans hmem)) hq'
    · exact h.member_of_ne (fun y hy => by simp [hq, hy]) _ hx q'
  · by_cases hxp : x = p
    · rw [hxp, Function.update_self]
    · rw [Function.update_of_ne hxp] at hx ⊢
      have hxq := h.not_mem hx q
      rw [hq] at hxq
      rw [rewire_of_ne fun hl => hxq (List.mem_append_left _ (hlast x hl))]
      exact h.alone x hx

end Threaded

end Wiring

end Rendezvous
