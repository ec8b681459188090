import Mathlib.Data.List.TakeWhile
import Rendezvous.Proofs.Courses

/-! # The order in a ready queue

The policies keep every ready queue in order, whoever comes in: by arrival, or by score and among equals by arrival. -/

namespace Rendezvous

/-- How a policy wants two processes to stand in a ready queue; `earlier` tells who has come in before whom. -/
def Policy.Orders (policy : Policy) (score : Pid → Option Nat) (earlier : Pid → Pid → Prop) (p q : Pid) : Prop :=
  match policy with
  | .fifo => earlier p q
  | .scored => ∃ a b, score p = some a ∧ score q = some b ∧ (a < b ∨ a = b ∧ earlier p q)

/-- Whether a process of this rank goes into the ready queue of the level. -/
def goesTo (rank : Pid → Option (Option Level × Nat)) (l : Level) (p : Pid) : Bool := (rank p).any (·.1 = some l)

/-- The score of a process, as its rank tells. -/
def scoreOf (rank : Pid → Option (Option Level × Nat)) (p : Pid) : Option Nat := (rank p).map (·.2)

namespace Policy

variable {policy : Policy} {score : Pid → Option Nat} {earlier : Pid → Pid → Prop} {members : List Pid} {p q : Pid}
  {own : Nat}

theorem Orders.mono {earlier' : Pid → Pid → Prop} (h : policy.Orders score earlier p q)
    (hp : earlier p q → earlier' p q) : policy.Orders score earlier' p q := by
  cases policy with
  | fifo => exact hp h
  | scored =>
    obtain ⟨a, b, ha, hb, hab⟩ := h
    exact ⟨a, b, ha, hb, hab.imp_right fun he => ⟨he.1, hp he.2⟩⟩

theorem Orders.of_score {score' : Pid → Option Nat} (h : policy.Orders score earlier p q) (hp : score' p = score p)
    (hq : score' q = score q) : policy.Orders score' earlier p q := by
  cases policy with
  | fifo => exact h
  | scored =>
    obtain ⟨a, b, ha, hb, hab⟩ := h
    exact ⟨a, b, hp.trans ha, hq.trans hb, hab⟩

/-- Behind those that are not to stand before a newcomer, nobody is. -/
theorem lt_of_mem_dropWhile (h : members.Pairwise (Policy.scored.Orders score earlier))
    (hscore : ∀ x ∈ members, (score x).isSome) (hq : q ∈ members.dropWhile fun x => (score x).any (· ≤ own)) :
    ∃ b, score q = some b ∧ own < b := by
  have hdrop : (members.dropWhile fun x => (score x).any (· ≤ own)).Pairwise (Policy.scored.Orders score earlier) :=
    h.sublist (List.dropWhile_sublist _)
  have hfirst := List.head?_dropWhile_not (fun x => (score x).any (· ≤ own)) members
  have hmem : ∀ x ∈ members.dropWhile fun x => (score x).any (· ≤ own), x ∈ members := fun x hx =>
    (List.dropWhile_sublist _).subset hx
  cases hd : members.dropWhile fun x => (score x).any (· ≤ own) with
  | nil =>
    rw [hd] at hq
    cases hq
  | cons z rest =>
    rw [hd] at hfirst hq hdrop hmem
    obtain ⟨a, ha⟩ := Option.isSome_iff_exists.mp (hscore z (hmem z List.mem_cons_self))
    -- The first one behind has the larger score, and the others behind it are no smaller.
    have hlt : own < a := by simpa [ha] using hfirst
    rcases List.mem_cons.mp hq with rfl | hq
    · exact ⟨a, ha, hlt⟩
    · obtain ⟨a', b, ha', hb, hab⟩ := (List.pairwise_cons.mp hdrop).1 q hq
      obtain rfl : a = a' := Option.some_inj.mp (ha.symm.trans ha')
      refine ⟨b, hb, ?_⟩
      rcases hab with hab | ⟨rfl, -⟩ <;> omega

/-- A policy keeps a queue in order when somebody comes in who is later than all in it. -/
theorem insert_orders (h : members.Pairwise (policy.Orders score earlier)) (hscore : ∀ x ∈ members, (score x).isSome)
    (hp : score p = some own) (hlate : ∀ x ∈ members, earlier x p) :
    (policy.insert (fun x => (score x).any (· ≤ own)) members p).Pairwise (policy.Orders score earlier) := by
  cases policy with
  | fifo =>
    refine List.pairwise_append.mpr ⟨h, List.pairwise_singleton .., fun x hx y hy => ?_⟩
    rw [List.mem_singleton.mp hy]
    exact hlate x hx
  | scored =>
    have hsplit := h
    rw [← List.takeWhile_append_dropWhile (p := fun x => (score x).any (· ≤ own)) (l := members)] at hsplit
    obtain ⟨htake, hdrop, hcross⟩ := List.pairwise_append.mp hsplit
    refine List.pairwise_append.mpr ⟨htake, List.pairwise_cons.mpr ⟨fun y hy => ?_, hdrop⟩, fun x hx y hy => ?_⟩
    · obtain ⟨b, hb, hlt⟩ := lt_of_mem_dropWhile h hscore hy
      exact ⟨own, b, hp, hb, .inl hlt⟩
    · rcases List.mem_cons.mp hy with rfl | hy
      · have hx' : x ∈ members := (List.takeWhile_sublist _).subset hx
        obtain ⟨a, ha⟩ := Option.isSome_iff_exists.mp (hscore x hx')
        -- Who stays ahead has a score no larger, and came earlier.
        have hle : a ≤ own := by
          have hpass := List.mem_takeWhile_imp hx
          simpa [ha] using hpass
        refine ⟨a, own, ha, hp, ?_⟩
        rcases Nat.lt_or_eq_of_le hle with hlt | heq
        · exact .inl hlt
        · exact .inr ⟨heq, hlate x hx'⟩
      · exact hcross x hx y hy

/-! ### Newcomers -/

variable {rank : Pid → Option (Option Level × Nat)} {ready : Level → List Pid} {ws : List Pid}

/-- A newcomer goes into the queue of its level, and no other queue changes. -/
theorem place_eq (policy : Policy) (rank : Pid → Option (Option Level × Nat)) (ready : Level → List Pid) (p : Pid)
    (l : Level) :
    policy.place rank ready p l = if goesTo rank l p then
      policy.insert (fun x => (scoreOf rank x).any (· ≤ (scoreOf rank p).getD 0)) (ready l) p else ready l := by
  unfold place goesTo scoreOf
  rcases rank p with _ | ⟨_ | l', own⟩
  · rfl
  · rfl
  · by_cases hl : l = l'
    · subst hl
      simp [Option.any_map]
    · have hne : l' ≠ l := fun he => hl he.symm
      simp [Function.update_of_ne hl, hne]

theorem place_perm (policy : Policy) (l : Level) :
    (ws.foldl (policy.place rank) ready l).Perm (ws.filter (goesTo rank l) ++ ready l) := by
  induction ws generalizing ready with
  | nil => exact List.Perm.refl _
  | cons w ws ih =>
    refine ih.trans ?_
    rw [place_eq]
    by_cases hw : goesTo rank l w
    · rw [if_pos hw, List.filter_cons_of_pos hw]
      exact ((policy.insert_perm _ _ w).append_left _).trans List.perm_middle
    · rw [if_neg hw, List.filter_cons_of_neg hw]

/-- In order of arrival, newcomers stand behind all others. -/
theorem place_fifo (l : Level) : ws.foldl (Policy.fifo.place rank) ready l = ready l ++ ws.filter (goesTo rank l) := by
  induction ws generalizing ready with
  | nil => exact (List.append_nil _).symm
  | cons w ws ih =>
    rw [List.foldl_cons, ih, place_eq]
    by_cases hw : goesTo rank l w
    · rw [if_pos hw, List.filter_cons_of_pos hw, insert, List.append_assoc]
      rfl
    · rw [if_neg hw, List.filter_cons_of_neg hw]

/-- The ready queues stay in order when processes come in, one after the other. -/
theorem place_orders (earlier : Level → Pid → Pid → Prop)
    (h : ∀ l, (ready l).Pairwise (policy.Orders (scoreOf rank) (earlier l)))
    (hrank : ∀ l, ∀ x ∈ ready l, (scoreOf rank x).isSome)
    (hlate : ∀ l, ∀ x ∈ ready l, ∀ w ∈ ws, goesTo rank l w → earlier l x w)
    (hws : ws.Pairwise fun v w => ∀ l, goesTo rank l v → goesTo rank l w → earlier l v w) (l : Level) :
    (ws.foldl (policy.place rank) ready l).Pairwise (policy.Orders (scoreOf rank) (earlier l)) := by
  induction ws generalizing ready with
  | nil => exact h l
  | cons w ws ih =>
    obtain ⟨hfirst, hrest⟩ := List.pairwise_cons.mp hws
    -- One newcomer at a time: afterwards it is one of those that the next one comes behind.
    have hmem : ∀ l x, x ∈ policy.place rank ready w l → x ∈ ready l ∨ x = w ∧ goesTo rank l w := by
      intro l x hx
      rw [place_eq] at hx
      split at hx
      · rename_i hw
        exact (List.mem_cons.mp ((policy.insert_perm _ _ w).mem_iff.mp hx)).symm.imp_right fun he => ⟨he, hw⟩
      · exact .inl hx
    have hscore : ∀ l, goesTo rank l w → ∃ own, scoreOf rank w = some own := by
      intro l hw
      obtain ⟨r, hr, -⟩ := (Option.any_eq_true ..).mp hw
      exact ⟨r.2, by rw [scoreOf, hr, Option.map_some]⟩
    refine ih (fun l => ?_) (fun l x hx => ?_) (fun l x hx v hv hgoes => ?_) hrest
    · rw [place_eq]
      split
      · rename_i hw
        obtain ⟨own, hown⟩ := hscore l hw
        rw [hown]
        exact insert_orders (h l) (hrank l) hown fun x hx => hlate l x hx w List.mem_cons_self hw
      · exact h l
    · rcases hmem l x hx with hx | ⟨rfl, hw⟩
      · exact hrank l x hx
      · obtain ⟨own, hown⟩ := hscore l hw
        rw [hown, Option.isSome_some]
    · rcases hmem l x hx with hx | ⟨rfl, hw⟩
      · exact hlate l x hx v (List.mem_cons_of_mem _ hv) hgoes
      · exact hfirst v hv l hw hgoes

end Policy

end Rendezvous
