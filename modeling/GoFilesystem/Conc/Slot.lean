import GoFilesystem.Conc.Usage

/-!
# A shared resource behind a mutex

A slot holds a resource that several threads use: a connection, say.  It is made
when somebody needs one and there is none, a thread that finds it broken releases
it and empties the slot, and in the end the slot is shut: what it holds is
released and nothing is made any more.  A mutex guards the slot, but not the
resource, so a thread may find broken what has been replaced in the meantime.

`Event` is what a command means for the slot, `act` its effect, and `Phase.Step`
the order in which a thread may cause the events.  Threads that keep to that
order never leak a resource and never release one twice (`Inv.step`).
-/

namespace GoFilesystem.Conc.Slot

/-! ## The slot -/

/-- What a command means for the slot.  Resources are numbered in the order in
which they are made. -/
inductive Event where
  | lock
  | unlock
  | loadShut (shut : Bool)
  | storeShut
  | load (current : Option Nat)
  | store (current : Option Nat)
  /-- An attempt to make a resource, with what came of it. -/
  | make (made : Option Nat)
  | release (k : Nat)
  /-- A use of a resource, and whether that was found broken. -/
  | use (k : Nat) (broken : Bool)
  | other
deriving DecidableEq

/-- The resource that an event is a use of, and whether it was found broken. -/
def Event.used : Event → Option (Nat × Bool)
  | .use k broken => some (k, broken)
  | _ => none

/-- Whether the slot is shut when the event has happened. -/
def Event.reportsShut : Event → Bool
  | .loadShut shut => shut
  | .storeShut => true
  | _ => false

structure Shared (Tid : Type) where
  mu : Option Tid
  current : Option Nat
  shut : Bool
  /-- How many resources have been made. -/
  made : Nat

variable {Tid : Type}

def act (t : Tid) : Event → Shared Tid → Option (Shared Tid)
  | .lock, s => if s.mu.isNone then some { s with mu := some t } else none
  | .unlock, s => if s.mu.isSome then some { s with mu := none } else none
  | .loadShut shut, s => if shut = s.shut then some s else none
  | .storeShut, s => some { s with shut := true }
  | .load current, s => if current = s.current then some s else none
  | .store current, s => some { s with current }
  | .make none, s => some s
  | .make (some k), s => if k = s.made then some { s with made := s.made + 1 } else none
  | .release _, s | .use _ _, s | .other, s => some s

/-! ## What a thread does -/

/-- Where a thread is, with what it has learnt since it locked the mutex. -/
inductive Phase where
  | outside
  | entered
  /-- It has looked at the slot, which may be shut. -/
  | found (current : Option Nat)
  /-- The slot is not shut. -/
  | unshut
  /-- The slot is not shut, and is empty. -/
  | vacant
  /-- It has made a resource for the empty slot. -/
  | made (k : Nat)
  /-- It has shut the slot. -/
  | shutting
  /-- It has shut the slot, which still holds a resource. -/
  | doomed (k : Nat)
  /-- It has released what the slot still holds. -/
  | released (k : Nat)
  | leaving

/-- The order of events.  Only a `closer` shuts the slot; anybody else releases
what the slot holds only if that is what they used last, and found broken. -/
inductive Phase.Step (closer : Bool) (used : Option (Nat × Bool)) : Event → Phase → Phase → Prop
  | other : Step closer used .other .outside .outside
  | use (k broken) : Step closer used (.use k broken) .outside .outside
  | lock : Step closer used .lock .outside .entered
  | look (current) : Step closer used (.load current) .entered (.found current)
  | pass (current) : Step closer used .unlock (.found current) .outside
  | discard (k) (h : used = some (k, true)) :
      Step closer used (.release k) (.found (some k)) (.released k)
  | isShut : Step closer used (.loadShut true) .entered .leaving
  | notShut : Step closer used (.loadShut false) .entered .unshut
  | present (k) : Step closer used (.load (some k)) .unshut .leaving
  | absent : Step closer used (.load none) .unshut .vacant
  | fail : Step closer used (.make none) .vacant .leaving
  | make (k) : Step closer used (.make (some k)) .vacant (.made k)
  | fill (k) : Step closer used (.store (some k)) (.made k) .leaving
  | shut (h : closer = true) : Step closer used .storeShut .unshut .shutting
  | empty : Step closer used (.load none) .shutting .leaving
  | last (k) : Step closer used (.load (some k)) .shutting (.doomed k)
  | dispose (k) (h : closer = true) : Step closer used (.release k) (.doomed k) (.released k)
  | clear (k) : Step closer used (.store none) (.released k) .leaving
  | leave : Step closer used .unlock .leaving .outside

structure Local where
  closer : Bool
  phase : Phase := .outside
  /-- The resource it used last, and whether that was found broken. -/
  used : Option (Nat × Bool) := none
  /-- Whether it has learnt that the slot is shut. -/
  shut : Bool := false

/-- The thread after an event that takes it to a phase. -/
def Local.after (x : Local) (e : Event) (phase : Phase) : Local :=
  { x with phase, used := e.used <|> x.used, shut := x.shut || e.reportsShut }

/-! ## The invariant -/

variable {s s' : Shared Tid} {n n' : Nat → Nat} {x : Tid → Local} {t : Tid} {e : Event} {p : Phase}
  {k : Nat}

/-- Every resource has been released once, if it is not in the slot; `n` counts
the releases. -/
def Settled (s : Shared Tid) (n : Nat → Nat) : Prop :=
  ∀ k < s.made, n k = if s.current = some k then 0 else 1

/-- What holds while nobody changes the slot. -/
def Rest (s : Shared Tid) (n : Nat → Nat) : Prop :=
  Settled s n ∧ (s.shut = true → s.current = none)

/-- What holds while a thread in this phase has the mutex. -/
def Phase.Holds (s : Shared Tid) (n : Nat → Nat) : Phase → Prop
  | .outside | .entered | .leaving => Rest s n
  | .found current => Rest s n ∧ s.current = current
  | .unshut => Settled s n ∧ s.shut = false
  | .vacant => Settled s n ∧ s.shut = false ∧ s.current = none
  | .made k => (s.shut = false ∧ s.current = none ∧ s.made = k + 1) ∧ n k = 0 ∧ ∀ j < k, n j = 1
  | .shutting => Settled s n ∧ s.shut = true
  | .doomed k => Settled s n ∧ s.shut = true ∧ s.current = some k
  | .released k => s.current = some k ∧ ∀ j < s.made, n j = 1

/-- How often each resource has been released, after an event. -/
def count (e : Event) (n : Nat → Nat) (k : Nat) : Nat := if e = .release k then n k + 1 else n k

structure Inv (s : Shared Tid) (x : Tid → Local) (n : Nat → Nat) : Prop where
  inside : ∀ t, (x t).phase ≠ .outside → s.mu = some t
  rest : s.mu = none → Rest s n
  holds : ∀ t, s.mu = some t → (x t).phase ≠ .outside ∧ (x t).phase.Holds s n
  bound : ∀ k, s.current = some k → k < s.made
  unmade : ∀ k, s.made ≤ k → n k = 0
  /-- Who knows that the slot is shut has seen it empty, or is emptying it. -/
  seen : ∀ t, (x t).shut = true → s.shut = true ∧ (s.current = none ∨ s.mu = some t)

theorem Settled.of_vacant (h : Settled s n) (hcurrent : s.current = none) :
    ∀ k < s.made, n k = 1 := by
  intro k hk
  rw [h k hk, hcurrent]
  exact if_neg nofun

/-- After a release of what the slot holds, everything has been released. -/
theorem Settled.release (h : Settled s n) (hcurrent : s.current = some k) :
    ∀ j < s.made, count (.release k) n j = 1 := by
  intro j hj
  have hn := h j hj
  rw [hcurrent] at hn
  unfold count
  by_cases hjk : k = j
  · rw [if_pos (congrArg Event.release hjk), hn, if_pos (congrArg some hjk)]
  · rw [if_neg (fun heq ↦ hjk (Event.release.inj heq)), hn,
      if_neg (fun heq ↦ hjk (Option.some.inj heq))]

theorem count_release_unmade (h : ∀ j, s.made ≤ j → n j = 0) (hk : k < s.made) :
    ∀ j, s.made ≤ j → count (.release k) n j = 0 := by
  intro j hj
  unfold count
  rw [if_neg, h j hj]
  intro heq
  exact Nat.not_lt_of_le hj (Event.release.inj heq ▸ hk)

/-- Only phases and knowledge of the threads matter. -/
theorem Inv.congr {y : Tid → Local} (h : Inv s x n) (hphase : ∀ t, (y t).phase = (x t).phase)
    (hshut : ∀ t, (y t).shut = (x t).shut) : Inv s y n where
  inside t := hphase t ▸ h.inside t
  rest := h.rest
  holds t := hphase t ▸ h.holds t
  bound := h.bound
  unmade := h.unmade
  seen t := hshut t ▸ h.seen t

section Steps

variable [DecidableEq Tid]

theorem Inv.update_congr (h : Inv s x n) {y : Local} (hphase : y.phase = (x t).phase)
    (hshut : y.shut = (x t).shut) : Inv s (Function.update x t y) n := by
  refine h.congr ?_ ?_
  · intro t'
    by_cases ht : t' = t
    · rw [ht, Function.update_self, hphase]
    · rw [Function.update_of_ne ht]
  · intro t'
    by_cases ht : t' = t
    · rw [ht, Function.update_self, hshut]
    · rw [Function.update_of_ne ht]

/-- A thread locks the mutex. -/
theorem Inv.lock (h : Inv s x n) (hmu : s.mu = none) (e : Event) (he : e.reportsShut = false) :
    Inv { s with mu := some t } (Function.update x t ((x t).after e .entered)) n where
  inside t' hphase := by
    by_cases ht : t' = t
    · rw [ht]
    · rw [Function.update_of_ne ht] at hphase
      exact nomatch hmu.symm.trans (h.inside t' hphase)
  rest := nofun
  holds t' ht' := by
    cases ht'
    rw [Function.update_self]
    exact ⟨nofun, h.rest hmu⟩
  bound := h.bound
  unmade := h.unmade
  seen t' hshut := by
    have hold : (x t').shut = true := by
      by_cases ht : t' = t
      · subst ht
        rw [Function.update_self] at hshut
        simpa [Local.after, he] using hshut
      · rwa [Function.update_of_ne ht] at hshut
    obtain ⟨hs, hcurrent⟩ := h.seen t' hold
    exact ⟨hs, .inl (hcurrent.resolve_right fun heq ↦ nomatch hmu.symm.trans heq)⟩

/-- A thread unlocks the mutex. -/
theorem Inv.unlock (h : Inv s x n) (hmu : s.mu = some t) (hrest : Rest s n) (e : Event)
    (he : e.reportsShut = false) :
    Inv { s with mu := none } (Function.update x t ((x t).after e .outside)) n where
  inside t' hphase := by
    by_cases ht : t' = t
    · subst ht
      rw [Function.update_self] at hphase
      exact absurd rfl hphase
    · rw [Function.update_of_ne ht] at hphase
      exact absurd (Option.some.inj ((h.inside t' hphase).symm.trans hmu)) ht
  rest _ := hrest
  holds := nofun
  bound := h.bound
  unmade := h.unmade
  seen t' hshut := by
    have hold : (x t').shut = true := by
      by_cases ht : t' = t
      · subst ht
        rw [Function.update_self] at hshut
        simpa [Local.after, he] using hshut
      · rwa [Function.update_of_ne ht] at hshut
    have hs := (h.seen t' hold).1
    exact ⟨hs, .inl (hrest.2 hs)⟩

/-- A step of the thread that has the mutex, and keeps it. -/
theorem Inv.inner (h : Inv s x n) (hmu : s.mu = some t) (hmu' : s'.mu = s.mu) (hp : p ≠ .outside)
    (hholds : p.Holds s' n') (hbound : ∀ k, s'.current = some k → k < s'.made)
    (hunmade : ∀ k, s'.made ≤ k → n' k = 0)
    (hshut : s.shut = true → s'.shut = true ∧ (s.current = none → s'.current = none))
    (hreports : e.reportsShut = true → s'.shut = true) :
    Inv s' (Function.update x t ((x t).after e p)) n' where
  inside t' hphase := by
    by_cases ht : t' = t
    · rw [ht, hmu', hmu]
    · rw [Function.update_of_ne ht] at hphase
      rw [hmu']
      exact h.inside t' hphase
  rest hnone := nomatch (hmu'.symm.trans hnone).symm.trans hmu
  holds t' ht' := by
    cases hmu.symm.trans (hmu'.symm.trans ht')
    rw [Function.update_self]
    exact ⟨hp, hholds⟩
  bound := hbound
  unmade := hunmade
  seen t' hknows := by
    by_cases ht : t' = t
    · subst ht
      rw [Function.update_self] at hknows
      refine ⟨?_, .inr (hmu'.trans hmu)⟩
      rcases Bool.or_eq_true_iff.mp hknows with hold | hnew
      · exact (hshut (h.seen t' hold).1).1
      · exact hreports hnew
    · rw [Function.update_of_ne ht] at hknows
      obtain ⟨hs, hcurrent⟩ := h.seen t' hknows
      have hnone := hcurrent.resolve_right fun heq ↦
        ht (Option.some.inj (heq.symm.trans hmu))
      exact ⟨(hshut hs).1, .inl ((hshut hs).2 hnone)⟩

/-- Looking at the slot. -/
theorem Inv.look (h : Inv s x n) (hmu : s.mu = some t) (hp : p ≠ .outside) (hholds : p.Holds s n)
    (hreports : e.reportsShut = true → s.shut = true) :
    Inv s (Function.update x t ((x t).after e p)) n :=
  h.inner hmu rfl hp hholds h.bound h.unmade (fun hs ↦ ⟨hs, id⟩) hreports

/-- Every event in the order keeps the invariant. -/
theorem Inv.step (h : Inv s x n) (hact : act t e s = some s')
    (hstep : Phase.Step (x t).closer (x t).used e (x t).phase p) :
    Inv s' (Function.update x t ((x t).after e p)) (count e n) := by
  generalize hphase : (x t).phase = q at hstep
  have hholds : q ≠ .outside → s.mu = some t ∧ q.Holds s n := by
    intro hq
    have hmu := h.inside t (hphase ▸ hq)
    exact ⟨hmu, hphase ▸ (h.holds t hmu).2⟩
  have hcount : (∀ k, e ≠ .release k) → count e n = n := fun hne ↦
    funext fun k ↦ if_neg (hne k)
  cases hstep with
  | other =>
      cases hact
      rw [hcount nofun]
      exact h.update_congr hphase.symm (Bool.or_false _)
  | use k broken =>
      cases hact
      rw [hcount nofun]
      exact h.update_congr hphase.symm (Bool.or_false _)
  | lock =>
      obtain ⟨hfree, rfl⟩ := of_ite_some hact
      rw [hcount nofun]
      exact h.lock (Option.isNone_iff_eq_none.mp hfree) .lock rfl
  | look current =>
      obtain ⟨rfl, rfl⟩ := of_ite_some hact
      obtain ⟨hmu, hrest⟩ := hholds nofun
      rw [hcount nofun]
      exact h.look hmu nofun ⟨hrest, rfl⟩ nofun
  | pass current =>
      obtain ⟨-, rfl⟩ := of_ite_some hact
      obtain ⟨hmu, hrest, -⟩ := hholds nofun
      rw [hcount nofun]
      exact h.unlock hmu hrest .unlock rfl
  | discard k hused =>
      cases hact
      obtain ⟨hmu, hrest, hcurrent⟩ := hholds nofun
      exact h.inner hmu rfl nofun ⟨hcurrent, hrest.1.release hcurrent⟩ h.bound
        (count_release_unmade h.unmade (h.bound k hcurrent)) (fun hs ↦ ⟨hs, id⟩) nofun
  | isShut =>
      obtain ⟨hshut, rfl⟩ := of_ite_some hact
      obtain ⟨hmu, hrest⟩ := hholds nofun
      rw [hcount nofun]
      exact h.look hmu nofun hrest fun _ ↦ hshut.symm
  | notShut =>
      obtain ⟨hshut, rfl⟩ := of_ite_some hact
      obtain ⟨hmu, hrest⟩ := hholds nofun
      rw [hcount nofun]
      exact h.look hmu nofun ⟨hrest.1, hshut.symm⟩ nofun
  | present k =>
      obtain ⟨hcurrent, rfl⟩ := of_ite_some hact
      obtain ⟨hmu, hsettled, hshut⟩ := hholds nofun
      rw [hcount nofun]
      exact h.look hmu nofun ⟨hsettled, fun hs ↦ nomatch hshut.symm.trans hs⟩ nofun
  | absent =>
      obtain ⟨hcurrent, rfl⟩ := of_ite_some hact
      obtain ⟨hmu, hsettled, hshut⟩ := hholds nofun
      rw [hcount nofun]
      exact h.look hmu nofun ⟨hsettled, hshut, hcurrent.symm⟩ nofun
  | fail =>
      cases hact
      obtain ⟨hmu, hsettled, hshut, hcurrent⟩ := hholds nofun
      rw [hcount nofun]
      exact h.look hmu nofun ⟨hsettled, fun _ ↦ hcurrent⟩ nofun
  | make k =>
      obtain ⟨rfl, rfl⟩ := of_ite_some hact
      obtain ⟨hmu, hsettled, hshut, hcurrent⟩ := hholds nofun
      rw [hcount nofun]
      refine h.inner hmu rfl nofun ⟨⟨hshut, hcurrent, rfl⟩, h.unmade _ Nat.le.refl,
        hsettled.of_vacant hcurrent⟩ ?_ ?_ (fun hs ↦ ⟨hs, id⟩) nofun
      · exact fun k hk ↦ Nat.lt_succ_of_lt (h.bound k hk)
      · exact fun k hk ↦ h.unmade k (Nat.le_of_succ_le hk)
  | fill k =>
      cases hact
      obtain ⟨hmu, ⟨hshut, hcurrent, hmade⟩, hnew, hreleased⟩ := hholds nofun
      rw [hcount nofun]
      refine h.inner hmu rfl nofun ⟨?_, fun hs ↦ nomatch hshut.symm.trans hs⟩ ?_ h.unmade
        (fun hs ↦ nomatch hshut.symm.trans hs) nofun
      · intro j hj
        dsimp only at hj ⊢
        by_cases hjk : k = j
        · rw [if_pos (congrArg some hjk), ← hjk, hnew]
        · rw [if_neg fun heq ↦ hjk (Option.some.inj heq)]
          exact hreleased j (by omega)
      · intro j hj
        dsimp only at hj ⊢
        cases hj
        rw [hmade]
        exact Nat.lt_succ_self k
  | shut hcloser =>
      cases hact
      obtain ⟨hmu, hsettled, -⟩ := hholds nofun
      rw [hcount nofun]
      exact h.inner hmu rfl nofun ⟨hsettled, rfl⟩ h.bound h.unmade (fun _ ↦ ⟨rfl, id⟩) fun _ ↦ rfl
  | empty =>
      obtain ⟨hcurrent, rfl⟩ := of_ite_some hact
      obtain ⟨hmu, hsettled, -⟩ := hholds nofun
      rw [hcount nofun]
      exact h.look hmu nofun ⟨hsettled, fun _ ↦ hcurrent.symm⟩ nofun
  | last k =>
      obtain ⟨hcurrent, rfl⟩ := of_ite_some hact
      obtain ⟨hmu, hsettled, hshut⟩ := hholds nofun
      rw [hcount nofun]
      exact h.look hmu nofun ⟨hsettled, hshut, hcurrent.symm⟩ nofun
  | dispose k hcloser =>
      cases hact
      obtain ⟨hmu, hsettled, -, hcurrent⟩ := hholds nofun
      exact h.inner hmu rfl nofun ⟨hcurrent, hsettled.release hcurrent⟩ h.bound
        (count_release_unmade h.unmade (h.bound k hcurrent)) (fun hs ↦ ⟨hs, id⟩) nofun
  | clear k =>
      cases hact
      obtain ⟨hmu, hcurrent, hreleased⟩ := hholds nofun
      rw [hcount nofun]
      refine h.inner hmu rfl nofun ⟨?_, fun _ ↦ rfl⟩ nofun h.unmade (fun hs ↦ ⟨hs, fun _ ↦ rfl⟩)
        nofun
      intro j hj
      rw [hreleased j hj]
      exact (if_neg nofun).symm
  | leave =>
      obtain ⟨-, rfl⟩ := of_ite_some hact
      obtain ⟨hmu, hrest⟩ := hholds nofun
      rw [hcount nofun]
      exact h.unlock hmu hrest .unlock rfl

end Steps

/-! ## What the invariant says -/

/-- Either every resource has been released once that is not in the slot, or the
thread that has the mutex has made one and not yet put it into the slot, or it has
released the one in the slot. -/
theorem Inv.cases (h : Inv s x n) : Settled s n ∨
    (∃ t k, s.mu = some t ∧ (x t).phase = .made k ∧ (x t).phase.Holds s n) ∨
    ∀ k < s.made, n k = 1 := by
  cases hmu : s.mu with
  | none => exact .inl (h.rest hmu).1
  | some t =>
      obtain ⟨-, hholds⟩ := h.holds t hmu
      cases hphase : (x t).phase with
      | made k => exact .inr (.inl ⟨t, k, rfl, hphase, hholds⟩)
      | released k =>
          rw [hphase] at hholds
          exact .inr (.inr hholds.2)
      | outside | entered | leaving =>
          rw [hphase] at hholds
          exact .inl hholds.1
      | found =>
          rw [hphase] at hholds
          exact .inl hholds.1.1
      | unshut | vacant | shutting | doomed =>
          rw [hphase] at hholds
          exact .inl hholds.1

theorem Inv.le_one (h : Inv s x n) (k : Nat) : n k ≤ 1 := by
  by_cases hk : k < s.made
  · rcases h.cases with hsettled | ⟨t, j, -, hphase, hholds⟩ | hreleased
    · rw [hsettled k hk]
      split <;> decide
    · rw [hphase] at hholds
      obtain ⟨⟨-, -, hmade⟩, hnew, hold⟩ := hholds
      by_cases hkj : k = j
      · rw [hkj, hnew]
        exact Nat.zero_le 1
      · exact Nat.le_of_eq (hold k (by omega))
    · exact Nat.le_of_eq (hreleased k hk)
  · rw [h.unmade k (Nat.le_of_not_lt hk)]
    exact Nat.zero_le 1

/-- What has not been released is in the slot, or is about to be put there. -/
theorem Inv.unreleased (h : Inv s x n) (hk : k < s.made) (hn : n k = 0) :
    s.current = some k ∨ s.current = none ∧ ∃ t, s.mu = some t ∧ (x t).phase = .made k := by
  rcases h.cases with hsettled | ⟨t, j, hmu, hphase, hholds⟩ | hreleased
  · have heq := (hsettled k hk).symm.trans hn
    by_contra hcurrent
    rw [if_neg fun hin ↦ hcurrent (.inl hin)] at heq
    contradiction
  · rw [hphase] at hholds
    obtain ⟨⟨-, hcurrent, hmade⟩, -, hold⟩ := hholds
    have hkj : k = j := by
      by_contra hne
      exact nomatch (hold k (by omega)).symm.trans hn
    exact .inr ⟨hcurrent, t, hmu, hkj ▸ hphase⟩
  · exact nomatch (hreleased k hk).symm.trans hn

theorem Inv.eq_of_unreleased (h : Inv s x n) {j : Nat} (hj : j < s.made) (hk : k < s.made)
    (hnj : n j = 0) (hnk : n k = 0) : j = k := by
  rcases h.unreleased hj hnj with hcurrent | ⟨hnone, t, hmu, hphase⟩
  · rcases h.unreleased hk hnk with hcurrent' | ⟨hnone', -⟩
    · exact Option.some.inj (hcurrent.symm.trans hcurrent')
    · exact nomatch hcurrent.symm.trans hnone'
  · rcases h.unreleased hk hnk with hcurrent' | ⟨-, t', hmu', hphase'⟩
    · exact nomatch hcurrent'.symm.trans hnone
    · cases hmu.symm.trans hmu'
      exact Phase.made.inj (hphase.symm.trans hphase')

/-- Nothing is in the slot of a thread that has seen it shut and has left it. -/
theorem Inv.closed (h : Inv s x n) (hknows : (x t).shut = true) (ht : (x t).phase = .outside) :
    s.shut = true ∧ s.current = none ∧ ∀ k < s.made, n k = 1 := by
  obtain ⟨hshut, hcurrent⟩ := h.seen t hknows
  have hnone := hcurrent.resolve_right fun hmu ↦ (h.holds t hmu).1 ht
  refine ⟨hshut, hnone, fun k hk ↦ ?_⟩
  rcases h.cases with hsettled | ⟨t', j, -, hphase, hholds⟩ | hreleased
  · exact hsettled.of_vacant hnone k hk
  · rw [hphase] at hholds
    exact nomatch hshut.symm.trans hholds.1.1
  · exact hreleased k hk

/-- Nothing is made for a slot that is shut. -/
theorem Inv.not_shut_of_make (h : Inv s x n) {r : Option Nat}
    (hstep : Phase.Step (x t).closer (x t).used (.make r) (x t).phase p) : s.shut = false := by
  have hvacant : (x t).phase = .vacant := by
    generalize (x t).phase = q at hstep
    cases hstep with
    | fail => rfl
    | make => rfl
  have hmu := h.inside t (by rw [hvacant]; exact nofun)
  have hholds := (h.holds t hmu).2
  rw [hvacant] at hholds
  exact hholds.2.1

end GoFilesystem.Conc.Slot
