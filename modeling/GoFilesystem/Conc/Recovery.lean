import GoFilesystem.Conc.Slot
import GoFilesystem.Conc.Solo

/-!
# A resource that has died

A slot holds a resource that the threads use, as in `Conc.Slot`, and one resource
has died: every use of it fails, while no use of another one does and a new one can
always be made.  Who meets the dead resource in the slot and fails may replace it,
or may leave it there for the next one to meet.

`Know` is what a thread knows of this: whether it has seen that the dead resource is
not in the slot any more, and which resource it has used last.  A usage keeps track
of it.  A thread is allowed to put into the slot, or to keep for later, anything but
the dead resource, so what has been seen once stays true (`Reading.recovered`).
-/

namespace GoFilesystem.Conc.Recovery

inductive Event where
  /-- A look into the slot. -/
  | look (current : Option Nat)
  | put (current : Option Nat)
  /-- An attempt to make a resource. -/
  | make (made : Option Nat)
  /-- A use of a resource, and whether it failed for good. -/
  | use (k : Nat) (failed : Bool)
  /-- A use of something that a resource has lent out. -/
  | touch (k : Nat)
  /-- A resource is remembered outside the slot. -/
  | keep (k : Nat)
  /-- A resource is found that was remembered. -/
  | find (k : Nat)
  /-- Whoever wants to use a resource is told not to. -/
  | refuse
  | other

/-- An event of the slot, seen from a resource that it may hold. -/
def Event.ofSlot : Slot.Event → Event
  | .loadShut shut => if shut then .refuse else .other
  | .load current => .look current
  | .store current => .put current
  | .make made => .make made
  | .use k broken => .use k broken
  | .lock | .unlock | .storeShut | .release _ | .other => .other

/-- What is supposed of the outside if `d` has died. -/
def Event.Supposed (d : Nat) : Event → Prop
  | .make made => made ≠ none
  | .use k failed => failed = decide (k = d)
  | .refuse => False
  | _ => True

instance (d : Nat) (e : Event) : Decidable (e.Supposed d) :=
  match e with
  | .make made => inferInstanceAs (Decidable (made ≠ none))
  | .use k failed => inferInstanceAs (Decidable (failed = decide (k = d)))
  | .refuse => .isFalse id
  | .look _ | .put _ | .touch _ | .keep _ | .find _ | .other => .isTrue trivial

/-- What a thread may do if `d` has died. -/
def Event.Allowed (d : Nat) : Event → Prop
  | .put current => current ≠ some d
  | .keep k => k ≠ d
  | _ => True

def Event.resource : Event → Option Nat
  | .use k _ | .touch k => some k
  | _ => none

/-! ## What a thread knows -/

structure Know where
  /-- It begins after somebody has seen that the dead resource has left the slot. -/
  sure : Bool
  /-- It has seen that the dead resource has left the slot. -/
  gone : Bool := false
  /-- The resource that it has used last. -/
  used : Option Nat := none

/-- What a thread knows after an event, unless that cannot happen. -/
def Know.after (d : Nat) (k : Know) : Event → Option Know
  | .look current =>
    if current ≠ some d then some { k with gone := true }
    else if k.sure || k.gone then none
    else some k
  | .put _ => some { k with gone := true }
  | .make made => if made = none ∨ made = some d then none else some k
  | .use j failed => if failed = decide (j = d) then some { k with used := some j } else none
  | .touch j => some { k with used := some j }
  | .find j => if j = d then none else some k
  | .refuse => none
  | .keep _ | .other => some k

theorem Know.of_after_look {d : Nat} {k k' : Know} {current : Option Nat}
    (h : k.after d (.look current) = some k') :
    (current ≠ some d ∧ k' = { k with gone := true }) ∨
      (current = some d ∧ (k.sure || k.gone) = false ∧ k' = k) := by
  dsimp only [Know.after] at h
  split at h
  · rename_i hd
    exact .inl ⟨hd, (Option.some.inj h).symm⟩
  · rename_i hd
    obtain ⟨hknows, hk⟩ := of_ite_none h
    exact .inr ⟨not_not.mp hd, Bool.not_eq_true _ ▸ hknows, hk.symm⟩

/-- The slot, and what else there is of the resources. -/
structure Shared where
  slot : Option Nat
  made : Nat
  kept : Nat → Prop

structure Event.Acts (e : Event) (s s' : Shared) : Prop where
  slot : s'.slot = match e with
    | .put current => current
    | _ => s.slot
  made : s.made ≤ s'.made
  kept : ∀ k, s'.kept k → s.kept k ∨ e = .keep k
  look : ∀ current, e = .look current → current = s.slot
  fresh : ∀ k, e = .make (some k) → s.made ≤ k
  find : ∀ k, e = .find k → s.kept k

section Effects

variable {d : Nat} {e : Event} {s s' : Shared} {k : Know}

/-- A command that is not about the slot or about what is kept. -/
theorem Event.Acts.of_eq (he : e = .other ∨ e = .refuse ∨ e = .make none ∨ (∃ k, e = .touch k) ∨
    ∃ k failed, e = .use k failed) (h : s' = s) : e.Acts s s' := by
  subst h
  rcases he with rfl | rfl | rfl | ⟨k, rfl⟩ | ⟨k, failed, rfl⟩ <;>
    exact ⟨rfl, Nat.le_refl _, fun _ hk ↦ .inl hk, nofun, nofun, nofun⟩

theorem Event.Acts.ask {refused : Bool} (h : s' = s) :
    (if refused then Event.refuse else .other).Acts s s' := by
  cases refused with
  | true => exact .of_eq (.inr (.inl rfl)) h
  | false => exact .of_eq (.inl rfl) h

theorem Event.Acts.ofSlot {Tid : Type} {t : Tid} {e : Slot.Event} {s s' : Slot.Shared Tid}
    {kept kept' : Nat → Prop} (h : Slot.act t e s = some s') (hkept : kept' = kept) :
    (Event.ofSlot e).Acts ⟨s.current, s.made, kept⟩ ⟨s'.current, s'.made, kept'⟩ := by
  subst hkept
  cases e with
  | load current =>
      obtain ⟨hr, rfl⟩ := of_ite_some h
      refine ⟨rfl, Nat.le_refl _, fun _ hk ↦ .inl hk, fun current' hc ↦ ?_, nofun, nofun⟩
      exact (Event.look.inj hc).symm.trans hr
  | store current =>
      cases h
      exact ⟨rfl, Nat.le_refl _, fun _ hk ↦ .inl hk, nofun, nofun, nofun⟩
  | make made =>
      cases made with
      | none =>
          cases h
          exact .of_eq (.inr (.inr (.inl rfl))) rfl
      | some k =>
          obtain ⟨hr, rfl⟩ := of_ite_some h
          refine ⟨rfl, Nat.le_succ _, fun _ hk ↦ .inl hk, nofun, fun k' hk' ↦ ?_, nofun⟩
          cases Event.make.inj hk'
          exact Nat.le_of_eq hr.symm
  | use k broken =>
      cases h
      exact .of_eq (.inr (.inr (.inr (.inr ⟨k, broken, rfl⟩)))) rfl
  | loadShut shut =>
      obtain ⟨-, rfl⟩ := of_ite_some h
      exact .ask rfl
  | lock | unlock =>
      obtain ⟨-, rfl⟩ := of_ite_some h
      exact .of_eq (.inl rfl) rfl
  | storeShut | release | other =>
      cases h
      exact .of_eq (.inl rfl) rfl

/-- The dead resource does not come back. -/
theorem Event.Acts.slot_ne (h : e.Acts s s') (hallowed : e.Allowed d) (hs : s.slot ≠ some d) :
    s'.slot ≠ some d := by
  rw [h.slot]
  cases e with
  | put current => exact hallowed
  | _ => exact hs

/-- An event that can happen, and what a thread knows after it. -/
theorem Know.exists_after (h : e.Acts s s') (hsupposed : e.Supposed d) (hallowed : e.Allowed d)
    (hmade : d < s.made) (hkept : ∀ j, s.kept j → j ≠ d) (hsure : k.sure = true → s.slot ≠ some d)
    (hgone : k.gone = true → s.slot ≠ some d) :
    ∃ k', k.after d e = some k' ∧ k'.sure = k.sure ∧ k'.used = e.resource.or k.used ∧
      (k'.gone = true → s'.slot ≠ some d) := by
  have hslot := h.slot_ne hallowed
  cases e with
  | look current =>
      obtain rfl := h.look current rfl
      by_cases hd : s.slot = some d
      · have hknows : ¬(k.sure || k.gone) = true := by
          rw [Bool.or_eq_true]
          rintro (hs | hg)
          · exact hsure hs hd
          · exact hgone hg hd
        refine ⟨k, ?_, rfl, rfl, fun hg ↦ absurd hd (hgone hg)⟩
        exact (if_neg (not_not_intro hd)).trans (if_neg hknows)
      · exact ⟨_, if_pos hd, rfl, rfl, fun _ ↦ hslot hd⟩
  | put current =>
      refine ⟨_, rfl, rfl, rfl, fun _ ↦ ?_⟩
      rw [h.slot]
      exact hallowed
  | make made =>
      have hmakes : ¬(made = none ∨ made = some d) := by
        rintro (rfl | rfl)
        · exact hsupposed rfl
        · exact Nat.not_le_of_lt hmade (h.fresh d rfl)
      exact ⟨k, if_neg hmakes, rfl, rfl, fun hg ↦ hslot (hgone hg)⟩
  | use j failed => exact ⟨_, if_pos hsupposed, rfl, rfl, fun hg ↦ hslot (hgone hg)⟩
  | find j => exact ⟨k, if_neg (hkept j (h.find j rfl)), rfl, rfl, fun hg ↦ hslot (hgone hg)⟩
  | refuse => exact hsupposed.elim
  | touch | keep | other => exact ⟨_, rfl, rfl, rfl, fun hg ↦ hslot (hgone hg)⟩

end Effects

section Machines

variable {S : Sig} {Tid State : Type} {M : Machine S Tid State}

/-- A reading of the commands of a machine as events of the resources. -/
structure Reading (M : Machine S Tid State) where
  event : (c : S.Cmd) → S.Resp c → Event
  view : State → Shared
  acts : ∀ t c r s s', M.apply t c r s = some s' → (event c r).Acts (view s) (view s')

namespace Reading

variable (R : Reading M) (d : Nat)

/-- What is supposed of the outside in one step. -/
def Supposed : Label S Tid → Prop
  | .call _ c r => (R.event c r).Supposed d
  | .silent _ => True

instance (l : Label S Tid) : Decidable (R.Supposed d l) :=
  match l with
  | .call _ c r => inferInstanceAs (Decidable ((R.event c r).Supposed d))
  | .silent _ => .isTrue trivial

/-- The resource that a thread has used last. -/
def lastUsed [DecidableEq Tid] (trace : List (Label S Tid)) (t : Tid) : Option Nat :=
  (trace.filterMap fun
    | .call t' c r => if t' = t then (R.event c r).resource else none
    | .silent _ => none).getLast?

/-- What a thread knows, step by step.  There is nothing to say about a thread to
which something has happened that cannot. -/
def usage : Usage S where
  Local := Option Know
  Next c r x y := match x with
    | none => y = none
    | some k => (R.event c r).Allowed d ∧ y = k.after d (R.event c r)

/-- The program may be run by a thread that knows `k`, and ends in `Q`. -/
def Tracks {α : Type} (p : Prog S α) (k : Know) (Q : α → Know → Prop) : Prop :=
  (R.usage d).Follows p (some k) fun a (y : Option Know) ↦ ∀ k' ∈ y, Q a k'

variable {R d} {α β ι : Type} {k : Know} {Q Q' : α → Know → Prop}

theorem follows_none (p : Prog S α) : (R.usage d).Follows p none fun _ y ↦ y = none := by
  induction p with
  | ret a => rfl
  | call c f ih => exact fun r ↦ ⟨none, rfl, ih r⟩
  | iter body i f ihbody ih =>
      refine ⟨fun _ y ↦ y = none, fun _ y ↦ y = none, rfl, ?_, ?_⟩
      · rintro i _ rfl
        refine (ihbody i).mono ?_
        rintro (i' | b) _ rfl
        · rfl
        · rfl
      · rintro b _ rfl
        exact ih b

theorem Tracks.ret {a : α} (h : Q a k) : R.Tracks d (pure a) k Q := by
  rintro k' hk'
  obtain rfl := Option.mem_some_iff.mp hk'
  exact h

theorem Tracks.mono {p : Prog S α} (h : R.Tracks d p k Q) (hq : ∀ a k', Q a k' → Q' a k') :
    R.Tracks d p k Q' :=
  Usage.Follows.mono h fun a _ hy k' hk' ↦ hq a k' (hy k' hk')

/-- What follows a program need be said only if everything could happen. -/
theorem follows_of_tracks {p : Prog S α} {x : Option Know} (h : ∀ k ∈ x, R.Tracks d p k Q) :
    (R.usage d).Follows p x fun a (y : Option Know) ↦ ∀ k' ∈ y, Q a k' := by
  cases x with
  | none =>
      refine (follows_none p).mono ?_
      rintro a _ rfl
      exact nofun
  | some k => exact h k rfl

theorem Tracks.bind {p : Prog S β} {f : β → Prog S α} {K : β → Know → Prop}
    (hp : R.Tracks d p k K) (hf : ∀ b k', K b k' → R.Tracks d (f b) k' Q) :
    R.Tracks d (p >>= f) k Q :=
  Usage.Follows.bind hp fun b _ hy ↦ follows_of_tracks fun k' hk' ↦ hf b k' (hy k' hk')

theorem Tracks.command {c : S.Cmd} {Q : S.Resp c → Know → Prop}
    (h : ∀ r, (R.event c r).Allowed d ∧ ∀ k' ∈ k.after d (R.event c r), Q r k') :
    R.Tracks d (Prog.perform c) k Q :=
  Usage.Follows.command fun r ↦ ⟨_, ⟨(h r).1, rfl⟩, (h r).2⟩

theorem Tracks.loop {body : ι → Prog S (ι ⊕ β)} {K : β → Know → Prop} (J : ι → Know → Prop) {i : ι}
    (hi : J i k) (hbody : ∀ i k, J i k → R.Tracks d (body i) k (Sum.elim J K)) :
    R.Tracks d (Prog.loop body i) k K := by
  refine Usage.Follows.loop (fun i (y : Option Know) ↦ ∀ k' ∈ y, J i k') ?_ fun i x hx ↦ ?_
  · intro k' hk'
    obtain rfl := Option.mem_some_iff.mp hk'
    exact hi
  · refine Usage.Follows.mono (follows_of_tracks fun k hk ↦ hbody i k (hx k hk)) ?_
    rintro (i' | b) y hy
    · exact hy
    · exact hy

/-- What every command keeps that a program issues. -/
theorem tracks_invariant {I : Know → Prop} {P : S.Cmd → Prop} {p : Prog S α} (hp : p.Within P)
    (h : ∀ c r k, P c → I k →
      (R.event c r).Allowed d ∧ ∀ k' ∈ k.after d (R.event c r), I k') (hk : I k) :
    R.Tracks d p k fun _ k' ↦ I k' := by
  induction p generalizing k with
  | ret a => exact .ret hk
  | call c f ih =>
      exact Tracks.bind (.command fun r ↦ h c r k hp.1 hk) fun r k' hk' ↦ ih r (hp.2 r) hk'
  | iter body i f ihbody ih =>
      refine Tracks.bind (p := Prog.loop body i) (.loop (fun _ k' ↦ I k') hk ?_)
        fun b k' hk' ↦ ih b (hp.2 b) hk'
      intro i k' hk'
      refine (ihbody i (hp.1 i) hk').mono ?_
      rintro (i' | b) k'' hk''
      · exact hk''
      · exact hk''

/-! ### Commands -/

section Commands

variable {c : S.Cmd} {f : S.Resp c → Prog S α}

theorem Tracks.step (h : ∀ r, (R.event c r).Allowed d ∧
    ∀ k' ∈ k.after d (R.event c r), R.Tracks d (f r) k' Q) :
    R.Tracks d (Prog.perform c >>= f) k Q :=
  Tracks.bind (.command h) fun _ _ hf ↦ hf

theorem Tracks.other (hc : ∀ r, R.event c r = .other) (hf : ∀ r, R.Tracks d (f r) k Q) :
    R.Tracks d (Prog.perform c >>= f) k Q := by
  refine .step fun r ↦ ?_
  rw [hc]
  exact ⟨trivial, fun k' hk' ↦ Option.some.inj hk' ▸ hf r⟩

/-- A question whether a resource may be used. -/
theorem Tracks.ask {e : S.Resp c → Bool} (hc : ∀ r, R.event c r = if e r then .refuse else .other)
    (hf : ∀ r, e r = false → R.Tracks d (f r) k Q) : R.Tracks d (Prog.perform c >>= f) k Q := by
  refine .step fun r ↦ ?_
  rw [hc]
  cases he : e r with
  | true => exact ⟨trivial, nofun⟩
  | false => exact ⟨trivial, fun k' hk' ↦ Option.some.inj hk' ▸ hf r he⟩

theorem Tracks.look {e : S.Resp c → Option Nat} (hc : ∀ r, R.event c r = .look (e r))
    (hf : ∀ r k', (e r ≠ some d ∧ k' = { k with gone := true }) ∨
      (e r = some d ∧ (k.sure || k.gone) = false ∧ k' = k) → R.Tracks d (f r) k' Q) :
    R.Tracks d (Prog.perform c >>= f) k Q := by
  refine .step fun r ↦ ?_
  rw [hc]
  exact ⟨trivial, fun k' hk' ↦ hf r k' (Know.of_after_look hk')⟩

theorem Tracks.put {current : Option Nat} (hc : ∀ r, R.event c r = .put current)
    (hcurrent : current ≠ some d) (hf : ∀ r, R.Tracks d (f r) { k with gone := true } Q) :
    R.Tracks d (Prog.perform c >>= f) k Q := by
  refine .step fun r ↦ ?_
  rw [hc]
  exact ⟨hcurrent, fun k' hk' ↦ Option.some.inj hk' ▸ hf r⟩

theorem Tracks.make {e : S.Resp c → Option Nat} (hc : ∀ r, R.event c r = .make (e r))
    (hf : ∀ r, e r ≠ none → e r ≠ some d → R.Tracks d (f r) k Q) :
    R.Tracks d (Prog.perform c >>= f) k Q := by
  refine .step fun r ↦ ?_
  rw [hc]
  refine ⟨trivial, fun k' hk' ↦ ?_⟩
  obtain ⟨hmade, hk⟩ := Option.ite_none_left_eq_some.mp hk'
  rw [not_or] at hmade
  exact Option.some.inj hk ▸ hf r hmade.1 hmade.2

theorem Tracks.use {j : Nat} {e : S.Resp c → Bool} (hc : ∀ r, R.event c r = .use j (e r))
    (hf : ∀ r, e r = decide (j = d) → R.Tracks d (f r) { k with used := some j } Q) :
    R.Tracks d (Prog.perform c >>= f) k Q := by
  refine .step fun r ↦ ?_
  rw [hc]
  refine ⟨trivial, fun k' hk' ↦ ?_⟩
  obtain ⟨hfailed, hk⟩ := of_ite_some hk'
  exact hk ▸ hf r hfailed

theorem Tracks.touch {j : Nat} (hc : ∀ r, R.event c r = .touch j)
    (hf : ∀ r, R.Tracks d (f r) { k with used := some j } Q) :
    R.Tracks d (Prog.perform c >>= f) k Q := by
  refine .step fun r ↦ ?_
  rw [hc]
  exact ⟨trivial, fun k' hk' ↦ Option.some.inj hk' ▸ hf r⟩

theorem Tracks.keep {j : Nat} (hc : ∀ r, R.event c r = .keep j) (hj : j ≠ d)
    (hf : ∀ r, R.Tracks d (f r) k Q) : R.Tracks d (Prog.perform c >>= f) k Q := by
  refine .step fun r ↦ ?_
  rw [hc]
  exact ⟨hj, fun k' hk' ↦ Option.some.inj hk' ▸ hf r⟩

theorem Tracks.find {e : S.Resp c → Nat} (hc : ∀ r, R.event c r = .find (e r))
    (hf : ∀ r, e r ≠ d → R.Tracks d (f r) k Q) : R.Tracks d (Prog.perform c >>= f) k Q := by
  refine .step fun r ↦ ?_
  rw [hc]
  refine ⟨trivial, fun k' hk' ↦ ?_⟩
  obtain ⟨hfound, hk⟩ := of_ite_none hk'
  exact hk ▸ hf r hfound

theorem tracks_use {Q : S.Resp c → Know → Prop} {j : Nat} {e : S.Resp c → Bool}
    (hc : ∀ r, R.event c r = .use j (e r))
    (h : ∀ r, e r = decide (j = d) → Q r { k with used := some j }) :
    R.Tracks d (Prog.perform c) k Q :=
  Tracks.use (f := pure) hc fun r hr ↦ .ret (h r hr)

end Commands

end Reading

/-! ### Programs that use no resource -/

def Event.Idle (d : Nat) : Event → Prop
  | .use _ _ | .touch _ | .keep _ => False
  | .put current => current ≠ some d
  | _ => True

theorem Know.idle_of_after {d : Nat} {k k' : Know} {e : Event} (he : e.Idle d)
    (h : k' ∈ k.after d e) : k'.sure = k.sure ∧ k'.used = k.used := by
  cases e with
  | use | touch | keep => exact he.elim
  | refuse => exact nomatch Option.mem_def.mp h
  | put | other =>
      cases Option.mem_def.mp h
      exact ⟨rfl, rfl⟩
  | make | find =>
      obtain ⟨-, rfl⟩ := of_ite_none (Option.mem_def.mp h)
      exact ⟨rfl, rfl⟩
  | look current =>
      rcases Know.of_after_look h with ⟨-, rfl⟩ | ⟨-, -, rfl⟩
      · exact ⟨rfl, rfl⟩
      · exact ⟨rfl, rfl⟩

/-- A program that uses no resource. -/
theorem Reading.tracks_idle {R : Reading M} {d : Nat} {α : Type} {p : Prog S α} {k : Know}
    (hp : p.Within fun c ↦ ∀ r, (R.event c r).Idle d) :
    R.Tracks d p k fun _ k' ↦ k'.sure = k.sure ∧ k'.used = k.used := by
  refine tracks_invariant (I := fun k' ↦ k'.sure = k.sure ∧ k'.used = k.used) hp ?_ ⟨rfl, rfl⟩
  intro c r k₁ hc hk₁
  have he := hc r
  refine ⟨?_, fun k' hk' ↦ ?_⟩
  · generalize R.event c r = e at he
    cases e with
    | put current => exact he
    | keep => exact he.elim
    | _ => trivial
  · obtain ⟨hsure, hused⟩ := Know.idle_of_after he hk'
    exact ⟨hsure.trans hk₁.1, hused.trans hk₁.2⟩

/-! ### Programs that work on one resource -/

def Event.Only (j : Nat) : Event → Prop
  | .use k _ | .touch k => k = j
  | .refuse | .other => True
  | _ => False

/-- What a thread knows after it has worked on `j`: of the slot as much as before, and
it has used nothing that is dead unless `j` is. -/
structure Know.Stays (d j : Nat) (k k' : Know) : Prop where
  sure : k'.sure = k.sure
  gone : k'.gone = k.gone
  used : j ≠ d → k.used ≠ some d → k'.used ≠ some d

theorem Know.Stays.refl (d j : Nat) (k : Know) : k.Stays d j k := ⟨rfl, rfl, fun _ h ↦ h⟩

theorem Know.Stays.trans {d j : Nat} {k k' k'' : Know} (h : k.Stays d j k')
    (h' : k'.Stays d j k'') : k.Stays d j k'' :=
  ⟨h'.sure.trans h.sure, h'.gone.trans h.gone, fun hj hk ↦ h'.used hj (h.used hj hk)⟩

theorem Know.stays_of_after {d j : Nat} {k k' : Know} {e : Event} (he : e.Only j)
    (h : k' ∈ k.after d e) : k.Stays d j k' := by
  cases e with
  | use i failed =>
      obtain rfl : i = j := he
      obtain ⟨-, rfl⟩ := of_ite_some (Option.mem_def.mp h)
      exact ⟨rfl, rfl, fun hi _ heq ↦ hi (Option.some.inj heq)⟩
  | touch i =>
      obtain rfl : i = j := he
      cases Option.mem_def.mp h
      exact ⟨rfl, rfl, fun hi _ heq ↦ hi (Option.some.inj heq)⟩
  | other =>
      cases Option.mem_def.mp h
      exact .refl d j _
  | refuse => exact nomatch Option.mem_def.mp h
  | look | put | make | keep | find => exact he.elim

/-! ### What programs are for -/

/-- A thread has got `j` from the slot, or made it. -/
structure Know.Acquired (d j : Nat) (k k' : Know) : Prop where
  sure : k'.sure = k.sure
  used : k'.used = k.used
  dead : j = d → (k.sure || k.gone) = false
  alive : j ≠ d → k'.gone = true

/-- A thread has used `j` and nothing else, and has failed if `j` is dead. -/
structure Know.Worked {ε α : Type} (broken : ε → Bool) (d j : Nat) (k : Know) (r : Except ε α)
    (k' : Know) : Prop where
  sure : k'.sure = k.sure
  gone : k'.gone = k.gone
  used : k'.used = some j
  dead : j = d → ∃ err, r = .error err ∧ broken err = true

/-- A thread has perhaps used `j` and nothing else, and has with an error, which says so
if `j` is dead. -/
structure Know.Tried {ε : Type} (broken : ε → Bool) (d j : Nat) (k : Know) (err : Option ε)
    (k' : Know) : Prop extends Know.Stays d j k k' where
  tried : err = none ∨ k'.used = some j
  dead : j = d → ∀ e ∈ err, broken e = true

/-- A thread has used a resource that is not dead, and the dead one is not in the slot. -/
structure Know.Recovered (d : Nat) (k k' : Know) : Prop where
  sure : k'.sure = k.sure
  gone : k'.gone = true
  used : k'.used ≠ some d

/-- A thread that knows has used no dead resource. -/
structure Know.Careful (d : Nat) (k k' : Know) : Prop where
  sure : k'.sure = k.sure
  gone : k.gone = true → k'.gone = true
  used : (k.sure || k.gone) = true → k.used ≠ some d → k'.used ≠ some d

section Relations

variable {ε α : Type} {broken : ε → Bool} {d j : Nat} {k k' k'' : Know}

/-- Who has seen that the dead resource is gone does not get it. -/
theorem Know.Acquired.ne (h : k.Acquired d j k') (hk : (k.sure || k.gone) = true) : j ≠ d := by
  intro hd
  exact nomatch (h.dead hd).symm.trans hk

theorem Know.Worked.ne_of_ok {a : α} (h : k.Worked broken d j (.ok a) k') : j ≠ d := by
  intro hd
  obtain ⟨_, heq, -⟩ := h.dead hd
  exact nomatch heq

theorem Know.Worked.ne_of_error {err : ε} (h : k.Worked broken d j (.error err : Except ε α) k')
    (herr : broken err = false) : j ≠ d := by
  intro hd
  obtain ⟨_, heq, hbroken⟩ := h.dead hd
  cases heq
  exact nomatch herr.symm.trans hbroken

theorem Know.stays_use (d j : Nat) (k : Know) : k.Stays d j { k with used := some j } :=
  ⟨rfl, rfl, fun hne _ heq ↦ hne (Option.some.inj heq)⟩

theorem Know.Tried.refl (k : Know) : k.Tried broken d j none k :=
  ⟨.refl d j k, .inl rfl, fun _ ↦ nofun⟩

theorem Know.tried_none (k : Know) : k.Tried broken d j none { k with used := some j } :=
  ⟨k.stays_use d j, .inl rfl, fun _ ↦ nofun⟩

theorem Know.tried_some {err : ε} (k : Know) (h : j = d → broken err = true) :
    k.Tried broken d j (some err) { k with used := some j } := by
  refine ⟨k.stays_use d j, .inr rfl, fun hd e he ↦ ?_⟩
  cases he
  exact h hd

theorem Know.Tried.of_use {err : Option ε}
    (h : Know.Tried broken d j { k with used := some j } err k') : k.Tried broken d j err k' :=
  ⟨(k.stays_use d j).trans h.toStays, h.tried, h.dead⟩

theorem Know.Tried.worked {err : ε} (h : k.Tried broken d j (some err) k') :
    k.Worked broken d j (.error err : Except ε α) k' :=
  ⟨h.sure, h.gone, h.tried.resolve_left nofun, fun hd ↦ ⟨err, rfl, h.dead hd err rfl⟩⟩

/-- Work on what has been acquired and is not dead. -/
theorem Know.Acquired.recovered {r : Except ε α} (h : k.Acquired d j k')
    (h' : k'.Worked broken d j r k'') (hne : j ≠ d) : k.Recovered d k'' where
  sure := h'.sure.trans h.sure
  gone := h'.gone.trans (h.alive hne)
  used heq := hne (Option.some.inj (h'.used.symm.trans heq))

theorem Know.Recovered.of_sure (h : k'.Recovered d k'') (hsure : k'.sure = k.sure) :
    k.Recovered d k'' :=
  ⟨h.sure.trans hsure, h.gone, h.used⟩

/-- After work on what has been acquired, either that was dead or the dead one is gone. -/
theorem Know.Acquired.gone_or {r : Except ε α} (h : k.Acquired d j k')
    (h' : k'.Worked broken d j r k'') : j = d ∨ k''.gone = true := by
  by_cases hd : j = d
  · exact .inl hd
  · exact .inr (h.recovered h' hd).gone

/-- What a thread knows after a call that may replace a dead resource, or may work on
what is in the slot and leave it there. -/
structure Know.Copes (recovers mutates : Bool) (d : Nat) (k k' : Know) : Prop where
  recovers : recovers = true → k.Recovered d k'
  sure : k.sure = true → k.used ≠ some d → k'.used ≠ some d
  spares : mutates = false → k.used ≠ some d → k'.used ≠ some d

theorem Know.Recovered.careful (h : k.Recovered d k') : k.Careful d k' :=
  ⟨h.sure, fun _ ↦ h.gone, fun _ _ ↦ h.used⟩

theorem Know.Careful.trans (h : k.Careful d k') (h' : k'.Careful d k'') : k.Careful d k'' := by
  refine ⟨h'.sure.trans h.sure, fun hk ↦ h'.gone (h.gone hk), fun hk hused ↦ ?_⟩
  refine h'.used ?_ (h.used hk hused)
  rw [Bool.or_eq_true] at hk ⊢
  rcases hk with hsure | hgone
  · exact .inl (h.sure.trans hsure)
  · exact .inr (h.gone hgone)

/-- Work on what has been acquired. -/
theorem Know.Acquired.careful (h : k.Acquired d j k') (h' : k'.Stays d j k'') :
    k.Careful d k'' := by
  refine ⟨h'.sure.trans h.sure, fun hk ↦ ?_, fun hk hused ↦ h'.used (h.ne hk) (h.used ▸ hused)⟩
  exact h'.gone.trans (h.alive (h.ne (by rw [hk, Bool.or_true])))

end Relations

namespace Reading

variable {R : Reading M} {d j : Nat} {α β : Type} {k : Know}

/-- A program that is about one resource. -/
theorem tracks_only {p : Prog S α} (hp : p.Within fun c ↦ ∀ r, (R.event c r).Only j) :
    R.Tracks d p k fun _ k' ↦ k.Stays d j k' := by
  refine tracks_invariant hp (fun c r k₁ hc hk₁ ↦ ?_) (.refl d j k)
  have he := hc r
  refine ⟨?_, fun k' hk' ↦ hk₁.trans (Know.stays_of_after he hk')⟩
  generalize R.event c r = e at he
  cases e with
  | put | keep => exact he.elim
  | _ => trivial

/-- A program that works on `j`, whatever a thread knows that runs it. -/
def Keeps (R : Reading M) (d j : Nat) (p : Prog S α) : Prop :=
  ∀ k, R.Tracks d p k fun _ k' ↦ k.Stays d j k'

theorem Keeps.ret (a : α) : R.Keeps d j (pure a : Prog S α) := fun k ↦ .ret (.refl d j k)

theorem Keeps.bind {p : Prog S β} {f : β → Prog S α} (hp : R.Keeps d j p)
    (hf : ∀ b, R.Keeps d j (f b)) : R.Keeps d j (p >>= f) :=
  fun k ↦ (hp k).bind fun b k' hk' ↦ (hf b k').mono fun _ _ hk'' ↦ hk'.trans hk''

theorem Keeps.loop {ι : Type} {body : ι → Prog S (ι ⊕ β)} (hbody : ∀ i, R.Keeps d j (body i))
    (i : ι) : R.Keeps d j (Prog.loop body i) := by
  intro k
  refine .loop (fun _ k' ↦ k.Stays d j k') (.refl d j k) fun i k' hk' ↦ ?_
  refine (hbody i k').mono ?_
  rintro (i' | b) k'' hk''
  · exact hk'.trans hk''
  · exact hk'.trans hk''

/-- Work on a resource that is not dead. -/
theorem Keeps.recovered {p : Prog S α} {k₀ : Know} (hp : R.Keeps d j p) (hj : j ≠ d)
    (hk : k₀.Recovered d k) : R.Tracks d p k fun _ k' ↦ k₀.Recovered d k' :=
  (hp k).mono fun _ _ h ↦ ⟨h.sure.trans hk.sure, h.gone.trans hk.gone, h.used hj hk.used⟩

theorem Keeps.command {c : S.Cmd} (hc : ∀ r, (R.event c r).Only j) :
    R.Keeps d j (Prog.perform c) :=
  fun _ ↦ tracks_only (.command hc)

theorem Keeps.step {c : S.Cmd} {f : S.Resp c → Prog S α} (hc : ∀ r, (R.event c r).Only j)
    (hf : ∀ r, R.Keeps d j (f r)) : R.Keeps d j (Prog.perform c >>= f) :=
  .bind (.command hc) hf

theorem only_ask {c : S.Cmd} {e : S.Resp c → Bool}
    (hc : ∀ r, R.event c r = if e r then .refuse else .other) (r : S.Resp c) :
    (R.event c r).Only j := by
  rw [hc]
  cases e r with
  | true => trivial
  | false => trivial

/-- An error ends the program, or it goes on. -/
theorem Keeps.check {p : Prog S (Option β)} {f : Option β → Prog S α} (hp : R.Keeps d j p)
    (herr : ∀ err, R.Keeps d j (f (some err))) (hf : R.Keeps d j (f none)) :
    R.Keeps d j (p >>= f) := by
  refine hp.bind fun r ↦ ?_
  cases r with
  | none => exact hf
  | some err => exact herr err

/-! ### Runs -/

variable [DecidableEq Tid] {T : Tid → Type} {c c' : Config S State T} {trace : List (Label S Tid)}
  {sure recovers : Tid → Bool} {Safe : Tid → Prop} {φ : Config S State T → Label S Tid → Prop}

theorem lastUsed_call (t t' : Tid) (cmd : S.Cmd) (r : S.Resp cmd) :
    R.lastUsed (trace ++ [.call t cmd r]) t' =
      if t = t' then (R.event cmd r).resource.or (R.lastUsed trace t')
      else R.lastUsed trace t' := by
  unfold lastUsed
  rw [List.filterMap_append, List.getLast?_append]
  by_cases ht : t = t'
  · cases h : (R.event cmd r).resource <;> simp [ht, h]
  · simp [ht]

theorem lastUsed_silent (t t' : Tid) :
    R.lastUsed (trace ++ [.silent t]) t' = R.lastUsed trace t' := by
  unfold lastUsed
  rw [List.filterMap_append, List.getLast?_append]
  simp

theorem lastUsed_append (trace' : List (Label S Tid)) (t : Tid) :
    R.lastUsed (trace ++ trace') t = (R.lastUsed trace' t).or (R.lastUsed trace t) := by
  unfold lastUsed
  rw [List.filterMap_append, List.getLast?_append]

/-- Everything is as supposed; the world remembers the resource that was used last. -/
def lost (R : Reading M) (d : Nat) : Answers S (Option Nat) :=
  fun used c r used' ↦ (R.event c r).Supposed d ∧ used' = (R.event c r).resource.or used

omit [DecidableEq Tid] in
theorem eval_step {α : Type} {a : α} {s s' : State} {used : Option Nat} {w : State × Option Nat}
    (c : S.Cmd) (r : S.Resp c) {k : S.Resp c → Prog S α} (happly : M.apply t c r s = some s')
    (hsupposed : (R.event c r).Supposed d)
    (h : Eval (M.beside t (R.lost d)) (k r) (s', (R.event c r).resource.or used) a w) :
    Eval (M.beside t (R.lost d)) (.call c k) (s, used) a w := by
  have hanswer : M.beside t (R.lost d) (s, used) c r (s', (R.event c r).resource.or used) :=
    ⟨happly, hsupposed, rfl⟩
  exact .call hanswer h

/-- What a thread can do on its own if the resource has died, it can do in a run. -/
theorem exists_run {p : Prog S (T t)} {a : T t} {s s' : State} {used : Option Nat}
    (h : Eval (M.beside t (R.lost d)) p (s, none) a (s', used))
    {threads : (t : Tid) → Prog S (T t)} (hthread : threads t = p) :
    ∃ trace, R.lastUsed trace t = used ∧ RunWhere M (fun _ l ↦ R.Supposed d l ∧ l.thread = t)
      ⟨s, threads⟩ trace ⟨s', Function.update threads t (.ret a)⟩ := by
  refine Eval.run (v := Prod.fst) (J := fun trace w ↦ R.lastUsed trace t = w.2) ?_ ?_ h hthread
    rfl .refl
  · rintro trace w c r w' hj ⟨happly, hsupposed, hused⟩
    refine ⟨happly, hsupposed, ?_⟩
    rw [lastUsed_call, if_pos rfl, hj, hused]
  · intro trace w hj
    exact ⟨trivial, (lastUsed_silent t t).trans hj⟩

/-- Threads that leave the state as it is run one after another, and then one whose last
use is of the dead resource. -/
theorem exists_lost_run {call : Nat → Tid} (hcall : Function.Injective call) {N : Nat}
    (h : ∀ n < N, ∃ a used,
      Eval (M.beside (call n) (R.lost d)) (c.threads (call n)) (c.state, none) a (c.state, used))
    {a : T (call N)} {s : State} (hlast : Eval (M.beside (call N) (R.lost d)) (c.threads (call N))
      (c.state, none) a (s, some d)) :
    ∃ trace c', RunIf M (fun c l ↦ R.Supposed d l ∧ InTurn call c l) c trace c' ∧
      c'.threads (call N) = .ret a ∧ R.lastUsed trace (call N) = some d := by
  obtain ⟨trace, threads, hrun, hbefore, hafter⟩ := exists_runIf_inTurn (M := M)
    (P := R.Supposed d) hcall fun n hn threads hthread ↦ by
      obtain ⟨a, used, heval⟩ := h n hn
      obtain ⟨trace, -, hrun⟩ := exists_run heval hthread
      exact ⟨trace, a, hrun⟩
  obtain ⟨trace', hused, hrun'⟩ := exists_run hlast (hafter N (Nat.le_refl N))
  refine ⟨_, _, hrun.inTurn hcall hbefore hrun', Function.update_self .., ?_⟩
  rw [lastUsed_append, hused, Option.some_or]

/-- What is kept along a run: everything could happen, and what the threads know is
so. -/
structure Kept (R : Reading M) (d : Nat) (sure : Tid → Bool) (trace : List (Label S Tid))
    (s : State) (x : Tid → Option Know) : Prop where
  known : ∀ t, ∃ k, x t = some k ∧ k.sure = sure t ∧ k.used = R.lastUsed trace t
  gone : ∀ t k, x t = some k → k.gone = true → (R.view s).slot ≠ some d
  made : d < (R.view s).made
  kept : ∀ k, (R.view s).kept k → k ≠ d

theorem Kept.call {s s' : State} {x : Tid → Option Know} {y : Option Know} {t : Tid} {cmd : S.Cmd}
    {r : S.Resp cmd} (h : Kept R d sure trace s x) (happly : M.apply t cmd r s = some s')
    (hnext : (R.usage d).Next cmd r (x t) y) (hsupposed : (R.event cmd r).Supposed d)
    (hsure : sure t = true → (R.view s).slot ≠ some d) :
    Kept R d sure (trace ++ [.call t cmd r]) s' (Function.update x t y) := by
  obtain ⟨k, hk, hsurek, husedk⟩ := h.known t
  rw [hk] at hnext
  obtain ⟨hallowed, rfl⟩ := hnext
  have hacts := R.acts t cmd r s s' happly
  have hslot : (R.view s).slot ≠ some d → (R.view s').slot ≠ some d := hacts.slot_ne hallowed
  obtain ⟨k', hk', hsurek', husedk', hgonek'⟩ := k.exists_after hacts hsupposed hallowed h.made
    h.kept (fun hs ↦ hsure (hsurek ▸ hs)) (h.gone t k hk)
  refine ⟨?_, ?_, Nat.lt_of_lt_of_le h.made hacts.made, ?_⟩
  · intro t'
    by_cases ht : t = t'
    · subst ht
      refine ⟨k', by rw [Function.update_self, hk'], hsurek'.trans hsurek, ?_⟩
      rw [lastUsed_call, if_pos rfl, husedk', husedk]
    · rw [Function.update_of_ne (Ne.symm ht), lastUsed_call, if_neg ht]
      exact h.known t'
  · intro t' k'' hk'' hgone
    by_cases ht : t = t'
    · subst ht
      rw [Function.update_self, hk'] at hk''
      cases hk''
      exact hgonek' hgone
    · rw [Function.update_of_ne (Ne.symm ht)] at hk''
      exact hslot (h.gone t' k'' hk'' hgone)
  · intro j hj
    rcases hacts.kept j hj with hold | hnew
    · exact h.kept j hold
    · rw [hnew] at hallowed
      exact hallowed

section Adequacy

variable
  (hfollows : ∀ t, R.Tracks d (c.threads t) { sure := sure t } fun _ k ↦
    (recovers t = true → k.gone = true) ∧ (Safe t → k.used ≠ some d))
  (hmade : d < (R.view c.state).made) (hkept : ∀ k, (R.view c.state).kept k → k ≠ d)
  (hsupposed : ∀ c l, φ c l → R.Supposed d l)
  (hsure : ∀ c l, φ c l → sure l.thread = true →
    ∃ t, recovers t = true ∧ ∃ r, c.threads t = .ret r)
  (hrun : RunIf M φ c trace c')

include hfollows hmade hkept hsupposed hsure hrun

theorem kept_of_run : ∃ x, Conforms (R.usage d) (fun t _ (y : Option Know) ↦ ∀ k ∈ y,
      (recovers t = true → k.gone = true) ∧ (Safe t → k.used ≠ some d)) c' x ∧
    Kept R d sure trace c'.state x := by
  induction hrun with
  | refl =>
      refine ⟨fun t ↦ some { sure := sure t }, hfollows, fun t ↦ ⟨_, rfl, rfl, rfl⟩, ?_, hmade,
        hkept⟩
      intro t k hk hgone
      cases hk
      exact nomatch hgone
  | @snoc c₁ c₂ trace l _ hφ hstep ih =>
      obtain ⟨x, hconforms, hkept⟩ := ih
      obtain ⟨x', hconforms', hmoves⟩ := hconforms.step hstep
      refine ⟨x', hconforms', ?_⟩
      -- whoever is sure comes after a thread that knows
      have hslot : sure l.thread = true → (R.view c₁.state).slot ≠ some d := by
        intro hs
        obtain ⟨t', hrecovers, r', hret'⟩ := hsure c₁ l hφ hs
        obtain ⟨k, hk, -⟩ := hkept.known t'
        exact hkept.gone t' k hk ((hconforms.returned hret' k hk).1 hrecovers)
      have hl := hsupposed c₁ l hφ
      cases l with
      | call t cmd r =>
          obtain ⟨happly, y, hnext, rfl⟩ := hmoves
          exact hkept.call happly hnext hl hslot
      | silent t =>
          obtain ⟨hstate, rfl⟩ := hmoves
          rw [hstate]
          refine { hkept with known := fun t' ↦ ?_ }
          rw [lastUsed_silent]
          exact hkept.known t'

/-- If the outside is as supposed, and a thread that is sure only takes a step when
somebody has returned who recovers, then a safe thread that has returned has not used
the dead resource last. -/
theorem recovered {t : Tid} (hsafe : Safe t) {r : T t} (hret : c'.threads t = .ret r) :
    R.lastUsed trace t ≠ some d := by
  obtain ⟨x, hconforms, hkept'⟩ := kept_of_run hfollows hmade hkept hsupposed hsure hrun
  obtain ⟨k, hk, -, hused⟩ := hkept'.known t
  exact hused ▸ (hconforms.returned hret k hk).2 hsafe

end Adequacy

/-! ### Calls one after another -/

section Calls

variable {call : Nat → Tid} {index : Tid → Option Nat} {mutates : Nat → Bool} {Init : State → Prop}
  {threads : (t : Tid) → Prog S (T t)}

/-- The resource `d` has died, and each call returns before the next one begins. -/
def Loses (R : Reading M) (call : Nat → Tid) (d : Nat) (c : Config S State T) (l : Label S Tid) :
    Prop :=
  R.Supposed d l ∧ InTurn call c l

/-- However the calls are made once the resource in the slot has died, none but the first
returns having used it last. -/
def Recovers (R : Reading M) (call : Nat → Tid) (Init : State → Prop)
    (threads : (t : Tid) → Prog S (T t)) : Prop :=
  ∀ (s : State) (d : Nat) (trace : List (Label S Tid)) (c : Config S State T),
    (R.view s).slot = some d → d < (R.view s).made → Init s →
    RunIf M (R.Loses call d) ⟨s, threads⟩ trace c →
    ∀ n ≥ 1, ∀ r, c.threads (call n) = .ret r → R.lastUsed trace (call n) ≠ some d

/-- The calls cope, the other threads do not use a dead resource, and none is remembered
at first. -/
structure Cope (R : Reading M) (call : Nat → Tid) (index : Tid → Option Nat)
    (recovers mutates : Nat → Bool) (Init : State → Prop) (threads : (t : Tid) → Prog S (T t)) :
    Prop where
  index_call : ∀ n, index (call n) = some n
  eq_call : ∀ t n, index t = some n → t = call n
  calls : ∀ d n k, R.Tracks d (threads (call n)) k fun _ k' ↦
    k.Copes (recovers n) (mutates n) d k'
  others : ∀ d t, index t = none →
    R.Tracks d (threads t) { sure := false } fun _ k ↦ k.used ≠ some d
  init : ∀ s, Init s → ∀ k, ¬(R.view s).kept k

variable {recovers : Nat → Bool} (h : R.Cope call index recovers mutates Init threads)
include h

omit [DecidableEq Tid] in
theorem Cope.call_injective : Function.Injective call := fun m n heq ↦
  Option.some.inj ((h.index_call m).symm.trans ((congrArg index heq).trans (h.index_call n)))

/-- If every call that leaves a dead resource in place comes after one that replaces it,
the calls recover. -/
theorem Cope.recovers_of_calls (hcalls : ∀ n ≥ 1, mutates n = true → ∃ m < n, recovers m = true) :
    R.Recovers call Init threads := by
  intro s d trace c _ hmade hinit hrun n hn r hret
  have htracks (t : Tid) :
      R.Tracks d (threads t) { sure := (index t).any fun n ↦ (List.range n).any recovers } fun _ k ↦
        ((index t).any recovers = true → k.gone = true) ∧ (t ≠ call 0 → k.used ≠ some d) := by
    cases ht : index t with
    | none => exact (h.others d t ht).mono fun _ k hk ↦ ⟨nofun, fun _ ↦ hk⟩
    | some m =>
        obtain rfl := h.eq_call t m ht
        refine (h.calls d m _).mono fun _ k hk ↦ ⟨fun h ↦ (hk.recovers h).gone, fun hm ↦ ?_⟩
        cases hmutates : mutates m with
        | false => exact hk.spares hmutates nofun
        | true =>
            have hpos : m ≥ 1 := Nat.pos_of_ne_zero fun h ↦ hm (congrArg call h)
            obtain ⟨m', hm', hrecovers⟩ := hcalls m hpos hmutates
            exact hk.sure (List.any_eq_true.mpr ⟨m', List.mem_range.mpr hm', hrecovers⟩) nofun
  refine recovered htracks hmade (fun k hk ↦ absurd hk (h.init s hinit k)) (fun _ _ h ↦ h.1) ?_ hrun
    (fun heq ↦ absurd (h.call_injective heq) (Nat.ne_of_gt hn)) hret
  intro c l hl hsure
  cases hthread : index l.thread with
  | none =>
      rw [hthread] at hsure
      exact nomatch hsure
  | some m =>
      rw [hthread] at hsure
      obtain ⟨m', hm', hrecovers⟩ := List.any_eq_true.mp hsure
      refine ⟨call m', ?_, hl.2 m (h.eq_call _ m hthread) m' (List.mem_range.mp hm')⟩
      rw [h.index_call]
      exact hrecovers

/-- If the calls that do not replace a dead resource can return from one that has died,
and use it if they leave it in place, then the condition is necessary too. -/
theorem Cope.recovers_iff {s : State} (hinit : Init s) (hslot : (R.view s).slot = some d)
    (hmade : d < (R.view s).made)
    (hlost : ∀ n, recovers n = false → ∃ a used,
      Eval (M.beside (call n) (R.lost d)) (threads (call n)) (s, none) a (s, used))
    (hmutates : ∀ n, mutates n = true → ∃ a,
      Eval (M.beside (call n) (R.lost d)) (threads (call n)) (s, none) a (s, some d)) :
    R.Recovers call Init threads ↔
      ∀ n ≥ 1, mutates n = true → ∃ m < n, recovers m = true := by
  refine ⟨fun hrecovers N hN hN' ↦ ?_, h.recovers_of_calls⟩
  by_contra hnone
  have hfalse (m : Nat) (hm : m < N) : recovers m = false :=
    Bool.not_eq_true _ ▸ fun hm' ↦ hnone ⟨m, hm, hm'⟩
  obtain ⟨a, hlast⟩ := hmutates N hN'
  obtain ⟨trace, c, hrun, hret, hused⟩ := exists_lost_run h.call_injective (c := ⟨s, threads⟩)
    (fun n hn ↦ hlost n (hfalse n hn)) hlast
  exact hrecovers s d trace c hslot hmade hinit hrun N hN a hret hused

end Calls

end Reading

end Machines

end GoFilesystem.Conc.Recovery
