import GoFilesystem.Conc.Usage
import Mathlib.Data.List.Induction

/-!
# A mutex that is handed over

A mutex that a thread may lock and another one unlock.  The thread that has locked
it either unlocks it or hands it to a peer, a thread that has been waiting for this
and unlocks it in turn.  The threads that act for one another share an activity,
and the mutex itself only knows the activity that has locked it.

The history of a run says which thread the mutex belongs to (`holder`).  `Phase` is
where one thread is in this order of events; what is guarded by the mutex may be
done only inside.

| event | by a thread that is | is then |
| --- | --- | --- |
| `lock` | outside | inside |
| `unlock` | inside | outside |
| `guarded` | inside | inside |
| `hand` | inside | outside |
| `take` | waiting | inside |

If every thread of a machine keeps to it, then nothing is done with the mutex, or
under it, but by its holder, and every time it is locked it is unlocked once, unless
its holder is still running (`Handover.serial`).
-/

namespace GoFilesystem.Conc.Handoff

variable {Tid A : Type}

/-- What a command means for the mutex. -/
inductive Event (Tid : Type)
  | lock
  | unlock
  /-- Something is done that needs the mutex. -/
  | guarded
  /-- The mutex now belongs to another thread. -/
  | hand (heir : Tid)
  /-- A thread learns that the mutex belongs to it. -/
  | take (heir : Tid)
  | other
deriving DecidableEq

def Event.holder (t : Tid) (h : Option Tid) : Event Tid → Option Tid
  | .lock => some t
  | .unlock => none
  | .hand heir => some heir
  | _ => h

def holder (history : List (Tid × Event Tid)) : Option Tid :=
  history.foldl (fun h x ↦ x.2.holder x.1 h) none

/-- An event is up to a thread, given whom the mutex belongs to. -/
def Event.Legal (activity : Tid → A) (t : Tid) (h : Option Tid) : Event Tid → Prop
  | .lock => h = none
  | .unlock | .guarded => h = some t
  | .hand heir => h = some t ∧ activity heir = activity t
  | .take _ | .other => True

/-- Every event of a history was up to its thread. -/
def Legal (activity : Tid → A) (history : List (Tid × Event Tid)) : Prop :=
  ∀ before t e after, history = before ++ (t, e) :: after → e.Legal activity t (holder before)

def Event.Turns (e : Event Tid) : Prop := e = .lock ∨ e = .unlock

instance (e : Event Tid) : Decidable e.Turns :=
  match e with
  | .lock => .isTrue (.inl rfl)
  | .unlock => .isTrue (.inr rfl)
  | .guarded | .hand _ | .take _ | .other => .isFalse (by rintro (h | h) <;> nomatch h)

section History

variable {activity : Tid → A} {history before after : List (Tid × Event Tid)} {t : Tid}
  {e : Event Tid}

theorem holder_concat (t : Tid) (e : Event Tid) :
    holder (history ++ [(t, e)]) = e.holder t (holder history) :=
  List.foldl_append

theorem Legal.concat (h : Legal activity history) (he : e.Legal activity t (holder history)) :
    Legal activity (history ++ [(t, e)]) := by
  intro before t' e' after heq
  rcases List.eq_nil_or_concat after with rfl | ⟨rest, last, rfl⟩
  · obtain ⟨rfl, hlast⟩ := List.append_inj' heq rfl
    obtain ⟨rfl, rfl⟩ := Prod.mk.inj (List.cons.inj hlast).1
    exact he
  · rw [List.concat_eq_append, ← List.cons_append, ← List.append_assoc] at heq
    exact h before t' e' rest (List.append_inj' heq rfl).1

theorem Legal.left (h : Legal activity (before ++ after)) : Legal activity before := by
  rintro before' t e after' rfl
  exact h before' t e (after' ++ after) (by simp)

/-- Until the mutex is unlocked it belongs to the activity that has locked it. -/
theorem Legal.holder_of_lock {between : List (Tid × Event Tid)}
    (h : Legal activity (before ++ (t, .lock) :: between)) (hquiet : ∀ x ∈ between, ¬x.2.Turns) :
    ∃ t', holder (before ++ (t, .lock) :: between) = some t' ∧ activity t' = activity t := by
  induction between using List.reverseRecOn with
  | nil => exact ⟨t, holder_concat t .lock, rfl⟩
  | append_singleton between x ih =>
      obtain ⟨t₁, e⟩ := x
      have hturns := hquiet _ (List.mem_append_right _ (List.mem_singleton.mpr rfl))
      rw [← List.cons_append, ← List.append_assoc] at h ⊢
      obtain ⟨t', hholder, hactivity⟩ :=
        ih h.left fun y hy ↦ hquiet y (List.mem_append_left _ hy)
      have hlegal := h _ t₁ e [] rfl
      rw [hholder] at hlegal
      rw [holder_concat, hholder]
      cases e with
      | lock => exact absurd (.inl rfl) hturns
      | unlock => exact absurd (.inr rfl) hturns
      | hand heir =>
          obtain ⟨heq, hheir⟩ := hlegal
          cases heq
          exact ⟨heir, rfl, hheir.trans hactivity⟩
      | guarded | take | other => exact ⟨t', rfl, hactivity⟩

/-- The mutex has been unlocked, before anything else happened to it, by the activity
of a thread. -/
def Released (activity : Tid → A) (t : Tid) (after : List (Tid × Event Tid)) : Prop :=
  ∃ between t' rest, after = between ++ (t', .unlock) :: rest ∧ activity t' = activity t ∧
    ∀ x ∈ between, ¬x.2.Turns

/-- Each time the mutex was locked it was unlocked once, unless nothing has happened
to it since. -/
theorem Legal.released (h : Legal activity (before ++ (t, .lock) :: after)) :
    Released activity t after ∨ ∀ x ∈ after, ¬x.2.Turns := by
  rcases hfind : after.find? (fun x ↦ x.2.Turns) with _ | ⟨t', e⟩
  · right
    intro x hx
    simpa using List.find?_eq_none.mp hfind x hx
  · left
    obtain ⟨hturns, between, rest, rfl, hbetween⟩ := List.find?_eq_some_iff_append.mp hfind
    have hquiet : ∀ x ∈ between, ¬x.2.Turns := by
      intro x hx
      simpa using hbetween x hx
    rw [← List.cons_append, ← List.append_assoc] at h
    have hlegal := h _ t' e rest rfl
    obtain ⟨t₁, hholder, hactivity⟩ := h.left.holder_of_lock hquiet
    rw [hholder] at hlegal
    rcases of_decide_eq_true hturns with hlock | hunlock
    · obtain rfl : e = .lock := hlock
      exact nomatch hlegal
    · obtain rfl : e = .unlock := hunlock
      obtain rfl := Option.some.inj hlegal
      exact ⟨between, t₁, rest, rfl, hactivity, hquiet⟩

end History

/-! ## Threads -/

inductive Phase
  | outside
  | inside
  /-- A peer that has not been handed the mutex, as far as it knows. -/
  | waiting
deriving DecidableEq

structure Local (Tid : Type) where
  self : Tid
  phase : Phase

inductive Phase.Step (activity : Tid → A) (peer : Tid → Bool) (t : Tid) :
    Event Tid → Phase → Phase → Prop
  | lock : Step activity peer t .lock .outside .inside
  | unlock : Step activity peer t .unlock .inside .outside
  | guarded : Step activity peer t .guarded .inside .inside
  | hand {heir : Tid} (hpeer : peer heir = true) (hactivity : activity heir = activity t) :
      Step activity peer t (.hand heir) .inside .outside
  | take : Step activity peer t (.take t) .waiting .inside
  | other (p : Phase) : Step activity peer t .other p p

/-- What the threads share: the activity that has locked the mutex, and the threads
that have been handed it. -/
structure Shared (Tid A : Type) where
  owner : Option A
  handed : Tid → Bool

def act [DecidableEq A] [DecidableEq Tid] (activity : Tid → A) (t : Tid) (s : Shared Tid A) :
    Event Tid → Option (Shared Tid A)
  | .lock => if s.owner = none then some { s with owner := some (activity t) } else none
  | .unlock => if s.owner ≠ none then some { s with owner := none } else none
  | .hand heir =>
    if s.handed heir = false then
      some { s with handed := Function.update s.handed heir true }
    else none
  | .take heir => if s.handed heir = true then some s else none
  | .guarded | .other => some s

/-- What holds at any time, given whom the mutex belongs to. -/
structure Inv (activity : Tid → A) (peer : Tid → Bool) (h : Option Tid) (s : Shared Tid A)
    (x : Tid → Local Tid) : Prop where
  self : ∀ t, (x t).self = t
  owner : s.owner = h.map activity
  inside : ∀ t, (x t).phase = .inside → h = some t
  /-- A thread that has been handed the mutex and does not know it yet is its holder. -/
  handed : ∀ t, (x t).phase = .waiting → s.handed t = true → h = some t
  unhanded : ∀ t, peer t = true → s.handed t = false → (x t).phase = .waiting
  holds : ∀ t, h = some t → (x t).phase ≠ .outside

section Inv

variable {activity : Tid → A} {peer : Tid → Bool} {h : Option Tid} {s s' : Shared Tid A}
  {x : Tid → Local Tid} {t : Tid} {e : Event Tid} {p : Phase}

theorem inv_start (activity : Tid → A) (peer : Tid → Bool) :
    Inv activity peer none ⟨none, fun _ ↦ false⟩
      fun t ↦ ⟨t, if peer t then .waiting else .outside⟩ where
  self _ := rfl
  owner := rfl
  inside t h := by
    dsimp only at h
    split at h <;> contradiction
  handed _ _ := nofun
  unhanded t ht _ := if_pos ht
  holds _ := nofun

/-- What a thread may do in its phase is up to it. -/
theorem Inv.legal_of_step (hinv : Inv activity peer h s x)
    (hstep : Phase.Step activity peer t e (x t).phase p) (hlock : e ≠ .lock) :
    e.Legal activity t h := by
  generalize hphase : (x t).phase = q at hstep
  cases hstep with
  | lock => exact absurd rfl hlock
  | unlock | guarded => exact hinv.inside t hphase
  | hand _ hactivity => exact ⟨hinv.inside t hphase, hactivity⟩
  | take | other => trivial

variable [DecidableEq A] [DecidableEq Tid]

theorem Inv.legal (hinv : Inv activity peer h s x) (hact : act activity t s e = some s')
    (hstep : Phase.Step activity peer t e (x t).phase p) : e.Legal activity t h := by
  by_cases hlock : e = .lock
  · subst hlock
    obtain ⟨hfree, -⟩ := Option.ite_none_right_eq_some.mp hact
    exact Option.map_eq_none_iff.mp (hinv.owner.symm.trans hfree)
  · exact hinv.legal_of_step hstep hlock

theorem Inv.step (hinv : Inv activity peer h s x) (hact : act activity t s e = some s')
    (hstep : Phase.Step activity peer t e (x t).phase p) :
    Inv activity peer (e.holder t h) s' (Function.update x t ⟨t, p⟩) := by
  have hlegal := hinv.legal hact hstep
  obtain ⟨hself, howner, hinside, hhanded, hunhanded, hholds⟩ := hinv
  generalize hphase : (x t).phase = q at hstep
  cases hstep with
  | lock =>
      obtain ⟨-, rfl⟩ := of_ite_some hact
      obtain rfl : h = none := hlegal
      constructor <;> grind [Event.holder]
  | unlock =>
      obtain ⟨-, rfl⟩ := of_ite_some hact
      obtain rfl : h = some t := hlegal
      constructor <;> grind [Event.holder]
  | hand hpeer hactivity =>
      obtain ⟨hfresh, rfl⟩ := of_ite_some hact
      obtain rfl : h = some t := hlegal.1
      constructor <;> grind [Event.holder]
  | take =>
      obtain ⟨htaken, rfl⟩ := of_ite_some hact
      have hholder := hhanded t hphase htaken
      constructor <;> grind [Event.holder]
  | guarded | other =>
      cases hact
      constructor <;> grind [Event.holder]

end Inv

/-! ## Machines with such a mutex -/

section Machines

variable {S : Sig} {State : Type} [DecidableEq A] [DecidableEq Tid] {M : Machine S Tid State}
  {R : Tid → Type}

/-- A reading of the commands of a machine as events of a mutex. -/
structure Handover (A : Type) [DecidableEq A] (M : Machine S Tid State) where
  activity : Tid → A
  peer : Tid → Bool
  event : S.Cmd → Event Tid
  view : State → Shared Tid A
  act_of_apply : ∀ t c r s s', M.apply t c r s = some s' →
    act activity t (view s) (event c) = some (view s')

variable (H : Handover A M)

def Handover.usage : Usage S where
  Local := Local Tid
  Next c _ x y := ∃ p, Phase.Step H.activity H.peer x.self (H.event c) x.phase p ∧ y = ⟨x.self, p⟩

def Handover.history (trace : List (Label S Tid)) : List (Tid × Event Tid) :=
  trace.filterMap fun
    | .call t c _ => some (t, H.event c)
    | .silent _ => none

section Rules

variable {α : Type} {x : Local Tid} {cmd : S.Cmd} {p : Phase}

/-- A command, and the phase that it leads to. -/
theorem Handover.follows (h : Phase.Step H.activity H.peer x.self (H.event cmd) x.phase p) :
    H.usage.Follows (Prog.perform cmd) x fun _ y ↦ y = ⟨x.self, p⟩ :=
  Usage.Follows.command fun _ ↦ ⟨_, ⟨p, h, rfl⟩, rfl⟩

/-- A program that has nothing to do with the mutex. -/
theorem Handover.follows_other {prog : Prog S α} (h : prog.Within (H.event · = .other)) :
    H.usage.Follows prog x fun _ y ↦ y = x := by
  refine .of_within h fun c r hc ↦ ⟨x.phase, ?_, rfl⟩
  rw [hc]
  exact .other _

/-- A program that keeps the mutex. -/
theorem Handover.follows_guarded {prog : Prog S α}
    (h : prog.Within fun c ↦ H.event c = .guarded ∨ H.event c = .other) (hx : x.phase = .inside) :
    H.usage.Follows prog x fun _ y ↦ y = x := by
  refine .of_within h fun c r hc ↦ ⟨x.phase, ?_, rfl⟩
  rcases hc with hc | hc
  · rw [hc, hx]
    exact .guarded
  · rw [hc]
    exact .other _

end Rules

variable {Q : (t : Tid) → R t → Local Tid → Prop} {c c' : Config S State R}
  {trace : List (Label S Tid)}

/-- What is to be said of the mutex after a run. -/
structure Serial (trace : List (Label S Tid)) (c : Config S State R) : Prop where
  /-- The mutex knows the activity of its holder. -/
  owner : (H.view c.state).owner = (holder (H.history trace)).map H.activity
  /-- Whatever was done was up to the thread that did it. -/
  legal : Legal H.activity (H.history trace)
  /-- So is what a thread does next; only a lock may have to wait. -/
  next : ∀ t cmd k, c.threads t = .call cmd k → H.event cmd ≠ .lock →
    (H.event cmd).Legal H.activity t (holder (H.history trace))
  /-- Each time the mutex was locked, it has been unlocked once by the same activity,
  or it is held by a thread of that activity which has not returned. -/
  released : ∀ before t after, H.history trace = before ++ (t, .lock) :: after →
    Released H.activity t after ∨ ((∀ x ∈ after, ¬x.2.Turns) ∧
      ∃ t', holder (H.history trace) = some t' ∧ H.activity t' = H.activity t ∧
        ∀ r, c.threads t' ≠ .ret r)

theorem Handover.serial (hresp : ∀ cmd, Nonempty (S.Resp cmd))
    (hconforms : Conforms H.usage Q c fun t ↦ ⟨t, if H.peer t then .waiting else .outside⟩)
    (hinit : H.view c.state = ⟨none, fun _ ↦ false⟩)
    (hreturns : ∀ t r y, Q t r y → y.phase = .outside) (hrun : Run M c trace c') :
    Serial H trace c' := by
  obtain ⟨x, hconforms', hinv, hlegal⟩ : ∃ x, Conforms H.usage Q c' x ∧
      Inv H.activity H.peer (holder (H.history trace)) (H.view c'.state) x ∧
      Legal H.activity (H.history trace) := by
    refine hconforms.induct (J := fun trace s x ↦
      Inv H.activity H.peer (holder (H.history trace)) (H.view s) x ∧
        Legal H.activity (H.history trace)) ?_ ?_ ?_ hrun
    · rw [hinit]
      exact ⟨inv_start _ _, fun before t e after heq ↦ by simp [history] at heq⟩
    · rintro trace t cmd r s s' x y ⟨hinv, hlegal⟩ happly ⟨p, hstep, rfl⟩
      have hhistory : H.history (trace ++ [.call t cmd r]) =
        H.history trace ++ [(t, H.event cmd)] := List.filterMap_append
      have hact := H.act_of_apply t cmd r s s' happly
      rw [hinv.self t] at hstep ⊢
      rw [hhistory, holder_concat]
      exact ⟨hinv.step hact hstep, hlegal.concat (hinv.legal hact hstep)⟩
    · intro trace t s x h
      have hhistory : H.history (trace ++ [.silent t]) = H.history trace := by
        simp [history, List.filterMap_append]
      rwa [hhistory]
  refine ⟨hinv.owner, hlegal, ?_, ?_⟩
  · intro t cmd k hthread hlock
    have hfollows := hconforms' t
    rw [hthread] at hfollows
    obtain ⟨r⟩ := hresp cmd
    obtain ⟨_, ⟨p, hstep, -⟩, -⟩ := hfollows r
    rw [hinv.self t] at hstep
    exact hinv.legal_of_step hstep hlock
  · intro before t after heq
    rw [heq] at hlegal
    refine hlegal.released.imp_right fun hquiet ↦ ⟨hquiet, ?_⟩
    obtain ⟨t', hholder, hactivity⟩ := hlegal.holder_of_lock hquiet
    rw [← heq] at hholder
    refine ⟨t', hholder, hactivity, fun r hret ↦ ?_⟩
    exact hinv.holds t' hholder (hreturns t' r _ (hconforms'.returned hret))

end Machines

end GoFilesystem.Conc.Handoff
