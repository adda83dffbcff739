import Mathlib.Control.Lawful
import Mathlib.Tactic.Common

/-!
# Calls

`Call E σ α` is the meaning of a call that runs to its end without another
goroutine in between: it reads an environment `E`, which resolves everything
the language and its libraries leave open, transforms a state `σ`, and returns
a value or panics.

Three logics go with it.  `Call.Obeys` says that a call keeps to a `Discipline`:
an invariant it keeps, how it may change the state, and whether it may panic.
`Call.Ensures` says what holds of the value and the state after one call from
one state, if it returns.  `Call.Related` compares two calls in two environments
from two states: either both panic, or both return, with related values and
related states.
-/

namespace GoFilesystem.Go

universe u v

/-- A call: `none` is a panic. -/
def Call (E σ α : Type u) : Type u := E → σ → Option (α × σ)

namespace Call

variable {E σ τ α β γ δ : Type u} {x : Call E σ α} {f : α → Call E σ β}

instance instMonad : Monad (Call E σ) where
  pure a := fun _ s ↦ some (a, s)
  bind x f := fun e s ↦ (x e s).bind fun p ↦ f p.1 e p.2

@[simp] theorem pure_apply (a : α) (e : E) (s : σ) : (pure a : Call E σ α) e s = some (a, s) := rfl

@[simp] theorem bind_apply (x : Call E σ α) (f : α → Call E σ β) (e : E) (s : σ) :
    (x >>= f) e s = (x e s).bind fun p ↦ f p.1 e p.2 := rfl

instance instLawfulMonad : LawfulMonad (Call E σ) := LawfulMonad.mk' (Call E σ)
  (fun x ↦ by
    funext e s
    change (x e s).bind (fun p ↦ some (p.1, p.2)) = x e s
    cases x e s <;> rfl)
  (fun _ _ ↦ rfl)
  (fun x f g ↦ by
    funext e s
    exact Option.bind_assoc (x e s) _ _)

def panic : Call E σ α := fun _ _ ↦ none

def ask : Call E σ E := fun e s ↦ some (e, s)

@[simp] theorem panic_apply (e : E) (s : σ) : (panic : Call E σ α) e s = none := rfl

@[simp] theorem ask_apply (e : E) (s : σ) : (ask : Call E σ E) e s = some (e, s) := rfl

/-! ## Disciplines -/

/-- What calls may do to the state: they start in states that satisfy `pre` and
keep `pre`, relate the state before to the state after by `step`, and panic only
if that is allowed. -/
structure Discipline (σ : Type u) where
  pre : σ → Prop
  step : σ → σ → Prop
  mayPanic : Prop
  refl : ∀ s, step s s
  trans : ∀ {s t r}, step s t → step t r → step s r

namespace Discipline

/-- An invariant: it is kept, and no state in it panics. -/
def keeping (P : σ → Prop) : Discipline σ where
  pre := P
  step _ _ := True
  mayPanic := False
  refl _ := trivial
  trans _ _ := trivial

/-- A frame: only what `view` shows at the places in `K` changes. -/
def outside {κ ω : Type v} (view : σ → κ → ω) (K : Set κ) : Discipline σ where
  pre _ := True
  step s t := ∀ k ∉ K, view t k = view s k
  mayPanic := True
  refl _ _ _ := rfl
  trans hst htr k hk := (htr k hk).trans (hst k hk)

def inf (D D' : Discipline σ) : Discipline σ where
  pre s := D.pre s ∧ D'.pre s
  step s t := D.step s t ∧ D'.step s t
  mayPanic := D.mayPanic ∧ D'.mayPanic
  refl s := ⟨D.refl s, D'.refl s⟩
  trans h h' := ⟨D.trans h.1 h'.1, D'.trans h.2 h'.2⟩

/-- A discipline for one part of the state. -/
def comap (f : τ → σ) (D : Discipline σ) : Discipline τ where
  pre t := D.pre (f t)
  step s t := D.step (f s) (f t)
  mayPanic := D.mayPanic
  refl t := D.refl (f t)
  trans := D.trans

/-- The discipline allows a call to leave `t` where it found `s`. -/
def Allows (D : Discipline σ) (s t : σ) : Prop := D.pre t ∧ D.step s t

theorem Allows.refl {D : Discipline σ} {s : σ} (h : D.pre s) : D.Allows s s := ⟨h, D.refl s⟩

theorem Allows.trans {D : Discipline σ} {s t r : σ} (h : D.Allows s t) (h' : D.Allows t r) :
    D.Allows s r := ⟨h'.1, D.trans h.2 h'.2⟩

theorem Allows.inf {D D' : Discipline σ} {s t : σ} (h : D.Allows s t) (h' : D'.Allows s t) :
    (D.inf D').Allows s t := ⟨⟨h.1, h'.1⟩, h.2, h'.2⟩

/-- What the discipline says of one outcome from the state `s`. -/
def Outcome (D : Discipline σ) (s : σ) (V : α → Prop) : Option (α × σ) → Prop
  | none => D.mayPanic
  | some (a, t) => D.Allows s t ∧ V a

end Discipline

/-- The call obeys the discipline, and the values it returns satisfy `V`. -/
def Obeys (D : Discipline σ) (x : Call E σ α) (V : α → Prop) : Prop :=
  ∀ e s, D.pre s → D.Outcome s V (x e s)

section Obeys

variable {D : Discipline σ} {V W : α → Prop} {U : β → Prop}

theorem Obeys.pure {a : α} (h : V a) : Obeys D (pure a : Call E σ α) V :=
  fun _ _ hs ↦ ⟨.refl hs, h⟩

theorem Obeys.bind (hx : Obeys D x V) (hf : ∀ a, V a → Obeys D (f a) U) : Obeys D (x >>= f) U := by
  intro e s hs
  have hout := hx e s hs
  rw [bind_apply]
  cases h : x e s with
  | none => rwa [h] at hout
  | some p =>
      obtain ⟨a, t⟩ := p
      rw [h] at hout
      obtain ⟨hst, ha⟩ := hout
      have hout' := hf a ha e t hst.1
      rw [Option.bind_some]
      cases h' : f a e t with
      | none => rwa [h'] at hout'
      | some q =>
          rw [h'] at hout'
          exact ⟨hst.trans hout'.1, hout'.2⟩

/-- A call that may not panic returns. -/
theorem Obeys.returns (hx : Obeys D x V) (hD : ¬D.mayPanic) (e : E) {s : σ} (hs : D.pre s) :
    ∃ a t, x e s = some (a, t) ∧ D.Allows s t ∧ V a := by
  have hout := hx e s hs
  cases hxs : x e s with
  | none => rw [hxs] at hout; exact absurd hout hD
  | some p =>
      rw [hxs] at hout
      exact ⟨p.1, p.2, rfl, hout⟩

end Obeys

/-! ## One call from one state -/

/-- If the call returns from the state `s`, the value and the state it returns
satisfy `post`. -/
def Ensures (x : Call E σ α) (e : E) (s : σ) (post : α → σ → Prop) : Prop :=
  ∀ a t, x e s = some (a, t) → post a t

section Ensures

variable {e : E} {s : σ} {mid : α → σ → Prop} {post : β → σ → Prop}

theorem Ensures.pure {b : β} (h : post b s) : Ensures (pure b) e s post := by
  intro b' t heq
  cases heq
  exact h

theorem Ensures.bind (hx : Ensures x e s mid) (hf : ∀ a t, mid a t → Ensures (f a) e t post) :
    Ensures (x >>= f) e s post := by
  intro b r heq
  rw [bind_apply] at heq
  obtain ⟨⟨a, t⟩, hxs, hft⟩ := Option.bind_eq_some_iff.mp heq
  exact hf a t (hx a t hxs) b r hft

/-- The first part is known to return. -/
theorem Ensures.bind_of_eq {a : α} {t : σ} (hx : x e s = some (a, t))
    (hf : Ensures (f a) e t post) :
    Ensures (x >>= f) e s post := by
  intro b r heq
  rw [bind_apply, hx] at heq
  exact hf b r heq

theorem Ensures.mono {post' : α → σ → Prop} (hx : Ensures x e s mid)
    (h : ∀ a t, mid a t → post' a t) : Ensures x e s post' :=
  fun a t heq ↦ h a t (hx a t heq)

/-- A discipline bounds what one call does. -/
theorem Obeys.ensures {D : Discipline σ} {V : α → Prop} (hx : Obeys D x V) (hs : D.pre s) :
    Ensures x e s fun a t ↦ D.Allows s t ∧ V a := by
  intro a t heq
  have hout := hx e s hs
  rwa [heq] at hout

end Ensures

/-! ## Two calls side by side -/

/-- Outcomes are related when both are panics, or both are returns with related
values and states. -/
def RelOutcome (V : α → β → Prop) (R : σ → τ → Prop) :
    Option (α × σ) → Option (β × τ) → Prop
  | none, none => True
  | some (a, s), some (b, t) => V a b ∧ R s t
  | _, _ => False

/-- Started in related environments and states, the two calls end in related
outcomes. -/
def Related {F : Type u} (X : E → F → Prop) (R : σ → τ → Prop) (V : α → β → Prop)
    (x : Call E σ α) (y : Call F τ β) : Prop :=
  ∀ e f s t, X e f → R s t → RelOutcome V R (x e s) (y f t)

section Related

variable {F : Type u} {X : E → F → Prop} {R : σ → τ → Prop} {V : α → β → Prop}
  {W : γ → δ → Prop}

theorem Related.pure {a : α} {b : β} (h : V a b) :
    Related X R V (pure a : Call E σ α) (pure b : Call F τ β) :=
  fun _ _ _ _ _ hr ↦ ⟨h, hr⟩

theorem Related.panic : Related X R V (panic : Call E σ α) (panic : Call F τ β) :=
  fun _ _ _ _ _ _ ↦ trivial

theorem RelOutcome.bind {o : Option (α × σ)} {o' : Option (β × τ)} {f : α × σ → Option (γ × σ)}
    {g : β × τ → Option (δ × τ)} (h : RelOutcome V R o o')
    (hf : ∀ a b s t, V a b → R s t → RelOutcome W R (f (a, s)) (g (b, t))) :
    RelOutcome W R (o.bind f) (o'.bind g) := by
  cases o with
  | none =>
      cases o' with
      | none => trivial
      | some q => exact h.elim
  | some p =>
      cases o' with
      | none => exact h.elim
      | some q => exact hf p.1 q.1 p.2 q.2 h.1 h.2

theorem Related.bind {y : Call F τ β} {f : α → Call E σ γ} {g : β → Call F τ δ}
    (hx : Related X R V x y) (hf : ∀ a b, V a b → Related X R W (f a) (g b)) :
    Related X R W (x >>= f) (y >>= g) := by
  intro e e' s t he hr
  exact (hx e e' s t he hr).bind fun a b s' t' hv hr' ↦ hf a b hv e e' s' t' he hr'

end Related

end Call

end GoFilesystem.Go
