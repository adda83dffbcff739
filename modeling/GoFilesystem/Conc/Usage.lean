import GoFilesystem.Conc.Prog

/-!
# Usage

What one thread does, seen on its own: a `Usage` is an automaton over commands
with their responses, and `Usage.Follows p x Q` says that a program that starts in `x`
issues only commands the automaton allows, whatever it is answered, and returns
in `Q`.  Nothing is said about the shared state, so these triples need no
assertion about the other threads.

`Conforms.induct` brings the threads back together: along a run in which every
thread follows the usage, a property of the state, the trace and where each
thread is in the automaton holds if every allowed step keeps it.
-/

namespace GoFilesystem.Conc

variable {S : Sig} {α β ι : Type}

/-- The program issues only commands of one kind. -/
def Prog.Within (P : S.Cmd → Prop) : {α : Type} → Prog S α → Prop
  | _, .ret _ => True
  | _, .call c k => P c ∧ ∀ r, Within P (k r)
  | _, @Prog.iter _ _ _ _ body _ k => (∀ i, Within P (body i)) ∧ ∀ b, Within P (k b)

variable {body : ι → Prog S (ι ⊕ β)}

section Within

variable {P P' : S.Cmd → Prop}

theorem Prog.Within.command {c : S.Cmd} (h : P c) : (Prog.perform c).Within P :=
  ⟨h, fun _ ↦ trivial⟩

theorem Prog.Within.bind {p : Prog S β} {f : β → Prog S α} (hp : p.Within P)
    (hf : ∀ b, (f b).Within P) : (p >>= f).Within P := by
  induction p with
  | ret b => exact hf b
  | call c k ih => exact ⟨hp.1, fun r ↦ ih r (hp.2 r) hf⟩
  | iter body i k _ ih => exact ⟨hp.1, fun b ↦ ih b (hp.2 b) hf⟩

theorem Prog.Within.step {c : S.Cmd} {f : S.Resp c → Prog S α} (h : P c)
    (hf : ∀ r, (f r).Within P) : (Prog.perform c >>= f).Within P :=
  ⟨h, hf⟩

/-- An error ends the program, or it goes on. -/
theorem Prog.Within.check {p : Prog S (Option β)} {f : Option β → Prog S α} (hp : p.Within P)
    (herr : ∀ err, (f (some err)).Within P) (hf : (f none).Within P) : (p >>= f).Within P := by
  refine hp.bind fun r ↦ ?_
  cases r with
  | none => exact hf
  | some err => exact herr err

theorem Prog.Within.get {ε : Type} {p : Prog S (Except ε β)} {f : Except ε β → Prog S α}
    (hp : p.Within P) (herr : ∀ err, (f (.error err)).Within P)
    (hf : ∀ b, (f (.ok b)).Within P) : (p >>= f).Within P := by
  refine hp.bind fun r ↦ ?_
  cases r with
  | error err => exact herr err
  | ok b => exact hf b

theorem Prog.Within.loop (h : ∀ i, (body i).Within P) (i : ι) : (Prog.loop body i).Within P :=
  ⟨h, fun _ ↦ trivial⟩

theorem Prog.Within.mono {p : Prog S α} (h : p.Within P) (hP : ∀ c, P c → P' c) : p.Within P' := by
  induction p with
  | ret a => trivial
  | call c k ih => exact ⟨hP c h.1, fun r ↦ ih r (h.2 r)⟩
  | iter body i k ihbody ih => exact ⟨fun i ↦ ihbody i (h.1 i), fun b ↦ ih b (h.2 b)⟩

end Within

theorem Prog.within_true (p : Prog S α) : p.Within fun _ ↦ True := by
  induction p with
  | ret a => trivial
  | call c k ih => exact ⟨trivial, ih⟩
  | iter body i k ihbody ih => exact ⟨ihbody, ih⟩

/-- How each command and its response move a thread on, if they are allowed. -/
structure Usage (S : Sig) where
  Local : Type
  Next : (c : S.Cmd) → S.Resp c → Local → Local → Prop

namespace Usage

variable (U : Usage S)

/-- The program keeps to the usage from `x` on, and returns in `Q`. -/
def Follows : {α : Type} → Prog S α → U.Local → (α → U.Local → Prop) → Prop
  | _, .ret a, x, Q => Q a x
  | _, .call c k, x, Q => ∀ r, ∃ y, U.Next c r x y ∧ Follows (k r) y Q
  | _, @Prog.iter _ ι β _ body i k, x, Q =>
      ∃ (J : ι → U.Local → Prop) (K : β → U.Local → Prop), J i x ∧
        (∀ i x, J i x → Follows (body i) x (Sum.elim J K)) ∧ ∀ b x, K b x → Follows (k b) x Q

variable {U} {x : U.Local} {Q Q' : α → U.Local → Prop} {K : β → U.Local → Prop}

theorem Follows.ret {a : α} (h : Q a x) : U.Follows (pure a) x Q := h

theorem Follows.command {c : S.Cmd} {Q : S.Resp c → U.Local → Prop}
    (h : ∀ r, ∃ y, U.Next c r x y ∧ Q r y) : U.Follows (Prog.perform c) x Q := h

/-- A weaker postcondition. -/
theorem Follows.mono {p : Prog S α} (h : U.Follows p x Q) (hq : ∀ a y, Q a y → Q' a y) :
    U.Follows p x Q' := by
  induction p generalizing x with
  | ret a => exact hq a x h
  | call c k ih =>
      intro r
      obtain ⟨y, hnext, hk⟩ := h r
      exact ⟨y, hnext, ih r hk hq⟩
  | iter body i k _ ih =>
      obtain ⟨J, K, hj, hbody, hk⟩ := h
      exact ⟨J, K, hj, hbody, fun b y hb ↦ ih b (hk b y hb) hq⟩

/-- One program after another. -/
theorem Follows.bind {p : Prog S β} {f : β → Prog S α} (hp : U.Follows p x K)
    (hf : ∀ b y, K b y → U.Follows (f b) y Q) : U.Follows (p >>= f) x Q := by
  induction p generalizing x with
  | ret b => exact hf b x hp
  | call c k ih =>
      intro r
      obtain ⟨y, hnext, hk⟩ := hp r
      exact ⟨y, hnext, ih r hk hf⟩
  | iter body i k _ ih =>
      obtain ⟨J, K', hj, hbody, hk⟩ := hp
      exact ⟨J, K', hj, hbody, fun b y hb ↦ ih b (hk b y hb) hf⟩

/-- A loop, with an assertion for each round. -/
theorem Follows.loop (J : ι → U.Local → Prop) {i : ι} (hi : J i x)
    (hbody : ∀ i x, J i x → U.Follows (body i) x (Sum.elim J K)) :
    U.Follows (Prog.loop body i) x K :=
  ⟨J, K, hi, hbody, fun _ _ hk ↦ hk⟩

/-- A program whose commands leave the automaton where it is. -/
theorem Follows.of_within {p : Prog S α} {P : S.Cmd → Prop} (hp : p.Within P)
    (h : ∀ c r, P c → U.Next c r x x) : U.Follows p x fun _ y ↦ y = x := by
  induction p with
  | ret a => rfl
  | call c k ih => exact fun r ↦ ⟨x, h c r hp.1, ih r (hp.2 r)⟩
  | iter body i k ihbody ih =>
      refine ⟨fun _ y ↦ y = x, fun _ y ↦ y = x, rfl, ?_, ?_⟩
      · rintro i _ rfl
        refine (ihbody i (hp.1 i)).mono ?_
        rintro (i' | b) _ rfl
        · rfl
        · rfl
      · rintro b _ rfl
        exact ih b (hp.2 b)

/-- The next round of a loop. -/
theorem Follows.unfold {i : ι} {k : β → Prog S α} (h : U.Follows (.iter body i k) x Q) :
    U.Follows (.unfold body i k) x Q := by
  obtain ⟨J, K, hj, hbody, hk⟩ := h
  refine Follows.bind (hbody i x hj) ?_
  rintro (i' | b) y hy
  · exact ⟨J, K, hy, hbody, hk⟩
  · exact hk b y hy

end Usage

section Adequacy

variable {Tid State : Type} {M : Machine S Tid State} {R : Tid → Type} {U : Usage S}
  {Q : (t : Tid) → R t → U.Local → Prop} {c c' : Config S State R} {x : Tid → U.Local}
  {trace : List (Label S Tid)}

/-- Every thread keeps to the usage in what it still runs. -/
def Conforms (U : Usage S) (Q : (t : Tid) → R t → U.Local → Prop) (c : Config S State R)
    (x : Tid → U.Local) : Prop :=
  ∀ t, U.Follows (c.threads t) (x t) (Q t)

theorem Conforms.returned (h : Conforms U Q c x) {t : Tid} {a : R t} (ht : c.threads t = .ret a) :
    Q t a (x t) := by
  have hfollows := h t
  rwa [ht] at hfollows

variable [DecidableEq Tid]

/-- What one step does to the state and to where the threads are in the usage. -/
def Usage.Moves (U : Usage S) (M : Machine S Tid State) (s s' : State) (x x' : Tid → U.Local) :
    Label S Tid → Prop
  | .call t cmd r => M.apply t cmd r s = some s' ∧
      ∃ y, U.Next cmd r (x t) y ∧ x' = Function.update x t y
  | .silent _ => s' = s ∧ x' = x

theorem Conforms.step (h : Conforms U Q c x) {l : Label S Tid} (hstep : Step M c l c') :
    ∃ x', Conforms U Q c' x' ∧ U.Moves M c.state c'.state x x' l := by
  cases hstep with
  | @call s s' threads t cmd k r hthread happly =>
      have hfollows := h t
      dsimp only at hthread hfollows
      rw [hthread] at hfollows
      obtain ⟨y, hnext, hk⟩ := hfollows r
      refine ⟨Function.update x t y, ?_, happly, y, hnext, rfl⟩
      intro t'
      by_cases ht : t' = t
      · subst ht
        dsimp only
        rw [Function.update_self, Function.update_self]
        exact hk
      · dsimp only
        rw [Function.update_of_ne ht, Function.update_of_ne ht]
        exact h t'
  | @silent s threads t _ _ body i k hthread =>
      refine ⟨x, ?_, rfl, rfl⟩
      intro t'
      have hfollows := h t'
      by_cases ht : t' = t
      · subst ht
        dsimp only at hthread hfollows ⊢
        rw [hthread] at hfollows
        rw [Function.update_self]
        exact hfollows.unfold
      · dsimp only at hfollows ⊢
        rwa [Function.update_of_ne ht]

/-- What holds at first and is kept by every allowed step holds after every run. -/
theorem Conforms.induct {J : List (Label S Tid) → State → (Tid → U.Local) → Prop}
    (h : Conforms U Q c x) (hinit : J [] c.state x)
    (hcall : ∀ trace t cmd r s s' x y, J trace s x → M.apply t cmd r s = some s' →
      U.Next cmd r (x t) y → J (trace ++ [.call t cmd r]) s' (Function.update x t y))
    (hsilent : ∀ trace t s x, J trace s x → J (trace ++ [.silent t]) s x)
    (hrun : Run M c trace c') : ∃ x', Conforms U Q c' x' ∧ J trace c'.state x' := by
  induction hrun with
  | refl => exact ⟨x, h, hinit⟩
  | @snoc c₁ c₂ trace l _ hstep ih =>
      obtain ⟨x₁, hconforms, hj⟩ := ih
      obtain ⟨x₂, hconforms', hmoves⟩ := hconforms.step hstep
      refine ⟨x₂, hconforms', ?_⟩
      cases l with
      | call t cmd r =>
          obtain ⟨happly, y, hnext, rfl⟩ := hmoves
          exact hcall trace t cmd r _ _ x₁ y hj happly hnext
      | silent t =>
          obtain ⟨hstate, rfl⟩ := hmoves
          rw [hstate]
          exact hsilent trace t _ _ hj

end Adequacy

end GoFilesystem.Conc
