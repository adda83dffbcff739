import GoFilesystem.Conc.Prog

/-!
# A logic of interference

A `Protocol` for a machine is an invariant of the shared state and, for each
thread, a guarantee: what one of its commands may do.  An assertion is stable
for a thread if no command of another thread that keeps to its guarantee can
make it false.

`Protocol.Triple t p L Q` says that thread `t` may run `p` from states that
satisfy `L`: every command keeps the invariant and the guarantee of `t`, between
two commands a stable assertion holds, and if `p` returns then `Q` holds of its
result.  It is defined by recursion on the program, with one rule for each way
to build one; a loop needs an assertion for each round.

If every thread of a configuration has such a triple, then in every run from it
the invariant holds, every step keeps to its guarantee, and every thread that
has returned satisfies its postcondition (`Verified.run` and what follows it).
-/

namespace GoFilesystem.Conc

variable {S : Sig} {Tid State : Type}

/-- An invariant, and what the commands of each thread may do. -/
structure Protocol (M : Machine S Tid State) where
  Inv : State → Prop
  Guar : Tid → (c : S.Cmd) → S.Resp c → State → State → Prop

namespace Protocol

variable {M : Machine S Tid State} (P : Protocol M) (t : Tid) {α β ι : Type}

/-- No other thread that keeps to its guarantee can make the assertion false. -/
def Stable (L : State → Prop) : Prop :=
  ∀ t' ≠ t, ∀ c r s s', P.Inv s → P.Inv s' → P.Guar t' c r s s' → L s → L s'

/-- The thread may run the program from `L`, and ends in `Q`. -/
def Triple : {α : Type} → Prog S α → (State → Prop) → (α → State → Prop) → Prop
  | _, .ret a, L, Q => ∀ s, P.Inv s → L s → Q a s
  | _, .call c k, L, Q => ∀ s r s', P.Inv s → L s → M.apply t c r s = some s' →
      P.Inv s' ∧ P.Guar t c r s s' ∧ ∃ L', P.Stable t L' ∧ L' s' ∧ Triple (k r) L' Q
  | _, @Prog.iter _ ι β _ body i k, L, Q => ∃ (J : ι → State → Prop) (K : β → State → Prop),
      (∀ s, P.Inv s → L s → J i s) ∧ (∀ i, P.Stable t (J i)) ∧ (∀ b, P.Stable t (K b)) ∧
      (∀ i, Triple (body i) (J i) (Sum.elim J K)) ∧ ∀ b, Triple (k b) (K b) Q

variable {P t} {L L' : State → Prop} {Q Q' : α → State → Prop} {K : β → State → Prop}

theorem stable_fact (φ : Prop) : P.Stable t fun _ ↦ φ := by
  intro _ _ _ _ _ _ _ _ _ hφ
  exact hφ

theorem Stable.and (h : P.Stable t L) (h' : P.Stable t L') : P.Stable t fun s ↦ L s ∧ L' s := by
  intro t' ht c r s s' hs hs' hguar hl
  exact ⟨h t' ht c r s s' hs hs' hguar hl.1, h' t' ht c r s s' hs hs' hguar hl.2⟩

theorem Triple.ret {a : α} (h : ∀ s, P.Inv s → L s → Q a s) : P.Triple t (pure a) L Q := h

/-- A result, if nothing is to be shown. -/
theorem Triple.keep {a : α} (h : L = Q a) : P.Triple t (pure a) L Q := .ret fun _ _ hl ↦ h ▸ hl

/-- A command, with what is known after each response. -/
theorem Triple.command {c : S.Cmd} {Q : S.Resp c → State → Prop} (hstable : ∀ r, P.Stable t (Q r))
    (h : ∀ s r s', P.Inv s → L s → M.apply t c r s = some s' →
      P.Inv s' ∧ P.Guar t c r s s' ∧ Q r s') : P.Triple t (Prog.perform c) L Q := by
  intro s r s' hs hl happly
  obtain ⟨hinv, hguar, hq⟩ := h s r s' hs hl happly
  exact ⟨hinv, hguar, Q r, hstable r, hq, fun _ _ hq ↦ hq⟩

/-- A stronger precondition and a weaker postcondition. -/
theorem Triple.conseq {p : Prog S α} (h : P.Triple t p L Q) (hl : ∀ s, P.Inv s → L' s → L s)
    (hq : ∀ a s, P.Inv s → Q a s → Q' a s) : P.Triple t p L' Q' := by
  induction p generalizing L L' with
  | ret a =>
      intro s hs hs'
      exact hq a s hs (h s hs (hl s hs hs'))
  | call c k ih =>
      intro s r s' hs hs' happly
      obtain ⟨hinv, hguar, M', hstable, hm, hk⟩ := h s r s' hs (hl s hs hs') happly
      exact ⟨hinv, hguar, M', hstable, hm, ih r hk (fun _ _ hm ↦ hm) hq⟩
  | iter body i k _ ih =>
      obtain ⟨J, K, hj, hstableJ, hstableK, hbody, hk⟩ := h
      refine ⟨J, K, fun s hs hs' ↦ hj s hs (hl s hs hs'), hstableJ, hstableK, hbody, ?_⟩
      intro b
      exact ih b (hk b) (fun _ _ hb ↦ hb) hq

/-- A stronger precondition. -/
theorem Triple.pre {p : Prog S α} (h : P.Triple t p L Q) (hl : ∀ s, P.Inv s → L' s → L s) :
    P.Triple t p L' Q :=
  h.conseq hl fun _ _ _ hq ↦ hq

theorem Triple.of_false (p : Prog S α) (h : ∀ s, P.Inv s → ¬L s) : P.Triple t p L Q := by
  induction p generalizing L with
  | ret a => exact fun s hs hl ↦ absurd hl (h s hs)
  | call c k ih => exact fun s r s' hs hl _ ↦ absurd hl (h s hs)
  | iter body i k ihbody ih =>
      refine ⟨fun _ _ ↦ False, fun _ _ ↦ False, h, fun _ ↦ stable_fact _, fun _ ↦ stable_fact _,
        ?_, ?_⟩
      · exact fun i ↦ ihbody i fun _ _ hfalse ↦ hfalse
      · exact fun b ↦ ih b fun _ _ hfalse ↦ hfalse

/-- The part of a precondition that does not depend on the state. -/
theorem Triple.of_fact {φ : Prop} {p : Prog S α} (h : φ → P.Triple t p L Q) :
    P.Triple t p (fun s ↦ φ ∧ L s) Q := by
  by_cases hφ : φ
  · exact (h hφ).pre fun _ _ hl ↦ hl.2
  · exact .of_false p fun _ _ hl ↦ hφ hl.1

/-- A precondition that names something the state does not. -/
theorem Triple.of_exists {κ : Type} {p : Prog S α} {L : κ → State → Prop}
    (h : ∀ x, P.Triple t p (L x) Q) : P.Triple t p (fun s ↦ ∃ x, L x s) Q := by
  induction p generalizing L with
  | ret a =>
      rintro s hs ⟨x, hl⟩
      exact h x s hs hl
  | call c k ih =>
      rintro s r s' hs ⟨x, hl⟩ happly
      exact h x s r s' hs hl happly
  | iter body i k ihbody ihk =>
      choose J K hj hstableJ hstableK hbody hk using h
      refine ⟨fun i s ↦ ∃ x, J x i s, fun b s ↦ ∃ x, K x b s, ?_, ?_, ?_, ?_, ?_⟩
      · rintro s hs ⟨x, hl⟩
        exact ⟨x, hj x s hs hl⟩
      · rintro i t' ht c r s s' hs hs' hguar ⟨x, hl⟩
        exact ⟨x, hstableJ x i t' ht c r s s' hs hs' hguar hl⟩
      · rintro b t' ht c r s s' hs hs' hguar ⟨x, hl⟩
        exact ⟨x, hstableK x b t' ht c r s s' hs hs' hguar hl⟩
      · intro i
        refine ihbody i fun x ↦ (hbody x i).conseq (fun _ _ hl ↦ hl) ?_
        rintro (i' | b) s _ hq
        · exact ⟨x, hq⟩
        · exact ⟨x, hq⟩
      · intro b
        exact ihk b fun x ↦ hk x b

/-- One program after another. -/
theorem Triple.bind {p : Prog S β} {f : β → Prog S α} (hp : P.Triple t p L K)
    (hf : ∀ b, P.Triple t (f b) (K b) Q) : P.Triple t (p >>= f) L Q := by
  induction p generalizing L with
  | ret b => exact (hf b).pre hp
  | call c k ih =>
      intro s r s' hs hl happly
      obtain ⟨hinv, hguar, L', hstable, hl', hk⟩ := hp s r s' hs hl happly
      exact ⟨hinv, hguar, L', hstable, hl', ih r hk hf⟩
  | iter body i k _ ih =>
      obtain ⟨J, K', hj, hstableJ, hstableK, hbody, hk⟩ := hp
      exact ⟨J, K', hj, hstableJ, hstableK, hbody, fun b ↦ ih b (hk b) hf⟩

/-- A program that may return an error, and what follows in each case. -/
theorem Triple.check {ε : Type} {p : Prog S (Option ε)} {f : Option ε → Prog S α}
    {K : Option ε → State → Prop} (hp : P.Triple t p L K)
    (herr : ∀ err, P.Triple t (f (some err)) (K (some err)) Q)
    (hnone : P.Triple t (f none) (K none) Q) : P.Triple t (p >>= f) L Q := by
  refine .bind hp fun r ↦ ?_
  cases r with
  | some err => exact herr err
  | none => exact hnone

/-- A loop, with an assertion for each round. -/
theorem Triple.loop {body : ι → Prog S (ι ⊕ β)} (J : ι → State → Prop)
    (hstableJ : ∀ i, P.Stable t (J i)) (hstableK : ∀ b, P.Stable t (K b))
    (hbody : ∀ i, P.Triple t (body i) (J i) (Sum.elim J K)) (i : ι) :
    P.Triple t (Prog.loop body i) (J i) K :=
  ⟨J, K, fun _ _ hj ↦ hj, hstableJ, hstableK, hbody, fun _ _ _ hk ↦ hk⟩

/-- The next round of a loop. -/
theorem Triple.unfold {body : ι → Prog S (ι ⊕ β)} {i : ι} {k : β → Prog S α}
    (h : P.Triple t (.iter body i k) L Q) : P.Triple t (.unfold body i k) L Q := by
  obtain ⟨J, K, hj, hstableJ, hstableK, hbody, hk⟩ := h
  refine Triple.bind ((hbody i).pre hj) ?_
  rintro (i' | b)
  · exact ⟨J, K, fun _ _ hj ↦ hj, hstableJ, hstableK, hbody, hk⟩
  · exact hk b

end Protocol

section Adequacy

variable {M : Machine S Tid State} {R : Tid → Type}

/-- The invariant holds, and every thread has a triple for what it still runs. -/
structure Verified (P : Protocol M) (Q : (t : Tid) → R t → State → Prop)
    (c : Config S State R) : Prop where
  inv : P.Inv c.state
  threads : ∀ t, ∃ L, P.Stable t L ∧ L c.state ∧ P.Triple t (c.threads t) L (Q t)

variable [DecidableEq Tid] {P : Protocol M} {Q : (t : Tid) → R t → State → Prop}
  {c c' : Config S State R} {trace : List (Label S Tid)} {l : Label S Tid}

def Protocol.Keeps (P : Protocol M) (c : Config S State R) (l : Label S Tid)
    (c' : Config S State R) : Prop :=
  match l with
  | .call t cmd r => P.Guar t cmd r c.state c'.state
  | .silent _ => c'.state = c.state

theorem Verified.step (h : Verified P Q c) (hstep : Step M c l c') :
    Verified P Q c' ∧ P.Keeps c l c' := by
  cases hstep with
  | @call s s' threads t cmd k r hthread happly =>
      obtain ⟨L, -, hl, htriple⟩ := h.threads t
      dsimp only at hthread hl htriple
      rw [hthread] at htriple
      obtain ⟨hinv, hguar, L', hstable', hl', hk⟩ := htriple s r s' h.inv hl happly
      refine ⟨⟨hinv, ?_⟩, hguar⟩
      intro t'
      by_cases ht : t' = t
      · subst ht
        refine ⟨L', hstable', hl', ?_⟩
        dsimp only
        rw [Function.update_self]
        exact hk
      · obtain ⟨N, hstableN, hn, htripleN⟩ := h.threads t'
        refine ⟨N, hstableN, hstableN t (Ne.symm ht) cmd r s s' h.inv hinv hguar hn, ?_⟩
        dsimp only
        rw [Function.update_of_ne ht]
        exact htripleN
  | @silent s threads t ι β body i k hthread =>
      refine ⟨⟨h.inv, ?_⟩, rfl⟩
      intro t'
      by_cases ht : t' = t
      · subst ht
        obtain ⟨L, hstable, hl, htriple⟩ := h.threads t'
        dsimp only at hthread htriple
        rw [hthread] at htriple
        refine ⟨L, hstable, hl, ?_⟩
        dsimp only
        rw [Function.update_self]
        exact htriple.unfold
      · obtain ⟨N, hstableN, hn, htripleN⟩ := h.threads t'
        refine ⟨N, hstableN, hn, ?_⟩
        dsimp only
        rw [Function.update_of_ne ht]
        exact htripleN

/-- Every configuration of a run is verified. -/
theorem Verified.run (h : Verified P Q c) (hrun : Run M c trace c') : Verified P Q c' := by
  induction hrun with
  | refl => exact h
  | snoc _ hstep ih => exact (ih.step hstep).1

/-- A property of the trace and the state that every step keeps holds after every
run. -/
theorem Verified.induct (h : Verified P Q c) (hrun : Run M c trace c')
    {J : List (Label S Tid) → State → Prop} (hinit : J [] c.state)
    (hcall : ∀ trace t cmd r s s', P.Inv s → P.Guar t cmd r s s' → J trace s →
      J (trace ++ [.call t cmd r]) s')
    (hsilent : ∀ trace t s, J trace s → J (trace ++ [.silent t]) s) : J trace c'.state := by
  induction hrun with
  | refl => exact hinit
  | @snoc c₁ c₂ trace l hrun hstep ih =>
      have hverified := h.run hrun
      have hkeeps := (hverified.step hstep).2
      cases l with
      | call t cmd r => exact hcall trace t cmd r _ _ hverified.inv hkeeps ih
      | silent t =>
          have heq : c₂.state = c₁.state := hkeeps
          exact heq ▸ hsilent trace t _ ih

omit [DecidableEq Tid] in
/-- A thread that has returned satisfies its postcondition. -/
theorem Verified.returned (h : Verified P Q c) {t : Tid} {a : R t} (ht : c.threads t = .ret a) :
    Q t a c.state := by
  obtain ⟨L, -, hl, htriple⟩ := h.threads t
  rw [ht] at htriple
  exact htriple c.state h.inv hl

end Adequacy

end GoFilesystem.Conc
