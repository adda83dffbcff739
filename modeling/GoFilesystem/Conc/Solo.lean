import GoFilesystem.Conc.Usage

/-!
# One program on its own

A program that nothing interferes with, in a world that answers its commands:
`A w c r w'` says that in the world `w` the command `c` may be answered by `r`, and
that the world is `w'` then.  `Eval A p w a w'` is the evaluation of a program: it
returns `a` and leaves the world `w'`.

`Ensures A live p w Q` is the triple that goes with it: every evaluation of `p` from
`w` ends in `Q`.  If `live` holds, there is one, because every command is answered
and every loop has a measure.

| rule | program |
| --- | --- |
| `Ensures.ret` | a result |
| `Ensures.command` | one command |
| `Ensures.bind`, `Ensures.check` | one program after another |
| `Ensures.loop` | a loop, with an assertion for each round |
| `Ensures.mono` | a weaker postcondition |
-/

namespace GoFilesystem.Conc

variable {S : Sig} {W α β ι : Type}

abbrev Answers (S : Sig) (W : Type) : Type :=
  W → (c : S.Cmd) → S.Resp c → W → Prop

/-- The program returns `a`, and the world changes from `w` to `w'`. -/
inductive Eval (A : Answers S W) {α : Type} : Prog S α → W → α → W → Prop
  | ret {a : α} {w : W} : Eval A (.ret a) w a w
  | call {c : S.Cmd} {k : S.Resp c → Prog S α} {r : S.Resp c} {a : α} {w w' w'' : W}
      (hanswer : A w c r w') (h : Eval A (k r) w' a w'') : Eval A (.call c k) w a w''
  | iter {ι β : Type} {body : ι → Prog S (ι ⊕ β)} {i : ι} {k : β → Prog S α} {a : α} {w w' : W}
      (h : Eval A (.unfold body i k) w a w') : Eval A (.iter body i k) w a w'

/-- The program comes to an end however its commands are answered, and every command
has an answer. -/
inductive Halts (A : Answers S W) {α : Type} : Prog S α → W → Prop
  | ret {a : α} {w : W} : Halts A (.ret a) w
  | call {c : S.Cmd} {k : S.Resp c → Prog S α} {w : W} (hanswer : ∃ r w', A w c r w')
      (h : ∀ r w', A w c r w' → Halts A (k r) w') : Halts A (.call c k) w
  | iter {ι β : Type} {body : ι → Prog S (ι ⊕ β)} {i : ι} {k : β → Prog S α} {w : W}
      (h : Halts A (.unfold body i k) w) : Halts A (.iter body i k) w

/-- Every evaluation of the program from `w` ends in `Q`, and there is one if `live`
holds. -/
def Ensures (A : Answers S W) (live : Prop) :
    {α : Type} → Prog S α → W → (α → W → Prop) → Prop
  | _, .ret a, w, Q => Q a w
  | _, .call c k, w, Q =>
      (live → ∃ r w', A w c r w') ∧ ∀ r w', A w c r w' → Ensures A live (k r) w' Q
  | _, @Prog.iter _ ι β _ body i k, w, Q =>
      ∃ (J : ι → W → Prop) (K : β → W → Prop) (measure : ι → W → Nat), J i w ∧
        (∀ i w, J i w → Ensures A live (body i) w
          (Sum.elim (fun i' w' ↦ J i' w' ∧ (live → measure i' w' < measure i w)) K)) ∧
        ∀ b w, K b w → Ensures A live (k b) w Q

section Rules

variable {A : Answers S W} {live : Prop} {w w' : W} {Q Q' : α → W → Prop} {K : β → W → Prop}

theorem Ensures.ret {a : α} (h : Q a w) : Ensures A live (pure a) w Q := h

theorem Ensures.command {c : S.Cmd} {Q : S.Resp c → W → Prop} (hlive : live → ∃ r w', A w c r w')
    (h : ∀ r w', A w c r w' → Q r w') : Ensures A live (Prog.perform c) w Q :=
  ⟨hlive, h⟩

/-- A weaker postcondition. -/
theorem Ensures.mono {p : Prog S α} (h : Ensures A live p w Q) (hq : ∀ a w', Q a w' → Q' a w') :
    Ensures A live p w Q' := by
  induction p generalizing w with
  | ret a => exact hq a w h
  | call c k ih => exact ⟨h.1, fun r w' hanswer ↦ ih r (h.2 r w' hanswer) hq⟩
  | iter body i k _ ih =>
      obtain ⟨J, K, measure, hj, hbody, hk⟩ := h
      exact ⟨J, K, measure, hj, hbody, fun b w' hb ↦ ih b (hk b w' hb) hq⟩

/-- One program after another. -/
theorem Ensures.bind {p : Prog S β} {f : β → Prog S α} (hp : Ensures A live p w K)
    (hf : ∀ b w', K b w' → Ensures A live (f b) w' Q) : Ensures A live (p >>= f) w Q := by
  induction p generalizing w with
  | ret b => exact hf b w hp
  | call c k ih => exact ⟨hp.1, fun r w' hanswer ↦ ih r (hp.2 r w' hanswer) hf⟩
  | iter body i k _ ih =>
      obtain ⟨J, K', measure, hj, hbody, hk⟩ := hp
      exact ⟨J, K', measure, hj, hbody, fun b w' hb ↦ ih b (hk b w' hb) hf⟩

/-- A program that may return an error, and what follows in each case. -/
theorem Ensures.check {ε : Type} {p : Prog S (Option ε)} {f : Option ε → Prog S α}
    {K : Option ε → W → Prop} (hp : Ensures A live p w K)
    (herr : ∀ err w', K (some err) w' → Ensures A live (f (some err)) w' Q)
    (hnone : ∀ w', K none w' → Ensures A live (f none) w' Q) : Ensures A live (p >>= f) w Q := by
  refine hp.bind fun r w' hr ↦ ?_
  cases r with
  | some err => exact herr err w' hr
  | none => exact hnone w' hr

/-- A loop, with an assertion for each round. -/
theorem Ensures.loop {body : ι → Prog S (ι ⊕ β)} (J : ι → W → Prop) (measure : ι → W → Nat)
    {i : ι} (hi : J i w) (hbody : ∀ i w, J i w → Ensures A live (body i) w
      (Sum.elim (fun i' w' ↦ J i' w' ∧ (live → measure i' w' < measure i w)) K)) :
    Ensures A live (Prog.loop body i) w K :=
  ⟨J, K, measure, hi, hbody, fun _ _ hk ↦ hk⟩

/-- The next round of a loop. -/
theorem Ensures.unfold {body : ι → Prog S (ι ⊕ β)} {i : ι} {k : β → Prog S α}
    (h : Ensures A live (.iter body i k) w Q) : Ensures A live (.unfold body i k) w Q := by
  obtain ⟨J, K, measure, hj, hbody, hk⟩ := h
  refine Ensures.bind (hbody i w hj) ?_
  rintro (i' | b) w' hw'
  · exact ⟨J, K, measure, hw'.1, hbody, hk⟩
  · exact hk b w' hw'

end Rules

section Still

variable {V : Type} {A : Answers S W} {view : W → V} {p : Prog S α} {f : α → Prog S β}

/-- A program leaves a view of the world as it is. -/
def Still (A : Answers S W) (view : W → V) (p : Prog S α) : Prop :=
  ∀ w, Ensures A False p w fun _ w' ↦ view w' = view w

theorem Still.ret (a : α) : Still A view (pure a : Prog S α) := fun _ ↦ rfl

theorem Still.bind (hp : Still A view p) (hf : ∀ a, Still A view (f a)) :
    Still A view (p >>= f) := by
  intro w
  refine (hp w).bind fun a w₁ h₁ ↦ ?_
  exact (hf a w₁).mono fun _ _ h ↦ h.trans h₁

/-- A program all of whose commands leave the view as it is. -/
theorem Still.of_within {P : S.Cmd → Prop} (hp : p.Within P)
    (h : ∀ c, P c → Still A view (Prog.perform c)) : Still A view p := by
  induction p with
  | ret a => exact .ret a
  | call c k ih => exact Still.bind (h c hp.1) fun r ↦ ih r (hp.2 r)
  | iter body i k ihbody ih =>
      intro w
      refine ⟨fun _ w' ↦ view w' = view w, fun _ w' ↦ view w' = view w, fun _ _ ↦ 0, rfl, ?_, ?_⟩
      · intro i w₁ h₁
        refine (ihbody i (hp.1 i) w₁).mono ?_
        rintro (i' | b) w₂ h₂
        · exact ⟨h₂.trans h₁, nofun⟩
        · exact h₂.trans h₁
      · exact fun b w₁ h₁ ↦ (ih b (hp.2 b) w₁).mono fun _ _ h₂ ↦ h₂.trans h₁

/-- After a program that leaves the second part of the world as it is. -/
theorem Still.next {A : Answers S (W × V)} {w : W × V} {Q : β → W × V → Prop}
    (hp : Still A Prod.snd p) (h : ∀ a v, Ensures A False (f a) (v, w.2) Q) :
    Ensures A False (p >>= f) w Q := by
  refine (hp w).bind ?_
  rintro a ⟨v, _⟩ rfl
  exact h a v

end Still

section Adequacy

variable {A : Answers S W} {live : Prop} {w w' : W} {Q : α → W → Prop} {a : α} {p : Prog S α}

/-- Every evaluation ends in the postcondition. -/
theorem Eval.ensures (h : Eval A p w a w') (hp : Ensures A live p w Q) : Q a w' := by
  induction h with
  | ret => exact hp
  | call hanswer _ ih => exact ih (hp.2 _ _ hanswer)
  | iter _ ih => exact ih hp.unfold

theorem Prog.unfold_bind (body : ι → Prog S (ι ⊕ β)) (i : ι) {γ : Type} (k : β → Prog S γ)
    (f : γ → Prog S α) : (Prog.unfold body i k >>= f) = Prog.unfold body i fun b ↦ k b >>= f := by
  refine (Prog.bind_assoc ..).trans ?_
  congr 1
  funext x
  cases x <;> rfl

theorem Eval.bind {q : Prog S β} {f : β → Prog S α} {b : β} {w₁ : W} (hq : Eval A q w b w₁)
    (hf : Eval A (f b) w₁ a w') : Eval A (q >>= f) w a w' := by
  induction hq with
  | ret => exact hf
  | call hanswer _ ih => exact .call hanswer (ih hf)
  | @iter _ _ body i k _ _ _ _ ih =>
      refine .iter ?_
      exact Prog.unfold_bind .. ▸ ih hf

/-- A program that is answered and whose loops end has an evaluation. -/
theorem Ensures.eval (h : Ensures A True p w Q) : ∃ a w', Eval A p w a w' ∧ Q a w' := by
  suffices hsuff : ∃ a w', Eval A p w a w' by
    obtain ⟨a, w', heval⟩ := hsuff
    exact ⟨a, w', heval, heval.ensures h⟩
  induction p generalizing w with
  | ret a => exact ⟨a, w, .ret⟩
  | call c k ih =>
      obtain ⟨r, w', hanswer⟩ := h.1 trivial
      obtain ⟨a, w'', heval⟩ := ih r (h.2 r w' hanswer)
      exact ⟨a, w'', .call hanswer heval⟩
  | iter body i k ihbody ih =>
      obtain ⟨J, K, measure, hj, hbody, hk⟩ := h
      -- The measure goes down with every round.
      induction hn : measure i w using Nat.strongRecOn generalizing i w with
      | _ n ihn =>
          obtain ⟨x, w₁, hround⟩ := ihbody i (hbody i w hj)
          have hx := hround.ensures (hbody i w hj)
          cases x with
          | inl i' =>
              obtain ⟨a, w', heval⟩ := ihn _ (hn ▸ hx.2 trivial) i' hx.1 rfl
              exact ⟨a, w', .iter (hround.bind heval)⟩
          | inr b =>
              obtain ⟨a, w', heval⟩ := ih b (hk b w₁ hx)
              exact ⟨a, w', .iter (hround.bind heval)⟩

theorem Halts.bind {q : Prog S β} {f : β → Prog S α} {K : β → W → Prop} (hq : Halts A q w)
    (hk : Ensures A live q w K) (hf : ∀ b w', K b w' → Halts A (f b) w') : Halts A (q >>= f) w := by
  induction hq with
  | ret => exact hf _ _ hk
  | call hanswer _ ih => exact .call hanswer fun r w' ha ↦ ih r w' ha (hk.2 r w' ha)
  | @iter _ _ body i k _ _ ih =>
      refine .iter ?_
      exact Prog.unfold_bind .. ▸ ih hk.unfold

/-- What comes to an end has an evaluation. -/
theorem Halts.eval (h : Halts A p w) : ∃ a w', Eval A p w a w' := by
  induction h with
  | @ret a w => exact ⟨a, w, .ret⟩
  | call hanswer _ ih =>
      obtain ⟨r, w', hr⟩ := hanswer
      obtain ⟨a, w'', heval⟩ := ih r w' hr
      exact ⟨a, w'', .call hr heval⟩
  | iter _ ih =>
      obtain ⟨a, w', heval⟩ := ih
      exact ⟨a, w', .iter heval⟩

/-- A program that is answered and whose loops have a measure comes to an end. -/
theorem Ensures.halts (h : Ensures A True p w Q) : Halts A p w := by
  induction p generalizing w with
  | ret a => exact .ret
  | call c k ih => exact .call (h.1 trivial) fun r w' ha ↦ ih r (h.2 r w' ha)
  | iter body i k ihbody ih =>
      obtain ⟨J, K, measure, hj, hbody, hk⟩ := h
      induction hn : measure i w using Nat.strongRecOn generalizing i w with
      | _ n ihn =>
          refine .iter (Halts.bind (ihbody i (hbody i w hj)) (hbody i w hj) ?_)
          rintro (i' | b) w' hw'
          · exact ihn _ (hn ▸ hw'.2 trivial) i' hw'.1 rfl
          · exact ih b (hk b w' hw')

end Adequacy

section Noting

variable {H : Type}

/-- A world that also keeps what is noted of the commands. -/
def Answers.noting (A : Answers S W) (note : S.Cmd → List H) : Answers S (W × List H) :=
  fun w c r w' ↦ A w.1 c r w'.1 ∧ w'.2 = w.2 ++ note c

variable {A : Answers S W} {w w' : W} {a : α} {p : Prog S α}

theorem Eval.noting (h : Eval A p w a w') (note : S.Cmd → List H) (noted : List H) :
    ∃ noted', Eval (A.noting note) p (w, noted) a (w', noted') := by
  induction h generalizing noted with
  | ret => exact ⟨noted, .ret⟩
  | @call c _ r _ w w₁ _ hanswer _ ih =>
      obtain ⟨noted', heval⟩ := ih (noted ++ note c)
      have hnoting : A.noting note (w, noted) c r (w₁, noted ++ note c) := ⟨hanswer, rfl⟩
      exact ⟨noted', .call hnoting heval⟩
  | iter _ ih =>
      obtain ⟨noted', heval⟩ := ih noted
      exact ⟨noted', .iter heval⟩

end Noting

section Machine

variable {Tid State : Type} {M : Machine S Tid State} {t : Tid}

/-- The thread of a machine, beside something else that answers its commands. -/
def Machine.beside {V : Type} (M : Machine S Tid State) (t : Tid) (A : Answers S V) :
    Answers S (State × V) :=
  fun w c r w' ↦ M.apply t c r w.1 = some w'.1 ∧ A w.2 c r w'.2

variable [DecidableEq Tid] {R : Tid → Type} {A : Answers S W} {w w' : W} {v : W → State}
  {P : Label S Tid → Prop} {J : List (Label S Tid) → W → Prop} {p : Prog S (R t)} {a : R t}
  {c : Config S State R} {threads : (t : Tid) → Prog S (R t)} {trace : List (Label S Tid)}

/-- An evaluation is a run in which one thread takes all the steps. -/
theorem Eval.run (hcall : ∀ trace w c r w', J trace w → A w c r w' →
      M.apply t c r (v w) = some (v w') ∧ P (.call t c r) ∧ J (trace ++ [.call t c r]) w')
    (hsilent : ∀ trace w, J trace w → P (.silent t) ∧ J (trace ++ [.silent t]) w)
    (h : Eval A p w a w') (hthread : threads t = p) (hj : J trace w)
    (hrun : RunWhere M (fun _ l ↦ P l ∧ l.thread = t) c trace ⟨v w, threads⟩) :
    ∃ trace', J trace' w' ∧ RunWhere M (fun _ l ↦ P l ∧ l.thread = t) c trace'
      ⟨v w', Function.update threads t (.ret a)⟩ := by
  induction h generalizing threads trace with
  | ret =>
      rw [← hthread, Function.update_eq_self]
      exact ⟨trace, hj, hrun⟩
  | @call cmd k r a w w' w'' hanswer _ ih =>
      obtain ⟨happly, hp, hj'⟩ := hcall trace w cmd r w' hj hanswer
      have hstep : Step M ⟨v w, threads⟩ (.call t cmd r) _ := .call hthread happly
      obtain ⟨trace', hj'', hrun'⟩ := ih (Function.update_self ..) hj' (hrun.snoc ⟨hp, rfl⟩ hstep)
      rw [Function.update_idem] at hrun'
      exact ⟨trace', hj'', hrun'⟩
  | @iter _ _ body i k a w w' _ ih =>
      obtain ⟨hp, hj'⟩ := hsilent trace w hj
      have hstep : Step M ⟨v w, threads⟩ (.silent t) _ := .silent hthread
      obtain ⟨trace', hj'', hrun'⟩ := ih (Function.update_self ..) hj' (hrun.snoc ⟨hp, rfl⟩ hstep)
      rw [Function.update_idem] at hrun'
      exact ⟨trace', hj'', hrun'⟩

end Machine

end GoFilesystem.Conc
